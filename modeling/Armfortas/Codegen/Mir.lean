/-! Instructions over virtual and physical registers, the stack frame and the machine function. Register numbers,
positions and frame offsets are numbers without bounds. -/
namespace Armfortas.Codegen

abbrev VRegId := Nat

abbrev MBlockId := Nat

inductive RegClass
  | gp64
  | gp32
  | fp64
  | fp32
  | v128
  deriving DecidableEq, Repr

def RegClass.isFp : RegClass → Bool
  | .fp32 | .fp64 | .v128 => true
  | _ => false

inductive ArmOpcode
  | addReg | addsReg | adcReg | addImm | subReg | subsReg | sbcReg | subImm | mul | sdiv | madd | msub | neg
  | andReg | orrReg | eorReg | ornReg | lslReg | lsrReg | asrReg | mvn | clz | rbit | cmpReg | cmpImm | cset
  | cselReg | fCmpReg | fCset | fcselReg | faddS | faddD | fsubS | fsubD | fmulS | fmulD | fdivS | fdivD
  | fnegS | fnegD | fabsS | fabsD | fsqrtS | fsqrtD | fmaddS | fmaddD | addV4S | addV2D | subV4S | subV2D
  | mulV4S | negV4S | negV2D | absV4S | absV2D | faddV4S | faddV2D | fsubV4S | fsubV2D | fmulV4S | fmulV2D
  | fdivV4S | fdivV2D | fnegV4S | fnegV2D | fabsV4S | fabsV2D | fsqrtV4S | fsqrtV2D | fmlaV4S | fmlaV2D
  | bslV16B | fcmgtV4S | fcmgtV2D | fcmgeV4S | fcmgeV2D | fcmeqV4S | fcmeqV2D | cmgtV4S | cmgeV4S | cmeqV4S
  | fminV4S | fminV2D | fmaxV4S | fmaxV2D | sminV4S | smaxV4S | uminV4S | umaxV4S | faddpV2S | faddpV4S
  | faddpV2D | faddv4S | sminv4S | smaxv4S | fmaxvV4S | fminvV4S | fmaxpV2DScalar | fminpV2DScalar | addpV2D
  | uminv4S | umaxv4S | addv4S | dupGen4S | dupGen2D | dupEl4S | dupEl2D | ins4S | ins2D | umov4S | umov2D
  | fmovEl4S | fmovEl2D | ldrQ | strQ | mov16B | fmsubS | fmsubD | fnmsubS | fnmsubD | scvtfSW | scvtfDW
  | scvtfSX | scvtfDX | fcvtzsWS | fcvtzsWD | fcvtzsXS | fcvtzsXD | fcvtSD | fcvtDS | movImm | movz | movk
  | movn | movReg | fmovReg | callArgCopyStart | callResultCopyEnd | strImm | ldrImm | strhImm | ldrshImm
  | strbImm | ldrsbImm | strFpImm | ldrFpImm | ldrReg | strReg | ldrFpReg | strFpReg | stpPre | ldpPost
  | stpOffset | ldpOffset | adrpLdr | adrpAdd | adrpGotLdr | b | bLong | bCond | cbz | cbnz | tbz | tbnz | bl
  | blr | ret | sxtw | sxth | sxtb | nop | brk
  deriving DecidableEq, Repr

/-- Operand zero is both an input and the destination. -/
def ArmOpcode.readsDefOperand : ArmOpcode → Bool
  | .fmlaV4S | .fmlaV2D | .bslV16B | .ins4S | .ins2D | .movk => true
  | _ => false

def ArmOpcode.isCall : ArmOpcode → Bool
  | .bl | .blr => true
  | _ => false

inductive ArmCond
  | eq | ne | hs | lo | mi | pl | hi | ls | ge | lt | gt | le
  deriving DecidableEq, Repr

inductive PhysReg
  | gp (n : Nat)
  | gp32 (n : Nat)
  | fp (n : Nat)
  | fp32 (n : Nat)
  | sp
  | xzr
  | wzr
  deriving DecidableEq, Repr

inductive MachineOperand
  | vreg (v : VRegId)
  | physReg (r : PhysReg)
  | imm (n : Int)
  | frameSlot (offset : Int)
  | cond (c : ArmCond)
  | blockRef (b : MBlockId)
  | externSymbol (name : String)
  | globalLabel (name : String)
  | constPool (index : Nat)
  | shift (amount : Nat)
  deriving DecidableEq, Repr

structure MachineInst where
  opcode : ArmOpcode
  operands : List MachineOperand
  /-- the virtual register the instruction defines -/
  defReg : Option VRegId
  deriving DecidableEq, Repr

def MachineInst.refs (i : MachineInst) : List VRegId :=
  i.defReg.toList ++ i.operands.filterMap fun
    | .vreg v => some v
    | _ => none

structure MachineBlock where
  id : MBlockId
  label : String
  insts : List MachineInst
  deriving DecidableEq, Repr

/-! ## The stack frame -/

@[ext] structure FrameSlot where
  /-- negative, from the frame pointer -/
  offset : Int
  size : Nat
  deriving DecidableEq, Repr

structure StackFrame where
  locals : List FrameSlot
  size : Nat
  nextOffset : Nat
  outgoingArgSize : Nat
  deriving DecidableEq, Repr

def roundUp (n align : Nat) : Nat := (n + (align - 1)) / align * align

/-- A slot below all others, aligned by its size. -/
def StackFrame.allocLocal (frame : StackFrame) (size : Nat) : Int × StackFrame :=
  let align := if 16 ≤ size then 16 else if 8 ≤ size then 8 else 4
  let next := roundUp (frame.nextOffset + size) align
  let offset : Int := -next
  (offset, { frame with
    nextOffset := next
    locals := frame.locals ++ [{ offset := offset, size := size }]
    size := roundUp (16 + next + frame.outgoingArgSize) 16 })

/-! ## Functions -/

/-- A machine function. The number of a virtual register is its place in `vregs`; `new_vreg` is the only way to
get one, so no instruction mentions another. -/
structure MachineFunction where
  blocks : List MachineBlock
  frame : StackFrame
  /-- the classes of the virtual registers -/
  vregs : List RegClass
  entryArgReceipts : List VRegId
  declared : ∀ b ∈ blocks, ∀ i ∈ b.insts, ∀ v ∈ i.refs, v < vregs.length

namespace MachineFunction

def newVReg (mf : MachineFunction) (cls : RegClass) : VRegId × MachineFunction :=
  (mf.vregs.length, { mf with
    vregs := mf.vregs ++ [cls]
    declared := fun b hb i hi v hv => by
      rw [List.length_append]
      exact Nat.lt_add_right _ (mf.declared b hb i hi v hv) })

def allocLocal (mf : MachineFunction) (size : Nat) : Int × MachineFunction :=
  let r := mf.frame.allocLocal size
  (r.1, { mf with frame := r.2 })

/-- The class of a virtual register; general purpose when it has none. -/
def classOf (mf : MachineFunction) (v : VRegId) : RegClass := mf.vregs[v]?.getD .gp64

end MachineFunction

end Armfortas.Codegen
