import Armfortas.Codegen.Mir
import Mathlib.Algebra.Group.Nat.Defs
import Mathlib.Logic.Function.Basic

/-! The lines that the emitter writes for an addition or a subtraction of a constant, and what they do to the 64-bit
registers. -/
namespace Armfortas.Codegen

/-! ## Lines -/

inductive ImmOp
  | add
  | sub
  deriving DecidableEq, Repr

def ImmOp.inverse : ImmOp → ImmOp
  | .add => .sub
  | .sub => .add

/-- A line of assembly, as far as immediate arithmetic writes it. -/
inductive AsmLine
  | arithImm (op : ImmOp) (dest base : PhysReg) (magnitude : Nat) (shift12 : Bool)
  | arithReg (op : ImmOp) (dest base rhs : PhysReg)
  | movz (reg : PhysReg) (chunk shift : Nat)
  | movk (reg : PhysReg) (chunk shift : Nat)
  deriving DecidableEq, Repr

/-! ## The emitter -/

/-- The parts of a value from the lowest on; the first that is written clears the others. -/
def u64ImmParts (reg : PhysReg) (value : Nat) : Bool → List Nat → List AsmLine
  | wrotePart, [] => if wrotePart then [] else [.movz reg 0 0]
  | wrotePart, shift :: shifts =>
      let chunk := (value >>> shift) % 2 ^ 16
      if chunk = 0 then u64ImmParts reg value wrotePart shifts
      else (if wrotePart then .movk reg chunk shift else .movz reg chunk shift) :: u64ImmParts reg value true shifts

def writeU64ImmInto (reg : PhysReg) (value : Nat) : List AsmLine := u64ImmParts reg value false [0, 16, 32, 48]

/-- The loop over chunks of twelve bits and what is left after it. Every line but the first adds to the destination. -/
def gpImmChunks (op : ImmOp) (dest base : PhysReg) (remaining : Nat) : List AsmLine :=
  if 4096 ≤ remaining then
    let chunk := min (remaining >>> 12) 4095
    .arithImm op dest base chunk true :: gpImmChunks op dest dest (remaining - chunk <<< 12)
  else if 0 < remaining then [.arithImm op dest base remaining false]
  else []
termination_by remaining
decreasing_by
  rw [Nat.shiftRight_eq_div_pow, Nat.shiftLeft_eq]
  omega

/-- `none` where the assertion on the size fails. -/
def writeGpImmInto (op : ImmOp) (dest base : PhysReg) (destBaseAlias destIsSp : Bool) (n : Int) :
    Option (List AsmLine) :=
  let op := if 0 ≤ n then op else op.inverse
  let magnitude := n.natAbs
  if magnitude ≤ 4095 then some [.arithImm op dest base magnitude false]
  else if !destBaseAlias && !destIsSp then some (writeU64ImmInto dest magnitude ++ [.arithReg op dest base dest])
  else if magnitude ≤ 2 ^ 32 - 1 then some (gpImmChunks op dest base magnitude)
  else none

/-- The number of the general purpose register, in either view. -/
def PhysReg.gpIndex : PhysReg → Option Nat
  | .gp n | .gp32 n => some n
  | _ => none

def gpOperandsAlias (lhs rhs : PhysReg) : Bool :=
  match lhs.gpIndex, rhs.gpIndex with
  | some a, some b => a == b
  | _, _ => false

/-- `AddImm` and `SubImm` of registers and a constant. The operand `Imm(-1)` does not come here: it stands for the
size of the frame, and `fmt_sp_imm` writes it. -/
def emitGpImm (op : ImmOp) (dest base : PhysReg) (n : Int) : Option (List AsmLine) :=
  writeGpImmInto op dest base (gpOperandsAlias dest base) (dest == .sp) n

/-! ## The 64-bit registers -/

inductive XReg
  | x (n : Fin 31)
  | sp
  deriving DecidableEq, Repr

def XReg.operand : XReg → PhysReg
  | .x n => .gp n
  | .sp => .sp

abbrev XFile := XReg → BitVec 64

def PhysReg.xreg : PhysReg → Option XReg
  | .gp n => if h : n < 31 then some (.x ⟨n, h⟩) else none
  | .sp => some .sp
  | _ => none

/-- The zero register reads as zero. -/
def XFile.read (regs : XFile) (r : PhysReg) : BitVec 64 := (r.xreg.map regs).getD 0

def XFile.write (regs : XFile) (r : PhysReg) (v : BitVec 64) : XFile :=
  match r.xreg with
  | some x => Function.update regs x v
  | none => regs

def ImmOp.apply : ImmOp → BitVec 64 → BitVec 64 → BitVec 64
  | .add, a, b => a + b
  | .sub, a, b => a - b

namespace AsmLine

def exec (regs : XFile) : AsmLine → XFile
  | arithImm op dest base magnitude shift12 =>
      regs.write dest (op.apply (regs.read base) (BitVec.ofNat 64 (if shift12 then magnitude <<< 12 else magnitude)))
  | arithReg op dest base rhs => regs.write dest (op.apply (regs.read base) (regs.read rhs))
  | movz reg chunk shift => regs.write reg (BitVec.ofNat 64 chunk <<< shift)
  | movk reg chunk shift =>
      regs.write reg ((regs.read reg &&& ~~~ (0xFFFF#64 <<< shift)) ||| (BitVec.ofNat 64 chunk <<< shift))

/-- There is an encoding: twelve bits for arithmetic, on `X0` to `X30` and the stack pointer; sixteen bits at a
multiple of sixteen for a move, not into the stack pointer; a second source that is not the stack pointer. -/
def encodable : AsmLine → Bool
  | arithImm _ dest base magnitude _ => dest.xreg.isSome && base.xreg.isSome && decide (magnitude < 2 ^ 12)
  | arithReg _ dest base rhs => dest.xreg.isSome && base.xreg.isSome && rhs.xreg.isSome && rhs != .sp
  | movz reg chunk shift | movk reg chunk shift =>
      reg.xreg.isSome && reg != .sp && decide (chunk < 2 ^ 16) && [0, 16, 32, 48].contains shift

def run (lines : List AsmLine) (regs : XFile) : XFile := lines.foldl exec regs

end AsmLine

end Armfortas.Codegen
