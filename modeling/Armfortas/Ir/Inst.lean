import Armfortas.Ir.Types

/-! Values and blocks are numbered. Instructions of one shape share a constructor and differ in the operator they
carry; the source has one variant for each. Source positions, the cached value types and the block-position index are
not part of the model: every lookup goes through the block list. -/
namespace Armfortas.Ir

abbrev ValueId := Nat
abbrev BlockId := Nat

inductive FuncRef
  | internal (index : Nat)
  | external (name : String)
  | indirect (target : ValueId)
  deriving DecidableEq, Repr

inductive RuntimeFunc
  | printInt
  | printReal
  | printString
  | printLogical
  | printNewline
  | allocate
  | deallocate
  | stringConcat
  | stringCopy
  | stringCompare
  | stop
  | errorStop
  | checkBounds
  | checkArrayAssignmentConformance
  deriving DecidableEq, Repr

def RuntimeFunc.debug : RuntimeFunc → String
  | .printInt => "PrintInt"
  | .printReal => "PrintReal"
  | .printString => "PrintString"
  | .printLogical => "PrintLogical"
  | .printNewline => "PrintNewline"
  | .allocate => "Allocate"
  | .deallocate => "Deallocate"
  | .stringConcat => "StringConcat"
  | .stringCopy => "StringCopy"
  | .stringCompare => "StringCompare"
  | .stop => "Stop"
  | .errorStop => "ErrorStop"
  | .checkBounds => "CheckBounds"
  | .checkArrayAssignmentConformance => "CheckArrayAssignmentConformance"

inductive CmpOp
  | eq
  | ne
  | lt
  | le
  | gt
  | ge
  deriving DecidableEq, Repr

/-- `IAdd`, `ISub`, `IMul`, `IDiv`, `IMod`. -/
inductive IntBinOp
  | add
  | sub
  | mul
  | div
  | mod
  deriving DecidableEq, Repr

/-- `FAdd`, `FSub`, `FMul`, `FDiv`, `FPow`. -/
inductive FloatBinOp
  | add
  | sub
  | mul
  | div
  | pow
  deriving DecidableEq, Repr

/-- `FNeg`, `FAbs`, `FSqrt`. -/
inductive FloatUnOp
  | neg
  | abs
  | sqrt
  deriving DecidableEq, Repr

/-- `And`, `Or` on logicals. -/
inductive BoolBinOp
  | and
  | or
  deriving DecidableEq, Repr

/-- `BitAnd`, `BitOr`, `BitXor`, `Shl`, `LShr`, `AShr`. -/
inductive BitBinOp
  | and
  | or
  | xor
  | shl
  | lshr
  | ashr
  deriving DecidableEq, Repr

/-- `BitNot`, `CountLeadingZeros`, `CountTrailingZeros`, `PopCount`. -/
inductive BitUnOp
  | not
  | countLeadingZeros
  | countTrailingZeros
  | popCount
  deriving DecidableEq, Repr

/-- `VAdd`, `VSub`, `VMul`, `VDiv`, `VMin`, `VMax`. -/
inductive VecBinOp
  | add
  | sub
  | mul
  | div
  | min
  | max
  deriving DecidableEq, Repr

/-- `VNeg`, `VAbs`, `VSqrt`. -/
inductive VecUnOp
  | neg
  | abs
  | sqrt
  deriving DecidableEq, Repr

/-- `VReduceSum`, `VReduceMin`, `VReduceMax`. -/
inductive VecReduceOp
  | sum
  | min
  | max
  deriving DecidableEq, Repr

/-- What an instruction computes. A floating constant is its `f64` bit pattern, a string constant its
bytes. -/
inductive InstKind
  | constInt (value : Int) (w : IntWidth)
  | constFloat (bits : BitVec 64) (w : FloatWidth)
  | constBool (value : Bool)
  | constString (bytes : List (BitVec 8))
  | undef (ty : IrType)
  | iBin (op : IntBinOp) (a b : ValueId)
  | iNeg (a : ValueId)
  | fBin (op : FloatBinOp) (a b : ValueId)
  | fUn (op : FloatUnOp) (a : ValueId)
  | iCmp (op : CmpOp) (a b : ValueId)
  | fCmp (op : CmpOp) (a b : ValueId)
  | logic (op : BoolBinOp) (a b : ValueId)
  | not (a : ValueId)
  | select (c t f : ValueId)
  | bitBin (op : BitBinOp) (a b : ValueId)
  | bitUn (op : BitUnOp) (a : ValueId)
  | intToFloat (v : ValueId) (w : FloatWidth)
  | floatToInt (v : ValueId) (w : IntWidth)
  | floatExtend (v : ValueId) (w : FloatWidth)
  | floatTrunc (v : ValueId) (w : FloatWidth)
  | intExtend (v : ValueId) (w : IntWidth) (signed : Bool)
  | intTrunc (v : ValueId) (w : IntWidth)
  | ptrToInt (v : ValueId)
  | intToPtr (v : ValueId) (ty : IrType)
  | alloca (ty : IrType)
  | load (addr : ValueId)
  | store (value addr : ValueId)
  | volatileLoad (addr : ValueId)
  | volatileStore (value addr : ValueId)
  | getElementPtr (base : ValueId) (idxs : List ValueId)
  | globalAddr (name : String)
  | call (callee : FuncRef) (args : List ValueId)
  | runtimeCall (func : RuntimeFunc) (args : List ValueId)
  | extractField (agg : ValueId) (field : Nat)
  | insertField (agg : ValueId) (field : Nat) (value : ValueId)
  | vBin (op : VecBinOp) (a b : ValueId)
  | vUn (op : VecUnOp) (a : ValueId)
  | vFma (a b c : ValueId)
  | vSelect (m t f : ValueId)
  | vICmp (op : CmpOp) (a b : ValueId)
  | vFCmp (op : CmpOp) (a b : ValueId)
  | vLoad (addr : ValueId)
  | vStore (value addr : ValueId)
  | vBitcast (v : ValueId) (ty : IrType)
  | vExtract (v : ValueId) (lane : Nat)
  | vInsert (v : ValueId) (lane : Nat) (scalar : ValueId)
  | vBroadcast (scalar : ValueId)
  | vReduce (op : VecReduceOp) (v : ValueId)
  deriving DecidableEq, Repr

structure Inst where
  id : ValueId
  kind : InstKind
  ty : IrType
  deriving DecidableEq, Repr

/-- How a block ends. Branches pass arguments to the parameters of their target; `switch` passes none. -/
inductive Terminator
  | return (value : Option ValueId)
  | branch (dest : BlockId) (args : List ValueId)
  | condBranch (cond : ValueId) (trueDest : BlockId) (trueArgs : List ValueId)
      (falseDest : BlockId) (falseArgs : List ValueId)
  | switch (selector : ValueId) (cases : List (Int × BlockId)) (default : BlockId)
  | unreachable
  deriving DecidableEq, Repr

structure BlockParam where
  id : ValueId
  ty : IrType
  deriving DecidableEq, Repr

structure BasicBlock where
  id : BlockId
  name : String
  params : List BlockParam
  insts : List Inst
  terminator : Option Terminator
  deriving DecidableEq, Repr

structure Param where
  id : ValueId
  ty : IrType
  fortranNoalias : Bool
  deriving DecidableEq, Repr

/-- A function. `nextValue` is the cursor fresh value numbers are drawn from; `internalOnly` marks contained
procedures, which have no part in the object's ABI. -/
structure Function where
  name : String
  params : List Param
  returnType : IrType
  blocks : List BasicBlock
  entry : BlockId
  nextValue : ValueId
  directlyDereferenceableParams : List ValueId := []
  isPure : Bool := false
  internalOnly : Bool := false
  deriving DecidableEq, Repr

namespace Function

def tryBlock (func : Function) (id : BlockId) : Option BasicBlock :=
  func.blocks.find? (·.id == id)

def modifyBlock (func : Function) (id : BlockId) (g : BasicBlock → BasicBlock) : Function :=
  { func with blocks := func.blocks.modify (func.blocks.findIdx (·.id == id)) g }

/-- Hand out the cursor and advance it. -/
def nextValueId (func : Function) : ValueId × Function :=
  (func.nextValue, { func with nextValue := func.nextValue + 1 })

/-- Put a new instruction at position `pos` of block `b`. -/
def insertInst (func : Function) (b : BlockId) (pos : Nat) (kind : InstKind) (ty : IrType) : Function :=
  let (id, func) := func.nextValueId
  func.modifyBlock b fun block => { block with insts := block.insts.insertIdx pos ⟨id, kind, ty⟩ }

def allInsts (func : Function) : List Inst :=
  func.blocks.flatMap (·.insts)

def findDefiningInst (func : Function) (v : ValueId) : Option Inst :=
  func.allInsts.find? (·.id == v)

/-- Every value the function defines with its type: its parameters, then block by block the block's
parameters and instructions. -/
def definitions (func : Function) : List (ValueId × IrType) :=
  func.params.map (fun p => (p.id, p.ty)) ++
    func.blocks.flatMap fun block =>
      block.params.map (fun p => (p.id, p.ty)) ++ block.insts.map fun i => (i.id, i.ty)

def valueType (func : Function) (v : ValueId) : Option IrType := func.definitions.lookup v

end Function

end Armfortas.Ir
