import Armfortas.Ir.Loops

/-! A small array slot that is only accessed at constant indices is split into one slot for each element. -/
namespace Armfortas.Opt.Sroa
open Lib Ir

def sroaMaxFields : Nat := 8

structure SroaCandidate where
  allocaId : ValueId
  allocaBlock : BlockId
  allocaInstIdx : Nat
  elemTy : IrType
  count : Nat
  deriving DecidableEq, Repr

/-! ## Candidates -/

/-- An element pointer used other than as the address of a scalar access. -/
def gepResultEscapes (f : Function) (gep : ValueId) : Bool :=
  f.blocks.any fun b =>
    (b.insts.any fun i => i.kind.operands.contains gep && match i.kind with
      | .load ptr => ptr != gep
      | .store _ ptr => ptr != gep
      | _ => true) ||
    match b.terminator with
    | some (.return (some v)) => v == gep
    | some (.branch _ args) => args.contains gep
    | some (.condBranch cond _ trueArgs _ falseArgs) =>
        cond == gep || trueArgs.contains gep || falseArgs.contains gep
    | some (.switch selector _ _) => selector == gep
    | _ => false

def isByteLevel (f : Function) (gep : ValueId) : Bool :=
  match f.valueType gep with
  | some (.ptr (.int .i8)) => true
  | _ => false

/-- All instructions that use the slot are element pointers with one constant index. -/
def isEligible (f : Function) (allocaId : ValueId) : Bool :=
  f.allInsts.all fun i => !i.kind.operands.contains allocaId || match i.kind with
    | .getElementPtr base [index] =>
        base == allocaId && (f.resolveConstInt index).isSome && !isByteLevel f i.id && !gepResultEscapes f i.id
    | _ => false

def candidateAt (f : Function) (b : BlockId) (i : Inst) (idx : Nat) : Option SroaCandidate :=
  match i.kind with
  | .alloca (.array elem count) =>
      if count ≤ sroaMaxFields ∧ 0 < count ∧ isEligible f i.id = true then
        some { allocaId := i.id, allocaBlock := b, allocaInstIdx := idx, elemTy := elem, count := count }
      else none
  | _ => none

def findCandidates (f : Function) : List SroaCandidate :=
  f.blocks.flatMap fun b => b.insts.zipIdx.filterMap fun p => candidateAt f b.id p.1 p.2

/-! ## Decomposition -/

/-- The slots of the first `n` elements, placed behind the array. -/
def insertFields (f : Function) (cand : SroaCandidate) : Nat → Function
  | 0 => f
  | n + 1 => (insertFields f cand n).insertInst cand.allocaBlock (cand.allocaInstIdx + 1 + n) (.alloca cand.elemTy)
      (.ptr cand.elemTy)

def fieldIndex (f : Function) (cand : SroaCandidate) (i : Inst) : Option Nat :=
  match i.kind with
  | .getElementPtr base [index] =>
      if base = cand.allocaId then
        (f.resolveConstInt index).bind fun idx => if 0 ≤ idx ∧ idx < cand.count then some idx.toNat else none
      else none
  | _ => none

/-- `gep_to_field`; the element slots are numbered from `first`. -/
def gepToField (f : Function) (cand : SroaCandidate) (first : ValueId) : AssocMap ValueId ValueId :=
  (f.allInsts.filterMap fun i => (fieldIndex f cand i).map fun k => (i.id, first + k)).reverse

/-- Accesses through an element pointer go to the element's slot. -/
def retarget (m : AssocMap ValueId ValueId) : InstKind → InstKind
  | .load ptr => .load (m.getD ptr ptr)
  | .store v ptr => .store v (m.getD ptr ptr)
  | k => k

def retargetFunction (m : AssocMap ValueId ValueId) (f : Function) : Function :=
  { f with blocks := f.blocks.map fun b =>
      { b with insts := b.insts.map fun i => { i with kind := retarget m i.kind } } }

def decomposeAlloca (f : Function) (cand : SroaCandidate) : Function × Bool :=
  let func := insertFields f cand cand.count
  let m := gepToField func cand f.nextValue
  if m.isEmpty then (func, false) else (retargetFunction m func, true)

def sroaStep (acc : Function × Bool) (cand : SroaCandidate) : Function × Bool :=
  let (func, split) := decomposeAlloca acc.1 cand
  (func, split || acc.2)

def sroaFunction (f : Function) : Function × Bool := (findCandidates f).foldl sroaStep (f, false)

end Armfortas.Opt.Sroa
