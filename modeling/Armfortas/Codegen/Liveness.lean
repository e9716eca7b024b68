import Armfortas.Codegen.Mir
import Armfortas.Lib.Exhaust
import Mathlib.Data.Finset.Dedup
import Mathlib.Data.Finset.Empty
import Mathlib.Data.Finset.Erase
import Mathlib.Data.Finset.Lattice.Basic
import Mathlib.Data.List.Sort

/-! Backward dataflow over the blocks, and for each virtual register the range of positions from its first to its last
mention or live block. The fixpoint loop runs on fuel. -/
namespace Armfortas.Codegen
open Lib

/-! ## Calls inside an interval -/

inductive CallCrossing
  | none
  | one (position : Nat)
  | multiple
  deriving DecidableEq, Repr

/-- How many calls lie strictly inside. The calls are in ascending order, so a
partition point is the length of the prefix it ends. -/
def classifyCallCrossing (sortedCalls : List Nat) (start stop : Nat) : CallCrossing :=
  let first := (sortedCalls.takeWhile (· ≤ start)).length
  let afterLast := (sortedCalls.takeWhile (· < stop)).length
  match afterLast - first with
  | 0 => .none
  | 1 => match sortedCalls[first]? with
      | some position => .one position
      | none => .none
  | _ => .multiple

/-! ## Intervals -/

structure LiveInterval where
  vreg : VRegId
  cls : RegClass
  start : Nat
  stop : Nat
  hint : Option Nat
  deriving DecidableEq, Repr

structure LivenessResult where
  intervals : List LiveInterval
  callPositions : List Nat
  numPositions : Nat
  deriving DecidableEq, Repr

/-- The positions of a block's instructions go up by two. -/
def numbered : Nat → List MachineInst → List (Nat × MachineInst)
  | _, [] => []
  | p, i :: is => (p, i) :: numbered (p + 2) is

/-- Blocks with the position of their first instruction. -/
def spansFrom : Nat → List MachineBlock → List (Nat × MachineBlock)
  | _, [] => []
  | p, b :: bs => (p, b) :: spansFrom (p + 2 * b.insts.length) bs

namespace MachineFunction

def vregCapacity (mf : MachineFunction) : Nat :=
  (mf.blocks.flatMap fun b => b.insts.flatMap (·.refs)).foldl (fun m v => max m (v + 1)) mf.vregs.length

def spans (mf : MachineFunction) : List (Nat × MachineBlock) := spansFrom 0 mf.blocks

def numberedInsts (mf : MachineFunction) : List (Nat × MachineInst) :=
  mf.spans.flatMap fun (start, b) => numbered start b.insts

/-- The number of a block in the list; the last one when there are several. -/
def blockIndex (mf : MachineFunction) (id : MBlockId) : Option Nat :=
  (mf.blocks.zipIdx.filter (·.1.id == id)).getLast?.map (·.2)

/-- The block an instruction branches to. Fused compare-and-branch instructions are not looked at. -/
def branchIndex (mf : MachineFunction) (i : MachineInst) : Option Nat :=
  let target : Option MachineOperand := match i.opcode with
    | .b | .bLong => i.operands[0]?
    | .bCond => i.operands[1]?
    | _ => none
  match target with
  | some (.blockRef b) => mf.blockIndex b
  | _ => none

def blockSuccessors (mf : MachineFunction) (b : MachineBlock) : List Nat := (b.insts.filterMap mf.branchIndex).dedup

end MachineFunction

/-- The registers an instruction reads. A destination that is only written counts when asked to. -/
def MachineInst.usesFor (includeWriteOnlyDefsAsUses : Bool) (i : MachineInst) : List VRegId :=
  i.operands.zipIdx.filterMap fun (op, k) => match op with
    | .vreg v =>
        if includeWriteOnlyDefsAsUses || some v != i.defReg || k != 0 || i.opcode.readsDefOperand then some v else none
    | _ => none

section

variable (includeWriteOnlyDefsAsUses : Bool) (mf : MachineFunction)

def liveBefore (insts : List MachineInst) (out : Finset VRegId) : Finset VRegId :=
  insts.foldr (fun i live =>
    (match i.defReg with
      | some d => live.erase d
      | none => live) ∪ (i.usesFor includeWriteOnlyDefsAsUses).toFinset) out

structure LiveSets where
  liveIn : Nat → Finset VRegId
  liveOut : Nat → Finset VRegId

def LiveSets.join (s : LiveSets) (succs : List Nat) : Finset VRegId :=
  succs.foldl (fun out k => out ∪ s.liveIn k) ∅

/-- Recompute one block; the flag tells whether anything has changed. -/
def visitBlock (s : LiveSets × Bool) (entry : MachineBlock × Nat) : LiveSets × Bool :=
  let out := s.1.join (mf.blockSuccessors entry.1)
  let inn := liveBefore includeWriteOnlyDefsAsUses entry.1.insts out
  ({ liveIn := Function.update s.1.liveIn entry.2 inn, liveOut := Function.update s.1.liveOut entry.2 out },
    s.2 || s.1.liveIn entry.2 != inn || s.1.liveOut entry.2 != out)

/-- A pass over the blocks, the last one first. `none` when it changes nothing. -/
def livePass (s : LiveSets) : Option LiveSets :=
  let r := mf.blocks.zipIdx.reverse.foldl (visitBlock includeWriteOnlyDefsAsUses mf) (s, false)
  if r.2 then some r.1 else none

def extendRange (ranges : VRegId → Option (Nat × Nat)) (v : VRegId) (lo hi : Nat) : VRegId → Option (Nat × Nat) :=
  Function.update ranges v (match ranges v with
    | some (start, stop) => some (min start lo, max stop hi)
    | none => some (lo, hi))

/-- The ranges after a block: live registers span it, others their mentions. -/
def blockRanges (s : LiveSets) (ranges : VRegId → Option (Nat × Nat)) (entry : (Nat × MachineBlock) × Nat) :
    VRegId → Option (Nat × Nat) :=
  let start := entry.1.1
  let stop := start + 2 * entry.1.2.insts.length
  let live := fun set : Finset VRegId => (List.range mf.vregCapacity).filter (· ∈ set)
  let spanning := (live (s.liveIn entry.2) ++ live (s.liveOut entry.2)).foldl
    (fun r v => extendRange r v start stop) ranges
  (numbered start entry.1.2.insts).foldl (fun r (p, i) =>
    (i.defReg.toList ++ i.usesFor includeWriteOnlyDefsAsUses).foldl (fun r v => extendRange r v p p) r) spanning

def liveRanges (s : LiveSets) : VRegId → Option (Nat × Nat) :=
  mf.spans.zipIdx.foldl (blockRanges includeWriteOnlyDefsAsUses mf s) fun _ => none

def MachineFunction.callPositions : List Nat :=
  ((mf.numberedInsts.filter fun (_, i) => i.opcode.isCall).map (·.1)).insertionSort (· ≤ ·)

def LiveInterval.before (a b : LiveInterval) : Prop :=
  a.start < b.start ∨ (a.start = b.start ∧ (a.vreg : Nat) ≤ b.vreg)

instance : DecidableRel LiveInterval.before := fun _ _ => inferInstanceAs (Decidable (_ ∨ _))

def intervalOf (ranges : VRegId → Option (Nat × Nat)) (v : VRegId) : Option LiveInterval :=
  (ranges v).map fun r => { vreg := v, cls := mf.classOf v, start := r.1, stop := r.2, hint := none }

def buildIntervals (ranges : VRegId → Option (Nat × Nat)) : List LiveInterval :=
  ((List.range mf.vregCapacity).filterMap (intervalOf mf ranges)).insertionSort LiveInterval.before

def computeLivenessImpl : Option LivenessResult :=
  (exhaust (livePass includeWriteOnlyDefsAsUses mf) (2 * (mf.blocks.length * mf.vregCapacity) + 1)
    { liveIn := fun _ => ∅, liveOut := fun _ => ∅ }).map fun s =>
    { intervals := buildIntervals mf (liveRanges includeWriteOnlyDefsAsUses mf s)
      callPositions := mf.callPositions
      numPositions := 2 * (mf.blocks.flatMap (·.insts)).length }

end

def computeLiveness (mf : MachineFunction) : Option LivenessResult := computeLivenessImpl true mf

/-- A destination that is only written is not read. -/
def computeSpillLiveness (mf : MachineFunction) : Option LivenessResult := computeLivenessImpl false mf

end Armfortas.Codegen
