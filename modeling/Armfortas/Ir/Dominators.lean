import Armfortas.Ir.Walk

/-! The bit rows of the source are kept as lists of block numbers in block order. -/
namespace Armfortas.Ir
open Lib List

variable {f : Function} {b : BlockId}

structure DominatorInfo where
  reachable : List BlockId
  doms : Rows BlockId

/-- `d` dominates `b`; false for an unreachable or unknown `b`. -/
def DominatorInfo.dominates (info : DominatorInfo) (d b : BlockId) : Bool :=
  decide (b ∈ info.reachable) && decide (d ∈ info.doms.row b)

namespace Function

def hasBlock (f : Function) (b : BlockId) : Bool := (f.tryBlock b).isSome

/-- The known blocks the entry reaches, in block order. Targets that are not blocks are skipped. -/
def reachableKnown (f : Function) : List BlockId :=
  let found := bfs (fun a => (f.successors a).filter f.hasBlock) (f.allTargets.length + 1) f.entry
  (f.blocks.map (·.id)).filter fun b => f.hasBlock f.entry && decide (b ∈ found)

def computeDominatorInfo (f : Function) : DominatorInfo :=
  let reachable := f.reachableKnown
  { reachable := reachable
    doms := dominators reachable f.entry fun b => (f.predecessors b).filter (· ∈ reachable) }

/-- `d` is on every path from the entry to `b`. -/
def Dom (f : Function) (d b : BlockId) : Prop := Dominates f.Edge f.entry d b

def Reachable (f : Function) (b : BlockId) : Prop := Relation.ReflTransGen f.Edge f.entry b

/-- The shape of the control-flow graph the verifier insists on before dominance is looked at. -/
structure CfgWf (f : Function) : Prop where
  nodup : (f.blocks.map (·.id)).Nodup
  entry : f.hasBlock f.entry = true
  targets : ∀ blk ∈ f.blocks, ∀ t ∈ blk.targets, f.hasBlock t = true

theorem hasBlock_iff : f.hasBlock b = true ↔ b ∈ f.blocks.map (·.id) := by
  rw [hasBlock, Option.isSome_iff_ne_none, ne_eq, tryBlock_eq_none]
  simp

theorem CfgWf.hasBlock_of_edge (wf : f.CfgWf) {a b : BlockId} (h : f.Edge a b) :
    f.hasBlock b = true := by
  unfold Edge successors at h
  split at h
  · next blk hb => exact wf.targets blk (mem_blocks_of_tryBlock hb).1 b h
  · simp at h

theorem CfgWf.hasBlock_of_reachable (wf : f.CfgWf) (h : f.Reachable b) :
    f.hasBlock b = true := by
  cases h with
  | refl => exact wf.entry
  | tail _ hab => exact wf.hasBlock_of_edge hab

theorem CfgWf.mem_reachableKnown (wf : f.CfgWf) :
    b ∈ f.reachableKnown ↔ f.Reachable b := by
  have hfound : b ∈ bfs (fun a => (f.successors a).filter f.hasBlock) (f.allTargets.length + 1) f.entry ↔
      f.Reachable b := by
    rw [mem_bfs_iff (f.entry :: f.allTargets) mem_cons_self
      (fun _ _ _ hy => .tail _ (successors_subset_allTargets (mem_filter.mp hy).1)) (by simp)]
    have hrel : (fun a b => b ∈ (f.successors a).filter f.hasBlock) = f.Edge := by
      funext a b
      exact propext ⟨fun h => (mem_filter.mp h).1, fun h => mem_filter.mpr ⟨h, wf.hasBlock_of_edge h⟩⟩
    rw [hrel, Reachable]
  simp only [reachableKnown, mem_filter, wf.entry, Bool.true_and, decide_eq_true_eq, hfound]
  exact ⟨fun h => h.2, fun h => ⟨hasBlock_iff.mp (wf.hasBlock_of_reachable h), h⟩⟩

theorem CfgWf.dominates_iff (wf : f.CfgWf) {d b : BlockId} :
    f.computeDominatorInfo.dominates d b = true ↔ f.Reachable d ∧ f.Reachable b ∧ f.Dom d b := by
  have G : DomGraph f.reachableKnown f.entry (fun b => (f.predecessors b).filter (· ∈ f.reachableKnown))
      f.Edge := by
    refine ⟨wf.mem_reachableKnown.mpr .refl, ?_, ?_⟩
    · intro a ha b hab
      exact wf.mem_reachableKnown.mpr ((wf.mem_reachableKnown.mp ha).tail hab)
    · intro x _ p
      rw [mem_filter, mem_predecessors_iff wf.nodup]
      simp [and_comm]
  simp only [DominatorInfo.dominates, computeDominatorInfo, Bool.and_eq_true]
  constructor
  · rintro ⟨hb, hd⟩
    replace hb := of_decide_eq_true hb
    replace hd := of_decide_eq_true hd
    obtain ⟨hdr, hdom⟩ := (mem_dominators_iff G hb).mp hd
    exact ⟨wf.mem_reachableKnown.mp hdr, wf.mem_reachableKnown.mp hb, hdom⟩
  · rintro ⟨hd, hb, hdom⟩
    have hb' := wf.mem_reachableKnown.mpr hb
    exact ⟨decide_eq_true hb',
      decide_eq_true ((mem_dominators_iff G hb').mpr ⟨wf.mem_reachableKnown.mpr hd, hdom⟩)⟩

theorem Dom.reachable {d b : BlockId} (h : f.Dom d b) (hb : f.Reachable b) : f.Reachable d := by
  by_contra hd
  refine h ?_
  induction hb with
  | refl => exact .root fun e => hd (e ▸ .refl)
  | tail hr hab ih =>
    exact .step (ih fun ha => h (.step ha hab fun e => hd (e ▸ hr.tail hab))) hab fun e => hd (e ▸ hr.tail hab)

end Function

end Armfortas.Ir
