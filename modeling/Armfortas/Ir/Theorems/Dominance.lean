import Armfortas.Ir.Lemmas.Frontiers

/-! Dominator sets, the chain of immediate dominators and the intervals of the dominator tree answer the same
question, on every control-flow graph; the frontiers are what their definition says. -/
namespace Armfortas.Ir
open Lib List

namespace Function

/-- The rows of `compute_dominator_info` are those on which its loop stops: one more pass changes nothing. -/
def DominatorInfoSettled (f : Function) : Prop :=
  domPass f.reachableKnown f.entry (fun b => (f.predecessors b).filter (· ∈ f.reachableKnown))
    f.computeDominatorInfo.doms = (f.computeDominatorInfo.doms, false)

theorem dominatorInfoSettled {f : Function} (hnd : (f.blocks.map (·.id)).Nodup) : f.DominatorInfoSettled := by
  by_cases hentry : f.hasBlock f.entry = true
  · exact domPass_dominators (domGraph hnd hentry)
  · have hnil : f.reachableKnown = [] := by
      refine eq_nil_iff_forall_not_mem.mpr fun b hb => hentry (mem_reachableKnown_iff.mp hb).1
    rw [DominatorInfoSettled, hnil]
    rfl

/-- The iterative computations end, and for reachable blocks the dominator sets, the chain of immediate
dominators and the intervals all say whether `a` lies on every path to `b`. -/
theorem dominance_answers_agree (f : Function) (hnd : (f.blocks.map (·.id)).Nodup) :
    f.DominatorInfoSettled ∧
    ∃ idoms t, f.computeImmediateDominators = some idoms ∧ f.dominatorTreeIntervals = some t ∧
      ∀ a b, f.ReachedBlock a → f.ReachedBlock b →
        (f.computeDominatorInfo.dominates a b = true ↔ f.OnEveryPath a b) ∧
        (Chain idoms b a ↔ f.OnEveryPath a b) ∧
        (t.dominates a b = true ↔ f.OnEveryPath a b) := by
  refine ⟨dominatorInfoSettled hnd, ?_⟩
  by_cases hentry : f.hasBlock f.entry = true
  · obtain ⟨idoms, hidoms, T⟩ := computeImmediateDominators_spec hnd hentry
    obtain ⟨t, ht, hdom⟩ := dominatorTreeIntervals_spec hnd hentry
    refine ⟨idoms, t, hidoms, ht, fun a b _ hb => ?_⟩
    rw [onEveryPath_iff, dominatorInfo_dominates_iff hnd, hdom, T.chain b hb]
    exact ⟨and_iff_right hb, Iff.rfl, and_iff_right hb⟩
  · refine ⟨[], ⟨[]⟩, ?_, ?_, fun a b ha => absurd ha.1 hentry⟩
    · rw [computeImmediateDominators, if_neg hentry]
    · rw [dominatorTreeIntervals, if_neg hentry]

def bareBlock (id : BlockId) (t : Terminator) : BasicBlock :=
  { id := id, name := "b", params := [], insts := [], terminator := some t }

/-- A loop with two entries: the entry branches to both of its blocks, and one of them leaves it. -/
def twoEntryLoop : Function :=
  { name := "f", params := [{ id := 0, ty := .bool, fortranNoalias := false }], returnType := .void, entry := 0,
    nextValue := 1,
    blocks := [bareBlock 0 (.condBranch 0 1 [] 2 []), bareBlock 1 (.branch 2 []),
      bareBlock 2 (.condBranch 0 1 [] 3 []), bareBlock 3 (.return none)] }

theorem dominance_answers_agree_twoEntryLoop : (twoEntryLoop.blocks.map (·.id)).Nodup ∧
    twoEntryLoop.DominatorInfoSettled ∧
    ∃ idoms t, twoEntryLoop.computeImmediateDominators = some idoms ∧
      twoEntryLoop.dominatorTreeIntervals = some t ∧
      ∀ a b, twoEntryLoop.ReachedBlock a → twoEntryLoop.ReachedBlock b →
        (twoEntryLoop.computeDominatorInfo.dominates a b = true ↔ twoEntryLoop.OnEveryPath a b) ∧
        (Chain idoms b a ↔ twoEntryLoop.OnEveryPath a b) ∧
        (t.dominates a b = true ↔ twoEntryLoop.OnEveryPath a b) :=
  ⟨by decide, dominance_answers_agree twoEntryLoop (by decide)⟩

-- neither block of the loop dominates the other
example : twoEntryLoop.computeImmediateDominators = some [(1, 0), (2, 0), (3, 2)] := by decide +kernel

def StrictlyOnEveryPath (f : Function) (a b : BlockId) : Prop := f.OnEveryPath a b ∧ a ≠ b

/-- When nothing branches to the entry, the frontier computed for a reachable block is exactly the set of the
reachable blocks with a reachable predecessor that it dominates and which it does not strictly dominate. -/
theorem dominanceFrontiers_exact (f : Function) (hnd : (f.blocks.map (·.id)).Nodup)
    (hpreds : f.predecessors f.entry = []) :
    ∃ df, f.computeDominanceFrontiers = some df ∧ ∀ x, f.ReachedBlock x →
      ∃ frontier, df.get? x = some frontier ∧ ∀ y, y ∈ frontier ↔
        f.ReachedBlock y ∧ (∃ p ∈ f.predecessors y, f.ReachedBlock p ∧ f.OnEveryPath x p) ∧
          ¬ f.StrictlyOnEveryPath x y := by
  by_cases hentry : f.hasBlock f.entry = true
  · obtain ⟨idoms, hidoms, T⟩ := computeImmediateDominators_spec hnd hentry
    have hinit := Frontiers.get?_empty ((f.blocks.map (·.id)).filter (· ∈ idoms.map (·.1) ++ [f.entry]))
    generalize hdf : ((f.blocks.map (·.id)).filter (· ∈ idoms.map (·.1) ++ [f.entry])).map
      (fun b => (b, ([] : List BlockId))) = df₀ at hinit
    obtain ⟨df, hrun, hgrows⟩ := T.joinFrontiers_spec hnd hentry hpreds (f.blocks.map (·.id)) df₀
    refine ⟨df, by simp only [computeDominanceFrontiers, hidoms, hdf, hrun], fun x hx => ?_⟩
    have hx₀ : AssocMap.get? df₀ x = some [] := by
      rw [hinit, if_pos]
      exact mem_filter.mpr ⟨hx.mem_blocks, decide_eq_true ((T.mem_nodes hentry).mpr hx)⟩
    obtain ⟨frontier, hfrontier⟩ := Option.isSome_iff_exists.mp (hgrows.known x (by rw [hx₀]; rfl))
    refine ⟨frontier, hfrontier, fun y => ?_⟩
    have hmem := hgrows.mem x y
    simp only [Frontiers.row, AssocMap.getD, hfrontier, hx₀, Option.getD_some, not_mem_nil, false_or] at hmem
    rw [hmem, InFrontier, StrictlyOnEveryPath]
    simp only [onEveryPath_iff]
    constructor
    · rintro ⟨-, hy, ⟨p, hp, hpy, hxp⟩, hnot⟩
      exact ⟨hy, ⟨p, (mem_predecessors_iff_flow hnd hy.hasBlock).mpr hpy, ⟨hentry, hp⟩, hxp⟩, hnot⟩
    · rintro ⟨hy, ⟨p, hpy, hp, hxp⟩, hnot⟩
      exact ⟨hy.mem_blocks, hy, ⟨p, hp.2, (mem_predecessors_iff_flow hnd hy.hasBlock).mp hpy, hxp⟩, hnot⟩
  · have hblocks : ∀ b ∈ f.blocks.map (·.id), b ∉ [f.entry] := by
      intro b hb he
      exact hentry (hasBlock_iff.mpr (mem_singleton.mp he ▸ hb))
    have hnone : f.computeImmediateDominators = some [] := by rw [computeImmediateDominators, if_neg hentry]
    exact ⟨_, by simp only [computeDominanceFrontiers, hnone]; exact joinFrontiers_unreachable hblocks _,
      fun x hx => absurd hx.1 hentry⟩

theorem dominanceFrontiers_exact_twoEntryLoop : (twoEntryLoop.blocks.map (·.id)).Nodup ∧
    twoEntryLoop.predecessors twoEntryLoop.entry = [] ∧
    ∃ df, twoEntryLoop.computeDominanceFrontiers = some df ∧ ∀ x, twoEntryLoop.ReachedBlock x →
      ∃ frontier, df.get? x = some frontier ∧ ∀ y, y ∈ frontier ↔
        twoEntryLoop.ReachedBlock y ∧
          (∃ p ∈ twoEntryLoop.predecessors y, twoEntryLoop.ReachedBlock p ∧ twoEntryLoop.OnEveryPath x p) ∧
          ¬ twoEntryLoop.StrictlyOnEveryPath x y :=
  ⟨by decide, by decide, dominanceFrontiers_exact twoEntryLoop (by decide) (by decide)⟩

-- each block of the loop is in the frontier of the other, which it can follow but does not dominate
example : (twoEntryLoop.computeDominanceFrontiers.map fun df => [0, 1, 2, 3].map fun b => df.getD b []) =
    some [[], [2], [1], []] := by decide +kernel

end Function

end Armfortas.Ir
