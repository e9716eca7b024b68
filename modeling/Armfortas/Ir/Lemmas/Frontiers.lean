import Armfortas.Ir.Lemmas.DominatorTree
import Armfortas.Lib.DominanceFrontier

/-! The walk that collects dominance frontiers. -/
namespace Armfortas.Ir
open Lib List

def Frontiers.row (df : Frontiers) (r : BlockId) : List BlockId := df.getD r []

theorem Frontiers.mem_row_add {df : Frontiers} {runner x r y} :
    y ∈ (df.add runner x).row r ↔ y ∈ df.row r ∨ (r = runner ∧ y = x) := by
  unfold Frontiers.add
  by_cases hx : x ∈ df.getD runner []
  · rw [if_pos hx]
    refine ⟨.inl, fun h => h.elim id ?_⟩
    rintro ⟨rfl, rfl⟩
    exact hx
  · rw [if_neg hx]
    by_cases hr : r = runner
    · subst hr
      simp [Frontiers.row]
    · simp [Frontiers.row, hr]

theorem Frontiers.isSome_add {df : Frontiers} {runner x r} (h : (df.get? r).isSome) :
    ((df.add runner x).get? r).isSome := by
  unfold Frontiers.add
  by_cases hx : x ∈ df.getD runner []
  · rw [if_pos hx]
    exact h
  · rw [if_neg hx, AssocMap.get?_insert]
    split
    · rfl
    · exact h

/-- `df'` has every row of `df`, with the new members that `New` gives. -/
structure Frontiers.Grows (df df' : Frontiers) (New : BlockId → BlockId → Prop) : Prop where
  known : ∀ r, (df.get? r).isSome → (df'.get? r).isSome
  mem : ∀ r y, y ∈ df'.row r ↔ y ∈ df.row r ∨ New r y

theorem Frontiers.Grows.refl (df : Frontiers) {New : BlockId → BlockId → Prop} (hnew : ∀ r y, ¬ New r y) :
    df.Grows df New :=
  ⟨fun _ h => h, fun r y => by simp [hnew]⟩

theorem Frontiers.Grows.trans {df df' df'' : Frontiers} {New New' New'' : BlockId → BlockId → Prop}
    (h : df.Grows df' New) (h' : df'.Grows df'' New') (hnew : ∀ r y, New'' r y ↔ New r y ∨ New' r y) :
    df.Grows df'' New'' := by
  refine ⟨fun r hr => h'.known r (h.known r hr), fun r y => ?_⟩
  rw [h'.mem, h.mem, hnew, or_assoc]

theorem Frontiers.Grows.add (df : Frontiers) (runner x) : df.Grows (df.add runner x) fun r y => r = runner ∧ y = x :=
  ⟨fun _ h => isSome_add h, fun _ _ => mem_row_add⟩

theorem Frontiers.get?_empty (l : List BlockId) (r) :
    AssocMap.get? (l.map fun b => (b, ([] : List BlockId))) r = if r ∈ l then some [] else none := by
  induction l with
  | nil => rfl
  | cons b l ih =>
    rw [AssocMap.get?] at ih ⊢
    by_cases hr : r = b
    · simp [hr]
    · simp [ih, hr, lookup_cons, beq_eq_false_iff_ne.mpr hr]

namespace Function

variable {f : Function} {idoms : AssocMap BlockId BlockId}

namespace IdomTree

variable (T : f.IdomTree idoms)
include T

theorem not_chain_of_get? {b p} (h : idoms.get? b = some p) : ¬ Chain idoms p b := by
  obtain ⟨order, -, hlt⟩ := T.ranked
  have hle : ∀ d, Chain idoms p d → order.idxOf d ≤ order.idxOf p := by
    intro d hd
    induction hd with
    | refl => exact Nat.le_refl _
    | tail _ hab ih => exact Nat.le_trans (Nat.le_of_lt (hlt _ _ hab)) ih
  exact fun hc => absurd (hle b hc) (Nat.not_le.mpr (hlt b p h))

theorem chain_idom_iff {x i r} (hx : f.ReachedBlock x) (hi : idoms.get? x = some i) :
    Chain idoms i r ↔ Dominates f.Flow f.entry r x ∧ r ≠ x := by
  rw [← T.chain x hx, Chain.iff_head hi]
  constructor
  · intro h
    exact ⟨.inr h, fun e => T.not_chain_of_get? hi (e ▸ h)⟩
  · exact fun h => h.1.resolve_left h.2

theorem walkRunner_spec {x i p} (hi : idoms.get? x = some i) (hp : Chain idoms p i) (df) :
    ∃ df', walkRunner idoms x (idoms.length + 2) p df = some df' ∧
      df.Grows df' fun r y => y = x ∧ Chain idoms p r ∧ ¬ Chain idoms i r := by
  obtain ⟨order, hlen, hlt⟩ := T.ranked
  have hfuel : order.idxOf p < idoms.length + 2 := by
    have := idxOf_le_length (a := p) (l := order)
    omega
  generalize idoms.length + 2 = fuel at hfuel
  induction fuel generalizing p df with
  | zero => exact absurd hfuel (Nat.not_lt_zero _)
  | succ fuel ih =>
    by_cases hpi : p = i
    · refine ⟨df, by rw [walkRunner, hi, hpi, if_pos rfl], .refl df ?_⟩
      rintro r y ⟨-, hpr, hir⟩
      exact hir (hpi ▸ hpr)
    · obtain ⟨parent, hparent, hup⟩ : ∃ parent, idoms.get? p = some parent ∧ Chain idoms parent i := by
        rcases Relation.ReflTransGen.cases_head hp with he | hstep
        · exact absurd he hpi
        · exact hstep
      have hrank := hlt p parent hparent
      obtain ⟨df', hrun, hgrows⟩ := ih hup (df.add p x) (by omega)
      have hne : ¬ some p = idoms.get? x := by
        rw [hi, Option.some.injEq]
        exact hpi
      refine ⟨df', by rw [walkRunner, if_neg hne]; simp only [hparent, hrun],
        (Frontiers.Grows.add df p x).trans hgrows fun r y => ?_⟩
      have hip : ¬ Chain idoms i p := fun h => T.not_chain_of_get? hparent (hup.trans h)
      rw [Chain.iff_head hparent]
      constructor
      · rintro ⟨rfl, rfl | hpr, hir⟩
        · exact .inl ⟨rfl, rfl⟩
        · exact .inr ⟨rfl, hpr, hir⟩
      · rintro (⟨rfl, rfl⟩ | ⟨rfl, hpr, hir⟩)
        · exact ⟨rfl, .inl rfl, hip⟩
        · exact ⟨rfl, .inr hpr, hir⟩

theorem walkRunners_spec {x i : BlockId} (hi : idoms.get? x = some i) (ps : List BlockId)
    (hps : ∀ p ∈ ps, Chain idoms p i) (df) : ∃ df', walkRunners idoms x ps df = some df' ∧
      df.Grows df' fun r y => y = x ∧ (∃ p ∈ ps, Chain idoms p r) ∧ ¬ Chain idoms i r := by
  induction ps generalizing df with
  | nil => exact ⟨df, rfl, .refl df (by simp)⟩
  | cons p ps ih =>
    rw [forall_mem_cons] at hps
    obtain ⟨df₁, hrun, hgrows⟩ := T.walkRunner_spec hi hps.1 df
    obtain ⟨df₂, hrun', hgrows'⟩ := ih hps.2 df₁
    refine ⟨df₂, by rw [walkRunners, hrun]; exact hrun', hgrows.trans hgrows' fun r y => ?_⟩
    rw [exists_mem_cons_iff]
    tauto

/-- What a block adds to the frontiers: the definition, since one reachable predecessor alone adds nothing. -/
theorem joinFrontiers_spec (hnd : f.BlocksNodup) (hentry : f.hasBlock f.entry = true)
    (hpreds : f.predecessors f.entry = []) (xs df) :
    ∃ df', f.joinFrontiers idoms (idoms.map (·.1) ++ [f.entry]) xs df = some df' ∧
      df.Grows df' fun r y => y ∈ xs ∧ f.ReachedBlock y ∧ InFrontier f.Flow f.entry r y := by
  induction xs generalizing df with
  | nil => exact ⟨df, rfl, .refl df (by simp)⟩
  | cons x xs ih =>
    have hpred : ∀ p, f.ReachedBlock x →
        (p ∈ f.reachablePreds (idoms.map (·.1) ++ [f.entry]) x ↔ f.ReachedBlock p ∧ f.Flow p x) := by
      intro p hx
      rw [reachablePreds, mem_filter, decide_eq_true_eq, T.mem_nodes hentry,
        mem_predecessors_iff_flow hnd hx.hasBlock, and_comm]
    by_cases hjoin : x ∈ idoms.map (·.1) ++ [f.entry] ∧
        2 ≤ (f.reachablePreds (idoms.map (·.1) ++ [f.entry]) x).length
    · have hx := (T.mem_nodes hentry).mp hjoin.1
      have hxe : x ≠ f.entry := by
        rintro rfl
        have hlen := hjoin.2
        simp [reachablePreds, hpreds] at hlen
      obtain ⟨i, hi⟩ := Option.isSome_iff_exists.mp ((T.keys x).mpr ⟨hx, hxe⟩)
      have hdom := (T.chain_idom_iff hx hi).mp (.refl _ _)
      obtain ⟨df₁, hrun, hgrows⟩ := T.walkRunners_spec hi _ (fun p hp => by
        obtain ⟨hp, hpx⟩ := (hpred p hx).mp hp
        exact (T.chain p hp i).mpr (hdom.1.pred hdom.2.symm hpx)) df
      obtain ⟨df₂, hrun', hgrows'⟩ := ih df₁
      refine ⟨df₂, by rw [joinFrontiers, if_pos hjoin, hrun]; exact hrun', hgrows.trans hgrows' fun r y => ?_⟩
      have hfront : InFrontier f.Flow f.entry r x ↔
          (∃ p ∈ f.reachablePreds (idoms.map (·.1) ++ [f.entry]) x, Chain idoms p r) ∧ ¬ Chain idoms i r := by
        rw [InFrontier, T.chain_idom_iff hx hi]
        refine and_congr_left fun _ => ⟨?_, ?_⟩
        · rintro ⟨p, hp, hpx, hrp⟩
          exact ⟨p, (hpred p hx).mpr ⟨⟨hentry, hp⟩, hpx⟩, (T.chain p ⟨hentry, hp⟩ r).mpr hrp⟩
        · rintro ⟨p, hp, hrp⟩
          obtain ⟨hp, hpx⟩ := (hpred p hx).mp hp
          exact ⟨p, hp.2, hpx, (T.chain p hp r).mp hrp⟩
      rw [mem_cons]
      constructor
      · rintro ⟨rfl | hy, hreach, hin⟩
        · exact .inl ⟨rfl, hfront.mp hin⟩
        · exact .inr ⟨hy, hreach, hin⟩
      · rintro (⟨rfl, hin⟩ | ⟨hy, hreach, hin⟩)
        · exact ⟨.inl rfl, hx, hfront.mpr hin⟩
        · exact ⟨.inr hy, hreach, hin⟩
    · obtain ⟨df', hrun, hgrows⟩ := ih df
      refine ⟨df', by rw [joinFrontiers, if_neg hjoin]; exact hrun, hgrows.known, fun r y => ?_⟩
      rw [hgrows.mem, mem_cons]
      have hnone : f.ReachedBlock x → ¬ InFrontier f.Flow f.entry r x := by
        intro hx hin
        have ⟨⟨p, hp, hpx, _⟩, _⟩ := hin
        have hxe : x ≠ f.entry := by
          rintro rfl
          have hmem := (mem_predecessors_iff_flow hnd hx.hasBlock).mpr hpx
          rw [hpreds] at hmem
          cases hmem
        have hmem := (hpred p hx).mpr ⟨⟨hentry, hp⟩, hpx⟩
        have hlen : (f.reachablePreds (idoms.map (·.1) ++ [f.entry]) x).length < 2 :=
          Nat.lt_of_not_le fun h => hjoin ⟨(T.mem_nodes hentry).mpr hx, h⟩
        refine not_inFrontier_of_single hx.2 hxe (p := p) (fun a ha hax => ?_) hin
        have hmem' := (hpred a hx).mpr ⟨⟨hentry, ha⟩, hax⟩
        match hl : f.reachablePreds (idoms.map (·.1) ++ [f.entry]) x with
        | [] => simp [hl] at hmem
        | [b] =>
          rw [hl, mem_singleton] at hmem hmem'
          rw [hmem, hmem']
        | b :: c :: rest =>
          rw [hl, length_cons, length_cons] at hlen
          omega
      constructor
      · rintro (h | ⟨hy, hin⟩)
        · exact .inl h
        · exact .inr ⟨.inr hy, hin⟩
      · rintro (h | ⟨rfl | hy, hreach, hin⟩)
        · exact .inl h
        · exact absurd hin (hnone hreach)
        · exact .inr ⟨hy, hreach, hin⟩

end IdomTree

theorem joinFrontiers_unreachable {reachable xs} (h : ∀ x ∈ xs, x ∉ reachable) (df) :
    f.joinFrontiers idoms reachable xs df = some df := by
  induction xs with
  | nil => rfl
  | cons x xs ih =>
    rw [forall_mem_cons] at h
    rw [joinFrontiers, if_neg fun hx => h.1 hx.1]
    exact ih h.2

end Function

end Armfortas.Ir
