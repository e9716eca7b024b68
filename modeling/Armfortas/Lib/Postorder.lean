import Mathlib.Data.List.Nodup
import Mathlib.Data.Nat.Basic
import Mathlib.Logic.Relation
import Mathlib.Order.Basic

/-! Recursive depth-first search; a node is put into the order when its visit ends. Along an edge the target comes
first in the order, unless it lies with the source on a cycle. -/
namespace Armfortas.Lib
open List

variable {α : Type} [DecidableEq α]

structure Post (α : Type) where
  visited : α → Bool
  /-- the node whose visit ended first comes first -/
  order : List α

namespace Post

def init : Post α := ⟨fun _ => false, []⟩

variable (succ : α → List α)

/-- `none` when the fuel does not suffice. -/
def visit : Nat → Post α → α → Option (Post α)
  | 0, _, _ => none
  | fuel + 1, st, x =>
      if st.visited x then some st
      else
        ((succ x).foldlM (visit fuel) { st with visited := Function.update st.visited x true }).map fun st =>
          { st with order := st.order ++ [x] }

/-! ## The invariant -/

variable {succ} {gray : List α} {st st' : Post α} {x : α}

variable (succ) in
abbrev Leads : α → α → Prop := Relation.ReflTransGen fun a b => b ∈ succ a

variable (succ) in
/-- Between two visits; the gray nodes are those whose visit has not ended. -/
structure Inv (gray : List α) (st : Post α) : Prop where
  nodup : st.order.Nodup
  disjoint : ∀ v ∈ gray, v ∉ st.order
  visited : ∀ v, st.visited v = true ↔ v ∈ gray ∨ v ∈ st.order
  edge : ∀ v ∈ st.order, ∀ w ∈ succ v, Leads succ w v ∨ [w, v].Sublist st.order

omit [DecidableEq α] in
theorem Inv.init : Inv succ [] (Post.init : Post α) := ⟨.nil, by simp, by simp [Post.init], by simp [Post.init]⟩

theorem Inv.enter (h : Inv succ gray st) (hx : st.visited x = false) :
    Inv succ (x :: gray) { st with visited := Function.update st.visited x true } := by
  have hnot : ¬ (x ∈ gray ∨ x ∈ st.order) := by
    rw [← h.visited x, hx]
    exact Bool.false_ne_true
  refine ⟨h.nodup, ?_, ?_, h.edge⟩
  · intro v hv
    obtain rfl | hv := mem_cons.mp hv
    · exact fun hin => hnot (.inr hin)
    · exact h.disjoint v hv
  · intro v
    by_cases hv : v = x
    · subst hv
      simp
    · simp [hv, h.visited v]

omit [DecidableEq α] in
theorem Inv.finish (h : Inv succ (x :: gray) st) (hgray : ∀ g ∈ gray, Leads succ g x)
    (hsucc : ∀ y ∈ succ x, st.visited y = true) (hx : x ∉ gray) :
    Inv succ gray { st with order := st.order ++ [x] } := by
  have hnot := h.disjoint x mem_cons_self
  refine ⟨?_, ?_, ?_, ?_⟩
  · exact nodup_append.mpr ⟨h.nodup, nodup_singleton x, fun a ha b hb heq =>
      hnot (mem_singleton.mp hb ▸ heq ▸ ha)⟩
  · intro v hv hin
    obtain hin | hin := mem_append.mp hin
    · exact h.disjoint v (mem_cons_of_mem x hv) hin
    · exact hx (mem_singleton.mp hin ▸ hv)
  · intro v
    rw [h.visited v, mem_cons, mem_append, mem_singleton]
    tauto
  · intro v hv w hw
    obtain hv | hv := mem_append.mp hv
    · exact (h.edge v hv w hw).imp_right fun hsub => hsub.trans (sublist_append_left _ _)
    · obtain rfl := mem_singleton.mp hv
      obtain hg | hin := (h.visited w).mp (hsucc w hw)
      · obtain rfl | hg := mem_cons.mp hg
        · exact .inl .refl
        · exact .inl (hgray w hg)
      · exact .inr ((singleton_sublist.mpr hin).append (List.Sublist.refl [v]))

/-! ## Visits -/

variable (univ : List α)

def unvisited (st : Post α) : List α := univ.filter fun v => !st.visited v

variable {univ}

variable (succ univ) in
structure Visit (gray xs : List α) (st st' : Post α) : Prop where
  inv : Inv succ gray st'
  keeps : ∀ v, st.visited v = true → st'.visited v = true
  inside : ∀ v, st'.visited v = true → st.visited v = true ∨ v ∈ univ
  visited : ∀ x ∈ xs, st'.visited x = true

omit [DecidableEq α] in
theorem unvisited_le (h : ∀ v, st.visited v = true → st'.visited v = true) :
    (unvisited univ st').length ≤ (unvisited univ st).length := by
  refine (monotone_filter_right univ fun v hv => ?_).length_le
  rw [Bool.not_eq_true', ← Bool.not_eq_true] at hv ⊢
  exact mt (h v) hv

theorem unvisited_enter_lt (hx : x ∈ univ) (hnew : st.visited x = false) :
    (unvisited univ { st with visited := Function.update st.visited x true }).length < (unvisited univ st).length := by
  have hsub : unvisited univ { st with visited := Function.update st.visited x true } =
      (unvisited univ st).filter fun v => v ≠ x := by
    rw [unvisited, unvisited, filter_filter]
    refine filter_congr fun v _ => ?_
    by_cases hv : v = x
    · subst hv
      simp
    · simp [hv]
  rw [hsub]
  exact length_filter_lt_length_iff_exists.mpr ⟨x, by simp [unvisited, hx, hnew], by simp⟩

variable (univ) in
omit [DecidableEq α] in
theorem visits_spec {step : Post α → α → Option (Post α)} {fuel : Nat} {xs : List α}
    (hstep : ∀ x ∈ xs, ∀ st, Inv succ gray st → (unvisited univ st).length < fuel →
      ∃ st', step st x = some st' ∧ Visit succ univ gray [x] st st')
    (hinv : Inv succ gray st) (hfuel : (unvisited univ st).length < fuel) :
    ∃ st', xs.foldlM step st = some st' ∧ Visit succ univ gray xs st st' := by
  induction xs generalizing st with
  | nil => exact ⟨st, rfl, hinv, fun _ h => h, fun _ h => .inl h, by simp⟩
  | cons x xs ih =>
    obtain ⟨hx, hxs⟩ := forall_mem_cons.mp hstep
    obtain ⟨st₁, hrun, h₁⟩ := hx st hinv hfuel
    obtain ⟨st', hrun', h'⟩ := ih hxs h₁.inv ((unvisited_le h₁.keeps).trans_lt hfuel)
    refine ⟨st', ?_, h'.inv, fun v hv => h'.keeps v (h₁.keeps v hv), fun v hv => ?_, ?_⟩
    · rw [foldlM_cons, hrun]
      exact hrun'
    · exact (h'.inside v hv).elim (h₁.inside v) .inr
    · exact forall_mem_cons.mpr ⟨h'.keeps x (h₁.visited x (mem_singleton_self x)), h'.visited⟩

theorem visit_spec (hclosed : ∀ a ∈ univ, ∀ b ∈ succ a, b ∈ univ) (fuel : Nat) :
    ∀ {gray : List α} {x : α} {st : Post α}, x ∈ univ → Inv succ gray st → (∀ g ∈ gray, Leads succ g x) →
      (unvisited univ st).length < fuel → ∃ st', visit succ fuel st x = some st' ∧ Visit succ univ gray [x] st st' := by
  induction fuel with
  | zero => exact fun _ _ _ hfuel => absurd hfuel (Nat.not_lt_zero _)
  | succ fuel ih =>
    intro gray x st hx hinv hgray hfuel
    rw [visit]
    cases hvis : st.visited x with
    | true => exact ⟨st, rfl, hinv, fun _ h => h, fun _ h => .inl h, by simpa using hvis⟩
    | false =>
      have hlt := unvisited_enter_lt hx hvis
      have hnot : x ∉ gray := fun hg => by simp [(hinv.visited x).mpr (.inl hg)] at hvis
      have hreach : ∀ y ∈ succ x, ∀ g ∈ x :: gray, Leads succ g y := fun y hy g hg => by
        obtain rfl | hg := mem_cons.mp hg
        · exact .single hy
        · exact (hgray g hg).tail hy
      obtain ⟨st₁, hrun, h₁⟩ := visits_spec univ (fun y hy s hs hlt =>
        ih (hclosed x hx y hy) hs (hreach y hy) hlt) (hinv.enter hvis) (Nat.lt_of_lt_of_le hlt (Nat.le_of_lt_succ hfuel))
      rw [if_neg Bool.false_ne_true, hrun]
      refine ⟨_, rfl, h₁.inv.finish hgray h₁.visited hnot, fun v hv => h₁.keeps v ?_, fun v hv => ?_,
        fun y hy => h₁.keeps y ?_⟩
      · by_cases hv' : v = x
        · subst hv'
          simp
        · simpa [hv'] using hv
      · refine (h₁.inside v hv).elim (fun hold => ?_) .inr
        by_cases hv' : v = x
        · exact .inr (hv' ▸ hx)
        · exact .inl (by simpa [hv'] using hold)
      · obtain rfl := mem_singleton.mp hy
        simp

end Post

end Armfortas.Lib
