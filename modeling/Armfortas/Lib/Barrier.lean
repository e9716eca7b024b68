import Mathlib.Data.Finset.Card
import Mathlib.Data.Fintype.Card
import Mathlib.Logic.Function.Basic

/-! A member arrives and remembers the generation it found; it goes on once the generation has changed. The last one
to arrive changes it. -/
namespace Armfortas.Lib
open Function Finset

structure Barrier where
  count : Nat := 0
  generation : Nat := 0
  deriving DecidableEq, Repr

namespace Barrier

variable {n : Nat} {b : Barrier} {passed : Fin n → Nat} {waiting : Fin n → Bool} {m : Fin n}

def arrive (n : Nat) (b : Barrier) : Barrier :=
  if b.count + 1 < n then { b with count := b.count + 1 } else { count := 0, generation := b.generation + 1 }

def held (b : Barrier) (passed : Fin n → Nat) (waiting : Fin n → Bool) : Finset (Fin n) :=
  univ.filter fun m => waiting m = true ∧ passed m = b.generation

/-- Each member has passed as many barriers as there were generations, one less if it has yet to notice. -/
structure Ok (b : Barrier) (passed : Fin n → Nat) (waiting : Fin n → Bool) : Prop where
  level : ∀ m, passed m = b.generation ∨ waiting m = true ∧ passed m + 1 = b.generation
  count : b.count = (b.held passed waiting).card
  lt : b.count < n

theorem ok_initial (h : 0 < n) : Ok ({ } : Barrier) (fun _ : Fin n => 0) fun _ => false where
  level _ := .inl rfl
  count := by simp [held]
  lt := h

theorem mem_held : m ∈ b.held passed waiting ↔ waiting m = true ∧ passed m = b.generation := mem_filter_univ m

theorem Ok.passed_eq (h : Ok b passed waiting) (hm : waiting m = false) : passed m = b.generation := by
  rcases h.level m with he | ⟨hw, _⟩
  · exact he
  · rw [hm] at hw
    cases hw

theorem Ok.exists_free (h : Ok b passed waiting) : ∃ m, m ∉ b.held passed waiting := by
  by_contra hall
  have huniv : b.held passed waiting = univ :=
    eq_univ_iff_forall.mpr fun m => Classical.not_not.mp fun hm => hall ⟨m, hm⟩
  have hcount := h.count
  rw [huniv, card_univ, Fintype.card_fin] at hcount
  exact h.lt.ne hcount

theorem Ok.held_of_last (h : Ok b passed waiting) (hm : waiting m = false) (hlast : ¬ b.count + 1 < n) {m' : Fin n}
    (hne : m' ≠ m) : waiting m' = true ∧ passed m' = b.generation := by
  have hnot : m ∉ b.held passed waiting := fun hmem => by
    rw [(mem_held.mp hmem).1] at hm
    cases hm
  have hsub : b.held passed waiting ⊆ univ.erase m := fun x hx =>
    mem_erase.mpr ⟨fun he => hnot (he ▸ hx), mem_univ x⟩
  have hcard : (univ.erase m).card ≤ (b.held passed waiting).card := by
    rw [card_erase_of_mem (mem_univ m), card_univ, Fintype.card_fin, ← h.count]
    omega
  rw [← mem_held, eq_of_subset_of_card_le hsub hcard]
  exact mem_erase.mpr ⟨hne, mem_univ m'⟩

theorem Ok.arrive (h : Ok b passed waiting) (hm : waiting m = false) :
    Ok (b.arrive n) passed (update waiting m true) := by
  have hlevel := h.passed_eq hm
  unfold Barrier.arrive
  split
  · rename_i hlt
    have hheld : held { b with count := b.count + 1 } passed (update waiting m true) =
        insert m (b.held passed waiting) := by
      ext x
      rw [mem_insert, mem_held, mem_held]
      by_cases hx : x = m
      · simp [hx, hlevel]
      · simp [hx]
    have hnot : m ∉ b.held passed waiting := fun hmem => by
      rw [(mem_held.mp hmem).1] at hm
      cases hm
    refine ⟨fun x => ?_, by rw [hheld, card_insert_of_notMem hnot, h.count], hlt⟩
    by_cases hx : x = m
    · exact .inl (hx ▸ hlevel)
    · rw [update_of_ne hx]
      exact h.level x
  · rename_i hlast
    have hall : ∀ x, update waiting m true x = true ∧ passed x = b.generation := by
      intro x
      by_cases hx : x = m
      · exact ⟨by rw [hx, update_self], hx ▸ hlevel⟩
      · rw [update_of_ne hx]
        exact h.held_of_last hm hlast hx
    refine ⟨fun x => .inr ⟨(hall x).1, congrArg (· + 1) (hall x).2⟩, ?_, Nat.lt_of_le_of_lt (Nat.zero_le _) h.lt⟩
    have hempty : held { count := 0, generation := b.generation + 1 } passed (update waiting m true) = ∅ := by
      ext x
      rw [mem_held, (hall x).2]
      simp
    rw [hempty, card_empty]

theorem Ok.pass (h : Ok b passed waiting) (hm : passed m ≠ b.generation) :
    Ok b (update passed m (passed m + 1)) (update waiting m false) := by
  have hreleased := ((h.level m).resolve_left hm).2
  have hheld : held b (update passed m (passed m + 1)) (update waiting m false) =
      b.held passed waiting := by
    ext x
    rw [mem_held, mem_held]
    by_cases hx : x = m
    · simp [hx, hm]
    · simp [hx]
  refine ⟨fun x => ?_, by rw [hheld, h.count], h.lt⟩
  by_cases hx : x = m
  · exact .inl (by rw [hx, update_self, hreleased])
  · rw [update_of_ne hx, update_of_ne hx]
    exact h.level x

end Barrier

end Armfortas.Lib
