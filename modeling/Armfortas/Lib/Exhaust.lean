import Mathlib.Data.List.Basic
import Mathlib.Order.Basic

/-! The loop that looks for something to do, does it, and stops when there is nothing more. -/
namespace Armfortas.Lib
open List

variable {α : Type}

/-- Take steps as long as there is one to take; `none` when the fuel does not suffice. -/
def exhaust (step : α → Option α) : Nat → α → Option α
  | 0, _ => none
  | fuel + 1, a => match step a with
      | some b => exhaust step fuel b
      | none => some a

theorem exhaust_spec {step : α → Option α} {P : α → Prop} {m : α → Nat}
    (hstep : ∀ a b, P a → step a = some b → P b ∧ m b < m a) {fuel : Nat} {a : α} (ha : P a)
    (hfuel : m a < fuel) : ∃ b, exhaust step fuel a = some b ∧ P b ∧ step b = none := by
  induction fuel generalizing a with
  | zero => exact absurd hfuel (Nat.not_lt_zero _)
  | succ fuel ih =>
    cases hs : step a with
    | none => exact ⟨a, by rw [exhaust, hs], ha, hs⟩
    | some b =>
      obtain ⟨hb, hlt⟩ := hstep a b ha hs
      rw [exhaust, hs]
      exact ih hb (Nat.lt_of_lt_of_le hlt (Nat.le_of_lt_succ hfuel))

theorem exhaust_mono {step : α → Option α} {fuel fuel' : Nat} (hle : fuel ≤ fuel') {a b : α}
    (h : exhaust step fuel a = some b) : exhaust step fuel' a = some b := by
  induction fuel generalizing a fuel' with
  | zero => cases h
  | succ fuel ih =>
    obtain ⟨fuel', rfl⟩ := Nat.exists_eq_add_of_le' (Nat.one_le_of_lt hle)
    rw [exhaust] at h ⊢
    cases hs : step a with
    | none => rwa [hs] at h
    | some c =>
      rw [hs] at h
      exact ih (Nat.le_of_succ_le_succ hle) h

theorem length_filter_cons_lt {κ : Type} [BEq κ] [LawfulBEq κ] {key : α → κ} {xs : List α} {x seen}
    (hx : x ∈ xs) (hnew : key x ∉ seen) : (xs.filter (key · ∉ key x :: seen)).length < (xs.filter (key · ∉ seen)).length := by
  have hsub : xs.filter (key · ∉ key x :: seen) = (xs.filter (key · ∉ seen)).filter (key · != key x) := by
    rw [filter_filter]
    exact filter_congr fun y _ => by simp [bne]
  rw [hsub]
  exact length_filter_lt_length_iff_exists.mpr ⟨x, by simp [hx, hnew], by simp⟩

end Armfortas.Lib
