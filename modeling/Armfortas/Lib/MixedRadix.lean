import Mathlib.Algebra.BigOperators.Group.List.Basic
import Mathlib.Data.List.Forall2
import Mathlib.Data.Nat.Cast.Basic
import Mathlib.Tactic.Linarith
import Mathlib.Tactic.Ring

/-! The positions of an array with the given extents, first dimension fastest, are the numbers below the product of
the extents. With strides, a position becomes an offset. -/
namespace Armfortas.Lib
open List

def digits : List Nat → Nat → List Nat
  | [], _ => []
  | e :: es, k => k % e :: digits es (k / e)

def advanceDigits : List Nat → List Nat → List Nat
  | e :: es, i :: is => if i + 1 < e then (i + 1) :: is else 0 :: advanceDigits es is
  | _, is => is

def offset : List Int → List Nat → Int
  | s :: ss, i :: is => i * s + offset ss is
  | _, _ => 0

def denseStrides (c : Nat) : List Nat → List Int
  | [] => []
  | e :: es => c :: denseStrides (c * e) es

variable {es : List Nat}

theorem digits_zero (es) : digits es 0 = List.replicate es.length 0 := by
  induction es with
  | nil => rfl
  | cons e es ih => rw [digits, Nat.zero_mod, Nat.zero_div, ih, length_cons, replicate_succ]

theorem offset_zero (ss m) : offset ss (List.replicate m 0) = 0 := by
  induction ss generalizing m with
  | nil => cases m <;> rfl
  | cons s ss ih =>
    cases m with
    | zero => rfl
    | succ m => rw [replicate_succ, offset, ih, Nat.cast_zero, zero_mul, zero_add]

theorem pos_of_prod_pos {e} (h : 0 < (e :: es).prod) : 0 < e ∧ 0 < es.prod := by
  rw [prod_cons] at h
  exact ⟨Nat.pos_of_mul_pos_right h, Nat.pos_of_mul_pos_left h⟩

theorem digits_lt (h : 0 < es.prod) (k) : List.Forall₂ (· < ·) (digits es k) es := by
  induction es generalizing k with
  | nil => exact .nil
  | cons e es ih =>
    obtain ⟨he, hes⟩ := pos_of_prod_pos h
    exact .cons (Nat.mod_lt k he) (ih hes _)

theorem advance_digits (h : 0 < es.prod) (k) : advanceDigits es (digits es k) = digits es (k + 1) := by
  induction es generalizing k with
  | nil => rfl
  | cons e es ih =>
    obtain ⟨he, hes⟩ := pos_of_prod_pos h
    have hdiv := Nat.div_add_mod k e
    have hmod := Nat.mod_lt k he
    rw [digits, advanceDigits, digits]
    split
    · rename_i hlt
      have hk : k + 1 = e * (k / e) + (k % e + 1) := by omega
      rw [hk, Nat.mul_add_mod, Nat.mod_eq_of_lt hlt, Nat.mul_add_div he, Nat.div_eq_of_lt hlt]
      rfl
    · have hk : k + 1 = e * (k / e + 1) := by
        rw [Nat.mul_succ]
        omega
      rw [hk, Nat.mul_mod_right, Nat.mul_div_cancel_left _ he, ih hes]

theorem offset_dense (c) {k} (hk : k < es.prod) : offset (denseStrides c es) (digits es k) = c * k := by
  induction es generalizing c k with
  | nil =>
    obtain rfl : k = 0 := Nat.lt_one_iff.mp hk
    simp [digits, denseStrides, offset]
  | cons e es ih =>
    obtain ⟨he, hes⟩ := pos_of_prod_pos (Nat.lt_of_le_of_lt (Nat.zero_le k) hk)
    have hlt : k / e < es.prod := by
      rw [prod_cons] at hk
      exact Nat.div_lt_of_lt_mul hk
    have hdiv : ((e * (k / e) + k % e : Nat) : Int) = k := by rw [Nat.div_add_mod]
    rw [digits, denseStrides, offset, ih _ hlt, ← hdiv]
    push_cast
    ring

theorem digits_injective {j k} (hj : j < es.prod) (hk : k < es.prod) (h : digits es j = digits es k) : j = k := by
  have := offset_dense 1 hj
  rw [h, offset_dense 1 hk] at this
  omega

theorem exists_digits {is} (h : List.Forall₂ (· < ·) is es) : ∃ k < es.prod, digits es k = is := by
  induction h with
  | nil => exact ⟨0, Nat.one_pos, rfl⟩
  | @cons i e is es hi _ ih =>
    obtain ⟨k, hk, hdigits⟩ := ih
    refine ⟨i + e * k, ?_, ?_⟩
    · rw [prod_cons]
      nlinarith
    · rw [digits, Nat.add_mul_mod_self_left, Nat.mod_eq_of_lt hi, Nat.add_mul_div_left _ _ (by omega),
        Nat.div_eq_of_lt hi, zero_add, hdigits]

theorem offset_le {ss ts} (h : List.Forall₂ (· ≤ ·) ss ts) (is) : offset ss is ≤ offset ts is := by
  induction h generalizing is with
  | nil => exact le_rfl
  | cons hle _ ih =>
    cases is with
    | nil => exact le_rfl
    | cons i is => exact add_le_add (mul_le_mul_of_nonneg_left hle (Int.natCast_nonneg i)) (ih is)

theorem offset_nonneg {ss} (h : ∀ s ∈ ss, 0 ≤ s) (is) : 0 ≤ offset ss is := by
  induction ss generalizing is with
  | nil => exact le_rfl
  | cons s ss ih =>
    cases is with
    | nil => exact le_rfl
    | cons i is =>
      exact add_nonneg (mul_nonneg (Int.natCast_nonneg i) (h s mem_cons_self))
        (ih (fun t ht => h t (mem_cons_of_mem s ht)) is)

theorem eq_self_of_le {f : Nat → Nat} {n} (hle : ∀ k < n, f k ≤ k)
    (hinj : ∀ j < n, ∀ k < n, f j = f k → j = k) {k} (hk : k < n) : f k = k := by
  induction k using Nat.strong_induction_on with
  | _ k ih =>
    by_contra hne
    have hlt : f k < k := Nat.lt_of_le_of_ne (hle k hk) hne
    have hsame := ih (f k) hlt (hlt.trans hk)
    exact hne (hinj _ (hlt.trans hk) k hk hsame)

/-- Strides that keep distinct positions apart and are nowhere larger than the dense ones count the positions
through. -/
theorem offset_eq_of_le_dense {ss} (hnonneg : ∀ s ∈ ss, 0 ≤ s) (hle : List.Forall₂ (· ≤ ·) ss (denseStrides 1 es))
    (hinj : ∀ is js, List.Forall₂ (· < ·) is es → List.Forall₂ (· < ·) js es → offset ss is = offset ss js → is = js)
    {k} (hk : k < es.prod) : offset ss (digits es k) = k := by
  have hpos : 0 < es.prod := Nat.lt_of_le_of_lt (Nat.zero_le k) hk
  have hnat : ∀ j, ((offset ss (digits es j)).toNat : Int) = offset ss (digits es j) := fun j =>
    Int.toNat_of_nonneg (offset_nonneg hnonneg _)
  have hself := eq_self_of_le (f := fun j => (offset ss (digits es j)).toNat) (n := es.prod) (fun j hj => ?_)
    (fun i hi j hj he => ?_) hk
  · rw [← hnat, hself]
  · have hbound := offset_le hle (digits es j)
    rw [offset_dense 1 hj, ← hnat j] at hbound
    omega
  · have hsame : offset ss (digits es i) = offset ss (digits es j) := by
      have := congrArg (Nat.cast (R := Int)) he
      rwa [hnat, hnat] at this
    exact digits_injective hi hj (hinj _ _ (digits_lt hpos i) (digits_lt hpos j) hsame)

end Armfortas.Lib
