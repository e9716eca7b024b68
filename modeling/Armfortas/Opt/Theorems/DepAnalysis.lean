import Armfortas.Opt.DepAnalysis
import Mathlib.Algebra.BigOperators.Pi
import Mathlib.Algebra.BigOperators.Ring.Finset
import Mathlib.Algebra.Group.Subgroup.Order
import Mathlib.Data.Int.GCD
import Mathlib.Tactic.Linarith

/-! Two references meet in some pair of iterations exactly when the divisor common to the coefficients of both
subscripts divides the distance of their constants. The test takes the divisor of the differences of the coefficients,
which is the one at equal iterations. -/
namespace Armfortas.Opt.DepAnalysis
open Ir List

theorem foldl_gcd_dvd (xs : List Nat) (g : Nat) : xs.foldl gcd g ∣ g ∧ ∀ x ∈ xs, xs.foldl gcd g ∣ x := by
  induction xs generalizing g with
  | nil => simp
  | cons x xs ih =>
    obtain ⟨hg, hxs⟩ := ih (gcd g x)
    rw [foldl_cons, forall_mem_cons]
    exact ⟨hg.trans (Nat.gcd_dvd_right x g), hg.trans (Nat.gcd_dvd_left x g), hxs⟩

theorem foldl_gcd_mem (G : AddSubgroup Int) {xs : List Nat} {g : Nat} (hg : (g : Int) ∈ G)
    (hxs : ∀ x ∈ xs, (x : Int) ∈ G) : ((xs.foldl gcd g : Nat) : Int) ∈ G := by
  induction xs generalizing g with
  | nil => exact hg
  | cons x xs ih =>
    obtain ⟨hx, hxs⟩ := forall_mem_cons.mp hxs
    refine ih ?_ hxs
    rw [gcd, Nat.gcd_eq_gcd_ab, mul_comm, mul_comm (g : Int)]
    exact G.add_mem (G.zsmul_mem hx _) (G.zsmul_mem hg _)

namespace AffineExpr

def linear (e : AffineExpr) : (ValueId → Int) →+ Int where
  toFun iteration := (e.terms.map fun t => t.1 * iteration t.2).sum
  map_zero' := by simp
  map_add' I J := by simp [mul_add, sum_map_add]

def eval (e : AffineExpr) (iteration : ValueId → Int) : Int := e.constant + e.linear iteration

def coefficient (e : AffineExpr) (iv : ValueId) : Int := ((e.terms.filter (·.2 == iv)).map (·.1)).sum

def commonDivisor (a b : AffineExpr) : Nat :=
  ((a.terms ++ b.terms).flatMap fun t => [(a.coefficient t.2).natAbs, (b.coefficient t.2).natAbs]).foldl gcd 0

def termsDivisor (e : AffineExpr) : Nat := (e.terms.map (·.1.natAbs)).foldl gcd 0

variable {e : AffineExpr}

theorem linear_single (iv : ValueId) (x : Int) : e.linear (Pi.single iv x) = e.coefficient iv * x := by
  show (e.terms.map fun t => t.1 * (Pi.single iv x : ValueId → Int) t.2).sum = _
  rw [coefficient]
  induction e.terms with
  | nil => simp
  | cons t terms ih => by_cases h : t.2 = iv <;> simp [h, ih, add_mul]

theorem dvd_linear {g : Int} (h : ∀ iv, g ∣ e.coefficient iv) (iteration : ValueId → Int) : g ∣ e.linear iteration := by
  -- only the variables of the terms count
  have hfinite : e.linear iteration = e.linear (∑ iv ∈ (e.terms.map (·.2)).toFinset, Pi.single iv (iteration iv)) := by
    refine congrArg List.sum (map_congr_left fun t ht => ?_)
    have hmem : ∃ c, (c, t.2) ∈ e.terms := ⟨t.1, ht⟩
    simp [Finset.sum_apply, Pi.single_apply, hmem]
  rw [hfinite, map_sum]
  refine Finset.dvd_sum fun iv _ => ?_
  rw [linear_single]
  exact (h iv).mul_right _

theorem commonDivisor_dvd (a b : AffineExpr) (iv : ValueId) :
    (a.commonDivisor b : Int) ∣ a.coefficient iv ∧ (a.commonDivisor b : Int) ∣ b.coefficient iv := by
  by_cases h : iv ∈ (a.terms ++ b.terms).map (·.2)
  · obtain ⟨t, ht, rfl⟩ := List.mem_map.mp h
    have hall := (foldl_gcd_dvd _ 0 : a.commonDivisor b ∣ 0 ∧ _).2
    simp only [Int.natCast_dvd]
    exact ⟨hall _ (mem_flatMap.mpr ⟨t, ht, by simp⟩), hall _ (mem_flatMap.mpr ⟨t, ht, by simp⟩)⟩
  · have hnone (e : AffineExpr) (he : iv ∉ e.terms.map (·.2)) : e.coefficient iv = 0 := by
      rw [coefficient, filter_eq_nil_iff.mpr, map_nil, sum_nil]
      exact fun t ht heq => he (List.mem_map.mpr ⟨t, ht, eq_of_beq heq⟩)
    rw [map_append, mem_append, not_or] at h
    rw [hnone a h.1, hnone b h.2]
    exact ⟨dvd_zero _, dvd_zero _⟩

theorem exists_eval_eq_iff (a b : AffineExpr) :
    (∃ I J, a.eval I = b.eval J) ↔ (a.commonDivisor b : Int) ∣ b.constant - a.constant := by
  constructor
  · rintro ⟨I, J, h⟩
    have ha := dvd_linear (fun iv => (commonDivisor_dvd a b iv).1) I
    have hb := dvd_linear (fun iv => (commonDivisor_dvd a b iv).2) J
    rw [eval, eval] at h
    rw [show b.constant - a.constant = a.linear I - b.linear J by linarith only [h]]
    exact ha.sub hb
  · -- what two iterations can make up for is a group, and the coefficients are in it
    let G : AddSubgroup Int := a.linear.range ⊔ b.linear.range
    have hcoefficient (iv : ValueId) :
        ((a.coefficient iv).natAbs : Int) ∈ G ∧ ((b.coefficient iv).natAbs : Int) ∈ G := by
      simp only [Int.natCast_natAbs, abs_mem_iff]
      refine ⟨AddSubgroup.mem_sup_left ⟨Pi.single iv 1, ?_⟩, AddSubgroup.mem_sup_right ⟨Pi.single iv 1, ?_⟩⟩ <;>
        rw [linear_single, mul_one]
    have hdivisor : (a.commonDivisor b : Int) ∈ G := by
      refine foldl_gcd_mem G G.zero_mem fun x hx => ?_
      obtain ⟨t, -, ht⟩ := mem_flatMap.mp hx
      rw [mem_pair] at ht
      rcases ht with rfl | rfl
      · exact (hcoefficient t.2).1
      · exact (hcoefficient t.2).2
    rintro ⟨k, hk⟩
    have hmem : b.constant - a.constant ∈ G := hk ▸ mul_comm k _ ▸ G.zsmul_mem hdivisor k
    obtain ⟨_, ⟨I, rfl⟩, _, ⟨J, rfl⟩, hIJ⟩ := AddSubgroup.mem_sup.mp hmem
    refine ⟨I, -J, ?_⟩
    rw [eval, eval, map_neg]
    linarith only [hIJ]

end AffineExpr
open AffineExpr

theorem testDependence_eq_true_iff {a b : MemRef} (hbase : a.base = b.base) :
    testDependence a b = true ↔
      ((b.subscript.sub a.subscript).termsDivisor : Int) ∣ (b.subscript.sub a.subscript).constant := by
  rw [testDependence, if_neg (by simp [hbase])]
  generalize b.subscript.sub a.subscript = diff
  dsimp only
  split
  · next hempty => simp [termsDivisor, isEmpty_iff.mp hempty]
  · split
    · next hzero => simp [termsDivisor, hzero]
    · simp [termsDivisor, Int.natCast_dvd, Nat.dvd_iff_mod_eq_zero]

/-- The test may be relied on unless the constants differ by a multiple of the divisor of all coefficients and not of
that of the differences. -/
theorem testDependence_sound_iff (a b : MemRef) (hbase : a.base = b.base) :
    (testDependence a b = false → ∀ I J, a.subscript.eval I ≠ b.subscript.eval J) ↔
      ((a.subscript.commonDivisor b.subscript : Int) ∣ b.subscript.constant - a.subscript.constant →
        ((b.subscript.sub a.subscript).termsDivisor : Int) ∣ (b.subscript.sub a.subscript).constant) := by
  rw [← exists_eval_eq_iff, ← testDependence_eq_true_iff hbase, ← Bool.not_eq_true, not_imp_comm]
  simp only [ne_eq, not_forall, not_not]

/-- `a(2*i)` and `a(2*i + 1)`. -/
theorem testDependence_sound_iff_evenOdd :
    testDependence ⟨1, ⟨0, [(2, 7)]⟩, true⟩ ⟨1, ⟨1, [(2, 7)]⟩, false⟩ = false ∧
      ∀ I J, (AffineExpr.mk 0 [(2, 7)]).eval I ≠ (AffineExpr.mk 1 [(2, 7)]).eval J :=
  ⟨by decide, (testDependence_sound_iff ⟨1, _, true⟩ ⟨1, _, false⟩ rfl).mpr (by decide) (by decide)⟩

/-- `a(i)` in iteration 2 and `a(i + 1)` in iteration 1 are one element. -/
theorem testDependence_shifted :
    testDependence ⟨1, ⟨0, [(1, 7)]⟩, true⟩ ⟨1, ⟨1, [(1, 7)]⟩, false⟩ = false ∧
      (AffineExpr.mk 0 [(1, 7)]).eval (fun _ => 2) = (AffineExpr.mk 1 [(1, 7)]).eval fun _ => 1 := by
  decide

end Armfortas.Opt.DepAnalysis
