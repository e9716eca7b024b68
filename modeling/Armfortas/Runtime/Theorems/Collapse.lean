import Armfortas.Runtime.Lemmas.Loops

/-! The pairs of two nested loops are numbered through in their order, for a rectangle and for inner bounds that are
the outer variable. -/
namespace Armfortas.Runtime.Openmp
open Lib List Option

/-- The pairs of two nested loops in the order in which they are run through. -/
def nestedLoops (outer : List Int) (inner : Int → List Int) : List (Int × Int) :=
  outer.flatMap fun i => (inner i).map fun j => (i, j)

/-- `total` is the number of pairs, and `indices` gives the pair of each number below it and fails from there on. -/
structure Enumerates (pairs : List (Int × Int)) (total : Int64) (indices : Int64 → Option (Int64 × Int64)) : Prop where
  total_eq : total.toInt = pairs.length
  indices_eq : ∀ k, 0 ≤ k → (indices k).map (fun p => (p.1.toInt, p.2.toInt)) = pairs[k.toInt.toNat]?

theorem tryI64_eq_some {x : Int} (h : InI64 x) : ∃ v, tryI64 x = some v ∧ v.toInt = x :=
  ⟨.ofInt x, if_pos h, Int64.toInt_ofInt_of_le h.1 h.2⟩

theorem tryI64_eq_none {x : Int} (h : ¬ InI64 x) : tryI64 x = none := if_neg h

theorem checkedI128_eq_some {x : Int} (hlo : -2 ^ 127 ≤ x) (hhi : x < 2 ^ 127) : checkedI128 x = some x := by
  rw [checkedI128, if_pos ⟨hlo, hhi⟩]

theorem checkedI128_eq_none {x : Int} (h : 2 ^ 127 ≤ x) : checkedI128 x = none := by
  rw [checkedI128, if_neg (by omega)]

/-! ## Rectangles -/

theorem nestedLoops_rectangle (a b : Nat → Int) (n m : Nat) :
    nestedLoops ((List.range n).map a) (fun _ => (List.range m).map b) =
      (List.range (n * m)).map fun k => (a (k / m), b (k % m)) := by
  rw [map_eq_flatMap (l := List.range (n * m)), flatMap_range_mul, nestedLoops, flatMap_map]
  refine flatMap_congr fun k _ => ?_
  rw [List.map_map, map_eq_flatMap]
  refine flatMap_congr fun t ht => ?_
  have hlt := mem_range.mp ht
  have hquot : (t + k * m) / m = k := by rw [Nat.add_mul_div_right _ _ (by omega), Nat.div_eq_of_lt hlt, Nat.zero_add]
  have hrem : (t + k * m) % m = t := by rw [Nat.add_mul_mod_self_right, Nat.mod_eq_of_lt hlt]
  rw [hquot, hrem]
  rfl

section Rectangle

variable (outerLower outerUpper outerStep innerLower innerUpper innerStep : Int64)

def rectanglePairs : List (Int × Int) :=
  nestedLoops (fortranLoop outerLower.toInt outerUpper.toInt outerStep.toInt) fun _ =>
    fortranLoop innerLower.toInt innerUpper.toInt innerStep.toInt

theorem rectanglePairs_eq : rectanglePairs outerLower outerUpper outerStep innerLower innerUpper innerStep =
    (List.range (tripCount outerLower.toInt outerUpper.toInt outerStep.toInt *
      tripCount innerLower.toInt innerUpper.toInt innerStep.toInt)).map fun k =>
        (outerLower.toInt + (k / tripCount innerLower.toInt innerUpper.toInt innerStep.toInt : Nat) * outerStep.toInt,
          innerLower.toInt + (k % tripCount innerLower.toInt innerUpper.toInt innerStep.toInt : Nat) * innerStep.toInt) :=
  nestedLoops_rectangle _ _ _ _

variable {outerLower outerUpper outerStep innerLower innerUpper innerStep}

theorem collapse2Shape_cases (ho : outerStep ≠ 0) (hi : innerStep ≠ 0) :
    (∃ shape, collapse2Shape outerLower outerUpper outerStep innerLower innerUpper innerStep = some shape ∧
      shape.outerCount.toInt = tripCount outerLower.toInt outerUpper.toInt outerStep.toInt ∧
      shape.innerCount.toInt = tripCount innerLower.toInt innerUpper.toInt innerStep.toInt ∧
      shape.totalCount.toInt = tripCount outerLower.toInt outerUpper.toInt outerStep.toInt *
        tripCount innerLower.toInt innerUpper.toInt innerStep.toInt) ∨
    (collapse2Shape outerLower outerUpper outerStep innerLower innerUpper innerStep = none ∧
      (¬ InI64 (tripCount outerLower.toInt outerUpper.toInt outerStep.toInt) ∨
        ¬ InI64 (tripCount innerLower.toInt innerUpper.toInt innerStep.toInt) ∨
        ¬ InI64 (tripCount outerLower.toInt outerUpper.toInt outerStep.toInt *
          tripCount innerLower.toInt innerUpper.toInt innerStep.toInt))) := by
  unfold collapse2Shape
  rw [if_neg (not_or.mpr ⟨ho, hi⟩), iterations_eq ho, iterations_eq hi]
  generalize tripCount outerLower.toInt outerUpper.toInt outerStep.toInt = n
  generalize tripCount innerLower.toInt innerUpper.toInt innerStep.toInt = m
  have hnonneg : 0 ≤ (n : Int) * m := mul_nonneg (Int.natCast_nonneg n) (Int.natCast_nonneg m)
  simp only [bind_eq_bind]
  rcases lt_or_ge ((n : Int) * m) (2 ^ 127) with hlt | hge
  · rw [checkedI128_eq_some (by omega) hlt, bind_some]
    by_cases hn : InI64 n
    · obtain ⟨vn, hvn, hn'⟩ := tryI64_eq_some hn
      rw [hvn, bind_some]
      by_cases hm : InI64 m
      · obtain ⟨vm, hvm, hm'⟩ := tryI64_eq_some hm
        rw [hvm, bind_some]
        by_cases htotal : InI64 ((n : Int) * m)
        · obtain ⟨vt, hvt, ht'⟩ := tryI64_eq_some htotal
          rw [hvt, bind_some]
          exact .inl ⟨{ outerCount := vn, innerCount := vm, totalCount := vt }, rfl, hn', hm', ht'⟩
        · rw [tryI64_eq_none htotal, bind_none]
          exact .inr ⟨rfl, .inr (.inr htotal)⟩
      · rw [tryI64_eq_none hm, bind_none]
        exact .inr ⟨rfl, .inr (.inl hm)⟩
    · rw [tryI64_eq_none hn, bind_none]
      exact .inr ⟨rfl, .inl hn⟩
  · rw [checkedI128_eq_none hge, bind_none]
    refine .inr ⟨rfl, .inr (.inr fun h => ?_)⟩
    unfold InI64 at h
    omega

theorem collapse2Indices_eq (ho : outerStep ≠ 0) (hi : innerStep ≠ 0) {outerCount innerCount flatIndex : Int64} {n m k : Nat}
    (hn : n = tripCount outerLower.toInt outerUpper.toInt outerStep.toInt)
    (hm : m = tripCount innerLower.toInt innerUpper.toInt innerStep.toInt) (hn' : outerCount.toInt = n)
    (hm' : innerCount.toInt = m) (hk : flatIndex.toInt = k) :
    (collapse2Indices flatIndex outerCount innerCount outerLower outerStep innerLower innerStep).map
        (fun p => (p.1.toInt, p.2.toInt)) =
      ((List.range (n * m)).map fun j =>
        (outerLower.toInt + (j / m : Nat) * outerStep.toInt, innerLower.toInt + (j % m : Nat) * innerStep.toInt))[k]? := by
  have hprod : i128 ((n : Int) * m) = (n * m : Nat) := by
    have h₁ := outerCount.toInt_lt
    have h₂ := innerCount.toInt_lt
    have : n * m ≤ 2 ^ 63 * 2 ^ 63 := Nat.mul_le_mul (by omega) (by omega)
    rw [← Nat.cast_mul, i128_natCast (this.trans_lt (by decide))]
  unfold collapse2Indices
  rcases Nat.lt_or_ge k (n * m) with hlt | hge
  · have hmpos : 0 < m := Nat.pos_of_ne_zero fun h => by simp [h] at hlt
    have hnpos : 0 < n := Nat.pos_of_ne_zero fun h => by simp [h] at hlt
    have hq : k / m < n := Nat.div_lt_of_lt_mul (Nat.mul_comm n m ▸ hlt)
    have hr : k % m < m := Nat.mod_lt _ hmpos
    have houter := value_inI64 (toInt_inI64 outerLower) (toInt_inI64 outerUpper) (step_toInt_ne ho) (hq.trans_eq hn)
    have hinner := value_inI64 (toInt_inI64 innerLower) (toInt_inI64 innerUpper) (step_toInt_ne hi) (hr.trans_eq hm)
    have houter' := i128_value (toInt_inI64 outerLower) (toInt_inI64 outerUpper) (step_toInt_ne ho) (hq.trans_eq hn)
    have hinner' := i128_value (toInt_inI64 innerLower) (toInt_inI64 innerUpper) (step_toInt_ne hi) (hr.trans_eq hm)
    have hvalid : ¬ (flatIndex < 0 ∨ outerCount ≤ 0 ∨ innerCount ≤ 0 ∨ outerStep = 0 ∨ innerStep = 0) := by
      rw [Int64.lt_iff_toInt_lt, Int64.le_iff_toInt_le, Int64.le_iff_toInt_le, hn', hm', hk, Int64.toInt_zero]
      simp only [not_or]
      exact ⟨by omega, by omega, by omega, ho, hi⟩
    obtain ⟨vo, hvo, hvo'⟩ := tryI64_eq_some houter
    obtain ⟨vi, hvi, hvi'⟩ := tryI64_eq_some hinner
    rw [if_neg hvalid, hn', hm', hk, hprod, if_neg (by omega)]
    dsimp only
    rw [← Int.ofNat_tdiv, ← Int.ofNat_tmod, houter', hinner', hvo, bind_eq_bind,
      bind_some, hvi, bind_some, getElem?_map, getElem?_range hlt]
    change some (vo.toInt, vi.toInt) = some _
    rw [hvo', hvi']
  · rw [getElem?_eq_none (by simpa using hge), hn', hm', hk, hprod, if_pos (show ((n * m : Nat) : Int) ≤ k by omega)]
    split <;> rfl

end Rectangle

/-! ## Inner bounds that are the outer variable -/

section Nonrect

variable (outerLower outerUpper outerStep innerLower innerUpper innerStep : Int64) (flags : Int32)

def innerLoop (outer : Int) : List Int :=
  fortranLoop (if flags &&& 1 ≠ 0 then outer else innerLower.toInt) (if flags &&& 2 ≠ 0 then outer else innerUpper.toInt)
    innerStep.toInt

def nonrectPairs : List (Int × Int) :=
  nestedLoops (fortranLoop outerLower.toInt outerUpper.toInt outerStep.toInt) (innerLoop innerLower innerUpper innerStep flags)

def rowsFrom (j left : Nat) : List (Int × Int) :=
  nestedLoops (progression (outerLower.toInt + j * outerStep.toInt) outerStep.toInt left)
    (innerLoop innerLower innerUpper innerStep flags)

theorem rowsFrom_succ (j left : Nat) :
    rowsFrom outerLower outerStep innerLower innerUpper innerStep flags j (left + 1) =
      (innerLoop innerLower innerUpper innerStep flags (outerLower.toInt + j * outerStep.toInt)).map
          (fun v => (outerLower.toInt + j * outerStep.toInt, v)) ++
        rowsFrom outerLower outerStep innerLower innerUpper innerStep flags (j + 1) left := by
  have hnext : outerLower.toInt + j * outerStep.toInt + (1 : Nat) * outerStep.toInt =
      outerLower.toInt + (j + 1 : Nat) * outerStep.toInt := by
    push_cast
    ring
  rw [rowsFrom, Nat.add_comm, progression_add, hnext, nestedLoops, flatMap_append, rowsFrom, nestedLoops]
  simp [progression]

variable {outerLower outerUpper outerStep innerLower innerUpper innerStep flags} (ho : outerStep ≠ 0) (hi : innerStep ≠ 0)
  (hflags : validFlags flags = true)

include ho hi hflags

theorem nonrectRow_eq {j : Nat} (hj : j < tripCount outerLower.toInt outerUpper.toInt outerStep.toInt) :
    ∃ lower : Int, nonrectRow outerLower outerStep innerLower innerUpper innerStep flags j =
        some (outerLower.toInt + j * outerStep.toInt, lower,
          ((innerLoop innerLower innerUpper innerStep flags (outerLower.toInt + j * outerStep.toInt)).length : Int)) ∧
      InI64 (outerLower.toInt + j * outerStep.toInt) ∧
      ∀ (r : Nat) (v : Int),
        (innerLoop innerLower innerUpper innerStep flags (outerLower.toInt + j * outerStep.toInt))[r]? = some v →
        i128 (lower + i128 (r * innerStep.toInt)) = v ∧ InI64 v := by
  have houter := value_inI64 (toInt_inI64 outerLower) (toInt_inI64 outerUpper) (step_toInt_ne ho) hj
  have houter' := i128_value (toInt_inI64 outerLower) (toInt_inI64 outerUpper) (step_toInt_ne ho) hj
  generalize outerLower.toInt + j * outerStep.toInt = outer at *
  have hfirst : InI64 (if flags &&& 1 ≠ 0 then outer else innerLower.toInt) := by
    split
    · exact houter
    · exact toInt_inI64 innerLower
  have hlast : InI64 (if flags &&& 2 ≠ 0 then outer else innerUpper.toInt) := by
    split
    · exact houter
    · exact toInt_inI64 innerUpper
  refine ⟨if flags &&& 1 ≠ 0 then outer else innerLower.toInt, ?_, houter, fun r v hv => ?_⟩
  · unfold nonrectRow
    dsimp only
    rw [houter', nonrectInnerBounds, if_pos hflags, innerLoop, fortranLoop, length_progression,
      ← loopIterationCount_eq hfirst hlast (toInt_inI64 innerStep) (step_toInt_ne hi)]
    rfl
  · rw [innerLoop, fortranLoop, progression, getElem?_map, map_eq_some_iff] at hv
    obtain ⟨r', hr', rfl⟩ := hv
    obtain ⟨hlt, heq⟩ := List.getElem?_eq_some_iff.mp hr'
    rw [length_range] at hlt
    rw [getElem_range] at heq
    subst heq
    exact ⟨i128_value hfirst hlast (step_toInt_ne hi) hlt, value_inI64 hfirst hlast (step_toInt_ne hi) hlt⟩

theorem nonrectTotal_eq {left j total : Nat}
    (hj : j + left ≤ tripCount outerLower.toInt outerUpper.toInt outerStep.toInt) (htotal : total < 2 ^ 127) :
    nonrectTotal outerLower outerStep innerLower innerUpper innerStep flags left j total =
      if total + (rowsFrom outerLower outerStep innerLower innerUpper innerStep flags j left).length < 2 ^ 127 then
        some ((total + (rowsFrom outerLower outerStep innerLower innerUpper innerStep flags j left).length : Nat) : Int)
      else none := by
  induction left generalizing j total with
  | zero =>
    rw [nonrectTotal, if_pos (by simpa [rowsFrom, nestedLoops] using htotal)]
    simp [rowsFrom, nestedLoops]
  | succ left ih =>
    have hcount : tripCount outerLower.toInt outerUpper.toInt outerStep.toInt ≤ 2 ^ 64 := count_le ho
    obtain ⟨lower, hrow, -, -⟩ :=
      @nonrectRow_eq outerLower outerUpper outerStep innerLower innerUpper innerStep flags ho hi hflags j (by omega)
    have hindex : i128 ((j : Int) + 1) = (j + 1 : Nat) := by
      rw [← Nat.cast_succ, i128_natCast (by omega)]
    rw [nonrectTotal, hrow, bind_eq_bind, bind_some, rowsFrom_succ, length_append, length_map,
      hindex]
    generalize (innerLoop innerLower innerUpper innerStep flags (outerLower.toInt + j * outerStep.toInt)).length = n
    dsimp only
    rw [← Nat.cast_add]
    rcases Nat.lt_or_ge (total + n) (2 ^ 127) with hlt | hge
    · rw [checkedI128_eq_some (by omega) (by omega), bind_eq_bind, bind_some, ih (by omega) hlt, Nat.add_assoc]
    · rw [checkedI128_eq_none (by omega), bind_eq_bind, bind_none, if_neg (by omega)]

theorem nonrectFind_eq {left j remaining : Nat}
    (hj : j + left ≤ tripCount outerLower.toInt outerUpper.toInt outerStep.toInt) (hremaining : remaining < 2 ^ 63) :
    (nonrectFind outerLower outerStep innerLower innerUpper innerStep flags left j remaining).map
        (fun p => (p.1.toInt, p.2.toInt)) =
      (rowsFrom outerLower outerStep innerLower innerUpper innerStep flags j left)[remaining]? := by
  induction left generalizing j remaining with
  | zero => simp [nonrectFind, rowsFrom, nestedLoops]
  | succ left ih =>
    have hcount : tripCount outerLower.toInt outerUpper.toInt outerStep.toInt ≤ 2 ^ 64 := count_le ho
    obtain ⟨lower, hrow, houter, hvalues⟩ :=
      @nonrectRow_eq outerLower outerUpper outerStep innerLower innerUpper innerStep flags ho hi hflags j (by omega)
    have hindex : i128 ((j : Int) + 1) = (j + 1 : Nat) := by
      rw [← Nat.cast_succ, i128_natCast (by omega)]
    rw [nonrectFind, hrow, bind_eq_bind, bind_some, rowsFrom_succ, hindex]
    dsimp only
    rcases Nat.lt_or_ge remaining
      (innerLoop innerLower innerUpper innerStep flags (outerLower.toInt + j * outerStep.toInt)).length with hlt | hge
    · obtain ⟨hvalue, hfits⟩ := hvalues remaining _ (getElem?_eq_getElem hlt)
      obtain ⟨vo, hvo, hvo'⟩ := tryI64_eq_some houter
      obtain ⟨vi, hvi, hvi'⟩ := tryI64_eq_some hfits
      rw [if_pos (by omega), hvo, hvalue, hvi, getElem?_append_left (by simpa using hlt), getElem?_map,
        getElem?_eq_getElem hlt]
      change some (vo.toInt, vi.toInt) = some _
      rw [hvo', hvi']
    · have hsub : i128 ((remaining : Int) -
          (innerLoop innerLower innerUpper innerStep flags (outerLower.toInt + j * outerStep.toInt)).length) =
          (remaining - (innerLoop innerLower innerUpper innerStep flags
            (outerLower.toInt + j * outerStep.toInt)).length : Nat) := by
        rw [← Nat.cast_sub hge, i128_natCast (by omega)]
      rw [if_neg (by omega), hsub, ih (by omega) (by omega), getElem?_append_right (by simpa using hge),
        length_map]

omit ho hi hflags in
theorem rowsFrom_zero : rowsFrom outerLower outerStep innerLower innerUpper innerStep flags 0
    (tripCount outerLower.toInt outerUpper.toInt outerStep.toInt) =
      nonrectPairs outerLower outerUpper outerStep innerLower innerUpper innerStep flags := by
  rw [rowsFrom, Nat.cast_zero, zero_mul, add_zero]
  rfl

theorem collapse2NonrectShape_cases :
    (∃ shape, collapse2NonrectShape outerLower outerUpper outerStep innerLower innerUpper innerStep flags = some shape ∧
      shape.1.toInt = tripCount outerLower.toInt outerUpper.toInt outerStep.toInt ∧
      shape.2.toInt = (nonrectPairs outerLower outerUpper outerStep innerLower innerUpper innerStep flags).length) ∨
    (collapse2NonrectShape outerLower outerUpper outerStep innerLower innerUpper innerStep flags = none ∧
      (¬ InI64 (tripCount outerLower.toInt outerUpper.toInt outerStep.toInt) ∨
        ¬ InI64 (nonrectPairs outerLower outerUpper outerStep innerLower innerUpper innerStep flags).length)) := by
  have htotal := @nonrectTotal_eq outerLower outerUpper outerStep innerLower innerUpper innerStep flags ho hi hflags _ 0 0
    (Nat.zero_add (tripCount outerLower.toInt outerUpper.toInt outerStep.toInt)).le (by decide)
  rw [rowsFrom_zero, Nat.zero_add, Nat.cast_zero] at htotal
  unfold collapse2NonrectShape
  rw [if_neg (by simp [ho, hi, hflags]), iterations_eq ho]
  dsimp only
  rw [Int.toNat_natCast, htotal]
  generalize (nonrectPairs outerLower outerUpper outerStep innerLower innerUpper innerStep flags).length = total
  generalize tripCount outerLower.toInt outerUpper.toInt outerStep.toInt = n
  simp only [bind_eq_bind]
  by_cases hn : InI64 n
  · obtain ⟨vn, hvn, hn'⟩ := tryI64_eq_some hn
    rw [hvn, bind_some]
    by_cases hfits : InI64 total
    · obtain ⟨vt, hvt, ht'⟩ := tryI64_eq_some hfits
      unfold InI64 at hfits
      rw [if_pos (by omega), bind_some, hvt, bind_some]
      exact .inl ⟨(vn, vt), rfl, hn', ht'⟩
    · refine .inr ⟨?_, .inr hfits⟩
      split
      · rw [bind_some, tryI64_eq_none hfits, bind_none]
      · rfl
  · rw [tryI64_eq_none hn, bind_none]
    exact .inr ⟨rfl, .inl hn⟩

theorem collapse2NonrectIndices_eq {outerCount flatIndex : Int64} {k : Nat}
    (hn : outerCount.toInt = tripCount outerLower.toInt outerUpper.toInt outerStep.toInt) (hk : flatIndex.toInt = k) :
    (collapse2NonrectIndices flatIndex outerCount outerLower outerStep innerLower innerUpper innerStep flags).map
        (fun p => (p.1.toInt, p.2.toInt)) =
      (nonrectPairs outerLower outerUpper outerStep innerLower innerUpper innerStep flags)[k]? := by
  have hfind := @nonrectFind_eq outerLower outerUpper outerStep innerLower innerUpper innerStep flags ho hi hflags _ 0 k
    (Nat.zero_add (tripCount outerLower.toInt outerUpper.toInt outerStep.toInt)).le
    (by have := flatIndex.toInt_lt; omega)
  rw [rowsFrom_zero, Nat.cast_zero] at hfind
  unfold collapse2NonrectIndices
  split
  · next hinvalid =>
    -- the only way left to be invalid is that there are no rows
    rw [Int64.lt_iff_toInt_lt, Int64.le_iff_toInt_le, hk, hn, Int64.toInt_zero] at hinvalid
    have hzero : tripCount outerLower.toInt outerUpper.toInt outerStep.toInt = 0 := by
      simp only [ho, hi, hflags, Bool.not_true, Bool.false_eq_true, or_false] at hinvalid
      omega
    rw [nonrectPairs, fortranLoop, hzero]
    rfl
  · rw [hn, hk, Int.toNat_natCast]
    exact hfind

end Nonrect

/-- Both shape functions give the number of pairs of the two sequential loops, with which the indices functions
enumerate them, and fail only for steps, flags and counts they cannot take. -/
theorem collapse2_correct (outerLower outerUpper outerStep innerLower innerUpper innerStep : Int64) (flags : Int32) :
    (∀ shape, collapse2Shape outerLower outerUpper outerStep innerLower innerUpper innerStep = some shape →
      Enumerates (rectanglePairs outerLower outerUpper outerStep innerLower innerUpper innerStep) shape.totalCount fun k =>
        collapse2Indices k shape.outerCount shape.innerCount outerLower outerStep innerLower innerStep) ∧
    (collapse2Shape outerLower outerUpper outerStep innerLower innerUpper innerStep = none →
      outerStep = 0 ∨ innerStep = 0 ∨ ¬ InI64 (fortranLoop outerLower.toInt outerUpper.toInt outerStep.toInt).length ∨
        ¬ InI64 (fortranLoop innerLower.toInt innerUpper.toInt innerStep.toInt).length ∨
        ¬ InI64 (rectanglePairs outerLower outerUpper outerStep innerLower innerUpper innerStep).length) ∧
    (∀ shape, collapse2NonrectShape outerLower outerUpper outerStep innerLower innerUpper innerStep flags = some shape →
      Enumerates (nonrectPairs outerLower outerUpper outerStep innerLower innerUpper innerStep flags) shape.2 fun k =>
        collapse2NonrectIndices k shape.1 outerLower outerStep innerLower innerUpper innerStep flags) ∧
    (collapse2NonrectShape outerLower outerUpper outerStep innerLower innerUpper innerStep flags = none →
      outerStep = 0 ∨ innerStep = 0 ∨ ¬ (1 ≤ flags ∧ flags ≤ 3) ∨
        ¬ InI64 (fortranLoop outerLower.toInt outerUpper.toInt outerStep.toInt).length ∨
        ¬ InI64 (nonrectPairs outerLower outerUpper outerStep innerLower innerUpper innerStep flags).length) := by
  have hindex : ∀ k : Int64, 0 ≤ k → k.toInt = k.toInt.toNat := by
    intro k hk
    have := Int64.le_iff_toInt_le.mp hk
    rw [Int64.toInt_zero] at this
    omega
  have hlength : (rectanglePairs outerLower outerUpper outerStep innerLower innerUpper innerStep).length =
      tripCount outerLower.toInt outerUpper.toInt outerStep.toInt *
        tripCount innerLower.toInt innerUpper.toInt innerStep.toInt := by
    rw [rectanglePairs_eq, length_map, length_range]
  simp only [fortranLoop, length_progression]
  by_cases ho : outerStep = 0
  · refine ⟨fun shape hs => ?_, fun _ => .inl ho, fun shape hs => ?_, fun _ => .inl ho⟩
    · simp [collapse2Shape, ho] at hs
    · simp [collapse2NonrectShape, ho] at hs
  by_cases hi : innerStep = 0
  · refine ⟨fun shape hs => ?_, fun _ => .inr (.inl hi), fun shape hs => ?_, fun _ => .inr (.inl hi)⟩
    · simp [collapse2Shape, hi] at hs
    · simp [collapse2NonrectShape, hi] at hs
  refine ⟨fun shape hs => ?_, fun hs => ?_, fun shape hs => ?_, fun hs => ?_⟩
  · rcases @collapse2Shape_cases outerLower outerUpper outerStep innerLower innerUpper innerStep ho hi with
      ⟨shape', hs', hn, hm, ht⟩ | ⟨hs', -⟩
    · cases hs.symm.trans hs'
      refine ⟨by rw [ht, hlength, Nat.cast_mul], fun k hk => ?_⟩
      rw [rectanglePairs_eq]
      exact collapse2Indices_eq ho hi rfl rfl hn hm (hindex k hk)
    · cases hs.symm.trans hs'
  · rcases @collapse2Shape_cases outerLower outerUpper outerStep innerLower innerUpper innerStep ho hi with
      ⟨shape', hs', -⟩ | ⟨-, hwhy⟩
    · cases hs.symm.trans hs'
    · rw [hlength, Nat.cast_mul]
      exact .inr (.inr hwhy)
  · by_cases hflags : validFlags flags = true
    · rcases @collapse2NonrectShape_cases outerLower outerUpper outerStep innerLower innerUpper innerStep flags ho hi hflags
        with ⟨shape', hs', hn, ht⟩ | ⟨hs', -⟩
      · cases hs.symm.trans hs'
        exact ⟨ht, fun k hk => collapse2NonrectIndices_eq ho hi hflags hn (hindex k hk)⟩
      · cases hs.symm.trans hs'
    · simp [collapse2NonrectShape, hflags] at hs
  · by_cases hflags : validFlags flags = true
    · rcases @collapse2NonrectShape_cases outerLower outerUpper outerStep innerLower innerUpper innerStep flags ho hi hflags
        with ⟨shape', hs', -⟩ | ⟨-, hwhy⟩
      · cases hs.symm.trans hs'
      · exact .inr (.inr (.inr hwhy))
    · exact .inr (.inr (.inl (by simpa [validFlags] using hflags)))

theorem collapse2_correct_triangle :
    Enumerates (nonrectPairs 1 3 1 1 0 1 2) 6 (fun k => collapse2NonrectIndices k 3 1 1 1 0 1 2) ∧
      Enumerates (rectanglePairs 5 1 (-2) 1 4 1) 12 fun k => collapse2Indices k 3 4 5 (-2) 1 1 :=
  ⟨(collapse2_correct 1 3 1 1 0 1 2).2.2.1 (3, 6) (by decide),
    (collapse2_correct 5 1 (-2) 1 4 1 1).1 { outerCount := 3, innerCount := 4, totalCount := 12 } (by decide)⟩

end Armfortas.Runtime.Openmp
