import Mathlib.Tactic.Linarith
import Armfortas.Runtime.Openmp.Loops

/-! The sequential loop as Fortran defines it, and that `i128` holds everything that is computed about it. -/
namespace Armfortas.Runtime.Openmp
open Lib List Int64

/-- The iteration count of the standard, `MAX(INT((m2 - m1 + m3) / m3), 0)`. -/
def tripCount (lower upper step : Int) : Nat := (max 0 ((upper - lower + step).tdiv step)).toNat

def fortranLoop (lower upper step : Int) : List Int := progression lower step (tripCount lower upper step)

/-- What an interval hands out: `first, first + step, …, last`. -/
def Bounds.values (step : Int) : Bounds → List Int
  | .interval first last => progression first.toInt step ((last.toInt - first.toInt).tdiv step + 1).toNat
  | _ => []

/-- `len` iterations from `first` on are handed out, and the ends are written without loss. -/
inductive Bounds.Hands (first step : Int) : Nat → Bounds → Prop
  | empty : Hands first step 0 .empty
  | interval {f l : Int64} {n : Nat} (hf : f.toInt = first) (hl : l.toInt = first + n * step) :
      Hands first step (n + 1) (.interval f l)

theorem Bounds.Hands.values {first step len} {b : Bounds} (h : b.Hands first step len) (hne : step ≠ 0) :
    b.values step = progression first step len := by
  cases h with
  | empty => rfl
  | interval hf hl =>
    rw [Bounds.values, hf, hl, add_sub_cancel_left, Int.mul_tdiv_cancel _ hne]
    congr 1

/-- The call is accepted, and what it writes are values of the loop. -/
def Bounds.Writes (values : List Int) : Bounds → Prop
  | .invalid => False
  | .empty => True
  | .interval first last => first.toInt ∈ values ∧ last.toInt ∈ values

theorem Bounds.Hands.writes {lower step : Int} {i len count : Nat} {b : Bounds}
    (h : b.Hands (lower + i * step) step len) (hle : len ≠ 0 → i + len ≤ count) :
    b.Writes (progression lower step count) := by
  cases h with
  | empty => trivial
  | @interval f l n hf hl =>
    refine ⟨mem_progression.mpr ⟨i, by omega, hf⟩, mem_progression.mpr ⟨i + n, by omega, ?_⟩⟩
    rw [hl]
    push_cast
    ring

section Count

variable {lower upper step : Int}

theorem lt_tripCount_pos (h : 0 < step) {k} : k < tripCount lower upper step ↔ lower + k * step ≤ upper := by
  have hk : k < tripCount lower upper step ↔ (k : Int) + 1 ≤ (upper - lower + step).tdiv step := by
    unfold tripCount
    omega
  rw [hk]
  by_cases hneg : 0 ≤ upper - lower + step
  · rw [Int.tdiv_eq_ediv_of_nonneg hneg, Int.le_ediv_iff_mul_le h, add_mul]
    constructor <;> intro hle <;> linarith
  · have hle : (upper - lower + step).tdiv step ≤ 0 := by
      rw [← neg_neg (upper - lower + step), Int.neg_tdiv]
      have := Int.tdiv_nonneg (show 0 ≤ -(upper - lower + step) by omega) h.le
      omega
    have hpos : 0 ≤ (k : Int) * step := mul_nonneg (Int.natCast_nonneg k) h.le
    constructor <;> intro hlt <;> omega

theorem tripCount_neg : tripCount (-lower) (-upper) (-step) = tripCount lower upper step := by
  unfold tripCount
  rw [show -upper - -lower + -step = -(upper - lower + step) by ring, Int.neg_tdiv, Int.tdiv_neg, neg_neg]

theorem lt_tripCount_neg (h : step < 0) {k} : k < tripCount lower upper step ↔ upper ≤ lower + k * step := by
  rw [← tripCount_neg, lt_tripCount_pos (by omega)]
  constructor <;> intro hle <;> linarith

theorem tripCount_of_pos (h : 0 < step) (hle : lower ≤ upper) :
    (tripCount lower upper step : Int) = (upper - lower).tdiv step + 1 := by
  have hnonneg : 0 ≤ (upper - lower).tdiv step := Int.tdiv_nonneg (by omega) h.le
  have hlt : ∀ k : Nat, k < tripCount lower upper step ↔ k < ((upper - lower).tdiv step + 1).toNat := by
    intro k
    rw [lt_tripCount_pos h, Int.lt_toNat, Int.lt_add_one_iff, Int.tdiv_eq_ediv_of_nonneg (by omega),
      Int.le_ediv_iff_mul_le h]
    constructor <;> intro hk <;> linarith
  rw [eq_of_forall_lt_iff hlt, Int.toNat_of_nonneg (by omega)]

theorem tripCount_eq_zero_of_pos (h : 0 < step) (hlt : upper < lower) : tripCount lower upper step = 0 := by
  by_contra hne
  have := (lt_tripCount_pos h).mp (Nat.pos_of_ne_zero hne)
  omega

end Count

/-! ## Without overflow -/

def InI64 (x : Int) : Prop := -2 ^ 63 ≤ x ∧ x < 2 ^ 63

theorem toInt_inI64 (x : Int64) : InI64 x.toInt := ⟨x.le_toInt, x.toInt_lt⟩

theorem i128_eq {x} (hlo : -2 ^ 127 ≤ x) (hhi : x < 2 ^ 127) : i128 x = x :=
  Int.bmod_eq_of_le (by omega) (by omega)

theorem i128_natCast {n : Nat} (h : n < 2 ^ 127) : i128 n = n := i128_eq (by omega) (by omega)

section Range

variable {lower upper step : Int} (hl : InI64 lower) (hu : InI64 upper) (hs : InI64 step) (hne : step ≠ 0)

include hl hu hne

theorem value_inI64 {k} (hk : k < tripCount lower upper step) : InI64 (lower + k * step) := by
  unfold InI64 at *
  rcases lt_or_gt_of_ne hne with hneg | hpos
  · have := (lt_tripCount_neg hneg).mp hk
    have : (k : Int) * step ≤ 0 := mul_nonpos_of_nonneg_of_nonpos (Int.natCast_nonneg k) hneg.le
    omega
  · have := (lt_tripCount_pos hpos).mp hk
    have : 0 ≤ (k : Int) * step := mul_nonneg (Int.natCast_nonneg k) hpos.le
    omega

theorem offset_lt {k} (hk : k < tripCount lower upper step) : -2 ^ 64 < k * step ∧ k * step < 2 ^ 64 := by
  have := value_inI64 hl hu hne hk
  unfold InI64 at *
  omega

theorem tripCount_le : tripCount lower upper step ≤ 2 ^ 64 := by
  by_contra hlt
  rw [Nat.not_le] at hlt
  have h := offset_lt hl hu hne hlt
  rcases lt_or_gt_of_ne hne with hneg | hpos
  · have : ((2 ^ 64 : Nat) : Int) * step ≤ (2 ^ 64 : Nat) * (-1) :=
      mul_le_mul_of_nonneg_left (by omega) (Int.natCast_nonneg _)
    omega
  · have : ((2 ^ 64 : Nat) : Int) * 1 ≤ (2 ^ 64 : Nat) * step :=
      mul_le_mul_of_nonneg_left (by omega) (Int.natCast_nonneg _)
    omega

include hs

theorem loopIterationCount_eq : loopIterationCount lower upper step = tripCount lower upper step := by
  have hcount := tripCount_le hl hu hne
  unfold InI64 at hl hu hs
  unfold loopIterationCount
  rw [i128_eq (x := upper - lower) (by omega) (by omega), i128_eq (x := lower - upper) (by omega) (by omega),
    i128_eq (x := -step) (by omega) (by omega)]
  rcases lt_or_gt_of_ne hne with hneg | hpos
  · rw [← tripCount_neg] at hcount ⊢
    rw [if_neg (by omega)]
    split
    · rw [tripCount_eq_zero_of_pos (by omega) (by omega)]
      rfl
    · have h := tripCount_of_pos (show 0 < -step by omega) (show -lower ≤ -upper by omega)
      rw [show -upper - -lower = lower - upper by ring] at h
      rw [← h, i128_eq (by omega) (by omega)]
  · rw [if_pos hpos]
    split
    · rw [tripCount_eq_zero_of_pos hpos (by omega)]
      rfl
    · have h := tripCount_of_pos hpos (show lower ≤ upper by omega)
      rw [← h, i128_eq (by omega) (by omega)]

omit hs

theorem i128_value {k} (hk : k < tripCount lower upper step) : i128 (lower + i128 (k * step)) = lower + k * step := by
  have hvalue := value_inI64 hl hu hne hk
  have hoffset := offset_lt hl hu hne hk
  unfold InI64 at hvalue
  rw [i128_eq (x := k * step) (by omega) (by omega), i128_eq (by omega) (by omega)]

theorem localInterval_hands {i len : Nat} (hlen : 0 < len) (hle : i + len ≤ tripCount lower upper step) :
    (localInterval lower step i len).Hands (lower + i * step) step len := by
  obtain ⟨n, rfl⟩ := Nat.exists_eq_add_of_le' hlen
  have hi := offset_lt hl hu hne (show i < _ by omega)
  have hfirst := value_inI64 hl hu hne (show i < _ by omega)
  have hlast := value_inI64 hl hu hne (show i + n < _ by omega)
  have hcount := tripCount_le hl hu hne
  have hsum : lower + ((i + n : Nat) : Int) * step = lower + i * step + n * step := by
    push_cast
    ring
  have hpred : (((n + 1 : Nat) : Int) - 1) = n := by omega
  rw [hsum] at hlast
  unfold InI64 at hfirst hlast
  unfold localInterval
  dsimp only
  rw [hpred, i128_natCast (by omega), i128_eq (x := i * step) (by omega) (by omega),
    i128_eq (x := n * step) (by omega) (by omega), i128_eq (x := lower + i * step) (by omega) (by omega),
    i128_eq (by omega) (by omega)]
  exact .interval (toInt_ofInt_of_le hfirst.1 hfirst.2) (toInt_ofInt_of_le hlast.1 hlast.2)

end Range

/-! ## Contiguous shares -/

/-- The share of thread `t` of `m`, and where it begins. -/
def share (count m t : Nat) : Nat := count / m + if t < count % m then 1 else 0

def shareStart (count m t : Nat) : Nat := t * (count / m) + min t (count % m)

theorem sum_share (count m t) : ((List.range t).map (share count m)).sum = shareStart count m t := by
  induction t with
  | zero => simp [shareStart]
  | succ t ih =>
    rw [range_succ, map_append, sum_append, ih, map_singleton, sum_singleton, shareStart,
      shareStart, share, Nat.succ_mul]
    split <;> omega

theorem shareStart_self {count m} (hm : 0 < m) : shareStart count m m = count := by
  have := Nat.div_add_mod count m
  have := Nat.mod_lt count hm
  rw [shareStart]
  omega

theorem shareStart_add_share_le {count m t} (ht : t < m) : shareStart count m t + share count m t ≤ count := by
  have hstep : shareStart count m (t + 1) = shareStart count m t + share count m t := by
    rw [← sum_share, ← sum_share, range_succ, map_append, sum_append, map_singleton, sum_singleton]
  have hmono : shareStart count m (t + 1) ≤ shareStart count m m := by
    rw [shareStart, shareStart]
    have : (t + 1) * (count / m) ≤ m * (count / m) := Nat.mul_le_mul_right _ ht
    omega
  rw [← hstep]
  exact hmono.trans (shareStart_self (by omega)).le

section Schedules

variable {lower upper step : Int64} (hstep : step ≠ 0)

include hstep

theorem step_toInt_ne : step.toInt ≠ 0 := fun h => hstep (toInt_inj.mp h)

theorem iterations_eq : loopIterationCount lower.toInt upper.toInt step.toInt =
    tripCount lower.toInt upper.toInt step.toInt :=
  loopIterationCount_eq (toInt_inI64 lower) (toInt_inI64 upper) (toInt_inI64 step) (step_toInt_ne hstep)

theorem count_le : tripCount lower.toInt upper.toInt step.toInt ≤ 2 ^ 64 :=
  tripCount_le (toInt_inI64 lower) (toInt_inI64 upper) (step_toInt_ne hstep)

theorem interval_hands {i len} (hlen : 0 < len) (hle : i + len ≤ tripCount lower.toInt upper.toInt step.toInt) :
    (localInterval lower.toInt step.toInt i len).Hands (lower.toInt + i * step.toInt) step.toInt len :=
  localInterval_hands (toInt_inI64 lower) (toInt_inI64 upper) (step_toInt_ne hstep) hlen hle

theorem staticBounds_hands {threadNum teamSize : Int32} {t m : Nat} (ht : threadNum.toInt = t) (hm : teamSize.toInt = m)
    (hlt : t < m) : (staticBounds lower upper step threadNum teamSize).Hands
      (lower.toInt + shareStart (tripCount lower.toInt upper.toInt step.toInt) m t * step.toInt) step.toInt
        (share (tripCount lower.toInt upper.toInt step.toInt) m t) := by
  have hcount : tripCount lower.toInt upper.toInt step.toInt ≤ 2 ^ 64 := count_le hstep
  have hhands := @interval_hands lower upper step hstep
  unfold staticBounds
  rw [if_neg ?_, iterations_eq hstep, ht, hm]
  · generalize tripCount lower.toInt upper.toInt step.toInt = count at *
    have hle : shareStart count m t + share count m t ≤ count := shareStart_add_share_le hlt
    have hmul : t * (count / m) ≤ shareStart count m t := Nat.le_add_right _ _
    have hshare : i128 ((count : Int).tdiv m + if (t : Int) < (count : Int).tmod m then 1 else 0) = share count m t := by
      have : (count : Int).tdiv m + (if (t : Int) < (count : Int).tmod m then 1 else 0) = (share count m t : Nat) := by
        rw [← Int.ofNat_tdiv, ← Int.ofNat_tmod, share]
        split <;> split <;> omega
      rw [this, i128_eq (by omega) (by omega)]
    have hstart : i128 (i128 ((t : Int) * (count : Int).tdiv m) + min (t : Int) ((count : Int).tmod m)) =
        shareStart count m t := by
      have hprod : i128 ((t : Int) * (count / m : Nat)) = (t * (count / m) : Nat) := by
        rw [← Nat.cast_mul, i128_eq (by omega) (by omega)]
      have hsum : ((t * (count / m) : Nat) : Int) + min (t : Int) (count % m : Nat) = (shareStart count m t : Nat) := by
        rw [shareStart]
        omega
      rw [← Int.ofNat_tdiv, ← Int.ofNat_tmod, hprod, hsum, i128_eq (by omega) (by omega)]
    dsimp only
    rw [hshare, hstart]
    split
    · next hzero =>
      have : share count m t = 0 := by omega
      rw [this]
      exact .empty
    · split
      · next hzero =>
        rw [Int.natCast_eq_zero.mp hzero]
        exact .empty
      · exact hhands (by omega) hle
  · rw [Int32.le_iff_toInt_le, Int32.lt_iff_toInt_lt, Int32.le_iff_toInt_le, ht, hm, Int32.toInt_zero]
    simp only [not_or]
    exact ⟨hstep, by omega, by omega, by omega⟩

theorem staticChunkBounds_hands {chunkSize chunkIndex : Int64} {threadNum teamSize : Int32} {c k t m : Nat}
    (hc : chunkSize.toInt = c) (hk : chunkIndex.toInt = k) (ht : threadNum.toInt = t) (hm : teamSize.toInt = m)
    (hpos : 0 < c) (hlt : t < m) : (staticChunkBounds lower upper step chunkSize threadNum teamSize chunkIndex).Hands
      (lower.toInt + ((t + k * m) * c : Nat) * step.toInt) step.toInt
        (min c (tripCount lower.toInt upper.toInt step.toInt - (t + k * m) * c)) := by
  have hcount : tripCount lower.toInt upper.toInt step.toInt ≤ 2 ^ 64 := count_le hstep
  have hhands := @interval_hands lower upper step hstep
  have hcmax := chunkSize.toInt_lt
  have hglobal : t + k * m < 2 ^ 95 := by
    have hk' := chunkIndex.toInt_lt
    have hm' := teamSize.toInt_lt
    have : k * m ≤ 2 ^ 63 * 2 ^ 31 := Nat.mul_le_mul (by omega) (by omega)
    omega
  unfold staticChunkBounds
  rw [if_neg ?_, iterations_eq hstep, ht, hm, hc, hk]
  · generalize tripCount lower.toInt upper.toInt step.toInt = count at *
    have hg : i128 ((t : Int) + i128 ((k : Int) * m)) = (t + k * m : Nat) := by
      rw [← Nat.cast_mul, i128_eq (x := (k * m : Nat)) (by omega) (by omega), ← Nat.cast_add, i128_eq (by omega) (by omega)]
    have htotal : (i128 (i128 ((count : Int) + c) - 1)).tdiv c = ((count + c - 1) / c : Nat) := by
      have hpred : (count : Int) + c - 1 = (count + c - 1 : Nat) := by omega
      rw [i128_eq (x := (count : Int) + c) (by omega) (by omega), i128_eq (by omega) (by omega), hpred, ← Int.ofNat_tdiv]
    dsimp only
    rw [hg, htotal]
    generalize t + k * m = g at *
    have hiff : (((count + c - 1) / c : Nat) : Int) ≤ g ↔ count ≤ g * c := by
      rw [Nat.cast_le, Nat.div_le_iff_le_mul_add_pred hpos, Nat.mul_comm]
      omega
    split
    · next hge =>
      rw [Nat.sub_eq_zero_of_le (hiff.mp hge), Nat.min_zero]
      exact .empty
    · next hlt' =>
      have hgc : g * c < count := Nat.not_le.mp (hlt' ∘ hiff.mpr)
      have hfirst : i128 ((g : Int) * c) = (g * c : Nat) := by
        rw [← Nat.cast_mul, i128_natCast (hgc.trans_le (hcount.trans (by decide)))]
      have hlen : min (c : Int) (i128 ((count : Int) - (g * c : Nat))) = (min c (count - g * c) : Nat) := by
        rw [← Nat.cast_sub hgc.le, i128_natCast ((Nat.sub_le _ _).trans_lt (hcount.trans_lt (by decide))), Nat.cast_min]
      rw [hfirst, hlen]
      refine hhands (lt_min hpos (Nat.sub_pos_of_lt hgc)) ?_
      exact (Nat.add_le_add_left (min_le_right _ _) _).trans (Nat.add_sub_cancel' hgc.le).le
  · rw [Int32.le_iff_toInt_le, Int32.lt_iff_toInt_lt, Int32.le_iff_toInt_le, le_iff_toInt_le, lt_iff_toInt_lt, ht,
      hm, hc, hk, Int32.toInt_zero, toInt_zero]
    simp only [not_or]
    exact ⟨hstep, by omega, by omega, by omega, by omega, by omega⟩

theorem dynamicBounds_spec {chunkSize : Int64} {c i : Nat} (hc : chunkSize.toInt = c) (hpos : 0 < c) :
    (tripCount lower.toInt upper.toInt step.toInt ≤ i →
      dynamicBounds lower upper step chunkSize { nextIndex := i } = (.empty, { nextIndex := i })) ∧
    (i < tripCount lower.toInt upper.toInt step.toInt → ∃ b,
      dynamicBounds lower upper step chunkSize { nextIndex := i } =
        (b, { nextIndex := (i + min c (tripCount lower.toInt upper.toInt step.toInt - i) : Nat) }) ∧ b ≠ .empty ∧
      b.Hands (lower.toInt + i * step.toInt) step.toInt (min c (tripCount lower.toInt upper.toInt step.toInt - i))) := by
  have hcount : tripCount lower.toInt upper.toInt step.toInt ≤ 2 ^ 64 := count_le hstep
  have hhands := @interval_hands lower upper step hstep
  have hvalid : ¬ (step = 0 ∨ chunkSize ≤ 0) := by
    rw [le_iff_toInt_le, hc, toInt_zero]
    simp only [not_or]
    exact ⟨hstep, by omega⟩
  unfold dynamicBounds
  rw [if_neg hvalid, iterations_eq hstep, hc]
  generalize tripCount lower.toInt upper.toInt step.toInt = count at *
  dsimp only
  constructor
  · intro hle
    rw [if_pos (by omega)]
  · intro hlt
    have hlen : min (c : Int) (i128 ((count : Int) - i)) = (min c (count - i) : Nat) := by
      rw [i128_eq (by omega) (by omega)]
      omega
    rw [if_neg (by omega), hlen, ← Nat.cast_add, i128_eq (by omega) (by omega)]
    exact ⟨_, rfl, by simp [localInterval], hhands (by omega) (by omega)⟩

end Schedules

end Armfortas.Runtime.Openmp
