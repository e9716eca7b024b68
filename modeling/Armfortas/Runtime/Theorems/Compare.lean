import Mathlib.Data.List.DropRight
import Armfortas.Runtime.Strings.Compare

/-! Character comparison is the order of the padded strings. -/
namespace Armfortas.Runtime.Strings
open List

variable {x y z : Nat → UInt8} {i n t la lb lc : Nat} {a b c : List UInt8}

def sign : Ordering → Int
  | .lt => -1
  | .eq => 0
  | .gt => 1

def padded (c : Nat → UInt8) (len n : Nat) : List UInt8 := (List.range' 0 len).map c ++ List.replicate (n - len) blank

/-! ## The loops -/

theorem sign_then (o o' : Ordering) : sign (o.then o') = if sign o ≠ 0 then sign o else sign o' := by
  cases o <;> simp [sign, Ordering.then]

theorem sign_swap (o : Ordering) : sign o.swap = -sign o := by cases o <;> rfl

theorem compare_append {as bs as' bs' : List UInt8} (h : as.length = bs.length) :
    compare (as ++ as') (bs ++ bs') = (compare as bs).then (compare as' bs') := by
  induction as generalizing bs with
  | nil => obtain rfl := length_eq_zero_iff.mp h.symm; simp
  | cons a as ih =>
    obtain ⟨b, bs, rfl⟩ := exists_cons_of_length_eq_add_one h.symm
    simp [List.compare_cons_cons, ih (Nat.succ_injective h), Ordering.then_assoc]

theorem memcmp_eq : normalizeOrdering (memcmp x y i n) =
    sign (compare ((List.range' i n).map x) ((List.range' i n).map y)) := by
  induction n generalizing i with
  | zero => rfl
  | succ n ih =>
    rw [memcmp, range'_succ, map_cons, map_cons, List.compare_cons_cons,
      UInt8.compare_eq_toNat_compare_toNat]
    split
    · rename_i h; simp [h, ih]
    · rename_i h
      have hne : (x i).toNat ≠ (y i).toNat := fun he => h (UInt8.toNat_inj.mp he)
      rcases Nat.lt_or_gt_of_ne hne with hlt | hgt
      · rw [Nat.compare_eq_lt.mpr hlt, normalizeOrdering, if_pos (by omega)]; rfl
      · rw [Nat.compare_eq_gt.mpr hgt, normalizeOrdering, if_neg (by omega), if_neg (by omega)]; rfl

theorem firstNonblank_eq : firstNonblank (-1) 1 x i n =
    sign (compare ((List.range' i n).map x) (List.replicate n blank)) := by
  induction n generalizing i with
  | zero => rfl
  | succ n ih =>
    rw [firstNonblank, range'_succ, map_cons, replicate_succ, List.compare_cons_cons]
    by_cases h : x i = blank
    · simp [h, ih]
    · rw [if_pos h]
      split
      · rename_i hlt; rw [Std.compare_eq_lt.mpr hlt]; rfl
      · rename_i hge
        have hgt : blank < x i := by
          have : (x i).toNat ≠ blank.toNat := fun he => h (UInt8.toNat_inj.mp he)
          rw [UInt8.lt_iff_toNat_lt] at hge ⊢; omega
        rw [Std.compare_eq_gt.mpr hgt]; rfl

theorem firstNonblank_swap : firstNonblank 1 (-1) x i n = -firstNonblank (-1) 1 x i n := by
  induction n generalizing i with
  | zero => rfl
  | succ n ih => simp only [firstNonblank, ih]; split <;> [split; skip] <;> rfl

/-! ## The comparison -/

theorem padded_eq (hla : la ≤ lb) (hlb : lb ≤ n) :
    padded x la n = (List.range' 0 la).map x ++ (List.replicate (lb - la) blank ++ List.replicate (n - lb) blank) := by
  rw [padded, ← replicate_add]; congr 2; omega

theorem padded_split (hla : la ≤ lb) :
    padded x lb n = (List.range' 0 la).map x ++ ((List.range' la (lb - la)).map x ++ List.replicate (n - lb) blank) := by
  have hrange := @List.range'_append_1 0 la (lb - la)
  rw [Nat.zero_add, Nat.add_sub_cancel' hla] at hrange
  rw [padded, ← hrange, map_append, append_assoc]

theorem afsCompareChar_eq (ha : la ≤ n) (hb : lb ≤ n) :
    afsCompareChar (some x) la (some y) lb = sign (compare (padded x la n) (padded y lb n)) := by
  have hnat : ∀ l : Nat, nonnegativeLen l = l := fun l => by unfold nonnegativeLen; split <;> omega
  have hcommon : ∀ m, (if 0 < m then compareCommonCharPrefix (some x) (some y) m else 0) =
      sign (compare ((List.range' 0 m).map x) ((List.range' 0 m).map y)) := by
    intro m
    cases m with
    | zero => rfl
    | succ m => exact memcmp_eq
  simp only [afsCompareChar, hnat, hcommon]
  rcases Nat.le_total la lb with h | h
  · rw [Nat.min_eq_left h, padded_eq h hb, padded_split h, compare_append (by simp), compare_append (by simp),
      Std.compare_self, Ordering.then_eq, sign_then, if_neg (Nat.lt_irrefl la)]
    have htail : (if la < lb then compareBlankPaddingToBytes (some y) la lb else 0) =
        sign (compare (List.replicate (lb - la) blank) ((List.range' la (lb - la)).map y)) := by
      rw [@Std.OrientedCmp.eq_swap _ compare, sign_swap, ← firstNonblank_eq, ← firstNonblank_swap]
      split
      · rfl
      · rw [Nat.sub_eq_zero_of_le (by omega)]; rfl
    simp [htail]
  · rw [Nat.min_eq_right h, padded_eq h ha, padded_split h, compare_append (by simp), compare_append (by simp),
      Std.compare_self, Ordering.then_eq, sign_then, if_neg (Nat.lt_irrefl lb)]
    have htail : (if lb < la then compareBytesToBlankPadding (some x) lb la else 0) =
        sign (compare ((List.range' lb (la - lb)).map x) (List.replicate (la - lb) blank)) := by
      rw [← firstNonblank_eq]
      split
      · rfl
      · rw [Nat.sub_eq_zero_of_le (by omega)]; rfl
    rw [htail]
    by_cases hzero : sign (compare ((List.range' lb (la - lb)).map x) (List.replicate (la - lb) blank)) = 0 <;> simp [hzero]

/-! ## Trimming -/

theorem trimWords_spec : trimWords x n ≤ n ∧ ∀ k, trimWords x n ≤ k → k < n → x k = blank := by
  fun_induction trimWords x n with
  | case1 n h heq ih =>
    refine ⟨by omega, fun k hk hn => ?_⟩
    by_cases hlt : k < n - 8
    · exact ih.2 k hk hlt
    · have hmem : x k ∈ (List.range' (n - 8) 8).map x := mem_map_of_mem (mem_range'_1.mpr (by omega))
      rw [heq] at hmem
      exact eq_of_mem_replicate hmem
  | case2 n h hne => exact ⟨le_rfl, by omega⟩
  | case3 n h => exact ⟨le_rfl, by omega⟩

theorem trimBytes_spec : trimBytes x n ≤ n ∧ ∀ k, trimBytes x n ≤ k → k < n → x k = blank := by
  fun_induction trimBytes x n with
  | case1 => exact ⟨le_rfl, by omega⟩
  | case2 n h ih => exact ⟨by omega, fun k hk hn => by by_cases hlt : k < n; exacts [ih.2 k hk hlt, (by omega : k = n) ▸ h]⟩
  | case3 n h => exact ⟨le_rfl, by omega⟩

theorem padded_trim (ht : t ≤ la) (hla : la ≤ n) (h : ∀ k, t ≤ k → k < la → x k = blank) : padded x t n = padded x la n := by
  rw [padded_eq ht hla, padded_split ht]
  congr 2
  refine (eq_replicate_iff.mpr ⟨by simp, fun c hc => ?_⟩).symm
  obtain ⟨k, hk, rfl⟩ := mem_map.mp hc
  rw [mem_range'_1] at hk
  exact h k hk.1 (by omega)

theorem padded_lenTrim (hla : la ≤ n) :
    lenTrimBytes (some x) la ≤ n ∧ padded x (lenTrimBytes (some x) la) n = padded x la n := by
  unfold lenTrimBytes
  dsimp only
  split
  · obtain rfl : la = 0 := by omega
    exact ⟨Nat.zero_le n, rfl⟩
  · rw [Int.toNat_natCast]
    obtain ⟨hle, hword⟩ := @trimWords_spec x la
    obtain ⟨hle', hbyte⟩ := @trimBytes_spec x (trimWords x la)
    exact ⟨by omega, (padded_trim hle' (hle.trans hla) hbyte).trans (padded_trim hle hla hword)⟩

/-! ## Byte strings -/

def ptr (s : List UInt8) : Nat → UInt8 := fun i => s.getD i 0

def compareChar (a b : List UInt8) : Int := afsCompareChar (some (ptr a)) a.length (some (ptr b)) b.length

theorem padded_ptr (n : Nat) : padded (ptr a) a.length n = a ++ List.replicate (n - a.length) blank := by
  rw [padded]; congr 1
  refine ext_getElem (by simp) fun i hi hi' => ?_
  simp [ptr, getElem?_eq_getElem hi']

theorem compareChar_eq (ha : a.length ≤ n) (hb : b.length ≤ n) :
    compareChar a b =
      sign (compare (a ++ List.replicate (n - a.length) blank) (b ++ List.replicate (n - b.length) blank)) := by
  rw [compareChar, afsCompareChar_eq ha hb, padded_ptr, padded_ptr]

def trimmed (s : List UInt8) : List UInt8 := s.rdropWhile (· == blank)

theorem trimmed_append_blanks (k : Nat) : trimmed (a ++ List.replicate k blank) = trimmed a := by
  induction k with
  | zero => simp
  | succ k ih => rw [replicate_succ', ← append_assoc, trimmed, rdropWhile_concat_pos _ _ _ (by simp)]; exact ih

theorem trimmed_append (s : List UInt8) : ∃ k, s = trimmed s ++ List.replicate k blank := by
  induction s using List.reverseRecOn with
  | nil => exact ⟨0, rfl⟩
  | append_singleton s c ih =>
    by_cases hc : c = blank
    · obtain ⟨k, hk⟩ := ih
      refine ⟨k + 1, ?_⟩
      rw [trimmed, rdropWhile_concat_pos _ _ _ (by simp [hc]), replicate_succ', ← append_assoc, hc]
      exact congrArg (· ++ [blank]) hk
    · exact ⟨0, by rw [trimmed, rdropWhile_concat_neg _ _ _ (by simpa using hc), replicate_zero, append_nil]⟩

theorem padded_trimmed (h : a.length ≤ n) : a ++ List.replicate (n - a.length) blank =
    trimmed a ++ List.replicate (n - (trimmed a).length) blank := by
  obtain ⟨k, hk⟩ := trimmed_append a
  have hlen := congrArg List.length hk
  rw [length_append, length_replicate] at hlen
  nth_rewrite 1 [hk]
  rw [append_assoc, ← replicate_add]; congr 2; omega

theorem sign_eq_zero {o : Ordering} : sign o = 0 ↔ o = .eq := by cases o <;> simp [sign]

theorem sign_le_zero {o : Ordering} : sign o ≤ 0 ↔ o.isLE := by cases o <;> simp [sign]

theorem compareChar_eq_zero : compareChar a b = 0 ↔ trimmed a = trimmed b := by
  rw [compareChar_eq (Nat.le_max_left a.length b.length) (Nat.le_max_right a.length b.length), sign_eq_zero,
    Std.compare_eq_iff_eq]
  constructor
  · intro h
    rw [← trimmed_append_blanks, h, trimmed_append_blanks]
  · intro h
    rw [padded_trimmed (Nat.le_max_left ..), padded_trimmed (Nat.le_max_right ..), h]

/-- The sign of the padded comparison, a total preorder that trimming does not touch. -/
theorem compareChar_order :
    (∀ a b, compareChar a b = sign (compare (a ++ List.replicate (max a.length b.length - a.length) blank)
      (b ++ List.replicate (max a.length b.length - b.length) blank))) ∧
    (∀ a, compareChar a a = 0) ∧ (∀ a b, compareChar b a = -compareChar a b) ∧
    (∀ a b c, compareChar a b ≤ 0 → compareChar b c ≤ 0 → compareChar a c ≤ 0) ∧
    (∀ a b, compareChar a b = 0 ↔ trimmed a = trimmed b) ∧
    ∀ a b, afsCompareChar (some (ptr a)) (afsLenTrim (some (ptr a)) a.length) (some (ptr b))
      (afsLenTrim (some (ptr b)) b.length) = compareChar a b := by
  refine ⟨fun a b => compareChar_eq (Nat.le_max_left ..) (Nat.le_max_right ..), fun a => ?_, fun a b => ?_, fun a b c => ?_,
    fun a b => compareChar_eq_zero, fun a b => ?_⟩
  · rw [compareChar_eq_zero]
  · rw [compareChar_eq (Nat.le_max_right ..) (Nat.le_max_left a.length b.length),
      compareChar_eq (Nat.le_max_left ..) (Nat.le_max_right ..), @Std.OrientedCmp.eq_swap _ compare, sign_swap]
  · obtain ⟨n, ha, hb, hc⟩ : ∃ n, a.length ≤ n ∧ b.length ≤ n ∧ c.length ≤ n := ⟨a.length + b.length + c.length, by omega⟩
    rw [compareChar_eq ha hb, compareChar_eq hb hc, compareChar_eq ha hc]
    simp only [sign_le_zero]
    exact Std.TransCmp.isLE_trans
  · have ha := padded_lenTrim (x := ptr a) (Nat.le_max_left a.length b.length)
    have hb := padded_lenTrim (x := ptr b) (Nat.le_max_right a.length b.length)
    rw [compareChar, afsCompareChar_eq (Nat.le_max_left ..) (Nat.le_max_right ..), ← ha.2, ← hb.2]
    exact afsCompareChar_eq ha.1 hb.1

end Armfortas.Runtime.Strings
