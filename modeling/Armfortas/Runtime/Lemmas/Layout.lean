import Armfortas.Runtime.Arrays.Layout
import Armfortas.Runtime.Lemmas.Assign

/-! Layouts, spans and sections of arrays. -/
namespace Armfortas.Runtime.Arrays
open Lib ArrayDescriptor List DimDescriptor

variable {subs : List Int} {x : Int} {specs : List SectionSpec} {dim : DimDescriptor} {dims : List DimDescriptor}

/-! ## Subscripts -/

theorem DimDescriptor.toNat_extent (dim : DimDescriptor) :
    dim.extent.toNat = (dim.upperBound - dim.lowerBound + 1).toNat := by
  unfold extent
  split <;> omega

def subscriptsOf (dims : List DimDescriptor) (is : List Nat) : List Int :=
  List.zipWith (fun dim i => dim.lowerBound + (i : Int)) dims is

abbrev extentsOf (dims : List DimDescriptor) : List Nat := dims.map fun dim => dim.extent.toNat

theorem subscriptOffset_subscriptsOf (is : List Nat) :
    subscriptOffset dims (subscriptsOf dims is) = offset (dims.map stride) is := by
  induction dims generalizing is with
  | nil => cases is <;> rfl
  | cons dim dims ih =>
    cases is with
    | nil => rfl
    | cons i is => exact congrArg₂ (· + ·) (by rw [add_sub_cancel_left]) (ih is)

theorem inBounds_subscriptsOf {is : List Nat} (h : List.Forall₂ (· < ·) is (extentsOf dims)) :
    InBounds dims (subscriptsOf dims is) := by
  induction dims generalizing is with
  | nil => cases h; exact .nil
  | cons dim dims ih =>
    obtain _ | ⟨hi, his⟩ := h
    refine .cons ?_ (ih his)
    have hext : dim.extent.toNat = (dim.upperBound - dim.lowerBound + 1).toNat := dim.toNat_extent
    dsimp only at hi ⊢
    omega

theorem exists_indices (h : InBounds dims subs) :
    ∃ is, List.Forall₂ (· < ·) is (extentsOf dims) ∧ subs = subscriptsOf dims is := by
  induction h with
  | nil => exact ⟨[], .nil, rfl⟩
  | @cons dim s dims ss hs _ ih =>
    obtain ⟨is, his, rfl⟩ := ih
    have hext : dim.extent.toNat = (dim.upperBound - dim.lowerBound + 1).toNat := dim.toNat_extent
    refine ⟨(s - dim.lowerBound).toNat :: is, .cons ?_ his, congrArg (· :: _) ?_⟩ <;> dsimp only <;> omega

theorem subscriptsOf_injective {is js : List Nat} (his : is.length = dims.length) (hjs : js.length = dims.length)
    (h : subscriptsOf dims is = subscriptsOf dims js) : is = js := by
  induction dims generalizing is js with
  | nil => rw [length_eq_zero_iff.mp his, length_eq_zero_iff.mp hjs]
  | cons dim dims ih =>
    obtain _ | ⟨i, is⟩ := is
    · cases his
    obtain _ | ⟨j, js⟩ := js
    · cases hjs
    obtain ⟨hhead, htail⟩ := cons.inj h
    rw [ih (Nat.succ.inj his) (Nat.succ.inj hjs) htail, Int.ofNat.inj (add_left_cancel hhead)]

theorem inBounds_iff :
    InBounds dims subs ↔ ∃ k < (extentsOf dims).prod, subs = subscriptsOf dims (digits (extentsOf dims) k) := by
  constructor
  · intro h
    obtain ⟨is, his, rfl⟩ := exists_indices h
    obtain ⟨k, hk, rfl⟩ := exists_digits his
    exact ⟨k, hk, rfl⟩
  · rintro ⟨k, hk, rfl⟩
    exact inBounds_subscriptsOf (digits_lt (Nat.zero_lt_of_lt hk) k)

theorem cast_prod_extentsOf (dims : List DimDescriptor) : ((extentsOf dims).prod : Int) = (dims.map extent).prod := by
  induction dims with
  | nil => rfl
  | cons dim dims ih =>
    rw [extentsOf, map_cons, prod_cons, Nat.cast_mul, ih, Int.toNat_of_nonneg dim.extent_nonneg,
      map_cons, prod_cons]

/-! ## Layouts -/

theorem checkedI64_eq_some {y : Int} (h : 0 ≤ x) : checkedI64 x = some y ↔ x ≤ i64Max ∧ x = y := by
  rw [checkedI64, i64Min, Option.ite_none_right_eq_some, Option.some.injEq]
  exact and_congr_left' ⟨And.right, fun hx => ⟨by omega, hx⟩⟩

theorem okOr_bind_eq_ok {α β : Type} {x : Option α} {m : String} {f : α → Except String β} {b : β} :
    (okOr x m >>= f) = .ok b ↔ ∃ a, x = some a ∧ f a = .ok b := by
  cases x with
  | none => exact ⟨nofun, nofun⟩
  | some a => exact ⟨fun h => ⟨a, rfl, h⟩, fun ⟨_, rfl, h⟩ => h⟩

theorem checkedDimExtent_eq_some {e : Int} : checkedDimExtent dim = some e ↔ dim.extent ≤ i64Max ∧ dim.extent = e := by
  rw [checkedDimExtent, extent]
  split
  · rw [Option.some.injEq, i64Max]
    omega
  · simp only [Option.bind_eq_some_iff, checkedI64_eq_some (x := dim.upperBound - dim.lowerBound) (by omega)]
    constructor
    · rintro ⟨n, ⟨-, rfl⟩, he⟩
      exact (checkedI64_eq_some (by omega)).mp he
    · rintro ⟨hfit, he⟩
      exact ⟨_, ⟨by omega, rfl⟩, (checkedI64_eq_some (by omega)).mpr ⟨hfit, he⟩⟩

/-- The product of the extents, empty ones counted as one: where the running stride ends. -/
def strideEnd (dims : List DimDescriptor) : Int := (dims.map fun dim => max dim.extent 1).prod

def columnMajor (c : Int) : List DimDescriptor → List DimDescriptor
  | [] => []
  | dim :: dims => { dim with stride := c } :: columnMajor (c * max dim.extent 1) dims

theorem strideEnd_cons : strideEnd (dim :: dims) = max dim.extent 1 * strideEnd dims := prod_cons

theorem one_le_strideEnd (dims : List DimDescriptor) : 1 ≤ strideEnd dims := by
  induction dims with
  | nil => exact le_rfl
  | cons dim dims ih =>
    exact one_le_mul_of_one_le_of_one_le (le_max_right _ _) ih

theorem layoutDims_iff {total c : Int} (htotal : 0 ≤ total) (hle : total ≤ c) (hone : 1 ≤ c) (hfit : c ≤ i64Max)
    {out : List DimDescriptor × Int} : layoutDims dims total c = .ok out ↔
      (∀ dim ∈ dims, dim.extent ≤ i64Max) ∧ c * strideEnd dims ≤ i64Max ∧
        (columnMajor c dims, total * (dims.map extent).prod) = out := by
  induction dims generalizing total c out with
  | nil =>
    simp only [layoutDims, strideEnd, columnMajor, map_nil, prod_nil, mul_one, not_mem_nil,
      false_imp_iff, implies_true, true_and, hfit, Except.ok.injEq]
  | cons dim dims ih =>
    have hext := dim.extent_nonneg
    have hone' : 1 ≤ c * max dim.extent 1 := one_le_mul_of_one_le_of_one_le hone (le_max_right _ _)
    have hmul : total * dim.extent ≤ c * max dim.extent 1 := mul_le_mul hle (le_max_left _ _) hext (by omega)
    have hnonneg : 0 ≤ total * dim.extent := mul_nonneg htotal hext
    have hend : c * strideEnd (dim :: dims) = c * max dim.extent 1 * strideEnd dims := by
      rw [strideEnd_cons, mul_assoc]
    have hgrow : c * max dim.extent 1 ≤ c * strideEnd (dim :: dims) := by
      rw [hend]
      exact le_mul_of_one_le_right (by omega) (one_le_strideEnd dims)
    simp only [layoutDims, okOr_bind_eq_ok, checkedDimExtent_eq_some, forall_mem_cons]
    constructor
    · rintro ⟨_, ⟨hdim, rfl⟩, _, hcount, _, hstride, h⟩
      obtain ⟨-, rfl⟩ := (checkedI64_eq_some hnonneg).mp hcount
      obtain ⟨hnext, rfl⟩ := (checkedI64_eq_some (by omega)).mp hstride
      cases hrest : layoutDims dims (total * dim.extent) (c * max dim.extent 1) with
      | error m => rw [hrest] at h; cases h
      | ok rest =>
        obtain ⟨hall, hbound, rfl⟩ := (ih hnonneg hmul hone' hnext).mp hrest
        rw [hrest] at h
        cases h
        exact ⟨⟨hdim, hall⟩, hend ▸ hbound, by rw [map_cons, prod_cons, mul_assoc]; rfl⟩
    · rintro ⟨⟨hdim, hall⟩, hbound, rfl⟩
      have hnext := hgrow.trans hbound
      refine ⟨_, ⟨hdim, rfl⟩, _, (checkedI64_eq_some hnonneg).mpr ⟨hmul.trans hnext, rfl⟩, _,
        (checkedI64_eq_some (by omega)).mpr ⟨hnext, rfl⟩, ?_⟩
      rw [(ih hnonneg hmul hone' hnext).mpr ⟨hall, hend ▸ hbound, rfl⟩, map_cons, prod_cons,
        ← mul_assoc]
      rfl

theorem columnMajor_strides {c : Nat} (h : 0 < (extentsOf dims).prod) :
    (columnMajor c dims).map stride = denseStrides c (extentsOf dims) := by
  induction dims generalizing c with
  | nil => rfl
  | cons dim dims ih =>
    obtain ⟨hdim, hdims⟩ := pos_of_prod_pos h
    have he : (c : Int) * max dim.extent 1 = (c * dim.extent.toNat : Nat) := by
      rw [Nat.cast_mul, Int.toNat_of_nonneg dim.extent_nonneg, max_eq_left (Int.lt_toNat.mp hdim)]
    rw [columnMajor, map_cons, he, ih hdims]
    rfl

theorem subscriptsOf_columnMajor (c : Int) (is : List Nat) :
    subscriptsOf (columnMajor c dims) is = subscriptsOf dims is := by
  induction dims generalizing c is with
  | nil => rfl
  | cons dim dims ih =>
    cases is with
    | nil => rfl
    | cons i is => exact congrArg (_ :: ·) (ih _ is)

theorem columnMajor_position {k : Nat} (hk : k < (extentsOf dims).prod) :
    subscriptOffset (columnMajor 1 dims) (subscriptsOf dims (digits (extentsOf dims) k)) = k := by
  rw [← subscriptsOf_columnMajor 1, subscriptOffset_subscriptsOf, ← Nat.cast_one,
    columnMajor_strides (Nat.zero_lt_of_lt hk), offset_dense 1 hk, Nat.cast_one, one_mul]

theorem columnMajor_bijOn : Set.BijOn (subscriptOffset (columnMajor 1 dims)) {subs | InBounds dims subs}
      {k | 0 ≤ k ∧ k < (dims.map extent).prod} := by
  rw [← cast_prod_extentsOf]
  refine ⟨fun subs h => ?_, fun subs h subs' h' he => ?_, fun a ha => ?_⟩
  · obtain ⟨k, hk, rfl⟩ := inBounds_iff.mp h
    rw [columnMajor_position hk]
    exact ⟨Int.natCast_nonneg k, Int.ofNat_lt.mpr hk⟩
  · obtain ⟨k, hk, rfl⟩ := inBounds_iff.mp h
    obtain ⟨k', hk', rfl⟩ := inBounds_iff.mp h'
    rw [columnMajor_position hk, columnMajor_position hk'] at he
    rw [Int.ofNat.inj he]
  · obtain ⟨k, rfl⟩ := Int.eq_ofNat_of_zero_le ha.1
    have hk : k < (extentsOf dims).prod := Int.ofNat_lt.mp ha.2
    exact ⟨_, inBounds_iff.mpr ⟨k, hk, rfl⟩, columnMajor_position hk⟩

/-! ## Spans -/

theorem index_mul_bounds {i n s : Int} (h0 : 0 ≤ i) (hn : i ≤ n) :
    (0 ≤ n * s → 0 ≤ i * s ∧ i * s ≤ n * s) ∧ (n * s < 0 → n * s ≤ i * s ∧ i * s ≤ 0) := by
  rcases le_total 0 s with hs | hs
  · have hle := mul_le_mul_of_nonneg_right hn hs
    have := mul_nonneg h0 hs
    omega
  · have hle := mul_le_mul_of_nonpos_right hn hs
    have := mul_nonpos_of_nonneg_of_nonpos h0 hs
    omega

/-- An end of a span is exact on its side, or saturated; `x` is an offset found so far. -/
structure OffsetEnds (least greatest x : Int) : Prop where
  least_nonpos : least ≤ 0
  greatest_nonneg : 0 ≤ greatest
  below : least ≤ x ∨ least = i128Min
  above : x ≤ greatest ∨ greatest = i128Max

theorem OffsetEnds.step {least greatest i : Int} (h : OffsetEnds least greatest x) (dim : DimDescriptor)
    (h0 : 0 ≤ i) (hi : i ≤ dim.extent - 1) :
    let last := saturateI128 ((dim.extent - 1) * dim.stride)
    (last < 0 → OffsetEnds (saturateI128 (least + last)) greatest (x + i * dim.stride)) ∧
      (¬last < 0 → OffsetEnds least (saturateI128 (greatest + last)) (x + i * dim.stride)) := by
  obtain ⟨hleast, hgreatest, hbelow, habove⟩ := h
  have hbounds := index_mul_bounds (s := dim.stride) h0 hi
  simp only [saturateI128]
  refine ⟨fun hlast => ⟨?_, ?_, ?_, ?_⟩, fun hlast => ⟨?_, ?_, ?_, ?_⟩⟩ <;> simp only [i128Min, i128Max] at * <;> omega

theorem offsetRange_spec (hin : InBounds dims subs) {least greatest : Int}
    (h : OffsetEnds least greatest x) : ∃ low high, offsetRange dims least greatest = some (low, high) ∧
      OffsetEnds low high (x + subscriptOffset dims subs) := by
  induction hin generalizing least greatest x with
  | nil => exact ⟨_, _, rfl, (add_zero x).symm ▸ h⟩
  | @cons dim s dims ss hs _ ih =>
    have hext : dim.extent = dim.upperBound - dim.lowerBound + 1 := if_neg (by omega)
    obtain ⟨hneg, hpos⟩ := h.step (i := s - dim.lowerBound) dim (by omega) (by omega)
    rw [offsetRange, if_neg (by omega), subscriptOffset, ← add_assoc]
    dsimp only
    split
    · exact ih (hneg ‹_›)
    · exact ih (hpos ‹_›)

theorem descriptorByteSpan_spec {d : ArrayDescriptor} (hd : d.Addressable) {a : Int} (h0 : 0 ≤ a) (ha : a < 2 ^ 64)
    (h : d.HoldsByte a) : ∃ low high, descriptorByteSpan d = some (low, high) ∧ low ≤ a ∧ a < high := by
  obtain ⟨hbase, hlimit, hrank, -⟩ := hd
  obtain ⟨subs, hin, hlow, hhigh⟩ := h
  obtain ⟨least, greatest, hrange, hends⟩ :=
    offsetRange_spec hin (x := 0) ⟨le_rfl, le_rfl, .inl le_rfl, .inl le_rfl⟩
  obtain ⟨hleast, hgreatest, hbelow, habove⟩ := hends
  rw [subscriptAddr] at hlow hhigh
  rw [zero_add] at hbelow habove
  have hsize : 0 < d.elemSize := by omega
  have hleast' : least * d.elemSize ≤ subscriptOffset d.dims subs * d.elemSize ∨ least * d.elemSize ≤ i128Min := by
    refine hbelow.imp (mul_le_mul_of_nonneg_right · hsize.le) fun he => ?_
    rw [he, i128Min]
    omega
  have hgreatest' : subscriptOffset d.dims subs * d.elemSize ≤ greatest * d.elemSize ∨
      i128Max ≤ greatest * d.elemSize := by
    refine habove.imp (mul_le_mul_of_nonneg_right · hsize.le) fun he => ?_
    rw [he, i128Max]
    omega
  have hnonpos := mul_nonpos_of_nonpos_of_nonneg hleast hsize.le
  have hnonneg := mul_nonneg hgreatest hsize.le
  refine ⟨_, _, by rw [descriptorByteSpan, if_neg (by omega), hrange]; rfl, ?_, ?_⟩ <;>
    · generalize least * d.elemSize = l at *
      simp only [saturateI128, i128Min, i128Max] at *
      omega

/-! ## Sections -/

theorem max_add_tdiv_self {s : Int} (hs : 0 < s) :
    max 0 ((x + s).tdiv s) = if x < 0 then 0 else x.tdiv s + 1 := by
  split
  · rcases lt_or_ge (x + s) 0 with hneg | hnonneg
    · rw [← neg_neg (x + s), Int.neg_tdiv]
      exact max_eq_left (neg_nonpos_of_nonneg (Int.tdiv_nonneg (by omega) hs.le))
    · rw [Int.tdiv_eq_zero_of_lt hnonneg (by omega), max_self]
  · have hdiv := Int.add_mul_ediv_right x 1 hs.ne'
    rw [one_mul] at hdiv
    rw [Int.tdiv_eq_ediv_of_nonneg (by omega), Int.tdiv_eq_ediv_of_nonneg (by omega), hdiv, max_eq_right]
    exact add_nonneg (Int.ediv_nonneg (by omega) hs.le) one_pos.le

theorem SectionSpec.extent_eq {spec : SectionSpec} (h : spec.stride ≠ 0) :
    spec.extent = max 0 ((spec.stop - spec.start + spec.stride).tdiv spec.stride) := by
  rcases lt_or_gt_of_ne h with hneg | hpos
  · rw [← Int.neg_tdiv_neg (_ + _), neg_add, max_add_tdiv_self (by omega), Int.neg_tdiv_neg]
    exact if_congr (by omega) rfl rfl
  · rw [max_add_tdiv_self hpos]
    exact if_congr (by omega) rfl rfl

theorem subscriptOffset_selected (elemSize : Int) {js : List Int}
    (hlen : specs.length = dims.length) (hjs : js.length = (sectionDims elemSize dims specs).2.length) :
    subscriptOffset dims (selected specs js) * elemSize =
      (sectionDims elemSize dims specs).1 + subscriptOffset (sectionDims elemSize dims specs).2 js * elemSize := by
  induction dims generalizing specs js with
  | nil =>
    cases js <;> simp [sectionDims, subscriptOffset]
  | cons dim dims ih =>
    obtain _ | ⟨spec, specs⟩ := specs
    · cases hlen
    · have hlen' : specs.length = dims.length := Nat.succ.inj hlen
      rw [sectionDims] at hjs ⊢
      dsimp only at hjs ⊢
      unfold selected
      by_cases hzero : spec.stride = 0
      · rw [if_pos hzero] at hjs ⊢
        rw [if_pos hzero, subscriptOffset, add_mul, ih hlen' hjs]
        ring
      · rw [if_neg hzero] at hjs ⊢
        rw [if_neg hzero]
        obtain _ | ⟨j, js⟩ := js
        · cases hjs
        · rw [subscriptOffset, add_mul, ih hlen' (Nat.succ.inj hjs), subscriptOffset]
          ring

theorem selected_injective {elemSize : Int} {js js' : List Int}
    (hlen : specs.length = dims.length) (hjs : js.length = (sectionDims elemSize dims specs).2.length)
    (hjs' : js'.length = (sectionDims elemSize dims specs).2.length) (h : selected specs js = selected specs js') :
    js = js' := by
  induction dims generalizing specs js js' with
  | nil => rw [length_eq_zero_iff.mp hjs, length_eq_zero_iff.mp hjs']
  | cons dim dims ih =>
    obtain _ | ⟨spec, specs⟩ := specs
    · cases hlen
    · rw [sectionDims] at hjs hjs'
      dsimp only at hjs hjs'
      unfold selected at h
      by_cases hzero : spec.stride = 0
      · rw [if_pos hzero] at hjs hjs' h
        rw [if_pos hzero] at h
        exact ih (Nat.succ.inj hlen) hjs hjs' (cons.inj h).2
      · rw [if_neg hzero] at hjs hjs' h
        rw [if_neg hzero] at h
        obtain _ | ⟨j, js⟩ := js
        · cases hjs
        obtain _ | ⟨j', js'⟩ := js'
        · cases hjs'
        obtain ⟨hhead, htail⟩ := cons.inj h
        have hj : j - 1 = j' - 1 := mul_right_cancel₀ hzero (add_left_cancel hhead)
        rw [ih (Nat.succ.inj hlen) (Nat.succ.inj hjs) (Nat.succ.inj hjs') htail, sub_left_inj.mp hj]

theorem composed_extent {outer inner : SectionSpec} (h : outer.stride ≠ 0) :
    SectionSpec.extent ⟨outer.start + (inner.start - 1) * outer.stride, outer.start + (inner.stop - 1) * outer.stride,
      outer.stride * inner.stride⟩ = inner.extent := by
  have hdiff : outer.start + (inner.stop - 1) * outer.stride - (outer.start + (inner.start - 1) * outer.stride) =
      outer.stride * (inner.stop - inner.start) := by ring
  simp only [SectionSpec.extent, hdiff, add_lt_add_iff_left]
  rcases lt_or_gt_of_ne h with hneg | hpos
  · rw [← Int.neg_tdiv_neg, ← neg_mul, ← neg_mul, Int.mul_tdiv_mul_of_pos _ _ (by omega)]
    simp only [mul_lt_mul_right_of_neg hneg, sub_lt_sub_iff_right, mul_pos_iff, mul_neg_iff, hneg, hneg.not_gt,
      true_and, false_and, false_or]
    exact if_congr or_comm rfl rfl
  · rw [Int.mul_tdiv_mul_of_pos _ _ hpos]
    simp only [mul_lt_mul_iff_of_pos_right hpos, sub_lt_sub_iff_right, mul_pos_iff, mul_neg_iff, hpos, hpos.not_gt,
      true_and, false_and, or_false]

theorem sectionDims_composed (elemSize : Int) {inners : List SectionSpec} (hlen : specs.length = dims.length)
    (hinners : inners.length = (sectionDims elemSize dims specs).2.length) :
    sectionDims elemSize dims (composed specs inners) =
      ((sectionDims elemSize dims specs).1 + (sectionDims elemSize (sectionDims elemSize dims specs).2 inners).1,
        (sectionDims elemSize (sectionDims elemSize dims specs).2 inners).2) := by
  induction dims generalizing specs inners with
  | nil =>
    rfl
  | cons dim dims ih =>
    obtain _ | ⟨outer, specs⟩ := specs
    · cases hlen
    · rw [sectionDims] at hinners ⊢
      dsimp only at hinners ⊢
      unfold composed
      by_cases hzero : outer.stride = 0
      · rw [if_pos hzero] at hinners ⊢
        rw [if_pos hzero, sectionDims, ih (Nat.succ.inj hlen) hinners]
        dsimp only
        rw [if_pos hzero, add_assoc]
      · rw [if_neg hzero] at hinners ⊢
        rw [if_neg hzero]
        obtain _ | ⟨inner, inners⟩ := inners
        · cases hinners
        · rw [sectionDims, ih (Nat.succ.inj hlen) (Nat.succ.inj hinners), sectionDims, composed_extent hzero]
          simp only [mul_eq_zero, hzero, false_or, mul_assoc]
          congr 1
          ring

end Armfortas.Runtime.Arrays
