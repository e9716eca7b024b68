import Armfortas.Runtime.Arrays.Assign

/-! Descriptors, strides and the copy of a payload. -/
namespace Armfortas.Runtime.Arrays
open Lib ArrayDescriptor List DimDescriptor BlockHeap

variable {d : ArrayDescriptor} {n : Nat}

/-! ## Extents and sizes -/

theorem DimDescriptor.extent_nonneg (d : DimDescriptor) : 0 ≤ d.extent := by
  unfold extent
  split <;> omega

theorem foldl_extent (ds : List DimDescriptor) (c : Int) :
    ds.foldl (fun total dim => total * dim.extent) c = c * (ds.map fun dim => dim.extent.toNat).prod := by
  induction ds generalizing c with
  | nil => simp
  | cons d ds ih =>
    have hd : (d.extent.toNat : Int) = d.extent := Int.toNat_of_nonneg d.extent_nonneg
    rw [foldl_cons, ih, map_cons, prod_cons, Nat.cast_mul, hd, mul_assoc]

theorem totalElements_eq (d : ArrayDescriptor) : d.totalElements = d.extents.prod := by
  rw [totalElements, foldl_extent, one_mul]
  rfl

theorem totalBytes_eq (hn : d.elemSize = n) :
    d.totalBytes = (d.extents.prod * n : Nat) := by
  rw [totalBytes, totalElements_eq, hn, Nat.cast_mul]

theorem extents_eq_of_shape {e : ArrayDescriptor}
    (h : d.dims.map extent = e.dims.map extent) : d.extents = e.extents := by
  have hmap := congrArg (List.map Int.toNat) h
  rw [map_map, map_map] at hmap
  exact hmap

theorem totalBytes_nonneg (h : 0 ≤ d.elemSize) : 0 ≤ d.totalBytes := by
  obtain ⟨n, hn⟩ := Int.eq_ofNat_of_zero_le h
  rw [totalBytes_eq hn]
  exact Int.natCast_nonneg _

/-! ## Canonical strides -/

theorem saturatingMul_extent {c p} {d : DimDescriptor} (hpos : 0 < d.extent.toNat * p)
    (hle : ((c * (d.extent.toNat * p) : Nat) : Int) ≤ i64Max) :
    saturatingMul c (max d.extent 1) = ((c * d.extent.toNat : Nat) : Int) := by
  have he : 0 < d.extent.toNat := Nat.pos_of_mul_pos_right hpos
  have hp : 0 < p := Nat.pos_of_mul_pos_left hpos
  have hd : (d.extent.toNat : Int) = d.extent := Int.toNat_of_nonneg d.extent_nonneg
  have hmul : c * d.extent.toNat ≤ c * (d.extent.toNat * p) := by
    rw [← Nat.mul_assoc]
    exact Nat.le_mul_of_pos_right _ hp
  have hcast : (c : Int) * d.extent = (c * d.extent.toNat : Nat) := by rw [Nat.cast_mul, hd]
  rw [saturatingMul, max_eq_left (by omega), hcast, min_eq_left]
  exact le_trans (Int.ofNat_le.mpr hmul) hle

theorem canonicalStrides_eq (ds : List DimDescriptor) (c)
    (hpos : 0 < (ds.map fun dim => dim.extent.toNat).prod)
    (hle : ((c * (ds.map fun dim => dim.extent.toNat).prod : Nat) : Int) ≤ i64Max) :
    canonicalStrides c (ds.map extent) = denseStrides c (ds.map fun dim => dim.extent.toNat) := by
  induction ds generalizing c with
  | nil => rfl
  | cons d ds ih =>
    rw [map_cons, map_cons, canonicalStrides, denseStrides, saturatingMul_extent hpos hle,
      ih _ (Nat.pos_of_mul_pos_left hpos) (by rwa [Nat.mul_assoc])]

theorem canonicalDims_extent (ds c) :
    (canonicalDims c ds).map extent = ds.map extent := by
  induction ds generalizing c with
  | nil => rfl
  | cons d ds ih =>
    rw [canonicalDims, map_cons, map_cons, ih]
    rfl

theorem canonicalDims_stride (ds c) :
    (canonicalDims c ds).map stride = canonicalStrides c (ds.map extent) := by
  induction ds generalizing c with
  | nil => rfl
  | cons d ds ih => rw [canonicalDims, map_cons, map_cons, canonicalStrides, ih]

theorem not_strided (ds : List DimDescriptor) (c : Nat) (h : strided c ds = false)
    (hpos : 0 < (ds.map fun dim => dim.extent.toNat).prod)
    (hle : ((c * (ds.map fun dim => dim.extent.toNat).prod : Nat) : Int) ≤ i64Max) :
    (∀ s ∈ ds.map stride, 0 ≤ s) ∧
      List.Forall₂ (· ≤ ·) (ds.map stride) (denseStrides c (ds.map fun dim => dim.extent.toNat)) := by
  induction ds generalizing c with
  | nil => exact ⟨fun s hs => absurd hs not_mem_nil, .nil⟩
  | cons d ds ih =>
    rw [strided] at h
    split at h
    · cases h
    · rename_i hd
      rw [saturatingMul_extent hpos hle] at h
      obtain ⟨hnonneg, hforall⟩ := ih _ h (Nat.pos_of_mul_pos_left hpos) (by rwa [Nat.mul_assoc])
      exact ⟨forall_mem_cons.mpr ⟨by omega, hnonneg⟩, .cons (by omega) hforall⟩

/-! ## Element addresses -/

section Elements

variable {heap : BlockHeap}

theorem pos_of_totalBytes (hn : d.elemSize = n) (h : 0 < d.totalBytes) : 0 < d.extents.prod ∧ 0 < n := by
  rw [totalBytes_eq hn] at h
  have hpos : 0 < d.extents.prod * n := Int.natCast_pos.mp h
  exact ⟨Nat.pos_of_mul_pos_right hpos, Nat.pos_of_mul_pos_left hpos⟩

theorem count_le (hn : d.elemSize = n) (h : 0 < d.totalBytes) (hle : d.totalBytes ≤ i64Max) :
    ((1 * d.extents.prod : Nat) : Int) ≤ i64Max := by
  obtain ⟨-, hpos⟩ := pos_of_totalBytes hn h
  rw [totalBytes_eq hn] at hle
  rw [Nat.one_mul]
  exact le_trans (Int.ofNat_le.mpr (Nat.le_mul_of_pos_right _ hpos)) hle

theorem elementAddr_canonical (hn : d.elemSize = n) (h : 0 < d.totalBytes) (hle : d.totalBytes ≤ i64Max)
    (hcanon : d.Canonical) {k} (hk : k < d.extents.prod) : d.elementAddr k = d.baseAddr + (k * n : Nat) := by
  obtain ⟨hpos, -⟩ := pos_of_totalBytes hn h
  have hdense : d.strides = denseStrides 1 d.extents :=
    hcanon.trans (canonicalStrides_eq d.dims 1 hpos (count_le hn h hle))
  rw [elementAddr, hdense, offset_dense 1 hk, hn]
  push_cast
  ring

/-- Where the walk is not taken the elements follow one another, by counting: the strides are injective and nowhere
larger than the dense ones. -/
theorem elementAddr_not_strided (hn : d.elemSize = n) (h : 0 < d.totalBytes) (hp : d.Present heap)
    (hs : strided 1 d.dims = false) {k} (hk : k < d.extents.prod) :
    d.elementAddr k = d.baseAddr + (k * n : Nat) := by
  obtain ⟨hpos, -⟩ := pos_of_totalBytes hn h
  obtain ⟨hnonneg, hforall⟩ := not_strided d.dims 1 hs hpos (count_le hn h hp.bounded.bytes)
  have hoff : offset d.strides (digits d.extents k) = k := offset_eq_of_le_dense hnonneg hforall hp.distinct hk
  rw [elementAddr, hoff, hn, Nat.cast_mul]

theorem elementAddr_zero : d.elementAddr 0 = d.baseAddr := by
  rw [elementAddr, digits_zero, offset_zero, zero_mul, add_zero]

theorem base_holds (hn : d.elemSize = n) (h : 0 < d.totalBytes) {b : HeapBlock}
    (hb : ∀ k < d.extents.prod, ∀ i : Nat, i < d.elemSize.toNat → b.Holds (d.elementAddr k + i)) :
    b.Holds d.baseAddr := by
  obtain ⟨hpos, hn0⟩ := pos_of_totalBytes hn h
  have := hb 0 hpos 0 (by omega)
  rwa [elementAddr_zero, Nat.cast_zero, add_zero] at this

end Elements

/-! ## The copy -/

theorem split_lt {i m : Nat} (h : i < m * n) : i / n < m ∧ i % n < n ∧ i / n * n + i % n = i := by
  have hn : 0 < n := Nat.pos_of_ne_zero fun h0 => by simp [h0] at h
  exact ⟨Nat.div_lt_of_lt_mul (by rwa [Nat.mul_comm]), Nat.mod_lt _ hn, Nat.div_add_mod' i n⟩

theorem join_lt {k i m : Nat} (hk : k < m) (hi : i < n) : k * n + i < m * n :=
  calc k * n + i < k * n + n := Nat.add_lt_add_left hi _
    _ = (k + 1) * n := (Nat.succ_mul k n).symm
    _ ≤ m * n := Nat.mul_le_mul_right n hk

/-- The first `k` elements have arrived at `t`, and nothing outside of the target has changed. -/
structure Arrived (source : ArrayDescriptor) (before : BlockHeap) (t : Int) (c : HeapBlock) (n k : Nat)
    (now : BlockHeap) : Prop where
  blocks : now.blocks = before.blocks
  kept : ∀ a, ¬c.Holds a → now.bytes a = before.bytes a
  filled : ∀ j < k, ∀ i : Nat, i < n → now.bytes (t + (j * n : Nat) + i) = before.bytes (source.elementAddr j + i)

section Copy

variable {source : ArrayDescriptor} {before : BlockHeap} {b c : HeapBlock}

theorem Arrived.next {t : Int} {k : Nat} {now : BlockHeap} (h : Arrived source before t c n k now)
    (happ : b.Apart c) (hb : ∀ i : Nat, i < n → b.Holds (source.elementAddr k + i))
    (hc : ∀ i : Nat, i < n → c.Holds (t + (k * n : Nat) + i)) :
    Arrived source before t c n (k + 1)
      { now with bytes := moved now.bytes (source.elementAddr k) (t + (k * n : Nat)) n } where
  blocks := h.blocks
  kept a ha := by
    refine (moved_outside ?_).trans (h.kept a ha)
    rintro ⟨hlow, hhigh⟩
    have := hc (a - (t + (k * n : Nat))).toNat (by omega)
    exact ha (by rwa [Int.toNat_of_nonneg (by omega), add_sub_cancel] at this)
  filled j hj i hi := by
    rcases Nat.lt_succ_iff_lt_or_eq.mp hj with hlt | rfl
    · refine (moved_outside ?_).trans (h.filled j hlt i hi)
      have hjk : j * n + i < k * n := join_lt hlt hi
      omega
    · exact (moved_inside hi).trans (h.kept _ (happ.not_holds (hb i hi)))

variable (hn : source.elemSize = n) (hn0 : 0 < n) (hbmem : b ∈ before.blocks) (hcmem : c ∈ before.blocks)
  (happ : b.Apart c)
  (hb : ∀ k < source.extents.prod, ∀ i : Nat, i < n → b.Holds (source.elementAddr k + i))

include hn hn0 hbmem hcmem happ hb

theorem copyElements_arrives {t}
    (hc : ∀ k < source.extents.prod, ∀ i : Nat, i < n → c.Holds (t + (k * n : Nat) + i))
    (m k) (hm : k + m = source.extents.prod) {now} (h : Arrived source before t c n k now) :
    ∃ after, copyElements source t m k (digits source.extents k) now = .ok after ∧
      Arrived source before t c n source.extents.prod after := by
  induction m generalizing k now with
  | zero =>
    obtain rfl : k = source.extents.prod := hm
    exact ⟨now, rfl, h⟩
  | succ m ih =>
    have hk : k < source.extents.prod := by omega
    have hcopy : now.copyNonoverlapping (source.elementAddr k) (t + (k * n : Nat)) n =
        some { now with bytes := moved now.bytes (source.elementAddr k) (t + (k * n : Nat)) n } :=
      copyNonoverlapping_of_mem (h.blocks ▸ hbmem) (h.blocks ▸ hcmem) happ (hb k hk) (hc k hk) hn0
    obtain ⟨after, hrun, harr⟩ := ih (k + 1) (by omega) (h.next happ (hb k hk) (hc k hk))
    refine ⟨after, ?_, harr⟩
    have hoff : (k : Int) * source.elemSize = (k * n : Nat) := by rw [hn, Nat.cast_mul]
    have hsize : source.elemSize.toNat = n := by rw [hn, Int.toNat_natCast]
    rw [copyElements, advance_digits (by omega), hoff, hsize]
    change (access (now.copyNonoverlapping (source.elementAddr k) _ n) >>= _) = _
    rw [hcopy]
    exact hrun

theorem copySameType_arrives (hbytes : 0 < source.totalBytes) (hp : source.Present before)
    (hstart : 0 < c.start) (hbpos : 0 < b.start) (hsize : source.extents.prod * n ≤ c.size) :
    ∃ after, copySameTypePayloadToContiguous source c.start before = .ok after ∧
      Arrived source before c.start c n source.extents.prod after := by
  have hnat : source.elemSize.toNat = n := by rw [hn, Int.toNat_natCast]
  have hbase : b.Holds source.baseAddr := base_holds hn hbytes (by rwa [hnat])
  have hne : ¬(source.totalBytes ≤ 0 ∨ source.baseAddr = 0 ∨ c.start = 0) := by
    have := hbase.1
    omega
  have hc : ∀ k < source.extents.prod, ∀ i : Nat, i < n → c.Holds (c.start + (k * n : Nat) + i) := by
    intro k hk i hi
    have := join_lt hk hi
    exact ⟨by omega, by omega⟩
  rw [copySameTypePayloadToContiguous]
  simp only [if_neg hne]
  split
  · have hstart0 : Arrived source before c.start c n 0 before :=
      ⟨rfl, fun _ _ => rfl, fun j hj => absurd hj (Nat.not_lt_zero j)⟩
    have hzero : List.replicate source.rank 0 = digits source.extents 0 := by
      rw [digits_zero, extents, length_map]
      rfl
    rw [hzero, totalElements_eq, Int.toNat_natCast]
    exact copyElements_arrives hn hn0 hbmem hcmem happ hb hc _ 0 (Nat.zero_add _) hstart0
  · rename_i hs
    have haddr : ∀ k < source.extents.prod, source.elementAddr k = source.baseAddr + (k * n : Nat) := fun k hk =>
      elementAddr_not_strided hn hbytes hp (Bool.eq_false_iff.mpr hs) hk
    rw [totalBytes_eq hn, Int.toNat_natCast, copy_of_mem hbmem hcmem]
    · refine ⟨_, rfl, rfl, fun a ha => moved_outside ?_, fun j hj i hi => ?_⟩
      · rintro ⟨hlow, hhigh⟩
        exact ha ⟨hlow, by omega⟩
      · have hin := @BlockHeap.moved_inside before.bytes source.baseAddr c.start _ _ (join_lt hj hi)
        rw [Nat.cast_add, ← add_assoc, ← add_assoc] at hin
        rw [haddr j hj]
        exact hin
    · intro i hi
      obtain ⟨hk, hr, hsum⟩ := split_lt hi
      have := hb _ hk _ hr
      rw [haddr _ hk] at this
      rwa [add_assoc, ← Nat.cast_add, hsum] at this
    · intro i hi
      exact ⟨by omega, by omega⟩

end Copy

end Armfortas.Runtime.Arrays
