import Armfortas.Runtime.Lemmas.Layout

/-! An allocation layout numbers the subscripts through or is refused, two arrays with a common byte are found to
overlap, and a section addresses the elements that its triplets select. -/
namespace Armfortas.Runtime.Arrays

open Lib ArrayDescriptor List Option DimDescriptor

/-! ## Allocation -/

variable {elemSize rank : Int} {dims : List DimDescriptor}

theorem checkedAllocationLayout_iff (hdims : dims.length = rank.toNat) {layout} :
    checkedAllocationLayout elemSize rank (some dims) = .ok layout ↔
      (0 ≤ rank ∧ rank ≤ maxRank ∧ 0 ≤ elemSize ∧ (∀ dim ∈ dims, dim.extent ≤ i64Max) ∧ strideEnd dims ≤ i64Max ∧
        (dims.map extent).prod * elemSize ≤ i64Max) ∧
      layout = ⟨columnMajor 1 dims, (dims.map extent).prod * elemSize⟩ := by
  rw [checkedAllocationLayout]
  by_cases hrank : rank < 0 ∨ (maxRank : Int) < rank
  · rw [if_pos hrank]
    exact ⟨nofun, fun h => absurd h.1 (by omega)⟩
  by_cases hsize : elemSize < 0
  · rw [if_neg hrank, if_pos hsize]
    exact ⟨nofun, fun h => absurd h.1.2.2.1 (by omega)⟩
  rw [if_neg hrank, if_neg hsize, if_neg (by simp), getD_some, ← hdims, take_length]
  have hcount : 0 ≤ (dims.map extent).prod := by
    rw [← cast_prod_extentsOf]
    exact Int.natCast_nonneg _
  have hbytes := mul_nonneg hcount (not_lt.mp hsize)
  have hlayout := fun out => @layoutDims_iff dims 1 1 one_pos.le le_rfl le_rfl (by decide) out
  simp only [one_mul] at hlayout
  constructor
  · intro h
    cases hdone : layoutDims dims 1 1 with
    | error m => rw [hdone] at h; cases h
    | ok out =>
      obtain ⟨hfit, hend, rfl⟩ := (hlayout out).mp hdone
      rw [hdone] at h
      obtain ⟨bytes, hchecked, h⟩ := okOr_bind_eq_ok.mp h
      obtain ⟨hle, rfl⟩ := (checkedI64_eq_some hbytes).mp (filter_eq_some_iff.mp hchecked).1
      exact ⟨⟨by omega, by omega, by omega, hfit, hend, hle⟩, (Except.ok.inj h).symm⟩
  · rintro ⟨⟨-, -, -, hfit, hend, hle⟩, rfl⟩
    rw [(hlayout _).mpr ⟨hfit, hend, rfl⟩]
    refine okOr_bind_eq_ok.mpr ⟨_, ?_, rfl⟩
    exact filter_eq_some_iff.mpr ⟨(checkedI64_eq_some hbytes).mpr ⟨hle, rfl⟩, decide_eq_true hbytes⟩

theorem afsAllocateArray_failed {A} {heap heap' desc desc' bounds stat code}
    (h : afsAllocateArray A heap desc elemSize rank bounds stat = .ok (heap', desc', some code)) (hcode : code ≠ 0) :
    heap' = heap ∧ desc' = desc := by
  have report : ∀ {n m}, reportAllocationFailure heap desc stat n m = .ok (heap', desc', some code) →
      heap' = heap ∧ desc' = desc := by
    intro n m h
    unfold reportAllocationFailure at h
    split at h <;> cases h
    exact ⟨rfl, rfl⟩
  unfold afsAllocateArray at h
  split at h
  · exact report h
  · split at h
    · exact report h
    · split at h
      · exact report h
      · split at h
        · exact report h
        · cases stat <;> cases h
          exact absurd rfl hcode

theorem allocation_layouts (elemSize rank : Int) (dims : List DimDescriptor) (hdims : dims.length = rank.toNat) :
    ((∃ layout, checkedAllocationLayout elemSize rank (some dims) = .ok layout) ↔
      0 ≤ rank ∧ rank ≤ maxRank ∧ 0 ≤ elemSize ∧ (∀ dim ∈ dims, dim.extent ≤ i64Max) ∧
        (dims.map fun dim => max dim.extent 1).prod ≤ i64Max ∧ (dims.map extent).prod * elemSize ≤ i64Max) ∧
    (∀ layout, checkedAllocationLayout elemSize rank (some dims) = .ok layout →
      Set.BijOn (subscriptOffset layout.dims) {subs | InBounds dims subs} {k | 0 ≤ k ∧ k < (dims.map extent).prod} ∧
      layout.bytes = (dims.map extent).prod * elemSize) ∧ ∀ A heap desc bounds heap' desc' code,
      afsAllocateArray A heap desc elemSize rank bounds true = .ok (heap', desc', some code) → code ≠ 0 →
        desc' = desc := by
  refine ⟨⟨fun ⟨_, h⟩ => ((checkedAllocationLayout_iff hdims).mp h).1,
    fun h => ⟨_, (checkedAllocationLayout_iff hdims).mpr ⟨h, rfl⟩⟩⟩, fun layout h => ?_,
    fun _ _ _ _ _ _ _ h hcode => (afsAllocateArray_failed h hcode).2⟩
  obtain ⟨-, rfl⟩ := (checkedAllocationLayout_iff hdims).mp h
  exact ⟨columnMajor_bijOn, rfl⟩

theorem allocation_layouts_threeByTwo :
    ∃ layout, checkedAllocationLayout 4 2 (some [⟨1, 3, 1⟩, ⟨0, 1, 1⟩]) = .ok layout ∧
      Set.BijOn (subscriptOffset layout.dims) {subs | InBounds [⟨1, 3, 1⟩, ⟨0, 1, 1⟩] subs} {k | 0 ≤ k ∧ k < 6} ∧
      layout.bytes = 24 := by
  obtain ⟨hok, hlayout, -⟩ := allocation_layouts 4 2 [⟨1, 3, 1⟩, ⟨0, 1, 1⟩] rfl
  obtain ⟨layout, h⟩ := hok.mpr (by decide)
  exact ⟨layout, h, hlayout layout h⟩

/-! ## Overlap -/

theorem descriptors_overlap (left right : ArrayDescriptor) (hleft : left.Addressable) (hright : right.Addressable)
    (h : ∃ a, 0 ≤ a ∧ a < 2 ^ 64 ∧ left.HoldsByte a ∧ right.HoldsByte a) :
    afsDescriptorsOverlap (some left) (some right) ≠ 0 := by
  obtain ⟨a, h0, ha, hl, hr⟩ := h
  obtain ⟨low, high, hspan, hlow, hhigh⟩ := descriptorByteSpan_spec hleft h0 ha hl
  obtain ⟨low', high', hspan', hlow', hhigh'⟩ := descriptorByteSpan_spec hright h0 ha hr
  rw [afsDescriptorsOverlap, bind_some, bind_some, hspan, hspan']
  dsimp only
  rw [if_pos ⟨by omega, by omega⟩]
  exact one_ne_zero

theorem descriptors_overlap_reversed :
    afsDescriptorsOverlap (some ⟨1000, 4, 3, [⟨1, 10, 1⟩], 0, 0⟩) (some ⟨1080, 4, 0, [⟨1, 15, -2⟩], 0, 0⟩) ≠ 0 :=
  descriptors_overlap _ _ ⟨by decide, by decide, by decide, by decide⟩ ⟨by decide, by decide, by decide, by decide⟩
    ⟨1000, by decide, by decide, ⟨[1], .cons (by decide) .nil, by decide⟩, ⟨[11], .cons (by decide) .nil, by decide⟩⟩

/-! ## Sections -/

variable {source result : ArrayDescriptor} {specs : List SectionSpec}

theorem createSection_addr (hlen : specs.length = source.rank) (hbase : source.baseAddr ≠ 0) {js}
    (hjs : InBounds (createSection source result specs).dims js) :
    (createSection source result specs).subscriptAddr js = source.subscriptAddr (selected specs js) := by
  rw [subscriptAddr, subscriptAddr, subscriptOffset_selected source.elemSize hlen hjs.length_eq.symm, ← add_assoc]
  exact congrArg (· + _) (if_neg hbase)

theorem createSection_contiguous (h : (createSection source result specs).isContiguous = true) :
    ∀ dim ∈ (createSection source result specs).dims, dim.stride = 1 := by
  change (sectionFlags _ _ &&& descContiguous != 0) = true at h
  unfold sectionFlags at h
  split at h
  · rename_i hall
    exact fun dim hdim => eq_of_beq (List.all_eq_true.mp hall dim hdim)
  · have hnone : ~~~descContiguous &&& descContiguous = 0#32 := rfl
    rw [BitVec.and_assoc, hnone, BitVec.and_zero] at h
    exact absurd h (by decide)

theorem strides_le_dense {c} (hc : 1 ≤ c) (hone : ∀ dim ∈ dims, dim.stride = 1) (hpos : 0 < (extentsOf dims).prod) :
    List.Forall₂ (· ≤ ·) (dims.map stride) (denseStrides c (extentsOf dims)) := by
  induction dims generalizing c with
  | nil => exact .nil
  | cons dim dims ih =>
    obtain ⟨hdim, hdims⟩ := pos_of_prod_pos hpos
    obtain ⟨hd, hds⟩ := forall_mem_cons.mp hone
    exact .cons (by rw [hd]; omega) (ih (Nat.mul_pos hc hdim) hds hdims)

/-- Unit strides in more than one dimension with several subscripts would address some element twice. -/
theorem createSection_adjacent (hlen : specs.length = source.rank) (hbase : source.baseAddr ≠ 0)
    (hin : ∀ js, InBounds (createSection source result specs).dims js → InBounds source.dims (selected specs js))
    (hcontig : (createSection source result specs).isContiguous = true)
    (hdistinct : ∀ subs subs', InBounds source.dims subs → InBounds source.dims subs' →
      source.subscriptAddr subs = source.subscriptAddr subs' → subs = subs')
    {k} (hk : k < (createSection source result specs).extents.prod) :
    (createSection source result specs).elementAddr k = (createSection source result specs).baseAddr +
      k * (createSection source result specs).elemSize := by
  have hone := createSection_contiguous hcontig
  have hpos := Nat.zero_lt_of_lt hk
  rw [elementAddr, strides, extents, offset_eq_of_le_dense ?_ (strides_le_dense le_rfl hone hpos) ?_ hk]
  · intro s hs
    obtain ⟨dim, hdim, rfl⟩ := List.mem_map.mp hs
    rw [hone dim hdim]
    exact one_pos.le
  · intro is js his hjs he
    have his' := inBounds_subscriptsOf his
    have hjs' := inBounds_subscriptsOf hjs
    have hsame := hdistinct _ _ (hin _ his') (hin _ hjs') (by
      rw [← createSection_addr hlen hbase his', ← createSection_addr hlen hbase hjs', subscriptAddr, subscriptAddr,
        subscriptOffset_subscriptsOf, subscriptOffset_subscriptsOf, he])
    have hsubs := selected_injective hlen his'.length_eq.symm hjs'.length_eq.symm hsame
    exact subscriptsOf_injective (his.length_eq.trans (length_map _)) (hjs.length_eq.trans (length_map _)) hsubs

theorem sectionFlags_tag (flags : BitVec 32) (dims : List DimDescriptor) :
    sectionFlags (flags &&& descTypeTagMask) dims &&& descTypeTagMask = flags &&& descTypeTagMask := by
  have hout : descContiguous &&& descTypeTagMask = 0#32 := rfl
  have hkeep : ~~~descContiguous &&& descTypeTagMask = descTypeTagMask := rfl
  have htag : (descContiguous ||| (flags &&& descTypeTagMask)) &&& descTypeTagMask = flags &&& descTypeTagMask := by
    rw [BitVec.and_or_distrib_right, hout, BitVec.zero_or, BitVec.and_assoc, BitVec.and_self]
  unfold sectionFlags
  split
  · exact htag
  · rw [BitVec.and_assoc, hkeep, htag]

attribute [ext] ArrayDescriptor

theorem createSection_composed {inners : List SectionSpec} {mid} (hlen : specs.length = source.rank)
    (hinners : inners.length = (createSection source mid specs).rank)
    (hmid : source.baseAddr ≠ 0 → (createSection source mid specs).baseAddr ≠ 0) :
    createSection (createSection source mid specs) result inners =
      createSection source result (composed specs inners) := by
  have hdims := sectionDims_composed source.elemSize hlen hinners
  refine ArrayDescriptor.ext ?_ rfl ?_ (congrArg Prod.snd hdims).symm rfl rfl
  · change (if (createSection source mid specs).baseAddr = 0 then 0 else _) = if source.baseAddr = 0 then 0 else _
    rw [hdims]
    by_cases hnull : source.baseAddr = 0
    · rw [if_pos hnull]
      exact if_pos (if_pos hnull)
    · rw [if_neg hnull, if_neg (hmid hnull), ← add_assoc]
      exact congrArg (· + _) (if_neg hnull)
  · exact congrArg₂ sectionFlags (sectionFlags_tag _ _) (congrArg Prod.snd hdims).symm

theorem createSection_bounds (hlen : specs.length = source.rank) :
    (createSection source result specs).dims.map (fun dim => (dim.lowerBound, dim.extent)) =
      (specs.filter fun spec => spec.stride ≠ 0).map fun spec =>
        (1, max 0 ((spec.stop - spec.start + spec.stride).tdiv spec.stride)) := by
  change (sectionDims source.elemSize source.dims specs).2.map _ = _
  rw [rank] at hlen
  generalize source.dims = dims at *
  induction dims generalizing specs with
  | nil => rw [length_eq_zero_iff.mp hlen]; rfl
  | cons dim dims ih =>
    obtain _ | ⟨spec, specs⟩ := specs
    · cases hlen
    · rw [sectionDims]
      dsimp only
      by_cases hzero : spec.stride = 0
      · rw [if_pos hzero, ih (Nat.succ.inj hlen), filter_cons_of_neg (by simpa using hzero)]
      · rw [if_neg hzero, map_cons, ih (Nat.succ.inj hlen), filter_cons_of_pos (by simpa using hzero),
          map_cons]
        have hext := spec.extent_eq hzero
        refine congrArg (· :: _) (Prod.ext rfl ?_)
        dsimp only [extent]
        split <;> omega

theorem section_addresses (source result : ArrayDescriptor) (specs : List SectionSpec)
    (hlen : specs.length = source.rank) (hbase : source.baseAddr ≠ 0)
    (hin : ∀ js, InBounds (createSection source result specs).dims js → InBounds source.dims (selected specs js)) :
    (createSection source result specs).dims.map (fun dim => (dim.lowerBound, dim.extent)) =
      ((specs.filter fun spec => spec.stride ≠ 0).map fun spec =>
        (1, max 0 ((spec.stop - spec.start + spec.stride).tdiv spec.stride))) ∧
    (∀ js, InBounds (createSection source result specs).dims js →
      (createSection source result specs).subscriptAddr js = source.subscriptAddr (selected specs js)) ∧
    (∀ inners outcome, inners.length = (createSection source result specs).rank →
      (createSection source result specs).baseAddr ≠ 0 →
      createSection (createSection source result specs) outcome inners =
        createSection source outcome (composed specs inners)) ∧
    ((createSection source result specs).isContiguous = true →
      (∀ subs subs', InBounds source.dims subs → InBounds source.dims subs' →
        source.subscriptAddr subs = source.subscriptAddr subs' → subs = subs') →
      ∀ k < (createSection source result specs).extents.prod,
        (createSection source result specs).elementAddr k = (createSection source result specs).baseAddr +
          k * (createSection source result specs).elemSize) :=
  ⟨createSection_bounds hlen, fun _ => createSection_addr hlen hbase,
    fun _ _ hinners hmid => createSection_composed hlen hinners fun _ => hmid,
    fun hcontig hdistinct _ => createSection_adjacent hlen hbase hin hcontig hdistinct⟩

theorem section_addresses_oddRows :
    (createSection ⟨1000, 8, 3, [⟨1, 3, 1⟩, ⟨1, 4, 3⟩], 0, 0⟩ zeroed [⟨1, 3, 2⟩, ⟨2, 2, 0⟩]).subscriptAddr [2] =
      ArrayDescriptor.subscriptAddr ⟨1000, 8, 3, [⟨1, 3, 1⟩, ⟨1, 4, 3⟩], 0, 0⟩ [3, 2] := by
  refine (section_addresses ⟨1000, 8, 3, [⟨1, 3, 1⟩, ⟨1, 4, 3⟩], 0, 0⟩ zeroed [⟨1, 3, 2⟩, ⟨2, 2, 0⟩] rfl (by decide)
    ?_).2.1 [2] (.cons (by decide) .nil)
  intro js hjs
  obtain _ | ⟨⟨hlow, hhigh⟩, hnil⟩ := hjs
  have hhigh' : _ ≤ (2 : Int) := hhigh
  exact .cons ⟨by dsimp only at *; omega, by dsimp only at *; omega⟩ (.cons (by decide) .nil)

end Armfortas.Runtime.Arrays
