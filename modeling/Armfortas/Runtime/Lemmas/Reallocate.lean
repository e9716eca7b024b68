import Armfortas.Runtime.Lemmas.Assign

/-! Snapshot, reallocation and the final copy. -/
namespace Armfortas.Runtime.Arrays
open Lib ArrayDescriptor List DimDescriptor BlockHeap

variable {d e : ArrayDescriptor} {before after : BlockHeap} {dest' : ArrayDescriptor}

theorem totalBytes_of_shape
    (hshape : d.dims.map extent = e.dims.map extent) (hsize : d.elemSize = e.elemSize) :
    d.totalBytes = e.totalBytes := by
  rw [totalBytes, totalBytes, totalElements_eq, totalElements_eq, extents_eq_of_shape hshape, hsize]

theorem ArrayDescriptor.Bounded.of_shape (h : e.Bounded)
    (hshape : d.dims.map extent = e.dims.map extent) (hsize : d.elemSize = e.elemSize) : d.Bounded := by
  obtain ⟨hextents, hproducts, hbytes⟩ := h
  rw [← hshape] at hextents hproducts
  exact ⟨hextents, hproducts, totalBytes_of_shape hshape hsize ▸ hbytes⟩

theorem ArrayDescriptor.Present.mono {heap heap' : BlockHeap} (h : d.Present heap)
    (hsub : ∀ b ∈ heap.blocks, b ∈ heap'.blocks) : d.Present heap' :=
  { h with
    stored := fun hpos => by
      obtain ⟨b, hb, hheld⟩ := h.stored hpos
      exact ⟨b, hsub b hb, hheld⟩ }

/-! ## The snapshot -/

structure Snapshot (before : BlockHeap) (source : ArrayDescriptor) (n : Nat) (buf : Int) (after : BlockHeap) :
    Prop where
  heap : after.Ok
  blocks : after.blocks = ⟨buf, source.totalBytes.toNat⟩ :: before.blocks
  kept : ∀ b ∈ before.blocks, ∀ a, b.Holds a → after.bytes a = before.bytes a
  filled : ∀ k < source.extents.prod, ∀ i : Nat, i < n →
    after.bytes (buf + (k * n : Nat) + i) = before.bytes (source.elementAddr k + i)

section

variable {A : Allocator} {heap : BlockHeap} {dest source : ArrayDescriptor} {n : Nat}

theorem takeSnapshot_spec (hok : heap.Ok) (hp : source.Present heap) (hn : source.elemSize = n) :
    (takeSnapshot A dest source heap = .error .outOfMemory ∧ Refused A heap dest source) ∨
      (takeSnapshot A dest source heap = .ok (heap, none) ∧
        ¬(sourceBasePointsIntoDestStorage dest source = true ∧ 0 < source.totalBytes)) ∨
      ∃ buf after, takeSnapshot A dest source heap = .ok (after, some buf) ∧
        sourceBasePointsIntoDestStorage dest source = true ∧ 0 < source.totalBytes ∧
        Snapshot heap source n buf after := by
  unfold takeSnapshot
  by_cases hif : sourceBasePointsIntoDestStorage dest source = true ∧ 0 < source.totalBytes
  · rw [if_pos hif]
    obtain ⟨hinto, hbytes⟩ := hif
    cases hm : A.malloc heap source.totalBytes.toNat with
    | none => exact .inl ⟨rfl, .snapshot hinto hbytes hm⟩
    | some r =>
      obtain ⟨buf, fill⟩ := r
      obtain ⟨hbuf, hbound, hfresh⟩ := A.fresh hok hm
      obtain ⟨hpos, hn0⟩ := pos_of_totalBytes hn hbytes
      obtain ⟨b, hb, hheld⟩ := hp.stored hbytes
      have hsize : source.totalBytes.toNat = source.extents.prod * n := by rw [totalBytes_eq hn, Int.toNat_natCast]
      have hnat : source.elemSize.toNat = n := by rw [hn, Int.toNat_natCast]
      have hok' : (heap.alloc ⟨buf, source.totalBytes.toNat⟩ fun _ => 0).Ok := hok.alloc hbuf hbound hfresh
      have hp' : source.Present (heap.alloc ⟨buf, source.totalBytes.toNat⟩ fun _ => 0) :=
        hp.mono fun c hc => .tail _ hc
      obtain ⟨after, hrun, harr⟩ := copySameType_arrives hn hn0 (.tail _ hb) mem_cons_self
        (hfresh b hb).symm (by rwa [hnat] at hheld) hbytes hp' hbuf (hok.positive b hb) hsize.ge
      refine .inr (.inr ⟨buf, after, ?_, hinto, hbytes, ?_, harr.blocks, ?_, ?_⟩)
      · change (copySameTypePayloadToContiguous source buf _ >>= _) = _
        rw [hrun]
        rfl
      · exact ⟨harr.blocks ▸ hok'.apart, harr.blocks ▸ hok'.positive, harr.blocks ▸ hok'.bounded⟩
      · intro c hc a ha
        rw [harr.kept a ((hfresh c hc).symm.not_holds ha)]
        exact alloc_outside (hfresh c hc) ha
      · intro k hk i hi
        rw [harr.filled k hk i hi]
        exact alloc_outside (hfresh b hb) (hheld k hk i (by omega))
  · rw [if_neg hif]
    exact .inr (.inl ⟨rfl, hif⟩)

/-! ## Reallocation -/

theorem freeStorage_spec (hok : heap.Ok) (howns : dest.isAllocated = false ∨ dest.Owns heap) :
    ∃ freed, freeStorage heap dest = .ok freed ∧ freed.Ok ∧ freed.bytes = heap.bytes ∧
      ∀ b ∈ heap.blocks, ¬(dest.isAllocated = true ∧ b.start = dest.baseAddr) → b ∈ freed.blocks := by
  unfold freeStorage
  split
  · rename_i hif
    obtain ⟨hall, hbase⟩ := hif
    have howned : dest.Owns heap := howns.resolve_left (by rw [hall]; decide)
    have hmem := howned.storage.resolve_right fun h => hbase h.1
    refine ⟨_, congrArg access (free_of_mem hmem), hok.free _, rfl, fun b hb hne => ?_⟩
    exact mem_filter.mpr ⟨hb, bne_iff_ne.mpr fun he => hne ⟨hall, he⟩⟩
  · exact ⟨heap, rfl, hok, rfl, fun b hb _ => hb⟩

/-- `dest` has the shape and the storage for `source`, and the other blocks are as before. -/
structure Ready (before : BlockHeap) (dest source : ArrayDescriptor) (after : BlockHeap) (dest' : ArrayDescriptor) :
    Prop where
  heap : after.Ok
  owns : dest'.Owns after
  shape : dest'.dims.map extent = source.dims.map extent
  elemSize : dest'.elemSize = source.elemSize
  kept : ∀ b ∈ before.blocks, ¬(dest.isAllocated = true ∧ b.start = dest.baseAddr) →
    b ∈ after.blocks ∧ (∀ a, b.Holds a → after.bytes a = before.bytes a) ∧
      (0 < source.totalBytes → HeapBlock.Apart ⟨dest'.baseAddr, source.totalBytes.toNat⟩ b)

theorem Ready.totalBytes (h : Ready before dest source after dest') :
    dest'.totalBytes = source.totalBytes := totalBytes_of_shape h.shape h.elemSize

theorem Ready.storage (h : Ready before dest source after dest')
    (hbytes : 0 < source.totalBytes) : (⟨dest'.baseAddr, source.totalBytes.toNat⟩ : HeapBlock) ∈ after.blocks := by
  have := h.owns.storage
  rw [h.totalBytes] at this
  exact this.resolve_right fun h0 => by omega

theorem Ready.same (hok : heap.Ok) (howns : dest.Owns heap) (hsize : dest.elemSize = source.elemSize)
    (hshape : dest.dims.map extent = source.dims.map extent) :
    Ready heap dest source heap dest where
  heap := hok
  owns := howns
  shape := hshape
  elemSize := hsize
  kept b hb hne := by
    refine ⟨hb, fun _ _ => rfl, fun hbytes => ?_⟩
    have hmem := howns.storage
    rw [totalBytes_of_shape hshape hsize] at hmem
    refine hok.apart_of_ne (hmem.resolve_right fun h0 => by omega) hb fun he => hne ⟨howns.allocated, ?_⟩
    rw [← he]

theorem canonical_reshaped (dest source) : (reshaped dest source).Canonical := by
  have hshape : (reshaped dest source).dims.map extent = source.dims.map extent :=
    canonicalDims_extent source.dims 1
  rw [Canonical, hshape]
  exact canonicalDims_stride source.dims 1

theorem shape_reshaped (dest source) :
    (reshaped dest source).dims.map extent = source.dims.map extent :=
  canonicalDims_extent source.dims 1

theorem released_baseAddr (hnull : dest.isAllocated = false → dest.baseAddr = 0) : (released dest).baseAddr = 0 := by
  unfold released
  split
  · rfl
  · rename_i hif
    cases hall : dest.isAllocated with
    | true => exact not_not.mp fun hne => hif ⟨hall, hne⟩
    | false => exact hnull hall

theorem view_released {source} (hself : source = none → dest.isAllocated = false) :
    view source (released dest) = view source dest := by
  cases source with
  | some s => rfl
  | none =>
    rw [released, if_neg]
    rw [hself rfl]
    simp

theorem allocateStorage_spec {freed : BlockHeap} (hok : freed.Ok) (hbase : dest.baseAddr = 0) (hcanon : dest.Canonical)
    (hbounded : dest.Bounded) (hnonneg : 0 ≤ dest.totalBytes) :
    (allocateStorage A dest freed = .error .outOfMemory ∧ 0 < dest.totalBytes ∧
        A.malloc freed dest.totalBytes.toNat = none) ∨
      ∃ after dest', allocateStorage A dest freed = .ok (after, dest') ∧ after.Ok ∧ dest'.Owns after ∧
        dest'.dims = dest.dims ∧ dest'.elemSize = dest.elemSize ∧
        ∀ b ∈ freed.blocks, b ∈ after.blocks ∧ (∀ a, b.Holds a → after.bytes a = freed.bytes a) ∧
          (0 < dest.totalBytes → HeapBlock.Apart ⟨dest'.baseAddr, dest.totalBytes.toNat⟩ b) := by
  have hflag : ((descAllocated ||| descContiguous) &&& descAllocated != 0) = true := by decide
  unfold allocateStorage
  by_cases hbytes : 0 < dest.totalBytes
  · rw [if_pos hbytes]
    cases hm : A.malloc freed dest.totalBytes.toNat with
    | none => exact .inl ⟨rfl, hbytes, rfl⟩
    | some r =>
      obtain ⟨hpos, hbound, hfresh⟩ := A.fresh hok hm
      refine .inr ⟨_, _, rfl, hok.alloc hpos hbound hfresh,
        ⟨hflag, ⟨hbounded.extents, hbounded.products, hbounded.bytes⟩, hcanon, .inl mem_cons_self⟩, rfl, rfl, ?_⟩
      intro b hb
      exact ⟨.tail _ hb, fun a ha => alloc_outside (hfresh b hb) ha, fun _ => hfresh b hb⟩
  · rw [if_neg hbytes]
    have hzero : dest.totalBytes = 0 := le_antisymm (not_lt.mp hbytes) hnonneg
    refine .inr ⟨_, _, rfl, hok, ⟨hflag, ⟨hbounded.extents, hbounded.products, hbounded.bytes⟩, hcanon,
      .inr ⟨hbase, hzero⟩⟩, rfl, rfl, ?_⟩
    exact fun b hb => ⟨hb, fun _ _ => rfl, fun h => absurd h hbytes⟩

theorem reallocate_spec {source} (hok : heap.Ok)
    (howns : dest.isAllocated = false ∨ dest.Owns heap) (hnull : dest.isAllocated = false → dest.baseAddr = 0)
    (hself : source = none → dest.isAllocated = false) (hbounded : (view source dest).Bounded)
    (hnonneg : 0 ≤ (view source dest).totalBytes) :
    (reallocate A source dest heap = .error .outOfMemory ∧
        ∃ freed, freeStorage heap dest = .ok freed ∧ 0 < (view source dest).totalBytes ∧
          A.malloc freed (view source dest).totalBytes.toNat = none) ∨
      ∃ after dest', reallocate A source dest heap = .ok (after, dest') ∧
        Ready heap dest (view source dest) after dest' := by
  obtain ⟨freed, hfree, hokf, hbytes, hkept⟩ := freeStorage_spec hok howns
  have hrun : reallocate A source dest heap =
      allocateStorage A (reshaped (released dest) (view source dest)) freed := by
    rw [reallocate, hfree, ← view_released hself]
    rfl
  have hshape := shape_reshaped (released dest) (view source dest)
  have htotal : (reshaped (released dest) (view source dest)).totalBytes = (view source dest).totalBytes :=
    totalBytes_of_shape hshape rfl
  have hbase : (reshaped (released dest) (view source dest)).baseAddr = 0 := released_baseAddr hnull
  rw [← htotal] at hnonneg
  rw [hrun]
  rcases allocateStorage_spec hokf hbase (canonical_reshaped _ _) (hbounded.of_shape hshape rfl) hnonneg with
    ⟨hoom, hask⟩ | ⟨after, dest', hrun', hok', howns', hdims, hsize, hblocks⟩
  · rw [htotal] at hask
    exact .inl ⟨hoom, freed, hfree, hask⟩
  · refine .inr ⟨after, dest', hrun', hok', howns', by rw [hdims, hshape], hsize, fun b hb hne => ?_⟩
    obtain ⟨hmem, hsame, happ⟩ := hblocks b (hkept b hb hne)
    rw [htotal] at happ
    exact ⟨hmem, fun a ha => by rw [hsame a ha, hbytes], happ⟩

/-! ## The payload -/

theorem element_of_no_bytes {h h'} (hn : e.elemSize = n)
    (hsize : d.elemSize = e.elemSize) (hzero : ¬0 < e.totalBytes) {k} (hk : k < e.extents.prod) :
    d.element h' k = e.element h k := by
  rw [totalBytes_eq hn] at hzero
  obtain rfl : n = 0 := by
    by_contra hne
    have : 0 < e.extents.prod * n := Nat.mul_pos (by omega) (by omega)
    omega
  rw [element, element, hsize, hn]
  rfl

theorem Ready.assigned {before mid after : BlockHeap} (h : Ready mid dest source after dest')
    (hn : source.elemSize = n) (hle : source.totalBytes ≤ i64Max) {final : BlockHeap} (hok : final.Ok)
    (hmem : (⟨dest'.baseAddr, dest'.totalBytes.toNat⟩ : HeapBlock) ∈ after.blocks →
      (⟨dest'.baseAddr, dest'.totalBytes.toNat⟩ : HeapBlock) ∈ final.blocks)
    (hfilled : 0 < source.totalBytes → ∀ k < source.extents.prod, ∀ i : Nat, i < n →
      final.bytes (dest'.baseAddr + (k * n : Nat) + i) = before.bytes (source.elementAddr k + i)) :
    Assigned before source final dest' where
  heap := hok
  owns := ⟨h.owns.allocated, h.owns.bounded, h.owns.canonical, h.owns.storage.imp_left hmem⟩
  shape := h.shape
  elemSize := h.elemSize
  elements k hk := by
    by_cases hbytes : 0 < source.totalBytes
    · have hnat : source.elemSize.toNat = n := by rw [hn, Int.toNat_natCast]
      have haddr : dest'.elementAddr k = dest'.baseAddr + (k * n : Nat) :=
        elementAddr_canonical (h.elemSize.trans hn) (h.totalBytes ▸ hbytes) (h.totalBytes ▸ hle) h.owns.canonical
          (by rwa [extents_eq_of_shape h.shape])
      rw [element, element, h.elemSize, hnat, haddr]
      exact window_congr fun i hi => hfilled hbytes k hk i hi
    · exact element_of_no_bytes hn h.elemSize hbytes hk

theorem ArrayDescriptor.Assigned.tagged {d} (h : Assigned before source after d)
    (tag p) : Assigned before source after ((d.setScalarTypeTag tag).setDynamicVtablePtr p) := by
  unfold setScalarTypeTag
  split <;> exact ⟨h.heap, ⟨h.owns.allocated, ⟨h.owns.bounded.extents, h.owns.bounded.products, h.owns.bounded.bytes⟩,
    h.owns.canonical, h.owns.storage⟩, h.shape, h.elemSize, h.elements⟩

theorem copyPayload_of_no_bytes {snapshot} (h : ¬0 < source.totalBytes) :
    copyPayload snapshot dest' source heap = .ok heap := if_neg fun hif => h hif.1

theorem copyPayload_direct {after} (hok : heap.Ok) (hp : source.Present heap)
    (hn : source.elemSize = n) (hbytes : 0 < source.totalBytes) (h : Ready heap dest source after dest') {b}
    (hb : b ∈ heap.blocks) (hne : ¬(dest.isAllocated = true ∧ b.start = dest.baseAddr))
    (hheld : ∀ k < source.extents.prod, ∀ i : Nat, i < source.elemSize.toNat → b.Holds (source.elementAddr k + i)) :
    ∃ final, copyPayload none dest' source after = .ok final ∧ Assigned heap source final dest' := by
  obtain ⟨hmem, hsame, happ⟩ := h.kept b hb hne
  obtain ⟨hpos, hn0⟩ := pos_of_totalBytes hn hbytes
  have hstore := h.storage hbytes
  have hdest : 0 < dest'.baseAddr := h.heap.positive _ hstore
  have hbase : 0 < source.baseAddr := lt_of_lt_of_le (hok.positive b hb) (base_holds hn hbytes hheld).1
  have hnat : source.elemSize.toNat = n := by rw [hn, Int.toNat_natCast]
  have hsize : source.totalBytes.toNat = source.extents.prod * n := by rw [totalBytes_eq hn, Int.toNat_natCast]
  have hp' : source.Present after := { hp with stored := fun _ => ⟨b, hmem, hheld⟩ }
  rw [hnat] at hheld
  obtain ⟨final, hrun, harr⟩ := copySameType_arrives hn hn0 hmem hstore (happ hbytes).symm hheld hbytes hp' hdest
    (h.heap.positive b hmem) hsize.ge
  refine ⟨final, ?_, h.assigned hn hp.bounded.bytes ?_ (fun hm => harr.blocks ▸ hm) fun _ k hk i hi => ?_⟩
  · rw [copyPayload, if_pos ⟨hbytes, by omega, by omega⟩]
    exact hrun
  · exact ⟨harr.blocks ▸ h.heap.apart, harr.blocks ▸ h.heap.positive, harr.blocks ▸ h.heap.bounded⟩
  · exact (harr.filled k hk i hi).trans (hsame _ (hheld k hk i hi))

theorem copyPayload_snapshot {mid after buf}
    (hle : source.totalBytes ≤ i64Max) (hn : source.elemSize = n) (hbytes : 0 < source.totalBytes)
    (hbase : source.baseAddr ≠ 0) (hs : Snapshot heap source n buf mid) (h : Ready mid dest source after dest')
    (hne : ¬(dest.isAllocated = true ∧ buf = dest.baseAddr)) :
    ∃ copied final, copyPayload (some buf) dest' source after = .ok copied ∧
      dropSnapshot (some buf) copied = .ok final ∧ Assigned heap source final dest' := by
  have hbuf : (⟨buf, source.totalBytes.toNat⟩ : HeapBlock) ∈ mid.blocks := by
    rw [hs.blocks]
    exact mem_cons_self
  obtain ⟨hmem, hsame, happ⟩ := h.kept _ hbuf hne
  have hstore := h.storage hbytes
  have hdest : 0 < dest'.baseAddr := h.heap.positive _ hstore
  have hsize : source.totalBytes.toNat = source.extents.prod * n := by rw [totalBytes_eq hn, Int.toNat_natCast]
  have hcopy := copyNonoverlapping_of_mem hmem hstore (happ hbytes).symm (fun i hi => HeapBlock.holds_add hi)
    (fun i hi => HeapBlock.holds_add hi) (by omega)
  have hmoved := h.heap.withBytes (moved after.bytes buf dest'.baseAddr source.totalBytes.toNat)
  have hfree := @BlockHeap.free_of_mem
    { after with bytes := moved after.bytes buf dest'.baseAddr source.totalBytes.toNat } _ hmem
  refine ⟨_, _, ?_, congrArg access hfree, ?_⟩
  · rw [copyPayload, if_pos ⟨hbytes, hbase, by omega⟩, h.totalBytes, min_self]
    exact congrArg access hcopy
  · refine h.assigned hn hle (hmoved.free buf) (fun hm => ?_) fun _ k hk i hi => ?_
    · exact mem_filter.mpr ⟨hm, bne_iff_ne.mpr (happ hbytes).start_ne⟩
    · have hki : k * n + i < source.totalBytes.toNat := hsize ▸ join_lt hk hi
      have hin := @BlockHeap.moved_inside after.bytes buf dest'.baseAddr _ _ hki
      rw [hsame _ (HeapBlock.holds_add hki), Nat.cast_add, ← add_assoc, ← add_assoc, hs.filled k hk i hi] at hin
      exact hin

end

end Armfortas.Runtime.Arrays
