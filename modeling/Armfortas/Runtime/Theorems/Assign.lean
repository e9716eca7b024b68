import Armfortas.Runtime.Lemmas.Reallocate

/-! After `afs_assign_allocatable`, `dest` is the array that the source was, whatever the source shares with the
storage of `dest`. No byte outside of a live block is read or written: that would be `badAccess`. -/
namespace Armfortas.Runtime.Arrays
open Lib ArrayDescriptor List

section

variable {A : Allocator} {heap : BlockHeap} {dest : ArrayDescriptor} {source : Option ArrayDescriptor}

theorem baseAddr_of_sane (hsane : descriptorLooksSane dest = true) (h : dest.isAllocated = false) :
    dest.baseAddr = 0 := by
  by_contra hne
  unfold descriptorLooksSane at hsane
  simp [h, hne] at hsane

theorem pointsInto_of_start (hok : heap.Ok) (howns : dest.isAllocated = false ∨ dest.Owns heap)
    {src : ArrayDescriptor} {b} (hb : b ∈ heap.blocks) (hbase : b.Holds src.baseAddr)
    (hstart : dest.isAllocated = true ∧ b.start = dest.baseAddr) : sourceBasePointsIntoDestStorage dest src = true := by
  obtain ⟨hall, he⟩ := hstart
  have hpos := hok.positive b hb
  have howned : dest.Owns heap := howns.resolve_left (by rw [hall]; decide)
  have hmem := howned.storage.resolve_right fun h0 => by omega
  have hsame : b = ⟨dest.baseAddr, dest.totalBytes.toNat⟩ := by
    by_contra hne
    exact (hok.apart_of_ne hb hmem hne).start_ne he
  have hbound := hok.bounded b hb
  obtain ⟨hlow, hhigh⟩ := hbase
  rw [hsame] at hbound hlow hhigh
  dsimp only at hbound hlow hhigh
  have hbytes : ¬dest.totalBytes ≤ 0 := by omega
  rw [sourceBasePointsIntoDestStorage, if_neg (by rw [hall]; simp; omega), if_neg hbytes, min_eq_left (by omega)]
  simp only [Bool.and_eq_true, decide_eq_true_eq]
  omega

/-- The source shows the same array after `dest` has got its storage, or one without bytes. -/
def SameView (source : Option ArrayDescriptor) (dest dest' : ArrayDescriptor) : Prop :=
  view source dest' = view source dest ∨ ¬0 < (view source dest).totalBytes ∧ ¬0 < (view source dest').totalBytes

theorem view_after {dest'} (hself : source = none → dest' = dest ∨ ¬0 < dest.totalBytes)
    (htotal : dest'.totalBytes = (view source dest).totalBytes) : SameView source dest dest' := by
  cases source with
  | some s => exact .inl rfl
  | none =>
    rcases hself rfl with rfl | hzero
    · exact .inl rfl
    · refine .inr ⟨hzero, ?_⟩
      change ¬0 < dest'.totalBytes
      rw [htotal]
      exact hzero

/-- What is left of the call ends, and `dest` is then the array that `src` was in `heap`. -/
def Finishes (heap : BlockHeap) (src : ArrayDescriptor) (source : Option ArrayDescriptor) (snapshot : Option Int)
    (after : BlockHeap) (dest : ArrayDescriptor) : Prop :=
  ∃ final dest', finishAssign source snapshot dest after = .ok (final, dest') ∧ Assigned heap src final dest'

theorem finishAssign_of_copied {src dest' snapshot after copied final}
    (hcopy : copyPayload snapshot dest' (view source dest') after = .ok copied)
    (hdrop : dropSnapshot snapshot copied = .ok final) (h : Assigned heap src final dest') :
    Finishes heap src source snapshot after dest' := by
  refine ⟨final, _, ?_, h.tagged (view source dest').scalarTypeTag (view source dest').vtable⟩
  rw [finishAssign, hcopy]
  change (dropSnapshot snapshot copied >>= _) = _
  rw [hdrop]
  rfl

theorem assignAllocatable_eq (hp : (view source dest).Present heap) (hsane : descriptorLooksSane dest = true) :
    assignAllocatable A heap dest source = (do
      let r ← takeSnapshot A dest (view source dest) heap
      let q ← prepareStorage A source dest r.1
      finishAssign source r.2 q.2 q.1) := by
  have hgiven : ¬(!(view source dest).isAllocated ∧ (view source dest).baseAddr = 0 ∧
      !descriptorIsZeroSizeArray (view source dest)) := by
    rintro ⟨hall, hbase, hzero⟩
    rcases hp.given with h | h | h
    · simp [h] at hall
    · exact h hbase
    · simp [h] at hzero
  unfold assignAllocatable
  simp only [if_pos hsane, if_neg hgiven]

section Sane

variable (hok : heap.Ok) (howns : dest.isAllocated = false ∨ dest.Owns heap) (hp : (view source dest).Present heap)
include hok howns hp

theorem finish_direct (hinto : ¬(sourceBasePointsIntoDestStorage dest (view source dest) = true ∧
    0 < (view source dest).totalBytes)) {after dest'} (hready : Ready heap dest (view source dest) after dest')
    (hview : SameView source dest dest') : Finishes heap (view source dest) source none after dest' := by
  obtain ⟨n, hn⟩ := Int.eq_ofNat_of_zero_le hp.elemSize
  by_cases hbytes : 0 < (view source dest).totalBytes
  · obtain ⟨b, hb, hheld⟩ := hp.stored hbytes
    have hne : ¬(dest.isAllocated = true ∧ b.start = dest.baseAddr) := fun hstart =>
      hinto ⟨pointsInto_of_start hok howns hb (base_holds hn hbytes hheld) hstart, hbytes⟩
    obtain ⟨final, hcopy, hdone⟩ := copyPayload_direct hok hp hn hbytes hready hb hne hheld
    rw [← hview.resolve_right fun h => h.1 hbytes] at hcopy
    exact finishAssign_of_copied hcopy rfl hdone
  · have hnone : ¬0 < (view source dest').totalBytes := by
      rcases hview with he | he
      · rwa [he]
      · exact he.2
    have hdone : Assigned heap (view source dest) after dest' :=
      hready.assigned hn hp.bounded.bytes hready.heap (fun h => h) (fun h => absurd h hbytes)
    exact finishAssign_of_copied (copyPayload_of_no_bytes hnone) rfl hdone

theorem finish_snapshot {n buf mid} (hn : (view source dest).elemSize = (n : Nat))
    (hbytes : 0 < (view source dest).totalBytes) (hs : Snapshot heap (view source dest) n buf mid) {after dest'}
    (hready : Ready mid dest (view source dest) after dest') (hview : SameView source dest dest') :
    Finishes heap (view source dest) source (some buf) after dest' := by
  obtain ⟨b, hb, hheld⟩ := hp.stored hbytes
  have hbase : (view source dest).baseAddr ≠ 0 := by
    have hlow := (base_holds hn hbytes hheld).1
    have hpos := hok.positive b hb
    omega
  have hne : ¬(dest.isAllocated = true ∧ buf = dest.baseAddr) := by
    rintro ⟨hall, rfl⟩
    have howned := howns.resolve_left (by rw [hall]; decide)
    have hfresh := pairwise_cons.mp (hs.blocks ▸ hs.heap.apart)
    have hbuf := hs.heap.positive _ (hs.blocks ▸ mem_cons_self)
    dsimp only at hbuf
    have hmem := howned.storage.resolve_right fun h0 => by omega
    exact (hfresh.1 _ hmem).start_ne rfl
  obtain ⟨copied, final, hcopy, hdrop, hdone⟩ := copyPayload_snapshot hp.bounded.bytes hn hbytes hbase hs hready hne
  rw [← hview.resolve_right fun h => h.1 hbytes] at hcopy
  exact finishAssign_of_copied hcopy hdrop hdone

variable (hsane : descriptorLooksSane dest = true)
  (hsize : dest.isAllocated = true → dest.elemSize = (view source dest).elemSize)
include hsane hsize

section Snapshot

variable {mid : BlockHeap} {snapshot : Option Int} (hmid : mid.Ok) (hsub : ∀ b ∈ heap.blocks, b ∈ mid.blocks)
  (hsnapshot : takeSnapshot A dest (view source dest) heap = .ok (mid, snapshot))
include hmid hsub hsnapshot

theorem prepare_spec :
    (prepareStorage A source dest mid = .error .outOfMemory ∧ Refused A heap dest (view source dest)) ∨
      ∃ after dest', prepareStorage A source dest mid = .ok (after, dest') ∧
        Ready mid dest (view source dest) after dest' ∧ SameView source dest dest' := by
  have hnull := baseAddr_of_sane hsane
  have howns' : dest.isAllocated = false ∨ dest.Owns mid :=
    howns.imp_right fun h => ⟨h.allocated, h.bounded, h.canonical, h.storage.imp_left (hsub _)⟩
  by_cases hif : !shapesMatch dest (view source dest) ∨ !dest.isAllocated
  · have hself : source = none → dest.isAllocated = false := by
      rintro rfl
      refine Bool.not_eq_true' _ ▸ hif.resolve_left ?_
      simp [view, shapesMatch]
    rcases @reallocate_spec A mid dest source hmid howns' hnull hself hp.bounded (totalBytes_nonneg hp.elemSize) with
      ⟨hrun, freed, hfreed, hbytes, hmalloc⟩ | ⟨after, dest', hrun, hready⟩
    · refine .inl ⟨(if_pos hif).trans hrun, .storage hsnapshot ?_ hfreed hbytes hmalloc⟩
      simpa only [Bool.not_eq_true'] using hif
    · refine .inr ⟨after, dest', (if_pos hif).trans hrun, hready, view_after (fun hs => .inr fun hbytes => ?_)
        hready.totalBytes⟩
      -- an unallocated `dest` has no storage its elements could be in
      subst hs
      obtain ⟨n, hn⟩ := Int.eq_ofNat_of_zero_le hp.elemSize
      obtain ⟨b, hb, hheld⟩ := hp.stored hbytes
      have hlow := (base_holds hn hbytes hheld).1
      have hpos := hok.positive b hb
      have hzero : (view none dest).baseAddr = 0 := hnull (hself rfl)
      omega
  · have hall : dest.isAllocated = true := by
      by_contra h
      exact hif (.inr (by simpa using h))
    have hshape : shapesMatch dest (view source dest) = true := by
      by_contra h
      exact hif (.inl (by simpa using h))
    have howned := howns'.resolve_left (by rw [hall]; decide)
    exact .inr ⟨mid, dest, if_neg hif, .same hmid howned (hsize hall) (beq_iff_eq.mp hshape), .inl rfl⟩

theorem assign_of_prepared (hfinish : ∀ after dest', Ready mid dest (view source dest) after dest' →
    SameView source dest dest' → Finishes heap (view source dest) source snapshot after dest') :
    (assignAllocatable A heap dest source = .error .outOfMemory ∧ Refused A heap dest (view source dest)) ∨
      ∃ after dest', assignAllocatable A heap dest source = .ok (after, dest') ∧
        Assigned heap (view source dest) after dest' := by
  rw [assignAllocatable_eq hp hsane, hsnapshot]
  change ((prepareStorage A source dest mid >>= _) = _ ∧ _) ∨
    ∃ after dest', (prepareStorage A source dest mid >>= _) = _ ∧ _
  rcases prepare_spec hok howns hp hsane hsize hmid hsub hsnapshot with
    ⟨hprep, hoom⟩ | ⟨after, dest', hprep, hready, hview⟩
  · rw [hprep]
    exact .inl ⟨rfl, hoom⟩
  · rw [hprep]
    exact .inr (hfinish after dest' hready hview)

end Snapshot

theorem assign_of_sane :
    (assignAllocatable A heap dest source = .error .outOfMemory ∧ Refused A heap dest (view source dest)) ∨
      ∃ after dest', assignAllocatable A heap dest source = .ok (after, dest') ∧
        Assigned heap (view source dest) after dest' := by
  obtain ⟨n, hn⟩ := Int.eq_ofNat_of_zero_le hp.elemSize
  rcases @takeSnapshot_spec A heap dest _ n hok hp hn with
    ⟨hsnap, hoom⟩ | ⟨hsnap, hinto⟩ | ⟨buf, mid, hsnap, hinto, hbytes, hs⟩
  · rw [assignAllocatable_eq hp hsane, hsnap]
    exact .inl ⟨rfl, hoom⟩
  · exact assign_of_prepared hok howns hp hsane hsize hok (fun _ h => h) hsnap
      fun _ _ => finish_direct hok howns hp hinto
  · exact assign_of_prepared hok howns hp hsane hsize hs.heap (fun b hb => hs.blocks ▸ .tail _ hb) hsnap
      fun _ _ => finish_snapshot hok howns hp hn hbytes hs

end Sane

end

def top : List HeapBlock → Int
  | [] => 1
  | b :: bs => max (b.start + max b.size 1) (top bs)

theorem top_pos (bs : List HeapBlock) : 0 < top bs := by
  induction bs with
  | nil => decide
  | cons b bs ih => exact lt_max_of_lt_right ih

theorem le_top {bs : List HeapBlock} {b : HeapBlock} (h : b ∈ bs) : b.start + max b.size 1 ≤ top bs := by
  induction bs with
  | nil => cases h
  | cons c bs ih =>
    rcases mem_cons.mp h with rfl | h
    · exact le_max_left _ _
    · exact le_max_of_le_right (ih h)

/-- An allocator that never reuses an address. -/
def bump : Allocator where
  malloc heap n := if top heap.blocks + n ≤ BlockHeap.addressLimit then some (top heap.blocks, fun _ => 0) else none
  fresh := by
    intro heap n p fill _ h
    split at h
    · rename_i hle
      cases h
      exact ⟨top_pos _, hle, fun b hb => .inr (le_top hb)⟩
    · cases h

def twoByThree : ArrayDescriptor where
  baseAddr := 100
  elemSize := 1
  flags := 3
  dims := [⟨1, 2, 1⟩, ⟨1, 3, 2⟩]
  scalarTag := 0
  vtable := 0

def itsTranspose : ArrayDescriptor := { twoByThree with flags := 0, dims := [⟨1, 3, 2⟩, ⟨1, 2, 1⟩] }

def sixBytes : BlockHeap where
  blocks := [⟨100, 6⟩]
  bytes a := UInt8.ofNat (a - 100).toNat

theorem itsTranspose_present : itsTranspose.Present sixBytes where
  rank := by decide
  elemSize := by decide
  bounded := ⟨by decide, by decide, by decide⟩
  given := .inr (.inl (by decide))
  stored _ := ⟨⟨100, 6⟩, mem_cons_self, by decide⟩
  distinct := by
    rintro is js (_ | ⟨hi, _ | ⟨hi', _ | _⟩⟩) (_ | ⟨hj, _ | ⟨hj', _ | _⟩⟩) h
    rename_i i i' j j'
    simp only [itsTranspose, strides, map_cons, map_nil, offset] at h
    change i < 3 at hi
    change i' < 2 at hi'
    change j < 3 at hj
    change j' < 2 at hj'
    have hpair : i = j ∧ i' = j' := by omega
    rw [hpair.1, hpair.2]

end Armfortas.Runtime.Arrays
