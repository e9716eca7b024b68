import Mathlib.Data.List.Flatten
import Armfortas.Runtime.Lemmas.Loops

/-! All members of the team together get the values of the sequential loop. With one thread, chunks of one and more
than `2^63` iterations, the chunk index is too narrow for a chunked schedule. -/
namespace Armfortas.Runtime.Openmp
open Lib List Int64

def threads (teamSize : Int32) : List Int32 := (List.range teamSize.toInt.toNat).map .ofNat

def chunkIndices (n : Nat) : List Int64 := (List.range n).map .ofNat

/-- Calls of the members of one team, in the order in which they take the lock. -/
def dynamicRun (lower upper step chunkSize : Int64) : DynamicWorkspace → List Int32 → List (Int32 × Bounds)
  | _, [] => []
  | workspace, caller :: callers =>
      (caller, (dynamicBounds lower upper step chunkSize workspace).1) ::
        dynamicRun lower upper step chunkSize (dynamicBounds lower upper step chunkSize workspace).2 callers

/-- What the three schedules promise: the values of the loop, each once and in the order of the loop, and no call writes
anything else. -/
structure Schedules (lower upper step chunkSize : Int64) (teamSize : Int32) : Prop where
  static : ((threads teamSize).flatMap fun t => (staticBounds lower upper step t teamSize).values step.toInt) =
    fortranLoop lower.toInt upper.toInt step.toInt
  staticWrites : ∀ t ∈ threads teamSize,
    (staticBounds lower upper step t teamSize).Writes (fortranLoop lower.toInt upper.toInt step.toInt)
  chunked : ((chunkIndices (2 ^ 63)).flatMap fun k => (threads teamSize).flatMap fun t =>
      (staticChunkBounds lower upper step chunkSize t teamSize k).values step.toInt) =
    fortranLoop lower.toInt upper.toInt step.toInt
  chunkedOrder : ∀ t ∈ threads teamSize, List.Sublist
    ((chunkIndices (2 ^ 63)).flatMap fun k => (staticChunkBounds lower upper step chunkSize t teamSize k).values step.toInt)
    (fortranLoop lower.toInt upper.toInt step.toInt)
  chunkedWrites : ∀ t ∈ threads teamSize, ∀ k, 0 ≤ k →
    (staticChunkBounds lower upper step chunkSize t teamSize k).Writes (fortranLoop lower.toInt upper.toInt step.toInt)
  dynamic : ∀ callers, (∃ r ∈ dynamicRun lower upper step chunkSize { } callers, r.2 = .empty) →
    ((dynamicRun lower upper step chunkSize { } callers).flatMap fun r => r.2.values step.toInt) =
      fortranLoop lower.toInt upper.toInt step.toInt
  dynamicOrder : ∀ callers t, List.Sublist
    (((dynamicRun lower upper step chunkSize { } callers).filter fun r => r.1 == t).flatMap fun r => r.2.values step.toInt)
    (fortranLoop lower.toInt upper.toInt step.toInt)
  dynamicWrites : ∀ callers, ∀ r ∈ dynamicRun lower upper step chunkSize { } callers,
    r.2.Writes (fortranLoop lower.toInt upper.toInt step.toInt)
  dynamicEnds : ∀ callers, tripCount lower.toInt upper.toInt step.toInt < callers.length →
    ∃ r ∈ dynamicRun lower upper step chunkSize { } callers, r.2 = .empty

/-! ## Chunks -/

theorem sum_chunks (count c g : Nat) : ((List.range g).map fun j => min c (count - j * c)).sum = min (g * c) count := by
  induction g with
  | zero => simp
  | succ g ih =>
    rw [range_succ, map_append, sum_append, ih, map_singleton, sum_singleton, Nat.succ_mul]
    omega

theorem flatMap_chunks (first step : Int) (count c n : Nat) :
    ((List.range n).flatMap fun g => progression (first + (g * c : Nat) * step) step (min c (count - g * c))) =
      progression first step (min (n * c) count) := by
  rw [← sum_chunks, ← flatMap_progression]
  refine flatMap_congr fun g _ => ?_
  rw [sum_chunks]
  rcases Nat.lt_or_ge (g * c) count with hlt | hge
  · rw [min_eq_left hlt.le]
  · rw [Nat.sub_eq_zero_of_le hge, Nat.min_zero]
    rfl

/-! ## The three schedules -/

section Team

variable {lower upper step : Int64} (hstep : step ≠ 0) {teamSize : Int32} (hteam : 0 < teamSize)

theorem thread_toInt {t : Nat} (ht : t < teamSize.toInt.toNat) : (Int32.ofNat t).toInt = t :=
  Int32.toInt_ofNat_of_lt (by have := teamSize.toInt_lt; omega)

include hteam

theorem teamSize_toInt : teamSize.toInt = teamSize.toInt.toNat ∧ 0 < teamSize.toInt.toNat := by
  have h := Int32.lt_iff_toInt_lt.mp hteam
  rw [Int32.toInt_zero] at h
  omega

include hstep

theorem static_cover :
    ((threads teamSize).flatMap fun t => (staticBounds lower upper step t teamSize).values step.toInt) =
      fortranLoop lower.toInt upper.toInt step.toInt := by
  obtain ⟨hm, hpos⟩ := teamSize_toInt hteam
  have hthread : ∀ t ∈ List.range teamSize.toInt.toNat,
      (staticBounds lower upper step (.ofNat t) teamSize).values step.toInt = _ := fun t ht =>
    (staticBounds_hands hstep (thread_toInt (mem_range.mp ht)) hm (mem_range.mp ht)).values (step_toInt_ne hstep)
  rw [threads, flatMap_map, flatMap_congr hthread]
  simp only [← sum_share]
  rw [flatMap_progression, sum_share, shareStart_self hpos, fortranLoop]

theorem chunked_cover {chunkSize : Int64} {c : Nat} (hc : chunkSize.toInt = c) (hpos : 0 < c) {n : Nat} (hn : n ≤ 2 ^ 63) :
    ((chunkIndices n).flatMap fun k => (threads teamSize).flatMap fun t =>
      (staticChunkBounds lower upper step chunkSize t teamSize k).values step.toInt) =
      progression lower.toInt step.toInt
        (min (n * teamSize.toInt.toNat * c) (tripCount lower.toInt upper.toInt step.toInt)) := by
  obtain ⟨hm, -⟩ := teamSize_toInt hteam
  let piece : Nat → List Int := fun g => progression (lower.toInt + (g * c : Nat) * step.toInt) step.toInt
    (min c (tripCount lower.toInt upper.toInt step.toInt - g * c))
  have hrows : ((chunkIndices n).flatMap fun k => (threads teamSize).flatMap fun t =>
      (staticChunkBounds lower upper step chunkSize t teamSize k).values step.toInt) =
      (List.range n).flatMap fun k => (List.range teamSize.toInt.toNat).flatMap fun t =>
        piece (t + k * teamSize.toInt.toNat) := by
    simp only [chunkIndices, threads, flatMap_map]
    refine flatMap_congr fun k hk => flatMap_congr fun t ht => ?_
    exact (staticChunkBounds_hands hstep hc (toInt_ofNat_of_lt ((mem_range.mp hk).trans_le hn))
      (thread_toInt (mem_range.mp ht)) hm hpos (mem_range.mp ht)).values (step_toInt_ne hstep)
  rw [hrows, ← flatMap_range_mul piece, flatMap_chunks]

end Team

section Dynamic

variable {lower upper step : Int64} (hstep : step ≠ 0) {chunkSize : Int64} {c : Nat} (hc : chunkSize.toInt = c)
  (hpos : 0 < c)

include hstep hc hpos

theorem dynamicRun_values (callers : List Int32) (i : Nat) :
    ((dynamicRun lower upper step chunkSize { nextIndex := i } callers).flatMap fun r => r.2.values step.toInt) =
      progression (lower.toInt + i * step.toInt) step.toInt
        (min (callers.length * c) (tripCount lower.toInt upper.toInt step.toInt - i)) := by
  induction callers generalizing i with
  | nil => simp [dynamicRun]
  | cons caller callers ih =>
    obtain ⟨hend, hnext⟩ := @dynamicBounds_spec lower upper step hstep chunkSize c i hc hpos
    rw [dynamicRun, flatMap_cons, length_cons, Nat.succ_mul]
    rcases Nat.lt_or_ge i (tripCount lower.toInt upper.toInt step.toInt) with hlt | hge
    · obtain ⟨b, hb, -, hhands⟩ := hnext hlt
      rw [hb, hhands.values (step_toInt_ne hstep), ih]
      generalize tripCount lower.toInt upper.toInt step.toInt = count at *
      have hlen : min (callers.length * c + c) (count - i) =
          min c (count - i) + min (callers.length * c) (count - (i + min c (count - i))) := by omega
      rw [hlen, progression_add, Nat.cast_add, Int.add_mul, Int.add_assoc]
    · rw [hend hge, ih, Nat.sub_eq_zero_of_le hge, Nat.min_zero, Nat.min_zero]
      rfl

theorem dynamicRun_writes (callers : List Int32) (i : Nat) :
    ∀ r ∈ dynamicRun lower upper step chunkSize { nextIndex := i } callers,
      r.2.Writes (fortranLoop lower.toInt upper.toInt step.toInt) := by
  induction callers generalizing i with
  | nil => exact fun r hr => nomatch hr
  | cons caller callers ih =>
    obtain ⟨hend, hnext⟩ := @dynamicBounds_spec lower upper step hstep chunkSize c i hc hpos
    rw [dynamicRun]
    intro r hr
    rcases Nat.lt_or_ge i (tripCount lower.toInt upper.toInt step.toInt) with hlt | hge
    · obtain ⟨b, hb, -, hhands⟩ := hnext hlt
      rw [hb] at hr
      rcases mem_cons.mp hr with rfl | hr
      · exact hhands.writes fun _ => by omega
      · exact ih _ r hr
    · rw [hend hge] at hr
      rcases mem_cons.mp hr with rfl | hr
      · trivial
      · exact ih i r hr

theorem exists_empty (callers : List Int32) (i : Nat)
    (h : tripCount lower.toInt upper.toInt step.toInt - i < callers.length) :
    ∃ r ∈ dynamicRun lower upper step chunkSize { nextIndex := i } callers, r.2 = .empty := by
  induction callers generalizing i with
  | nil => exact absurd h (Nat.not_lt_zero _)
  | cons caller callers ih =>
    obtain ⟨hend, hnext⟩ := @dynamicBounds_spec lower upper step hstep chunkSize c i hc hpos
    rw [dynamicRun]
    rcases Nat.lt_or_ge i (tripCount lower.toInt upper.toInt step.toInt) with hlt | hge
    · obtain ⟨b, hb, -, -⟩ := hnext hlt
      rw [hb]
      rw [length_cons] at h
      obtain ⟨r, hr, he⟩ := ih (i + min c (tripCount lower.toInt upper.toInt step.toInt - i)) (by omega)
      exact ⟨r, .tail _ hr, he⟩
    · rw [hend hge]
      exact ⟨_, mem_cons_self, rfl⟩

theorem le_of_empty (callers : List Int32) (i : Nat)
    (h : ∃ r ∈ dynamicRun lower upper step chunkSize { nextIndex := i } callers, r.2 = .empty) :
    tripCount lower.toInt upper.toInt step.toInt - i ≤ callers.length * c := by
  induction callers generalizing i with
  | nil =>
    obtain ⟨r, hr, -⟩ := h
    cases hr
  | cons caller callers ih =>
    obtain ⟨-, hnext⟩ := @dynamicBounds_spec lower upper step hstep chunkSize c i hc hpos
    rw [length_cons, Nat.succ_mul]
    rcases Nat.lt_or_ge i (tripCount lower.toInt upper.toInt step.toInt) with hlt | hge
    · obtain ⟨b, hb, hne, -⟩ := hnext hlt
      obtain ⟨r, hr, he⟩ := h
      rw [dynamicRun, hb] at hr
      rcases mem_cons.mp hr with rfl | hr
      · exact absurd he hne
      · have := ih (i + min c (tripCount lower.toInt upper.toInt step.toInt - i)) ⟨r, hr, he⟩
        omega
    · omega

end Dynamic

/-! ## What they promise together -/

section Promise

variable {lower upper step chunkSize : Int64} {teamSize : Int32} (hstep : step ≠ 0) (hteam : 0 < teamSize)
  (hchunk : 0 < chunkSize)

include hchunk

theorem chunkSize_toInt : chunkSize.toInt = chunkSize.toInt.toNat ∧ 0 < chunkSize.toInt.toNat := by
  have h := lt_iff_toInt_lt.mp hchunk
  rw [toInt_zero] at h
  omega

include hstep hteam

theorem chunked_iff :
    ((chunkIndices (2 ^ 63)).flatMap fun k => (threads teamSize).flatMap fun t =>
      (staticChunkBounds lower upper step chunkSize t teamSize k).values step.toInt) =
      fortranLoop lower.toInt upper.toInt step.toInt ↔
    ¬ (teamSize = 1 ∧ chunkSize = 1 ∧ 2 ^ 63 < tripCount lower.toInt upper.toInt step.toInt) := by
  obtain ⟨hc, hpos⟩ := chunkSize_toInt hchunk
  obtain ⟨hm, hmpos⟩ := teamSize_toInt hteam
  have hcount : tripCount lower.toInt upper.toInt step.toInt ≤ 2 ^ 64 := count_le hstep
  have hteam1 : teamSize = 1 ↔ teamSize.toInt.toNat = 1 := by
    rw [← Int32.toInt_inj, Int32.toInt_one]
    omega
  have hchunk1 : chunkSize = 1 ↔ chunkSize.toInt.toNat = 1 := by
    rw [← toInt_inj, toInt_one]
    omega
  rw [chunked_cover hstep hteam hc hpos le_rfl, fortranLoop, hteam1, hchunk1]
  generalize tripCount lower.toInt upper.toInt step.toInt = count at *
  generalize teamSize.toInt.toNat = m at *
  generalize chunkSize.toInt.toNat = c at *
  constructor
  · rintro heq ⟨rfl, rfl, hlt⟩
    have := congrArg List.length heq
    rw [length_progression, length_progression] at this
    omega
  · intro hcond
    rw [min_eq_right]
    by_cases hone : m = 1 ∧ c = 1
    · obtain ⟨rfl, rfl⟩ := hone
      omega
    · have hmc : 2 ≤ m * c := by
        rcases Nat.lt_or_ge 1 m with h | h
        · exact Nat.mul_le_mul (show 2 ≤ m from h) hpos
        · have : 2 ≤ c := by omega
          exact Nat.mul_le_mul hmpos this
      rw [Nat.mul_assoc]
      omega

theorem schedules_of_chunked
    (h : ((chunkIndices (2 ^ 63)).flatMap fun k => (threads teamSize).flatMap fun t =>
      (staticChunkBounds lower upper step chunkSize t teamSize k).values step.toInt) =
      fortranLoop lower.toInt upper.toInt step.toInt) : Schedules lower upper step chunkSize teamSize := by
  obtain ⟨hc, hpos⟩ := chunkSize_toInt hchunk
  have hrun : ∀ callers, ((dynamicRun lower upper step chunkSize { } callers).flatMap fun r => r.2.values step.toInt) =
      progression lower.toInt step.toInt
        (min (callers.length * chunkSize.toInt.toNat) (tripCount lower.toInt upper.toInt step.toInt)) := by
    intro callers
    have := @dynamicRun_values lower upper step hstep chunkSize _ hc hpos callers 0
    simpa using this
  constructor
  case static => exact static_cover hstep hteam
  case staticWrites =>
    intro t ht
    obtain ⟨k, hk, rfl⟩ := mem_map.mp ht
    have hlt := mem_range.mp hk
    exact (staticBounds_hands hstep (thread_toInt hlt) (teamSize_toInt hteam).1 hlt).writes fun _ =>
      shareStart_add_share_le hlt
  case chunked => exact h
  case chunkedWrites =>
    intro t ht k hk
    obtain ⟨j, hj, rfl⟩ := mem_map.mp ht
    have hlt := mem_range.mp hj
    have hk' : k.toInt = k.toInt.toNat := by
      have := le_iff_toInt_le.mp hk
      rw [toInt_zero] at this
      omega
    exact (staticChunkBounds_hands hstep hc hk' (thread_toInt hlt) (teamSize_toInt hteam).1 hpos hlt).writes fun _ => by
      omega
  case chunkedOrder =>
    intro t ht
    rw [← h]
    refine List.Sublist.flatMap_right _ fun k _ => ?_
    have := (singleton_sublist.mpr ht).flatMap fun t =>
      (staticChunkBounds lower upper step chunkSize t teamSize k).values step.toInt
    rwa [flatMap_singleton] at this
  case dynamic =>
    intro callers hempty
    have := le_of_empty hstep hc hpos callers 0 hempty
    rw [hrun, min_eq_right (by omega), fortranLoop]
  case dynamicOrder =>
    intro callers t
    refine (filter_sublist.flatMap _).trans ?_
    rw [hrun, ← take_progression, fortranLoop]
    exact take_sublist _ _
  case dynamicWrites => exact fun callers => dynamicRun_writes hstep hc hpos callers 0
  case dynamicEnds => exact fun callers hlen => exists_empty hstep hc hpos callers 0 (by omega)

/-- The schedules cover the loop, unless one thread takes more than `2^63` iterations one by one. -/
theorem schedules_iff : Schedules lower upper step chunkSize teamSize ↔
    ¬ (teamSize = 1 ∧ chunkSize = 1 ∧ 2 ^ 63 < tripCount lower.toInt upper.toInt step.toInt) := by
  rw [← chunked_iff hstep hteam hchunk]
  exact ⟨fun h => h.chunked, schedules_of_chunked hstep hteam hchunk⟩

end Promise

theorem schedules_iff_tenByThree : Schedules 1 10 3 2 4 :=
  (schedules_iff (by decide) (by decide) (by decide)).mpr (by decide)

/-- Of a loop over all of `i64`, one thread with chunks of one never gets the second half. -/
theorem schedules_wholeRange : ¬ Schedules minValue maxValue 1 1 1 := fun h =>
  (chunked_iff (by decide) (by decide) (by decide)).mp h.chunked ⟨rfl, rfl, by decide +kernel⟩

end Armfortas.Runtime.Openmp
