import Armfortas.Runtime.Lemmas.Format

/-! What a run of the engine takes. How many values that are can be seen in the format, as can whether the run comes to
an unlimited repeat in which none is taken. -/
namespace Armfortas.Runtime.Format
open List

variable {formatValueText : ValueText}

/-! ## What is applied is what is taken -/

/-- The second state comes after the first: what has been applied in between are the values taken. -/
def FormatState.Before (st st' : FormatState) : Prop :=
  ∃ log, st'.applied = st.applied ++ log ∧ st.values = log.map Prod.snd ++ st'.values

namespace FormatState.Before

theorem refl (st : FormatState) : st.Before st := ⟨[], by simp, rfl⟩

theorem trans {a b c : FormatState} (hab : a.Before b) (hbc : b.Before c) : a.Before c := by
  obtain ⟨log, happ, hval⟩ := hab
  obtain ⟨log', happ', hval'⟩ := hbc
  exact ⟨log ++ log', by rw [happ', happ, append_assoc],
    by rw [hval, hval', map_append, append_assoc]⟩

variable {a b : FormatState}

theorem length (h : a.Before b) :
    b.applied.length + b.values.length = a.applied.length + a.values.length := by
  obtain ⟨log, happ, hval⟩ := h
  rw [happ, hval, length_append, length_append, length_map]
  omega

theorem values_le (h : a.Before b) : b.values.length ≤ a.values.length := by
  obtain ⟨log, -, hval⟩ := h
  rw [hval, length_append]
  exact Nat.le_add_left _ _

theorem applied_eq (h : a.Before b) (hlen : b.values.length = a.values.length) : b.applied = a.applied := by
  obtain ⟨log, happ, hval⟩ := h
  rw [hval, length_append, length_map] at hlen
  obtain rfl : log = [] := length_eq_zero_iff.mp (by omega)
  rw [happ, append_nil]

theorem applied_eq_of_nil (h : a.Before b) (hnil : a.values = []) : b.applied = a.applied := by
  refine h.applied_eq ?_
  have hle := h.values_le
  rw [hnil] at hle ⊢
  exact Nat.le_antisymm hle (Nat.zero_le _)

end FormatState.Before

def Forward (run : FormatRun) : Prop := ∀ ⦃st st'⦄, run st = .ok st' → st.Before st'

theorem Forward.repeatRun {run : FormatRun} (h : Forward run) (n) :
    Forward (repeatRun run n) := by
  intro st st' hrun
  induction n generalizing st with
  | zero =>
    cases hrun
    exact .refl _
  | succ n ih =>
    obtain ⟨st₁, hfirst, hrest⟩ := bind_eq_ok hrun
    exact (h hfirst).trans (ih hrest)

theorem whileValues_values {run : FormatRun} {fuel st st'} (h : whileValues run fuel st = .ok st') : st'.values = [] :=
  whileValues_induct h (P := fun _ => st'.values = []) id fun _ _ hnil => hnil

theorem Forward.whileValues {run : FormatRun} (h : Forward run) (fuel) : Forward (whileValues run fuel) :=
  fun _ st' hrun => whileValues_induct hrun (P := (·.Before st')) (fun _ => .refl st')
    fun _ hfirst hrest => (h hfirst).trans hrest

def Control.state : Control → FormatState
  | proceed st | stop st => st

def Control.stops : Control → Bool
  | proceed _ => false
  | stop _ => true

mutual

theorem applyDescriptor_before : (desc : FormatDesc) → {st : FormatState} → {c : Control} →
    applyDescriptor formatValueText desc st = .ok c → st.Before c.state ∧ (c.stops = true → st.values = [])
  | .control desc, st, c, h => by
      rw [applyDescriptor] at h
      obtain ⟨st₁, happly, rfl⟩ := map_eq_ok h
      obtain ⟨hvalues, happlied⟩ := desc.apply_keeps happly
      exact ⟨⟨[], by simp [Control.state, happlied], hvalues.symm⟩, nofun⟩
  | .colon, st, c, h => by
      rw [applyDescriptor] at h
      cases h
      split
      · exact ⟨.refl st, fun _ => List.isEmpty_iff.mp ‹_›⟩
      · exact ⟨.refl st, nofun⟩
  | .derivedType _ _, st, c, h => by
      rw [applyDescriptor] at h
      split at h
      · cases h
        exact ⟨.refl st, nofun⟩
      · cases h
  | .group count descriptors _, st, c, h => by
      rw [applyDescriptor] at h
      obtain ⟨st₁, hrun, rfl⟩ := map_eq_ok h
      exact ⟨(applyDescriptors_before descriptors).repeatRun count hrun, nofun⟩
  | .unlimitedRepeat descriptors, st, c, h => by
      rw [applyDescriptor] at h
      obtain ⟨st₁, hrun, rfl⟩ := map_eq_ok h
      exact ⟨(applyDescriptors_before descriptors).whileValues _ hrun, nofun⟩
  | .data desc, st, c, h => by
      rw [applyDescriptor] at h
      split at h
      · next hnil =>
        cases h
        exact ⟨.refl st, fun _ => hnil⟩
      · next val rest hcons =>
        obtain ⟨st₁, hconsume, rfl⟩ := map_eq_ok h
        obtain ⟨hvalues, happlied⟩ := consume_takes hconsume
        exact ⟨⟨[(desc, val)], happlied, by rw [hcons, Control.state, hvalues]; rfl⟩, nofun⟩

theorem applyDescriptors_before : (descs : List FormatDesc) → Forward (applyDescriptors formatValueText descs)
  | [], st, st', h => by
      rw [applyDescriptors] at h
      cases h
      exact .refl st
  | desc :: descs, st, st', h => by
      rw [applyDescriptors] at h
      obtain ⟨c, hfirst, hrest⟩ := bind_eq_ok h
      have hbefore := (applyDescriptor_before desc hfirst).1
      cases c with
      | stop st₁ =>
        cases hrest
        exact hbefore
      | proceed st₁ => exact hbefore.trans (applyDescriptors_before descs hrest)

end

/-- With values left, no list is left before its end. -/
theorem proceeds_of_values {desc} {st : FormatState} {c : Control} (h : applyDescriptor formatValueText desc st = .ok c)
    (hne : st.values ≠ []) : ∃ st₁, c = .proceed st₁ := by
  cases c with
  | proceed st₁ => exact ⟨st₁, rfl⟩
  | stop st₁ => exact absurd ((applyDescriptor_before desc h).2 rfl) hne

/-! ## The course of format control -/

/-- What format control does with the values that are there. -/
inductive Course where
  /-- It takes so many of them, as far as there are. -/
  | passes (n : Nat)
  /-- Nothing behind is come to while a value is left. -/
  | ends
  /-- After so many values it comes to an unlimited repeat in which none is taken. -/
  | stuck (after : Nat)
  deriving DecidableEq

namespace Course

def andThen : Course → Course → Course
  | passes n, passes m => passes (n + m)
  | passes _, ends => ends
  | passes n, stuck m => stuck (n + m)
  | ends, _ => ends
  | stuck m, _ => stuck m

def repeated (c : Course) : Nat → Course
  | 0 => passes 0
  | n + 1 => c.andThen (c.repeated n)

def unlimited : Course → Course
  | passes 0 => stuck 0
  | passes (_ + 1) | ends => ends
  | stuck m => stuck m

end Course

mutual

def FormatDesc.course : FormatDesc → Course
  | .data _ => .passes 1
  -- an error, unless there is no value
  | .derivedType _ _ => .ends
  | .control _ | .colon => .passes 0
  | .group count descriptors _ => (courseList descriptors).repeated count
  | .unlimitedRepeat descriptors => (courseList descriptors).unlimited

def courseList : List FormatDesc → Course
  | [] => .passes 0
  | desc :: descs => desc.course.andThen (courseList descs)

end

namespace Course

def left : Course → Nat → Nat
  | passes n, k => k - n
  | ends, _ | stuck _, _ => 0

/-- With `k` values the repeat is not come to while one is left. -/
def Clear (k : Nat) (c : Course) : Prop := ∀ m, c = stuck m → k ≤ m

theorem left_le (c : Course) (k) : c.left k ≤ k := by
  cases c with
  | passes n => exact Nat.sub_le k n
  | ends | stuck m => exact Nat.zero_le k

theorem left_andThen (c c' : Course) (k) : (c.andThen c').left k = c'.left (c.left k) := by
  cases c <;> cases c' <;> simp [andThen, left, Nat.sub_sub]

theorem left_unlimited (c : Course) (k) : c.unlimited.left k = 0 := by
  match c with
  | passes 0 | passes (_ + 1) | ends | stuck m => rfl

theorem left_lt {c : Course} {k} (hc : c ≠ passes 0) (hk : k ≠ 0) : c.left k < k := by
  match c with
  | passes 0 => exact absurd rfl hc
  | passes (n + 1) =>
    rw [left]
    omega
  | ends | stuck m => exact Nat.pos_of_ne_zero hk

theorem clear_andThen {c c' : Course} {k} : (c.andThen c').Clear k ↔ c.Clear k ∧ c'.Clear (c.left k) := by
  cases c <;> cases c' <;> simp [andThen, left, Clear, Nat.add_comm]

theorem clear_unlimited {c : Course} {k} : c.unlimited.Clear k ↔ c.Clear k ∧ (c = passes 0 → k = 0) := by
  match c with
  | passes 0 | passes (_ + 1) | ends | stuck m => simp [unlimited, Clear]

theorem Clear.le {c : Course} {k k'} (h : c.Clear k) (hle : k' ≤ k) : c.Clear k' := fun m hm => Nat.le_trans hle (h m hm)

theorem passes_of_left {c : Course} {k} (h : c.left k ≠ 0) : ∃ n, c = passes n := by
  cases c with
  | passes n => exact ⟨n, rfl⟩
  | ends | stuck m => exact absurd rfl h

theorem passes_of_andThen {c c' : Course} {n} (h : c.andThen c' = passes n) : ∃ m, c' = passes m := by
  cases c <;> cases c' <;> simp_all [andThen]

/-- No value is taken. -/
def Idle (c : Course) : Prop := c = passes 0 ∨ c = stuck 0

theorem Idle.left {c : Course} (h : c.Idle) {k} (hclear : c.Clear k) : c.left k = k := by
  rcases h with rfl | rfl
  · rfl
  · exact (Nat.le_zero.mp (hclear 0 rfl)).symm

theorem Idle.andThen {c c' : Course} (h : c.Idle) (h' : c'.Idle) : (c.andThen c').Idle := by
  rcases h with rfl | rfl
  · rcases h' with rfl | rfl
    · exact .inl rfl
    · exact .inr rfl
  · exact .inr rfl

theorem Idle.repeated {c : Course} (h : c.Idle) (n) : (c.repeated n).Idle := by
  induction n with
  | zero => exact .inl rfl
  | succ n ih => exact h.andThen ih

end Course

mutual

theorem FormatDesc.idle_course : (desc : FormatDesc) → desc.hasDataDescriptor = false → desc.course.Idle
  | .control _, _ | .colon, _ => .inl rfl
  | .data _, h | .derivedType _ _, h => by cases h
  | .group count descriptors _, h => (idle_courseList descriptors h).repeated count
  | .unlimitedRepeat descriptors, h => by
      rw [FormatDesc.course]
      rcases idle_courseList descriptors h with hc | hc <;> (rw [hc]; exact .inr rfl)

theorem idle_courseList : (descs : List FormatDesc) → formatHasDataDescriptor descs = false → (courseList descs).Idle
  | [], _ => .inl rfl
  | desc :: descs, h => by
      rw [formatHasDataDescriptor, Bool.or_eq_false_iff] at h
      exact (desc.idle_course h.1).andThen (idle_courseList descs h.2)

end

/-! ## What a run leaves -/

/-- A run that comes to an end follows its course. -/
def Meets (c : Course) (run : FormatRun) : Prop :=
  ∀ ⦃st st'⦄, run st = .ok st' → c.Clear st.values.length ∧ st'.values.length = c.left st.values.length

theorem Meets.repeatRun {c run} (h : Meets c run) (n) : Meets (c.repeated n) (repeatRun run n) := by
  intro st st' hrun
  induction n generalizing st with
  | zero =>
    cases hrun
    exact ⟨nofun, rfl⟩
  | succ n ih =>
    obtain ⟨st₁, hfirst, hrest⟩ := bind_eq_ok hrun
    obtain ⟨hclear, hleft⟩ := h hfirst
    obtain ⟨hclear', hleft'⟩ := ih hrest
    rw [Course.repeated, Course.clear_andThen, Course.left_andThen, ← hleft]
    exact ⟨⟨hclear, hclear'⟩, hleft'⟩

theorem Meets.whileValues {c run} (h : Meets c run) (fuel) : Meets c.unlimited (whileValues run fuel) := by
  intro st st' hrun
  refine ⟨?_, by rw [whileValues_values hrun, Course.left_unlimited]; rfl⟩
  refine whileValues_induct hrun (P := fun st => c.unlimited.Clear st.values.length) (fun hnil => ?_)
    fun {st st₁} _ hfirst hrest => ?_
  · rw [hnil]
    exact fun m _ => Nat.zero_le m
  · obtain ⟨hclear, hleft⟩ := h hfirst
    refine Course.clear_unlimited.mpr ⟨hclear, fun hc => ?_⟩
    -- a round that takes no value is not the last one
    have hnone := (Course.clear_unlimited.mp hrest).2 hc
    rw [hleft, hc] at hnone
    exact hnone

mutual

theorem applyDescriptor_meets : (desc : FormatDesc) → {st : FormatState} → {c : Control} →
    applyDescriptor formatValueText desc st = .ok c →
    desc.course.Clear st.values.length ∧ c.state.values.length = desc.course.left st.values.length
  | .control desc, st, c, h => by
      rw [applyDescriptor] at h
      obtain ⟨st₁, happly, rfl⟩ := map_eq_ok h
      exact ⟨nofun, congrArg List.length (desc.apply_keeps happly).1⟩
  | .colon, st, c, h => by
      rw [applyDescriptor] at h
      cases h
      split <;> exact ⟨nofun, rfl⟩
  | .derivedType _ _, st, c, h => by
      rw [applyDescriptor] at h
      split at h
      · next hempty =>
        cases h
        exact ⟨nofun, by rw [Control.state, List.isEmpty_iff.mp hempty]; rfl⟩
      · cases h
  | .group count descriptors _, st, c, h => by
      rw [applyDescriptor] at h
      obtain ⟨st₁, hrun, rfl⟩ := map_eq_ok h
      exact (applyDescriptors_meets descriptors).repeatRun count hrun
  | .unlimitedRepeat descriptors, st, c, h => by
      rw [applyDescriptor] at h
      obtain ⟨st₁, hrun, rfl⟩ := map_eq_ok h
      exact (applyDescriptors_meets descriptors).whileValues _ hrun
  | .data desc, st, c, h => by
      rw [applyDescriptor] at h
      refine ⟨nofun, ?_⟩
      split at h
      · next hnil =>
        cases h
        rw [Control.state, hnil]
        rfl
      · next hcons =>
        obtain ⟨st₁, hconsume, rfl⟩ := map_eq_ok h
        simp [FormatDesc.course, Course.left, Control.state, hcons, (consume_takes hconsume).1]

theorem applyDescriptors_meets : (descs : List FormatDesc) →
    Meets (courseList descs) (applyDescriptors formatValueText descs)
  | [], st, st', h => by
      rw [applyDescriptors] at h
      cases h
      exact ⟨nofun, rfl⟩
  | desc :: descs, st, st', h => by
      rw [applyDescriptors] at h
      obtain ⟨c, hfirst, hrest⟩ := bind_eq_ok h
      cases c with
      | stop st₁ =>
        cases hrest
        obtain ⟨hbefore, hstops⟩ := applyDescriptor_before desc hfirst
        have hle : st'.values.length ≤ st.values.length := hbefore.values_le
        rw [hstops rfl] at hle ⊢
        have hleft := (courseList (desc :: descs)).left_le 0
        refine ⟨fun m _ => Nat.zero_le m, ?_⟩
        rw [length_nil] at hle ⊢
        omega
      | proceed st₁ =>
        obtain ⟨hclear, hleft⟩ := applyDescriptor_meets desc hfirst
        obtain ⟨hclear', hleft'⟩ := applyDescriptors_meets descs hrest
        rw [Control.state] at hleft
        rw [courseList, Course.clear_andThen, Course.left_andThen, ← hleft]
        exact ⟨⟨hclear, hclear'⟩, hleft'⟩

end

end Armfortas.Runtime.Format
