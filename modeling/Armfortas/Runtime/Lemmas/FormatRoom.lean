import Armfortas.Runtime.Lemmas.Items

/-! The engine comes to an end where the course of the format is clear. How far a format can move the position on a
record can be seen in it too: as far as a `Vec` can follow, the engine does not panic. -/
namespace Armfortas.Runtime.Format
open List

/-! ## The reach of a format -/

def ControlDesc.reach : ControlDesc → Nat
  | skip count | tabRight count => count
  | tabTo position => position
  | literalString text => (text.flatMap String.utf8EncodeChar).length
  | _ => 0

section

variable (width : DataDesc → Nat) (count : Nat)

mutual

/-- The most the position moves forward where a data descriptor takes up `width` and there are `count` values. -/
def FormatDesc.reach : FormatDesc → Nat
  | .data desc => width desc
  | .control desc => desc.reach
  | .colon | .derivedType _ _ => 0
  | .group n descriptors _ => n * reachList descriptors
  | .unlimitedRepeat descriptors => count * reachList descriptors

def reachList : List FormatDesc → Nat
  | [] => 0
  | desc :: descs => desc.reach + reachList descs

end

end

variable (formatValueText : ValueText)

/-- The field of a value is no wider than `width`, and its text can be made. -/
def FieldWithin (width : Nat) (modes : FormatModes) (desc : DataDesc) (val : IoValue) : Prop :=
  match desc, val with
  | .realG w _ _, .character bytes | .character (some w), .character bytes => max w bytes.length ≤ width
  | .character none, .character bytes | .charTrimmed, .character bytes => bytes.length ≤ width
  | desc, val =>
      ∃ result, formatValueText modes desc val = some result ∧ ∀ text, result = .ok text → text.length ≤ width

/-- Where the width of a descriptor is one a record can have, it bounds the fields of the values. -/
def Widths (width : DataDesc → Nat) (values : List IoValue) : Prop :=
  ∀ modes desc, ∀ val ∈ values, width desc ≤ isizeMax → FieldWithin formatValueText (width desc) modes desc val

/-! ## Results -/

section

variable {α β : Type}

/-- The engine comes to an end. Where there is room, it does not panic, and what it gives is as it should be. -/
def Returns (room : Prop) (P : α → Prop) : Except FormatFailure α → Prop
  | .ok a => room → P a
  | .error e => e ≠ .diverges ∧ (room → e ≠ .panics)

variable {room room' : Prop} {P : α → Prop} {x : Except FormatFailure α}

theorem Returns.mono {Q} (h : Returns room P x) (hroom : room' → room) (hgood : room' → ∀ a, P a → Q a) :
    Returns room' Q x := by
  cases x with
  | ok a => exact fun hr => hgood hr a (h (hroom hr))
  | error e => exact ⟨h.1, fun hr => h.2 (hroom hr)⟩

theorem Returns.map {Q : β → Prop} {f : α → β} (h : Returns room P x) (hf : ∀ a, P a → Q (f a)) :
    Returns room Q (x.map f) := by
  cases x with
  | ok a => exact fun hr => hf a (h hr)
  | error e => exact h

theorem Returns.bind {Q : β → Prop} {f : α → Except FormatFailure β} (h : Returns room P x)
    (hroom : room' → room) (hf : ∀ a, x = .ok a → Returns (room' ∧ P a) Q (f a)) : Returns room' Q (x.bind f) := by
  cases x with
  | ok a => exact (hf a rfl).mono (fun hr => ⟨hr, h (hroom hr)⟩) fun _ _ hb => hb
  | error e => exact ⟨h.1, fun hr => h.2 (hroom hr)⟩

end

/-! ## Records -/

/-- The position moves on by at most `n`, which there has to be room for. -/
def FormatOutput.Within (o : FormatOutput) (n : Nat) : Except FormatFailure FormatOutput → Prop :=
  Returns (o.pos + n ≤ isizeMax) (·.pos ≤ o.pos + n)

namespace FormatOutput

theorem Within.mono {o : FormatOutput} {m n r} (h : o.Within m r) (hle : m ≤ n) : o.Within n r :=
  Returns.mono h (fun hroom => by omega) fun _ o' ho => by omega

theorem grown_within {o : FormatOutput} {count f} (hf : ∀ record, (f record).pos = saturatingAdd o.pos count) :
    o.Within count ((o.grown (saturatingAdd o.pos count)).map f) := by
  have hle : saturatingAdd o.pos count ≤ o.pos + count := Nat.min_le_left _ _
  rw [grown]
  split
  · next hbig => exact ⟨by simp, fun hroom => absurd hbig.2 (by omega)⟩
  · exact fun _ => (hf _).trans_le hle

theorem write_within (o : FormatOutput) (bytes) : o.Within bytes.length (o.write bytes) := by
  unfold write
  split
  · exact fun _ => Nat.le_add_right _ _
  · exact grown_within fun _ => rfl

theorem writeSpaces_within (o : FormatOutput) (count) : o.Within count (o.writeSpaces count) := by
  unfold writeSpaces
  split
  · exact fun _ => Nat.le_add_right _ _
  · exact grown_within fun _ => rfl

theorem writeFitted_within (o : FormatOutput) (bytes width) :
    o.Within (max width bytes.length) (o.writeFitted bytes width) := by
  unfold writeFitted
  split
  · exact (o.write_within bytes).mono (Nat.le_max_right _ _)
  · split
    · refine Returns.bind (o.writeSpaces_within _) (fun hroom => by omega) fun o' _ => ?_
      refine Returns.mono (o'.write_within bytes) (fun hroom => ?_) fun hroom o'' ho => ?_
      all_goals
        have := hroom.2
        omega
    · refine (o.write_within _).mono ?_
      rw [length_take]
      omega

end FormatOutput

variable {formatValueText}

theorem writeValue_within {width modes output desc val} :
    Returns (FieldWithin formatValueText width modes desc val ∧ output.pos + width ≤ isizeMax)
      (·.pos ≤ output.pos + width) (writeValue formatValueText modes output desc val) := by
  have hwithin : ∀ {n r}, output.Within n r → (FieldWithin formatValueText width modes desc val → n ≤ width) →
      Returns (FieldWithin formatValueText width modes desc val ∧ output.pos + width ≤ isizeMax)
        (·.pos ≤ output.pos + width) r := fun h hle =>
    Returns.mono h (fun hroom => by have := hle hroom.1; omega) fun hroom o ho => by have := hle hroom.1; omega
  unfold writeValue
  split
  · exact hwithin (output.writeFitted_within _ _) id
  · exact hwithin (output.writeFitted_within _ _) id
  · exact hwithin (output.write_within _) id
  · next bytes =>
    refine hwithin (output.write_within _) fun hle => ?_
    have htrim := (bytes.reverse.dropWhile_suffix (· == 32)).length_le
    rw [length_reverse] at htrim ⊢
    exact htrim.trans hle
  · next hreal hchar hplain htrimmed =>
    have htext : FieldWithin formatValueText width modes desc val →
        ∃ result, formatValueText modes desc val = some result ∧ ∀ text, result = .ok text → text.length ≤ width := by
      unfold FieldWithin
      split
      · exact (hreal _ _ _ _ rfl rfl).elim
      · exact (hchar _ _ rfl rfl).elim
      · exact (hplain _ rfl rfl).elim
      · exact (htrimmed _ rfl rfl).elim
      · exact id
    split
    · next hnone =>
      refine ⟨by simp, fun hroom => ?_⟩
      obtain ⟨result, hsome, -⟩ := htext hroom.1
      rw [hnone] at hsome
      cases hsome
    · exact ⟨by simp, by simp⟩
    · next text hok =>
      refine hwithin (output.write_within text) fun hfield => ?_
      obtain ⟨result, hsome, hlength⟩ := htext hfield
      rw [hok] at hsome
      exact hlength text (Option.some.inj hsome).symm

theorem ControlDesc.apply_within (desc : ControlDesc) (st) :
    Returns (st.output.pos + desc.reach ≤ isizeMax) (fun st' => st'.output.pos ≤ st.output.pos + desc.reach)
      (desc.apply st) := by
  cases desc with
  | skip n | tabRight n => exact fun _ => Nat.min_le_left _ _
  | tabTo p => exact fun _ => Nat.le_trans (Nat.sub_le p 1) (Nat.le_add_left _ _)
  | tabLeft n => exact fun _ => Nat.sub_le _ _
  | newline => exact fun _ => Nat.zero_le _
  | literalString text => exact (st.output.write_within _).map fun _ ho => ho
  | _ => exact fun _ => Nat.le_refl _

/-! ## Runs -/

theorem FormatState.Before.suffix {a b : FormatState} (h : a.Before b) : b.values <:+ a.values := by
  obtain ⟨log, -, hval⟩ := h
  exact ⟨_, hval.symm⟩

section

variable (formatValueText) (width : DataDesc → Nat) (values : List IoValue)

def Room (st : FormatState) (reach : Nat) : Prop :=
  Widths formatValueText width values ∧ st.output.pos + reach ≤ isizeMax

/-- A run ends with as many values as the course is clear for, and moves on by no more than `reach`. -/
def RunsWithin (c : Course) (reach : Nat) (run : FormatRun) : Prop :=
  ∀ ⦃st⦄, st.values <:+ values → c.Clear st.values.length →
    Returns (Room formatValueText width values st reach) (fun st' => st'.output.pos ≤ st.output.pos + reach) (run st)

end

variable {width : DataDesc → Nat} {values : List IoValue}

theorem Returns.next {α : Type} {st st₁ : FormatState} {m n} {pos : α → Nat} {x : Except FormatFailure α}
    (h : Returns (Room formatValueText width values st₁ n) (pos · ≤ st₁.output.pos + n) x) :
    Returns (Room formatValueText width values st (m + n) ∧ st₁.output.pos ≤ st.output.pos + m)
      (pos · ≤ st.output.pos + (m + n)) x := by
  refine h.mono (fun hroom => ⟨hroom.1.1, ?_⟩) fun hroom a ha => ?_
  · have := hroom.1.2
    omega
  · have := hroom.2
    omega

theorem Room.first {st m n} (h : Room formatValueText width values st (m + n)) : Room formatValueText width values st m :=
  ⟨h.1, by have := h.2; omega⟩

section

variable {c : Course} {m : Nat} {run : FormatRun} (h : RunsWithin formatValueText width values c m run)
  (hmeets : Meets c run) (hbefore : Forward run)
include h hmeets hbefore

theorem RunsWithin.repeatRun (n) : RunsWithin formatValueText width values (c.repeated n) (n * m) (repeatRun run n) := by
  intro st hvalues hclear
  induction n generalizing st with
  | zero => exact fun _ => Nat.le_add_right _ _
  | succ n ih =>
    rw [Course.repeated, Course.clear_andThen] at hclear
    rw [Nat.succ_mul, Nat.add_comm]
    refine (h hvalues hclear.1).bind Room.first fun st₁ hrun => (ih ?_ ?_).next
    · exact (hbefore hrun).suffix.trans hvalues
    · exact (hmeets hrun).2 ▸ hclear.2

theorem RunsWithin.whileValues {fuel} {st : FormatState} (hvalues : st.values <:+ values)
    (hclear : c.unlimited.Clear st.values.length) (hfuel : st.values.length ≤ fuel) :
    Returns (Room formatValueText width values st (fuel * m)) (fun st' => st'.output.pos ≤ st.output.pos + fuel * m)
      (whileValues run fuel st) := by
  induction fuel generalizing st with
  | zero =>
    rw [whileValues_nil (length_eq_zero_iff.mp (Nat.le_zero.mp hfuel))]
    exact fun _ => Nat.le_add_right _ _
  | succ fuel ih =>
    by_cases hnil : st.values = []
    · rw [whileValues_nil hnil]
      exact fun _ => Nat.le_add_right _ _
    · obtain ⟨hround, hcourse⟩ := Course.clear_unlimited.mp hclear
      rw [whileValues_cons hnil, Nat.succ_mul, Nat.add_comm (fuel * m)]
      refine (h hvalues hround).bind Room.first fun st₁ hrun => ?_
      have hlt := hmeets.takes (fun hc => hnil (length_eq_zero_iff.mp (hcourse hc))) hrun hnil
      exact (ih ((hbefore hrun).suffix.trans hvalues) (hclear.le hlt.le) (by omega)).next

end

theorem reachList_reversion (descs : List FormatDesc) :
    reachList width values.length (formatReversionDescriptors descs) ≤ reachList width values.length descs := by
  induction descs with
  | nil => exact Nat.le_refl _
  | cons desc descs ih =>
    rw [formatReversionDescriptors]
    split
    · exact Nat.le_trans ih (Nat.le_add_left _ _)
    · exact Nat.le_refl _

mutual

theorem applyDescriptor_within : (desc : FormatDesc) → {st : FormatState} → st.values <:+ values →
    desc.course.Clear st.values.length →
    Returns (Room formatValueText width values st (desc.reach width values.length))
      (fun c => c.state.output.pos ≤ st.output.pos + desc.reach width values.length)
      (applyDescriptor formatValueText desc st)
  | .control desc, st, _, _ => by
      rw [applyDescriptor]
      exact ((desc.apply_within st).map fun _ hst => hst).mono And.right fun _ _ hc => hc
  | .colon, st, _, _ => by
      rw [applyDescriptor]
      intro _
      split <;> exact Nat.le_refl _
  | .derivedType _ _, st, _, _ => by
      rw [applyDescriptor]
      split
      · exact fun _ => Nat.le_refl _
      · exact ⟨by simp, by simp⟩
  | .group count descriptors _, st, hvalues, hclear => by
      rw [applyDescriptor]
      exact ((applyDescriptors_within descriptors).repeatRun (applyDescriptors_meets descriptors)
        (applyDescriptors_before descriptors) count hvalues hclear).map fun _ hst => hst
  | .unlimitedRepeat descriptors, st, hvalues, hclear => by
      rw [applyDescriptor]
      have hrounds : st.values.length * reachList width values.length descriptors ≤
          values.length * reachList width values.length descriptors := Nat.mul_le_mul_right _ hvalues.length_le
      have hruns := (applyDescriptors_within descriptors).whileValues (applyDescriptors_meets descriptors)
        (applyDescriptors_before descriptors) hvalues hclear (Nat.le_refl _)
      refine (hruns.mono (fun hroom => ⟨hroom.1, ?_⟩) fun _ st' hst => ?_).map fun _ hst => hst
      · exact (Nat.add_le_add_left hrounds _).trans hroom.2
      · exact hst.trans (Nat.add_le_add_left hrounds _)
  | .data desc, st, hvalues, _ => by
      rw [applyDescriptor]
      split
      · exact fun _ => Nat.le_add_right _ _
      · next val rest hcons =>
        have hmem : val ∈ values := hvalues.subset (by rw [hcons]; exact mem_cons_self)
        have hwrite : Returns (Room formatValueText width values st (width desc)) (·.pos ≤ st.output.pos + width desc)
            (writeValue formatValueText st.modes st.output desc val) :=
          writeValue_within.mono (fun hroom => ⟨hroom.1 st.modes desc val hmem ((Nat.le_add_left _ _).trans hroom.2),
            hroom.2⟩) fun _ _ ho => ho
        exact (hwrite.map fun _ ho => ho).map fun _ hst => hst

theorem applyDescriptors_within : (descs : List FormatDesc) → RunsWithin formatValueText width values (courseList descs)
    (reachList width values.length descs) (applyDescriptors formatValueText descs)
  | [], st, _, _ => fun _ => Nat.le_refl _
  | desc :: descs, st, hvalues, hclear => by
      rw [courseList, Course.clear_andThen] at hclear
      rw [applyDescriptors]
      refine (applyDescriptor_within desc hvalues hclear.1).bind Room.first fun c hc => ?_
      have hsuffix := (applyDescriptor_before desc hc).1.suffix.trans hvalues
      have hleft := (applyDescriptor_meets desc hc).2
      cases c with
      | stop st₁ => exact fun hroom => hroom.2.trans (by rw [reachList]; omega)
      | proceed st₁ => exact (applyDescriptors_within descs hsuffix (hleft ▸ hclear.2)).next

end

/-! ## Reversion -/

theorem passes_reversion : (descs : List FormatDesc) → {n : Nat} → courseList descs = .passes n →
    ∃ m, courseList (formatReversionDescriptors descs) = .passes m
  | [], n, h => ⟨n, h⟩
  | desc :: descs, n, h => by
      rw [formatReversionDescriptors]
      split
      · obtain ⟨m, hm⟩ := Course.passes_of_andThen h
        exact passes_reversion descs hm
      · exact ⟨n, h⟩

theorem revertingScan_returns {reversion n} (hpasses : courseList reversion = .passes n) {st : FormatState}
    (hvalues : st.values <:+ values) :
    Returns (Widths formatValueText width values ∧ reachList width values.length reversion ≤ isizeMax) (fun _ => True)
      (revertingScan formatValueText reversion st) := by
  have hvalues' : { st with output := st.output.newRecord }.values <:+ values := hvalues
  refine (applyDescriptors_within reversion hvalues' ?_).bind (fun hroom => ⟨hroom.1, ?_⟩) fun next _ => ?_
  · rw [hpasses]
    nofun
  · exact (Nat.zero_add _).trans_le hroom.2
  · split
    · exact ⟨by simp, by simp⟩
    · exact fun _ => trivial

/-- Every scan begins on a record of its own, so that the reach of one is enough for all. -/
theorem revertingScans_return {reversion n} (hpasses : courseList reversion = .passes n) {fuel} {st : FormatState}
    (hvalues : st.values <:+ values) (hfuel : st.values.length ≤ fuel) :
    Returns (Widths formatValueText width values ∧ reachList width values.length reversion ≤ isizeMax) (fun _ => True)
      (whileValues (revertingScan formatValueText reversion) fuel st) := by
  induction fuel generalizing st with
  | zero =>
    rw [whileValues_nil (length_eq_zero_iff.mp (Nat.le_zero.mp hfuel))]
    exact fun _ => trivial
  | succ fuel ih =>
    by_cases hnil : st.values = []
    · rw [whileValues_nil hnil]
      exact fun _ => trivial
    · rw [whileValues_cons hnil]
      refine (revertingScan_returns hpasses hvalues).bind id fun next hnext => (ih ?_ ?_).mono And.left fun _ _ h => h
      · exact (revertingScan_before _ hnext).suffix.trans hvalues
      · have := revertingScan_takes _ hnext hnil
        omega

theorem output_returns {descs}
    (hclear : formatHasDataDescriptor descs = true → (courseList descs).Clear values.length) :
    Returns (Widths formatValueText width values ∧ reachList width values.length descs ≤ isizeMax) (fun _ => True)
      (formatValuesRevertingOutputChecked formatValueText descs values) := by
  have hfirst (hclear : (courseList descs).Clear values.length) :
      Returns (Widths formatValueText width values ∧ reachList width values.length descs ≤ isizeMax)
        (fun _ => True) (applyDescriptors formatValueText descs { values := values }) :=
    (applyDescriptors_within descs (suffix_refl values) hclear).mono
      (fun hroom => ⟨hroom.1, (Nat.zero_add _).trans_le hroom.2⟩) fun _ _ _ => trivial
  rw [formatValuesRevertingOutputChecked]
  split
  · exact ⟨by simp, by simp⟩
  · next hdata =>
    have hclear : (courseList descs).Clear values.length := by
      by_cases hempty : values = []
      · subst hempty
        exact fun m _ => Nat.zero_le m
      · refine hclear (Bool.not_eq_false _ ▸ fun hnone => hdata ⟨?_, hnone⟩)
        simpa using hempty
    split
    · exact hfirst hclear
    · refine (hfirst hclear).bind id fun next hnext => ?_
      split
      · exact ⟨by simp, by simp⟩
      · have hbefore := applyDescriptors_before descs hnext
        by_cases hnil : next.values = []
        · rw [whileValues_nil hnil]
          exact fun _ => trivial
        · have hleft := (applyDescriptors_meets descs hnext).2
          obtain ⟨n, hn⟩ := Course.passes_of_left (hleft ▸ mt length_eq_zero_iff.mp hnil)
          obtain ⟨m, hm⟩ := passes_reversion descs hn
          exact (revertingScans_return hm hbefore.suffix hbefore.values_le).mono
            (fun hroom => ⟨hroom.1.1, (reachList_reversion descs).trans hroom.1.2⟩) fun _ _ h => h

end Armfortas.Runtime.Format
