import Armfortas.Runtime.Format.Items
import Armfortas.Runtime.Lemmas.Course

/-! The expansion of a format gives the descriptors the engine applies, one after the other. -/
namespace Armfortas.Runtime.Format
open List

variable {formatValueText : ValueText}

/-- With values left, a run takes some. -/
def Takes (run : FormatRun) : Prop :=
  ∀ ⦃st st'⦄, run st = .ok st' → st.values ≠ [] → st'.values.length < st.values.length

theorem Meets.takes {c run} (h : Meets c run) (hc : c ≠ .passes 0) : Takes run := by
  intro st st' hrun hne
  rw [(h hrun).2]
  exact Course.left_lt hc (mt length_eq_zero_iff.mp hne)

/-! ## The expansion follows the engine -/

def FormatState.descriptors (st : FormatState) : List FormatDesc := st.applied.map fun a => .data a.1

theorem FormatState.length_descriptors (st : FormatState) : st.descriptors.length = st.applied.length := length_map _

/-- The items of the transfer are the values taken and those that are left. -/
def FormatState.Of (limit : Nat) (st : FormatState) : Prop := st.applied.length + st.values.length = limit

theorem FormatState.Of.next {limit} {st st' : FormatState} (h : st.Of limit) (hb : st.Before st') : st'.Of limit :=
  hb.length.trans h

theorem FormatState.Of.full_iff {limit} {st : FormatState} (h : st.Of limit) :
    st.descriptors.length = limit ↔ st.values = [] := by
  rw [FormatState.Of] at h
  rw [st.length_descriptors, ← length_eq_zero_iff]
  omega

theorem FormatState.Before.descriptors_eq {st st' : FormatState} (h : st.Before st') (hnil : st.values = []) :
    st'.descriptors = st.descriptors := by
  rw [FormatState.descriptors, FormatState.descriptors, h.applied_eq_of_nil hnil]

/-- The expansion of what a run goes through gives the descriptors the run applies. -/
def Follows (limit : Nat) (append : List FormatDesc → Except FormatError (List FormatDesc))
    (run : FormatRun) : Prop :=
  ∀ ⦃st st'⦄, run st = .ok st' → st.Of limit → append st.descriptors = .ok st'.descriptors

section

variable {limit : Nat} {append : List FormatDesc → Except FormatError (List FormatDesc)}
  {run : FormatRun} (hbefore : Forward run)
  (h : Follows limit append run)
include hbefore h

theorem follows_repeat (n) : Follows limit (repeatAppend limit append n) (repeatRun run n) := by
  intro st st' hrun hof
  induction n generalizing st with
  | zero =>
    cases hrun
    rfl
  | succ n ih =>
    obtain ⟨st₁, hfirst, hrest⟩ := bind_eq_ok hrun
    have hof₁ := hof.next (hbefore hfirst)
    rw [repeatAppend, h hfirst hof]
    change ite _ _ _ = _
    split
    · next hfull =>
      -- the rounds that are left find no values
      rw [(hbefore.repeatRun n hrest).descriptors_eq (hof₁.full_iff.mp hfull)]
    · exact ih hrest hof₁

theorem follows_while (htakes : Takes run) {fuel rounds st st'} (hrun : whileValues run fuel st = .ok st')
    (hof : st.Of limit) (hrounds : st.values.length ≤ rounds) :
    whileShort limit append rounds st.descriptors = .ok st'.descriptors := by
  revert rounds
  refine whileValues_induct hrun (P := fun st => st.Of limit → ∀ {rounds}, st.values.length ≤ rounds →
    whileShort limit append rounds st.descriptors = .ok st'.descriptors) (fun hnil hof rounds _ => ?_)
    (fun {st st₁} hne hfirst ih hof rounds hrounds => ?_) hof
  · unfold whileShort
    rw [hof.full_iff.mpr hnil, if_neg (Nat.lt_irrefl _)]
  · have hlt := htakes hfirst hne
    have hlen := (hbefore hfirst).length
    have hsum : st.applied.length + st.values.length = limit := hof
    obtain ⟨rounds, rfl⟩ : ∃ n, rounds = n + 1 := ⟨rounds - 1, by omega⟩
    rw [whileShort, if_pos (by rw [st.length_descriptors]; omega), h hfirst hof]
    change ite _ _ _ = _
    rw [if_neg (by rw [st₁.length_descriptors, st.length_descriptors]; omega)]
    exact ih (hof.next (hbefore hfirst)) (by omega)

end

mutual

theorem applyDescriptor_follows (limit) : (desc : FormatDesc) → {st : FormatState} → {c : Control} →
    applyDescriptor formatValueText desc st = .ok c → st.Of limit → st.values ≠ [] →
    appendDataDescriptor limit desc st.descriptors = .ok c.state.descriptors
  | .control desc, st, c, h, _, _ => by
      rw [applyDescriptor] at h
      obtain ⟨st₁, happly, rfl⟩ := map_eq_ok h
      rw [appendDataDescriptor, Control.state, FormatState.descriptors, FormatState.descriptors,
        (desc.apply_keeps happly).2]
  | .colon, st, c, h, _, _ => by
      rw [applyDescriptor] at h
      cases h
      split <;> rfl
  | .derivedType _ _, st, c, h, _, hne => by
      rw [applyDescriptor, if_neg (by rwa [List.isEmpty_iff])] at h
      cases h
  | .group count descriptors point, st, c, h, hof, hne => by
      obtain ⟨hclear, hleft⟩ := applyDescriptor_meets (.group count descriptors point) h
      have hbefore := (applyDescriptor_before (.group count descriptors point) h).1
      rw [applyDescriptor] at h
      obtain ⟨st₁, hrun, rfl⟩ := map_eq_ok h
      rw [appendDataDescriptor]
      split
      · next hnone =>
        -- a group without data descriptors is passed over; the engine goes through it and takes nothing
        rw [FormatDesc.course] at hclear hleft
        rw [((idle_courseList descriptors hnone).repeated count).left hclear] at hleft
        rw [FormatState.descriptors, FormatState.descriptors, hbefore.applied_eq hleft]
      · exact follows_repeat (applyDescriptors_before descriptors) (applyDescriptors_follows limit descriptors) count
          hrun hof
  | .unlimitedRepeat descriptors, st, c, h, hof, hne => by
      obtain ⟨hclear, -⟩ := applyDescriptor_meets (.unlimitedRepeat descriptors) h
      have hcourse : courseList descriptors ≠ .passes 0 := fun hc =>
        hne (length_eq_zero_iff.mp ((Course.clear_unlimited.mp hclear).2 hc))
      rw [applyDescriptor] at h
      obtain ⟨st₁, hrun, rfl⟩ := map_eq_ok h
      rw [appendDataDescriptor, if_neg fun hnone => ?_]
      · refine follows_while (applyDescriptors_before descriptors) (applyDescriptors_follows limit descriptors)
          ((applyDescriptors_meets descriptors).takes hcourse) hrun hof ?_
        have hsum : st.applied.length + st.values.length = limit := hof
        omega
      · have hleft := (idle_courseList descriptors hnone).left (Course.clear_unlimited.mp hclear).1
        exact absurd hleft (Nat.ne_of_lt (Course.left_lt hcourse (mt length_eq_zero_iff.mp hne)))
  | .data desc, st, c, h, _, hne => by
      rw [applyDescriptor] at h
      split at h
      · next hnil => exact absurd hnil hne
      · obtain ⟨st₁, hconsume, rfl⟩ := map_eq_ok h
        simp [appendDataDescriptor, FormatState.descriptors, Control.state, (consume_takes hconsume).2]

theorem applyDescriptors_follows (limit) : (descs : List FormatDesc) →
    Follows limit (appendDataDescriptors limit descs) (applyDescriptors formatValueText descs)
  | [], st, st', h, _ => by
      rw [applyDescriptors] at h
      cases h
      rfl
  | desc :: descs, st, st', h, hof => by
      by_cases hnil : st.values = []
      · rw [appendDataDescriptors, if_pos (hof.full_iff.mpr hnil),
          (applyDescriptors_before (desc :: descs) h).descriptors_eq hnil]
      · rw [applyDescriptors] at h
        obtain ⟨c, hfirst, hrest⟩ := bind_eq_ok h
        obtain ⟨st₁, rfl⟩ := proceeds_of_values hfirst hnil
        rw [appendDataDescriptors, if_neg (mt hof.full_iff.mp hnil), applyDescriptor_follows limit desc hfirst hof hnil]
        exact applyDescriptors_follows limit descs hrest (hof.next (applyDescriptor_before desc hfirst).1)

end

/-! ## Reversion -/

theorem revertingScan_cases {reversion st st'} (h : revertingScan formatValueText reversion st = .ok st') :
    applyDescriptors formatValueText reversion { st with output := st.output.newRecord } = .ok st' ∧
      st'.values.length ≠ st.values.length := by
  obtain ⟨next, hrun, hlen⟩ := bind_eq_ok h
  split at hlen
  · cases hlen
  · cases hlen
    exact ⟨hrun, ‹_›⟩

theorem revertingScan_before (reversion) : Forward (revertingScan formatValueText reversion) := by
  intro st st' h
  have hrecord : st.Before { st with output := st.output.newRecord } := ⟨[], by simp, rfl⟩
  exact hrecord.trans (applyDescriptors_before reversion (revertingScan_cases h).1)

theorem revertingScan_takes (reversion) : Takes (revertingScan formatValueText reversion) := by
  intro st st' h _
  exact Nat.lt_of_le_of_ne (revertingScan_before reversion h).values_le (revertingScan_cases h).2

theorem revertingScan_follows (limit reversion) :
    Follows limit (appendDataDescriptors limit reversion) (revertingScan formatValueText reversion) := by
  intro st st' h hof
  have hfollows := applyDescriptors_follows limit reversion (revertingScan_cases h).1
  exact hfollows hof

theorem hasDataDescriptor_of_scans {reversion fuel st st'}
    (hrun : whileValues (revertingScan formatValueText reversion) fuel st = .ok st') (hne : st.values ≠ []) :
    formatHasDataDescriptor reversion = true := by
  rw [← Bool.not_eq_false]
  intro hnone
  refine whileValues_induct hrun (P := fun st => st.values = []) id (fun _ hfirst _ => ?_) |> hne
  obtain ⟨hscan, hlen⟩ := revertingScan_cases hfirst
  obtain ⟨hclear, hleft⟩ := applyDescriptors_meets reversion hscan
  exact absurd (hleft.trans ((idle_courseList reversion hnone).left hclear)) hlen

theorem output_cases {descs values st} (hne : values ≠ [])
    (hrun : formatValuesRevertingOutputChecked formatValueText descs values = .ok st) :
    ∃ first, applyDescriptors formatValueText descs { values := values } = .ok first ∧
      whileValues (revertingScan formatValueText (formatReversionDescriptors descs)) values.length first = .ok st := by
  rw [formatValuesRevertingOutputChecked] at hrun
  split at hrun
  · cases hrun
  · rw [if_neg (by rwa [List.isEmpty_iff])] at hrun
    obtain ⟨first, hfirst, hrest⟩ := bind_eq_ok hrun
    split at hrest
    · cases hrest
    · exact ⟨first, hfirst, hrest⟩

theorem output_values {descs values st} (hne : values ≠ [])
    (hrun : formatValuesRevertingOutputChecked formatValueText descs values = .ok st) :
    st.applied.map Prod.snd = values := by
  obtain ⟨first, hfirst, hscans⟩ := output_cases hne hrun
  obtain ⟨log, happ, hval⟩ := (applyDescriptors_before descs hfirst).trans ((revertingScan_before _).whileValues _ hscans)
  rw [whileValues_values hscans, append_nil] at hval
  rw [happ, nil_append, ← hval]

theorem output_items {text descs values st} (hparse : parseFormat text = .ok descs) (hne : values ≠ [])
    (hrun : formatValuesRevertingOutputChecked formatValueText descs values = .ok st) :
    parseDataDescriptorsForItems text values.length = .ok st.descriptors := by
  obtain ⟨first, hfirst, hscans⟩ := output_cases hne hrun
  have hstart : ({ values := values } : FormatState).Of values.length := Nat.zero_add _
  have happend : appendDataDescriptors values.length descs [] = .ok first.descriptors :=
    applyDescriptors_follows values.length descs hfirst hstart
  have hof := hstart.next (applyDescriptors_before descs hfirst)
  rw [parseDataDescriptorsForItems, if_neg (mt length_eq_zero_iff.mp hne), hparse]
  change (appendDataDescriptors values.length descs []).bind _ = _
  rw [happend]
  change ite _ _ _ = _
  split
  · next hfull => rw [((revertingScan_before _).whileValues _ hscans).descriptors_eq (hof.full_iff.mp hfull)]
  · next hshort =>
    rw [if_neg (by simp [hasDataDescriptor_of_scans hscans (mt hof.full_iff.mpr hshort)])]
    exact follows_while (revertingScan_before _) (revertingScan_follows _ _) (revertingScan_takes _) hscans hof
      (applyDescriptors_before descs hfirst).values_le

end Armfortas.Runtime.Format
