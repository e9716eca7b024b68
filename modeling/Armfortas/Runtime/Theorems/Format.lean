import Armfortas.Runtime.Lemmas.FormatRoom

/-! The records of the engine are those of format control, unless the values run out inside of a group, at a `DT`
descriptor or at an unlimited repeat and there is something left to write. The expansion of a format for a number of
items gives the descriptors that the engine applies. The engine comes to an end, unless an unlimited repeat that takes
no value is come to with a value left. -/
namespace Armfortas.Runtime.Format

variable {formatValueText : ValueText}

theorem controlScans_stop {reversion fuel st} : controlScans formatValueText reversion fuel (.stop st) = .ok st := by
  unfold controlScans
  rfl

theorem scans_agree {reversion fuel} :
    ∀ {st st' : FormatState}, whileValues (revertingScan formatValueText reversion) fuel st = .ok st' →
      quietScans reversion fuel (some (.proceed st.values.length)) = true →
      ∃ stop, controlScans formatValueText reversion fuel (.proceed st) = .ok stop ∧ Same st' stop := by
  induction fuel with
  | zero =>
    intro st st' hrun _
    unfold whileValues at hrun
    unfold controlScans
    split at hrun
    · cases hrun
      exact ⟨st, by rw [if_pos ‹_›], Same.refl st⟩
    · cases hrun
  | succ fuel ih =>
    intro st st' hrun hquiet
    unfold whileValues at hrun
    unfold controlScans
    split at hrun
    · cases hrun
      exact ⟨st, by rw [if_pos ‹_›], Same.refl st⟩
    · next hvalues =>
      obtain ⟨next, hnext, hrest⟩ := bind_eq_ok hrun
      have hnext := (revertingScan_cases hnext).1
      rw [if_neg hvalues]
      obtain ⟨k, hk⟩ : ∃ k, st.values.length = k + 1 := by
        refine Nat.exists_eq_succ_of_ne_zero fun h => hvalues ?_
        rw [List.length_eq_zero_iff.mp h]
        rfl
      rw [hk, quietScans] at hquiet
      cases hscan : scanList reversion (k + 1) with
      | none => rw [hscan] at hquiet; cases fuel <;> cases hquiet
      | some r =>
        have hagrees := scanList_agrees reversion hnext hk hscan
        rw [hscan] at hquiet
        dsimp only
        cases r with
        | proceed k' =>
          rw [hagrees.1]
          exact ih hrest (by rw [hagrees.2]; exact hquiet)
        | leave | halt =>
          obtain ⟨hempty, stop, hstop, hsame⟩ := hagrees
          rw [hstop]
          rw [whileValues_nil hempty] at hrest
          cases hrest
          exact ⟨stop, controlScans_stop, hsame⟩

theorem values_nil {descs reversion st} (hrun : applyDescriptors formatValueText descs { values := [] } = .ok st)
    (hquiet : quietScans reversion 0 (scanList descs 0) = true) : st.values = [] := by
  cases hscan : scanList descs 0 with
  | none => rw [hscan] at hquiet; cases hquiet
  | some r =>
    have hagrees := scanList_agrees descs hrun rfl hscan
    rw [hscan] at hquiet
    cases r with
    | proceed k =>
      cases k with
      | zero => exact List.length_eq_zero_iff.mp hagrees.2
      | succ k => cases hquiet
    | leave | halt => exact hagrees.1

theorem output_agrees {descs values st}
    (hrun : formatValuesRevertingOutputChecked formatValueText descs values = .ok st)
    (hquiet : quietScans (formatReversionDescriptors descs) values.length (scanList descs values.length) = true) :
    ∃ stop, (interpret formatValueText descs { values := values }).bind
      (controlScans formatValueText (formatReversionDescriptors descs) values.length) = .ok stop ∧ Same st stop := by
  -- whatever comes after the first scan, it ends as the scans with values do
  obtain ⟨next, hfirst, hrest⟩ : ∃ next, applyDescriptors formatValueText descs { values := values } = .ok next ∧
      whileValues (revertingScan formatValueText (formatReversionDescriptors descs)) values.length next = .ok st := by
    by_cases hempty : values = []
    · subst hempty
      have hrun : applyDescriptors formatValueText descs { values := [] } = .ok st := by
        simpa [formatValuesRevertingOutputChecked] using hrun
      exact ⟨st, hrun, whileValues_nil (values_nil hrun hquiet)⟩
    · exact output_cases hempty hrun
  cases hscan : scanList descs values.length with
  | none => rw [hscan] at hquiet; cases hlen : values.length <;> rw [hlen] at hquiet <;> cases hquiet
  | some r =>
    have hagrees := scanList_agrees descs hfirst rfl hscan
    rw [hscan] at hquiet
    cases r with
    | proceed k =>
      rw [hagrees.1]
      exact scans_agree hrest (by rw [hagrees.2]; exact hquiet)
    | leave | halt =>
      obtain ⟨hempty, stop, hstop, hsame⟩ := hagrees
      rw [hstop]
      rw [whileValues_nil hempty] at hrest
      cases hrest
      exact ⟨stop, controlScans_stop, hsame⟩

/-- The records the engine returns are those of format control, when nothing is left to write where the values run out. -/
theorem records_of_quiet (formatValueText : ValueText) (text : List Char) (values : List IoValue)
    (records : List (List UInt8)) (hquiet : quiet text values.length = true)
    (hrun : formatRecords formatValueText text values = .ok records) :
    controlRecords formatValueText text values = .ok records := by
  unfold formatRecords at hrun
  unfold quiet at hquiet
  unfold controlRecords
  rw [parseFormat_eq] at hrun
  cases hitems : topLevelItems text with
  | error e => rw [hitems] at hrun; cases hrun
  | ok items =>
    rw [hitems] at hrun hquiet
    obtain ⟨st, hst, hrecords⟩ := bind_eq_ok hrun
    dsimp only at hquiet ⊢
    rw [← formatReversionDescriptors_eq (topLevelItems_points hitems)] at hquiet ⊢
    obtain ⟨stop, hstop, hsame⟩ := output_agrees hst hquiet
    obtain ⟨first, hfirst, hscans⟩ := bind_eq_ok hstop
    have hrecords : records = stop.output.finishRecords := (Except.ok.inj hrecords).symm.trans hsame.finishRecords
    rw [hfirst, hrecords]
    change (controlScans formatValueText (formatReversionDescriptors (items.map Prod.snd)) values.length first).bind _ = _
    rw [hscans]
    rfl

/-- A conversion into one character. -/
def oneCharacter : ValueText := fun _ _ val =>
  match val with
  | .logical true => some (.ok [84])
  | .logical false => some (.ok [70])
  | _ => some (.ok [49])

/-- `(I1,2(',',I1))` for four values: the fourth is on a second record, with a comma before and behind it. -/
def commaBefore : List Char := ['(', 'I', '1', ',', '2', '(', '\'', ',', '\'', ',', 'I', '1', ')', ')']

theorem records_of_quiet_commaBefore : quiet commaBefore 4 = true ∧
      formatRecords oneCharacter commaBefore [.integer 1, .integer 1, .integer 1, .integer 1] =
        .ok [[49, 44, 49, 44, 49], [44, 49, 44]] ∧
      controlRecords oneCharacter commaBefore [.integer 1, .integer 1, .integer 1, .integer 1] =
        .ok [[49, 44, 49, 44, 49], [44, 49, 44]] :=
  ⟨by decide +kernel, by decide +kernel, records_of_quiet oneCharacter commaBefore _ _ (by decide +kernel) (by decide +kernel)⟩

def literalAfter : List Char :=
  ['(', '2', '(', 'I', '1', ',', '\'', ',', '\'', ')', ',', '\'', 'x', '\'', ')']

/-- Format control stops at the second `I1`; the engine goes on to the literal behind the group. -/
theorem records_literalAfter : formatRecords oneCharacter literalAfter [.integer 1] = .ok [[49, 44, 120]] ∧
      controlRecords oneCharacter literalAfter [.integer 1] = .ok [[49, 44]] := by
  decide

/-- Where the engine comes to an end with some values, the expansion for as many items gives the descriptors that
it has applied to them, in order. -/
theorem items_of_records (formatValueText : ValueText) (text : List Char) (values : List IoValue)
    (records : List (List UInt8)) (hne : values ≠ []) (hrun : formatRecords formatValueText text values = .ok records) :
    ∃ descs st, parseFormat text = .ok descs ∧
      formatValuesRevertingOutputChecked formatValueText descs values = .ok st ∧ st.output.finishRecords = records ∧
      st.applied.map Prod.snd = values ∧
      parseDataDescriptorsForItems text values.length = .ok (st.applied.map fun a => .data a.1) := by
  unfold formatRecords at hrun
  cases hparse : parseFormat text with
  | error e => rw [hparse] at hrun; cases hrun
  | ok descs =>
    rw [hparse] at hrun
    obtain ⟨st, hst, hrecords⟩ := bind_eq_ok hrun
    exact ⟨descs, st, rfl, hst, Except.ok.inj hrecords, output_values hne hst, output_items hparse hne hst⟩

/-- `(I1,2(L1))` for four values: the group is repeated after the first record. -/
def flagsAfter : List Char := ['(', 'I', '1', ',', '2', '(', 'L', '1', ')', ')']

theorem items_of_records_flagsAfter : [IoValue.integer 1, .logical true, .logical false, .logical true] ≠ [] ∧
    formatRecords oneCharacter flagsAfter [.integer 1, .logical true, .logical false, .logical true] =
      .ok [[49, 84, 70], [84]] ∧
    ∃ descs st, parseFormat flagsAfter = .ok descs ∧
      formatValuesRevertingOutputChecked oneCharacter descs
        [.integer 1, .logical true, .logical false, .logical true] = .ok st ∧
      st.output.finishRecords = [[49, 84, 70], [84]] ∧
      st.applied.map Prod.snd = [.integer 1, .logical true, .logical false, .logical true] ∧
      parseDataDescriptorsForItems flagsAfter 4 = .ok (st.applied.map fun a => .data a.1) :=
  ⟨by simp, by decide, items_of_records oneCharacter flagsAfter _ _ (by simp) (by decide)⟩

/-- `(I1,*(1X))`. -/
def blankForever : List Char := ['(', 'I', '1', ',', '*', '(', '1', 'X', ')', ')']

end Armfortas.Runtime.Format
