import Armfortas.Runtime.Lemmas.Reversion

/-! The engine leaves only the innermost list where format control stops for good. Here is when that does not show. -/
namespace Armfortas.Runtime.Format

variable {run : FormatRun} {st : FormatState}

/-! ## What still happens without values -/

/-- The descriptor changes the records, not only the position or a mode. -/
def ControlDesc.shows : ControlDesc → Bool
  | newline => true
  | literalString text => !text.isEmpty
  | _ => false

mutual

/-- The engine applies the descriptor without values: `none` if that shows, else whether it leaves the list. -/
def FormatDesc.idle : FormatDesc → Option Bool
  | .control desc => if desc.shows then none else some false
  | .colon | .data _ => some true
  | .derivedType _ _ | .unlimitedRepeat _ => some false
  | .group count descriptors _ => if count = 0 ∨ idleList descriptors then some false else none

/-- The engine applies the descriptors without values and nothing shows. -/
def idleList : List FormatDesc → Bool
  | [] => true
  | desc :: descs =>
      match desc.idle with
      | none => false
      | some true => true
      | some false => idleList descs

end

mutual

/-- Format control goes through the descriptor without values: `none` if that shows or has no end, else whether it
stops. -/
def FormatDesc.ends : FormatDesc → Option Bool
  | .control desc => if desc.shows then none else some false
  | .colon | .data _ | .derivedType _ _ => some true
  | .group count descriptors _ => if count = 0 then some false else endsList descriptors
  | .unlimitedRepeat descriptors => if endsList descriptors = some true then some true else none

def endsList : List FormatDesc → Option Bool
  | [] => some false
  | desc :: descs =>
      match desc.ends with
      | some false => endsList descs
      | r => r

end

/-! ## Where the values run out -/

/-- What the engine and format control do with a descriptor: both go on with `k` values left, both leave the list, or
only format control stops. -/
inductive Scan
  | proceed (k : Nat)
  | leave
  | halt
  deriving DecidableEq, Repr

/-- The rounds of a group. When format control stops in one, the engine goes through the others. -/
def scanRepeat (run : Nat → Option Scan) (idle : Bool) : Nat → Nat → Option Scan
  | 0, k => some (.proceed k)
  | n + 1, k =>
      match run k with
      | none => none
      | some (.proceed k) => scanRepeat run idle n k
      | some _ => if n = 0 ∨ idle then some .halt else none

/-- The rounds of an unlimited repeat. The engine does not begin one without values, format control does. -/
def scanForever (run : Nat → Option Scan) (ends : Option Bool) : Nat → Nat → Option Scan
  | 0, _ => none
  | _ + 1, 0 => if ends = some true then some .halt else none
  | fuel + 1, k + 1 =>
      match run (k + 1) with
      | none => none
      | some (.proceed k) => scanForever run ends fuel k
      | some _ => some .halt

mutual

/-- The descriptor with `k` values left; `none` if what the engine does beyond format control shows, or the reverse. -/
def FormatDesc.scan : FormatDesc → Nat → Option Scan
  | .control _, k => some (.proceed k)
  | .colon, k => some (if k = 0 then .leave else .proceed k)
  | .derivedType _ _, k => if k = 0 then some .halt else none
  | .group count descriptors _, k => scanRepeat (scanList descriptors) (idleList descriptors) count k
  | .unlimitedRepeat descriptors, k => scanForever (scanList descriptors) (endsList descriptors) (k + 1) k
  | .data _, 0 => some .leave
  | .data _, k + 1 => some (.proceed k)

def scanList : List FormatDesc → Nat → Option Scan
  | [], k => some (.proceed k)
  | desc :: descs, k =>
      match desc.scan k with
      | none => none
      | some (.proceed k) => scanList descs k
      | some .leave => some .halt
      | some .halt => if idleList descs then some .halt else none

end

/-- The scans of a format, of which the first has given `r`. -/
def quietScans (reversion : List FormatDesc) : Nat → Option Scan → Bool
  | _, none => false
  | _, some (.proceed 0) | _, some .leave | _, some .halt => true
  | 0, some (.proceed (_ + 1)) => false
  | fuel + 1, some (.proceed (k + 1)) => quietScans reversion fuel (scanList reversion (k + 1))

/-- When the values run out inside of a group, at a `DT` descriptor or at an unlimited repeat, neither a literal nor a
`/` is left for the engine to apply or to miss. -/
def quiet (text : List Char) (count : Nat) : Bool :=
  match topLevelItems text with
  | .ok items =>
      quietScans ((fromLast (fun item => startsGroup item.1) items).map Prod.snd) count
        (scanList (items.map Prod.snd) count)
  | .error _ => false

/-! ## Runs without values -/

def Same (st st' : FormatState) : Prop :=
  st.output.records = st'.output.records ∧ st.output.record = st'.output.record ∧ st.output.highWater = st'.output.highWater

theorem Same.refl (st) : Same st st := ⟨rfl, rfl, rfl⟩

theorem Same.trans {a b c} (hab : Same a b) (hbc : Same b c) : Same a c :=
  ⟨hab.1.trans hbc.1, hab.2.1.trans hbc.2.1, hab.2.2.trans hbc.2.2⟩

theorem Same.symm {a b} (h : Same a b) : Same b a := ⟨h.1.symm, h.2.1.symm, h.2.2.symm⟩

theorem Same.finishRecords {a b} (h : Same a b) : a.output.finishRecords = b.output.finishRecords := by
  obtain ⟨h1, h2, h3⟩ := h
  rw [FormatOutput.finishRecords, FormatOutput.newRecord, FormatOutput.finishRecords, FormatOutput.newRecord, h1, h2, h3]

/-- A control descriptor takes no value. -/
theorem ControlDesc.apply_keeps {desc : ControlDesc} {st st'} (h : desc.apply st = .ok st') :
    st'.values = st.values ∧ st'.applied = st.applied := by
  cases desc with
  | literalString text =>
    obtain ⟨output, -, rfl⟩ := map_eq_ok h
    exact ⟨rfl, rfl⟩
  | _ => cases h; exact ⟨rfl, rfl⟩

theorem ControlDesc.apply_same {desc : ControlDesc} (h : desc.shows = false) (st) :
    ∃ st', desc.apply st = .ok st' ∧ Same st' st := by
  cases desc with
  | newline => cases h
  | literalString text =>
    obtain rfl : text = [] := by simpa [shows] using h
    exact ⟨st, rfl, Same.refl st⟩
  | _ => exact ⟨_, rfl, Same.refl st⟩

variable {formatValueText : ValueText}

def Idle (run : FormatRun) : Prop :=
  ∀ st, st.values = [] → ∃ st', run st = .ok st' ∧ st'.values = [] ∧ Same st' st

theorem Idle.repeatRun (h : Idle run) (n) :
    Idle (repeatRun run n) := by
  induction n with
  | zero => exact fun st hst => ⟨st, rfl, hst, Same.refl st⟩
  | succ n ih =>
    intro st hst
    obtain ⟨st₁, hrun, hvalues, hsame⟩ := h st hst
    obtain ⟨st₂, hrest, hvalues', hsame'⟩ := ih st₁ hvalues
    exact ⟨st₂, by rw [Format.repeatRun, hrun]; exact hrest, hvalues', hsame'.trans hsame⟩

theorem whileValues_nil {fuel}
    (h : st.values = []) : whileValues run fuel st = .ok st := by
  unfold whileValues
  rw [h]
  rfl

theorem whileValues_cons {fuel}
    (h : st.values ≠ []) : whileValues run (fuel + 1) st = (run st).bind (whileValues run fuel) := by
  rw [whileValues, if_neg (by rwa [List.isEmpty_iff])]

/-- Backwards from the end of a loop that is left. -/
theorem whileValues_induct {fuel st st'} (h : whileValues run fuel st = .ok st')
    {P : FormatState → Prop} (hend : st'.values = [] → P st')
    (hround : ∀ {st st₁}, st.values ≠ [] → run st = .ok st₁ → P st₁ → P st) : P st := by
  induction fuel generalizing st with
  | zero =>
    rw [whileValues] at h
    split at h
    · next hempty =>
      cases h
      exact hend (List.isEmpty_iff.mp hempty)
    · cases h
  | succ fuel ih =>
    by_cases hnil : st.values = []
    · rw [whileValues_nil hnil] at h
      cases h
      exact hend hnil
    · rw [whileValues_cons hnil] at h
      obtain ⟨st₁, hfirst, hrest⟩ := bind_eq_ok h
      exact hround hnil hfirst (ih hrest)

mutual

theorem idle_run : (desc : FormatDesc) → {b : Bool} → desc.idle = some b → (st : FormatState) → st.values = [] →
    ∃ st', applyDescriptor formatValueText desc st = .ok (if b then .stop st' else .proceed st') ∧
      st'.values = [] ∧ Same st' st
  | .control desc, b, h, st, hst => by
      rw [FormatDesc.idle] at h
      split at h
      · cases h
      · cases h
        obtain ⟨st', happly, hsame⟩ := desc.apply_same (Bool.eq_false_iff.mpr ‹_›) st
        exact ⟨st', by rw [applyDescriptor, happly]; rfl, (desc.apply_keeps happly).1.trans hst, hsame⟩
  | .colon, b, h, st, hst => by
      cases h
      exact ⟨st, by rw [applyDescriptor, hst]; rfl, hst, Same.refl st⟩
  | .data desc, b, h, st, hst => by
      cases h
      exact ⟨st, by rw [applyDescriptor, hst]; rfl, hst, Same.refl st⟩
  | .derivedType _ _, b, h, st, hst => by
      cases h
      exact ⟨st, by rw [applyDescriptor, hst]; rfl, hst, Same.refl st⟩
  | .unlimitedRepeat descriptors, b, h, st, hst => by
      cases h
      refine ⟨st, ?_, hst, Same.refl st⟩
      rw [applyDescriptor, whileValues_nil hst]
      rfl
  | .group count descriptors _, b, h, st, hst => by
      rw [FormatDesc.idle] at h
      split at h
      · cases h
        rename_i hquiet
        rw [applyDescriptor]
        rcases hquiet with rfl | hidle
        · exact ⟨st, rfl, hst, Same.refl st⟩
        · obtain ⟨st', hrun, hvalues, hsame⟩ := Idle.repeatRun (idleList_run descriptors hidle) count st hst
          exact ⟨st', by rw [hrun]; rfl, hvalues, hsame⟩
      · cases h

theorem idleList_run : (descs : List FormatDesc) → idleList descs = true → Idle (applyDescriptors formatValueText descs)
  | [], _, st, hst => ⟨st, rfl, hst, Same.refl st⟩
  | desc :: descs, h, st, hst => by
      rw [idleList] at h
      cases hd : desc.idle with
      | none => rw [hd] at h; cases h
      | some b =>
        obtain ⟨st₁, hrun, hvalues, hsame⟩ := idle_run desc hd st hst
        rw [applyDescriptors, hrun]
        cases b with
        | true => exact ⟨st₁, rfl, hvalues, hsame⟩
        | false =>
          rw [hd] at h
          obtain ⟨st₂, hrest, hvalues', hsame'⟩ := idleList_run descs h st₁ hvalues
          exact ⟨st₂, hrest, hvalues', hsame'.trans hsame⟩

end

def Control.of (stops : Bool) (st : FormatState) : Control := if stops then .stop st else .proceed st

/-- Format control comes to the end of a list without values, or stops there, and nothing shows. -/
def Ends (run : FormatState → Except FormatFailure Control) (b : Bool) : Prop :=
  ∀ st, st.values = [] → ∃ st', run st = .ok (.of b st') ∧ st'.values = [] ∧ Same st' st

theorem Ends.repeatControl {run : FormatState → Except FormatFailure Control} {b} (h : Ends run b) {n}
    (hn : n ≠ 0) : Ends (repeatControl run n) b := by
  obtain ⟨n, rfl⟩ := Nat.exists_eq_succ_of_ne_zero hn
  clear hn
  induction n with
  | zero =>
    intro st hst
    obtain ⟨st', hrun, hvalues, hsame⟩ := h st hst
    refine ⟨st', ?_, hvalues, hsame⟩
    rw [Format.repeatControl, hrun]
    cases b <;> rfl
  | succ n ih =>
    intro st hst
    obtain ⟨st₁, hrun, hvalues, hsame⟩ := h st hst
    rw [Format.repeatControl, hrun]
    cases b with
    | true => exact ⟨st₁, rfl, hvalues, hsame⟩
    | false =>
      obtain ⟨st₂, hrest, hvalues', hsame'⟩ := ih st₁ hvalues
      exact ⟨st₂, hrest, hvalues', hsame'.trans hsame⟩

mutual

theorem ends_run : (desc : FormatDesc) → {b : Bool} → desc.ends = some b →
    Ends (interpretDescriptor formatValueText desc) b
  | .control desc, b, h, st, hst => by
      rw [FormatDesc.ends] at h
      split at h
      · cases h
      · cases h
        obtain ⟨st', happly, hsame⟩ := desc.apply_same (Bool.eq_false_iff.mpr ‹_›) st
        exact ⟨st', by rw [interpretDescriptor, happly]; rfl, (desc.apply_keeps happly).1.trans hst, hsame⟩
  | .colon, b, h, st, hst | .derivedType _ _, b, h, st, hst => by
      cases h
      exact ⟨st, by rw [interpretDescriptor, hst]; rfl, hst, Same.refl st⟩
  | .data desc, b, h, st, hst => by
      cases h
      exact ⟨st, by rw [interpretDescriptor, hst]; rfl, hst, Same.refl st⟩
  | .unlimitedRepeat descriptors, b, h, st, hst => by
      rw [FormatDesc.ends] at h
      split at h
      · cases h
        obtain ⟨st', hrun, hvalues, hsame⟩ := endsList_run descriptors ‹_› st hst
        refine ⟨st', ?_, hvalues, hsame⟩
        rw [interpretDescriptor, repeatForever, hrun]
        rfl
      · cases h
  | .group count descriptors _, b, h, st, hst => by
      rw [FormatDesc.ends] at h
      rw [interpretDescriptor]
      split at h
      · rename_i hzero
        cases h
        subst hzero
        exact ⟨st, rfl, hst, Same.refl st⟩
      · exact Ends.repeatControl (endsList_run descriptors h) ‹_› st hst

theorem endsList_run : (descs : List FormatDesc) → {b : Bool} → endsList descs = some b →
    Ends (interpret formatValueText descs) b
  | [], b, h, st, hst => by
      cases h
      exact ⟨st, rfl, hst, Same.refl st⟩
  | desc :: descs, b, h, st, hst => by
      rw [endsList] at h
      cases hd : desc.ends with
      | none => rw [hd] at h; cases h
      | some b' =>
        obtain ⟨st₁, hrun, hvalues, hsame⟩ := ends_run desc hd st hst
        rw [interpret, hrun]
        cases b' with
        | true =>
          rw [hd] at h
          cases h
          exact ⟨st₁, rfl, hvalues, hsame⟩
        | false =>
          rw [hd] at h
          obtain ⟨st₂, hrest, hvalues', hsame'⟩ := endsList_run descs h st₁ hvalues
          exact ⟨st₂, hrest, hvalues', hsame'.trans hsame⟩

end

/-! ## The engine and format control side by side -/

/-- Format control stops in a state with the same records; no value is left. -/
def Stops (st : FormatState) (r : Except FormatFailure Control) : Prop :=
  st.values = [] ∧ ∃ st', r = .ok (.stop st') ∧ Same st st'

/-- What a scan says about a list that leads the engine to `st`. -/
def Agrees (st : FormatState) (r : Except FormatFailure Control) : Scan → Prop
  | .proceed k => r = .ok (.proceed st) ∧ st.values.length = k
  | _ => Stops st r

def DescAgrees (c : Control) (r : Except FormatFailure Control) : Scan → Prop
  | .proceed k => ∃ st, c = .proceed st ∧ r = .ok (.proceed st) ∧ st.values.length = k
  | .leave => ∃ st, c = .stop st ∧ Stops st r
  | .halt => ∃ st, c = .proceed st ∧ Stops st r

theorem Stops.idle (hidle : Idle run) {st st' r} (h : Stops st r)
    (hrun : run st = .ok st') : Stops st' r := by
  obtain ⟨hvalues, stop, hstop, hsame⟩ := h
  obtain ⟨st₁, hrun₁, hvalues₁, hsame₁⟩ := hidle st hvalues
  obtain rfl : st' = st₁ := Except.ok.inj (hrun.symm.trans hrun₁)
  exact ⟨hvalues₁, stop, hstop, hsame₁.trans hsame⟩

section Loops

variable {control : FormatState → Except FormatFailure Control}
  {scan : Nat → Option Scan}
  (hlist : ∀ {st st' k r}, run st = .ok st' → st.values.length = k → scan k = some r → Agrees st' (control st) r)
include hlist

theorem repeat_agrees {idle} (hidle : idle = true → Idle run) {n} :
    ∀ {st st' : FormatState} {k : Nat} {r : Scan}, repeatRun run n st = .ok st' → st.values.length = k →
      scanRepeat scan idle n k = some r → Agrees st' (repeatControl control n st) r := by
  induction n with
  | zero =>
    intro st st' k r hrun hk hscan
    cases hrun
    cases hscan
    exact ⟨rfl, hk⟩
  | succ n ih =>
    intro st st' k r hrun hk hscan
    obtain ⟨st₁, hrun₁, hrest⟩ := bind_eq_ok hrun
    rw [scanRepeat] at hscan
    cases hfirst : scan k with
    | none => rw [hfirst] at hscan; cases hscan
    | some first =>
      have hagrees := hlist hrun₁ hk hfirst
      rw [hfirst] at hscan
      rw [repeatControl]
      cases first with
      | proceed k' =>
        rw [hagrees.1]
        exact ih hrest hagrees.2 hscan
      | leave | halt =>
        obtain ⟨hvalues, stop, hstop, hsame⟩ := hagrees
        rw [hstop]
        dsimp only at hscan
        split at hscan
        · rename_i hquiet
          cases hscan
          refine Stops.idle ?_ ⟨hvalues, stop, rfl, hsame⟩ hrest
          rcases hquiet with rfl | hquiet
          · exact fun st hst => ⟨st, rfl, hst, Same.refl st⟩
          · exact (hidle hquiet).repeatRun n
        · cases hscan

theorem forever_agrees {ends} (hends : ends = some true → Ends control true) {fuel} :
    ∀ {st st' : FormatState} {rounds k : Nat} {r : Scan}, whileValues run rounds st = .ok st' → st.values.length = k →
      scanForever scan ends fuel k = some r → r = .halt ∧ Stops st' (repeatForever control fuel st) := by
  induction fuel with
  | zero =>
    intro st st' rounds k r hrun hk hscan
    cases hscan
  | succ fuel ih =>
    intro st st' rounds k r hrun hk hscan
    cases k with
    | zero =>
      have hvalues : st.values = [] := List.length_eq_zero_iff.mp hk
      rw [whileValues_nil hvalues] at hrun
      cases hrun
      rw [scanForever] at hscan
      split at hscan
      · rename_i hstops
        obtain ⟨stop, hstop, _, hsame⟩ := hends hstops st hvalues
        cases hscan
        exact ⟨rfl, hvalues, stop, by rw [repeatForever, hstop]; rfl, hsame.symm⟩
      · cases hscan
    | succ k =>
      have hvalues : st.values ≠ [] := fun h => by
        rw [h] at hk
        cases hk
      cases rounds with
      | zero =>
        rw [whileValues, if_neg (by rwa [List.isEmpty_iff])] at hrun
        cases hrun
      | succ rounds =>
        rw [whileValues_cons hvalues] at hrun
        obtain ⟨st₁, hrun₁, hrest⟩ := bind_eq_ok hrun
        rw [scanForever] at hscan
        cases hfirst : scan (k + 1) with
        | none => rw [hfirst] at hscan; cases hscan
        | some first =>
          have hagrees := hlist hrun₁ hk hfirst
          rw [hfirst] at hscan
          rw [repeatForever]
          cases first with
          | proceed k' =>
            rw [hagrees.1]
            exact ih hrest hagrees.2 hscan
          | leave | halt =>
            obtain ⟨hvalues₁, stop, hstop, hsame⟩ := hagrees
            rw [hstop]
            rw [whileValues_nil hvalues₁] at hrest
            cases hrest
            cases hscan
            exact ⟨rfl, hvalues₁, stop, rfl, hsame⟩

end Loops

theorem consume_takes {st' : FormatState} {desc val rest} (h : st.consume formatValueText desc val rest = .ok st') :
    st'.values = rest ∧ st'.applied = st.applied ++ [(desc, val)] := by
  obtain ⟨output, -, rfl⟩ := map_eq_ok h
  exact ⟨rfl, rfl⟩

theorem scanRepeat_ne_leave {run : Nat → Option Scan} {idle} (n k) : scanRepeat run idle n k ≠ some .leave := by
  induction n generalizing k with
  | zero => exact fun h => by cases h
  | succ n ih =>
    intro h
    rw [scanRepeat] at h
    split at h
    · cases h
    · exact ih _ h
    · split at h <;> cases h

mutual

theorem scan_agrees : (desc : FormatDesc) → {st : FormatState} → {c : Control} → {k : Nat} → {r : Scan} →
    applyDescriptor formatValueText desc st = .ok c → st.values.length = k → desc.scan k = some r →
    DescAgrees c (interpretDescriptor formatValueText desc st) r
  | .control desc, st, c, k, r, hrun, hk, hscan => by
      rw [applyDescriptor] at hrun
      obtain ⟨st', happly, rfl⟩ := map_eq_ok hrun
      cases hscan
      exact ⟨st', rfl, by rw [interpretDescriptor, happly]; rfl, by rw [(desc.apply_keeps happly).1, hk]⟩
  | .colon, st, c, k, r, hrun, hk, hscan => by
      cases hrun
      cases hscan
      rw [interpretDescriptor]
      cases hv : st.values with
      | nil =>
        obtain rfl : k = 0 := by rw [← hk, hv]; rfl
        exact ⟨st, rfl, hv, st, rfl, Same.refl st⟩
      | cons val rest =>
        have hne : k ≠ 0 := by rw [← hk, hv]; exact Nat.succ_ne_zero _
        rw [if_neg hne]
        exact ⟨st, rfl, rfl, hk⟩
  | .derivedType _ _, st, c, k, r, hrun, hk, hscan => by
      rw [FormatDesc.scan] at hscan
      split at hscan
      · rename_i hzero
        cases hscan
        have hv : st.values = [] := List.length_eq_zero_iff.mp (hk.trans hzero)
        rw [applyDescriptor, hv] at hrun
        cases hrun
        exact ⟨st, rfl, hv, st, by rw [interpretDescriptor, hv]; rfl, Same.refl st⟩
      · cases hscan
  | .data desc, st, c, k, r, hrun, hk, hscan => by
      rw [applyDescriptor] at hrun
      rw [interpretDescriptor]
      cases hv : st.values with
      | nil =>
        obtain rfl : k = 0 := by rw [← hk, hv]; rfl
        rw [hv] at hrun
        cases hrun
        cases hscan
        exact ⟨st, rfl, hv, st, rfl, Same.refl st⟩
      | cons val rest =>
        obtain rfl : k = rest.length + 1 := by rw [← hk, hv]; rfl
        rw [hv] at hrun
        cases hscan
        obtain ⟨st', hconsume, rfl⟩ := map_eq_ok hrun
        exact ⟨st', rfl, by dsimp only; rw [hconsume]; rfl, by rw [(consume_takes hconsume).1]⟩
  | .group count descriptors _, st, c, k, r, hrun, hk, hscan => by
      rw [applyDescriptor] at hrun
      obtain ⟨st', hrepeat, rfl⟩ := map_eq_ok hrun
      have hagrees := repeat_agrees (scanList_agrees descriptors) (fun h => idleList_run descriptors h) hrepeat hk hscan
      rw [interpretDescriptor]
      cases r with
      | proceed k' => exact ⟨st', rfl, hagrees⟩
      | leave => exact absurd hscan (scanRepeat_ne_leave _ _)
      | halt => exact ⟨st', rfl, hagrees⟩
  | .unlimitedRepeat descriptors, st, c, k, r, hrun, hk, hscan => by
      rw [applyDescriptor] at hrun
      obtain ⟨st', hwhile, rfl⟩ := map_eq_ok hrun
      obtain ⟨rfl, hstops⟩ := forever_agrees (scanList_agrees descriptors) (fun h => endsList_run descriptors h)
        hwhile hk hscan
      rw [interpretDescriptor, hk]
      exact ⟨st', rfl, hstops⟩

theorem scanList_agrees : (descs : List FormatDesc) → {st st' : FormatState} → {k : Nat} → {r : Scan} →
    applyDescriptors formatValueText descs st = .ok st' → st.values.length = k → scanList descs k = some r →
    Agrees st' (interpret formatValueText descs st) r
  | [], st, st', k, r, hrun, hk, hscan => by
      cases hrun
      cases hscan
      exact ⟨rfl, hk⟩
  | desc :: descs, st, st', k, r, hrun, hk, hscan => by
      rw [applyDescriptors] at hrun
      obtain ⟨c, hfirst, hrest⟩ := bind_eq_ok hrun
      rw [scanList] at hscan
      cases hd : desc.scan k with
      | none => rw [hd] at hscan; cases hscan
      | some first =>
        have hagrees := scan_agrees desc hfirst hk hd
        rw [hd] at hscan
        rw [interpret]
        cases first with
        | proceed k' =>
          obtain ⟨st₁, rfl, hproceed, hk'⟩ := hagrees
          rw [hproceed]
          exact scanList_agrees descs hrest hk' hscan
        | leave =>
          obtain ⟨st₁, rfl, hvalues, stop, hstop, hsame⟩ := hagrees
          rw [hstop]
          cases hrest
          cases hscan
          exact ⟨hvalues, stop, rfl, hsame⟩
        | halt =>
          obtain ⟨st₁, rfl, hvalues, stop, hstop, hsame⟩ := hagrees
          rw [hstop]
          dsimp only at hscan
          split at hscan
          · cases hscan
            exact Stops.idle (idleList_run descs ‹_›) ⟨hvalues, stop, rfl, hsame⟩ hrest
          · cases hscan

end

end Armfortas.Runtime.Format
