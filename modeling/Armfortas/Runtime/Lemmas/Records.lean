import Armfortas.Runtime.Io.Records

/-! What a WRITE statement puts into the file, and what a READ statement takes out of a record. -/
namespace Armfortas.Runtime.Io
open Lib List IoUnit

variable {u : IoUnit}

/-! ## What statements are to transfer -/

mutual

/-- The bytes of an item, those of child transfers in their place. -/
def WriteItem.bytes : WriteItem → List Byte
  | .transfer bytes => bytes
  | .child items => writtenBytes items

def writtenBytes : List WriteItem → List Byte
  | [] => []
  | item :: items => item.bytes ++ writtenBytes items

end

mutual

def WriteItem.nesting : WriteItem → Nat
  | .transfer _ => 0
  | .child items => writeNesting items + 1

def writeNesting : List WriteItem → Nat
  | [] => 0
  | item :: items => max item.nesting (writeNesting items)

end

mutual

def ReadItem.nesting : ReadItem → Nat
  | .transfer _ => 0
  | .child items _ => readNesting items + 1

def readNesting : List ReadItem → Nat
  | [] => 0
  | item :: items => max item.nesting (readNesting items)

end

/-- The elements of an item out of what is left of a record: each takes its bytes, until one asks for more than there
are. That one takes nothing. -/
def takeSizes : List Nat → List Byte → List Byte × ReadOutcome
  | [], rest => (rest, ⟨0, []⟩)
  | n :: ns, rest =>
      if n ≤ rest.length then
        let (rest', r) := takeSizes ns (rest.drop n)
        (rest', ⟨r.iostat, (n, some (rest.take n)) :: r.elements⟩)
      else (rest, ⟨1, [(n, none)]⟩)

mutual

/-- An item out of what is left of a record; a child transfer goes on where its parent stands. -/
def ReadItem.take : ReadItem → List Byte → List Byte × ReadOutcome
  | .transfer sizes, rest => takeSizes sizes rest
  | .child items handled, rest =>
      let (rest, r) := takeItems items rest
      (rest, if handled then ⟨0, r.elements⟩ else r)

def takeItems : List ReadItem → List Byte → List Byte × ReadOutcome
  | [], rest => (rest, ⟨0, []⟩)
  | item :: items, rest =>
      let (rest, r) := item.take rest
      if r.iostat ≠ 0 then (rest, r)
      else
        let (rest, r') := takeItems items rest
        (rest, ⟨r'.iostat, r.elements ++ r'.elements⟩)

end

mutual

/-- Every child transfer that the item comes to has an item. -/
def ReadItem.itemized : ReadItem → List Byte → Bool
  | .transfer _, _ => true
  | .child items _, rest => !items.isEmpty && itemizedAll items rest

def itemizedAll : List ReadItem → List Byte → Bool
  | [], _ => true
  | item :: items, rest =>
      item.itemized rest && ((item.take rest).2.iostat != 0 || itemizedAll items (item.take rest).1)

end

/-- What a READ statement is to see of the record it finds, or of the end of the file. -/
def expectedOutcome (record : Option (List Byte)) (items : List ReadItem) : ReadOutcome :=
  match record with
  | some bytes => (takeItems items bytes).2
  | none => ⟨iostatEnd, []⟩

/-! ## Writing -/

theorem checkedSucc_eq {depth} (h : depth + 1 < 2 ^ 64) : checkedSucc depth = some (depth + 1) := if_pos h

mutual

theorem WriteItem.run_eq : (item : WriteItem) → {u : IoUnit} → {buf : List Byte} →
    0 < u.listWriteDepth → u.listWriteDepth + item.nesting < 2 ^ 64 → u.pendingRecord = some buf →
    u.listWriteError = none → item.run u = ({ u with pendingRecord := some (buf ++ item.bytes) }, 0)
  | .transfer bytes, u, buf, _, _, hbuf, herr => by
      simp [WriteItem.run, WriteItem.bytes, listWriteRawOrBuffer, hbuf, herr]
  | .child items, u, buf, hpos, hdepth, hbuf, herr => by
      rw [WriteItem.nesting] at hdepth
      have hbegin : u.listWriteBegin = ({ u with listWriteDepth := u.listWriteDepth + 1 }, 0) := by
        rw [listWriteBegin, if_pos hpos, checkedSucc_eq (by omega)]
      have hbody := runWriteItems_eq items (u := { u with listWriteDepth := u.listWriteDepth + 1 })
        (Nat.succ_pos _) (by simpa using (by omega : u.listWriteDepth + 1 + writeNesting items < 2 ^ 64)) hbuf herr
      rw [WriteItem.run, transferWrite, hbegin]
      simp only [ne_eq, not_true_eq_false, if_false, hbody]
      rw [listWriteEnd, if_pos (show u.listWriteDepth + 1 > 1 by omega)]
      simp [herr, WriteItem.bytes]

theorem runWriteItems_eq : (items : List WriteItem) → {u : IoUnit} → {buf : List Byte} →
    0 < u.listWriteDepth → u.listWriteDepth + writeNesting items < 2 ^ 64 → u.pendingRecord = some buf →
    u.listWriteError = none → runWriteItems items u = ({ u with pendingRecord := some (buf ++ writtenBytes items) }, 0)
  | [], u, buf, _, _, hbuf, _ => by simp [runWriteItems, writtenBytes, ← hbuf]
  | item :: items, u, buf, hpos, hdepth, hbuf, herr => by
      rw [writeNesting] at hdepth
      have hitem := item.run_eq hpos (by omega) hbuf herr
      have hitems := runWriteItems_eq items (u := { u with pendingRecord := some (buf ++ item.bytes) }) hpos
        (by simpa using (by omega : u.listWriteDepth + writeNesting items < 2 ^ 64)) rfl herr
      rw [runWriteItems, hitem]
      simp only [ne_eq, not_true_eq_false, if_false, hitems, writtenBytes, append_assoc]

end

/-- Between statements, for sequential unformatted transfers. -/
structure IoUnit.Idle (u : IoUnit) : Prop where
  access : u.access = .sequential
  form : u.form = .unformatted
  active : u.listWriteActive = false
  writeDepth : u.listWriteDepth = 0
  error : u.listWriteError = none
  record : u.pendingRecord = none
  readDepth : u.listReadDepth = 0
  read : u.pendingRead = none

def frame (bytes : List Byte) : List Byte := marker bytes.length ++ bytes ++ marker bytes.length

def IoUnit.extend (u : IoUnit) (bytes : List Byte) : IoUnit :=
  { u with file := u.file ++ bytes, pos := u.pos + bytes.length }

theorem IoUnit.extend_extend (u : IoUnit) (a b) : (u.extend a).extend b = u.extend (a ++ b) := by
  simp [extend, Nat.add_assoc]

theorem IoUnit.Idle.extend (h : u.Idle) (bytes) : (u.extend bytes).Idle :=
  ⟨h.access, h.form, h.active, h.writeDepth, h.error, h.record, h.readDepth, h.read⟩

theorem writeRaw_at_end (h : u.pos = u.file.length) (bytes) : u.writeRaw bytes = u.extend bytes := by
  simp [writeRaw, extend, h]

theorem drainRecord_eq (haccess : u.access = .sequential) (herr : u.listWriteError = none)
    (hrecord : u.pendingRecord = none) (hpos : u.pos = u.file.length) (buf) :
    u.drainRecord buf = u.extend (frame buf) := by
  have hput : ∀ v : IoUnit, v.listWriteError = none → v.pendingRecord = none → v.pos = v.file.length →
      ∀ bytes, v.listWriteRawOrBuffer bytes = v.extend bytes := by
    intro v herr hrecord hpos bytes
    rw [listWriteRawOrBuffer, if_neg (by simp [herr]), hrecord]
    exact writeRaw_at_end hpos bytes
  have hend : ∀ bytes, (u.extend bytes).pos = (u.extend bytes).file.length := by
    simp [extend, hpos]
  rw [drainRecord, if_neg (by simp [haccess])]
  simp only [hput u herr hrecord hpos]
  cases buf with
  | nil =>
    simp only [isEmpty_nil, if_true]
    rw [hput (u.extend _) herr hrecord (hend _), extend_extend, frame, append_nil]
  | cons b bs =>
    simp only [isEmpty_cons, Bool.false_eq_true, if_false]
    rw [hput (u.extend _) herr hrecord (hend _), extend_extend, hput (u.extend _) herr hrecord (hend _),
      extend_extend, frame]

theorem listWriteEnd_outermost {buf} (hdepth : u.listWriteDepth = 1)
    (haccess : u.access = .sequential) (herr : u.listWriteError = none) (hrecord : u.pendingRecord = some buf)
    (hpos : u.pos = u.file.length) : u.listWriteEnd 0 = ({ u.extend (frame buf) with
      listWriteActive := false, listWriteDepth := 0, listWriteError := none, pendingRecord := none }, 0) := by
  have hdrain : ({ u with listWriteDepth := 0, pendingRecord := none } : IoUnit).drainRecord buf =
      ({ u with listWriteDepth := 0, pendingRecord := none } : IoUnit).extend (frame buf) :=
    drainRecord_eq (u := { u with listWriteDepth := 0, pendingRecord := none }) haccess herr rfl hpos buf
  rw [listWriteEnd, if_neg (by omega)]
  simp only [hrecord, hdrain]
  simp [extend, herr]

theorem writeStatement_eq (hidle : u.Idle) (hpos : u.pos = u.file.length) {items}
    (hdepth : writeNesting items + 1 < 2 ^ 64) :
    writeStatement items u = (u.extend (frame (writtenBytes items)), 0) := by
  have hbegin : u.listWriteBegin =
      ({ u with listWriteActive := true, listWriteDepth := 1, pendingRecord := some [] }, 0) := by
    rw [listWriteBegin, if_neg (by simp [hidle.writeDepth]), if_neg (by simp [hidle.access]),
      if_pos ⟨hidle.form, hidle.access⟩, hidle.error]
  have hbody := runWriteItems_eq items
    (u := { u with listWriteActive := true, listWriteDepth := 1, pendingRecord := some [] })
    Nat.one_pos (by simpa using (by omega : 1 + writeNesting items < 2 ^ 64)) rfl hidle.error
  rw [writeStatement, transferWrite, hbegin]
  simp only [ne_eq, not_true_eq_false, if_false, hbody, nil_append]
  have hend := listWriteEnd_outermost (u := { u with
    listWriteActive := true, listWriteDepth := 1, pendingRecord := some (writtenBytes items) })
    rfl hidle.access hidle.error rfl hpos
  rw [hend]
  simp [extend, ← hidle.error, ← hidle.active, ← hidle.writeDepth, ← hidle.record]

theorem writeStatements_eq {ws} (hdepth : ∀ w ∈ ws, writeNesting w + 1 < 2 ^ 64)
    (hidle : u.Idle) (hpos : u.pos = u.file.length) :
    writeStatements ws u = (u.extend (ws.flatMap fun w => frame (writtenBytes w)), ws.map fun _ => 0) := by
  induction ws generalizing u with
  | nil => simp [writeStatements, extend]
  | cons w ws ih =>
    rw [forall_mem_cons] at hdepth
    rw [writeStatements, writeStatement_eq hidle hpos hdepth.1]
    simp only
    rw [ih hdepth.2 (hidle.extend _) (by simp [extend, hpos])]
    simp [extend_extend]

/-! ## Reading -/

theorem runSizes_eq (sizes) {buf cur} (hread : u.pendingRead = some (buf, cur)) (hcur : cur ≤ buf.length) :
    ∃ cur' ≤ buf.length, buf.drop cur' = (takeSizes sizes (buf.drop cur)).1 ∧
      runSizes sizes u = some ({ u with pendingRead := some (buf, cur') }, (takeSizes sizes (buf.drop cur)).2) := by
  induction sizes generalizing u cur with
  | nil => exact ⟨cur, hcur, rfl, by simp [runSizes, takeSizes, ← hread]⟩
  | cons n ns ih =>
    by_cases hn : n ≤ (buf.drop cur).length
    · have hsum : cur + n ≤ buf.length := by
        rw [length_drop] at hn
        omega
      obtain ⟨cur', hcur', hrest, hrun⟩ := ih (u := { u with pendingRead := some (buf, cur + n) }) rfl hsum
      refine ⟨cur', hcur', ?_, ?_⟩
      · rw [takeSizes, if_pos hn, drop_drop]
        exact hrest
      · have htake : u.readElement n =
            some (some ((buf.drop cur).take n), { u with pendingRead := some (buf, cur + n) }) := by
          rw [readElement, readBufferTake, hread]
          simp only [if_neg (show ¬ cur + n > buf.length by omega)]
        rw [runSizes, htake, takeSizes, if_pos hn, drop_drop]
        simp [hrun]
    · refine ⟨cur, hcur, by rw [takeSizes, if_neg hn], ?_⟩
      have htake : u.readElement n = some (none, u) := by
        rw [length_drop] at hn
        rw [readElement, readBufferTake, hread]
        simp only [if_pos (show cur + n > buf.length by omega)]
        simp
      rw [runSizes, htake, takeSizes, if_neg hn]
      simp [← hread]

mutual

theorem ReadItem.run_eq : (item : ReadItem) → {u : IoUnit} → {buf : List Byte} → {cur : Nat} →
    u.access = .sequential → u.form = .unformatted → 0 < u.listReadDepth → u.listReadDepth + item.nesting < 2 ^ 64 →
    item.itemized (buf.drop cur) = true → u.pendingRead = some (buf, cur) → cur ≤ buf.length →
    ∃ cur' ≤ buf.length, buf.drop cur' = (item.take (buf.drop cur)).1 ∧
      item.run u = some ({ u with pendingRead := some (buf, cur') }, (item.take (buf.drop cur)).2)
  | .transfer sizes, u, buf, cur, _, _, _, _, _, hread, hcur => runSizes_eq sizes hread hcur
  | .child items handled, u, buf, cur, haccess, hform, hpos, hdepth, hitems, hread, hcur => by
      rw [ReadItem.nesting] at hdepth
      rw [ReadItem.itemized, Bool.and_eq_true, Bool.not_eq_true'] at hitems
      have hbegin : u.listReadBegin 0 = ({ u with listReadDepth := u.listReadDepth + 1 }, 0) := by
        rw [IoUnit.listReadBegin, if_neg (by simp), if_neg (by simp [haccess]), if_pos (.inr (.inr ⟨haccess, hpos⟩)),
          checkedSucc_eq (by omega)]
      obtain ⟨cur', hcur', hrest, hrun⟩ := runReadItems_eq items
        (u := { u with listReadDepth := u.listReadDepth + 1 }) haccess hform (Nat.succ_pos _)
        (by simpa using (by omega : u.listReadDepth + 1 + readNesting items < 2 ^ 64)) hitems.2 hread hcur
      refine ⟨cur', hcur', hrest, ?_⟩
      rw [ReadItem.run, transferRead, hbegin, hitems.1]
      simp only [Bool.false_eq_true, if_false, ne_eq, not_true_eq_false, hrun]
      rw [ReadItem.take]
      simp [IoUnit.listReadEnd, hform, haccess, show u.listReadDepth + 1 > 1 by omega]

theorem runReadItems_eq : (items : List ReadItem) → {u : IoUnit} → {buf : List Byte} → {cur : Nat} →
    u.access = .sequential → u.form = .unformatted → 0 < u.listReadDepth →
    u.listReadDepth + readNesting items < 2 ^ 64 → itemizedAll items (buf.drop cur) = true →
    u.pendingRead = some (buf, cur) → cur ≤ buf.length →
    ∃ cur' ≤ buf.length, buf.drop cur' = (takeItems items (buf.drop cur)).1 ∧
      runReadItems items u = some ({ u with pendingRead := some (buf, cur') }, (takeItems items (buf.drop cur)).2)
  | [], u, buf, cur, _, _, _, _, _, hread, hcur => ⟨cur, hcur, rfl, by simp [runReadItems, takeItems, ← hread]⟩
  | item :: items, u, buf, cur, haccess, hform, hpos, hdepth, hitems, hread, hcur => by
      rw [readNesting] at hdepth
      rw [itemizedAll, Bool.and_eq_true] at hitems
      obtain ⟨cur₁, hcur₁, hrest₁, hrun₁⟩ := item.run_eq haccess hform hpos (by omega) hitems.1 hread hcur
      rw [runReadItems, hrun₁, takeItems]
      by_cases hstat : (item.take (buf.drop cur)).2.iostat = 0
      · have hitems₂ : itemizedAll items (buf.drop cur₁) = true := by simpa [hstat, hrest₁] using hitems.2
        obtain ⟨cur₂, hcur₂, hrest₂, hrun₂⟩ := runReadItems_eq items
          (u := { u with pendingRead := some (buf, cur₁) }) haccess hform hpos
          (by simpa using (by omega : u.listReadDepth + readNesting items < 2 ^ 64)) hitems₂ rfl hcur₁
        rw [hrest₁] at hrest₂ hrun₂
        refine ⟨cur₂, hcur₂, ?_, ?_⟩
        · simpa [hstat] using hrest₂
        · simp [hstat, hrun₂]
      · exact ⟨cur₁, hcur₁, by simpa [hstat] using hrest₁, by simp [hstat]⟩

end

/-! ## Whole statements -/

theorem bytesNat_marker {len} (h : len < 2 ^ 32) : bytesNat (marker len) = len := by
  rw [marker, bytesNat_natBytes]
  exact Nat.mod_eq_of_lt h

theorem length_marker (len) : (marker len).length = 4 := length_natBytes 4 len

theorem readRawExact_append {a b} (h : u.rest = a ++ b) :
    u.readRawExact a.length = (a, { u with pos := u.pos + a.length }) := by
  simp [readRawExact, h]

theorem rest_advance {a b} (h : u.rest = a ++ b) :
    ({ u with pos := u.pos + a.length } : IoUnit).rest = b := by
  rw [rest] at h ⊢
  rw [← drop_drop, h, drop_left]

theorem readRecord_frame {bytes more : List Byte} (hlen : bytes.length < 2 ^ 32)
    (hrest : u.rest = frame bytes ++ more) : u.readRecord =
      ({ u with pos := u.pos + (frame bytes).length, pendingRead := some (bytes, 0), listReadDepth := 1 }, 0) := by
  have hm : (marker bytes.length).length = 4 := length_marker _
  -- the three reads take the marker, the bytes and the marker again
  have h₁ : ({ u with pendingRead := none, listReadDepth := 1 } : IoUnit).rest =
      marker bytes.length ++ (bytes ++ (marker bytes.length ++ more)) := by
    rw [show ({ u with pendingRead := none, listReadDepth := 1 } : IoUnit).rest = u.rest from rfl, hrest, frame]
    simp
  have h₂ := rest_advance h₁
  have h₃ := rest_advance h₂
  have hread₁ := readRawExact_append h₁
  have hread₂ := readRawExact_append h₂
  have hread₃ := readRawExact_append h₃
  rw [hm] at hread₁ hread₂ hread₃ h₂ h₃
  have hempty : (marker bytes.length).isEmpty = false := by
    rw [← Bool.not_eq_true, isEmpty_iff_length_eq_zero, hm]
    omega
  rw [readRecord, hread₁]
  simp only [hempty, hm, bytesNat_marker hlen, hread₂, hread₃, Bool.false_eq_true, if_false, Nat.lt_irrefl,
    not_true_eq_false, ne_eq, or_self]
  simp [frame, hm, Nat.add_assoc]

theorem readRecord_end (hrest : u.rest = []) :
    u.readRecord = ({ u with pendingRead := none, listReadDepth := 0 }, iostatEnd) := by
  have hrest' : ({ u with pendingRead := none, listReadDepth := 1 } : IoUnit).rest = [] := hrest
  simp [readRecord, readRawExact, hrest']

namespace IoUnit.Idle

variable (hidle : u.Idle)
include hidle

theorem listReadBegin : u.listReadBegin 0 = u.readRecord := by
  simp [IoUnit.listReadBegin, hidle.access, hidle.form, hidle.readDepth]

theorem settled : ({ u with pendingRead := none, listReadDepth := 0 } : IoUnit) = u := by
  cases u
  simp only [mk.injEq, true_and]
  exact ⟨hidle.read.symm, hidle.readDepth.symm⟩

theorem listReadEnd : u.listReadEnd = u := by
  rw [IoUnit.listReadEnd, if_neg (by simp [hidle.form]), if_neg (by simp [hidle.form, hidle.access]),
    if_neg (by simp [hidle.readDepth])]
  exact hidle.settled

theorem advance (n) : ({ u with pos := n } : IoUnit).Idle :=
  ⟨hidle.access, hidle.form, hidle.active, hidle.writeDepth, hidle.error, hidle.record, hidle.readDepth, hidle.read⟩

theorem readStatement_frame {items} (hne : items ≠ []) {bytes more : List Byte} (hitems : itemizedAll items bytes = true)
    (hdepth : readNesting items + 1 < 2 ^ 64) (hlen : bytes.length < 2 ^ 32)
    (hrest : u.rest = frame bytes ++ more) :
    readStatement items u = some ({ u with pos := u.pos + (frame bytes).length }, (takeItems items bytes).2) := by
  have hempty : items.isEmpty = false := by simpa using hne
  obtain ⟨cur, -, -, hrun⟩ := runReadItems_eq items
    (u := { u with pos := u.pos + (frame bytes).length, pendingRead := some (bytes, 0), listReadDepth := 1 })
    hidle.access hidle.form Nat.one_pos (by simpa using (by omega : 1 + readNesting items < 2 ^ 64))
    (by rwa [drop_zero]) rfl (Nat.zero_le bytes.length)
  rw [readStatement, transferRead, hidle.listReadBegin, readRecord_frame hlen hrest, hempty]
  simp only [Bool.false_eq_true, if_false, ne_eq, not_true_eq_false, hrun]
  simp [IoUnit.listReadEnd, hidle.form, hidle.access, hidle.readDepth, hidle.read]

theorem readStatement_end (items) (hrest : u.rest = []) : readStatement items u = some (u, ⟨iostatEnd, []⟩) := by
  have hline : u.readSkipRecord = (u, iostatEnd) := by simp [readSkipRecord, readLine, hrest]
  rw [readStatement, transferRead, hidle.listReadBegin, readRecord_end hrest, hidle.settled]
  cases items.isEmpty <;> simp [iostatEnd, hidle.listReadEnd, hline]

end IoUnit.Idle

theorem readStatements_eq {rs} {records : List (List Byte)} (hitems : ∀ (k : Nat) r bytes, rs[k]? = some r →
      records[k]? = some bytes → r ≠ [] ∧ itemizedAll r bytes = true ∧ readNesting r + 1 < 2 ^ 64)
    (hlen : ∀ bytes ∈ records, bytes.length < 2 ^ 32) (hidle : u.Idle)
    (hrest : u.rest = records.flatMap frame) :
    ∃ u', readStatements rs u = some (u', rs.mapIdx fun k r => expectedOutcome records[k]? r) := by
  induction rs generalizing records u with
  | nil => exact ⟨u, rfl⟩
  | cons r rs ih =>
    cases records with
    | nil =>
      obtain ⟨u', hrun⟩ := ih (fun _ _ _ _ h => by cases h) hlen hidle hrest
      rw [readStatements, hidle.readStatement_end r hrest]
      simp [hrun, expectedOutcome, mapIdx_cons]
    | cons bytes records =>
      obtain ⟨hne, hall, hdepth⟩ := hitems 0 r bytes rfl rfl
      rw [forall_mem_cons] at hlen
      obtain ⟨u', hrun⟩ := ih (fun k => hitems (k + 1)) hlen.2 (hidle.advance _) (rest_advance hrest)
      rw [readStatements, hidle.readStatement_frame hne hall hdepth hlen.1 hrest]
      simp [hrun, expectedOutcome, mapIdx_cons]

end Armfortas.Runtime.Io
