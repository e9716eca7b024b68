import Armfortas.Lib.Bytes

/-! The unit as the transfer statements see it: the record that is written, the record that is read, the nesting of
child transfers on the same unit. A statement is what the compiler makes of it: begin, its items, end. -/
namespace Armfortas.Runtime.Io
open Lib

abbrev Byte := BitVec 8

inductive Access
  | sequential
  | direct
  | stream
  deriving DecidableEq, Repr

inductive Form
  | formatted
  | unformatted
  deriving DecidableEq, Repr

/-- `Unit`, with the file it is connected to. -/
structure IoUnit where
  file : List Byte := []
  pos : Nat := 0
  access : Access
  form : Form
  recl : Option Nat := none
  listWriteActive : Bool := false
  listWriteDepth : Nat := 0
  listWriteError : Option String := none
  pendingRecord : Option (List Byte) := none
  pendingRead : Option (List Byte × Nat) := none
  listReadDepth : Nat := 0
  deriving DecidableEq, Repr

def iostatEnd : Int := -1

namespace IoUnit

/-! ## The file -/

/-- `write_all` at the position. -/
def writeRaw (u : IoUnit) (bytes : List Byte) : IoUnit :=
  { u with
    file := u.file.take u.pos ++ bytes ++ u.file.drop (u.pos + bytes.length)
    pos := u.pos + bytes.length }

def rest (u : IoUnit) : List Byte := u.file.drop u.pos

/-- `read_raw_exact`, which goes on reading until it has all the bytes, or none are left: the bytes that it has got. -/
def readRawExact (u : IoUnit) (n : Nat) : List Byte × IoUnit :=
  (u.rest.take n, { u with pos := u.pos + (u.rest.take n).length })

def readLine (u : IoUnit) : List Byte × IoUnit :=
  let line := u.rest.take ((u.rest.takeWhile (· ≠ 10)).length + 1)
  (line, { u with pos := u.pos + line.length })

def rewind (u : IoUnit) : IoUnit := { u with pos := 0, pendingRead := none, listReadDepth := 0 }

/-! ## WRITE -/

def checkedSucc (depth : Nat) : Option Nat := if depth + 1 < 2 ^ 64 then some (depth + 1) else none

/-- `afs_list_write_begin`: the unit and the status. -/
def listWriteBegin (u : IoUnit) : IoUnit × Int :=
  if u.listWriteDepth > 0 then
    match checkedSucc u.listWriteDepth with
    | none =>
        ({ u with listWriteError := u.listWriteError.or (some "defined I/O child write nesting depth overflow") }, 1)
    | some depth => ({ u with listWriteDepth := depth }, 0)
  else if u.access = .direct then
    ({ u with
      listWriteActive := true
      listWriteDepth := 1
      listWriteError := some "direct-access WRITE requires REC="
      pendingRecord := none }, 1)
  else
    ({ u with
      listWriteActive := true
      listWriteDepth := 1
      listWriteError := none
      pendingRecord :=
        if u.form = .unformatted ∧ u.access = .sequential then some [] else u.pendingRecord }, 0)

/-- `list_write_raw_or_buffer`, on a file that takes every write. -/
def listWriteRawOrBuffer (u : IoUnit) (bytes : List Byte) : IoUnit :=
  if u.listWriteActive ∧ u.listWriteError.isSome then u
  else match u.pendingRecord with
    | some buf => { u with pendingRecord := some (buf ++ bytes) }
    | none => u.writeRaw bytes

/-- `(len as u32).to_ne_bytes()`. -/
def marker (len : Nat) : List Byte := natBytes 4 len

/-- What `afs_list_write_end` does with the record, which it has taken. -/
def drainRecord (u : IoUnit) (buf : List Byte) : IoUnit :=
  if u.access = .direct then
    match u.recl with
    | some recl =>
        if buf.length ≤ recl then u.listWriteRawOrBuffer (buf ++ List.replicate (recl - buf.length) 0)
        else { u with listWriteError := some "unformatted direct-access record exceeds RECL=" }
    | none => { u with listWriteError := some "direct access requires a valid RECL=" }
  else
    let u := u.listWriteRawOrBuffer (marker buf.length)
    let u := if buf.isEmpty then u else u.listWriteRawOrBuffer buf
    u.listWriteRawOrBuffer (marker buf.length)

/-- `afs_list_write_end`, which is given the status and only changes it on an error. -/
def listWriteEnd (u : IoUnit) (iostat : Int) : IoUnit × Int :=
  if u.listWriteDepth > 1 then
    ({ u with listWriteDepth := u.listWriteDepth - 1 }, if u.listWriteError.isSome then 1 else iostat)
  else
    let u := { u with listWriteDepth := 0 }
    let u := match u.pendingRecord with
      | some buf => { u with pendingRecord := none }.drainRecord buf
      | none => u
    ({ u with listWriteError := none, listWriteActive := false }, if u.listWriteError.isSome then 1 else iostat)

/-! ## READ -/

/-- The part of `afs_list_read_begin` that reads a record `[len][bytes][len]`. -/
def readRecord (u : IoUnit) : IoUnit × Int :=
  let (lenBuf, u) := { u with pendingRead := none, listReadDepth := 1 }.readRawExact 4
  if lenBuf.isEmpty then ({ u with listReadDepth := 0 }, iostatEnd)
  else if lenBuf.length < 4 then ({ u with listReadDepth := 0 }, 1)
  else
    let recordLen := bytesNat lenBuf
    let (data, u) := u.readRawExact recordLen
    if data.length < recordLen then ({ u with listReadDepth := 0 }, 1)
    else
      let (trailer, u) := u.readRawExact 4
      if trailer.length < 4 ∨ bytesNat trailer ≠ recordLen then ({ u with listReadDepth := 0 }, 1)
      else ({ u with pendingRead := some (data, 0) }, 0)

/-- `afs_list_read_begin`, which is given the status of the statement so far. -/
def listReadBegin (u : IoUnit) (iostat : Int) : IoUnit × Int :=
  if iostat ≠ 0 then (u, iostat)
  else if u.access = .direct ∧ u.listReadDepth = 0 then
    ({ u with pendingRead := some ([], 0), listReadDepth := 1 }, 1)
  else if u.access = .direct ∨ u.form = .formatted ∨ (u.access = .sequential ∧ u.listReadDepth > 0) then
    match checkedSucc u.listReadDepth with
    | none => (u, 1)
    | some depth => ({ u with listReadDepth := depth }, 0)
  else if u.access = .stream then (u, 0)
  else u.readRecord

def readBufferTake (u : IoUnit) (n : Nat) : Option (List Byte × IoUnit) :=
  match u.pendingRead with
  | none => none
  | some (buf, cur) =>
      if cur + n > buf.length then none
      else some ((buf.drop cur).take n, { u with pendingRead := some (buf, cur + n) })

/-- A typed helper: the bytes of the value, or the status 1 for a record that is too short. Without a record it goes on
to the formatted input of the unit, which is not part of this development. -/
def readElement (u : IoUnit) (n : Nat) : Option (Option (List Byte) × IoUnit) :=
  match u.readBufferTake n with
  | some (bytes, u) => some (some bytes, u)
  | none => if u.pendingRead.isSome then some (none, u) else none

def listReadEnd (u : IoUnit) : IoUnit :=
  if u.form = .formatted ∧ u.access ≠ .direct then { u with listReadDepth := u.listReadDepth - 1 }
  else if u.form = .formatted ∨ u.access = .stream then u
  else if u.listReadDepth > 1 then { u with listReadDepth := u.listReadDepth - 1 }
  else { u with listReadDepth := 0, pendingRead := none }

/-- `afs_read_skip_record`, the whole of a READ statement without items between begin and end. -/
def readSkipRecord (u : IoUnit) : IoUnit × Int :=
  let (line, u) := u.readLine
  (u, if line.isEmpty then iostatEnd else 0)

end IoUnit

/-! ## Statements -/

/-- An item of a WRITE statement: bytes, or a child WRITE that a defined output procedure issues on the unit. -/
inductive WriteItem
  | transfer (bytes : List Byte)
  | child (items : List WriteItem)

/-- Between begin and end: nothing more is written once the status is set. -/
def transferWrite (body : IoUnit → IoUnit × Int) (u : IoUnit) : IoUnit × Int :=
  let (u, iostat) := u.listWriteBegin
  let (u, iostat) := if iostat ≠ 0 then (u, iostat) else body u
  u.listWriteEnd iostat

mutual

def WriteItem.run : WriteItem → IoUnit → IoUnit × Int
  | .transfer bytes, u =>
      let u := u.listWriteRawOrBuffer bytes
      (u, if u.listWriteError.isSome then 1 else 0)
  | .child items, u => transferWrite (runWriteItems items) u

def runWriteItems : List WriteItem → IoUnit → IoUnit × Int
  | [], u => (u, 0)
  | item :: items, u =>
      let (u, iostat) := item.run u
      if iostat ≠ 0 then (u, iostat) else runWriteItems items u

end

def writeStatement (items : List WriteItem) (u : IoUnit) : IoUnit × Int := transferWrite (runWriteItems items) u

def writeStatements : List (List WriteItem) → IoUnit → IoUnit × List Int
  | [], u => (u, [])
  | w :: ws, u =>
      let (u, iostat) := writeStatement w u
      let (u, rest) := writeStatements ws u
      (u, iostat :: rest)

/-- An item of a READ statement: its elements, by size, or a child READ that a defined input procedure issues on the
unit. The procedure hands the status of the child on, or it has handled it. -/
inductive ReadItem
  | transfer (sizes : List Nat)
  | child (items : List ReadItem) (handled : Bool)

/-- The status of a statement, and for each element transferred the size and the bytes; none if the record is too short
for it. -/
structure ReadOutcome where
  iostat : Int
  elements : List (Nat × Option (List Byte))
  deriving DecidableEq, Repr

def runSizes : List Nat → IoUnit → Option (IoUnit × ReadOutcome)
  | [], u => some (u, ⟨0, []⟩)
  | n :: ns, u => do
      let (bytes, u) ← u.readElement n
      if bytes.isNone then some (u, ⟨1, [(n, none)]⟩)
      else
        let (u, r) ← runSizes ns u
        some (u, ⟨r.iostat, (n, bytes) :: r.elements⟩)

/-- Between begin and end. A statement without items skips a record where others transfer. -/
def transferRead (itemless : Bool) (body : IoUnit → Option (IoUnit × ReadOutcome)) (u : IoUnit) :
    Option (IoUnit × ReadOutcome) := do
  let (u, iostat) := u.listReadBegin 0
  if itemless then
    let (u, iostat) := u.readSkipRecord
    some (u.listReadEnd, ⟨iostat, []⟩)
  else if iostat ≠ 0 then some (u.listReadEnd, ⟨iostat, []⟩)
  else
    let (u, r) ← body u
    some (u.listReadEnd, r)

mutual

def ReadItem.run : ReadItem → IoUnit → Option (IoUnit × ReadOutcome)
  | .transfer sizes, u => runSizes sizes u
  | .child items handled, u => do
      let (u, r) ← transferRead items.isEmpty (runReadItems items) u
      some (u, if handled then ⟨0, r.elements⟩ else r)

def runReadItems : List ReadItem → IoUnit → Option (IoUnit × ReadOutcome)
  | [], u => some (u, ⟨0, []⟩)
  | item :: items, u => do
      let (u, r) ← item.run u
      if r.iostat ≠ 0 then some (u, r)
      else
        let (u, r') ← runReadItems items u
        some (u, ⟨r'.iostat, r.elements ++ r'.elements⟩)

end

def readStatement (items : List ReadItem) (u : IoUnit) : Option (IoUnit × ReadOutcome) :=
  transferRead items.isEmpty (runReadItems items) u

def readStatements : List (List ReadItem) → IoUnit → Option (IoUnit × List ReadOutcome)
  | [], u => some (u, [])
  | r :: rs, u => do
      let (u, o) ← readStatement r u
      let (u, os) ← readStatements rs u
      some (u, o :: os)

end Armfortas.Runtime.Io
