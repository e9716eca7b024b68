import Armfortas.Runtime.Format.Parse

/-! The engine that applies a format to a list of values, with format reversion. How one value becomes text is a
parameter. Memory is taken to hold whatever a `Vec` can hold. -/
namespace Armfortas.Runtime.Format

/-! ## Records -/

structure FormatOutput where
  records : List (List UInt8) := []
  record : List UInt8 := []
  pos : Nat := 0
  highWater : Nat := 0
  deriving DecidableEq, Repr

def saturatingAdd (a b : Nat) : Nat := min (a + b) (2 ^ 64 - 1)

def isizeMax : Nat := 2 ^ 63 - 1

/-- How the engine fails: it returns an error, a record gets too long for a `Vec`, or a loop takes no value in a
round, so that it is never left by the number of values. -/
inductive FormatFailure
  | error (e : FormatError)
  | panics
  | diverges
  deriving DecidableEq, Repr

namespace FormatOutput

/-- `record.resize(end, b' ')` where that makes it longer. It panics beyond `isize::MAX`. -/
def grown (o : FormatOutput) (stop : Nat) : Except FormatFailure (List UInt8) :=
  if o.record.length < stop ∧ isizeMax < stop then .error .panics
  else .ok (o.record ++ List.replicate (stop - o.record.length) 32)

def write (o : FormatOutput) (bytes : List UInt8) : Except FormatFailure FormatOutput :=
  if bytes.isEmpty then .ok o
  else
    let stop := saturatingAdd o.pos bytes.length
    (o.grown stop).map fun record =>
      { o with
        record := record.take o.pos ++ bytes ++ record.drop stop
        pos := stop
        highWater := max o.highWater stop }

def writeSpaces (o : FormatOutput) (count : Nat) : Except FormatFailure FormatOutput :=
  if count = 0 then .ok o
  else
    let stop := saturatingAdd o.pos count
    (o.grown stop).map fun record => { o with record := record, pos := stop, highWater := max o.highWater stop }

def writeFitted (o : FormatOutput) (bytes : List UInt8) (width : Nat) : Except FormatFailure FormatOutput :=
  if width = 0 then o.write bytes
  else if bytes.length < width then (o.writeSpaces (width - bytes.length)).bind (write · bytes)
  else o.write (bytes.take width)

def advance (o : FormatOutput) (count : Nat) : FormatOutput := { o with pos := saturatingAdd o.pos count }

def tabTo (o : FormatOutput) (position : Nat) : FormatOutput := { o with pos := position - 1 }

def tabLeft (o : FormatOutput) (count : Nat) : FormatOutput := { o with pos := o.pos - count }

/-- `flush_record`, also `new_record`. -/
def newRecord (o : FormatOutput) : FormatOutput :=
  { records := o.records ++ [o.record.take o.highWater], record := [], pos := 0, highWater := 0 }

def finishRecords (o : FormatOutput) : List (List UInt8) := o.newRecord.records

end FormatOutput

/-! ## One descriptor -/

inductive IoValue
  | integer (value : Int)
  | integerKind (value : Int) (bitWidth : Nat)
  | real (bits : UInt64)
  | real32 (bits : UInt64)
  | logical (value : Bool)
  | character (bytes : List UInt8)
  deriving DecidableEq, Repr

structure FormatModes where
  signMode : SignMode := .default
  scaleFactor : Int := 0
  roundMode : RoundMode := .compatible
  decimalSep : DecimalSep := .point
  leadingZero : LeadingZeroMode := .default
  deriving DecidableEq, Repr

/-- The engine, the values that are left and what has been written. `applied` is not in the source: it keeps, for
what is said about the engine, which descriptor has been applied to which value. -/
structure FormatState where
  modes : FormatModes := { }
  values : List IoValue
  output : FormatOutput := { }
  applied : List (DataDesc × IoValue) := []
  deriving DecidableEq, Repr

def ControlDesc.apply (st : FormatState) : ControlDesc → Except FormatFailure FormatState
  | skip count | tabRight count => .ok { st with output := st.output.advance count }
  | tabTo position => .ok { st with output := st.output.tabTo position }
  | tabLeft count => .ok { st with output := st.output.tabLeft count }
  | newline => .ok { st with output := st.output.newRecord }
  | sign mode => .ok { st with modes := { st.modes with signMode := mode } }
  | blankMode _ => .ok st
  | scaleFactor k => .ok { st with modes := { st.modes with scaleFactor := k } }
  | roundingMode mode => .ok { st with modes := { st.modes with roundMode := mode } }
  | decimalMode sep => .ok { st with modes := { st.modes with decimalSep := sep } }
  | leadingZero mode => .ok { st with modes := { st.modes with leadingZero := mode } }
  | literalString text =>
      (st.output.write (text.flatMap String.utf8EncodeChar)).map fun output => { st with output := output }

/-- `format_value`; `none` where it panics, as it does on widths that it cannot pad to. -/
abbrev ValueText := FormatModes → DataDesc → IoValue → Option (Except FormatError (List UInt8))

variable (formatValueText : ValueText)

def writeValue (modes : FormatModes) (output : FormatOutput) (desc : DataDesc) (val : IoValue) :
    Except FormatFailure FormatOutput :=
  match desc, val with
  | .realG width _ _, .character bytes => output.writeFitted bytes width
  | .character (some width), .character bytes => output.writeFitted bytes width
  | .character none, .character bytes => output.write bytes
  | .charTrimmed, .character bytes => output.write (bytes.reverse.dropWhile (· == 32)).reverse
  | desc, val =>
      match formatValueText modes desc val with
      | none => .error .panics
      | some (.error e) => .error (.error e)
      | some (.ok text) => output.write text

def FormatState.consume (st : FormatState) (desc : DataDesc) (val : IoValue) (rest : List IoValue) :
    Except FormatFailure FormatState :=
  (writeValue formatValueText st.modes st.output desc val).map fun output =>
    { st with values := rest, output := output, applied := st.applied ++ [(desc, val)] }

/-- How a descriptor leaves the list it stands in. -/
inductive Control
  | proceed (st : FormatState)
  | stop (st : FormatState)
  deriving DecidableEq, Repr

/-! ## The engine -/

abbrev FormatRun := FormatState → Except FormatFailure FormatState

/-- `for _ in 0..repeat`. -/
def repeatRun (run : FormatRun) : Nat → FormatRun
  | 0, st => .ok st
  | n + 1, st => (run st).bind (repeatRun run n)

/-- `while *val_idx < values.len()`. A round that takes no value is followed by another one that takes none, so that as
many rounds as there are values are enough. -/
def whileValues (run : FormatRun) : Nat → FormatRun
  | fuel, st =>
      if st.values.isEmpty then .ok st
      else match fuel with
        | 0 => .error .diverges
        | fuel + 1 => (run st).bind (whileValues run fuel)

/-- The rest of the list after a descriptor that has not left it. -/
def Control.inList (next : FormatRun) : Control → Except FormatFailure FormatState
  | proceed st => next st
  | stop st => .ok st

mutual

/-- One round of the loop over descriptors; `stop` is `return Ok(())`. -/
def applyDescriptor : FormatDesc → FormatState → Except FormatFailure Control
  | .control desc, st => (desc.apply st).map .proceed
  | .colon, st => .ok (if st.values.isEmpty then .stop st else .proceed st)
  | .derivedType _ _, st => if st.values.isEmpty then .ok (.proceed st) else .error (.error .typeMismatch)
  | .group count descriptors _, st => (repeatRun (applyDescriptors descriptors) count st).map .proceed
  | .unlimitedRepeat descriptors, st =>
      (whileValues (applyDescriptors descriptors) st.values.length st).map .proceed
  | .data desc, st =>
      match st.values with
      | [] => .ok (.stop st)
      | val :: rest => (st.consume formatValueText desc val rest).map .proceed

def applyDescriptors : List FormatDesc → FormatRun
  | [], st => .ok st
  | desc :: descs, st => (applyDescriptor desc st).bind (Control.inList (applyDescriptors descs))

end

mutual

def FormatDesc.hasDataDescriptor : FormatDesc → Bool
  | .data _ | .derivedType _ _ => true
  | .group _ descriptors _ | .unlimitedRepeat descriptors => formatHasDataDescriptor descriptors
  | _ => false

def formatHasDataDescriptor : List FormatDesc → Bool
  | [] => false
  | desc :: descs => desc.hasDataDescriptor || formatHasDataDescriptor descs

end

def FormatDesc.isReversionPoint : FormatDesc → Bool
  | group _ _ isReversionPoint => isReversionPoint
  | unlimitedRepeat _ => true
  | _ => false

/-- From the last reversion point on, the whole format if there is none. -/
def formatReversionDescriptors : List FormatDesc → List FormatDesc
  | [] => []
  | desc :: descs =>
      if descs.any FormatDesc.isReversionPoint then formatReversionDescriptors descs else desc :: descs

/-- A scan after the first, in a record of its own. It has to take a value. -/
def revertingScan (reversion : List FormatDesc) (st : FormatState) : Except FormatFailure FormatState := do
  let next ← applyDescriptors formatValueText reversion { st with output := st.output.newRecord }
  if next.values.length = st.values.length then .error (.error .invalidFormat) else return next

/-- `format_values_reverting_output_checked`, from the state of a new engine. -/
def formatValuesRevertingOutputChecked (descs : List FormatDesc) (values : List IoValue) :
    Except FormatFailure FormatState :=
  let st : FormatState := { values := values }
  if values.isEmpty = false ∧ formatHasDataDescriptor descs = false then .error (.error .invalidFormat)
  else if values.isEmpty then applyDescriptors formatValueText descs st
  else do
    let next ← applyDescriptors formatValueText descs st
    if next.values.length = values.length then .error (.error .invalidFormat)
    else whileValues (revertingScan formatValueText (formatReversionDescriptors descs)) values.length next

/-- `format_values_reverting_records_checked` of the engine made from the text of a format. -/
def formatRecords (text : List Char) (values : List IoValue) : Except FormatFailure (List (List UInt8)) := do
  match parseFormat text with
  | .error e => .error (.error e)
  | .ok descs =>
      let st ← formatValuesRevertingOutputChecked formatValueText descs values
      return st.output.finishRecords

end Armfortas.Runtime.Format
