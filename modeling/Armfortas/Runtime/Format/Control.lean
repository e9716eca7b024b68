import Armfortas.Runtime.Format.Engine

/-! Format control as the language defines it: one pass over the format that stops for good where the values run out,
and begins again at the last item in parentheses. -/
namespace Armfortas.Runtime.Format

variable (formatValueText : ValueText)

/-- The rest of the whole format, unless format control has stopped. -/
def Control.andThen (next : FormatState → Except FormatFailure Control) : Control → Except FormatFailure Control
  | proceed st => next st
  | stop st => .ok (.stop st)

def repeatControl (run : FormatState → Except FormatFailure Control) : Nat → FormatState → Except FormatFailure Control
  | 0, st => .ok (.proceed st)
  | n + 1, st => (run st).bind (Control.andThen (repeatControl run n))

/-- Without end. Every round but the last takes a value, or there is no last one. -/
def repeatForever (run : FormatState → Except FormatFailure Control) : Nat → FormatState → Except FormatFailure Control
  | 0, _ => .error .diverges
  | fuel + 1, st => (run st).bind (Control.andThen (repeatForever run fuel))

mutual

/-- One descriptor. A data descriptor or a colon that finds no value left stops format control for good. -/
def interpretDescriptor : FormatDesc → FormatState → Except FormatFailure Control
  | .control desc, st => (desc.apply st).map .proceed
  | .colon, st => .ok (if st.values.isEmpty then .stop st else .proceed st)
  | .derivedType _ _, st => if st.values.isEmpty then .ok (.stop st) else .error (.error .typeMismatch)
  | .group count descriptors _, st => repeatControl (interpret descriptors) count st
  | .unlimitedRepeat descriptors, st => repeatForever (interpret descriptors) (st.values.length + 1) st
  | .data desc, st =>
      match st.values with
      | [] => .ok (.stop st)
      | val :: rest => (st.consume formatValueText desc val rest).map .proceed

def interpret : List FormatDesc → FormatState → Except FormatFailure Control
  | [], st => .ok (.proceed st)
  | desc :: descs, st => (interpretDescriptor desc st).bind (Control.andThen (interpret descs))

end

/-- At the end of the format a new record starts if there are values left. -/
def controlScans (reversion : List FormatDesc) : Nat → Control → Except FormatFailure FormatState
  | _, .stop st => .ok st
  | fuel, .proceed st =>
      if st.values.isEmpty then .ok st
      else match fuel with
        | 0 => .error .diverges
        | fuel + 1 =>
            (interpret formatValueText reversion { st with output := st.output.newRecord }).bind
              (controlScans reversion fuel)

/-! ## The reversion point -/

/-- The items in the outermost parentheses, each with the text from its first character on. -/
def readItems (items : List (List Char × FormatDesc)) : Nat → Parser (List (List Char × FormatDesc))
  | 0 => invalid
  | fuel + 1 => do
      if ← parseSeparator (!items.isEmpty) then
        let start ← get
        let desc ← parseItem (parseList 2 [] fuel)
        readItems (items ++ [(start, desc)]) fuel
      else return items

def topLevelItems (text : List Char) : Except FormatError (List (List Char × FormatDesc)) :=
  ((parse (readItems [] (text.length + 1))).run (trim text)).map Prod.fst

/-- Behind its repeat count or its `*` the item begins with a parenthesis. -/
def startsGroup (start : List Char) : Bool :=
  (start.dropWhile fun c => c.isDigit || c == ' ' || c == '*').head? == some '('

/-- From the last element with the property on, the whole list if there is none. -/
def fromLast {α : Type} (p : α → Bool) (l : List α) : List α :=
  (l.tails.reverse.find? fun suffix => suffix.head?.any p).getD l

/-- The records of a list of values under a format. -/
def controlRecords (text : List Char) (values : List IoValue) : Except FormatFailure (List (List UInt8)) := do
  match topLevelItems text with
  | .error e => .error (.error e)
  | .ok items =>
      let reversion := fromLast (fun item => startsGroup item.1) items
      let first ← interpret formatValueText (items.map Prod.snd) { values := values }
      let st ← controlScans formatValueText (reversion.map Prod.snd) values.length first
      return st.output.finishRecords

end Armfortas.Runtime.Format
