import Mathlib.Tactic.Ring

/-! The descriptors of a format and the parser that makes them from text. The parser works on the characters of the
text; as in the source, blanks mean nothing outside of literals. -/
namespace Armfortas.Runtime.Format
open Function

inductive FormatError
  | invalidFormat
  | typeMismatch
  deriving DecidableEq, Repr

inductive SignMode
  | default | plus | suppress
  deriving DecidableEq, Repr

inductive LeadingZeroMode
  | default | print | suppress
  deriving DecidableEq, Repr

inductive BlankInterpretation
  | null | zero
  deriving DecidableEq, Repr

inductive RoundMode
  | up | down | zero | nearest | compatible | processorDefined
  deriving DecidableEq, Repr

inductive DecimalSep
  | comma | point
  deriving DecidableEq, Repr

/-- The data edit descriptors the engine itself converts. -/
inductive DataDesc
  | integerI (width : Nat) (minDigits : Option Nat)
  | integerB (width : Nat) (minDigits : Option Nat)
  | integerO (width : Nat) (minDigits : Option Nat)
  | integerZ (width : Nat) (minDigits : Option Nat)
  | realF (width decimals : Nat)
  | realE (width decimals : Nat) (expWidth : Option Nat)
  | realEN (width decimals : Nat) (expWidth : Option Nat)
  | realES (width decimals : Nat) (expWidth : Option Nat)
  | realEX (width decimals : Nat) (expWidth : Option Nat)
  | realD (width decimals : Nat)
  | realG (width decimals : Nat) (expWidth : Option Nat)
  | logical (width : Nat)
  | character (width : Option Nat)
  | charTrimmed
  deriving DecidableEq, Repr

/-- The control edit descriptors that always apply, and literals. -/
inductive ControlDesc
  | skip (count : Nat)
  | tabTo (position : Nat)
  | tabLeft (count : Nat)
  | tabRight (count : Nat)
  | newline
  | sign (mode : SignMode)
  | blankMode (mode : BlankInterpretation)
  | scaleFactor (k : Int)
  | roundingMode (mode : RoundMode)
  | decimalMode (sep : DecimalSep)
  | leadingZero (mode : LeadingZeroMode)
  | literalString (text : List Char)
  deriving DecidableEq, Repr

def maxFormatNesting : Nat := 64

inductive FormatDesc
  | data (desc : DataDesc)
  | control (desc : ControlDesc)
  | colon
  | derivedType (typeName : List Char) (vList : List Int)
  | group (count : Nat) (descriptors : List FormatDesc) (isReversionPoint : Bool)
  | unlimitedRepeat (descriptors : List FormatDesc)

/-! ## Characters and numbers -/

abbrev Parser (α : Type) := StateT (List Char) (Except FormatError) α

def invalid {α : Type} : Parser α := throw .invalidFormat

def peek : Parser (Option Char) := fun cs => .ok (cs.head?, cs)

def next : Parser (Option Char) := fun cs => .ok (cs.head?, cs.tail)

def skipSpaces : Parser Unit := fun cs => .ok ((), cs.dropWhile (· == ' '))

def peekUppercase : Parser (Option Char) := do
  skipSpaces
  return (← peek).map Char.toUpper

def numberLoop (value : Nat) (found : Bool) : List Char → Except FormatError (Option Nat × List Char)
  | [] => .ok (if found then some value else none, [])
  | c :: cs =>
      if c = ' ' then numberLoop value found cs
      else if c.isDigit then
        let number := value * 10 + (c.toNat - '0'.toNat)
        if number < 2 ^ 64 then numberLoop number true cs else .error .invalidFormat
      else .ok (if found then some value else none, c :: cs)

def parseNumber : Parser (Option Nat) := numberLoop 0 false

def parseRequiredNumber : Parser Nat := do
  match ← parseNumber with
  | some number => return number
  | none => invalid

def parsePositiveNumber : Parser Nat := do
  let number ← parseRequiredNumber
  if number = 0 then invalid else return number

/-- The loop of `parse_string_literal`, after the opening quote. -/
def literalLoop (quote : Char) (literal : List Char) : List Char → Except FormatError (List Char × List Char)
  | [] => .error .invalidFormat
  | c :: cs =>
      if c ≠ quote then literalLoop quote (literal ++ [c]) cs
      else match cs with
        | [] => .ok (literal, [])
        | c' :: cs' => if c' = quote then literalLoop quote (literal ++ [quote]) cs' else .ok (literal, c' :: cs')

def parseStringLiteral (quote : Char) : Parser (List Char) := do
  if (← next) ≠ some quote then invalid else literalLoop quote []

/-! ## Widths -/

def parseIntegerWidths : Parser (Nat × Option Nat) := do
  let width ← parseRequiredNumber
  if (← peek) = some '.' then
    discard next
    let minDigits ← parseRequiredNumber
    return (width, some minDigits)
  else return (width, none)

def parseDecimals : Parser Nat := do
  if (← next) ≠ some '.' then invalid else parseRequiredNumber

def parseRequiredRealWidths : Parser (Nat × Nat) := do
  let width ← parseRequiredNumber
  let decimals ← parseDecimals
  return (width, decimals)

def parseOptionalExponentWidth (allowZero : Bool) : Parser (Option Nat) := do
  if (← peekUppercase) ≠ some 'E' then return none
  else
    discard next
    let width ← parseRequiredNumber
    if width = 0 ∧ allowZero = false then invalid else return some width

def parseExponentialWidths (constructor : Nat → Nat → Option Nat → DataDesc) : Parser FormatDesc := do
  let (width, decimals) ← parseRequiredRealWidths
  let expWidth ← parseOptionalExponentWidth false
  return .data (constructor width decimals expWidth)

def parseDecimalAndExponentWidths : Parser (Nat × Option Nat) := do
  let decimals ← parseDecimals
  let expWidth ← parseOptionalExponentWidth true
  return (decimals, expWidth)

def parseSign : Parser Int := do
  match ← peek with
  | some '-' => discard next; return -1
  | some '+' => discard next; return 1
  | _ => return 0

def parseSignedDefaultInteger : Parser Int := do
  skipSpaces
  let sign ← parseSign
  skipSpaces
  let magnitude ← parseRequiredNumber
  let value : Int := if sign < 0 then -magnitude else magnitude
  if -2 ^ 31 ≤ value ∧ value < 2 ^ 31 then return value else invalid

/-- The loop of `parse_dt_v_list`; each round takes at least one character. -/
def dtLoop (values : List Int) : Nat → Parser (List Int)
  | 0 => invalid
  | fuel + 1 => do
      let values := values ++ [← parseSignedDefaultInteger]
      skipSpaces
      match ← next with
      | some ',' =>
          skipSpaces
          if (← peek) = some ')' then invalid else dtLoop values fuel
      | some ')' => return values
      | _ => invalid

def parseDtVList : Parser (List Int) := do
  if (← next) ≠ some '(' then invalid
  else
    skipSpaces
    if (← peek) = some ')' then invalid else dtLoop [] (← get).length

/-! ## Descriptors -/

/-- The descriptors whose second letter is optional: consume it and go on, or go on without. -/
def after {α : Type} (p : Parser α) : Parser α := do
  discard next
  p

def parseEditDescriptor (count : Option Nat) (sign : Int) : Parser FormatDesc := do
  match ← next with
  | none => invalid
  | some c =>
    let letter := c.toUpper
    if sign ≠ 0 ∧ letter ≠ 'P' then invalid
    else match letter with
      | 'I' => return .data (uncurry .integerI (← parseIntegerWidths))
      | 'B' =>
          match ← peekUppercase with
          | some 'N' => after (return .control (.blankMode .null))
          | some 'Z' => after (return .control (.blankMode .zero))
          | _ => return .data (uncurry .integerB (← parseIntegerWidths))
      | 'O' => return .data (uncurry .integerO (← parseIntegerWidths))
      | 'Z' => return .data (uncurry .integerZ (← parseIntegerWidths))
      | 'F' => return .data (uncurry .realF (← parseRequiredRealWidths))
      | 'E' =>
          match ← peekUppercase with
          | some 'N' => after (parseExponentialWidths .realEN)
          | some 'S' => after (parseExponentialWidths .realES)
          | some 'X' => after (parseExponentialWidths .realEX)
          | _ => parseExponentialWidths .realE
      | 'D' =>
          match ← peekUppercase with
          | some 'C' => after (return .control (.decimalMode .comma))
          | some 'P' => after (return .control (.decimalMode .point))
          | some 'T' =>
              discard next
              let quote ← peek
              let typeName ← if quote = some '\'' then parseStringLiteral '\''
                else if quote = some '"' then parseStringLiteral '"'
                else pure []
              skipSpaces
              let vList ← if (← peek) = some '(' then parseDtVList else pure []
              return .derivedType typeName vList
          | _ => return .data (uncurry .realD (← parseRequiredRealWidths))
      | 'G' =>
          let width ← parseRequiredNumber
          if width = 0 ∧ (← peek) ≠ some '.' then return .data (.realG width 0 none)
          else
            let (decimals, expWidth) ← parseDecimalAndExponentWidths
            return .data (.realG width decimals expWidth)
      | 'L' =>
          if (← peekUppercase) = some 'Z' then
            discard next
            match ← peekUppercase with
            | some 'S' => after (return .control (.leadingZero .suppress))
            | some 'P' => after (return .control (.leadingZero .print))
            | _ => return .control (.leadingZero .default)
          else return .data (.logical ((← parseNumber).getD 1))
      | 'A' =>
          if (← peekUppercase) = some 'T' then after (return .data .charTrimmed)
          else return .data (.character (← parseNumber))
      | 'X' =>
          match count with
          | none => invalid
          | some count => if count = 0 then invalid else return .control (.skip count)
      | 'T' =>
          match ← peekUppercase with
          | some 'L' => after (return .control (.tabLeft (← parsePositiveNumber)))
          | some 'R' => after (return .control (.tabRight (← parsePositiveNumber)))
          | _ => return .control (.tabTo (← parsePositiveNumber))
      | 'S' =>
          match ← peekUppercase with
          | some 'P' => after (return .control (.sign .plus))
          | some 'S' => after (return .control (.sign .suppress))
          | _ => return .control (.sign .default)
      | 'P' =>
          match count with
          | none => invalid
          | some magnitude =>
              let signed : Int := if sign < 0 then -magnitude else magnitude
              if magnitude < 2 ^ 63 ∧ -2 ^ 31 ≤ signed ∧ signed < 2 ^ 31 then return .control (.scaleFactor signed)
              else invalid
      | 'R' =>
          match ← peekUppercase with
          | some 'U' => after (return .control (.roundingMode .up))
          | some 'D' => after (return .control (.roundingMode .down))
          | some 'Z' => after (return .control (.roundingMode .zero))
          | some 'N' => after (return .control (.roundingMode .nearest))
          | some 'C' => after (return .control (.roundingMode .compatible))
          | some 'P' => after (return .control (.roundingMode .processorDefined))
          | _ => invalid
      | _ => invalid

def FormatDesc.isRepeatableDataDescriptor : FormatDesc → Bool
  | data _ | derivedType _ _ => true
  | _ => false

/-- The descriptor `push_repeated` pushes. -/
def pushRepeated (desc : FormatDesc) (count : Nat) : FormatDesc := if count = 1 then desc else .group count [desc] false

def FormatDesc.isScaleFactor : FormatDesc → Bool
  | control (.scaleFactor _) => true
  | _ => false

def FormatDesc.isSkip : FormatDesc → Bool
  | control (.skip _) => true
  | _ => false

/-- The descriptor pushed for an edit descriptor with its count. -/
def withCount (desc : FormatDesc) : Option Nat → Parser FormatDesc
  | none => return desc
  | some count =>
      if count = 0 ∧ desc.isScaleFactor = false then invalid
      else if 1 < count ∧ desc.isRepeatableDataDescriptor then return .group count [desc] false
      else if desc.isSkip = false ∧ desc.isScaleFactor = false then invalid
      else return desc

/-- What stands before the next item: `false` at the end of the list, which is consumed. -/
def parseSeparator (hasItem : Bool) : Parser Bool := do
  skipSpaces
  match ← peek with
  | none => invalid
  | some ')' => after (return false)
  | some ',' =>
      if hasItem = false then invalid
      else
        discard next
        skipSpaces
        match ← peek with
        | some ')' => after (return false)
        | some ',' | none => invalid
        | _ => return true
  | _ => return true

/-- `match next` in the loop of `parse_list`; `inner` reads a list in parentheses. -/
def parseItemAt (inner : Parser (List FormatDesc)) (sign : Int) (count : Option Nat) (c : Char) : Parser FormatDesc := do
  if c = '(' then
    if sign ≠ 0 ∨ count = some 0 then invalid
    else
      let descriptors ← after inner
      return .group (count.getD 1) descriptors true
  else if c = '\'' ∨ c = '"' then
    if sign ≠ 0 ∨ count = some 0 then invalid
    else
      let text ← parseStringLiteral c
      return pushRepeated (.control (.literalString text)) (count.getD 1)
  else if c = '/' then
    if sign ≠ 0 ∨ count = some 0 then invalid
    else
      discard next
      return pushRepeated (.control .newline) (count.getD 1)
  else if c = ':' then
    if sign ≠ 0 ∨ count.isSome then invalid
    else
      discard next
      return .colon
  else if c = '*' then
    if sign ≠ 0 ∨ count.isSome then invalid
    else
      discard next
      skipSpaces
      if (← next) ≠ some '(' then invalid
      else
        let descriptors ← inner
        return .unlimitedRepeat descriptors
  else
    let desc ← parseEditDescriptor count sign
    withCount desc count

/-- One item of a list, the body of the loop of `parse_list`. -/
def parseItem (inner : Parser (List FormatDesc)) : Parser FormatDesc := do
  let sign ← parseSign
  let count ← parseNumber
  skipSpaces
  match ← peek with
  | none => invalid
  | some c => parseItemAt inner sign count c

/-- The loop of `parse_list`; each round and each list inside takes at least one character. -/
def parseList (depth : Nat) (result : List FormatDesc) : Nat → Parser (List FormatDesc)
  | 0 => invalid
  | fuel + 1 => do
      if maxFormatNesting < depth then invalid
      else if ← parseSeparator (!result.isEmpty) then
        let desc ← parseItem (parseList (depth + 1) [] fuel)
        parseList depth (result ++ [desc]) fuel
      else return result

def isWhitespace (c : Char) : Bool :=
  (9 ≤ c.toNat && c.toNat ≤ 13) || (0x2000 ≤ c.toNat && c.toNat ≤ 0x200a) ||
    [0x20, 0x85, 0xa0, 0x1680, 0x2028, 0x2029, 0x202f, 0x205f, 0x3000].contains c.toNat

def trim (text : List Char) : List Char :=
  ((text.dropWhile isWhitespace).reverse.dropWhile isWhitespace).reverse

/-- The list in the outermost parentheses is read by `list`. -/
def parse {α : Type} (list : Parser α) : Parser α := do
  skipSpaces
  if (← next) ≠ some '(' then invalid
  else
    let items ← list
    skipSpaces
    if (← next).isSome then invalid else return items

def parseFormat (text : List Char) : Except FormatError (List FormatDesc) :=
  ((parse (parseList 1 [] (text.length + 1))).run (trim text)).map Prod.fst

end Armfortas.Runtime.Format
