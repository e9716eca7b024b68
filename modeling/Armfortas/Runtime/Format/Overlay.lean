import Armfortas.Runtime.Format.Engine

/-! What a record is for: fields are laid over each other, and the last one is on top. -/
namespace Armfortas.Runtime.Format

inductive OutputOp
  | write (bytes : List UInt8)
  | writeFitted (bytes : List UInt8) (width : Nat)
  | advance (count : Nat)
  | tabTo (position : Nat)
  | tabLeft (count : Nat)
  | newRecord
  deriving DecidableEq, Repr

def OutputOp.apply (o : FormatOutput) : OutputOp → Except FormatFailure FormatOutput
  | write bytes => o.write bytes
  | writeFitted bytes width => o.writeFitted bytes width
  | advance count => .ok (o.advance count)
  | tabTo position => .ok (o.tabTo position)
  | tabLeft count => .ok (o.tabLeft count)
  | newRecord => .ok o.newRecord

/-- A field on a record: blanks, then text. -/
structure Field where
  start : Nat
  pad : Nat
  text : List UInt8
  deriving DecidableEq, Repr

namespace Field

def stop (f : Field) : Nat := f.start + f.pad + f.text.length

def textAt (p : Nat) (f : Field) : Option UInt8 :=
  if p < f.start + f.pad then none else f.text[p - (f.start + f.pad)]?

/-- The character of the field over a position, a blank where the field is padded. -/
def charAt (p : Nat) (f : Field) : Option UInt8 := if f.start ≤ p ∧ p < f.start + f.pad then some 32 else f.textAt p

end Field

def recordLength : List Field → Nat
  | [] => 0
  | f :: fields => max (recordLength fields) f.stop

/-- A record seen from above, the newest field first. -/
def overlay (fields : List Field) : List UInt8 :=
  (List.range (recordLength fields)).map fun p => (fields.findSome? (Field.charAt p)).getD 32

/-- The fields of the finished records and of the current one. -/
structure Sheet where
  done : List (List Field) := []
  fields : List Field := []
  pos : Nat := 0

namespace Sheet

def put (s : Sheet) (pad : Nat) (text : List UInt8) : Sheet :=
  if pad + text.length = 0 then s
  else { s with fields := ⟨s.pos, pad, text⟩ :: s.fields, pos := s.pos + pad + text.length }

def records (s : Sheet) : List (List Field) := s.done ++ [s.fields]

/-- A `Vec` can hold every record. -/
def Fits (s : Sheet) : Prop := ∀ fields ∈ s.records, recordLength fields ≤ isizeMax

end Sheet

def OutputOp.place (s : Sheet) : OutputOp → Sheet
  | write bytes => s.put 0 bytes
  | writeFitted bytes width => if width = 0 then s.put 0 bytes else s.put (width - bytes.length) (bytes.take width)
  | advance count => { s with pos := saturatingAdd s.pos count }
  | tabTo position => { s with pos := position - 1 }
  | tabLeft count => { s with pos := s.pos - count }
  | newRecord => { done := s.records }

/-- Where the topmost field has a padding blank, the topmost text is a blank, if there is any. -/
def PaddingOnBlank (fields : List Field) : Prop :=
  ∀ p f, fields.find? (fun f => (f.charAt p).isSome) = some f → p < f.start + f.pad →
    ∀ c, fields.findSome? (Field.textAt p) = some c → c = 32

end Armfortas.Runtime.Format
