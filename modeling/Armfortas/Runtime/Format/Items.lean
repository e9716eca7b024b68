import Armfortas.Runtime.Format.Engine

/-! The expansion of a format into one data descriptor for each item, as the compiler uses it to dispatch defined
input/output. -/
namespace Armfortas.Runtime.Format

variable (limit : Nat)

/-- `for _ in 0..repeat`, left when the result is long enough. -/
def repeatAppend (run : List FormatDesc → Except FormatError (List FormatDesc)) :
    Nat → List FormatDesc → Except FormatError (List FormatDesc)
  | 0, result => .ok result
  | n + 1, result => do
      let next ← run result
      if next.length = limit then .ok next else repeatAppend run n next

/-- `while result.len() < limit`. A round that adds nothing is an error, so that `limit` rounds are enough. -/
def whileShort (run : List FormatDesc → Except FormatError (List FormatDesc)) :
    Nat → List FormatDesc → Except FormatError (List FormatDesc)
  | fuel, result =>
      if result.length < limit then
        match fuel with
        | 0 => .error .invalidFormat
        | fuel + 1 => do
            let next ← run result
            if next.length = result.length then .error .invalidFormat else whileShort run fuel next
      else .ok result

mutual

def appendDataDescriptor : FormatDesc → List FormatDesc → Except FormatError (List FormatDesc)
  | .group count descriptors _, result =>
      if formatHasDataDescriptor descriptors = false then .ok result
      else repeatAppend limit (appendDataDescriptors descriptors) count result
  | .unlimitedRepeat descriptors, result =>
      if formatHasDataDescriptor descriptors = false then .error .invalidFormat
      else whileShort limit (appendDataDescriptors descriptors) limit result
  | .data desc, result => .ok (result ++ [.data desc])
  | .derivedType typeName vList, result => .ok (result ++ [.derivedType typeName vList])
  | .control _, result | .colon, result => .ok result

def appendDataDescriptors : List FormatDesc → List FormatDesc → Except FormatError (List FormatDesc)
  | [], result => .ok result
  | desc :: descs, result =>
      if result.length = limit then .ok result
      else (appendDataDescriptor desc result).bind (appendDataDescriptors descs)

end

def parseDataDescriptorsForItems (text : List Char) (itemCount : Nat) : Except FormatError (List FormatDesc) :=
  if itemCount = 0 then .ok []
  else do
    let descriptors ← parseFormat text
    let result ← appendDataDescriptors itemCount descriptors []
    if result.length = itemCount then .ok result
    else if formatHasDataDescriptor (formatReversionDescriptors descriptors) = false then .error .invalidFormat
    else whileShort itemCount (appendDataDescriptors itemCount (formatReversionDescriptors descriptors)) itemCount result

end Armfortas.Runtime.Format
