import Mathlib.Data.List.Basic

/-! Comparing character values. -/
namespace Armfortas.Runtime.Strings

/-- A pointer to character data: null, or the bytes from there on. -/
abbrev CharPtr := Option (Nat → UInt8)

def blank : UInt8 := 32

def nonnegativeLen (len : Int) : Nat := if len ≤ 0 then 0 else len.toNat

def normalizeOrdering (value : Int) : Int := if value < 0 then -1 else if value = 0 then 0 else 1

/-- `memcmp` of `n` bytes from offset `i` on. C fixes the sign of the result only. -/
def memcmp (a b : Nat → UInt8) (i : Nat) : Nat → Int
  | 0 => 0
  | n + 1 => if a i = b i then memcmp a b (i + 1) n else (a i).toNat - (b i).toNat

/-- The first of the `n` bytes from offset `i` on that is not blank decides. -/
def firstNonblank (below above : Int) (c : Nat → UInt8) (i : Nat) : Nat → Int
  | 0 => 0
  | n + 1 => if c i ≠ blank then if c i < blank then below else above else firstNonblank below above c (i + 1) n

def compareBytesToBlankPadding (ptr : CharPtr) (start stop : Nat) : Int :=
  ptr.elim 0 fun c => firstNonblank (-1) 1 c start (stop - start)

def compareBlankPaddingToBytes (ptr : CharPtr) (start stop : Nat) : Int :=
  ptr.elim 0 fun c => firstNonblank 1 (-1) c start (stop - start)

def compareCommonCharPrefix (a b : CharPtr) (len : Nat) : Int :=
  match a, b with
  | some x, some y => normalizeOrdering (memcmp x y 0 len)
  | some _, none => compareBytesToBlankPadding a 0 len
  | none, some _ => compareBlankPaddingToBytes b 0 len
  | none, none => 0

def afsCompareChar (a : CharPtr) (aLen : Int) (b : CharPtr) (bLen : Int) : Int :=
  let aLen := nonnegativeLen aLen
  let bLen := nonnegativeLen bLen
  let commonLen := min aLen bLen
  let common := if 0 < commonLen then compareCommonCharPrefix a b commonLen else 0
  if common ≠ 0 then common
  else
    let tail := if commonLen < aLen then compareBytesToBlankPadding a commonLen aLen else 0
    if tail ≠ 0 then tail
    else if commonLen < bLen then compareBlankPaddingToBytes b commonLen bLen else 0

/-- The second loop of `len_trim_bytes`. -/
def trimBytes (c : Nat → UInt8) : Nat → Nat
  | 0 => 0
  | len + 1 => if c len = blank then trimBytes c len else len + 1

/-- Its first loop: the eight bytes of a word at a time. -/
def trimWords (c : Nat → UInt8) (len : Nat) : Nat :=
  if h : 8 ≤ len then
    if (List.range' (len - 8) 8).map c = List.replicate 8 blank then trimWords c (len - 8) else len
  else len

def lenTrimBytes (src : CharPtr) (srcLen : Int) : Nat :=
  match src with
  | none => 0
  | some c => if srcLen ≤ 0 then 0 else trimBytes c (trimWords c srcLen.toNat)

def afsLenTrim (src : CharPtr) (srcLen : Int) : Int := lenTrimBytes src srcLen

end Armfortas.Runtime.Strings
