import Armfortas.Ir.Inst
import Armfortas.Lib.Bytes
import Armfortas.Lib.Lists

/-! Integers are kept as signed numbers of their width. A pointer names a block of storage and an offset into it, so
that an access outside the block it was derived from finds nothing. Memory is byte-addressed; a pointer in memory is
eight fragments, so that pointers survive being stored and loaded. -/
namespace Armfortas.Ir

open Lib IrType

variable {m : Mem} {p : Ptr} {n : Nat} {bs : List MByte}

/-! ## Integers of a width -/

def IntWidth.wrap (w : IntWidth) (x : Int) : Int := x.bmod (2 ^ w.bits)

def IntWidth.Fits (w : IntWidth) (x : Int) : Prop := -2 ^ (w.bits - 1) ≤ x ∧ x < 2 ^ (w.bits - 1)

instance (w : IntWidth) (x : Int) : Decidable (w.Fits x) := inferInstanceAs (Decidable (_ ∧ _))

theorem IntWidth.wrap_of_fits {w : IntWidth} {x : Int} (h : w.Fits x) : w.wrap x = x := by
  obtain ⟨h1, h2⟩ := h
  unfold wrap
  cases w <;> simp only [bits] at * <;> rw [Int.bmod_def] <;> omega

theorem IntWidth.fits_wrap (w : IntWidth) (x : Int) : w.Fits (w.wrap x) := by
  unfold Fits wrap
  cases w <;> simp only [bits] <;> rw [Int.bmod_def] <;> omega

/-! ## Pointers and values -/

inductive Base
  /-- the slot of an `alloca` in the activation numbered `frame` -/
  | slot (frame : Nat) (v : ValueId)
  | global (name : String)
  /-- the literal of a `const_string` -/
  | string (v : ValueId)
  /-- storage of callers, callees, the heap and the runtime -/
  | foreign (n : Nat)
  /-- memory addressed by plain integers -/
  | absolute
  deriving DecidableEq, Repr

def Base.isLocal (frame : Nat) : Base → Bool
  | .slot n _ => n == frame
  | _ => false

structure Ptr where
  base : Base
  off : Int
  deriving DecidableEq, Repr

/-- A byte of memory: plain data or the `i`-th byte of a pointer. -/
inductive MByte
  | byte (b : BitVec 8)
  | frag (p : Ptr) (i : Nat)
  deriving DecidableEq, Repr

/-- A runtime value. `ptr` is also what an `i64` holds after a pointer was converted to an integer; `bytes`
is a vector or an aggregate. -/
inductive Val
  | int (w : IntWidth) (x : Int)
  | bool (b : Bool)
  | float (w : FloatWidth) (bits : Nat)
  | ptr (p : Ptr)
  | bytes (bs : List MByte)
  deriving DecidableEq, Repr

/-- The layout of every supported target. -/
def byteSize (ty : IrType) : Option Nat := ty.sizeBytes .lp64

def Val.hasType : Val → IrType → Bool
  | .int w x, .int w' => w == w' && decide (w.Fits x)
  | .bool _, .bool => true
  | .float w n, .float w' => w == w' && decide (n < 2 ^ w.bits)
  | .ptr p, .ptr _ | .ptr p, .funcPtr _ _ | .ptr p, .int .i64 => decide (IntWidth.i64.Fits p.off)
  | .bytes bs, .vector lanes elem => byteSize (.vector lanes elem) == some bs.length
  | .bytes bs, .array elem n => byteSize (.array elem n) == some bs.length
  | _, _ => false

/-! ## Bytes -/

def ptrBytes (p : Ptr) : List MByte := (List.range 8).map (.frag p)

def Val.encode : Val → List MByte
  | .int w x => (natBytes w.bytes (x % 2 ^ w.bits).toNat).map .byte
  | .bool b => [.byte (if b then 1 else 0)]
  | .float w n => (natBytes w.bytes n).map .byte
  | .ptr p => ptrBytes p
  | .bytes bs => bs

def asPtr : List MByte → Option Ptr
  | .frag p i :: rest => if .frag p i :: rest = ptrBytes p then some p else none
  | _ => none

/-- The plain byte, where a pointer's bytes are those of its address `place p`. -/
def MByte.concrete (place : Ptr → Int) : MByte → BitVec 8
  | .byte b => b
  | .frag p i => BitVec.ofNat 8 ((place p % 2 ^ 64).toNat / 256 ^ i)

/-- The value of a type that a load finds in the bytes. -/
def decode (place : Ptr → Int) (ty : IrType) (bs : List MByte) : Option Val :=
  let n := bytesNat (bs.map (·.concrete place))
  match ty with
  | .int w => match w, asPtr bs with
      | .i64, some p => some (.ptr p)
      | w, _ => some (.int w (w.wrap n))
  | .bool => some (.bool (n ≠ 0))
  | .float w => some (.float w (n % 2 ^ w.bits))
  | .ptr _ | .funcPtr _ _ => match asPtr bs with
      | some p => some (.ptr p)
      | none => some (.ptr ⟨.absolute, IntWidth.i64.wrap n⟩)
  | .vector _ _ | .array _ _ => some (.bytes bs)
  | .void | .struct _ => none

theorem length_encode {v : Val} {ty : IrType} (h : v.hasType ty = true) : byteSize ty = some v.encode.length := by
  cases v with
  | int w x =>
    cases ty <;> simp [Val.hasType] at h
    obtain ⟨rfl, -⟩ := h
    simp [Val.encode, byteSize, sizeBytes, trySizeBytes, Except.toOption]
  | bool b =>
    cases ty <;> simp [Val.hasType] at h
    simp [Val.encode, byteSize, sizeBytes, trySizeBytes, Except.toOption, TargetLayout.lp64]
  | float w n =>
    cases ty <;> simp [Val.hasType] at h
    obtain ⟨rfl, -⟩ := h
    simp [Val.encode, byteSize, sizeBytes, trySizeBytes, Except.toOption]
  | ptr p =>
    cases ty <;> simp [Val.hasType] at h <;>
      simp [Val.encode, ptrBytes, byteSize, sizeBytes, trySizeBytes, Except.toOption,
        TargetLayout.lp64]
    split at h <;> simp_all [IntWidth.bytes, IntWidth.bits]
  | bytes bs => cases ty <;> simp [Val.hasType] at h <;> simpa [Val.encode] using h

/-! ## Memory -/

abbrev Mem := Base → Int → Option MByte

def Mem.read (m : Mem) (p : Ptr) (n : Nat) : Option (List MByte) :=
  (List.range n).mapM fun (i : Nat) => m p.base (p.off + i)

def Ptr.covers (p : Ptr) (n : Nat) (b : Base) (o : Int) : Prop := b = p.base ∧ p.off ≤ o ∧ o < p.off + n

instance (p : Ptr) (n : Nat) (b : Base) (o : Int) : Decidable (p.covers n b o) :=
  inferInstanceAs (Decidable (_ ∧ _))

def Mem.put (m : Mem) (p : Ptr) (bs : List MByte) : Mem := fun b o =>
  if p.covers bs.length b o then bs[(o - p.off).toNat]? else m b o

def Mem.write (m : Mem) (p : Ptr) (bs : List MByte) : Option Mem :=
  if (m.read p bs.length).isSome then some (m.put p bs) else none

theorem Mem.read_eq_some_iff :
    m.read p n = some bs ↔ bs.length = n ∧ ∀ i < n, m p.base (p.off + i) = bs[i]? := by
  constructor
  · intro h
    refine ⟨by simpa using Lib.length_of_mapM h, fun i hi => ?_⟩
    rw [Lib.getElem?_of_mapM h i, List.getElem?_range hi]
    rfl
  · rintro ⟨hlen, h⟩
    rw [Mem.read, Lib.mapM_eq_some_iff, List.forall₂_iff_get]
    refine ⟨by simp [hlen], fun i hi hi' => ?_⟩
    have hin : i < n := by simpa using hi
    simpa [hin, hlen] using h i hin

theorem Mem.read_isSome_iff :
    (m.read p n).isSome = true ↔ ∀ i < n, (m p.base (p.off + i)).isSome = true := by
  simp [Mem.read, Lib.mapM_isSome_iff]

theorem Mem.read_congr {m m' : Mem}
    (h : ∀ o, p.off ≤ o → o < p.off + n → m p.base o = m' p.base o) : m.read p n = m'.read p n := by
  refine Lib.mapM_congr fun i hi => h _ (by omega) ?_
  have := List.mem_range.mp hi
  omega

theorem Mem.put_of_covers {b : Base} {o : Int}
    (h : p.covers bs.length b o) : m.put p bs b o = bs[(o - p.off).toNat]? := if_pos h

theorem Mem.put_of_not_covers {b : Base} {o : Int} (h : ¬ p.covers bs.length b o) : m.put p bs b o = m b o := if_neg h

theorem Mem.write_eq_some_iff {m m' : Mem} :
    m.write p bs = some m' ↔ (m.read p bs.length).isSome = true ∧ m' = m.put p bs := by
  unfold Mem.write
  split
  · next h => simp only [h, Option.some.injEq, true_and, eq_comm]
  · next h => simp [h]

theorem Mem.put_isSome (h : (m.read p bs.length).isSome = true) (b : Base)
    (o : Int) : (m.put p bs b o).isSome = (m b o).isSome := by
  by_cases hc : p.covers bs.length b o
  · obtain ⟨rfl, h1, h2⟩ := hc
    have hm := Mem.read_isSome_iff.mp h (o - p.off).toNat (by omega)
    rw [show p.off + ((o - p.off).toNat : Int) = o by omega] at hm
    rw [Mem.put_of_covers ⟨rfl, h1, h2⟩, hm, List.getElem?_eq_getElem (by omega)]
    rfl
  · rw [Mem.put_of_not_covers hc]

end Armfortas.Ir
