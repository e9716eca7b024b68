import Mathlib.Data.List.Basic
import Mathlib.Data.List.Pairwise
import Mathlib.Tactic.Ring

/-! Only bytes of live blocks can be copied from or to. Freeing takes a block away, and its addresses may be handed
out again, with any contents. -/
namespace Armfortas.Lib
open List

structure HeapBlock where
  start : Int
  size : Nat
  deriving DecidableEq, Repr

namespace HeapBlock

def Holds (b : HeapBlock) (a : Int) : Prop := b.start ≤ a ∧ a < b.start + b.size

instance (b : HeapBlock) (a : Int) : Decidable (b.Holds a) := inferInstanceAs (Decidable (_ ∧ _))

/-- Two blocks share no byte and, even if empty, do not start at the same address. -/
def Apart (b c : HeapBlock) : Prop := b.start + max b.size 1 ≤ c.start ∨ c.start + max c.size 1 ≤ b.start

instance (b c : HeapBlock) : Decidable (b.Apart c) := inferInstanceAs (Decidable (_ ∨ _))

variable {b c : HeapBlock}

theorem holds_add {p m i} (h : i < m) : Holds ⟨p, m⟩ (p + i) := by
  constructor
  · change p ≤ p + i
    omega
  · change p + i < p + m
    omega

theorem Apart.symm (h : b.Apart c) : c.Apart b := Or.symm h

instance : Std.Symm Apart := ⟨fun _ _ h => h.symm⟩

theorem Apart.start_ne (h : b.Apart c) : b.start ≠ c.start := by
  rcases h with h | h <;> omega

theorem Apart.not_holds (h : b.Apart c) {a} (hb : b.Holds a) : ¬c.Holds a := by
  rintro ⟨hlow, hhigh⟩
  obtain ⟨hlow', hhigh'⟩ := hb
  rcases h with h | h <;> omega

end HeapBlock

structure BlockHeap where
  blocks : List HeapBlock
  bytes : Int → UInt8

namespace BlockHeap

def addressLimit : Int := 18446744073709551615

structure Ok (heap : BlockHeap) : Prop where
  apart : heap.blocks.Pairwise HeapBlock.Apart
  positive : ∀ b ∈ heap.blocks, 0 < b.start
  bounded : ∀ b ∈ heap.blocks, b.start + b.size ≤ addressLimit

def isLive (heap : BlockHeap) (a : Int) : Bool := heap.blocks.any fun b => decide (b.Holds a)

def liveRange (heap : BlockHeap) (a : Int) (n : Nat) : Bool := (List.range n).all fun i : Nat => heap.isLive (a + i)

/-- The bytes after `n` of them moved from `source` to `target`, all read before the first is written. -/
def moved (bytes : Int → UInt8) (source target : Int) (n : Nat) (a : Int) : UInt8 :=
  if target ≤ a ∧ a < target + n then bytes (source + (a - target)) else bytes a

def copy (heap : BlockHeap) (source target : Int) (n : Nat) : Option BlockHeap :=
  if heap.liveRange source n && heap.liveRange target n then
    some { heap with bytes := moved heap.bytes source target n }
  else
    none

def copyNonoverlapping (heap : BlockHeap) (source target : Int) (n : Nat) : Option BlockHeap :=
  if source + n ≤ target ∨ target + n ≤ source then heap.copy source target n else none

def free (heap : BlockHeap) (p : Int) : Option BlockHeap :=
  if heap.blocks.any fun b => b.start == p then
    some { heap with blocks := heap.blocks.filter fun b => b.start != p }
  else
    none

def alloc (heap : BlockHeap) (b : HeapBlock) (fill : Int → UInt8) : BlockHeap where
  blocks := b :: heap.blocks
  bytes a := if b.Holds a then fill a else heap.bytes a

def window (bytes : Int → UInt8) (a : Int) (n : Nat) : List UInt8 := (List.range n).map fun i : Nat => bytes (a + i)

theorem window_congr {f g : Int → UInt8} {a b n} (h : ∀ i : Nat, i < n → f (a + i) = g (b + i)) :
    window f a n = window g b n := by
  rw [window, window]
  exact map_congr_left fun i hi => h i (mem_range.mp hi)

variable {heap : BlockHeap}

theorem isLive_of_mem {b a} (hmem : b ∈ heap.blocks) (h : b.Holds a) : heap.isLive a = true :=
  any_eq_true.mpr ⟨b, hmem, decide_eq_true h⟩

theorem liveRange_of_mem {b a n} (hmem : b ∈ heap.blocks) (h : ∀ i : Nat, i < n → b.Holds (a + i)) :
    heap.liveRange a n = true :=
  all_eq_true.mpr fun i hi => isLive_of_mem hmem (h i (mem_range.mp hi))

theorem copy_of_mem {b c source target n} (hb : b ∈ heap.blocks) (hc : c ∈ heap.blocks)
    (hsource : ∀ i : Nat, i < n → b.Holds (source + i)) (htarget : ∀ i : Nat, i < n → c.Holds (target + i)) :
    heap.copy source target n = some { heap with bytes := moved heap.bytes source target n } := by
  rw [copy, liveRange_of_mem hb hsource, liveRange_of_mem hc htarget]
  rfl

theorem copyNonoverlapping_of_mem {b c source target n} (hb : b ∈ heap.blocks)
    (hc : c ∈ heap.blocks) (happ : b.Apart c) (hsource : ∀ i : Nat, i < n → b.Holds (source + i))
    (htarget : ∀ i : Nat, i < n → c.Holds (target + i)) (hn : 0 < n) :
    heap.copyNonoverlapping source target n = some { heap with bytes := moved heap.bytes source target n } := by
  rw [copyNonoverlapping, if_pos, copy_of_mem hb hc hsource htarget]
  obtain ⟨hs, -⟩ := hsource 0 hn
  obtain ⟨-, hs'⟩ := hsource (n - 1) (by omega)
  obtain ⟨ht, -⟩ := htarget 0 hn
  obtain ⟨-, ht'⟩ := htarget (n - 1) (by omega)
  rcases happ with h | h <;> omega

theorem moved_outside {bytes : Int → UInt8} {source target a : Int} {n : Nat} (h : ¬(target ≤ a ∧ a < target + n)) :
    moved bytes source target n a = bytes a := if_neg h

theorem moved_inside {bytes : Int → UInt8} {source target n i} (h : i < n) :
    moved bytes source target n (target + i) = bytes (source + i) := by
  rw [moved, if_pos ⟨by omega, by omega⟩]
  congr 1
  ring

theorem free_of_mem {b} (hmem : b ∈ heap.blocks) :
    heap.free b.start = some { heap with blocks := heap.blocks.filter fun c => c.start != b.start } := by
  rw [free, if_pos]
  exact any_eq_true.mpr ⟨b, hmem, beq_self_eq_true _⟩

theorem alloc_outside {b c : HeapBlock} {fill : Int → UInt8} {a} (happ : b.Apart c) (h : c.Holds a) :
    (heap.alloc b fill).bytes a = heap.bytes a := if_neg (happ.symm.not_holds h)

theorem Ok.apart_of_ne (hok : heap.Ok) {b c} (hb : b ∈ heap.blocks) (hc : c ∈ heap.blocks) (hne : b ≠ c) : b.Apart c :=
  hok.apart.forall hb hc hne

theorem Ok.free (hok : heap.Ok) (p) : Ok { heap with blocks := heap.blocks.filter fun b => b.start != p } where
  apart := hok.apart.sublist filter_sublist
  positive b hb := hok.positive b (mem_filter.mp hb).1
  bounded b hb := hok.bounded b (mem_filter.mp hb).1

theorem Ok.alloc (hok : heap.Ok) {b : HeapBlock} {fill : Int → UInt8} (hpos : 0 < b.start)
    (hbound : b.start + b.size ≤ addressLimit) (happ : ∀ c ∈ heap.blocks, b.Apart c) : (heap.alloc b fill).Ok where
  apart := pairwise_cons.mpr ⟨happ, hok.apart⟩
  positive := forall_mem_cons.mpr ⟨hpos, hok.positive⟩
  bounded := forall_mem_cons.mpr ⟨hbound, hok.bounded⟩

theorem Ok.withBytes (hok : heap.Ok) (bytes : Int → UInt8) : Ok { heap with bytes := bytes } :=
  ⟨hok.apart, hok.positive, hok.bounded⟩

end BlockHeap

/-- The allocator: it may fail, and else gives a block apart from every live one, with any contents. -/
structure Allocator where
  malloc : BlockHeap → Nat → Option (Int × (Int → UInt8))
  fresh : ∀ {heap n p fill}, heap.Ok → malloc heap n = some (p, fill) →
    0 < p ∧ p + n ≤ BlockHeap.addressLimit ∧ ∀ b ∈ heap.blocks, HeapBlock.Apart ⟨p, n⟩ b

end Armfortas.Lib
