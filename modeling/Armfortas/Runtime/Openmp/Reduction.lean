import Mathlib.Data.Fin.Basic
import Mathlib.Data.List.OfFn
import Mathlib.Logic.Function.Basic
import Armfortas.Lib.Barrier
import Armfortas.Lib.Bytes

/-! A call writes the member's slot, meets the others at the barrier, lets thread 0 combine the slots, meets them
again and reads the result. Each section under the lock is one step. Only the integer kinds of array reductions are
here. -/
namespace Armfortas.Runtime.Openmp
open Lib

inductive ReductionStatus
  | success
  | invalidReduction
  deriving DecidableEq, Repr

inductive ReductionOperator
  | add | multiply | max | min | and | or | eqv | neqv | iand | ior | ieor
  deriving DecidableEq, Repr

inductive ReductionKind
  | i8 | i16 | i32 | i64
  deriving DecidableEq, Repr

/-- The numbers of `AFS_OMP_REDUCTION_ADD` and so on. -/
def ReductionOperator.code : ReductionOperator → Int32
  | add => 1
  | multiply => 2
  | max => 3
  | min => 4
  | and => 5
  | or => 6
  | eqv => 7
  | neqv => 8
  | iand => 9
  | ior => 10
  | ieor => 11

def ReductionOperator.ofCode (operator : Int32) : Option ReductionOperator :=
  [add, multiply, max, min, and, or, eqv, neqv, iand, ior, ieor].find? fun op => op.code == operator

def ReductionOperator.combine {w : Nat} (left right : BitVec w) : ReductionOperator → BitVec w
  | add => left + right
  | multiply => left * right
  | max => if left.slt right then right else left
  | min => if right.slt left then right else left
  | and => if left ≠ 0 ∧ right ≠ 0 then 1 else 0
  | or => if left ≠ 0 ∨ right ≠ 0 then 1 else 0
  | eqv => if (left ≠ 0) ↔ (right ≠ 0) then 1 else 0
  | neqv => if (left ≠ 0) ↔ (right ≠ 0) then 0 else 1
  | iand => left &&& right
  | ior => left ||| right
  | ieor => left ^^^ right

def combineI64Reduction (operator : Int32) (left right : BitVec 64) : Option (BitVec 64) :=
  (ReductionOperator.ofCode operator).map fun op => op.combine left right

/-! ## Arrays -/

def ReductionKind.bytes : ReductionKind → Nat
  | i8 => 1
  | i16 => 2
  | i32 => 4
  | i64 => 8

abbrev ReductionKind.Element (kind : ReductionKind) := BitVec (8 * kind.bytes)

/-- All integer kinds take all operators. -/
def validReductionArrayOperator (operator : Int32) : Bool := (ReductionOperator.ofCode operator).isSome

def reductionArrayByteLen (kind : ReductionKind) (count : Int64) : Option Nat :=
  if 0 < count.toInt then
    let bytes := count.toInt.toNat * kind.bytes
    if bytes < 2 ^ 64 ∧ bytes ≤ 2 ^ 63 - 1 then some bytes else none
  else none

def readReductionElement (kind : ReductionKind) (bytes : List (BitVec 8)) (offset : Nat) : kind.Element :=
  .ofNat _ (bytesNat ((bytes.drop offset).take kind.bytes))

def writeReductionElement (kind : ReductionKind) (bytes : List (BitVec 8)) (offset : Nat) (value : kind.Element) :
    List (BitVec 8) :=
  bytes.take offset ++ natBytes kind.bytes value.toNat ++ bytes.drop (offset + kind.bytes)

/-- `(0..left.len()).step_by(width)`. -/
def elementOffsets (len width : Nat) : List Nat := (List.range ((len + width - 1) / width)).map (· * width)

def combineIntegerArray (op : ReductionOperator) (kind : ReductionKind) (left right : List (BitVec 8)) : List (BitVec 8) :=
  (elementOffsets left.length kind.bytes).foldl (fun left offset =>
    writeReductionElement kind left offset
      (op.combine (readReductionElement kind left offset) (readReductionElement kind right offset))) left

/-- `none` where the function returns `false`. -/
def combineReductionArrays (operator : Int32) (kind : ReductionKind) (left right : List (BitVec 8)) :
    Option (List (BitVec 8)) :=
  if left.length ≠ right.length then none
  else (ReductionOperator.ofCode operator).map fun op => combineIntegerArray op kind left right

/-- The loop of thread 0 over the slots. -/
def combineSlots (operator : Int32) (kind : ReductionKind) :
    List (BitVec 8) → List (List (BitVec 8)) → List (BitVec 8) × ReductionStatus
  | combined, [] => (combined, .success)
  | combined, slot :: slots =>
      match combineReductionArrays operator kind combined slot with
      | some combined => combineSlots operator kind combined slots
      | none => (combined, .invalidReduction)

/-! ## The calls -/

structure ReductionWorkspace where
  slots : List (BitVec 64) := []
  result : BitVec 64 := 0
  arraySlots : List (List (BitVec 8)) := []
  arrayResult : List (BitVec 8) := []
  arrayStatus : ReductionStatus := .success
  deriving DecidableEq, Repr

def resize {α : Type} (xs : List α) (len : Nat) (value : α) : List α :=
  xs.take len ++ List.replicate (len - xs.length) value

/-- A call of `afs_omp_reduce_i64` or `afs_omp_reduce_array` with what its pointers point to. -/
inductive ReductionCall
  | i64 (operator : Int32) (privateValue originalValue : BitVec 64)
  | array (operator : Int32) (kind : ReductionKind) (privateStorage originalStorage : List (BitVec 8)) (count : Int64)

inductive ReductionOutcome
  | failed (status : ReductionStatus)
  | scalar (result : BitVec 64)
  | array (result : List (BitVec 8))
  deriving DecidableEq, Repr

namespace ReductionCall

def check : ReductionCall → ReductionStatus
  | .i64 operator _ _ => if (combineI64Reduction operator 0 0).isNone then .invalidReduction else .success
  | .array operator kind _ _ count =>
      if (reductionArrayByteLen kind count).isNone ∨ validReductionArrayOperator operator = false then .invalidReduction
      else .success

/-- The first section under the lock. -/
def write (threadNum teamSize : Nat) (w : ReductionWorkspace) : ReductionCall → ReductionWorkspace
  | .i64 _ privateValue _ =>
      let slots := if w.slots.length ≠ teamSize then resize w.slots teamSize 0 else w.slots
      { w with slots := slots.set threadNum privateValue }
  | .array _ kind privateStorage _ count =>
      let byteLen := (reductionArrayByteLen kind count).getD 0
      { w with arraySlots := (resize w.arraySlots teamSize []).set threadNum (privateStorage.take byteLen) }

/-- The second one, of thread 0; `none` is the failed `expect`. -/
def fold (w : ReductionWorkspace) : ReductionCall → Option ReductionWorkspace
  | .i64 operator _ originalValue =>
      (w.slots.foldlM (combineI64Reduction operator) originalValue).map fun result => { w with result := result }
  | .array operator kind _ originalStorage count =>
      let byteLen := (reductionArrayByteLen kind count).getD 0
      let r := combineSlots operator kind (originalStorage.take byteLen) w.arraySlots
      some { w with arrayResult := r.1, arrayStatus := r.2 }

def read (w : ReductionWorkspace) : ReductionCall → ReductionOutcome
  | .i64 _ _ _ => .scalar w.result
  | .array _ kind _ _ count =>
      let byteLen := (reductionArrayByteLen kind count).getD 0
      if w.arrayStatus ≠ .success then .failed w.arrayStatus else .array (w.arrayResult.take byteLen)

end ReductionCall

/-! ## A team at work -/

/-- One reduction of all members: the same operator and original value, a private value for each. -/
inductive Reduction (n : Nat)
  | i64 (operator : ReductionOperator) (original : BitVec 64) (privates : Fin n → BitVec 64)
  | array (operator : ReductionOperator) (kind : ReductionKind) (original : List kind.Element)
      (privates : Fin n → List kind.Element) (lengths : ∀ m, (privates m).length = original.length)

/-- How an array lies in memory. -/
def arrayBytes {kind : ReductionKind} (xs : List kind.Element) : List (BitVec 8) :=
  xs.flatMap fun x => natBytes kind.bytes x.toNat

namespace Reduction

variable {n : Nat}

def call (m : Fin n) : Reduction n → ReductionCall
  | .i64 operator original privates => .i64 operator.code (privates m) original
  | .array operator kind original privates _ =>
      .array operator.code kind (arrayBytes (privates m)) (arrayBytes original) (.ofNat original.length)

/-- The left fold over the original value and the private values of threads `0..n-1`. -/
def expected : Reduction n → ReductionOutcome
  | .i64 operator original privates => .scalar ((List.ofFn privates).foldl (fun a b => operator.combine a b) original)
  | .array operator _ original privates _ =>
      .array (arrayBytes ((List.ofFn privates).foldl (List.zipWith fun a b => operator.combine a b) original))

end Reduction

inductive ReductionPhase
  | write
  | arriveFirst
  | waitFirst (generation : Nat)
  | fold
  | arriveSecond
  | waitSecond (generation : Nat)
  | read
  deriving DecidableEq, Repr

/-- A member: the reduction it is at, how far it is in the call, and what the calls before have given it. -/
structure ReductionMember where
  round : Nat := 0
  phase : ReductionPhase := .write
  outcomes : List ReductionOutcome := []
  deriving DecidableEq, Repr

structure ReductionTeam (n : Nat) where
  members : Fin n → ReductionMember
  workspace : ReductionWorkspace := { }
  barrier : Barrier := { }

namespace ReductionTeam

variable {n : Nat}

def next (s : ReductionTeam n) (m : Fin n) (phase : ReductionPhase) : ReductionTeam n :=
  let member := { s.members m with phase := phase }
  { s with members := Function.update s.members m member }

def returns (s : ReductionTeam n) (m : Fin n) (outcome : ReductionOutcome) : ReductionTeam n :=
  let member := s.members m
  let member := { round := member.round + 1, phase := .write, outcomes := member.outcomes ++ [outcome] }
  { s with members := Function.update s.members m member }

/-- The next step of member `m`; `none` when it waits or is done. -/
def step (plan : List (Reduction n)) (m : Fin n) (s : ReductionTeam n) : Option (ReductionTeam n) :=
  (plan[(s.members m).round]?).bind fun reduction =>
    let call := reduction.call m
    match (s.members m).phase with
    | .write =>
        if call.check = .success then
          some ({ s with workspace := call.write m.val n s.workspace }.next m .arriveFirst)
        else some (s.returns m (.failed call.check))
    | .arriveFirst => some ({ s with barrier := s.barrier.arrive n }.next m (.waitFirst s.barrier.generation))
    | .waitFirst generation => if generation = s.barrier.generation then none else some (s.next m .fold)
    | .fold =>
        if m.val = 0 then
          (call.fold s.workspace).map fun workspace => { s with workspace := workspace }.next m .arriveSecond
        else some (s.next m .arriveSecond)
    | .arriveSecond => some ({ s with barrier := s.barrier.arrive n }.next m (.waitSecond s.barrier.generation))
    | .waitSecond generation => if generation = s.barrier.generation then none else some (s.next m .read)
    | .read => some (s.returns m (call.read s.workspace))

/-- The members take their steps in the given order; one that cannot go on is passed over. -/
def run (plan : List (Reduction n)) : List (Fin n) → ReductionTeam n → ReductionTeam n
  | [], s => s
  | m :: ms, s => run plan ms ((s.step plan m).getD s)

def initial : ReductionTeam n := { members := fun _ => { } }

end ReductionTeam

end Armfortas.Runtime.Openmp
