import Mathlib.Algebra.Group.Int.Defs
import Mathlib.Algebra.Group.Nat.Defs

/-! The low-level types of the SSA IR and their byte sizes under a target layout. -/
namespace Armfortas.Ir

inductive IntWidth
  | i8
  | i16
  | i32
  | i64
  | i128
  deriving DecidableEq, Repr

def IntWidth.bits : IntWidth → Nat
  | .i8 => 8
  | .i16 => 16
  | .i32 => 32
  | .i64 => 64
  | .i128 => 128

def IntWidth.bytes (w : IntWidth) : Nat := w.bits / 8

inductive FloatWidth
  | f32
  | f64
  deriving DecidableEq, Repr

def FloatWidth.bits : FloatWidth → Nat
  | .f32 => 32
  | .f64 => 64

def FloatWidth.bytes (w : FloatWidth) : Nat := w.bits / 8

/-- An IR type. `struct` refers to a named definition of the module, `funcPtr` carries the signature
of the callee, and `vector` has `lanes` elements of type `elem`. -/
inductive IrType
  | void
  | bool
  | int (w : IntWidth)
  | float (w : FloatWidth)
  | ptr (inner : IrType)
  | array (elem : IrType) (count : Nat)
  | struct (id : Nat)
  | funcPtr (params : List IrType) (ret : IrType)
  | vector (lanes : Nat) (elem : IrType)
  deriving Repr

/-! ## Equality of types

`IrType` nests lists of itself, so the decision procedure is written out. -/

mutual
def IrType.beq : IrType → IrType → Bool
  | .void, .void => true
  | .bool, .bool => true
  | .int v, .int w => v == w
  | .float v, .float w => v == w
  | .ptr a, .ptr b => a.beq b
  | .array a n, .array b m => a.beq b && n == m
  | .struct n, .struct m => n == m
  | .funcPtr ps r, .funcPtr qs s => IrType.beqList ps qs && r.beq s
  | .vector n a, .vector m b => n == m && a.beq b
  | _, _ => false

def IrType.beqList : List IrType → List IrType → Bool
  | [], [] => true
  | a :: as, b :: bs => a.beq b && IrType.beqList as bs
  | _, _ => false
end

mutual
theorem IrType.beq_iff : (a b : IrType) → a.beq b = true ↔ a = b
  | .void, b => by cases b <;> simp [IrType.beq]
  | .bool, b => by cases b <;> simp [IrType.beq]
  | .int _, b => by cases b <;> simp [IrType.beq]
  | .float _, b => by cases b <;> simp [IrType.beq]
  | .ptr a, b => by cases b <;> simp [IrType.beq, IrType.beq_iff a]
  | .array a _, b => by cases b <;> simp [IrType.beq, IrType.beq_iff a]
  | .struct _, b => by cases b <;> simp [IrType.beq]
  | .funcPtr ps r, b => by cases b <;> simp [IrType.beq, IrType.beqList_iff ps, IrType.beq_iff r]
  | .vector _ a, b => by cases b <;> simp [IrType.beq, IrType.beq_iff a]

theorem IrType.beqList_iff : (as bs : List IrType) → IrType.beqList as bs = true ↔ as = bs
  | [], bs => by cases bs <;> simp [IrType.beqList]
  | a :: as, bs => by
      cases bs <;> simp [IrType.beqList, IrType.beq_iff a, IrType.beqList_iff as]
end

instance : DecidableEq IrType := fun a b => decidable_of_iff _ (IrType.beq_iff a b)

/-! ## Display -/

mutual
def IrType.display : IrType → String
  | .void => "void"
  | .bool => "bool"
  | .int w => "i" ++ toString w.bits
  | .float w => "f" ++ toString w.bits
  | .ptr inner => "ptr<" ++ inner.display ++ ">"
  | .array elem n => "[" ++ elem.display ++ " x " ++ toString n ++ "]"
  | .struct id => "struct." ++ toString id
  | .funcPtr params ret => "fn(" ++ String.intercalate ", " (IrType.displayList params) ++ ") -> " ++ ret.display
  | .vector lanes elem => "<" ++ toString lanes ++ " x " ++ elem.display ++ ">"

def IrType.displayList : List IrType → List String
  | [] => []
  | ty :: tys => ty.display :: IrType.displayList tys
end

instance : ToString IrType := ⟨IrType.display⟩

/-! ## Sizes -/

/-- The sizes the frontend computes with. -/
structure TargetLayout where
  ptrBytes : Nat
  boolBytes : Nat
  vectorBytes : Nat
  deriving DecidableEq, Repr

/-- The layout every supported target shares. -/
def TargetLayout.lp64 : TargetLayout where
  ptrBytes := 8
  boolBytes := 1
  vectorBytes := 16

/-- Why an IR type cannot be sized without additional module context. -/
inductive TypeSizeError
  | overflow
  | structLayoutRequired (id : Nat)
  deriving DecidableEq, Repr

/-- The size in bytes. Byte counts live in `u64`. -/
def IrType.trySizeBytes (layout : TargetLayout) : IrType → Except TypeSizeError Nat
  | .void => .ok 0
  | .bool => .ok layout.boolBytes
  | .int w => .ok w.bytes
  | .float w => .ok w.bytes
  | .ptr _ => .ok layout.ptrBytes
  | .array elem count =>
      match elem.trySizeBytes layout with
      | .ok n => if n * count < 2 ^ 64 then .ok (n * count) else .error .overflow
      | .error e => .error e
  | .struct id => .error (.structLayoutRequired id)
  | .funcPtr _ _ => .ok layout.ptrBytes
  | .vector _ _ => .ok layout.vectorBytes

/-- `size_bytes`: `none` where the source panics. -/
def IrType.sizeBytes (layout : TargetLayout) (ty : IrType) : Option Nat :=
  (ty.trySizeBytes layout).toOption

def IrType.isInt : IrType → Bool
  | .int _ => true
  | _ => false

def IrType.isFloat : IrType → Bool
  | .float _ => true
  | _ => false

def IrType.isPtr : IrType → Bool
  | .ptr _ => true
  | _ => false

/-- Integer width supported by the `switch` terminator: every width but `i128`. -/
def IrType.switchIntWidth : IrType → Option IntWidth
  | .int .i128 => none
  | .int w => some w
  | _ => none

/-- Whether a `switch` case constant (an `i64`) is representable by this selector. -/
def IrType.switchCaseIsRepresentable (ty : IrType) (value : Int) : Bool :=
  match ty.switchIntWidth with
  | some w => decide (-2 ^ (w.bits - 1) ≤ value ∧ value < 2 ^ (w.bits - 1))
  | none => false

end Armfortas.Ir
