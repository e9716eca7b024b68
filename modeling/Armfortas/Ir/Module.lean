import Armfortas.Ir.Verify

/-! A module is a list of functions and global variables. `verifyModule` checks each function, the signatures of
internal calls and that no storage needs the layout of a named struct. The layout of the module is the one every
target shares. -/
namespace Armfortas.Ir
open List

/-! ## Globals, structs and modules -/

/-- One 8-byte entry of a `QuadTable`. -/
inductive QuadSlot
  | int (value : Int)
  | sym (name : String)
  deriving DecidableEq, Repr

inductive GlobalInit
  | zero
  | int (value : Int)
  | float (bits : BitVec 64)
  | string (bytes : List (BitVec 8))
  | intArray (values : List Int)
  | floatArray (values : List (BitVec 64))
  | quadTable (slots : List QuadSlot)
  deriving DecidableEq, Repr

structure Global where
  name : String
  ty : IrType
  initializer : Option GlobalInit
  deriving DecidableEq, Repr

structure StructDef where
  name : String
  fields : List (String × IrType)
  deriving DecidableEq, Repr

structure ExternFunc where
  name : String
  params : List IrType
  ret : IrType
  deriving DecidableEq, Repr

structure Module where
  globals : List Global
  functions : List Function
  structDefs : List StructDef
  externFuncs : List ExternFunc
  deriving DecidableEq, Repr

def Module.byName (M : Module) (name : String) : Option Nat := M.functions.findIdx? (·.name == name)

/-! ## References to named structs -/

mutual
def IrType.checkDefinedStructIds (defs : List StructDef) (context : String) : IrType → List VerifyError
  | .ptr inner | .array inner _ | .vector _ inner => inner.checkDefinedStructIds defs context
  | .struct id => report (defs[id]?).isNone s!"{context} references undefined named struct.{id}"
  | .funcPtr params ret =>
      IrType.checkDefinedStructIdsList defs context params ++ ret.checkDefinedStructIds defs context
  | _ => []

def IrType.checkDefinedStructIdsList (defs : List StructDef) (context : String) : List IrType → List VerifyError
  | [] => []
  | ty :: tys => ty.checkDefinedStructIds defs context ++ IrType.checkDefinedStructIdsList defs context tys
end

def IrType.needsNamedStructLayout : IrType → Bool
  | .struct _ => true
  | .array elem _ => elem.needsNamedStructLayout
  | _ => false

namespace Function

variable (f : Function)

def checkStructReferences (defs : List StructDef) : List VerifyError :=
  f.returnType.checkDefinedStructIds defs s!"function '{f.name}' return type" ++
  (f.params.zipIdx.flatMap fun (p, index) =>
    p.ty.checkDefinedStructIds defs s!"function '{f.name}' parameter {index}") ++
  f.blocks.flatMap fun b =>
    (b.params.flatMap fun p =>
      p.ty.checkDefinedStructIds defs s!"function '{f.name}' block '{b.name}' parameter") ++
    b.insts.flatMap fun i =>
      i.ty.checkDefinedStructIds defs s!"function '{f.name}' instruction %{i.id}" ++
      match i.kind with
      | .alloca allocated => allocated.checkDefinedStructIds defs s!"function '{f.name}' alloca %{i.id}"
      | _ => []

def checkStructStorage : List VerifyError :=
  report f.returnType.needsNamedStructLayout
    "named-struct return values are unsupported; pass explicit byte storage by pointer" ++
  (f.params.zipIdx.flatMap fun (p, index) => report p.ty.needsNamedStructLayout
    s!"parameter {index} uses an unsupported named-struct value; pass explicit byte storage by pointer") ++
  f.blocks.flatMap fun b =>
    (b.params.flatMap fun p => report p.ty.needsNamedStructLayout
      s!"block '{b.name}' has an unsupported named-struct value parameter") ++
    b.insts.flatMap fun i =>
      report i.ty.needsNamedStructLayout s!"instruction %{i.id} produces an unsupported named-struct value" ++
      match i.kind, i.ty with
      | .alloca allocated, _ => report allocated.needsNamedStructLayout
          (s!"alloca %{i.id} requests named-struct stack storage, which is unsupported; " ++
            "lower aggregate storage to an explicit byte array")
      | .getElementPtr _ _, .ptr elem => report elem.needsNamedStructLayout
          s!"GEP %{i.id} requires an unsupported named-struct element stride"
      | _, _ => []

end Function

/-! ## Globals -/

inductive GlobalArrayInitializerKind
  | integer
  | float
  deriving DecidableEq, Repr

def checkedMul (a b : Nat) : Option Nat := if a * b < 2 ^ 64 then some (a * b) else none

def GlobalArrayInitializerKind.elementEntries (kind : GlobalArrayInitializerKind) : IrType → Option Nat
  | .bool | .int _ => if kind = .integer then some 1 else none
  | .float _ => if kind = .float then some 1 else none
  | .array elem count => (kind.elementEntries elem).bind (checkedMul · count)
  | _ => none

def GlobalArrayInitializerKind.entries (kind : GlobalArrayInitializerKind) : IrType → Option Nat
  | .array elem count => (kind.elementEntries elem).bind (checkedMul · count)
  | _ => none

namespace Global

variable (g : Global)

def checkArrayEntries (kind : GlobalArrayInitializerKind) (actual : Nat) (kindName : String) : List VerifyError :=
  match kind.entries g.ty with
  | none => [⟨s!"global '{g.name}' {kindName}-array initializer is incompatible with type '{g.ty}'"⟩]
  | some expected => report (actual != expected)
      s!"global '{g.name}' array initializer has {actual} entries, but its type requires {expected}"

def checkArrayInitializer : List VerifyError :=
  match g.initializer with
  | some (.intArray values) => g.checkArrayEntries .integer values.length "integer"
  | some (.floatArray values) => g.checkArrayEntries .float values.length "floating-point"
  | _ => []

def check : List VerifyError :=
  if g.ty.needsNamedStructLayout then
    [⟨s!"global '{g.name}' uses named-struct storage, which is unsupported; " ++
      "lower aggregate storage to an explicit byte array"⟩]
  else if g.ty.trySizeBytes .lp64 = .error .overflow then
    [⟨s!"global '{g.name}' has type '{g.ty}' whose byte size overflows the target address space"⟩]
  else g.checkArrayInitializer

end Global

/-! ## Internal calls -/

/-- What a data pointer points to is an annotation only. -/
def internalCallTypesMatch (expected actual : IrType) : Bool :=
  expected == actual || (expected.isPtr && actual.isPtr)

def checkInternalCallArgs (caller : Function) (call : ValueId) (callee : Function) (args : List ValueId) :
    List VerifyError :=
  (args.zip callee.params).zipIdx.flatMap fun ((arg, param), index) =>
    match caller.valueType arg with
    | none => []
    | some actual => report (!internalCallTypesMatch param.ty actual)
        (s!"internal call %{call} to '{callee.name}' argument {index} type mismatch: " ++
          s!"expected {param.ty}, got {actual}")

namespace Module

variable (M : Module)

def checkInternalCall (caller : Function) (i : Inst) : List VerifyError :=
  match i.kind with
  | .call (.internal calleeIndex) args => match M.functions[calleeIndex]? with
      | none => [⟨s!"internal call %{i.id} refers to function index {calleeIndex}, " ++
          s!"but the module has {M.functions.length} functions"⟩]
      | some callee =>
          report (!internalCallTypesMatch callee.returnType i.ty)
            (s!"internal call %{i.id} to '{callee.name}' result type mismatch: " ++
              s!"expected {callee.returnType}, got {i.ty}") ++
          report (args.length != callee.params.length)
            (s!"internal call %{i.id} to '{callee.name}' argument count mismatch: " ++
              s!"expected {callee.params.length}, got {args.length}") ++
          checkInternalCallArgs caller i.id callee args
  | _ => []

def checkInternalCallSignatures (caller : Function) : List VerifyError :=
  caller.allInsts.flatMap (M.checkInternalCall caller)

def checkStructReferences : List VerifyError :=
  (M.structDefs.zipIdx.flatMap fun (d, id) => d.fields.flatMap fun (field, ty) =>
    ty.checkDefinedStructIds M.structDefs s!"named struct.{id} field '{field}'") ++
  (M.globals.flatMap fun g => g.ty.checkDefinedStructIds M.structDefs s!"global '{g.name}'") ++
  (M.externFuncs.flatMap fun e =>
    (e.params.zipIdx.flatMap fun (ty, index) =>
      ty.checkDefinedStructIds M.structDefs s!"external function '{e.name}' parameter {index}") ++
    e.ret.checkDefinedStructIds M.structDefs s!"external function '{e.name}' return type") ++
  M.functions.flatMap fun f => f.checkStructReferences M.structDefs

def verifyModule : List VerifyError :=
  M.checkStructReferences ++ M.globals.flatMap Global.check ++
  M.functions.flatMap fun f =>
    (f.verifyFunction ++ M.checkInternalCallSignatures f ++ f.checkStructStorage).map fun e =>
      ⟨s!"in '{f.name}': {e.msg}"⟩

/-- Accepted by the verifier, with every value number handed out by its function's cursor. -/
structure Verified : Prop where
  accepted : M.verifyModule = []
  fresh : ∀ f ∈ M.functions, ∀ v ∈ f.collectDefinedValues, v < f.nextValue

instance : Decidable M.Verified :=
  decidable_of_iff (M.verifyModule = [] ∧ ∀ f ∈ M.functions, ∀ v ∈ f.collectDefinedValues, v < f.nextValue)
    ⟨fun h => ⟨h.1, h.2⟩, fun h => ⟨h.1, h.2⟩⟩

end Module

/-! ## What an accepted module guarantees -/

namespace Module.Verified

variable {M : Module} {f : Function}

theorem checks (hv : M.Verified) (hf : f ∈ M.functions) :
    (f.verifyFunction = [] ∧ M.checkInternalCallSignatures f = []) ∧ f.checkStructStorage = [] := by
  have h := flatMap_eq_nil_iff.mp (append_eq_nil_iff.mp hv.accepted).2 f hf
  simpa only [map_eq_nil_iff, append_eq_nil_iff] using h

theorem function (hv : M.Verified) (hf : f ∈ M.functions) : f.Verified := ⟨(hv.checks hf).1.1, hv.fresh f hf⟩

theorem checkInternalCall (hv : M.Verified) (hf : f ∈ M.functions) {i : Inst} (hi : i ∈ f.allInsts) :
    M.checkInternalCall f i = [] :=
  flatMap_eq_nil_iff.mp (hv.checks hf).1.2 i hi

theorem internal_call (hv : M.Verified) (hf : f ∈ M.functions) {i : Inst} (hi : i ∈ f.allInsts) {k : Nat}
    {args : List ValueId} (hk : i.kind = .call (.internal k) args) :
    ∃ callee, M.functions[k]? = some callee ∧ args.length = callee.params.length ∧
      internalCallTypesMatch callee.returnType i.ty = true := by
  have h := hv.checkInternalCall hf hi
  simp only [Module.checkInternalCall, hk] at h
  cases hc : M.functions[k]? with
  | none => simp [hc] at h
  | some callee =>
    simp only [hc, append_eq_nil_iff, report_eq_nil] at h
    exact ⟨callee, rfl, by simpa using h.1.2, by simpa using h.1.1⟩

end Module.Verified

end Armfortas.Ir
