import Armfortas.Ir.Dominators

/-! `verifyFunction` returns the list of findings; a function is accepted when it is empty. The cached value types are
not modelled, so the check that they agree with the definitions has no counterpart here. -/
namespace Armfortas.Ir
open Lib

structure VerifyError where
  msg : String
  deriving DecidableEq, Repr

def report (bad : Bool) (msg : String) : List VerifyError := if bad then [⟨msg⟩] else []

@[simp] theorem report_eq_nil {bad : Bool} {msg : String} : report bad msg = [] ↔ bad = false := by
  cases bad <;> simp [report]

namespace Function

variable (f : Function)

/-! ## Blocks, entry and uses -/

/-- Block numbers must be unique and every block must end in a terminator. -/
def checkBlocks : List BasicBlock → List BasicBlock → List VerifyError
  | _, [] => []
  | seen, b :: bs =>
      (match seen.find? (·.id == b.id) with
        | some first =>
            [⟨s!"duplicate block ID {b.id}: blocks '{first.name}' and '{b.name}' share an identity"⟩]
        | none => []) ++
      report b.terminator.isNone s!"block '{b.name}' has no terminator" ++
      checkBlocks (if seen.any (·.id == b.id) then seen else seen ++ [b]) bs

def hasDuplicateBlocks : Bool := !decide (f.blocks.map (·.id)).Nodup

def checkEntry : List VerifyError :=
  match f.tryBlock f.entry with
  | none => [⟨"block not found"⟩]
  | some entryBlock =>
      report (!entryBlock.params.isEmpty) "entry block must not have block parameters" ++
      f.blocks.flatMap fun b => report (b.targets.contains f.entry)
        s!"block '{b.name}' branches back into the entry block — entry must have no predecessors"

def collectDefinedValues : List ValueId := f.definitions.map (·.1)

def checkUsesDefined : List VerifyError :=
  f.blocks.flatMap fun b =>
    (b.insts.flatMap fun i => i.kind.operands.flatMap fun used =>
      report (!f.collectDefinedValues.contains used) s!"value %{used} used in block '{b.name}' but not defined") ++
    (match b.terminator with
      | some t => t.uses.flatMap fun used => report (!f.collectDefinedValues.contains used)
          s!"value %{used} used in terminator of block '{b.name}' but not defined"
      | none => [])

def duplicateValues : List ValueId → List ValueId → List VerifyError
  | _, [] => []
  | seen, v :: vs =>
      report (seen.contains v) s!"duplicate value ID %{v}" ++ duplicateValues (v :: seen) vs

/-! ## Terminators -/

def checkBranchArgs (fromBlock : String) (dest : BlockId) (args : List ValueId) : List VerifyError :=
  match f.tryBlock dest with
  | none => []
  | some target =>
      if target.params.length ≠ args.length then
        [⟨s!"branch from '{fromBlock}' to '{target.name}': expected {target.params.length} args, " ++
            s!"got {args.length}"⟩]
      else
        (target.params.zip args).zipIdx.flatMap fun ((bp, arg), i) =>
          match f.valueType arg with
          | some argTy => report (argTy ≠ bp.ty)
              (s!"branch from '{fromBlock}' to '{target.name}': arg {i} type mismatch: " ++
                s!"expected {bp.ty}, got {argTy}")
          | none => []

def checkSwitchTarget (role : String) (dest : BlockId) : List VerifyError :=
  match f.tryBlock dest with
  | none => []
  | some target => report (!target.params.isEmpty) s!"switch {role} target '{target.name}' has block parameters"

def checkSelector (selector : ValueId) (cases : List (Int × BlockId)) : List VerifyError :=
  match f.valueType selector with
  | some ty =>
      if ty.switchIntWidth.isSome then
        cases.flatMap fun (value, _) => report (!ty.switchCaseIsRepresentable value)
          s!"switch case value {value} is not representable in selector type {ty}"
      else [⟨s!"switch selector must be i8, i16, i32, or i64, got {ty}"⟩]
  | none => [⟨s!"switch selector %{selector} has no type; expected i8, i16, i32, or i64"⟩]

def checkCondition (fromBlock : String) (cond : ValueId) : List VerifyError :=
  match f.valueType cond with
  | some .bool => []
  | some ty => [⟨s!"conditional branch from '{fromBlock}': condition must be Bool, got {ty}"⟩]
  | none => [⟨s!"conditional branch from '{fromBlock}': condition %{cond} has no type; expected Bool"⟩]

def checkBranchTypes (fromBlock : String) : Terminator → List VerifyError
  | .branch dest args => f.checkBranchArgs fromBlock dest args
  | .condBranch cond t targs e eargs =>
      f.checkCondition fromBlock cond ++ f.checkBranchArgs fromBlock t targs ++ f.checkBranchArgs fromBlock e eargs
  | .switch selector cases default =>
      f.checkSelector selector cases ++ f.checkSwitchTarget "default" default ++
        cases.flatMap fun (_, dest) => f.checkSwitchTarget "case" dest
  | .return _ | .unreachable => []

def checkReturnType (fromBlock : String) : Terminator → List VerifyError
  | .return value =>
      match f.returnType, value with
      | .void, none => []
      | .void, some v =>
          [⟨s!"return from block '{fromBlock}': void function must not return a value (got %{v})"⟩]
      | expected, none =>
          [⟨s!"return from block '{fromBlock}': non-void function must return a value of type {expected}"⟩]
      | expected, some v =>
          match f.valueType v with
          | some actual => report (actual ≠ expected)
              s!"return type mismatch in block '{fromBlock}': expected {expected}, got {actual} from %{v}"
          | none => [⟨s!"return from block '{fromBlock}': value %{v} has no type; expected {expected}"⟩]
  | _ => []

def checkTerminatorTypes : List VerifyError :=
  f.blocks.flatMap fun b =>
    match b.terminator with
    | some t => f.checkBranchTypes b.name t ++ f.checkReturnType b.name t
    | none => []

def checkTargets : List VerifyError :=
  f.blocks.flatMap fun b => b.targets.flatMap fun t =>
    report (!(f.blocks.map (·.id)).contains t) s!"block '{b.name}' branches to undefined block {t}"

end Function

/-! ## Vector shapes and runtime signatures -/

def vectorShapeError : IrType → Option String
  | .vector lanes elem =>
      match elem with
      | .int w => shape lanes w.bits
      | .float w => shape lanes w.bits
      | other => some s!"vector element type must be scalar int/float, got {other}"
  | _ => none
where
  shape (lanes elemBits : Nat) : Option String :=
    if lanes ≠ 2 ∧ lanes ≠ 4 ∧ lanes ≠ 8 ∧ lanes ≠ 16 then
      some s!"vector lane count {lanes} unsupported (NEON: 2/4/8/16)"
    else if lanes * elemBits ≠ 128 then
      some s!"vector total width {lanes * elemBits}b must be 128 ({lanes}× {elemBits}b)"
    else none

def vectorArithmeticShapeError : IrType → Option String
  | .vector 4 (.int .i32) | .vector 4 (.float .f32) | .vector 2 (.int .i64) | .vector 2 (.float .f64) => none
  | ty => some (s!"vector arithmetic uses unsupported shape {ty}; expected <4 x i32>, <2 x i64>, <4 x f32>, " ++
      "or <2 x f64>")

inductive RuntimeAbiType
  | void
  | i32
  | i64
  | f32
  | bytePtr
  | dataPtr
  | printableInt
  deriving DecidableEq, Repr

def RuntimeAbiType.matches : RuntimeAbiType → IrType → Bool
  | .void, .void => true
  | .i32, .int .i32 => true
  | .i64, .int .i64 => true
  | .f32, .float .f32 => true
  | .bytePtr, .ptr (.int .i8) => true
  | .dataPtr, .ptr _ => true
  | .printableInt, .int .i32 | .printableInt, .int .i64 | .printableInt, .int .i128 => true
  | _, _ => false

def RuntimeAbiType.description : RuntimeAbiType → String
  | .void => "void"
  | .i32 => "i32"
  | .i64 => "i64"
  | .f32 => "f32"
  | .bytePtr => "ptr<i8>"
  | .dataPtr => "a data pointer"
  | .printableInt => "i32, i64, or i128"

def RuntimeFunc.signature : RuntimeFunc → List RuntimeAbiType × RuntimeAbiType
  | .printInt => ([.printableInt], .void)
  | .printReal => ([.f32], .void)
  | .printString => ([.bytePtr, .i64], .void)
  | .printLogical => ([.i32], .void)
  | .printNewline => ([], .void)
  | .allocate => ([.i64], .bytePtr)
  | .deallocate => ([.dataPtr], .void)
  | .stringConcat => ([.bytePtr, .i64, .bytePtr, .i64], .bytePtr)
  | .stringCopy => ([.bytePtr, .i64, .bytePtr, .i64], .void)
  | .stringCompare => ([.bytePtr, .i64, .bytePtr, .i64], .i32)
  | .stop | .errorStop => ([], .void)
  | .checkBounds => ([.i64, .i64, .i64], .void)
  | .checkArrayAssignmentConformance => ([.dataPtr, .dataPtr], .void)

/-- `check_runtime_call_signature`; `vt` is the type lookup. -/
def checkRuntimeCallSignature (vt : ValueId → Option IrType) (inst : Inst) (rf : RuntimeFunc)
    (args : List ValueId) : List VerifyError :=
  let (expectedArgs, expectedResult) := rf.signature
  report (!expectedResult.matches inst.ty)
    (s!"runtime call {rf.debug} %{inst.id} result type mismatch: expected {expectedResult.description}, " ++
      s!"got {inst.ty}") ++
  report (args.length ≠ expectedArgs.length)
    (s!"runtime call {rf.debug} %{inst.id} argument count mismatch: expected {expectedArgs.length}, " ++
      s!"got {args.length}") ++
  (args.zip expectedArgs).zipIdx.flatMap fun ((arg, expected), index) =>
    match vt arg with
    | some actual => report (!expected.matches actual)
        (s!"runtime call {rf.debug} %{inst.id} argument {index} type mismatch: " ++
          s!"expected {expected.description}, got {actual}")
    | none => []

/-! ## Type consistency

Each check takes the type lookup `vt` and the instruction. -/

section TypeConsistency

variable (vt : ValueId → Option IrType) (inst : Inst)

def checkIntBinary (a b : ValueId) : List VerifyError :=
  report (vt a).isNone s!"integer op %{inst.id}: operand %{a} has no type" ++
  report (vt b).isNone s!"integer op %{inst.id}: operand %{b} has no type" ++
  match vt a, vt b with
  | some ta, some tb =>
      report (!ta.isInt) s!"integer op %{inst.id} has non-integer operand %{a} : {ta}" ++
      report (!tb.isInt) s!"integer op %{inst.id} has non-integer operand %{b} : {tb}" ++
      report (ta.isInt && tb.isInt && ta ≠ tb)
        s!"integer op %{inst.id}: operand width mismatch %{a} : {ta} vs %{b} : {tb}" ++
      report (ta.isInt && ta = tb && ta ≠ inst.ty)
        s!"integer op %{inst.id} result type {inst.ty} does not match operand type {ta}"
  | _, _ => []

def checkFloatBinary (a b : ValueId) : List VerifyError :=
  match vt a, vt b with
  | some ta, some tb =>
      report (!ta.isFloat) s!"float op %{inst.id} has non-float operand %{a} : {ta}" ++
      report (!tb.isFloat) s!"float op %{inst.id} has non-float operand %{b} : {tb}" ++
      report (ta.isFloat && tb.isFloat && ta ≠ tb)
        s!"float op %{inst.id}: operand width mismatch %{a} : {ta} vs %{b} : {tb}" ++
      report (ta.isFloat && ta = tb && ta ≠ inst.ty)
        s!"float op %{inst.id} result type {inst.ty} does not match operand type {ta}"
  | _, _ => []

def checkFloatUnary (a : ValueId) : List VerifyError :=
  match vt a with
  | some ty =>
      if !ty.isFloat then [⟨s!"float unary op %{inst.id} has non-float operand %{a} : {ty}"⟩]
      else report (ty ≠ inst.ty)
        s!"float unary op %{inst.id} result type {inst.ty} does not match operand type {ty}"
  | none => []

def checkStoreTypes (val addr : ValueId) : List VerifyError :=
  (match vt addr with
    | some ty => report (!ty.isPtr) s!"store %{inst.id} to non-pointer %{addr} : {ty}"
    | none => []) ++
  match vt addr, vt val with
  | some (.ptr inner), some vty =>
      -- a `ptr<i8>` marks a byte-level access path, and all pointers have one size
      report (inner ≠ .int .i8 && !(inner.isPtr && vty.isPtr) && vty ≠ inner)
        s!"store %{inst.id}: value type {vty} doesn't match pointee type {inner}"
  | _, _ => []

def checkLoadTypes (addr : ValueId) : List VerifyError :=
  match vt addr with
  | some ty => report (!ty.isPtr) s!"load %{inst.id} from non-pointer %{addr} : {ty}"
  | none => []

def checkBitwise (a b : ValueId) : List VerifyError :=
  match vt a, vt b with
  | some ta, some tb =>
      report (!ta.isInt || !tb.isInt) s!"bitwise op %{inst.id}: operand must be integer ({ta} / {tb})" ++
      report (ta.isInt && tb.isInt && ta ≠ tb) s!"bitwise op %{inst.id}: operand width mismatch {ta} vs {tb}"
  | _, _ => []

def checkLogical (a b : ValueId) : List VerifyError :=
  match vt a, vt b with
  | some ta, some tb => report (ta ≠ .bool || tb ≠ .bool)
      s!"logical op %{inst.id}: operands must be Bool ({ta} / {tb})"
  | _, _ => []

def checkIntCompare (a b : ValueId) : List VerifyError :=
  match vt a, vt b with
  | some ta, some tb =>
      if !ta.isInt || !tb.isInt then
        [⟨s!"integer compare %{inst.id}: operands must be integers ({ta} / {tb})"⟩]
      else report (ta ≠ tb) s!"integer compare operand type mismatch: %{a} : {ta} vs %{b} : {tb}"
  | _, _ => []

def checkSelect (c t e : ValueId) : List VerifyError :=
  (match vt c with
    | some ty => report (ty ≠ .bool) s!"select condition must be Bool: %{c} got {ty}"
    | none => []) ++
  match vt t, vt e with
  | some tt, some te => report (tt ≠ te || tt ≠ inst.ty)
      s!"select %{inst.id}: arms and result must share type ({tt} / {te} / {inst.ty})"
  | _, _ => []

def checkVecBinary (a b : ValueId) : List VerifyError :=
  match vt a, vt b with
  | some ta, some tb => report (ta ≠ tb || ta ≠ inst.ty)
      s!"vector binop operands and result must share type: lhs {ta}, rhs {tb}, result {inst.ty}"
  | _, _ => []

def checkVecFma (a b c : ValueId) : List VerifyError :=
  match vt a, vt b, vt c with
  | some ta, some tb, some tc => report (ta ≠ tb || tb ≠ tc || ta ≠ inst.ty)
      s!"vfma operands and result must share type: a {ta}, b {tb}, c {tc}, result {inst.ty}"
  | _, _, _ => []

def checkVecSelect (t e : ValueId) : List VerifyError :=
  match vt t, vt e with
  | some tt, some te => report (tt ≠ te || tt ≠ inst.ty)
      s!"vselect t/f and result must share type: t {tt}, f {te}, result {inst.ty}"
  | _, _ => []

def checkVecUnary (a : ValueId) : List VerifyError :=
  match vt a with
  | some ta => report (ta ≠ inst.ty) s!"vector unop operand and result must share type: {ta} vs {inst.ty}"
  | none => []

def checkLane (op : String) (v : ValueId) (lane : Nat) : List VerifyError :=
  match vt v with
  | some (.vector lanes _) => report (lanes ≤ lane) s!"{op} lane {lane} out of range (vector has {lanes} lanes)"
  | _ => []

/-- Vector arithmetic is limited to the shapes both backends dispatch on. -/
def checkVecArithmeticShape : List VerifyError :=
  match inst.kind with
  | .vBin _ _ _ | .vFma _ _ _ | .vUn _ _ =>
      match vectorArithmeticShapeError inst.ty with
      | some msg => [⟨s!"vector arithmetic %{inst.id}: {msg}"⟩]
      | none => []
  | _ => []

def checkTypeConsistency : List VerifyError :=
  (match vectorShapeError inst.ty with
    | some msg => [⟨msg⟩]
    | none => []) ++
  checkVecArithmeticShape inst ++
  match inst.kind with
  | .iBin _ a b => checkIntBinary vt inst a b
  | .fBin _ a b => checkFloatBinary vt inst a b
  | .fUn _ a => checkFloatUnary vt inst a
  | .store val addr | .volatileStore val addr => checkStoreTypes vt inst val addr
  | .load addr | .volatileLoad addr => checkLoadTypes vt inst addr
  | .getElementPtr _ idxs => report (decide (1 < idxs.length))
      s!"GEP %{inst.id} has {idxs.length} indices; backend lowering supports at most one"
  | .bitBin _ a b => checkBitwise vt inst a b
  | .logic _ a b => checkLogical vt inst a b
  | .iCmp _ a b => checkIntCompare vt inst a b
  | .select c t e => checkSelect vt inst c t e
  | .runtimeCall rf args => checkRuntimeCallSignature vt inst rf args
  | .vBin _ a b => checkVecBinary vt inst a b
  | .vFma a b c => checkVecFma vt inst a b c
  | .vSelect _ t e => checkVecSelect vt inst t e
  | .vUn _ a => checkVecUnary vt inst a
  | .vExtract v lane => checkLane vt "vextract" v lane
  | .vInsert v lane _ => checkLane vt "vinsert" v lane
  | _ => []

end TypeConsistency

/-! ## Dominance -/

namespace Function

/-- Parameters belong to the entry; the last definition of a value wins. -/
def valueDefBlock (f : Function) (v : ValueId) : Option BlockId :=
  let sites : List (ValueId × BlockId) :=
    f.params.map (fun p => (p.id, f.entry)) ++ f.blocks.flatMap fun b =>
      b.params.map (fun p => (p.id, b.id)) ++ b.insts.map fun i => (i.id, b.id)
  sites.reverse.lookup v

end Function

/-- The position of a definition inside its block: block parameters stand before all instructions. -/
def BasicBlock.instOrder (b : BasicBlock) (v : ValueId) : Option Int :=
  let order : List (ValueId × Int) :=
    b.params.map (fun p => (p.id, -1)) ++ b.insts.zipIdx.map fun (i, idx) => (i.id, (idx : Int))
  order.reverse.lookup v

namespace Function

variable (f : Function)

def blockName (b : BlockId) : String := ((f.tryBlock b).map (·.name)).getD ""

def checkUse (doms : DominatorInfo) (b : BasicBlock) (val : ValueId) (useIdx : Int) : List VerifyError :=
  match f.valueDefBlock val with
  | none => []
  | some defBlock =>
      if defBlock = b.id then
        match b.instOrder val with
        | some defIdx => report (useIdx ≤ defIdx) s!"value %{val} used before its definition in block '{b.name}'"
        | none => []
      else report (!doms.dominates defBlock b.id)
        s!"value %{val} defined in '{f.blockName defBlock}' does not dominate use in '{b.name}'"

def checkDominance : List VerifyError :=
  let doms := f.computeDominatorInfo
  f.blocks.flatMap fun b =>
    (b.insts.zipIdx.flatMap fun (i, idx) => i.kind.operands.flatMap fun used => f.checkUse doms b used idx) ++
    (match b.terminator with
      | some t => t.uses.flatMap fun used => f.checkUse doms b used b.insts.length
      | none => [])

/-! ## The whole check -/

/-- `verify_function`. Duplicate block numbers make the later checks ambiguous and end the check. -/
def verifyFunction : List VerifyError :=
  checkBlocks [] f.blocks ++
  if f.hasDuplicateBlocks then []
  else
    f.checkEntry ++ f.checkUsesDefined ++ duplicateValues [] f.collectDefinedValues ++
    f.checkTerminatorTypes ++ (f.allInsts.flatMap (checkTypeConsistency f.valueType)) ++ f.checkTargets ++
    f.checkDominance

/-- Accepted by the verifier, with every value number handed out by the cursor. The second part is the
invariant of the private cursor: it only grows, and every number comes from it. -/
structure Verified : Prop where
  accepted : f.verifyFunction = []
  fresh : ∀ v ∈ f.collectDefinedValues, v < f.nextValue

instance : Decidable f.Verified :=
  decidable_of_iff (f.verifyFunction = [] ∧ ∀ v ∈ f.collectDefinedValues, v < f.nextValue)
    ⟨fun h => ⟨h.1, h.2⟩, fun h => ⟨h.1, h.2⟩⟩

end Function

end Armfortas.Ir
