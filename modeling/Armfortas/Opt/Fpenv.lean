import Armfortas.Ir.Module

/-! Which functions may cross a change of the rounding mode or of the IEEE flags. -/
namespace Armfortas.Opt.Fpenv
open Lib Ir

def fpenvBarrierExternals : List String :=
  ["afs_ieee_get_rounding", "afs_ieee_set_rounding", "afs_ieee_test_flag", "afs_ieee_set_flag",
    "afs_ieee_get_status", "afs_ieee_set_status"]

def roundingPreservingExternals : List String :=
  ["afs_write_int", "afs_write_newline", "memcpy", "memset",
    "sinf", "cosf", "tanf", "asinf", "acosf", "atanf", "atan2f", "sinhf", "coshf", "tanhf", "expf", "expm1f",
    "logf", "log2f", "log10f", "log1pf", "sqrtf", "cbrtf", "fabsf", "ceilf", "floorf", "roundf", "truncf",
    "powf", "fmodf", "hypotf", "copysignf",
    "sin", "cos", "tan", "asin", "acos", "atan", "atan2", "sinh", "cosh", "tanh", "exp", "expm1",
    "log", "log2", "log10", "log1p", "sqrt", "cbrt", "fabs", "ceil", "floor", "round", "trunc",
    "pow", "fmod", "hypot", "copysign", "j0", "j1", "y0", "y1"]

def externalRequiresFpenvBarrier (name : String) : Bool :=
  fpenvBarrierExternals.contains name || !roundingPreservingExternals.contains name

section

variable (M : Module)

def callees (f : Function) : List FuncRef :=
  f.allInsts.filterMap fun i => match i.kind with
    | .call callee _ => some callee
    | _ => none

def internalCallees (f : Function) : List Nat :=
  (callees f).filterMap fun
    | .internal k => if k < M.functions.length then some k else none
    | _ => none

def callersOf (k : Nat) : List Nat :=
  M.functions.zipIdx.flatMap fun (f, idx) => ((internalCallees M f).filter (· == k)).map fun _ => idx

def crossesBarrier (f : Function) : Bool :=
  (callees f).any fun
    | .internal k => !decide (k < M.functions.length)
    | .external name => externalRequiresFpenvBarrier name
    | .indirect _ => true

def positions (p : Function → Bool) : List Nat :=
  M.functions.zipIdx.filterMap fun (f, idx) => if p f then some idx else none

/-- Barriers propagate to callers. -/
def mayCrossFpenvBarrier : List Nat :=
  let roots := positions M (crossesBarrier M)
  search toBack (callersOf M) M.functions.length (roots, roots)

end

def isRoundingDependentFp : InstKind → Bool
  | .fBin _ _ _ | .fUn .sqrt _ | .intToFloat _ _ | .floatTrunc _ _ => true
  | _ => false

def isFpenvSensitive (kind : InstKind) : Bool :=
  isRoundingDependentFp kind || match kind with
    | .fCmp _ _ _ | .floatToInt _ _ | .floatExtend _ _ => true
    | _ => false

end Armfortas.Opt.Fpenv
