import Armfortas.Ir.Module

/-! The pass manager runs its passes in order, over and over, until none of them reports a change. -/
namespace Armfortas.Opt
open Ir

structure Pass where
  name : String
  run : Module → Module × Bool

structure PassRunResult where
  changeCount : Nat
  iterations : Nat

structure PassRunError where
  maxIterations : Nat
  changingPasses : List String

structure PassManager where
  passes : List Pass
  verifyAfterEach : Bool
  maxIterations : Nat

/-- The error is the text of the panic. -/
def verifyModuleOrPanic (M : Module) (after : String) : Except String Unit :=
  if M.verifyModule = [] then .ok ()
  else .error ("IR verifier failed after pass `" ++ after ++ "`:\n" ++
    String.join (M.verifyModule.map fun e => "  - " ++ e.msg ++ "\n"))

/-- One iteration: the module after it, and the names of the passes that changed it. -/
def runOnce (verifyAfterEach : Bool) : List Pass → Module → Except String (Module × List String)
  | [], M => .ok (M, [])
  | pass :: passes, M => do
    let (M, passChanged) := pass.run M
    if verifyAfterEach && passChanged then verifyModuleOrPanic M pass.name
    let (M, changing) ← runOnce verifyAfterEach passes M
    return (M, if passChanged then pass.name :: changing else changing)

namespace PassManager

variable (pm : PassManager)

/-- The loop, with the iterations that are left. It is only entered again after a change. -/
def iterate : Nat → Module → PassRunResult → List String →
    Except String (Module × Except PassRunError PassRunResult)
  | 0, M, _, changingPasses => .ok (M, .error ⟨pm.maxIterations, changingPasses⟩)
  | left + 1, M, done, _ => do
    let (M, changing) ← runOnce pm.verifyAfterEach pm.passes M
    let done := ⟨done.changeCount + changing.length, done.iterations + 1⟩
    if changing = [] then return (M, .ok done) else iterate left M done changing

def run (M : Module) : Except String (Module × Except PassRunError PassRunResult) := do
  verifyModuleOrPanic M "<entry>"
  let (M, result) ← pm.iterate pm.maxIterations M ⟨0, 0⟩ []
  verifyModuleOrPanic M "<exit>"
  return (M, result)

end PassManager

end Armfortas.Opt
