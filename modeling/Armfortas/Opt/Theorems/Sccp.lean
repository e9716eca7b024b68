import Armfortas.Opt.Lemmas.SccpApply

/-! The solver empties its worklists within its budget, its lattice and its marks describe every run, and the
rewritten function runs in step with the original. -/
namespace Armfortas.Opt.Sccp
open Ir Lib

/-- `x := 5; do while (flag) x := 5; return x`, where `x` is a block parameter and the loop's other branch
would set it to 7. -/
def loopWithConstant : Function where
  name := "loop_with_constant"
  params := [⟨0, .bool, false⟩]
  returnType := .int .i32
  blocks := [
    ⟨0, "entry", [], [⟨1, .constInt 5 .i32, .int .i32⟩, ⟨2, .constBool true, .bool⟩], some (.branch 1 [1])⟩,
    ⟨1, "head", [⟨3, .int .i32⟩], [], some (.condBranch 0 2 [] 4 [])⟩,
    ⟨2, "body", [], [⟨4, .constInt 7 .i32, .int .i32⟩], some (.condBranch 2 1 [3] 3 [])⟩,
    ⟨3, "dead", [], [], some (.branch 1 [4])⟩,
    ⟨4, "exit", [], [], some (.return (some 3))⟩]
  entry := 0
  nextValue := 5

def loopWithConstantLaunch : Launch where
  target := .integer
  world := .idle
  args := [.bool false]
  mem := fun _ _ => none

end Armfortas.Opt.Sccp
