import Armfortas.Opt.Lemmas.SimplifyCfgMerge

/-! Correctness of CFG simplification. -/
namespace Armfortas.Opt.SimplifyCfg
open Ir Lib

/-- A choice between a cycle of two empty blocks and a chain of three blocks. -/
def cycleAndChain : Function :=
  { name := "f", params := [], returnType := .void, entry := 0, nextValue := 3,
    blocks := [
      { id := 0, name := "entry", params := [], insts := [⟨0, .constBool true, .bool⟩],
        terminator := some (.condBranch 0 1 [] 3 []) },
      { id := 1, name := "left", params := [], insts := [], terminator := some (.branch 2 []) },
      { id := 2, name := "right", params := [], insts := [], terminator := some (.branch 1 []) },
      { id := 3, name := "first", params := [], insts := [⟨1, .constInt 1 .i32, .int .i32⟩],
        terminator := some (.branch 4 []) },
      { id := 4, name := "second", params := [], insts := [⟨2, .iBin .add 1 1, .int .i32⟩],
        terminator := some (.branch 5 []) },
      { id := 5, name := "third", params := [], insts := [], terminator := some (.return none) }] }

-- the cycle is a block that jumps to itself, the chain is one block
example : (simplifyFunction 7 cycleAndChain).map (fun r => r.1.blocks.map fun b => (b.id, b.insts.length, b.targets)) =
    some [(0, 1, [2, 3]), (2, 0, [2]), (3, 2, [])] := by decide

end Armfortas.Opt.SimplifyCfg
