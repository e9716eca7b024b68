import Armfortas.Ir.Lemmas.LoopTree
import Armfortas.Ir.Theorems.Dominance

/-! The loops that are found are the natural loops of the graph. They are disjoint or nested, and the tree tells
which, exactly when no unreachable block reaches into two loops that are not nested: the backward search from the
latches does not ask whether a predecessor is reachable. -/
namespace Armfortas.Ir
open Lib

namespace Function

/-- The loops found and their tree are what they are meant to be: one loop for each header of a back edge, with
the blocks that reach a latch without passing the header; any two loops disjoint or nested; parents the smallest
strictly enclosing loops and every block mapped to the smallest loop that holds it. -/
structure LoopForest (f : Function) (loops : List NaturalLoop) (tree : LoopTree) : Prop where
  found : f.LoopsFound loops
  laminar : Laminar loops
  tree : TreeOf loops tree

/-- Loop discovery returns, and its result is a forest exactly when an unreachable block is in two natural loops
only if one of their headers is in the other loop. -/
theorem loopForest_iff (f : Function) (hnd : (f.blocks.map (·.id)).Nodup) :
    ∃ loops tree, f.findNaturalLoopsByIntervals = some loops ∧ f.loopTree loops = some tree ∧
      (f.LoopForest loops tree ↔ f.DeadBlocksNested) := by
  obtain ⟨loops, hloops, F⟩ := findNaturalLoops_found hnd
  obtain ⟨tree, htree⟩ := F.exists_loopTree
  refine ⟨loops, tree, hloops, htree, fun h => F.laminar_iff.mp h.laminar, fun h => ?_⟩
  have hlam := F.laminar_iff.mpr h
  exact ⟨F, hlam, F.loopTree_spec hlam htree⟩

/-- A loop inside a loop: 1 is the header of the outer one, 2 of the inner one. -/
def nestedLoops : Function :=
  { name := "f", params := [{ id := 0, ty := .bool, fortranNoalias := false }], returnType := .void, entry := 0,
    nextValue := 1,
    blocks := [bareBlock 0 (.branch 1 []), bareBlock 1 (.condBranch 0 2 [] 5 []), bareBlock 2 (.condBranch 0 3 [] 4 []),
      bareBlock 3 (.branch 2 []), bareBlock 4 (.branch 1 []), bareBlock 5 (.return none)] }

theorem loopForest_iff_nestedLoops : (nestedLoops.blocks.map (·.id)).Nodup ∧
    ∃ loops tree, nestedLoops.findNaturalLoopsByIntervals = some loops ∧ nestedLoops.loopTree loops = some tree ∧
      (nestedLoops.LoopForest loops tree ↔ nestedLoops.DeadBlocksNested) :=
  ⟨by decide, loopForest_iff nestedLoops (by decide)⟩

theorem findNaturalLoopsByIntervals_eq_nestedLoops :
    nestedLoops.findNaturalLoopsByIntervals = some nestedLoops.findNaturalLoops :=
  findNaturalLoopsByIntervals_eq (by decide)

example : nestedLoops.findNaturalLoopsByIntervals = some [⟨1, [1, 4, 2, 3], [4]⟩, ⟨2, [2, 3], [3]⟩] := by
  decide +kernel

/-- Two loops one after the other, and a block 6 that nothing reaches and that branches into both. -/
def deadIntoTwoLoops : Function :=
  { name := "f", params := [{ id := 0, ty := .bool, fortranNoalias := false }], returnType := .void, entry := 0,
    nextValue := 1,
    blocks := [bareBlock 0 (.branch 1 []), bareBlock 1 (.condBranch 0 2 [] 3 []), bareBlock 2 (.branch 1 []),
      bareBlock 3 (.condBranch 0 4 [] 7 []), bareBlock 4 (.branch 5 []), bareBlock 5 (.branch 3 []),
      bareBlock 6 (.condBranch 0 2 [] 5 []), bareBlock 7 (.return none)] }

/-- The two loops found share the block 6 only, which is mapped to the larger one. -/
theorem deadIntoTwoLoops_overlap : (deadIntoTwoLoops.blocks.map (·.id)).Nodup ∧
    ∃ lp lq : NaturalLoop, deadIntoTwoLoops.findNaturalLoopsByIntervals = some [lp, lq] ∧
      6 ∈ lp.body ∧ 6 ∈ lq.body ∧ ¬ lp.body ⊆ lq.body ∧ ¬ lq.body ⊆ lp.body ∧
      (deadIntoTwoLoops.loopTree [lp, lq]).map (·.blockToLoop.get? 6) = some (some 1) ∧
      lp.body.length < lq.body.length := by
  refine ⟨by decide, ⟨1, [1, 2, 6], [2]⟩, ⟨3, [3, 5, 4, 6], [5]⟩, ?_⟩
  decide +kernel

end Function

end Armfortas.Ir
