import Armfortas.Ir.DominatorTree

/-! Loops are numbered by their place in the list that `find_natural_loops` returns. -/
namespace Armfortas.Ir
open Lib

namespace Function

/-- The edges into a block that the intervals of the dominator tree report to dominate their source. -/
def intervalBackEdges (f : Function) (dominators : DominatorTreeIntervals) : List (BlockId × BlockId) :=
  f.blocks.flatMap fun b => (b.targets.filter (dominators.dominates · b.id)).map fun h => (b.id, h)

/-- The loops of a list of back edges: one for each header, in the order of the headers' numbers. -/
def loopsOfBackEdges (f : Function) (edges : List (BlockId × BlockId)) : List NaturalLoop :=
  (sortIds (edges.map (·.2)).dedup).map fun header =>
    let latches := sortIds ((edges.filter (·.2 == header)).map (·.1))
    { header := header, latches := latches, body := f.loopBody header latches }

/-- `find_natural_loops`, with the dominance queries as the source makes them. -/
def findNaturalLoopsByIntervals (f : Function) : Option (List NaturalLoop) :=
  f.dominatorTreeIntervals.map fun t => f.loopsOfBackEdges (f.intervalBackEdges t)

end Function

/-- A loop's depth, and one more for each level of its children. -/
def setDepth (children : Nat → List Nat) : Nat → Nat → Nat → AssocMap Nat Nat → Option (AssocMap Nat Nat)
  | 0, _, _, _ => none
  | fuel + 1, id, depth, depths =>
      (children id).foldlM (fun depths child => setDepth children fuel child (depth + 1) depths)
        (depths.insert id depth)

def loopChildren (loops : List NaturalLoop) (i : Nat) : List Nat :=
  (List.range loops.length).filter fun j => loopParent loops j == some i

def loopRoots (loops : List NaturalLoop) : List Nat :=
  (List.range loops.length).filter fun i => loopParent loops i == none

def loopBodyAt (loops : List NaturalLoop) (i : Nat) : List BlockId := ((loops[i]?).map (·.body)).getD []

/-- Every block of every loop of `order` is mapped to the loop; a later loop overwrites. -/
def mapBlocks (loops : List NaturalLoop) (order : List Nat) : AssocMap BlockId Nat :=
  order.foldl (fun m i => (loopBodyAt loops i).foldl (fun m b => m.insert b i) m) []

structure LoopTree where
  nodes : List LoopTreeNode
  parents : List (Option Nat)
  depths : AssocMap Nat Nat
  /-- the innermost loop of a block -/
  blockToLoop : AssocMap BlockId Nat

/-- `build_loop_tree`: parents, depths from the outermost loops down, and the blocks of deeper loops mapped last. -/
def Function.loopTree (f : Function) (loops : List NaturalLoop) : Option LoopTree :=
  match (loopRoots loops).foldlM
      (fun depths i => setDepth (loopChildren loops) (f.blocks.length + 1) i 1 depths) [] with
  | none => none
  | some depths =>
      let byDepth := (List.range loops.length).insertionSort fun i j => depths.getD i 0 ≤ depths.getD j 0
      some
        { nodes := loops.zipIdx.map fun (lp, i) =>
            { header := lp.header, body := lp.body, latches := lp.latches, children := loopChildren loops i }
          parents := (List.range loops.length).map (loopParent loops)
          depths := depths
          blockToLoop := mapBlocks loops byDepth }

end Armfortas.Ir
