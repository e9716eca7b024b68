import Armfortas.Ir.Dominators
import Mathlib.Data.List.Sort

/-! Loops from back edges, the tree of their nesting, and the queries the loop passes share. Block sets of the source
are lists without duplicates. -/
namespace Armfortas.Ir
open Lib

structure NaturalLoop where
  header : BlockId
  /-- the blocks of the loop, the header among them -/
  body : List BlockId
  /-- the sources of the back edges, one entry for each edge -/
  latches : List BlockId
  deriving DecidableEq, Repr

def i64TryFrom (c : Int) : Option Int := if -2 ^ 63 ≤ c ∧ c < 2 ^ 63 then some c else none

def sortIds (ids : List Nat) : List Nat := ids.insertionSort (· ≤ ·)

namespace Function

/-- The edges into a block that dominates their source. The source asks the preorder intervals of the
dominator tree, which answer the same question. -/
def backEdges (f : Function) : List (BlockId × BlockId) :=
  let doms := f.computeDominatorInfo
  f.blocks.flatMap fun b => (b.targets.filter (doms.dominates · b.id)).map fun h => (b.id, h)

/-- Everything that reaches a latch without going through the header. -/
def loopBody (f : Function) (header : BlockId) (latches : List BlockId) : List BlockId :=
  search toFront (fun b => (f.predecessors b).filter (· != header)) (f.blocks.length + 1)
    (((latches.filter (· != header)).dedup).reverse, (header :: latches).dedup)

/-- One loop for each header, in the order of the headers' numbers. -/
def findNaturalLoops (f : Function) : List NaturalLoop :=
  let edges := f.backEdges
  (sortIds (edges.map (·.2)).dedup).map fun header =>
    let latches := sortIds ((edges.filter (·.2 == header)).map (·.1))
    { header := header, latches := latches, body := f.loopBody header latches }

def instsOf (f : Function) (b : BlockId) : List Inst := ((f.tryBlock b).map (·.insts)).getD []

def terminatorOf (f : Function) (b : BlockId) : Option Terminator := (f.tryBlock b).bind (·.terminator)

/-- The one predecessor of the header outside the loop, if it only branches there. -/
def findPreheader (f : Function) (lp : NaturalLoop) : Option BlockId :=
  match (sortIds ((f.predecessors lp.header).filter (· ∉ lp.body))).dedup with
  | [ph] => if ph = lp.header then none else match f.terminatorOf ph with
      | some (.branch dest _) => if dest = lp.header then some ph else none
      | _ => none
  | _ => none

def definingKind (f : Function) (v : ValueId) : Option InstKind := (f.findDefiningInst v).map (·.kind)

/-- The first definition decides. -/
def resolveConstInt (f : Function) (v : ValueId) : Option Int :=
  match f.definingKind v with
  | some (.constInt c _) => i64TryFrom c
  | _ => none

def blocksContainVolatileMemory (f : Function) (blocks : List BlockId) : Bool :=
  blocks.any fun b => (f.instsOf b).any fun i => match i.kind with
    | .volatileLoad _ | .volatileStore _ _ => true
    | _ => false

end Function

/-! ## The loop tree -/

/-- `LoopTreeNode`, without the depth. A node's number is its place in the list of nodes. -/
structure LoopTreeNode where
  header : BlockId
  body : List BlockId
  latches : List BlockId
  children : List Nat
  deriving DecidableEq, Repr

/-- The smallest loop that strictly contains loop `i`; the first one of its size. -/
def loopParent (loops : List NaturalLoop) (i : Nat) : Option Nat :=
  match loops[i]? with
  | none => none
  | some li =>
      (loops.zipIdx.foldl (fun best (lj, j) =>
        let contains := i != j && decide (li.body.length < lj.body.length) && li.body.all (· ∈ lj.body)
        match best with
        | none => if contains then some (j, lj.body.length) else none
        | some (_, size) => if contains && decide (lj.body.length < size) then some (j, lj.body.length) else best)
        none).map (·.1)

def Function.buildLoopTree (f : Function) : List LoopTreeNode :=
  let loops := f.findNaturalLoops
  loops.zipIdx.map fun (lp, i) =>
    { header := lp.header, body := lp.body, latches := lp.latches,
      -- natural loops are numbered in the order of their headers, which is how children are sorted
      children := (List.range loops.length).filter fun j => loopParent loops j == some i }

/-- A loop and its only child, when at most ten instructions stand between them. -/
def Function.perfectlyNestedPairs (f : Function) : List (LoopTreeNode × LoopTreeNode) :=
  let tree := f.buildLoopTree
  tree.filterMap fun node => match node.children with
    | [c] => match tree[c]? with
        | some child =>
            let outerOnly := node.body.filter (· ∉ child.body)
            if (outerOnly.map fun b => (f.instsOf b).length).sum ≤ 10 then some (node, child) else none
        | none => none
    | _ => none

end Armfortas.Ir
