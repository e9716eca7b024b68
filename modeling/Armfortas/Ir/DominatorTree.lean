import Armfortas.Ir.Loops
import Armfortas.Lib.DepthFirst
import Armfortas.Lib.IdomSolver
import Armfortas.Lib.TreeIntervals

/-! The source works on the positions of blocks; here blocks are named by their numbers throughout. A loop of the
source takes fuel, and the result is `none` where the source would not return or would panic. -/
namespace Armfortas.Ir
open Lib

namespace Function

/-- The targets of a block that are blocks; the walks skip the others. -/
def knownSuccessors (f : Function) (b : BlockId) : List BlockId := (f.successors b).filter f.hasBlock

def reachableReversePostorder (f : Function) : Option (List BlockId) :=
  reversePostorder f.knownSuccessors f.entry (dfsFuel f.knownSuccessors (f.blocks.map (·.id)))

/-- The immediate dominators of the reachable blocks but the entry. -/
def computeImmediateDominators (f : Function) : Option (AssocMap BlockId BlockId) :=
  if f.hasBlock f.entry then
    match f.reachableReversePostorder with
    | none => none
    | some rpo =>
        match idomSolve rpo f.predecessors (idomFuel rpo) (idomInit f.entry) with
        | none => none
        | some idom => some ((rpo.filter (· != f.entry)).filterMap fun b => (idom.get? b).map fun parent => (b, parent))
  else some []

end Function

/-- The blocks with a given immediate dominator, in the order of their numbers. -/
def dominatorTreeChildren (idoms : AssocMap BlockId BlockId) (parent : BlockId) : List BlockId :=
  sortIds ((idoms.filter (·.2 == parent)).map (·.1))

structure DominatorTreeIntervals where
  intervals : AssocMap BlockId (Nat × Nat)

def DominatorTreeIntervals.dominates (t : DominatorTreeIntervals) (dominator block : BlockId) : Bool :=
  encloses t.intervals dominator block

def Function.dominatorTreeIntervals (f : Function) : Option DominatorTreeIntervals :=
  if f.hasBlock f.entry then
    match f.computeImmediateDominators with
    | none => none
    | some idoms =>
        (intervalWalk (dominatorTreeChildren idoms) (2 * (idoms.length + 1)) [(f.entry, false)] 0 []).map (⟨·⟩)
  else some ⟨[]⟩

/-! ## Dominance frontiers -/

abbrev Frontiers := AssocMap BlockId (List BlockId)

def Frontiers.add (df : Frontiers) (runner x : BlockId) : Frontiers :=
  let row := df.getD runner []
  if x ∈ row then df else df.insert runner (row ++ [x])

/-- Walk up from a predecessor of `x` until its immediate dominator, adding `x` to the frontiers on the way. -/
def walkRunner (idoms : AssocMap BlockId BlockId) (x : BlockId) : Nat → BlockId → Frontiers → Option Frontiers
  | 0, _, _ => none
  | fuel + 1, runner, df =>
      if some runner = idoms.get? x then some df
      else
        let df := df.add runner x
        match idoms.get? runner with
        | some parent => walkRunner idoms x fuel parent df
        | none => some df

def walkRunners (idoms : AssocMap BlockId BlockId) (x : BlockId) : List BlockId → Frontiers → Option Frontiers
  | [], df => some df
  | p :: ps, df =>
      match walkRunner idoms x (idoms.length + 2) p df with
      | none => none
      | some df => walkRunners idoms x ps df

namespace Function

def reachablePreds (f : Function) (reachable : List BlockId) (x : BlockId) : List BlockId :=
  (f.predecessors x).filter (· ∈ reachable)

/-- The frontiers that the blocks of a list, as join points, add. -/
def joinFrontiers (f : Function) (idoms : AssocMap BlockId BlockId) (reachable : List BlockId) :
    List BlockId → Frontiers → Option Frontiers
  | [], df => some df
  | x :: xs, df =>
      if x ∈ reachable ∧ 2 ≤ (f.reachablePreds reachable x).length then
        match walkRunners idoms x (f.reachablePreds reachable x) df with
        | none => none
        | some df => f.joinFrontiers idoms reachable xs df
      else f.joinFrontiers idoms reachable xs df

def computeDominanceFrontiers (f : Function) : Option Frontiers :=
  match f.computeImmediateDominators with
  | none => none
  | some idoms =>
      let reachable := idoms.map (·.1) ++ [f.entry]
      let blocks := f.blocks.map (·.id)
      f.joinFrontiers idoms reachable blocks ((blocks.filter (· ∈ reachable)).map fun b => (b, []))

end Function

end Armfortas.Ir
