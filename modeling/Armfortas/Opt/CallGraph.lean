import Armfortas.Ir.Loops
import Armfortas.Ir.Module
import Armfortas.Lib.Postorder
import Armfortas.Lib.Tarjan

/-! The functions of a module with the functions they call by internal references, the recursive ones among them and
an order for inlining. -/
namespace Armfortas.Opt
open Ir Lib

structure CallNode where
  funcIdx : Nat
  callees : List Nat
  callers : List Nat
  instCount : Nat
  isRecursive : Bool
  deriving DecidableEq, Repr

structure CallGraph where
  nodes : List CallNode
  deriving DecidableEq, Repr

def internalCallee (i : Inst) : Option Nat :=
  match i.kind with
  | .call (.internal idx) _ => some idx
  | _ => none

def internalCallees (f : Function) : List Nat :=
  sortIds ((f.blocks.flatMap (·.insts)).filterMap internalCallee).dedup

/-- The number of instructions, times four for each loop. -/
def inlineInstCount (f : Function) : Nat :=
  let count := (f.blocks.map (·.insts.length)).sum
  let loops := f.findNaturalLoops
  count * if loops.isEmpty then 1 else 4 * loops.length

def calleesIn (nodes : List CallNode) (idx : Nat) : List Nat :=
  ((nodes[idx]?.map (·.callees)).getD []).filter (· < nodes.length)

/-- As many visits as there are nodes may be nested. -/
def markRecursiveNodes (nodes : List CallNode) : Option (List CallNode) :=
  (Scc.visitAll (calleesIn nodes) nodes.length (List.range nodes.length) Scc.init).map fun state =>
    nodes.mapIdx fun idx node => { node with isRecursive := state.recursive idx }

/-- The nodes before the recursive ones are marked. -/
def callNodes (M : Module) : List CallNode :=
  M.functions.mapIdx fun i f =>
    { funcIdx := i
      callees := internalCallees f
      callers := (List.range M.functions.length).filter fun caller =>
        ((M.functions[caller]?.map internalCallees).getD []).contains i
      instCount := inlineInstCount f
      isRecursive := false }

/-- At most all nodes are on the way of a visit. -/
def rpoDfs (nodes : List CallNode) (state : Post Nat) (idx : Nat) : Option (Post Nat) :=
  Post.visit (calleesIn nodes) (nodes.length + 1) state idx

namespace CallGraph

def build (M : Module) : Option CallGraph := (markRecursiveNodes (callNodes M)).map CallGraph.mk

def roots (g : CallGraph) : List Nat :=
  (List.range g.nodes.length).filter fun i => (g.nodes[i]?.map (·.callers.isEmpty)).getD false

/-- First from the roots, then from all that are left. -/
def bottomUpOrder (g : CallGraph) : Option (List Nat) :=
  ((g.roots.foldlM (rpoDfs g.nodes) Post.init).bind fun state =>
    (List.range g.nodes.length).foldlM
      (fun state i => if !state.visited i then rpoDfs g.nodes state i else some state) state).map (·.order)

def isRecursive (g : CallGraph) (idx : Nat) : Bool := (g.nodes[idx]?.map (·.isRecursive)).getD false

end CallGraph

/-! ## What it is for -/

/-- Function `i` has a call of function `j`. -/
def Calls (M : Module) (i j : Nat) : Prop :=
  j < M.functions.length ∧
    ∃ f, M.functions[i]? = some f ∧ ∃ b ∈ f.blocks, ∃ inst ∈ b.insts, ∃ args, inst.kind = .call (.internal j) args

end Armfortas.Opt
