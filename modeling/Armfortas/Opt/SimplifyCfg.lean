import Armfortas.Ir.Loops
import Armfortas.Lib.Exhaust

/-! Jumps through empty blocks go to where these lead, and a block is merged into the only one that jumps to it. The
two loops of the source run on fuel. -/
namespace Armfortas.Opt.SimplifyCfg
open Ir Lib

/-- Redirect all edges to `old`. -/
def redirectTerminator (old new : BlockId) : Terminator → Terminator
  | .branch dest args => .branch (if dest = old then new else dest) args
  | .condBranch c td ta fd fa => .condBranch c (if td = old then new else td) ta (if fd = old then new else fd) fa
  | .switch s cases default =>
      .switch s (cases.map fun c => (c.1, if c.2 = old then new else c.2)) (if default = old then new else default)
  | t => t

/-- Where an empty block that may be skipped leads. A loop of one block leads nowhere else. -/
def forwardsTo (f : Function) (loopPreheaders : List BlockId) (b : BasicBlock) : Option BlockId :=
  if b.id = f.entry ∨ b.id ∈ loopPreheaders ∨ b.insts ≠ [] ∨ b.params ≠ [] then none
  else match b.terminator with
    | some (.branch target []) => if target ≠ b.id then some target else none
    | _ => none

/-- All jumps to `empty` go to `target`, and nothing can follow `empty` any more. -/
def skipBlock (f : Function) (empty target : BlockId) : Function :=
  let redirected : Function := { f with
    blocks := f.blocks.map fun b =>
      if b.id = empty then b else { b with terminator := b.terminator.map (redirectTerminator empty target) } }
  redirected.modifyBlock empty fun b => { b with terminator := some .unreachable }

def threadStep (loopPreheaders : List BlockId) (s : Function × Bool) : Option (Function × Bool) :=
  (s.1.blocks.findSome? fun b => (forwardsTo s.1 loopPreheaders b).map fun target => (b.id, target)).map
    fun (empty, target) => (skipBlock s.1 empty target, true)

/-- The block that only this one jumps to, if it does nothing else at its end. -/
def mergesWith (f : Function) (b : BasicBlock) : Option BlockId :=
  match b.terminator with
  | some (.branch succ []) =>
      if succ ≠ b.id ∧ (sortIds (f.predecessors succ)).dedup = [b.id] then some succ else none
  | _ => none

def mergeBlocks (f : Function) (pred succ : BlockId) : Function :=
  (f.modifyBlock pred fun b =>
    { b with insts := b.insts ++ f.instsOf succ, terminator := f.terminatorOf succ }).modifyBlock succ fun b =>
    { b with terminator := some .unreachable, insts := [] }

def mergeStep (s : Function × Bool) : Option (Function × Bool) :=
  (s.1.blocks.findSome? fun b => (mergesWith s.1 b).map fun succ => (b.id, succ)).map
    fun (pred, succ) => (mergeBlocks s.1 pred succ, true)

/-- The function and whether it has changed. -/
def simplifyFunction (fuel : Nat) (f : Function) : Option (Function × Bool) :=
  let loopPreheaders := f.findNaturalLoops.filterMap f.findPreheader
  ((exhaust (threadStep loopPreheaders) fuel (f, false)).bind (exhaust mergeStep fuel)).map fun s =>
    if s.2 then (s.1.pruneUnreachable, true) else s

end Armfortas.Opt.SimplifyCfg
