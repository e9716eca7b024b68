import Armfortas.Ir.Verify

/-! A join is a block without instructions that branches on one of its own parameters. A predecessor that passes it a
constant is redirected to the arm the constant selects. All redirections of a round are planned on the function as it
is and then applied one after the other. -/
namespace Armfortas.Opt.JumpThread
open Ir Lib

inductive ConstKey
  | bool (b : Bool)
  | int (v : Int)
  deriving DecidableEq, Repr

def ConstKey.fromInst : InstKind → Option ConstKey
  | .constBool b => some (.bool b)
  | .constInt v _ => some (.int v)
  | _ => none

def constKeys (f : Function) : AssocMap ValueId ConstKey :=
  (f.allInsts.filterMap fun i => (ConstKey.fromInst i.kind).map fun c => (i.id, c)).reverse

structure ThreadAction where
  pred : BlockId
  /-- the block to bypass -/
  join : BlockId
  newDest : BlockId
  newArgs : List ValueId
  deriving DecidableEq, Repr

def BasicBlock.uses (b : BasicBlock) : List ValueId :=
  b.insts.flatMap (·.kind.operands) ++ (match b.terminator with
    | some t => t.uses
    | none => [])

def joinParamsUsedOutsideBlock (f : Function) (join : BasicBlock) : Bool :=
  f.blocks.any fun b => b.id != join.id && (BasicBlock.uses b).any fun u => join.params.any (·.id == u)

/-- What a candidate join branches on: the index of its condition among its parameters, and its arms. -/
structure JoinShape where
  cond : ValueId
  condIdx : Nat
  trueArm : BlockId × List ValueId
  falseArm : BlockId × List ValueId
  deriving DecidableEq, Repr

def JoinShape.arm (s : JoinShape) (b : Bool) : BlockId × List ValueId := if b then s.trueArm else s.falseArm

def branchShape (join : BasicBlock) : Option JoinShape :=
  match join.terminator with
  | some (.condBranch cond trueDest trueArgs falseDest falseArgs) =>
      match join.params.findIdx? (·.id == cond) with
      | some condIdx => some ⟨cond, condIdx, (trueDest, trueArgs), (falseDest, falseArgs)⟩
      | none => none
  | _ => none

def joinShape (f : Function) (join : BasicBlock) : Option JoinShape :=
  if !join.insts.isEmpty || join.params.isEmpty || joinParamsUsedOutsideBlock f join then none else branchShape join

/-- The arguments of the one edge from a terminator to the join. A branch with both arms to the join has none. -/
def edgeArgs (join : BlockId) : Terminator → Option (List ValueId)
  | .branch d a => if d = join then some a else none
  | .condBranch _ td ta fd fa =>
      if td = join ∧ fd = join then none
      else if td = join then some ta
      else if fd = join then some fa
      else none
  | _ => none

/-- An argument of the join's arm, where a parameter of the join is replaced by what is passed for it. -/
def forwardArg (join : BasicBlock) (args : List ValueId) (a : ValueId) : Option ValueId :=
  match join.params.findIdx? (·.id == a) with
  | some idx => args[idx]?
  | none => some a

/-- Where an edge into the join with these arguments can go directly. -/
def threadEdge (consts : AssocMap ValueId ConstKey) (join : BasicBlock) (s : JoinShape) (args : List ValueId) :
    Option (BlockId × List ValueId) :=
  match args[s.condIdx]?.bind (consts.get? ·) with
  | some (.bool chosenArm) =>
      let arm := s.arm chosenArm
      if s.cond ∈ arm.2 then none else (arm.2.mapM (forwardArg join args)).map fun newArgs => (arm.1, newArgs)
  | _ => none

def planEdge (consts : AssocMap ValueId ConstKey) (join : BasicBlock) (s : JoinShape) (pred : BasicBlock) :
    Option ThreadAction :=
  match pred.terminator.bind (edgeArgs join.id) with
  | some args => (threadEdge consts join s args).map fun new => ⟨pred.id, join.id, new.1, new.2⟩
  | none => none

/-- One rewrite for each pair of predecessor and join: the first. -/
def firstOfEach : List ThreadAction → List ThreadAction
  | [] => []
  | a :: as => a :: (firstOfEach as).filter fun b => !(b.pred == a.pred && b.join == a.join)

def planJoin (f : Function) (join : BasicBlock) : List ThreadAction :=
  match joinShape f join with
  | some s => f.blocks.filterMap (planEdge (constKeys f) join s)
  | none => []

def planThreads (f : Function) : List ThreadAction := firstOfEach (f.blocks.flatMap (planJoin f))

/-- Redirect the terminator from the join; of two arms the true one is looked at first. -/
def redirect (action : ThreadAction) : Terminator → Terminator
  | .branch d args => if d = action.join then .branch action.newDest action.newArgs else .branch d args
  | .condBranch c td ta fd fa =>
      if td = action.join then .condBranch c action.newDest action.newArgs fd fa
      else if fd = action.join then .condBranch c td ta action.newDest action.newArgs
      else .condBranch c td ta fd fa
  | t => t

def applyThread (f : Function) (action : ThreadAction) : Function :=
  f.modifyBlock action.pred fun b => { b with terminator := b.terminator.map (redirect action) }

def threadRound (f : Function) : Function := (planThreads f).foldl applyThread f

/-- The rounds of `thread_func`, until nothing is planned; `none` while there is still something to do. -/
def threadLoop : Nat → Function → Option (Function × Bool)
  | 0, _ => none
  | n + 1, f =>
      if (planThreads f).isEmpty then some (f, false)
      else (threadLoop n (threadRound f)).map fun r => (r.1, true)

/-- The function afterwards and whether it changed. -/
def threadFunc (fuel : Nat) (f : Function) : Option (Function × Bool) :=
  (threadLoop fuel f).map fun r => if r.2 then (r.1.pruneUnreachable, true) else r

end Armfortas.Opt.JumpThread
