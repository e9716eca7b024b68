import Armfortas.Opt.DepAnalysis

/-! The pass takes the first nest of two counted loops that looks worth it and exchanges the initial values their
headers are entered with and the bounds they are compared with. -/
namespace Armfortas.Opt.Interchange
open Ir

/-- `LoopShape`. The induction variable is the header's only parameter. -/
structure LoopShape where
  header : BlockId
  cmpBlock : BlockId
  iv : ValueId
  bound : ValueId
  latch : BlockId
  deriving DecidableEq, Repr

/-- What the induction variable is compared with in the last comparison that mentions it. -/
def foundBound (insts : List Inst) (iv : ValueId) : Option ValueId :=
  insts.foldl (fun found i => match i.kind with
    | .iCmp _ a b => if a = iv then some b else if b = iv then some a else found
    | _ => found) none

def detectLoopShape (f : Function) (node : LoopTreeNode) : Option LoopShape :=
  match f.tryBlock node.header with
  | some ⟨_, _, [iv], [], some (.branch cmpBlock [])⟩ =>
      if cmpBlock ∈ node.body then
        match foundBound (f.instsOf cmpBlock) iv.id, node.latches with
        | some bound, [latch] => some ⟨node.header, cmpBlock, iv.id, bound, latch⟩
        | _, _ => none
      else none
  | _ => none

/-! ## Profitability -/

def traceInvolvesMul (f : Function) : Nat → ValueId → Bool
  | 0, _ => false
  | fuel + 1, val => match f.definingKind val with
      | some (.iBin .mul _ _) => true
      | some (.iBin .add a b) | some (.iBin .sub a b) => traceInvolvesMul f fuel a || traceInvolvesMul f fuel b
      | some (.intExtend a _ _) => traceInvolvesMul f fuel a
      | _ => false

def tracesToIv (f : Function) (iv : ValueId) : Nat → ValueId → Bool
  | 0, _ => false
  | fuel + 1, val => val == iv || match f.definingKind val with
      | some (.iBin .sub a _) => tracesToIv f iv fuel a
      | some (.intExtend a _ _) => tracesToIv f iv fuel a
      | _ => false

def usesIvInFastPosition (f : Function) (offset outerIv : ValueId) : Bool :=
  let fuel := f.allInsts.length + 1
  match f.definingKind offset with
  | some (.iBin .add a b) =>
      match traceInvolvesMul f fuel a, traceInvolvesMul f fuel b with
      | false, true => tracesToIv f outerIv fuel a
      | true, false => tracesToIv f outerIv fuel b
      | _, _ => false
  | _ => false

def shouldInterchange (f : Function) (inner : LoopTreeNode) (outerIv : ValueId) : Bool :=
  inner.body.any fun b => (f.instsOf b).any fun i => match i.kind with
    | .getElementPtr _ (offset :: _) => usesIvInFastPosition f offset outerIv
    | _ => false

/-! ## The rewrite -/

/-- `get_branch_arg_to`, of the first argument. -/
def getBranchArgTo (dst : BlockId) : Terminator → Option ValueId
  | .branch dest args => if dest = dst then args[0]? else none
  | .condBranch _ td targs fd fargs => if td = dst then targs[0]? else if fd = dst then fargs[0]? else none
  | _ => none

/-- `set_branch_arg_to`, of the first argument. -/
def setBranchArgTo (dst : BlockId) (val : ValueId) : Terminator → Terminator
  | .branch dest args => .branch dest (if dest = dst then args.set 0 val else args)
  | .condBranch c td targs fd fargs =>
      if td = dst ∧ 0 < targs.length then .condBranch c td (targs.set 0 val) fd fargs
      else if fd = dst ∧ 0 < fargs.length then .condBranch c td targs fd (fargs.set 0 val)
      else .condBranch c td targs fd fargs
  | t => t

/-- The comparison of the induction variable with the old bound, rewritten to the new one. -/
def swapOperand (iv oldBound newBound : ValueId) (i : Inst) : Option Inst :=
  match i.kind with
  | .iCmp op a b =>
      if a = iv ∧ b = oldBound then some { i with kind := .iCmp op a newBound }
      else if b = iv ∧ a = oldBound then some { i with kind := .iCmp op newBound b }
      else none
  | _ => none

def swapFirst (iv oldBound newBound : ValueId) : List Inst → List Inst
  | [] => []
  | i :: is => match swapOperand iv oldBound newBound i with
      | some i' => i' :: is
      | none => i :: swapFirst iv oldBound newBound is

def swapBound (f : Function) (cmpBlock : BlockId) (iv oldBound newBound : ValueId) : Function :=
  f.modifyBlock cmpBlock fun b => { b with insts := swapFirst iv oldBound newBound b.insts }

def setArg (f : Function) (b dst : BlockId) (val : ValueId) : Function :=
  f.modifyBlock b fun blk => { blk with terminator := blk.terminator.map (setBranchArgTo dst val) }

def outerPreheader (f : Function) (outer : LoopShape) : Option BlockId :=
  (f.blocks.find? fun b => match b.terminator with
    | some (.branch dest _) => dest == outer.header && b.id != outer.latch
    | _ => false).map (·.id)

def innerEntry (f : Function) (inner : LoopShape) : Option BlockId :=
  (f.blocks.find? fun b => match b.terminator with
    | some (.branch dest args) => dest == inner.header && !args.isEmpty && b.id != inner.latch
    | some (.condBranch _ td targs _ _) => td == inner.header && !targs.isEmpty
    | _ => false).map (·.id)

structure Entries where
  outerPh : BlockId
  innerEntry : BlockId
  outerInit : ValueId
  innerInit : ValueId
  deriving DecidableEq, Repr

def entries (f : Function) (outer inner : LoopShape) : Option Entries := do
  let outerPh ← outerPreheader f outer
  let innerEntry ← innerEntry f inner
  let outerInit ← (f.terminatorOf outerPh).bind (getBranchArgTo outer.header)
  let innerInit ← (f.terminatorOf innerEntry).bind (getBranchArgTo inner.header)
  some ⟨outerPh, innerEntry, outerInit, innerInit⟩

def doInterchange (f : Function) (outer inner : LoopShape) : Function :=
  match entries f outer inner with
  | none => f
  | some e =>
      let f := setArg f e.outerPh outer.header e.innerInit
      let f := setArg f e.innerEntry inner.header e.outerInit
      let f := swapBound f outer.cmpBlock outer.iv outer.bound inner.bound
      swapBound f inner.cmpBlock inner.iv inner.bound outer.bound

def acceptedNest (f : Function) (nest : LoopTreeNode × LoopTreeNode) : Option (LoopShape × LoopShape) :=
  let (outer, inner) := nest
  if f.blocksContainVolatileMemory outer.body then none
  else match detectLoopShape f outer, detectLoopShape f inner with
    | some so, some si =>
        if shouldInterchange f inner so.iv && DepAnalysis.interchangeLegal f inner.body so.iv si.iv then some (so, si)
        else none
    | _, _ => none

def chosenNest (f : Function) : Option (LoopShape × LoopShape) :=
  f.perfectlyNestedPairs.findSome? (acceptedNest f)

/-- The rewritten function, if a nest was accepted. -/
def interchangeInFunction (f : Function) : Option Function :=
  (chosenNest f).map fun (outer, inner) => doInterchange f outer inner

end Armfortas.Opt.Interchange
