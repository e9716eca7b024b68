import Armfortas.Ir.Module
import Mathlib.Algebra.Ring.Nat

/-! Parameters of internal-only functions that are used for nothing are dropped, with the matching arguments of all
internal calls. Which parameters are live is a fixpoint over the whole module: an argument of a call counts only if
the callee's parameter is live. -/
namespace Armfortas.Opt.DeadArg
open Ir

/-! ## Which functions may be trimmed -/

def addressedNames (M : Module) : List String :=
  M.functions.flatMap fun f => f.allInsts.filterMap fun i => match i.kind with
    | .globalAddr name => some name
    | _ => none

def markTaken (M : Module) (taken : List Bool) (name : String) : List Bool :=
  match M.byName name with
  | some idx => taken.set idx true
  | none => taken

def addressTakenFunctions (M : Module) : List Bool :=
  (addressedNames M).foldl (markTaken M) (List.replicate M.functions.length false)

def trimEligible (M : Module) : List Bool :=
  M.functions.zipIdx.map fun (f, idx) =>
    f.internalOnly && !((addressTakenFunctions M)[idx]?.getD false) && !f.params.isEmpty

/-! ## Which parameters are live -/

abbrev Masks := List (List Bool)

def Masks.bit (masks : Masks) (k pos : Nat) : Option Bool := masks[k]?.bind (·[pos]?)

/-- `inst_uses_param`. The source lists the operands kind by kind. -/
def instUsesParam (kind : InstKind) (param : ValueId) : Bool :=
  match kind with
  | .call (.internal _) _ => false
  | kind => kind.operands.contains param

def blockTerminatorUsesParam (term : Option Terminator) (param : ValueId) : Bool :=
  match term with
  | some (.return (some v)) => v == param
  | some (.branch _ args) => args.contains param
  | some (.condBranch cond _ trueArgs _ falseArgs) =>
      cond == param || trueArgs.contains param || falseArgs.contains param
  | some (.switch selector _ _) => selector == param
  | _ => false

section

variable (M : Module) (masks : Masks) (eligible : List Bool)

def calleeObserves (calleeIdx argIdx : Nat) : Bool :=
  match M.functions[calleeIdx]? with
  | none => true
  | some callee =>
      if !callee.internalOnly || !(eligible[calleeIdx]?.getD false) then true
      else (masks.bit calleeIdx argIdx).getD true

def instObserves (param : ValueId) (i : Inst) : Bool :=
  match i.kind with
  | .call (.internal calleeIdx) args => args.zipIdx.any fun (arg, argIdx) =>
      arg == param && calleeObserves M masks eligible calleeIdx argIdx
  | kind => instUsesParam kind param

def paramHasObservableUse (f : Function) (param : ValueId) : Bool :=
  f.blocks.any fun block =>
    block.insts.any (instObserves M masks eligible param) || blockTerminatorUsesParam block.terminator param

end

/-- A parameter of a function, both with their positions. -/
structure Site where
  func : Function
  idx : Nat
  param : Param
  pos : Nat

def sites (M : Module) (eligible : List Bool) : List Site :=
  M.functions.zipIdx.flatMap fun (f, idx) =>
    if eligible[idx]?.getD false then f.params.zipIdx.map fun (p, pos) => ⟨f, idx, p, pos⟩ else []

def visit (M : Module) (eligible : List Bool) (state : Masks × Bool) (s : Site) : Masks × Bool :=
  let live := paramHasObservableUse M state.1 eligible s.func s.param.id
  if state.1.bit s.idx s.pos = some live then state
  else (state.1.modify s.idx (·.set s.pos live), true)

/-- One round: the masks after it, and whether they changed. -/
def sweep (M : Module) (eligible : List Bool) (masks : Masks) : Masks × Bool :=
  (sites M eligible).foldl (visit M eligible) (masks, false)

/-- `while changed`, for at most the given number of rounds. -/
def liveLoop (M : Module) (eligible : List Bool) : Nat → Masks → Option Masks
  | 0, _ => none
  | n + 1, masks =>
      let (masks, changed) := sweep M eligible masks
      if changed then liveLoop M eligible n masks else some masks

def initialMasks (M : Module) : Masks := M.functions.map fun f => List.replicate f.params.length false

/-- One more round than there are parameters. -/
def rounds (M : Module) : Nat := (M.functions.map (·.params.length)).sum + 1

def liveMasks (M : Module) : Option Masks := liveLoop M (trimEligible M) (rounds M) (initialMasks M)

/-! ## Trimming -/

def keepSlots {α : Type} (keep : List Bool) (l : List α) : List α :=
  (l.zip keep).filterMap fun (a, slot) => if slot then some a else none

def isTrimmed (masks : Masks) (eligible : List Bool) (idx : Nat) : Bool :=
  eligible[idx]?.getD false && !((masks[idx]?.getD []).all id)

def trimParams (masks : Masks) (eligible : List Bool) (idx : Nat) (params : List Param) : List Param :=
  if isTrimmed masks eligible idx then keepSlots (masks[idx]?.getD []) params else params

def trimKind (M : Module) (masks : Masks) (eligible : List Bool) (kind : InstKind) : InstKind :=
  match kind with
  | .call (.internal calleeIdx) args =>
      if !((M.functions[calleeIdx]?.map (·.internalOnly)).getD false) || !(eligible[calleeIdx]?.getD false) then kind
      else match masks[calleeIdx]? with
        | none => kind
        | some keep => .call (.internal calleeIdx) (keepSlots keep args)
  | kind => kind

def trimInst (M : Module) (masks : Masks) (eligible : List Bool) (i : Inst) : Inst :=
  { i with kind := trimKind M masks eligible i.kind }

def trimBlock (M : Module) (masks : Masks) (eligible : List Bool) (b : BasicBlock) : BasicBlock :=
  { b with insts := b.insts.map (trimInst M masks eligible) }

def trimFunction (M : Module) (masks : Masks) (eligible : List Bool) (idx : Nat) (f : Function) : Function :=
  { f with
    params := trimParams masks eligible idx f.params
    blocks := f.blocks.map (trimBlock M masks eligible) }

def trimModule (M : Module) (masks : Masks) : Module :=
  { M with functions := M.functions.zipIdx.map fun (f, idx) => trimFunction M masks (trimEligible M) idx f }

/-- The module after the pass, and whether anything was dropped. -/
def run (M : Module) : Option (Module × Bool) :=
  (liveMasks M).map fun masks =>
    if (List.range M.functions.length).any (isTrimmed masks (trimEligible M)) then (trimModule M masks, true)
    else (M, false)

end Armfortas.Opt.DeadArg
