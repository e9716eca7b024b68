import Armfortas.Ir.Walk
import Mathlib.Data.List.Sort

/-! The lattice, the worklist solver and the rewrite that materialises its result. Loops of the source run on fuel;
the solver's fuel is a bound on the number of worklist entries there can ever be. -/
namespace Armfortas.Opt.Sccp
open Ir Lib AssocMap

/-! ## Lattice -/

inductive ConstVal
  | int (v : Int) (w : IntWidth)
  | float (bits : BitVec 64) (w : FloatWidth)
  | bool (b : Bool)
  deriving DecidableEq, Repr

inductive Lattice
  | top
  | const (c : ConstVal)
  | bottom
  deriving DecidableEq, Repr

def sext (v : Int) (bits : Nat) : Int := if 128 ≤ bits then v else v.bmod (2 ^ bits)

def ConstVal.fromInst : InstKind → Option ConstVal
  | .constInt v w => some (.int (sext v w.bits) w)
  | .constFloat b w => some (.float b w)
  | .constBool b => some (.bool b)
  | _ => none

def ConstVal.toInstKind : ConstVal → InstKind
  | .int v w => .constInt v w
  | .float b w => .constFloat b w
  | .bool b => .constBool b

def ConstVal.irType : ConstVal → IrType
  | .int _ w => .int w
  | .float _ w => .float w
  | .bool _ => .bool

def meet : Lattice → Lattice → Lattice
  | .top, x | x, .top => x
  | .bottom, _ | _, .bottom => .bottom
  | .const x, .const y => if x = y then .const x else .bottom

/-! ## Edges -/

inductive EdgeArm
  | branch
  | condTrue
  | condFalse
  | switchDefault
  | switchCase (index : Nat)
  deriving DecidableEq, Repr

/-- An edge is the block it leaves and the arm of its terminator, so parallel edges stay distinct. -/
structure EdgeId where
  source : BlockId
  arm : EdgeArm
  deriving DecidableEq, Repr

structure EdgeData where
  dest : BlockId
  args : List ValueId
  deriving DecidableEq, Repr

def armsOf : Terminator → List (EdgeArm × EdgeData)
  | .branch succ args => [(.branch, ⟨succ, args⟩)]
  | .condBranch _ t targs f fargs => [(.condTrue, ⟨t, targs⟩), (.condFalse, ⟨f, fargs⟩)]
  | .switch _ cases default =>
      (.switchDefault, ⟨default, []⟩) ::
        cases.zipIdx.map fun ((_, target), caseIndex) => (.switchCase caseIndex, ⟨target, []⟩)
  | .return _ | .unreachable => []

def edgesFrom (b : BasicBlock) : List (EdgeId × EdgeData) :=
  match b.terminator with
  | some t => (armsOf t).map fun x => (⟨b.id, x.1⟩, x.2)
  | none => []

def paramSites (b : BasicBlock) : List (ValueId × (BlockId × Nat)) :=
  b.params.zipIdx.map fun x => (x.1.id, (b.id, x.2))

section Tables

variable (f : Function)

def edges : List (EdgeId × EdgeData) := f.blocks.flatMap edgesFrom

def edgeData (e : EdgeId) : Option EdgeData := get? (edges f).reverse e

def incomingEdges (b : BlockId) : List EdgeId := ((edges f).filter (·.2.dest == b)).map (·.1)

/-- The block and index of a block parameter. -/
def paramInputs (v : ValueId) : Option (BlockId × Nat) := get? (f.blocks.flatMap paramSites).reverse v

/-- What has to be looked at again when a value's lattice element changes. -/
inductive ValueUser
  | terminator (b : BlockId)
  | blockParam (p : ValueId)
  deriving DecidableEq, Repr

def valueUsers (v : ValueId) : List ValueUser :=
  f.blocks.flatMap fun b =>
    (b.params.zipIdx.flatMap fun (p, pi) =>
      (incomingEdges f b.id).filterMap fun e =>
        match edgeData f e with
        | some data => if data.args[pi]? = some v then some (.blockParam p.id) else none
        | none => none) ++
    (match b.terminator with
      | some (.condBranch cond _ _ _ _) => if cond = v then [.terminator b.id] else []
      | some (.switch selector _ _) => if selector = v then [.terminator b.id] else []
      | _ => [])

end Tables

/-! ## The solver -/

structure Solver where
  lattice : AssocMap ValueId Lattice
  reachableBlocks : List BlockId
  reachableEdges : List EdgeId
  cfgWorklist : List EdgeId
  ssaWorklist : List ValueId

/-- An absent value is `top`. -/
def Solver.lat (s : Solver) (v : ValueId) : Lattice := s.lattice.getD v .top

variable (f : Function)

/-- The arms `process_terminator` marks, in order. -/
def liveArms (s : Solver) (b : BlockId) : List EdgeArm :=
  match (f.tryBlock b).bind (·.terminator) with
  | some (.branch _ _) => [.branch]
  | some (.condBranch cond _ _ _ _) =>
      match s.lat cond with
      | .const (.bool true) => [.condTrue]
      | .const (.bool false) => [.condFalse]
      | .bottom | .const _ => [.condTrue, .condFalse]
      | .top => []
  | some (.switch selector cases _) =>
      match s.lat selector with
      | .const (.int sv w) =>
          match cases.findIdx? fun (k, _) => sext k w.bits == sv with
          | some i => [.switchCase i]
          | none => [.switchDefault]
      | .bottom | .const _ => (List.range cases.length).map .switchCase ++ [.switchDefault]
      | .top => []
  | some (.return _) | some .unreachable | none => []

/-- `process_terminator`, given how an edge is marked. -/
def processTerminator (mark : Solver → EdgeId → Solver) (s : Solver) (b : BlockId) : Solver :=
  (liveArms f s b).foldl (fun s arm => mark s ⟨b, arm⟩) s

def markBlockReachable (mark : Solver → EdgeId → Solver) (s : Solver) (b : BlockId) : Solver :=
  if b ∈ s.reachableBlocks then s
  else processTerminator f mark { s with reachableBlocks := b :: s.reachableBlocks } b

/-- `mark_edge`. The recursion goes through the terminator of the target and marks a new edge each time, so
the number of edges is fuel enough. -/
def markEdge : Nat → Solver → EdgeId → Solver
  | 0, s, _ => s
  | fuel + 1, s, e =>
      match edgeData f e with
      | none => s
      | some data =>
          if e ∈ s.reachableEdges then s
          else markBlockReachable f (markEdge fuel)
            { s with reachableEdges := e :: s.reachableEdges, cfgWorklist := s.cfgWorklist ++ [e] } data.dest

def mark (s : Solver) (e : EdgeId) : Solver := markEdge f ((edges f).length + 1) s e

/-- The meet of a parameter's inputs over the reachable edges; an input that is the parameter itself does
not count. -/
def meetInputs (s : Solver) (param : ValueId) (pi : Nat) : List EdgeId → Lattice → Lattice
  | [], acc => acc
  | e :: es, acc =>
      if e ∈ s.reachableEdges then
        match (edgeData f e).bind (·.args[pi]?) with
        | some arg =>
            if arg = param then meetInputs s param pi es acc
            else if meet acc (s.lat arg) = .bottom then .bottom
            else meetInputs s param pi es (meet acc (s.lat arg))
        | none => meetInputs s param pi es acc
      else meetInputs s param pi es acc

def recomputeParam (s : Solver) (param : ValueId) : Solver :=
  match paramInputs f param with
  | none => s
  | some (block, pi) =>
      let new := meetInputs f s param pi (incomingEdges f block) .top
      let merged := meet (s.lat param) new
      if merged = s.lat param then s
      else { s with lattice := insert s.lattice param merged, ssaWorklist := s.ssaWorklist ++ [param] }

def drainCfg : Nat → Solver → Solver
  | 0, s => s
  | fuel + 1, s =>
      match s.cfgWorklist with
      | [] => s
      | e :: rest =>
          let s := { s with cfgWorklist := rest }
          match edgeData f e with
          | none => drainCfg fuel s
          | some data =>
              let params := ((f.tryBlock data.dest).map fun b => b.params.map (·.id)).getD []
              drainCfg fuel (params.foldl (recomputeParam f) s)

def visitUser (s : Solver) : ValueUser → Solver
  | .terminator b => if b ∈ s.reachableBlocks then processTerminator f (mark f) s b else s
  | .blockParam p => recomputeParam f s p

def drainSsa : Nat → Solver → Solver
  | 0, s => s
  | fuel + 1, s =>
      match s.ssaWorklist with
      | [] => s
      | v :: rest => drainSsa fuel ((valueUsers f v).foldl (visitUser f) { s with ssaWorklist := rest })

/-- The outer loop: edges first, then values, until both lists are empty. -/
def solveLoop (budget : Nat) : Nat → Solver → Solver
  | 0, s => s
  | fuel + 1, s =>
      if s.cfgWorklist.isEmpty && s.ssaWorklist.isEmpty then s
      else solveLoop budget fuel (drainSsa f budget (drainCfg f budget s))

/-- Constants are known, other instructions and the function's parameters are not. -/
def seedLattice : AssocMap ValueId Lattice :=
  let insts := f.allInsts.foldl (fun m i => insert m i.id
    (match ConstVal.fromInst i.kind with
      | some c => Lattice.const c
      | none => .bottom)) []
  f.params.foldl (fun m p => insert m p.id .bottom) insts

def allBlockParams : List ValueId := f.blocks.flatMap fun b => b.params.map (·.id)

/-- Every edge enters its worklist once, every parameter at most twice. -/
def budget : Nat := (edges f).length + 2 * (allBlockParams f).length

def run : Solver :=
  let s : Solver :=
    { lattice := seedLattice f, reachableBlocks := [], reachableEdges := [], cfgWorklist := [], ssaWorklist := [] }
  solveLoop f (budget f) (budget f) (markBlockReachable f (mark f) s f.entry)

/-! ## Materialising the result -/

structure Rewrite where
  block : BlockId
  index : Nat
  param : ValueId
  cval : ConstVal
  ty : IrType
  deriving DecidableEq, Repr

def tyCompatible : IrType → IrType → Bool
  | .bool, .bool => true
  | .int a, .int b => a == b
  | .float a, .float b => a == b
  | _, _ => false

/-- The rewrite of the parameter at an index of block `b`, if it resolved to a constant of its type. -/
def constParam (lattice : AssocMap ValueId Lattice) (b : BlockId) (p : BlockParam) (pi : Nat) : Option Rewrite :=
  match lattice.get? p.id with
  | some (.const c) => if tyCompatible p.ty c.irType then some ⟨b, pi, p.id, c, p.ty⟩ else none
  | _ => none

def constParams (lattice : AssocMap ValueId Lattice) : List Rewrite :=
  f.blocks.flatMap fun b => b.params.zipIdx.filterMap fun x => constParam lattice b.id x.1 x.2

/-- Rewrites by descending parameter index. -/
def constParamRewrites (lattice : AssocMap ValueId Lattice) : List Rewrite :=
  (constParams f lattice).insertionSort fun x y => y.index ≤ x.index

def numbered (next : ValueId) : List Rewrite → List (Rewrite × ValueId)
  | [] => []
  | r :: rs => (r, next) :: numbered (next + 1) rs

/-- One rewrite of a block: the constant goes to the front, the parameter is dropped. -/
def materialize (b : BasicBlock) (r : Rewrite × ValueId) : BasicBlock :=
  if r.1.block = b.id then
    { b with
      insts := { id := r.2, kind := r.1.cval.toInstKind, ty := r.1.ty } :: b.insts
      params := b.params.eraseIdx r.1.index }
  else b

def renameUse (rewrites : List (Rewrite × ValueId)) (v : ValueId) : ValueId :=
  match get? (rewrites.map fun r => (r.1.param, r.2)).reverse v with
  | some new => new
  | none => v

def removedParamIndices (rewrites : List (Rewrite × ValueId)) (b : BlockId) : List Nat :=
  ((rewrites.filter (·.1.block == b)).map (·.1.index)).insertionSort (· ≥ ·)

def removeRewrittenArgs (rewrites : List (Rewrite × ValueId)) (dest : BlockId) (args : List ValueId) :
    List ValueId :=
  (removedParamIndices rewrites dest).foldl List.eraseIdx args

def dropArgs (rewrites : List (Rewrite × ValueId)) : Terminator → Terminator
  | .branch dest args => .branch dest (removeRewrittenArgs rewrites dest args)
  | .condBranch c t targs e eargs =>
      .condBranch c t (removeRewrittenArgs rewrites t targs) e (removeRewrittenArgs rewrites e eargs)
  | t => t

/-- Step 1: constants in place of the block parameters. Each block applies the rewrites that are its own, in
the order of the list. -/
def rewriteParams (rewrites : List (Rewrite × ValueId)) : Function :=
  { f with
    nextValue := f.nextValue + rewrites.length
    blocks := f.blocks.map fun b =>
      let b := (rewrites.foldl materialize b).mapOperands (renameUse rewrites)
      { b with terminator := b.terminator.map (dropArgs rewrites) } }

def constMap : AssocMap ValueId ConstVal :=
  (f.allInsts.filterMap fun i => (ConstVal.fromInst i.kind).map fun c => (i.id, c)).reverse

/-- Step 2: a terminator whose condition is a constant becomes a branch. -/
def foldTerminator (consts : AssocMap ValueId ConstVal) : Terminator → Terminator
  | .condBranch cond t targs e eargs =>
      match consts.get? cond with
      | some (.bool true) => .branch t targs
      | some (.bool false) => .branch e eargs
      | _ => .condBranch cond t targs e eargs
  | .switch selector cases default =>
      match consts.get? selector with
      | some (.int sv w) =>
          match cases.find? fun (k, _) => sext k w.bits == sv with
          | some (_, blk) => .branch blk []
          | none => .branch default []
      | _ => .switch selector cases default
  | t => t

def foldTerminators : Function :=
  let consts := constMap f
  { f with blocks := f.blocks.map fun b => { b with terminator := b.terminator.map (foldTerminator consts) } }

/-- The rewritten function and whether anything changed. -/
def apply (lattice : AssocMap ValueId Lattice) : Function × Bool :=
  let rewrites := numbered f.nextValue (constParamRewrites f lattice)
  let rewritten := if rewrites.isEmpty then f else rewriteParams f rewrites
  let folded := foldTerminators rewritten
  let pruned := folded.pruneUnreachable
  (pruned, !rewrites.isEmpty || decide (folded ≠ rewritten) || decide (pruned.blocks.length ≠ folded.blocks.length))

end Armfortas.Opt.Sccp
