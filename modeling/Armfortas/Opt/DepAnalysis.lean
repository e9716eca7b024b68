import Armfortas.Ir.Loops
import Armfortas.Ir.Semantics.Memory

/-! Subscripts as affine expressions in the induction variables, the memory references of a set of blocks, and the
test for loop interchange. Coefficients are 64-bit. Definitions are followed with one unit of fuel for each
instruction, which is enough where no definition depends on itself. -/
namespace Armfortas.Opt.DepAnalysis
open Ir

/-- `constant + sum (coefficient * iv)`. -/
structure AffineExpr where
  constant : Int
  terms : List (Int × ValueId)
  deriving DecidableEq, Repr

namespace AffineExpr

def fromConst (c : Int) : AffineExpr := ⟨c, []⟩

def fromIv (iv : ValueId) : AffineExpr := ⟨0, [(1, iv)]⟩

/-- Add one term: to the first entry of the variable, else at the end. -/
def addTerm (terms : List (Int × ValueId)) (t : Int × ValueId) : List (Int × ValueId) :=
  if terms.any (·.2 == t.2) then
    terms.modify (terms.findIdx (·.2 == t.2)) fun e => (IntWidth.i64.wrap (e.1 + t.1), e.2)
  else terms ++ [t]

def add (a b : AffineExpr) : AffineExpr :=
  ⟨IntWidth.i64.wrap (a.constant + b.constant), (b.terms.foldl addTerm a.terms).filter (·.1 != 0)⟩

def sub (a b : AffineExpr) : AffineExpr :=
  a.add ⟨IntWidth.i64.wrap (-b.constant), b.terms.map fun t => (IntWidth.i64.wrap (-t.1), t.2)⟩

def scale (a : AffineExpr) (factor : Int) : AffineExpr :=
  ⟨IntWidth.i64.wrap (a.constant * factor), a.terms.map fun t => (IntWidth.i64.wrap (t.1 * factor), t.2)⟩

end AffineExpr

def extractAffine (f : Function) (ivs : List ValueId) : Nat → ValueId → Option AffineExpr
  | 0, _ => none
  | fuel + 1, val =>
      if val ∈ ivs then some (.fromIv val)
      else match f.definingKind val with
        | some (.constInt c _) => (i64TryFrom c).map .fromConst
        | some (.iBin .add a b) => do
            let ea ← extractAffine f ivs fuel a
            let eb ← extractAffine f ivs fuel b
            some (ea.add eb)
        | some (.iBin .sub a b) => do
            let ea ← extractAffine f ivs fuel a
            let eb ← extractAffine f ivs fuel b
            some (ea.sub eb)
        | some (.iBin .mul a b) => match f.resolveConstInt a with
            | some ca => (extractAffine f ivs fuel b).map (·.scale ca)
            | none => match f.resolveConstInt b with
                | some cb => (extractAffine f ivs fuel a).map (·.scale cb)
                | none => none
        | some (.intExtend a _ _) => extractAffine f ivs fuel a
        | _ => none

structure MemRef where
  base : ValueId
  subscript : AffineExpr
  isWrite : Bool
  deriving DecidableEq, Repr

/-- The address must be an element pointer with an affine first index. -/
def extractMemRef (f : Function) (ptr : ValueId) (isWrite : Bool) (ivs : List ValueId) : Option MemRef :=
  match f.definingKind ptr with
  | some (.getElementPtr base (idx :: _)) =>
      (extractAffine f ivs (f.allInsts.length + 1) idx).map fun subscript => ⟨base, subscript, isWrite⟩
  | _ => none

/-- `collect_mem_refs`. Other accesses are left out. -/
def collectMemRefs (f : Function) (blocks : List BlockId) (ivs : List ValueId) : List MemRef :=
  blocks.flatMap fun b => (f.instsOf b).filterMap fun i => match i.kind with
    | .store _ ptr | .volatileStore _ ptr => extractMemRef f ptr true ivs
    | .load ptr | .volatileLoad ptr => extractMemRef f ptr false ivs
    | _ => none

/-- Euclid's algorithm; `Nat.gcd` recurses on its first argument where the source does on its second. -/
def gcd (a b : Nat) : Nat := Nat.gcd b a

/-- The GCD test on the difference of the two subscripts. -/
def testDependence (a b : MemRef) : Bool :=
  if a.base != b.base then false
  else
    let diff := b.subscript.sub a.subscript
    if diff.terms.isEmpty then diff.constant == 0
    else
      let g := (diff.terms.map (·.1.natAbs)).foldl gcd 0
      if g = 0 then diff.constant == 0 else diff.constant.natAbs % g == 0

/-- Two references to one base, not both reads, whose distance depends on both induction variables. -/
def crossesBoth (outerIv innerIv : ValueId) (a b : MemRef) : Bool :=
  let diff := b.subscript.sub a.subscript
  (a.isWrite || b.isWrite) && a.base == b.base &&
    diff.terms.any (fun t => t.2 == outerIv && t.1 != 0) && diff.terms.any (fun t => t.2 == innerIv && t.1 != 0)

def interchangeLegal (f : Function) (innerBody : List BlockId) (outerIv innerIv : ValueId) : Bool :=
  let refs := collectMemRefs f innerBody [outerIv, innerIv]
  refs.zipIdx.all fun (a, i) => refs.zipIdx.all fun (b, j) => !(decide (i < j) && crossesBoth outerIv innerIv a b)

end Armfortas.Opt.DepAnalysis
