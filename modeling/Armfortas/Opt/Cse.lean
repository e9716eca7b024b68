import Armfortas.Opt.Fpenv

/-! Within a block, an instruction whose key occurred before is dropped and its uses refer to the first occurrence.
The keys are taken from the function as it was; all uses are then renamed in one pass. -/
namespace Armfortas.Opt.Cse
open Lib Ir Fpenv

/-! ## Keys -/

structure Key where
  tag : Nat
  operands : List ValueId
  aux : Int
  name : Option String
  ty : IrType
  deriving DecidableEq

/-- The smaller value first. -/
def canon (a b : ValueId) : List ValueId := if a ≤ b then [a, b] else [b, a]

/-- `(*v << shift) >> shift` on `i128`, for widths below 128. -/
def signExtend (v : Int) (w : IntWidth) : Int := if 128 ≤ w.bits then v else v.bmod (2 ^ w.bits)

def cmpIndex : CmpOp → Int
  | .eq => 0
  | .ne => 1
  | .lt => 2
  | .le => 3
  | .gt => 4
  | .ge => 5

def cmpOperands (op : CmpOp) (a b : ValueId) : List ValueId :=
  match op with
  | .eq | .ne => canon a b
  | _ => [a, b]

def keyOf (i : Inst) : Option Key :=
  let mk (tag : Nat) (ops : List ValueId) (aux : Int) : Option Key := some ⟨tag, ops, aux, none, i.ty⟩
  match i.kind with
  | .globalAddr name => some ⟨90, [], 0, some name, i.ty⟩
  | .constInt v w => mk 1 [] (signExtend v w)
  | .constFloat bits _ => mk 2 [] bits.toNat
  | .constBool b => mk 3 [] (if b then 1 else 0)
  | .iBin .add a b => mk 10 (canon a b) 0
  | .iBin .sub a b => mk 11 [a, b] 0
  | .iBin .mul a b => mk 12 (canon a b) 0
  | .iBin .div a b => mk 13 [a, b] 0
  | .iBin .mod a b => mk 14 [a, b] 0
  | .iNeg a => mk 15 [a] 0
  | .fBin .add a b => mk 20 (canon a b) 0
  | .fBin .sub a b => mk 21 [a, b] 0
  | .fBin .mul a b => mk 22 (canon a b) 0
  | .fBin .div a b => mk 23 [a, b] 0
  | .fUn .neg a => mk 24 [a] 0
  | .fUn .abs a => mk 25 [a] 0
  | .fUn .sqrt a => mk 26 [a] 0
  | .fBin .pow a b => mk 27 [a, b] 0
  | .iCmp op a b => mk 30 (cmpOperands op a b) (cmpIndex op)
  | .fCmp op a b => mk 31 (cmpOperands op a b) (cmpIndex op)
  | .logic .and a b => mk 40 (canon a b) 0
  | .logic .or a b => mk 41 (canon a b) 0
  | .not a => mk 42 [a] 0
  | .select c t f => mk 43 [c, t, f] 0
  | .bitBin .and a b => mk 50 (canon a b) 0
  | .bitBin .or a b => mk 51 (canon a b) 0
  | .bitBin .xor a b => mk 52 (canon a b) 0
  | .bitUn .not a => mk 53 [a] 0
  | .bitBin .shl a b => mk 54 [a, b] 0
  | .bitBin .lshr a b => mk 55 [a, b] 0
  | .bitBin .ashr a b => mk 56 [a, b] 0
  | .bitUn .countLeadingZeros a => mk 57 [a] 0
  | .bitUn .countTrailingZeros a => mk 58 [a] 0
  | .bitUn .popCount a => mk 59 [a] 0
  | .intToFloat v w => mk 60 [v] w.bits
  | .floatToInt v w => mk 61 [v] w.bits
  | .floatExtend v w => mk 62 [v] w.bits
  | .floatTrunc v w => mk 63 [v] w.bits
  | .intExtend v w signed => mk 64 [v] (w.bits ||| signed.toNat <<< 32 : Nat)
  | .intTrunc v w => mk 65 [v] w.bits
  | .ptrToInt v => mk 66 [v] 0
  | .intToPtr v _ => mk 67 [v] 0
  | .getElementPtr base idxs => mk 70 (base :: idxs) 0
  | .extractField agg field => mk 80 [agg] field
  | .insertField agg field v => mk 81 [agg, v] field
  | _ => none

/-! ## The pass -/

abbrev RewriteMap := AssocMap ValueId ValueId

/-- One instruction of the scan: the keys seen in the block so far, and the rewrites of the function. -/
def scanInst (fpenvBarrier : Bool) (s : AssocMap Key ValueId × RewriteMap) (i : Inst) :
    AssocMap Key ValueId × RewriteMap :=
  if fpenvBarrier && isFpenvSensitive i.kind then s
  else match keyOf i with
    | none => s
    | some k => match s.1.get? k with
        | some first => (s.1, s.2.insert i.id first)
        | none => (s.1.insert k i.id, s.2)

def scanBlock (fpenvBarrier : Bool) (rewrites : RewriteMap) (b : BasicBlock) : RewriteMap :=
  (b.insts.foldl (scanInst fpenvBarrier) ([], rewrites)).2

def rewriteMap (fpenvBarrier : Bool) (f : Function) : RewriteMap := f.blocks.foldl (scanBlock fpenvBarrier) []

def substituteUsesBatch (f : Function) (rewrites : RewriteMap) : Function :=
  f.mapOperands fun v => rewrites.getD v v

def dropRewritten (rewrites : RewriteMap) (b : BasicBlock) : BasicBlock :=
  { b with insts := b.insts.filter fun i => (rewrites.get? i.id).isNone }

def cseFunction (fpenvBarrier : Bool) (f : Function) : Function :=
  let rewrites := rewriteMap fpenvBarrier f
  if rewrites.isEmpty then f
  else
    let f := substituteUsesBatch f rewrites
    { f with blocks := f.blocks.map (dropRewritten rewrites) }

/-- The module after the pass, and whether anything was dropped. -/
def run (M : Module) : Module × Bool :=
  let barrier := mayCrossFpenvBarrier M
  ({ M with functions := M.functions.zipIdx.map fun (f, idx) => cseFunction (decide (idx ∈ barrier)) f },
    M.functions.zipIdx.any fun (f, idx) => !(rewriteMap (decide (idx ∈ barrier)) f).isEmpty)

end Armfortas.Opt.Cse
