import Armfortas.Ir.Inst
import Armfortas.Lib.Dominance
import Armfortas.Lib.Search
import Mathlib.Data.List.Nodup

/-! Operand enumeration, terminator queries, control-flow edges and the pruning of unreachable blocks. -/
namespace Armfortas.Ir
open Lib List

variable {f : Function} {b : BlockId} {blk : BasicBlock}

/-! ## Operands of instructions -/

/-- `for_each_operand`: the values an instruction reads, in visiting order. -/
def InstKind.operands : InstKind → List ValueId
  | .constInt _ _ | .constFloat _ _ | .constBool _ | .constString _ | .undef _ | .alloca _
  | .globalAddr _ => []
  | .iBin _ a b => [a, b]
  | .iNeg a => [a]
  | .fBin _ a b => [a, b]
  | .fUn _ a => [a]
  | .iCmp _ a b | .fCmp _ a b => [a, b]
  | .logic _ a b => [a, b]
  | .not a => [a]
  | .select c t f => [c, t, f]
  | .bitBin _ a b => [a, b]
  | .bitUn _ a => [a]
  | .intToFloat v _ | .floatToInt v _ | .floatExtend v _ | .floatTrunc v _ | .intExtend v _ _
  | .intTrunc v _ | .ptrToInt v | .intToPtr v _ => [v]
  | .load a | .volatileLoad a => [a]
  | .store v a | .volatileStore v a => [v, a]
  | .getElementPtr base idxs => base :: idxs
  | .call (.indirect target) args => target :: args
  | .call (.internal _) args | .call (.external _) args | .runtimeCall _ args => args
  | .extractField agg _ => [agg]
  | .insertField agg _ v => [agg, v]
  | .vBin _ a b => [a, b]
  | .vUn _ a | .vLoad a | .vBitcast a _ | .vExtract a _ | .vBroadcast a | .vReduce _ a => [a]
  | .vFma a b c => [a, b, c]
  | .vSelect m t f => [m, t, f]
  | .vICmp _ a b | .vFCmp _ a b => [a, b]
  | .vStore v p => [v, p]
  | .vInsert v _ s => [v, s]

/-- `for_each_operand_mut`: rewrite every operand. -/
def InstKind.mapOperands (r : ValueId → ValueId) : InstKind → InstKind
  | .constInt v w => .constInt v w
  | .constFloat b w => .constFloat b w
  | .constBool b => .constBool b
  | .constString s => .constString s
  | .undef ty => .undef ty
  | .alloca ty => .alloca ty
  | .globalAddr n => .globalAddr n
  | .iBin op a b => .iBin op (r a) (r b)
  | .iNeg a => .iNeg (r a)
  | .fBin op a b => .fBin op (r a) (r b)
  | .fUn op a => .fUn op (r a)
  | .iCmp op a b => .iCmp op (r a) (r b)
  | .fCmp op a b => .fCmp op (r a) (r b)
  | .logic op a b => .logic op (r a) (r b)
  | .not a => .not (r a)
  | .select c t f => .select (r c) (r t) (r f)
  | .bitBin op a b => .bitBin op (r a) (r b)
  | .bitUn op a => .bitUn op (r a)
  | .intToFloat v w => .intToFloat (r v) w
  | .floatToInt v w => .floatToInt (r v) w
  | .floatExtend v w => .floatExtend (r v) w
  | .floatTrunc v w => .floatTrunc (r v) w
  | .intExtend v w s => .intExtend (r v) w s
  | .intTrunc v w => .intTrunc (r v) w
  | .ptrToInt v => .ptrToInt (r v)
  | .intToPtr v ty => .intToPtr (r v) ty
  | .load a => .load (r a)
  | .volatileLoad a => .volatileLoad (r a)
  | .store v a => .store (r v) (r a)
  | .volatileStore v a => .volatileStore (r v) (r a)
  | .getElementPtr base idxs => .getElementPtr (r base) (idxs.map r)
  | .call (.indirect target) args => .call (.indirect (r target)) (args.map r)
  | .call callee args => .call callee (args.map r)
  | .runtimeCall f args => .runtimeCall f (args.map r)
  | .extractField agg i => .extractField (r agg) i
  | .insertField agg i v => .insertField (r agg) i (r v)
  | .vBin op a b => .vBin op (r a) (r b)
  | .vUn op a => .vUn op (r a)
  | .vFma a b c => .vFma (r a) (r b) (r c)
  | .vSelect m t f => .vSelect (r m) (r t) (r f)
  | .vICmp op a b => .vICmp op (r a) (r b)
  | .vFCmp op a b => .vFCmp op (r a) (r b)
  | .vLoad a => .vLoad (r a)
  | .vStore v p => .vStore (r v) (r p)
  | .vBitcast v ty => .vBitcast (r v) ty
  | .vExtract v i => .vExtract (r v) i
  | .vInsert v i s => .vInsert (r v) i (r s)
  | .vBroadcast s => .vBroadcast (r s)
  | .vReduce op v => .vReduce op (r v)

@[simp] theorem InstKind.operands_mapOperands (r : ValueId → ValueId) (k : InstKind) :
    (k.mapOperands r).operands = k.operands.map r := by
  cases k with
  | call callee args => cases callee <;> rfl
  | _ => rfl

@[simp] theorem InstKind.mapOperands_id (k : InstKind) : k.mapOperands (fun v => v) = k := by
  cases k with
  | call callee args => cases callee <;> simp [mapOperands]
  | _ => simp [mapOperands]

/-! ## Terminators -/

def Terminator.uses : Terminator → List ValueId
  | .return none | .unreachable => []
  | .return (some v) => [v]
  | .branch _ args => args
  | .condBranch c _ targs _ fargs => c :: (targs ++ fargs)
  | .switch s _ _ => [s]

def Terminator.targets : Terminator → List BlockId
  | .return _ | .unreachable => []
  | .branch d _ => [d]
  | .condBranch _ t _ f _ => [t, f]
  | .switch _ cases d => cases.map (·.2) ++ [d]

def Terminator.mapOperands (r : ValueId → ValueId) : Terminator → Terminator
  | .return v => .return (v.map r)
  | .unreachable => .unreachable
  | .branch d args => .branch d (args.map r)
  | .condBranch c t targs f fargs => .condBranch (r c) t (targs.map r) f (fargs.map r)
  | .switch s cases d => .switch (r s) cases d

@[simp] theorem Terminator.uses_mapOperands (r : ValueId → ValueId) (t : Terminator) :
    (t.mapOperands r).uses = t.uses.map r := by
  cases t with
  | «return» v => cases v <;> rfl
  | condBranch => simp [mapOperands, uses]
  | _ => rfl

@[simp] theorem Terminator.targets_mapOperands (r : ValueId → ValueId) (t : Terminator) :
    (t.mapOperands r).targets = t.targets := by
  cases t <;> rfl

@[simp] theorem Terminator.mapOperands_id (t : Terminator) : t.mapOperands (fun v => v) = t := by
  cases t <;> simp [mapOperands]

/-! ## Rewriting a function -/

def Inst.mapOperands (r : ValueId → ValueId) (i : Inst) : Inst := { i with kind := i.kind.mapOperands r }

def BasicBlock.mapOperands (r : ValueId → ValueId) (b : BasicBlock) : BasicBlock :=
  { b with insts := b.insts.map (·.mapOperands r), terminator := b.terminator.map (·.mapOperands r) }

def Function.mapOperands (r : ValueId → ValueId) (f : Function) : Function :=
  { f with blocks := f.blocks.map (·.mapOperands r) }

/-! ## Control flow -/

def BasicBlock.targets (b : BasicBlock) : List BlockId :=
  match b.terminator with
  | some t => t.targets
  | none => []

namespace Function

def successors (f : Function) (b : BlockId) : List BlockId :=
  match f.tryBlock b with
  | some blk => blk.targets
  | none => []

def Edge (f : Function) (a b : BlockId) : Prop := b ∈ f.successors a

/-- One entry for each edge into `b`, in block order. -/
def predecessors (f : Function) (b : BlockId) : List BlockId :=
  f.blocks.flatMap fun blk => (blk.targets.filter (· == b)).map fun _ => blk.id

def allTargets (f : Function) : List BlockId := f.blocks.flatMap (·.targets)

def reachableBlocks (f : Function) : List BlockId :=
  bfs f.successors (f.allTargets.length + 1) f.entry

/-- Drop the blocks the entry does not reach. -/
def pruneUnreachable (f : Function) : Function :=
  { f with blocks := f.blocks.filter (·.id ∈ f.reachableBlocks) }

theorem mem_blocks_of_tryBlock (h : f.tryBlock b = some blk) :
    blk ∈ f.blocks ∧ blk.id = b :=
  ⟨mem_of_find?_eq_some h, by simpa using find?_some h⟩

theorem tryBlock_eq_none : f.tryBlock b = none ↔ ∀ blk ∈ f.blocks, blk.id ≠ b := by
  simp [tryBlock, find?_eq_none]

theorem exists_tryBlock (h : blk ∈ f.blocks) :
    ∃ blk', f.tryBlock blk.id = some blk' := by
  cases hb : f.tryBlock blk.id with
  | some blk' => exact ⟨blk', rfl⟩
  | none => exact absurd rfl (tryBlock_eq_none.mp hb blk h)

abbrev BlocksNodup (f : Function) : Prop := (f.blocks.map (·.id)).Nodup

theorem tryBlock_id (hnd : f.BlocksNodup) (h : blk ∈ f.blocks) :
    f.tryBlock blk.id = some blk := by
  obtain ⟨blk', hb⟩ := exists_tryBlock h
  obtain ⟨hmem, hid⟩ := mem_blocks_of_tryBlock hb
  rw [hb, inj_on_of_nodup_map hnd hmem h hid]

theorem successors_subset_allTargets {a b : BlockId} (h : b ∈ f.successors a) :
    b ∈ f.allTargets := by
  unfold successors at h
  split at h
  · next blk hb => exact mem_flatMap.mpr ⟨blk, (mem_blocks_of_tryBlock hb).1, h⟩
  · simp at h

theorem mem_reachableBlocks_iff :
    b ∈ f.reachableBlocks ↔ Relation.ReflTransGen f.Edge f.entry b :=
  mem_bfs_iff (f.entry :: f.allTargets) mem_cons_self
    (fun _ _ _ hy => .tail _ (successors_subset_allTargets hy)) (by simp)

theorem entry_mem_reachableBlocks (f : Function) : f.entry ∈ f.reachableBlocks :=
  mem_reachableBlocks_iff.mpr .refl

theorem reachableBlocks_closed {a b : BlockId} (ha : a ∈ f.reachableBlocks) (h : f.Edge a b) :
    b ∈ f.reachableBlocks :=
  mem_reachableBlocks_iff.mpr ((mem_reachableBlocks_iff.mp ha).tail h)

theorem mem_predecessors_iff (hnd : f.BlocksNodup) {a b : BlockId} :
    a ∈ f.predecessors b ↔ f.Edge a b := by
  simp only [predecessors, mem_flatMap, mem_map, mem_filter, beq_iff_eq, Edge, successors]
  constructor
  · rintro ⟨blk, hblk, _, ⟨hb, rfl⟩, rfl⟩
    simpa only [tryBlock_id hnd hblk] using hb
  · intro h
    split at h
    · next blk hb =>
      obtain ⟨hmem, hid⟩ := mem_blocks_of_tryBlock hb
      exact ⟨blk, hmem, b, ⟨h, rfl⟩, hid⟩
    · simp at h

theorem tryBlock_map {g : BasicBlock → BasicBlock} (hg : ∀ b, (g b).id = b.id) (b : BlockId) :
    ({ f with blocks := f.blocks.map g } : Function).tryBlock b = (f.tryBlock b).map g := by
  simp only [tryBlock, find?_map]
  congr 2
  funext blk
  simp [hg]

theorem modifyBlock_blocks (hnd : (f.blocks.map (·.id)).Nodup) (b : BlockId) (g : BasicBlock → BasicBlock) :
    (f.modifyBlock b g).blocks = f.blocks.map fun blk => if blk.id = b then g blk else blk := by
  simp only [modifyBlock]
  generalize f.blocks = bs at hnd
  induction bs with
  | nil => simp
  | cons c bs ih =>
    rw [map_cons, nodup_cons] at hnd
    rw [findIdx_cons]
    by_cases h : c.id = b
    · have hrest : bs.map (fun blk => if blk.id = b then g blk else blk) = bs := by
        conv_rhs => rw [← map_id bs]
        refine map_congr_left fun x hx => if_neg fun e => hnd.1 ?_
        rw [h, ← e]
        exact mem_map_of_mem hx
      simp [h, hrest]
    · have hc : (c.id == b) = false := by simpa using h
      rw [hc, cond_false, modify_succ_cons, ih hnd.2, map_cons, if_neg h]

/-! ## Pruning -/

theorem tryBlock_pruneUnreachable (f : Function) (hb : b ∈ f.reachableBlocks) :
    f.pruneUnreachable.tryBlock b = f.tryBlock b := by
  simp only [pruneUnreachable, tryBlock, find?_filter]
  congr 1
  funext blk
  by_cases h : blk.id = b
  · subst h; simp [hb]
  · simp [h]

end Function

end Armfortas.Ir
