import Armfortas.Ir.Module
import Armfortas.Ir.Lemmas.Prune

/-! A function may lose instructions and have its operands renamed. What the verifier asks of it stays true when
whatever is still used has a definition of the same type that comes early enough. -/
namespace Armfortas.Ir
open Lib List Option IrType

variable {f : Function} {r : ValueId → ValueId} {i : Inst}

/-! ## Positions in a filtered list -/

theorem filter_getElem? {α : Type} {p : α → Bool} {l : List α} {k x} (h : (l.filter p)[k]? = some x) :
    ∃ m, l[m]? = some x ∧ (l.filter p).drop k = (l.drop m).filter p := by
  induction l generalizing k with
  | nil => simp at h
  | cons a l ih =>
    by_cases ha : p a = true
    · rw [filter_cons_of_pos ha] at h ⊢
      cases k with
      | zero => exact ⟨0, h, by simp [ha]⟩
      | succ k =>
        obtain ⟨m, hm, hdrop⟩ := ih h
        exact ⟨m + 1, hm, hdrop⟩
    · rw [filter_cons_of_neg ha] at h ⊢
      obtain ⟨m, hm, hdrop⟩ := ih h
      exact ⟨m + 1, hm, hdrop⟩

theorem Function.UseOk.not_mem_drop {b v k} (h : f.UseOk b v k) :
    ∀ i ∈ b.insts.drop k, i.id ≠ v := by
  intro i hi hv
  obtain ⟨m, hm⟩ := mem_iff_getElem?.mp hi
  rw [getElem?_drop] at hm
  exact absurd (h.sameBlock _ i hm hv) (by omega)

/-! ## Checks under a renaming

The checks of an instruction see its operands through their types only, up to the names in the messages. -/

section Rename

theorem length_report {bad msg} : (report bad msg).length = bad.toNat := by
  cases bad <;> rfl

variable (vt : ValueId → Option IrType) (r : ValueId → ValueId) (i : Inst)

theorem length_checkRuntimeCallSignature (rf) (args : List ValueId) :
    (checkRuntimeCallSignature vt (i.mapOperands r) rf (args.map r)).length =
      (checkRuntimeCallSignature (fun v => vt (r v)) i rf args).length := by
  simp only [checkRuntimeCallSignature, length_append, length_report, length_map, length_flatMap,
    zip_map_left, zipIdx_map, List.map_map]
  congr 2

theorem length_checkIntBinary (a b) : (checkIntBinary vt (i.mapOperands r) (r a) (r b)).length =
    (checkIntBinary (fun v => vt (r v)) i a b).length := by
  simp only [checkIntBinary, length_append, length_report]
  cases vt (r a) <;> cases vt (r b) <;> try rfl
  simp only [length_append, length_report]
  rfl

theorem length_checkFloatBinary (a b) : (checkFloatBinary vt (i.mapOperands r) (r a) (r b)).length =
    (checkFloatBinary (fun v => vt (r v)) i a b).length := by
  simp only [checkFloatBinary]
  cases vt (r a) <;> cases vt (r b) <;> try rfl
  simp only [length_append, length_report]
  rfl

theorem length_checkFloatUnary (a) : (checkFloatUnary vt (i.mapOperands r) (r a)).length =
    (checkFloatUnary (fun v => vt (r v)) i a).length := by
  simp only [checkFloatUnary]
  cases vt (r a) with
  | none => rfl
  | some ty =>
    dsimp only
    split
    · rfl
    · simp only [length_report]
      rfl

theorem length_checkStoreTypes (a b) : (checkStoreTypes vt (i.mapOperands r) (r a) (r b)).length =
    (checkStoreTypes (fun v => vt (r v)) i a b).length := by
  simp only [checkStoreTypes]
  rcases vt (r a) with _ | _ <;> rcases vt (r b) with _ | ⟨_ | _⟩ <;> simp [length_report]

theorem length_checkLoadTypes (a) : (checkLoadTypes vt (i.mapOperands r) (r a)).length =
    (checkLoadTypes (fun v => vt (r v)) i a).length := by
  simp only [checkLoadTypes]
  cases vt (r a) <;> simp [length_report]

theorem length_checkBitwise (a b) : (checkBitwise vt (i.mapOperands r) (r a) (r b)).length =
    (checkBitwise (fun v => vt (r v)) i a b).length := by
  simp only [checkBitwise]
  cases vt (r a) <;> cases vt (r b) <;> simp [length_report]

theorem length_checkLogical (a b) : (checkLogical vt (i.mapOperands r) (r a) (r b)).length =
    (checkLogical (fun v => vt (r v)) i a b).length := by
  simp only [checkLogical]
  cases vt (r a) <;> cases vt (r b) <;> simp [length_report]

theorem length_checkIntCompare (a b) : (checkIntCompare vt (i.mapOperands r) (r a) (r b)).length =
    (checkIntCompare (fun v => vt (r v)) i a b).length := by
  simp only [checkIntCompare]
  cases vt (r a) <;> cases vt (r b) <;> try rfl
  dsimp only
  split
  · rfl
  · simp only [length_report]

theorem length_checkSelect (c a b) : (checkSelect vt (i.mapOperands r) (r c) (r a) (r b)).length =
    (checkSelect (fun v => vt (r v)) i c a b).length := by
  simp only [checkSelect]
  cases vt (r c) <;> cases vt (r a) <;> cases vt (r b) <;> simp only [length_append, length_report] <;> rfl

theorem length_checkTypeConsistency : (checkTypeConsistency vt (i.mapOperands r)).length =
    (checkTypeConsistency (fun v => vt (r v)) i).length := by
  obtain ⟨id, kind, ty⟩ := i
  unfold checkTypeConsistency
  simp only [length_append]
  cases kind with
  | runtimeCall rf args => exact congrArg₂ (· + ·) rfl (length_checkRuntimeCallSignature vt r _ rf args)
  | call callee args => cases callee <;> rfl
  | iBin op a b => exact congrArg₂ (· + ·) rfl (length_checkIntBinary vt r _ a b)
  | fBin op a b => exact congrArg₂ (· + ·) rfl (length_checkFloatBinary vt r _ a b)
  | fUn op a => exact congrArg₂ (· + ·) rfl (length_checkFloatUnary vt r _ a)
  | store a b | volatileStore a b => exact congrArg₂ (· + ·) rfl (length_checkStoreTypes vt r _ a b)
  | load a | volatileLoad a => exact congrArg₂ (· + ·) rfl (length_checkLoadTypes vt r _ a)
  | bitBin op a b => exact congrArg₂ (· + ·) rfl (length_checkBitwise vt r _ a b)
  | logic op a b => exact congrArg₂ (· + ·) rfl (length_checkLogical vt r _ a b)
  | iCmp op a b => exact congrArg₂ (· + ·) rfl (length_checkIntCompare vt r _ a b)
  | select c a b => exact congrArg₂ (· + ·) rfl (length_checkSelect vt r _ c a b)
  | getElementPtr base idxs =>
    refine congrArg₂ (· + ·) rfl ?_
    simp [Inst.mapOperands, InstKind.mapOperands, length_report]
  | _ => rfl

theorem checkTypeConsistency_mapOperands {vt vt' : ValueId → Option IrType} {r : ValueId → ValueId} {i : Inst}
    (h : ∀ v ∈ i.kind.operands, vt' (r v) = vt v) (hi : checkTypeConsistency vt i = []) :
    checkTypeConsistency vt' (i.mapOperands r) = [] := by
  rw [← length_eq_zero_iff, length_checkTypeConsistency, length_eq_zero_iff,
    checkTypeConsistency_congr h, hi]

end Rename

theorem mem_operands_mapOperands {v} :
    v ∈ (i.mapOperands r).kind.operands ↔ ∃ u ∈ i.kind.operands, r u = v := by
  simp [Inst.mapOperands]

/-! ## Thinned functions -/

def BasicBlock.thin (keep : ValueId → Bool) (r : ValueId → ValueId) (b : BasicBlock) : BasicBlock :=
  { b with
    insts := (b.insts.filter fun i => keep i.id).map (·.mapOperands r)
    terminator := b.terminator.map (·.mapOperands r) }

def Function.thin (keep : ValueId → Bool) (r : ValueId → ValueId) (f : Function) : Function :=
  { f with blocks := f.blocks.map (·.thin keep r) }

namespace Function

variable {keep : ValueId → Bool}

theorem thin_id (f : Function) (hkeep : ∀ v, keep v = true) (hr : ∀ v, r v = v) : f.thin keep r = f := by
  obtain rfl : r = fun v => v := funext hr
  have hblock : ∀ b : BasicBlock, b.thin keep (fun v => v) = b := by
    have hinst : (fun i : Inst => i.mapOperands fun v => v) = id := by
      funext i
      simp [Inst.mapOperands]
    simp [BasicBlock.thin, hkeep, hinst]
  simp [Function.thin, hblock]

theorem tryBlock_thin (f : Function) (b) :
    (f.thin keep r).tryBlock b = (f.tryBlock b).map (·.thin keep r) :=
  tryBlock_map (f := f) (g := (·.thin keep r)) (fun _ => rfl) b

theorem targets_thin (b : BasicBlock) : (b.thin keep r).targets = b.targets := by
  simp only [BasicBlock.targets, BasicBlock.thin]
  cases b.terminator <;> simp

theorem edge_thin (f : Function) : (f.thin keep r).Edge = f.Edge := by
  funext a b
  simp only [Edge, successors, tryBlock_thin]
  cases f.tryBlock a <;> simp [targets_thin]

theorem reachable_thin {b} : (f.thin keep r).Reachable b ↔ f.Reachable b := by
  rw [Reachable, edge_thin]
  rfl

theorem dom_thin {d b} : (f.thin keep r).Dom d b ↔ f.Dom d b := by
  rw [Dom, edge_thin]
  rfl

/-! ### Definitions that stay -/

theorem mem_insts_thin {b : BasicBlock} {i} :
    i ∈ (b.thin keep r).insts ↔ ∃ j ∈ b.insts, keep j.id = true ∧ j.mapOperands r = i := by
  simp [BasicBlock.thin, and_assoc]

def Keeps (f : Function) (keep : ValueId → Bool) (v : ValueId) : Prop := ∀ i ∈ f.allInsts, i.id = v → keep v = true

theorem DefIn.of_thin {v d} (h : (f.thin keep r).DefIn v d) : f.DefIn v d := by
  cases h with
  | param hp e => exact .param hp e
  | blockParam hb hp e =>
    obtain ⟨b, hmem, rfl⟩ := List.mem_map.mp hb
    exact @DefIn.blockParam f v b _ hmem hp e
  | inst hb hi e =>
    obtain ⟨b, hmem, rfl⟩ := List.mem_map.mp hb
    obtain ⟨j, hj, -, rfl⟩ := mem_insts_thin.mp hi
    exact @DefIn.inst f v b j hmem hj e

theorem DefIn.thin {v d} (h : f.DefIn v d) (hk : f.Keeps keep v) : (f.thin keep r).DefIn v d := by
  cases h with
  | param hp e => exact .param hp e
  | @blockParam b p hb hp e => exact @DefIn.blockParam _ v (b.thin keep r) p (List.mem_map_of_mem hb) hp e
  | @inst b i hb hi e =>
    have hkeep : keep i.id = true := e ▸ hk i (mem_flatMap.mpr ⟨b, hb, hi⟩) e
    exact @DefIn.inst _ v (b.thin keep r) (i.mapOperands r) (List.mem_map_of_mem hb)
      (mem_insts_thin.mpr ⟨i, hi, hkeep, rfl⟩) e

theorem definitions_thin (f : Function) : (f.thin keep r).definitions.Sublist f.definitions := by
  refine List.Sublist.append (List.Sublist.refl _) ?_
  simp only [Function.thin, flatMap_map]
  refine flatMap_sublist fun b _ => List.Sublist.append (List.Sublist.refl _) ?_
  simp only [BasicBlock.thin, List.map_map]
  exact filter_sublist.map _

theorem valuesNodup_thin (hnd : f.collectDefinedValues.Nodup) : (f.thin keep r).collectDefinedValues.Nodup :=
  ((definitions_thin f).map Prod.fst).nodup hnd

theorem valueType_thin (hnd : f.collectDefinedValues.Nodup) {v} (hv : v ∈ (f.thin keep r).collectDefinedValues) :
    (f.thin keep r).valueType v = f.valueType v := by
  obtain ⟨⟨w, ty⟩, hdef, rfl⟩ := List.mem_map.mp hv
  rw [(valueType_eq_some_iff (valuesNodup_thin hnd)).mpr hdef,
    (valueType_eq_some_iff hnd).mpr ((definitions_thin f).subset hdef)]

/-! ### Uses that stay in order -/

theorem UseOk.thin {b v m k} (h : f.UseOk b v m)
    (hdrop : (b.thin keep r).insts.drop k = ((b.insts.drop m).filter fun i => keep i.id).map (·.mapOperands r)) :
    (f.thin keep r).UseOk (b.thin keep r) v k where
  sameBlock := by
    intro l i hl hv
    by_contra hkl
    have hmem : i ∈ (b.thin keep r).insts.drop k := by
      refine mem_of_getElem? (i := l - k) ?_
      rw [getElem?_drop, show k + (l - k) = l by omega]
      exact hl
    rw [hdrop] at hmem
    obtain ⟨j, hj, rfl⟩ := List.mem_map.mp hmem
    exact h.not_mem_drop j (mem_filter.mp hj).1 hv
  across := by
    intro d hd hne
    obtain ⟨h₁, h₂, h₃⟩ := h.across d hd.of_thin hne
    exact ⟨reachable_thin.mpr h₁, reachable_thin.mpr h₂, dom_thin.mpr h₃⟩

/-- What the function needs for the thinned one to be accepted: a name that is still used stands for a kept
value of the same type, defined wherever the old one was. -/
structure Thins (f : Function) (keep : ValueId → Bool) (r : ValueId → ValueId) (v : ValueId) : Prop where
  defined : r v ∈ f.collectDefinedValues
  kept : f.Keeps keep (r v)
  type : f.valueType (r v) = f.valueType v
  useOk : ∀ b ∈ f.blocks, ∀ k, f.UseOk b v k → f.UseOk b (r v) k

theorem Thins.mem_thin {v} (h : f.Thins keep r v) : r v ∈ (f.thin keep r).collectDefinedValues := by
  obtain ⟨d, hd⟩ := mem_collectDefinedValues.mp h.defined
  exact mem_collectDefinedValues.mpr ⟨d, hd.thin h.kept⟩

theorem Thins.valueType (hnd : f.collectDefinedValues.Nodup) {v} (h : f.Thins keep r v) :
    (f.thin keep r).valueType (r v) = f.valueType v :=
  (valueType_thin hnd h.mem_thin).trans h.type

theorem Verified.thin (hv : f.Verified)
    (hinst : ∀ i ∈ f.allInsts, keep i.id = true → ∀ v ∈ i.kind.operands, f.Thins keep r v)
    (hterm : ∀ b ∈ f.blocks, ∀ t, b.terminator = some t → ∀ v ∈ t.uses, f.Thins keep r v) :
    (f.thin keep r).Verified := by
  have wf := hv.wellFormed
  have htype : ∀ v, f.Thins keep r v → (f.thin keep r).valueType (r v) = f.valueType v := fun v ht =>
    ht.valueType wf.valuesNodup
  have hinst' : ∀ b ∈ f.blocks, ∀ i ∈ b.insts, keep i.id = true → ∀ v ∈ i.kind.operands, f.Thins keep r v :=
    fun b hb i hi => hinst i (mem_flatMap.mpr ⟨b, hb, hi⟩)
  refine ⟨verifyFunction_eq_nil_iff.mpr ?_, fun v hmem => ?_⟩
  · refine ⟨?_, ?instUses, ?termUses⟩
    constructor
    case blocksNodup => simpa [Function.thin, BasicBlock.thin, Function.comp_def] using wf.blocksNodup
    case terminated =>
      intro b' hb'
      obtain ⟨b, hb, rfl⟩ := List.mem_map.mp hb'
      simpa [BasicBlock.thin] using wf.terminated b hb
    case entryBlock =>
      obtain ⟨e, he, hparams⟩ := wf.entryBlock
      exact ⟨e.thin keep r, by simp only [tryBlock_thin]; exact congrArg _ he, hparams⟩
    case entryNotTarget =>
      intro b' hb'
      obtain ⟨b, hb, rfl⟩ := List.mem_map.mp hb'
      rw [targets_thin]
      exact wf.entryNotTarget b hb
    case instUsesDefined =>
      intro b' hb' i' hi' v' hv'
      obtain ⟨b, hb, rfl⟩ := List.mem_map.mp hb'
      obtain ⟨i, hi, hkeep, rfl⟩ := mem_insts_thin.mp hi'
      obtain ⟨v, hvi, rfl⟩ := mem_operands_mapOperands.mp hv'
      exact (hinst' b hb i hi hkeep v hvi).mem_thin
    case termUsesDefined =>
      intro b' hb' t' ht' v' hv'
      obtain ⟨b, hb, rfl⟩ := List.mem_map.mp hb'
      obtain ⟨t, ht, rfl⟩ := map_eq_some_iff.mp ht'
      obtain ⟨v, hvt, rfl⟩ := List.mem_map.mp (Terminator.uses_mapOperands r t ▸ hv')
      exact (hterm b hb t ht v hvt).mem_thin
    case valuesNodup => exact valuesNodup_thin wf.valuesNodup
    case branchTypes =>
      intro b' hb' t' ht'
      obtain ⟨b, hb, rfl⟩ := List.mem_map.mp hb'
      obtain ⟨t, ht, rfl⟩ := map_eq_some_iff.mp ht'
      refine checkBranchTypes_mapOperands (fun d _ => ?_) (fun v hvt => htype v (hterm b hb t ht v hvt))
        (wf.branchTypes b hb t ht)
      rw [KeepsParams, tryBlock_thin, Option.map_map]
      rfl
    case returnType =>
      intro b' hb' t' ht'
      obtain ⟨b, hb, rfl⟩ := List.mem_map.mp hb'
      obtain ⟨t, ht, rfl⟩ := map_eq_some_iff.mp ht'
      exact checkReturnType_mapOperands (f := f) rfl (fun v hvt => htype v (hterm b hb t ht v hvt))
        (wf.returnType b hb t ht)
    case typeConsistency =>
      intro i' hi'
      obtain ⟨b', hb', hib⟩ := mem_flatMap.mp hi'
      obtain ⟨b, hb, rfl⟩ := List.mem_map.mp hb'
      obtain ⟨i, hi, hkeep, rfl⟩ := mem_insts_thin.mp hib
      exact checkTypeConsistency_mapOperands (fun v hvi => htype v (hinst' b hb i hi hkeep v hvi))
        (wf.typeConsistency i (mem_flatMap.mpr ⟨b, hb, hi⟩))
    case targets =>
      intro b' hb' d hd
      obtain ⟨b, hb, rfl⟩ := List.mem_map.mp hb'
      rw [targets_thin] at hd
      simpa [hasBlock, tryBlock_thin] using wf.targets b hb d hd
    case instUses =>
      intro b' hb' k i' hi' v' hv'
      obtain ⟨b, hb, rfl⟩ := List.mem_map.mp hb'
      obtain ⟨i, hi, rfl⟩ := map_eq_some_iff.mp (getElem?_map .. ▸ hi')
      obtain ⟨v, hvi, rfl⟩ := mem_operands_mapOperands.mp hv'
      obtain ⟨m, hm, hdrop⟩ := filter_getElem? hi
      have hkeep : keep i.id = true := (mem_filter.mp (mem_of_getElem? hi)).2
      have ht := hinst' b hb i (mem_of_getElem? hm) hkeep v hvi
      refine UseOk.thin (ht.useOk b hb m (wf.instUses b hb m i hm v hvi)) ?_
      simp only [BasicBlock.thin, ← map_drop, hdrop]
    case termUses =>
      intro b' hb' t' ht' v' hv'
      obtain ⟨b, hb, rfl⟩ := List.mem_map.mp hb'
      obtain ⟨t, ht, rfl⟩ := map_eq_some_iff.mp ht'
      obtain ⟨v, hvt, rfl⟩ := List.mem_map.mp (Terminator.uses_mapOperands r t ▸ hv')
      refine UseOk.thin ((hterm b hb t ht v hvt).useOk b hb _ (wf.termUses b hb t ht v hvt)) ?_
      simp
  · exact hv.fresh v (((definitions_thin f).map Prod.fst).subset hmem)

end Function

/-! ## Modules of narrowed functions -/

mutual

theorem IrType.checkDefinedStructIds_context {defs c c'} {ty : IrType}
    (h : ty.checkDefinedStructIds defs c = []) : ty.checkDefinedStructIds defs c' = [] := by
  cases ty with
  | ptr inner | array inner n | vector n inner => exact @IrType.checkDefinedStructIds_context defs c c' inner h
  | struct id => simpa [checkDefinedStructIds] using h
  | funcPtr params ret =>
    simp only [checkDefinedStructIds, append_eq_nil_iff] at h ⊢
    exact ⟨checkDefinedStructIdsList_context h.1, @IrType.checkDefinedStructIds_context defs c c' ret h.2⟩
  | _ => rfl

theorem IrType.checkDefinedStructIdsList_context {defs c c' tys}
    (h : checkDefinedStructIdsList defs c tys = []) : checkDefinedStructIdsList defs c' tys = [] := by
  cases tys with
  | nil => rfl
  | cons ty tys =>
    simp only [checkDefinedStructIdsList, append_eq_nil_iff] at h ⊢
    exact ⟨checkDefinedStructIds_context h.1, checkDefinedStructIdsList_context h.2⟩

end

/-- `g` has the signature of `f`, and all in it that has a type comes from `f`. -/
structure Function.Narrows (f g : Function) : Prop where
  name : g.name = f.name
  params : g.params = f.params
  returnType : g.returnType = f.returnType
  blockParams : ∀ b ∈ g.blocks, ∀ p ∈ b.params, ∃ c ∈ f.blocks, p ∈ c.params
  insts : ∀ j ∈ g.allInsts, ∃ i ∈ f.allInsts, ∃ r, j = i.mapOperands r ∧
    ∀ v ∈ i.kind.operands, g.valueType (r v) = f.valueType v

namespace Function.Narrows

variable {g : Function}

theorem structReferences (h : f.Narrows g) {defs} (hf : f.checkStructReferences defs = []) :
    g.checkStructReferences defs = [] := by
  simp only [checkStructReferences, append_eq_nil_iff, flatMap_eq_nil_iff] at hf ⊢
  obtain ⟨⟨hret, hparams⟩, hblocks⟩ := hf
  rw [h.returnType, h.params, h.name]
  refine ⟨⟨hret, hparams⟩, fun b hb => ⟨fun p hp => ?_, fun j hj => ?_⟩⟩
  · obtain ⟨c, hc, hpc⟩ := h.blockParams b hb p hp
    exact checkDefinedStructIds_context ((hblocks c hc).1 p hpc)
  · obtain ⟨i, hi, r, rfl, -⟩ := h.insts j (mem_flatMap.mpr ⟨b, hb, hj⟩)
    obtain ⟨c, hc, hic⟩ := mem_flatMap.mp hi
    obtain ⟨hty, hkind⟩ := (hblocks c hc).2 i hic
    refine ⟨hty, ?_⟩
    obtain ⟨id, kind, ty⟩ := i
    cases kind with
    | call callee args => cases callee <;> rfl
    | _ => exact hkind

theorem structStorage (h : f.Narrows g) (hf : f.checkStructStorage = []) : g.checkStructStorage = [] := by
  simp only [checkStructStorage, append_eq_nil_iff, flatMap_eq_nil_iff, report_eq_nil] at hf ⊢
  obtain ⟨⟨hret, hparams⟩, hblocks⟩ := hf
  rw [h.returnType, h.params]
  refine ⟨⟨hret, hparams⟩, fun b hb => ⟨fun p hp => ?_, fun j hj => ?_⟩⟩
  · obtain ⟨c, hc, hpc⟩ := h.blockParams b hb p hp
    exact (hblocks c hc).1 p hpc
  · obtain ⟨i, hi, r, rfl, -⟩ := h.insts j (mem_flatMap.mpr ⟨b, hb, hj⟩)
    obtain ⟨c, hc, hic⟩ := mem_flatMap.mp hi
    obtain ⟨hty, hkind⟩ := (hblocks c hc).2 i hic
    refine ⟨hty, ?_⟩
    obtain ⟨id, kind, ty⟩ := i
    cases kind with
    | call callee args => cases callee <;> rfl
    | getElementPtr base idxs => cases ty <;> exact hkind
    | _ => exact hkind

end Function.Narrows

theorem Function.narrows_thin {keep : ValueId → Bool}
    (hnd : f.collectDefinedValues.Nodup)
    (hinst : ∀ i ∈ f.allInsts, keep i.id = true → ∀ v ∈ i.kind.operands, f.Thins keep r v) :
    f.Narrows (f.thin keep r) where
  name := rfl
  params := rfl
  returnType := rfl
  blockParams b' hb' p hp := by
    obtain ⟨b, hb, rfl⟩ := List.mem_map.mp hb'
    exact ⟨b, hb, hp⟩
  insts j hj := by
    obtain ⟨b', hb', hjb⟩ := mem_flatMap.mp hj
    obtain ⟨b, hb, rfl⟩ := List.mem_map.mp hb'
    obtain ⟨i, hi, hkeep, rfl⟩ := mem_insts_thin.mp hjb
    have hmem : i ∈ f.allInsts := mem_flatMap.mpr ⟨b, hb, hi⟩
    exact ⟨i, hmem, r, rfl, fun v hv => (hinst i hmem hkeep v hv).valueType hnd⟩

namespace Module

variable {M M' : Module}

theorem Verified.of_parts (hstructs : M.checkStructReferences = []) (hglobals : ∀ g ∈ M.globals, g.check = [])
    (hfuncs : ∀ f ∈ M.functions, f.Verified ∧ M.checkInternalCallSignatures f = [] ∧ f.checkStructStorage = []) :
    M.Verified where
  accepted := by
    simp only [verifyModule, hstructs, nil_append, append_eq_nil_iff, flatMap_eq_nil_iff,
      map_eq_nil_iff]
    refine ⟨hglobals, fun f hf => ⟨⟨(hfuncs f hf).1.accepted, (hfuncs f hf).2.1⟩, (hfuncs f hf).2.2⟩⟩
  fresh f hf := (hfuncs f hf).1.fresh

theorem checkInternalCall_narrow (hfuncs : ∀ k : Nat, Option.Rel Function.Narrows M.functions[k]? M'.functions[k]?)
    {g : Function}
    (htypes : ∀ v ∈ i.kind.operands, g.valueType (r v) = f.valueType v) (h : M.checkInternalCall f i = []) :
    M'.checkInternalCall g (i.mapOperands r) = [] := by
  obtain ⟨id, kind, ty⟩ := i
  cases kind with
  | call callee args =>
    cases callee with
    | internal k =>
      have hrel := hfuncs k
      simp only [checkInternalCall, Inst.mapOperands, InstKind.mapOperands] at h ⊢
      generalize M.functions[k]? = cf at h hrel
      generalize M'.functions[k]? = cg at hrel
      cases hrel with
      | none => simp at h
      | some hn =>
        simp only [append_eq_nil_iff, report_eq_nil, checkInternalCallArgs, flatMap_eq_nil_iff] at h ⊢
        obtain ⟨⟨hret, hlen⟩, hargs⟩ := h
        refine ⟨⟨by rwa [hn.returnType], by simpa [hn.params] using hlen⟩, fun x hx => ?_⟩
        obtain ⟨⟨a, p⟩, m⟩ := x
        rw [mem_zipIdx_iff_getElem?, getElem?_zip_eq_some, getElem?_map, hn.params] at hx
        obtain ⟨u, hu, rfl⟩ := map_eq_some_iff.mp hx.1
        have hmem : ((u, p), m) ∈ (args.zip _).zipIdx :=
          mem_zipIdx_iff_getElem?.mpr (getElem?_zip_eq_some.mpr ⟨hu, hx.2⟩)
        have := hargs _ hmem
        rw [htypes u (mem_of_getElem? hu)]
        cases hty : f.valueType u with
        | none => rfl
        | some actual => simpa [hty] using this
    | _ => rfl
  | _ => rfl

theorem Verified.narrow (hv : M.Verified) (hglobals : M'.globals = M.globals) (hstructs : M'.structDefs = M.structDefs)
    (hexterns : M'.externFuncs = M.externFuncs)
    (hfuncs : ∀ k : Nat, Option.Rel Function.Narrows M.functions[k]? M'.functions[k]?)
    (hverified : ∀ g ∈ M'.functions, g.Verified) : M'.Verified := by
  have hpart : ∀ g ∈ M'.functions, ∃ f ∈ M.functions, f.Narrows g := by
    intro g hg
    obtain ⟨k, hk⟩ := mem_iff_getElem?.mp hg
    have hrel := hfuncs k
    rw [hk] at hrel
    cases hf : M.functions[k]? with
    | none => rw [hf] at hrel; cases hrel
    | some f =>
      rw [hf] at hrel
      cases hrel with
      | some hn => exact ⟨f, mem_of_getElem? hf, hn⟩
  have hacc := hv.accepted
  simp only [verifyModule, checkStructReferences, append_eq_nil_iff, flatMap_eq_nil_iff] at hacc
  refine .of_parts ?_ (by rw [hglobals]; exact hacc.1.2) fun g hg => ?_
  · simp only [checkStructReferences, append_eq_nil_iff, flatMap_eq_nil_iff, hglobals, hstructs, hexterns]
    refine ⟨hacc.1.1.1, fun g hg => ?_⟩
    obtain ⟨f, hf, hn⟩ := hpart g hg
    exact hn.structReferences (hacc.1.1.2 f hf)
  · obtain ⟨f, hf, hn⟩ := hpart g hg
    refine ⟨hverified g hg, flatMap_eq_nil_iff.mpr fun j hj => ?_, hn.structStorage (hv.checks hf).2⟩
    obtain ⟨i, hi, r, rfl, htypes⟩ := hn.insts j hj
    exact checkInternalCall_narrow hfuncs htypes (hv.checkInternalCall hf hi)

end Module

end Armfortas.Ir
