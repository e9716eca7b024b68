import Armfortas.Ir.Verify
import Mathlib.Algebra.Order.Ring.Int

/-! The findings are empty exactly when `WellFormed` holds. The other developments use its fields and never look into
the checks. -/
namespace Armfortas.Ir
open Lib List

variable {v : ValueId} {b : BasicBlock}

namespace Function

/-- `v` is defined in block `b`: as a function parameter of the entry, a block parameter or an instruction. -/
inductive DefIn (f : Function) (v : ValueId) : BlockId → Prop
  | param {p : Param} : p ∈ f.params → p.id = v → DefIn f v f.entry
  | blockParam {blk : BasicBlock} {p : BlockParam} : blk ∈ f.blocks → p ∈ blk.params → p.id = v → DefIn f v blk.id
  | inst {blk : BasicBlock} {i : Inst} : blk ∈ f.blocks → i ∈ blk.insts → i.id = v → DefIn f v blk.id

/-- The use of `v` at position `idx` of block `b` comes after its definition. -/
structure UseOk (f : Function) (b : BasicBlock) (v : ValueId) (idx : Nat) : Prop where
  sameBlock : ∀ k i, b.insts[k]? = some i → i.id = v → k < idx
  across : ∀ d, f.DefIn v d → d ≠ b.id → f.Reachable d ∧ f.Reachable b.id ∧ f.Dom d b.id

/-- What `verifyFunction` checks apart from the place of uses. -/
structure Checked (f : Function) : Prop where
  blocksNodup : (f.blocks.map (·.id)).Nodup
  terminated : ∀ b ∈ f.blocks, b.terminator.isSome = true
  entryBlock : ∃ e, f.tryBlock f.entry = some e ∧ e.params = []
  entryNotTarget : ∀ b ∈ f.blocks, f.entry ∉ b.targets
  instUsesDefined : ∀ b ∈ f.blocks, ∀ i ∈ b.insts, ∀ v ∈ i.kind.operands, v ∈ f.collectDefinedValues
  termUsesDefined : ∀ b ∈ f.blocks, ∀ t, b.terminator = some t → ∀ v ∈ t.uses, v ∈ f.collectDefinedValues
  valuesNodup : f.collectDefinedValues.Nodup
  branchTypes : ∀ b ∈ f.blocks, ∀ t, b.terminator = some t → f.checkBranchTypes b.name t = []
  returnType : ∀ b ∈ f.blocks, ∀ t, b.terminator = some t → f.checkReturnType b.name t = []
  typeConsistency : ∀ i ∈ f.allInsts, checkTypeConsistency f.valueType i = []
  targets : ∀ b ∈ f.blocks, ∀ t ∈ b.targets, f.hasBlock t = true

/-- What `verifyFunction` accepts. -/
structure WellFormed (f : Function) : Prop extends f.Checked where
  instUses : ∀ b ∈ f.blocks, ∀ k i, b.insts[k]? = some i → ∀ v ∈ i.kind.operands, f.UseOk b v k
  termUses : ∀ b ∈ f.blocks, ∀ t, b.terminator = some t → ∀ v ∈ t.uses, f.UseOk b v b.insts.length

theorem WellFormed.cfgWf {f : Function} (wf : f.WellFormed) : f.CfgWf where
  nodup := wf.blocksNodup
  entry := by obtain ⟨e, he, -⟩ := wf.entryBlock; simp [hasBlock, he]
  targets := wf.targets

/-! ## The checks one by one -/

theorem checkBlocks_eq_nil (bs : List BasicBlock) : ∀ seen : List BasicBlock, (bs.map (·.id)).Nodup →
    (∀ b ∈ bs, ∀ s ∈ seen, s.id ≠ b.id) →
    (checkBlocks seen bs = [] ↔ ∀ b ∈ bs, b.terminator.isSome = true) := by
  induction bs with
  | nil => simp [checkBlocks]
  | cons b bs ih =>
    intro seen hnd hfresh
    rw [map_cons, nodup_cons] at hnd
    have hb := hfresh b mem_cons_self
    have hfind : seen.find? (·.id == b.id) = none := by simpa [find?_eq_none] using hb
    have hany : seen.any (·.id == b.id) = false := by simpa [any_eq_false] using hb
    simp only [checkBlocks, hfind, hany, nil_append, append_eq_nil_iff, report_eq_nil]
    rw [if_neg (by simp), ih (seen ++ [b]) hnd.2]
    · simp
    · intro c hc s hs
      rcases mem_append.mp hs with hs | hs
      · exact hfresh c (.tail _ hc) s hs
      · rw [mem_singleton.mp hs]
        exact fun e => hnd.1 (e ▸ mem_map_of_mem hc)

theorem checkBlocks_ne_nil (bs) : ∀ seen : List BasicBlock,
    (∃ b ∈ bs, ∃ s ∈ seen, s.id = b.id) ∨ ¬ (bs.map (·.id)).Nodup → checkBlocks seen bs ≠ [] := by
  induction bs with
  | nil => simp
  | cons b bs ih =>
    intro seen h hnil
    simp only [checkBlocks, append_eq_nil_iff] at hnil
    by_cases hb : ∃ s ∈ seen, s.id = b.id
    · obtain ⟨s, hs, hid⟩ := hb
      cases hf : seen.find? (·.id == b.id) with
      | none => exact absurd hid (by simpa using find?_eq_none.mp hf s hs)
      | some s' => simp [hf] at hnil
    · have hany : seen.any (·.id == b.id) = false := by simpa [any_eq_false] using hb
      rw [hany] at hnil
      refine ih (seen ++ [b]) ?_ hnil.2
      rcases h with ⟨c, hc, s, hs, hid⟩ | hnd
      · rcases mem_cons.mp hc with rfl | hc
        · exact absurd ⟨s, hs, hid⟩ hb
        · exact .inl ⟨c, hc, s, mem_append_left _ hs, hid⟩
      · rw [map_cons, nodup_cons, not_and_or] at hnd
        rcases hnd with hnd | hnd
        · obtain ⟨c, hc, hid⟩ := mem_map.mp (not_not.mp hnd)
          exact .inl ⟨c, hc, b, by simp, hid.symm⟩
        · exact .inr hnd

theorem duplicateValues_eq_nil (vs) : ∀ seen : List ValueId,
    duplicateValues seen vs = [] ↔ vs.Nodup ∧ ∀ v ∈ vs, v ∉ seen := by
  induction vs with
  | nil => simp [duplicateValues]
  | cons v vs ih =>
    intro seen
    simp only [duplicateValues, append_eq_nil_iff, report_eq_nil, ih, nodup_cons, mem_cons,
      contains_eq_mem, decide_eq_false_iff_not]
    constructor
    · rintro ⟨hv, hnd, hvs⟩
      refine ⟨⟨fun h => hvs v h (.inl rfl), hnd⟩, ?_⟩
      rintro w (rfl | hw)
      · exact hv
      · exact fun h => hvs w hw (.inr h)
    · rintro ⟨⟨hv, hnd⟩, hvs⟩
      refine ⟨hvs v (.inl rfl), hnd, fun w hw => ?_⟩
      rintro (rfl | h)
      · exact hv hw
      · exact hvs w (.inr hw) h

/-! ## Definition sites -/

variable {f : Function}

theorem collectDefinedValues_eq (f : Function) : f.collectDefinedValues =
    f.params.map (·.id) ++ f.blocks.flatMap fun b => b.params.map (·.id) ++ b.insts.map (·.id) := by
  simp [collectDefinedValues, definitions, map_flatMap, Function.comp_def]

theorem mem_collectDefinedValues : v ∈ f.collectDefinedValues ↔ ∃ b, f.DefIn v b := by
  rw [collectDefinedValues_eq]
  simp only [mem_append, mem_map, mem_flatMap]
  constructor
  · rintro (⟨p, hp, rfl⟩ | ⟨b, hb, ⟨p, hp, rfl⟩ | ⟨i, hi, rfl⟩⟩)
    · exact ⟨_, .param hp rfl⟩
    · exact ⟨_, .blockParam hb hp rfl⟩
    · exact ⟨_, .inst hb hi rfl⟩
  · rintro ⟨b, h⟩
    cases h with
    | param hp e => exact .inl ⟨_, hp, e⟩
    | blockParam hb hp e => exact .inr ⟨_, hb, .inl ⟨_, hp, e⟩⟩
    | inst hb hi e => exact .inr ⟨_, hb, .inr ⟨_, hi, e⟩⟩

section Values

variable (hnd : f.collectDefinedValues.Nodup)
include hnd

theorem valueDefBlock_eq_some_iff {b} : f.valueDefBlock v = some b ↔ f.DefIn v b := by
  rw [valueDefBlock, AssocMap.lookup_eq_some_iff]
  · simp only [mem_reverse, mem_append, mem_map, mem_flatMap, Prod.mk.injEq]
    constructor
    · rintro (⟨p, hp, rfl, rfl⟩ | ⟨b, hb, ⟨p, hp, rfl, rfl⟩ | ⟨i, hi, rfl, rfl⟩⟩)
      · exact .param hp rfl
      · exact .blockParam hb hp rfl
      · exact .inst hb hi rfl
    · intro h
      cases h with
      | param hp e => exact .inl ⟨_, hp, e, rfl⟩
      | blockParam hb hp e => exact .inr ⟨_, hb, .inl ⟨_, hp, e, rfl⟩⟩
      | inst hb hi e => exact .inr ⟨_, hb, .inr ⟨_, hi, e, rfl⟩⟩
  · rw [map_reverse, nodup_reverse]
    rw [collectDefinedValues_eq] at hnd
    simpa [map_flatMap, Function.comp_def] using hnd

theorem block_nodup (hb : b ∈ f.blocks) : (b.params.map (·.id) ++ b.insts.map (·.id)).Nodup := by
  rw [collectDefinedValues_eq] at hnd
  exact (nodup_flatMap.mp (nodup_append.mp hnd).2.1).1 b hb

theorem DefIn.unique {b c} (hb : f.DefIn v b) (hc : f.DefIn v c) : b = c := by
  rw [← valueDefBlock_eq_some_iff hnd] at hb hc
  exact Option.some.inj (hb.symm.trans hc)

theorem inst_block_unique (hbs : f.BlocksNodup) {b c}
    (hb : b ∈ f.blocks) (hc : c ∈ f.blocks) {i j} (hi : i ∈ b.insts) (hj : j ∈ c.insts) (hid : i.id = j.id) :
    b = c ∧ i = j := by
  have hbc : b = c := inj_on_of_nodup_map hbs hb hc ((DefIn.inst hb hi hid).unique hnd (.inst hc hj rfl))
  subst hbc
  exact ⟨rfl, inj_on_of_nodup_map (nodup_append.mp (block_nodup hnd hb)).2.1 hi hj hid⟩

theorem inst_pos_unique (hb : b ∈ f.blocks) {l m : Nat} {i j}
    (hi : b.insts[l]? = some i) (hj : b.insts[m]? = some j) (hid : i.id = j.id) : l = m := by
  have hids := (nodup_append.mp (block_nodup hnd hb)).2.1
  have hlm : (b.insts.map (·.id))[l]? = (b.insts.map (·.id))[m]? := by simp [hi, hj, hid]
  exact (getElem?_inj (by simpa using (List.getElem?_eq_some_iff.mp hi).1) hids).mp hlm

theorem useOk_self (hb : b ∈ f.blocks) {m : Nat} {i}
    (hi : b.insts[m]? = some i) : f.UseOk b i.id (m + 1) where
  sameBlock _ _ hj hid := Nat.lt_succ_of_le (inst_pos_unique hnd hb hj hi hid).le
  across _ hd hne := absurd (hd.unique hnd (.inst hb (mem_of_getElem? hi) rfl)) hne

theorem inst_ne_blockParam (hbs : f.BlocksNodup) {b c}
    (hb : b ∈ f.blocks) (hc : c ∈ f.blocks) {i} (hi : i ∈ b.insts) {p} (hp : p ∈ c.params) :
    i.id ≠ p.id := by
  intro hid
  have hbc : b = c := inj_on_of_nodup_map hbs hb hc ((DefIn.inst hb hi hid).unique hnd (.blockParam hc hp rfl))
  subst hbc
  exact (nodup_append.mp (block_nodup hnd hb)).2.2 _ (mem_map_of_mem hp) _ (mem_map_of_mem hi) hid.symm

theorem param_ne_of_mem_block {q} (hq : q ∈ f.params)
    (hb : b ∈ f.blocks) (hv : v ∈ b.params.map (·.id) ++ b.insts.map (·.id)) : q.id ≠ v := by
  rw [collectDefinedValues_eq] at hnd
  exact (nodup_append.mp hnd).2.2 _ (mem_map_of_mem hq) _ (mem_flatMap.mpr ⟨b, hb, hv⟩)

theorem instOrder_eq_some_iff (hb : b ∈ f.blocks)
    {k} : b.instOrder v = some k ↔
      (k = -1 ∧ ∃ p ∈ b.params, p.id = v) ∨ ∃ (n : Nat) (i : Inst), b.insts[n]? = some i ∧ i.id = v ∧ k = n := by
  rw [BasicBlock.instOrder, AssocMap.lookup_eq_some_iff]
  · simp only [mem_reverse, mem_append, mem_map, Prod.mk.injEq, Prod.exists,
      mem_zipIdx_iff_getElem?]
    constructor
    · rintro (⟨p, hp, hv, hk⟩ | ⟨i, n, hi, hv, hk⟩)
      · exact .inl ⟨hk.symm, p, hp, hv⟩
      · exact .inr ⟨n, i, hi, hv, hk.symm⟩
    · rintro (⟨hk, p, hp, hv⟩ | ⟨n, i, hi, hv, hk⟩)
      · exact .inl ⟨p, hp, hv, hk.symm⟩
      · exact .inr ⟨i, n, hi, hv, hk.symm⟩
  · rw [map_reverse, nodup_reverse]
    have hz : b.insts.zipIdx.map (fun x => x.1.id) = b.insts.map (·.id) := by
      conv_rhs => rw [← zipIdx_map_fst 0 b.insts, map_map]
      rfl
    simpa [Function.comp_def, hz] using block_nodup hnd hb

theorem checkUse_eq_nil (wf : f.CfgWf) (hb : b ∈ f.blocks)
    {idx : Nat} : f.checkUse f.computeDominatorInfo b v idx = [] ↔ f.UseOk b v idx := by
  have hlocal : ∀ (k : Nat) (i : Inst), b.insts[k]? = some i → i.id = v → f.DefIn v b.id :=
    fun k i hi hv => .inst hb (mem_of_getElem? hi) hv
  unfold checkUse
  cases hd : f.valueDefBlock v with
  | none =>
    have hno : ∀ d, ¬ f.DefIn v d := fun d h => by
      rw [(valueDefBlock_eq_some_iff hnd).mpr h] at hd; cases hd
    exact ⟨fun _ => ⟨fun k i hi hv => absurd (hlocal k i hi hv) (hno _), fun d h => absurd h (hno d)⟩, fun _ => rfl⟩
  | some d =>
    have hdef := (valueDefBlock_eq_some_iff hnd).mp hd
    by_cases hdb : d = b.id
    · subst hdb
      simp only [if_true]
      constructor
      · intro h
        refine ⟨fun k i hi hv => ?_, fun d h' hne => absurd (h'.unique hnd hdef) hne⟩
        have ho := (instOrder_eq_some_iff hnd hb (v := v) (k := (k : Int))).mpr (.inr ⟨k, i, hi, hv, rfl⟩)
        simpa [ho] using h
      · intro h
        cases ho : b.instOrder v with
        | none => rfl
        | some k =>
          rcases (instOrder_eq_some_iff hnd hb).mp ho with ⟨rfl, -⟩ | ⟨n, i, hi, hv, rfl⟩
          · simp only [report_eq_nil, decide_eq_false_iff_not]; omega
          · simpa using h.sameBlock n i hi hv
    · simp only [hdb, if_false, report_eq_nil, Bool.not_eq_false']
      rw [wf.dominates_iff]
      constructor
      · intro h
        refine ⟨fun k i hi hv => absurd ((hlocal k i hi hv).unique hnd hdef).symm hdb, fun c hc _ => ?_⟩
        rw [hc.unique hnd hdef]
        exact h
      · exact fun h => h.across d hdef hdb

/-! ## The whole verifier -/

theorem checkDominance_eq_nil (wf : f.CfgWf) : f.checkDominance = [] ↔
    (∀ b ∈ f.blocks, ∀ k i, b.insts[k]? = some i → ∀ v ∈ i.kind.operands, f.UseOk b v k) ∧
    (∀ b ∈ f.blocks, ∀ t, b.terminator = some t → ∀ v ∈ t.uses, f.UseOk b v b.insts.length) := by
  simp only [checkDominance, flatMap_eq_nil_iff, append_eq_nil_iff, Prod.forall,
    mem_zipIdx_iff_getElem?]
  constructor
  · intro h
    refine ⟨fun b hb k i hi v hv => (checkUse_eq_nil hnd wf hb).mp ((h b hb).1 i k hi v hv), ?_⟩
    intro b hb t ht v hv
    have := (h b hb).2
    simp only [ht, flatMap_eq_nil_iff] at this
    exact (checkUse_eq_nil hnd wf hb).mp (this v hv)
  · rintro ⟨hi, ht⟩ b hb
    refine ⟨fun i k hik v hv => (checkUse_eq_nil hnd wf hb).mpr (hi b hb k i hik v hv), ?_⟩
    split
    · next t hbt =>
      exact flatMap_eq_nil_iff.mpr fun v hv => (checkUse_eq_nil hnd wf hb).mpr (ht b hb t hbt v hv)
    · rfl

end Values

theorem checkUsesDefined_eq_nil : f.checkUsesDefined = [] ↔
    (∀ b ∈ f.blocks, ∀ i ∈ b.insts, ∀ v ∈ i.kind.operands, v ∈ f.collectDefinedValues) ∧
    (∀ b ∈ f.blocks, ∀ t, b.terminator = some t → ∀ v ∈ t.uses, v ∈ f.collectDefinedValues) := by
  simp only [checkUsesDefined, flatMap_eq_nil_iff, append_eq_nil_iff, report_eq_nil, Bool.not_eq_false',
    contains_eq_mem, decide_eq_true_eq]
  constructor
  · intro h
    refine ⟨fun b hb => (h b hb).1, fun b hb t ht v hv => ?_⟩
    have := (h b hb).2
    simp only [ht, flatMap_eq_nil_iff, report_eq_nil, Bool.not_eq_false', decide_eq_true_eq] at this
    exact this v hv
  · rintro ⟨hi, ht⟩ b hb
    refine ⟨hi b hb, ?_⟩
    split
    · next t hbt => simpa [flatMap_eq_nil_iff] using ht b hb t hbt
    · rfl

theorem checkTerminatorTypes_eq_nil : f.checkTerminatorTypes = [] ↔
    (∀ b ∈ f.blocks, ∀ t, b.terminator = some t → f.checkBranchTypes b.name t = []) ∧
    (∀ b ∈ f.blocks, ∀ t, b.terminator = some t → f.checkReturnType b.name t = []) := by
  simp only [checkTerminatorTypes, flatMap_eq_nil_iff]
  constructor
  · intro h
    refine ⟨fun b hb t ht => ?_, fun b hb t ht => ?_⟩ <;>
      · have := h b hb
        simp only [ht, append_eq_nil_iff] at this
        simp [this]
  · rintro ⟨h1, h2⟩ b hb
    split
    · next t ht => simp [h1 b hb t ht, h2 b hb t ht]
    · rfl

theorem checkEntry_eq_nil : f.checkEntry = [] ↔
    (∃ e, f.tryBlock f.entry = some e ∧ e.params = []) ∧ ∀ b ∈ f.blocks, f.entry ∉ b.targets := by
  unfold checkEntry
  split
  · next h => simp [h]
  · next e h => simp [h, flatMap_eq_nil_iff]

theorem verifyFunction_eq_nil_iff : f.verifyFunction = [] ↔ f.WellFormed := by
  by_cases hnd : f.BlocksNodup
  · have hblocks := checkBlocks_eq_nil f.blocks [] hnd (by simp)
    simp only [verifyFunction, hasDuplicateBlocks, hnd, decide_true, Bool.not_true, Bool.false_eq_true, if_false,
      append_eq_nil_iff, hblocks, checkEntry_eq_nil, checkUsesDefined_eq_nil, checkTerminatorTypes_eq_nil,
      duplicateValues_eq_nil, flatMap_eq_nil_iff]
    have htargets : f.checkTargets = [] ↔ ∀ b ∈ f.blocks, ∀ t ∈ b.targets, f.hasBlock t = true := by
      simp [checkTargets, flatMap_eq_nil_iff, hasBlock_iff]
    rw [htargets]
    constructor
    · rintro ⟨h1, ⟨⟨⟨⟨⟨⟨⟨h2, h3⟩, h4, h5⟩, h6, -⟩, h7, h8⟩, h9⟩, h10⟩, h11⟩⟩
      have wf : f.CfgWf := ⟨hnd, by obtain ⟨e, he, -⟩ := h2; simp [hasBlock, he], h10⟩
      obtain ⟨h12, h13⟩ := (checkDominance_eq_nil h6 wf).mp h11
      exact ⟨⟨hnd, h1, h2, h3, h4, h5, h6, h7, h8, h9, h10⟩, h12, h13⟩
    · intro wf
      exact ⟨wf.terminated, ⟨⟨⟨⟨⟨⟨wf.entryBlock, wf.entryNotTarget⟩, wf.instUsesDefined, wf.termUsesDefined⟩,
        wf.valuesNodup, by simp⟩, wf.branchTypes, wf.returnType⟩, wf.typeConsistency⟩, wf.targets⟩,
        (checkDominance_eq_nil wf.valuesNodup wf.cfgWf).mpr ⟨wf.instUses, wf.termUses⟩⟩
  · refine ⟨fun h => ?_, fun wf => absurd wf.blocksNodup hnd⟩
    exact absurd (append_eq_nil_iff.mp h).1 (checkBlocks_ne_nil f.blocks [] (.inr hnd))

theorem Verified.wellFormed (h : f.Verified) : f.WellFormed := verifyFunction_eq_nil_iff.mp h.accepted

end Function

end Armfortas.Ir
