import Armfortas.Ir.Lemmas.Behaviour
import Mathlib.Data.List.Flatten

/-! A pass that redirects edges may leave blocks behind that nothing reaches. What the verifier asks of uses then
holds of the reachable blocks only, until the others are pruned. -/
namespace Armfortas.Ir
open Lib List Option Terminator Ir.Function

variable {t : Terminator} {d : BlockId} {args : List ValueId} {v : ValueId} {b : BasicBlock}

/-! ## Checks on equal types -/

theorem checkTypeConsistency_congr {vt vt' : ValueId → Option IrType} {i : Inst}
    (h : ∀ v ∈ i.kind.operands, vt v = vt' v) : checkTypeConsistency vt i = checkTypeConsistency vt' i := by
  obtain ⟨id, kind, ty⟩ := i
  cases kind with
  | runtimeCall rf args =>
    have hargs : ∀ x ∈ (args.zip rf.signature.1).zipIdx, vt x.1.1 = vt' x.1.1 := by
      intro x hx
      have hmem := mem_of_getElem? (mem_zipIdx_iff_getElem?.mp hx)
      exact h x.1.1 (of_mem_zip hmem).1
    simp only [checkTypeConsistency, checkRuntimeCallSignature]
    congr 2
    refine flatMap_congr fun x hx => ?_
    rw [hargs x hx]
  | _ =>
    simp_all [checkTypeConsistency, InstKind.operands, checkIntBinary, checkFloatBinary, checkFloatUnary,
      checkStoreTypes, checkLoadTypes, checkBitwise, checkLogical, checkIntCompare, checkSelect, checkVecBinary,
      checkVecFma, checkVecSelect, checkVecUnary, checkLane]

def Terminator.arms : Terminator → List (BlockId × List ValueId)
  | .branch d args => [(d, args)]
  | .condBranch _ td ta fd fa => [(td, ta), (fd, fa)]
  | .switch _ cases default => cases.map (fun c => (c.2, [])) ++ [(default, [])]
  | .return _ | .unreachable => []

theorem Terminator.map_fst_arms (t : Terminator) : t.arms.map Prod.fst = t.targets := by
  cases t <;> simp [arms, Terminator.targets, Function.comp_def]

theorem Terminator.mem_uses_of_arms (h : (d, args) ∈ t.arms) (hv : v ∈ args) : v ∈ t.uses := by
  cases t with
  | branch d args => simp_all [arms, Terminator.uses]
  | condBranch c td ta fd fa =>
    simp only [arms, mem_cons, Prod.mk.injEq, not_mem_nil, or_false] at h
    rcases h with ⟨-, rfl⟩ | ⟨-, rfl⟩ <;> simp [Terminator.uses, hv]
  | switch sel cases default =>
    simp only [arms, mem_append, List.mem_map, Prod.mk.injEq, mem_singleton] at h
    rcases h with ⟨-, -, -, rfl⟩ | ⟨-, rfl⟩ <;> cases hv
  | _ => cases h

theorem Takes.mem_arms {T env} (h : Takes T env t d args) : (d, args) ∈ t.arms := by
  cases h with
  | branch => exact mem_singleton_self _
  | condTrue => exact mem_cons_self
  | condFalse => exact .tail _ (mem_singleton_self _)
  | switch cases default =>
    have hmem := switchDest_mem cases default
    simp only [Terminator.arms, mem_append, List.mem_map, mem_singleton, Prod.mk.injEq] at hmem ⊢
    rcases hmem _ with ⟨c, hc, he⟩ | he
    · exact .inl ⟨c, hc, he, trivial⟩
    · exact .inr ⟨he, trivial⟩

namespace Function

variable {f g : Function}

theorem checkBranchArgs_eq_nil {nm dest} :
    f.checkBranchArgs nm dest args = [] ↔ ∀ ps, (f.tryBlock dest).map (·.params) = some ps →
      ps.length = args.length ∧ ∀ (k : Nat) p a, ps[k]? = some p → args[k]? = some a →
        ∀ ty, f.valueType a = some ty → ty = p.ty := by
  unfold checkBranchArgs
  cases f.tryBlock dest with
  | none => simp
  | some target =>
    simp only [map_some, some.injEq, forall_eq']
    by_cases hlen : target.params.length = args.length
    · rw [if_neg (not_not.mpr hlen), flatMap_eq_nil_iff]
      refine ⟨fun h => ⟨hlen, fun k p a hp ha ty hty => ?_⟩, fun h x hx => ?_⟩
      · have hx : ((p, a), k) ∈ (target.params.zip args).zipIdx := by
          rw [mem_zipIdx_iff_getElem?, getElem?_zip_eq_some]
          exact ⟨hp, ha⟩
        simpa [hty] using h _ hx
      · obtain ⟨⟨p, a⟩, k⟩ := x
        rw [mem_zipIdx_iff_getElem?, getElem?_zip_eq_some] at hx
        cases hty : f.valueType a with
        | none => simp
        | some ty => simpa [hty] using h.2 k p a hx.1 hx.2 ty hty
    · simp [hlen]

theorem checkSwitchTarget_eq_nil {role dest} :
    f.checkSwitchTarget role dest = [] ↔ ∀ ps, (f.tryBlock dest).map (·.params) = some ps → ps = [] := by
  unfold checkSwitchTarget
  cases f.tryBlock dest with
  | none => simp
  | some target => simp

theorem checkBranchArgs_of_arms {nm} (h : f.checkBranchTypes nm t = [])
    (harm : (d, args) ∈ t.arms) : f.checkBranchArgs nm d args = [] := by
  cases t with
  | branch d args => simp_all [Terminator.arms, checkBranchTypes]
  | condBranch c td ta fd fa =>
    simp only [checkBranchTypes, append_eq_nil_iff] at h
    simp only [Terminator.arms, mem_cons, Prod.mk.injEq, not_mem_nil, or_false] at harm
    rcases harm with ⟨rfl, rfl⟩ | ⟨rfl, rfl⟩
    · exact h.1.2
    · exact h.2
  | switch sel cases default =>
    simp only [checkBranchTypes, append_eq_nil_iff, flatMap_eq_nil_iff, checkSwitchTarget_eq_nil] at h
    simp only [Terminator.arms, mem_append, List.mem_map, Prod.mk.injEq, mem_singleton] at harm
    have hempty : ∀ ps, (f.tryBlock d).map (·.params) = some ps → ps = [] := by
      rcases harm with ⟨c, hc, rfl, -⟩ | ⟨rfl, -⟩
      · exact h.2 c hc
      · exact h.1.2
    have hargs : args = [] := by
      rcases harm with ⟨-, -, -, h⟩ | ⟨-, h⟩
      · exact h.symm
      · exact h
    refine checkBranchArgs_eq_nil.mpr fun ps hps => ?_
    rw [hempty ps hps, hargs]
    simp
  | _ => cases harm

section Rename

variable {r : ValueId → ValueId} {nm nm' : String} {t : Terminator}

theorem checkBranchTypes_mapOperands
    (ht : ∀ d ∈ t.targets, g.KeepsParams f d)
    (hv : ∀ v ∈ t.uses, g.valueType (r v) = f.valueType v) (h : f.checkBranchTypes nm t = []) :
    g.checkBranchTypes nm' (t.mapOperands r) = [] := by
  have hargs : ∀ d as, d ∈ t.targets → (∀ v ∈ as, v ∈ t.uses) → f.checkBranchArgs nm d as = [] →
      g.checkBranchArgs nm' d (as.map r) = [] := by
    intro d as hd has hf
    rw [checkBranchArgs_eq_nil] at hf ⊢
    intro ps hps
    rw [ht d hd] at hps
    obtain ⟨hlen, htys⟩ := hf ps hps
    refine ⟨by rw [hlen, length_map], fun k p a hp ha ty hty => ?_⟩
    rw [getElem?_map] at ha
    obtain ⟨u, hu, rfl⟩ := map_eq_some_iff.mp ha
    refine htys k p u hp hu ty ?_
    rwa [← hv u (has u (mem_of_getElem? hu))]
  cases t with
  | branch dest args => exact hargs dest args (by simp [Terminator.targets]) (fun v hv => hv) h
  | condBranch c td ta fd fa =>
    simp only [checkBranchTypes, Terminator.mapOperands, append_eq_nil_iff] at h ⊢
    obtain ⟨⟨hc, hta⟩, hfa⟩ := h
    refine ⟨⟨?_, hargs td ta ?_ ?_ hta⟩, hargs fd fa ?_ ?_ hfa⟩
    · have hcv := hv c (by simp [Terminator.uses])
      unfold checkCondition at hc ⊢
      cases hty : f.valueType c with
      | none => simp [hty] at hc
      | some ty => cases ty <;> simp_all
    all_goals simp +contextual [Terminator.targets, Terminator.uses]
  | switch sel cases default =>
    have hselv := hv sel (by simp [Terminator.uses])
    simp only [checkBranchTypes, Terminator.mapOperands, append_eq_nil_iff, flatMap_eq_nil_iff,
      checkSwitchTarget_eq_nil] at h ⊢
    obtain ⟨⟨hsel, hdef⟩, hcases⟩ := h
    refine ⟨⟨?_, fun ps hps => hdef ps ?_⟩, fun c hc ps hps => hcases c hc ps ?_⟩
    · unfold checkSelector at hsel ⊢
      rw [hselv]
      cases hty : f.valueType sel with
      | none => simp [hty] at hsel
      | some ty => simpa [hty] using hsel
    · rwa [← ht default (by simp [Terminator.targets])]
    · rwa [← ht c.2 (mem_append_left _ (List.mem_map_of_mem hc))]
  | _ => rfl

theorem checkBranchTypes_congr
    (ht : ∀ d ∈ t.targets, g.KeepsParams f d)
    (hv : ∀ v ∈ t.uses, g.valueType v = f.valueType v) (h : f.checkBranchTypes nm t = []) :
    g.checkBranchTypes nm' t = [] := by
  rw [← mapOperands_id t]
  exact checkBranchTypes_mapOperands ht hv h

theorem checkReturnType_mapOperands (hret : g.returnType = f.returnType)
    (hv : ∀ v ∈ t.uses, g.valueType (r v) = f.valueType v) (h : f.checkReturnType nm t = []) :
    g.checkReturnType nm' (t.mapOperands r) = [] := by
  cases t with
  | «return» v =>
    cases v with
    | none =>
      simp only [checkReturnType, Terminator.mapOperands, map_none, hret] at h ⊢
      cases hty : f.returnType <;> simp_all
    | some v =>
      have hvt := hv v (by simp [Terminator.uses])
      simp only [checkReturnType, Terminator.mapOperands, map_some, hret] at h ⊢
      cases hty : f.returnType <;> simp_all <;> cases hvt' : f.valueType v <;> simp_all
  | _ => rfl

theorem checkReturnType_congr (hret : g.returnType = f.returnType)
    (hv : ∀ v ∈ t.uses, g.valueType v = f.valueType v) (h : f.checkReturnType nm t = []) :
    g.checkReturnType nm' t = [] := by
  rw [← mapOperands_id t]
  exact checkReturnType_mapOperands hret hv h

end Rename

/-! ## Functions with blocks left behind -/

/-- `WellFormed`, with the uses looked at in reachable blocks only. -/
structure Live (f : Function) : Prop extends f.Checked where
  fresh : ∀ v ∈ f.collectDefinedValues, v < f.nextValue
  instUses : ∀ b ∈ f.blocks, f.Reachable b.id → ∀ (k : Nat) (i : Inst), b.insts[k]? = some i →
    ∀ v ∈ i.kind.operands, f.UseOk b v k
  termUses : ∀ b ∈ f.blocks, f.Reachable b.id → ∀ t, b.terminator = some t → ∀ v ∈ t.uses,
    f.UseOk b v b.insts.length

theorem Verified.live (hv : f.Verified) : f.Live where
  toChecked := hv.wellFormed.toChecked
  fresh := hv.fresh
  instUses b hb _ := hv.wellFormed.instUses b hb
  termUses b hb _ := hv.wellFormed.termUses b hb

/-- A terminator any block of `f` may have, as far as types and targets go. -/
structure Admits (f : Function) (t : Terminator) : Prop where
  uses : ∀ v ∈ t.uses, v ∈ f.collectDefinedValues
  branchTypes : ∀ nm, f.checkBranchTypes nm t = []
  returnType : ∀ nm, f.checkReturnType nm t = []
  targets : ∀ d ∈ t.targets, f.hasBlock d = true ∧ d ≠ f.entry

theorem Live.admits (h : f.Live) (hb : b ∈ f.blocks) (ht : b.terminator = some t) :
    f.Admits t where
  uses := h.termUsesDefined b hb t ht
  branchTypes _ := checkBranchTypes_congr (fun _ _ => rfl) (fun _ _ => rfl) (h.branchTypes b hb t ht)
  returnType _ := checkReturnType_congr rfl (fun _ _ => rfl) (h.returnType b hb t ht)
  targets d hd := by
    have hd' : d ∈ b.targets := by simpa only [BasicBlock.targets, ht] using hd
    exact ⟨h.targets b hb d hd', fun e => h.entryNotTarget b hb (e ▸ hd')⟩

theorem Admits.unreachable : f.Admits .unreachable where
  uses _ hv := absurd hv not_mem_nil
  branchTypes _ := rfl
  returnType _ := rfl
  targets _ hd := absurd hd not_mem_nil

theorem valueType_perm (hnd : f.collectDefinedValues.Nodup) (hdefs : g.definitions.Perm f.definitions) (v) :
    g.valueType v = f.valueType v := by
  have hnd' : g.collectDefinedValues.Nodup := (hdefs.map _).nodup_iff.mpr hnd
  refine Option.ext fun ty => ?_
  rw [valueType_eq_some_iff hnd', valueType_eq_some_iff hnd, hdefs.mem_iff]

/-- Blocks that exchange terminators and instructions among themselves keep all but what is asked of uses. -/
theorem Live.rebuild (h : f.Live) (hentry : g.entry = f.entry) (hret : g.returnType = f.returnType)
    (hnext : g.nextValue = f.nextValue) (hids : g.blocks.map (·.id) = f.blocks.map (·.id))
    (hparams : ∀ d, g.KeepsParams f d)
    (hdefs : g.definitions.Perm f.definitions) (hinsts : ∀ b ∈ g.blocks, ∀ i ∈ b.insts, i ∈ f.allInsts)
    (hterms : ∀ b ∈ g.blocks, ∃ t, b.terminator = some t ∧ f.Admits t)
    (instUses : ∀ b ∈ g.blocks, g.Reachable b.id → ∀ (k : Nat) (i : Inst), b.insts[k]? = some i →
      ∀ v ∈ i.kind.operands, g.UseOk b v k)
    (termUses : ∀ b ∈ g.blocks, g.Reachable b.id → ∀ t, b.terminator = some t → ∀ v ∈ t.uses,
      g.UseOk b v b.insts.length) : g.Live := by
  have hvals : ∀ v, v ∈ g.collectDefinedValues ↔ v ∈ f.collectDefinedValues := fun v => (hdefs.map _).mem_iff
  have htype := valueType_perm h.valuesNodup hdefs
  have hadmits : ∀ b ∈ g.blocks, ∀ t, b.terminator = some t → f.Admits t := by
    intro b hb t ht
    obtain ⟨t', ht', had⟩ := hterms b hb
    cases ht.symm.trans ht'
    exact had
  have htargets : ∀ b ∈ g.blocks, ∀ d ∈ b.targets, f.hasBlock d = true ∧ d ≠ f.entry := by
    intro b hb d hd
    obtain ⟨t, ht, had⟩ := hterms b hb
    exact had.targets d (by simpa only [BasicBlock.targets, ht] using hd)
  refine ⟨?_, fun v hv => hnext ▸ h.fresh v ((hvals v).mp hv), instUses, termUses⟩
  constructor
  case blocksNodup => exact hids ▸ h.blocksNodup
  case terminated =>
    intro b hb
    obtain ⟨t, ht, -⟩ := hterms b hb
    rw [ht]
    rfl
  case entryBlock =>
    obtain ⟨e, he, hps⟩ := h.entryBlock
    obtain ⟨e', he', hps'⟩ := (hparams f.entry).some he
    exact ⟨e', hentry ▸ he', hps'.trans hps⟩
  case entryNotTarget => exact fun b hb hmem => (htargets b hb _ hmem).2 hentry
  case instUsesDefined =>
    intro b hb i hi v hv
    obtain ⟨b₀, hb₀, hi₀⟩ := mem_flatMap.mp (hinsts b hb i hi)
    exact (hvals v).mpr (h.instUsesDefined b₀ hb₀ i hi₀ v hv)
  case termUsesDefined => exact fun b hb t ht v hv => (hvals v).mpr ((hadmits b hb t ht).uses v hv)
  case valuesNodup => exact (hdefs.map _).nodup_iff.mpr h.valuesNodup
  case branchTypes =>
    exact fun b hb t ht => checkBranchTypes_congr (fun d _ => hparams d) (fun v _ => htype v)
      ((hadmits b hb t ht).branchTypes b.name)
  case returnType =>
    exact fun b hb t ht => checkReturnType_congr hret (fun v _ => htype v) ((hadmits b hb t ht).returnType b.name)
  case typeConsistency =>
    intro i hi
    obtain ⟨b, hb, hib⟩ := mem_flatMap.mp hi
    rw [checkTypeConsistency_congr fun v _ => htype v]
    exact h.typeConsistency i (hinsts b hb i hib)
  case targets =>
    intro b hb d hd
    have hsome := congrArg Option.isSome (hparams d)
    rw [isSome_map, isSome_map] at hsome
    exact hsome.trans (htargets b hb d hd).1

/-! ## Pruning -/

theorem mem_pruneUnreachable :
    b ∈ f.pruneUnreachable.blocks ↔ b ∈ f.blocks ∧ f.Reachable b.id := by
  simp [pruneUnreachable, mem_reachableBlocks_iff, Reachable]

theorem edge_pruneUnreachable {a b} (ha : f.Reachable a) : f.pruneUnreachable.Edge a b ↔ f.Edge a b := by
  rw [Edge, Edge, successors, successors, tryBlock_pruneUnreachable f (mem_reachableBlocks_iff.mpr ha)]

theorem edge_of_pruneUnreachable (hnd : f.BlocksNodup) {a b}
    (h : f.pruneUnreachable.Edge a b) : f.Edge a b := by
  unfold Edge successors at h
  split at h
  · next blk hblk =>
    obtain ⟨hmem, rfl⟩ := mem_blocks_of_tryBlock hblk
    obtain ⟨hmem, -⟩ := mem_pruneUnreachable.mp hmem
    rw [Edge, successors, tryBlock_id hnd hmem]
    exact h
  · simp at h

theorem reachable_pruneUnreachable {b} (hb : f.Reachable b) : f.pruneUnreachable.Reachable b := by
  induction hb with
  | refl => exact .refl
  | tail ha hab ih => exact ih.tail ((edge_pruneUnreachable ha).mpr hab)

theorem defIn_pruneUnreachable :
    f.pruneUnreachable.DefIn v d ↔ f.DefIn v d ∧ f.Reachable d := by
  constructor
  · intro h
    cases h with
    | param hp e => exact ⟨.param hp e, .refl⟩
    | blockParam hb hp e =>
      obtain ⟨hb, hr⟩ := mem_pruneUnreachable.mp hb
      exact ⟨.blockParam hb hp e, hr⟩
    | inst hb hi e =>
      obtain ⟨hb, hr⟩ := mem_pruneUnreachable.mp hb
      exact ⟨.inst hb hi e, hr⟩
  · rintro ⟨h, hr⟩
    cases h with
    | param hp e => exact .param hp e
    | blockParam hb hp e => exact .blockParam (mem_pruneUnreachable.mpr ⟨hb, hr⟩) hp e
    | inst hb hi e => exact .inst (mem_pruneUnreachable.mpr ⟨hb, hr⟩) hi e

theorem definitions_pruneUnreachable (f : Function) : f.pruneUnreachable.definitions.Sublist f.definitions := by
  refine List.Sublist.append (List.Sublist.refl _) ?_
  exact List.Sublist.flatMap filter_sublist _

theorem UseOk.defIn_pruneUnreachable (hr : f.Reachable b.id) {k}
    (hv : v ∈ f.collectDefinedValues) (hu : f.UseOk b v k) : ∃ d, f.pruneUnreachable.DefIn v d := by
  obtain ⟨d, hd⟩ := mem_collectDefinedValues.mp hv
  refine ⟨d, Function.defIn_pruneUnreachable.mpr ⟨hd, ?_⟩⟩
  by_cases hdb : d = b.id
  · exact hdb ▸ hr
  · exact (hu.across d hd hdb).1

theorem UseOk.pruneUnreachable (hnd : f.BlocksNodup) (hr : f.Reachable b.id)
    {k} (hu : f.UseOk b v k) : f.pruneUnreachable.UseOk b v k where
  sameBlock := hu.sameBlock
  across := by
    intro d hd hdb
    obtain ⟨hd, hrd⟩ := Function.defIn_pruneUnreachable.mp hd
    refine ⟨reachable_pruneUnreachable hrd, reachable_pruneUnreachable hr, fun havoid => ?_⟩
    exact (hu.across d hd hdb).2.2 (havoid.mono fun _ _ => edge_of_pruneUnreachable hnd)

theorem Live.valuesNodup_pruneUnreachable (h : f.Live) : f.pruneUnreachable.collectDefinedValues.Nodup :=
  ((definitions_pruneUnreachable f).map Prod.fst).nodup h.valuesNodup

theorem Live.valueType_pruneUnreachable (h : f.Live) (hd : f.pruneUnreachable.DefIn v d) :
    f.pruneUnreachable.valueType v = f.valueType v := by
  obtain ⟨ty, hty⟩ : ∃ ty, (v, ty) ∈ f.pruneUnreachable.definitions := by
    have hmem : v ∈ f.pruneUnreachable.collectDefinedValues := mem_collectDefinedValues.mpr ⟨d, hd⟩
    obtain ⟨⟨w, ty⟩, hdef, rfl⟩ := List.mem_map.mp hmem
    exact ⟨ty, hdef⟩
  rw [(valueType_eq_some_iff h.valuesNodup_pruneUnreachable).mpr hty,
    (valueType_eq_some_iff h.valuesNodup).mpr ((definitions_pruneUnreachable f).subset hty)]

theorem Live.pruneUnreachable_verified (h : f.Live) : f.pruneUnreachable.Verified := by
  have hterm : ∀ b ∈ f.pruneUnreachable.blocks, ∀ t, b.terminator = some t → ∀ v ∈ t.uses,
      ∃ d, f.pruneUnreachable.DefIn v d := by
    intro b hb t ht v hv
    obtain ⟨hb, hr⟩ := mem_pruneUnreachable.mp hb
    exact (h.termUses b hb hr t ht v hv).defIn_pruneUnreachable hr (h.termUsesDefined b hb t ht v hv)
  have hinst : ∀ b ∈ f.pruneUnreachable.blocks, ∀ i ∈ b.insts, ∀ v ∈ i.kind.operands,
      ∃ d, f.pruneUnreachable.DefIn v d := by
    intro b hb i hi v hv
    obtain ⟨hb, hr⟩ := mem_pruneUnreachable.mp hb
    obtain ⟨k, hk, hget⟩ := getElem_of_mem hi
    exact (h.instUses b hb hr k i (by rw [getElem?_eq_getElem hk, hget]) v hv).defIn_pruneUnreachable hr
      (h.instUsesDefined b hb i hi v hv)
  have htarget : ∀ b ∈ f.pruneUnreachable.blocks, ∀ d ∈ b.targets, f.pruneUnreachable.tryBlock d = f.tryBlock d := by
    intro b hb d hd
    obtain ⟨hb, hr⟩ := mem_pruneUnreachable.mp hb
    refine tryBlock_pruneUnreachable f (mem_reachableBlocks_iff.mpr (hr.tail ?_))
    rwa [Edge, successors, tryBlock_id h.blocksNodup hb]
  have htype : ∀ v, (∃ d, f.pruneUnreachable.DefIn v d) → f.pruneUnreachable.valueType v = f.valueType v := by
    intro v hv
    obtain ⟨_, hd⟩ := hv
    exact h.valueType_pruneUnreachable hd
  have htargets : ∀ b ∈ f.pruneUnreachable.blocks, ∀ t, b.terminator = some t → ∀ d ∈ t.targets, d ∈ b.targets := by
    intro b _ t ht d hd
    simpa [BasicBlock.targets, ht] using hd
  refine ⟨verifyFunction_eq_nil_iff.mpr ?_, fun v hv => ?_⟩
  · refine ⟨?_, ?instUses, ?termUses⟩
    constructor
    case blocksNodup => exact (filter_sublist.map _).nodup h.blocksNodup
    case terminated => exact fun b hb => h.terminated b (mem_pruneUnreachable.mp hb).1
    case entryBlock =>
      obtain ⟨e, he, hparams⟩ := h.entryBlock
      exact ⟨e, by rw [← he]; exact tryBlock_pruneUnreachable f (entry_mem_reachableBlocks f), hparams⟩
    case entryNotTarget => exact fun b hb => h.entryNotTarget b (mem_pruneUnreachable.mp hb).1
    case instUsesDefined => exact fun b hb i hi v hv => mem_collectDefinedValues.mpr (hinst b hb i hi v hv)
    case termUsesDefined => exact fun b hb t ht v hv => mem_collectDefinedValues.mpr (hterm b hb t ht v hv)
    case valuesNodup => exact h.valuesNodup_pruneUnreachable
    case branchTypes =>
      intro b hb t ht
      refine checkBranchTypes_congr (fun d hd => ?_) (fun v hv => htype v (hterm b hb t ht v hv))
        (h.branchTypes b (mem_pruneUnreachable.mp hb).1 t ht)
      rw [KeepsParams, htarget b hb d (htargets b hb t ht d hd)]
    case returnType =>
      intro b hb t ht
      exact checkReturnType_congr (f := f) rfl (fun v hv => htype v (hterm b hb t ht v hv))
        (h.returnType b (mem_pruneUnreachable.mp hb).1 t ht)
    case typeConsistency =>
      intro i hi
      obtain ⟨b, hb, hib⟩ := mem_flatMap.mp hi
      rw [checkTypeConsistency_congr fun v hv => htype v (hinst b hb i hib v hv)]
      exact h.typeConsistency i (mem_flatMap.mpr ⟨b, (mem_pruneUnreachable.mp hb).1, hib⟩)
    case targets =>
      intro b hb d hd
      rw [hasBlock, htarget b hb d hd]
      exact h.targets b (mem_pruneUnreachable.mp hb).1 d hd
    case instUses =>
      intro b hb k i hi v hv
      obtain ⟨hb, hr⟩ := mem_pruneUnreachable.mp hb
      exact (h.instUses b hb hr k i hi v hv).pruneUnreachable h.blocksNodup hr
    case termUses =>
      intro b hb t ht v hv
      obtain ⟨hb, hr⟩ := mem_pruneUnreachable.mp hb
      exact (h.termUses b hb hr t ht v hv).pruneUnreachable h.blocksNodup hr
  · exact h.fresh v (((definitions_pruneUnreachable f).map Prod.fst).subset hv)

end Function

theorem execTerm_congr {f g : Function} {T σ}
    (h : ∀ d ∈ t.targets, g.tryBlock d = f.tryBlock d) : g.execTerm T t σ = f.execTerm T t σ := by
  rcases execTerm_cases f T t σ with ⟨dest, args, htk⟩ | ⟨rfl, -⟩ | ⟨v, x, rfl, hx, -⟩ | ⟨rfl, -⟩ | hstuck
  · rw [htk.execTerm, htk.execTerm, enter, enter, h dest htk.mem_targets]
  · rfl
  · rfl
  · rfl
  · rcases execTerm_cases g T t σ with ⟨dest, args, htk⟩ | ⟨rfl, -⟩ | ⟨v, x, rfl, hx, -⟩ | ⟨rfl, -⟩ | hstuck'
    · rw [htk.execTerm, htk.execTerm, enter, enter, h dest htk.mem_targets]
    · rfl
    · rfl
    · rfl
    · rw [hstuck, hstuck']

theorem Launch.run_pruneUnreachable (L : Launch) (f : Function) (n) :
    L.run f.pruneUnreachable n = L.run f n := by
  induction n with
  | zero => rfl
  | succ n ih =>
    rw [Launch.run, Launch.run, ih]
    cases hr : L.run f n with
    | running b σ =>
      have hreach := Launch.Enters.reachable ⟨n, hr⟩
      simp only [step, execBlock,
        tryBlock_pruneUnreachable f (mem_reachableBlocks_iff.mpr hreach)]
      cases hblk : f.tryBlock b with
      | none => rfl
      | some blk =>
        have hterm : ∀ t σ₁, blk.terminator = some t →
            f.pruneUnreachable.execTerm L.target t σ₁ = f.execTerm L.target t σ₁ := by
          intro t σ₁ ht
          refine execTerm_congr fun d hd => ?_
          refine tryBlock_pruneUnreachable f (mem_reachableBlocks_iff.mpr (hreach.tail ?_))
          simpa [Function.Edge, successors, hblk, BasicBlock.targets, ht] using hd
        cases hex : execInsts L.target L.world blk.insts σ with
        | halt why t => simp only [hex]
        | ok σ₁ =>
          cases ht : blk.terminator with
          | none => simp only [hex, ht]
          | some t => simp only [hex, ht, hterm t σ₁ ht]
    | returned v σ => rfl
    | halted why t => rfl

theorem Launch.behaves_pruneUnreachable (L : Launch) (f) : L.Behaves f f.pruneUnreachable := by
  intro _
  constructor <;> intro n <;> refine ⟨n, ?_⟩ <;> rw [Launch.run_pruneUnreachable] <;> exact .refl _

end Armfortas.Ir
