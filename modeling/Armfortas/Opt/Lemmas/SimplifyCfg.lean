import Armfortas.Opt.SimplifyCfg
import Armfortas.Ir.Lemmas.Observe
import Armfortas.Ir.Lemmas.Patch

/-! One round of the first loop takes an empty block out of the graph. A path of the new graph becomes a path of the
old one by putting the block back. -/
namespace Armfortas.Opt.SimplifyCfg
open Ir Lib List Option Terminator Function

variable {b : BasicBlock} {d : BlockId} {t : Terminator} {v : ValueId}

variable {f : Function}

/-! ## The number of jumps -/

def isJump (b : BasicBlock) : Bool :=
  match b.terminator with
  | some (.branch _ _) => true
  | _ => false

/-- Each round lowers the number of blocks that end in a jump. -/
def jumps (f : Function) : Nat := f.blocks.countP isJump

theorem jumps_le (f) : jumps f ≤ f.blocks.length := countP_le_length

/-! ## Rewriting the blocks in their places -/

def rewritten (f : Function) (φ : BasicBlock → BasicBlock) : Function := { f with blocks := f.blocks.map φ }

theorem modifyBlock_eq (hnd : f.BlocksNodup) (b) (g : BasicBlock → BasicBlock) :
    f.modifyBlock b g = rewritten f fun blk => if blk.id = b then g blk else blk := by
  rw [rewritten, ← modifyBlock_blocks hnd]
  rfl

section Rewritten

variable {φ : BasicBlock → BasicBlock} (hφ : ∀ b, (φ b).id = b.id ∧ (φ b).params = b.params)

include hφ

theorem tryBlock_rewritten (b) : (rewritten f φ).tryBlock b = (f.tryBlock b).map φ :=
  tryBlock_map (fun b => (hφ b).1) b

theorem params_rewritten (d) : (rewritten f φ).KeepsParams f d := by
  rw [KeepsParams, tryBlock_rewritten hφ, Option.map_map]
  congr 1
  funext b
  exact (hφ b).2

theorem ids_rewritten : (rewritten f φ).blocks.map (·.id) = f.blocks.map (·.id) := by
  rw [rewritten, List.map_map]
  exact map_congr_left fun b _ => (hφ b).1

theorem edge_rewritten {a b} (h : (rewritten f φ).Edge a b) : ∃ blk, f.tryBlock a = some blk ∧ b ∈ (φ blk).targets := by
  unfold Function.Edge successors at h
  rw [tryBlock_rewritten hφ] at h
  cases hb : f.tryBlock a with
  | none => simp [hb] at h
  | some blk =>
    rw [hb] at h
    exact ⟨blk, rfl, h⟩

end Rewritten

/-! ## Jumps without arguments -/

theorem exists_target (h : f.Live) (hb : b ∈ f.blocks) (ht : b.terminator = some (.branch d [])) : ∃ blk ∈ f.blocks,
    blk.id = d ∧ f.tryBlock d = some blk ∧ blk.params = [] := by
  have had := h.admits hb ht
  obtain ⟨blk, hblk⟩ := isSome_iff_exists.mp (had.targets d (mem_singleton_self d)).1
  obtain ⟨hmem, hid⟩ := mem_blocks_of_tryBlock hblk
  have hargs := checkBranchArgs_of_arms (had.branchTypes b.name) (mem_singleton_self (d, []))
  have hlen := (checkBranchArgs_eq_nil.mp hargs blk.params (by rw [hblk]; rfl)).1
  exact ⟨blk, hmem, hid, hblk, length_eq_zero_iff.mp hlen⟩

theorem enter_nil {blk} (hd : f.tryBlock d = some blk) (hps : blk.params = []) (σ) : f.enter d [] σ = .running d σ := by
  simp [enter, hd, hps, bindParams]

/-! ## Skipping an empty block -/

theorem redirectTerminator_uses (old new t) : (redirectTerminator old new t).uses = t.uses := by
  cases t <;> rfl

theorem mem_targets_redirectTerminator {old new d}
    (h : d ∈ (redirectTerminator old new t).targets) : (d ∈ t.targets ∧ d ≠ old) ∨ (d = new ∧ old ∈ t.targets) := by
  have hone : ∀ e ∈ t.targets, d = (if e = old then new else e) → (d ∈ t.targets ∧ d ≠ old) ∨ (d = new ∧ old ∈ t.targets) := by
    intro e he hd
    split at hd
    · next heq => exact .inr ⟨hd, heq ▸ he⟩
    · next hne => exact .inl (hd ▸ ⟨he, hne⟩)
  cases t with
  | «return» v => cases h
  | unreachable => cases h
  | branch dest args => exact hone dest mem_cons_self (mem_singleton.mp h)
  | condBranch c td ta fd fa =>
    simp only [redirectTerminator, targets, mem_cons, not_mem_nil, or_false] at h
    rcases h with h | h
    · exact hone td (by simp [targets]) h
    · exact hone fd (by simp [targets]) h
  | switch s cases default =>
    simp only [redirectTerminator, targets, List.map_map, mem_append, List.mem_map,
      comp_apply, mem_singleton] at h
    rcases h with ⟨c, hc, h⟩ | h
    · exact hone c.2 (mem_append_left _ (List.mem_map_of_mem hc)) h.symm
    · exact hone default (by simp [targets]) h

theorem checkSelector_retarget (φ : BlockId → BlockId) (sel) (cases : List (Int × BlockId)) :
    f.checkSelector sel (cases.map fun c => (c.1, φ c.2)) = f.checkSelector sel cases := by
  simp only [checkSelector, flatMap_map]

theorem switchDest_redirect (old new) (cases : List (Int × BlockId)) (default x) :
    switchDest (cases.map fun c => (c.1, if c.2 = old then new else c.2)) (if default = old then new else default) x =
      if switchDest cases default x = old then new else switchDest cases default x := by
  have hfind : (cases.map fun c => (c.1, if c.2 = old then new else c.2)).find? (·.1 == x) =
      (cases.find? (·.1 == x)).map fun c => (c.1, if c.2 = old then new else c.2) := by
    rw [find?_map]
    rfl
  unfold switchDest
  rw [hfind]
  cases cases.find? (·.1 == x) <;> rfl

/-- The block is empty, may be skipped, and leads to `target`. -/
structure Forwards (f : Function) (empty : BasicBlock) (target : BlockId) : Prop where
  mem : empty ∈ f.blocks
  notEntry : empty.id ≠ f.entry
  insts : empty.insts = []
  params : empty.params = []
  term : empty.terminator = some (.branch target [])
  ne : target ≠ empty.id

theorem forwardsTo_eq_some {preheaders target} (hb : b ∈ f.blocks)
    (h : forwardsTo f preheaders b = some target) : Forwards f b target := by
  unfold forwardsTo at h
  split at h
  · cases h
  · next hno =>
    simp only [not_or, not_not] at hno
    obtain ⟨hentry, -, hinsts, hparams⟩ := hno
    split at h
    · next t ht =>
      split at h
      · next hne =>
        simp only [some.injEq] at h
        subst h
        exact ⟨hb, hentry, hinsts, hparams, ht, hne⟩
      · cases h
    · cases h

def skipping (empty target : BlockId) (b : BasicBlock) : BasicBlock :=
  if b.id = empty then { b with terminator := some .unreachable }
  else { b with terminator := b.terminator.map (redirectTerminator empty target) }

theorem skipping_fields (empty target b) :
    (skipping empty target b).id = b.id ∧ (skipping empty target b).params = b.params ∧
      (skipping empty target b).insts = b.insts := by
  unfold skipping
  split <;> exact ⟨rfl, rfl, rfl⟩

theorem skipBlock_eq (hnd : f.BlocksNodup) (empty target) :
    skipBlock f empty target = rewritten f (skipping empty target) := by
  unfold skipBlock
  rw [modifyBlock_eq]
  · simp only [rewritten, List.map_map, mk.injEq, true_and, and_true]
    refine map_congr_left fun b _ => ?_
    simp only [comp_apply, skipping]
    by_cases hb : b.id = empty <;> simp [hb]
  · rw [BlocksNodup, List.map_map]
    refine (congrArg List.Nodup (map_congr_left fun b _ => ?_)).mp hnd
    simp only [comp_apply]
    split <;> rfl

section Skip

variable {empty : BasicBlock} {target : BlockId} (h : f.Live) (hw : Forwards f empty target)

include h hw

theorem Forwards.args_nil (hadm : f.Admits t) {args} (harm : (empty.id, args) ∈ t.arms) : args = [] := by
  have hargs := checkBranchArgs_of_arms (hadm.branchTypes empty.name) harm
  have hlen := (checkBranchArgs_eq_nil.mp hargs empty.params (by rw [tryBlock_id h.blocksNodup hw.mem]; rfl)).1
  rw [hw.params] at hlen
  exact length_eq_zero_iff.mp hlen.symm

theorem Forwards.execBlock_empty (T W σ) : f.execBlock T W empty.id σ = .running target σ := by
  obtain ⟨blk, -, -, htry, hps⟩ := exists_target h hw.mem hw.term
  unfold Function.execBlock
  rw [tryBlock_id h.blocksNodup hw.mem]
  simp only [hw.insts, execInsts, hw.term, execTerm]
  exact enter_nil htry hps σ

theorem Forwards.execTerm (T W) (hadm : f.Admits t) (σ) :
    f.execTerm T (redirectTerminator empty.id target t) σ = f.execTerm T t σ ∨
    f.execTerm T (redirectTerminator empty.id target t) σ = f.step T W (f.execTerm T t σ) := by
  have henter : ∀ d args, (d, args) ∈ t.arms →
      f.enter (if d = empty.id then target else d) args σ = f.enter d args σ ∨
      f.enter (if d = empty.id then target else d) args σ = f.step T W (f.enter d args σ) := by
    intro d args harm
    split
    · next heq =>
      subst heq
      obtain rfl := hw.args_nil h hadm harm
      obtain ⟨blk, -, -, htry, hps⟩ := exists_target h hw.mem hw.term
      rw [enter_nil htry hps, enter_nil (tryBlock_id h.blocksNodup hw.mem) hw.params]
      exact .inr (hw.execBlock_empty h T W σ).symm
    · exact .inl rfl
  cases t with
  | «return» v => exact .inl rfl
  | unreachable => exact .inl rfl
  | branch d args => exact henter d args (mem_singleton_self _)
  | condBranch c td ta fd fa =>
    simp only [redirectTerminator, execTerm]
    split
    · exact henter td ta (by simp [arms])
    · exact henter fd fa (by simp [arms])
    · exact .inl rfl
  | switch s cases default =>
    simp only [redirectTerminator, execTerm]
    split
    · next w x hs =>
      rw [switchDest_redirect]
      have htk : Takes T σ.env (.switch s cases default) _ _ := .switch cases default w hs
      exact henter _ _ htk.mem_arms
    · exact .inl rfl

theorem Forwards.execBlock (T W) {b} (hb : b ≠ empty.id) (σ) :
    (rewritten f (skipping empty.id target)).execBlock T W b σ = f.execBlock T W b σ ∨
    (rewritten f (skipping empty.id target)).execBlock T W b σ = f.step T W (f.execBlock T W b σ) := by
  have hφ := fun b => And.intro (skipping_fields empty.id target b).1 (skipping_fields empty.id target b).2.1
  unfold Function.execBlock
  rw [tryBlock_rewritten hφ]
  cases hblk : f.tryBlock b with
  | none => exact .inl rfl
  | some blk =>
    obtain ⟨hmem, rfl⟩ := mem_blocks_of_tryBlock hblk
    obtain ⟨t, ht⟩ := isSome_iff_exists.mp (h.terminated blk hmem)
    simp only [map_some, skipping, if_neg hb, ht]
    cases he : execInsts T W blk.insts σ with
    | halt why tr => exact .inl rfl
    | ok σ₁ =>
      dsimp only
      rw [execTerm_params (f := f) (params_rewritten hφ)]
      exact hw.execTerm h T W (h.admits hmem ht) σ₁

/-! ### Paths -/

theorem Forwards.edge {a b} (he : (rewritten f (skipping empty.id target)).Edge a b) :
    a ≠ empty.id ∧ b ≠ empty.id ∧ (f.Edge a b ∨ (b = target ∧ f.Edge a empty.id ∧ f.Edge empty.id target)) := by
  obtain ⟨blk, hblk, hmem⟩ := edge_rewritten (fun b => ⟨(skipping_fields _ _ b).1, (skipping_fields _ _ b).2.1⟩) he
  obtain ⟨hb, rfl⟩ := mem_blocks_of_tryBlock hblk
  obtain ⟨t, ht⟩ := isSome_iff_exists.mp (h.terminated blk hb)
  by_cases hid : blk.id = empty.id
  · simp [skipping, hid, BasicBlock.targets, targets] at hmem
  · simp only [skipping, if_neg hid, BasicBlock.targets, ht, map_some] at hmem
    have hout : ∀ d, d ∈ t.targets → f.Edge blk.id d := by
      intro d hd
      simpa only [Function.Edge, successors, hblk, BasicBlock.targets, ht] using hd
    refine ⟨hid, ?_⟩
    rcases mem_targets_redirectTerminator hmem with ⟨hd, hne⟩ | ⟨rfl, hd⟩
    · exact ⟨hne, .inl (hout b hd)⟩
    · refine ⟨hw.ne, .inr ⟨rfl, hout _ hd, ?_⟩⟩
      simp [Function.Edge, successors, tryBlock_id h.blocksNodup hw.mem, BasicBlock.targets, hw.term,
        targets]

theorem Forwards.samples (L : Launch) : L.Samples f (rewritten f (skipping empty.id target)) := by
  refine Launch.samples_of_blocks (K := (· ≠ empty.id)) rfl hw.notEntry.symm ?_ fun b σ hb =>
    hw.execBlock h L.target L.world hb σ
  intro b b' σ σ' _ hrun
  exact (hw.edge h (edge_of_execBlock hrun)).2.1

theorem Forwards.reachable {b} (hr : (rewritten f (skipping empty.id target)).Reachable b) : f.Reachable b := by
  induction hr with
  | refl => exact .refl
  | tail _ hab ih =>
    rcases (hw.edge h hab).2.2 with hab | ⟨rfl, hae, het⟩
    · exact ih.tail hab
    · exact (ih.tail hae).tail het

theorem Forwards.dom {d b} (hd : d ≠ empty.id) (hdom : f.Dom d b) :
    (rewritten f (skipping empty.id target)).Dom d b := by
  refine fun havoid => hdom ?_
  clear hdom
  induction havoid with
  | root hne => exact .root hne
  | step _ hab hne ih =>
    rcases (hw.edge h hab).2.2 with hab | ⟨rfl, hae, het⟩
    · exact .step ih hab hne
    · exact .step (.step ih hae hd.symm) het hne

/-! ### Uses -/

omit h hw in
theorem defIn_of_skipping (hd : (rewritten f (skipping empty.id target)).DefIn v d) : f.DefIn v d := by
  cases hd with
  | param hp e => exact .param hp e
  | blockParam hb hp e =>
    obtain ⟨b₀, hb₀, rfl⟩ := List.mem_map.mp hb
    rw [(skipping_fields _ _ b₀).1]
    exact .blockParam hb₀ ((skipping_fields _ _ b₀).2.1 ▸ hp) e
  | inst hb hi e =>
    obtain ⟨b₀, hb₀, rfl⟩ := List.mem_map.mp hb
    rw [(skipping_fields _ _ b₀).1]
    exact .inst hb₀ ((skipping_fields _ _ b₀).2.2 ▸ hi) e

theorem Forwards.not_defIn (hd : f.DefIn v d) : d ≠ empty.id := by
  intro hid
  cases hd with
  | param _ _ => exact hw.notEntry hid.symm
  | blockParam hb hp _ =>
    obtain rfl := inj_on_of_nodup_map h.blocksNodup hb hw.mem hid
    simp [hw.params] at hp
  | inst hb hi _ =>
    obtain rfl := inj_on_of_nodup_map h.blocksNodup hb hw.mem hid
    simp [hw.insts] at hi

theorem Forwards.useOk (hr : (rewritten f (skipping empty.id target)).Reachable b.id)
    {k} (hu : f.UseOk b v k) : (rewritten f (skipping empty.id target)).UseOk (skipping empty.id target b) v k where
  sameBlock := by
    rw [(skipping_fields _ _ b).2.2]
    exact hu.sameBlock
  across := by
    intro d hd hne
    rw [(skipping_fields _ _ b).1] at hne ⊢
    have hd' := defIn_of_skipping hd
    have hdom := hw.dom h (hw.not_defIn h hd') (hu.across d hd' hne).2.2
    exact ⟨hdom.reachable hr, hr, hdom⟩

theorem Forwards.admits (hadm : f.Admits t) : f.Admits (redirectTerminator empty.id target t) where
  uses v hv := hadm.uses v (redirectTerminator_uses _ _ t ▸ hv)
  branchTypes nm := by
    obtain ⟨blk, -, -, htry, hps⟩ := exists_target h hw.mem hw.term
    have hone : ∀ d args, (d, args) ∈ t.arms →
        f.checkBranchArgs nm (if d = empty.id then target else d) args = [] := by
      intro d args harm
      split
      · next heq =>
        subst heq
        rw [hw.args_nil h hadm harm, checkBranchArgs_eq_nil, htry, map_some, hps]
        simp
      · exact checkBranchArgs_of_arms (hadm.branchTypes nm) harm
    have hswitch : ∀ role d, (d, []) ∈ t.arms →
        f.checkSwitchTarget role (if d = empty.id then target else d) = [] := by
      intro role d harm
      refine checkSwitchTarget_eq_nil.mpr fun ps hps => length_eq_zero_iff.mp ?_
      exact (checkBranchArgs_eq_nil.mp (hone d [] harm) ps hps).1
    have hold := hadm.branchTypes nm
    cases t with
    | «return» v => rfl
    | unreachable => rfl
    | branch d args => exact hone d args (mem_singleton_self _)
    | condBranch c td ta fd fa =>
      simp only [redirectTerminator, checkBranchTypes, append_eq_nil_iff] at hold ⊢
      exact ⟨⟨hold.1.1, hone td ta (by simp [arms])⟩, hone fd fa (by simp [arms])⟩
    | switch s cases default =>
      simp only [redirectTerminator, checkBranchTypes, append_eq_nil_iff, flatMap_eq_nil_iff,
        List.forall_mem_map] at hold ⊢
      rw [checkSelector_retarget (fun d => if d = empty.id then target else d)]
      exact ⟨⟨hold.1.1, hswitch _ default (by simp [arms])⟩,
        fun c hc => hswitch _ c.2 (mem_append_left _ (List.mem_map_of_mem hc))⟩
  returnType nm := by
    have hold := hadm.returnType nm
    cases t <;> exact hold
  targets d hd := by
    rcases mem_targets_redirectTerminator hd with ⟨hd, -⟩ | ⟨rfl, -⟩
    · exact hadm.targets d hd
    · exact (h.admits hw.mem hw.term).targets d (mem_singleton_self d)

theorem Forwards.live : (rewritten f (skipping empty.id target)).Live := by
  have hfields := skipping_fields empty.id target
  have hφ := fun b => And.intro (hfields b).1 (hfields b).2.1
  refine h.rebuild rfl rfl rfl (ids_rewritten hφ) (params_rewritten hφ) (.of_eq ?_) ?_ ?_ ?_ ?_
  · simp only [definitions, rewritten, flatMap_map, hfields]
  · intro b hb i hi
    obtain ⟨b₀, hb₀, rfl⟩ := List.mem_map.mp hb
    exact mem_flatMap.mpr ⟨b₀, hb₀, (hfields b₀).2.2 ▸ hi⟩
  · intro b hb
    obtain ⟨b₀, hb₀, rfl⟩ := List.mem_map.mp hb
    obtain ⟨t, ht⟩ := isSome_iff_exists.mp (h.terminated b₀ hb₀)
    unfold skipping
    split
    · exact ⟨_, rfl, .unreachable⟩
    · exact ⟨_, congrArg (Option.map _) ht, hw.admits h (h.admits hb₀ ht)⟩
  · intro b hb hr k i hi v hv
    obtain ⟨b₀, hb₀, rfl⟩ := List.mem_map.mp hb
    rw [(hfields b₀).1] at hr
    rw [(hfields b₀).2.2] at hi
    exact hw.useOk h hr (h.instUses b₀ hb₀ (hw.reachable h hr) k i hi v hv)
  · intro b hb hr t ht v hv
    obtain ⟨b₀, hb₀, rfl⟩ := List.mem_map.mp hb
    rw [(hfields b₀).1] at hr
    rw [(hfields b₀).2.2]
    unfold skipping at ht
    split at ht
    · obtain rfl := some.inj ht
      cases hv
    · obtain ⟨t₀, ht₀, rfl⟩ := map_eq_some_iff.mp ht
      rw [redirectTerminator_uses] at hv
      exact hw.useOk h hr (h.termUses b₀ hb₀ (hw.reachable h hr) t₀ ht₀ v hv)

omit h in
theorem Forwards.jumps_lt : jumps (rewritten f (skipping empty.id target)) < jumps f := by
  refine countP_map_lt (fun b _ hb => ?_) hw.mem (by simp [isJump, hw.term]) (by simp [skipping, isJump])
  unfold skipping at hb
  split at hb
  · cases hb
  · unfold isJump at hb ⊢
    cases ht : b.terminator with
    | none => simp [ht] at hb
    | some t => cases t <;> simp_all [redirectTerminator]

end Skip

end Armfortas.Opt.SimplifyCfg
