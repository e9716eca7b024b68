import Armfortas.Opt.Lemmas.JumpThreadSound

/-! A path of the redirected function becomes a path of the original by putting the skipped joins back. A join defines
nothing that is used elsewhere, so dominance of definitions over uses carries over. -/
namespace Armfortas.Opt.JumpThread
open Ir Lib List Option Function

variable {t : Terminator} {new : BlockId × List ValueId} {v : ValueId} {b : BasicBlock} {d : BlockId}
  {args : List ValueId} {join : BasicBlock} {s : JoinShape} {c : Bool}

variable {f : Function}

theorem mem_arms_threadTerm (h : new ∈ (threadTerm f t).arms) :
    new ∈ t.arms ∨ ∃ d args, (d, args) ∈ t.arms ∧ threadOf f d args = some new := by
  have hone : ∀ d args, (d, args) ∈ t.arms → new = threaded f d args →
      new ∈ t.arms ∨ ∃ d args, (d, args) ∈ t.arms ∧ threadOf f d args = some new := by
    rintro d args hmem rfl
    rcases threaded_cases (f := f) d args with e | e
    · exact .inl (e ▸ hmem)
    · exact .inr ⟨d, args, hmem, e⟩
  cases t with
  | branch d args => exact hone d args (by simp [Terminator.arms]) (by simpa [Terminator.arms, threadTerm] using h)
  | condBranch c td ta fd fa =>
    simp only [threadTerm] at h
    split at h
    · exact .inl h
    · simp only [Terminator.arms, mem_cons, not_mem_nil, or_false] at h
      rcases h with h | h
      · exact hone td ta (by simp [Terminator.arms]) h
      · exact hone fd fa (by simp [Terminator.arms]) h
  | _ => exact .inl h

theorem mem_uses_threadTerm (h : v ∈ (threadTerm f t).uses) :
    v ∈ t.uses ∨ ∃ d args new, (d, args) ∈ t.arms ∧ threadOf f d args = some new ∧ v ∈ new.2 := by
  have hone : ∀ d args, (d, args) ∈ t.arms → v ∈ (threaded f d args).2 →
      v ∈ t.uses ∨ ∃ d args new, (d, args) ∈ t.arms ∧ threadOf f d args = some new ∧ v ∈ new.2 := by
    intro d args hmem hv
    rcases threaded_cases (f := f) d args with e | e
    · rw [e] at hv
      exact .inl (Terminator.mem_uses_of_arms hmem hv)
    · exact .inr ⟨d, args, _, hmem, e, hv⟩
  cases t with
  | branch d args => exact hone d args (by simp [Terminator.arms]) (by simpa [threadTerm, Terminator.uses] using h)
  | condBranch c td ta fd fa =>
    simp only [threadTerm] at h
    split at h
    · exact .inl h
    · simp only [Terminator.uses, mem_cons, mem_append] at h
      rcases h with rfl | h | h
      · exact .inl (by simp [Terminator.uses])
      · exact hone td ta (by simp [Terminator.arms]) h
      · exact hone fd fa (by simp [Terminator.arms]) h
  | _ => exact .inl h

/-! ## Paths -/

def IsJoin (f : Function) (d : BlockId) : Prop := ∃ join ∈ f.blocks, ∃ s, joinShape f join = some s ∧ join.id = d

section Paths

variable (hnd : f.BlocksNodup)
include hnd

theorem edge_of_arms (hb : b ∈ f.blocks) (ht : b.terminator = some t) (h : (d, args) ∈ t.arms) : f.Edge b.id d := by
  rw [Function.Edge, Function.successors, Function.tryBlock_id hnd hb]
  simp only [BasicBlock.targets, ht, ← Terminator.map_fst_arms]
  exact List.mem_map_of_mem h

theorem Bypass.edge (hby : Bypass f join s args new c) : f.Edge join.id new.1 := by
  obtain ⟨-, -, hterm, -⟩ := joinShape_eq_some hby.shape
  have harm : (new.1, (s.arm c).2) ∈
      (Terminator.condBranch s.cond s.trueArm.1 s.trueArm.2 s.falseArm.1 s.falseArm.2).arms := by
    rw [hby.dest]
    cases c <;> simp [Terminator.arms, JoinShape.arm]
  exact edge_of_arms hnd hby.mem hterm harm

theorem edge_after {a b : BlockId} (h : (after f).Edge a b) :
    f.Edge a b ∨ ∃ j, IsJoin f j ∧ f.Edge a j ∧ f.Edge j b := by
  unfold Function.Edge Function.successors at h
  rw [after_tryBlock] at h
  cases ha : f.tryBlock a with
  | none => simp [ha] at h
  | some blk =>
    obtain ⟨hmem, rfl⟩ := Function.mem_blocks_of_tryBlock ha
    cases ht : blk.terminator with
    | none => simp [ha, threadBlock, BasicBlock.targets, ht] at h
    | some t =>
      simp only [ha, map_some, threadBlock, BasicBlock.targets, ht, ← Terminator.map_fst_arms] at h
      obtain ⟨new, hnew, rfl⟩ := List.mem_map.mp h
      rcases mem_arms_threadTerm hnew with hold | ⟨d, args, harm, hthr⟩
      · exact .inl (edge_of_arms hnd hmem ht hold)
      · obtain ⟨join, s, c, hjoin, hby⟩ := threadOf_eq_some hthr
        obtain ⟨-, rfl⟩ := Function.mem_blocks_of_tryBlock hjoin
        exact .inr ⟨join.id, ⟨join, hby.mem, s, hby.shape, rfl⟩, edge_of_arms hnd hmem ht harm, hby.edge hnd⟩

theorem reachable_of_after {b : BlockId} (h : (after f).Reachable b) :
    f.Reachable b := by
  induction h with
  | refl => exact .refl
  | tail _ hab ih =>
    rcases edge_after hnd hab with hab | ⟨j, -, haj, hjb⟩
    · exact ih.tail hab
    · exact (ih.tail haj).tail hjb

theorem avoids_of_after {d b : BlockId} (hd : ¬ IsJoin f d)
    (h : Avoids (after f).Edge f.entry d b) : Avoids f.Edge f.entry d b := by
  induction h with
  | root hne => exact .root hne
  | step _ hab hne ih =>
    rcases edge_after hnd hab with hab | ⟨j, hj, haj, hjb⟩
    · exact .step ih hab hne
    · exact .step (.step ih haj fun e => hd (e ▸ hj)) hjb hne

theorem dom_after {d b : BlockId} (hd : ¬ IsJoin f d) (h : f.Dom d b) :
    (after f).Dom d b := fun havoid => h (avoids_of_after hnd hd havoid)

end Paths

/-! ## Definitions -/

theorem after_definitions : (after f).definitions = f.definitions := by
  simp [definitions, after, flatMap_map, threadBlock]

theorem after_params (d : BlockId) : (after f).KeepsParams f d := by
  rw [KeepsParams, after_tryBlock, Option.map_map]
  rfl

theorem mem_after (h : b ∈ (after f).blocks) : ∃ b₀ ∈ f.blocks, b = threadBlock f b₀ := by
  obtain ⟨b₀, hb₀, rfl⟩ := List.mem_map.mp h
  exact ⟨b₀, hb₀, rfl⟩

theorem after_defIn (h : (after f).DefIn v d) : f.DefIn v d := by
  cases h with
  | param hp e => exact .param hp e
  | blockParam hb hp e =>
    obtain ⟨b₀, hb₀, rfl⟩ := mem_after hb
    have hd : f.DefIn v b₀.id := .blockParam hb₀ hp e
    exact hd
  | inst hb hi e =>
    obtain ⟨b₀, hb₀, rfl⟩ := mem_after hb
    have hd : f.DefIn v b₀.id := .inst hb₀ hi e
    exact hd

theorem param_of_defIn_join (h : f.Live) (hjoin : join ∈ f.blocks)
    (hs : joinShape f join = some s) (hd : f.DefIn v d) (hid : join.id = d) :
    ∃ p ∈ join.params, p.id = v := by
  obtain ⟨hinsts, -, -, p, hp, -⟩ := joinShape_eq_some hs
  cases hd with
  | param hq e =>
    obtain ⟨entry, hentry, hparams⟩ := h.entryBlock
    obtain ⟨hmem, heid⟩ := Function.mem_blocks_of_tryBlock hentry
    have : join = entry := inj_on_of_nodup_map h.blocksNodup hjoin hmem (hid.trans heid.symm)
    subst this
    simp [hparams] at hp
  | @blockParam blk q hc hq e =>
    have : join = blk := inj_on_of_nodup_map h.blocksNodup hjoin hc hid
    subst this
    exact ⟨q, hq, e⟩
  | @inst blk i hc hi e =>
    have : join = blk := inj_on_of_nodup_map h.blocksNodup hjoin hc hid
    subst this
    simp [hinsts] at hi

theorem not_isJoin_of_use (h : f.Live) (hd : f.DefIn v d)
    (hb : b ∈ f.blocks) (hv : v ∈ BasicBlock.uses b) (hne : d ≠ b.id) : ¬ IsJoin f d := by
  rintro ⟨join, hjoin, s, hs, hid⟩
  obtain ⟨p, hp, hpv⟩ := param_of_defIn_join h hjoin hs hd hid
  exact param_ne_of_use hs hb (hid ▸ hne) hv hp hpv

/-! ## Uses -/

theorem useOk_after (h : f.Live) (hr : (after f).Reachable b.id)
    {k : Nat} (hjoin : ∀ d, f.DefIn v d → d ≠ b.id → ¬ IsJoin f d) (hu : f.UseOk b v k) :
    (after f).UseOk (threadBlock f b) v k where
  sameBlock := hu.sameBlock
  across := by
    intro d hd hne
    have hd' := after_defIn hd
    have hdom := dom_after h.blocksNodup (hjoin d hd' hne) (hu.across d hd' hne).2.2
    exact ⟨hdom.reachable hr, hr, hdom⟩

theorem useOk_redirected (h : f.Live) (hb : b ∈ f.blocks) (hr : (after f).Reachable b.id)
    (ht : b.terminator = some t) (harm : (join.id, args) ∈ t.arms) (hby : Bypass f join s args new c)
    (hv : v ∈ new.2) : (after f).UseOk (threadBlock f b) v b.insts.length := by
  have hrf := reachable_of_after h.blocksNodup hr
  rcases hby.mem_new hv with hv | ⟨hv, hno⟩
  · have huse := Terminator.mem_uses_of_arms harm hv
    exact useOk_after h hr (fun d hd hne => not_isJoin_of_use h hd hb (mem_uses_of_terminator ht huse) hne)
      (h.termUses b hb hrf t ht v huse)
  · obtain ⟨hinsts, -, hterm, -⟩ := joinShape_eq_some hby.shape
    have hedge := edge_of_arms h.blocksNodup hb ht harm
    have hjuse : f.UseOk join v join.insts.length :=
      h.termUses join hby.mem (hrf.tail hedge) _ hterm v (by cases c <;> simp_all [Terminator.uses, JoinShape.arm])
    refine ⟨fun k i hi _ => (List.getElem?_eq_some_iff.mp hi).1, fun d hd hne => ?_⟩
    have hd' := after_defIn hd
    -- the definition is not in the join, which binds other parameters only
    have hdj : d ≠ join.id := by
      rintro rfl
      obtain ⟨p, hp, hpv⟩ := param_of_defIn_join h hby.mem hby.shape hd' rfl
      exact hno p hp hpv
    have hnj := not_isJoin_of_use h hd' hby.mem (hby.arm_uses hv) hdj
    have hdom := dom_after h.blocksNodup hnj ((hjuse.across d hd' hdj).2.2.pred (Ne.symm hdj) hedge)
    exact ⟨hdom.reachable hr, hr, hdom⟩

/-! ## Types -/

theorem checkBranchArgs_redirected (h : f.Live) (hb : b ∈ f.blocks)
    (ht : b.terminator = some t) (harm : (join.id, args) ∈ t.arms) (hby : Bypass f join s args new c) :
    f.checkBranchArgs b.name new.1 new.2 = [] := by
  have hto := checkBranchArgs_eq_nil.mp (checkBranchArgs_of_arms (h.branchTypes b hb t ht) harm) join.params
    (by rw [Function.tryBlock_id h.blocksNodup hby.mem]; rfl)
  obtain ⟨-, -, hterm, -⟩ := joinShape_eq_some hby.shape
  have hfrom : f.checkBranchArgs join.name (s.arm c).1 (s.arm c).2 = [] :=
    checkBranchArgs_of_arms (h.branchTypes join hby.mem _ hterm) (by cases c <;> simp [Terminator.arms, JoinShape.arm])
  refine checkBranchArgs_eq_nil.mpr fun ps hps => ?_
  rw [hby.dest] at hps
  obtain ⟨hlen, htypes⟩ := checkBranchArgs_eq_nil.mp hfrom ps hps
  refine ⟨hlen.trans (length_of_mapM hby.forwards).symm, fun k p a hp ha ty hty => ?_⟩
  rw [getElem?_of_mapM hby.forwards] at ha
  obtain ⟨a₀, ha₀, hfwd⟩ := bind_eq_some_iff.mp ha
  unfold forwardArg at hfwd
  split at hfwd
  · next idx hidx =>
    obtain ⟨hlt, hq, -⟩ := findIdx?_eq_some_iff_getElem.mp hidx
    have hq₀ : f.valueType a₀ = some join.params[idx].ty := by
      rw [← eq_of_beq hq]
      exact valueType_blockParam h.valuesNodup hby.mem (getElem_mem hlt)
    rw [hto.2 idx _ a (getElem?_eq_getElem hlt) hfwd ty hty]
    exact htypes k p a₀ hp ha₀ _ hq₀
  · simp only [some.injEq] at hfwd
    subst hfwd
    exact htypes k p a₀ hp ha₀ ty hty

theorem checkBranchTypes_threadTerm (h : f.Live) (hb : b ∈ f.blocks)
    (ht : b.terminator = some t) : f.checkBranchTypes b.name (threadTerm f t) = [] := by
  have hold := h.branchTypes b hb t ht
  have hone : ∀ d args, (d, args) ∈ t.arms →
      f.checkBranchArgs b.name (threaded f d args).1 (threaded f d args).2 = [] := by
    intro d args harm
    rcases threaded_cases (f := f) d args with e | e
    · rw [e]
      exact checkBranchArgs_of_arms hold harm
    · obtain ⟨join, s, c, hjoin, hby⟩ := threadOf_eq_some e
      obtain ⟨-, rfl⟩ := Function.mem_blocks_of_tryBlock hjoin
      exact checkBranchArgs_redirected h hb ht harm hby
  cases t with
  | branch d args => exact hone d args (by simp [Terminator.arms])
  | condBranch c td ta fd fa =>
    simp only [threadTerm]
    split
    · exact hold
    · simp only [checkBranchTypes, append_eq_nil_iff] at hold ⊢
      exact ⟨⟨hold.1.1, hone td ta (by simp [Terminator.arms])⟩, hone fd fa (by simp [Terminator.arms])⟩
  | _ => exact hold

/-! ## The whole check -/

theorem target_after (hb : b ∈ f.blocks) (hd : d ∈ (threadBlock f b).targets) :
    ∃ c ∈ f.blocks, d ∈ c.targets := by
  cases ht : b.terminator with
  | none => simp [threadBlock, BasicBlock.targets, ht] at hd
  | some t =>
    simp only [threadBlock, BasicBlock.targets, ht, map_some, ← Terminator.map_fst_arms] at hd
    obtain ⟨new, hnew, rfl⟩ := List.mem_map.mp hd
    rcases mem_arms_threadTerm hnew with hold | ⟨d, args, harm, hthr⟩
    · refine ⟨b, hb, ?_⟩
      simp only [BasicBlock.targets, ht, ← Terminator.map_fst_arms]
      exact List.mem_map_of_mem hold
    · obtain ⟨join, s, c, hjoin, hby⟩ := threadOf_eq_some hthr
      obtain ⟨-, -, hterm, -⟩ := joinShape_eq_some hby.shape
      refine ⟨join, hby.mem, ?_⟩
      rw [hby.dest]
      cases c <;> simp [BasicBlock.targets, hterm, Terminator.targets, JoinShape.arm]

theorem admits_after (h : f.Live) (hb : b ∈ f.blocks) (ht : b.terminator = some t) :
    f.Admits (threadTerm f t) where
  uses v hv := by
    rcases mem_uses_threadTerm hv with hold | ⟨d, args, new, harm, hthr, hv⟩
    · exact h.termUsesDefined b hb t ht v hold
    · obtain ⟨join, s, c, hjoin, hby⟩ := threadOf_eq_some hthr
      obtain ⟨-, -, hterm, -⟩ := joinShape_eq_some hby.shape
      rcases hby.mem_new hv with hv | ⟨hv, -⟩
      · exact h.termUsesDefined b hb t ht v (Terminator.mem_uses_of_arms harm hv)
      · exact h.termUsesDefined join hby.mem _ hterm v (by cases c <;> simp_all [Terminator.uses, JoinShape.arm])
  branchTypes _ := Function.checkBranchTypes_congr (fun _ _ => rfl) (fun _ _ => rfl) (checkBranchTypes_threadTerm h hb ht)
  returnType nm := by
    cases t with
    | condBranch c td ta fd fa =>
      simp only [threadTerm]
      split <;> rfl
    | _ => exact (h.admits hb ht).returnType nm
  targets d hd := by
    obtain ⟨c, hc, hd⟩ := target_after hb (by simpa only [BasicBlock.targets, threadBlock, ht, map_some] using hd)
    exact ⟨h.targets c hc d hd, fun e => h.entryNotTarget c hc (e ▸ hd)⟩

theorem live_after (h : f.Live) : (after f).Live := by
  refine h.rebuild rfl rfl rfl ?_ after_params (.of_eq after_definitions) ?_ ?_ ?_ ?_
  · rw [after, List.map_map]
    rfl
  · intro b hb i hi
    obtain ⟨b₀, hb₀, rfl⟩ := mem_after hb
    exact mem_flatMap.mpr ⟨b₀, hb₀, hi⟩
  · intro b hb
    obtain ⟨b₀, hb₀, rfl⟩ := mem_after hb
    obtain ⟨t, ht⟩ := isSome_iff_exists.mp (h.terminated b₀ hb₀)
    exact ⟨threadTerm f t, by rw [threadBlock, ht]; rfl, admits_after h hb₀ ht⟩
  · intro b hb hr k i hi v hv
    obtain ⟨b₀, hb₀, rfl⟩ := mem_after hb
    have hi' : i ∈ b₀.insts := mem_of_getElem? hi
    refine useOk_after (b := b₀) h hr (fun d hd hne => ?_)
      (h.instUses b₀ hb₀ (reachable_of_after h.blocksNodup hr) k i hi v hv)
    exact not_isJoin_of_use h hd hb₀ (mem_append_left _ (mem_flatMap.mpr ⟨i, hi', hv⟩)) hne
  · intro b hb hr t ht v hv
    obtain ⟨b₀, hb₀, rfl⟩ := mem_after hb
    obtain ⟨t₀, ht₀, rfl⟩ := map_eq_some_iff.mp ht
    rcases mem_uses_threadTerm hv with hold | ⟨d, args, new, harm, hthr, hv⟩
    · refine useOk_after (b := b₀) h hr (fun d hd hne => ?_)
        (h.termUses b₀ hb₀ (reachable_of_after h.blocksNodup hr) t₀ ht₀ v hold)
      exact not_isJoin_of_use h hd hb₀ (mem_uses_of_terminator ht₀ hold) hne
    · obtain ⟨join, s, c, hjoin, hby⟩ := threadOf_eq_some hthr
      obtain ⟨-, rfl⟩ := Function.mem_blocks_of_tryBlock hjoin
      exact useOk_redirected h hb₀ hr ht₀ harm hby hv

end Armfortas.Opt.JumpThread
