import Armfortas.Opt.Lemmas.SimplifyCfg
import Mathlib.Data.List.Dedup

/-! One round of the second loop moves the contents of a block behind those of the only block that leads to it. What
the block dominated, its predecessor dominates afterwards. -/
namespace Armfortas.Opt.SimplifyCfg
open Ir Lib List Option Function

variable {b : BasicBlock} {v : ValueId} {k : Nat}

variable {f : Function}

structure Merges (f : Function) (P S : BasicBlock) : Prop where
  pred : P ∈ f.blocks
  succ : S ∈ f.blocks
  ne : S.id ≠ P.id
  term : P.terminator = some (.branch S.id [])
  params : S.params = []
  notEntry : S.id ≠ f.entry
  only : ∀ a, f.Edge a S.id → a = P.id

theorem mergesWith_eq_some (h : f.Live) (hb : b ∈ f.blocks) {succ}
    (hm : mergesWith f b = some succ) : ∃ S, S.id = succ ∧ Merges f b S := by
  unfold mergesWith at hm
  split at hm
  · next s ht =>
    split at hm
    · next hc =>
      simp only [some.injEq] at hm
      subst hm
      obtain ⟨hne, hpreds⟩ := hc
      obtain ⟨S, hS, rfl, -, hps⟩ := exists_target h hb ht
      refine ⟨S, rfl, hb, hS, hne, ht, hps, ?_, fun a ha => ?_⟩
      · exact ((h.admits hb ht).targets S.id (mem_singleton_self _)).2
      · have hmem : a ∈ (sortIds (f.predecessors S.id)).dedup := by
          rw [mem_dedup, sortIds, mem_insertionSort]
          exact (mem_predecessors_iff h.blocksNodup).mpr ha
        rw [hpreds] at hmem
        exact mem_singleton.mp hmem
    · cases hm
  · cases hm

def merging (P S b : BasicBlock) : BasicBlock :=
  if b.id = S.id then { b with terminator := some .unreachable, insts := [] }
  else if b.id = P.id then { b with insts := b.insts ++ S.insts, terminator := S.terminator }
  else b

theorem merging_fields (P S b) : (merging P S b).id = b.id ∧ (merging P S b).params = b.params := by
  unfold merging
  split
  · exact ⟨rfl, rfl⟩
  · split <;> exact ⟨rfl, rfl⟩

section Merge

variable {P S : BasicBlock} (h : f.Live) (hm : Merges f P S)

include h hm

theorem Merges.mergeBlocks_eq : mergeBlocks f P.id S.id = rewritten f (merging P S) := by
  have hS := tryBlock_id h.blocksNodup hm.succ
  unfold mergeBlocks
  rw [modifyBlock_eq, modifyBlock_eq h.blocksNodup]
  · simp only [rewritten, List.map_map, mk.injEq, true_and, and_true]
    refine map_congr_left fun b _ => ?_
    simp only [comp_apply, merging, instsOf, terminatorOf, hS, map_some, getD_some,
      bind_some]
    by_cases hb : b.id = P.id
    · have hne : b.id ≠ S.id := hb ▸ hm.ne.symm
      simp [hb, hm.ne.symm]
    · simp [hb]
  · exact nodup_modifyBlock h.blocksNodup P.id fun _ => rfl

omit h in
theorem Merges.merging_pred : merging P S P = { P with insts := P.insts ++ S.insts, terminator := S.terminator } := by
  rw [merging, if_neg hm.ne.symm, if_pos rfl]

omit h hm in
theorem merging_other (hS : b.id ≠ S.id) (hP : b.id ≠ P.id) : merging P S b = b := by
  rw [merging, if_neg hS, if_neg hP]

theorem Merges.edge_succ : f.Edge P.id S.id := by
  simp [Function.Edge, successors, tryBlock_id h.blocksNodup hm.pred, BasicBlock.targets, hm.term,
    Terminator.targets]

theorem Merges.edge {a b} (he : (rewritten f (merging P S)).Edge a b) :
    b ≠ S.id ∧ ((a ≠ P.id ∧ f.Edge a b) ∨ (a = P.id ∧ f.Edge S.id b)) := by
  obtain ⟨blk, hblk, hmem⟩ := edge_rewritten (merging_fields P S) he
  obtain ⟨hb, rfl⟩ := mem_blocks_of_tryBlock hblk
  by_cases hS : blk.id = S.id
  · simp [merging, hS, BasicBlock.targets, Terminator.targets] at hmem
  · by_cases hP : blk.id = P.id
    · obtain rfl := inj_on_of_nodup_map h.blocksNodup hb hm.pred hP
      rw [hm.merging_pred] at hmem
      have hsucc : f.Edge S.id b := by
        rw [Function.Edge, successors, tryBlock_id h.blocksNodup hm.succ]
        exact hmem
      exact ⟨fun hbS => hm.ne (hm.only S.id (hbS ▸ hsucc)), .inr ⟨rfl, hsucc⟩⟩
    · rw [merging_other hS hP] at hmem
      have hedge : f.Edge blk.id b := by
        rw [Function.Edge, successors, hblk]
        exact hmem
      exact ⟨fun hbS => hP (hm.only blk.id (hbS ▸ hedge)), .inl ⟨hP, hedge⟩⟩

/-! ### The run -/

theorem Merges.execBlock_pred (T W σ) :
    (rewritten f (merging P S)).execBlock T W P.id σ = f.step T W (f.execBlock T W P.id σ) := by
  have hP := tryBlock_id h.blocksNodup hm.pred
  have hS := tryBlock_id h.blocksNodup hm.succ
  have hg : (rewritten f (merging P S)).tryBlock P.id = some (merging P S P) := by
    rw [tryBlock_rewritten (merging_fields P S), hP]
    rfl
  simp only [execBlock, hg, hP, hm.merging_pred, hm.term, execInsts_append]
  cases he : execInsts T W P.insts σ with
  | halt why t => rfl
  | ok σ₁ =>
    simp only [execTerm, enter_nil hS hm.params, step, execBlock, hS]
    cases he' : execInsts T W S.insts σ₁ with
    | halt why t => rfl
    | ok σ₂ =>
      cases ht : S.terminator with
      | none => rfl
      | some t => exact execTerm_params (params_rewritten (merging_fields P S))

omit h hm in
theorem execBlock_merging_other (T W) {b} (hS : b ≠ S.id) (hP : b ≠ P.id) (σ) :
    (rewritten f (merging P S)).execBlock T W b σ = f.execBlock T W b σ := by
  unfold execBlock
  rw [tryBlock_rewritten (merging_fields P S)]
  cases hblk : f.tryBlock b with
  | none => rfl
  | some blk =>
    obtain ⟨-, rfl⟩ := mem_blocks_of_tryBlock hblk
    simp only [map_some, merging_other hS hP, execTerm_params (params_rewritten (merging_fields P S))]

theorem Merges.samples (L : Launch) : L.Samples f (rewritten f (merging P S)) := by
  refine Launch.samples_of_blocks (K := (· ≠ S.id)) rfl hm.notEntry.symm ?_ fun b σ hb => ?_
  · intro b b' σ σ' _ hrun
    exact (hm.edge h (edge_of_execBlock hrun)).1
  · by_cases hP : b = P.id
    · subst hP
      exact .inr (hm.execBlock_pred h L.target L.world σ)
    · exact .inl (execBlock_merging_other L.target L.world hb hP σ)

/-! ### Paths -/

theorem Merges.reachable {b} (hr : (rewritten f (merging P S)).Reachable b) : f.Reachable b := by
  induction hr with
  | refl => exact .refl
  | tail _ hab ih =>
    rcases (hm.edge h hab).2 with ⟨-, hab⟩ | ⟨rfl, hSb⟩
    · exact ih.tail hab
    · exact (ih.tail (hm.edge_succ h)).tail hSb

theorem Merges.dom {d b} (hd : d ≠ S.id) (hdom : f.Dom d b) : (rewritten f (merging P S)).Dom d b := by
  refine fun havoid => hdom ?_
  clear hdom
  induction havoid with
  | root hne => exact .root hne
  | step _ hab hne ih =>
    rcases (hm.edge h hab).2 with ⟨-, hab⟩ | ⟨rfl, hSb⟩
    · exact .step ih hab hne
    · exact .step (.step ih (hm.edge_succ h) hd.symm) hSb hne

theorem Merges.dom_pred {b} (hdom : f.Dom S.id b) : (rewritten f (merging P S)).Dom P.id b := by
  refine fun havoid => hdom ?_
  clear hdom
  induction havoid with
  | root => exact .root hm.notEntry.symm
  | step ha hab _ ih =>
    obtain ⟨hne, ⟨-, hab⟩ | ⟨haP, -⟩⟩ := hm.edge h hab
    · exact .step ih hab hne
    · exact absurd haP ha.ne

omit h in
theorem Merges.not_dom (hr : f.Reachable P.id) : ¬ f.Dom S.id P.id := by
  have key : ∀ b, f.Reachable b → Avoids f.Edge f.entry S.id b ∨ Avoids f.Edge f.entry S.id P.id := by
    intro b hb
    induction hb with
    | refl => exact .inl (.root hm.notEntry.symm)
    | @tail a c _ hac ih =>
      rcases ih with ih | ih
      · by_cases hc : c = S.id
        · subst hc
          exact .inr (hm.only a hac ▸ ih)
        · exact .inl (.step ih hac hc)
      · exact .inr ih
  intro hdom
  rcases key P.id hr with ha | ha <;> exact hdom ha

/-! ### Uses -/

theorem Merges.defIn {d} (hd : (rewritten f (merging P S)).DefIn v d) :
    d ≠ S.id ∧ (f.DefIn v d ∨ (d = P.id ∧ f.DefIn v S.id)) := by
  cases hd with
  | param hp e => exact ⟨hm.notEntry.symm, .inl (.param hp e)⟩
  | blockParam hb' hp e =>
    obtain ⟨b, hb, rfl⟩ := List.mem_map.mp hb'
    rw [(merging_fields P S b).2] at hp
    rw [(merging_fields P S b).1]
    refine ⟨fun hS => ?_, .inl (.blockParam hb hp e)⟩
    obtain rfl := inj_on_of_nodup_map h.blocksNodup hb hm.succ hS
    simp [hm.params] at hp
  | inst hb' hi e =>
    obtain ⟨b, hb, rfl⟩ := List.mem_map.mp hb'
    rw [(merging_fields P S b).1]
    by_cases hS : b.id = S.id
    · simp [merging, hS] at hi
    · refine ⟨hS, ?_⟩
      by_cases hP : b.id = P.id
      · obtain rfl := inj_on_of_nodup_map h.blocksNodup hb hm.pred hP
        rw [hm.merging_pred] at hi
        rcases mem_append.mp hi with hi | hi
        · exact .inl (.inst hb hi e)
        · exact .inr ⟨rfl, .inst hm.succ hi e⟩
      · rw [merging_other hS hP] at hi
        exact .inl (.inst hb hi e)

theorem Merges.useOk_other (hS : b.id ≠ S.id) (hr : (rewritten f (merging P S)).Reachable b.id) (hu : f.UseOk b v k) :
    (rewritten f (merging P S)).UseOk b v k where
  sameBlock := hu.sameBlock
  across := by
    intro d hd' hne
    obtain ⟨hdS, hd | ⟨rfl, hd⟩⟩ := hm.defIn h hd'
    · have hdom := hm.dom h hdS (hu.across d hd hne).2.2
      exact ⟨hdom.reachable hr, hr, hdom⟩
    · have hdom := hm.dom_pred h (hu.across S.id hd hS.symm).2.2
      exact ⟨hdom.reachable hr, hr, hdom⟩

theorem Merges.useOk_pred (hr : (rewritten f (merging P S)).Reachable P.id) (hu : f.UseOk P v k) :
    (rewritten f (merging P S)).UseOk (merging P S P) v k := by
  have hnot := hm.not_dom (hm.reachable h hr)
  rw [hm.merging_pred]
  refine ⟨fun m i hi hv => ?_, fun d hd hne => ?_⟩
  · rcases Nat.lt_or_ge m P.insts.length with hlt | hge
    · exact hu.sameBlock m i (by rwa [getElem?_append_left hlt] at hi) hv
    · rw [getElem?_append_right hge] at hi
      have hd : f.DefIn v S.id := .inst hm.succ (mem_of_getElem? hi) hv
      exact absurd (hu.across S.id hd hm.ne).2.2 hnot
  · obtain ⟨hdS, hd | ⟨rfl, -⟩⟩ := hm.defIn h hd
    · have hdom := hm.dom h hdS (hu.across d hd hne).2.2
      exact ⟨hdom.reachable hr, hr, hdom⟩
    · exact absurd rfl hne

theorem Merges.useOk_succ (hr : (rewritten f (merging P S)).Reachable P.id) (hu : f.UseOk S v k) :
    (rewritten f (merging P S)).UseOk (merging P S P) v (P.insts.length + k) := by
  rw [hm.merging_pred]
  refine ⟨fun m i hi hv => ?_, fun d hd hne => ?_⟩
  · rcases Nat.lt_or_ge m P.insts.length with hlt | hge
    · exact Nat.lt_add_right k hlt
    · rw [getElem?_append_right hge] at hi
      exact (Nat.sub_lt_iff_lt_add' hge).mp (hu.sameBlock _ i hi hv)
  · obtain ⟨hdS, hd | ⟨rfl, -⟩⟩ := hm.defIn h hd
    · have hdom := hm.dom h hdS (((hu.across d hd hdS).2.2).pred hdS.symm (hm.edge_succ h))
      exact ⟨hdom.reachable hr, hr, hdom⟩
    · exact absurd rfl hne

theorem Merges.useOk (hr : (rewritten f (merging P S)).Reachable P.id)
    (hP : k < P.insts.length → f.UseOk P v k) (hS : P.insts.length ≤ k → f.UseOk S v (k - P.insts.length)) :
    (rewritten f (merging P S)).UseOk (merging P S P) v k := by
  rcases Nat.lt_or_ge k P.insts.length with hlt | hge
  · exact hm.useOk_pred h hr (hP hlt)
  · have hu := hm.useOk_succ h hr (hS hge)
    rwa [Nat.add_sub_cancel' hge] at hu

theorem Merges.definitions : (rewritten f (merging P S)).definitions.Perm f.definitions := by
  refine List.Perm.append_left _ ?_
  rw [rewritten, flatMap_map]
  refine flatMap_move_perm h.blocksNodup.of_map hm.pred hm.succ (fun e => hm.ne (congrArg _ e)) ?_ ?_ ?_
  · simp [hm.merging_pred, hm.params]
  · simp [merging, hm.params]
  · intro b hb hbP hbS
    rw [merging_other (fun e => hbS (inj_on_of_nodup_map h.blocksNodup hb hm.succ e))
      (fun e => hbP (inj_on_of_nodup_map h.blocksNodup hb hm.pred e))]

theorem Merges.mem_blocks (hb : b ∈ (rewritten f (merging P S)).blocks) :
    (b.id = S.id ∧ b.insts = [] ∧ b.terminator = some .unreachable) ∨ b = merging P S P ∨
      (b ∈ f.blocks ∧ b.id ≠ S.id ∧ b.id ≠ P.id) := by
  obtain ⟨b₀, hb₀, rfl⟩ := List.mem_map.mp hb
  by_cases hS : b₀.id = S.id
  · refine .inl ?_
    rw [merging, if_pos hS]
    exact ⟨hS, rfl, rfl⟩
  · by_cases hP : b₀.id = P.id
    · obtain rfl := inj_on_of_nodup_map h.blocksNodup hb₀ hm.pred hP
      exact .inr (.inl rfl)
    · rw [merging_other hS hP]
      exact .inr (.inr ⟨hb₀, hS, hP⟩)

theorem Merges.live : (rewritten f (merging P S)).Live := by
  obtain ⟨t, ht⟩ := isSome_iff_exists.mp (h.terminated S hm.succ)
  have hpid : (merging P S P).id = P.id := (merging_fields P S P).1
  have hreach : (rewritten f (merging P S)).Reachable (merging P S P).id →
      (rewritten f (merging P S)).Reachable P.id ∧ f.Reachable P.id ∧ f.Reachable S.id := by
    intro hr
    rw [hpid] at hr
    have hrP := hm.reachable h hr
    exact ⟨hr, hrP, hrP.tail (hm.edge_succ h)⟩
  refine h.rebuild rfl rfl rfl (ids_rewritten (merging_fields P S)) (params_rewritten (merging_fields P S))
    (hm.definitions h) ?_ ?_ ?_ ?_
  · intro b hb i hi
    rcases hm.mem_blocks h hb with ⟨-, hnil, -⟩ | rfl | ⟨hb, -, -⟩
    · simp [hnil] at hi
    · rw [hm.merging_pred] at hi
      rcases mem_append.mp hi with hi | hi
      · exact mem_flatMap.mpr ⟨P, hm.pred, hi⟩
      · exact mem_flatMap.mpr ⟨S, hm.succ, hi⟩
    · exact mem_flatMap.mpr ⟨b, hb, hi⟩
  · intro b hb
    rcases hm.mem_blocks h hb with ⟨-, -, hun⟩ | rfl | ⟨hb, -, -⟩
    · exact ⟨_, hun, .unreachable⟩
    · exact ⟨t, by rw [hm.merging_pred]; exact ht, h.admits hm.succ ht⟩
    · obtain ⟨t', ht'⟩ := isSome_iff_exists.mp (h.terminated b hb)
      exact ⟨t', ht', h.admits hb ht'⟩
  · intro b hb hr k i hi v hv
    rcases hm.mem_blocks h hb with ⟨-, hnil, -⟩ | rfl | ⟨hb, hS, -⟩
    · simp [hnil] at hi
    · obtain ⟨hr, hrP, hrS⟩ := hreach hr
      rw [hm.merging_pred] at hi
      refine hm.useOk h hr (fun hlt => ?_) fun hge => ?_
      · rw [getElem?_append_left hlt] at hi
        exact h.instUses P hm.pred hrP k i hi v hv
      · rw [getElem?_append_right hge] at hi
        exact h.instUses S hm.succ hrS _ i hi v hv
    · exact hm.useOk_other h hS hr (h.instUses b hb (hm.reachable h hr) k i hi v hv)
  · intro b hb hr t' ht' v hv
    rcases hm.mem_blocks h hb with ⟨-, -, hun⟩ | rfl | ⟨hb, hS, -⟩
    · cases hun.symm.trans ht'
      cases hv
    · obtain ⟨hr, hrP, hrS⟩ := hreach hr
      have hlen : (merging P S P).insts.length = P.insts.length + S.insts.length := by
        rw [hm.merging_pred, length_append]
      rw [hm.merging_pred] at ht'
      rw [hlen]
      exact hm.useOk_succ h hr (h.termUses S hm.succ hrS t' ht' v hv)
    · exact hm.useOk_other h hS hr (h.termUses b hb (hm.reachable h hr) t' ht' v hv)

theorem Merges.jumps_lt : jumps (rewritten f (merging P S)) < jumps f := by
  have hS : isJump (merging P S S) = false := by simp [merging, isJump]
  have hP : isJump (merging P S P) = isJump S := by rw [hm.merging_pred]; rfl
  have hjump : isJump P = true := by simp [isJump, hm.term]
  have himp : ∀ b ∈ f.blocks, isJump (merging P S b) = true → isJump b = true := by
    intro b hb hj
    by_cases hbS : b.id = S.id
    · simp [merging, hbS, isJump] at hj
    · by_cases hbP : b.id = P.id
      · obtain rfl := inj_on_of_nodup_map h.blocksNodup hb hm.pred hbP
        exact hjump
      · rwa [merging_other hbS hbP] at hj
  cases hSj : isJump S with
  | true => exact countP_map_lt himp hm.succ hSj hS
  | false => exact countP_map_lt himp hm.pred hjump (hP.trans hSj)

end Merge

/-! ## The two loops -/

/-- What holds after every round: the function is `f` or has changed without a difference to any run. -/
structure Simplified (f : Function) (s : Function × Bool) : Prop where
  live : s.1.Live
  samples : ∀ L : Launch, L.Samples f s.1
  unchanged : s.2 = false → s.1 = f

theorem Simplified.thread {preheaders s s'} (hs : Simplified f s)
    (hstep : threadStep preheaders s = some s') : Simplified f s' ∧ jumps s'.1 < jumps s.1 := by
  obtain ⟨⟨empty, target⟩, hfind, rfl⟩ := map_eq_some_iff.mp hstep
  obtain ⟨b, hb, hfwd⟩ := exists_of_findSome?_eq_some hfind
  obtain ⟨d, hd, hpair⟩ := map_eq_some_iff.mp hfwd
  obtain ⟨rfl, rfl⟩ := Prod.mk.inj hpair
  have hw := forwardsTo_eq_some hb hd
  dsimp only
  rw [skipBlock_eq hs.live.blocksNodup]
  refine ⟨⟨hw.live hs.live, fun L => (hs.samples L).trans (hw.samples hs.live L), ?_⟩, hw.jumps_lt⟩
  exact fun e => by cases e

theorem Simplified.merge {s s'} (hs : Simplified f s) (hstep : mergeStep s = some s') :
    Simplified f s' ∧ jumps s'.1 < jumps s.1 := by
  obtain ⟨⟨pred, succ⟩, hfind, rfl⟩ := map_eq_some_iff.mp hstep
  obtain ⟨P, hP, hmerge⟩ := exists_of_findSome?_eq_some hfind
  obtain ⟨d, hd, hpair⟩ := map_eq_some_iff.mp hmerge
  obtain ⟨rfl, rfl⟩ := Prod.mk.inj hpair
  obtain ⟨S, rfl, hm⟩ := mergesWith_eq_some hs.live hP hd
  dsimp only
  rw [hm.mergeBlocks_eq hs.live]
  refine ⟨⟨hm.live hs.live, fun L => (hs.samples L).trans (hm.samples hs.live L), ?_⟩, hm.jumps_lt hs.live⟩
  exact fun e => by cases e

theorem simplifyFunction_spec (hv : f.Verified) : ∃ g changed, simplifyFunction (f.blocks.length + 1) f = some (g, changed) ∧
    g.Verified ∧ ∀ L : Launch, L.Samples f g := by
  have h₀ : Simplified f (f, false) := ⟨hv.live, fun L => .of_run_eq fun _ => rfl, fun _ => rfl⟩
  have hlt : jumps f < f.blocks.length + 1 := Nat.lt_succ_of_le (jumps_le f)
  obtain ⟨s₁, he₁, ⟨h₁, hle⟩, -⟩ := exhaust_spec (P := fun s => Simplified f s ∧ jumps s.1 ≤ jumps f)
    (m := fun s => jumps s.1) (fun a b ha hab => by
      obtain ⟨hb, hlt⟩ := ha.1.thread hab
      exact ⟨⟨hb, hlt.le.trans ha.2⟩, hlt⟩) ⟨h₀, le_rfl⟩ hlt
  obtain ⟨s₂, he₂, h₂, -⟩ := exhaust_spec (P := Simplified f) (m := fun s => jumps s.1)
    (fun a b ha hab => ha.merge hab) h₁ (hle.trans_lt hlt)
  unfold simplifyFunction
  dsimp only
  rw [he₁, bind_some, he₂, map_some]
  cases hc : s₂.2 with
  | true =>
    refine ⟨_, _, rfl, h₂.live.pruneUnreachable_verified, fun L => (h₂.samples L).trans ?_⟩
    exact .of_run_eq (L.run_pruneUnreachable s₂.1)
  | false =>
    refine ⟨s₂.1, s₂.2, rfl, ?_, h₂.samples⟩
    rw [h₂.unchanged hc]
    exact hv

theorem simplifyFunction_mono {fuel fuel'} (hle : fuel ≤ fuel') {r}
    (h : simplifyFunction fuel f = some r) : simplifyFunction fuel' f = some r := by
  obtain ⟨s₂, hs₂, rfl⟩ := map_eq_some_iff.mp h
  obtain ⟨s₁, hs₁, hs₂⟩ := bind_eq_some_iff.mp hs₂
  unfold simplifyFunction
  dsimp only
  rw [exhaust_mono hle hs₁, bind_some, exhaust_mono hle hs₂]
  rfl

end Armfortas.Opt.SimplifyCfg
