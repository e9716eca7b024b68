import Armfortas.Opt.Lemmas.JumpThread

/-! The redirected function skips joins. Their parameters are not used elsewhere, so they may be missing there. -/
namespace Armfortas.Opt.JumpThread
open Ir Lib List Option Function

variable {b : BasicBlock} {v : ValueId} {t : Terminator} {args : List ValueId} {join : BasicBlock} {s : JoinShape}
  {new : BlockId × List ValueId} {c : Bool}

variable {f : Function}

def after (f : Function) : Function := { f with blocks := f.blocks.map (threadBlock f) }

theorem after_tryBlock (b) : (after f).tryBlock b = (f.tryBlock b).map (threadBlock f) :=
  tryBlock_map (g := threadBlock f) (fun _ => rfl) b

/-- In block `b` the value is not a parameter of a join that may have been skipped. -/
def Kept (f : Function) (b : BlockId) (v : ValueId) : Prop :=
  ∀ join ∈ f.blocks, ∀ s, joinShape f join = some s → join.id ≠ b → ∀ p ∈ join.params, p.id ≠ v

theorem kept_of_use (hb : b ∈ f.blocks) (hv : v ∈ BasicBlock.uses b) :
    Kept f b.id v := fun _ _ _ hs hne _ hp => param_ne_of_use hs hb hne hv hp

theorem kept_of_operand (hb : b ∈ f.blocks) {i} (hi : i ∈ b.insts) (hv : v ∈ i.kind.operands) : Kept f b.id v :=
  kept_of_use hb (mem_append_left _ (mem_flatMap.mpr ⟨i, hi, hv⟩))

theorem mem_uses_of_terminator (ht : b.terminator = some t) (hv : v ∈ t.uses) : v ∈ BasicBlock.uses b :=
  mem_append_right _ (by rw [ht]; exact hv)

theorem kept_of_terminator (hb : b ∈ f.blocks) (ht : b.terminator = some t) (hv : v ∈ t.uses) :
    Kept f b.id v := kept_of_use hb (mem_uses_of_terminator ht hv)

theorem threadTerm_takes {T} {S : ValueId → Prop} {env env'}
    (hS : ∀ v ∈ t.uses, S v) (hagree : AgreeOn S env env') {dest} (htk : Takes T env t dest args) :
    ∃ new, Takes T env' (threadTerm f t) new.1 new.2 ∧ (new = (dest, args) ∨ threadOf f dest args = some new) := by
  cases htk with
  | branch => exact ⟨threaded f dest args, .branch _ _, threaded_cases _ _⟩
  | @condTrue c _ _ e eargs hc =>
    have hc' := hagree _ _ (hS c (by simp [Terminator.uses])) hc
    simp only [threadTerm]
    split
    · exact ⟨(dest, args), .condTrue _ _ _ _ hc', .inl rfl⟩
    · exact ⟨threaded f dest args, .condTrue _ _ _ _ hc', threaded_cases _ _⟩
  | @condFalse c t targs _ _ hc =>
    have hc' := hagree _ _ (hS c (by simp [Terminator.uses])) hc
    simp only [threadTerm]
    split
    · exact ⟨(dest, args), .condFalse _ _ _ _ hc', .inl rfl⟩
    · exact ⟨threaded f dest args, .condFalse _ _ _ _ hc', threaded_cases _ _⟩
  | @switch sel x cases default w hsel =>
    obtain ⟨y, hy, hint⟩ := bind_eq_some_iff.mp hsel
    have hy' := hagree _ _ (hS sel (by simp [Terminator.uses])) hy
    exact ⟨(_, []), .switch _ _ w (by rw [hy']; exact hint), .inl rfl⟩

theorem forwards_mapM (hnd : f.collectDefinedValues.Nodup) (hjoin : join ∈ f.blocks) {args arm new : List ValueId}
    {vals out env envJ} (hvals : args.mapM env = some vals)
    (hbind : bindParams join.params vals env = some envJ) (hfwd : arm.mapM (forwardArg join args) = some new)
    (hout : arm.mapM envJ = some out) : new.mapM env = some out := by
  have hdistinct := (nodup_append.mp (block_nodup hnd hjoin)).1
  have hone : ∀ a v, forwardArg join args a = some v → envJ a = env v := by
    intro a v hv
    unfold forwardArg at hv
    split at hv
    · next k hk =>
      obtain ⟨hlt, hpk, -⟩ := findIdx?_eq_some_iff_getElem.mp hk
      obtain ⟨x, hx, -, hbound⟩ := bindParams_env_getElem? hbind hdistinct (getElem?_eq_getElem hlt)
      rw [getElem?_of_mapM hvals, hv, bind_some] at hx
      rw [← eq_of_beq hpk, hbound, hx]
    · next hk =>
      simp only [some.injEq] at hv
      subst hv
      refine bindParams_env_of_not_mem hbind fun p hp e => ?_
      rw [findIdx?_eq_none_iff] at hk
      simpa [e] using hk p hp
  induction arm generalizing new out with
  | nil => simp_all
  | cons a arm ih =>
    simp only [mapM_cons, bind_eq_bind, bind_eq_some_iff, Option.pure_def,
      some.injEq] at hfwd hout
    obtain ⟨v, hv, vs, hvs, rfl⟩ := hfwd
    obtain ⟨x, hx, xs, hxs, rfl⟩ := hout
    simp only [mapM_cons, bind_eq_bind, Option.pure_def, ← hone a v hv, hx, ih hvs hxs, bind_some]

abbrev Related (f : Function) (b : BlockId) (env env' : Env) : Prop := AgreeOn (Kept f b) env env'

theorem Kept.of_enter {dst} (hdst : dst ∈ f.blocks) (hnd : f.BlocksNodup)
    (hv : Kept f dst.id v) (hno : ∀ p ∈ dst.params, v ≠ p.id) (b) : Kept f b v := by
  intro join hjoin s hs _ p hp e
  by_cases hsame : join.id = dst.id
  · have : join = dst := inj_on_of_nodup_map hnd hjoin hdst hsame
    subst this
    exact hno p hp e.symm
  · exact hv join hjoin s hs hsame p hp e

theorem enter_after (h : f.Live) {b dest} {σ σ' : State}
    (hheap : σ.toHeap = σ'.toHeap) (hargs : ∀ v ∈ args, Kept f b v) (hR : Related f b σ.env σ'.env) :
    Outcome.Sim (Related f) (f.enter dest args σ) ((after f).enter dest args σ') := by
  refine enter_sim hheap fun dst vals env hdst hvals hbind => ?_
  obtain ⟨hmem, rfl⟩ := mem_blocks_of_tryBlock hdst
  obtain ⟨env', hbind', hagree⟩ := bindParams_agree (S := Kept f dst.id) hbind fun v x hv hno hx =>
    hR v x (hv.of_enter hmem h.blocksNodup hno b) hx
  exact ⟨threadBlock f dst, vals, env', by rw [after_tryBlock, hdst]; rfl, hR.mapM hargs hvals, hbind', hagree⟩

theorem Bypass.arm_uses (hby : Bypass f join s args new c) (hv : v ∈ (s.arm c).2) : v ∈ BasicBlock.uses join := by
  obtain ⟨-, -, hterm, -⟩ := joinShape_eq_some hby.shape
  refine mem_uses_of_terminator hterm ?_
  cases c <;> simp_all [Terminator.uses, JoinShape.arm]

theorem Bypass.mem_new (hby : Bypass f join s args new c) (hv : v ∈ new.2) :
    v ∈ args ∨ (v ∈ (s.arm c).2 ∧ ∀ p ∈ join.params, p.id ≠ v) := by
  obtain ⟨a, ha, hfwd⟩ := exists_of_mem_mapM hby.forwards hv
  unfold forwardArg at hfwd
  split at hfwd
  · exact .inl (mem_of_getElem? hfwd)
  · next hno =>
    simp only [some.injEq] at hfwd
    subst hfwd
    refine .inr ⟨ha, fun p hp e => ?_⟩
    rw [findIdx?_eq_none_iff] at hno
    simpa [e] using hno p hp

theorem Bypass.kept {b} (hnd : f.BlocksNodup) (hby : Bypass f join s args new c)
    (hargs : ∀ v ∈ args, Kept f b v) : ∀ v ∈ new.2, Kept f b v := by
  intro v hv
  rcases hby.mem_new hv with hv | ⟨hv, hno⟩
  · exact hargs v hv
  · exact (kept_of_use hby.mem (hby.arm_uses hv)).of_enter hby.mem hnd (fun p hp e => hno p hp e.symm) b

theorem join_skipped (h : f.Live) {T W b}
    (hby : Bypass f join s args new c) {σ σ' σJ : State} (hleaf : f.LeafEnv T W σ.env)
    (hheap : σ.toHeap = σ'.toHeap) (hargs : ∀ v ∈ args, Kept f b v) (hR : Related f b σ.env σ'.env)
    (henter : f.enter join.id args σ = .running join.id σJ) : (∃ t, f.execBlock T W join.id σJ = .halted .stuck t) ∨
    ∃ d σ₂, f.execBlock T W join.id σJ = .running d σ₂ ∧ σJ.toHeap = σ₂.toHeap ∧
      Outcome.Sim (Related f) (.running d σ₂) ((after f).enter new.1 new.2 σ') := by
  obtain ⟨hinsts, -, hterm, p, hp, hcond⟩ := joinShape_eq_some hby.shape
  have htry := tryBlock_id h.blocksNodup hby.mem
  obtain ⟨-, blk, vals, envJ, hblk, hvals, hbind, rfl⟩ := enter_running henter
  rw [htry, some.injEq] at hblk
  subst hblk
  -- the condition is the constant
  have hdistinct := (nodup_append.mp (block_nodup h.valuesNodup hby.mem)).1
  obtain ⟨x, hx, -, hbound⟩ := bindParams_env_getElem? hbind hdistinct hp
  obtain ⟨i, hi, hpass, hkind⟩ := hby.const
  rw [getElem?_of_mapM hvals, hpass, bind_some] at hx
  have hxc : x = .bool c := by
    have := hleaf i hi (by rw [hkind]; rfl) x hx
    simpa [compute, hkind] using this.symm
  rw [hcond, hxc] at hbound
  have harm : f.execBlock T W join.id { σ with env := envJ } =
      f.enter (s.arm c).1 (s.arm c).2 { σ with env := envJ } := by
    simp only [execBlock, htry, hinsts, execInsts, hterm]
    cases c <;> simp [execTerm, hbound, JoinShape.arm]
  rw [harm]
  rcases f.enter_cases (s.arm c).1 (s.arm c).2 { σ with env := envJ } with hstuck | ⟨σ₂, hout⟩
  · exact .inl ⟨_, hstuck⟩
  · obtain ⟨-, dst, out, env₂, hdst, hvals₂, hbind₂, rfl⟩ := enter_running hout
    obtain ⟨hdmem, hdid⟩ := mem_blocks_of_tryBlock hdst
    refine .inr ⟨_, _, hout, rfl, ?_⟩
    -- values kept in the target were bound before the join or by the join's target itself
    have hkept : ∀ v x, Kept f dst.id v → (∀ q ∈ dst.params, v ≠ q.id) → envJ v = some x → σ'.env v = some x := by
      intro v x hv hno hx
      have hnojoin : ∀ q ∈ join.params, v ≠ q.id := by
        intro q hq e
        by_cases hsame : join.id = dst.id
        · have : join = dst := inj_on_of_nodup_map h.blocksNodup hby.mem hdmem hsame
          subst this
          exact hno q hq e
        · exact hv join hby.mem s hby.shape hsame q hq e.symm
      rw [bindParams_env_of_not_mem hbind hnojoin] at hx
      exact hR v x (hv.of_enter hdmem h.blocksNodup hno b) hx
    obtain ⟨env₂', hbind₂', hagree⟩ := bindParams_agree (S := Kept f dst.id) hbind₂ hkept
    have hnew : new.2.mapM σ'.env = some out :=
      hR.mapM (hby.kept h.blocksNodup hargs) (forwards_mapM h.valuesNodup hby.mem hvals hbind hby.forwards hvals₂)
    have hafter : (after f).enter new.1 new.2 σ' = .running (s.arm c).1 { σ' with env := env₂' } := by
      simp only [enter, hby.dest, after_tryBlock, hdst, hnew, map_some]
      have hps : (threadBlock f dst).params = dst.params := rfl
      simp only [hps, hbind₂']
    rw [hafter]
    exact .running ⟨hheap, hdid ▸ hagree⟩

theorem execBlock_after (h : f.Live) {L : Launch} (hdef : L.Defined f) {b} {σ σ' : State}
    (hent : L.Enters f b σ) (hheap : σ.toHeap = σ'.toHeap) (hR : Related f b σ.env σ'.env) :
    Outcome.Sim (Related f) (f.execBlock L.target L.world b σ) ((after f).execBlock L.target L.world b σ') ∨
      L.Skips f (Related f) b σ ((after f).execBlock L.target L.world b σ') := by
  have hleaf := hent.leaf h.valuesNodup h.blocksNodup
  obtain ⟨n, hn⟩ := hent
  cases hblk : f.tryBlock b with
  | none =>
    left
    simp only [execBlock, hblk]
    exact .stuck
  | some blk =>
    obtain ⟨hmem, rfl⟩ := mem_blocks_of_tryBlock hblk
    obtain ⟨t, ht⟩ := isSome_iff_exists.mp (h.terminated blk hmem)
    have hblk' : (after f).tryBlock blk.id = some (threadBlock f blk) := by rw [after_tryBlock, hblk]; rfl
    have ht' : (threadBlock f blk).terminator = some (threadTerm f t) := by simp [threadBlock, ht]
    have huses : ∀ v ∈ t.uses, Kept f blk.id v := fun v hv => kept_of_terminator hmem ht hv
    have hinsts : Result.Sim (Related f blk.id) (execInsts L.target L.world blk.insts σ)
        (execInsts L.target L.world (threadBlock f blk).insts σ') :=
      execInsts_agree blk.insts (fun i hi v hv => kept_of_operand hmem hi hv) hR hheap
    by_cases hskip : ∃ σ₁ σ₁' dest args new, execInsts L.target L.world blk.insts σ = .ok σ₁ ∧
        execInsts L.target L.world blk.insts σ' = .ok σ₁' ∧ σ₁.toHeap = σ₁'.toHeap ∧
        Related f blk.id σ₁.env σ₁'.env ∧ Takes L.target σ₁.env t dest args ∧
        Takes L.target σ₁'.env (threadTerm f t) new.1 new.2 ∧ threadOf f dest args = some new
    · obtain ⟨σ₁, σ₁', dest, args, new, hexec, hexec', hheap₁, hR₁, htk, htk', hnew⟩ := hskip
      obtain ⟨join, s, c, hjoin, hby⟩ := threadOf_eq_some hnew
      obtain ⟨-, rfl⟩ := mem_blocks_of_tryBlock hjoin
      have hsource : f.execBlock L.target L.world blk.id σ = f.enter join.id args σ₁ := by
        simp only [execBlock, hblk, hexec, ht, htk.execTerm]
      have htarget : (after f).execBlock L.target L.world blk.id σ' = (after f).enter new.1 new.2 σ₁' := by
        have hins : (threadBlock f blk).insts = blk.insts := rfl
        simp only [execBlock, hblk', hins, hexec', ht', htk'.execTerm]
      have hleaf₁ : f.LeafEnv L.target L.world σ₁.env :=
        execInsts_induction (P := fun σ => f.LeafEnv L.target L.world σ.env) hexec hleaf
          fun i hi σ σ' hl he => hl.exec h.valuesNodup h.blocksNodup hmem hi he
      rw [hsource, htarget]
      rcases f.enter_cases join.id args σ₁ with hstuck | ⟨σJ, henter⟩
      · left
        rw [hstuck]
        exact .stuck
      · rcases join_skipped h hby hleaf₁ hheap₁ (fun v hv => huses v (htk.mem_uses v hv)) hR₁ henter with
          ⟨tr, hstuck⟩ | ⟨d, σ₂, hjump, hheap₂, hsim⟩
        · exact absurd (by simp only [Launch.run, hn, step, hsource, henter, hstuck]) (hdef (n + 2) tr)
        · exact .inr ⟨join.id, σJ, d, σ₂, hsource.trans henter, hjump, hheap₂, hsim⟩
    · left
      refine execBlock_sim hblk hblk' ht ht' hinsts fun σ₁ σ₁' hexec hexec' hheap₁ hR₁ => ?_
      refine execTerm_sim hheap₁ hR₁ huses ?_ ?_ ?_
      · rintro v rfl
        cases v <;> rfl
      · rintro rfl
        rfl
      · intro dest args htk
        obtain ⟨new, htk', rfl | hnew⟩ := threadTerm_takes (f := f) huses hR₁ htk
        · rw [htk'.execTerm]
          exact enter_after h hheap₁ (fun v hv => huses v (htk.mem_uses v hv)) hR₁
        · exact absurd ⟨σ₁, σ₁', dest, args, new, hexec, hexec', hheap₁, hR₁, htk, htk', hnew⟩ hskip

theorem after_behaves (h : f.Live) (L : Launch) : L.Behaves f (after f) := by
  intro hdef
  refine Launch.behaves_of_skips (R := Related f) hdef ?_ (fun b σ σ' hent hheap hR =>
    execBlock_after h hdef hent hheap hR) hdef
  exact Outcome.Sim.refl (o := L.start f) fun _ _ _ _ _ _ hx => hx

end Armfortas.Opt.JumpThread
