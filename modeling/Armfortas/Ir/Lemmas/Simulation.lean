import Armfortas.Ir.Lemmas.Run

/-! Passes replace uses of one value by another. As long as the new name holds the value of the old one, each
instruction does in the rewritten function what it does in the original. -/
namespace Armfortas.Ir
open Lib List Option Terminator

variable {σ σ' : State} {S : ValueId → Prop} {r : ValueId → ValueId} {R : BlockId → Env → Env → Prop} {t : Terminator}

/-! ## Runs in step -/

/-- Two runs of instructions lead to states related by `P`, or to the same halt after traces related by `E`. A run
that got stuck promises nothing. -/
inductive Result.Rel (P : State → State → Prop) (E : List Event → List Event → Prop) : Result → Result → Prop
  | stuck {t : List Event} {r : Result} : Rel P E (.halt .stuck t) r
  | halt {why : Halt} {t t' : List Event} : E t t' → Rel P E (.halt why t) (.halt why t')
  | ok {σ σ' : State} : P σ σ' → Rel P E (.ok σ) (.ok σ')

/-- Two runs stand at the same block in states related by `P`, returned the same with heaps related by `Q`, or halted
alike after traces related by `E`. -/
inductive Outcome.Rel (P : BlockId → State → State → Prop) (Q : Heap → Heap → Prop)
    (E : List Event → List Event → Prop) : Outcome → Outcome → Prop
  | stuck {t : List Event} {o : Outcome} : Rel P Q E (.halted .stuck t) o
  | halted {why : Halt} {t t' : List Event} : E t t' → Rel P Q E (.halted why t) (.halted why t')
  | returned {v : Option Val} {σ σ' : State} : Q σ.toHeap σ'.toHeap → Rel P Q E (.returned v σ) (.returned v σ')
  | running {b : BlockId} {σ σ' : State} : P b σ σ' → Rel P Q E (.running b σ) (.running b σ')

section Rel

variable {P P' : BlockId → State → State → Prop} {Q Q' : Heap → Heap → Prop} {E E' : List Event → List Event → Prop}

theorem Outcome.Rel.mono {o o'} (h : Outcome.Rel P Q E o o') (hP : ∀ b σ σ', o = .running b σ → P b σ σ' → P' b σ σ')
    (hQ : ∀ h h', Q h h' → Q' h h') (hE : ∀ t t', E t t' → E' t t') : Outcome.Rel P' Q' E' o o' := by
  cases h with
  | stuck => exact .stuck
  | halted h => exact .halted (hE _ _ h)
  | returned h => exact .returned (hQ _ _ h)
  | running h => exact .running (hP _ _ _ rfl h)

theorem execBlock_rel {S : State → State → Prop} {f g : Function} {T W b blk blk'}
    (hblk : f.tryBlock b = some blk) (hblk' : g.tryBlock b = some blk')
    (hinsts : Result.Rel S E (execInsts T W blk.insts σ) (execInsts T W blk'.insts σ'))
    (hterm : ∀ t σ₁ σ₁', blk.terminator = some t → execInsts T W blk.insts σ = .ok σ₁ →
      execInsts T W blk'.insts σ' = .ok σ₁' → S σ₁ σ₁' →
      ∃ t', blk'.terminator = some t' ∧ Outcome.Rel P Q E (f.execTerm T t σ₁) (g.execTerm T t' σ₁')) :
    Outcome.Rel P Q E (f.execBlock T W b σ) (g.execBlock T W b σ') := by
  simp only [Function.execBlock, hblk, hblk']
  generalize execInsts T W blk.insts σ = r, execInsts T W blk'.insts σ' = r' at hinsts hterm
  cases hinsts with
  | stuck => exact .stuck
  | halt h => exact .halted h
  | ok h =>
    cases ht : blk.terminator with
    | none => exact .stuck
    | some t =>
      obtain ⟨t', ht', hrel⟩ := hterm t _ _ ht rfl rfl h
      simpa only [ht'] using hrel

theorem Launch.run_rel {L L' : Launch} {f g} (hstart : Outcome.Rel P Q E (L.start f) (L'.start g))
    (hstep : ∀ b σ σ', L.Enters f b σ → L'.Enters g b σ' → P b σ σ' →
      Outcome.Rel P Q E (f.execBlock L.target L.world b σ) (g.execBlock L'.target L'.world b σ')) (n) :
    Outcome.Rel P Q E (L.run f n) (L'.run g n) := by
  induction n with
  | zero => exact hstart
  | succ n ih =>
    rw [Launch.run, Launch.run]
    generalize hf : L.run f n = o, hg : L'.run g n = o' at ih
    cases ih with
    | stuck => exact .stuck
    | halted h => exact .halted h
    | returned h => exact .returned h
    | running h => exact hstep _ _ _ ⟨n, hf⟩ ⟨n, hg⟩ h

end Rel

/-- What is observed of a run between two blocks. -/
abbrev Outcome.Agrees : Outcome → Outcome → Prop := Outcome.Rel (fun _ σ σ' => σ.toHeap = σ'.toHeap) Eq Eq

/-! ## Renamed values -/

def RenamesOn (S : ValueId → Prop) (r : ValueId → ValueId) (env env' : Env) : Prop :=
  ∀ v x, S v → env v = some x → env' (r v) = some x

abbrev Renames (r : ValueId → ValueId) (env env' : Env) : Prop := RenamesOn (fun _ => True) r env env'

abbrev AgreeOn (S : ValueId → Prop) (env env' : Env) : Prop := RenamesOn S (fun v => v) env env'

/-- The same heap with related values, or the same halt. -/
abbrev Result.Sim (R : Env → Env → Prop) : Result → Result → Prop :=
  Result.Rel (fun σ σ' => σ.toHeap = σ'.toHeap ∧ R σ.env σ'.env) Eq

section Renaming

variable {T : Target} {W : World}

theorem RenamesOn.mapM {env env' : Env} (h : RenamesOn S r env env') {vs : List ValueId} (hS : ∀ v ∈ vs, S v)
    {vals} (hvals : vs.mapM env = some vals) : (vs.map r).mapM env' = some vals := by
  induction vs generalizing vals with
  | nil => simpa using hvals
  | cons v vs ih =>
    simp only [mapM_cons, bind_eq_bind, bind_eq_some_iff] at hvals
    obtain ⟨x, hx, xs, hxs, hvals⟩ := hvals
    have hv := h v x (hS v mem_cons_self) hx
    have hrest := ih (fun u hu => hS u (.tail _ hu)) hxs
    simp only [map_cons, mapM_cons, bind_eq_bind, hv, bind_some, hrest, hvals]

theorem AgreeOn.mapM {env env' : Env} (h : AgreeOn S env env') {vs : List ValueId}
    (hS : ∀ v ∈ vs, S v) {vals} (hvals : vs.mapM env = some vals) : vs.mapM env' = some vals := by
  have := RenamesOn.mapM h hS hvals
  rwa [List.map_id'] at this

theorem RenamesOn.set {env env'} (h : RenamesOn S r env env') {v} (x)
    (hv : r v = v) (hinj : ∀ u, S u → r u = v → u = v) : RenamesOn S r (env.set v x) (env'.set v x) := by
  intro u y hS hu
  by_cases huv : u = v
  · subst huv
    rw [Env.set_self] at hu
    rw [hv, Env.set_self, hu]
  · rw [Env.set_ne _ _ huv] at hu
    rw [Env.set_ne _ _ fun e => huv (hinj u hS e)]
    exact h u y hS hu

theorem exec_renames {i : Inst} (hops : ∀ v ∈ i.kind.operands, S v) (h : RenamesOn S r σ.env σ'.env)
    (hheap : σ.toHeap = σ'.toHeap) (hid : r i.id = i.id) (hinj : ∀ u, S u → r u = i.id → u = i.id) :
    Result.Sim (RenamesOn S r) (i.exec T W σ) ((i.mapOperands r).exec T W σ') := by
  unfold Inst.exec
  cases hvals : i.kind.operands.mapM σ.env with
  | none => exact .stuck
  | some vals =>
    have hvals' : (i.mapOperands r).kind.operands.mapM σ'.env = some vals := by
      simpa [Inst.mapOperands] using h.mapM hops hvals
    simp only [hvals', perform_mapOperands, hheap]
    cases perform T W i vals σ'.toHeap with
    | halt why t => exact .halt rfl
    | ok v heap =>
      cases v with
      | none => exact .ok ⟨rfl, h⟩
      | some x =>
        by_cases hx : x.hasType i.ty = true
        · simp only [Effect.bind, Inst.mapOperands, hx, if_true]
          exact .ok ⟨rfl, h.set x hid hinj⟩
        · simp only [Effect.bind, Inst.mapOperands, hx]
          exact .stuck

theorem execInsts_renames (is) (hops : ∀ i ∈ is, ∀ v ∈ i.kind.operands, S v)
    (hid : ∀ i ∈ is, r i.id = i.id) (hinj : ∀ i ∈ is, ∀ u, S u → r u = i.id → u = i.id) : ∀ {σ σ' : State},
    RenamesOn S r σ.env σ'.env → σ.toHeap = σ'.toHeap →
    Result.Sim (RenamesOn S r) (execInsts T W is σ) (execInsts T W (is.map (·.mapOperands r)) σ') := by
  induction is with
  | nil => exact fun h hheap => .ok ⟨hheap, h⟩
  | cons i is ih =>
    intro σ σ' h hheap
    have hi := exec_renames (T := T) (W := W) (hops i mem_cons_self) h hheap (hid i mem_cons_self)
      (hinj i mem_cons_self)
    simp only [map_cons, execInsts]
    generalize i.exec T W σ = x, (i.mapOperands r).exec T W σ' = x' at hi
    cases hi with
    | stuck => exact .stuck
    | halt h => exact .halt h
    | ok h =>
      exact ih (fun j hj => hops j (.tail _ hj)) (fun j hj => hid j (.tail _ hj)) (fun j hj => hinj j (.tail _ hj))
        h.2 h.1

theorem execInsts_agree (is) (hops : ∀ i ∈ is, ∀ v ∈ i.kind.operands, S v)
    (h : AgreeOn S σ.env σ'.env) (hheap : σ.toHeap = σ'.toHeap) :
    Result.Sim (AgreeOn S) (execInsts T W is σ) (execInsts T W is σ') := by
  have hmap : is.map (·.mapOperands fun v => v) = is := by
    conv_rhs => rw [← List.map_id is]
    exact map_congr_left fun i _ => by simp [Inst.mapOperands]
  have hsim := execInsts_renames (T := T) (W := W) is hops (fun _ _ => rfl) (fun _ _ _ _ e => e) h hheap
  rwa [hmap] at hsim

theorem bindParams_renames {ps vals env env' env₁}
    (hbind : bindParams ps vals env = some env₁) (hid : ∀ p ∈ ps, r p.id = p.id)
    (hinj : ∀ p ∈ ps, ∀ u, S u → r u = p.id → u = p.id)
    (h : ∀ v x, S v → (∀ p ∈ ps, v ≠ p.id) → env v = some x → env' (r v) = some x) :
    ∃ env₁', bindParams ps vals env' = some env₁' ∧ RenamesOn S r env₁ env₁' := by
  simp only [← binds_iff] at hbind ⊢
  induction hbind generalizing env' with
  | nil => exact ⟨env', .nil, fun v x hS hx => h v x hS (by simp) hx⟩
  | @cons p ps v vs env env₁ hty _ ih =>
    have hset : ∀ u x, S u → (∀ q ∈ ps, u ≠ q.id) → env.set p.id v u = some x →
        env'.set p.id v (r u) = some x := by
      intro u x hS hu hx
      by_cases hup : u = p.id
      · subst hup
        rw [Env.set_self] at hx
        rw [hid p mem_cons_self, Env.set_self, hx]
      · rw [Env.set_ne _ _ hup] at hx
        rw [Env.set_ne _ _ fun e => hup (hinj p mem_cons_self u hS e)]
        refine h u x hS (fun q hq => ?_) hx
        rcases mem_cons.mp hq with rfl | hq
        · exact hup
        · exact hu q hq
    obtain ⟨env₁', hbind', hagree⟩ := ih (fun q hq => hid q (.tail _ hq)) (fun q hq => hinj q (.tail _ hq)) hset
    exact ⟨env₁', .cons hty hbind', hagree⟩

theorem bindParams_dropIdx {P : Nat → Bool} {ps vals env env₁} (h : bindParams ps vals env = some env₁) : ∀ env' : Env,
    ∃ env₁', bindParams (dropIdx P ps) (dropIdx P vals) env' = some env₁' ∧
      ∀ u, (∀ (k : Nat) (p : BlockParam), ps[k]? = some p → P k = true → p.id ≠ u) →
        (∀ u', env u = some u' → env' u = some u') → ∀ u', env₁ u = some u' → env₁' u = some u' := by
  simp only [← binds_iff] at h ⊢
  induction h generalizing P with
  | nil => exact fun env' => ⟨env', .nil, fun u _ hu => hu⟩
  | @cons p ps v vs env env₁ hty _ ih =>
    intro env'
    simp only [dropIdx]
    by_cases hP : P 0 = true
    · obtain ⟨env₁', hb, hagree⟩ := ih (P := fun i => P (i + 1)) env'
      simp only [hP, if_true]
      refine ⟨env₁', hb, fun u hu henv => hagree u (fun k q hq hk => hu (k + 1) q hq hk) fun x hx => ?_⟩
      rw [Env.set_ne _ _ (Ne.symm (hu 0 p rfl hP))] at hx
      exact henv x hx
    · obtain ⟨env₁', hb, hagree⟩ := ih (P := fun i => P (i + 1)) (env'.set p.id v)
      simp only [hP, Bool.false_eq_true, if_false]
      refine ⟨env₁', .cons hty hb, fun u hu henv => hagree u (fun k q hq hk => hu (k + 1) q hq hk) fun x hx => ?_⟩
      by_cases hup : u = p.id
      · subst hup
        rw [Env.set_self] at hx ⊢
        exact hx
      · rw [Env.set_ne _ _ hup] at hx ⊢
        exact henv x hx

theorem bindParams_agree {ps vals env env' env₁} (hbind : bindParams ps vals env = some env₁)
    (h : ∀ v x, S v → (∀ p ∈ ps, v ≠ p.id) → env v = some x → env' v = some x) :
    ∃ env₁', bindParams ps vals env' = some env₁' ∧ AgreeOn S env₁ env₁' :=
  bindParams_renames hbind (fun _ _ => rfl) (fun _ _ _ _ e => e) h

end Renaming

/-! ## Blocks and runs -/

/-- Two runs stand at the same block with equal heaps and values related by `R`, or ended alike. -/
abbrev Outcome.Sim (R : BlockId → Env → Env → Prop) : Outcome → Outcome → Prop :=
  Outcome.Rel (fun b σ σ' => σ.toHeap = σ'.toHeap ∧ R b σ.env σ'.env) Eq Eq

theorem Outcome.Sim.refl {o : Outcome}
    (h : ∀ b σ, o = .running b σ → R b σ.env σ.env) : Outcome.Sim R o o := by
  cases o with
  | running b σ => exact .running ⟨rfl, h b σ rfl⟩
  | returned v σ => exact .returned rfl
  | halted why t => exact .halted rfl

theorem Outcome.Sim.agrees {o o'} (h : Outcome.Sim R o o') : o.Agrees o' :=
  h.mono (fun _ _ _ _ hp => hp.1) (fun _ _ e => e) fun _ _ e => e

section Block

variable {f g : Function} {T : Target} {W : World}

theorem execTerm_sim (hheap : σ.toHeap = σ'.toHeap)
    (hren : RenamesOn S r σ.env σ'.env) {t' : Terminator} (huses : ∀ v ∈ t.uses, S v)
    (hret : ∀ v, t = .return v → t' = .return (v.map r)) (hunr : t = .unreachable → t' = .unreachable)
    (htake : ∀ dest args, Takes T σ.env t dest args → Outcome.Sim R (f.enter dest args σ) (g.execTerm T t' σ')) :
    Outcome.Sim R (f.execTerm T t σ) (g.execTerm T t' σ') := by
  rcases execTerm_cases f T t σ with ⟨dest, args, htk⟩ | ⟨ht, he⟩ | ⟨v, x, ht, hx, he⟩ | ⟨ht, he⟩ | he
  · rw [htk.execTerm]
    exact htake dest args htk
  · rw [he, hret _ ht]
    exact .returned hheap
  · have hv : S v := huses v (by simp [ht, uses])
    rw [he, hret _ ht]
    simp only [map_some, Function.execTerm, hren _ _ hv hx]
    exact .returned hheap
  · rw [he, hunr ht, hheap]
    exact .halted rfl
  · rw [he]
    exact .stuck

theorem execBlock_sim {Q : Env → Env → Prop} {b blk blk' t t'}
    (hblk : f.tryBlock b = some blk) (hblk' : g.tryBlock b = some blk') (ht : blk.terminator = some t)
    (ht' : blk'.terminator = some t') {σ σ'}
    (hinsts : Result.Sim Q (execInsts T W blk.insts σ) (execInsts T W blk'.insts σ'))
    (hterm : ∀ σ₁ σ₁', execInsts T W blk.insts σ = .ok σ₁ → execInsts T W blk'.insts σ' = .ok σ₁' →
      σ₁.toHeap = σ₁'.toHeap → Q σ₁.env σ₁'.env → Outcome.Sim R (f.execTerm T t σ₁) (g.execTerm T t' σ₁')) :
    Outcome.Sim R (f.execBlock T W b σ) (g.execBlock T W b σ') := by
  refine execBlock_rel hblk hblk' hinsts fun t₁ σ₁ σ₁' ht₁ he he' h => ⟨t', ht', ?_⟩
  cases ht.symm.trans ht₁
  exact hterm σ₁ σ₁' he he' h.1 h.2

theorem enter_sim {dest} {args args' : List ValueId} (hheap : σ.toHeap = σ'.toHeap)
    (h : ∀ dst vals env, f.tryBlock dest = some dst → args.mapM σ.env = some vals →
      bindParams dst.params vals σ.env = some env →
      ∃ dst' vals' env', g.tryBlock dest = some dst' ∧ args'.mapM σ'.env = some vals' ∧
        bindParams dst'.params vals' σ'.env = some env' ∧ R dest env env') :
    Outcome.Sim R (f.enter dest args σ) (g.enter dest args' σ') := by
  unfold Function.enter
  cases hdst : f.tryBlock dest with
  | none => exact .stuck
  | some dst =>
    cases hvals : args.mapM σ.env with
    | none => exact .stuck
    | some vals =>
      cases hbind : bindParams dst.params vals σ.env with
      | none => simp only [hbind]; exact .stuck
      | some env =>
        obtain ⟨dst', vals', env', hdst', hvals', hbind', hR⟩ := h dst vals env hdst hvals hbind
        simp only [hbind, hdst', hvals', hbind']
        exact .running ⟨hheap, hR⟩

theorem Takes.renames {env env'} (hren : RenamesOn S r env env')
    (huses : ∀ v ∈ t.uses, S v) {dest args} (h : Takes T env t dest args) :
    Takes T env' (t.mapOperands r) dest (args.map r) := by
  cases h with
  | branch => exact .branch _ _
  | condTrue _ _ _ _ hc => exact .condTrue _ _ _ _ (hren _ _ (huses _ (by simp [uses])) hc)
  | condFalse _ _ _ _ hc => exact .condFalse _ _ _ _ (hren _ _ (huses _ (by simp [uses])) hc)
  | switch cases default w hs =>
    obtain ⟨y, hy, hint⟩ := bind_eq_some_iff.mp hs
    exact .switch cases default w (by rw [hren _ _ (huses _ (by simp [uses])) hy]; exact hint)

/-- Block `d` has the same parameters in both functions. -/
abbrev Function.KeepsParams (g f : Function) (d : BlockId) : Prop :=
  (g.tryBlock d).map (·.params) = (f.tryBlock d).map (·.params)

theorem Function.KeepsParams.some {d b} (h : g.KeepsParams f d) (hb : f.tryBlock d = some b) :
    ∃ b', g.tryBlock d = some b' ∧ b'.params = b.params := by
  rw [KeepsParams, hb] at h
  exact map_eq_some_iff.mp h

theorem execTerm_renames {Q : BlockId → Env → Env → Prop}
    (hps : ∀ d, g.KeepsParams f d)
    (huses : ∀ v ∈ t.uses, S v) (hheap : σ.toHeap = σ'.toHeap) (hren : RenamesOn S r σ.env σ'.env)
    (henter : ∀ dest dst vals env, dest ∈ t.targets → f.tryBlock dest = some dst →
      bindParams dst.params vals σ.env = some env →
      ∃ env', bindParams dst.params vals σ'.env = some env' ∧ Q dest env env') :
    Outcome.Sim Q (f.execTerm T t σ) (g.execTerm T (t.mapOperands r) σ') := by
  refine execTerm_sim hheap hren huses (fun v hv => by rw [hv]; rfl) (fun h => by rw [h]; rfl)
    fun dest args htk => ?_
  rw [(htk.renames hren huses).execTerm]
  refine enter_sim hheap fun dst vals env hdst hvals hbind => ?_
  obtain ⟨dst', hdst', hp⟩ := (hps dest).some hdst
  obtain ⟨env', hbind', hq⟩ := henter dest dst vals env htk.mem_targets hdst hbind
  exact ⟨dst', vals, env', hdst', hren.mapM (fun v hv => huses v (htk.mem_uses v hv)) hvals, by rwa [hp], hq⟩

theorem execTerm_agree (hps : ∀ d, g.KeepsParams f d)
    (huses : ∀ v ∈ t.uses, S v) (hheap : σ.toHeap = σ'.toHeap)
    (hagree : AgreeOn S σ.env σ'.env) : Outcome.Sim (fun _ => AgreeOn S) (f.execTerm T t σ) (g.execTerm T t σ') := by
  have := execTerm_renames (T := T) (Q := fun _ => AgreeOn S) hps huses hheap hagree
    fun dest dst vals env _ _ hbind => bindParams_agree hbind fun v x hv _ hx => hagree v x hv hx
  rwa [mapOperands_id] at this

end Block

end Armfortas.Ir
