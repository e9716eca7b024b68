import Armfortas.Ir.Lemmas.Exec

/-! Which edge a terminator takes, induction over the blocks a run enters, and what holds of every run. -/
namespace Armfortas.Ir
open Lib List Option Terminator Ir.Function Launch

variable {f : Function} {P : State → Prop}

/-! ## The edge taken -/

inductive Takes (T : Target) (env : Env) : Terminator → BlockId → List ValueId → Prop
  | branch (dest args) : Takes T env (.branch dest args) dest args
  | condTrue {c} (t targs e eargs) : env c = some (.bool true) → Takes T env (.condBranch c t targs e eargs) t targs
  | condFalse {c} (t targs e eargs) : env c = some (.bool false) → Takes T env (.condBranch c t targs e eargs) e eargs
  | switch {s x} (cases default w) : (env s).bind (·.asInt T) = some (w, x) →
      Takes T env (.switch s cases default) (switchDest cases default x) []

theorem switchDest_mem (cases : List (Int × BlockId)) (default : BlockId) (x : Int) :
    switchDest cases default x ∈ cases.map (·.2) ++ [default] := by
  unfold switchDest
  split
  · next k dest h => exact mem_append_left _ (List.mem_map.mpr ⟨_, mem_of_find?_eq_some h, rfl⟩)
  · simp

theorem Takes.mem_targets {T env t dest args} (h : Takes T env t dest args) : dest ∈ t.targets := by
  cases h with
  | branch => simp [targets]
  | condTrue => simp [targets]
  | condFalse => simp [targets]
  | switch cases default => exact switchDest_mem cases default _

theorem Takes.mem_uses {T env t dest args} (h : Takes T env t dest args) : ∀ v ∈ args, v ∈ t.uses := by
  cases h with
  | branch => exact fun v hv => hv
  | condTrue => exact fun v hv => by simp [uses, hv]
  | condFalse => exact fun v hv => by simp [uses, hv]
  | switch => simp

theorem Takes.execTerm {T} {σ : State} {t dest args} (h : Takes T σ.env t dest args) : f.execTerm T t σ =
    f.enter dest args σ := by
  cases h with
  | branch => rfl
  | condTrue _ _ _ _ hc => simp [Function.execTerm, hc]
  | condFalse _ _ _ _ hc => simp [Function.execTerm, hc]
  | switch _ _ _ hs => simp [Function.execTerm, hs]

theorem execTerm_cases (f : Function) (T : Target) (t : Terminator) (σ : State) :
    (∃ dest args, Takes T σ.env t dest args) ∨ (t = .return none ∧ f.execTerm T t σ = .returned none σ) ∨
    (∃ v x, t = .return (some v) ∧ σ.env v = some x ∧ f.execTerm T t σ = .returned (some x) σ) ∨
    (t = .unreachable ∧ f.execTerm T t σ = .halted .trap σ.trace) ∨ f.execTerm T t σ = .halted .stuck σ.trace := by
  cases t with
  | «return» v =>
    cases v with
    | none => exact .inr (.inl ⟨rfl, rfl⟩)
    | some v =>
      cases hv : σ.env v with
      | none => exact .inr (.inr (.inr (.inr (by simp [Function.execTerm, hv]))))
      | some x => exact .inr (.inr (.inl ⟨v, x, rfl, hv, by simp [Function.execTerm, hv]⟩))
  | branch dest args => exact .inl ⟨_, _, .branch dest args⟩
  | condBranch c t targs e eargs =>
    by_cases h1 : σ.env c = some (.bool true)
    · exact .inl ⟨_, _, .condTrue _ _ _ _ h1⟩
    · by_cases h2 : σ.env c = some (.bool false)
      · exact .inl ⟨_, _, .condFalse _ _ _ _ h2⟩
      · refine .inr (.inr (.inr (.inr ?_)))
        simp only [Function.execTerm]
  | switch s cases default =>
    cases hs : (σ.env s).bind (·.asInt T) with
    | none => exact .inr (.inr (.inr (.inr (by simp [Function.execTerm, hs]))))
    | some wx => exact .inl ⟨_, _, .switch _ _ wx.1 (x := wx.2) hs⟩
  | unreachable => exact .inr (.inr (.inr (.inl ⟨rfl, rfl⟩)))

theorem execTerm_running {T t σ σ' b} (h : f.execTerm T t σ = .running b σ') :
    ∃ args, Takes T σ.env t b args ∧ f.enter b args σ = .running b σ' := by
  rcases execTerm_cases f T t σ with ⟨dest, args, ht⟩ | ⟨-, h'⟩ | ⟨_, _, -, -, h'⟩ | ⟨-, h'⟩ | h'
  · rw [ht.execTerm] at h
    obtain ⟨rfl, -⟩ := enter_running h
    exact ⟨args, ht, h⟩
  all_goals rw [h'] at h; cases h

/-! ## One block -/

theorem execBlock_running {T W b b' σ σ'} (h : f.execBlock T W b σ = .running b' σ') :
    ∃ blk σ₁ t, f.tryBlock b = some blk ∧ execInsts T W blk.insts σ = .ok σ₁ ∧ blk.terminator = some t ∧
      f.execTerm T t σ₁ = .running b' σ' := by
  unfold execBlock at h
  split at h
  · cases h
  · next blk hblk =>
    split at h
    · cases h
    · next σ₁ h₁ =>
      split at h
      · next t ht => exact ⟨blk, σ₁, t, hblk, h₁, ht, h⟩
      · cases h

theorem edge_of_execBlock {T W b b' σ σ'} (h : f.execBlock T W b σ = .running b' σ') : f.Edge b b' := by
  obtain ⟨blk, σ₁, t, hblk, -, ht, h⟩ := execBlock_running h
  obtain ⟨args, htk, -⟩ := execTerm_running h
  simpa [Function.Edge, successors, hblk, BasicBlock.targets, ht] using htk.mem_targets

/-! ## Whole runs -/

variable {L : Launch} {b b' : BlockId} {k : Nat} {σ σ' : State}

theorem Launch.Enters.induction {P : BlockId → State → Prop}
    (hstart : ∀ b σ, L.start f = .running b σ → P b σ)
    (hstep : ∀ b σ b' σ', L.Enters f b σ → P b σ → f.execBlock L.target L.world b σ = .running b' σ' → P b' σ')
    (h : L.Enters f b σ) : P b σ := by
  obtain ⟨n, hn⟩ := h
  induction n generalizing b σ with
  | zero => exact hstart b σ hn
  | succ n ih =>
    rw [run] at hn
    cases hr : L.run f n with
    | running b₀ σ₀ =>
      rw [hr] at hn
      exact hstep b₀ σ₀ b σ ⟨n, hr⟩ (ih hr) hn
    | returned v σ₀ => rw [hr] at hn; cases hn
    | halted why t => rw [hr] at hn; cases hn

theorem Launch.Enters.step (h : L.Enters f b σ)
    (hstep : f.execBlock L.target L.world b σ = .running b' σ') : L.Enters f b' σ' := by
  obtain ⟨n, hn⟩ := h
  exact ⟨n + 1, by rw [run, hn]; exact hstep⟩

theorem Launch.start_running (h : L.start f = .running b σ) :
    b = f.entry ∧ bindParams (f.params.map fun p => ⟨p.id, p.ty⟩) L.args (fun _ => none) = some σ.env ∧
      σ.toHeap = { mem := L.mem, known := [], clock := 0, trace := [] } := by
  unfold start at h
  split at h
  · next env henv =>
    obtain ⟨rfl, rfl⟩ := h
    exact ⟨rfl, henv, rfl⟩
  · cases h

theorem Launch.Enters.reachable (h : L.Enters f b σ) : f.Reachable b := by
  refine h.induction (P := fun b _ => f.Reachable b) (fun b σ hs => ?_) fun b σ b' σ' _ hb hstep => ?_
  · rw [(start_running hs).1]
    exact .refl
  · exact hb.tail (edge_of_execBlock hstep)

/-- An invariant of block entries that every instruction of a block keeps holds at every point of a run. -/
theorem Launch.At.of_enters (h : L.At f b k σ) (hent : ∀ σ₀, L.Enters f b σ₀ → P σ₀)
    (hstep : ∀ blk ∈ f.blocks, blk.id = b → ∀ i ∈ blk.insts, ∀ σ σ', P σ → i.exec L.target L.world σ = .ok σ' → P σ') :
    P σ := by
  obtain ⟨σ₀, blk, hent₀, hblk, -, hexec⟩ := h
  obtain ⟨hmem, hid⟩ := mem_blocks_of_tryBlock hblk
  exact execInsts_induction hexec (hent σ₀ hent₀) fun i hi σ σ' =>
    hstep blk hmem hid i (mem_of_mem_take hi) σ σ'

/-- What holds at the start of a run and is kept by every instruction and every branch. -/
structure Launch.Keeps (L : Launch) (f : Function) (P : State → Prop) : Prop where
  start : ∀ σ, L.start f = .running f.entry σ → P σ
  exec : ∀ blk ∈ f.blocks, ∀ i ∈ blk.insts, ∀ σ σ', P σ → i.exec L.target L.world σ = .ok σ' → P σ'
  enter : ∀ b args σ σ', f.enter b args σ = .running b σ' → P σ → P σ'

theorem Launch.Keeps.enters (hk : L.Keeps f P) (h : L.Enters f b σ) : P σ := by
  refine h.induction (P := fun _ => P) (fun b σ hs => ?_) fun b σ b' σ' _ hP hstep => ?_
  · obtain ⟨rfl, -⟩ := start_running hs
    exact hk.start σ hs
  · obtain ⟨blk, σ₁, t, hblk, hexec, -, hterm⟩ := execBlock_running hstep
    obtain ⟨args, -, henter⟩ := execTerm_running hterm
    exact hk.enter _ _ _ _ henter (execInsts_induction hexec hP (hk.exec blk (mem_blocks_of_tryBlock hblk).1))

theorem Launch.Keeps.at (hk : L.Keeps f P) (h : L.At f b k σ) : P σ :=
  h.of_enters (fun _ => hk.enters) fun blk hblk _ => hk.exec blk hblk

theorem Launch.Enters.at {b : BasicBlock} (h : L.Enters f b.id σ)
    (hb : f.tryBlock b.id = some b) : L.At f b.id 0 σ :=
  ⟨σ, b, h, hb, Nat.zero_le _, by rw [take_zero]; rfl⟩

theorem execInsts_singleton {T W i} (h : execInsts T W [i] σ = .ok σ') : i.exec T W σ = .ok σ' := by
  cases he : i.exec T W σ with
  | ok σ₁ => simpa [execInsts, he] using h
  | halt why t => simp [execInsts, he] at h

theorem Launch.At.pred {d : BasicBlock} (hd : f.tryBlock d.id = some d) {m i}
    (hi : d.insts[m]? = some i) (hat : L.At f d.id (m + 1) σ) :
    ∃ σ₀, L.At f d.id m σ₀ ∧ i.exec L.target L.world σ₀ = .ok σ := by
  obtain ⟨σ₀, blk, hent, hblk, hk, hexec⟩ := hat
  cases hd.symm.trans hblk
  rw [take_add_one, hi, toList_some] at hexec
  obtain ⟨σ₁, h₁, h₂⟩ := execInsts_append_ok.mp hexec
  exact ⟨σ₁, ⟨σ₀, d, hent, hblk, Nat.le_of_succ_le hk, h₁⟩, execInsts_singleton h₂⟩

theorem Launch.At.induction {P : BlockId → Nat → State → Prop}
    (hstart : ∀ σ, L.start f = .running f.entry σ → P f.entry 0 σ)
    (hinst : ∀ blk, f.tryBlock blk.id = some blk → ∀ k i σ σ', L.At f blk.id k σ → blk.insts[k]? = some i →
      P blk.id k σ → i.exec L.target L.world σ = .ok σ' → L.At f blk.id (k + 1) σ' → P blk.id (k + 1) σ')
    (hedge : ∀ blk, f.tryBlock blk.id = some blk → ∀ t c args σ σ', L.At f blk.id blk.insts.length σ →
      blk.terminator = some t → Takes L.target σ.env t c args → f.enter c args σ = .running c σ' →
      L.Enters f c σ' → P blk.id blk.insts.length σ → P c 0 σ') (h : L.At f b k σ) : P b k σ := by
  -- along a block, from its entry
  have hblock : ∀ blk σ₀ k σ, f.tryBlock blk.id = some blk → L.Enters f blk.id σ₀ → P blk.id 0 σ₀ →
      k ≤ blk.insts.length → execInsts L.target L.world (blk.insts.take k) σ₀ = .ok σ → P blk.id k σ := by
    intro blk σ₀ k σ hblk hent h₀ hk hexec
    induction k generalizing σ with
    | zero =>
      simp only [take_zero, execInsts, Result.ok.injEq] at hexec
      exact hexec ▸ h₀
    | succ k ih =>
      have hi : blk.insts[k]? = some blk.insts[k] := getElem?_eq_getElem hk
      have hat : L.At f blk.id (k + 1) σ := ⟨σ₀, blk, hent, hblk, hk, hexec⟩
      rw [take_add_one, hi, toList_some] at hexec
      obtain ⟨σ₁, h₁, h₂⟩ := execInsts_append_ok.mp hexec
      have hk' := Nat.le_of_succ_le hk
      exact hinst blk hblk k _ σ₁ σ ⟨σ₀, blk, hent, hblk, hk', h₁⟩ hi (ih σ₁ hk' h₁) (execInsts_singleton h₂) hat
  have hentry : ∀ b σ, L.Enters f b σ → P b 0 σ := fun b σ hent => by
    refine hent.induction (P := fun b σ => P b 0 σ) (fun b σ hs => ?_) fun b σ b' σ' hent hP hstep => ?_
    · obtain ⟨rfl, -⟩ := start_running hs
      exact hstart σ hs
    · obtain ⟨blk, σ₁, t, hblk, hexec, ht, hterm⟩ := execBlock_running hstep
      obtain ⟨-, rfl⟩ := mem_blocks_of_tryBlock hblk
      obtain ⟨args, htk, henter⟩ := execTerm_running hterm
      have hexec' : execInsts L.target L.world (blk.insts.take blk.insts.length) σ = .ok σ₁ := by
        rwa [take_length]
      exact hedge blk hblk t b' args σ₁ σ' ⟨σ, blk, hent, hblk, le_rfl, hexec'⟩ ht htk henter (hent.step hstep)
        (hblock blk σ _ σ₁ hblk hent hP le_rfl hexec')
  obtain ⟨σ₀, blk, hent, hblk, hk, hexec⟩ := h
  obtain ⟨-, rfl⟩ := mem_blocks_of_tryBlock hblk
  exact hblock blk σ₀ k σ hblk hent (hentry _ _ hent) hk hexec

/-! ## Types of values -/

section Typed

variable (hnd : f.collectDefinedValues.Nodup)

namespace Function

def TypedEnv (f : Function) (env : Env) : Prop :=
  ∀ v x, env v = some x → ∃ ty, f.valueType v = some ty ∧ x.hasType ty = true

theorem TypedEnv.bindParams {ps vals env env'} (h : f.TypedEnv env)
    (hps : ∀ p ∈ ps, f.valueType p.id = some p.ty) (hbind : bindParams ps vals env = some env') : f.TypedEnv env' := by
  replace hbind := binds_iff.mpr hbind
  induction hbind with
  | nil => exact h
  | @cons p ps v vs env env' hty _ ih =>
    refine ih (fun u x hx => ?_) fun q hq => hps q (.tail _ hq)
    by_cases hu : u = p.id
    · subst hu
      rw [Env.set_self, some.injEq] at hx
      exact ⟨p.ty, hps p mem_cons_self, hx ▸ hty⟩
    · exact h u x (by rwa [Env.set_ne _ _ hu] at hx)

include hnd

theorem valueType_eq_some_iff {v ty} :
    f.valueType v = some ty ↔ (v, ty) ∈ f.definitions :=
  AssocMap.lookup_eq_some_iff hnd

theorem valueType_param {p} (hp : p ∈ f.params) : f.valueType p.id = some p.ty :=
  (valueType_eq_some_iff hnd).mpr (mem_append_left _ (List.mem_map.mpr ⟨p, hp, rfl⟩))

theorem valueType_blockParam {b} (hb : b ∈ f.blocks)
    {p} (hp : p ∈ b.params) : f.valueType p.id = some p.ty :=
  (valueType_eq_some_iff hnd).mpr (mem_append_right _ (mem_flatMap.mpr
    ⟨b, hb, mem_append_left _ (List.mem_map.mpr ⟨p, hp, rfl⟩)⟩))

theorem valueType_inst {b} (hb : b ∈ f.blocks)
    {i} (hi : i ∈ b.insts) : f.valueType i.id = some i.ty :=
  (valueType_eq_some_iff hnd).mpr (mem_append_right _ (mem_flatMap.mpr
    ⟨b, hb, mem_append_right _ (List.mem_map.mpr ⟨i, hi, rfl⟩)⟩))

theorem TypedEnv.exec {T W b} (hb : b ∈ f.blocks) {i} (hi : i ∈ b.insts) (h : f.TypedEnv σ.env)
    (hexec : i.exec T W σ = .ok σ') : f.TypedEnv σ'.env := by
  intro v x hx
  by_cases hv : v = i.id
  · subst hv
    rcases exec_env_self hexec hx with hx | hx
    · exact h _ _ hx
    · exact ⟨i.ty, valueType_inst hnd hb hi, hx⟩
  · rw [exec_env_ne hexec hv] at hx
    exact h v x hx

end Function

include hnd

theorem Launch.keeps_typed : L.Keeps f fun σ => f.TypedEnv σ.env where
  start σ hs := by
    refine TypedEnv.bindParams (fun v x hx => by cases hx) (fun p hp => ?_) (start_running hs).2.1
    obtain ⟨q, hq, rfl⟩ := List.mem_map.mp hp
    exact valueType_param hnd hq
  exec _ hb _ hi _ _ h he := h.exec hnd hb hi he
  enter b args σ σ' he h := by
    obtain ⟨-, dst, vals, env, hdst, -, hbind, rfl⟩ := enter_running he
    exact h.bindParams (fun p hp => valueType_blockParam hnd (mem_blocks_of_tryBlock hdst).1 hp) hbind

theorem Launch.Enters.typed (h : L.Enters f b σ) : f.TypedEnv σ.env := (keeps_typed hnd).enters h

theorem Launch.At.typed (h : L.At f b k σ) : f.TypedEnv σ.env := (keeps_typed hnd).at h

end Typed

/-! ## Values of instructions -/

section InstEnv

variable (hnd : f.collectDefinedValues.Nodup) {i : Inst} (hi : i ∈ f.allInsts)
include hnd hi

theorem Launch.start_env_inst (hs : L.start f = .running b σ) : σ.env i.id = none := by
  obtain ⟨c, hc, hic⟩ := mem_flatMap.mp hi
  rw [bindParams_env_of_not_mem (start_running hs).2.1]
  intro p hp e
  obtain ⟨q, hq, rfl⟩ := List.mem_map.mp hp
  exact param_ne_of_mem_block hnd hq hc (mem_append_right _ (List.mem_map_of_mem hic)) e.symm

theorem Function.enter_env_inst (hbs : f.BlocksNodup) {args} (henter : f.enter b args σ = .running b σ') :
    σ'.env i.id = σ.env i.id := by
  obtain ⟨c, hc, hic⟩ := mem_flatMap.mp hi
  obtain ⟨-, dst, vals, env, hdst, -, hbind, rfl⟩ := enter_running henter
  exact bindParams_env_of_not_mem hbind fun p hp =>
    inst_ne_blockParam hnd hbs hc (mem_blocks_of_tryBlock hdst).1 hic hp

end InstEnv

/-! ## Values without operands -/

/-- Instructions whose value does not depend on anything computed before. -/
def InstKind.isLeaf : InstKind → Bool
  | .constInt _ _ | .constFloat _ _ | .constBool _ | .constString _ | .undef _ | .alloca _ | .globalAddr _ => true
  | _ => false

theorem perform_leaf {T W} {i : Inst} (h : i.kind.isLeaf = true) (vals : List Val) (heap : Heap) :
    ∃ x, compute T W i [] = .value x ∧ perform T W i vals heap = .ok (some x) heap := by
  obtain ⟨id, kind, ty⟩ := i
  cases kind <;> simp [InstKind.isLeaf] at h <;> exact ⟨_, rfl, rfl⟩

def Function.LeafEnv (f : Function) (T : Target) (W : World) (env : Env) : Prop :=
  ∀ i ∈ f.allInsts, i.kind.isLeaf = true → ∀ x, env i.id = some x → compute T W i [] = .value x

section Leaf

variable (hnd : f.collectDefinedValues.Nodup) (hbs : f.BlocksNodup)
include hnd hbs

theorem Function.LeafEnv.exec {T W b} (hb : b ∈ f.blocks) {j} (hj : j ∈ b.insts) (h : f.LeafEnv T W σ.env)
    (hexec : j.exec T W σ = .ok σ') : f.LeafEnv T W σ'.env := by
  intro i hi hleaf x hx
  by_cases hij : i.id = j.id
  · obtain ⟨c, hc, hic⟩ := mem_flatMap.mp hi
    obtain ⟨-, rfl⟩ := inst_block_unique hnd hbs hc hb hic hj hij
    obtain ⟨vals, v, -, hperf, ⟨-, he⟩ | ⟨y, rfl, -, he⟩⟩ := exec_ok hexec
    · exact h i hi hleaf x (he ▸ hx)
    · obtain ⟨z, hz, hperf'⟩ := perform_leaf (T := T) (W := W) hleaf vals σ.toHeap
      rw [hperf', Effect.ok.injEq, some.injEq] at hperf
      rw [he, Env.set_self, some.injEq] at hx
      rw [hz, hperf.1, hx]
  · rw [exec_env_ne hexec hij] at hx
    exact h i hi hleaf x hx

theorem Launch.keeps_leaf : L.Keeps f fun σ => f.LeafEnv L.target L.world σ.env where
  start σ hs i hi _ x hx := by
    rw [start_env_inst hnd hi hs] at hx
    cases hx
  exec _ hb _ hi _ _ h he := h.exec hnd hbs hb hi he
  enter b args σ σ' he h i hi hleaf x hx := h i hi hleaf x (by rwa [enter_env_inst hnd hi hbs he] at hx)

theorem Launch.Enters.leaf (h : L.Enters f b σ) : f.LeafEnv L.target L.world σ.env := (keeps_leaf hnd hbs).enters h

theorem Launch.At.leaf (h : L.At f b k σ) : f.LeafEnv L.target L.world σ.env := (keeps_leaf hnd hbs).at h

end Leaf

end Armfortas.Ir
