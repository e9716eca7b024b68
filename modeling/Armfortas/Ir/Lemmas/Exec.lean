import Armfortas.Ir.Lemmas.Verify
import Armfortas.Ir.Semantics.Exec

/-! What an instruction, a block and a branch change; how execution depends on operands. -/
namespace Armfortas.Ir
open Lib List

/-- Values go to parameters one by one. -/
inductive Binds : List BlockParam → List Val → Env → Env → Prop
  | nil {env} : Binds [] [] env env
  | cons {p ps v vs env env'} (hty : v.hasType p.ty = true) (h : Binds ps vs (env.set p.id v) env') :
      Binds (p :: ps) (v :: vs) env env'

variable {i : Inst} {σ σ' : State} {u : ValueId} {x : Val} {ps : List BlockParam} {vals : List Val} {env env' : Env}

variable {T : Target} {W : World}

/-! ## Renaming operands -/

theorem perform_mapOperands (r : ValueId → ValueId) (i : Inst) (vals) (h : Heap) :
    perform T W (i.mapOperands r) vals h = perform T W i vals h := by
  obtain ⟨id, kind, ty⟩ := i
  cases kind with
  | call callee args => cases callee <;> rfl
  | runtimeCall rf args => cases rf <;> rfl
  | _ => rfl

/-! ## One instruction -/

theorem exec_ok (h : i.exec T W σ = .ok σ') :
    ∃ vals v, i.kind.operands.mapM σ.env = some vals ∧ perform T W i vals σ.toHeap = .ok v σ'.toHeap ∧
      ((v = none ∧ σ'.env = σ.env) ∨ ∃ x, v = some x ∧ x.hasType i.ty = true ∧ σ'.env = σ.env.set i.id x) := by
  unfold Inst.exec at h
  split at h
  · next vals hvals =>
    cases hp : perform T W i vals σ.toHeap with
    | halt why t => simp [hp, Effect.bind] at h
    | ok v heap =>
      rw [hp] at h
      cases v with
      | none =>
        simp only [Effect.bind, Result.ok.injEq] at h
        subst h
        exact ⟨vals, none, hvals, hp, .inl ⟨rfl, rfl⟩⟩
      | some x =>
        simp only [Effect.bind] at h
        split at h
        · next hx =>
          simp only [Result.ok.injEq] at h
          subst h
          exact ⟨vals, some x, hvals, hp, .inr ⟨x, rfl, hx, rfl⟩⟩
        · cases h
  · cases h

theorem exec_env_ne (h : i.exec T W σ = .ok σ') (hu : u ≠ i.id) : σ'.env u = σ.env u := by
  obtain ⟨_, _, _, _, ⟨-, he⟩ | ⟨x, -, -, he⟩⟩ := exec_ok h
  · rw [he]
  · rw [he, Env.set_ne _ _ hu]

theorem exec_env_self (h : i.exec T W σ = .ok σ') (hx : σ'.env i.id = some x) :
    σ.env i.id = some x ∨ x.hasType i.ty = true := by
  obtain ⟨_, _, _, _, ⟨-, he⟩ | ⟨y, -, hy, he⟩⟩ := exec_ok h
  · exact .inl (he ▸ hx)
  · rw [he, Env.set_self, Option.some.injEq] at hx
    exact .inr (hx ▸ hy)

/-! ## Sequences -/

theorem execInsts_append (is js σ) : execInsts T W (is ++ js) σ =
    match execInsts T W is σ with
    | .ok σ' => execInsts T W js σ'
    | .halt why t => .halt why t := by
  induction is generalizing σ with
  | nil => rfl
  | cons i is ih =>
    simp only [cons_append, execInsts]
    cases i.exec T W σ with
    | ok σ' => exact ih σ'
    | halt why t => rfl

theorem execInsts_append_ok {is js} :
    execInsts T W (is ++ js) σ = .ok σ' ↔ ∃ σ₁, execInsts T W is σ = .ok σ₁ ∧ execInsts T W js σ₁ = .ok σ' := by
  rw [execInsts_append]
  cases execInsts T W is σ with
  | ok σ₁ => simp
  | halt why t => simp

theorem execInsts_induction {is} {P : State → Prop} (h : execInsts T W is σ = .ok σ')
    (h₀ : P σ) (hstep : ∀ i ∈ is, ∀ σ σ', P σ → i.exec T W σ = .ok σ' → P σ') : P σ' := by
  induction is generalizing σ with
  | nil => simp only [execInsts, Result.ok.injEq] at h; exact h ▸ h₀
  | cons i is ih =>
    simp only [execInsts] at h
    split at h
    · next σ₁ h₁ =>
      exact ih h (hstep i mem_cons_self _ _ h₀ h₁) fun j hj => hstep j (.tail _ hj)
    · cases h

/-! ## Parameters -/

theorem binds_iff : Binds ps vals env env' ↔ bindParams ps vals env = some env' := by
  constructor
  · intro h
    induction h with
    | nil => rfl
    | cons hty _ ih => rw [bindParams, if_pos hty, ih]
  · intro h
    induction ps generalizing vals env with
    | nil =>
      cases vals with
      | nil => exact Option.some.inj h ▸ .nil
      | cons v vs => cases h
    | cons p ps ih =>
      cases vals with
      | nil => cases h
      | cons v vs =>
        rw [bindParams] at h
        split at h
        · next hty => exact .cons hty (ih h)
        · cases h

theorem bindParams_env_of_not_mem
    (h : bindParams ps vals env = some env') (hu : ∀ p ∈ ps, u ≠ p.id) : env' u = env u := by
  replace h := binds_iff.mpr h
  induction h with
  | nil => rfl
  | cons _ _ ih => rw [ih fun q hq => hu q (.tail _ hq), Env.set_ne _ _ (hu _ mem_cons_self)]

theorem bindParams_params (h : bindParams ps vals env = some env') (hx : env' u = some x) :
    env u = some x ∨ ∃ pos : Nat, ∃ p : BlockParam, ps[pos]? = some p ∧ p.id = u ∧ vals[pos]? = some x := by
  replace h := binds_iff.mpr h
  induction h with
  | nil => exact .inl hx
  | @cons p ps v vs env env' _ _ ih =>
    rcases ih hx with hold | ⟨pos, q, hq, hqu, hv⟩
    · by_cases hu : u = p.id
      · subst hu
        rw [Env.set_self] at hold
        exact .inr ⟨0, p, rfl, rfl, hold⟩
      · exact .inl (by rwa [Env.set_ne _ _ hu] at hold)
    · exact .inr ⟨pos + 1, q, hq, hqu, hv⟩

theorem bindParams_cases (h : bindParams ps vals env = some env') (hx : env' u = some x) :
    env u = some x ∨ x ∈ vals := by
  rcases bindParams_params h hx with hold | ⟨pos, p, -, -, hv⟩
  · exact .inl hold
  · exact .inr (mem_of_getElem? hv)

theorem bindParams_env_getElem? (h : bindParams ps vals env = some env') (hnd : (ps.map (·.id)).Nodup) {k : Nat} {p}
    (hp : ps[k]? = some p) : ∃ v, vals[k]? = some v ∧ v.hasType p.ty = true ∧ env' p.id = some v := by
  replace h := binds_iff.mpr h
  induction h generalizing k with
  | nil => cases hp
  | @cons q ps v vs env env' hty h ih =>
    rw [map_cons, nodup_cons] at hnd
    cases k with
    | zero =>
      cases hp
      have hne : ∀ r ∈ ps, p.id ≠ r.id := fun r hr e => hnd.1 (e ▸ mem_map_of_mem hr)
      exact ⟨v, rfl, hty, by rw [bindParams_env_of_not_mem (binds_iff.mp h) hne, Env.set_self]⟩
    | succ k => exact ih hnd.2 hp

theorem Function.enter_running {f : Function} {dest b args} (h : f.enter dest args σ = .running b σ') :
    b = dest ∧ ∃ blk vals env, f.tryBlock dest = some blk ∧ args.mapM σ.env = some vals ∧
      bindParams blk.params vals σ.env = some env ∧ σ' = { σ with env := env } := by
  unfold Function.enter at h
  split at h
  · next blk vals hblk hvals =>
    split at h
    · next env henv =>
      simp only [Outcome.running.injEq] at h
      exact ⟨h.1.symm, blk, vals, env, hblk, hvals, henv, h.2.symm⟩
    · cases h
  · cases h

theorem Function.enter_cases (f : Function) (dest args σ) :
    f.enter dest args σ = .halted .stuck σ.trace ∨ ∃ σ', f.enter dest args σ = .running dest σ' := by
  unfold Function.enter
  split
  · split
    · exact .inr ⟨_, rfl⟩
    · exact .inl rfl
  · exact .inl rfl

end Armfortas.Ir
