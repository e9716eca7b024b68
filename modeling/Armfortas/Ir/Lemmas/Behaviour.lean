import Armfortas.Ir.Lemmas.Simulation

/-! Two functions behave alike when neither can be told from the other by its calls, stores, volatile accesses and
result. They need not take the same number of blocks. -/
namespace Armfortas.Ir
open Launch

/-- Nothing outside tells the two points apart. -/
def Outcome.Alike : Outcome → Outcome → Prop
  | .running _ σ, .running _ σ' => σ.toHeap = σ'.toHeap
  | .returned v σ, .returned v' σ' => v = v' ∧ σ.toHeap = σ'.toHeap
  | .halted why t, .halted why' t' => why = why' ∧ t = t'
  | _, _ => False

theorem Outcome.Alike.refl (o : Outcome) : o.Alike o := by
  cases o <;> simp [Outcome.Alike]

theorem Outcome.Alike.trans {o₁ o₂ o₃ : Outcome} (h : o₁.Alike o₂) (h' : o₂.Alike o₃) : o₁.Alike o₃ := by
  cases o₁ <;> cases o₂ <;> cases o₃ <;> simp_all [Outcome.Alike]

def Launch.Defined (L : Launch) (f : Function) : Prop := ∀ n t, L.run f n ≠ .halted .stuck t

/-- Every point of a defined run of `f` is matched by one of `g` and the other way round. In particular
both return the same, halt alike, or both go on forever. -/
def Launch.Behaves (L : Launch) (f g : Function) : Prop :=
  L.Defined f → (∀ n, ∃ m, (L.run f n).Alike (L.run g m)) ∧ ∀ m, ∃ n, (L.run f n).Alike (L.run g m)

section Behaves

variable {L : Launch} {f g h : Function}

theorem Launch.Behaves.defined (hb : L.Behaves f g) (hf : L.Defined f) : L.Defined g := by
  intro m t hg
  obtain ⟨n, hn⟩ := (hb hf).2 m
  rw [hg] at hn
  cases hr : L.run f n with
  | halted why t' =>
    rw [hr] at hn
    exact hf n t' (by rw [hr, hn.1])
  | _ => rw [hr] at hn; exact hn

theorem Launch.Behaves.trans (hfg : L.Behaves f g) (hgh : L.Behaves g h) : L.Behaves f h := by
  intro hf
  have hg := hfg.defined hf
  constructor
  · intro n
    obtain ⟨m, hm⟩ := (hfg hf).1 n
    obtain ⟨k, hk⟩ := (hgh hg).1 m
    exact ⟨k, hm.trans hk⟩
  · intro k
    obtain ⟨m, hm⟩ := (hgh hg).2 k
    obtain ⟨n, hn⟩ := (hfg hf).2 m
    exact ⟨n, hn.trans hm⟩

theorem Launch.Behaves.refl (L : Launch) (f) : L.Behaves f f := fun _ =>
  ⟨fun n => ⟨n, .refl _⟩, fun n => ⟨n, .refl _⟩⟩

theorem Outcome.Agrees.alike {o o' : Outcome} (ha : o.Agrees o') (hdef : ∀ t, o ≠ .halted .stuck t) : o.Alike o' := by
  cases ha with
  | stuck => exact absurd rfl (hdef _)
  | halted h => exact ⟨rfl, h⟩
  | returned h => exact ⟨rfl, h⟩
  | running h => exact h

/-! ## Runs that end -/

theorem Launch.run_of_step_eq {n m} (h : ∀ T W, f.step T W (L.run f n) = L.run f n) (hnm : n ≤ m) :
    L.run f m = L.run f n := by
  induction m, hnm using Nat.le_induction with
  | base => rfl
  | succ m _ ih => rw [run, ih, h]

theorem Launch.run_of_returned {n m v σ} (h : L.run f n = .returned v σ) (hnm : n ≤ m) : L.run f m = .returned v σ := by
  rw [run_of_step_eq (fun T W => by rw [h]; rfl) hnm, h]

theorem Launch.Defined.of_returned {n v σ} (h : L.run f n = .returned v σ) : L.Defined f := by
  intro m t hm
  rcases Nat.le_total n m with hnm | hmn
  · rw [run_of_returned h hnm] at hm
    cases hm
  · rw [run_of_step_eq (fun T W => by rw [hm]; rfl) hmn, hm] at h
    cases h

theorem Launch.Behaves.returned (hb : L.Behaves f g) {n m v v' σ σ'}
    (hf : L.run f n = .returned v σ) (hg : L.run g m = .returned v' σ') : v = v' ∧ σ.toHeap = σ'.toHeap := by
  obtain ⟨k, hk⟩ := (hb (.of_returned hf)).1 n
  rw [hf] at hk
  cases hr : L.run g k with
  | returned w τ =>
    rw [hr] at hk
    rcases Nat.le_total m k with h | h
    · rw [run_of_returned hg h, Outcome.returned.injEq] at hr
      rw [hr.1, hr.2]
      exact hk
    · rw [run_of_returned hr h, Outcome.returned.injEq] at hg
      rw [← hg.1, ← hg.2]
      exact hk
  | _ => rw [hr] at hk; exact hk.elim

theorem Launch.Behaves.returnValue (hb : L.Behaves f g) {n m v v'}
    (hf : (L.run f n).returnValue = some v) (hg : (L.run g m).returnValue = some v') : v = v' := by
  obtain ⟨σ, hσ⟩ := Outcome.returnValue_eq_some hf
  obtain ⟨σ', hσ'⟩ := Outcome.returnValue_eq_some hg
  exact (hb.returned hσ hσ').1

end Behaves

/-! ## Skipping blocks -/

theorem Outcome.Sim.cases {R : BlockId → Env → Env → Prop} {o o'} (h : Outcome.Sim R o o')
    (hdef : ∀ t, o ≠ .halted .stuck t) :
    (∃ b σ σ', o = .running b σ ∧ o' = .running b σ' ∧ σ.toHeap = σ'.toHeap ∧ R b σ.env σ'.env) ∨
    ∀ (f : Function) (T : Target) (W : World), f.step T W o = o ∧ f.step T W o' = o' := by
  cases h with
  | stuck => exact absurd rfl (hdef _)
  | halted _ => exact .inr fun _ _ _ => ⟨rfl, rfl⟩
  | returned _ => exact .inr fun _ _ _ => ⟨rfl, rfl⟩
  | running h => exact .inl ⟨_, _, _, rfl, rfl, h⟩

section Stutter

variable {L : Launch} {f g : Function} {R : BlockId → Env → Env → Prop}

/-- From `b` the run of `f` passes through a block that does nothing and arrives where `g` is. -/
def Launch.Skips (L : Launch) (f : Function) (R : BlockId → Env → Env → Prop) (b : BlockId) (σ : State)
    (o : Outcome) : Prop :=
  ∃ j σ₁ d σ₂, f.execBlock L.target L.world b σ = .running j σ₁ ∧
    f.execBlock L.target L.world j σ₁ = .running d σ₂ ∧ σ₁.toHeap = σ₂.toHeap ∧ Outcome.Sim R (.running d σ₂) o

variable (hf : L.Defined f) (hstart : Outcome.Sim R (L.start f) (L.start g))
  (hstep : ∀ b σ σ', L.Enters f b σ → σ.toHeap = σ'.toHeap → R b σ.env σ'.env →
    Outcome.Sim R (f.execBlock L.target L.world b σ) (g.execBlock L.target L.world b σ') ∨
    L.Skips f R b σ (g.execBlock L.target L.world b σ'))

include hf hstart hstep

theorem Launch.exists_sim_of_target (m) : ∃ n, Outcome.Sim R (L.run f n) (L.run g m) := by
  induction m with
  | zero => exact ⟨0, hstart⟩
  | succ m ih =>
    obtain ⟨n, hn⟩ := ih
    rcases hn.cases (hf n) with ⟨b, σ, σ', hr, hg, hheap, hR⟩ | hdone
    · rcases hstep b σ σ' ⟨n, hr⟩ hheap hR with hs | ⟨j, σ₁, d, σ₂, h₁, h₂, -, hs⟩
      · refine ⟨n + 1, ?_⟩
        simp only [run, hr, hg, Function.step]
        exact hs
      · refine ⟨n + 2, ?_⟩
        simp only [run, hr, hg, Function.step, h₁, h₂]
        exact hs
    · refine ⟨n, ?_⟩
      rw [run, (hdone g L.target L.world).2]
      exact hn

theorem Launch.exists_sim_of_source (n) : ∃ m, Outcome.Sim R (L.run f n) (L.run g m) ∨
    ∃ j σ₁ d σ₂, L.run f n = .running j σ₁ ∧ f.execBlock L.target L.world j σ₁ = .running d σ₂ ∧
      σ₁.toHeap = σ₂.toHeap ∧ Outcome.Sim R (.running d σ₂) (L.run g m) := by
  induction n with
  | zero => exact ⟨0, .inl hstart⟩
  | succ n ih =>
    obtain ⟨m, hn | ⟨j, σ₁, d, σ₂, h₁, h₂, -, hs⟩⟩ := ih
    · rcases hn.cases (hf n) with ⟨b, σ, σ', hr, hg, hheap, hR⟩ | hdone
      · refine ⟨m + 1, ?_⟩
        simp only [run, hr, hg, Function.step]
        rcases hstep b σ σ' ⟨n, hr⟩ hheap hR with hs | ⟨j, σ₁, d, σ₂, h₁, h₂, hheap₁, hs⟩
        · exact .inl hs
        · exact .inr ⟨j, σ₁, d, σ₂, h₁, h₂, hheap₁, hs⟩
      · refine ⟨m, .inl ?_⟩
        rw [run, (hdone f L.target L.world).1]
        exact hn
    · refine ⟨m, .inl ?_⟩
      simp only [run, h₁, Function.step, h₂]
      exact hs

theorem Launch.behaves_of_skips : L.Behaves f g := by
  intro _
  constructor
  · intro n
    obtain ⟨m, hs | ⟨j, σ₁, d, σ₂, h₁, -, hheap, hs⟩⟩ := exists_sim_of_source hf hstart hstep n
    · exact ⟨m, hs.agrees.alike (hf n)⟩
    · refine ⟨m, ?_⟩
      have ha := hs.agrees.alike (by simp)
      rw [h₁]
      refine Outcome.Alike.trans ?_ ha
      exact hheap
  · intro m
    obtain ⟨n, hs⟩ := exists_sim_of_target hf hstart hstep m
    exact ⟨n, hs.agrees.alike (hf n)⟩

end Stutter

end Armfortas.Ir
