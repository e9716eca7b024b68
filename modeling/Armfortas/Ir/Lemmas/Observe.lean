import Armfortas.Ir.Lemmas.Prune

/-! A pass that merges blocks takes points out of a run. What is left to compare are the events, in their order, and
the end, if there is one. -/
namespace Armfortas.Ir
open List Ir.Function Launch

/-! ## Events only ever come in addition -/

def Effect.trace : Effect → List Event
  | .ok _ h => h.trace
  | .halt _ t => t

def Result.trace : Result → List Event
  | .ok σ => σ.trace
  | .halt _ t => t

def Outcome.trace : Outcome → List Event
  | .running _ σ => σ.trace
  | .returned _ σ => σ.trace
  | .halted _ t => t

theorem perform_trace (T W i vals) (h : Heap) : h.trace <:+ (perform T W i vals h).trace := by
  have hcall : ∀ c args, h.trace <:+ (execCall W i.ty c args h).trace := by
    intro c args
    unfold execCall
    dsimp only
    split <;> exact suffix_cons _ _
  have hload : ∀ p, h.trace <:+ (execLoad T i.ty p h).trace := by
    intro p
    unfold execLoad
    repeat' split
    all_goals exact suffix_rfl
  have hstore : ∀ v p, h.trace <:+ (execStore v p h).trace := by
    intro v p
    unfold execStore
    split
    · exact suffix_rfl
    · exact suffix_cons _ _
  have hvload : ∀ p, h.trace <:+ (execVolatileLoad T W i.ty p h).trace := by
    intro p
    unfold execVolatileLoad
    dsimp only
    repeat' split
    all_goals first | exact suffix_rfl | exact suffix_cons _ _
  have hvstore : ∀ v p, h.trace <:+ (execVolatileStore v p h).trace := by
    intro v p
    unfold execVolatileStore
    split
    · exact suffix_rfl
    · exact suffix_cons _ _
  have hbounds : h.trace <:+ (execCheckBounds T vals h).trace := by
    unfold execCheckBounds
    repeat' split
    all_goals first | exact suffix_rfl | exact suffix_cons _ _
  have hptr : ∀ k : Ptr → Effect, (∀ p, h.trace <:+ (k p).trace) → h.trace <:+ (withPtr vals h k).trace := by
    intro k hk
    unfold withPtr
    split
    · exact hk _
    · exact suffix_rfl
  have hvalptr : ∀ k : Val → Ptr → Effect, (∀ v p, h.trace <:+ (k v p).trace) →
      h.trace <:+ (withValueAndPtr vals h k).trace := by
    intro k hk
    unfold withValueAndPtr
    split
    · exact hk _ _
    · exact suffix_rfl
  unfold perform
  split
  case h_1 | h_2 => exact hptr _ hload
  case h_3 | h_4 => exact hvalptr _ hstore
  case h_5 => exact hptr _ hvload
  case h_6 => exact hvalptr _ hvstore
  case h_7 =>
    split
    · exact hcall _ _
    · exact suffix_rfl
  case h_8 | h_9 | h_11 => exact hcall _ _
  case h_10 => exact hbounds
  case h_12 => split <;> exact suffix_rfl

theorem Inst.exec_trace (T W) (i : Inst) (σ : State) : σ.trace <:+ (i.exec T W σ).trace := by
  unfold Inst.exec
  split
  · next vals _ =>
    have h := perform_trace T W i vals σ.toHeap
    cases he : perform T W i vals σ.toHeap with
    | ok v heap =>
      rw [he] at h
      cases v with
      | none => exact h
      | some v =>
        simp only [Effect.bind]
        split <;> exact h
    | halt why t => rwa [he] at h
  · exact suffix_rfl

theorem execInsts_trace (T W is) (σ : State) : σ.trace <:+ (execInsts T W is σ).trace := by
  induction is generalizing σ with
  | nil => exact suffix_rfl
  | cons i is ih =>
    have h := Inst.exec_trace T W i σ
    rw [execInsts]
    cases he : i.exec T W σ with
    | ok σ₁ =>
      rw [he] at h
      exact h.trans (ih σ₁)
    | halt why t => rwa [he] at h

theorem Function.enter_trace (f : Function) (dest args σ) : (f.enter dest args σ).trace = σ.trace := by
  unfold enter
  repeat' split
  all_goals rfl

theorem Function.execTerm_trace (f : Function) (T t σ) : (f.execTerm T t σ).trace = σ.trace := by
  rcases execTerm_cases f T t σ with ⟨dest, args, htk⟩ | ⟨-, h⟩ | ⟨v, x, -, -, h⟩ | ⟨-, h⟩ | h
  · rw [htk.execTerm, enter_trace]
  all_goals rw [h]; rfl

theorem Function.step_trace (f : Function) (T W) (o : Outcome) : o.trace <:+ (f.step T W o).trace := by
  cases o with
  | running b σ =>
    simp only [step, execBlock]
    cases hb : f.tryBlock b with
    | none => exact suffix_rfl
    | some blk =>
      have h := execInsts_trace T W blk.insts σ
      dsimp only
      cases he : execInsts T W blk.insts σ with
      | halt why t => rwa [he] at h
      | ok σ₁ =>
        rw [he] at h
        cases ht : blk.terminator with
        | none => exact h
        | some t =>
          dsimp only
          rwa [execTerm_trace]
  | returned v σ => exact suffix_rfl
  | halted why t => exact suffix_rfl

theorem Launch.run_trace (L : Launch) (f) {n m} (h : n ≤ m) : (L.run f n).trace <:+ (L.run f m).trace := by
  induction m, h using Nat.le_induction with
  | base => exact suffix_rfl
  | succ m _ ih => exact ih.trans (f.step_trace L.target L.world _)

/-! ## Nothing is seen in one run that is not seen in the other -/

/-- What has happened at the first point has happened at the second, and if the first is the end of its run,
the second is the same end. -/
def Outcome.Within : Outcome → Outcome → Prop
  | .running _ σ, o => σ.trace <:+ o.trace
  | o, o' => o.Alike o'

/-- Either run sees the events of the other in the same order, and ends as the other does. -/
def Launch.Matches (L : Launch) (f g : Function) : Prop :=
  (∀ n, ∃ m, (L.run f n).Within (L.run g m)) ∧ ∀ m, ∃ n, (L.run g m).Within (L.run f n)

def Launch.Diverges (L : Launch) (f : Function) : Prop := ∀ n, ∃ b σ, L.run f n = .running b σ

section Matches

variable {L : Launch} {f g h : Function}

theorem Launch.Matches.symm (hm : L.Matches f g) : L.Matches g f := ⟨hm.2, hm.1⟩

theorem Launch.Matches.diverges (hm : L.Matches f g) (hd : L.Diverges f) : L.Diverges g := by
  intro m
  obtain ⟨n, hn⟩ := hm.2 m
  obtain ⟨b, σ, hr⟩ := hd n
  rw [hr] at hn
  cases hg : L.run g m with
  | running b' σ' => exact ⟨b', σ', rfl⟩
  | returned v σ' =>
    rw [hg] at hn
    exact hn.elim
  | halted why t =>
    rw [hg] at hn
    exact hn.elim

theorem Launch.Matches.diverges_iff (hm : L.Matches f g) : L.Diverges f ↔ L.Diverges g :=
  ⟨hm.diverges, hm.symm.diverges⟩

/-! ## Leaving points out -/

/-- The run of `g` is the run of `f` with some points left out. -/
def Launch.Samples (L : Launch) (f g : Function) : Prop := ∀ m, ∃ n, m ≤ n ∧ L.run g m = L.run f n

theorem Launch.Samples.of_run_eq (hr : ∀ n, L.run g n = L.run f n) : L.Samples f g := fun m => ⟨m, le_rfl, hr m⟩

theorem Launch.Samples.trans (hfg : L.Samples f g) (hgh : L.Samples g h) : L.Samples f h := by
  intro k
  obtain ⟨m, hkm, hm⟩ := hgh k
  obtain ⟨n, hmn, hn⟩ := hfg m
  exact ⟨n, hkm.trans hmn, hm.trans hn⟩

theorem Launch.Samples.matches (hs : L.Samples f g) : L.Matches f g := by
  have hself : ∀ o : Outcome, o.Within o := by
    intro o
    cases o with
    | running b σ => exact suffix_rfl
    | returned v σ => exact Outcome.Alike.refl (.returned v σ)
    | halted why t => exact Outcome.Alike.refl (.halted why t)
  constructor
  · intro n
    obtain ⟨k, hnk, hk⟩ := hs n
    refine ⟨n, ?_⟩
    rw [hk]
    cases hr : L.run f n with
    | running b σ =>
      have h := L.run_trace f hnk
      rw [hr] at h
      exact h
    | returned v σ =>
      rw [run_of_returned hr hnk]
      exact hself _
    | halted why t =>
      rw [run_of_step_eq (fun T W => by rw [hr]; rfl) hnk, hr]
      exact hself _
  · intro m
    obtain ⟨n, -, hn⟩ := hs m
    exact ⟨n, hn ▸ hself _⟩

/-- In the blocks `K`, which `g` never leaves, `g` does one or two steps of `f` at a time. -/
theorem Launch.samples_of_blocks {K : BlockId → Prop} (hstart : L.start g = L.start f) (hentry : K f.entry)
    (hkeep : ∀ b b' σ σ', K b → g.execBlock L.target L.world b σ = .running b' σ' → K b')
    (hstep : ∀ b σ, K b → g.execBlock L.target L.world b σ = f.execBlock L.target L.world b σ ∨
      g.execBlock L.target L.world b σ = f.step L.target L.world (f.execBlock L.target L.world b σ)) :
    L.Samples f g := by
  have hK : ∀ m b σ, L.run g m = .running b σ → K b := by
    intro m
    induction m with
    | zero =>
      intro b σ hr
      rw [run, hstart] at hr
      obtain ⟨rfl, -⟩ := start_running hr
      exact hentry
    | succ m ih =>
      intro b σ hr
      rw [run] at hr
      cases hg : L.run g m with
      | running c τ =>
        rw [hg] at hr
        exact hkeep c b τ σ (ih c τ hg) hr
      | returned v τ =>
        rw [hg] at hr
        cases hr
      | halted why t =>
        rw [hg] at hr
        cases hr
  intro m
  induction m with
  | zero => exact ⟨0, le_rfl, hstart⟩
  | succ m ih =>
    obtain ⟨n, hmn, hn⟩ := ih
    cases hr : L.run f n with
    | running b σ =>
      have hg := hn.trans hr
      rcases hstep b σ (hK m b σ hg) with h₁ | h₂
      · refine ⟨n + 1, by omega, ?_⟩
        rw [run, hg, run, hr]
        exact h₁
      · refine ⟨n + 2, by omega, ?_⟩
        rw [run, hg, run, run, hr]
        exact h₂
    | returned v σ =>
      refine ⟨n + 1, by omega, ?_⟩
      rw [run, hn, run, hr]
      rfl
    | halted why t =>
      refine ⟨n + 1, by omega, ?_⟩
      rw [run, hn, run, hr]
      rfl

end Matches

end Armfortas.Ir
