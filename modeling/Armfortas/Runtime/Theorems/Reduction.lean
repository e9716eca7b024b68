import Armfortas.Runtime.Lemmas.ReductionTeam

/-! Whatever the interleaving, each reduction gives every member the original value combined with the private values
in the order of the threads. Arrays without elements are refused. -/
namespace Armfortas.Runtime.Openmp

namespace ReductionTeam

variable {n : Nat} {plan : List (Reduction n)} {s : ReductionTeam n}

/-- What a sequence of reductions promises at every moment of a run. -/
structure Safe (plan : List (Reduction n)) (s : ReductionTeam n) : Prop where
  /-- The calls that have returned gave the folds of their rounds. -/
  outcomes : ∀ m, (s.members m).outcomes = (plan.take (s.members m).round).map Reduction.expected
  /-- Thread 0 combines values of its own round only. -/
  folds : ∀ m r, m.val = 0 → (s.members m).phase = .fold → plan[(s.members m).round]? = some r →
    ∀ m', r.Written m' s.workspace
  /-- What a member is about to read is the result of its own round. -/
  reads : ∀ m r, (s.members m).phase = .read → plan[(s.members m).round]? = some r →
    (r.call m).read s.workspace = r.expected
  /-- If no member can go on, all calls have returned. -/
  complete : (∀ m, s.step plan m = none) → ∀ m, (s.members m).outcomes = plan.map Reduction.expected

theorem Inv.safe (hinv : Inv plan s) (hvalid : ∀ r ∈ plan, r.Valid) : Safe plan s where
  outcomes := hinv.outcomes
  folds m r _ hphase hr := hinv.all_written hr hphase
  reads m r hphase hr := hinv.result m r hr (.inl (.inl hphase)) m
  complete hstuck m := by rw [hinv.outcomes m, hinv.complete hvalid hstuck m, List.take_length]

theorem inv_initial (h : 0 < n) : Inv plan initial where
  barrier := Lib.Barrier.ok_initial h
  generation m g hg := by rcases hg with hg | hg <;> cases hg
  round m hne := absurd rfl hne
  bound _ := Nat.zero_le _
  outcomes _ := rfl
  written _ _ _ hne := absurd rfl hne
  result m r _ hsees := by
    rcases hsees with (hread | ⟨g, hg, _⟩) | ⟨_, h | ⟨g, h⟩⟩
    · cases hread
    · cases hg
    · cases h
    · cases h

theorem inv_run (hinv : Inv plan s) (hvalid : ∀ r ∈ plan, r.Valid) (schedule : List (Fin n)) :
    Inv plan (s.run plan schedule) := by
  induction schedule generalizing s with
  | nil => exact hinv
  | cons m schedule ih =>
    rw [run]
    cases hstep : s.step plan m with
    | none => exact ih hinv
    | some s' => exact ih (hinv.step hvalid hstep)

end ReductionTeam

open ReductionTeam

/-- For arrays of at least one element, every run of every team keeps the promise. -/
theorem reductions_fold (teamSize : Nat) (plan : List (Reduction teamSize)) (hvalid : ∀ r ∈ plan, r.Valid)
    (schedule : List (Fin teamSize)) : Safe plan (initial.run plan schedule) := by
  rcases Nat.eq_zero_or_pos teamSize with rfl | hsize
  · exact ⟨fun m => m.elim0, fun m => m.elim0, fun m => m.elim0, fun _ m => m.elim0⟩
  · exact (inv_run (inv_initial hsize) hvalid schedule).safe hvalid

/-- A sum, an array of two and one of three. -/
def threeReductions : List (Reduction 2) :=
  [.i64 .add 10 fun m => .ofNat 64 m.val,
    .array .max .i16 [5, 6] (fun m => [.ofNat _ (8 * m.val), 7]) fun _ => rfl,
    .array .multiply .i8 [1, 2, 3] (fun _ => [4, 100, 6]) fun _ => rfl]

theorem reductions_fold_threeReductions :
    (∀ r ∈ threeReductions, r.Valid) ∧
      Safe threeReductions (initial.run threeReductions [0, 0, 1, 1, 0, 0, 1, 1, 0, 1]) :=
  ⟨by decide, reductions_fold 2 threeReductions (by decide) _⟩

def emptyArray : List (Reduction 1) := [.array .add .i32 [] (fun _ => []) fun _ => rfl]

/-- The first call fails, and so it does not give the empty array. -/
theorem reductions_emptyArray : ¬ Safe emptyArray (initial.run emptyArray [0]) := by
  intro hsafe
  have houtcomes := hsafe.outcomes 0
  revert houtcomes
  decide

end Armfortas.Runtime.Openmp
