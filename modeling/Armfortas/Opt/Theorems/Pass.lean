import Armfortas.Opt.Theorems.Cse
import Armfortas.Opt.Pass

/-! Correct passes make a correct pipeline, and it stops where no pass has anything left to do. -/
namespace Armfortas.Opt
open Ir Cse List

/-- Where sums, products and equalities of floats commute, the second module does what the first does. -/
def Refines (M N : Module) : Prop :=
  ∀ L : Start, FloatsCommute L.target → ∀ n, Fuelled.Follows Stuck (L.run M n) (L.run N n)

theorem Refines.trans {M N K} (h : Refines M N) (h' : Refines N K) : Refines M K := by
  intro L hL n
  rcases h L hL n with hstuck | heq
  · exact .inl hstuck
  · exact heq ▸ h' L hL n

structure Pass.Correct (pass : Pass) : Prop where
  verified : ∀ M, M.Verified → (pass.run M).1.Verified
  refines : ∀ M, M.Verified → Refines M (pass.run M).1
  honest : ∀ M, (pass.run M).2 = false → pass.run M = (M, false)

theorem verifyModuleOrPanic_eq {M} (hM : M.Verified) (after) : verifyModuleOrPanic M after = .ok () := by
  rw [verifyModuleOrPanic, if_pos hM.accepted]

theorem runOnce_spec {v passes M} (hpasses : ∀ pass ∈ passes, pass.Correct) (hM : M.Verified) :
    ∃ N changing, runOnce v passes M = .ok (N, changing) ∧ N.Verified ∧ Refines M N ∧
      (changing = [] → N = M ∧ ∀ pass ∈ passes, pass.run M = (M, false)) := by
  induction passes generalizing M with
  | nil => exact ⟨M, [], rfl, hM, fun _ _ _ => .refl _, by simp⟩
  | cons pass passes ih =>
    obtain ⟨hpass, hpasses⟩ := forall_mem_cons.mp hpasses
    have hM' := hpass.verified M hM
    obtain ⟨N, changing, hrun, hN, href, hstill⟩ := ih hpasses hM'
    refine ⟨N, if (pass.run M).2 then pass.name :: changing else changing, ?_, hN,
      (hpass.refines M hM).trans href, fun h => ?_⟩
    · simp only [runOnce, verifyModuleOrPanic_eq hM', hrun]
      split <;> rfl
    · have hc : (pass.run M).2 = false := Bool.eq_false_iff.mpr fun hc => by simp [hc] at h
      have heq := hpass.honest M hc
      rw [heq] at h hstill
      obtain ⟨rfl, hrest⟩ := hstill (by simpa using h)
      exact ⟨rfl, forall_mem_cons.mpr ⟨heq, hrest⟩⟩

theorem PassManager.iterate_spec {pm : PassManager} (hpasses : ∀ pass ∈ pm.passes, pass.Correct) {M} (hM : M.Verified)
    (left done changing) : ∃ N result, pm.iterate left M done changing = .ok (N, result) ∧ N.Verified ∧ Refines M N ∧
      ∀ r, result = .ok r → done.iterations < r.iterations ∧ r.iterations ≤ done.iterations + left ∧
        ∀ pass ∈ pm.passes, pass.run N = (N, false) := by
  induction left generalizing M done changing with
  | zero => exact ⟨M, _, rfl, hM, fun _ _ _ => .refl _, nofun⟩
  | succ left ih =>
    obtain ⟨K, names, hrun, hK, href, hstill⟩ := runOnce_spec (v := pm.verifyAfterEach) hpasses hM
    rw [iterate, hrun]
    by_cases hnames : names = []
    · obtain ⟨rfl, hstill⟩ := hstill hnames
      refine ⟨K, _, if_pos hnames, hK, href, ?_⟩
      rintro _ ⟨⟩
      exact ⟨by simp, by simp, hstill⟩
    · obtain ⟨N, result, hrest, hN, href', hok⟩ := ih hK ⟨done.changeCount + names.length, done.iterations + 1⟩ names
      refine ⟨N, result, (if_neg hnames).trans hrest, hN, href.trans href', fun r hr => ?_⟩
      obtain ⟨hlt, hle, hstill⟩ := hok r hr
      dsimp only at hlt hle
      exact ⟨by omega, by omega, hstill⟩

/-- Correct passes never make the manager panic, and the module it returns does what it was given to do. Where it
reports success, no pass changes that module any more. -/
theorem passManager_run (pm : PassManager) (hpasses : ∀ pass ∈ pm.passes, pass.Correct) (M : Module) (hM : M.Verified) :
    ∃ N result, pm.run M = .ok (N, result) ∧ N.Verified ∧ Refines M N ∧
      ∀ r, result = .ok r → 0 < r.iterations ∧ r.iterations ≤ pm.maxIterations ∧
        ∀ pass ∈ pm.passes, pass.run N = (N, false) := by
  obtain ⟨N, result, hrun, hN, href, hok⟩ := pm.iterate_spec hpasses hM pm.maxIterations ⟨0, 0⟩ []
  refine ⟨N, result, ?_, hN, href, by simpa using hok⟩
  simp only [PassManager.run, verifyModuleOrPanic_eq hM, hrun, bind, Except.bind, verifyModuleOrPanic_eq hN]
  rfl

def localCse : Pass := ⟨"local-cse", Cse.run⟩

theorem localCse_passCorrect : localCse.Correct where
  verified _ hM := run_verified hM
  refines _ hM L hL n := (callsSame hM (fun _ _ _ _ _ _ _ => hL) n).invoke 0 L.entry L.args L.args L.heap rfl
  honest M h := by
    have hsame : ∀ e ∈ M.functions.zipIdx, cseFunction (decide (e.2 ∈ Fpenv.mayCrossFpenvBarrier M)) e.1 = e.1 :=
      fun e he => if_pos (by simpa using any_eq_false.mp h e he)
    refine Prod.ext ?_ h
    simp only [localCse, Cse.run, map_congr_left hsame, zipIdx_map_fst]

theorem passManager_run_twice : twiceModule.Verified ∧
    ∃ N result, PassManager.run ⟨[localCse], true, 32⟩ twiceModule = .ok (N, result) ∧ N.Verified ∧
      Refines twiceModule N ∧ ∀ r, result = .ok r → 0 < r.iterations ∧ r.iterations ≤ 32 ∧
        ∀ pass ∈ [localCse], pass.run N = (N, false) :=
  have hM : twiceModule.Verified := by decide
  ⟨hM, passManager_run ⟨[localCse], true, 32⟩ (by simpa using localCse_passCorrect) twiceModule hM⟩

end Armfortas.Opt
