import Armfortas.Runtime.Lemmas.OrderedProgress

/-! Whatever the interleaving, as long as a member's generation counter does not come round to zero. -/
namespace Armfortas.Runtime.Openmp

namespace OrderedTeam

variable {n : Nat} {plan : OrderedPlan n} {teamSize : Int32} {s : OrderedTeam n}

/-- What ordered loops promise at every moment of a run. -/
structure Safe (plan : OrderedPlan n) (s : OrderedTeam n) : Prop where
  succeeded : ∀ e ∈ s.log, e.status = .success
  exclusive : ∀ m m', (s.members m).inside = true → (s.members m').inside = true →
    (s.members m).begun = (s.members m').begun → m = m'
  inOrder : ∀ l loop, plan.loops[l]? = some loop → ∃ k, s.entries l = loop.iterations.take k
  undisturbed : ∀ m m' s', m' ≠ m → s.step plan m = some s' → (s.members m').begun ≠ 0 →
    (s.members m').begun < (s'.members m).begun →
    ∃ entry, s.workspace.generations (s.members m').team.orderedGeneration = some entry ∧
      s'.workspace.generations (s.members m').team.orderedGeneration = some entry

theorem Inv.safe {done : Nat → Nat} (hinv : Inv plan teamSize done s) (hn : teamSize.toInt.toNat = n)
    (hlen : plan.loops.length < 2 ^ 64) : Safe plan s := by
  refine ⟨hinv.succeeded, fun m m' hin hin' hb => hinv.exclusive hin hin' hb, fun l loop hloop => ?_,
    fun m m' s' hm hstep hbegun hslower => hinv.undisturbed hlen hn hm hstep hbegun hslower⟩
  by_cases hin : ∃ m, (s.members m).inside = true ∧ (s.members m).begun = l + 1
  · obtain ⟨m, hin, hl⟩ := hin
    obtain ⟨loop', _, _, hloop', _, _, hentries⟩ := hinv.inside m l hin hl
    obtain rfl : loop = loop' := Option.some.inj (hloop.symm.trans hloop')
    exact ⟨_, hentries⟩
  · exact ⟨_, hinv.outside l loop hloop fun m hm hl => hin ⟨m, hm, hl⟩⟩

theorem inv_initial : Inv plan teamSize (fun _ => 0) (initial teamSize) where
  member _ := ⟨rfl, rfl, rfl, fun _ => ⟨rfl, rfl⟩⟩
  left l loop hloop := plan.covers l loop hloop
  bound _ _ _ := Nat.zero_le _
  table := ⟨fun _ => Nat.zero_le _, fun l _ _ hlt => absurd hlt (Nat.not_lt_zero l), fun _ _ _ => rfl⟩
  inside _ _ hin _ := by cases hin
  outside _ _ _ _ := rfl
  succeeded _ he := by cases he

theorem inv_run {done : Nat → Nat} (hinv : Inv plan teamSize done s) (hn : teamSize.toInt.toNat = n)
    (hlen : plan.loops.length < 2 ^ 64) (schedule : List (Fin n)) :
    ∃ done', Inv plan teamSize done' (s.run plan schedule) := by
  induction schedule generalizing s done with
  | nil => exact ⟨done, hinv⟩
  | cons m schedule ih =>
    rw [run]
    cases hstep : s.step plan m with
    | none => exact ih hinv
    | some s' =>
      obtain ⟨done', hinv'⟩ := hinv.step hlen hn hstep
      exact ih hinv'

end OrderedTeam

open OrderedTeam

/-- Fewer than `2^64` loops: every run of the team keeps the promise. -/
theorem ordered_safe (teamSize : Int32) (plan : OrderedPlan teamSize.toInt.toNat) (hlen : plan.loops.length < 2 ^ 64)
    (schedule : List (Fin teamSize.toInt.toNat)) : Safe plan ((initial teamSize).run plan schedule) := by
  obtain ⟨done, hinv⟩ := inv_run (@inv_initial _ plan teamSize) rfl hlen schedule
  exact hinv.safe rfl hlen

/-- Three iterations for two members and then two, downwards. -/
def threeThenTwo : OrderedPlan (2 : Int32).toInt.toNat where
  loops := [{ lower := 1, upper := 3, step := 1, step_ne := by decide },
    { lower := 4, upper := 2, step := -2, step_ne := by decide }]
  share l m := if l = 0 then if m.val = 0 then [1, 3] else [2] else if m.val = 0 then [4] else [2]
  covers l loop hloop := by
    match l with
    | 0 | 1 =>
        cases hloop
        decide
    | l + 2 => cases hloop

theorem ordered_safe_threeThenTwo :
    threeThenTwo.loops.length < 2 ^ 64 ∧
      Safe threeThenTwo ((initial 2).run threeThenTwo [⟨0, by decide⟩, ⟨0, by decide⟩, ⟨1, by decide⟩, ⟨0, by decide⟩]) :=
  ⟨by decide, ordered_safe 2 threeThenTwo (by decide) _⟩

/-! ## No deadlock -/

/-- A team of which no member can go on has made all its calls, and every loop has run in order to its end. -/
theorem ordered_completes (teamSize : Int32) (plan : OrderedPlan teamSize.toInt.toNat) (hlen : plan.loops.length < 2 ^ 64)
    (hplan : plan.InOrder) (schedule : List (Fin teamSize.toInt.toNat)) :
    let s := (initial teamSize).run plan schedule
    (∃ m s', s.step plan m = some s') ∨
      (∀ m, (s.members m).begun = plan.loops.length ∧ (s.members m).todo = [] ∧ (s.members m).inside = false) ∧
        ∀ l loop, plan.loops[l]? = some loop → s.entries l = loop.iterations := by
  intro s
  obtain ⟨done, hinv⟩ := inv_run (@inv_initial _ plan teamSize) rfl hlen schedule
  have hs : Orderly plan s := Orderly.run (fun _ => List.nil_suffix) schedule
  by_cases hgo : ∃ m s', s.step plan m = some s'
  · exact .inl hgo
  · have hstuck m : s.step plan m = none := Option.eq_none_iff_forall_ne_some.mpr fun s' h => hgo ⟨m, s', h⟩
    have hout m := (step_eq_none (hstuck m)).1
    have hdone := hinv.finished hlen hs hplan hstuck
    exact .inr ⟨fun m => ⟨(hdone m).1, (hdone m).2, hout m⟩,
      fun l loop hloop => hinv.entries_finished hdone hout hloop⟩

theorem threeThenTwo_inOrder : threeThenTwo.InOrder := by
  intro l loop m hloop
  match l with
  | 0 | 1 =>
      cases hloop
      revert m
      decide
  | l + 2 => cases hloop

/-- A schedule in which the second member waits for its turn. -/
theorem ordered_completes_threeThenTwo :
    let s := (initial 2).run threeThenTwo [⟨1, by decide⟩, ⟨1, by decide⟩, ⟨0, by decide⟩, ⟨0, by decide⟩]
    threeThenTwo.loops.length < 2 ^ 64 ∧ threeThenTwo.InOrder ∧
    ((∃ m s', s.step threeThenTwo m = some s') ∨
      (∀ m, (s.members m).begun = 2 ∧ (s.members m).todo = [] ∧ (s.members m).inside = false) ∧
        ∀ l loop, threeThenTwo.loops[l]? = some loop → s.entries l = loop.iterations) :=
  ⟨by decide, threeThenTwo_inOrder, ordered_completes 2 threeThenTwo (by decide) threeThenTwo_inOrder _⟩

/-! ## The counter comes round -/

section Wrap

/-- A loop without iterations, `2^64` times, for a team of one. -/
def emptyLoops : OrderedPlan (1 : Int32).toInt.toNat where
  loops := List.replicate (2 ^ 64) { lower := 1, upper := 0, step := 1, step_ne := by decide }
  share _ _ := []
  covers l loop hloop := by
    rw [List.eq_of_mem_replicate (List.mem_of_getElem? hloop)]
    decide

theorem orderedPrepare_context {team : OrderedContext} (w : OrderedWorkspaceState)
    (h : team.orderedActiveGeneration = none) :
    (orderedPrepare team w).2.1 = { team with orderedGeneration := team.orderedGeneration + 1 } := by
  unfold orderedPrepare
  rw [h]
  dsimp only
  rw [if_neg (by decide)]
  split
  · rfl
  · split
    · rfl
    · split <;> rfl

theorem orderedPrepare_wraps {team : OrderedContext} (w : OrderedWorkspaceState) (h : team.orderedActiveGeneration = none)
    (hzero : team.orderedGeneration + 1 = 0) : (orderedPrepare team w).1 = .invalidOrdered := by
  unfold orderedPrepare
  dsimp only
  rw [h, hzero, if_neg (by decide), if_pos rfl]

theorem OrderedTeam.run_append {n : Nat} (plan : OrderedPlan n) (ms : List (Fin n)) (m : Fin n) (s : OrderedTeam n) :
    s.run plan (ms ++ [m]) = ((s.run plan ms).step plan m).getD (s.run plan ms) := by
  induction ms generalizing s with
  | nil => rfl
  | cons m' ms ih => exact ih _

def only : Fin (1 : Int32).toInt.toNat := ⟨0, by decide⟩

def afterLoops (b : Nat) : OrderedMember :=
  { team := { teamSize := 1, orderedGeneration := .ofNat b }, begun := b }

theorem step_emptyLoops {s : OrderedTeam (1 : Int32).toInt.toNat} {b : Nat} (hmember : s.members only = afterLoops b)
    (hb : b < 2 ^ 64) :
    s.step emptyLoops only = some (s.returned only (afterLoops (b + 1)) (orderedPrepare (afterLoops b).team s.workspace).2.2
      { loop := b, call := .prepare, status := (orderedPrepare (afterLoops b).team s.workspace).1 }) := by
  have hlength : emptyLoops.loops.length = 2 ^ 64 := List.length_replicate
  have hcontext := @orderedPrepare_context (afterLoops b).team s.workspace rfl
  unfold step
  rw [hmember]
  dsimp only [afterLoops] at hcontext ⊢
  rw [if_neg (by decide), if_pos (hlength ▸ hb), hcontext, ← UInt64.ofNat_one, ← UInt64.ofNat_add]
  rfl

theorem run_emptyLoops {b : Nat} (hb : b ≤ 2 ^ 64) :
    ((initial 1).run emptyLoops (List.replicate b only)).members only = afterLoops b := by
  induction b with
  | zero => rfl
  | succ b ih =>
    rw [List.replicate_succ', OrderedTeam.run_append, step_emptyLoops (ih (by omega)) (by omega), Option.getD_some,
      returned_self]

theorem ordered_counter_wraps : ¬ Safe emptyLoops ((initial 1).run emptyLoops (List.replicate (2 ^ 64) only)) := by
  intro hsafe
  have hcount : 2 ^ 64 = 2 ^ 64 - 1 + 1 := by norm_num
  have hbefore := run_emptyLoops (b := 2 ^ 64 - 1) (by omega)
  rw [hcount, List.replicate_succ', OrderedTeam.run_append, step_emptyLoops hbefore (by omega), Option.getD_some] at hsafe
  have hstatus := hsafe.succeeded _ (List.mem_append_right _ (List.mem_singleton_self _))
  rw [orderedPrepare_wraps _ rfl (by decide)] at hstatus
  cases hstatus

end Wrap

end Armfortas.Runtime.Openmp
