import Armfortas.Runtime.Lemmas.Reduction

/-! The two barriers of a round keep the writing of the slots, their combination and the reading of the result apart. -/
namespace Armfortas.Runtime.Openmp

open Lib List Option ReductionTeam Function

def ReductionPhase.passed : ReductionPhase → Nat
  | write | arriveFirst | waitFirst _ => 0
  | fold | arriveSecond | waitSecond _ => 1
  | read => 2

def ReductionPhase.waiting : ReductionPhase → Bool
  | waitFirst _ | waitSecond _ => true
  | _ => false

namespace ReductionTeam

variable {n : Nat} {plan : List (Reduction n)} {s s' : ReductionTeam n} {m m' : Fin n} {r : Reduction n}

def passed (s : ReductionTeam n) (m : Fin n) : Nat := 2 * (s.members m).round + (s.members m).phase.passed

def waiting (s : ReductionTeam n) (m : Fin n) : Bool := (s.members m).phase.waiting

/-- The result of its round is there for `m` to read, now or after it has noticed that the barrier is open. -/
def Sees (s : ReductionTeam n) (m : Fin n) : Prop :=
  (s.members m).phase = .read ∨ ∃ g, (s.members m).phase = .waitSecond g ∧ g ≠ s.barrier.generation

def Folded (s : ReductionTeam n) (m : Fin n) : Prop :=
  m.val = 0 ∧ ((s.members m).phase = .arriveSecond ∨ ∃ g, (s.members m).phase = .waitSecond g)

structure Inv (plan : List (Reduction n)) (s : ReductionTeam n) : Prop where
  barrier : s.barrier.Ok s.passed s.waiting
  generation : ∀ m g, (s.members m).phase = .waitFirst g ∨ (s.members m).phase = .waitSecond g → g = s.passed m
  round : ∀ m, (s.members m).phase ≠ .write → (s.members m).round < plan.length
  bound : ∀ m, (s.members m).round ≤ plan.length
  outcomes : ∀ m, (s.members m).outcomes = (plan.take (s.members m).round).map Reduction.expected
  written : ∀ m r, plan[(s.members m).round]? = some r → (s.members m).phase ≠ .write → r.Written m s.workspace
  result : ∀ m r, plan[(s.members m).round]? = some r → s.Sees m ∨ s.Folded m → r.Result s.workspace

/-! ## What a step changes -/

section Next

variable {phase : ReductionPhase} {outcome : ReductionOutcome}

@[simp] theorem next_self : (s.next m phase).members m = { s.members m with phase := phase } := update_self ..

theorem next_ne (h : m' ≠ m) : (s.next m phase).members m' = s.members m' := update_of_ne h ..

@[simp] theorem next_workspace : (s.next m phase).workspace = s.workspace := rfl

@[simp] theorem next_barrier : (s.next m phase).barrier = s.barrier := rfl

theorem next_passed : (s.next m phase).passed = update s.passed m (2 * (s.members m).round + phase.passed) := by
  funext m'
  by_cases h : m' = m
  · rw [h, update_self, passed, next_self]
  · rw [update_of_ne h, passed, next_ne h, passed]

theorem next_passed_same (h : phase.passed = (s.members m).phase.passed) : (s.next m phase).passed = s.passed := by
  rw [next_passed, h]
  exact update_eq_self m s.passed

theorem next_waiting : (s.next m phase).waiting = update s.waiting m phase.waiting := by
  funext m'
  by_cases h : m' = m
  · rw [h, update_self, waiting, next_self]
  · rw [update_of_ne h, waiting, next_ne h, waiting]

theorem next_waiting_same (h : phase.waiting = s.waiting m) : (s.next m phase).waiting = s.waiting := by
  rw [next_waiting, h, update_eq_self]

theorem next_round (m' : Fin n) : ((s.next m phase).members m').round = (s.members m').round := by
  by_cases h : m' = m
  · rw [h, next_self]
  · rw [next_ne h]

theorem next_outcomes (m' : Fin n) : ((s.next m phase).members m').outcomes = (s.members m').outcomes := by
  by_cases h : m' = m
  · rw [h, next_self]
  · rw [next_ne h]

theorem next_sees (h : m' ≠ m) : (s.next m phase).Sees m' ↔ s.Sees m' := by
  rw [Sees, Sees, next_ne h, next_barrier]

theorem next_folded (h : m' ≠ m) : (s.next m phase).Folded m' ↔ s.Folded m' := by rw [Folded, Folded, next_ne h]

end Next

section Steps

variable (hinv : Inv plan s)
include hinv

theorem Inv.passed_of_waiting (h : s.waiting m = false) : s.passed m = s.barrier.generation := hinv.barrier.passed_eq h

theorem Inv.between {k} (hk : s.barrier.generation = 2 * k + 1) (m : Fin n) :
    (s.members m).round = k ∧ ((∃ g, (s.members m).phase = .waitFirst g) ∨ (s.members m).phase = .fold ∨
      (s.members m).phase = .arriveSecond ∨ (s.members m).phase = .waitSecond s.barrier.generation) := by
  have hlevel := hinv.barrier.level m
  have hgeneration := hinv.generation m
  rw [passed] at hlevel hgeneration
  rw [waiting] at hlevel
  cases hphase : (s.members m).phase with
  | write | arriveFirst | read =>
    simp only [hphase, ReductionPhase.passed, ReductionPhase.waiting, Bool.false_eq_true, false_and, or_false] at hlevel
    omega
  | fold | arriveSecond =>
    simp only [hphase, ReductionPhase.passed, ReductionPhase.waiting, Bool.false_eq_true, false_and, or_false] at hlevel
    exact ⟨by omega, by simp⟩
  | waitFirst g =>
    simp only [hphase, ReductionPhase.passed] at hlevel
    exact ⟨by omega, .inl ⟨g, rfl⟩⟩
  | waitSecond g =>
    have hg := hgeneration g (.inr hphase)
    simp only [hphase, ReductionPhase.passed] at hlevel hg
    have hopen : 2 * (s.members m).round + 1 = s.barrier.generation := by omega
    exact ⟨by omega, .inr (.inr (.inr (by rw [hg, hopen])))⟩

theorem Inv.not_sees {k} (hk : s.barrier.generation = 2 * k + 1) (m : Fin n) : ¬ s.Sees m := by
  rintro (hread | ⟨g, hg, hne⟩)
  · rcases (hinv.between hk m).2 with ⟨g, h⟩ | h | h | h <;> rw [h] at hread <;> cases hread
  · rcases (hinv.between hk m).2 with ⟨g', h⟩ | h | h | h <;> rw [h] at hg <;> cases hg
    exact hne rfl

theorem Inv.generation_of_middle (hw : s.waiting m = false) (hp : (s.members m).phase.passed = 1) :
    s.barrier.generation = 2 * (s.members m).round + 1 := by
  rw [← hinv.passed_of_waiting hw, passed, hp]

section Round

variable (hr : plan[(s.members m).round]? = some r)
include hr

theorem Inv.next {w b phase} (hs' : s' = { s with workspace := w, barrier := b }.next m phase)
    (hbarrier : b.Ok s'.passed s'.waiting)
    (hgeneration : ∀ g, phase = .waitFirst g ∨ phase = .waitSecond g → g = 2 * (s.members m).round + phase.passed)
    (hwritten : r.Written m w)
    (hothers : ∀ m', m' ≠ m → ∀ r' : Reduction n, r'.Written m' s.workspace → r'.Written m' w)
    (hresult : ∀ m' r', plan[(s.members m').round]? = some r' → s'.Sees m' ∨ s'.Folded m' → r'.Result w) :
    Inv plan s' := by
  have hround : ∀ m', (s'.members m').round = (s.members m').round := fun m' => by rw [hs', next_round]
  have hself : s'.members m = { s.members m with phase := phase } := by rw [hs', next_self]
  have hother : ∀ m', m' ≠ m → s'.members m' = s.members m' := fun m' h => by rw [hs', next_ne h]
  have hworkspace : s'.workspace = w := by rw [hs', next_workspace]
  have hlt := (List.getElem?_eq_some_iff.mp hr).1
  constructor
  case barrier => rwa [show s'.barrier = b by rw [hs', next_barrier]]
  case generation =>
    intro m' g hg
    by_cases h : m' = m
    · rw [h, hself] at hg
      rw [h, passed, hself]
      exact hgeneration g hg
    · rw [hother m' h] at hg
      rw [passed, hother m' h]
      exact hinv.generation m' g hg
  case round =>
    intro m' hphase
    rw [hround]
    by_cases h : m' = m
    · rw [h]
      exact hlt
    · rw [hother m' h] at hphase
      exact hinv.round m' hphase
  case bound => exact fun m' => hround m' ▸ hinv.bound m'
  case outcomes =>
    intro m'
    rw [hround, hs', next_outcomes]
    exact hinv.outcomes m'
  case written =>
    intro m' r' hr' hphase
    rw [hround] at hr'
    rw [hworkspace]
    by_cases h : m' = m
    · subst h
      rw [hr] at hr'
      exact some.inj hr' ▸ hwritten
    · rw [hother m' h] at hphase
      exact hothers m' h r' (hinv.written m' r' hr' hphase)
  case result =>
    intro m' r' hr' hsees
    rw [hround] at hr'
    rw [hworkspace]
    exact hresult m' r' hr' hsees

theorem Inv.afterWrite (hvalid : r.Valid) (hphase : (s.members m).phase = .write) :
    Inv plan ({ s with workspace := (r.call m).write m.val n s.workspace }.next m .arriveFirst) := by
  refine hinv.next (b := s.barrier) hr rfl ?_ ?_ (Reduction.written_write hvalid m s.workspace)
    (fun m' hne r' hw => hw.write hne) fun m' r' hr' hsees => ?_
  · rw [next_passed_same (by rw [hphase]; rfl), next_waiting_same (by rw [waiting, hphase]; rfl)]
    exact hinv.barrier
  · rintro g (h | h) <;> cases h
  · by_cases hm : m' = m
    · subst hm
      simp [Sees, Folded] at hsees
    · rw [next_sees hm, next_folded hm] at hsees
      exact (hinv.result m' r' hr' hsees).write

theorem Inv.afterArriveFirst (hphase : (s.members m).phase = .arriveFirst) :
    Inv plan ({ s with barrier := s.barrier.arrive n }.next m (.waitFirst s.barrier.generation)) := by
  have hwaiting : s.waiting m = false := by rw [waiting, hphase]; rfl
  have hgeneration := hinv.passed_of_waiting hwaiting
  rw [passed, hphase] at hgeneration
  have hgeneration : s.barrier.generation = 2 * (s.members m).round := hgeneration.symm
  refine hinv.next (w := s.workspace) hr rfl ?_ ?_ (hinv.written m r hr (by rw [hphase]; simp))
    (fun m' hne r' hw => hw) fun m' r' hr' hsees => ?_
  · rw [next_passed_same (by rw [hphase]; rfl), next_waiting]
    exact hinv.barrier.arrive hwaiting
  · rintro g (h | h) <;> cases h
    exact hgeneration
  · by_cases hm : m' = m
    · subst hm
      simp [Sees, Folded] at hsees
    · refine hinv.result m' r' hr' ?_
      rw [Sees, Folded, next_ne hm] at hsees
      rcases hsees with (hread | ⟨g, hg, _⟩) | hfolded
      · exact .inl (.inl hread)
      · refine .inl (.inr ⟨g, hg, fun he => ?_⟩)
        have := hinv.generation m' g (.inr hg)
        rw [passed, hg, he, hgeneration] at this
        simp only [ReductionPhase.passed] at this
        omega
      · exact .inr hfolded

theorem Inv.afterWait {g phase} (hat : (s.members m).phase = .waitFirst g ∧ phase = .fold ∨
    (s.members m).phase = .waitSecond g ∧ phase = .read) (hopen : g ≠ s.barrier.generation) :
    Inv plan (s.next m phase) := by
  have hg := hinv.generation m g (hat.imp And.left And.left)
  have hmoved : s.passed m + 1 = 2 * (s.members m).round + phase.passed ∧ phase.waiting = false ∧
      (s.members m).phase ≠ .write := by
    rcases hat with ⟨h, rfl⟩ | ⟨h, rfl⟩ <;> exact ⟨by rw [passed, h]; rfl, rfl, by simp [h]⟩
  obtain ⟨hpassed, hfree, hne⟩ := hmoved
  refine hinv.next (w := s.workspace) (b := s.barrier) hr rfl ?_ ?_ (hinv.written m r hr hne)
    (fun m' hne r' hw => hw) fun m' r' hr' hsees => ?_
  · rw [next_passed, ← hpassed, next_waiting, hfree]
    exact hinv.barrier.pass (hg ▸ hopen)
  · rintro g (rfl | rfl) <;> cases hfree
  · refine hinv.result m' r' hr' ?_
    by_cases hm : m' = m
    · subst hm
      rcases hat with ⟨-, rfl⟩ | ⟨hphase, -⟩
      · simp [Sees, Folded] at hsees
      · exact .inl (.inr ⟨g, hphase, hopen⟩)
    · rwa [next_sees hm, next_folded hm] at hsees

theorem Inv.all_written (hphase : (s.members m).phase = .fold) (m' : Fin n) :
    r.Written m' s.workspace := by
  have hgeneration := hinv.generation_of_middle (m := m) (by rw [waiting, hphase]; rfl) (by rw [hphase]; rfl)
  obtain ⟨hround, hat⟩ := hinv.between hgeneration m'
  refine hinv.written m' r (by rw [hround, hr]) ?_
  rcases hat with ⟨g, h⟩ | h | h | h <;> rw [h] <;> simp

theorem Inv.afterFold {w} (hphase : (s.members m).phase = .fold)
    (hw : m.val = 0 ∧ r.Result w ∨ m.val ≠ 0 ∧ w = s.workspace)
    (hkeep : ∀ (r' : Reduction n) (m' : Fin n), r'.Written m' s.workspace → r'.Written m' w) :
    Inv plan ({ s with workspace := w }.next m .arriveSecond) := by
  have hgeneration := hinv.generation_of_middle (m := m) (by rw [waiting, hphase]; rfl) (by rw [hphase]; rfl)
  refine hinv.next (b := s.barrier) hr rfl ?_ ?_ (hkeep r m (hinv.all_written hr hphase m))
    (fun m' _ r' hw => hkeep r' m' hw) fun m' r' hr' hsees => ?_
  · rw [next_passed_same (by rw [hphase]; rfl), next_waiting_same (by rw [waiting, hphase]; rfl)]
    exact hinv.barrier
  · rintro g (h | h) <;> cases h
  · by_cases hm : m' = m
    · subst hm
      rw [hr] at hr'
      obtain rfl := some.inj hr'
      rcases hsees with hsees | hfolded
      · simp [Sees] at hsees
      · rcases hw with ⟨_, hresult⟩ | ⟨hne, _⟩
        · exact hresult
        · exact absurd hfolded.1 hne
    · rw [next_sees hm, next_folded hm] at hsees
      have hfolded : s.Folded m' := hsees.resolve_left (hinv.not_sees hgeneration m')
      rcases hw with ⟨hzero, _⟩ | ⟨_, rfl⟩
      · exact absurd (Fin.ext (hfolded.1.trans hzero.symm)) hm
      · exact hinv.result m' r' hr' (.inr hfolded)

theorem Inv.afterArriveSecond (hphase : (s.members m).phase = .arriveSecond) :
    Inv plan ({ s with barrier := s.barrier.arrive n }.next m (.waitSecond s.barrier.generation)) := by
  have hwaiting : s.waiting m = false := by rw [waiting, hphase]; rfl
  have hgeneration := hinv.generation_of_middle (m := m) hwaiting (by rw [hphase]; rfl)
  have hround : ∀ m', (s.members m').round = (s.members m).round := fun m' => (hinv.between hgeneration m').1
  refine hinv.next (w := s.workspace) hr rfl ?_ ?_ (hinv.written m r hr (by rw [hphase]; simp))
    (fun m' hne r' hw => hw) fun m' r' hr' hsees => ?_
  · rw [next_passed_same (by rw [hphase]; rfl), next_waiting]
    exact hinv.barrier.arrive hwaiting
  · rintro g (h | h) <;> cases h
    exact hgeneration
  · rw [hround, hr] at hr'
    obtain rfl := some.inj hr'
    by_cases hlast : s.barrier.count + 1 < n
    · have hsame : (s.barrier.arrive n).generation = s.barrier.generation := by rw [Barrier.arrive, if_pos hlast]
      by_cases hm : m' = m
      · subst hm
        refine hinv.result m' r hr (.inr ?_)
        rcases hsees with (hread | ⟨g, hg, hne⟩) | hfolded
        · simp at hread
        · rw [next_self] at hg
          cases hg
          exact absurd hsame.symm hne
        · exact ⟨hfolded.1, .inl hphase⟩
      · rw [next_sees hm, next_folded hm] at hsees
        refine hinv.result m' r (by rw [hround, hr]) (hsees.imp_left fun hs => ?_)
        rwa [Sees, hsame] at hs
    · -- everyone else waits at the second barrier, thread 0 among them or it is `m`
      have hpos : 0 < n := Nat.lt_of_le_of_lt (Nat.zero_le _) m.isLt
      refine hinv.result ⟨0, hpos⟩ r (by rw [hround, hr]) (.inr ⟨rfl, ?_⟩)
      by_cases hm : (⟨0, hpos⟩ : Fin n) = m
      · exact .inl (hm ▸ hphase)
      · obtain ⟨hheld, hpassed⟩ := hinv.barrier.held_of_last hwaiting hlast hm
        rcases (hinv.between hgeneration ⟨0, hpos⟩).2 with ⟨g, h⟩ | h | h | h
        · rw [passed, hround, h, hgeneration] at hpassed
          simp [ReductionPhase.passed] at hpassed
        · rw [waiting, h] at hheld
          cases hheld
        · exact .inl h
        · exact .inr ⟨_, h⟩

theorem Inv.afterRead (hphase : (s.members m).phase = .read) :
    Inv plan (s.returns m ((r.call m).read s.workspace)) := by
  have hlt := (List.getElem?_eq_some_iff.mp hr).1
  generalize hs' : s.returns m ((r.call m).read s.workspace) = s'
  have hself : s'.members m =
      { round := (s.members m).round + 1, outcomes := (s.members m).outcomes ++ [(r.call m).read s.workspace] } := by
    rw [← hs']
    exact update_self ..
  have hother : ∀ m', m' ≠ m → s'.members m' = s.members m' := fun m' h => by
    rw [← hs']
    exact update_of_ne h ..
  have hworkspace : s'.workspace = s.workspace := by rw [← hs', returns]
  have hbarrier : s'.barrier = s.barrier := by rw [← hs', returns]
  have hpassed : s'.passed = s.passed := by
    funext m'
    rw [passed, passed]
    by_cases h : m' = m
    · rw [h, hself, hphase]
      exact Nat.mul_succ 2 _
    · rw [hother m' h]
  have hwaiting : s'.waiting = s.waiting := by
    funext m'
    rw [waiting, waiting]
    by_cases h : m' = m
    · rw [h, hself, hphase]
      rfl
    · rw [hother m' h]
  constructor
  case barrier => rw [hbarrier, hpassed, hwaiting]; exact hinv.barrier
  case generation =>
    intro m' g hg
    rw [hpassed]
    by_cases h : m' = m
    · rw [h, hself] at hg
      rcases hg with hg | hg <;> cases hg
    · rw [hother m' h] at hg
      exact hinv.generation m' g hg
  case round =>
    intro m' hne
    by_cases h : m' = m
    · rw [h, hself] at hne
      exact absurd rfl hne
    · rw [hother m' h] at hne ⊢
      exact hinv.round m' hne
  case bound =>
    intro m'
    by_cases h : m' = m
    · rw [h, hself]
      exact hlt
    · rw [hother m' h]
      exact hinv.bound m'
  case outcomes =>
    intro m'
    by_cases h : m' = m
    · rw [h, hself, hinv.result m r hr (.inl (.inl hphase)) m, hinv.outcomes m, take_add_one, hr, map_append]
      rfl
    · rw [hother m' h]
      exact hinv.outcomes m'
  case written =>
    intro m' r' hr' hne
    rw [hworkspace]
    by_cases h : m' = m
    · rw [h, hself] at hne
      exact absurd rfl hne
    · rw [hother m' h] at hr' hne
      exact hinv.written m' r' hr' hne
  case result =>
    intro m' r' hr' hsees
    rw [hworkspace]
    by_cases h : m' = m
    · rw [Sees, Folded, h, hself] at hsees
      simp at hsees
    · rw [hother m' h] at hr'
      rw [Sees, Folded, hother m' h, hbarrier] at hsees
      exact hinv.result m' r' hr' hsees

end Round

theorem Inv.step (hvalid : ∀ r ∈ plan, r.Valid) (hstep : s.step plan m = some s') : Inv plan s' := by
  obtain ⟨r, hr, hstep⟩ := bind_eq_some_iff.mp hstep
  have hrvalid := hvalid r (mem_of_getElem? hr)
  dsimp only at hstep
  cases hphase : (s.members m).phase <;> simp only [hphase] at hstep
  case write =>
    rw [if_pos (Reduction.check_eq hrvalid m)] at hstep
    exact some.inj hstep ▸ hinv.afterWrite hr hrvalid hphase
  case arriveFirst => exact some.inj hstep ▸ hinv.afterArriveFirst hr hphase
  case waitFirst g =>
    split at hstep
    · cases hstep
    · exact some.inj hstep ▸ hinv.afterWait hr (.inl ⟨hphase, rfl⟩) ‹_›
  case fold =>
    split at hstep
    · rename_i hzero
      obtain ⟨w, hw, hresult, hkeep⟩ := Reduction.fold_written hrvalid (hinv.all_written hr hphase) m
      rw [hw] at hstep
      exact some.inj hstep ▸ hinv.afterFold hr hphase (.inl ⟨hzero, hresult⟩) hkeep
    · rename_i hne
      exact some.inj hstep ▸ hinv.afterFold hr hphase (.inr ⟨hne, rfl⟩) fun _ _ hw => hw
  case arriveSecond => exact some.inj hstep ▸ hinv.afterArriveSecond hr hphase
  case waitSecond g =>
    split at hstep
    · cases hstep
    · exact some.inj hstep ▸ hinv.afterWait hr (.inr ⟨hphase, rfl⟩) ‹_›
  case read => exact some.inj hstep ▸ hinv.afterRead hr hphase

theorem Inv.held_of_stuck (hvalid : ∀ r ∈ plan, r.Valid) (hlt : (s.members m).round < plan.length)
    (hstuck : s.step plan m = none) : s.waiting m = true ∧ s.passed m = s.barrier.generation := by
  have hr : plan[(s.members m).round]? = some (plan.get ⟨_, hlt⟩) := getElem?_eq_getElem hlt
  have hrvalid := hvalid _ (mem_of_getElem? hr)
  rw [ReductionTeam.step, hr, bind_some] at hstuck
  dsimp only at hstuck
  cases hphase : (s.members m).phase <;> simp only [hphase] at hstuck
  case write =>
    rw [if_pos (Reduction.check_eq hrvalid m)] at hstuck
    cases hstuck
  case arriveFirst | arriveSecond | read => cases hstuck
  case waitFirst g =>
    split at hstuck
    · rename_i hg
      exact ⟨by rw [waiting, hphase]; rfl, by rw [← hinv.generation m g (.inl hphase), hg]⟩
    · cases hstuck
  case fold =>
    split at hstuck
    · obtain ⟨w, hw, -⟩ := Reduction.fold_written hrvalid (hinv.all_written hr hphase) m
      rw [hw] at hstuck
      cases hstuck
    · cases hstuck
  case waitSecond g =>
    split at hstuck
    · rename_i hg
      exact ⟨by rw [waiting, hphase]; rfl, by rw [← hinv.generation m g (.inr hphase), hg]⟩
    · cases hstuck

theorem Inv.complete (hvalid : ∀ r ∈ plan, r.Valid) (hstuck : ∀ m, s.step plan m = none) (m : Fin n) :
    (s.members m).round = plan.length := by
  obtain ⟨m₀, hfree⟩ := hinv.barrier.exists_free
  rw [Barrier.mem_held] at hfree
  have hdone : (s.members m₀).round = plan.length :=
    Nat.le_antisymm (hinv.bound m₀) (Nat.not_lt.mp fun hlt => hfree (hinv.held_of_stuck hvalid hlt (hstuck m₀)))
  have hphase : (s.members m₀).phase = .write := by
    by_contra hne
    exact (hinv.round m₀ hne).ne hdone
  have hgeneration := hinv.passed_of_waiting (m := m₀) (by rw [waiting, hphase]; rfl)
  rw [passed, hdone, hphase] at hgeneration
  refine Nat.le_antisymm (hinv.bound m) (Nat.not_lt.mp fun hlt => ?_)
  -- a held member has not passed the second barrier of its round
  obtain ⟨hwaiting, hpassed⟩ := hinv.held_of_stuck hvalid hlt (hstuck m)
  rw [waiting] at hwaiting
  rw [passed, ← hgeneration] at hpassed
  cases hat : (s.members m).phase <;> rw [hat] at hwaiting hpassed <;> simp only [ReductionPhase.passed] at hpassed <;>
    first
    | omega
    | cases hwaiting

end Steps

end ReductionTeam

end Armfortas.Runtime.Openmp
