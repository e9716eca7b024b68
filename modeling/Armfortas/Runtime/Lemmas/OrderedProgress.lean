import Armfortas.Lib.DepthFirst
import Armfortas.Runtime.Lemmas.Ordered

/-! Why a team does not come to a stop: among the members in the earliest loop, one has the turn. -/
namespace Armfortas.Runtime.Openmp
open Lib List

/-- Each member takes its iterations in the order of the loop, as under every schedule of the runtime. -/
def OrderedPlan.InOrder {n : Nat} (plan : OrderedPlan n) : Prop :=
  ∀ l loop m, plan.loops[l]? = some loop → ((plan.share l m).map Int64.toInt).Sublist loop.iterations

theorem OrderedLoop.head_eq (loop : OrderedLoop) {k : Nat} {x y : Int} {rest : List Int}
    (h : (y :: rest).Sublist loop.iterations) (hy : y ∈ loop.iterations.drop k) (hx : loop.iterations[k]? = some x)
    (hmem : x ∈ y :: rest) : y = x := by
  rcases mem_cons.mp hmem with rfl | hrest
  · rfl
  · have hnodup := loop.nodup_iterations
    have hlt := idxOf_lt_of_sublist hnodup (((singleton_sublist.mpr hrest).cons_cons y).trans h)
    obtain ⟨i, hi⟩ := getElem?_of_mem hy
    rw [getElem?_drop] at hi
    obtain ⟨_, rfl⟩ := List.getElem?_eq_some_iff.mp hx
    obtain ⟨_, rfl⟩ := List.getElem?_eq_some_iff.mp hi
    rw [hnodup.idxOf_getElem, hnodup.idxOf_getElem] at hlt
    omega

namespace OrderedTeam

variable {n : Nat} {plan : OrderedPlan n} {teamSize : Int32} {s s' : OrderedTeam n} {m : Fin n}

/-- What a member has left to do of its loop is the end of its share. -/
def Orderly (plan : OrderedPlan n) (s : OrderedTeam n) : Prop :=
  ∀ m, (s.members m).todo <:+ plan.share ((s.members m).begun - 1) m

theorem Orderly.step (h : Orderly plan s) (hstep : s.step plan m = some s') : Orderly plan s' := by
  intro m'
  have hold := h m'
  by_cases hm : m' = m
  · subst hm
    rcases step_cases hstep with ⟨-, rfl⟩ | ⟨_, _, _, _, -, -, -, -, rfl⟩ | ⟨-, -, -, rfl⟩ <;> rw [returned_self]
    · exact (tail_suffix _).trans hold
    · exact hold
    · exact suffix_rfl
  · rcases step_cases hstep with ⟨-, rfl⟩ | ⟨_, _, _, _, -, -, -, -, rfl⟩ | ⟨-, -, -, rfl⟩ <;> rwa [returned_ne hm]

theorem Orderly.run (h : Orderly plan s) (schedule : List (Fin n)) : Orderly plan (s.run plan schedule) := by
  induction schedule generalizing s with
  | nil => exact h
  | cons m schedule ih =>
    rw [OrderedTeam.run]
    cases hstep : s.step plan m with
    | none => exact ih h
    | some s' => exact ih (h.step hstep)

theorem step_eq_none (h : s.step plan m = none) :
    (s.members m).inside = false ∧ ((s.members m).todo = [] → plan.loops.length ≤ (s.members m).begun) := by
  unfold OrderedTeam.step at h
  dsimp only at h
  split at h
  · cases h
  · refine ⟨Bool.eq_false_iff.mpr ‹_›, fun htodo => ?_⟩
    rw [htodo] at h
    by_contra hlt
    simp [Nat.lt_of_not_le hlt] at h

section Stuck

variable {done : Nat → Nat} (hinv : Inv plan teamSize done s) (hlen : plan.loops.length < 2 ^ 64)
include hinv

/-- Once every member has come to loop `l`, its next iteration is the first on someone's list. -/
theorem Inv.turn (hs : Orderly plan s) (hplan : plan.InOrder) {l loop} (hloop : plan.loops[l]? = some loop)
    (hall : ∀ m, l < (s.members m).begun) (hb : (s.members m).begun = l + 1) (hwait : (s.members m).todo ≠ []) :
    ∃ m iteration rest, (s.members m).begun = l + 1 ∧ (s.members m).todo = iteration :: rest ∧
      loop.iterations[done l]? = some iteration.toInt := by
  have hperm := hinv.left l loop hloop
  have hmem {m iteration rest} (hb : (s.members m).begun = l + 1) (htodo : (s.members m).todo = iteration :: rest) :
      iteration.toInt ∈ loop.iterations.drop (done l) :=
    hperm.subset (mem_flatMap.mpr ⟨m, mem_finRange m, mem_left hb htodo⟩)
  obtain ⟨iteration, rest, htodo⟩ := exists_cons_of_ne_nil hwait
  have hlt : done l < loop.iterations.length := by
    have := length_pos_of_mem (hmem hb htodo)
    rw [length_drop] at this
    omega
  have hnext := getElem?_eq_getElem hlt
  have hfirst : loop.iterations[done l] ∈ loop.iterations.drop (done l) := by
    rw [drop_eq_getElem_cons hlt]
    exact mem_cons_self
  obtain ⟨m', -, hm'⟩ := mem_flatMap.mp (hperm.symm.subset hfirst)
  rw [OrderedTeam.left, if_neg (Nat.not_le.mpr (hall m'))] at hm'
  split at hm'
  · rename_i hb'
    have hsub := ((hs m').sublist.map Int64.toInt).trans (hplan _ loop m' (by rw [hb']; exact hloop))
    cases htodo' : (s.members m').todo with
    | nil =>
      rw [htodo'] at hm'
      cases hm'
    | cons iteration' rest' =>
      rw [htodo'] at hm' hsub
      refine ⟨m', iteration', rest', hb', htodo', ?_⟩
      rw [loop.head_eq hsub (hmem hb' htodo') hnext hm', hnext]
  · cases hm'

theorem Inv.entries_finished (h : ∀ m, (s.members m).begun = plan.loops.length ∧ (s.members m).todo = [])
    (hout : ∀ m, (s.members m).inside = false) {l loop} (hloop : plan.loops[l]? = some loop) :
    s.entries l = loop.iterations := by
  have hlt := (List.getElem?_eq_some_iff.mp hloop).1
  have hperm := hinv.left l loop hloop
  rw [flatMap_eq_nil_iff.mpr fun m _ => by
    rw [OrderedTeam.left, (h m).1, (h m).2, if_neg (by omega), ite_self, map_nil]] at hperm
  rw [hinv.outside l loop hloop fun m hin => by rw [hout m] at hin; cases hin]
  exact take_of_length_le (drop_eq_nil_iff.mp hperm.nil_eq.symm)

include hlen

/-- Whoever has the turn can enter. -/
theorem Inv.step_of_turn {l iteration rest loop} (hb : (s.members m).begun = l + 1)
    (htodo : (s.members m).todo = iteration :: rest) (hloop : plan.loops[l]? = some loop)
    (hturn : loop.iterations[done l]? = some iteration.toInt) : s.step plan m ≠ none := by
  intro hnone
  obtain ⟨hinside, -⟩ := step_eq_none hnone
  have hactive := (hinv.member m).active
  have hgeneration := (hinv.member m).generation
  rw [hinside, if_neg (by decide)] at hactive
  rw [hb] at hgeneration
  have hlt := hinv.loop_lt (m := m) (l := l) (by omega)
  have hentry := hinv.table.current l m m hb.ge hb.le
  rw [← hgeneration] at hentry
  have henter := orderedEnter_eq hactive (by rw [hgeneration]; exact ofNat_ne_zero (by omega) (by omega)) hentry rfl
    hturn le_rfl
  unfold OrderedTeam.step at hnone
  simp [hinside, htodo, hb, hloop, henter] at hnone

/-- A team that cannot go on is done. -/
theorem Inv.finished (hs : Orderly plan s) (hplan : plan.InOrder) (hstuck : ∀ m, s.step plan m = none) (m : Fin n) :
    (s.members m).begun = plan.loops.length ∧ (s.members m).todo = [] := by
  suffices hidle : ∀ b m, (s.members m).begun = b → (s.members m).todo = [] from
    ⟨Nat.le_antisymm (hinv.table.bound m) ((step_eq_none (hstuck m)).2 (hidle _ m rfl)), hidle _ m rfl⟩
  intro b
  -- of the members that wait take one in the earliest loop: the others have come as far
  induction b using Nat.strong_induction_on with
  | _ b ih =>
    intro m hb
    by_contra hwait
    obtain ⟨iteration, rest, htodo⟩ := exists_cons_of_ne_nil hwait
    obtain ⟨l, hl⟩ := hinv.begun_of_todo htodo
    have hlt := hinv.loop_lt (m := m) (l := l) (by omega)
    have hloop := getElem?_eq_getElem hlt
    have hall m' : l < (s.members m').begun := by
      by_contra hle
      have := (step_eq_none (hstuck m')).2 (ih _ (by omega) m' rfl)
      omega
    obtain ⟨m', iteration', rest', hb', htodo', hturn⟩ := hinv.turn hs hplan hloop hall hl hwait
    exact hinv.step_of_turn hlen hb' htodo' hloop hturn (hstuck m')

end Stuck

end OrderedTeam

end Armfortas.Runtime.Openmp
