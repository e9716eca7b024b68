import Armfortas.Lib.Rounds
import Armfortas.Lib.Shares
import Armfortas.Runtime.Openmp.Ordered

/-! For every loop there is a number of iterations that have left the ordered region. They are the first ones of the
loop; the members hold the others. -/
namespace Armfortas.Runtime.Openmp
open Lib List Option Function Int64

variable {iteration : Int64} {b : Nat} {loop : OrderedLoop} {l : Nat} {rest : List Int64} {team : OrderedContext}

namespace OrderedLoop

variable (loop : OrderedLoop)

theorem nodup_iterations : loop.iterations.Nodup := nodup_progression (step_toInt_ne loop.step_ne) _

theorem length_iterations_lt : loop.iterations.length < 2 ^ 127 := by
  have := @count_le loop.lower loop.upper loop.step loop.step_ne
  rw [iterations, fortranLoop, length_progression]
  omega

theorem ordinal {k : Nat} (h : loop.iterations[k]? = some iteration.toInt) :
    (iteration.toInt - loop.lower.toInt).tmod loop.step.toInt = 0 ∧
      (iteration.toInt - loop.lower.toInt).tdiv loop.step.toInt = k := by
  have hk : k < loop.iterations.length := (List.getElem?_eq_some_iff.mp h).1
  rw [iterations, fortranLoop, length_progression] at hk
  rw [iterations, fortranLoop, getElem?_progression hk, some.injEq] at h
  have hdelta : iteration.toInt - loop.lower.toInt = k * loop.step.toInt := by omega
  rw [hdelta]
  exact ⟨Int.mul_tmod_left _ _, Int.mul_tdiv_cancel _ (step_toInt_ne loop.step_ne)⟩

end OrderedLoop

/-! ## The calls -/

section Calls

variable {team : OrderedContext} {w : OrderedWorkspaceState} {entry : OrderedGeneration}

/-- The workspace after a member has begun loop `b`: the last one to do so removes the generation of the loop before. -/
def beginLoop (w : OrderedWorkspaceState) (size b : Nat) (entry : OrderedGeneration) : OrderedWorkspaceState :=
  { generations := beginRound w.generations b { entry with preparedTasks := entry.preparedTasks + 1 }
      (entry.preparedTasks + 1 = size) }

theorem orderedPrepare_eq (hactive : team.orderedActiveGeneration = none)
    (hgeneration : team.orderedGeneration = .ofNat b) (hb : b + 1 < 2 ^ 64)
    (hentry : (w.generations (.ofNat (b + 1))).getD { } = entry)
    (hle : entry.preparedTasks + 1 ≤ team.teamSize.toInt.toNat) :
    orderedPrepare team w = (.success, { team with orderedGeneration := .ofNat (b + 1) },
      beginLoop w team.teamSize.toInt.toNat b entry) := by
  have hsucc : team.orderedGeneration + 1 = .ofNat (b + 1) := by
    rw [hgeneration]
    exact (UInt64.ofNat_add b 1).symm
  have hone : 1 < UInt64.ofNat (b + 1) ↔ 0 < b := by rw [one_lt_ofNat hb]; omega
  unfold orderedPrepare
  dsimp only
  rw [hactive, hsucc, hentry, if_neg (by simp), if_neg (ofNat_ne_zero hb (by omega)), if_neg (by omega)]
  simp only [hone, ofNat_succ_sub, beginLoop, beginRound]
  split <;> rfl

theorem orderedEnter_eq {j d : Nat} (hactive : team.orderedActiveGeneration = none)
    (hgeneration : team.orderedGeneration ≠ 0) (hentry : w.generations team.orderedGeneration = some entry)
    (hnext : entry.nextOrdinal = d) (hj : loop.iterations[j]? = some iteration.toInt) (hle : d ≤ j) :
    orderedEnter iteration loop.lower loop.step team w =
      if j = d then some (.success, { team with orderedActiveGeneration := some team.orderedGeneration }) else none := by
  obtain ⟨hmod, hdiv⟩ := loop.ordinal hj
  unfold orderedEnter
  rw [if_neg loop.step_ne, if_neg (by rw [hmod]; decide), hdiv, if_neg (by omega),
    if_neg (by simp [hgeneration, hactive]), hentry]
  dsimp only
  rw [hnext, if_neg (by omega)]
  simp only [Nat.cast_inj]

theorem orderedExit_eq {g} (hactive : team.orderedActiveGeneration = some g)
    (hentry : w.generations g = some entry) :
    orderedExit team w = (.success, { team with orderedActiveGeneration := none },
      w.set g (some { entry with nextOrdinal := i128 (entry.nextOrdinal + 1) })) := by
  unfold orderedExit
  rw [hactive]
  dsimp only
  rw [hentry]

end Calls

namespace OrderedTeam

variable {n : Nat} {plan : OrderedPlan n} {teamSize : Int32} {s s' : OrderedTeam n} {m : Fin n}

def paces (s : OrderedTeam n) : Fin n → Nat := fun m => (s.members m).begun

def left (plan : OrderedPlan n) (s : OrderedTeam n) (l : Nat) (m : Fin n) : List Int64 :=
  if (s.members m).begun ≤ l then plan.share l m else if (s.members m).begun = l + 1 then (s.members m).todo else []

/-! ## One call of one member -/

section Returned

variable {member : OrderedMember} {workspace : OrderedWorkspaceState} {event : OrderedEvent}

@[simp] theorem returned_self : (s.returned m member workspace event).members m = member := update_self ..

theorem returned_ne {m' : Fin n} (h : m' ≠ m) : (s.returned m member workspace event).members m' = s.members m' :=
  Function.update_of_ne h ..

theorem paces_returned : (s.returned m member workspace event).paces = update s.paces m member.begun :=
  funext fun m' => apply_update (fun _ member => member.begun) s.members m member m'

theorem paces_same (h : member.begun = (s.members m).begun) : (s.returned m member workspace event).paces = s.paces := by
  rw [paces_returned, h]
  exact update_eq_self m s.paces

theorem left_ne {m' : Fin n} (h : m' ≠ m) : (s.returned m member workspace event).left plan l m' = s.left plan l m' := by
  rw [left, left, returned_ne h]

theorem left_same (hbegun : member.begun = (s.members m).begun) (htodo : member.todo = (s.members m).todo) (m' : Fin n) :
    (s.returned m member workspace event).left plan l m' = s.left plan l m' := by
  by_cases hm : m' = m
  · rw [hm, left, left, returned_self, hbegun, htodo]
  · exact left_ne hm

theorem flatMap_left_congr (h : ∀ m, s'.left plan l m = s.left plan l m) :
    ((List.finRange n).flatMap fun m => (s'.left plan l m).map toInt) =
      (List.finRange n).flatMap fun m => (s.left plan l m).map toInt := by
  simp only [h]

theorem entries_returned (l) :
    (s.returned m member workspace event).entries l = s.entries l ++ (event.entered l).toList := by
  rw [entries, returned, filterMap_append, entries]
  cases h : event.entered l with
  | none => simp [h]
  | some => simp [h]

theorem entries_enter_ne {l'} (h : l' ≠ l) :
    (s.returned m member workspace { loop := l, call := .enter iteration, status := .success }).entries l' = s.entries l' := by
  rw [entries_returned, OrderedEvent.entered]
  dsimp only
  rw [if_neg fun he => h he.1.symm, toList_none, append_nil]

theorem succeeded_returned (h : ∀ e ∈ s.log, e.status = .success) (he : event.status = .success) :
    ∀ e ∈ (s.returned m member workspace event).log, e.status = .success := by
  intro e hmem
  rcases mem_append.mp hmem with hold | hnew
  · exact h e hold
  · rw [mem_singleton.mp hnew, he]

end Returned

structure MemberOk (teamSize : Int32) (member : OrderedMember) : Prop where
  size : member.team.teamSize = teamSize
  generation : member.team.orderedGeneration = .ofNat member.begun
  active : member.team.orderedActiveGeneration = if member.inside then some (.ofNat member.begun) else none
  idle : member.begun = 0 → member.todo = [] ∧ member.inside = false

/-- `done l` iterations of loop `l` have left the ordered region. -/
structure Inv (plan : OrderedPlan n) (teamSize : Int32) (done : Nat → Nat) (s : OrderedTeam n) : Prop where
  member : ∀ m, MemberOk teamSize (s.members m)
  left : ∀ l loop, plan.loops[l]? = some loop →
    ((List.finRange n).flatMap fun m => (s.left plan l m).map toInt).Perm (loop.iterations.drop (done l))
  bound : ∀ l loop, plan.loops[l]? = some loop → done l ≤ loop.iterations.length
  table : Tracks (fun l k => { preparedTasks := k, nextOrdinal := done l }) plan.loops.length s.paces
    s.workspace.generations
  inside : ∀ m l, (s.members m).inside = true → (s.members m).begun = l + 1 →
    ∃ loop iteration rest, plan.loops[l]? = some loop ∧ (s.members m).todo = iteration :: rest ∧
      loop.iterations[done l]? = some iteration.toInt ∧ s.entries l = loop.iterations.take (done l + 1)
  outside : ∀ l loop, plan.loops[l]? = some loop → (∀ m, (s.members m).inside = true → (s.members m).begun ≠ l + 1) →
    s.entries l = loop.iterations.take (done l)
  succeeded : ∀ e ∈ s.log, e.status = .success

/-! ## Steps -/

theorem step_cases (h : s.step plan m = some s') :
    ((s.members m).inside = true ∧
      s' = s.returned m
        { s.members m with
          team := (orderedExit (s.members m).team s.workspace).2.1
          todo := (s.members m).todo.tail
          inside := false }
        (orderedExit (s.members m).team s.workspace).2.2
        { loop := (s.members m).begun - 1, call := .exit, status := (orderedExit (s.members m).team s.workspace).1 }) ∨
    (∃ iteration rest loop r, (s.members m).inside = false ∧ (s.members m).todo = iteration :: rest ∧
      plan.loops[(s.members m).begun - 1]? = some loop ∧
      orderedEnter iteration loop.lower loop.step (s.members m).team s.workspace = some r ∧
      s' = s.returned m { s.members m with team := r.2, inside := true } s.workspace
        { loop := (s.members m).begun - 1, call := .enter iteration, status := r.1 }) ∨
    ((s.members m).inside = false ∧ (s.members m).todo = [] ∧ (s.members m).begun < plan.loops.length ∧
      s' = s.returned m
        { s.members m with
          team := (orderedPrepare (s.members m).team s.workspace).2.1
          begun := (s.members m).begun + 1
          todo := plan.share (s.members m).begun m }
        (orderedPrepare (s.members m).team s.workspace).2.2
        { loop := (s.members m).begun, call := .prepare, status := (orderedPrepare (s.members m).team s.workspace).1 }) := by
  unfold step at h
  dsimp only at h
  split at h
  · exact .inl ⟨‹_›, (some.inj h).symm⟩
  · have hinside : (s.members m).inside = false := Bool.eq_false_iff.mpr ‹_›
    split at h
    · rename_i iteration rest htodo
      obtain ⟨loop, hloop, h⟩ := bind_eq_some_iff.mp h
      obtain ⟨r, hr, h⟩ := map_eq_some_iff.mp h
      exact .inr (.inl ⟨iteration, rest, loop, r, hinside, htodo, hloop, hr, h.symm⟩)
    · split at h
      · exact .inr (.inr ⟨hinside, ‹_›, ‹_›, (some.inj h).symm⟩)
      · cases h

theorem mem_left (hb : (s.members m).begun = l + 1) (htodo : (s.members m).todo = iteration :: rest) :
    iteration.toInt ∈ (s.left plan l m).map toInt := by
  rw [OrderedTeam.left, if_neg (by omega), if_pos hb, htodo]
  exact mem_cons_self

section Steps

variable {done : Nat → Nat} (hinv : Inv plan teamSize done s) (hlen : plan.loops.length < 2 ^ 64)
include hinv

theorem Inv.loop_lt (hl : l < (s.members m).begun) : l < plan.loops.length := hl.trans_le (hinv.table.bound m)

theorem Inv.done_eq_zero (hl : l < plan.loops.length) (h : ∀ m, (s.members m).begun ≤ l) : done l = 0 := by
  obtain ⟨loop, hloop⟩ : ∃ loop, plan.loops[l]? = some loop := ⟨_, getElem?_eq_getElem hl⟩
  have hshare : (fun m => (s.left plan l m).map toInt) = fun m => (plan.share l m).map toInt := by
    funext m
    rw [OrderedTeam.left, if_pos (h m)]
  have hperm := (hinv.left l loop hloop)
  rw [hshare] at hperm
  have hlength := ((plan.covers l loop hloop).symm.trans hperm).length_eq
  have := hinv.bound l loop hloop
  rw [length_drop] at hlength
  omega

theorem Inv.nodup_left (hloop : plan.loops[l]? = some loop) :
    ((List.finRange n).flatMap fun m => (s.left plan l m).map toInt).Nodup :=
  (hinv.left l loop hloop).nodup_iff.mpr (loop.nodup_iterations.sublist (drop_sublist _ _))

theorem Inv.begun_of_inside (hin : (s.members m).inside = true) : ∃ l, (s.members m).begun = l + 1 := by
  refine Nat.exists_eq_succ_of_ne_zero fun h => ?_
  rw [((hinv.member m).idle h).2] at hin
  cases hin

theorem Inv.begun_of_todo (h : (s.members m).todo = iteration :: rest) :
    ∃ l, (s.members m).begun = l + 1 := by
  refine Nat.exists_eq_succ_of_ne_zero fun hzero => ?_
  rw [((hinv.member m).idle hzero).1] at h
  cases h

/-- The iteration whose turn it is has one holder. -/
theorem Inv.holder_eq {m' : Fin n} (hloop : plan.loops[l]? = some loop) (hb : (s.members m).begun = l + 1)
    (htodo : (s.members m).todo = iteration :: rest) (hturn : loop.iterations[done l]? = some iteration.toInt)
    (hin : (s.members m').inside = true) (hb' : (s.members m').begun = l + 1) : m = m' := by
  obtain ⟨loop', iteration', rest', hloop', htodo', hturn', _⟩ := hinv.inside m' l hin hb'
  obtain rfl : loop = loop' := some.inj (hloop.symm.trans hloop')
  have hsame : iteration'.toInt = iteration.toInt := some.inj (hturn'.symm.trans hturn)
  exact holder_unique (hinv.nodup_left hloop) (mem_finRange m) (mem_finRange m') (mem_left hb htodo)
    (hsame ▸ mem_left hb' htodo')

theorem Inv.exclusive {m' : Fin n} (hin : (s.members m).inside = true) (hin' : (s.members m').inside = true)
    (hb : (s.members m).begun = (s.members m').begun) : m = m' := by
  obtain ⟨l, hl⟩ := hinv.begun_of_inside hin
  obtain ⟨loop, iteration, rest, hloop, htodo, hturn, _⟩ := hinv.inside m l hin hl
  exact hinv.holder_eq hloop hl htodo hturn hin' (hb ▸ hl)

theorem Inv.exit (hinside : (s.members m).inside = true) (hb : (s.members m).begun = l + 1) :
    orderedExit (s.members m).team s.workspace = (.success, { (s.members m).team with orderedActiveGeneration := none },
        s.workspace.set (.ofNat (l + 1))
          (some { preparedTasks := arrived s.paces l, nextOrdinal := ((done l + 1 : Nat) : Int) })) := by
  have hactive := (hinv.member m).active
  rw [hinside, if_pos rfl, hb] at hactive
  obtain ⟨loop, iteration, _, hloop, _, hturn, _⟩ := hinv.inside m l hinside hb
  have hlt : done l < loop.iterations.length := (List.getElem?_eq_some_iff.mp hturn).1
  have hsmall := loop.length_iterations_lt
  rw [orderedExit_eq hactive (hinv.table.current l m m hb.ge hb.le)]
  rw [← Nat.cast_succ, i128_natCast (Nat.lt_of_le_of_lt hlt hsmall)]

theorem Inv.afterEnter (hinside : (s.members m).inside = false) (htodo : (s.members m).todo = iteration :: rest)
    (hb : (s.members m).begun = l + 1) (hloop : plan.loops[l]? = some loop)
    (hturn : loop.iterations[done l]? = some iteration.toInt)
    (hteam : team = { (s.members m).team with orderedActiveGeneration := some (.ofNat (l + 1)) }) :
    Inv plan teamSize done
      (s.returned m { s.members m with team := team, inside := true } s.workspace
        { loop := l, call := .enter iteration, status := .success }) := by
  -- the turn is not over while someone is inside, so no one was
  have hfree : ∀ m', (s.members m').inside = true → (s.members m').begun ≠ l + 1 := by
    intro m' hin hl
    rw [← hinv.holder_eq hloop hb htodo hturn hin hl, hinside] at hin
    cases hin
  constructor
  case member =>
    intro m'
    by_cases hm : m' = m
    · have hmember := hinv.member m
      rw [hm, returned_self, hteam]
      exact ⟨hmember.size, hmember.generation, by dsimp only; rw [if_pos rfl, hb],
        fun h => absurd (hb.symm.trans h) (Nat.succ_ne_zero l)⟩
    · rw [returned_ne hm]
      exact hinv.member m'
  case left =>
    intro l' loop' hloop'
    rw [flatMap_left_congr (s := s) fun m' => ?_]
    · exact hinv.left l' loop' hloop'
    · exact left_same (by rfl) (by rfl) m'
  case bound => exact hinv.bound
  case table =>
    rw [paces_same]
    · exact hinv.table
    · rfl
  case inside =>
    intro m' l' hin hl
    by_cases hm : m' = m
    · rw [hm, returned_self] at hl ⊢
      obtain rfl : l = l' := Nat.succ_injective (hb.symm.trans hl)
      refine ⟨loop, iteration, rest, hloop, htodo, hturn, ?_⟩
      rw [entries_returned, OrderedEvent.entered, hinv.outside l loop hloop hfree, take_add_one, hturn]
      exact congrArg _ (congrArg _ (if_pos ⟨rfl, rfl⟩))
    · rw [returned_ne hm] at hin hl ⊢
      have hne : l' ≠ l := fun he => hfree m' hin (he ▸ hl)
      rw [entries_enter_ne hne]
      exact hinv.inside m' l' hin hl
  case outside =>
    intro l' loop' hloop' hout
    rw [entries_enter_ne fun he => hout m (by rw [returned_self]) (by rw [returned_self]; exact hb.trans (he ▸ rfl))]
    refine hinv.outside l' loop' hloop' fun m' hin hl => ?_
    have hm : m' ≠ m := fun hm => by rw [hm, hinside] at hin; cases hin
    exact hout m' (by rwa [returned_ne hm]) (by rwa [returned_ne hm])
  case succeeded => exact succeeded_returned hinv.succeeded rfl

include hlen

theorem Inv.prepare (hn : teamSize.toInt.toNat = n) (hinside : (s.members m).inside = false) (hb : (s.members m).begun = b)
    (hlt : b < plan.loops.length) :
    orderedPrepare (s.members m).team s.workspace = (.success, { (s.members m).team with orderedGeneration := .ofNat (b + 1) },
        beginLoop s.workspace n b { preparedTasks := arrived s.paces b, nextOrdinal := done b }) := by
  have hmember := hinv.member m
  have hactive := hmember.active
  rw [hinside, if_neg (by decide)] at hactive
  have hroom : arrived s.paces b < n := arrived_lt hb.le
  have hsize : (s.members m).team.teamSize.toInt.toNat = n := by rw [hmember.size, hn]
  have hentry := hinv.table.getD hb.le hlt fun h => congrArg (OrderedGeneration.mk 0) (congrArg _ (hinv.done_eq_zero hlt h))
  rw [orderedPrepare_eq hactive (hb ▸ hmember.generation) (by omega) hentry (by rw [hsize]; exact hroom), hsize]

theorem Inv.afterPrepare {event : OrderedEvent} (hinside : (s.members m).inside = false)
    (htodo : (s.members m).todo = []) (hb : (s.members m).begun = b) (hlt : b < plan.loops.length)
    (hteam : team = { (s.members m).team with orderedGeneration := .ofNat (b + 1) })
    (hevent : event.call = .prepare ∧ event.status = .success) :
    Inv plan teamSize done
      (s.returned m { s.members m with team := team, begun := b + 1, todo := plan.share b m }
        (beginLoop s.workspace n b { preparedTasks := arrived s.paces b, nextOrdinal := done b }) event) := by
  have hentries : ∀ {member w} l, (s.returned m member w event).entries l = s.entries l := fun l => by
    rw [entries_returned, OrderedEvent.entered, hevent.1]
    exact append_nil _
  constructor
  case member =>
    intro m'
    by_cases hm : m' = m
    · have hmember := hinv.member m
      have hactive := hmember.active
      rw [hinside] at hactive
      rw [hm, returned_self, hteam]
      exact ⟨hmember.size, rfl, by rw [hinside]; exact hactive, fun h => absurd h (Nat.succ_ne_zero b)⟩
    · rw [returned_ne hm]
      exact hinv.member m'
  case left =>
    intro l loop hloop
    have hsame : s.left plan l m = if b + 1 ≤ l then plan.share l m else if b + 1 = l + 1 then plan.share b m else [] := by
      rw [OrderedTeam.left, hb, htodo]
      rcases Nat.lt_trichotomy b l with hlt | rfl | hgt
      · rw [if_pos hlt.le, if_pos (by omega)]
      · rw [if_pos le_rfl, if_neg (by omega), if_pos rfl]
      · rw [if_neg (by omega), ite_self, if_neg (by omega), if_neg (by omega)]
    rw [flatMap_left_congr (s := s) fun m' => ?_]
    · exact hinv.left l loop hloop
    · by_cases hm : m' = m
      · rw [hm, hsame, OrderedTeam.left, returned_self]
      · exact left_ne hm
  case bound => exact hinv.bound
  case table =>
    rw [paces_returned]
    exact hinv.table.next hlen hb hlt
  case inside =>
    intro m' l hin hl
    have hm : m' ≠ m := fun hm => by rw [hm, returned_self, hinside] at hin; cases hin
    rw [returned_ne hm] at hin hl ⊢
    rw [hentries]
    exact hinv.inside m' l hin hl
  case outside =>
    intro l loop hloop hout
    rw [hentries]
    refine hinv.outside l loop hloop fun m' hin hl => ?_
    have hm : m' ≠ m := fun hm => by rw [hm, hinside] at hin; cases hin
    exact hout m' (by rwa [returned_ne hm]) (by rwa [returned_ne hm])
  case succeeded => exact succeeded_returned hinv.succeeded hevent.2

theorem Inv.enter {r : OrderedStatus × OrderedContext}
    (hinside : (s.members m).inside = false) (htodo : (s.members m).todo = iteration :: rest)
    (hb : (s.members m).begun = l + 1) (hloop : plan.loops[l]? = some loop)
    (hr : orderedEnter iteration loop.lower loop.step (s.members m).team s.workspace = some r) :
    loop.iterations[done l]? = some iteration.toInt ∧
      r = (.success, { (s.members m).team with orderedActiveGeneration := some (.ofNat (l + 1)) }) := by
  have hmember := hinv.member m
  have hactive := hmember.active
  rw [hinside, if_neg (by decide)] at hactive
  have hgeneration := hmember.generation
  rw [hb] at hgeneration
  have hne : (s.members m).team.orderedGeneration ≠ 0 := by
    have : (s.members m).begun ≤ plan.loops.length := hinv.table.bound m
    rw [hgeneration]
    exact ofNat_ne_zero (by omega) (by omega)
  have hentry := hinv.table.current l m m hb.ge hb.le
  rw [← hgeneration] at hentry
  have hmem : iteration.toInt ∈ loop.iterations.drop (done l) :=
    (hinv.left l loop hloop).subset (mem_flatMap.mpr ⟨m, mem_finRange m, mem_left hb htodo⟩)
  obtain ⟨i, hi⟩ := getElem?_of_mem hmem
  rw [getElem?_drop] at hi
  rw [orderedEnter_eq hactive hne hentry rfl hi (Nat.le_add_right _ _)] at hr
  split at hr
  · rename_i heq
    rw [heq] at hi
    rw [← hgeneration]
    exact ⟨hi, (some.inj hr).symm⟩
  · cases hr

theorem Inv.afterExit (hinside : (s.members m).inside = true) (hb : (s.members m).begun = l + 1)
    (hteam : team = { (s.members m).team with orderedActiveGeneration := none }) :
    Inv plan teamSize (update done l (done l + 1))
      (s.returned m { s.members m with team := team, todo := (s.members m).todo.tail, inside := false }
        (s.workspace.set (.ofNat (l + 1))
          (some { preparedTasks := arrived s.paces l, nextOrdinal := ((done l + 1 : Nat) : Int) }))
        { loop := l, call := .exit, status := .success }) := by
  obtain ⟨loop, iteration, rest, hloop, htodo, hturn, hentered⟩ := hinv.inside m l hinside hb
  have hlt : done l < loop.iterations.length := (List.getElem?_eq_some_iff.mp hturn).1
  have hentries : ∀ {member w} l', (s.returned m member w { loop := l, call := .exit, status := .success }).entries l' =
      s.entries l' := fun l' => by
    rw [entries_returned]
    exact append_nil _
  constructor
  case member =>
    intro m'
    by_cases hm : m' = m
    · have hmember := hinv.member m
      rw [hm, returned_self, hteam]
      exact ⟨hmember.size, hmember.generation, rfl, fun h => absurd (hb.symm.trans h) (Nat.succ_ne_zero l)⟩
    · rw [returned_ne hm]
      exact hinv.member m'
  case left =>
    intro l' loop' hloop'
    by_cases hl : l' = l
    · subst hl
      obtain rfl : loop = loop' := some.inj (hloop.symm.trans hloop')
      have hdrop : loop.iterations.drop (done l') = iteration.toInt :: loop.iterations.drop (done l' + 1) := by
        rw [drop_eq_getElem_cons hlt]
        congr 1
        exact some.inj ((getElem?_eq_getElem hlt).symm.trans hturn)
      rw [update_self]
      refine List.Perm.cons_inv (.trans (.symm ?_) (hdrop ▸ hinv.left l' loop hloop))
      refine flatMap_perm_cons (nodup_finRange n) (mem_finRange m) (fun m' hm => by rw [left_ne hm]) ?_
      rw [OrderedTeam.left, OrderedTeam.left, returned_self]
      rw [hb, if_neg (Nat.not_succ_le_self l'), if_pos rfl, if_neg (Nat.not_succ_le_self l'), if_pos rfl, htodo]
      rfl
    · rw [Function.update_of_ne hl]
      rw [flatMap_left_congr (s := s) fun m' => ?_]
      · exact hinv.left l' loop' hloop'
      · by_cases hm : m' = m
        · have hne : l + 1 ≠ l' + 1 := fun he => hl (Nat.succ_injective he).symm
          rw [hm, OrderedTeam.left, OrderedTeam.left, returned_self]
          rw [hb, if_neg hne, if_neg hne]
        · exact left_ne hm
  case bound =>
    intro l' loop' hloop'
    by_cases hl : l' = l
    · subst hl
      obtain rfl : loop = loop' := some.inj (hloop.symm.trans hloop')
      rw [update_self]
      exact hlt
    · rw [Function.update_of_ne hl]
      exact hinv.bound l' loop' hloop'
  case table =>
    rw [paces_same]
    · exact hinv.table.write hlen hb.ge (fun l' hl => by rw [Function.update_of_ne hl]) (by rw [update_self])
    · rfl
  case inside =>
    intro m' l' hin hl'
    have hm : m' ≠ m := fun hm => by rw [hm, returned_self] at hin; cases hin
    rw [returned_ne hm] at hin hl' ⊢
    -- whoever is inside another region is not `m`, and its loop is not `l`
    have hl : l' ≠ l := fun he => hm (hinv.exclusive hin hinside (hl'.trans (he ▸ hb.symm)))
    rw [hentries, Function.update_of_ne hl]
    exact hinv.inside m' l' hin hl'
  case outside =>
    intro l' loop' hloop' hout
    rw [hentries]
    by_cases hl : l' = l
    · subst hl
      obtain rfl : loop = loop' := some.inj (hloop.symm.trans hloop')
      rw [update_self, hentered]
    · rw [Function.update_of_ne hl]
      refine hinv.outside l' loop' hloop' fun m' hin hl' => ?_
      have hm : m' ≠ m := by
        rintro rfl
        omega
      exact hout m' (by rwa [returned_ne hm]) (by rwa [returned_ne hm])
  case succeeded => exact succeeded_returned hinv.succeeded rfl

theorem Inv.step (hn : teamSize.toInt.toNat = n) (hstep : s.step plan m = some s') : ∃ done', Inv plan teamSize done' s' := by
  rcases step_cases hstep with ⟨hinside, rfl⟩ | ⟨iteration, rest, loop, r, hinside, htodo, hloop, hr, rfl⟩ |
    ⟨hinside, htodo, hlt, rfl⟩
  · obtain ⟨l, hl⟩ := hinv.begun_of_inside hinside
    have hnumber : (s.members m).begun - 1 = l := by omega
    rw [hinv.exit hinside hl, hnumber]
    exact ⟨_, hinv.afterExit hlen hinside hl rfl⟩
  · obtain ⟨l, hl⟩ := hinv.begun_of_todo htodo
    have hnumber : (s.members m).begun - 1 = l := by omega
    rw [hnumber] at hloop ⊢
    obtain ⟨hturn, rfl⟩ := hinv.enter hlen hinside htodo hl hloop hr
    exact ⟨done, hinv.afterEnter hinside htodo hl hloop hturn rfl⟩
  · rw [hinv.prepare hlen hn hinside rfl hlt]
    exact ⟨done, hinv.afterPrepare hlen hinside htodo rfl hlt rfl ⟨rfl, rfl⟩⟩

/-- A step of a member that is, or arrives, in a later loop leaves the entry of a slower member's loop as it is. -/
theorem Inv.undisturbed {m' : Fin n} (hn : teamSize.toInt.toNat = n) (hm : m' ≠ m) (hstep : s.step plan m = some s')
    (hbegun : (s.members m').begun ≠ 0) (hslower : (s.members m').begun < (s'.members m).begun) :
    ∃ entry, s.workspace.generations (s.members m').team.orderedGeneration = some entry ∧
      s'.workspace.generations (s.members m').team.orderedGeneration = some entry := by
  obtain ⟨l', hl'⟩ := Nat.exists_eq_succ_of_ne_zero hbegun
  have hentry := hinv.table.current l' m' m' hl'.ge hl'.le
  rw [(hinv.member m').generation, hl']
  refine ⟨_, hentry, ?_⟩
  rw [← hentry]
  rcases step_cases hstep with ⟨hinside, rfl⟩ | ⟨iteration, rest, loop, r, hinside, htodo, hloop, hr, rfl⟩ |
    ⟨hinside, htodo, hlt, rfl⟩
  · obtain ⟨l, hl⟩ := hinv.begun_of_inside hinside
    have hloop := hinv.loop_lt (m := m) (l := l) (by omega)
    rw [returned_self] at hslower
    have hslower : (s.members m').begun < (s.members m).begun := hslower
    rw [hinv.exit hinside hl]
    exact Function.update_of_ne (fun he => by have := ofNat_inj (by omega) (by omega) he; omega) ..
  · rfl
  · rw [returned_self] at hslower
    have hslower : (s.members m').begun < (s.members m).begun + 1 := hslower
    rw [hinv.prepare hlen hn hinside rfl hlt]
    have hkept : update s.paces m ((s.members m).begun + 1) m' ≤ l' + 1 := by
      rw [Function.update_of_ne hm]
      exact hl'.le
    exact beginRound_keeps rfl (Nat.lt_of_le_of_lt hlt hlen) (by omega) (by omega) hkept

end Steps

end OrderedTeam

end Armfortas.Runtime.Openmp
