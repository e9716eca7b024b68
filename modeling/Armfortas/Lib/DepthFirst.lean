import Armfortas.Lib.Exhaust
import Mathlib.Algebra.Order.BigOperators.Group.List
import Mathlib.Algebra.Order.Ring.Nat
import Mathlib.Data.List.Nodup

/-! A stack entry `(x, false)` asks for a visit of `x`; `(x, true)` waits below the successors of `x` and finishes it.
The reversed order of finishing is an order of the reachable nodes in which every node but the root comes after one of
its predecessors. -/
namespace Armfortas.Lib
open List

variable {α : Type} [DecidableEq α]

structure Dfs (α : Type) where
  stack : List (α × Bool)
  visited : List α
  /-- the finished nodes, first the one finished first -/
  postorder : List α

variable (succ : α → List α) (root : α)

def Dfs.init : Dfs α := { stack := [(root, false)], visited := [], postorder := [] }

def Dfs.step (s : Dfs α) : Option (Dfs α) :=
  match s.stack with
  | [] => none
  | (x, true) :: rest => some { s with stack := rest, postorder := s.postorder ++ [x] }
  | (x, false) :: rest =>
      if x ∈ s.visited then some { s with stack := rest }
      else
        let visited := x :: s.visited
        some { s with
          visited := visited
          stack := ((succ x).filter (· ∉ visited)).map (·, false) ++ (x, true) :: rest }

def reversePostorder (fuel : Nat) : Option (List α) :=
  (exhaust (Dfs.step succ) fuel (Dfs.init root)).map (·.postorder.reverse)

/-- An order of the reachable nodes in which every node but the root follows one of its predecessors. -/
structure FlowOrder (order : List α) : Prop where
  nodup : order.Nodup
  mem : ∀ x, x ∈ order ↔ Relation.ReflTransGen (fun a b => b ∈ succ a) root x
  parent : ∀ x ∈ order, x ≠ root → ∃ p, x ∈ succ p ∧ [p, x].Sublist order

/-! ## The invariant of the search -/

/-- Every entry but the root's was put on the stack by a node that waits below it. -/
inductive Supported : List (α × Bool) → Prop
  | nil : Supported []
  | cons {x : α} {done : Bool} {rest : List (α × Bool)} :
      (x = root ∨ ∃ p, (p, true) ∈ rest ∧ x ∈ succ p) → Supported rest → Supported ((x, done) :: rest)

def waiting (stack : List (α × Bool)) : List α := (stack.filter (·.2)).map (·.1)

omit [DecidableEq α] in
@[simp] theorem mem_waiting {stack : List (α × Bool)} {x} : x ∈ waiting stack ↔ (x, true) ∈ stack := by
  simp [waiting]

omit [DecidableEq α] in
@[simp] theorem waiting_asks (xs : List α) (stack : List (α × Bool)) :
    waiting (xs.map (·, false) ++ stack) = waiting stack := by
  induction xs with
  | nil => rfl
  | cons x xs ih => simp [waiting]

structure DfsInv (s : Dfs α) : Prop where
  supported : Supported succ root s.stack
  nodup : (waiting s.stack ++ s.postorder).Nodup
  visited : ∀ x, x ∈ s.visited ↔ x ∈ waiting s.stack ∨ x ∈ s.postorder
  reach : ∀ x, x ∈ s.visited ∨ (x, false) ∈ s.stack → Relation.ReflTransGen (fun a b => b ∈ succ a) root x
  closed : ∀ x ∈ s.visited, ∀ y ∈ succ x, y ∈ s.visited ∨ (y, false) ∈ s.stack
  start : root ∈ s.visited ∨ (root, false) ∈ s.stack
  parent : ∀ x ∈ s.postorder, x ≠ root →
    ∃ p, x ∈ succ p ∧ ((p, true) ∈ s.stack ∨ [x, p].Sublist s.postorder)

variable {succ root}

theorem DfsInv.init : DfsInv succ root (Dfs.init root) where
  supported := .cons (.inl rfl) .nil
  nodup := by simp [Dfs.init, waiting]
  visited := by simp [Dfs.init, waiting]
  reach := by
    intro x hx
    have : x = root := by simpa [Dfs.init] using hx
    exact this ▸ .refl
  closed := by simp [Dfs.init]
  start := by simp [Dfs.init]
  parent := by simp [Dfs.init]

omit [DecidableEq α] in
theorem Supported.tail {e rest} (h : Supported succ root (e :: rest)) :
    Supported succ root rest := by
  cases h with
  | cons _ h => exact h

omit [DecidableEq α] in
theorem Supported.asks {x : α} {rest : List (α × Bool)} (h : Supported succ root ((x, true) :: rest))
    {ys : List α} (hys : ∀ y ∈ ys, y ∈ succ x) :
    Supported succ root (ys.map (·, false) ++ (x, true) :: rest) := by
  induction ys with
  | nil => exact h
  | cons y ys ih =>
    refine .cons (.inr ⟨x, by simp, hys y mem_cons_self⟩) (ih fun z hz => ?_)
    exact hys z (.tail _ hz)

omit [DecidableEq α] in
theorem DfsInv.finish {s x rest} (h : DfsInv succ root s)
    (hs : s.stack = (x, true) :: rest) :
    DfsInv succ root { s with stack := rest, postorder := s.postorder ++ [x] } := by
  have hwait : waiting s.stack = x :: waiting rest := by simp [hs, waiting]
  have hsup := h.supported
  have hnd := h.nodup
  rw [hs] at hsup
  rw [hwait, cons_append, nodup_cons] at hnd
  refine ⟨hsup.tail, ?_, fun y => ?_, fun y hy => h.reach y ?_, fun y hy z hz => ?_, ?_, ?_⟩
  · show (waiting rest ++ (s.postorder ++ [x])).Nodup
    rw [← append_assoc]
    exact nodup_append.mpr ⟨hnd.2, by simp, fun a ha b hb e => hnd.1 (by simp_all)⟩
  · rw [h.visited, hwait, mem_cons, mem_append, mem_singleton]
    tauto
  · simpa [hs] using hy
  · simpa [hs] using h.closed y hy z hz
  · simpa [hs] using h.start
  · intro y hy hyr
    rcases mem_append.mp hy with hold | hnew
    · obtain ⟨p, hp, hlater⟩ := h.parent y hold hyr
      rw [hs, mem_cons] at hlater
      refine ⟨p, hp, ?_⟩
      rcases hlater with (he | hrest) | hsub
      · obtain ⟨rfl, -⟩ := Prod.mk.inj he
        have hsub : ([y] ++ [p]).Sublist (s.postorder ++ [p]) := (singleton_sublist.mpr hold).append (.refl _)
        exact .inr hsub
      · exact .inl hrest
      · exact .inr (hsub.trans (sublist_append_left _ _))
    · -- the node was asked for by one that still waits
      obtain rfl := mem_singleton.mp hnew
      cases hsup with
      | cons hask _ =>
        obtain ⟨p, hp, hxp⟩ := hask.resolve_left hyr
        exact ⟨p, hxp, .inl hp⟩

omit [DecidableEq α] in
theorem DfsInv.drop {s x rest} (h : DfsInv succ root s)
    (hs : s.stack = (x, false) :: rest) (hx : x ∈ s.visited) : DfsInv succ root { s with stack := rest } := by
  have hwait : waiting s.stack = waiting rest := by simp [hs, waiting]
  have hsup := h.supported
  rw [hs] at hsup
  have hask : ∀ y, y ∈ s.visited ∨ (y, false) ∈ s.stack → y ∈ s.visited ∨ (y, false) ∈ rest := by
    intro y hy
    rw [hs, mem_cons, Prod.mk.injEq] at hy
    rcases hy with hy | ⟨rfl, -⟩ | hy
    · exact .inl hy
    · exact .inl hx
    · exact .inr hy
  refine ⟨hsup.tail, hwait ▸ h.nodup, hwait ▸ h.visited, fun y hy => h.reach y ?_,
    fun y hy z hz => hask z (h.closed y hy z hz), hask root h.start, fun y hy hyr => ?_⟩
  · exact hy.imp_right fun hy => hs ▸ .tail _ hy
  · obtain ⟨p, hp, hlater⟩ := h.parent y hy hyr
    exact ⟨p, hp, by simpa [hs] using hlater⟩

theorem DfsInv.visit {s : Dfs α} {x : α} {rest : List (α × Bool)} (h : DfsInv succ root s)
    (hs : s.stack = (x, false) :: rest) (hx : x ∉ s.visited) :
    DfsInv succ root { s with
      visited := x :: s.visited
      stack := ((succ x).filter (· ∉ x :: s.visited)).map (·, false) ++ (x, true) :: rest } := by
  have hwait : waiting s.stack = waiting rest := by simp [hs, waiting]
  have hwait' : ∀ ys : List α, waiting (ys.map (·, false) ++ (x, true) :: rest) = x :: waiting rest := by
    intro ys
    rw [waiting_asks]
    simp [waiting]
  have hsup := h.supported
  rw [hs] at hsup
  have hfresh : x ∉ waiting rest ++ s.postorder := by
    rw [mem_append, ← hwait, ← h.visited]
    exact hx
  have hreach := h.reach x (.inr (hs ▸ mem_cons_self))
  have hold : ∀ y, y ∈ s.visited ∨ (y, false) ∈ s.stack → y ∈ x :: s.visited ∨
      (y, false) ∈ ((succ x).filter (· ∉ x :: s.visited)).map (·, false) ++ (x, true) :: rest := by
    intro y hy
    rw [hs, mem_cons, Prod.mk.injEq] at hy
    rcases hy with hy | ⟨rfl, -⟩ | hy
    · exact .inl (.tail _ hy)
    · exact .inl mem_cons_self
    · exact .inr (mem_append_right _ (.tail _ hy))
  refine ⟨?_, ?_, fun y => ?_, fun y hy => ?_, fun y hy z hz => ?_, hold root h.start, fun y hy hyr => ?_⟩
  · refine Supported.asks ?_ fun y hy => (mem_filter.mp hy).1
    cases hsup with
    | cons hask hrest => exact .cons hask hrest
  · rw [hwait', cons_append, nodup_cons]
    exact ⟨hfresh, hwait ▸ h.nodup⟩
  · rw [hwait', mem_cons, mem_cons, h.visited, hwait, or_assoc]
  · rcases hy with hy | hy
    · rcases mem_cons.mp hy with rfl | hy
      · exact hreach
      · exact h.reach y (.inl hy)
    · rcases mem_append.mp hy with hy | hy
      · have hyx : y ∈ succ x := by
          obtain ⟨z, hz, he⟩ := mem_map.mp hy
          obtain ⟨rfl, -⟩ := Prod.mk.inj he
          exact (mem_filter.mp hz).1
        exact hreach.tail hyx
      · exact h.reach y (.inr (hs ▸ mem_cons_of_mem _ (by simpa using hy)))
  · rcases mem_cons.mp hy with rfl | hy
    · by_cases hz' : z ∈ y :: s.visited
      · exact .inl hz'
      · exact .inr (mem_append_left _ (mem_map_of_mem (mem_filter.mpr ⟨hz, by simpa using hz'⟩)))
    · exact hold z (h.closed y hy z hz)
  · obtain ⟨p, hp, hlater⟩ := h.parent y hy hyr
    refine ⟨p, hp, hlater.imp_left fun hp => ?_⟩
    rw [hs] at hp
    exact mem_append_right _ (mem_cons_of_mem _ (by simpa using hp))

theorem DfsInv.step {s s'} (h : DfsInv succ root s) (hstep : Dfs.step succ s = some s') :
    DfsInv succ root s' := by
  unfold Dfs.step at hstep
  split at hstep
  · cases hstep
  · next x rest hs =>
    obtain rfl := Option.some.inj hstep
    exact h.finish hs
  · next x rest hs =>
    split at hstep
    · next hx =>
      obtain rfl := Option.some.inj hstep
      exact h.drop hs hx
    · next hx =>
      obtain rfl := Option.some.inj hstep
      exact h.visit hs hx

/-! ## Termination -/

/-- What a visit may put on the stack, for the nodes that are not visited yet. -/
def unvisitedWork (succ : α → List α) (nodes visited : List α) : Nat :=
  ((nodes.filter (· ∉ visited)).map fun x => (succ x).length + 1).sum

theorem unvisitedWork_visit (succ : α → List α) (nodes visited : List α) {x} (hx : x ∈ nodes) (hv : x ∉ visited) :
    unvisitedWork succ nodes (x :: visited) + ((succ x).length + 1) ≤ unvisitedWork succ nodes visited := by
  induction nodes with
  | nil => simp at hx
  | cons y nodes ih =>
    have hmono : ∀ l : List α, unvisitedWork succ l (x :: visited) ≤ unvisitedWork succ l visited := by
      intro l
      refine (List.Sublist.map _ ?_).sum_le_sum fun _ _ => Nat.zero_le _
      exact monotone_filter_right _ fun z => by simp
    by_cases hyx : y = x
    · subst hyx
      have h := hmono nodes
      simp only [unvisitedWork, filter_cons, mem_cons, true_or, not_true, decide_false, hv,
        not_false_eq_true, decide_true, if_true, map_cons, sum_cons, Bool.false_eq_true, if_false] at h ⊢
      omega
    · have h := ih (by simpa [Ne.symm hyx] using hx)
      by_cases hyv : y ∈ visited
      · simpa [unvisitedWork, hyx, hyv] using h
      · simp only [unvisitedWork, filter_cons, mem_cons, hyx, hyv, or_self, not_false_eq_true,
          decide_true, if_true, map_cons, sum_cons] at h ⊢
        omega

def dfsMeasure (succ : α → List α) (nodes : List α) (s : Dfs α) : Nat :=
  s.stack.length + unvisitedWork succ nodes s.visited

theorem dfsMeasure_step {nodes} (hnodes : ∀ x, Relation.ReflTransGen (fun a b => b ∈ succ a) root x → x ∈ nodes)
    {s s'} (h : DfsInv succ root s) (hstep : Dfs.step succ s = some s') :
    dfsMeasure succ nodes s' < dfsMeasure succ nodes s := by
  unfold Dfs.step at hstep
  split at hstep
  · cases hstep
  · next x rest hs =>
    obtain rfl := Option.some.inj hstep
    simp [dfsMeasure, hs]
  · next x rest hs =>
    split at hstep
    · obtain rfl := Option.some.inj hstep
      simp [dfsMeasure, hs]
    · next hx =>
      obtain rfl := Option.some.inj hstep
      have hwork := unvisitedWork_visit succ nodes s.visited
        (hnodes x (h.reach x (.inr (hs ▸ mem_cons_self)))) hx
      have hlen := length_filter_le (fun y => decide (y ∉ x :: s.visited)) (succ x)
      simp only [dfsMeasure, hs, length_append, length_map, length_cons]
      omega

def dfsFuel (succ : α → List α) (nodes : List α) : Nat := (nodes.map fun x => (succ x).length + 1).sum + 2

/-! ## The order the search gives -/

theorem reversePostorder_spec (succ : α → List α) (root : α) (nodes : List α)
    (hnodes : ∀ x, Relation.ReflTransGen (fun a b => b ∈ succ a) root x → x ∈ nodes) :
    ∃ order, reversePostorder succ root (dfsFuel succ nodes) = some order ∧ FlowOrder succ root order := by
  have hfuel : dfsMeasure succ nodes (Dfs.init root) < dfsFuel succ nodes := by
    simp only [dfsMeasure, Dfs.init, dfsFuel, unvisitedWork, length_singleton, not_mem_nil, not_false_eq_true,
      decide_true, filter_true]
    omega
  obtain ⟨s, hs, hinv, hend⟩ := exhaust_spec (P := DfsInv succ root) (m := dfsMeasure succ nodes)
    (fun a b ha hab => ⟨ha.step hab, dfsMeasure_step hnodes ha hab⟩) DfsInv.init hfuel
  have hstack : s.stack = [] := by
    unfold Dfs.step at hend
    split at hend
    · assumption
    · cases hend
    · split at hend <;> cases hend
  have hvisited : ∀ x, x ∈ s.visited ↔ x ∈ s.postorder := by
    intro x
    rw [hinv.visited, hstack]
    simp [waiting]
  refine ⟨s.postorder.reverse, by rw [reversePostorder, hs]; rfl, ?_, fun x => ?_, fun x hx hxr => ?_⟩
  · have hnd := hinv.nodup
    rw [hstack] at hnd
    exact nodup_reverse.mpr (by simpa [waiting] using hnd)
  · rw [mem_reverse, ← hvisited]
    refine ⟨fun hx => hinv.reach x (.inl hx), fun hx => ?_⟩
    -- what was visited is closed under successors, and nothing is left on the stack
    induction hx with
    | refl => simpa [hstack] using hinv.start
    | tail _ hab ih => simpa [hstack] using hinv.closed _ ih _ hab
  · obtain ⟨p, hp, hlater⟩ := hinv.parent x (mem_reverse.mp hx) hxr
    refine ⟨p, hp, ?_⟩
    have hsub : [x, p].Sublist s.postorder := by simpa [hstack] using hlater
    simpa using hsub.reverse

theorem idxOf_lt_of_sublist {l : List α} (hnd : l.Nodup) {a b} (h : [a, b].Sublist l) :
    l.idxOf a < l.idxOf b := by
  induction l with
  | nil => cases h
  | cons c l ih =>
    rw [nodup_cons] at hnd
    cases h with
    | cons _ h =>
      have hmem : ∀ x ∈ [a, b], x ≠ c := fun x hx e => hnd.1 (e ▸ h.subset hx)
      rw [idxOf_cons_ne _ (hmem a (by simp)).symm, idxOf_cons_ne _ (hmem b (by simp)).symm]
      exact Nat.succ_lt_succ (ih hnd.2 h)
    | cons_cons _ h =>
      have hb : b ≠ a := fun e => hnd.1 (e ▸ h.subset (by simp))
      rw [idxOf_cons_self, idxOf_cons_ne _ hb.symm]
      exact Nat.succ_pos _

end Armfortas.Lib
