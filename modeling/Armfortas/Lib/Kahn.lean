import Armfortas.Lib.Exhaust
import Mathlib.Data.Fintype.EquivFin
import Mathlib.Data.List.Perm.Subperm
import Mathlib.Order.WellFounded

/-! A node whose predecessors are all done is put into a queue; one that is taken from it is done. What is left when
the queue runs empty has predecessors among itself. -/
namespace Armfortas.Lib
open List Relation

variable {α : Type} [DecidableEq α]

structure Kahn (α : Type) where
  queue : List α
  order : List α
  inDegree : α → Nat

namespace Kahn

def relax (s : Kahn α) (y : α) : Kahn α :=
  let inDegree := Function.update s.inDegree y (s.inDegree y - 1)
  if inDegree y = 0 then { s with queue := s.queue ++ [y], inDegree := inDegree } else { s with inDegree := inDegree }

def step (succ : α → List α) (s : Kahn α) : Option (Kahn α) :=
  match s.queue with
  | [] => none
  | x :: rest => some ((succ x).foldl relax { s with queue := rest, order := s.order ++ [x] })

/-- Between two steps, and while the successors `pending` of the node done last are still to be told. -/
structure Inv (succ : α → List α) (nodes pending : List α) (s : Kahn α) : Prop where
  nodup : (s.order ++ s.queue).Nodup
  mem : ∀ x, x ∈ s.order ++ s.queue ↔ x ∈ nodes ∧ s.inDegree x = 0
  degree : ∀ x ∈ nodes, s.inDegree x = pending.count x + ((nodes.filter (· ∉ s.order)).flatMap succ).count x
  sorted : s.order.Pairwise fun a b => a ∉ succ b

variable {succ : α → List α} {nodes pending : List α} {s : Kahn α} {x y : α}

theorem Inv.relax (hy : y ∈ nodes) (h : Inv succ nodes (y :: pending) s) : Inv succ nodes pending (s.relax y) := by
  have hdegree := h.degree y hy
  rw [count_cons_self] at hdegree
  have hnew : y ∉ s.order ++ s.queue := fun hmem => by have := ((h.mem y).mp hmem).2; omega
  have hrest : ∀ x ∈ nodes, Function.update s.inDegree y (s.inDegree y - 1) x =
      pending.count x + ((nodes.filter (· ∉ s.order)).flatMap succ).count x := by
    intro x hx
    by_cases hxy : x = y
    · rw [hxy, Function.update_self, hdegree]
      omega
    · rw [Function.update_of_ne hxy, h.degree x hx, count_cons_of_ne (Ne.symm hxy)]
  unfold Kahn.relax
  dsimp only
  split
  · next hzero =>
    refine ⟨?_, fun x => ?_, hrest, h.sorted⟩
    · rw [← append_assoc]
      exact h.nodup.append (by simp) (by simpa using hnew)
    · rw [← append_assoc, mem_append, mem_singleton, h.mem]
      by_cases hxy : x = y
      · rw [hxy]
        exact iff_of_true (.inr rfl) ⟨hy, hzero⟩
      · simp [hxy]
  · next hpos =>
    refine ⟨h.nodup, fun x => ?_, hrest, h.sorted⟩
    by_cases hxy : x = y
    · exact iff_of_false (hxy ▸ hnew) fun hx => hpos (hxy ▸ hx.2)
    · simpa [hxy] using h.mem x

theorem Inv.foldl (hpending : ∀ y ∈ pending, y ∈ nodes) (h : Inv succ nodes pending s) :
    Inv succ nodes [] (pending.foldl Kahn.relax s) := by
  induction pending generalizing s with
  | nil => exact h
  | cons y pending ih =>
    obtain ⟨hy, hpending⟩ := forall_mem_cons.mp hpending
    exact ih hpending (h.relax hy)

theorem Inv.not_mem_succ (h : Inv succ nodes [] s) (hx : x ∈ s.order ++ s.queue) (hy : y ∈ nodes) (hleft : y ∉ s.order) :
    x ∉ succ y := by
  obtain ⟨hx, hzero⟩ := (h.mem x).mp hx
  have hcount := (h.degree x hx).symm.trans hzero
  rw [count_nil, Nat.zero_add, count_eq_zero] at hcount
  exact fun hxy => hcount (mem_flatMap.mpr ⟨y, mem_filter.mpr ⟨hy, by simpa using hleft⟩, hxy⟩)

theorem Inv.pop (hnodes : nodes.Nodup) (h : Inv succ nodes [] s) {rest : List α} (hqueue : s.queue = x :: rest) :
    Inv succ nodes (succ x) { s with queue := rest, order := s.order ++ [x] } := by
  have hnodup := h.nodup
  have hmem := h.mem
  rw [hqueue, append_cons] at hnodup hmem
  have hx : x ∈ nodes := ((hmem x).mp (by simp)).1
  have hleft : x ∉ s.order := fun hx => (nodup_append.mp (nodup_append.mp hnodup).1).2.2 x hx x (by simp) rfl
  refine ⟨hnodup, hmem, fun z hz => ?_, pairwise_append.mpr ⟨h.sorted, by simp, fun a ha b hb => ?_⟩⟩
  · have hsplit : (nodes.filter (· ∉ s.order)).Perm (x :: nodes.filter (· ∉ s.order ++ [x])) := by
      refine (perm_cons_erase (mem_filter.mpr ⟨hx, by simpa using hleft⟩)).trans (.of_eq (congrArg _ ?_))
      rw [(hnodes.filter _).erase_eq_filter, filter_filter]
      exact filter_congr fun a _ => by by_cases a = x <;> simp_all
    rw [h.degree z hz, (hsplit.flatMap_right succ).count_eq, flatMap_cons, count_append, count_nil, Nat.zero_add]
  · obtain rfl := mem_singleton.mp hb
    exact h.not_mem_succ (mem_append_left _ ha) hx hleft

/-- The queue runs empty. No node of the order has a later one as its predecessor, and what is not in it has a
predecessor that is not. -/
theorem exhaust_step (hnodes : nodes.Nodup) (hsucc : ∀ x ∈ nodes, ∀ y ∈ succ x, y ∈ nodes) (h : Inv succ nodes [] s) :
    ∃ s', exhaust (step succ) (nodes.length + 1) s = some s' ∧ s'.order.Nodup ∧ (∀ x ∈ s'.order, x ∈ nodes) ∧
      (s'.order.Pairwise fun a b => a ∉ succ b) ∧
      ∀ x ∈ nodes, x ∉ s'.order → ∃ p ∈ nodes, p ∉ s'.order ∧ x ∈ succ p := by
  have hstep : ∀ s s' : Kahn α, Inv succ nodes [] s → step succ s = some s' →
      Inv succ nodes [] s' ∧ nodes.length - s'.order.length < nodes.length - s.order.length := by
    intro s s' h hs
    unfold step at hs
    split at hs
    · cases hs
    · next x rest hqueue =>
      cases hs
      have hx : x ∈ nodes := ((h.mem x).mp (by simp [hqueue])).1
      have horder : ∀ (ys : List α) (s : Kahn α), (ys.foldl Kahn.relax s).order = s.order := by
        intro ys
        induction ys with
        | nil => exact fun _ => rfl
        | cons y ys ih =>
          intro s
          rw [foldl_cons, ih, Kahn.relax]
          split <;> rfl
      have hle := (subperm_of_subset h.nodup fun z hz => ((h.mem z).mp hz).1).length_le
      refine ⟨(h.pop hnodes hqueue).foldl (hsucc x hx), ?_⟩
      simp only [hqueue, length_append, length_cons] at hle
      simp only [horder, length_append, length_singleton]
      omega
  obtain ⟨s', hrun, h', hend⟩ := exhaust_spec hstep h (Nat.lt_succ_of_le (Nat.sub_le nodes.length _))
  have hqueue : s'.queue = [] := by
    unfold step at hend
    split at hend
    · assumption
    · cases hend
  have hmem := h'.mem
  rw [hqueue, append_nil] at hmem
  refine ⟨s', hrun, (nodup_append.mp h'.nodup).1, fun x hx => ((hmem x).mp hx).1, h'.sorted, fun x hx hleft => ?_⟩
  have hcount := h'.degree x hx
  rw [count_nil, Nat.zero_add] at hcount
  have hpos : 0 < s'.inDegree x := Nat.pos_of_ne_zero fun hzero => hleft ((hmem x).mpr ⟨hx, hzero⟩)
  obtain ⟨p, hp, hxp⟩ := mem_flatMap.mp (count_pos_iff.mp (hcount ▸ hpos))
  obtain ⟨hp, hnot⟩ := mem_filter.mp hp
  exact ⟨p, hp, by simpa using hnot, hxp⟩

theorem mem_of_acyclic (hacyclic : ∀ x, ¬ TransGen (fun p x => x ∈ succ p) x x) {order : List α}
    (hleft : ∀ x ∈ nodes, x ∉ order → ∃ p ∈ nodes, p ∉ order ∧ x ∈ succ p) (hx : x ∈ nodes) : x ∈ order := by
  by_contra hnot
  let r (a b : { x // x ∈ nodes.filter (· ∉ order) }) := TransGen (fun p x => x ∈ succ p) a.1 b.1
  have : IsTrans _ r := ⟨fun _ _ _ => .trans⟩
  have : Std.Irrefl r := ⟨fun a => hacyclic a⟩
  obtain ⟨⟨m, hm⟩, -, hmin⟩ := (Finite.wellFounded_of_trans_of_irrefl r).has_min Set.univ ⟨⟨x, by simp [hx, hnot]⟩, trivial⟩
  obtain ⟨hm, hmleft⟩ := mem_filter.mp hm
  obtain ⟨p, hp, hpleft, hmp⟩ := hleft m hm (by simpa using hmleft)
  exact hmin ⟨p, by simp [hp, hpleft]⟩ trivial (.single hmp)

theorem idxOf_lt_of_mem_succ {order : List α} (hsorted : order.Pairwise fun a b => a ∉ succ b) (hx : x ∈ order)
    (hy : y ∈ order) (hne : x ≠ y) (h : y ∈ succ x) : order.idxOf x < order.idxOf y := by
  refine (Nat.lt_or_gt_of_ne fun heq => hne ((idxOf_inj hx).mp heq)).resolve_right fun hlt => ?_
  have := pairwise_iff_getElem.mp hsorted _ _ (idxOf_lt_length_iff.mpr hy) (idxOf_lt_length_iff.mpr hx) hlt
  rw [getElem_idxOf, getElem_idxOf] at this
  exact this h

end Kahn

end Armfortas.Lib
