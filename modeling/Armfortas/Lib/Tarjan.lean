import Mathlib.Algebra.Order.Ring.Nat
import Mathlib.Data.List.Basic
import Mathlib.Logic.Relation

/-! Tarjan's depth-first search: a node stays on a stack until the search has seen all that it reaches. The low link
of a node says how far down the stack the search has come from it; where that is the node itself, the nodes above it
are its strongly connected component. -/
namespace Armfortas.Lib
open List Option Function

variable {α : Type} [DecidableEq α]

structure Scc (α : Type) where
  nextIndex : Nat
  indices : α → Option Nat
  lowlink : α → Nat
  /-- the node that was pushed last comes first -/
  stack : List α
  onStack : α → Bool
  recursive : α → Bool

namespace Scc

def init : Scc α := ⟨0, fun _ => none, fun _ => 0, [], fun _ => false, fun _ => false⟩

def enter (x : α) (st : Scc α) : Scc α :=
  { st with
    nextIndex := st.nextIndex + 1
    indices := update st.indices x (some st.nextIndex)
    lowlink := update st.lowlink x st.nextIndex
    stack := x :: st.stack
    onStack := update st.onStack x true }

def lower (x : α) (n : Nat) (st : Scc α) : Scc α :=
  { st with lowlink := update st.lowlink x (min (st.lowlink x) n) }

def scan (visit : α → Scc α → Option (Scc α)) (x : α) (st : Scc α) (y : α) : Option (Scc α) :=
  match st.indices y with
  | none => (visit y st).map fun st => st.lower x (st.lowlink y)
  | some index => some (if st.onStack y then st.lower x index else st)

def popTo (x : α) : List α → Option (List α × List α)
  | [] => none
  | y :: ys => if y = x then some ([y], ys) else (popTo x ys).map fun r => (y :: r.1, r.2)

variable (succ : α → List α)

/-- A component of more than one node, or of one that is its own successor. -/
def isCycle (component : List α) : Bool :=
  decide (1 < component.length) || component.head?.any fun member => (succ member).contains member

def close (x : α) (st : Scc α) : Option (Scc α) :=
  (popTo x st.stack).map fun r =>
    { st with
      stack := r.2
      onStack := fun v => st.onStack v && !r.1.contains v
      recursive := fun v => st.recursive v || (isCycle succ r.1 && r.1.contains v) }

def visit : Nat → α → Scc α → Option (Scc α)
  | 0, _, _ => none
  | fuel + 1, x, st =>
      ((succ x).foldlM (scan (visit fuel) x) (st.enter x)).bind fun st =>
        if st.indices x = some (st.lowlink x) then st.close succ x else some st

def visitAll (fuel : Nat) (xs : List α) (st : Scc α) : Option (Scc α) :=
  xs.foldlM (fun st x => if (st.indices x).isNone then visit succ fuel x st else some st) st

/-! ## The invariant -/

variable {succ} {gray : List α} {st st' : Scc α} {x : α}

def Visited (st : Scc α) (v : α) : Prop := st.indices v ≠ none

def index (st : Scc α) (v : α) : Nat := (st.indices v).getD 0

def Done (st : Scc α) (v : α) : Prop := st.Visited v ∧ v ∉ st.stack

variable (succ) in
abbrev Reaches : α → α → Prop := Relation.ReflTransGen fun a b => b ∈ succ a

variable (succ) in
/-- Between two visits; the gray nodes are those whose visit has not ended. -/
structure Inv (gray : List α) (st : Scc α) : Prop where
  bound : ∀ v, st.Visited v → st.index v < st.nextIndex
  stack : ∀ v ∈ st.stack, st.Visited v
  sorted : st.stack.Pairwise fun v w => st.index w < st.index v
  onStack : ∀ v, st.onStack v = true ↔ v ∈ st.stack
  grayStack : ∀ g ∈ gray, g ∈ st.stack
  done : ∀ v, st.Done v → ∀ w ∈ succ v, st.Done w
  black : ∀ v, st.Visited v → v ∉ gray → ∀ w ∈ succ v, st.Visited w
  down : ∀ g ∈ gray, ∀ v ∈ st.stack, st.index g ≤ st.index v → Reaches succ g v
  up : ∀ v ∈ st.stack, ∃ g ∈ gray, st.index g ≤ st.index v ∧ Reaches succ v g
  flags : ∀ v, st.recursive v = true ↔ st.Done v ∧ Relation.TransGen (fun a b => b ∈ succ a) v v

structure After (st st' : Scc α) : Prop where
  next : st.nextIndex ≤ st'.nextIndex
  indices : ∀ v, st.Visited v → st'.indices v = st.indices v
  lowlink : ∀ v, st.Visited v → st'.lowlink v = st.lowlink v

omit [DecidableEq α] in
theorem After.refl (st : Scc α) : After st st := ⟨Nat.le_refl _, fun _ _ => rfl, fun _ _ => rfl⟩

omit [DecidableEq α] in
theorem After.visited (h : After st st') {v} (hv : st.Visited v) : st'.Visited v := by
  rwa [Visited, h.indices v hv]

omit [DecidableEq α] in
theorem After.index_eq (h : After st st') {v} (hv : st.Visited v) : st'.index v = st.index v := by
  rw [index, index, h.indices v hv]

omit [DecidableEq α] in
theorem After.trans {st₁} (h : After st st₁) (h' : After st₁ st') : After st st' where
  next := h.next.trans h'.next
  indices v hv := (h'.indices v (h.visited hv)).trans (h.indices v hv)
  lowlink v hv := (h'.lowlink v (h.visited hv)).trans (h.lowlink v hv)

omit [DecidableEq α] in
theorem Inv.nodup (h : Inv succ gray st) : st.stack.Nodup := by
  refine h.sorted.imp ?_
  rintro v _ hlt rfl
  exact Nat.lt_irrefl _ hlt

omit [DecidableEq α] in
theorem Inv.done_reaches (h : Inv succ gray st) {v w} (hv : st.Done v) (hvw : Reaches succ v w) : st.Done w := by
  induction hvw with
  | refl => exact hv
  | tail _ hedge ih => exact h.done _ ih _ hedge

omit [DecidableEq α] in
theorem Inv.init : Inv succ [] (Scc.init : Scc α) where
  bound v hv := absurd rfl hv
  stack v hv := nomatch hv
  sorted := .nil
  onStack v := by simp [Scc.init]
  grayStack g hg := nomatch hg
  done v hv := absurd rfl hv.1
  black v hv := absurd rfl hv
  down g hg := nomatch hg
  up v hv := nomatch hv
  flags v := by simp [Scc.init, Done, Visited]

/-! ## Entering a node -/

theorem enter_index_of_ne {v} (hv : v ≠ x) : (st.enter x).index v = st.index v := by
  simp [index, enter, hv]

theorem enter_index_self : (st.enter x).index x = st.nextIndex := by
  simp [index, enter]

theorem enter_visited {v} : (st.enter x).Visited v ↔ v = x ∨ st.Visited v := by
  by_cases hv : v = x
  · subst hv
    simp [Visited, enter]
  · simp [Visited, enter, hv]

theorem enter_after (hx : ¬ st.Visited x) : After st (st.enter x) where
  next := Nat.le_succ _
  indices v hv := update_of_ne (fun heq : v = x => hx (heq ▸ hv)) _ _
  lowlink v hv := update_of_ne (fun heq : v = x => hx (heq ▸ hv)) _ _

theorem enter_done (hx : ¬ st.Visited x) {v} : (st.enter x).Done v ↔ st.Done v := by
  rw [Done, Done, enter_visited]
  constructor
  · rintro ⟨hv, hnot⟩
    obtain ⟨hne, hnot⟩ := not_or.mp (mt mem_cons.mpr hnot)
    exact ⟨hv.resolve_left hne, hnot⟩
  · rintro ⟨hv, hnot⟩
    refine ⟨.inr hv, fun hmem => ?_⟩
    obtain rfl | hmem := mem_cons.mp hmem
    · exact hx hv
    · exact hnot hmem

theorem Inv.enter (h : Inv succ gray st) (hx : ¬ st.Visited x) (hgray : ∀ g ∈ gray, Reaches succ g x) :
    Inv succ (x :: gray) (st.enter x) := by
  have hne : ∀ v, st.Visited v → v ≠ x := fun v hv heq => hx (heq ▸ hv)
  have hindex : ∀ v, st.Visited v → (st.enter x).index v = st.index v := fun v hv => enter_index_of_ne (hne v hv)
  refine ⟨?_, ?_, ?_, ?_, ?_, ?_, ?_, ?_, ?_, ?_⟩
  · intro v hv
    obtain rfl | hv := enter_visited.mp hv
    · rw [enter_index_self]
      exact Nat.lt_succ_self _
    · rw [hindex v hv]
      exact Nat.lt_succ_of_lt (h.bound v hv)
  · intro v hv
    exact enter_visited.mpr ((mem_cons.mp hv).imp_right (h.stack v))
  · refine pairwise_cons.mpr ⟨fun w hw => ?_, h.sorted.imp_of_mem fun {v w} hv hw hlt => ?_⟩
    · rw [enter_index_self, hindex w (h.stack w hw)]
      exact h.bound w (h.stack w hw)
    · rwa [hindex v (h.stack v hv), hindex w (h.stack w hw)]
  · intro v
    by_cases hv : v = x
    · subst hv
      simp [Scc.enter]
    · simp [Scc.enter, hv, h.onStack v]
  · intro g hg
    obtain rfl | hg := mem_cons.mp hg
    · exact mem_cons_self
    · exact mem_cons_of_mem x (h.grayStack g hg)
  · intro v hv w hw
    exact (enter_done hx).mpr (h.done v ((enter_done hx).mp hv) w hw)
  · intro v hv hnot w hw
    obtain ⟨hvx, hvg⟩ := not_or.mp (mt mem_cons.mpr hnot)
    exact enter_visited.mpr (.inr (h.black v ((enter_visited.mp hv).resolve_left hvx) hvg w hw))
  · intro g hg v hv hle
    obtain rfl | hv := mem_cons.mp hv
    · obtain rfl | hg := mem_cons.mp hg
      · exact .refl
      · exact hgray g hg
    · have hvis := h.stack v hv
      obtain rfl | hg := mem_cons.mp hg
      · -- nothing is above the node on top
        rw [enter_index_self, hindex v hvis] at hle
        exact absurd (h.bound v hvis) (Nat.not_lt.mpr hle)
      · rw [hindex v hvis, hindex g (h.stack g (h.grayStack g hg))] at hle
        exact h.down g hg v hv hle
  · intro v hv
    obtain rfl | hv := mem_cons.mp hv
    · exact ⟨v, mem_cons_self, Nat.le_refl _, .refl⟩
    · obtain ⟨g, hg, hle, hreach⟩ := h.up v hv
      refine ⟨g, mem_cons_of_mem x hg, ?_, hreach⟩
      rwa [hindex v (h.stack v hv), hindex g (h.stack g (h.grayStack g hg))]
  · intro v
    rw [enter_done hx]
    exact h.flags v

/-! ## The successors of a node -/

theorem Inv.lower (h : Inv succ gray st) (x : α) (n) : Inv succ gray (st.lower x n) :=
  ⟨h.bound, h.stack, h.sorted, h.onStack, h.grayStack, h.done, h.black, h.down, h.up, h.flags⟩

theorem lower_lowlink (n) : (st.lower x n).lowlink x = min (st.lowlink x) n := update_self _ _ _

theorem After.lower (h : After st st') (hx : ¬ st.Visited x) (n) : After st (st'.lower x n) where
  next := h.next
  indices := h.indices
  lowlink v hv := (update_of_ne (fun heq : v = x => hx (heq ▸ hv)) _ _).trans (h.lowlink v hv)

variable (succ) in
/-- After the visit of `x`: its component is closed, or its low link names a node below. -/
structure Visit (gray : List α) (x : α) (st st' : Scc α) : Prop where
  after : After st st'
  inv : Inv succ gray st'
  visited : st'.Visited x
  low : ∃ new, st'.stack = new ++ st.stack ∧
    (new = [] ∧ st.nextIndex ≤ st'.lowlink x ∨
      ∃ y ∈ st.stack, st.index y = st'.lowlink x ∧ Reaches succ x y) ∧
    ∀ v ∈ new, ∀ w ∈ succ v, w ∈ st.stack → st'.lowlink x ≤ st.index w

variable (succ) in
/-- In the visit of `x` that began with `st`, when some of its successors are seen. -/
structure Scanned (gray : List α) (x : α) (st : Scc α) (seen : List α) (s : Scc α) : Prop where
  after : After st s
  inv : Inv succ (x :: gray) s
  entered : s.indices x = some st.nextIndex
  low_le : s.lowlink x ≤ st.nextIndex
  low : s.lowlink x = st.nextIndex ∨ ∃ y ∈ st.stack, st.index y = s.lowlink x ∧ Reaches succ x y
  new : ∃ new, s.stack = new ++ x :: st.stack ∧ ∀ v ∈ new, ∀ w ∈ succ v, w ∈ st.stack → s.lowlink x ≤ st.index w
  seen : ∀ w ∈ seen, s.Visited w ∧ (w ∈ st.stack → s.lowlink x ≤ st.index w)

namespace Scanned

variable {seen : List α} {s s' : Scc α} {y : α}

omit [DecidableEq α] in
theorem index_self (h : Scanned succ gray x st seen s) : s.index x = st.nextIndex := by
  rw [index, h.entered]
  rfl

omit [DecidableEq α] in
theorem visited_self (h : Scanned succ gray x st seen s) : s.Visited x := by
  rw [Visited, h.entered]
  exact some_ne_none _

omit [DecidableEq α] in
theorem mem_stack_self (h : Scanned succ gray x st seen s) : x ∈ s.stack := h.inv.grayStack x mem_cons_self

omit [DecidableEq α] in
theorem mem_below (h : Scanned succ gray x st seen s) (hy : y ∈ s.stack) (hlt : s.index y < st.nextIndex) :
    y ∈ st.stack := by
  obtain ⟨new, hstack, -⟩ := h.new
  have hsorted := h.inv.sorted
  rw [hstack, pairwise_append] at hsorted
  rw [hstack, mem_append, mem_cons] at hy
  obtain hy | rfl | hy := hy
  · have := hsorted.2.2 y hy x mem_cons_self
    rw [h.index_self] at this
    omega
  · rw [h.index_self] at hlt
    omega
  · exact hy

omit [DecidableEq α] in
theorem low_lower (h : Scanned succ gray x st seen s) (hvis : ∀ v ∈ st.stack, st.Visited v) (hy : y ∈ s.stack)
    (hreach : Reaches succ x y) :
    min (s.lowlink x) (s.index y) = st.nextIndex ∨
      ∃ z ∈ st.stack, st.index z = min (s.lowlink x) (s.index y) ∧ Reaches succ x z := by
  by_cases hle : s.lowlink x ≤ s.index y
  · rw [Nat.min_eq_left hle]
    exact h.low
  · have hlow := h.low_le
    have hmem := h.mem_below hy (by omega)
    refine .inr ⟨y, hmem, ?_, hreach⟩
    rw [Nat.min_eq_right (by omega), h.after.index_eq (hvis y hmem)]

theorem scan_visited (h : Scanned succ gray x st seen s) (hinv : Inv succ gray st) (hx : ¬ st.Visited x)
    (hedge : y ∈ succ x) (hy : s.Visited y) :
    Scanned succ gray x st (y :: seen) (if s.onStack y then s.lower x (s.index y) else s) := by
  obtain ⟨new, hstack, hnew⟩ := h.new
  split
  · next hon =>
    have hmem := (h.inv.onStack y).mp hon
    refine ⟨h.after.lower hx _, h.inv.lower _ _, h.entered, ?_, ?_, ⟨new, hstack, ?_⟩, ?_⟩
    · rw [lower_lowlink]
      exact (Nat.min_le_left _ _).trans h.low_le
    · rw [lower_lowlink]
      exact h.low_lower hinv.stack hmem (.single hedge)
    · intro v hv w hw hws
      rw [lower_lowlink]
      exact (Nat.min_le_left _ _).trans (hnew v hv w hw hws)
    · intro w hw
      rw [lower_lowlink]
      obtain rfl | hw := mem_cons.mp hw
      · refine ⟨hy, fun hws => (Nat.min_le_right _ _).trans (Nat.le_of_eq ?_)⟩
        exact h.after.index_eq (hinv.stack w hws)
      · exact ⟨(h.seen w hw).1, fun hws => (Nat.min_le_left _ _).trans ((h.seen w hw).2 hws)⟩
  · next hon =>
    have hnot : y ∉ s.stack := mt (h.inv.onStack y).mpr hon
    refine ⟨h.after, h.inv, h.entered, h.low_le, h.low, h.new, fun w hw => ?_⟩
    obtain rfl | hw := mem_cons.mp hw
    · refine ⟨hy, fun hws => absurd ?_ hnot⟩
      rw [hstack]
      exact mem_append_right _ (.tail _ hws)
    · exact h.seen w hw

theorem scan_visit (h : Scanned succ gray x st seen s) (hinv : Inv succ gray st) (hx : ¬ st.Visited x)
    (hedge : y ∈ succ x) (hy : ¬ s.Visited y) (hvisit : Visit succ (x :: gray) y s s') :
    Scanned succ gray x st (y :: seen) (s'.lower x (s'.lowlink y)) := by
  obtain ⟨new, hstack, hnew⟩ := h.new
  obtain ⟨new', hstack', hlow, hnew'⟩ := hvisit.low
  have hafter := h.after.trans hvisit.after
  have hkeep : s'.lowlink x = s.lowlink x := hvisit.after.lowlink x h.visited_self
  have hbelow : ∀ w ∈ st.stack, w ∈ s.stack := fun w hw => by
    rw [hstack]
    exact mem_append_right _ (.tail _ hw)
  refine ⟨hafter.lower hx _, hvisit.inv.lower _ _, ?_, ?_, ?_, ⟨new' ++ new, ?_, ?_⟩, ?_⟩
  · exact (hvisit.after.indices x h.visited_self).trans h.entered
  · rw [lower_lowlink, hkeep]
    exact (Nat.min_le_left _ _).trans h.low_le
  · rw [lower_lowlink, hkeep]
    obtain ⟨-, hnext⟩ | ⟨z, hz, hindex, hreach⟩ := hlow
    · -- the component of the successor is closed and its low link is above that of `x`
      have hbound := h.inv.bound x h.visited_self
      have hle := h.low_le
      rw [h.index_self] at hbound
      rw [Nat.min_eq_left (by omega)]
      exact h.low
    · rw [← hindex]
      exact h.low_lower hinv.stack hz (.head hedge hreach)
  · show s'.stack = _
    rw [hstack', hstack, append_assoc]
  · intro v hv w hw hws
    rw [lower_lowlink, hkeep]
    obtain hv | hv := mem_append.mp hv
    · refine (Nat.min_le_right _ _).trans ((hnew' v hv w hw (hbelow w hws)).trans (Nat.le_of_eq ?_))
      exact h.after.index_eq (hinv.stack w hws)
    · exact (Nat.min_le_left _ _).trans (hnew v hv w hw hws)
  · intro w hw
    rw [lower_lowlink, hkeep]
    obtain rfl | hw := mem_cons.mp hw
    · exact ⟨hvisit.visited, fun hws => absurd (h.after.visited (hinv.stack w hws)) hy⟩
    · exact ⟨hvisit.after.visited (h.seen w hw).1, fun hws => (Nat.min_le_left _ _).trans ((h.seen w hw).2 hws)⟩

end Scanned

theorem Scanned.enter (h : Inv succ gray st) (hx : ¬ st.Visited x) (hgray : ∀ g ∈ gray, Reaches succ g x) :
    Scanned succ gray x st [] (st.enter x) := by
  have hlow : (st.enter x).lowlink x = st.nextIndex := update_self _ _ _
  refine ⟨enter_after hx, h.enter hx hgray, update_self _ _ _, Nat.le_of_eq hlow, .inl hlow, ⟨[], rfl, ?_⟩, ?_⟩
  · exact fun v hv => nomatch hv
  · exact fun w hw => nomatch hw

/-! ## The end of a visit -/

theorem popTo_append {new rest} (hx : x ∉ new) : popTo x (new ++ x :: rest) = some (new ++ [x], rest) := by
  induction new with
  | nil => simp [popTo]
  | cons y new ih =>
    obtain ⟨hne, hnot⟩ := not_or.mp (mt mem_cons.mpr hx)
    rw [cons_append, popTo, if_neg (Ne.symm hne), ih hnot]
    rfl

namespace Scanned

variable {s : Scc α}

section

variable (h : Scanned succ gray x st (succ x) s) (hinv : Inv succ gray st) {new : List α}
  (hstack : s.stack = new ++ x :: st.stack)
  (hnew : ∀ v ∈ new, ∀ w ∈ succ v, w ∈ st.stack → s.lowlink x ≤ st.index w) (hlow : s.lowlink x = st.nextIndex)
include h hinv hstack hnew hlow

omit [DecidableEq α] in
theorem component_edge {v w} (hv : v ∈ new ++ [x]) (hw : w ∈ succ v) : w ∈ new ++ [x] ∨ s.Done w := by
  have hnodup := h.inv.nodup
  rw [hstack, nodup_append] at hnodup
  obtain ⟨-, -, hdisj⟩ := hnodup
  have hside : s.Visited w ∧ (w ∈ st.stack → s.lowlink x ≤ st.index w) := by
    obtain hvn | hv := mem_append.mp hv
    · refine ⟨h.inv.black v (h.inv.stack v ?_) ?_ w hw, hnew v hvn w hw⟩
      · rw [hstack]
        exact mem_append_left _ hvn
      · intro hg
        obtain hvx | hg := mem_cons.mp hg
        · exact hdisj v hvn x mem_cons_self hvx
        · exact hdisj v hvn v (.tail _ (hinv.grayStack v hg)) rfl
    · obtain rfl := mem_singleton.mp hv
      exact h.seen w hw
  by_cases hws : w ∈ s.stack
  · rw [hstack, mem_append, mem_cons] at hws
    obtain hws | rfl | hws := hws
    · exact .inl (mem_append_left _ hws)
    · exact .inl (mem_append_right _ (mem_singleton_self _))
    · have hle := hside.2 hws
      have hlt := hinv.bound w (hinv.stack w hws)
      omega
  · exact .inr ⟨hside.1, hws⟩

omit [DecidableEq α] in
theorem component_reaches {v w} (hv : v ∈ new ++ [x]) (hvw : Reaches succ v w) : w ∈ new ++ [x] ∨ s.Done w := by
  induction hvw with
  | refl => exact .inl hv
  | tail _ hedge ih =>
    obtain hin | hdone := ih
    · exact h.component_edge hinv hstack hnew hlow hin hedge
    · exact .inr (h.inv.done _ hdone _ hedge)

omit [DecidableEq α] in
theorem component_connected {v w} (hv : v ∈ new ++ [x]) (hw : w ∈ new ++ [x]) : Reaches succ v w := by
  have hmem : ∀ u ∈ new ++ [x], u ∈ s.stack := fun u hu => by
    rw [hstack, ← singleton_append, ← append_assoc]
    exact mem_append_left _ hu
  have hsorted := h.inv.sorted
  have hnodup := h.inv.nodup
  rw [hstack] at hsorted hnodup
  have hle : s.index x ≤ s.index w := by
    obtain hw | hw := mem_append.mp hw
    · exact Nat.le_of_lt ((pairwise_append.mp hsorted).2.2 w hw x mem_cons_self)
    · rw [mem_singleton.mp hw]
  refine Relation.ReflTransGen.trans (b := x) ?_ (h.inv.down x mem_cons_self w (hmem w hw) hle)
  obtain ⟨g, hg, -, hreach⟩ := h.inv.up v (hmem v hv)
  obtain rfl | hg := mem_cons.mp hg
  · exact hreach
  · -- a gray node below cannot be reached
    have hbelow := hinv.grayStack g hg
    exfalso
    obtain hin | hdone := h.component_reaches hinv hstack hnew hlow hv hreach
    · rw [← singleton_append, ← append_assoc] at hnodup
      exact (nodup_append.mp hnodup).2.2 g hin g hbelow rfl
    · exact hdone.2 (h.inv.grayStack g (mem_cons_of_mem x hg))

theorem isCycle_iff {v} (hv : v ∈ new ++ [x]) :
    isCycle succ (new ++ [x]) = true ↔ Relation.TransGen (fun a b => b ∈ succ a) v v := by
  rw [isCycle, Bool.or_eq_true, decide_eq_true_eq]
  by_cases hlen : 1 < (new ++ [x]).length
  · refine iff_of_true (.inl hlen) ?_
    have hnodup : (new ++ [x]).Nodup := by
      have hnodup := h.inv.nodup
      rw [hstack, ← singleton_append, ← append_assoc] at hnodup
      exact (nodup_append.mp hnodup).1
    obtain ⟨u, hu, hne⟩ : ∃ u ∈ new ++ [x], u ≠ v := by
      by_cases hvx : v = x
      · obtain ⟨y, hy⟩ := exists_mem_of_ne_nil new fun hnil => absurd hlen (by simp [hnil])
        refine ⟨y, mem_append_left _ hy, fun heq => ?_⟩
        exact (nodup_append.mp hnodup).2.2 y hy x (mem_singleton_self x) (heq.trans hvx)
      · exact ⟨x, mem_append_right _ (mem_singleton_self x), Ne.symm hvx⟩
    have hvu := h.component_connected hinv hstack hnew hlow hv hu
    have huv := h.component_connected hinv hstack hnew hlow hu hv
    exact ((Relation.reflTransGen_iff_eq_or_transGen.mp hvu).resolve_left hne).trans_left huv
  · obtain rfl : new = [] := by
      cases new with
      | nil => rfl
      | cons y ys => exact absurd (by simp) hlen
    obtain rfl := mem_singleton.mp hv
    simp only [nil_append, head?_cons, any_some, contains_iff_mem]
    refine ⟨fun hself => .single (hself.resolve_left hlen), fun hcycle => .inr ?_⟩
    obtain ⟨w, hedge, hback⟩ := Relation.TransGen.head'_iff.mp hcycle
    obtain hin | hdone := h.component_edge hinv hstack hnew hlow hv hedge
    · rwa [mem_singleton.mp hin] at hedge
    · exact absurd h.mem_stack_self (h.inv.done_reaches hdone hback).2

theorem close : ∃ s', s.close succ x = some s' ∧ Visit succ gray x st s' := by
  have hnodup : (new ++ [x] ++ st.stack).Nodup := by
    have hnodup := h.inv.nodup
    rwa [hstack, ← singleton_append, ← append_assoc] at hnodup
  obtain ⟨hcomp, hrest, hdisj⟩ := nodup_append.mp hnodup
  have hnot : x ∉ new := fun hx => (nodup_append.mp hcomp).2.2 x hx x (mem_singleton_self x) rfl
  have hmem : ∀ v, v ∈ s.stack ↔ v ∈ new ++ [x] ∨ v ∈ st.stack := fun v => by
    rw [hstack, ← singleton_append, ← append_assoc, mem_append]
  have hbelow : ∀ v ∈ st.stack, s.index v < st.nextIndex := fun v hv => by
    rw [h.after.index_eq (hinv.stack v hv)]
    exact hinv.bound v (hinv.stack v hv)
  refine ⟨_, by rw [Scc.close, hstack, popTo_append hnot]; rfl, ?_⟩
  have hdone : ∀ v, s.Visited v ∧ v ∉ st.stack ↔ s.Done v ∨ v ∈ new ++ [x] := fun v => by
    rw [Done, hmem]
    constructor
    · rintro ⟨hvis, hout⟩
      by_cases hv : v ∈ new ++ [x]
      · exact .inr hv
      · exact .inl ⟨hvis, by tauto⟩
    · rintro (⟨hvis, hout⟩ | hv)
      · exact ⟨hvis, by tauto⟩
      · exact ⟨h.inv.stack v ((hmem v).mpr (.inl hv)), fun hin => hdisj v hv v hin rfl⟩
  refine ⟨h.after.trans ⟨Nat.le_refl _, fun _ _ => rfl, fun _ _ => rfl⟩, ?_, h.visited_self, [], rfl, .inl ⟨rfl, ?_⟩, ?_⟩
  · refine ⟨h.inv.bound, ?_, ?_, ?_, hinv.grayStack, ?_, ?_, ?_, ?_, ?_⟩
    · exact fun v hv => h.inv.stack v ((hmem v).mpr (.inr hv))
    · have hsorted := h.inv.sorted
      rw [hstack] at hsorted
      exact (pairwise_cons.mp (pairwise_append.mp hsorted).2.1).2
    · intro v
      simp only [Bool.and_eq_true, h.inv.onStack v, hmem, Bool.not_eq_true', ← Bool.not_eq_true, contains_iff_mem]
      refine ⟨fun ⟨hin, hout⟩ => hin.resolve_left hout, fun hin => ⟨.inr hin, fun hv => hdisj v hv v hin rfl⟩⟩
    · intro v hv w hw
      refine (hdone w).mpr ?_
      obtain hv | hv := (hdone v).mp hv
      · exact .inl (h.inv.done v hv w hw)
      · exact (h.component_edge hinv hstack hnew hlow hv hw).symm
    · intro v hv hgray w hw
      by_cases hvx : v = x
      · subst hvx
        exact (h.seen w hw).1
      · exact h.inv.black v hv (fun hin => (mem_cons.mp hin).elim hvx hgray) w hw
    · intro g hg v hv hle
      exact h.inv.down g (mem_cons_of_mem x hg) v ((hmem v).mpr (.inr hv)) hle
    · intro v hv
      obtain ⟨g, hg, hle, hreach⟩ := h.inv.up v ((hmem v).mpr (.inr hv))
      obtain rfl | hg := mem_cons.mp hg
      · have hlt := hbelow v hv
        rw [h.index_self] at hle
        omega
      · exact ⟨g, hg, hle, hreach⟩
    · intro v
      show (s.recursive v || (isCycle succ (new ++ [x]) && (new ++ [x]).contains v)) = true ↔ _
      rw [Bool.or_eq_true, Bool.and_eq_true, contains_iff_mem, h.inv.flags v]
      constructor
      · rintro (⟨hv, hcycle⟩ | ⟨hcycle, hv⟩)
        · exact ⟨(hdone v).mpr (.inl hv), hcycle⟩
        · exact ⟨(hdone v).mpr (.inr hv), (h.isCycle_iff hinv hstack hnew hlow hv).mp hcycle⟩
      · rintro ⟨hv, hcycle⟩
        obtain hv | hv := (hdone v).mp hv
        · exact .inl ⟨hv, hcycle⟩
        · exact .inr ⟨(h.isCycle_iff hinv hstack hnew hlow hv).mpr hcycle, hv⟩
  · exact Nat.le_of_eq hlow.symm
  · exact fun v hv => nomatch hv

end

theorem keep (h : Scanned succ gray x st (succ x) s) (hinv : Inv succ gray st) (hlow : s.lowlink x ≠ st.nextIndex) :
    Visit succ gray x st s := by
  obtain ⟨new, hstack, hnew⟩ := h.new
  obtain ⟨y, hy, hindex, hreach⟩ := h.low.resolve_left hlow
  have hystack : y ∈ s.stack := by
    rw [hstack]
    exact mem_append_right _ (.tail _ hy)
  have hylt : s.index y < st.nextIndex := by
    rw [h.after.index_eq (hinv.stack y hy)]
    exact hinv.bound y (hinv.stack y hy)
  refine ⟨h.after, ?_, h.visited_self, new ++ [x], by simp [hstack], .inr ⟨y, hy, hindex, hreach⟩, ?_⟩
  · refine ⟨h.inv.bound, h.inv.stack, h.inv.sorted, h.inv.onStack, ?_, h.inv.done, ?_, ?_, ?_, h.inv.flags⟩
    · exact fun g hg => h.inv.grayStack g (mem_cons_of_mem x hg)
    · intro v hv hgray w hw
      by_cases hvx : v = x
      · subst hvx
        exact (h.seen w hw).1
      · exact h.inv.black v hv (fun hin => (mem_cons.mp hin).elim hvx hgray) w hw
    · exact fun g hg => h.inv.down g (mem_cons_of_mem x hg)
    · intro v hv
      obtain ⟨g, hg, hle, hvg⟩ := h.inv.up v hv
      obtain rfl | hg := mem_cons.mp hg
      · -- from the node further down to a gray one
        obtain ⟨g', hg', hle', hyg⟩ := h.inv.up y hystack
        rw [h.index_self] at hle
        obtain rfl | hg' := mem_cons.mp hg'
        · rw [h.index_self] at hle'
          omega
        · exact ⟨g', hg', by omega, hvg.trans (hreach.trans hyg)⟩
      · exact ⟨g, hg, hle, hvg⟩
  · intro v hv w hw hws
    obtain hv | hv := mem_append.mp hv
    · exact hnew v hv w hw hws
    · obtain rfl := mem_singleton.mp hv
      exact (h.seen w hw).2 hws

end Scanned

/-! ## Visits -/

variable (univ : List α)

def unvisited (st : Scc α) : List α := univ.filter fun v => (st.indices v).isNone

variable {univ}

omit [DecidableEq α] in
theorem mem_unvisited {v} : v ∈ unvisited univ st ↔ v ∈ univ ∧ ¬ st.Visited v := by
  simp [unvisited, Visited]

omit [DecidableEq α] in
theorem After.unvisited_le (h : After st st') : (unvisited univ st').length ≤ (unvisited univ st).length := by
  refine (monotone_filter_right univ fun v hv => ?_).length_le
  by_contra hvis
  exact hvis (by simpa [h.indices v (by simpa [Visited] using hvis)] using hv)

theorem unvisited_enter_lt (hx : x ∈ unvisited univ st) :
    (unvisited univ (st.enter x)).length < (unvisited univ st).length := by
  have hsub : unvisited univ (st.enter x) = (unvisited univ st).filter fun v => v ≠ x := by
    rw [unvisited, unvisited, List.filter_filter]
    refine filter_congr fun v _ => ?_
    by_cases hv : v = x
    · subst hv
      simp [enter]
    · simp [enter, hv]
  rw [hsub]
  exact length_filter_lt_length_iff_exists.mpr ⟨x, hx, by simp⟩

theorem visit_spec (hclosed : ∀ a ∈ univ, ∀ b ∈ succ a, b ∈ univ) (fuel) : ∀ {gray : List α} {x : α} {st : Scc α},
    Inv succ gray st → x ∈ unvisited univ st → (∀ g ∈ gray, Reaches succ g x) → (unvisited univ st).length ≤ fuel →
    ∃ st', visit succ fuel x st = some st' ∧ Visit succ gray x st st' := by
  induction fuel with
  | zero =>
    intro gray x st _ hx _ hfuel
    exact absurd (length_pos_of_mem hx) (by omega)
  | succ fuel ih =>
    intro gray x st hinv hx hgray hfuel
    obtain ⟨hxu, hnew⟩ := mem_unvisited.mp hx
    have hlt := unvisited_enter_lt hx
    -- the successors one after the other
    have hscan : ∀ (ys seen : List α) (s : Scc α), (∀ y ∈ ys, y ∈ succ x) → Scanned succ gray x st seen s →
        (unvisited univ s).length ≤ fuel →
        ∃ s', ys.foldlM (scan (visit succ fuel) x) s = some s' ∧ Scanned succ gray x st (ys.reverse ++ seen) s' := by
      intro ys
      induction ys with
      | nil => exact fun seen s _ h _ => ⟨s, rfl, h⟩
      | cons y ys ihys =>
        intro seen s hys h hfuel
        obtain ⟨hy, hys⟩ := forall_mem_cons.mp hys
        obtain ⟨s₁, hrun, h₁, hle⟩ : ∃ s₁, scan (visit succ fuel) x s y = some s₁ ∧
            Scanned succ gray x st (y :: seen) s₁ ∧ (unvisited univ s₁).length ≤ fuel := by
          by_cases hvis : s.Visited y
          · obtain ⟨i, hi⟩ := ne_none_iff_exists'.mp hvis
            have hindex : s.index y = i := by rw [index, hi]; rfl
            refine ⟨_, by rw [scan, hi], hindex ▸ h.scan_visited hinv hnew hy hvis, ?_⟩
            split <;> exact hfuel
          · have hyu := mem_unvisited.mpr ⟨hclosed x hxu y hy, hvis⟩
            have hreach : ∀ g ∈ x :: gray, Reaches succ g y := fun g hg => by
              obtain rfl | hg := mem_cons.mp hg
              · exact .single hy
              · exact (hgray g hg).tail hy
            obtain ⟨s', hrun, hvisit⟩ := ih h.inv hyu hreach hfuel
            refine ⟨_, by rw [scan, not_not.mp hvis, hrun]; rfl, h.scan_visit hinv hnew hy hvis hvisit, ?_⟩
            exact hvisit.after.unvisited_le.trans hfuel
        obtain ⟨s', hrun', h'⟩ := ihys (y :: seen) s₁ hys h₁ hle
        refine ⟨s', ?_, by simpa using h'⟩
        rw [foldlM_cons, hrun]
        exact hrun'
    obtain ⟨s, hrun, h⟩ := hscan (succ x) [] (st.enter x) (fun _ hy => hy) (.enter hinv hnew hgray) (by omega)
    have hall : Scanned succ gray x st (succ x) s :=
      ⟨h.after, h.inv, h.entered, h.low_le, h.low, h.new, fun w hw => h.seen w (by simpa using hw)⟩
    rw [visit, hrun, bind_some, hall.entered]
    by_cases hlow : s.lowlink x = st.nextIndex
    · obtain ⟨new, hstack, hedges⟩ := hall.new
      rw [if_pos (by rw [hlow])]
      exact hall.close hinv hstack hedges hlow
    · rw [if_neg (by simpa using Ne.symm hlow)]
      exact ⟨s, rfl, hall.keep hinv hlow⟩

theorem visitAll_spec (hclosed : ∀ a ∈ univ, ∀ b ∈ succ a, b ∈ univ) {fuel xs}
    (hxs : ∀ x ∈ xs, x ∈ univ) (hinv : Inv succ [] st) (hfuel : (unvisited univ st).length ≤ fuel) :
    ∃ st', visitAll succ fuel xs st = some st' ∧ After st st' ∧ Inv succ [] st' ∧ ∀ x ∈ xs, st'.Visited x := by
  induction xs generalizing st with
  | nil => exact ⟨st, rfl, .refl st, hinv, fun x hx => nomatch hx⟩
  | cons x xs ih =>
    obtain ⟨hx, hxs⟩ := forall_mem_cons.mp hxs
    obtain ⟨st₁, hrun, hafter, hinv₁, hvis⟩ : ∃ st₁,
        (if (st.indices x).isNone then visit succ fuel x st else some st) = some st₁ ∧ After st st₁ ∧
          Inv succ [] st₁ ∧ st₁.Visited x := by
      by_cases hvis : st.Visited x
      · rw [if_neg (by simpa [Visited] using hvis)]
        exact ⟨st, rfl, .refl st, hinv, hvis⟩
      · rw [if_pos (by simpa [Visited] using hvis)]
        obtain ⟨st₁, hrun, h⟩ := visit_spec hclosed fuel hinv (mem_unvisited.mpr ⟨hx, hvis⟩) (fun g hg => nomatch hg) hfuel
        exact ⟨st₁, hrun, h.after, h.inv, h.visited⟩
    obtain ⟨st', hrun', hafter', hinv', hvis'⟩ := ih hxs hinv₁ (hafter.unvisited_le.trans hfuel)
    refine ⟨st', ?_, hafter.trans hafter', hinv', forall_mem_cons.mpr ⟨hafter'.visited hvis, hvis'⟩⟩
    rw [visitAll, foldlM_cons, hrun]
    exact hrun'

variable (succ univ) in
theorem visitAll_recursive (hclosed : ∀ a ∈ univ, ∀ b ∈ succ a, b ∈ univ) {fuel} (hfuel : univ.length ≤ fuel) :
    ∃ st, visitAll succ fuel univ Scc.init = some st ∧
      ∀ v ∈ univ, st.recursive v = true ↔ Relation.TransGen (fun a b => b ∈ succ a) v v := by
  obtain ⟨st, hrun, -, hinv, hvis⟩ :=
    visitAll_spec hclosed (fun _ hx => hx) Inv.init ((length_filter_le _ _).trans hfuel)
  refine ⟨st, hrun, fun v hv => (hinv.flags v).trans (and_iff_right ⟨hvis v hv, fun hstack => ?_⟩)⟩
  obtain ⟨g, hg, -⟩ := hinv.up v hstack
  cases hg

end Scc

end Armfortas.Lib
