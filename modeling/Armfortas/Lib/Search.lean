import Mathlib.Algebra.Order.Group.Nat
import Mathlib.Data.List.Perm.Basic
import Mathlib.Logic.Relation

/-! A search keeps an agenda of elements to expand and the list of elements seen so far. Expanding an element puts its
unseen successors on the agenda, at whichever end `put` chooses. With one unit of fuel for each element of a universe
the successors never leave, the agenda runs empty and the seen list is closed. -/
namespace Armfortas.Lib
open List

variable {α : Type} [DecidableEq α]

/-- Put the unseen elements of a list on the agenda and mark them as seen. -/
def enqueue (put : List α → α → List α) : List α → List α × List α → List α × List α
  | [], s => s
  | y :: ys, (agenda, seen) =>
      if y ∈ seen then enqueue put ys (agenda, seen) else enqueue put ys (put agenda y, seen ++ [y])

def search (put : List α → α → List α) (succ : α → List α) : Nat → List α × List α → List α
  | 0, (_, seen) => seen
  | _ + 1, ([], seen) => seen
  | fuel + 1, (x :: agenda, seen) => search put succ fuel (enqueue put (succ x) (agenda, seen))

def toBack (agenda : List α) (x : α) : List α := agenda ++ [x]

def toFront (agenda : List α) (x : α) : List α := x :: agenda

omit [DecidableEq α] in
theorem toBack_perm (agenda : List α) (x : α) : (toBack agenda x).Perm (x :: agenda) :=
  perm_append_singleton x agenda

omit [DecidableEq α] in
theorem toFront_perm (agenda : List α) (x : α) : (toFront agenda x).Perm (x :: agenda) :=
  List.Perm.refl _

/-! ## The invariant of the search -/

/-- What holds between two expansions. Elements of `done` were marked as seen without being expanded. -/
structure SearchInv (succ : α → List α) (univ done agenda seen : List α) : Prop where
  nodup : seen.Nodup
  inUniv : ∀ x ∈ seen, x ∈ univ
  agendaNodup : agenda.Nodup
  agendaSeen : ∀ x ∈ agenda, x ∈ seen
  closed : ∀ x ∈ seen, x ∉ agenda → x ∉ done → ∀ y ∈ succ x, y ∈ seen

section

variable {put : List α → α → List α} (hput : ∀ agenda x, (put agenda x).Perm (x :: agenda))
include hput

/-- The unseen elements of the list are added to both lists, each once. -/
theorem enqueue_spec (ys agenda seen : List α) : ∃ new, (enqueue put ys (agenda, seen)).1.Perm (new ++ agenda) ∧
    (enqueue put ys (agenda, seen)).2 = seen ++ new ∧ new.Nodup ∧ ∀ x, x ∈ new ↔ x ∈ ys ∧ x ∉ seen := by
  induction ys generalizing agenda seen with
  | nil => exact ⟨[], .refl _, by simp [enqueue], nodup_nil, by simp⟩
  | cons y ys ih =>
    by_cases hy : y ∈ seen
    · obtain ⟨new, hperm, hseen, hnd, hmem⟩ := ih agenda seen
      refine ⟨new, by simpa [enqueue, hy] using hperm, by simpa [enqueue, hy] using hseen, hnd, fun x => ?_⟩
      rw [hmem, mem_cons]
      exact ⟨fun h => ⟨.inr h.1, h.2⟩, fun h => ⟨h.1.resolve_left fun e => h.2 (e ▸ hy), h.2⟩⟩
    · obtain ⟨new, hperm, hseen, hnd, hmem⟩ := ih (put agenda y) (seen ++ [y])
      refine ⟨y :: new, ?_, ?_, nodup_cons.mpr ⟨fun h => ((hmem y).mp h).2 (by simp), hnd⟩, fun x => ?_⟩
      · simp only [enqueue, hy, if_false]
        exact hperm.trans (((hput agenda y).append_left new).trans perm_middle)
      · simp [enqueue, hy, hseen]
      · by_cases hxy : x = y
        · simp [hxy, hy]
        · simp [hmem, hxy]

theorem enqueue_seen {ys agenda seen : List α} {x} :
    x ∈ (enqueue put ys (agenda, seen)).2 ↔ x ∈ seen ∨ x ∈ ys := by
  obtain ⟨new, -, hseen, -, hmem⟩ := enqueue_spec hput ys agenda seen
  rw [hseen, mem_append, hmem]
  by_cases hx : x ∈ seen <;> simp [hx]

theorem SearchInv.expand {succ : α → List α} {univ done agenda seen x}
    (hU : ∀ a ∈ univ, ∀ y ∈ succ a, y ∈ univ) (h : SearchInv succ univ done (x :: agenda) seen) :
    SearchInv succ univ done (enqueue put (succ x) (agenda, seen)).1 (enqueue put (succ x) (agenda, seen)).2 ∧
      (enqueue put (succ x) (agenda, seen)).1.length + seen.length =
        agenda.length + (enqueue put (succ x) (agenda, seen)).2.length := by
  obtain ⟨new, hperm, hseen, hnew, hmem⟩ := enqueue_spec hput (succ x) agenda seen
  rw [hseen]
  refine ⟨⟨?_, fun y hy => ?_, ?_, fun y hy => ?_, fun z hz hna hd y hy => ?_⟩, ?_⟩
  · exact nodup_append.mpr ⟨h.nodup, hnew, fun a ha b hb e => ((hmem b).mp hb).2 (e ▸ ha)⟩
  · rcases mem_append.mp hy with hy | hy
    · exact h.inUniv y hy
    · exact hU x (h.inUniv x (h.agendaSeen x mem_cons_self)) y ((hmem y).mp hy).1
  · refine hperm.nodup_iff.mpr (nodup_append.mpr ⟨hnew, (nodup_cons.mp h.agendaNodup).2, fun a ha b hb e => ?_⟩)
    exact ((hmem a).mp ha).2 (e ▸ h.agendaSeen b (.tail _ hb))
  · rcases mem_append.mp (hperm.mem_iff.mp hy) with hy | hy
    · exact mem_append_right _ hy
    · exact mem_append_left _ (h.agendaSeen y (.tail _ hy))
  · rw [hperm.mem_iff, mem_append, not_or] at hna
    have hzs := (mem_append.mp hz).resolve_right hna.1
    by_cases hzx : z = x
    · rw [← hseen, enqueue_seen hput]
      exact .inr (hzx ▸ hy)
    · exact mem_append_left _ (h.closed z hzs (by simp [hzx, hna.2]) hd y hy)
  · rw [hperm.length_eq, length_append, length_append]
    omega

/-- The search ends with a closed list: as many rounds as the universe has elements are enough. -/
theorem search_closed {succ : α → List α} {univ done} (hU : ∀ a ∈ univ, ∀ y ∈ succ a, y ∈ univ) (fuel) :
    ∀ agenda seen, SearchInv succ univ done agenda seen → univ.length + agenda.length ≤ fuel + seen.length →
      ∀ x ∈ search put succ fuel (agenda, seen), x ∉ done → ∀ y ∈ succ x, y ∈ search put succ fuel (agenda, seen) := by
  induction fuel with
  | zero =>
    intro agenda seen h hf x hx hd y hy
    -- no fuel is left, so as much was seen as the universe holds and the agenda is empty
    have hle : seen.length ≤ univ.length := (subperm_of_subset h.nodup h.inUniv).length_le
    have hnil : agenda = [] := eq_nil_of_length_eq_zero (by omega)
    subst hnil
    exact h.closed x hx (not_mem_nil) hd y hy
  | succ fuel ih =>
    intro agenda seen h hf
    cases agenda with
    | nil => exact fun x hx hd y hy => h.closed x hx (not_mem_nil) hd y hy
    | cons a agenda =>
      obtain ⟨h', hlen⟩ := h.expand hput hU
      exact ih _ _ h' (by simp only [length_cons] at hf; omega)

theorem search_nodup {succ : α → List α} {univ done} (hU : ∀ a ∈ univ, ∀ y ∈ succ a, y ∈ univ)
    (fuel) : ∀ agenda seen, SearchInv succ univ done agenda seen →
      (search put succ fuel (agenda, seen)).Nodup ∧ ∀ x ∈ search put succ fuel (agenda, seen), x ∈ univ := by
  induction fuel with
  | zero => exact fun agenda seen h => ⟨h.nodup, h.inUniv⟩
  | succ fuel ih =>
    intro agenda seen h
    cases agenda with
    | nil => exact ⟨h.nodup, h.inUniv⟩
    | cons a agenda =>
      exact ih _ _ (h.expand hput hU).1

theorem subset_search {succ : α → List α} (fuel) :
    ∀ agenda seen : List α, ∀ x ∈ seen, x ∈ search put succ fuel (agenda, seen) := by
  induction fuel with
  | zero => exact fun _ _ _ hx => hx
  | succ fuel ih =>
    intro agenda seen x hx
    cases agenda with
    | nil => exact hx
    | cons a agenda => exact ih _ _ x ((enqueue_seen hput).mpr (.inl hx))

/-- Everything found was seen at the start or is reached from the agenda: `P` is kept along successors, and `R`
also holds of what is seen without being expanded. -/
theorem search_sound_of_agenda {succ : α → List α} {P R : α → Prop} (hPR : ∀ x, P x → R x)
    (hsucc : ∀ x, P x → ∀ y ∈ succ x, P y) (fuel) : ∀ agenda seen : List α, (∀ x ∈ agenda, P x) → (∀ x ∈ seen, R x) →
      ∀ x ∈ search put succ fuel (agenda, seen), R x := by
  induction fuel with
  | zero => exact fun _ _ _ hs => hs
  | succ fuel ih =>
    intro agenda seen ha hs
    cases agenda with
    | nil => exact hs
    | cons a agenda =>
      have hP := hsucc a (ha a mem_cons_self)
      obtain ⟨new, hperm, -, -, hmem⟩ := enqueue_spec hput (succ a) agenda seen
      refine ih _ _ (fun x hx => ?_) fun x hx => ?_
      · rcases mem_append.mp (hperm.mem_iff.mp hx) with hx | hx
        · exact hP x ((hmem x).mp hx).1
        · exact ha x (.tail _ hx)
      · rcases (enqueue_seen hput).mp hx with hx | hx
        · exact hs x hx
        · exact hPR x (hP x hx)

theorem search_sound {succ : α → List α} {P : α → Prop} (hsucc : ∀ x, P x → ∀ y ∈ succ x, P y) (fuel) :
    ∀ agenda seen : List α, (∀ x ∈ agenda, P x) → (∀ x ∈ seen, P x) → ∀ x ∈ search put succ fuel (agenda, seen), P x :=
  search_sound_of_agenda hput (fun _ h => h) hsucc fuel

end

/-! ## Searching from one element -/

def bfs (succ : α → List α) (fuel : Nat) (root : α) : List α :=
  search toBack succ fuel ([root], [root])

theorem root_mem_bfs (succ : α → List α) (fuel) (root : α) : root ∈ bfs succ fuel root :=
  subset_search toBack_perm fuel _ _ _ mem_cons_self

theorem bfs_closed {succ : α → List α} {univ : List α} {root} (hroot : root ∈ univ)
    (hU : ∀ a ∈ univ, ∀ y ∈ succ a, y ∈ univ) {fuel} (hf : univ.length ≤ fuel) :
    ∀ x ∈ bfs succ fuel root, ∀ y ∈ succ x, y ∈ bfs succ fuel root := by
  have hinv : SearchInv succ univ [] [root] [root] :=
    ⟨by simp, by simpa using hroot, by simp, by simp, by simp⟩
  intro x hx
  exact search_closed toBack_perm hU fuel _ _ hinv (by simpa using hf) x hx not_mem_nil

theorem bfs_sound {succ : α → List α} {fuel root x} (hx : x ∈ bfs succ fuel root) :
    Relation.ReflTransGen (fun a b => b ∈ succ a) root x :=
  search_sound toBack_perm (P := Relation.ReflTransGen (fun a b => b ∈ succ a) root)
    (fun _ h _ hy => h.tail hy) fuel [root] [root] (by simp [Relation.ReflTransGen.refl])
    (by simp [Relation.ReflTransGen.refl]) x hx

theorem mem_bfs_iff {succ : α → List α} (univ : List α) {root x : α} (hroot : root ∈ univ)
    (hU : ∀ a ∈ univ, ∀ y ∈ succ a, y ∈ univ) {fuel : Nat} (hf : univ.length ≤ fuel) :
    x ∈ bfs succ fuel root ↔ Relation.ReflTransGen (fun a b => b ∈ succ a) root x := by
  refine ⟨bfs_sound, fun h => ?_⟩
  induction h with
  | refl => exact root_mem_bfs _ _ _
  | tail _ hab ih => exact bfs_closed hroot hU hf _ ih _ hab

end Armfortas.Lib
