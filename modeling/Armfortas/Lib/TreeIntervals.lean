import Armfortas.Lib.AssocMap
import Mathlib.Data.List.Perm.Basic
import Mathlib.Logic.Relation

/-! A traversal with a clock that ticks at every entry and exit gives each node the interval between its two ticks.
One node's interval contains another's exactly when the second node is in the subtree of the first. -/
namespace Armfortas.Lib
open List Relation.ReflTransGen AssocMap

variable {α : Type} [DecidableEq α]

/-- The traversal with an explicit stack: `(x, false)` enters `x`, `(x, true)` leaves it. `none` when a node is
left that was never entered, or the fuel does not suffice. -/
def intervalWalk (children : α → List α) :
    Nat → List (α × Bool) → Nat → AssocMap α (Nat × Nat) → Option (AssocMap α (Nat × Nat))
  | _, [], _, ivs => some ivs
  | 0, _ :: _, _, _ => none
  | fuel + 1, (x, true) :: stack, clock, ivs =>
      match ivs.get? x with
      | some (enter, _) => intervalWalk children fuel stack (clock + 1) (ivs.insert x (enter, clock))
      | none => none
  | fuel + 1, (x, false) :: stack, clock, ivs =>
      intervalWalk children fuel ((children x).map (·, false) ++ (x, true) :: stack) (clock + 1)
        (ivs.insert x (clock, clock))

/-- The interval of `y` contains that of `z`; false when one of them has none. -/
def encloses (ivs : AssocMap α (Nat × Nat)) (y z : α) : Bool :=
  match ivs.get? y, ivs.get? z with
  | some (enter, exit), some (enter', exit') => decide (enter ≤ enter') && decide (exit' ≤ exit)
  | _, _ => false

theorem encloses_eq {ivs : AssocMap α (Nat × Nat)} {y z s e s' e'} (hy : ivs.get? y = some (s, e))
    (hz : ivs.get? z = some (s', e')) : encloses ivs y z = true ↔ s ≤ s' ∧ e' ≤ e := by
  simp [encloses, hy, hz]

theorem encloses_congr {ivs ivs' : AssocMap α (Nat × Nat)} {y z} (hy : ivs'.get? y = ivs.get? y)
    (hz : ivs'.get? z = ivs.get? z) : encloses ivs' y z = encloses ivs y z := by
  simp [encloses, hy, hz]

/-! ## Trees -/

structure Ranked (children : α → List α) (rank : α → Nat) (bound : Nat) : Prop where
  nodup : ∀ x, (children x).Nodup
  parent : ∀ x x' y, y ∈ children x → y ∈ children x' → x = x'
  lt : ∀ x y, y ∈ children x → rank x < rank y
  le : ∀ x y, y ∈ children x → rank y ≤ bound

def Below (children : α → List α) (x y : α) : Prop := Relation.ReflTransGen (fun a b => b ∈ children a) x y

namespace Ranked

variable {children : α → List α} {rank : α → Nat} {bound : Nat} (T : Ranked children rank bound)
include T

omit [DecidableEq α] in
theorem rank_le {x y} (h : Below children x y) : rank x ≤ rank y := by
  induction h with
  | refl => exact Nat.le_refl _
  | tail _ hab ih => exact Nat.le_trans ih (Nat.le_of_lt (T.lt _ _ hab))

omit [DecidableEq α] in
theorem not_below_of_mem {x c} (hc : c ∈ children x) : ¬ Below children c x := fun h =>
  absurd (T.rank_le h) (Nat.not_le.mpr (T.lt x c hc))

omit [DecidableEq α] in
theorem total {x x' y} (h : Below children x y) (h' : Below children x' y) :
    Below children x x' ∨ Below children x' x := by
  have hup : ∀ a, Below children a y → Relation.ReflTransGen (fun c p => c ∈ children p) y a := by
    intro a ha
    exact Relation.reflTransGen_swap.mp ha
  rcases total_of_right_unique (fun c p p' hp hp' => T.parent p p' c hp hp') (hup x h)
    (hup x' h') with hc | hc
  · exact .inr (Relation.reflTransGen_swap.mp hc)
  · exact .inl (Relation.reflTransGen_swap.mp hc)

omit [DecidableEq α] in
theorem siblings (x : α) : (children x).Pairwise fun c c' => ¬ Below children c c' ∧ ¬ Below children c' c := by
  have hno : ∀ c ∈ children x, ∀ c' ∈ children x, c ≠ c' → ¬ Below children c c' := by
    intro c hc c' hc' hne h
    rcases cases_tail h with he | ⟨p, hcp, hp⟩
    · exact hne he.symm
    · obtain rfl := T.parent p x c' hp hc'
      exact T.not_below_of_mem hc hcp
  refine (T.nodup x).imp_of_mem fun {c c'} hc hc' hne => ⟨hno c hc c' hc' hne, hno c' hc' c hc hne.symm⟩

end Ranked

/-! ## The walk over a forest -/

/-- What walking over the subtrees of `xs` leaves behind: `sub` are their nodes. -/
structure Walked (children : α → List α) (xs : List α) (clock : Nat) (ivs : AssocMap α (Nat × Nat))
    (sub : List α) (ivs' : AssocMap α (Nat × Nat)) : Prop where
  nodup : sub.Nodup
  mem : ∀ y, y ∈ sub ↔ ∃ x ∈ xs, Below children x y
  other : ∀ y, y ∉ sub → ivs'.get? y = ivs.get? y
  range : ∀ y ∈ sub, ∃ s e, ivs'.get? y = some (s, e) ∧ clock ≤ s ∧ s ≤ e ∧ e < clock + 2 * sub.length
  nested : ∀ y ∈ sub, ∀ z ∈ sub, encloses ivs' y z = true ↔ Below children y z

variable {children : α → List α} {rank : α → Nat} {bound : Nat}

theorem Walked.nil (clock) (ivs : AssocMap α (Nat × Nat)) : Walked children [] clock ivs [] ivs := by
  refine ⟨nodup_nil, by simp, fun _ _ => rfl, by simp, by simp⟩

theorem Walked.append (T : Ranked children rank bound) {xs ys sub sub' clock ivs ivs' ivs''}
    (hapart : ∀ x ∈ xs, ∀ y ∈ ys, ¬ Below children x y ∧ ¬ Below children y x)
    (W : Walked children xs clock ivs sub ivs') (W' : Walked children ys (clock + 2 * sub.length) ivs' sub' ivs'') :
    Walked children (xs ++ ys) clock ivs (sub ++ sub') ivs'' := by
  have hdisj : ∀ a ∈ sub, ∀ b ∈ sub', ¬ Below children a b ∧ ¬ Below children b a := by
    intro a ha b hb
    obtain ⟨x, hx, hxa⟩ := (W.mem a).mp ha
    obtain ⟨y, hy, hyb⟩ := (W'.mem b).mp hb
    obtain ⟨h1, h2⟩ := hapart x hx y hy
    refine ⟨fun h => ?_, fun h => ?_⟩
    · rcases T.total (hxa.trans h) hyb with hc | hc
      · exact h1 hc
      · exact h2 hc
    · rcases T.total hxa (hyb.trans h) with hc | hc
      · exact h1 hc
      · exact h2 hc
  have hne : ∀ a ∈ sub, a ∉ sub' := fun a ha hb => (hdisj a ha a hb).1 .refl
  have hkeep : ∀ a ∈ sub, ivs''.get? a = ivs'.get? a := fun a ha => W'.other a (hne a ha)
  refine ⟨?_, fun y => ?_, fun y hy => ?_, fun y hy => ?_, fun y hy z hz => ?_⟩
  · exact nodup_append.mpr ⟨W.nodup, W'.nodup, fun a ha b hb e => hne a ha (e ▸ hb)⟩
  · rw [mem_append, W.mem, W'.mem]
    constructor
    · rintro (⟨x, hx, h⟩ | ⟨x, hx, h⟩)
      · exact ⟨x, mem_append_left _ hx, h⟩
      · exact ⟨x, mem_append_right _ hx, h⟩
    · rintro ⟨x, hx, h⟩
      exact (mem_append.mp hx).imp (fun hx => ⟨x, hx, h⟩) fun hx => ⟨x, hx, h⟩
  · rw [mem_append, not_or] at hy
    rw [W'.other y hy.2, W.other y hy.1]
  · rw [length_append]
    rcases mem_append.mp hy with hy | hy
    · obtain ⟨s, e, hget, h1, h2, h3⟩ := W.range y hy
      exact ⟨s, e, by rw [hkeep y hy, hget], h1, h2, by omega⟩
    · obtain ⟨s, e, hget, h1, h2, h3⟩ := W'.range y hy
      exact ⟨s, e, hget, by omega, h2, by omega⟩
  · rcases mem_append.mp hy with hy | hy <;> rcases mem_append.mp hz with hz | hz
    · rw [encloses_congr (hkeep y hy) (hkeep z hz)]
      exact W.nested y hy z hz
    · -- the first forest was left before the second was entered
      obtain ⟨s, e, hget, h1, h2, h3⟩ := W.range y hy
      obtain ⟨s', e', hget', h1', h2', h3'⟩ := W'.range z hz
      rw [encloses_eq ((hkeep y hy).trans hget) hget']
      exact ⟨fun h => by omega, fun h => absurd h (hdisj y hy z hz).1⟩
    · obtain ⟨s, e, hget, h1, h2, h3⟩ := W'.range y hy
      obtain ⟨s', e', hget', h1', h2', h3'⟩ := W.range z hz
      rw [encloses_eq hget ((hkeep z hz).trans hget')]
      exact ⟨fun h => by omega, fun h => absurd h (hdisj z hz y hy).2⟩
    · exact W'.nested y hy z hz

theorem Walked.node (T : Ranked children rank bound) {x sub clock} {ivs ivs' : AssocMap α (Nat × Nat)}
    (W : Walked children (children x) (clock + 1) (ivs.insert x (clock, clock)) sub ivs') :
    ivs'.get? x = some (clock, clock) ∧
      Walked children [x] clock ivs (x :: sub) (ivs'.insert x (clock, clock + 1 + 2 * sub.length)) := by
  have hsub : ∀ y ∈ sub, ¬ Below children y x := by
    intro y hy h
    obtain ⟨c, hc, hcy⟩ := (W.mem y).mp hy
    exact T.not_below_of_mem hc (hcy.trans h)
  have hx : x ∉ sub := fun h => hsub x h .refl
  have hne : ∀ y ∈ sub, y ≠ x := fun y hy e => hx (e ▸ hy)
  have hxget := get?_insert_self ivs' x (clock, clock + 1 + 2 * sub.length)
  have hkeep : ∀ y ∈ sub, (ivs'.insert x (clock, clock + 1 + 2 * sub.length)).get? y = ivs'.get? y :=
    fun y hy => get?_insert_ne _ _ (hne y hy)
  refine ⟨by rw [W.other x hx, get?_insert_self], nodup_cons.mpr ⟨hx, W.nodup⟩, fun y => ?_,
    fun y hy => ?_, fun y hy => ?_, fun y hy z hz => ?_⟩
  · rw [mem_cons, W.mem]
    constructor
    · rintro (rfl | ⟨c, hc, h⟩)
      · exact ⟨y, mem_singleton_self y, .refl⟩
      · exact ⟨x, mem_singleton_self x, .head hc h⟩
    · rintro ⟨x', hx', h⟩
      obtain rfl := mem_singleton.mp hx'
      rcases cases_head h with he | ⟨c, hc, hcy⟩
      · exact .inl he.symm
      · exact .inr ⟨c, hc, hcy⟩
  · rw [mem_cons, not_or] at hy
    rw [get?_insert_ne _ _ hy.1, W.other y hy.2, get?_insert_ne _ _ hy.1]
  · rw [length_cons]
    rcases mem_cons.mp hy with rfl | hy
    · exact ⟨_, _, hxget, Nat.le_refl _, by omega, by omega⟩
    · obtain ⟨s, e, hget, h1, h2, h3⟩ := W.range y hy
      exact ⟨s, e, by rw [hkeep y hy, hget], by omega, h2, by omega⟩
  · have hbelow : ∀ z ∈ sub, Below children x z := by
      intro z hz
      obtain ⟨c, hc, hcz⟩ := (W.mem z).mp hz
      exact .head hc hcz
    rcases mem_cons.mp hy with rfl | hys <;> rcases mem_cons.mp hz with rfl | hzs
    · rw [encloses_eq hxget hxget]
      exact ⟨fun _ => .refl, fun _ => ⟨Nat.le_refl _, Nat.le_refl _⟩⟩
    · obtain ⟨s, e, hget, h1, h2, h3⟩ := W.range z hzs
      rw [encloses_eq hxget ((hkeep z hzs).trans hget)]
      exact ⟨fun _ => hbelow z hzs, fun _ => ⟨by omega, by omega⟩⟩
    · obtain ⟨s, e, hget, h1, h2, h3⟩ := W.range y hys
      rw [encloses_eq ((hkeep y hys).trans hget) hxget]
      exact ⟨fun h => by omega, fun h => absurd h (hsub y hys)⟩
    · rw [encloses_congr (hkeep y hys) (hkeep z hzs)]
      exact W.nested y hys z hzs

/-- The traversal walks over the subtrees of `xs`, two ticks a node, before it looks at the rest of the stack. -/
def WalksOver (children : α → List α) (xs : List α) : Prop :=
  ∀ (clock : Nat) (ivs : AssocMap α (Nat × Nat)), ∃ sub ivs', Walked children xs clock ivs sub ivs' ∧
    ∀ fuel stack, intervalWalk children (fuel + 2 * sub.length) (xs.map (·, false) ++ stack) clock ivs =
      intervalWalk children fuel stack (clock + 2 * sub.length) ivs'

theorem WalksOver.node (T : Ranked children rank bound) {x} (h : WalksOver children (children x)) :
    WalksOver children [x] := by
  intro clock ivs
  obtain ⟨sub, ivs', W, hrun⟩ := h (clock + 1) (ivs.insert x (clock, clock))
  obtain ⟨hget, W'⟩ := W.node T
  refine ⟨x :: sub, _, W', fun fuel stack => ?_⟩
  have hfuel : fuel + 2 * (x :: sub).length = (fuel + 1) + 2 * sub.length + 1 := by
    rw [length_cons]
    omega
  have hclock : clock + 2 * (x :: sub).length = clock + 1 + 2 * sub.length + 1 := by
    omega
  rw [hfuel, map_singleton, singleton_append, intervalWalk, hrun, intervalWalk, hget, hclock]

theorem WalksOver.forest (T : Ranked children rank bound) {xs : List α}
    (hapart : xs.Pairwise fun c c' => ¬ Below children c c' ∧ ¬ Below children c' c)
    (h : ∀ x ∈ xs, WalksOver children (children x)) : WalksOver children xs := by
  induction xs with
  | nil => exact fun clock ivs => ⟨[], ivs, Walked.nil clock ivs, fun _ _ => rfl⟩
  | cons x xs ih =>
    rw [pairwise_cons] at hapart
    intro clock ivs
    obtain ⟨sub, ivs', W, hrun⟩ := WalksOver.node T (h x mem_cons_self) clock ivs
    obtain ⟨sub', ivs'', W', hrun'⟩ :=
      ih hapart.2 (fun y hy => h y (.tail _ hy)) (clock + 2 * sub.length) ivs'
    refine ⟨sub ++ sub', ivs'', W.append T (by simpa using hapart.1) W', fun fuel stack => ?_⟩
    have hlen : ∀ n, n + 2 * (sub ++ sub').length = n + 2 * sub'.length + 2 * sub.length := by
      rw [length_append]
      omega
    have hclock : clock + 2 * (sub ++ sub').length = clock + 2 * sub.length + 2 * sub'.length := by
      rw [hlen]
      omega
    rw [hlen, hclock, map_cons, cons_append]
    exact (hrun _ _).trans (hrun' _ _)

/-- The traversal reaches every subtree, by induction on the ranks left above its root. -/
theorem WalksOver.subtree (T : Ranked children rank bound) (k) :
    ∀ x, bound < rank x + k → WalksOver children (children x) := by
  induction k with
  | zero =>
    intro x hx
    have hnil : children x = [] := by
      refine eq_nil_iff_forall_not_mem.mpr fun c hc => ?_
      have h1 := T.lt x c hc
      have h2 := T.le x c hc
      omega
    rw [hnil]
    exact fun clock ivs => ⟨[], ivs, Walked.nil clock ivs, fun _ _ => rfl⟩
  | succ k ih =>
    intro x hx
    refine WalksOver.forest T (T.siblings x) fun c hc => ih c ?_
    have hlt := T.lt x c hc
    omega

/-- The traversal from the root ends, and containment of intervals is the order of the tree. -/
theorem intervalWalk_spec (T : Ranked children rank bound) (root : α) (nodes : List α)
    (hnodes : ∀ y, Below children root y → y ∈ nodes) :
    ∃ ivs, intervalWalk children (2 * nodes.length) [(root, false)] 0 [] = some ivs ∧
      ∀ y z, encloses ivs y z = true ↔ Below children root y ∧ Below children root z ∧ Below children y z := by
  have hover := WalksOver.node T (WalksOver.subtree T (bound + 1) root (by omega))
  obtain ⟨sub, ivs, W, hrun⟩ := hover 0 []
  have hmem : ∀ y, y ∈ sub ↔ Below children root y := by
    intro y
    rw [W.mem]
    simp
  have hlen : sub.length ≤ nodes.length :=
    (subperm_of_subset W.nodup fun y hy => hnodes y ((hmem y).mp hy)).length_le
  have hfuel : 2 * nodes.length = (2 * nodes.length - 2 * sub.length) + 2 * sub.length := by omega
  have hend : ∀ fuel clock, intervalWalk children fuel [] clock ivs = some ivs := by
    intro fuel clock
    cases fuel <;> rfl
  refine ⟨ivs, ?_, fun y z => ?_⟩
  · rw [hfuel]
    exact (hrun _ []).trans (hend _ _)
  · have hout : ∀ a, ¬ Below children root a → ivs.get? a = none := fun a ha =>
      W.other a fun h => ha ((hmem a).mp h)
    by_cases hy : Below children root y
    · by_cases hz : Below children root z
      · rw [W.nested y ((hmem y).mpr hy) z ((hmem z).mpr hz)]
        exact ⟨fun h => ⟨hy, hz, h⟩, fun h => h.2.2⟩
      · have hz' : encloses ivs y z = false := by
          unfold encloses
          split <;> simp_all
        exact ⟨fun h => absurd (hz'.symm.trans h) (by simp), fun h => absurd h.2.1 hz⟩
    · have hy' : encloses ivs y z = false := by
        unfold encloses
        rw [hout y hy]
      exact ⟨fun h => absurd (hy'.symm.trans h) (by simp), fun h => absurd h.1 hy⟩

end Armfortas.Lib
