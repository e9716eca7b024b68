import Armfortas.Lib.Dominance
import Mathlib.Algebra.Group.Action.Defs
import Mathlib.Algebra.Order.Ring.Nat
import Mathlib.Data.List.Nodup

/-! The iterative algorithm keeps for each node a candidate for its immediate dominator. Following candidates from a
node gives its chain, which ends at the root. A pass over the nodes, in an order where every node follows one of its
predecessors, replaces each candidate by the nearest node that the chains of all predecessors share; passes are
repeated until nothing changes. A candidate may be replaced while the chains below it go through it, so the proof
rests on two facts about the order: a candidate reaches its node along edges that go forward in the order, and within
a pass the nodes above a node are brought up to date before it. -/
namespace Armfortas.Lib
open List Option Relation.ReflTransGen AssocMap

variable {α : Type} [DecidableEq α]

section Algorithm

variable (order : List α) (preds : α → List α) (root : α)

/-- The inner loop: follow candidates while the position is above `bound`. -/
def climb (idom : AssocMap α α) (bound : Nat) : Nat → α → Option α
  | 0, _ => none
  | fuel + 1, x =>
      if bound < order.idxOf x then
        match idom.get? x with
        | some y => climb idom bound fuel y
        | none => none
      else some x

def intersectChains (idom : AssocMap α α) : Nat → α → α → Option α
  | 0, _, _ => none
  | fuel + 1, first, second =>
      if first = second then some first
      else
        match climb order idom (order.idxOf second) (order.length + 1) first with
        | none => none
        | some first =>
            match climb order idom (order.idxOf first) (order.length + 1) second with
            | none => none
            | some second => intersectChains idom fuel first second

def meetChains (idom : AssocMap α α) : α → List α → Option α
  | new, [] => some new
  | new, pred :: rest =>
      match intersectChains order idom (2 * order.length + 1) pred new with
      | none => none
      | some new => meetChains idom new rest

def idomUpdate (s : AssocMap α α × Bool) (x : α) : Option (AssocMap α α × Bool) :=
  match (preds x).filter fun p => (s.1.get? p).isSome with
  | [] => some s
  | p :: rest =>
      match meetChains order s.1 p rest with
      | none => none
      | some new => some (if s.1.get? x = some new then s else (s.1.insert x new, true))

def idomUpdates : List α → AssocMap α α × Bool → Option (AssocMap α α × Bool)
  | [], s => some s
  | x :: xs, s =>
      match idomUpdate order preds s x with
      | none => none
      | some s => idomUpdates xs s

/-- Repeat passes while they change something; `none` when a chain breaks off or the fuel does not suffice. -/
def idomSolve : Nat → AssocMap α α → Option (AssocMap α α)
  | 0, _ => none
  | fuel + 1, idom =>
      match idomUpdates order preds order.tail (idom, false) with
      | none => none
      | some (idom, true) => idomSolve fuel idom
      | some (idom, false) => some idom

end Algorithm

/-! ## Chains -/

def Chain (idom : AssocMap α α) (x d : α) : Prop :=
  Relation.ReflTransGen (fun a b => idom.get? a = some b) x d

namespace Chain

variable {idom : AssocMap α α} {x y d d' : α}

theorem refl (idom : AssocMap α α) (x : α) : Chain idom x x := Relation.ReflTransGen.refl

theorem trans (h : Chain idom x y) (h' : Chain idom y d) : Chain idom x d := Relation.ReflTransGen.trans h h'

theorem head (h : idom.get? x = some y) (h' : Chain idom y d) : Chain idom x d := Relation.ReflTransGen.head h h'

theorem iff_head (h : idom.get? x = some y) : Chain idom x d ↔ d = x ∨ Chain idom y d := by
  constructor
  · intro hc
    rcases cases_head hc with he | ⟨z, hz, hzd⟩
    · exact .inl he.symm
    · rw [h] at hz
      obtain rfl := some.inj hz
      exact .inr hzd
  · rintro (rfl | hc)
    · exact .refl _ _
    · exact hc.head h

theorem total (h : Chain idom x d) (h' : Chain idom x d') : Chain idom d d' ∨ Chain idom d' d := by
  refine total_of_right_unique (fun a b c hb hc => ?_) h h'
  exact some.inj (hb.symm.trans hc)

end Chain

/-! ## The graph and the invariant -/

section Solver

variable {E : α → α → Prop} {root : α} {order : List α} {preds : α → List α}

/-- The order lists the reachable nodes, every node but the root after one of its predecessors, and `preds`
gives the predecessors among them. -/
structure IdomGraph (E : α → α → Prop) (root : α) (order : List α) (preds : α → List α) : Prop where
  nodup : order.Nodup
  mem : ∀ x, x ∈ order ↔ Relation.ReflTransGen E root x
  parent : ∀ x ∈ order, x ≠ root → ∃ p, E p x ∧ order.idxOf p < order.idxOf x
  mem_preds : ∀ x ∈ order, ∀ p ∈ order, p ∈ preds x ↔ E p x

def Forward (E : α → α → Prop) (order : List α) (a b : α) : Prop := E a b ∧ order.idxOf a < order.idxOf b

theorem Forward.lt_of_transGen {a b} (h : Relation.TransGen (Forward E order) a b) : order.idxOf a < order.idxOf b := by
  induction h with
  | single h => exact h.2
  | tail _ h ih => exact ih.trans h.2

/-- The candidates form a tree whose branches go forward, and no dominator is missing from a chain. -/
structure IdomInv (E : α → α → Prop) (root : α) (order : List α) (idom : AssocMap α α) : Prop where
  atRoot : idom.get? root = some root
  node : ∀ x y, idom.get? x = some y → x ∈ order
  known : ∀ x y, idom.get? x = some y → ∃ z, idom.get? y = some z
  forward : ∀ x y, idom.get? x = some y → x ≠ root → Relation.TransGen (Forward E order) y x
  complete : ∀ x y, idom.get? x = some y → ∀ d, Dominates E root d x → Chain idom x d

namespace IdomInv

variable {idom : AssocMap α α} (I : IdomInv E root order idom)
include I

theorem lt {x y} (h : idom.get? x = some y) (hx : x ≠ root) : order.idxOf y < order.idxOf x :=
  Forward.lt_of_transGen (I.forward x y h hx)

theorem chain_root {d} (h : Chain idom root d) : d = root := by
  induction h with
  | refl => rfl
  | tail _ hab ih =>
    rw [ih, I.atRoot] at hab
    exact (some.inj hab).symm

theorem chain_known {x d} (hx : (idom.get? x).isSome) (h : Chain idom x d) : (idom.get? d).isSome := by
  induction h with
  | refl => exact hx
  | tail _ hab _ =>
    obtain ⟨z, hz⟩ := I.known _ _ hab
    rw [hz]
    rfl

theorem chain_le {x d} (h : Chain idom x d) : order.idxOf d ≤ order.idxOf x := by
  induction h with
  | refl => exact Nat.le_refl _
  | @tail a b _ hab ih =>
    by_cases ha : a = root
    · subst ha
      rw [I.atRoot] at hab
      exact some.inj hab ▸ ih
    · exact Nat.le_trans (Nat.le_of_lt (I.lt hab ha)) ih

theorem chain_of_le {x d d'} (h : Chain idom x d) (h' : Chain idom x d') (hx : (idom.get? x).isSome)
    (hle : order.idxOf d' ≤ order.idxOf d) : Chain idom d d' := by
  rcases h.total h' with hc | hc
  · exact hc
  · have heq : order.idxOf d = order.idxOf d' := Nat.le_antisymm (I.chain_le hc) hle
    obtain ⟨y, hy⟩ := isSome_iff_exists.mp (I.chain_known hx h)
    have hd : d = d' := idxOf_inj (I.node d y hy) |>.mp heq
    exact hd ▸ .refl _ _

theorem path {x d} (h : Chain idom x d) : Relation.ReflTransGen (Forward E order) d x := by
  induction h with
  | refl => exact .refl
  | @tail a b _ hab ih =>
    by_cases ha : a = root
    · subst ha
      rw [I.atRoot] at hab
      exact some.inj hab ▸ ih
    · exact (I.forward a b hab ha).to_reflTransGen.trans ih

end IdomInv

/-! ## Where chains meet -/

namespace IdomInv

variable {idom : AssocMap α α} (I : IdomInv E root order idom)
include I

theorem climb_spec (hroot : order.idxOf root = 0) (bound : Nat) {fuel x} (hx : (idom.get? x).isSome)
    (hfuel : order.idxOf x < fuel) :
    ∃ y, climb order idom bound fuel x = some y ∧ Chain idom x y ∧ order.idxOf y ≤ bound ∧
      ∀ d, order.idxOf d ≤ bound → Chain idom x d → Chain idom y d := by
  induction fuel generalizing x with
  | zero => exact absurd hfuel (Nat.not_lt_zero _)
  | succ fuel ih =>
    by_cases hb : bound < order.idxOf x
    · obtain ⟨y, hy⟩ := isSome_iff_exists.mp hx
      have hxr : x ≠ root := by
        rintro rfl
        omega
      have hlt := I.lt hy hxr
      obtain ⟨z, hz, hyz, hzb, hkeep⟩ := ih (I.chain_known hx (.head hy (.refl _ _))) (by omega)
      refine ⟨z, by rw [climb, if_pos hb, hy]; exact hz, .head hy hyz, hzb, fun d hd hxd => hkeep d hd ?_⟩
      rcases (Chain.iff_head hy).mp hxd with rfl | hyd
      · omega
      · exact hyd
    · exact ⟨x, by rw [climb, if_neg hb], .refl _ _, Nat.le_of_not_lt hb, fun _ _ h => h⟩

theorem intersectChains_spec (hroot : order.idxOf root = 0) {fuel a b} (ha : (idom.get? a).isSome)
    (hb : (idom.get? b).isSome) (hfuel : order.idxOf a + order.idxOf b < fuel) :
    ∃ n, intersectChains order idom fuel a b = some n ∧ ∀ d, Chain idom n d ↔ Chain idom a d ∧ Chain idom b d := by
  have hpos : ∀ x, (idom.get? x).isSome → order.idxOf x < order.length + 1 := by
    intro x hx
    have := idxOf_le_length (a := x) (l := order)
    omega
  induction fuel generalizing a b with
  | zero => exact absurd hfuel (Nat.not_lt_zero _)
  | succ fuel ih =>
    by_cases hab : a = b
    · subst hab
      exact ⟨a, by rw [intersectChains, if_pos rfl], fun d => ⟨fun h => ⟨h, h⟩, fun h => h.1⟩⟩
    · obtain ⟨a', ha', haa', hle, hkeep⟩ := I.climb_spec hroot (order.idxOf b) ha (hpos a ha)
      obtain ⟨b', hb', hbb', hle', hkeep'⟩ := I.climb_spec hroot (order.idxOf a') hb (hpos b hb)
      have hne : order.idxOf a ≠ order.idxOf b := by
        obtain ⟨y, hy⟩ := isSome_iff_exists.mp ha
        exact fun e => hab ((idxOf_inj (I.node a y hy)).mp e)
      have haa := I.chain_le haa'
      obtain ⟨n, hn, hmeet⟩ := ih (I.chain_known ha haa') (I.chain_known hb hbb') (by omega)
      refine ⟨n, by rw [intersectChains, if_neg hab]; simp only [ha', hb', hn], fun d => ?_⟩
      rw [hmeet]
      constructor
      · exact fun h => ⟨haa'.trans h.1, hbb'.trans h.2⟩
      · rintro ⟨had, hbd⟩
        have had' := hkeep d (I.chain_le hbd) had
        exact ⟨had', hkeep' d (I.chain_le had') hbd⟩

theorem meetChains_spec (hroot : order.idxOf root = 0) (ps : List α) {p} (hp : (idom.get? p).isSome)
    (hps : ∀ q ∈ ps, (idom.get? q).isSome) :
    ∃ n, meetChains order idom p ps = some n ∧ ∀ d, Chain idom n d ↔ ∀ q ∈ p :: ps, Chain idom q d := by
  induction ps generalizing p with
  | nil => exact ⟨p, rfl, by simp⟩
  | cons q ps ih =>
    have hq := hps q mem_cons_self
    have hfuel : order.idxOf q + order.idxOf p < 2 * order.length + 1 := by
      have h1 := idxOf_le_length (a := q) (l := order)
      have h2 := idxOf_le_length (a := p) (l := order)
      omega
    obtain ⟨n, hn, hmeet⟩ := I.intersectChains_spec hroot hq hp hfuel
    have hnp : Chain idom p n := ((hmeet n).mp (.refl _ _)).2
    obtain ⟨m, hm, hmeet'⟩ := ih (I.chain_known hp hnp) fun r hr => hps r (.tail _ hr)
    refine ⟨m, by rw [meetChains, hn]; exact hm, fun d => ?_⟩
    rw [hmeet']
    simp only [forall_mem_cons, hmeet]
    tauto

end IdomInv

/-! ## Replacing a candidate -/

namespace IdomInv

variable {idom : AssocMap α α} (I : IdomInv E root order idom) {b n : α} (hb : b ≠ root)
  (hn : order.idxOf n < order.idxOf b)
include I hb

theorem chain_insert_of_le {x d} (hd : order.idxOf b ≤ order.idxOf d) (h : Chain idom x d) :
    Chain (idom.insert b n) x d := by
  induction h using head_induction_on with
  | refl => exact .refl _ _
  | @head a c hac hcd ih =>
    have hab : a ≠ b := by
      rintro rfl
      have hlt := I.lt hac hb
      have hle := I.chain_le hcd
      omega
    exact .head (by rwa [get?_insert_ne _ _ hab]) ih

include hn

theorem chain_insert_le {x d} (h : Chain (idom.insert b n) x d) : order.idxOf d ≤ order.idxOf x := by
  induction h with
  | refl => exact Nat.le_refl _
  | @tail a c _ hac ih =>
    rw [get?_insert] at hac
    split at hac
    · next hab =>
      obtain rfl := some.inj hac
      subst hab
      omega
    · exact Nat.le_trans (I.chain_le (.head hac (.refl _ _))) ih

theorem chain_of_insert_of_le {x d} (hd : order.idxOf b ≤ order.idxOf d) (h : Chain (idom.insert b n) x d) :
    Chain idom x d := by
  induction h using head_induction_on with
  | refl => exact .refl _ _
  | @head a c hac hcd ih =>
    rw [get?_insert] at hac
    split at hac
    · obtain rfl := some.inj hac
      have hle := I.chain_insert_le hb hn hcd
      omega
    · exact .head hac ih

omit I hb hn in
theorem chain_insert_of_not {x d} (hx : ¬ Chain idom x b) : Chain (idom.insert b n) x d ↔ Chain idom x d := by
  constructor <;> intro h
  · induction h using head_induction_on with
    | refl => exact .refl _ _
    | @head a c hac hcd ih =>
      have hab : a ≠ b := fun e => hx (e ▸ .refl _ _)
      rw [get?_insert_ne _ _ hab] at hac
      exact .head hac (ih fun h => hx (.head hac h))
  · induction h using head_induction_on with
    | refl => exact .refl _ _
    | @head a c hac hcd ih =>
      have hab : a ≠ b := fun e => hx (e ▸ .refl _ _)
      exact .head (by rwa [get?_insert_ne _ _ hab]) (ih fun h => hx (.head hac h))

omit hb hn in
theorem chain_insert_of_lt {x d} (hx : order.idxOf x < order.idxOf b) : Chain (idom.insert b n) x d ↔ Chain idom x d :=
  chain_insert_of_not fun h => absurd (I.chain_le h) (Nat.not_le.mpr hx)

theorem chain_insert_through {x d} (hx : Chain idom x b) (hd : order.idxOf d < order.idxOf b) :
    Chain (idom.insert b n) x d ↔ Chain idom n d := by
  have hxb : Chain (idom.insert b n) x b := I.chain_insert_of_le hb (Nat.le_refl _) hx
  have hbn : (idom.insert b n).get? b = some n := get?_insert_self _ _ _
  rw [← I.chain_insert_of_lt (n := n) (d := d) hn]
  constructor
  · intro h
    rcases hxb.total h with hc | hc
    · rcases (Chain.iff_head hbn).mp hc with rfl | hnd
      · exact absurd hd (Nat.lt_irrefl _)
      · exact hnd
    · exact absurd (I.chain_insert_le hb hn hc) (Nat.not_le.mpr hd)
  · exact fun h => hxb.trans (.head hbn h)

end IdomInv

/-- A candidate for `b` with everything the pass knows about it: the chain of `n` is what the chains of the
predecessors share, and one of them comes before `b`. -/
structure Candidate (E : α → α → Prop) (root : α) (order : List α) (idom : AssocMap α α) (b n : α) : Prop where
  node : b ∈ order
  ne_root : b ≠ root
  meet : ∀ d, Chain idom n d ↔ ∀ p, (idom.get? p).isSome → E p b → Chain idom p d
  pred : ∃ q, (idom.get? q).isSome ∧ Forward E order q b

namespace Candidate

variable {idom : AssocMap α α} {b n : α} (C : Candidate E root order idom b n)
include C

theorem chain_pred {p} (hp : (idom.get? p).isSome) (h : E p b) : Chain idom p n :=
  (C.meet n).mp (.refl _ _) p hp h

variable (I : IdomInv E root order idom)
include I

theorem known : (idom.get? n).isSome := by
  obtain ⟨q, hq, hE, -⟩ := C.pred
  exact I.chain_known hq (C.chain_pred hq hE)

theorem forward : Relation.TransGen (Forward E order) n b := by
  obtain ⟨q, hq, hqb⟩ := C.pred
  exact Relation.TransGen.tail' (I.path (C.chain_pred hq hqb.1)) hqb

theorem lt : order.idxOf n < order.idxOf b := Forward.lt_of_transGen (C.forward I)

theorem chain_of_dominates {d} (hd : Dominates E root d b) (hne : d ≠ b) : Chain idom n d := by
  refine (C.meet d).mpr fun p hp hpb => ?_
  obtain ⟨y, hy⟩ := isSome_iff_exists.mp hp
  exact I.complete p y hy d (hd.pred hne.symm hpb)

end Candidate

theorem Forward.avoids {a b d} (hp : Relation.ReflTransGen (Forward E order) a b)
    (hd : order.idxOf d < order.idxOf a) (h : Avoids E root d a) : Avoids E root d b := by
  have hkey : Avoids E root d b ∧ order.idxOf a ≤ order.idxOf b := by
    induction hp with
    | refl => exact ⟨h, Nat.le_refl _⟩
    | tail _ hab ih =>
      have hlt := hab.2
      refine ⟨.step ih.1 hab.1 ?_, by omega⟩
      rintro rfl
      omega
  exact hkey.1

/-- Replacing a candidate keeps the invariant. The dominators of a node below `b` that lie above `b` dominate
`b` as well, since `b` reaches that node along a forward path. -/
theorem IdomInv.insert {idom b n} (I : IdomInv E root order idom)
    (C : Candidate E root order idom b n) : IdomInv E root order (idom.insert b n) := by
  have hb := C.ne_root
  have hn := C.lt I
  have hknown : ∀ x, (idom.get? x).isSome → ∃ z, (idom.insert b n).get? x = some z := by
    intro x hx
    rw [get?_insert]
    split
    · exact ⟨n, rfl⟩
    · exact isSome_iff_exists.mp hx
  refine ⟨?_, fun x y hxy => ?_, fun x y hxy => ?_, fun x y hxy hx => ?_, fun x y hxy d hd => ?_⟩
  · rw [get?_insert_ne _ _ hb.symm, I.atRoot]
  · rw [get?_insert] at hxy
    split at hxy
    · next hxb => exact hxb ▸ C.node
    · exact I.node x y hxy
  · rw [get?_insert] at hxy
    split at hxy
    · exact hknown y (some.inj hxy ▸ C.known I)
    · exact hknown y (isSome_iff_exists.mpr (I.known x y hxy))
  · rw [get?_insert] at hxy
    split at hxy
    · next hxb =>
      obtain rfl := some.inj hxy
      exact hxb ▸ C.forward I
    · exact I.forward x y hxy hx
  · have hself : ∀ e, Dominates E root e b → Chain (idom.insert b n) b e := by
      intro e he
      by_cases heb : e = b
      · exact heb ▸ .refl _ _
      · refine .head (get?_insert_self _ _ _) ?_
        exact (I.chain_insert_of_lt hn).mpr (C.chain_of_dominates I he heb)
    by_cases hxb : x = b
    · subst hxb
      exact hself d hd
    · rw [get?_insert_ne _ _ hxb] at hxy
      have hxd := I.complete x y hxy d hd
      by_cases hdb : order.idxOf b ≤ order.idxOf d
      · exact I.chain_insert_of_le hb hdb hxd
      · by_cases hthru : Chain idom x b
        · have hdom : Dominates E root d b := fun ha =>
            hd (Forward.avoids (I.path hthru) (Nat.lt_of_not_le hdb) ha)
          exact (I.chain_insert_of_le hb (Nat.le_refl _) hthru).trans (hself d hdom)
        · exact (chain_insert_of_not hthru).mpr hxd

/-! ## What a pass has done so far -/

/-- What is known of the candidate `i` of `b` when the pass has updated the nodes before position `c`. -/
structure Entry (E : α → α → Prop) (order : List α) (idom : AssocMap α α) (c : Nat) (b i : α) : Prop where
  /-- what the predecessors' chains share lies at or above the candidate -/
  bound : ∀ m, (∀ p, (idom.get? p).isSome → E p b → Chain idom p m) → order.idxOf m ≤ order.idxOf i
  /-- above the candidate, its chain contains the chain of a predecessor; the two agree from position `c` on, and
  the candidate itself is on it when `b` was updated in this pass -/
  pred : ∃ q, (idom.get? q).isSome ∧ Forward E order q b ∧
    (∀ m, Chain idom q m → order.idxOf m ≤ order.idxOf i → Chain idom i m) ∧
    (∀ y, Chain idom i y → c ≤ order.idxOf y → Chain idom q y) ∧ (order.idxOf b < c → Chain idom q i)

structure Passed (E : α → α → Prop) (root : α) (order : List α) (c : Nat) (idom : AssocMap α α) : Prop where
  inv : IdomInv E root order idom
  known : ∀ x ∈ order, order.idxOf x < c → (idom.get? x).isSome
  entry : ∀ b i, idom.get? b = some i → b ≠ root → Entry E order idom c b i

theorem Candidate.entry {idom b n} (C : Candidate E root order idom b n)
    (I : IdomInv E root order idom) (c : Nat) : Entry E order idom c b n := by
  obtain ⟨q, hq, hqb⟩ := C.pred
  have hqn := C.chain_pred hq hqb.1
  refine ⟨fun m hm => I.chain_le ((C.meet m).mpr hm), q, hq, hqb, fun m hqm hle => ?_, fun y hny _ => ?_,
    fun _ => hqn⟩
  · exact I.chain_of_le hqn hqm hq hle
  · exact hqn.trans hny

theorem Passed.keep {idom c b n} (P : Passed E root order c idom)
    (C : Candidate E root order idom b n) (hbn : idom.get? b = some n) (hc : order.idxOf b = c) :
    Passed E root order (c + 1) idom := by
  refine ⟨P.inv, fun x hx hlt => ?_, fun x i hxi hxr => ?_⟩
  · by_cases hxb : x = b
    · rw [hxb, hbn]
      rfl
    · have hne : order.idxOf x ≠ order.idxOf b := fun e => hxb ((idxOf_inj hx).mp e)
      exact P.known x hx (by omega)
  · by_cases hxb : x = b
    · subst hxb
      rw [hbn] at hxi
      exact some.inj hxi ▸ C.entry P.inv (c + 1)
    · obtain ⟨hbound, q, hq, hqx, hin, hagree, hfresh⟩ := P.entry x i hxi hxr
      have hne : order.idxOf x ≠ order.idxOf b := fun e => hxb ((idxOf_inj (P.inv.node x i hxi)).mp e)
      exact ⟨hbound, q, hq, hqx, hin, fun y hy hle => hagree y hy (by omega), fun hlt => hfresh (by omega)⟩

theorem Passed.chain_old {idom c b n i} (P : Passed E root order c idom)
    (C : Candidate E root order idom b n) (hbi : idom.get? b = some i) : Chain idom i n := by
  obtain ⟨hbound, q, hq, hqb, hin, -, -⟩ := P.entry b i hbi C.ne_root
  exact hin n (C.chain_pred hq hqb.1) (hbound n fun p hp hpb => C.chain_pred hp hpb)

theorem Passed.chain_shrinks {idom c b n} (P : Passed E root order c idom)
    (C : Candidate E root order idom b n) {x d} (hx : (idom.get? x).isSome)
    (h : Chain (idom.insert b n) x d) : Chain idom x d := by
  have I := P.inv
  have hn := C.lt I
  by_cases hthru : Chain idom x b
  · by_cases hd : order.idxOf b ≤ order.idxOf d
    · exact I.chain_of_insert_of_le C.ne_root hn hd h
    · obtain ⟨i, hbi⟩ := isSome_iff_exists.mp (I.chain_known hx hthru)
      have hnd := (I.chain_insert_through C.ne_root hn hthru (Nat.lt_of_not_le hd)).mp h
      exact hthru.trans (.head hbi ((P.chain_old C hbi).trans hnd))
  · exact (IdomInv.chain_insert_of_not hthru).mp h

theorem Passed.replace {idom c b n} (P : Passed E root order c idom)
    (C : Candidate E root order idom b n) (hc : order.idxOf b = c) : Passed E root order (c + 1) (idom.insert b n) := by
  have I := P.inv
  have hb := C.ne_root
  have hn := C.lt I
  have I' := I.insert C
  have hknown : ∀ x, (idom.get? x).isSome → ((idom.insert b n).get? x).isSome := by
    intro x hx
    rw [get?_insert]
    split
    · rfl
    · exact hx
  refine ⟨I', fun x hx hlt => ?_, fun x i hxi hxr => ?_⟩
  · by_cases hxb : x = b
    · rw [hxb, get?_insert_self]
      rfl
    · have hne : order.idxOf x ≠ order.idxOf b := fun e => hxb ((idxOf_inj hx).mp e)
      exact hknown x (P.known x hx (by omega))
  · by_cases hxb : x = b
    · subst hxb
      rw [get?_insert_self] at hxi
      obtain rfl := some.inj hxi
      obtain ⟨q, hq, hqb⟩ := C.pred
      have hqn : Chain (idom.insert x n) q n := (I.chain_insert_of_lt hqb.2).mpr (C.chain_pred hq hqb.1)
      refine ⟨fun m hm => ?_, q, hknown q hq, hqb, fun m hqm hle => ?_, fun y hny _ => hqn.trans hny, fun _ => hqn⟩
      · refine I.chain_le ((C.meet m).mpr fun p hp hpx => ?_)
        exact P.chain_shrinks C hp (hm p (hknown p hp) hpx)
      · exact I'.chain_of_le hqn hqm (hknown q hq) hle
    · rw [get?_insert_ne _ _ hxb] at hxi
      obtain ⟨hbound, q, hq, hqx, hin, hagree, hfresh⟩ := P.entry x i hxi hxr
      have hne : order.idxOf x ≠ order.idxOf b := fun e => hxb ((idxOf_inj (I.node x i hxi)).mp e)
      refine ⟨fun m hm => hbound m fun p hp hpx => P.chain_shrinks C hp (hm p (hknown p hp) hpx),
        q, hknown q hq, hqx, fun m hqm hle => ?_, fun y hiy hle => ?_, fun hlt => ?_⟩
      · have him := hin m (P.chain_shrinks C hq hqm) hle
        by_cases hbm : order.idxOf b ≤ order.idxOf m
        · exact I.chain_insert_of_le hb hbm him
        · by_cases hthru : Chain idom i b
          · -- the two chains agree from `b` on, so both go through it
            have hqb := hagree b hthru (Nat.le_of_eq hc.symm)
            have hnm := (I.chain_insert_through hb hn hqb (Nat.lt_of_not_le hbm)).mp hqm
            exact (I.chain_insert_through hb hn hthru (Nat.lt_of_not_le hbm)).mpr hnm
          · exact (IdomInv.chain_insert_of_not hthru).mpr him
      · have hby : order.idxOf b ≤ order.idxOf y := by omega
        have hiy' := I.chain_of_insert_of_le hb hn hby hiy
        exact I.chain_insert_of_le hb hby (hagree y hiy' (by omega))
      · have hxc : order.idxOf x < c := by omega
        have hqb : order.idxOf q < order.idxOf b := by
          have := hqx.2
          omega
        exact (I.chain_insert_of_lt hqb).mpr (hfresh hxc)

/-! ## Passes come to an end -/

/-- The position of a node's candidate; a node without one weighs more than any. -/
def idomWeight (order : List α) (idom : AssocMap α α) (x : α) : Nat :=
  match idom.get? x with
  | some y => order.idxOf y
  | none => order.length + 1

def idomSize (order : List α) (idom : AssocMap α α) : Nat := (order.map (idomWeight order idom)).sum

theorem idomWeight_insert (idom : AssocMap α α) (b n x : α) :
    idomWeight order (idom.insert b n) x = if x = b then order.idxOf n else idomWeight order idom x := by
  by_cases hxb : x = b
  · simp [idomWeight, hxb]
  · simp [idomWeight, hxb]

theorem Passed.size_lt {idom c b n} (P : Passed E root order c idom)
    (C : Candidate E root order idom b n) (hbn : idom.get? b ≠ some n) :
    idomSize order (idom.insert b n) < idomSize order idom := by
  have hlt : order.idxOf n < idomWeight order idom b := by
    unfold idomWeight
    split
    · next i hbi =>
      have hle := P.inv.chain_le (P.chain_old C hbi)
      obtain ⟨y, hy⟩ := isSome_iff_exists.mp (C.known P.inv)
      have hne : order.idxOf n ≠ order.idxOf i := fun e =>
        hbn (by rw [hbi, (idxOf_inj (P.inv.node n y hy)).mp e])
      omega
    · have := idxOf_le_length (a := n) (l := order)
      omega
  refine sum_lt_sum _ _ (fun x _ => ?_) ⟨b, C.node, ?_⟩
  · rw [idomWeight_insert]
    split
    · next hxb => exact hxb ▸ Nat.le_of_lt hlt
    · exact Nat.le_refl _
  · rw [idomWeight_insert, if_pos rfl]
    exact hlt

variable (G : IdomGraph E root order preds)
include G

theorem IdomGraph.root_mem : root ∈ order := (G.mem root).mpr .refl

theorem IdomGraph.idxOf_root : order.idxOf root = 0 := by
  have hne : order ≠ [] := ne_nil_of_mem G.root_mem
  obtain ⟨x, rest, hx⟩ := exists_cons_of_ne_nil hne
  by_cases hxr : x = root
  · rw [hx, hxr, idxOf_cons_self]
  · obtain ⟨p, -, hlt⟩ := G.parent x (hx ▸ mem_cons_self) hxr
    rw [hx, idxOf_cons_self] at hlt
    exact absurd hlt (Nat.not_lt_zero _)

theorem idomUpdate_spec (ch : Bool) {idom c b} (P : Passed E root order c idom)
    (hb : b ∈ order) (hbr : b ≠ root) (hc : order.idxOf b = c) :
    ∃ n, Candidate E root order idom b n ∧ idomUpdate order preds (idom, ch) b =
      some (if idom.get? b = some n then (idom, ch) else (idom.insert b n, true)) := by
  have hmem : ∀ p, p ∈ (preds b).filter (fun p => (idom.get? p).isSome) ↔ (idom.get? p).isSome ∧ E p b := by
    intro p
    rw [mem_filter]
    constructor
    · rintro ⟨hp, hk⟩
      obtain ⟨y, hy⟩ := isSome_iff_exists.mp hk
      exact ⟨hk, (G.mem_preds b hb p (P.inv.node p y hy)).mp hp⟩
    · rintro ⟨hk, hE⟩
      obtain ⟨y, hy⟩ := isSome_iff_exists.mp hk
      exact ⟨(G.mem_preds b hb p (P.inv.node p y hy)).mpr hE, hk⟩
  -- the predecessor that comes before `b` was updated before it
  obtain ⟨q, hqb, hlt⟩ := G.parent b hb hbr
  have hq : (idom.get? q).isSome := by
    refine P.known q (idxOf_lt_length_iff.mp ?_) (by omega)
    exact Nat.lt_of_lt_of_le hlt idxOf_le_length
  unfold idomUpdate
  have hqmem := (hmem q).mpr ⟨hq, hqb⟩
  split
  · next hnil => simp [hnil] at hqmem
  · next p rest hcons =>
    rw [hcons] at hmem
    obtain ⟨n, hn, hmeet⟩ := P.inv.meetChains_spec G.idxOf_root rest ((hmem p).mp mem_cons_self).1
      fun r hr => ((hmem r).mp (.tail _ hr)).1
    refine ⟨n, ⟨hb, hbr, fun d => ?_, q, hq, hqb, hlt⟩, by simp only [hn]⟩
    rw [hmeet]
    exact ⟨fun h p hk hE => h p ((hmem p).mpr ⟨hk, hE⟩), fun h p hp => h p ((hmem p).mp hp).1 ((hmem p).mp hp).2⟩

/-- The rest of a pass: it brings every remaining node up to date, and either the candidates moved up or
nothing changed. -/
theorem idomUpdates_spec (rest done : List α) (ch : Bool) {idom} (hdone : done ≠ [])
    (horder : order = done ++ rest) (P : Passed E root order done.length idom) :
    ∃ idom' ch', idomUpdates order preds rest (idom, ch) = some (idom', ch') ∧
      Passed E root order order.length idom' ∧ idomSize order idom' ≤ idomSize order idom ∧
      (ch' = true → ch = true ∨ idomSize order idom' < idomSize order idom) ∧ (ch' = false → ch = false ∧ idom' = idom ∧
        ∀ b ∈ rest, ∃ n, idom.get? b = some n ∧ Candidate E root order idom b n) := by
  induction rest generalizing done idom ch with
  | nil =>
    have hlen : order.length = done.length := by rw [horder, append_nil]
    exact ⟨idom, ch, rfl, hlen ▸ P, Nat.le_refl _, .inl, fun h => ⟨h, rfl, by simp⟩⟩
  | cons b rest ih =>
    have hb : b ∈ order := horder ▸ by simp
    have hnd := horder ▸ G.nodup
    have hbd : b ∉ done := fun h => (disjoint_of_nodup_append hnd) h mem_cons_self
    have hc : order.idxOf b = done.length := by
      rw [horder, idxOf_append_of_notMem hbd, idxOf_cons_self, Nat.add_zero]
    have hbr : b ≠ root := by
      rintro rfl
      rw [G.idxOf_root] at hc
      exact hdone (length_eq_zero_iff.mp hc.symm)
    obtain ⟨n, C, hupd⟩ := idomUpdate_spec G ch P hb hbr hc
    have horder' : order = (done ++ [b]) ++ rest := by rw [horder, append_assoc]; rfl
    have hlen : (done ++ [b]).length = done.length + 1 := length_append
    by_cases hbn : idom.get? b = some n
    · rw [if_pos hbn] at hupd
      obtain ⟨idom', ch', hrun, hP, hle, hup, hsame⟩ :=
        ih _ ch (by simp) horder' (hlen ▸ P.keep C hbn hc)
      refine ⟨idom', ch', by rw [idomUpdates, hupd]; exact hrun, hP, hle, hup, fun h => ?_⟩
      obtain ⟨hch, he, hall⟩ := hsame h
      exact ⟨hch, he, forall_mem_cons.mpr ⟨⟨n, hbn, C⟩, hall⟩⟩
    · rw [if_neg hbn] at hupd
      obtain ⟨idom', ch', hrun, hP, hle, hup, hsame⟩ :=
        ih _ true (by simp) horder' (hlen ▸ P.replace C hc)
      have hlt := P.size_lt C hbn
      refine ⟨idom', ch', by rw [idomUpdates, hupd]; exact hrun, hP, by omega, fun _ => .inr (by omega), fun h => ?_⟩
      exact absurd (hsame h).1 (by simp)

omit G in
theorem Passed.restart {idom} (P : Passed E root order order.length idom) (c : Nat)
    (hc : c ≤ order.length) : Passed E root order c idom := by
  refine ⟨P.inv, fun x hx hlt => P.known x hx (by omega), fun b i hbi hbr => ?_⟩
  obtain ⟨hbound, q, hq, hqb, hin, -, hfresh⟩ := P.entry b i hbi hbr
  have hqi := hfresh (idxOf_lt_length_iff.mpr (P.inv.node b i hbi))
  exact ⟨hbound, q, hq, hqb, hin, fun y hy _ => hqi.trans hy, fun _ => hqi⟩

/-- The root is its own candidate, so that every chain ends; the other nodes have none yet. -/
def idomInit (root : α) : AssocMap α α := [(root, root)]

theorem Passed.init : Passed E root order 1 (idomInit root) := by
  have hget : ∀ x y, (idomInit root).get? x = some y → x = root ∧ y = root := by
    intro x y h
    obtain ⟨rfl, rfl⟩ := Prod.mk.inj (mem_singleton.mp (mem_of_get? h))
    exact ⟨rfl, rfl⟩
  have hroot : (idomInit root).get? root = some root := by simp [idomInit, get?]
  refine ⟨⟨hroot, fun x y h => ?_, fun x y h => ?_, fun x y h hx => ?_, fun x y h d hd => ?_⟩,
    fun x hx hlt => ?_, fun b i h hb => ?_⟩
  · exact (hget x y h).1 ▸ G.root_mem
  · exact ⟨root, (hget x y h).2 ▸ hroot⟩
  · exact absurd (hget x y h).1 hx
  · obtain ⟨rfl, -⟩ := hget x y h
    by_cases hdx : d = x
    · exact hdx ▸ .refl _ _
    · exact absurd (.root (Ne.symm hdx)) hd
  · have hxr : x = root := (idxOf_inj hx).mp (by rw [G.idxOf_root]; omega)
    rw [hxr, hroot]
    rfl
  · exact absurd (hget b i h).1 hb

/-- Enough passes: every one but the last moves a candidate. -/
def idomFuel (order : List α) : Nat := order.length * (order.length + 1) + 1

omit G in
theorem idomSize_lt_fuel (idom : AssocMap α α) : idomSize order idom < idomFuel order := by
  have hle : ∀ n ∈ order.map (idomWeight order idom), n ≤ order.length + 1 := by
    intro n hn
    obtain ⟨x, -, rfl⟩ := List.mem_map.mp hn
    unfold idomWeight
    split
    · exact Nat.le_succ_of_le idxOf_le_length
    · exact Nat.le_refl _
  have hsum := sum_le_card_nsmul _ _ hle
  simp only [length_map, smul_eq_mul] at hsum
  exact Nat.lt_succ_of_le hsum

theorem idomSolve_fixed (fuel : Nat) {idom} (P : Passed E root order 1 idom) (hfuel : idomSize order idom < fuel) :
    ∃ idom', idomSolve order preds fuel idom = some idom' ∧ Passed E root order order.length idom' ∧
      ∀ b ∈ order, b ≠ root → ∃ n, idom'.get? b = some n ∧ Candidate E root order idom' b n := by
  obtain ⟨x, rest, hx⟩ := exists_cons_of_ne_nil (ne_nil_of_mem G.root_mem)
  have hxr : x = root := by
    refine (idxOf_inj (hx ▸ mem_cons_self : x ∈ order)).mp ?_
    rw [G.idxOf_root, hx, idxOf_cons_self]
  induction fuel generalizing idom with
  | zero => exact absurd hfuel (Nat.not_lt_zero _)
  | succ fuel ih =>
    obtain ⟨idom', ch, hrun, hP, -, hup, hsame⟩ :=
      idomUpdates_spec G rest [x] false (by simp) hx P
    have htail : order.tail = rest := by rw [hx, tail_cons]
    cases ch with
    | true =>
      have hlt := (hup rfl).resolve_left (by simp)
      have hone : 1 ≤ order.length := by simp [hx]
      obtain ⟨idom'', hsolve, hfix⟩ := ih (hP.restart 1 hone) (by omega)
      exact ⟨idom'', by simp only [idomSolve, htail, hrun, hsolve], hfix⟩
    | false =>
      obtain ⟨-, rfl, hall⟩ := hsame rfl
      refine ⟨idom', by simp only [idomSolve, htail, hrun], hP, fun b hb hbr => hall b ?_⟩
      rw [hx, hxr, mem_cons] at hb
      exact hb.resolve_left hbr

theorem idomSolve_spec : ∃ idom, idomSolve order preds (idomFuel order) (idomInit root) = some idom ∧
      IdomInv E root order idom ∧ (∀ x ∈ order, (idom.get? x).isSome) ∧
      ∀ x ∈ order, ∀ d, Chain idom x d ↔ Dominates E root d x := by
  obtain ⟨idom, hsolve, P, hfix⟩ := idomSolve_fixed G (idomFuel order) (Passed.init G) (idomSize_lt_fuel _)
  have hknown : ∀ x ∈ order, (idom.get? x).isSome := fun x hx =>
    P.known x hx (idxOf_lt_length_iff.mpr hx)
  refine ⟨idom, hsolve, P.inv, hknown, fun x hx d => ⟨fun hxd ha => ?_, fun hd => ?_⟩⟩
  · -- along a path that avoids `d`, no chain meets `d`
    have hkey : ∀ y, Avoids E root d y → y ∈ order ∧ ¬ Chain idom y d := by
      intro y hy
      induction hy with
      | root hr => exact ⟨G.root_mem, fun h => hr (P.inv.chain_root h).symm⟩
      | @step a b _ hab hbd ih =>
        obtain ⟨ha, hnot⟩ := ih
        have hb : b ∈ order := (G.mem b).mpr (((G.mem a).mp ha).tail hab)
        refine ⟨hb, fun h => ?_⟩
        by_cases hbr : b = root
        · subst hbr
          exact hbd (P.inv.chain_root h).symm
        · obtain ⟨n, hbn, C⟩ := hfix b hb hbr
          rcases (Chain.iff_head hbn).mp h with rfl | hnd
          · exact hbd rfl
          · exact hnot ((C.chain_pred (hknown a ha) hab).trans hnd)
    exact (hkey x ha).2 hxd
  · obtain ⟨y, hy⟩ := isSome_iff_exists.mp (hknown x hx)
    exact P.inv.complete x y hy d hd

end Solver

end Armfortas.Lib
