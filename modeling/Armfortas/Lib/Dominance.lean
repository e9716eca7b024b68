import Armfortas.Lib.AssocMap
import Mathlib.Algebra.Order.BigOperators.Group.List
import Mathlib.Algebra.Order.Ring.Nat
import Mathlib.Data.List.Chain

/-! `d` dominates `x` when every path from the root to `x` meets `d`. The second half is the iterative solver: each
node starts with all nodes as candidates, and passes over the nodes intersect the candidates of the predecessors until
nothing changes. -/
namespace Armfortas.Lib
open List

section Paths

variable {α : Type}

inductive Avoids (E : α → α → Prop) (root d : α) : α → Prop
  | root : root ≠ d → Avoids E root d root
  | step {a b : α} : Avoids E root d a → E a b → b ≠ d → Avoids E root d b

/-- Every path from the root to `x` meets `d`. -/
def Dominates (E : α → α → Prop) (root d x : α) : Prop := ¬ Avoids E root d x

variable {E : α → α → Prop} {root d x : α}

theorem Avoids.ne (h : Avoids E root d x) : x ≠ d := by
  cases h with
  | root h => exact h
  | step _ _ h => exact h

theorem Avoids.reach (h : Avoids E root d x) : Relation.ReflTransGen E root x := by
  induction h with
  | root _ => exact .refl
  | step _ hab _ ih => exact ih.tail hab

theorem Avoids.mono {E' : α → α → Prop} (hE : ∀ a b, E a b → E' a b) (h : Avoids E root d x) : Avoids E' root d x := by
  induction h with
  | root h => exact .root h
  | step _ hab hb ih => exact .step ih (hE _ _ hab) hb

theorem Dominates.of_root (x : α) : Dominates E root root x := by
  intro h
  induction h with
  | root hne => exact hne rfl
  | step _ _ _ ih => exact ih

theorem Dominates.refl (x : α) : Dominates E root x x := fun h => h.ne rfl

theorem Dominates.pred {p} (h : Dominates E root d x) (hx : x ≠ d) (hp : E p x) : Dominates E root d p :=
  fun ha => h (.step ha hp hx)

theorem Dominates.antisymm (hdx : Dominates E root d x) (hxd : Dominates E root x d)
    (hd : Relation.ReflTransGen E root d) : d = x := by
  by_contra hne
  have hboth : ∀ y, Relation.ReflTransGen E root y → Avoids E root d y ∧ Avoids E root x y := by
    intro y hy
    induction hy with
    | refl =>
      have hrd : root ≠ d := fun e => hxd (e ▸ .root (e ▸ hne))
      have hrx : root ≠ x := fun e => hdx (e ▸ .root (e ▸ Ne.symm hne))
      exact ⟨.root hrd, .root hrx⟩
    | tail _ hab ih =>
      refine ⟨.step ih.1 hab fun e => ?_, .step ih.2 hab fun e => ?_⟩
      · exact hxd (e ▸ .step ih.2 hab (e ▸ hne))
      · exact hdx (e ▸ .step ih.1 hab (e ▸ Ne.symm hne))
  exact (hboth d hd).1.ne rfl

theorem Avoids.exists_path (h : Avoids E root d x) :
    ∃ path : List α, path.IsChain E ∧ path.head? = some root ∧ path.getLast? = some x ∧ d ∉ path := by
  induction h with
  | root hr => exact ⟨[root], isChain_singleton _, rfl, rfl, by simpa using hr.symm⟩
  | @step a b _ hab hb ih =>
    obtain ⟨path, hchain, hhead, hlast, hnot⟩ := ih
    refine ⟨path ++ [b], ?_, ?_, getLast?_concat .., ?_⟩
    · refine isChain_append.mpr ⟨hchain, isChain_singleton _, fun y hy z hz => ?_⟩
      rw [hlast, Option.mem_some_iff] at hy
      rw [head?_singleton, Option.mem_some_iff] at hz
      exact hy ▸ hz ▸ hab
    · rw [head?_append, hhead]
      rfl
    · simpa [hnot] using hb.symm

theorem Avoids.of_path {path : List α} (hchain : path.IsChain E) (hhead : path.head? = some root)
    (hlast : path.getLast? = some x) (hd : d ∉ path) : Avoids E root d x := by
  induction path using List.reverseRecOn generalizing x with
  | nil => simp at hhead
  | append_singleton path y ih =>
    obtain rfl : y = x := by simpa using hlast
    obtain ⟨hchain, -, hlink⟩ := isChain_append.mp hchain
    have hy : y ≠ d := fun e => hd (by simp [e])
    cases hend : path.getLast? with
    | none =>
      obtain rfl := getLast?_eq_none_iff.mp hend
      obtain rfl : y = root := by simpa using hhead
      exact .root hy
    | some z =>
      have hne : path ≠ [] := by
        rintro rfl
        simp at hend
      rw [head?_append_of_ne_nil _ hne] at hhead
      exact .step (ih hchain hhead hend fun h => hd (mem_append_left _ h)) (hlink z hend y (by simp)) hy

theorem dominates_iff_forall_path : Dominates E root d x ↔
    ∀ path : List α, path.IsChain E → path.head? = some root → path.getLast? = some x → d ∈ path := by
  constructor
  · intro h path hchain hhead hlast
    by_contra hd
    exact h (.of_path hchain hhead hlast hd)
  · intro h ha
    obtain ⟨path, hchain, hhead, hlast, hd⟩ := ha.exists_path
    exact hd (h path hchain hhead hlast)

theorem Dominates.total {e} (hd : Dominates E root d x) (he : Dominates E root e x)
    (hx : Relation.ReflTransGen E root x) : Dominates E root d e ∨ Dominates E root e d := by
  by_contra hno
  rw [not_or] at hno
  obtain ⟨hde, hed⟩ := hno
  rw [Dominates, not_not] at hde hed
  -- a path that comes to `e` avoiding `d` goes on avoiding one of the two, wherever it last met the other
  have hkey : ∀ y, Relation.ReflTransGen E root y → Avoids E root d y ∨ Avoids E root e y := by
    intro y hy
    induction hy with
    | refl =>
      by_cases hr : root = d
      · exact .inr (hr ▸ hed)
      · exact .inl (.root hr)
    | @tail a b _ hab ih =>
      by_cases hbd : b = d
      · exact .inr (hbd ▸ hed)
      · by_cases hbe : b = e
        · exact .inl (hbe ▸ hde)
        · exact ih.imp (fun h => .step h hab hbd) fun h => .step h hab hbe
  exact (hkey x hx).elim hd he

end Paths

/-! ## The iterative solver -/

section Solver

variable {α : Type} [DecidableEq α]

abbrev Rows (α : Type) := AssocMap α (List α)

def Rows.row (rows : Rows α) (x : α) : List α := rows.getD x []

variable (nodes : List α) (root : α) (preds : α → List α)

def newDom (rows : Rows α) (x : α) : List α :=
  nodes.filter fun d => d = x ∨ ∀ p ∈ preds x, d ∈ rows.row p

/-- Recompute the row of one node, recording whether it changed. The root and nodes without predecessors
are left alone. -/
def domUpdate (s : Rows α × Bool) (x : α) : Rows α × Bool :=
  if x = root ∨ preds x = [] then s
  else
    let row := newDom nodes preds s.1 x
    if s.1.row x = row then s else (s.1.insert x row, true)

def domPass (rows : Rows α) : Rows α × Bool := nodes.foldl (domUpdate nodes root preds) (rows, false)

def domSolve : Nat → Rows α → Rows α
  | 0, rows => rows
  | fuel + 1, rows =>
      match domPass nodes root preds rows with
      | (rows', true) => domSolve fuel rows'
      | (rows', false) => rows'

def domInit : Rows α := nodes.map fun x => (x, if x = root then [root] else nodes)

def dominators : Rows α :=
  domSolve nodes root preds (nodes.length * nodes.length + 1) (domInit nodes root)

/-! ### Rows only shrink and never lose a dominator -/

structure DomInv (E : α → α → Prop) (rows : Rows α) : Prop where
  rootRow : rows.row root = [root]
  canonical : ∀ x ∈ nodes, x ≠ root → ∃ p : α → Bool, rows.row x = nodes.filter p
  shrinks : ∀ x ∈ nodes, x ≠ root → preds x ≠ [] → ∀ d ∈ newDom nodes preds rows x, d ∈ rows.row x
  complete : ∀ x ∈ nodes, ∀ d ∈ nodes, Dominates E root d x → d ∈ rows.row x

variable {nodes root preds}

theorem mem_newDom {rows x d} :
    d ∈ newDom nodes preds rows x ↔ d ∈ nodes ∧ (d = x ∨ ∀ p ∈ preds x, d ∈ rows.row p) := by
  simp [newDom]

theorem row_domInit {x} (hx : x ∈ nodes) :
    (domInit nodes root).row x = if x = root then [root] else nodes := by
  have key : ∀ l : List α, x ∈ l →
      List.lookup x (l.map fun y => (y, if y = root then [root] else nodes))
        = some (if x = root then [root] else nodes) := by
    intro l
    induction l with
    | nil => simp
    | cons y l ih =>
      intro h
      by_cases hy : x = y
      · subst hy; simp
      · simpa [lookup_cons, beq_eq_false_iff_ne.mpr hy] using ih (by simpa [hy] using h)
  simp [Rows.row, AssocMap.getD, AssocMap.get?, domInit, key nodes hx]

theorem row_insert (rows : Rows α) (x y : α) (row : List α) :
    Rows.row (rows.insert x row) y = if y = x then row else rows.row y := by
  by_cases h : y = x
  · subst h; simp [Rows.row]
  · simp [Rows.row, h]

/-- The number of candidates left: every change of a row lowers it. -/
def domSize (nodes : List α) (rows : Rows α) : Nat := (nodes.map fun x => (rows.row x).length).sum

/-- The nodes are the ones the root reaches along `E`, and `preds` lists their predecessors. -/
structure DomGraph (nodes : List α) (root : α) (preds : α → List α) (E : α → α → Prop) : Prop where
  root_mem : root ∈ nodes
  closed : ∀ a ∈ nodes, ∀ b, E a b → b ∈ nodes
  mem_preds : ∀ x ∈ nodes, ∀ p, p ∈ preds x ↔ p ∈ nodes ∧ E p x

variable {E : α → α → Prop}

theorem domInit_inv (hroot : root ∈ nodes) : DomInv nodes root preds E (domInit nodes root) where
  rootRow := by simp [row_domInit hroot]
  canonical := fun x hx hne => ⟨fun _ => true, by simp [row_domInit hx, hne]⟩
  shrinks := by
    intro x hx hne _ d hd
    simp only [row_domInit hx, hne, if_false]
    exact (mem_newDom.mp hd).1
  complete := by
    intro x hx d hd h
    rw [row_domInit hx]
    split
    · next hxr =>
      subst hxr
      by_contra hc
      exact h (.root fun e => hc (by simp [e]))
    · exact hd

theorem domSize_init_le : domSize nodes (domInit nodes root) ≤ nodes.length * nodes.length := by
  have hle : ∀ n ∈ nodes.map fun x => ((domInit nodes root).row x).length, n ≤ nodes.length := by
    intro n hn
    obtain ⟨x, hx, rfl⟩ := mem_map.mp hn
    rw [row_domInit hx]
    split
    · exact length_pos_of_mem hx
    · exact Nat.le_refl _
  have := sum_le_card_nsmul _ _ hle
  simpa [domSize] using this

theorem domSize_insert_lt {rows : Rows α} {x} {row : List α} (hx : x ∈ nodes)
    (hlt : row.length < (rows.row x).length) : domSize nodes (rows.insert x row) < domSize nodes rows := by
  refine sum_lt_sum _ _ (fun y _ => ?_) ⟨x, hx, ?_⟩
  · rw [row_insert]
    split
    · next h => subst h; exact Nat.le_of_lt hlt
    · exact Nat.le_refl _
  · simpa [row_insert] using hlt

theorem DomInv.newDom_length_lt {rows x} (h : DomInv nodes root preds E rows) (hx : x ∈ nodes)
    (hne : x ≠ root) (hp : preds x ≠ []) (hrow : rows.row x ≠ newDom nodes preds rows x) :
    (newDom nodes preds rows x).length < (rows.row x).length := by
  obtain ⟨p, hpq⟩ := h.canonical x hx hne
  have hsub : (newDom nodes preds rows x).Sublist (rows.row x) := by
    rw [hpq]
    have : newDom nodes preds rows x = (nodes.filter p).filter (· ∈ newDom nodes preds rows x) := by
      rw [filter_filter]
      refine filter_congr fun d hd => ?_
      have hmem := h.shrinks x hx hne hp d
      rw [hpq, mem_filter] at hmem
      rw [Bool.eq_iff_iff]
      simp only [decide_eq_true_eq, Bool.and_eq_true, mem_newDom]
      exact ⟨fun hd' => ⟨⟨hd, hd'⟩, (hmem (mem_newDom.mpr ⟨hd, hd'⟩)).2⟩, fun hd' => hd'.1.2⟩
    rw [this]
    exact filter_sublist
  exact Nat.lt_of_le_of_ne hsub.length_le fun e => hrow (hsub.eq_of_length e).symm

theorem DomInv.insert {rows x} (G : DomGraph nodes root preds E)
    (h : DomInv nodes root preds E rows) (hx : x ∈ nodes) (hne : x ≠ root) (hp : preds x ≠ []) :
    DomInv nodes root preds E (rows.insert x (newDom nodes preds rows x)) := by
  have hle : ∀ z, ∀ d ∈ Rows.row (rows.insert x (newDom nodes preds rows x)) z, d ∈ rows.row z := by
    intro z d hd
    rw [row_insert] at hd
    split at hd
    · next hz => subst hz; exact h.shrinks z hx hne hp d hd
    · exact hd
  have hmono : ∀ y d, d ∈ newDom nodes preds (rows.insert x (newDom nodes preds rows x)) y →
      d ∈ newDom nodes preds rows y := by
    intro y d hd
    obtain ⟨hdn, hd⟩ := mem_newDom.mp hd
    exact mem_newDom.mpr ⟨hdn, hd.imp_right fun hd p hp => hle p d (hd p hp)⟩
  refine ⟨?_, ?_, ?_, ?_⟩
  · rw [row_insert, if_neg hne.symm, h.rootRow]
  · intro y hy hyr
    rw [row_insert]
    split
    · exact ⟨_, rfl⟩
    · exact h.canonical y hy hyr
  · intro y hy hyr hyp d hd
    have hd' := hmono y d hd
    rw [row_insert]
    split
    · next hyx => subst hyx; exact hd'
    · exact h.shrinks y hy hyr hyp d hd'
  · intro y hy d hd hdom
    rw [row_insert]
    split
    · next hyx =>
      subst hyx
      refine mem_newDom.mpr ⟨hd, ?_⟩
      by_cases hdy : d = y
      · exact .inl hdy
      · refine .inr fun p hpy => ?_
        obtain ⟨hpn, hE⟩ := (G.mem_preds y hx p).mp hpy
        exact h.complete p hpn d hd (hdom.pred (Ne.symm hdy) hE)
    · exact h.complete y hy d hd hdom

/-- What one pass does: it keeps the invariant, and either some row shrank or every row is already the one
its predecessors give. -/
theorem domPass_spec (G : DomGraph nodes root preds E) (l : List α) :
    ∀ (rows : Rows α) (c : Bool), (∀ x ∈ l, x ∈ nodes) → DomInv nodes root preds E rows →
      ∃ rows' c', l.foldl (domUpdate nodes root preds) (rows, c) = (rows', c') ∧ DomInv nodes root preds E rows' ∧
        (c' = true → c = true ∨ domSize nodes rows' < domSize nodes rows) ∧ domSize nodes rows' ≤ domSize nodes rows ∧
        (c' = false → c = false ∧ rows' = rows ∧
          ∀ x ∈ l, x ≠ root → preds x ≠ [] → rows.row x = newDom nodes preds rows x) := by
  induction l with
  | nil =>
    intro rows c _ h
    exact ⟨rows, c, rfl, h, .inl, Nat.le_refl _, fun hc => ⟨hc, rfl, by simp⟩⟩
  | cons x l ih =>
    intro rows c hl h
    have hx : x ∈ nodes := hl x mem_cons_self
    have hl' : ∀ y ∈ l, y ∈ nodes := fun y hy => hl y (.tail _ hy)
    by_cases hskip : x = root ∨ preds x = []
    · obtain ⟨rows', c', heq, h', ht, hle, hf⟩ := ih rows c hl' h
      refine ⟨rows', c', by simpa [domUpdate, hskip] using heq, h', ht, hle, fun hc => ?_⟩
      obtain ⟨h1, h2, h3⟩ := hf hc
      refine ⟨h1, h2, fun y hy hyr hyp => ?_⟩
      rcases mem_cons.mp hy with rfl | hy
      · exact absurd hskip (by simp [hyr, hyp])
      · exact h3 y hy hyr hyp
    · have hne : x ≠ root := fun e => hskip (.inl e)
      have hp : preds x ≠ [] := fun e => hskip (.inr e)
      by_cases hrow : rows.row x = newDom nodes preds rows x
      · obtain ⟨rows', c', heq, h', ht, hle, hf⟩ := ih rows c hl' h
        refine ⟨rows', c', by simpa [domUpdate, hskip, ← hrow] using heq, h', ht, hle, fun hc => ?_⟩
        obtain ⟨h1, h2, h3⟩ := hf hc
        refine ⟨h1, h2, fun y hy hyr hyp => ?_⟩
        rcases mem_cons.mp hy with rfl | hy
        · exact hrow
        · exact h3 y hy hyr hyp
      · have hlt := domSize_insert_lt hx (h.newDom_length_lt hx hne hp hrow)
        obtain ⟨rows', c', heq, h', -, hle, hf⟩ := ih _ true hl' (h.insert G hx hne hp)
        refine ⟨rows', c', by simpa [domUpdate, hskip, hrow] using heq, h',
          fun _ => .inr (Nat.lt_of_le_of_lt hle hlt), Nat.le_of_lt (Nat.lt_of_le_of_lt hle hlt), fun hc => ?_⟩
        exact absurd (hf hc).1 (by simp)

theorem domSolve_spec (G : DomGraph nodes root preds E) (fuel) :
    ∀ rows : Rows α, DomInv nodes root preds E rows → domSize nodes rows < fuel →
      DomInv nodes root preds E (domSolve nodes root preds fuel rows) ∧ ∀ x ∈ nodes, x ≠ root → preds x ≠ [] →
        (domSolve nodes root preds fuel rows).row x = newDom nodes preds (domSolve nodes root preds fuel rows) x := by
  induction fuel with
  | zero => intro rows _ hlt; exact absurd hlt (Nat.not_lt_zero _)
  | succ fuel ih =>
    intro rows h hlt
    obtain ⟨rows', c', heq, h', ht, -, hf⟩ := domPass_spec G nodes rows false (fun _ hx => hx) h
    cases c' with
    | true =>
      have hlt' := (ht rfl).resolve_left (by simp)
      simpa only [domSolve, domPass, heq] using ih rows' h' (by omega)
    | false =>
      obtain ⟨-, rfl, hfix⟩ := hf rfl
      simpa only [domSolve, domPass, heq] using And.intro h' hfix

theorem domPass_dominators (G : DomGraph nodes root preds E) :
    domPass nodes root preds (dominators nodes root preds) = (dominators nodes root preds, false) := by
  obtain ⟨-, hfix⟩ := domSolve_spec G (nodes.length * nodes.length + 1) (domInit nodes root)
    (domInit_inv G.root_mem) (Nat.lt_succ_of_le domSize_init_le)
  have hkeep : ∀ l : List α, (∀ x ∈ l, x ∈ nodes) →
      l.foldl (domUpdate nodes root preds) (dominators nodes root preds, false) =
        (dominators nodes root preds, false) := by
    intro l hl
    induction l with
    | nil => rfl
    | cons x l ih =>
      rw [forall_mem_cons] at hl
      have hx : domUpdate nodes root preds (dominators nodes root preds, false) x =
          (dominators nodes root preds, false) := by
        unfold domUpdate
        split
        · rfl
        · next hskip =>
          rw [not_or] at hskip
          exact if_pos (hfix x hl.1 hskip.1 hskip.2)
      rw [foldl_cons, hx, ih hl.2]
  exact hkeep nodes fun _ h => h

theorem mem_dominators_iff (G : DomGraph nodes root preds E) {x d} (hx : x ∈ nodes) :
    d ∈ (dominators nodes root preds).row x ↔ d ∈ nodes ∧ Dominates E root d x := by
  obtain ⟨hinv, hfix⟩ := domSolve_spec G (nodes.length * nodes.length + 1) (domInit nodes root)
    (domInit_inv G.root_mem) (Nat.lt_succ_of_le domSize_init_le)
  change DomInv nodes root preds E (dominators nodes root preds) at hinv
  change ∀ x ∈ nodes, x ≠ root → preds x ≠ [] → (dominators nodes root preds).row x =
    newDom nodes preds (dominators nodes root preds) x at hfix
  have hstep : ∀ a ∈ nodes, ∀ b, E a b → b ≠ root → b ∈ nodes ∧
      (dominators nodes root preds).row b = newDom nodes preds (dominators nodes root preds) b := by
    intro a ha b hab hbr
    have hb := G.closed a ha b hab
    have hp : a ∈ preds b := (G.mem_preds b hb a).mpr ⟨ha, hab⟩
    exact ⟨hb, hfix b hb hbr (ne_nil_of_mem hp)⟩
  -- along a path that avoids `d`, no row contains `d`
  have havoid : ∀ y, Avoids E root d y → y ∈ nodes ∧ d ∉ (dominators nodes root preds).row y := by
    intro y hy
    induction hy with
    | root hr => exact ⟨G.root_mem, by simpa [hinv.rootRow] using Ne.symm hr⟩
    | @step a b _ hab hb ih =>
      by_cases hbr : b = root
      · subst hbr
        exact ⟨G.root_mem, by simpa [hinv.rootRow] using Ne.symm hb⟩
      · obtain ⟨hbn, hrow⟩ := hstep a ih.1 b hab hbr
        refine ⟨hbn, fun hd => ?_⟩
        rw [hrow, mem_newDom] at hd
        rcases hd.2 with e | hall
        · exact hb e.symm
        · exact ih.2 (hall a ((G.mem_preds b hbn a).mpr ⟨ih.1, hab⟩))
  refine ⟨fun hd => ⟨?_, fun ha => (havoid x ha).2 hd⟩, fun h => hinv.complete x hx d h.1 h.2⟩
  by_cases hxr : x = root
  · subst hxr
    rw [hinv.rootRow, mem_singleton] at hd
    exact hd ▸ hx
  · obtain ⟨p, hp⟩ := hinv.canonical x hx hxr
    rw [hp] at hd
    exact (mem_filter.mp hd).1

end Solver

end Armfortas.Lib
