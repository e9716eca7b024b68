import Armfortas.Lib.Dominance

/-! A back edge goes to a node that dominates its source. The natural loop of a header is the header and every node
from which a path leads to the source of one of its back edges without meeting the header. -/
namespace Armfortas.Lib

variable {α : Type} {E : α → α → Prop} {root : α}

def ReachesAvoiding (E : α → α → Prop) (h b l : α) : Prop :=
  b ≠ h ∧ Relation.ReflTransGen (fun a c => E a c ∧ c ≠ h) b l

structure BackEdge (E : α → α → Prop) (root l h : α) : Prop where
  reach : Relation.ReflTransGen E root l
  edge : E l h
  dominates : Dominates E root h l

def InLoop (E : α → α → Prop) (root h b : α) : Prop :=
  b = h ∨ ∃ l, BackEdge E root l h ∧ ReachesAvoiding E h b l

namespace ReachesAvoiding

variable {h b l c : α}

theorem refl (hb : b ≠ h) : ReachesAvoiding E h b b := ⟨hb, .refl⟩

theorem head (hb : b ≠ h) (hbc : E b c) (hcl : ReachesAvoiding E h c l) : ReachesAvoiding E h b l :=
  ⟨hb, .head ⟨hbc, hcl.1⟩ hcl.2⟩

theorem trans (hbc : ReachesAvoiding E h b c) (hcl : ReachesAvoiding E h c l) : ReachesAvoiding E h b l :=
  ⟨hbc.1, hbc.2.trans hcl.2⟩

theorem target_ne (hbl : ReachesAvoiding E h b l) : l ≠ h := by
  obtain ⟨hb, hpath⟩ := hbl
  cases hpath with
  | refl => exact hb
  | tail _ hac => exact hac.2

theorem avoids (hbl : ReachesAvoiding E h b l) (hb : Avoids E root h b) : Avoids E root h l := by
  obtain ⟨-, hpath⟩ := hbl
  induction hpath with
  | refl => exact hb
  | tail _ hac ih => exact .step ih hac.1 hac.2

end ReachesAvoiding

theorem BackEdge.reach_header {l h : α} (hl : BackEdge E root l h) : Relation.ReflTransGen E root h :=
  hl.reach.tail hl.edge

theorem InLoop.dominates {h b : α} (hb : InLoop E root h b) : Dominates E root h b := by
  rcases hb with rfl | ⟨l, hl, hbl⟩
  · exact Dominates.refl b
  · exact fun ha => hl.dominates (hbl.avoids ha)

/-- From an outer header a dominated node is left towards `b` without the outer header coming back: the path
from the last visit of `d` on. -/
theorem reachesAvoiding_of_dominates {h d b : α} (hhd : ¬ Dominates E root d h) (hdb : Dominates E root d b)
    (hb : Relation.ReflTransGen E root b) (hne : d ≠ h) : ReachesAvoiding E h d b := by
  rw [Dominates, not_not] at hhd
  -- after its last visit of `d`, a path that met `h` would lead to `b` without `d`
  have hkey : ∀ y, Relation.ReflTransGen E root y → Avoids E root d y ∨ ReachesAvoiding E h d y := by
    intro y hy
    induction hy with
    | refl =>
      by_cases hr : root = d
      · exact .inr (hr ▸ .refl (hr ▸ hne))
      · exact .inl (.root hr)
    | @tail a c _ hac ih =>
      by_cases hcd : c = d
      · rw [hcd]
        exact .inr (.refl hne)
      · by_cases hch : c = h
        · exact .inl (hch ▸ hhd)
        · rcases ih with ha | ha
          · exact .inl (.step ha hac hcd)
          · exact .inr ⟨ha.1, ha.2.tail ⟨hac, hch⟩⟩
  exact (hkey b hb).resolve_left hdb

theorem InLoop.subset {h h' : α} (hh : Relation.ReflTransGen E root h) (hin : InLoop E root h h') (hne : h' ≠ h)
    {y : α} (hy : InLoop E root h' y) : InLoop E root h y := by
  rcases hy with rfl | ⟨l', hl', hyl'⟩
  · exact hin
  · obtain ⟨l, hl, hhl⟩ := hin.resolve_left hne
    -- a path inside the inner loop does not meet the outer header, which the inner one does not dominate
    have havoid : ∀ z, ReachesAvoiding E h' z l' → z ≠ h := by
      rintro z hz rfl
      have hd : InLoop E root h' z := .inr ⟨l', hl', hz⟩
      exact hne (hd.dominates.antisymm hin.dominates hl'.reach_header)
    have hpath : ReachesAvoiding E h y l' := by
      obtain ⟨hyh', hpath⟩ := hyl'
      induction hpath using Relation.ReflTransGen.head_induction_on with
      | refl => exact .refl (havoid l' ⟨hyh', .refl⟩)
      | @head a c hac hcl ih =>
        exact .head (havoid a ⟨hyh', .head hac hcl⟩) hac.1 (ih hac.2)
    exact .inr ⟨l, hl, hpath.trans (.head hpath.target_ne hl'.edge hhl)⟩

theorem InLoop.header_of_shared {h h' b : α} (hb : Relation.ReflTransGen E root b) (hin : InLoop E root h b)
    (hin' : InLoop E root h' b) (hne : h ≠ h') : InLoop E root h h' ∨ InLoop E root h' h := by
  have hinner : ∀ {k k' : α}, InLoop E root k b → InLoop E root k' b → k ≠ k' → Dominates E root k k' →
      Relation.ReflTransGen E root k → InLoop E root k k' := by
    intro k k' hk hk' hkk hdom hreach
    have hnot : ¬ Dominates E root k' k := fun hc => hkk (hdom.antisymm hc hreach)
    have hpath := reachesAvoiding_of_dominates hnot hk'.dominates hb hkk.symm
    rcases hk with rfl | ⟨l, hl, hbl⟩
    · exact absurd hk'.dominates hnot
    · exact .inr ⟨l, hl, hpath.trans hbl⟩
  have hreach : ∀ {k : α}, InLoop E root k b → Relation.ReflTransGen E root k := by
    rintro k (rfl | ⟨l, hl, -⟩)
    · exact hb
    · exact hl.reach_header
  rcases hin.dominates.total hin'.dominates hb with hd | hd
  · exact .inl (hinner hin hin' hne hd (hreach hin))
  · exact .inr (hinner hin' hin hne.symm hd (hreach hin'))

end Armfortas.Lib
