import Armfortas.Lib.Dominance

/-! The frontier of `r` is where its dominance ends: the nodes with a predecessor that `r` dominates which `r` does
not strictly dominate. -/
namespace Armfortas.Lib

variable {α : Type} {E : α → α → Prop} {root : α}

/-- `y` is in the dominance frontier of `r`. Only predecessors that the root reaches count. -/
def InFrontier (E : α → α → Prop) (root r y : α) : Prop :=
  (∃ p, Relation.ReflTransGen E root p ∧ E p y ∧ Dominates E root r p) ∧ ¬ (Dominates E root r y ∧ r ≠ y)

theorem exists_pred_avoids {y : α} (hy : Relation.ReflTransGen E root y) (hne : y ≠ root) :
    ∃ a, Avoids E root y a ∧ E a y := by
  have hkey : ∀ z, Relation.ReflTransGen E root z → Avoids E root y z ∨ ∃ a, Avoids E root y a ∧ E a y := by
    intro z hz
    induction hz with
    | refl => exact .inl (.root hne.symm)
    | @tail a b _ hab ih =>
      rcases ih with ha | hfound
      · by_cases hby : b = y
        · exact .inr ⟨a, ha, hby ▸ hab⟩
        · exact .inl (.step ha hab hby)
      · exact .inr hfound
  exact (hkey y hy).resolve_left fun h => h.ne rfl

theorem not_inFrontier_of_single {p y r : α} (hy : Relation.ReflTransGen E root y) (hne : y ≠ root)
    (hp : ∀ a, Relation.ReflTransGen E root a → E a y → a = p) : ¬ InFrontier E root r y := by
  rintro ⟨⟨a, ha, hay, hra⟩, hnot⟩
  obtain rfl := hp a ha hay
  have hdom : Dominates E root r y := by
    intro h
    cases h with
    | root _ => exact hne rfl
    | step h hby _ => exact hra (hp _ h.reach hby ▸ h)
  obtain ⟨b, hb, hby⟩ := exists_pred_avoids hy hne
  obtain rfl := hp b hb.reach hby
  exact hnot ⟨hdom, fun e => hra (e ▸ hb)⟩

end Armfortas.Lib
