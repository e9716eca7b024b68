import Mathlib.Data.Set.Basic

/-! Resources are handed out in the order in which they are needed, each for a range of positions. A resource may be
handed out again once the range it was held for lies behind, or when it has been taken back. Whoever holds the same
resource then holds it at different positions. -/
namespace Armfortas.Lib

variable {ι ρ : Type}

@[ext] structure Holding (ι ρ : Type) where
  holder : ι
  res : ρ
  lo : Nat
  hi : Nat

def Holding.Apart (a b : Holding ι ρ) : Prop := a.hi < b.lo ∨ b.hi < a.lo

/-- At position `pos`, what has been handed out and not been taken back is still active or lies behind, and no
resource is active twice. -/
structure Tidy (given active : Set (Holding ι ρ)) (pos : Nat) : Prop where
  covered : ∀ h ∈ given, h ∈ active ∨ h.hi < pos
  unique : ∀ a ∈ active, ∀ b ∈ active, a.res = b.res → a = b
  apart : ∀ a ∈ given, ∀ b ∈ given, a.res = b.res → a ≠ b → a.Apart b

variable {given given' active active' : Set (Holding ι ρ)} {pos pos' : Nat}

theorem Tidy.empty : Tidy (∅ : Set (Holding ι ρ)) ∅ pos := ⟨by simp, by simp, by simp⟩

theorem Tidy.retain (h : Tidy given active pos) (hpos : pos ≤ pos') (hgiven : given' ⊆ given)
    (hactive : active' ⊆ active) (hkeep : ∀ a ∈ given', a ∈ active → a ∈ active' ∨ a.hi < pos') :
    Tidy given' active' pos' where
  covered a ha := by
    rcases h.covered a (hgiven ha) with hact | hbehind
    · exact hkeep a ha hact
    · exact .inr (Nat.lt_of_lt_of_le hbehind hpos)
  unique a ha b hb := h.unique a (hactive ha) b (hactive hb)
  apart a ha b hb := h.apart a (hgiven ha) b (hgiven hb)

theorem Tidy.acquire (h : Tidy given active pos) {new : Holding ι ρ} (hlo : new.lo = pos)
    (hfree : ∀ a ∈ active, a.res ≠ new.res) : Tidy (insert new given) (insert new active) pos := by
  have hnew : ∀ a ∈ given, a.res = new.res → a.hi < new.lo := by
    intro a ha hres
    rcases h.covered a ha with hact | hbehind
    · exact absurd hres (hfree a hact)
    · exact hlo ▸ hbehind
  constructor
  case covered =>
    rintro a (rfl | ha)
    · exact .inl (.inl rfl)
    · exact (h.covered a ha).imp .inr id
  case unique =>
    rintro a (rfl | ha) b (rfl | hb) hres
    · rfl
    · exact absurd hres.symm (hfree b hb)
    · exact absurd hres (hfree a ha)
    · exact h.unique a ha b hb hres
  case apart =>
    rintro a (rfl | ha) b (rfl | hb) hres hne
    · exact absurd rfl hne
    · exact .inr (hnew b hb hres.symm)
    · exact .inl (hnew a ha hres)
    · exact h.apart a ha b hb hres hne

end Armfortas.Lib
