import Mathlib.Logic.Function.Basic

/-! A deterministic step function is carried by another one along a placement of its states: each step becomes one or
more steps that pass only through states nothing is placed at. -/
namespace Armfortas.Lib

variable {α β γ : Type}

inductive Detour (g : β → Option β) (hidden : β → Prop) : β → β → Prop
  | last {x y : β} : g x = some y → Detour g hidden x y
  | more {x y z : β} : g x = some y → hidden y → Detour g hidden y z → Detour g hidden x z

theorem Detour.append {g : β → Option β} {hidden : β → Prop} {x y z : β} (h : Detour g hidden x y) (hy : hidden y)
    (h' : Detour g hidden y z) : Detour g hidden x z := by
  induction h with
  | last hstep => exact .more hstep hy h'
  | more hstep hmid _ ih => exact .more hstep hmid (ih hy h')

theorem Detour.mono {g : β → Option β} {hidden hidden' : β → Prop} {x y : β} (h : Detour g hidden x y)
    (hsub : ∀ z, hidden z → hidden' z) : Detour g hidden' x y := by
  induction h with
  | last hstep => exact .last hstep
  | more hstep hmid _ ih => exact .more hstep (hsub _ hmid) ih

structure Carries (f : α → Option α) (g : β → Option β) (place : α → β) : Prop where
  moves : ∀ {p q}, f p = some q → Detour g (fun y => ∀ x, place x ≠ y) (place p) (place q)
  stops : ∀ {p}, f p = none → g (place p) = none

theorem Carries.refl (f : α → Option α) : Carries f f id := ⟨.last, id⟩

theorem Carries.detour {g : β → Option β} {h : γ → Option γ} {place : β → γ} (hc : Carries g h place)
    {hidden : β → Prop} {hidden' : γ → Prop} (hnew : ∀ z, (∀ y, place y ≠ z) → hidden' z)
    (hold : ∀ y, hidden y → hidden' (place y)) {x y : β} (hd : Detour g hidden x y) :
    Detour h hidden' (place x) (place y) := by
  induction hd with
  | last hstep => exact (hc.moves hstep).mono hnew
  | more hstep hmid _ ih => exact ((hc.moves hstep).mono hnew).append (hold _ hmid) ih

theorem Carries.trans {f : α → Option α} {g : β → Option β} {h : γ → Option γ} {place : α → β} {place' : β → γ}
    (hf : Carries f g place) (hg : Carries g h place') (hinj : Function.Injective place') :
    Carries f h (place' ∘ place) where
  moves hstep := by
    refine hg.detour (fun z hz x => hz _) (fun y hy x he => hy x (hinj he)) (hf.moves hstep)
  stops hstop := hg.stops (hf.stops hstop)

end Armfortas.Lib
