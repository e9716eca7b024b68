import Mathlib.Data.List.Nodup
import Mathlib.Data.List.Pairwise
import Mathlib.Data.List.Flatten

/-! The shares of all holders, one after the other. -/
namespace Armfortas.Lib
open List

variable {ι α : Type} {f g : ι → List α} {i j : ι} {x : α} {xs : List ι}

theorem flatMap_perm_cons (hnodup : xs.Nodup) (hi : i ∈ xs) (hother : ∀ j, j ≠ i → f j = g j) (hself : f i = x :: g i) :
    (xs.flatMap f).Perm (x :: xs.flatMap g) := by
  induction xs with
  | nil => cases hi
  | cons y ys ih =>
    obtain ⟨hy, hys⟩ := nodup_cons.mp hnodup
    rw [flatMap_cons, flatMap_cons]
    by_cases h : y = i
    · subst h
      have hrest : ys.flatMap f = ys.flatMap g := flatMap_congr fun j hj => hother j fun he => hy (he ▸ hj)
      rw [hself, hrest, cons_append]
    · rw [hother y h]
      have hmem : i ∈ ys := (mem_cons.mp hi).resolve_left fun he => h he.symm
      exact ((ih hys hmem).append_left _).trans perm_middle

theorem holder_unique (h : (xs.flatMap f).Nodup) (hi : i ∈ xs) (hj : j ∈ xs) (hxi : x ∈ f i) (hxj : x ∈ f j) :
    i = j := by
  by_contra hne
  have : Std.Symm (Function.onFun List.Disjoint f) := ⟨fun _ _ hd _ hb ha => hd ha hb⟩
  exact (nodup_flatMap.mp h).2.forall hi hj hne hxi hxj

end Armfortas.Lib
