import Mathlib.Data.List.Basic
import Mathlib.Algebra.BigOperators.Group.List.Basic
import Mathlib.Data.List.Nodup
import Mathlib.Tactic.Linarith
import Mathlib.Tactic.Ring

/-! A progression is cut into consecutive pieces, and the pieces in order give it back. -/
namespace Armfortas.Lib
open List

def progression (first step : Int) (n : Nat) : List Int := (List.range n).map fun k : Nat => first + k * step

variable {first step : Int}

@[simp] theorem progression_zero : progression first step 0 = [] := rfl

@[simp] theorem length_progression (n : Nat) : (progression first step n).length = n := by simp [progression]

theorem mem_progression {n : Nat} {v : Int} : v ∈ progression first step n ↔ ∃ k < n, v = first + k * step := by
  simp only [progression, mem_map, mem_range]
  exact ⟨fun ⟨k, hk, he⟩ => ⟨k, hk, he.symm⟩, fun ⟨k, hk, he⟩ => ⟨k, hk, he.symm⟩⟩

theorem nodup_progression (h : step ≠ 0) (n : Nat) : (progression first step n).Nodup := by
  refine List.Nodup.map (fun a b he => ?_) nodup_range
  have he : first + (a : Int) * step = first + b * step := he
  have hzero : ((a : Int) - b) * step = 0 := by linarith
  rcases mul_eq_zero.mp hzero with hab | hstep
  · omega
  · exact absurd hstep h

theorem getElem?_progression {n k : Nat} (h : k < n) : (progression first step n)[k]? = some (first + k * step) := by
  rw [progression, getElem?_map, getElem?_range h, Option.map_some]

theorem progression_add (m n : Nat) :
    progression first step (m + n) = progression first step m ++ progression (first + m * step) step n := by
  rw [progression, range_add, map_append, map_map, progression, progression]
  congr 1
  refine map_congr_left fun k _ => ?_
  simp only [Function.comp_apply, Nat.cast_add]
  ring

theorem take_progression (m n : Nat) : (progression first step n).take m = progression first step (min m n) := by
  rw [progression, progression, ← map_take, take_range]

theorem flatMap_progression (len : Nat → Nat) (n : Nat) :
    ((List.range n).flatMap fun i => progression (first + ((List.range i).map len).sum * step) step (len i)) =
      progression first step ((List.range n).map len).sum := by
  induction n with
  | zero => rfl
  | succ n ih =>
    rw [range_succ, flatMap_append, ih, flatMap_singleton, map_append, sum_append,
      map_singleton, sum_singleton, progression_add]

theorem flatMap_range_mul {α : Type} (f : Nat → List α) (n m : Nat) :
    (List.range (n * m)).flatMap f = (List.range n).flatMap fun k => (List.range m).flatMap fun t => f (t + k * m) := by
  induction n with
  | zero => simp
  | succ n ih =>
    rw [Nat.succ_mul, range_add, flatMap_append, ih, range_succ, flatMap_append,
      flatMap_singleton, flatMap_map]
    simp only [Nat.add_comm]

end Armfortas.Lib
