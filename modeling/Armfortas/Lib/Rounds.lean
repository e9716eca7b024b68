import Mathlib.Algebra.Ring.Nat
import Mathlib.Data.Fintype.Card
import Mathlib.Logic.Function.Basic

/-! Members go through the same rounds, each at its own pace. A table holds what they share in round `l` under the key
`l + 1`; the last one to begin a round removes the entry of the round before. -/
namespace Armfortas.Lib
open Function Finset UInt64

section Keys

variable {a b : Nat}

theorem ofNat_ne_zero (h : b < 2 ^ 64) (hpos : 0 < b) : UInt64.ofNat b ≠ 0 := by
  intro he
  have hzero := congrArg toNat he
  rw [toNat_ofNat_of_lt' h] at hzero
  exact hpos.ne' hzero

theorem ofNat_inj (ha : a < 2 ^ 64) (hb : b < 2 ^ 64) (h : UInt64.ofNat a = UInt64.ofNat b) : a = b := by
  have := congrArg toNat h
  rwa [toNat_ofNat_of_lt' ha, toNat_ofNat_of_lt' hb] at this

theorem one_lt_ofNat (h : b < 2 ^ 64) : 1 < UInt64.ofNat b ↔ 1 < b := by
  rw [lt_iff_toNat_lt, toNat_ofNat_of_lt' h]
  rfl

theorem ofNat_succ_sub (b : Nat) : UInt64.ofNat (b + 1) - 1 = UInt64.ofNat b := by
  rw [UInt64.ofNat_add]
  exact UInt64.add_sub_cancel _ _

end Keys

section Arrived

variable {n : Nat} {begun : Fin n → Nat} {m : Fin n} {l b : Nat}

def arrived (begun : Fin n → Nat) (l : Nat) : Nat := (univ.filter fun m => l < begun m).card

theorem arrived_update (h : l < b ↔ l < begun m) : arrived (update begun m b) l = arrived begun l := by
  unfold arrived
  congr 1
  refine filter_congr fun m' _ => ?_
  by_cases hm : m' = m
  · rw [hm, update_self, h]
  · rw [update_of_ne hm]

theorem arrived_begin (hbefore : begun m ≤ l) (hafter : l < b) :
    arrived (update begun m b) l = arrived begun l + 1 := by
  have hinsert : (univ.filter fun m' => l < update begun m b m') =
      insert m (univ.filter fun m' => l < begun m') := by
    ext m'
    rw [mem_insert, mem_filter_univ, mem_filter_univ]
    by_cases hm : m' = m
    · simp [hm, hafter]
    · simp [hm]
  rw [arrived, hinsert, card_insert_of_notMem, arrived]
  rw [mem_filter_univ]
  omega

theorem arrived_lt (h : begun m ≤ l) : arrived begun l < n := by
  have hnot : m ∉ univ.filter fun m => l < begun m := by
    rw [mem_filter_univ]
    omega
  exact (card_lt_univ_of_notMem hnot).trans_eq (Fintype.card_fin n)

theorem begun_of_arrived (h : arrived begun l = n) (m : Fin n) : l < begun m := by
  by_contra hle
  exact (arrived_lt (Nat.not_lt.mp hle)).ne h

theorem arrived_eq_zero (h : ∀ m, begun m ≤ l) : arrived begun l = 0 := by
  rw [arrived, card_eq_zero, filter_eq_empty_iff]
  exact fun m _ => Nat.not_lt.mpr (h m)

end Arrived

section Table

variable {n : Nat} {E : Type} {entry : Nat → Nat → E} {rounds : Nat} {begun : Fin n → Nat} {table : UInt64 → Option E}
  {m : Fin n} {b l : Nat}

def beginRound (table : UInt64 → Option E) (b : Nat) (e : E) (last : Prop) [Decidable last] : UInt64 → Option E :=
  let table := update table (.ofNat (b + 1)) (some e)
  if last ∧ 0 < b then update table (.ofNat b) none else table

section Begin

variable {e : E} {last : Prop} [Decidable last]

theorem beginRound_self (hb : b + 1 < 2 ^ 64) : beginRound table b e last (.ofNat (b + 1)) = some e := by
  unfold beginRound
  split
  · rw [update_of_ne fun he => by have := ofNat_inj hb (by omega) he; omega, update_self]
  · rw [update_self]

theorem beginRound_ne (hb : b + 1 < 2 ^ 64) (hl : l + 1 < 2 ^ 64) (hne : l ≠ b) (hkeep : last → l + 1 ≠ b) :
    beginRound table b e last (.ofNat (l + 1)) = table (.ofNat (l + 1)) := by
  have hother : UInt64.ofNat (l + 1) ≠ .ofNat (b + 1) := fun he => by have := ofNat_inj hl hb he; omega
  unfold beginRound
  split
  · rename_i hall
    rw [update_of_ne fun he => hkeep hall.1 (ofNat_inj hl (by omega) he), update_of_ne hother]
  · rw [update_of_ne hother]

theorem beginRound_keeps {m' : Fin n} (hm : begun m = b) (hb : b + 1 < 2 ^ 64) (hl : l + 1 < 2 ^ 64) (hne : l ≠ b)
    (hm' : update begun m (b + 1) m' ≤ l + 1) :
    beginRound table b e (arrived begun b + 1 = n) (.ofNat (l + 1)) = table (.ofNat (l + 1)) := by
  refine beginRound_ne hb hl hne fun hall hlast => ?_
  have := begun_of_arrived ((arrived_begin hm.le (Nat.lt_add_one b)).trans hall) m'
  omega

end Begin

/-- A round that some member has begun and some member has not left has its entry; `entry l k` is the one of round `l`
when `k` members have begun it. -/
structure Tracks (entry : Nat → Nat → E) (rounds : Nat) (begun : Fin n → Nat) (table : UInt64 → Option E) : Prop where
  bound : ∀ m, begun m ≤ rounds
  current : ∀ l m m', l < begun m → begun m' ≤ l + 1 → table (.ofNat (l + 1)) = some (entry l (arrived begun l))
  fresh : ∀ l < rounds, (∀ m, begun m ≤ l) → table (.ofNat (l + 1)) = none

namespace Tracks

variable (h : Tracks entry rounds begun table)
include h

theorem getD {e : E} (hm : begun m ≤ b) (hb : b < rounds) (he : (∀ m, begun m ≤ b) → entry b 0 = e) :
    (table (.ofNat (b + 1))).getD e = entry b (arrived begun b) := by
  by_cases hbegun : ∃ m', b < begun m'
  · obtain ⟨m', hm'⟩ := hbegun
    rw [h.current b m' m hm' (by omega), Option.getD_some]
  · have hle : ∀ m', begun m' ≤ b := fun m' => Nat.not_lt.mp fun hm' => hbegun ⟨m', hm'⟩
    rw [h.fresh b hb hle, Option.getD_none, arrived_eq_zero hle, he hle]

variable (hrounds : rounds < 2 ^ 64)
include hrounds

theorem next (hm : begun m = b) (hb : b < rounds) :
    Tracks entry rounds (update begun m (b + 1))
      (beginRound table b (entry b (arrived begun b + 1)) (arrived begun b + 1 = n)) where
  bound m' := by
    by_cases hm' : m' = m
    · rw [hm', update_self]
      exact hb
    · rw [update_of_ne hm']
      exact h.bound m'
  current l m₁ m₂ h₁ h₂ := by
    by_cases hl : l = b
    · subst hl
      rw [beginRound_self (by omega), arrived_begin hm.le (Nat.lt_add_one l)]
    · have hle : begun m₂ ≤ update begun m (b + 1) m₂ := by
        by_cases hm₂ : m₂ = m
        · rw [hm₂, update_self]
          omega
        · rw [update_of_ne hm₂]
      have h₁' : l < begun m₁ := by
        by_cases hm₁ : m₁ = m
        · rw [hm₁, update_self] at h₁
          rw [hm₁]
          omega
        · rwa [update_of_ne hm₁] at h₁
      have hlt := h₁'.trans_le (h.bound m₁)
      rw [beginRound_keeps hm (by omega) (by omega) hl h₂, h.current l m₁ m₂ h₁' (hle.trans h₂),
        arrived_update (by omega)]
  fresh l hl hnone := by
    have hle := hnone m
    rw [update_self] at hle
    rw [beginRound_keeps hm (by omega) (by omega) (by omega) ((hnone m).trans (Nat.le_succ l))]
    refine h.fresh l hl fun m' => ?_
    by_cases hm' : m' = m
    · rw [hm']
      omega
    · have := hnone m'
      rwa [update_of_ne hm'] at this

theorem write {entry' : Nat → Nat → E} {e : E} (hl : l < begun m) (hother : ∀ l', l' ≠ l → entry' l' = entry l')
    (he : e = entry' l (arrived begun l)) :
    Tracks entry' rounds begun (update table (.ofNat (l + 1)) (some e)) where
  bound := h.bound
  current l' m₁ m₂ h₁ h₂ := by
    by_cases hl' : l' = l
    · rw [hl', update_self, he]
    · have hkey := h.bound m
      have hkey' := h.bound m₁
      rw [update_of_ne fun he => hl' (Nat.succ_injective (ofNat_inj (by omega) (by omega) he)), hother l' hl',
        h.current l' m₁ m₂ h₁ h₂]
  fresh l' hl' hnone := by
    have hne := hnone m
    rw [update_of_ne fun he => by have := ofNat_inj (by omega) (by omega) he; omega]
    exact h.fresh l' hl' hnone

end Tracks

end Table

end Armfortas.Lib
