import Mathlib.Tactic.Ring

/-! Little-endian bytes. -/
namespace Armfortas.Lib

def natBytes : Nat → Nat → List (BitVec 8)
  | 0, _ => []
  | k + 1, n => BitVec.ofNat 8 n :: natBytes k (n / 256)

def bytesNat : List (BitVec 8) → Nat
  | [] => 0
  | b :: bs => b.toNat + 256 * bytesNat bs

@[simp] theorem length_natBytes (k n : Nat) : (natBytes k n).length = k := by
  induction k generalizing n with
  | zero => rfl
  | succ k ih => simp [natBytes, ih]

theorem bytesNat_natBytes (k n : Nat) : bytesNat (natBytes k n) = n % 256 ^ k := by
  induction k generalizing n with
  | zero => simp [natBytes, bytesNat, Nat.mod_one]
  | succ k ih =>
    have hsplit : n % (256 * 256 ^ k) = n % 256 + 256 * (n / 256 % 256 ^ k) := Nat.mod_mul
    rw [natBytes, bytesNat, ih, BitVec.toNat_ofNat, Nat.pow_succ 256 k, Nat.mul_comm (256 ^ k) 256, hsplit]

end Armfortas.Lib
