import Armfortas.Codegen.Emit
import Mathlib.Algebra.Order.Ring.Int
import Mathlib.Tactic.Tauto

/-! What the lines of immediate arithmetic compute. -/
namespace Armfortas.Codegen

open List Function

/-! ## Registers -/

@[simp] theorem XReg.xreg_operand (r : XReg) : r.operand.xreg = some r := by
  cases r with
  | x n => simp [XReg.operand, PhysReg.xreg]
  | sp => rfl

theorem XReg.operand_x_ne_sp (n : Fin 31) : (XReg.x n).operand ≠ .sp := by simp [XReg.operand]

@[simp] theorem XFile.read_operand (regs : XFile) (r : XReg) : regs.read r.operand = regs r := by
  simp [XFile.read]

@[simp] theorem XFile.write_operand (regs : XFile) (r : XReg) (v : BitVec 64) :
    regs.write r.operand v = update regs r v := by
  simp [XFile.write]

theorem XReg.operand_eq_sp {r : XReg} : (r.operand == .sp) = decide (r = .sp) := by
  cases r <;> simp [XReg.operand]

theorem gpOperandsAlias_operand (d b : XReg) : gpOperandsAlias d.operand b.operand = decide (d = b ∧ d ≠ .sp) := by
  cases d with
  | sp => cases b <;> rfl
  | x n =>
    cases b with
    | sp => rfl
    | x m =>
      rw [Bool.eq_iff_iff]
      simp [gpOperandsAlias, XReg.operand, PhysReg.gpIndex, Fin.ext_iff]

/-! ## Materialisation -/

theorem insert_bits (v s) :
    (BitVec.ofNat 64 (v % 2 ^ s) &&& ~~~ (0xFFFF#64 <<< s)) ||| (BitVec.ofNat 64 (v >>> s % 2 ^ 16) <<< s) =
      BitVec.ofNat 64 (v % 2 ^ (s + 16)) := by
  apply BitVec.eq_of_getLsbD_eq
  intro i hi
  simp only [BitVec.getLsbD_or, BitVec.getLsbD_and, BitVec.getLsbD_not, BitVec.getLsbD_shiftLeft, BitVec.getLsbD_ofNat,
    Nat.testBit_mod_two_pow, Nat.testBit_shiftRight, hi]
  by_cases hlow : i < s
  · simp [hlow, Nat.lt_add_right 16 hlow]
  · have hsplit : s + (i - s) = i := by omega
    have hones : Nat.testBit 65535 (i - s) = decide (i - s < 16) := Nat.testBit_two_pow_sub_one 16 (i - s)
    have hiff : decide (i < s + 16) = decide (i - s < 16) := decide_eq_decide.mpr (by omega)
    simp only [hlow, hsplit, hiff, hones, decide_false, Bool.false_and, Bool.and_false, Bool.false_or, Bool.not_false,
      Bool.true_and, decide_true]
    by_cases hin : i - s < 16
    · simp [hin, Nat.lt_trans hin (by decide : 16 < 64)]
    · simp [hin]

theorem mod_of_chunk_zero {v s} (h : v >>> s % 2 ^ 16 = 0) : v % 2 ^ (s + 16) = v % 2 ^ s := by
  rw [Nat.pow_add, Nat.mod_mul, ← Nat.shiftRight_eq_div_pow, h, Nat.mul_zero, Nat.add_zero]

/-- Before a part at `s` the register has the bits below, unless they are zero and nothing is written. -/
def HasPart (n : Fin 31) (v s : Nat) (wrote : Bool) (regs : XFile) : Prop :=
  if wrote then regs (.x n) = BitVec.ofNat 64 (v % 2 ^ s) else v % 2 ^ s = 0

theorem exec_part {n : Fin 31} {v s wrote regs} (h : HasPart n v s wrote regs) :
    AsmLine.exec regs (if wrote then .movk (XReg.x n).operand (v >>> s % 2 ^ 16) s
      else .movz (XReg.x n).operand (v >>> s % 2 ^ 16) s) =
      update regs (.x n) (BitVec.ofNat 64 (v % 2 ^ (s + 16))) := by
  have hbits := insert_bits v s
  cases wrote with
  | true =>
    have hreg : regs (.x n) = BitVec.ofNat 64 (v % 2 ^ s) := h
    rw [if_pos rfl, AsmLine.exec, XFile.read_operand, XFile.write_operand, hreg, hbits]
  | false =>
    have hzero : v % 2 ^ s = 0 := h
    rw [hzero, BitVec.zero_and, BitVec.zero_or] at hbits
    rw [if_neg Bool.false_ne_true, AsmLine.exec, XFile.write_operand, hbits]

theorem run_u64ImmParts (n : Fin 31) {v} (hv : v < 2 ^ 64) {k s} (hk : s + 16 * k = 64) {wrote regs}
    (h : HasPart n v s wrote regs) : AsmLine.run (u64ImmParts (XReg.x n).operand v wrote (List.range' s k 16)) regs =
    update regs (.x n) (BitVec.ofNat 64 v) := by
  induction k generalizing s wrote regs with
  | zero =>
    obtain rfl : s = 64 := hk
    rw [HasPart, Nat.mod_eq_of_lt hv] at h
    cases wrote with
    | true => exact (update_eq_self_iff.mpr h.symm).symm
    | false =>
      obtain rfl : v = 0 := h
      simp [u64ImmParts, AsmLine.run, AsmLine.exec]
  | succ k ih =>
    have hnext : s + 16 + 16 * k = 64 := by omega
    rw [range'_succ, u64ImmParts]
    split
    · next hchunk =>
      -- a part that is zero is there already
      refine ih hnext ?_
      rwa [HasPart, mod_of_chunk_zero hchunk]
    · rw [AsmLine.run, foldl_cons, exec_part h]
      refine (ih hnext ?_).trans (update_idem _ _ _)
      exact update_self _ _ _

theorem run_writeU64ImmInto (n : Fin 31) {v} (hv : v < 2 ^ 64) (regs) :
    AsmLine.run (writeU64ImmInto (XReg.x n).operand v) regs = update regs (.x n) (BitVec.ofNat 64 v) :=
  run_u64ImmParts n hv (k := 4) (s := 0) rfl (Nat.mod_one v)

theorem encodable_u64ImmParts (n : Fin 31) (v) {wrote shifts} (hshifts : ∀ s ∈ shifts, s ∈ [0, 16, 32, 48]) :
    ∀ l ∈ u64ImmParts (XReg.x n).operand v wrote shifts, l.encodable = true := by
  induction shifts generalizing wrote with
  | nil => cases wrote <;> simp [u64ImmParts, AsmLine.encodable, XReg.operand_x_ne_sp]
  | cons s shifts ih =>
    obtain ⟨hs, hrest⟩ := forall_mem_cons.mp hshifts
    rw [u64ImmParts]
    split
    · exact ih hrest
    · refine forall_mem_cons.mpr ⟨?_, ih hrest⟩
      have hlt : v >>> s % 2 ^ 16 < 2 ^ 16 := Nat.mod_lt _ (by decide)
      have hmem : [0, 16, 32, 48].contains s = true := contains_iff_mem.mpr hs
      cases wrote <;> simp only [Bool.false_eq_true, if_false, if_true, AsmLine.encodable, XReg.xreg_operand, hmem,
        Option.isSome_some, decide_eq_true hlt, bne_iff_ne.mpr (XReg.operand_x_ne_sp n), Bool.and_self]

/-! ## Chunks -/

theorem ImmOp.apply_apply (op : ImmOp) (a : BitVec 64) (m k) :
    op.apply (op.apply a (BitVec.ofNat 64 m)) (BitVec.ofNat 64 k) = op.apply a (BitVec.ofNat 64 (m + k)) := by
  rw [BitVec.ofNat_add]
  cases op with
  | add => exact BitVec.add_assoc _ _ _
  | sub => exact BitVec.sub_sub _ _ _

theorem chunk_le (remaining) : (min (remaining >>> 12) 4095) <<< 12 ≤ remaining := by
  rw [Nat.shiftRight_eq_div_pow, Nat.shiftLeft_eq]
  omega

theorem run_gpImmChunks (op d b regs remaining) (h : 0 < remaining ∨ d = b) :
    AsmLine.run (gpImmChunks op d.operand b.operand remaining) regs =
      update regs d (op.apply (regs b) (BitVec.ofNat 64 remaining)) := by
  induction remaining using Nat.strong_induction_on generalizing b regs with
  | _ remaining ih =>
    rw [gpImmChunks]
    dsimp only
    split
    · next hle =>
      have hchunk := chunk_le remaining
      have hlt : remaining - (min (remaining >>> 12) 4095) <<< 12 < remaining := by
        rw [Nat.shiftRight_eq_div_pow, Nat.shiftLeft_eq]
        omega
      refine (ih _ hlt d _ (.inr rfl)).trans ?_
      simp only [AsmLine.exec, XFile.read_operand, XFile.write_operand, if_true, update_self,
        ImmOp.apply_apply, update_idem]
      rw [Nat.add_sub_cancel' hchunk]
    · split
      · simp [AsmLine.run, AsmLine.exec]
      · next hzero =>
        obtain rfl : remaining = 0 := by omega
        obtain rfl := h.resolve_left (by omega)
        cases op <;> simp [AsmLine.run, ImmOp.apply]

theorem encodable_gpImmChunks (op) (d b : XReg) (remaining) :
    ∀ l ∈ gpImmChunks op d.operand b.operand remaining, l.encodable = true := by
  induction remaining using Nat.strong_induction_on generalizing b with
  | _ remaining ih =>
    rw [gpImmChunks]
    dsimp only
    split
    · refine forall_mem_cons.mpr ⟨?_, ih _ ?_ d⟩
      · simp [AsmLine.encodable]
      · rw [Nat.shiftRight_eq_div_pow, Nat.shiftLeft_eq]
        omega
    · split
      · next hlt _ =>
        have hlt' : remaining < 4096 := by omega
        simp [AsmLine.encodable, hlt']
      · simp

/-! ## The sign -/

theorem ImmOp.apply_natAbs (op : ImmOp) (a : BitVec 64) (n) :
    (if 0 ≤ n then op else op.inverse).apply a (BitVec.ofNat 64 n.natAbs) = op.apply a (BitVec.ofInt 64 n) := by
  by_cases hn : 0 ≤ n
  · obtain ⟨m, rfl⟩ := Int.eq_ofNat_of_zero_le hn
    simp
  · obtain ⟨m, rfl⟩ : ∃ m : Nat, n = -m := ⟨n.natAbs, by omega⟩
    rw [if_neg hn, Int.natAbs_neg, Int.natAbs_natCast, BitVec.ofInt_neg, BitVec.ofInt_natCast]
    cases op with
    | add => exact BitVec.sub_eq_add_neg _ _
    | sub => exact BitVec.sub_neg.symm

end Armfortas.Codegen
