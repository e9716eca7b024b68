import Armfortas.Codegen.Lemmas.Emit

/-! In each of the three shapes: one short line, a constant made in the destination, chunks of twelve bits. -/
namespace Armfortas.Codegen
open AsmLine XReg

theorem run_append (ls ls' : List AsmLine) (regs : XFile) :
    run (ls ++ ls') regs = run ls' (run ls regs) := List.foldl_append

theorem run_materialised (op : ImmOp) {n : Fin 31} {b : XReg} (hne : x n ≠ b) {m : Nat} (hm : m < 2 ^ 64)
    (regs : XFile) :
    run (writeU64ImmInto (x n).operand m ++
        [.arithReg op (x n).operand b.operand (x n).operand]) regs =
      Function.update regs (.x n) (op.apply (regs b) (BitVec.ofNat 64 m)) := by
  rw [run_append, run_writeU64ImmInto n hm]
  simp [run, exec, Function.update_of_ne hne.symm]

theorem encodable_materialised (op : ImmOp) (n : Fin 31) (b : XReg) (m : Nat) :
    ∀ l ∈ writeU64ImmInto (x n).operand m ++ [.arithReg op (x n).operand b.operand (x n).operand],
      l.encodable = true := by
  rw [List.forall_mem_append]
  refine ⟨encodable_u64ImmParts n m fun _ h => h, ?_⟩
  simp [encodable, operand_x_ne_sp]

theorem emitGpImm_run (op : ImmOp) (dest base : XReg) (n : Int) (regs : XFile) (hmin : -2 ^ 63 ≤ n) (hmax : n < 2 ^ 63)
    (hframe : dest = base ∨ dest = .sp → n.natAbs < 2 ^ 32) :
    ∃ lines, emitGpImm op dest.operand base.operand n = some lines ∧ (∀ l ∈ lines, l.encodable = true) ∧
      run lines regs = Function.update regs dest (op.apply (regs base) (BitVec.ofInt 64 n)) := by
  rw [emitGpImm, writeGpImmInto, gpOperandsAlias_operand, operand_eq_sp, ← op.apply_natAbs]
  generalize (if 0 ≤ n then op else op.inverse) = op
  by_cases hshort : n.natAbs ≤ 4095
  · rw [if_pos hshort]
    refine ⟨_, rfl, ?_, ?_⟩
    · have hlt : n.natAbs < 4096 := by omega
      simp [encodable, hlt]
    · simp [run, exec]
  · rw [if_neg hshort]
    by_cases hsame : dest = base ∨ dest = .sp
    · have hlt := hframe hsame
      rw [if_neg (by simp only [Bool.and_eq_true, Bool.not_eq_true', decide_eq_false_iff_not]; tauto), if_pos (by omega)]
      exact ⟨_, rfl, encodable_gpImmChunks op dest base _, run_gpImmChunks op dest base regs _ (.inl (by omega))⟩
    · obtain ⟨hbase, hsp⟩ := not_or.mp hsame
      rw [if_pos (by simp [hbase, hsp])]
      cases dest with
      | sp => exact absurd rfl hsp
      | x k => exact ⟨_, rfl, encodable_materialised op k base _, run_materialised op hbase (by omega) regs⟩

theorem emitGpImm_run_frame :
    (-2 ^ 63 ≤ (-70000 : Int) ∧ (-70000 : Int) < 2 ^ 63 ∧ (-70000 : Int).natAbs < 2 ^ 32) ∧
      ∃ lines, emitGpImm .sub sp.operand sp.operand (-70000) = some lines ∧
        (∀ l ∈ lines, l.encodable = true) ∧
        run lines (fun _ => 0) =
          Function.update (fun _ => 0) sp (ImmOp.apply .sub 0 (BitVec.ofInt 64 (-70000))) :=
  ⟨by decide, emitGpImm_run .sub .sp .sp (-70000) _ (by decide) (by decide) fun _ => by decide⟩

end Armfortas.Codegen
