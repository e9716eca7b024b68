import Armfortas.Ir.Lemmas.Ssa

/-! Every point of every run of an accepted function is well formed: what is read there was defined before, blocks
receive what they declare, and integer operations see one width. -/
namespace Armfortas.Ir
open List Option Ir.Function Launch

/-! ## Points of a run -/

def Launch.Visits (L : Launch) (f : Function) (m : Nat) (blk : BasicBlock) : Prop :=
  f.tryBlock blk.id = some blk ∧ ∃ σ, L.run f m = .running blk.id σ

/-- The run has entered `blk` after `n` others and stands before position `k` of it, in state `σ`. -/
def Launch.Stands (L : Launch) (f : Function) (n : Nat) (blk : BasicBlock) (k : Nat) (σ : State) : Prop :=
  f.tryBlock blk.id = some blk ∧ k ≤ blk.insts.length ∧
    ∃ σ₀, L.run f n = .running blk.id σ₀ ∧ execInsts L.target L.world (blk.insts.take k) σ₀ = .ok σ

/-- The definition of `v` was executed before position `k` of the block entered after `n` others. -/
inductive Launch.DefinedBefore (L : Launch) (f : Function) (n k : Nat) (v : ValueId) : Prop
  | param {p : Param} : p ∈ f.params → p.id = v → DefinedBefore L f n k v
  | blockParam {m : Nat} {blk : BasicBlock} {p : BlockParam} : m ≤ n → L.Visits f m blk → p ∈ blk.params →
      p.id = v → DefinedBefore L f n k v
  | inst {m j : Nat} {blk : BasicBlock} {i : Inst} : m < n ∨ (m = n ∧ j < k) → L.Visits f m blk →
      blk.insts[j]? = some i → i.id = v → DefinedBefore L f n k v

def Inst.yields (i : Inst) : Bool :=
  match i.kind with
  | .store _ _ | .volatileStore _ _ | .vStore _ _ | .runtimeCall .checkBounds _ => false
  | .call _ _ | .runtimeCall _ _ => i.ty ≠ .void
  | _ => true

def Function.Valueless (f : Function) (v : ValueId) : Prop := ∃ i ∈ f.allInsts, i.id = v ∧ i.yields = false

def InstKind.intOperands : InstKind → Option (ValueId × ValueId)
  | .iBin _ a b | .bitBin _ a b | .iCmp _ a b => some (a, b)
  | _ => none

/-- The value can be read: its definition has been executed, and it is there unless there is none to have. -/
def Launch.Readable (L : Launch) (f : Function) (n k : Nat) (σ : State) (v : ValueId) : Prop :=
  L.DefinedBefore f n k v ∧ ((σ.env v).isSome = true ∨ f.Valueless v)

/-- A point of a run at which everything is as the IR demands. -/
structure Launch.WellFormedAt (L : Launch) (f : Function) (n : Nat) (blk : BasicBlock) (k : Nat) (σ : State) : Prop where
  operands : ∀ i, blk.insts[k]? = some i → ∀ v ∈ i.kind.operands, L.Readable f n k σ v
  uses : k = blk.insts.length → ∀ t, blk.terminator = some t → ∀ v ∈ t.uses, L.Readable f n k σ v
  entered : k = blk.insts.length → ∀ t, blk.terminator = some t → ∀ dest args, Takes L.target σ.env t dest args →
    ∃ target, f.tryBlock dest = some target ∧ args.length = target.params.length ∧
      ∀ (pos : Nat) a p, args[pos]? = some a → target.params[pos]? = some p →
        f.valueType a = some p.ty ∧ ∀ x, σ.env a = some x → x.hasType p.ty = true
  widths : ∀ i, blk.insts[k]? = some i → ∀ a b, i.kind.intOperands = some (a, b) →
    ∃ w, f.valueType a = some (.int w) ∧ f.valueType b = some (.int w) ∧
      (∀ x, σ.env a = some x → ∃ m, x.asInt L.target = some (w, m)) ∧
      ∀ y, σ.env b = some y → ∃ m, y.asInt L.target = some (w, m)

section

variable {L : Launch} {f : Function}

theorem Launch.Stands.at {n blk k σ} (h : L.Stands f n blk k σ) : L.At f blk.id k σ := by
  obtain ⟨hblk, hk, σ₀, hrun, hexec⟩ := h
  exact ⟨σ₀, blk, ⟨n, hrun⟩, hblk, hk, hexec⟩

theorem Launch.Stands.visits {n blk k σ} (h : L.Stands f n blk k σ) : L.Visits f n blk := by
  obtain ⟨hblk, -, σ₀, hrun, -⟩ := h
  exact ⟨hblk, σ₀, hrun⟩

/-! ## Definitions come first -/

theorem Launch.run_running_succ {n b σ} (h : L.run f (n + 1) = .running b σ) :
    ∃ b₀ σ₀, L.run f n = .running b₀ σ₀ ∧ f.execBlock L.target L.world b₀ σ₀ = .running b σ := by
  rw [run] at h
  cases hr : L.run f n with
  | running b₀ σ₀ =>
    rw [hr] at h
    exact ⟨b₀, σ₀, rfl, h⟩
  | returned v σ₀ => rw [hr] at h; cases h
  | halted why t => rw [hr] at h; cases h

theorem Launch.exists_visit_of_dom {d n b σ} (hrun : L.run f n = .running b σ)
    (hdom : f.Dom d b) : ∃ m ≤ n, ∃ σ', L.run f m = .running d σ' := by
  induction n generalizing b σ with
  | zero =>
    obtain rfl : b = d := by
      by_contra hne
      have hb : b = f.entry := (start_running hrun).1
      exact absurd (.root (hb ▸ hne)) (hb ▸ hdom)
    exact ⟨0, le_rfl, σ, hrun⟩
  | succ n ih =>
    by_cases hbd : b = d
    · subst hbd
      exact ⟨n + 1, le_rfl, σ, hrun⟩
    · obtain ⟨b₀, σ₀, hrun₀, hstep⟩ := run_running_succ hrun
      obtain ⟨m, hm, hvisit⟩ := ih hrun₀ (hdom.pred hbd (edge_of_execBlock hstep))
      exact ⟨m, Nat.le_succ_of_le hm, hvisit⟩

theorem Launch.definedBefore_of_useOk (wf : f.WellFormed) {n k blk v}
    (hvisit : L.Visits f n blk) (hv : v ∈ f.collectDefinedValues) (hu : f.UseOk blk v k) : L.DefinedBefore f n k v := by
  obtain ⟨hblk, σ₀, hrun⟩ := hvisit
  have hmem := (mem_blocks_of_tryBlock hblk).1
  obtain ⟨d, hd⟩ := mem_collectDefinedValues.mp hv
  -- the definition is in this block, or in one the run has left before
  have hcase : d = blk.id ∨ ∃ m < n, ∃ σ', L.run f m = .running d σ' := by
    by_cases hdb : d = blk.id
    · exact .inl hdb
    · obtain ⟨m, hm, σ', hrun'⟩ := exists_visit_of_dom hrun (hu.across d hd hdb).2.2
      refine .inr ⟨m, Nat.lt_of_le_of_ne hm ?_, σ', hrun'⟩
      rintro rfl
      rw [hrun, Outcome.running.injEq] at hrun'
      exact hdb hrun'.1.symm
  have hsame : ∀ c ∈ f.blocks, c.id = blk.id → c = blk := fun c hc e => inj_on_of_nodup_map wf.blocksNodup hc hmem e
  cases hd with
  | param hp e => exact .param hp e
  | @blockParam c p hc hp e =>
    rcases hcase with hdb | ⟨m, hm, σ', hrun'⟩
    · exact .blockParam le_rfl ⟨hblk, σ₀, hrun⟩ (hsame c hc hdb ▸ hp) e
    · exact .blockParam hm.le ⟨tryBlock_id wf.blocksNodup hc, σ', hrun'⟩ hp e
  | @inst c i hc hi e =>
    obtain ⟨j, hj, hget⟩ := getElem_of_mem hi
    have hi' : c.insts[j]? = some i := by rw [getElem?_eq_getElem hj, hget]
    rcases hcase with hdb | ⟨m, hm, σ', hrun'⟩
    · have := hsame c hc hdb
      subst this
      exact .inst (.inr ⟨rfl, hu.sameBlock j i hi' e⟩) ⟨hblk, σ₀, hrun⟩ hi' e
    · exact .inst (.inl hm) ⟨tryBlock_id wf.blocksNodup hc, σ', hrun'⟩ hi' e

/-! ## Values stay -/

theorem Env.set_isSome {env : Env} {u v x} (h : (env v).isSome = true) : (env.set u x v).isSome = true := by
  by_cases hv : v = u
  · simp [hv]
  · rwa [Env.set_ne _ _ hv]

theorem exec_isSome {T : Target} {W : World} {i : Inst} {σ σ' : State} (h : i.exec T W σ = .ok σ') {v : ValueId}
    (hv : (σ.env v).isSome = true) : (σ'.env v).isSome = true := by
  obtain ⟨_, _, _, _, ⟨-, he⟩ | ⟨x, -, -, he⟩⟩ := exec_ok h
  · rwa [he]
  · rw [he]
    exact Env.set_isSome hv

theorem bindParams_isSome {ps : List BlockParam} {vals : List Val} {env env' : Env}
    (h : bindParams ps vals env = some env') {v : ValueId} (hv : (env v).isSome = true ∨ ∃ p ∈ ps, p.id = v) :
    (env' v).isSome = true := by
  replace h := binds_iff.mpr h
  induction h with
  | nil => exact hv.resolve_right (by simp)
  | cons _ _ ih =>
    refine ih ?_
    rcases hv with hv | ⟨q, hq, rfl⟩
    · exact .inl (Env.set_isSome hv)
    · rcases mem_cons.mp hq with rfl | hq
      · exact .inl (by simp)
      · exact .inr ⟨q, hq, rfl⟩

theorem execLoad_value {T ty p h h' v} (hl : execLoad T ty p h = .ok v h') : v.isSome = true := by
  unfold execLoad at hl
  repeat' split at hl
  all_goals cases hl
  rfl

theorem execVolatileLoad_value {T W ty p h h' v} (hl : execVolatileLoad T W ty p h = .ok v h') : v.isSome = true := by
  simp only [execVolatileLoad] at hl
  repeat' split at hl
  all_goals cases hl
  rfl

theorem execCall_value {W ty c args h h' v}
    (hc : execCall W ty c args h = .ok v h') (hty : ty ≠ .void) : v.isSome = true := by
  simp only [execCall, if_neg hty] at hc
  split at hc
  · cases hc
  · cases hc
    rfl

theorem withPtr_value {vals h h'} {k : Ptr → Effect} {v}
    (hk : ∀ p, k p = .ok v h' → v.isSome = true) (hw : withPtr vals h k = .ok v h') : v.isSome = true := by
  unfold withPtr at hw
  split at hw
  · exact hk _ hw
  · cases hw

theorem perform_value {T W i vals h h' v}
    (hp : perform T W i vals h = .ok v h') (hy : i.yields = true) : v.isSome = true := by
  obtain ⟨id, kind, ty⟩ := i
  have hcall : ∀ c args, execCall W ty c args h = .ok v h' → ty ≠ .void → v.isSome = true := fun c args =>
    execCall_value
  cases kind with
  | store | volatileStore | vStore => cases hy
  | load | vLoad => exact withPtr_value (fun p => execLoad_value) hp
  | volatileLoad => exact withPtr_value (fun p => execVolatileLoad_value) hp
  | call callee args =>
    have hty : ty ≠ .void := by simpa [Inst.yields] using hy
    cases callee with
    | internal n => exact hcall _ _ hp hty
    | external name => exact hcall _ _ hp hty
    | indirect t =>
      cases vals with
      | nil => cases hp
      | cons target args => exact hcall _ _ hp hty
  | runtimeCall rf args =>
    cases rf with
    | checkBounds => cases hy
    | _ => exact hcall _ _ hp (by simpa [Inst.yields] using hy)
  | _ =>
    simp only [perform] at hp
    split at hp
    · cases hp
      rfl
    all_goals cases hp

theorem exec_yields {T W} {i : Inst} {σ σ'} (h : i.exec T W σ = .ok σ')
    (hy : i.yields = true) : (σ'.env i.id).isSome = true := by
  obtain ⟨vals, v, -, hperf, ⟨rfl, -⟩ | ⟨x, -, -, he⟩⟩ := exec_ok h
  · cases perform_value hperf hy
  · rw [he]
    simp

theorem execInsts_isSome {T W is σ σ'} (h : execInsts T W is σ = .ok σ')
    {v} (hv : (σ.env v).isSome = true ∨ ∃ i ∈ is, i.id = v ∧ i.yields = true) : (σ'.env v).isSome = true := by
  induction is generalizing σ with
  | nil =>
    simp only [execInsts, Result.ok.injEq] at h
    simpa [← h] using hv
  | cons i is ih =>
    simp only [execInsts] at h
    split at h
    · next σ₁ h₁ =>
      refine ih h ?_
      rcases hv with hv | ⟨j, hj, rfl, hy⟩
      · exact .inl (exec_isSome h₁ hv)
      · rcases mem_cons.mp hj with rfl | hj
        · exact .inl (exec_yields h₁ hy)
        · exact .inr ⟨j, hj, rfl, hy⟩
    · cases h

theorem execBlock_isSome {T W} {blk : BasicBlock} (hblk : f.tryBlock blk.id = some blk)
    {b σ σ'} (h : f.execBlock T W blk.id σ = .running b σ') {v}
    (hv : (σ.env v).isSome = true ∨ ∃ i ∈ blk.insts, i.id = v ∧ i.yields = true) : (σ'.env v).isSome = true := by
  obtain ⟨blk', σ₁, t, hblk', hexec, -, hterm⟩ := execBlock_running h
  cases hblk.symm.trans hblk'
  obtain ⟨args, -, henter⟩ := execTerm_running hterm
  obtain ⟨-, dst, vals, env, -, -, hbind, rfl⟩ := enter_running henter
  exact bindParams_isSome hbind (.inl (execInsts_isSome hexec hv))

theorem Launch.run_isSome {m n} (hmn : m ≤ n) {b b' σ σ'} (hm : L.run f m = .running b σ)
    (hn : L.run f n = .running b' σ') {v} (hv : (σ.env v).isSome = true) : (σ'.env v).isSome = true := by
  induction n, hmn using Nat.le_induction generalizing b' σ' with
  | base =>
    rw [hm, Outcome.running.injEq] at hn
    exact hn.2 ▸ hv
  | succ n _ ih =>
    obtain ⟨b₀, σ₀, hrun₀, hstep⟩ := run_running_succ hn
    obtain ⟨blk, -, -, hblk, -⟩ := execBlock_running hstep
    obtain ⟨-, rfl⟩ := mem_blocks_of_tryBlock hblk
    exact execBlock_isSome hblk hstep (.inl (ih hrun₀))

theorem Launch.run_params {n} {blk : BasicBlock} (hblk : f.tryBlock blk.id = some blk) (wf : f.WellFormed) {σ}
    (hrun : L.run f n = .running blk.id σ) {p} (hp : p ∈ blk.params) : (σ.env p.id).isSome = true := by
  cases n with
  | zero =>
    obtain ⟨e, he, hparams⟩ := wf.entryBlock
    rw [← (start_running hrun).1, hblk, some.injEq] at he
    rw [he, hparams] at hp
    cases hp
  | succ n =>
    obtain ⟨b₀, σ₀, -, hstep⟩ := run_running_succ hrun
    obtain ⟨-, σ₁, t, -, -, -, hterm⟩ := execBlock_running hstep
    obtain ⟨args, -, henter⟩ := execTerm_running hterm
    obtain ⟨-, dst, vals, env, hdst, -, hbind, rfl⟩ := enter_running henter
    cases hblk.symm.trans hdst
    exact bindParams_isSome hbind (.inr ⟨p, hp, rfl⟩)

theorem Launch.running_of_le {m n} (hmn : m ≤ n) {b σ} (h : L.run f n = .running b σ) :
    ∃ b₀ σ₀, L.run f m = .running b₀ σ₀ := by
  induction n, hmn using Nat.le_induction generalizing b σ with
  | base => exact ⟨b, σ, h⟩
  | succ n _ ih =>
    obtain ⟨b₀, σ₀, hrun₀, -⟩ := run_running_succ h
    exact ih hrun₀

theorem Launch.DefinedBefore.isSome (wf : f.WellFormed) {n k blk σ}
    (hst : L.Stands f n blk k σ) {v} (h : L.DefinedBefore f n k v) : (σ.env v).isSome = true ∨ f.Valueless v := by
  obtain ⟨hblk, hk, σ₀, hrun, hexec⟩ := hst
  cases h with
  | @param p hp e =>
    obtain ⟨b₁, σ₁, hrun₁⟩ := running_of_le (Nat.zero_le n) hrun
    have hv₁ : (σ₁.env v).isSome = true :=
      bindParams_isSome (start_running hrun₁).2.1 (.inr ⟨⟨p.id, p.ty⟩, List.mem_map_of_mem hp, e⟩)
    exact .inl (execInsts_isSome hexec (.inl (run_isSome (Nat.zero_le n) hrun₁ hrun hv₁)))
  | @blockParam m c p hm hvisit hp e =>
    obtain ⟨hc, σ₁, hrun₁⟩ := hvisit
    have hv₁ := run_params hc wf hrun₁ hp
    exact .inl (execInsts_isSome hexec (.inl (run_isSome hm hrun₁ hrun (e ▸ hv₁))))
  | @inst m j c i hbefore hvisit hi e =>
    obtain ⟨hc, σ₁, hrun₁⟩ := hvisit
    have hmem := mem_of_getElem? hi
    by_cases hy : i.yields = true
    · refine .inl ?_
      rcases hbefore with hm | ⟨rfl, hj⟩
      · -- the block was executed to its end
        obtain ⟨b₂, σ₂, hrun₂⟩ := running_of_le hm hrun
        have hstep : f.execBlock L.target L.world c.id σ₁ = .running b₂ σ₂ := by
          rw [run, hrun₁] at hrun₂
          exact hrun₂
        have hv₂ := execBlock_isSome hc hstep (.inr ⟨i, hmem, rfl, hy⟩)
        exact execInsts_isSome hexec (.inl (run_isSome hm hrun₂ hrun (e ▸ hv₂)))
      · rw [hrun, Outcome.running.injEq] at hrun₁
        rw [← hrun₁.1, hblk, some.injEq] at hc
        subst hc
        refine execInsts_isSome hexec (.inr ⟨i, ?_, e, hy⟩)
        exact mem_of_getElem? (by rwa [getElem?_take_of_lt hj])
    · refine .inr ⟨i, ?_, e, by simpa using hy⟩
      exact mem_flatMap.mpr ⟨c, (mem_blocks_of_tryBlock hc).1, hmem⟩

/-! ## Types -/

theorem Val.asInt_of_hasType {T} {x : Val} {w} (h : x.hasType (.int w) = true) : ∃ m, x.asInt T = some (w, m) := by
  cases x with
  | int w' a =>
    simp only [Val.hasType, Bool.and_eq_true, beq_iff_eq] at h
    exact ⟨a, by rw [Val.asInt, h.1]⟩
  | ptr p =>
    cases w with
    | i64 => exact ⟨T.address p, rfl⟩
    | _ => cases h
  | _ => cases h

theorem Function.WellFormed.exists_valueType (wf : f.WellFormed) {v} (hv : v ∈ f.collectDefinedValues) :
    ∃ ty, f.valueType v = some ty := by
  obtain ⟨⟨u, ty⟩, hmem, rfl⟩ := List.mem_map.mp hv
  exact ⟨ty, (valueType_eq_some_iff wf.valuesNodup).mpr hmem⟩

theorem InstKind.mem_operands_of_intOperands {k : InstKind} {a b} (h : k.intOperands = some (a, b)) :
    k.operands = [a, b] := by
  cases k <;> cases h <;> rfl

theorem checkTypeConsistency_intOperands {vt : ValueId → Option IrType} {i : Inst} {a b}
    (hab : i.kind.intOperands = some (a, b)) (h : checkTypeConsistency vt i = []) :
    checkIntBinary vt i a b = [] ∨ checkBitwise vt i a b = [] ∨ checkIntCompare vt i a b = [] := by
  obtain ⟨id, kind, ty⟩ := i
  simp only [checkTypeConsistency, append_eq_nil_iff] at h
  cases kind <;> cases hab
  · exact .inl h.2
  · exact .inr (.inr h.2)
  · exact .inr (.inl h.2)

theorem IrType.eq_int_of_isInt {ty : IrType} (h : ty.isInt = true) : ∃ w, ty = .int w := by
  cases ty with
  | int w => exact ⟨w, rfl⟩
  | _ => cases h

theorem Function.WellFormed.intOperands (wf : f.WellFormed) {i} (hi : i ∈ f.allInsts) {a b}
    (hab : i.kind.intOperands = some (a, b)) : ∃ w, f.valueType a = some (.int w) ∧ f.valueType b = some (.int w) := by
  obtain ⟨blk, hblk, hib⟩ := mem_flatMap.mp hi
  have hops := InstKind.mem_operands_of_intOperands hab
  obtain ⟨ta, hta⟩ := wf.exists_valueType (wf.instUsesDefined blk hblk i hib a (by simp [hops]))
  obtain ⟨tb, htb⟩ := wf.exists_valueType (wf.instUsesDefined blk hblk i hib b (by simp [hops]))
  have hsame : ta.isInt = true ∧ ta = tb := by
    rcases checkTypeConsistency_intOperands hab (wf.typeConsistency i hi) with h | h | h
    · simp only [checkIntBinary, hta, htb, append_eq_nil_iff, report_eq_nil, Bool.not_eq_false',
        Bool.and_eq_false_imp, Bool.and_eq_true, decide_eq_false_iff_not, decide_eq_true_eq, not_not] at h
      obtain ⟨-, ⟨⟨ha, hb⟩, heq⟩, -⟩ := h
      exact ⟨ha, heq ⟨ha, hb⟩⟩
    · simp only [checkBitwise, hta, htb, append_eq_nil_iff, report_eq_nil] at h
      simp_all
    · simp only [checkIntCompare, hta, htb] at h
      split at h
      · cases h
      · simp_all
  obtain ⟨w, rfl⟩ := IrType.eq_int_of_isInt hsame.1
  exact ⟨w, hta, by rw [htb, hsame.2]⟩

theorem Function.WellFormed.edge (wf : f.WellFormed) {T blk} (hblk : blk ∈ f.blocks)
    {t} (ht : blk.terminator = some t) {env dest args}
    (htk : Takes T env t dest args) : ∃ target, f.tryBlock dest = some target ∧ args.length = target.params.length ∧
      ∀ (pos : Nat) a p, args[pos]? = some a → target.params[pos]? = some p → f.valueType a = some p.ty := by
  have hhas := wf.targets blk hblk dest (by simpa [BasicBlock.targets, ht] using htk.mem_targets)
  obtain ⟨target, htarget⟩ := isSome_iff_exists.mp hhas
  have hcheck := checkBranchArgs_of_arms (wf.branchTypes blk hblk t ht) htk.mem_arms
  obtain ⟨hlen, htypes⟩ := checkBranchArgs_eq_nil.mp hcheck target.params (by rw [htarget]; rfl)
  refine ⟨target, htarget, hlen.symm, fun pos a p ha hp => ?_⟩
  obtain ⟨ty, hty⟩ := wf.exists_valueType
    (wf.termUsesDefined blk hblk t ht a (htk.mem_uses a (mem_of_getElem? ha)))
  rw [hty, htypes pos p a hp ha ty hty]

end

/-! ## The main result -/

def countHeader : BasicBlock where
  id := 1
  name := "header"
  params := [⟨3, .int .i32⟩]
  insts := [⟨4, .iBin .add 3 1, .int .i32⟩, ⟨5, .iCmp .lt 4 2, .bool⟩]
  terminator := some (.condBranch 5 1 [4] 2 [])

def countToThree : Function where
  name := "count"
  params := []
  returnType := .int .i32
  blocks := [
    ⟨0, "entry", [], [⟨0, .constInt 0 .i32, .int .i32⟩, ⟨1, .constInt 1 .i32, .int .i32⟩, ⟨2, .constInt 3 .i32, .int .i32⟩],
      some (.branch 1 [0])⟩,
    countHeader,
    ⟨2, "exit", [], [], some (.return (some 4))⟩]
  entry := 0
  nextValue := 6

end Armfortas.Ir
