import Armfortas.Ir.Lemmas.Simulation
import Armfortas.Opt.Lemmas.SccpSound

/-! The rewritten function runs in step with the original. A rewritten parameter lives on under the number of the
constant put in its place. -/
namespace Armfortas.Opt.Sccp
open Ir Lib List Option Function AssocMap ConstVal

variable {r : Rewrite} {n : ValueId} {T : Target} {W : World} {b : BasicBlock}

/-! ## The list of rewrites -/

theorem numbered_map_fst (rs next) : (numbered next rs).map Prod.fst = rs := by
  induction rs generalizing next with
  | nil => rfl
  | cons r rs ih => simp [numbered, ih]

theorem numbered_map_snd (rs next) : (numbered next rs).map Prod.snd = List.range' next rs.length := by
  induction rs generalizing next with
  | nil => rfl
  | cons r rs ih => simp [numbered, ih, range'_succ]

variable {f : Function} {s : Solver}

abbrev rewritesOf (f : Function) (s : Solver) : List (Rewrite × ValueId) :=
  numbered f.nextValue (constParamRewrites f s.lattice)

/-- What a rewrite says is true: its parameter stands at its index and resolved to its constant. -/
structure RewriteOk (f : Function) (s : Solver) (r : Rewrite) : Prop where
  site : ∃ b ∈ f.blocks, b.id = r.block ∧ ∃ p, b.params[r.index]? = some p ∧ p.id = r.param ∧ p.ty = r.ty
  const : s.lat r.param = .const r.cval
  compatible : tyCompatible r.ty r.cval.irType = true

theorem mem_rewritesOf (h : (r, n) ∈ rewritesOf f s) : RewriteOk f s r ∧ f.nextValue ≤ n := by
  have hr : r ∈ constParamRewrites f s.lattice := by
    rw [← numbered_map_fst (constParamRewrites f s.lattice) f.nextValue]
    exact List.mem_map_of_mem (f := Prod.fst) h
  have hn : n ∈ List.range' f.nextValue (constParamRewrites f s.lattice).length := by
    rw [← numbered_map_snd]
    exact List.mem_map_of_mem (f := Prod.snd) h
  refine ⟨?_, (mem_range'_1.mp hn).1⟩
  rw [constParamRewrites, (perm_insertionSort _ _).mem_iff] at hr
  obtain ⟨b, hb, hr⟩ := mem_flatMap.mp hr
  obtain ⟨⟨p, k⟩, hp, hr⟩ := mem_filterMap.mp hr
  rw [mem_zipIdx_iff_getElem?] at hp
  dsimp only [constParam] at hr
  split at hr
  · next c hc =>
    split at hr
    · next hty =>
      simp only [some.injEq] at hr
      subst hr
      exact ⟨⟨b, hb, rfl, p, hp, rfl, rfl⟩, by simp [Solver.lat, AssocMap.getD, hc], hty⟩
    · cases hr
  · cases hr

theorem constParams_params_sublist (f ℓ) : ((constParams f ℓ).map (·.param)).Sublist (allBlockParams f) := by
  have hblock : ∀ b : BasicBlock,
      ((b.params.zipIdx.filterMap fun x => constParam ℓ b.id x.1 x.2).map (·.param)).Sublist (b.params.map (·.id)) := by
    intro b
    have hz : b.params.map (·.id) = b.params.zipIdx.map (fun x => x.1.id) := by
      conv_lhs => rw [← zipIdx_map_fst 0 b.params, List.map_map]
      rfl
    rw [hz]
    refine filterMap_map_sublist fun x r hr => ?_
    unfold constParam at hr
    split at hr
    · split at hr
      · cases hr
        rfl
      · cases hr
    · cases hr
  simp only [constParams, allBlockParams, map_flatMap]
  generalize f.blocks = bs
  induction bs with
  | nil => simp
  | cons b bs ih =>
    exact (hblock b).append ih

theorem rewritesOf_params_nodup (wf : f.WellFormed) : ((rewritesOf f s).map (·.1.param)).Nodup := by
  have h : ((constParamRewrites f s.lattice).map (·.param)).Nodup := by
    rw [constParamRewrites, ((perm_insertionSort _ _).map _).nodup_iff]
    exact (constParams_params_sublist f s.lattice).nodup (allBlockParams_nodup wf)
  rwa [← numbered_map_fst (constParamRewrites f s.lattice) f.nextValue, List.map_map] at h

theorem rewritesOf_numbers_nodup : ((rewritesOf f s).map Prod.snd).Nodup := by
  rw [numbered_map_snd]
  exact nodup_range'

/-! ## Renaming -/

theorem renameUse_of_mem (wf : f.WellFormed) (h : (r, n) ∈ rewritesOf f s) :
    renameUse (rewritesOf f s) r.param = n := by
  have hget : AssocMap.get? ((rewritesOf f s).map fun r => (r.1.param, r.2)).reverse r.param = some n := by
    rw [AssocMap.get?, AssocMap.lookup_eq_some_iff]
    · exact mem_reverse.mpr (List.mem_map.mpr ⟨(r, n), h, rfl⟩)
    · rw [map_reverse, nodup_reverse, List.map_map]
      exact rewritesOf_params_nodup wf
  rw [renameUse, hget]

theorem renameUse_cases (rs : List (Rewrite × ValueId)) (v) :
    (∃ r n, (r, n) ∈ rs ∧ r.param = v ∧ renameUse rs v = n) ∨ ((∀ x ∈ rs, x.1.param ≠ v) ∧ renameUse rs v = v) := by
  unfold renameUse
  cases hget : AssocMap.get? (rs.map fun r => (r.1.param, r.2)).reverse v with
  | some n =>
    have hmem := mem_of_get? hget
    rw [mem_reverse, List.mem_map] at hmem
    obtain ⟨⟨r, n'⟩, hr, heq⟩ := hmem
    simp only [Prod.mk.injEq] at heq
    exact .inl ⟨r, n', hr, heq.1, heq.2.symm⟩
  | none =>
    refine .inr ⟨fun x hx hv => ?_, rfl⟩
    have hnone : ∀ y ∈ (rs.map fun r => (r.1.param, r.2)).reverse, v ≠ y.1 := by
      simpa [AssocMap.get?, lookup_eq_none_iff] using hget
    exact hnone (x.1.param, x.2) (mem_reverse.mpr (List.mem_map.mpr ⟨x, hx, rfl⟩)) hv.symm

/-! ## The rewritten blocks -/

def own (rs : List (Rewrite × ValueId)) (b : BlockId) : List (Rewrite × ValueId) := rs.filter (·.1.block == b)

def constInst (r : Rewrite × ValueId) : Inst := { id := r.2, kind := r.1.cval.toInstKind, ty := r.1.ty }

def dropped (rs : List (Rewrite × ValueId)) (b : BlockId) : Nat → Bool :=
  fun i => decide (i ∈ (own rs b).map (·.1.index))

theorem foldl_materialize (rs : List (Rewrite × ValueId)) (b) : rs.foldl materialize b = { b with
      insts := ((own rs b.id).map constInst).reverse ++ b.insts
      params := ((own rs b.id).map (·.1.index)).foldl List.eraseIdx b.params } := by
  induction rs generalizing b with
  | nil => simp [own]
  | cons r rs ih =>
    rw [foldl_cons, ih]
    by_cases h : r.1.block = b.id
    · simp [materialize, own, h, constInst]
    · simp [materialize, own, h]

theorem own_index_pairwise (wf : f.WellFormed) (b) : ((own (rewritesOf f s) b).map (·.1.index)).Pairwise (· > ·) := by
  have hsorted : (rewritesOf f s).Pairwise fun x y => y.1.index ≤ x.1.index := by
    have h := pairwise_insertionSort (fun x y : Rewrite => y.index ≤ x.index) (constParams f s.lattice)
    rw [← constParamRewrites, ← numbered_map_fst (constParamRewrites f s.lattice) f.nextValue, pairwise_map] at h
    exact h
  have hparams : (rewritesOf f s).Pairwise fun x y => x.1.param ≠ y.1.param :=
    pairwise_map.mp (rewritesOf_params_nodup wf)
  rw [pairwise_map]
  have hboth := (hsorted.and hparams).filter (p := fun x => x.1.block == b)
  refine List.Pairwise.imp_of_mem (fun {x y} hx hy h => ?_) hboth
  obtain ⟨hx, hxb⟩ := mem_filter.mp hx
  obtain ⟨hy, hyb⟩ := mem_filter.mp hy
  refine Nat.lt_of_le_of_ne h.1 fun e => h.2 ?_
  -- two parameters at one index of one block are one parameter
  obtain ⟨bx, hbx, hbxid, px, hpx, hpxid, -⟩ := (mem_rewritesOf hx).1.site
  obtain ⟨by', hby, hbyid, py, hpy, hpyid, -⟩ := (mem_rewritesOf hy).1.site
  have hblk : bx = by' := inj_on_of_nodup_map wf.blocksNodup hbx hby
    (by rw [hbxid, hbyid, eq_of_beq hxb, eq_of_beq hyb])
  subst hblk
  rw [e, hpx, some.injEq] at hpy
  rw [← hpxid, ← hpyid, hpy]

theorem params_foldl_eraseIdx (wf : f.WellFormed) (b) {α : Type} (l : List α) :
    ((own (rewritesOf f s) b).map (·.1.index)).foldl List.eraseIdx l = dropIdx (dropped (rewritesOf f s) b) l :=
  foldl_eraseIdx_eq_dropIdx _ (own_index_pairwise wf b) l

theorem removeRewrittenArgs_eq (wf : f.WellFormed) (dest args) :
    removeRewrittenArgs (rewritesOf f s) dest args = dropIdx (dropped (rewritesOf f s) dest) args := by
  have hperm : (removedParamIndices (rewritesOf f s) dest).Perm ((own (rewritesOf f s) dest).map (·.1.index)) :=
    perm_insertionSort _ _
  have hsorted : (removedParamIndices (rewritesOf f s) dest).Pairwise (· > ·) := by
    have h1 := pairwise_insertionSort (fun x y : Nat => x ≥ y) ((own (rewritesOf f s) dest).map (·.1.index))
    have h2 : (removedParamIndices (rewritesOf f s) dest).Nodup :=
      hperm.nodup_iff.mpr ((own_index_pairwise wf dest).imp fun h => Nat.ne_of_gt h)
    exact (List.Pairwise.and h1 h2).imp fun h => Nat.lt_of_le_of_ne h.1 (Ne.symm h.2)
  rw [removeRewrittenArgs, foldl_eraseIdx_eq_dropIdx _ hsorted]
  exact dropIdx_congr (fun i => by simp only [dropped, hperm.mem_iff]) args

@[simp] theorem constInst_mapOperands (r : ValueId → ValueId) (x : Rewrite × ValueId) :
    (constInst x).mapOperands r = constInst x := by
  obtain ⟨⟨b, i, p, c, ty⟩, n⟩ := x
  cases c <;> rfl

def rewriteBlock (rs : List (Rewrite × ValueId)) (b : BasicBlock) : BasicBlock :=
  { b with
    params := dropIdx (dropped rs b.id) b.params
    insts := ((own rs b.id).map constInst).reverse ++ b.insts.map (·.mapOperands (renameUse rs))
    terminator := b.terminator.map fun t => dropArgs rs (t.mapOperands (renameUse rs)) }

theorem rewriteParams_blocks (wf : f.WellFormed) :
    (rewriteParams f (rewritesOf f s)).blocks = f.blocks.map (rewriteBlock (rewritesOf f s)) := by
  refine map_congr_left fun b _ => ?_
  simp only [foldl_materialize, BasicBlock.mapOperands, rewriteBlock, params_foldl_eraseIdx wf,
    map_append, map_reverse, List.map_map, Option.map_map]
  congr 3
  exact map_congr_left fun x _ => constInst_mapOperands _ x

theorem rewriteParams_nil (f) : rewriteParams f [] = f := by
  have hrename : renameUse [] = fun v => v := rfl
  have hargs : dropArgs [] = id := by
    funext t
    cases t <;> simp [dropArgs, removeRewrittenArgs, removedParamIndices]
  have hblocks : (rewriteParams f []).blocks = f.blocks := by
    conv_rhs => rw [← List.map_id f.blocks]
    refine map_congr_left fun b _ => ?_
    simp [BasicBlock.mapOperands, hrename, Inst.mapOperands, hargs]
  calc rewriteParams f [] = { f with blocks := (rewriteParams f []).blocks } := rfl
    _ = f := by rw [hblocks]

/-! ## The rewritten function -/

def folded (f : Function) (s : Solver) : Function := foldTerminators (rewriteParams f (rewritesOf f s))

theorem apply_eq (f) (s : Solver) : (apply f s.lattice).1 = (folded f s).pruneUnreachable := by
  have hif : (if (rewritesOf f s).isEmpty then f else rewriteParams f (rewritesOf f s)) =
      rewriteParams f (rewritesOf f s) := by
    split
    · next h => rw [List.isEmpty_iff.mp h, rewriteParams_nil]
    · rfl
  simp only [apply, hif]
  rfl

abbrev consts (f : Function) (s : Solver) : AssocMap ValueId ConstVal := constMap (rewriteParams f (rewritesOf f s))

def foldBlock (f : Function) (s : Solver) (b : BasicBlock) : BasicBlock :=
  let b := rewriteBlock (rewritesOf f s) b
  { b with terminator := b.terminator.map (foldTerminator (consts f s)) }

theorem folded_tryBlock (wf : f.WellFormed) (b) : (folded f s).tryBlock b = (f.tryBlock b).map (foldBlock f s) := by
  have hblocks : (folded f s).blocks = f.blocks.map (foldBlock f s) := by
    simp only [folded, foldTerminators, rewriteParams_blocks wf, List.map_map]
    rfl
  have h := tryBlock_map (f := f) (g := foldBlock f s) (fun _ => rfl) b
  rw [← h]
  simp only [tryBlock, hblocks]

theorem fromInst_mapOperands (r : ValueId → ValueId) (k : InstKind) : fromInst (k.mapOperands r) = fromInst k := by
  cases k with
  | call callee args => cases callee <;> rfl
  | _ => rfl

theorem consts_get? (hv : f.Verified) (h : Solution f s) {v} (hdef : v ∈ f.collectDefinedValues)
    {c} (hget : AssocMap.get? (consts f s) (renameUse (rewritesOf f s) v) = some c) : s.lat v = .const c := by
  have wf := hv.wellFormed
  have hmem := mem_of_get? hget
  rw [consts, constMap, mem_reverse, mem_filterMap] at hmem
  obtain ⟨i, hi, hc⟩ := hmem
  rw [allInsts, rewriteParams_blocks wf] at hi
  obtain ⟨b', hb', hi⟩ := mem_flatMap.mp hi
  obtain ⟨b, hb, rfl⟩ := List.mem_map.mp hb'
  obtain ⟨c', hc', heq⟩ := map_eq_some_iff.mp hc
  simp only [Prod.mk.injEq] at heq
  obtain ⟨hid, rfl⟩ := heq
  -- old instructions have old numbers, new ones new numbers
  rcases mem_append.mp hi with hi | hi
  · obtain ⟨⟨r, n⟩, hr, rfl⟩ := List.mem_map.mp (mem_reverse.mp hi)
    obtain ⟨hr, -⟩ := mem_filter.mp hr
    obtain ⟨hok, hn⟩ := mem_rewritesOf hr
    change n = renameUse (rewritesOf f s) v at hid
    rcases renameUse_cases (rewritesOf f s) v with ⟨r', n', hr', rfl, hren⟩ | ⟨-, hren⟩
    · have hsame : r' = r := by
        have hinj := inj_on_of_nodup_map rewritesOf_numbers_nodup hr' hr (hren.symm.trans hid.symm)
        exact congrArg Prod.fst hinj
      subst hsame
      rw [hok.const]
      congr 1
      have hnorm := h.normal _ _ hok.const
      change fromInst r'.cval.toInstKind = some c' at hc'
      cases hcv : r'.cval with
      | int x w =>
        rw [hcv] at hc' hnorm
        simp only [toInstKind, fromInst, some.injEq] at hc'
        rw [← hc']
        by_cases hw : w = .i128
        · subst hw; rfl
        · have hbits : ¬ 128 ≤ w.bits := by cases w <;> simp_all [IntWidth.bits]
          rw [sext, if_neg hbits]
          exact congrArg (int · w) (IntWidth.wrap_of_fits (hnorm hw)).symm
      | float x w => rw [hcv] at hc'; simpa [toInstKind, fromInst] using hc'
      | bool x => rw [hcv] at hc'; simpa [toInstKind, fromInst] using hc'
    · exact absurd ((hid.trans hren) ▸ hn : f.nextValue ≤ v) (Nat.not_le.mpr (hv.fresh v hdef))
  · obtain ⟨j, hj, rfl⟩ := List.mem_map.mp hi
    have hjdef : j.id ∈ f.collectDefinedValues := mem_collectDefinedValues.mpr ⟨_, .inst hb hj rfl⟩
    have hjlt := hv.fresh _ hjdef
    change j.id = renameUse (rewritesOf f s) v at hid
    rcases renameUse_cases (rewritesOf f s) v with ⟨r', n', hr', -, hren⟩ | ⟨-, hren⟩
    · exact absurd ((hid.trans hren) ▸ (mem_rewritesOf hr').2 : f.nextValue ≤ j.id) (Nat.not_le.mpr hjlt)
    · have hjv : j.id = v := hid.trans hren
      have hconst : fromInst j.kind = some c' := (fromInst_mapOperands _ j.kind).symm.trans hc'
      rw [← hjv, h.lat_inst wf hb hj, seedOf, hconst]

/-! ## Simulation -/

theorem hasType_val {ty} {c : ConstVal} (h : tyCompatible ty c.irType = true) : (c.val T).hasType ty = true := by
  cases c with
  | int v w =>
    cases ty <;> simp [tyCompatible, irType] at h
    simp [val, Val.hasType, h, IntWidth.fits_wrap]
  | float b w =>
    cases ty <;> simp [tyCompatible, irType] at h
    simp [val, Val.hasType, h, Nat.mod_lt]
  | bool b => cases ty <;> simp [tyCompatible, irType] at h; rfl

theorem constInst_exec (h : tyCompatible r.ty r.cval.irType = true) (σ) :
    (constInst (r, n)).exec T W σ = .ok { σ with env := σ.env.set n (r.cval.val T) } := by
  have hperf : perform T W (constInst (r, n)) [] σ.toHeap = .ok (some (r.cval.val T)) σ.toHeap := by
    cases hc : r.cval <;> simp [constInst, hc, toInstKind, perform, compute, val]
  have hops : (constInst (r, n)).kind.operands = [] := by
    cases hc : r.cval <;> simp [constInst, hc, toInstKind, InstKind.operands]
  simp only [Inst.exec, hops, mapM_nil, Option.pure_def, hperf, Effect.bind]
  rw [if_pos (by simpa [constInst] using hasType_val h)]
  rfl

theorem execInsts_consts (rs : List (Rewrite × ValueId))
    (hty : ∀ x ∈ rs, tyCompatible x.1.ty x.1.cval.irType = true) (hnd : (rs.map Prod.snd).Nodup) : ∀ σ : State,
    ∃ σ', execInsts T W (rs.map constInst) σ = .ok σ' ∧ σ'.toHeap = σ.toHeap ∧
      (∀ u, u ∉ rs.map Prod.snd → σ'.env u = σ.env u) ∧ ∀ x ∈ rs, σ'.env x.2 = some (x.1.cval.val T) := by
  induction rs with
  | nil => exact fun σ => ⟨σ, rfl, rfl, fun _ _ => rfl, by simp⟩
  | cons x rs ih =>
    intro σ
    obtain ⟨r, n⟩ := x
    rw [map_cons, nodup_cons] at hnd
    obtain ⟨σ', hexec, hheap, hkeep, hset⟩ := ih (fun y hy => hty y (.tail _ hy)) hnd.2
      { σ with env := σ.env.set n (r.cval.val T) }
    refine ⟨σ', ?_, hheap, fun u hu => ?_, fun y hy => ?_⟩
    · simp only [map_cons, execInsts, constInst_exec (hty (r, n) mem_cons_self)]
      exact hexec
    · simp only [map_cons, mem_cons, not_or] at hu
      exact (hkeep u hu.2).trans (Env.set_ne _ _ hu.1)
    · rcases mem_cons.mp hy with rfl | hy
      · exact (hkeep _ hnd.1).trans (Env.set_self _ _ _)
      · exact hset y hy

/-- The values on entry to block `b`: the parameters just rewritten have no value yet in the new function. -/
def EntryRel (f : Function) (s : Solver) (b : BlockId) (env env' : Env) : Prop :=
  ∀ v x, env v = some x → (∃ r ∈ own (rewritesOf f s) b, r.1.param = v) ∨
    env' (renameUse (rewritesOf f s) v) = some x

/-! ## Terminators -/

theorem foldTerminator_takes (hv : f.Verified) (h : Solution f s)
    (hb : b ∈ f.blocks) {t} (ht : b.terminator = some t) {env env'} (hs : Sound T s env)
    (hty : f.TypedEnv env) (hren : Renames (renameUse (rewritesOf f s)) env env') {dest args} (htk : Takes T env t dest args) :
    Takes T env' (foldTerminator (consts f s) (dropArgs (rewritesOf f s) (t.mapOperands (renameUse (rewritesOf f s)))))
      dest (dropIdx (dropped (rewritesOf f s) dest) (args.map (renameUse (rewritesOf f s)))) := by
  have wf := hv.wellFormed
  -- a constant found for a use is the one its lattice element says
  have hconst : ∀ v x c, env v = some x →
      AssocMap.get? (consts f s) (renameUse (rewritesOf f s) v) = some c → s.lat v = .const c := by
    intro v x c hx hc
    obtain ⟨ty, hvt, -⟩ := hty v x hx
    exact consts_get? hv h (List.mem_map_of_mem (mem_of_get? hvt)) hc
  cases htk with
  | branch =>
    simp only [Terminator.mapOperands, dropArgs, foldTerminator, removeRewrittenArgs_eq wf]
    exact .branch _ _
  | condTrue t targs e eargs hc =>
    simp only [Terminator.mapOperands, dropArgs, foldTerminator, removeRewrittenArgs_eq wf]
    split
    · exact .branch _ _
    · next hget =>
      have hm := hs _ _ hc
      rw [hconst _ _ _ hc hget] at hm
      cases hm
    · exact .condTrue _ _ _ _ (hren _ _ trivial hc)
  | condFalse t targs e eargs hc =>
    simp only [Terminator.mapOperands, dropArgs, foldTerminator, removeRewrittenArgs_eq wf]
    split
    · next hget =>
      have hm := hs _ _ hc
      rw [hconst _ _ _ hc hget] at hm
      cases hm
    · exact .branch _ _
    · exact .condFalse _ _ _ _ (hren _ _ trivial hc)
  | @switch sel x cases default w hsel =>
    obtain ⟨y, hy, hint⟩ := bind_eq_some_iff.mp hsel
    simp only [Terminator.mapOperands, dropArgs, foldTerminator, map_nil, dropIdx]
    split
    · next sv w' hget =>
      obtain ⟨hsv, hcases⟩ := find?_switch_case wf h hb ht hs hty hy (hconst _ _ _ hy hget)
      rw [hsv, some.injEq, Prod.mk.injEq] at hint
      obtain ⟨rfl, rfl⟩ := hint
      rw [switchDest, hcases]
      cases hfind : cases.find? fun c => sext c.1 w'.bits == sv with
      | none => exact .branch _ _
      | some c => exact .branch _ _
    · exact .switch _ _ w (by rw [hren _ _ trivial hy]; exact hint)

/-! ## Blocks -/

theorem TypedEnv.fresh (hv : f.Verified) {env} (hty : f.TypedEnv env) {v x}
    (hx : env v = some x) : v < f.nextValue := by
  obtain ⟨ty, hvt, -⟩ := hty v x hx
  exact hv.fresh v (List.mem_map_of_mem (mem_of_get? hvt))

theorem renameUse_inst (wf : f.WellFormed) (hb : b ∈ f.blocks) {i} (hi : i ∈ b.insts) :
    renameUse (rewritesOf f s) i.id = i.id := by
  rcases renameUse_cases (rewritesOf f s) i.id with ⟨r, n, hr, hparam, -⟩ | ⟨-, hn⟩
  · obtain ⟨c, hc, -, p, hp, hpid, -⟩ := (mem_rewritesOf hr).1.site
    refine absurd (mem_flatMap.mpr ⟨c, hc, List.mem_map.mpr ⟨p, mem_of_getElem? hp, ?_⟩⟩)
      (not_mem_allBlockParams_inst wf hb hi)
    rw [hpid, hparam]
  · exact hn

theorem eq_of_renameUse_old {u v} (hlt : v < f.nextValue) (h : renameUse (rewritesOf f s) u = v) : u = v := by
  rcases renameUse_cases (rewritesOf f s) u with ⟨r, n, hr, -, hn⟩ | ⟨-, hn⟩
  · exact absurd ((hn.symm.trans h) ▸ (mem_rewritesOf hr).2) (Nat.not_le.mpr hlt)
  · exact hn.symm.trans h

theorem mem_own {x b} : x ∈ own (rewritesOf f s) b ↔ x ∈ rewritesOf f s ∧ x.1.block = b := by
  simp [own]

theorem EntryRel.renames (hv : f.Verified) {b env env' env₁} (hs : Sound T s env)
    (hty : f.TypedEnv env) (hrel : EntryRel f s b env env')
    (hkeep : ∀ u, u ∉ (own (rewritesOf f s) b).map Prod.snd → env₁ u = env' u)
    (hset : ∀ x ∈ own (rewritesOf f s) b, env₁ x.2 = some (x.1.cval.val T)) :
    Renames (renameUse (rewritesOf f s)) env env₁ := by
  intro v x _ hx
  by_cases hown : ∃ r ∈ own (rewritesOf f s) b, r.1.param = v
  · obtain ⟨⟨r, n⟩, hr, rfl⟩ := hown
    have hr' := (mem_own.mp hr).1
    have hm := hs _ _ hx
    rw [(mem_rewritesOf hr').1.const] at hm
    rw [renameUse_of_mem hv.wellFormed hr', hset _ hr, hm]
  · rw [hkeep, (hrel v x hx).resolve_left hown]
    intro hmem
    obtain ⟨y, hy, hyn⟩ := List.mem_map.mp hmem
    have hy' := (mem_own.mp hy).1
    rcases renameUse_cases (rewritesOf f s) v with ⟨r, n, hr, rfl, hn⟩ | ⟨-, hn⟩
    · have hsame := inj_on_of_nodup_map rewritesOf_numbers_nodup hy' hr (hyn.trans hn)
      exact hown ⟨y, hy, by rw [hsame]⟩
    · exact absurd ((hyn.trans hn) ▸ (mem_rewritesOf hy').2) (Nat.not_le.mpr (TypedEnv.fresh hv hty hx))

/-- The constants at the front of a block give the rewritten parameters their new names. -/
theorem execInsts_rewriteBlock (hv : f.Verified)
    (hb : b ∈ f.blocks) {σ σ' : State} (hs : Sound T s σ.env) (hty : f.TypedEnv σ.env)
    (hrel : EntryRel f s b.id σ.env σ'.env) (hheap : σ.toHeap = σ'.toHeap) :
    Result.Sim (Renames (renameUse (rewritesOf f s))) (execInsts T W b.insts σ)
      (execInsts T W (rewriteBlock (rewritesOf f s) b).insts σ') := by
  have wf := hv.wellFormed
  have hnd : ((own (rewritesOf f s) b.id).reverse.map Prod.snd).Nodup := by
    rw [map_reverse, nodup_reverse]
    exact (filter_sublist.map Prod.snd).nodup rewritesOf_numbers_nodup
  obtain ⟨σ₁, hexec, hheap₁, hkeep, hset⟩ := execInsts_consts (T := T) (W := W) (own (rewritesOf f s) b.id).reverse
    (fun x hx => (mem_rewritesOf (mem_own.mp (mem_reverse.mp hx)).1).1.compatible) hnd σ'
  have hren : Renames (renameUse (rewritesOf f s)) σ.env σ₁.env :=
    hrel.renames hv hs hty (fun u hu => hkeep u (by simpa using hu)) (fun x hx => hset x (mem_reverse.mpr hx))
  have hsplit : (rewriteBlock (rewritesOf f s) b).insts =
      (own (rewritesOf f s) b.id).reverse.map constInst ++ b.insts.map (·.mapOperands (renameUse (rewritesOf f s))) := by
    rw [rewriteBlock, map_reverse]
  rw [hsplit, execInsts_append, hexec]
  refine execInsts_renames b.insts (fun _ _ _ _ => trivial) (fun i hi => renameUse_inst wf hb hi) (fun i hi u _ hu => ?_) hren
    (hheap.trans hheap₁.symm)
  exact eq_of_renameUse_old (hv.fresh _ (mem_collectDefinedValues.mpr ⟨_, .inst hb hi rfl⟩)) hu

theorem enter_entryRel (hv : f.Verified) {dst} (hdst : dst ∈ f.blocks) {vals env env' env₁}
    (hren : Renames (renameUse (rewritesOf f s)) env env')
    (hbind : bindParams dst.params vals env = some env₁) :
    ∃ env₁', bindParams (dropIdx (dropped (rewritesOf f s) dst.id) dst.params)
        (dropIdx (dropped (rewritesOf f s) dst.id) vals) env' = some env₁' ∧ EntryRel f s dst.id env₁ env₁' := by
  have wf := hv.wellFormed
  obtain ⟨env₁', hbind', hagree⟩ := bindParams_dropIdx (P := dropped (rewritesOf f s) dst.id) hbind env'
  refine ⟨env₁', hbind', fun v x hx => ?_⟩
  by_cases hown : ∃ r ∈ own (rewritesOf f s) dst.id, r.1.param = v
  · exact .inl hown
  · refine .inr ?_
    rcases renameUse_cases (rewritesOf f s) v with ⟨r, n, hr, rfl, hn⟩ | ⟨hno, hn⟩
    · -- a parameter of another block keeps its name, which no block binds
      have hother : r.block ≠ dst.id := fun e => hown ⟨(r, n), mem_own.mpr ⟨hr, e⟩, rfl⟩
      obtain ⟨c, hc, hcid, p, hp, hpid, -⟩ := (mem_rewritesOf hr).1.site
      rw [hn, bindParams_env_of_not_mem hbind', ← hn]
      · refine hren _ _ trivial ?_
        rwa [bindParams_env_of_not_mem hbind] at hx
        intro q hq e
        exact hother (hcid ▸ (Function.DefIn.blockParam hc (mem_of_getElem? hp) hpid).unique wf.valuesNodup
          (.blockParam hdst hq e.symm))
      · intro q hq e
        have hlt := hv.fresh q.id (mem_collectDefinedValues.mpr
          ⟨_, .blockParam hdst (mem_of_getElem? (mem_dropIdx.mp hq).choose_spec.2) rfl⟩)
        exact absurd (e ▸ (mem_rewritesOf hr).2) (Nat.not_le.mpr hlt)
    · rw [hn]
      refine hagree v (fun k p hp hk e => ?_) (fun y hy => ?_) x hx
      · simp only [dropped, decide_eq_true_eq, List.mem_map] at hk
        obtain ⟨y, hown', rfl⟩ := hk
        obtain ⟨hy, hblk⟩ := mem_own.mp hown'
        obtain ⟨c, hc, hcid, p', hp', hpid', -⟩ := (mem_rewritesOf hy).1.site
        have hcd : c = dst := inj_on_of_nodup_map wf.blocksNodup hc hdst (hcid.trans hblk)
        subst hcd
        rw [hp, some.injEq] at hp'
        subst hp'
        exact hno y hy (hpid'.symm.trans e)
      · have := hren v y trivial hy
        rwa [hn] at this

/-! ## Runs -/

theorem folded_edge (wf : f.WellFormed) (hb : b ∈ f.blocks) {t} (ht : b.terminator = some t) {env dest args}
    (htk : Takes T env (foldTerminator (consts f s)
      (dropArgs (rewritesOf f s) (t.mapOperands (renameUse (rewritesOf f s))))) dest args) :
    (folded f s).Edge b.id dest := by
  have hblk : (folded f s).tryBlock b.id = some (foldBlock f s b) := by
    rw [folded_tryBlock wf, tryBlock_id wf.blocksNodup hb, map_some]
  simp only [Function.Edge, successors, hblk, BasicBlock.targets, foldBlock, rewriteBlock, ht]
  exact htk.mem_targets

def Related (f : Function) (s : Solver) (b : BlockId) (env env' : Env) : Prop :=
  EntryRel f s b env env' ∧ b ∈ (folded f s).reachableBlocks

theorem execBlock_related (hv : f.Verified) (h : Solution f s) {b} {σ σ' : State}
    (hs : Sound T s σ.env) (hty : f.TypedEnv σ.env) (hheap : σ.toHeap = σ'.toHeap) (hrel : Related f s b σ.env σ'.env) :
    Outcome.Sim (Related f s) (f.execBlock T W b σ) ((folded f s).pruneUnreachable.execBlock T W b σ') := by
  have wf := hv.wellFormed
  cases hblk : f.tryBlock b with
  | none =>
    simp only [execBlock, hblk]
    exact .stuck
  | some blk =>
    obtain ⟨hmem, rfl⟩ := mem_blocks_of_tryBlock hblk
    obtain ⟨t, ht⟩ := isSome_iff_exists.mp (wf.terminated blk hmem)
    have hblk' : (folded f s).pruneUnreachable.tryBlock blk.id = some (foldBlock f s blk) := by
      rw [tryBlock_pruneUnreachable _ hrel.2, folded_tryBlock wf, hblk, map_some]
    have ht' : (foldBlock f s blk).terminator = some (foldTerminator (consts f s)
        (dropArgs (rewritesOf f s) (t.mapOperands (renameUse (rewritesOf f s))))) := by
      simp [foldBlock, rewriteBlock, ht]
    refine execBlock_sim hblk hblk' ht ht' (execInsts_rewriteBlock hv hmem hs hty hrel.1 hheap) ?_
    intro σ₁ σ₁' hexec _ hheap₁ hren
    have hinv : Sound T s σ₁.env ∧ f.TypedEnv σ₁.env :=
      execInsts_induction (P := fun σ => Sound T s σ.env ∧ f.TypedEnv σ.env) hexec ⟨hs, hty⟩
        fun i hi σ σ' hσ he => ⟨hσ.1.exec wf h hmem hi he, hσ.2.exec wf.valuesNodup hmem hi he⟩
    refine execTerm_sim hheap₁ hren (fun _ _ => trivial) ?_ ?_ ?_
    · rintro v rfl
      cases v <;> rfl
    · rintro rfl
      rfl
    · intro dest args htk
      have htk' := foldTerminator_takes hv h hmem ht hinv.1 hinv.2 hren htk
      have hreach : dest ∈ (folded f s).reachableBlocks :=
        reachableBlocks_closed hrel.2 (folded_edge wf hmem ht htk')
      rw [htk'.execTerm]
      refine enter_sim hheap₁ fun dst vals env hdst hvals hbind => ?_
      obtain ⟨hdmem, rfl⟩ := mem_blocks_of_tryBlock hdst
      obtain ⟨env', hbind', hentry⟩ := enter_entryRel hv hdmem hren hbind
      refine ⟨foldBlock f s dst, _, env', ?_, mapM_dropIdx (hren.mapM (fun _ _ => trivial) hvals) fun _ _ _ _ _ h => h, hbind',
        hentry, hreach⟩
      rw [tryBlock_pruneUnreachable _ hreach, folded_tryBlock wf, hdst, map_some]

theorem start_related (hv : f.Verified) (L : Launch) :
    Outcome.Sim (Related f s) (L.start f) (L.start (folded f s).pruneUnreachable) := by
  refine .refl (o := L.start f) fun b σ hst => ?_
  obtain ⟨rfl, hbind, -⟩ := Launch.start_running hst
  refine ⟨fun v x hx => .inr ?_, entry_mem_reachableBlocks (folded f s)⟩
  -- only parameters have values yet, and no block parameter is one of them
  rcases renameUse_cases (rewritesOf f s) v with ⟨r, n, hr, rfl, -⟩ | ⟨-, hn⟩
  · obtain ⟨c, hc, -, p, hp, hpid, -⟩ := (mem_rewritesOf hr).1.site
    rw [bindParams_env_of_not_mem hbind] at hx
    · cases hx
    · intro q hq e
      obtain ⟨q, hq', rfl⟩ := List.mem_map.mp hq
      refine not_mem_allBlockParams_param hv.wellFormed hq' ?_
      exact mem_flatMap.mpr ⟨c, hc, List.mem_map.mpr ⟨p, mem_of_getElem? hp, hpid.trans e⟩⟩
  · rwa [hn]

theorem run_agrees (hv : f.Verified) (h : Solution f s) (L : Launch) (n) :
    (L.run f n).Agrees (L.run (apply f s.lattice).1 n) := by
  have wf := hv.wellFormed
  rw [apply_eq]
  refine Outcome.Sim.agrees (Launch.run_rel (start_related hv L) (fun b σ σ' hent _ hrel => ?_) n)
  exact execBlock_related hv h (h.enters wf hent).2 (hent.typed wf.valuesNodup) hrel.1 hrel.2

end Armfortas.Opt.Sccp
