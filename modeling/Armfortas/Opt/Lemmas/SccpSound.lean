import Armfortas.Opt.Lemmas.SccpSolver
import Mathlib.Data.List.Find

/-! A value that is there is the one its lattice element allows, and every edge an execution takes is marked. -/
namespace Armfortas.Opt.Sccp
open Ir Lib List Option Function AssocMap ConstVal

variable {T : Target} {b : BasicBlock} {i : Inst}

def ConstVal.val (T : Target) : ConstVal → Val
  | .int v w => .int w (w.wrap v)
  | .float b w => .float w (T.floatConst b w % 2 ^ w.bits)
  | .bool b => .bool b

def Lattice.Models (T : Target) : Lattice → Val → Prop
  | .top, _ => False
  | .const c, x => x = c.val T
  | .bottom, _ => True

theorem Lattice.Models.mono {a b : Lattice} {x} (hle : a.Le b) (h : b.Models T x) : a.Models T x := by
  rcases hle with rfl | rfl | rfl
  · trivial
  · exact h.elim
  · exact h

def Sound (T : Target) (s : Solver) (env : Env) : Prop := ∀ v x, env v = some x → (s.lat v).Models T x

/-! ## Seeds -/

variable {f : Function} {s : Solver}

theorem isSome_get?_foldl_insert {α β : Type} [DecidableEq α] {γ : Type} (key : γ → α) (val : γ → β) (l : List γ) :
    ∀ (m : AssocMap α β) (k : α), (AssocMap.get? m k).isSome = true ∨ (∃ x ∈ l, key x = k) →
      (AssocMap.get? (l.foldl (fun m x => insert m (key x) (val x)) m) k).isSome = true := by
  induction l with
  | nil => exact fun m k h => h.elim id fun ⟨x, hx, _⟩ => by cases hx
  | cons x l ih =>
    intro m k h
    refine ih _ k ?_
    by_cases hk : key x = k
    · subst hk; exact .inl (by simp)
    · rcases h with h | ⟨y, hy, rfl⟩
      · exact .inl (by rwa [get?_insert_ne _ _ (Ne.symm hk)])
      · rcases mem_cons.mp hy with rfl | hy
        · exact absurd rfl hk
        · exact .inr ⟨y, hy, rfl⟩

theorem not_mem_allBlockParams_inst (wf : f.WellFormed) (hb : b ∈ f.blocks)
    (hi : i ∈ b.insts) : i.id ∉ allBlockParams f := by
  intro h
  obtain ⟨c, hc, hp⟩ := mem_flatMap.mp h
  obtain ⟨p, hp, hid⟩ := List.mem_map.mp hp
  exact inst_ne_blockParam wf.valuesNodup wf.blocksNodup hb hc hi hp hid.symm

theorem not_mem_allBlockParams_param (wf : f.WellFormed) {q} (hq : q ∈ f.params) : q.id ∉ allBlockParams f := by
  intro h
  obtain ⟨c, hc, hp⟩ := mem_flatMap.mp h
  exact param_ne_of_mem_block wf.valuesNodup hq hc (mem_append_left _ hp) rfl

theorem Solution.lat_inst (wf : f.WellFormed) (h : Solution f s) (hb : b ∈ f.blocks)
    (hi : i ∈ b.insts) : s.lat i.id = seedOf i := by
  have hall : i ∈ f.allInsts := mem_flatMap.mpr ⟨b, hb, hi⟩
  rw [h.seeds _ (not_mem_allBlockParams_inst wf hb hi), AssocMap.getD]
  have hsome : (AssocMap.get? (seedLattice f) i.id).isSome = true := by
    exact isSome_get?_foldl_insert (fun p : Param => p.id) (fun _ => Lattice.bottom) f.params _ i.id
      (.inl (isSome_get?_foldl_insert (fun i : Inst => i.id) seedOf f.allInsts _ i.id (.inr ⟨i, hall, rfl⟩)))
  obtain ⟨x, hx⟩ := isSome_iff_exists.mp hsome
  rw [hx, getD_some]
  rcases seedLattice_get? hx with ⟨p, hp, hid, -⟩ | ⟨j, hj, hid, rfl⟩
  · exact absurd hid (param_ne_of_mem_block wf.valuesNodup hp hb
      (mem_append_right _ (List.mem_map_of_mem hi)))
  · obtain ⟨c, hc, hjc⟩ := mem_flatMap.mp hj
    rw [(inst_block_unique wf.valuesNodup wf.blocksNodup hc hb hjc hi hid).2]

theorem Solution.lat_param (wf : f.WellFormed) (h : Solution f s) {p} (hp : p ∈ f.params) : s.lat p.id = .bottom := by
  rw [h.seeds _ (not_mem_allBlockParams_param wf hp), AssocMap.getD]
  have hsome : (AssocMap.get? (seedLattice f) p.id).isSome = true := by
    exact isSome_get?_foldl_insert (fun p : Param => p.id) (fun _ => Lattice.bottom) f.params _ p.id (.inr ⟨p, hp, rfl⟩)
  obtain ⟨x, hx⟩ := isSome_iff_exists.mp hsome
  rw [hx, getD_some]
  rcases seedLattice_get? hx with ⟨-, -, -, rfl⟩ | ⟨i, hi, hid, rfl⟩
  · rfl
  · obtain ⟨c, hc, hic⟩ := mem_flatMap.mp hi
    exact absurd hid.symm (param_ne_of_mem_block wf.valuesNodup hp hc
      (mem_append_right _ (List.mem_map_of_mem hic)))

/-! ## Instructions -/

theorem wrap_sext (v) (w : IntWidth) : w.wrap (sext v w.bits) = w.wrap v := by
  unfold sext IntWidth.wrap
  split
  · rfl
  · exact Int.bmod_bmod

theorem perform_const {W c} (h : fromInst i.kind = some c)
    (vals) (heap : Heap) : perform T W i vals heap = .ok (some (c.val T)) heap := by
  obtain ⟨id, kind, ty⟩ := i
  cases kind <;> simp only [fromInst, some.injEq, reduceCtorEq] at h <;> subst h
  · simp [perform, compute, val, wrap_sext]
  · simp [perform, compute, val]
  · simp [perform, compute, val]

theorem Sound.exec (wf : f.WellFormed) (h : Solution f s) {W}
    (hb : b ∈ f.blocks) (hi : i ∈ b.insts) {σ σ' : State} (hs : Sound T s σ.env)
    (hexec : i.exec T W σ = .ok σ') : Sound T s σ'.env := by
  obtain ⟨vals, v, -, hperf, ⟨-, he⟩ | ⟨x, rfl, -, he⟩⟩ := exec_ok hexec
  · rwa [he]
  · intro u y hy
    rw [he] at hy
    by_cases hu : u = i.id
    · subst hu
      rw [Env.set_self, some.injEq] at hy
      subst hy
      rw [h.lat_inst wf hb hi, seedOf]
      split
      · next c hc =>
        rw [perform_const hc, Effect.ok.injEq, some.injEq] at hperf
        exact hperf.1.symm
      · trivial
    · rw [Env.set_ne _ _ hu] at hy
      exact hs u y hy

/-! ## Edges -/

theorem switch_case_eq {cases : List (Int × BlockId)} {w : IntWidth} {sv} (hw : w ≠ .i128) (hsv : w.Fits sv)
    (hrep : ∀ c ∈ cases, w.Fits c.1) (c : Int × BlockId) (hc : c ∈ cases) :
    (sext c.1 w.bits == sv) = (c.1 == w.wrap sv) := by
  have hbits : ¬ 128 ≤ w.bits := by cases w <;> simp_all [IntWidth.bits]
  have hsext : sext c.1 w.bits = c.1 := by
    rw [sext, if_neg hbits]
    exact IntWidth.wrap_of_fits (hrep c hc)
  rw [hsext, IntWidth.wrap_of_fits hsv]

theorem find?_switch_case (wf : f.WellFormed) (h : Solution f s) (hb : b ∈ f.blocks)
    {sel : ValueId} {cases : List (Int × BlockId)} {default : BlockId}
    (ht : b.terminator = some (.switch sel cases default)) {env : Env} (hs : Sound T s env) (hty : f.TypedEnv env)
    {y : Val} (hy : env sel = some y) {sv : Int} {w : IntWidth} (hlat : s.lat sel = .const (.int sv w)) :
    y.asInt T = some (w, w.wrap sv) ∧
      cases.find? (fun c => c.1 == w.wrap sv) = cases.find? fun c => sext c.1 w.bits == sv := by
  have hm := hs _ _ hy
  rw [hlat] at hm
  change y = Val.int w (w.wrap sv) at hm
  subst hm
  refine ⟨rfl, ?_⟩
  -- the selector's type is an integer type other than `i128` that holds every case
  obtain ⟨ty, hvt, hhas⟩ := hty _ _ hy
  have hbt := wf.branchTypes b hb _ ht
  simp only [checkBranchTypes, append_eq_nil_iff, checkSelector, hvt] at hbt
  have htyw : ty = .int w := by
    cases ty <;> simp [Val.hasType] at hhas
    rw [hhas.1]
  subst htyw
  have hw : w ≠ .i128 := by
    rintro rfl
    simp [IrType.switchIntWidth] at hbt
  have hwidth : (IrType.int w).switchIntWidth = some w := by cases w <;> simp_all [IrType.switchIntWidth]
  have hrep : ∀ c ∈ cases, w.Fits c.1 := by
    intro c hc
    have hsel := hbt.1.1
    simp only [hwidth, isSome_some, if_true, flatMap_eq_nil_iff, report_eq_nil,
      Bool.not_eq_false', IrType.switchCaseIsRepresentable, decide_eq_true_eq] at hsel
    exact hsel c hc
  exact (List.find?_congr (switch_case_eq hw (h.normal _ _ hlat hw) hrep)).symm

theorem takes_liveArm (wf : f.WellFormed) (h : Solution f s) (hb : b ∈ f.blocks)
    {t} (ht : b.terminator = some t) {env} (hs : Sound T s env) (hty : f.TypedEnv env)
    {dest args} (htk : Takes T env t dest args) : ∃ arm ∈ liveArms f s b.id, (arm, ⟨dest, args⟩) ∈ armsOf t := by
  have hterm : (f.tryBlock b.id).bind (·.terminator) = some t := by
    rw [tryBlock_id wf.blocksNodup hb, bind_some, ht]
  unfold liveArms
  rw [hterm]
  cases htk with
  | branch => exact ⟨.branch, by simp, by simp [armsOf]⟩
  | condTrue _ _ _ _ hc =>
    have hm := hs _ _ hc
    refine ⟨.condTrue, ?_, by simp [armsOf]⟩
    dsimp only
    split <;> simp_all [Lattice.Models, val]
  | condFalse _ _ _ _ hc =>
    have hm := hs _ _ hc
    refine ⟨.condFalse, ?_, by simp [armsOf]⟩
    dsimp only
    split <;> simp_all [Lattice.Models, val]
  | @switch sel x cases default w hsel =>
    obtain ⟨y, hy, hint⟩ := bind_eq_some_iff.mp hsel
    have hm := hs _ _ hy
    have hdefault : (EdgeArm.switchDefault, (⟨default, []⟩ : EdgeData)) ∈ armsOf (.switch sel cases default) := by
      simp [armsOf]
    have hcase : ∀ (n : Nat) (c : Int × BlockId), cases[n]? = some c →
        (EdgeArm.switchCase n, (⟨c.2, []⟩ : EdgeData)) ∈ armsOf (.switch sel cases default) := by
      intro n c hc
      exact .tail _ (List.mem_map.mpr ⟨(c, n), mem_zipIdx_iff_getElem?.mpr hc, rfl⟩)
    -- without a constant every arm is live
    have hall : ∃ arm ∈ (List.range cases.length).map EdgeArm.switchCase ++ [.switchDefault],
        (arm, (⟨switchDest cases default x, []⟩ : EdgeData)) ∈ armsOf (.switch sel cases default) := by
      unfold switchDest
      split
      · next k d hf =>
        obtain ⟨n, hn, hget⟩ := getElem_of_mem (mem_of_find?_eq_some hf)
        exact ⟨.switchCase n, by simp [hn], hcase n (k, d) (by rw [getElem?_eq_getElem hn, hget])⟩
      · exact ⟨.switchDefault, by simp, hdefault⟩
    dsimp only
    split
    · next sv w' hlat =>
      obtain ⟨hsv, hcases⟩ := find?_switch_case wf h hb ht hs hty hy hlat
      rw [hsv, some.injEq, Prod.mk.injEq] at hint
      obtain ⟨rfl, rfl⟩ := hint
      unfold switchDest
      rw [hcases, find?_eq_findIdx?_bind]
      cases hidx : cases.findIdx? fun c => sext c.1 w'.bits == sv with
      | none => exact ⟨.switchDefault, by simp, hdefault⟩
      | some n =>
        obtain ⟨hn, -⟩ := findIdx?_eq_some_iff_getElem.mp hidx
        refine ⟨.switchCase n, by simp, ?_⟩
        rw [bind_some, getElem?_eq_getElem hn]
        exact hcase n _ (getElem?_eq_getElem hn)
    · exact hall
    · exact hall
    · next hlat => rw [hlat] at hm; exact hm.elim

/-! ## Executions -/

theorem Sound.enter (wf : f.WellFormed) {dst} (hdst : dst ∈ f.blocks) {vals}
    {args : List ValueId} {env env'} (hs : Sound T s env) (hvals : args.mapM env = some vals)
    (hbind : bindParams dst.params vals env = some env')
    (hparams : ∀ (k : Nat) (p : BlockParam) (a : ValueId), dst.params[k]? = some p → args[k]? = some a →
      a = p.id ∨ (s.lat p.id).Le (s.lat a)) : Sound T s env' := by
  have hnd := (nodup_append.mp (block_nodup wf.valuesNodup hdst)).1
  intro u x hx
  by_cases hu : ∃ p ∈ dst.params, u = p.id
  · obtain ⟨p, hp, rfl⟩ := hu
    obtain ⟨k, hk, hget⟩ := getElem_of_mem hp
    have hpk : dst.params[k]? = some p := by rw [getElem?_eq_getElem hk, hget]
    obtain ⟨v, hv, -, hbound⟩ := bindParams_env_getElem? hbind hnd hpk
    rw [hbound, some.injEq] at hx
    subst hx
    rw [getElem?_of_mapM hvals] at hv
    obtain ⟨a, ha, hva⟩ := bind_eq_some_iff.mp hv
    rcases hparams k p a hpk ha with rfl | hle
    · exact hs _ _ hva
    · exact (hs _ _ hva).mono hle
  · rw [bindParams_env_of_not_mem hbind fun p hp e => hu ⟨p, hp, e⟩] at hx
    exact hs u x hx

theorem Solution.enters (wf : f.WellFormed) (h : Solution f s) {L : Launch} {b σ}
    (hent : L.Enters f b σ) : b ∈ s.reachableBlocks ∧ Sound L.target s σ.env := by
  refine hent.induction (P := fun b σ => b ∈ s.reachableBlocks ∧ Sound L.target s σ.env) ?_ ?_
  · intro b σ hs
    obtain ⟨rfl, hbind, -⟩ := Launch.start_running hs
    refine ⟨h.entry, fun u x hx => ?_⟩
    by_cases hu : ∃ p ∈ f.params, u = p.id
    · obtain ⟨p, hp, rfl⟩ := hu
      rw [h.lat_param wf hp]
      trivial
    · rw [bindParams_env_of_not_mem hbind] at hx
      · cases hx
      · intro p hp e
        obtain ⟨q, hq, rfl⟩ := List.mem_map.mp hp
        exact hu ⟨q, hq, e⟩
  · intro b σ b' σ' hent ⟨hb, hs⟩ hstep
    obtain ⟨blk, σ₁, t, hblk, hexec, hterm, hrun⟩ := execBlock_running hstep
    obtain ⟨hmem, rfl⟩ := mem_blocks_of_tryBlock hblk
    have hs₁ : Sound L.target s σ₁.env ∧ f.TypedEnv σ₁.env :=
      execInsts_induction (P := fun σ => Sound L.target s σ.env ∧ f.TypedEnv σ.env) hexec
        ⟨hs, hent.typed wf.valuesNodup⟩ fun i hi σ σ' hσ he =>
          ⟨hσ.1.exec wf h hmem hi he, hσ.2.exec wf.valuesNodup hmem hi he⟩
    obtain ⟨args, htk, henter⟩ := execTerm_running hrun
    obtain ⟨-, dst, vals, env, hdst, hvals, hbind, rfl⟩ := enter_running henter
    obtain ⟨arm, hlive, harm⟩ := takes_liveArm wf h hmem hterm hs₁.1 hs₁.2 htk
    have hedge := edgeData_of_arm wf hmem hterm harm
    have hmarked := h.arms _ hb arm hlive _ hedge
    obtain ⟨d, hd, htarget⟩ := h.targets _ hmarked
    rw [hedge, some.injEq] at hd
    subst hd
    obtain ⟨hdmem, hdid⟩ := mem_blocks_of_tryBlock hdst
    exact ⟨htarget, hs₁.1.enter wf hdmem hvals hbind fun k p a hp ha =>
      h.params _ hmarked _ _ (.arg hedge hdmem hdid hp ha)⟩

theorem Solution.at (wf : f.WellFormed) (h : Solution f s) {L : Launch} {b k σ}
    (hat : L.At f b k σ) : Sound L.target s σ.env :=
  hat.of_enters (P := fun σ => Sound L.target s σ.env) (fun _ hent => (h.enters wf hent).2)
    fun _ hblk _ _ hi _ _ hs he => hs.exec wf h hblk hi he

end Armfortas.Opt.Sccp
