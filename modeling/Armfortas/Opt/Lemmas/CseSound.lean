import Armfortas.Opt.Lemmas.Cse
import Mathlib.Data.List.Find

/-! Both modules run in step. At every point the original's value of whatever may be used there is the value its new
name has afterwards; what a block computed so far under a key still has that key's value. -/
namespace Armfortas.Opt.Cse
open Lib Ir List Option BasicBlock Function

variable {f : Function} {rewrites : RewriteMap} {passed : List ValueId} {T : Target} {W : World} {kf : Nat} {call : Caller}

/-! ## The rewritten function -/

def keeps (rewrites : RewriteMap) (v : ValueId) : Bool := (rewrites.get? v).isNone

def renamed (rewrites : RewriteMap) (v : ValueId) : ValueId := rewrites.getD v v

abbrev eliminated (f : Function) (rewrites : RewriteMap) : Function := f.thin (keeps rewrites) (renamed rewrites)

section Thin

theorem cseFunction_eq_thin (barrier f) :
    cseFunction barrier f = eliminated f (rewriteMap barrier f) := by
  unfold cseFunction
  dsimp only
  split
  · next hempty =>
    have hnil : rewriteMap barrier f = [] := List.isEmpty_iff.mp hempty
    rw [hnil]
    exact (Function.thin_id f (fun v => rfl) (fun v => rfl)).symm
  · simp only [substituteUsesBatch, Function.mapOperands, Function.thin, List.map_map]
    congr 1
    refine map_congr_left fun b _ => ?_
    simp only [Function.comp_apply, dropRewritten, BasicBlock.mapOperands, BasicBlock.thin, List.filter_map]
    rfl

theorem renamed_of_keeps {v} (h : keeps rewrites v = true) : renamed rewrites v = v := by
  rw [keeps, isNone_iff_eq_none] at h
  simp [renamed, AssocMap.getD, h]

theorem renamed_cases (rewrites v) : (keeps rewrites v = true ∧ renamed rewrites v = v) ∨
      rewrites.get? v = some (renamed rewrites v) := by
  cases h : rewrites.get? v with
  | none => exact .inl ⟨by simp [keeps, h], by simp [renamed, AssocMap.getD, h]⟩
  | some w => exact .inr (by simp [renamed, AssocMap.getD, h])

theorem Repeats.useOk (wf : f.WellFormed) {b c} (hb : b ∈ f.blocks) (hc : c ∈ f.blocks)
    {v first} (h : Repeats b v first) {n} (hu : f.UseOk c v n) : f.UseOk c first n := by
  obtain ⟨m, j, i, i', k, hmj, hi, hi', rfl, rfl, -, -⟩ := h
  have hmem := mem_of_getElem? hi
  refine ⟨fun l x hx hid => ?_, fun d hd hne => ?_⟩
  · obtain ⟨rfl, rfl⟩ := inst_block_unique wf.valuesNodup wf.blocksNodup hc hb (mem_of_getElem? hx) hmem hid
    obtain rfl := inst_pos_unique wf.valuesNodup hc hx hi rfl
    exact hmj.trans (hu.sameBlock j i' hi' rfl)
  · obtain rfl := hd.unique wf.valuesNodup (.inst hb hmem rfl)
    exact hu.across b.id (.inst hb (mem_of_getElem? hi') rfl) hne

section

variable (hs : Sound f passed rewrites) (wf : f.WellFormed)
include hs wf

theorem Sound.useOk {c} (hc : c ∈ f.blocks)
    {v n} (hu : f.UseOk c v n) : f.UseOk c (renamed rewrites v) n := by
  rcases renamed_cases rewrites v with ⟨-, hr⟩ | hv
  · rwa [hr]
  · obtain ⟨b, hb, hrep⟩ := hs.repeats v _ hv
    exact hrep.useOk wf hb hc hu

theorem Sound.thins {v} (hv : v ∈ f.collectDefinedValues) :
    f.Thins (keeps rewrites) (renamed rewrites) v := by
  have huse : ∀ c ∈ f.blocks, ∀ n, f.UseOk c v n → f.UseOk c (renamed rewrites v) n :=
    fun c hc n hu => hs.useOk wf hc hu
  rcases renamed_cases rewrites v with ⟨hk, hr⟩ | hg
  · rw [hr] at huse
    exact ⟨by rwa [hr], fun _ _ _ => by rwa [hr], by rw [hr], by rwa [hr]⟩
  · obtain ⟨b, hb, m, j, i, i', k, hmj, hi, hi', hid, hid', hk, hk'⟩ := hs.repeats v _ hg
    have hmem := mem_of_getElem? hi
    have hmem' := mem_of_getElem? hi'
    refine ⟨?_, fun _ _ _ => ?_, ?_, huse⟩
    · exact mem_collectDefinedValues.mpr ⟨b.id, .inst hb hmem hid⟩
    · simp [keeps, hs.kept v _ hg]
    · rw [← hid, ← hid', valueType_inst wf.valuesNodup hb hmem,
        valueType_inst wf.valuesNodup hb hmem', ← (keyOf_keyed hk).ty, ← (keyOf_keyed hk').ty]

theorem Sound.keeps_unkeyed {i} (hi : i ∈ f.allInsts)
    (hk : keyOf i = none) : keeps rewrites i.id = true := by
  rcases renamed_cases rewrites i.id with ⟨hkeep, -⟩ | hg
  · exact hkeep
  · obtain ⟨c, hc, m, j, x, y, k, -, -, hy, -, hid, -, hky⟩ := hs.repeats _ _ hg
    obtain ⟨b, hb, hib⟩ := mem_flatMap.mp hi
    obtain ⟨-, rfl⟩ := inst_block_unique wf.valuesNodup wf.blocksNodup hc hb (mem_of_getElem? hy) hib hid
    rw [hk] at hky
    cases hky

end

end Thin

/-! ## What a block has computed -/

section Keys

variable {b : BasicBlock} {n : Nat}

theorem Key.eval_congr {k : Key} {env env'} (h : ∀ v ∈ k.operands, env v = env' v) :
    k.eval T W env = k.eval T W env' := by
  rw [Key.eval, Key.eval, mapM_congr h]

def KeysHold (T : Target) (W : World) (b : BasicBlock) (n : Nat) (env : Env) : Prop :=
  ∀ (m : Nat) i k, m < n → b.insts[m]? = some i → keyOf i = some k → (swapsFloats i.kind = true → FloatsCommute T) →
    ∃ x, env i.id = some x ∧ k.eval T W env = .value x ∧ x.hasType i.ty = true

theorem KeysHold.step (wf : f.WellFormed) (hb : b ∈ f.blocks) {i} (hi : b.insts[n]? = some i)
    {σ τ : State} (h : KeysHold T W b n σ.env)
    (hexec : i.execIn T W kf call σ = .ok (.ok τ)) : KeysHold T W b (n + 1) τ.env := by
  have hops : ∀ (m : Nat) j k, m ≤ n → b.insts[m]? = some j → keyOf j = some k → ∀ v ∈ k.operands, v ≠ i.id := by
    intro m j k hm hj hk v hv hvi
    have := (wf.instUses b hb m j hj v ((keyOf_keyed hk).operands v hv)).sameBlock n i hi hvi.symm
    omega
  have heval : ∀ (m : Nat) j k, m ≤ n → b.insts[m]? = some j → keyOf j = some k →
      k.eval T W τ.env = k.eval T W σ.env := fun m j k hm hj hk =>
    Key.eval_congr fun v hv => execIn_env_ne hexec (hops m j k hm hj hk v hv)
  intro m j k hm hj hk hfloat
  rcases Nat.lt_or_ge m n with hlt | hge
  · obtain ⟨x, hx, hkx, hty⟩ := h m j k hlt hj hk hfloat
    have hji : j.id ≠ i.id := fun hid => absurd (inst_pos_unique wf.valuesNodup hb hj hi hid) (by omega)
    exact ⟨x, by rw [execIn_env_ne hexec hji, hx], by rw [heval m j k (by omega) hj hk, hkx], hty⟩
  · obtain rfl : m = n := by omega
    obtain rfl : i = j := some.inj (hi.symm.trans hj)
    rw [heval m i k (le_refl m) hj hk]
    obtain ⟨vals, v, hvals, hp, hbind⟩ := execIn_ok hexec
    rw [(keyOf_keyed hk).performs] at hp
    cases hc : compute T W i vals with
    | trap => rw [hc] at hp; cases hp
    | stuck => rw [hc] at hp; cases hp
    | value x =>
      rw [hc] at hp
      obtain ⟨rfl, -⟩ : v = some x ∧ _ := by simpa [Computed.effect, eq_comm] using hp
      rcases hbind with ⟨hno, -⟩ | ⟨y, hy, hty, henv⟩
      · cases hno
      · cases hy
        refine ⟨x, by rw [henv, Env.set_self], ?_, hty⟩
        rcases keyOf_eval (T := T) (W := W) hk hvals hfloat with he | ⟨y, hy, hno⟩
        · rw [← he, hc]
        · rw [hc] at hy
          cases hy
          rw [hty] at hno
          cases hno

end Keys

/-! ## Instructions in step -/

/-- What the relation of values speaks of at position `n` of block `b`: values that may be used there, and
values that no elimination touches. -/
def Avail (f : Function) (b : BasicBlock) (n : Nat) (v : ValueId) : Prop :=
  f.UseOk b v n ∨ ∃ i ∈ f.allInsts, i.id = v ∧ keyOf i = none

structure InStep (T : Target) (W : World) (f : Function) (rewrites : RewriteMap) (b : BasicBlock) (n : Nat)
    (σ σ' : State) : Prop where
  heap : σ'.toHeap = σ.toHeap
  env : RenamesOn (Avail f b n) (renamed rewrites) σ.env σ'.env
  keys : KeysHold T W b n σ.env

/-- Floating-point sums, products and equalities commute on the target, if any of them is dropped. -/
def CommutesWhereDropped (T : Target) (f : Function) (rewrites : RewriteMap) : Prop :=
  ∀ i ∈ f.allInsts, keeps rewrites i.id = false → swapsFloats i.kind = true → FloatsCommute T

def replaced (rewrites : RewriteMap) (i : Inst) : Option Inst :=
  if keeps rewrites i.id then some (i.mapOperands (renamed rewrites)) else none

section Step

variable {X : Excuse} {b : BasicBlock} {call' : Caller} {n : Nat}
  {i : Inst} {σ σ' : State}

theorem insts_thin_eq (b : BasicBlock) :
    (b.thin (keeps rewrites) (renamed rewrites)).insts = b.insts.filterMap (replaced rewrites) := by
  simp only [BasicBlock.thin, ← filterMap_eq_map, ← filterMap_eq_filter, filterMap_filterMap]
  congr 1
  funext i
  by_cases h : keeps rewrites i.id = true <;> simp [replaced, h, Option.guard]

theorem Avail.pred (hi : b.insts[n]? = some i) {v} (h : Avail f b (n + 1) v) (hne : v ≠ i.id) : Avail f b n v := by
  refine h.imp_left fun hu => ⟨fun l x hx hid => ?_, hu.across⟩
  have hlt := hu.sameBlock l x hx hid
  have hln : l ≠ n := by
    rintro rfl
    obtain rfl : i = x := some.inj (hi.symm.trans hx)
    exact hne hid.symm
  omega

variable (hs : Sound f passed rewrites) (wf : f.WellFormed) (hb : b ∈ f.blocks)
include hs wf hb

section

variable (hi : b.insts[n]? = some i)
include hi

theorem Sound.renamed_ne {v} (h : Avail f b n v) : renamed rewrites v ≠ i.id ∨ v = i.id := by
  by_cases hv : v = i.id
  · exact .inr hv
  · left
    intro hr
    rcases h with hu | ⟨x, hx, rfl, hk⟩
    · exact absurd ((hs.useOk wf hb hu).sameBlock n i hi hr.symm) (Nat.lt_irrefl n)
    · rw [renamed_of_keeps (hs.keeps_unkeyed wf hx hk)] at hr
      exact hv hr

theorem InStep.set (hkeep : keeps rewrites i.id = true) (h : InStep T W f rewrites b n σ σ') (x) :
    RenamesOn (Avail f b (n + 1)) (renamed rewrites) (σ.env.set i.id x) (σ'.env.set i.id x) := by
  intro v y hv hy
  by_cases hvi : v = i.id
  · subst hvi
    rw [renamed_of_keeps hkeep, Env.set_self]
    rwa [Env.set_self] at hy
  · have hv' := hv.pred hi hvi
    rw [Env.set_ne _ _ hvi] at hy
    rw [Env.set_ne _ _ ((hs.renamed_ne wf hb hi hv').resolve_right hvi)]
    exact h.env v y hv' hy

theorem InStep.kept
    (hX : X (some .stuck)) (hcall : ∀ ty c args h, Fuelled.Follows X (call ty c args h) (call' ty c args h))
    (hkeep : keeps rewrites i.id = true) (h : InStep T W f rewrites b n σ σ') :
    Result.Follows X (InStep T W f rewrites b (n + 1)) (i.execIn T W kf call σ)
      ((i.mapOperands (renamed rewrites)).execIn T W kf call' σ') := by
  have hid : (i.mapOperands (renamed rewrites)).id = i.id := rfl
  refine (execIn_follows (Q := RenamesOn (Avail f b (n + 1)) (renamed rewrites)) hX hid rfl (fun vals hvals => ?_)
    (fun vals heap hp => ?_) (fun x => h.set hs wf hb hi hkeep x)).mono fun τ τ' hr => ?_
  · refine ⟨vals, ?_, ?_⟩
    · have := h.env.mapM (fun v hv => .inl (wf.instUses b hb n i hi v hv)) hvals
      simpa [Inst.mapOperands] using this
    · rw [h.heap]
      exact performIn_mapOperands hcall _ i vals _
  · -- without a value the instruction has no key, so its name was available before
    have hk : keyOf i = none := by
      cases hk : keyOf i with
      | none => rfl
      | some k =>
        rw [(keyOf_keyed hk).performs] at hp
        cases hc : compute T W i vals <;> rw [hc] at hp <;> simp [Computed.effect] at hp
    intro v y hv hy
    refine h.env v y ?_ hy
    by_cases hvi : v = i.id
    · exact .inr ⟨i, mem_flatMap.mpr ⟨b, hb, mem_of_getElem? hi⟩, hvi.symm, hk⟩
    · exact hv.pred hi hvi
  · exact ⟨hr.1, hr.2.1, h.keys.step wf hb hi hr.2.2⟩

theorem InStep.dropped (hX : X (some .stuck)) (hfloat : swapsFloats i.kind = true → FloatsCommute T)
    (hkeep : keeps rewrites i.id = false) (h : InStep T W f rewrites b n σ σ') :
    Result.Follows X (InStep T W f rewrites b (n + 1)) (i.execIn T W kf call σ) (.ok (.ok σ')) := by
  rcases renamed_cases rewrites i.id with ⟨hno, -⟩ | hg
  · rw [hkeep] at hno
    cases hno
  obtain ⟨c, hc, hrep⟩ := hs.repeats _ _ hg
  have hfirst := hs.kept _ _ hg
  generalize renamed rewrites i.id = first at hg hrep hfirst
  obtain ⟨m, j, x, y, k, hmj, hx, hy, rfl, hid, hkx, hky⟩ := hrep
  obtain ⟨rfl, rfl⟩ := inst_block_unique wf.valuesNodup wf.blocksNodup hc hb (mem_of_getElem? hy)
    (mem_of_getElem? hi) hid
  obtain rfl := inst_pos_unique wf.valuesNodup hc hy hi rfl
  have hswaps : swapsFloats x.kind = swapsFloats y.kind := (keyOf_keyed hkx).swaps.symm.trans (keyOf_keyed hky).swaps
  obtain ⟨z, hz, hkz, hty⟩ := h.keys m x k hmj hx hkx (hswaps ▸ hfloat)
  have hexec : ∀ τ, y.execIn T W kf call σ = .ok (.ok τ) → KeysHold T W c (j + 1) τ.env := fun _ => h.keys.step wf hc hi
  unfold Inst.execIn at hexec ⊢
  cases hvals : y.kind.operands.mapM σ.env with
  | none => exact .excused hX
  | some vals =>
    simp only [hvals, (keyOf_keyed hky).performs] at hexec ⊢
    rcases keyOf_eval (T := T) (W := W) hky hvals hfloat with he | ⟨w, hw, hno⟩
    · rw [hkz] at he
      have htyy : z.hasType y.ty = true := by rwa [← (keyOf_keyed hky).ty, (keyOf_keyed hkx).ty]
      simp only [he, Computed.effect, Except.map, Effect.bind, htyy, if_true] at hexec ⊢
      refine .ok ⟨h.heap, fun v u hv hu => ?_, hexec _ rfl⟩
      dsimp only at hu
      by_cases hvy : v = y.id
      · subst hvy
        have hrx : renamed rewrites x.id = x.id := renamed_of_keeps (by simp [keeps, hfirst])
        have hry : renamed rewrites y.id = x.id := by simp [renamed, AssocMap.getD, hg]
        have huse : f.UseOk c x.id j := (useOk_self wf.valuesNodup hc hx).mono hmj
        rw [Env.set_self] at hu
        rw [hry, ← hu, ← hrx]
        exact h.env x.id z (.inl huse) hz
      · rw [Env.set_ne _ _ hvy] at hu
        exact h.env v u (hv.pred hi hvy) hu
    · simp only [hw, Computed.effect, Except.map, Effect.bind, hno]
      exact .excused hX

end

theorem InStep.execInstsIn (hX : X (some .stuck)) (hfloat : CommutesWhereDropped T f rewrites)
    (hcall : ∀ ty c args h, Fuelled.Follows X (call ty c args h) (call' ty c args h))
    (h : InStep T W f rewrites b 0 σ σ') :
    Result.Follows X (InStep T W f rewrites b b.insts.length) (execInstsIn T W kf call b.insts σ)
      (execInstsIn T W kf call' (b.thin (keeps rewrites) (renamed rewrites)).insts σ') := by
  rw [insts_thin_eq]
  have hstep : ∀ (j : Nat) i τ τ', b.insts[j]? = some i → InStep T W f rewrites b (0 + j) τ τ' →
      Result.Follows X (InStep T W f rewrites b (0 + j + 1)) (i.execIn T W kf call τ)
        (execOptIn T W kf call' (replaced rewrites i) τ') := by
    intro j i τ τ' hi hin
    rw [Nat.zero_add] at hin ⊢
    unfold replaced
    split
    · next hkeep => exact hin.kept hs wf hb hi hX hcall hkeep
    · next hkeep =>
      have hdropped : keeps rewrites i.id = false := by simpa using hkeep
      have hmem : i ∈ f.allInsts := mem_flatMap.mpr ⟨b, hb, mem_of_getElem? hi⟩
      exact hin.dropped hs wf hb hi hX (hfloat i hmem hdropped) hdropped
  have := execInstsIn_follows (m := 0) hstep h
  rwa [Nat.zero_add] at this

end Step

/-! ## Blocks in step -/

section Block

variable {X : Excuse} {call' : Caller}

structure Entering (f : Function) (rewrites : RewriteMap) (b : BlockId) (σ σ' : State) : Prop where
  heap : σ'.toHeap = σ.toHeap
  reachable : f.Reachable b
  env : ∀ blk, f.tryBlock b = some blk → RenamesOn (Avail f blk 0) (renamed rewrites) σ.env σ'.env

variable (hs : Sound f passed rewrites) (wf : f.WellFormed)
include hs wf

theorem Sound.blockParam {c} (hc : c ∈ f.blocks)
    {p} (hp : p ∈ c.params) : renamed rewrites p.id = p.id ∧ ∀ u, renamed rewrites u = p.id → u = p.id := by
  refine ⟨?_, fun u hu => ?_⟩
  · rcases renamed_cases rewrites p.id with ⟨-, hr⟩ | hg
    · exact hr
    · obtain ⟨b, hb, m, j, x, y, k, -, -, hy, -, hid, -, -⟩ := hs.repeats _ _ hg
      exact absurd hid (inst_ne_blockParam wf.valuesNodup wf.blocksNodup hb hc (mem_of_getElem? hy) hp)
  · rcases renamed_cases rewrites u with ⟨-, hr⟩ | hg
    · rwa [hr] at hu
    · rw [hu] at hg
      obtain ⟨b, hb, m, j, x, y, k, -, hx, -, hid, -, -, -⟩ := hs.repeats _ _ hg
      exact absurd hid (inst_ne_blockParam wf.valuesNodup wf.blocksNodup hb hc (mem_of_getElem? hx) hp)

theorem Entering.execBlockIn (hX : X (some .stuck)) (hfloat : CommutesWhereDropped T f rewrites)
    (hcall : ∀ ty c args h, Fuelled.Follows X (call ty c args h) (call' ty c args h)) {b σ σ'}
    (h : Entering f rewrites b σ σ') : Outcome.Follows X (Entering f rewrites) (f.execBlockIn T W kf call b σ)
      ((eliminated f rewrites).execBlockIn T W kf call' b σ') := by
  cases hblk : f.tryBlock b with
  | none =>
    simp only [Function.execBlockIn, hblk]
    exact .excused hX
  | some blk =>
    obtain ⟨hmem, rfl⟩ := Function.mem_blocks_of_tryBlock hblk
    have hblk' : (eliminated f rewrites).tryBlock blk.id =
        some (blk.thin (keeps rewrites) (renamed rewrites)) := by
      rw [Function.tryBlock_thin, hblk]
      rfl
    have hin : InStep T W f rewrites blk 0 σ σ' :=
      ⟨h.heap, h.env blk hblk, fun m i k hm => absurd hm (Nat.not_lt_zero m)⟩
    refine execBlockIn_follows hblk hblk' hX (hin.execInstsIn hs wf hmem hX hfloat hcall) fun t τ τ' ht hq => ?_
    refine ⟨t.mapOperands (renamed rewrites), by simp [BasicBlock.thin, ht], ?_⟩
    have hps : ∀ d, (eliminated f rewrites).KeepsParams f d := fun d => by
      rw [Function.KeepsParams, Function.tryBlock_thin, Option.map_map]
      rfl
    refine (execTerm_renames
      (Q := fun dest env env' => f.Reachable dest ∧
        ∀ c, f.tryBlock dest = some c → RenamesOn (Avail f c 0) (renamed rewrites) env env')
      hps (fun v hv => .inl (wf.termUses blk hmem t ht v hv)) hq.heap.symm hq.env
      fun dest dst vals env hdest hdst hbind => ?_).follows hX fun b' ρ ρ' _ hheap henv => ⟨hheap, henv.1, henv.2⟩
    obtain ⟨hdmem, rfl⟩ := Function.mem_blocks_of_tryBlock hdst
    have hedge : f.Edge blk.id dst.id := by
      rw [Function.Edge, successors, hblk]
      simpa [targets, ht] using hdest
    have hold : ∀ v x, Avail f dst 0 v → (∀ p ∈ dst.params, v ≠ p.id) → τ.env v = some x →
        τ'.env (renamed rewrites v) = some x := by
      intro v x hv hnp hx
      refine hq.env v x (hv.imp_left fun hu => ?_) hx
      exact wf.useOk_of_edge hmem hdmem hedge h.reachable hnp hu
    obtain ⟨env', hbind', hren⟩ := bindParams_renames hbind (fun p hp => (hs.blockParam wf hdmem hp).1)
      (fun p hp u _ => (hs.blockParam wf hdmem hp).2 u) hold
    refine ⟨env', hbind', h.reachable.tail hedge, fun c hc => ?_⟩
    rw [hdst] at hc
    cases hc
    exact hren

theorem Sound.slotBytes (v) :
    (eliminated f rewrites).slotBytes v = f.slotBytes v := by
  have hfind : (eliminated f rewrites).findDefiningInst v =
      ((f.allInsts.filter fun i => keeps rewrites i.id).find? (·.id == v)).map (·.mapOperands (renamed rewrites)) := by
    simp only [Function.findDefiningInst, Function.allInsts, Function.thin, BasicBlock.thin, flatMap_map,
      filter_flatMap, ← map_flatMap, find?_map]
    rfl
  unfold Function.slotBytes
  rw [hfind, find?_filter, Function.findDefiningInst]
  by_cases hkeep : keeps rewrites v = true
  · have hsame : f.allInsts.find? (fun i => decide (keeps rewrites i.id = true ∧ (i.id == v) = true)) =
        f.allInsts.find? (·.id == v) :=
      List.find?_congr fun i _ => by
        by_cases hid : i.id = v
        · simp [hid, hkeep]
        · simp [hid]
    rw [hsame]
    cases f.allInsts.find? (·.id == v) with
    | none => rfl
    | some i =>
      obtain ⟨id, kind, ty⟩ := i
      cases kind with
      | call callee args => cases callee <;> rfl
      | _ => rfl
  · have hnone : f.allInsts.find? (fun i => decide (keeps rewrites i.id = true ∧ (i.id == v) = true)) = none := by
      rw [find?_eq_none]
      intro i _ hi
      simp only [decide_eq_true_eq, beq_iff_eq] at hi
      exact hkeep (hi.2 ▸ hi.1)
    rw [hnone]
    cases hi : f.allInsts.find? (·.id == v) with
    | none => rfl
    | some i =>
      have hid : i.id = v := by simpa using find?_some hi
      obtain ⟨id, kind, ty⟩ := i
      cases kind with
      | alloca sty =>
        subst hid
        exact absurd (hs.keeps_unkeyed wf (mem_of_find?_eq_some hi) rfl) hkeep
      | _ => rfl

theorem Sound.activate {O d args h σ}
    (ha : f.activate O d args h = some σ) : ∃ σ', (eliminated f rewrites).activate O d args h =
    some σ' ∧ Entering f rewrites f.entry σ σ' := by
  obtain ⟨env, henv, rfl⟩ := map_eq_some_iff.mp ha
  have hmem : h.mem.openFrame (eliminated f rewrites) d (O.garbage h.clock) =
      h.mem.openFrame f d (O.garbage h.clock) := by
    funext b o
    cases b <;> simp [Mem.openFrame, hs.slotBytes wf]
  refine ⟨_, map_eq_some_iff.mpr ⟨env, henv, rfl⟩, ?_, .refl, fun blk hblk v x hv hx => ?_⟩
  · rw [hmem]
  · -- only parameters have values yet
    have hp : ∃ p ∈ f.params, v = p.id := by
      by_contra hno
      dsimp only at hx
      rw [bindParams_env_of_not_mem henv (by simpa using hno)] at hx
      cases hx
    obtain ⟨p, hp, rfl⟩ := hp
    rcases renamed_cases rewrites p.id with ⟨-, hr⟩ | hg
    · rw [hr]
      exact hx
    · obtain ⟨b, hb, m, j, y, z, k, -, -, hz, -, hid, -, -⟩ := hs.repeats _ _ hg
      exact absurd hid.symm (param_ne_of_mem_block wf.valuesNodup hp hb
        (mem_append_right _ (List.mem_map_of_mem (mem_of_getElem? hz))))

end Block

/-! ## Whole modules -/

section Run

variable {M : Module}

theorem functions_run (M k) : (run M).1.functions[k]? =
    M.functions[k]?.map (cseFunction (decide (k ∈ Fpenv.mayCrossFpenvBarrier M))) := by
  simp only [run, getElem?_map, getElem?_zipIdx, Option.map_map]
  cases M.functions[k]? <;> simp

theorem byName_run (M name) : (run M).1.byName name = M.byName name := by
  refine Module.byName_congr (fun k => ?_) name
  rw [functions_run, Option.map_map]
  congr 1
  funext f
  simp only [Function.comp_apply, cseFunction_eq_thin, Function.thin]

def rewritesOf (M : Module) (k : Nat) (f : Function) : RewriteMap :=
  rewriteMap (decide (k ∈ Fpenv.mayCrossFpenvBarrier M)) f

theorem functions_run_thin {k} (hf : M.functions[k]? = some f) :
    (run M).1.functions[k]? = some (eliminated f (rewritesOf M k f)) := by
  rw [functions_run, hf, map_some, cseFunction_eq_thin, rewritesOf]

theorem callsSame (hv : M.Verified) {S : Machine}
    (hfloat : ∀ k f, M.functions[k]? = some f → CommutesWhereDropped S.target f (rewritesOf M k f)) (n) :
    S.CallsSame M (run M).1 Stuck n := by
  have hwf : ∀ {k : Nat} {f : Function}, M.functions[k]? = some f → f.WellFormed := fun hf =>
    (hv.function (mem_of_getElem? hf)).wellFormed
  refine (Machine.callsRelate (X := Stuck) (R := fun _ k b σ σ' => σ'.toHeap = σ.toHeap ∧ ∀ f, M.functions[k]? = some f →
    Entering f (rewritesOf M k f) b σ σ') rfl (fun n hc d ty c args h _ => ?_) ?_ (fun _ _ _ _ _ h => h.1) ?_ n).1
  · exact Machine.CallsSame.consult_succ (byName_run M) hc d ty c args h
  · rintro d k f args _ h σ hf rfl ha
    obtain ⟨passed, hs⟩ := sound_rewriteMap (decide (k ∈ Fpenv.mayCrossFpenvBarrier M)) (hwf hf).valuesNodup
    obtain ⟨σ', ha', henter⟩ := hs.activate (hwf hf) ha
    refine ⟨_, σ', functions_run_thin hf, ha', rfl, henter.heap, fun g hg => ?_⟩
    rw [hf] at hg
    cases hg
    exact henter
  · intro n hc d k f f' b σ σ' hf hf' h
    rw [functions_run_thin hf, some.injEq] at hf'
    subst hf'
    obtain ⟨passed, hs⟩ := sound_rewriteMap (decide (k ∈ Fpenv.mayCrossFpenvBarrier M)) (hwf hf).valuesNodup
    refine ((h.2 f hf).execBlockIn (X := Stuck) hs (hwf hf) rfl (hfloat k f hf)
      (fun ty c args heap => Machine.CallsSame.call (byName_run M) hc d ty c args heap)).mono fun b τ τ' he => ?_
    refine ⟨he.heap, fun g hg => ?_⟩
    rw [hf] at hg
    cases hg
    exact he

theorem run_verified (hv : M.Verified) : (run M).1.Verified := by
  have hthins : ∀ {k : Nat} {f : Function}, M.functions[k]? = some f → ∀ v ∈ f.collectDefinedValues,
      f.Thins (keeps (rewritesOf M k f)) (renamed (rewritesOf M k f)) v := by
    intro k f hf v hmem
    have wf := (hv.function (mem_of_getElem? hf)).wellFormed
    obtain ⟨passed, hs⟩ := sound_rewriteMap (decide (k ∈ Fpenv.mayCrossFpenvBarrier M)) wf.valuesNodup
    exact hs.thins wf hmem
  have hinst : ∀ {f : Function}, f.WellFormed → ∀ i ∈ f.allInsts, ∀ v ∈ i.kind.operands, v ∈ f.collectDefinedValues := by
    intro f wf i hi v hvi
    obtain ⟨b, hb, hib⟩ := mem_flatMap.mp hi
    exact wf.instUsesDefined b hb i hib v hvi
  refine hv.narrow rfl rfl rfl (fun k => ?_) fun g hg => ?_
  · cases hf : M.functions[k]? with
    | none =>
      rw [functions_run, hf]
      exact .none
    | some f =>
      have wf := (hv.function (mem_of_getElem? hf)).wellFormed
      rw [functions_run_thin hf]
      exact .some (narrows_thin wf.valuesNodup fun i hi _ v hvi => hthins hf v (hinst wf i hi v hvi))
  · obtain ⟨k, hk⟩ := mem_iff_getElem?.mp hg
    cases hf : M.functions[k]? with
    | none =>
      rw [functions_run, hf] at hk
      cases hk
    | some f =>
      have hvf := hv.function (mem_of_getElem? hf)
      rw [functions_run_thin hf] at hk
      cases hk
      exact hvf.thin (fun i hi _ v hvi => hthins hf v (hinst hvf.wellFormed i hi v hvi))
        fun b hb t ht v hvt => hthins hf v (hvf.wellFormed.termUsesDefined b hb t ht v hvt)

end Run

end Armfortas.Opt.Cse
