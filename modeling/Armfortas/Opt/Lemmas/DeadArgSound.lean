import Armfortas.Opt.Lemmas.DeadArg
import Armfortas.Ir.Lemmas.ModuleSim

/-! A trimmed function has the same values as the original, except for the parameters that were dropped, which nothing
looks at. This needs that a trimmed function is called directly only: a call by name or through a pointer still passes
all arguments. -/
namespace Armfortas.Opt.DeadArg
open Ir Lib List Option Function

variable {keep : List Bool} {vals : List Val} {j : Nat} {L : Start} {i : Inst}

/-! ## Dropping list elements -/

section Keep

variable {α β : Type}

theorem keepSlots_eq (keep) (l : List α) : keepSlots keep l = dropIdx (fun i => keep[i]? != some true) l := by
  induction l generalizing keep with
  | nil => rfl
  | cons a l ih =>
    cases keep with
    | nil => simpa [keepSlots, dropIdx] using ih []
    | cons b keep => cases b <;> simpa [keepSlots, dropIdx] using ih keep

theorem keepSlots_map (g : α → β) (keep) (l : List α) : keepSlots keep (l.map g) = (keepSlots keep l).map g := by
  simp only [keepSlots_eq, map_dropIdx]

theorem mem_keepSlots {l : List α} {a} :
    a ∈ keepSlots keep l ↔ ∃ pos : Nat, keep[pos]? = some true ∧ l[pos]? = some a := by
  simp [keepSlots_eq, mem_dropIdx]

theorem keepSlots_all (h : keep.all id = true) {l : List α} (hlen : l.length ≤ keep.length) : keepSlots keep l = l := by
  rw [keepSlots_eq]
  refine dropIdx_eq_self fun i hi => ?_
  have hlt := hi.trans_le hlen
  simpa [getElem?_eq_getElem hlt] using List.all_eq_true.mp h _ (getElem_mem hlt)

theorem mapM_keepSlots {f g : α → Option β} {l : List α} {r} (h : l.mapM f = some r)
    (hg : ∀ (pos : Nat) a b, keep[pos]? = some true → l[pos]? = some a → f a = some b → g a = some b) :
    (keepSlots keep l).mapM g = some (keepSlots keep r) := by
  rw [keepSlots_eq, keepSlots_eq]
  exact mapM_dropIdx h fun i a b hi => hg i a b (by simpa using hi)

theorem bindParams_keepSlots {S : ValueId → Prop} {ps env env' env₁} (hbind : bindParams ps vals env = some env₁)
    (hlen : keep.length = ps.length) (hdrop : ∀ (pos : Nat) p, ps[pos]? = some p → keep[pos]? = some false → ¬ S p.id)
    (hagree : AgreeOn S env env') : ∃ env₁', bindParams (keepSlots keep ps) (keepSlots keep vals) env' = some env₁' ∧
    AgreeOn S env₁ env₁' := by
  rw [keepSlots_eq, keepSlots_eq]
  obtain ⟨env₁', hbind', hagree'⟩ := bindParams_dropIdx hbind env'
  refine ⟨env₁', hbind', fun u x hu hx => hagree' u (fun k p hp hk e => ?_) (fun y => hagree u y hu) x hx⟩
  have hlt := hlen ▸ (List.getElem?_eq_some_iff.mp hp).1
  rw [getElem?_eq_getElem hlt] at hk
  exact hdrop k p hp (by simpa [getElem?_eq_getElem hlt] using hk) (e ▸ hu)

end Keep

/-! ## How trimmed functions are reached -/

def externalNames (M : Module) : List String :=
  M.functions.flatMap fun f => f.allInsts.filterMap fun i => match i.kind with
    | .call (.external name) _ => some name
    | _ => none

abbrev trims (M : Module) (masks : Masks) (k : Nat) : Bool := isTrimmed masks (trimEligible M) k

/-- No table holds the address of a trimmed function, and no call names one. -/
def OnlyDirect (M : Module) (masks : Masks) : Prop :=
  ∀ name ∈ M.tableSymbols ++ externalNames M, ∀ j ∈ M.byName name, trims M masks j = false

def TrimmedSymbol (M : Module) (masks : Masks) (b : Base) : Prop :=
  ∃ name j, b = .global name ∧ M.byName name = some j ∧ trims M masks j = true

section Trim

variable {M : Module} {masks : Masks}

theorem isTrimmed_eligible {k} (h : trims M masks k = true) : Eligible M k := by
  simp only [trims, isTrimmed, Bool.and_eq_true] at h
  exact h.1

theorem byName_eq_some {name} (h : M.byName name = some j) : ∃ f, M.functions[j]? = some f ∧ f.name = name := by
  obtain ⟨hlt, hp, -⟩ := findIdx?_eq_some_iff_getElem.mp h
  exact ⟨M.functions[j], getElem?_eq_getElem hlt, by simpa using hp⟩

theorem respects_trimmed (hfit : L.Fits M) : M.Respects L.outside (TrimmedSymbol M masks) fun _ _ => False where
  guarded := by
    rintro b ⟨name, j, rfl, hj, ht⟩
    obtain ⟨f, hf, hname⟩ := byName_eq_some hj
    obtain ⟨f', hf', hi⟩ := (isTrimmed_eligible ht).function
    rw [hf, some.injEq] at hf'
    subst hf'
    exact hname ▸ hfit.hidden f (mem_of_getElem? hf) hi
  globals := by
    rintro f hf i hi name hk ⟨name', j, hname, hj, ht⟩
    cases hname
    obtain ⟨-, -, -, -, hno⟩ := eligible_iff.mp (isTrimmed_eligible ht)
    refine hno name ?_ hj
    exact mem_flatMap.mpr ⟨f, hf, mem_filterMap.mpr ⟨i, hi, by simp [hk]⟩⟩
  loads j f hf i hi u hu := by
    rintro ⟨_, _, _, _, _, _, hno⟩
    exact hno.elim
  terms j f hf b hb t ht u hu := by
    rintro ⟨_, _, _, _, _, _, hno⟩
    exact hno.elim

theorem symbols_trimmed : Symbols (TrimmedSymbol M masks) := by
  rintro m w ⟨name, j, h, -⟩
  cases h

theorem functions_trimModule (k) : (trimModule M masks).functions[k]? =
    M.functions[k]?.map (trimFunction M masks (trimEligible M) k) := by
  simp only [trimModule, getElem?_map, getElem?_zipIdx, Option.map_map]
  cases M.functions[k]? <;> simp

theorem byName_trimModule (name) : (trimModule M masks).byName name = M.byName name := by
  refine Module.byName_congr (fun k => ?_) name
  rw [functions_trimModule, Option.map_map]
  rfl

theorem tryBlock_trimFunction (k f b) : (trimFunction M masks (trimEligible M) k f).tryBlock b =
      (f.tryBlock b).map (trimBlock M masks (trimEligible M)) := by
  simp only [tryBlock, trimFunction, find?_map]
  rfl

theorem trimKind_call (M masks j args) :
    ∃ args', trimKind M masks (trimEligible M) (.call (.internal j) args) = .call (.internal j) args' := by
  unfold trimKind
  split
  · next hk =>
    cases hk
    split
    · exact ⟨args, rfl⟩
    · split
      · exact ⟨args, rfl⟩
      · exact ⟨_, rfl⟩
  · next hk => exact absurd rfl (hk j args)

theorem slotBytes_trimFunction (k f v) : (trimFunction M masks (trimEligible M) k f).slotBytes v = f.slotBytes v := by
  have hfind : (trimFunction M masks (trimEligible M) k f).findDefiningInst v =
      (f.findDefiningInst v).map (trimInst M masks (trimEligible M)) := by
    simp only [findDefiningInst, allInsts, trimFunction, flatMap_map, trimBlock]
    rw [← map_flatMap, find?_map]
    rfl
  unfold slotBytes
  rw [hfind]
  cases f.findDefiningInst v with
  | none => rfl
  | some i =>
    obtain ⟨id, kind, ty⟩ := i
    cases kind <;> try rfl
    case call callee args =>
      cases callee <;> try rfl
      next j =>
        obtain ⟨args', hargs⟩ := trimKind_call M masks j args
        simp only [map_some, trimInst, hargs]

end Trim

/-! ## Dropped parameters -/

def Dropped (M : Module) (masks : Masks) (k : Nat) (u : ValueId) : Prop :=
  trims M masks k = true ∧ ∃ f, ∃ pos : Nat, ∃ p : Param, M.functions[k]? = some f ∧
    f.params[pos]? = some p ∧ p.id = u ∧ masks.bit k pos = some false

def TrimmedArgs (M : Module) (masks : Masks) (k : Nat) (args args' : List Val) : Prop :=
  args' = if trims M masks k then keepSlots (masks[k]?.getD []) args else args

abbrev CallsWhole (M : Module) (masks : Masks) (i : Inst) : Prop :=
  ∀ j args, i.kind = .call (.internal j) args → trims M masks j = false

section Sound

variable {M : Module} {masks : Masks} {k : Nat} {f : Function}

theorem row_getElem? (masks : Masks) (k pos) : (masks[k]?.getD [])[pos]? = masks.bit k pos := by
  unfold Masks.bit
  cases masks[k]? <;> simp

theorem openFrame_trimFunction (m : Mem) (d) (g : ValueId → Int → BitVec 8) :
    m.openFrame (trimFunction M masks (trimEligible M) k f) d g = m.openFrame f d g := by
  funext b o
  cases b <;> simp [Mem.openFrame, slotBytes_trimFunction]

theorem trimInst_call {args} (hk : i.kind = .call (.internal j) args) (ht : trims M masks j = true) :
    trimInst M masks (trimEligible M) i =
    { i with kind := .call (.internal j) (keepSlots (masks[j]?.getD []) args) } := by
  obtain ⟨g, hg, hint⟩ := (isTrimmed_eligible ht).function
  have he : (trimEligible M)[j]?.getD false = true := isTrimmed_eligible ht
  simp only [trimInst, hk, trimKind, hg, map_some, hint, getD_some, Bool.not_true, he, Bool.or_self,
    Bool.false_eq_true, if_false]
  cases hm : masks[j]? with
  | none =>
    -- a trimmed function has a row
    simp [trims, isTrimmed, hm] at ht
  | some keep => rfl

theorem bit_true_of_not_trimmed {pos v} (he : Eligible M k)
    (ht : trims M masks k = false) (hb : masks.bit k pos = some v) : v = true := by
  have he' : (trimEligible M)[k]?.getD false = true := he
  simp only [trims, isTrimmed, he', Bool.true_and, Bool.not_eq_false'] at ht
  rw [← row_getElem?] at hb
  simpa using List.all_eq_true.mp ht v (mem_of_getElem? hb)

section

variable (hfix : Fixpoint M masks) (hf : M.functions[k]? = some f)
include hfix hf

theorem Fixpoint.row_length :
    (masks[k]?.getD []).length = f.params.length := by
  have hiff : ∀ pos, pos < (masks[k]?.getD []).length ↔ pos < f.params.length := fun pos => by
    rw [← hfix.shape k f hf pos, ← row_getElem?]
    simp
  apply Nat.le_antisymm
  · by_contra hlt
    exact Nat.lt_irrefl _ ((hiff _).mp (by omega : f.params.length < _))
  · by_contra hlt
    exact Nat.lt_irrefl _ ((hiff _).mpr (by omega : _ < f.params.length))

theorem Fixpoint.dropped_unused {u} (hd : Dropped M masks k u) :
    (∀ i ∈ f.allInsts, instObserves M masks (trimEligible M) u i = false) ∧
      ∀ b ∈ f.blocks, ∀ t, b.terminator = some t → u ∉ t.uses := by
  obtain ⟨ht, f', pos, p, hf', hp, rfl, hb⟩ := hd
  rw [hf, some.injEq] at hf'
  subst hf'
  have hno := hfix.stable ⟨f, k, p, pos⟩ (mem_sites.mpr ⟨hf, isTrimmed_eligible ht, hp⟩)
  rw [hb, some.injEq] at hno
  have hnot : ¬ paramHasObservableUse M masks (trimEligible M) f p.id = true := by
    rw [← hno]
    simp
  rw [paramHasObservableUse_iff] at hnot
  push Not at hnot
  exact ⟨fun i hi => by simpa using hnot.1 i hi, fun b hb t ht => hnot.2 b hb t ht⟩

theorem Fixpoint.activate {O d args args' h σ}
    (hargs : TrimmedArgs M masks k args args') (ha : f.activate O d args h = some σ) : ∃ σ',
    (trimFunction M masks (trimEligible M) k f).activate O d args' h = some σ' ∧ σ'.toHeap = σ.toHeap ∧
    AgreeOn (fun u => ¬ Dropped M masks k u) σ.env σ'.env := by
  obtain ⟨env, hbind, rfl⟩ := map_eq_some_iff.mp ha
  unfold Function.activate
  rw [openFrame_trimFunction]
  subst hargs
  cases ht : trims M masks k with
  | false =>
    refine ⟨_, map_eq_some_iff.mpr ⟨env, ?_, rfl⟩, rfl, fun u x _ hx => hx⟩
    simpa [trimFunction, trimParams, ht] using hbind
  | true =>
    have hrow : (masks[k]?.getD []).length = (f.params.map fun p => (⟨p.id, p.ty⟩ : BlockParam)).length := by
      simpa using hfix.row_length hf
    have hempty : AgreeOn (fun u => ¬ Dropped M masks k u) (fun _ => none) fun _ => none := fun u x _ hx => hx
    obtain ⟨env', hbind', hagree⟩ := bindParams_keepSlots hbind hrow (fun pos p hp hk hstay => by
      rw [row_getElem?] at hk
      simp only [getElem?_map, map_eq_some_iff] at hp
      obtain ⟨q, hq, rfl⟩ := hp
      exact hstay ⟨ht, f, pos, q, hf, hq, rfl, hk⟩) hempty
    refine ⟨_, map_eq_some_iff.mpr ⟨env', ?_, rfl⟩, rfl, hagree⟩
    simpa [trimFunction, trimParams, ht, keepSlots_map] using hbind'

variable (hi : i ∈ f.allInsts)
include hi

theorem Fixpoint.trimInst_eq (hv : M.Verified) (hno : CallsWhole M masks i) :
    trimInst M masks (trimEligible M) i = i := by
  obtain ⟨id, kind, ty⟩ := i
  simp only [trimInst, Inst.mk.injEq, and_true, true_and]
  unfold trimKind
  split
  · next j args =>
    obtain ⟨g, hg, hlen, -⟩ := hv.internal_call (mem_of_getElem? hf) hi rfl
    split
    · rfl
    · next hel =>
      have he : Eligible M j := by
        simp only [Bool.or_eq_true, Bool.not_eq_true', not_or, Bool.not_eq_false] at hel
        exact hel.2
      split
      · rfl
      · next keep hkeep =>
        have hrow := hfix.row_length hg
        have ht := hno j args rfl
        have he' : (trimEligible M)[j]?.getD false = true := he
        simp only [hkeep, getD_some] at hrow
        simp only [trims, isTrimmed, he', Bool.true_and, Bool.not_eq_false', hkeep, getD_some] at ht
        rw [keepSlots_all ht (by omega)]
  · rfl

theorem Fixpoint.operand_stays (hno : CallsWhole M masks i) :
    ∀ u ∈ i.kind.operands, ¬ Dropped M masks k u := by
  intro u hu hd
  have hobs := (hfix.dropped_unused hf hd).1 i hi
  by_cases hk : ∃ j args, i.kind = .call (.internal j) args
  · obtain ⟨j, args, hk⟩ := hk
    rw [hk] at hu
    obtain ⟨pos, hpos⟩ := mem_iff_getElem?.mp hu
    have hcallee : calleeObserves M masks (trimEligible M) j pos = true := by
      by_contra hc
      obtain ⟨he, hb⟩ := calleeObserves_eq_false.mp (by simpa using hc)
      cases bit_true_of_not_trimmed he (hno j args hk) hb
    rw [(instObserves_call hk).mpr ⟨pos, hpos, hcallee⟩] at hobs
    cases hobs
  · rw [(instObserves_other fun j args h => hk ⟨j, args, h⟩).mpr hu] at hobs
    cases hobs

theorem Fixpoint.argument_stays {args} (hk : i.kind = .call (.internal j) args) {pos u} (hu : args[pos]? = some u)
    (hkeep : masks.bit j pos = some true) :
    ¬ Dropped M masks k u := by
  intro hd
  have hobs := (hfix.dropped_unused hf hd).1 i hi
  have hcallee : calleeObserves M masks (trimEligible M) j pos = true := by
    by_contra hc
    have := (calleeObserves_eq_false.mp (by simpa using hc)).2
    rw [hkeep] at this
    cases this
  rw [(instObserves_call hk).mpr ⟨pos, hu, hcallee⟩] at hobs
  cases hobs

end

/-! ## Instructions, blocks and runs -/

structure Trimmed (M : Module) (masks : Masks) (d k : Nat) (σ σ' : State) : Prop where
  heap : σ'.toHeap = σ.toHeap
  env : AgreeOn (fun u => ¬ Dropped M masks k u) σ.env σ'.env
  proper : Proper M (TrimmedSymbol M masks) (fun _ _ => False) d k σ

abbrev CallsAgree (S : Machine) (M : Module) (masks : Masks) : Nat → Prop :=
  S.CallsFollow M (trimModule M masks) Stuck (TrimmedSymbol M masks) fun _ k args args' _ => TrimmedArgs M masks k args args'

variable {S : Machine} {d n : Nat} {σ σ' : State}

theorem Proper.clean (h : Proper M (TrimmedSymbol M masks) (fun _ _ => False) d k σ) :
    σ.toHeap.Clean (TrimmedSymbol M masks) (d + 1) := ⟨h.free.heap, h.bare⟩

theorem Proper.operands_free (h : Proper M (TrimmedSymbol M masks) (fun _ _ => False) d k σ)
    (hvals : i.kind.operands.mapM σ.env = some vals) : ∀ x ∈ vals, x.Free (Off (TrimmedSymbol M masks) (d + 1)) :=
  h.free.operands hvals fun u _ => by
    rintro ⟨_, _, _, _, _, _, hno⟩
    exact hno

theorem resolve_trimModule (c) : (trimModule M masks).resolve c = M.resolve c := by
  unfold Module.resolve
  split <;> simp [byName_trimModule]

variable (hdirect : OnlyDirect M masks)
include hdirect

theorem resolve_not_trimmed (hf : f ∈ M.functions) (hi : i ∈ f.allInsts) (hno : CallsWhole M masks i)
    (hfree : ∀ x ∈ vals, x.Free (Off (TrimmedSymbol M masks) (d + 1))) {c args}
    (hc : i.kind.callTarget vals = some (c, args)) (hj : M.resolve c = some j) :
    trims M masks j = false := by
  unfold InstKind.callTarget at hc
  split at hc <;> simp only [reduceCtorEq, some.injEq, Prod.mk.injEq] at hc <;> obtain ⟨rfl, rfl⟩ := hc
  · next t as target args hk =>
    unfold Module.resolve at hj
    split at hj
    · next h => cases h
    · next h => cases h
    · next name h =>
      cases h
      by_contra ht
      exact hfree _ mem_cons_self (.global name) (by simp [Val.bases])
        (.inl ⟨name, j, rfl, hj, by simpa using ht⟩)
    · cases hj
  · rename_i hk
    cases hj
    exact hno _ _ hk
  · rename_i hk
    refine hdirect _ (mem_append_right _ (mem_flatMap.mpr ⟨f, hf, ?_⟩)) j hj
    exact mem_filterMap.mpr ⟨_, hi, by rw [hk]⟩
  · cases hj

theorem performIn_agrees (hcalls : CallsAgree S M masks n) (hf : f ∈ M.functions) (hi : i ∈ f.allInsts)
    (hno : CallsWhole M masks i)
    (hfree : ∀ x ∈ vals, x.Free (Off (TrimmedSymbol M masks) (d + 1))) {h : Heap}
    (hclean : h.Clean (TrimmedSymbol M masks) (d + 1)) :
    Fuelled.Follows Stuck (performIn S.target (S.outside.world d) k (S.call M n d) i vals h)
      (performIn S.target (S.outside.world d) k (S.call (trimModule M masks) n d) i vals h) := by
  cases ht : i.kind.callTarget vals with
  | some ca =>
    obtain ⟨c, args⟩ := ca
    have hargs : ∀ x ∈ args, x.Free (Off (TrimmedSymbol M masks) (d + 1)) := fun x hx =>
      hfree x (callTarget_args ht x hx)
    rw [performIn_callTarget ht, performIn_callTarget ht]
    simp only [Machine.call, Module.dispatch, resolve_trimModule]
    cases hj : M.resolve c with
    | none => exact hcalls.consult d i.ty c args h ⟨hargs, hclean⟩
    | some j =>
      have hnot := resolve_not_trimmed hdirect hf hi hno hfree ht hj
      exact (hcalls.invoke (d + 1) j args args h ⟨by simp [TrimmedArgs, hnot], hargs, hclean⟩).map fun _ _ => rfl
  | none => exact .inr (performIn_no_target ht)

variable (hv : M.Verified) (hfix : Fixpoint M masks) (hfit : L.Fits M)
include hv hfix hfit

theorem execIn_trimmed (hcalls : CallsAgree L.toMachine M masks n) (hf : M.functions[k]? = some f)
    (hi : i ∈ f.allInsts) (h : Trimmed M masks d k σ σ') :
    Result.Follows Stuck (Trimmed M masks d k) (i.execIn L.target (L.outside.world d) k (L.toMachine.call M n d) σ)
      ((trimInst M masks (trimEligible M) i).execIn L.target (L.outside.world d) k
        (L.toMachine.call (trimModule M masks) n d) σ') := by
  have hid : (trimInst M masks (trimEligible M) i).id = i.id := rfl
  refine (execIn_follows (X := Stuck) (Q := AgreeOn fun u => ¬ Dropped M masks k u) rfl hid rfl (fun vals hvals => ?_)
    (fun _ _ _ => h.env) fun x => h.env.set x rfl fun u _ hu => hu).mono fun τ τ' hr => ?_
  · have hfree := Proper.operands_free h.proper hvals
    rw [h.heap]
    by_cases hk : ∃ j args, i.kind = .call (.internal j) args ∧ trims M masks j = true
    · -- the kept arguments are no dropped parameters, so they have their values on both sides
      obtain ⟨j, args, hk, ht⟩ := hk
      rw [hk] at hvals
      refine ⟨keepSlots (masks[j]?.getD []) vals, ?_, ?_⟩
      · rw [trimInst_call hk ht]
        refine mapM_keepSlots hvals fun pos u x hkeep hu hx => h.env u x ?_ hx
        rw [row_getElem?] at hkeep
        exact hfix.argument_stays hf hi hk hu hkeep
      · rw [trimInst_call hk ht, performIn_callTarget (by rw [hk]; rfl), performIn_callTarget rfl]
        refine (hcalls.invoke (d + 1) j vals _ σ.toHeap ⟨?_, hfree, Proper.clean h.proper⟩).map fun _ _ => rfl
        simp [TrimmedArgs, ht]
    · have hno : CallsWhole M masks i :=
        fun j args hk' => by simpa using fun ht => hk ⟨j, args, hk', ht⟩
      rw [hfix.trimInst_eq hf hi hv hno]
      exact ⟨vals, h.env.mapM (hfix.operand_stays hf hi hno) hvals,
        performIn_agrees hdirect hcalls (mem_of_getElem? hf) hi hno hfree (Proper.clean h.proper)⟩
  · obtain ⟨hheap, henv, hexec⟩ := hr
    have hkeeps : (L.toMachine.call M n d).Keeps (Off (TrimmedSymbol M masks) (d + 1)) (fun _ _ => False) d :=
      (run_kept (respects_trimmed hfit) n).caller fun m w hw => absurd hw (symbols_trimmed m w)
    exact ⟨hheap, henv, (h.proper.execIn (respects_trimmed hfit) (fun w => symbols_trimmed d w) hf hkeeps hi hexec).1⟩

theorem execBlockIn_trimmed (hcalls : CallsAgree L.toMachine M masks n) (hf : M.functions[k]? = some f) {b}
    (h : Trimmed M masks d k σ σ') : Outcome.Follows Stuck (fun _ => Trimmed M masks d k)
      (f.execBlockIn L.target (L.outside.world d) k (L.toMachine.call M n d) b σ)
      ((trimFunction M masks (trimEligible M) k f).execBlockIn L.target (L.outside.world d) k
        (L.toMachine.call (trimModule M masks) n d) b σ') := by
  cases hblk : f.tryBlock b with
  | none =>
    simp only [execBlockIn, hblk]
    exact .excused rfl
  | some blk =>
    have hmem := (mem_blocks_of_tryBlock hblk).1
    have hblk' : (trimFunction M masks (trimEligible M) k f).tryBlock b =
        some (trimBlock M masks (trimEligible M) blk) := by
      rw [tryBlock_trimFunction, hblk]
      rfl
    refine execBlockIn_follows (X := Stuck) (Q := Trimmed M masks d k) hblk hblk' rfl ?_ fun t τ τ' ht hq => ⟨t, ht, ?_⟩
    · have hmap : (trimBlock M masks (trimEligible M) blk).insts =
          blk.insts.filterMap fun i => some (trimInst M masks (trimEligible M) i) := by
        rw [filterMap_eq_map']
        rfl
      rw [hmap]
      refine execInstsIn_follows (R := fun _ => Trimmed M masks d k) (m := 0) (fun j i ρ ρ' hj hr => ?_) h
      exact execIn_trimmed hdirect hv hfix hfit hcalls hf
        (mem_flatMap.mpr ⟨blk, hmem, mem_of_getElem? hj⟩) hr
    · -- terminators are the same and look at no dropped parameter
      have huses : ∀ u ∈ t.uses, ¬ Dropped M masks k u := fun u hu hd =>
        (hfix.dropped_unused hf hd).2 blk hmem t ht hu
      have hps : ∀ e, (trimFunction M masks (trimEligible M) k f).KeepsParams f e := fun e => by
        rw [KeepsParams, tryBlock_trimFunction, Option.map_map]
        rfl
      refine (execTerm_agree hps huses hq.heap.symm hq.env).follows rfl fun b' ρ ρ' hrun hheap henv => ?_
      refine ⟨hheap, henv, ?_⟩
      have hout := hq.proper.execTerm (f := f) (S := L.toMachine) (t := t)
        (fun u _ => by rintro ⟨_, _, _, _, _, _, hno⟩; exact hno) (.of_eq rfl)
      rw [hrun] at hout
      cases hout with
      | running hp _ => exact hp

theorem callsAgree (n) : CallsAgree L.toMachine M masks n := by
  refine (Machine.callsRelate (X := Stuck) (R := fun d k _ => Trimmed M masks d k) rfl (fun n hcalls =>
    Machine.CallsFollow.consult_succ (respects_trimmed hfit) symbols_trimmed byName_trimModule ?_ hcalls) ?_
    (fun _ _ _ _ _ h => h.heap) ?_ n).1
  · intro d name j args h hj hG
    have hnot : trims M masks j = false := by
      by_contra ht
      exact hG ⟨name, j, rfl, hj, by simpa using ht⟩
    simp [TrimmedArgs, hnot]
  · rintro d k f args args' h σ hf ⟨hargs, hfree, hclean⟩ ha
    obtain ⟨σ', ha', hheap, henv⟩ := hfix.activate hf hargs ha
    refine ⟨_, σ', by rw [functions_trimModule, hf]; rfl, ha', rfl, hheap, henv, ?_⟩
    exact Proper.activate (S := L.toMachine) hf (fun pos x hx => .inl (hfree x (mem_of_getElem? hx))) hclean ha
  · intro n hcalls d k f f' b σ σ' hf hf' h
    rw [functions_trimModule, hf, map_some, some.injEq] at hf'
    subst hf'
    exact execBlockIn_trimmed hdirect hv hfix hfit hcalls hf h

end Sound

end Armfortas.Opt.DeadArg
