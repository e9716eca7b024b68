import Armfortas.Opt.DeadArg
import Armfortas.Lib.Lists

/-! The loop over the masks only ever sets bits, so it ends, and it ends in the least fixpoint: a bit is set exactly
if the value of the parameter can flow to a use other than a trimmed argument. -/
namespace Armfortas.Opt.DeadArg
open Ir List Terminator Masks

variable {M : Module} {masks : Masks}

/-! ## Where a parameter can flow -/

abbrev Eligible (M : Module) (k : Nat) : Prop := (trimEligible M)[k]?.getD false = true

/-- The value of parameter `p` of function `k` can get to an instruction or a terminator other than an
argument of a call of an eligible function, through any chain of such calls. -/
inductive Flows (M : Module) : Nat → ValueId → Prop
  | inst {k : Nat} {f : Function} {i : Inst} {p : ValueId} : M.functions[k]? = some f → i ∈ f.allInsts →
      p ∈ i.kind.operands → (∀ j args, i.kind = .call (.internal j) args → ¬ Eligible M j) → Flows M k p
  | term {k : Nat} {f : Function} {b : BasicBlock} {t : Terminator} {p : ValueId} : M.functions[k]? = some f →
      b ∈ f.blocks → b.terminator = some t → p ∈ t.uses → Flows M k p
  | call {k : Nat} {f : Function} {i : Inst} {p : ValueId} {j pos : Nat} {args : List ValueId} {g : Function}
      {q : Param} : M.functions[k]? = some f → i ∈ f.allInsts → i.kind = .call (.internal j) args →
      args[pos]? = some p → Eligible M j → M.functions[j]? = some g → g.params[pos]? = some q → Flows M j q.id →
      Flows M k p

/-! ## Eligible functions -/

section Eligible

theorem addressTaken_foldl (names : List String) (taken idx) :
    (names.foldl (markTaken M) taken)[idx]?.getD false = true ↔
    taken[idx]?.getD false = true ∨ (idx < taken.length ∧ ∃ name ∈ names, M.byName name = some idx) := by
  induction names generalizing taken with
  | nil => simp
  | cons name names ih =>
    rw [foldl_cons, ih]
    unfold markTaken
    cases hn : M.byName name with
    | none => simp [hn]
    | some j =>
      by_cases hj : j = idx
      · subst hj
        by_cases hlt : j < taken.length <;> simp [hn, hlt]
      · simp [hn, hj, getElem?_set_ne hj]

theorem eligible_iff {k} : Eligible M k ↔ ∃ f, M.functions[k]? = some f ∧ f.internalOnly = true ∧
    f.params ≠ [] ∧ ∀ name ∈ addressedNames M, M.byName name ≠ some k := by
  unfold Eligible trimEligible
  rw [getElem?_map, getElem?_zipIdx]
  cases hf : M.functions[k]? with
  | none => simp
  | some f =>
    have hlt : k < M.functions.length := (List.getElem?_eq_some_iff.mp hf).1
    have htaken := addressTaken_foldl (M := M) (addressedNames M) (List.replicate M.functions.length false) k
    have hzero : (List.replicate M.functions.length false)[k]?.getD false = false := by simp [hlt]
    rw [hzero] at htaken
    simp only [Bool.false_eq_true, false_or, length_replicate, hlt, true_and] at htaken
    simp only [Option.map_some, zero_add, Option.getD_some, Bool.and_eq_true, Bool.not_eq_true',
      Option.some.injEq, exists_eq_left', ne_eq, isEmpty_eq_false_iff]
    unfold addressTakenFunctions
    rw [← Bool.not_eq_true, htaken]
    push Not
    tauto

theorem Eligible.function {k} (h : Eligible M k) : ∃ f, M.functions[k]? = some f ∧ f.internalOnly = true := by
  obtain ⟨f, hf, hi, -⟩ := eligible_iff.mp h
  exact ⟨f, hf, hi⟩

theorem mem_sites {s} : s ∈ sites M (trimEligible M) ↔
    M.functions[s.idx]? = some s.func ∧ Eligible M s.idx ∧ s.func.params[s.pos]? = some s.param := by
  obtain ⟨f, k, p, pos⟩ := s
  simp only [sites, mem_flatMap, mem_zipIdx_iff_getElem?, Prod.exists]
  constructor
  · rintro ⟨f', k', hf', hs⟩
    split at hs
    · next he =>
      simp only [mem_map, Prod.exists, mem_zipIdx_iff_getElem?, Site.mk.injEq] at hs
      obtain ⟨p', pos', hp', rfl, rfl, rfl, rfl⟩ := hs
      exact ⟨hf', he, hp'⟩
    · simp at hs
  · rintro ⟨hf, he, hp⟩
    refine ⟨f, k, hf, ?_⟩
    rw [if_pos he]
    simp only [mem_map, Prod.exists, mem_zipIdx_iff_getElem?]
    exact ⟨p, pos, hp, rfl⟩

theorem site_unique {s s'} (hs : s ∈ sites M (trimEligible M)) (hs' : s' ∈ sites M (trimEligible M))
    (hidx : s'.idx = s.idx) (hpos : s'.pos = s.pos) : s = s' := by
  obtain ⟨hf, -, hp⟩ := mem_sites.mp hs
  obtain ⟨hf', -, hp'⟩ := mem_sites.mp hs'
  obtain ⟨f, k, p, pos⟩ := s
  simp only at hidx hpos hf hf' hp hp'
  subst hidx hpos
  rw [hf, Option.some.injEq] at hf'
  subst hf'
  rw [hp, Option.some.injEq] at hp'
  rw [hp']

end Eligible

/-! ## Observable uses -/

section Uses

variable {param : ValueId}

theorem blockTerminatorUsesParam_iff {term} :
    blockTerminatorUsesParam term param = true ↔ ∃ t, term = some t ∧ param ∈ t.uses := by
  cases term with
  | none => simp [blockTerminatorUsesParam]
  | some t =>
    cases t with
    | «return» v =>
      cases v with
      | none => simp [blockTerminatorUsesParam, uses]
      | some v => simpa [blockTerminatorUsesParam, uses] using eq_comm
    | branch d args => simp [blockTerminatorUsesParam, uses]
    | condBranch c td ta fd fa => simp [blockTerminatorUsesParam, uses, @eq_comm _ c, or_assoc]
    | switch s cs d => simpa [blockTerminatorUsesParam, uses] using eq_comm
    | unreachable => simp [blockTerminatorUsesParam, uses]

theorem calleeObserves_eq_false {j pos} :
    calleeObserves M masks (trimEligible M) j pos = false ↔ Eligible M j ∧ masks.bit j pos = some false := by
  unfold calleeObserves
  cases hf : M.functions[j]? with
  | none =>
    simp only [Bool.true_eq_false, false_iff, not_and]
    intro he
    obtain ⟨f, hf', -⟩ := he.function
    rw [hf] at hf'
    cases hf'
  | some f =>
    by_cases he : Eligible M j
    · obtain ⟨f', hf', hi⟩ := he.function
      rw [hf, Option.some.injEq] at hf'
      subst hf'
      have he' : (trimEligible M)[j]?.getD false = true := he
      simp only [hi, he', Bool.not_true, Bool.or_self, Bool.false_eq_true, if_false]
      cases masks.bit j pos with
      | none => simp
      | some v => simpa using fun _ => he
    · have he' : (trimEligible M)[j]?.getD false = false := by simpa [Eligible] using he
      simp [he']

theorem instObserves_call {i : Inst} {j args} (hk : i.kind = .call (.internal j) args) :
    instObserves M masks (trimEligible M) param i = true ↔
      ∃ pos : Nat, args[pos]? = some param ∧ calleeObserves M masks (trimEligible M) j pos = true := by
  simp only [instObserves, hk, any_eq_true, Prod.exists, mem_zipIdx_iff_getElem?, Bool.and_eq_true,
    beq_iff_eq]
  constructor
  · rintro ⟨a, pos, ha, rfl, hc⟩
    exact ⟨pos, ha, hc⟩
  · rintro ⟨pos, ha, hc⟩
    exact ⟨param, pos, ha, rfl, hc⟩

theorem instObserves_other {i : Inst} (hk : ∀ j args, i.kind ≠ .call (.internal j) args) :
    instObserves M masks (trimEligible M) param i = true ↔ param ∈ i.kind.operands := by
  obtain ⟨id, kind, ty⟩ := i
  cases kind
  case call callee args =>
    cases callee with
    | internal j => exact absurd rfl (hk j args)
    | external name => simp [instObserves, instUsesParam]
    | indirect t => simp [instObserves, instUsesParam]
  all_goals simp [instObserves, instUsesParam]

theorem paramHasObservableUse_iff {f} :
    paramHasObservableUse M masks (trimEligible M) f param = true ↔
      (∃ i ∈ f.allInsts, instObserves M masks (trimEligible M) param i = true) ∨
      ∃ b ∈ f.blocks, ∃ t, b.terminator = some t ∧ param ∈ t.uses := by
  simp only [paramHasObservableUse, any_eq_true, Bool.or_eq_true, blockTerminatorUsesParam_iff,
    Function.allInsts, mem_flatMap]
  constructor
  · rintro ⟨b, hb, ⟨i, hi, ho⟩ | ht⟩
    · exact .inl ⟨i, ⟨b, hb, hi⟩, ho⟩
    · exact .inr ⟨b, hb, ht⟩
  · rintro (⟨i, ⟨b, hb, hi⟩, ho⟩ | ⟨b, hb, ht⟩)
    · exact ⟨b, hb, .inl ⟨i, hi, ho⟩⟩
    · exact ⟨b, hb, .inr ht⟩

end Uses

/-! ## Setting bits -/

section Bits

def Masks.unset (masks : Masks) : Nat := (masks.map (List.count false)).sum

def Masks.Grows (masks masks' : Masks) : Prop :=
  ∀ k pos, (masks'.bit k pos).isSome = (masks.bit k pos).isSome ∧
    (masks.bit k pos = some true → masks'.bit k pos = some true)

theorem Masks.bit_set (masks : Masks) (k pos v k' pos') :
    bit (masks.modify k (·.set pos v)) k' pos' =
      if k' = k ∧ pos' = pos then (masks.bit k pos).map fun _ => v else masks.bit k' pos' := by
  unfold bit
  rw [getElem?_modify]
  by_cases hk : k = k'
  · subst hk
    cases hr : masks[k]? with
    | none => simp
    | some row =>
      by_cases hp : pos = pos'
      · subst hp
        by_cases hlt : pos < row.length <;> simp [hlt]
      · simp [Ne.symm hp, getElem?_set_ne hp]
  · simp [hk, Ne.symm hk]

theorem Masks.grows_set {k pos} : masks.Grows (masks.modify k (·.set pos true)) := by
  intro k' pos'
  rw [bit_set]
  split
  · next h =>
    obtain ⟨rfl, rfl⟩ := h
    cases masks.bit k' pos' <;> simp
  · exact ⟨rfl, id⟩

theorem count_false_set {row : List Bool} {pos} (h : row[pos]? = some false) :
    (row.set pos true).count false + 1 = row.count false := by
  obtain ⟨hlt, hget⟩ := List.getElem?_eq_some_iff.mp h
  have hpos : 0 < row.count false := List.count_pos_iff.mpr (hget ▸ getElem_mem hlt)
  rw [List.count_set hlt, hget]
  simp
  omega

theorem Masks.unset_set {k pos} (h : masks.bit k pos = some false) :
    unset (masks.modify k (·.set pos true)) + 1 = masks.unset := by
  unfold unset bit at *
  induction masks generalizing k with
  | nil => simp at h
  | cons row masks ih =>
    cases k with
    | zero =>
      have := count_false_set (by simpa using h)
      simp only [modify_zero_cons, map_cons, sum_cons]
      omega
    | succ k =>
      have := ih (by simpa using h)
      simp only [modify_succ_cons, map_cons, sum_cons]
      omega

end Bits

/-! ## The loop -/

def Shaped (M : Module) (masks : Masks) : Prop :=
  ∀ k f, M.functions[k]? = some f → ∀ pos, (masks.bit k pos).isSome = true ↔ pos < f.params.length

/-- Bits that are set stay set in the next round, and rightly so. -/
structure Justified (M : Module) (masks : Masks) : Prop where
  shape : Shaped M masks
  live : ∀ s ∈ sites M (trimEligible M), masks.bit s.idx s.pos = some true →
    paramHasObservableUse M masks (trimEligible M) s.func s.param.id = true
  flows : ∀ s ∈ sites M (trimEligible M), masks.bit s.idx s.pos = some true → Flows M s.idx s.param.id

section Loop

variable {masks' : Masks}

theorem calleeObserves_mono (hg : masks.Grows masks') {j pos}
    (h : calleeObserves M masks (trimEligible M) j pos = true) :
    calleeObserves M masks' (trimEligible M) j pos = true := by
  by_contra hno
  obtain ⟨he, hb⟩ := calleeObserves_eq_false.mp (by simpa using hno)
  obtain ⟨hs, ht⟩ := hg j pos
  have hfalse : masks.bit j pos = some false := by
    cases hm : masks.bit j pos with
    | none => simp [hm, hb] at hs
    | some v =>
      cases v with
      | false => rfl
      | true =>
        rw [ht hm] at hb
        cases hb
  rw [calleeObserves_eq_false.mpr ⟨he, hfalse⟩] at h
  cases h

theorem paramHasObservableUse_mono (hg : masks.Grows masks') {f param}
    (h : paramHasObservableUse M masks (trimEligible M) f param = true) :
    paramHasObservableUse M masks' (trimEligible M) f param = true := by
  rw [paramHasObservableUse_iff] at h ⊢
  refine h.imp_left fun ⟨i, hi, ho⟩ => ⟨i, hi, ?_⟩
  by_cases hk : ∃ j args, i.kind = .call (.internal j) args
  · obtain ⟨j, args, hk⟩ := hk
    obtain ⟨pos, ha, hc⟩ := (instObserves_call hk).mp ho
    exact (instObserves_call hk).mpr ⟨pos, ha, calleeObserves_mono hg hc⟩
  · have hk' : ∀ j args, i.kind ≠ .call (.internal j) args := fun j args h => hk ⟨j, args, h⟩
    exact (instObserves_other hk').mpr ((instObserves_other hk').mp ho)

theorem Justified.sound (hj : Justified M masks) (hv : M.Verified) {s} (hs : s ∈ sites M (trimEligible M))
    (h : paramHasObservableUse M masks (trimEligible M) s.func s.param.id = true) : Flows M s.idx s.param.id := by
  obtain ⟨hf, -, -⟩ := mem_sites.mp hs
  rcases paramHasObservableUse_iff.mp h with ⟨i, hi, ho⟩ | ⟨b, hb, t, ht, hu⟩
  · by_cases hk : ∃ j args, i.kind = .call (.internal j) args
    · obtain ⟨j, args, hk⟩ := hk
      obtain ⟨pos, ha, hc⟩ := (instObserves_call hk).mp ho
      by_cases he : Eligible M j
      · -- the call passes an argument for every parameter, so there is a bit, and it is set
        obtain ⟨g, hg, hlen, -⟩ := hv.internal_call (mem_of_getElem? hf) hi hk
        have hlt : pos < g.params.length := hlen ▸ (List.getElem?_eq_some_iff.mp ha).1
        have hsome := (hj.shape j g hg pos).mpr hlt
        have hq : g.params[pos]? = some g.params[pos] := getElem?_eq_getElem hlt
        have hbit : masks.bit j pos = some true := by
          cases hm : masks.bit j pos with
          | none => simp [hm] at hsome
          | some v =>
            cases v with
            | true => rfl
            | false =>
              rw [calleeObserves_eq_false.mpr ⟨he, hm⟩] at hc
              cases hc
        exact .call hf hi hk ha he hg hq (hj.flows ⟨g, j, g.params[pos], pos⟩ (mem_sites.mpr ⟨hg, he, hq⟩) hbit)
      · refine .inst hf hi ?_ fun j' args' hk' => ?_
        · rw [hk]
          exact mem_of_getElem? ha
        · rw [hk] at hk'
          cases hk'
          exact he
    · have hk' : ∀ j args, i.kind ≠ .call (.internal j) args := fun j args h => hk ⟨j, args, h⟩
      exact .inst hf hi ((instObserves_other hk').mp ho) fun j args h => absurd h (hk' j args)
  · exact .term hf hb ht hu

theorem Justified.visit (hj : Justified M masks) (hv : M.Verified) {s} (hs : s ∈ sites M (trimEligible M))
    (c) :
    (visit M (trimEligible M) (masks, c) s = (masks, c) ∧
      masks.bit s.idx s.pos = some (paramHasObservableUse M masks (trimEligible M) s.func s.param.id)) ∨
    ∃ masks', visit M (trimEligible M) (masks, c) s = (masks', true) ∧ Justified M masks' ∧
      masks'.unset < masks.unset := by
  unfold DeadArg.visit
  by_cases hb : masks.bit s.idx s.pos = some (paramHasObservableUse M masks (trimEligible M) s.func s.param.id)
  · exact .inl ⟨if_pos hb, hb⟩
  · right
    obtain ⟨hf, he, hp⟩ := mem_sites.mp hs
    have hsome := (hj.shape s.idx s.func hf s.pos).mpr (List.getElem?_eq_some_iff.mp hp).1
    -- a set bit would be right, so the bit is not set and the parameter has a use
    have hfalse : masks.bit s.idx s.pos = some false ∧
        paramHasObservableUse M masks (trimEligible M) s.func s.param.id = true := by
      cases hm : masks.bit s.idx s.pos with
      | none => simp [hm] at hsome
      | some v =>
        cases v with
        | true => exact absurd (hm.trans (by rw [hj.live s hs hm])) hb
        | false =>
          refine ⟨rfl, ?_⟩
          by_contra hno
          exact hb (hm.trans (by rw [Bool.not_eq_true] at hno; rw [hno]))
    have hgrow : masks.Grows (masks.modify s.idx (·.set s.pos true)) := grows_set
    refine ⟨masks.modify s.idx (·.set s.pos true), by simp [hfalse.1, hfalse.2], ⟨?_, ?_, ?_⟩, ?_⟩
    · intro k f hk pos
      rw [(hgrow k pos).1]
      exact hj.shape k f hk pos
    · intro s' hs' hbit
      apply paramHasObservableUse_mono hgrow
      rw [bit_set] at hbit
      split at hbit
      · next heq => exact site_unique hs hs' heq.1 heq.2 ▸ hfalse.2
      · exact hj.live s' hs' hbit
    · intro s' hs' hbit
      rw [bit_set] at hbit
      split at hbit
      · next heq => exact site_unique hs hs' heq.1 heq.2 ▸ hj.sound hv hs hfalse.2
      · exact hj.flows s' hs' hbit
    · have := unset_set hfalse.1
      omega

theorem Justified.foldl_visit (hv : M.Verified) {ss : List Site} (hss : ∀ s ∈ ss, s ∈ sites M (trimEligible M))
    (hj : Justified M masks) (c) :
    (ss.foldl (DeadArg.visit M (trimEligible M)) (masks, c) = (masks, c) ∧ ∀ s ∈ ss,
      masks.bit s.idx s.pos = some (paramHasObservableUse M masks (trimEligible M) s.func s.param.id)) ∨
    ∃ masks', ss.foldl (DeadArg.visit M (trimEligible M)) (masks, c) = (masks', true) ∧ Justified M masks' ∧
      masks'.unset < masks.unset := by
  induction ss generalizing masks c with
  | nil => exact .inl ⟨rfl, by simp⟩
  | cons s ss ih =>
    have hrest := fun s' hs' => hss s' (.tail _ hs')
    rw [foldl_cons]
    rcases hj.visit hv (hss s mem_cons_self) c with ⟨heq, hbit⟩ | ⟨m₁, heq, hj₁, hlt₁⟩
    · rw [heq]
      rcases ih hrest hj c with ⟨heq', hall⟩ | hchange
      · refine .inl ⟨heq', fun s' hs' => ?_⟩
        rcases mem_cons.mp hs' with rfl | hs'
        · exact hbit
        · exact hall s' hs'
      · exact .inr hchange
    · rw [heq]
      rcases ih hrest hj₁ true with ⟨heq', -⟩ | ⟨m₂, heq₂, hj₂, hlt₂⟩
      · exact .inr ⟨m₁, heq', hj₁, hlt₁⟩
      · exact .inr ⟨m₂, heq₂, hj₂, Nat.lt_trans hlt₂ hlt₁⟩

structure Fixpoint (M : Module) (masks : Masks) : Prop extends Justified M masks where
  stable : ∀ s ∈ sites M (trimEligible M),
    masks.bit s.idx s.pos = some (paramHasObservableUse M masks (trimEligible M) s.func s.param.id)

theorem liveLoop_spec (hv : M.Verified) {n : Nat} (hj : Justified M masks) (hn : masks.unset < n) :
    ∃ masks', liveLoop M (trimEligible M) n masks = some masks' ∧ Fixpoint M masks' := by
  induction n generalizing masks with
  | zero => omega
  | succ n ih =>
    simp only [liveLoop, sweep]
    rcases hj.foldl_visit hv (fun s hs => hs) false with ⟨heq, hall⟩ | ⟨m₁, heq, hj₁, hlt⟩
    · exact ⟨masks, by simp [heq], hj, hall⟩
    · simpa [heq] using ih hj₁ (by omega)

theorem initialMasks_bit {k pos f} (hf : M.functions[k]? = some f) :
    (initialMasks M).bit k pos = if pos < f.params.length then some false else none := by
  simp only [bit, initialMasks, getElem?_map, hf, Option.map_some, Option.bind_some,
    getElem?_replicate]

theorem justified_initialMasks (M) : Justified M (initialMasks M) where
  shape k f hf pos := by
    rw [initialMasks_bit hf]
    split <;> simp_all
  live s hs hb := by
    rw [initialMasks_bit (mem_sites.mp hs).1] at hb
    split at hb <;> cases hb
  flows s hs hb := by
    rw [initialMasks_bit (mem_sites.mp hs).1] at hb
    split at hb <;> cases hb

theorem unset_initialMasks (M) : (initialMasks M).unset < rounds M := by
  have : (initialMasks M).unset = (M.functions.map (·.params.length)).sum := by
    simp [unset, initialMasks, Function.comp_def]
  rw [this, rounds]
  omega

theorem liveMasks_spec (hv : M.Verified) : ∃ masks, liveMasks M = some masks ∧ Fixpoint M masks :=
  liveLoop_spec hv (justified_initialMasks M) (unset_initialMasks M)

theorem Fixpoint.bit_of_use (hfix : Fixpoint M masks) {s f} (hs : s ∈ sites M (trimEligible M))
    (hf : M.functions[s.idx]? = some f) (h : paramHasObservableUse M masks (trimEligible M) f s.param.id = true) :
    masks.bit s.idx s.pos = some true := by
  obtain rfl := Option.some_inj.mp ((mem_sites.mp hs).1.symm.trans hf)
  rw [hfix.stable s hs, h]

/-- A parameter whose value can flow to a use is live. By induction on the way it takes. -/
theorem Fixpoint.complete (hfix : Fixpoint M masks) {k p} (h : Flows M k p) :
    ∀ s ∈ sites M (trimEligible M), s.idx = k → s.param.id = p → masks.bit s.idx s.pos = some true := by
  induction h with
  | @inst k f i p hf hi hp hno =>
    rintro s hs rfl rfl
    refine hfix.bit_of_use hs hf (paramHasObservableUse_iff.mpr (.inl ⟨i, hi, ?_⟩))
    by_cases hk : ∃ j args, i.kind = .call (.internal j) args
    · obtain ⟨j, args, hk⟩ := hk
      rw [hk] at hp
      obtain ⟨pos, hpos⟩ := mem_iff_getElem?.mp hp
      refine (instObserves_call hk).mpr ⟨pos, hpos, ?_⟩
      by_contra hc
      exact hno j args hk (calleeObserves_eq_false.mp (by simpa using hc)).1
    · exact (instObserves_other fun j args h => hk ⟨j, args, h⟩).mpr hp
  | @term k f b t p hf hb ht hu =>
    rintro s hs rfl rfl
    exact hfix.bit_of_use hs hf (paramHasObservableUse_iff.mpr (.inr ⟨b, hb, t, ht, hu⟩))
  | @call k f i p j pos args g q hf hi hk hpos he hg hq _ ih =>
    rintro s hs rfl rfl
    refine hfix.bit_of_use hs hf (paramHasObservableUse_iff.mpr (.inl ⟨i, hi, (instObserves_call hk).mpr ⟨pos, hpos, ?_⟩⟩))
    have hbit := ih ⟨g, j, q, pos⟩ (mem_sites.mpr ⟨hg, he, hq⟩) rfl rfl
    by_contra hc
    have := (calleeObserves_eq_false.mp (by simpa using hc)).2
    rw [hbit] at this
    cases this

theorem Fixpoint.bit_iff (hfix : Fixpoint M masks) {s} (hs : s ∈ sites M (trimEligible M)) :
    masks.bit s.idx s.pos = some true ↔ Flows M s.idx s.param.id :=
  ⟨hfix.flows s hs, fun h => hfix.complete h s hs rfl rfl⟩

end Loop

end Armfortas.Opt.DeadArg
