import Armfortas.Codegen.Lemmas.RelaxScan
import Mathlib.Data.List.Sort

/-! Each rewrite takes one off the number of rewrites that are left, so the passes stay within the structural bound.
The last pass finds nothing out of range, and control goes where it went before. -/
namespace Armfortas.Codegen
open Lib BranchFunction List Option CodeItem

/-! ## A branch over one branch is in range -/

theorem skips_eq_true {t cs} (h : skips t cs = true) :
    ∃ j rest, cs = .inst j :: .label t :: rest ∧ isJump j = true := by
  match cs with
  | [] => cases h
  | [.inst _] => cases h
  | [.label _] => cases h
  | .label _ :: _ :: _ => cases h
  | .inst _ :: .inst _ :: _ => cases h
  | .inst j :: .label t' :: rest =>
    simp only [skips, Bool.and_eq_true, beq_iff_eq] at h
    exact ⟨j, rest, by rw [h.2], h.1⟩

theorem emitTarget_le {mf o} : (emitTarget mf o).getD 0 ≤ 4 := by
  unfold emitTarget
  split
  · exact Nat.zero_le 4
  · split <;> decide
  · exact le_rfl

section Near

variable {other : MachineInst → Nat} {limits : BranchLimits} {mf : BranchFunction} {i : MachineInst}

theorem size_relaxable_le {t limit kind}
    (h : relaxableBranch i limits = some (t, limit, kind)) : mf.size other i ≤ 4 := by
  unfold relaxableBranch at h
  unfold size instEmitBytes
  split at h
  all_goals first
    | (rename_i hop hargs; rw [hop]; exact emitTarget_le)
    | (rename_i hop; rw [hop]; exact emitTarget_le)
    | cases h

theorem size_jump_le (h : isJump i = true) : mf.size other i ≤ 12 := by
  obtain ⟨t, ht⟩ := isJump_iff.mp h
  unfold MachineInst.branch at ht
  unfold size instEmitBytes
  split at ht
  · rename_i hop hargs
    rw [hop]
    exact le_trans emitTarget_le (by decide)
  · rename_i hop hargs
    rw [hop, hargs]
    dsimp only
    split <;> decide
  · split at ht <;> cases ht
  all_goals cases ht

theorem byteOffset_succ {size : MachineInst → Nat} {cs : List CodeItem} {p x}
    (h : cs[p]? = some x) : byteOffset size cs (p + 1) = byteOffset size cs p + x.bytes size := by
  rw [byteOffset, byteOffset, take_add_one, h, map_append, sum_append]
  simp

theorem Overflows.pending {o pos limit} (wf : mf.WellFormed)
    (hcond : 16 ≤ limits.cond) (htbz : 16 ≤ limits.tbz) (h : Overflows other limits mf o pos limit) :
    Pending limits mf o pos := by
  obtain ⟨⟨b, i, hb, hid, hi, hr⟩, q, hq, hlt⟩ := h
  refine ⟨⟨b, i, limit, hb, hid, hi, hr⟩, fun hk => Bool.eq_false_iff.mpr fun hskip => ?_⟩
  obtain ⟨j, rest, hdrop, hjump⟩ := skips_eq_true hskip
  have hget : ∀ k, mf.code[flatPos mf.blocks pos o.instIdx + 1 + k]? =
      (inst j :: .label o.target :: rest)[k]? := fun k => by rw [← getElem?_drop, hdrop]
  have hi' : mf.code[flatPos mf.blocks pos o.instIdx]? = some (.inst i) := getElem?_flatPos hb hi
  have hlabel := labelPos_unique wf.distinct (hget 1)
  rw [hq] at hlabel
  cases hlabel
  have hstep := @byteOffset_succ (mf.size other) _ _ _ hi'
  have hstep' := @byteOffset_succ (mf.size other) _ _ _ (hget 0)
  have hsize := @size_relaxable_le other limits mf i _ _ _ hr
  have hsize' := @size_jump_le other mf j hjump
  have hlimit : 16 ≤ limit := by
    rcases conditional_cases hr hk with ⟨_, _, rfl⟩ | ⟨_, _, _, _, rfl⟩ | ⟨_, _, _, _, _, rfl⟩
    · exact hcond
    · exact hcond
    · exact htbz
  simp only [bytes, add_zero] at hstep hstep'
  rw [hstep', hstep, abs_of_nonneg (by push_cast; omega)] at hlt
  omega

end Near

/-! ## The order of the rewrites -/

def siteKey (mf : BranchFunction) (o : OverflowSite) : Nat := (mf.blockPosition o.blockId).getD 0

def Before (key : OverflowSite → Nat) (a b : OverflowSite) : Prop :=
  key a < key b ∨ key a = key b ∧ a.instIdx < b.instIdx

theorem laterSite_iff {mf a b} : laterSite mf a b = true ↔
    siteKey mf b < siteKey mf a ∨ siteKey mf a = siteKey mf b ∧ b.instIdx ≤ a.instIdx := by
  simp only [laterSite, siteKey, Bool.or_eq_true, decide_eq_true_eq, Bool.and_eq_true, beq_iff_eq]

theorem siteKey_eq {mf : BranchFunction} (wf : mf.WellFormed) {o : OverflowSite} {pos b}
    (hb : mf.blocks[pos]? = some b) (hid : b.id = o.blockId) : mf.blockPosition o.blockId = some pos := by
  rw [← hid]
  exact blockPosition_eq wf.distinct hb

theorem sortSites_spec {mf : BranchFunction} (wf : mf.WellFormed) {sites}
    (hfound : ∀ o ∈ sites, ∃ (pos : Nat) (b : MachineBlock), mf.blocks[pos]? = some b ∧ b.id = o.blockId)
    (hdistinct : sites.Pairwise fun a b => ¬(a.blockId = b.blockId ∧ a.instIdx = b.instIdx)) :
    ∃ sorted, sortSites mf sites = some sorted ∧ sorted.Perm sites ∧
      sorted.Pairwise fun a b => Before (siteKey mf) b a := by
  have hall : (sites.all fun site => (mf.blockPosition site.blockId).isSome) = true := by
    refine List.all_eq_true.mpr fun o ho => ?_
    obtain ⟨pos, b, hb, hid⟩ := hfound o ho
    rw [siteKey_eq wf hb hid]
    rfl
  have hperm := mergeSort_perm sites (laterSite mf)
  refine ⟨_, if_pos hall, hperm, ?_⟩
  have hsorted : (sites.mergeSort (laterSite mf)).Pairwise fun a b => laterSite mf a b = true := by
    refine pairwise_mergeSort (fun a b c hab hbc => ?_) (fun a b => ?_) sites
    · rw [laterSite_iff] at hab hbc ⊢
      omega
    · rw [Bool.or_eq_true, laterSite_iff, laterSite_iff]
      omega
  have hdist := (hperm.pairwise_iff fun {a b} h he => h ⟨he.1.symm, he.2.symm⟩).mpr hdistinct
  refine (hsorted.and hdist).imp_of_mem fun {a b} ha hb h => ?_
  obtain ⟨pa, ba, hba, hida⟩ := hfound a (hperm.mem_iff.mp ha)
  obtain ⟨pb, bb, hbb, hidb⟩ := hfound b (hperm.mem_iff.mp hb)
  rcases laterSite_iff.mp h.1 with hlt | ⟨heq, hle⟩
  · exact .inl hlt
  · refine .inr ⟨heq.symm, lt_of_le_of_ne hle fun he => h.2 ⟨?_, he.symm⟩⟩
    rw [siteKey, siteKey, siteKey_eq wf hba hida, siteKey_eq wf hbb hidb] at heq
    cases heq
    rw [hba] at hbb
    cases hbb
    rw [← hida, ← hidb]

/-! ## One pass -/

section Pass

variable {limits : BranchLimits} {mf mf' : BranchFunction}

theorem take_congr {α : Type} {l l' : List α} {n} (h : ∀ p < n, l'[p]? = l[p]?) : l'.take n = l.take n := by
  apply ext_getElem?
  intro p
  rw [getElem?_take, getElem?_take]
  split
  · exact h p ‹_›
  · rfl

theorem Pending.after {o pos pos' idx} (h : Pending limits mf o pos')
    (hr : Rewritten limits mf mf' pos idx) (hlt : pos' < pos ∨ pos' = pos ∧ o.instIdx < idx) :
    Pending limits mf' o pos' := by
  obtain ⟨⟨b, i, limit, hb, hid, hi, hrel⟩, hfar⟩ := h
  have hblock : ∃ b', mf'.blocks[pos']? = some b' ∧ b'.id = b.id ∧ b'.insts[o.instIdx]? = some i := by
    rcases hlt with hlt | ⟨rfl, hlt⟩
    · exact ⟨b, (hr.earlier pos' hlt).trans hb, rfl, hi⟩
    · obtain ⟨b', hb', hid', hsame⟩ := hr.here b hb
      exact ⟨b', hb', hid', (hsame _ hlt).trans hi⟩
  obtain ⟨b', hb', hid', hi'⟩ := hblock
  refine ⟨⟨b', i, limit, hb', hid'.trans hid, hi', hrel⟩, fun hk => ?_⟩
  have hflat : flatPos mf'.blocks pos' o.instIdx = flatPos mf.blocks pos' o.instIdx := by
    rw [flatPos, flatPos, take_congr fun p hp => hr.earlier p (by omega)]
  obtain ⟨pre, s, s', hcode, hcode', hlen, halike⟩ := hr.code
  have hle : flatPos mf.blocks pos' o.instIdx + 1 ≤ pre.length := by
    rw [hlen]
    exact flatPos_lt hb (List.getElem?_eq_some_iff.mp hi).1 hlt
  have hold := hfar hk
  rw [hcode, drop_append_of_le_length hle, halike.append] at hold
  rw [hflat, hcode', drop_append_of_le_length hle]
  exact hold

theorem expandAll_spec (key : OverflowSite → Nat) (sites : List OverflowSite) (wf : mf.WellFormed)
    (hpending : ∀ o ∈ sites, Pending limits mf o (key o)) (hsorted : sites.Pairwise fun a b => Before key b a) :
    ∃ mf', expandAll mf sites = some mf' ∧ mf'.WellFormed ∧ (∃ place, Places mf.code mf'.code place) ∧
      budget limits mf'.code + sites.length = budget limits mf.code := by
  induction sites generalizing mf with
  | nil => exact ⟨mf, rfl, wf, ⟨id, .refl _⟩, rfl⟩
  | cons o sites ih =>
    obtain ⟨hlast, hsorted⟩ := pairwise_cons.mp hsorted
    obtain ⟨mf₁, hrun, hr⟩ := expandOverflow_spec wf (hpending o mem_cons_self)
    have hrest : ∀ o' ∈ sites, Pending limits mf₁ o' (key o') := fun o' ho' =>
      (hpending o' (.tail _ ho')).after hr (hlast o' ho')
    obtain ⟨mf₂, hrun', wf', ⟨place', hp'⟩, hb'⟩ := ih hr.wellFormed hrest hsorted
    obtain ⟨place, hp⟩ := hr.places
    have hb := hr.budget
    refine ⟨mf₂, ?_, wf', ⟨place' ∘ place, hp.trans hp'⟩, ?_⟩
    · rw [expandAll, hrun]
      exact hrun'
    · rw [length_cons]
      omega

end Pass

theorem relaxOnce_spec {other : MachineInst → Nat} {limits : BranchLimits} {mf : BranchFunction} (wf : mf.WellFormed)
    (hcond : 16 ≤ limits.cond) (htbz : 16 ≤ limits.tbz) :
    (relaxOnceWithLimits other limits mf = some (mf, false) ∧ mf.InRange other limits) ∨
      ∃ mf', relaxOnceWithLimits other limits mf = some (mf', true) ∧ mf'.WellFormed ∧
        (∃ place, Places mf.code mf'.code place) ∧ budget limits mf'.code < budget limits mf.code := by
  obtain ⟨layout, overflows, hscan, hover, hmem, hdistinct⟩ := @scan_spec other limits mf wf
  by_cases hnil : overflows = []
  · left
    constructor
    · simp only [relaxOnceWithLimits, hscan, bind_eq_bind, bind_some, hover, hnil, isEmpty_nil,
        if_true]
    · intro p q i t limit kind hp hr hq
      obtain ⟨pos, b, idx, hb, hi, rfl⟩ := block_of_inst hp
      by_contra hlt
      have hin : (⟨b.id, idx, t, kind⟩ : OverflowSite) ∈ overflows :=
        (hmem _).mpr ⟨pos, limit, ⟨b, i, hb, rfl, hi, hr⟩, q, hq, not_le.mp hlt⟩
      rw [hnil] at hin
      cases hin
  · right
    have hfound : ∀ o ∈ overflows, ∃ (pos : Nat) (b : MachineBlock), mf.blocks[pos]? = some b ∧ b.id = o.blockId := by
      intro o ho
      obtain ⟨pos, limit, ⟨b, i, hb, hid, -⟩, -⟩ := (hmem o).mp ho
      exact ⟨pos, b, hb, hid⟩
    obtain ⟨sorted, hsort, hperm, hsorted⟩ := sortSites_spec wf hfound hdistinct
    have hpending : ∀ o ∈ sorted, Pending limits mf o (siteKey mf o) := by
      intro o ho
      obtain ⟨pos, limit, hov⟩ := (hmem o).mp (hperm.mem_iff.mp ho)
      obtain ⟨b, i, hb, hid, -⟩ := hov.found
      rw [siteKey, siteKey_eq wf hb hid]
      exact hov.pending wf hcond htbz
    obtain ⟨mf', hrun, wf', hplaces, hbudget⟩ := expandAll_spec (siteKey mf) sorted wf hpending hsorted
    refine ⟨mf', ?_, wf', hplaces, ?_⟩
    · have hempty : overflows.isEmpty = false := isEmpty_eq_false_iff.mpr hnil
      simp only [relaxOnceWithLimits, hscan, bind_eq_bind, bind_some, hover, hempty, hsort, hrun,
        Bool.false_eq_true, if_false]
    · have hlen : 0 < sorted.length := by
        rw [hperm.length_eq]
        exact length_pos_iff.mpr hnil
      omega

/-! ## All passes -/

theorem relaxPasses_spec {other : MachineInst → Nat} {limits : BranchLimits} (hcond : 16 ≤ limits.cond)
    (htbz : 16 ≤ limits.tbz) (bound : Nat) {mf : BranchFunction} (wf : mf.WellFormed)
    (hbound : budget limits mf.code < bound) :
    ∃ mf', relaxPasses other limits bound mf = some mf' ∧ mf'.InRange other limits ∧
      ∃ place, Places mf.code mf'.code place := by
  induction bound generalizing mf with
  | zero => exact absurd hbound (Nat.not_lt_zero _)
  | succ bound ih =>
    rcases @relaxOnce_spec other limits mf wf hcond htbz with
      ⟨hrun, hrange⟩ | ⟨mf₁, hrun, wf₁, ⟨place, hp⟩, hlt⟩
    · refine ⟨mf, ?_, hrange, id, .refl _⟩
      rw [relaxPasses, hrun]
      rfl
    · obtain ⟨mf', hrun', hrange, place', hp'⟩ := ih wf₁ (by omega)
      refine ⟨mf', ?_, hrange, place' ∘ place, hp.trans hp'⟩
      rw [relaxPasses, hrun]
      exact hrun'

def CodeItem.inst? : CodeItem → Option MachineInst
  | .inst i => some i
  | .label _ => none

theorem budget_le (limits : BranchLimits) (cs : List CodeItem) :
    budget limits cs ≤ (cs.filterMap inst?).countP (isConditional limits) * 2 +
      (cs.filterMap inst?).countP (isUnconditional limits) := by
  induction cs with
  | nil => exact Nat.zero_le _
  | cons x cs ih =>
    cases x with
    | label b =>
      have hlist : (label b :: cs).filterMap inst? = cs.filterMap inst? := rfl
      have hzero : rewrites limits (.label b :: cs) = 0 := rfl
      rw [hlist, budget, hzero, Nat.zero_add]
      exact ih
    | inst i =>
      have hlist : (inst i :: cs).filterMap inst? = i :: cs.filterMap inst? := rfl
      have hweight : rewrites limits (.inst i :: cs) ≤
          (if isConditional limits i then 1 else 0) * 2 + (if isUnconditional limits i then 1 else 0) := by
        cases hr : relaxableBranch i limits with
        | none => simp [rewrites, hr]
        | some r =>
          obtain ⟨t, limit, kind⟩ := r
          cases kind with
          | b => simp [rewrites, isConditional, isUnconditional, hr]
          | bCond | cbz | tbz =>
            simp only [rewrites, isConditional, isUnconditional, hr]
            split <;> simp
      rw [hlist, countP_cons, countP_cons, budget]
      omega

theorem filterMap_code (bs : List MachineBlock) :
    (code bs).filterMap inst? = bs.flatMap MachineBlock.insts := by
  induction bs with
  | nil => rfl
  | cons b bs ih =>
    have hlabel : inst? (.label b.id) = none := rfl
    have hinsts : (b.insts.map inst).filterMap inst? = b.insts := by
      rw [filterMap_map]
      exact filterMap_some
    rw [code_cons, filterMap_cons_none hlabel, filterMap_append, hinsts, ih, flatMap_cons]

/-- Relaxation of a function the emitter accepts: it ends within its bound, every local branch then reaches its target,
and from every instruction each outcome leads to the instruction it led to before. The sizes of the instructions that are
not local branches are arbitrary. -/
theorem relaxBranches_relaxes (other : MachineInst → Nat) (mf : BranchFunction) (wf : mf.WellFormed) :
    ∃ mf', relaxBranches other mf = some mf' ∧ mf'.InRange other productionBranchLimits ∧
      ∃ place, Places mf.code mf'.code place := by
  have hbudget := budget_le productionBranchLimits mf.code
  rw [BranchFunction.code, filterMap_code] at hbudget
  exact relaxPasses_spec (by decide) (by decide) _ wf (Nat.lt_succ_of_le hbudget)

/-- A branch over a block of two million bytes, and back. -/
def farLoop : BranchFunction where
  name := "far"
  blocks := [⟨0, "_far", [⟨.bCond, [.cond .ne, .blockRef 2], none⟩]⟩, ⟨1, "pad", [⟨.nop, [], none⟩]⟩,
    ⟨2, "end", [branchTo 0]⟩]
  nextBlock := 3
  longBranchLabels := []

theorem farLoop_wellFormed : farLoop.WellFormed where
  distinct := by decide
  numbered := by decide
  emitted := by
    intro i hi other
    simp only [BranchFunction.code, farLoop, code, MachineBlock.code, flatMap_cons, flatMap_nil, map_cons,
      map_nil, cons_append, nil_append, mem_cons, inst.injEq, reduceCtorEq, not_mem_nil,
      or_false, false_or] at hi
    rcases hi with rfl | rfl | rfl <;> rfl
  targets := by
    intro i hi t test hb
    simp only [BranchFunction.code, farLoop, code, MachineBlock.code, flatMap_cons, flatMap_nil, map_cons,
      map_nil, cons_append, nil_append, mem_cons, inst.injEq, reduceCtorEq, not_mem_nil,
      or_false, false_or] at hi
    rcases hi with rfl | rfl | rfl <;> cases hb <;> rfl

theorem relaxBranches_relaxes_farLoop :
    ∃ mf', relaxBranches (fun _ => 2000000) farLoop = some mf' ∧
      mf'.InRange (fun _ => 2000000) productionBranchLimits ∧ ∃ place, Places farLoop.code mf'.code place :=
  relaxBranches_relaxes (fun _ => 2000000) farLoop farLoop_wellFormed

end Armfortas.Codegen
