import Armfortas.Opt.Lemmas.DeadArgSound

/-! The pass does not see that a table of the module holds a function's address, nor that a call names it. Where no
trimmed function is reached in these ways, the module behaves as before. -/
namespace Armfortas.Opt.DeadArg
open Ir List Option

/-! ## Parameters and arguments after the pass -/

/-- Of the functions that may be trimmed, exactly those parameters stay whose value can flow to a use. -/
def KeepsFlowing (M M' : Module) : Prop :=
  ∀ (k : Nat) (f : Function), M.functions[k]? = some f → Eligible M k → ∃ f' : Function, M'.functions[k]? = some f' ∧
    ∀ p ∈ f.params, p ∈ f'.params ↔ Flows M k p.id

/-- Every internal call passes the arguments for the parameters that stay, in order. -/
def Corresponds (M M' : Module) : Prop :=
  ∀ (k : Nat) (f' : Function), M'.functions[k]? = some f' →
    ∀ i' ∈ f'.allInsts, ∀ j args', i'.kind = .call (.internal j) args' →
    ∃ f : Function, M.functions[k]? = some f ∧ ∃ i ∈ f.allInsts, i.id = i'.id ∧
      ∃ (args : List ValueId) (g g' : Function) (keep : List Bool), i.kind = .call (.internal j) args ∧
      M.functions[j]? = some g ∧ M'.functions[j]? = some g' ∧ args.length = g.params.length ∧
      keep.length = g.params.length ∧ args' = keepSlots keep args ∧ g'.params = keepSlots keep g.params

section

variable {M : Module} {masks : Masks}

theorem Fixpoint.trimParams_eq (hfix : Fixpoint M masks) {k f} (hf : M.functions[k]? = some f)
    (he : Eligible M k) : trimParams masks (trimEligible M) k f.params = keepSlots (masks[k]?.getD []) f.params := by
  unfold trimParams
  cases ht : isTrimmed masks (trimEligible M) k with
  | true => rfl
  | false =>
    have he' : (trimEligible M)[k]?.getD false = true := he
    simp only [isTrimmed, he', Bool.true_and, Bool.not_eq_false'] at ht
    exact (keepSlots_all ht (Nat.le_of_eq (hfix.row_length hf).symm)).symm

theorem Fixpoint.keepsFlowing (hfix : Fixpoint M masks) : KeepsFlowing M (trimModule M masks) := by
  intro k f hf he
  refine ⟨_, by rw [functions_trimModule, hf]; rfl, fun p hp => ?_⟩
  change p ∈ trimParams masks (trimEligible M) k f.params ↔ _
  rw [hfix.trimParams_eq hf he, mem_keepSlots]
  constructor
  · rintro ⟨pos, hkeep, hpos⟩
    rw [row_getElem?] at hkeep
    exact (hfix.bit_iff (s := ⟨f, k, p, pos⟩) (mem_sites.mpr ⟨hf, he, hpos⟩)).mp hkeep
  · intro hflow
    obtain ⟨pos, hpos⟩ := mem_iff_getElem?.mp hp
    refine ⟨pos, ?_, hpos⟩
    rw [row_getElem?]
    exact (hfix.bit_iff (s := ⟨f, k, p, pos⟩) (mem_sites.mpr ⟨hf, he, hpos⟩)).mpr hflow

theorem keepSlots_replicate {α : Type} (l : List α) : keepSlots (List.replicate l.length true) l = l :=
  keepSlots_all (by simp) (by simp)

theorem trimInst_call_iff {i j args'} (h : (trimInst M masks (trimEligible M) i).kind = .call (.internal j) args') :
    ∃ args, i.kind = .call (.internal j) args := by
  change trimKind M masks (trimEligible M) i.kind = _ at h
  cases hk : i.kind with
  | call callee args =>
    rw [hk] at h
    cases callee with
    | internal n =>
      obtain ⟨args₁, h₁⟩ := trimKind_call M masks n args
      rw [h₁] at h
      cases h
      exact ⟨args, rfl⟩
    | external name => cases h
    | indirect t => cases h
  | _ =>
    rw [hk] at h
    cases h

theorem Fixpoint.trimModule_eq (hv : M.Verified) (hfix : Fixpoint M masks)
    (hno : ∀ k, trims M masks k = false) : trimModule M masks = M := by
  have hfunctions : (trimModule M masks).functions = M.functions := by
    refine ext_getElem? fun k => ?_
    rw [functions_trimModule]
    cases hf : M.functions[k]? with
    | none => rfl
    | some f =>
      have hblocks : f.blocks.map (trimBlock M masks (trimEligible M)) = f.blocks := by
        refine (map_congr_left (g := id) fun b hb => ?_).trans (List.map_id _)
        have hinsts : b.insts.map (trimInst M masks (trimEligible M)) = b.insts :=
          (map_congr_left (g := id) fun i hi => hfix.trimInst_eq hf (mem_flatMap.mpr ⟨b, hb, hi⟩) hv
            fun j _ _ => hno j).trans (List.map_id _)
        rw [trimBlock, hinsts]
        rfl
      simp [trimFunction, trimParams, hno, hblocks]
  obtain ⟨globals, functions, structDefs, externFuncs⟩ := M
  simp only [trimModule] at hfunctions ⊢
  rw [hfunctions]

theorem Fixpoint.corresponds (hv : M.Verified) (hfix : Fixpoint M masks) : Corresponds M (trimModule M masks) := by
  intro k f' hf' i' hi' j args' hk'
  rw [functions_trimModule] at hf'
  obtain ⟨f, hf, rfl⟩ := map_eq_some_iff.mp hf'
  have hallInsts : (trimFunction M masks (trimEligible M) k f).allInsts =
      f.allInsts.map (trimInst M masks (trimEligible M)) := by
    simp only [Function.allInsts, trimFunction, flatMap_map, trimBlock, map_flatMap]
  rw [hallInsts] at hi'
  obtain ⟨i, hi, rfl⟩ := List.mem_map.mp hi'
  obtain ⟨args, hk⟩ := trimInst_call_iff hk'
  obtain ⟨g, hg, hlen, -⟩ := hv.internal_call (mem_of_getElem? hf) hi hk
  refine ⟨f, hf, i, hi, rfl, args, g, trimFunction M masks (trimEligible M) j g, ?_⟩
  have hg' : (trimModule M masks).functions[j]? = some (trimFunction M masks (trimEligible M) j g) := by
    rw [functions_trimModule, hg]
    rfl
  cases ht : trims M masks j with
  | true =>
    refine ⟨masks[j]?.getD [], hk, hg, hg', hlen, hfix.row_length hg, ?_, ?_⟩
    · rw [trimInst_call hk ht] at hk'
      cases hk'
      rfl
    · simp [trimFunction, trimParams, ht]
  | false =>
    refine ⟨List.replicate g.params.length true, hk, hg, hg', hlen, by simp, ?_, ?_⟩
    · rw [hfix.trimInst_eq hf hi hv fun j' a hk'' => ?_, hk] at hk'
      · cases hk'
        rw [← hlen, keepSlots_replicate]
      · rw [hk] at hk''
        cases hk''
        exact ht
    · simp [trimFunction, trimParams, ht, keepSlots_replicate]

/-! ## The pass -/

/-- Where a table holds the address of a function that may be trimmed, or a call names it, the values of all its
parameters flow to uses. -/
def DirectOnly (M : Module) : Prop :=
  ∀ name ∈ M.tableSymbols ++ externalNames M, ∀ j ∈ M.byName name, Eligible M j →
    ∀ f : Function, M.functions[j]? = some f → ∀ p ∈ f.params, Flows M j p.id

theorem Fixpoint.onlyDirect (hfix : Fixpoint M masks) (h : DirectOnly M) : OnlyDirect M masks := by
  intro name hname j hj
  by_contra ht
  rw [Bool.not_eq_false] at ht
  have he := isTrimmed_eligible ht
  obtain ⟨f, hf, -⟩ := he.function
  rw [trims, isTrimmed, Bool.and_eq_true, Bool.not_eq_true', List.all_eq_false] at ht
  obtain ⟨c, hc, hfalse⟩ := ht.2
  obtain rfl : c = false := by simpa using hfalse
  obtain ⟨pos, hpos⟩ := mem_iff_getElem?.mp hc
  obtain ⟨hlt, -⟩ := List.getElem?_eq_some_iff.mp hpos
  rw [hfix.row_length hf] at hlt
  have hparam := List.getElem?_eq_getElem hlt
  have hbit := (hfix.bit_iff (s := ⟨f, j, _, pos⟩) (mem_sites.mpr ⟨hf, he, hparam⟩)).mpr
    (h name hname j hj he f hf _ (getElem_mem hlt))
  rw [← row_getElem?, hpos] at hbit
  cases hbit

end

/-- `helper(unused, x)` returns `x`. -/
def helper : Function where
  name := "helper"
  params := [⟨0, .int .i32, false⟩, ⟨1, .int .i32, false⟩]
  returnType := .int .i32
  blocks := [⟨0, "entry", [], [], some (.return (some 1))⟩]
  entry := 0
  nextValue := 2
  internalOnly := true

/-- `helper(7, 9)` is called directly. -/
def directCaller : Function where
  name := "main"
  params := []
  returnType := .int .i32
  blocks := [⟨0, "entry", [], [⟨0, .constInt 7 .i32, .int .i32⟩, ⟨1, .constInt 9 .i32, .int .i32⟩,
    ⟨2, .call (.internal 0) [0, 1], .int .i32⟩], some (.return (some 2))⟩]
  entry := 0
  nextValue := 3

def directModule : Module where
  globals := []
  functions := [helper, directCaller]
  structDefs := []
  externFuncs := []

def directStart : Start := .silent directModule 1 [] fun _ _ => none

/-- `helper(7, 9)` is called through the address a table holds. -/
def tableCaller : Function where
  name := "main"
  params := []
  returnType := .int .i32
  blocks := [⟨0, "entry", [], [⟨0, .constInt 7 .i32, .int .i32⟩, ⟨1, .constInt 9 .i32, .int .i32⟩,
    ⟨2, .globalAddr "table", .ptr (.ptr (.int .i8))⟩, ⟨3, .load 2, .ptr (.int .i8)⟩,
    ⟨4, .call (.indirect 3) [0, 1], .int .i32⟩], some (.return (some 4))⟩]
  entry := 0
  nextValue := 5

def tableModule : Module where
  globals := [⟨"table", .ptr (.int .i8), some (.quadTable [.sym "helper"])⟩]
  functions := [helper, tableCaller]
  structDefs := []
  externFuncs := []

def tableMem : Mem := fun b o =>
  if b = .global "table" ∧ 0 ≤ o ∧ o < 8 then some (.frag ⟨.global "helper", 0⟩ o.toNat) else none

def tableStart : Start := .silent tableModule 1 [] tableMem

end Armfortas.Opt.DeadArg
