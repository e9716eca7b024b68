import Armfortas.Codegen.Lemmas.Abi

/-! Every list of arguments that does not overflow the stack gets its places, unless an eightbyte of an argument that
may go to registers is padding only or a leaf lies outside of its aggregate. -/
namespace Armfortas.Codegen.X86
open List Option

/-- From left to right, every argument by the state that those before it leave. -/
structure CallPlaces (tys : List AbiTy) (locs : List X86AbiArgLoc) : Prop where
  regs : (locs.flatMap X86AbiArgLoc.regs).Nodup
  areas : (locs.filterMap X86AbiArgLoc.area).Pairwise fun a b => a.2 ≤ b.1
  each : ∀ before ty after, tys = before ++ ty :: after →
    ∃ locs₁ st loc st', classifyArgs before {} = some (locs₁, st) ∧ locs[before.length]? = some loc ∧
      classifyAbiArg ty st = some (loc, st') ∧ (loc.area.isSome ↔ classify ty = some .memory ∨ st.Full ty) ∧
      (loc.area.isSome → st'.gpIdx = st.gpIdx ∧ st'.xmmIdx = st.xmmIdx) ∧
      ∀ offset size align, loc = .stack offset size align →
        align.toInt = ty.stackAlign ∧ align.toInt ∣ offset.toInt ∧ ty.size ≤ size.toInt

theorem classifyArgs_append (tys tys' : List AbiTy) (st : X86AbiState) :
    classifyArgs (tys ++ tys') st = (classifyArgs tys st).bind fun r =>
      (classifyArgs tys' r.2).map fun r' => (r.1 ++ r'.1, r'.2) := by
  induction tys generalizing st with
  | nil => cases h : classifyArgs tys' st <;> simp [classifyArgs, h]
  | cons ty tys ih =>
    rw [cons_append, classifyArgs, classifyArgs]
    cases classifyAbiArg ty st with
    | none => rfl
    | some r =>
      simp only [bind_some, ih]
      cases classifyArgs tys r.2 with
      | none => rfl
      | some r₁ => cases h : classifyArgs tys' r₁.2 <;> simp [h]

theorem classifyArgs_placement {tys} (hcov : ∀ ty ∈ tys, ty.covered = true) {st : X86AbiState} {rest : Nat}
    (hroom : st.Room ((tys.map AbiTy.stackCost).sum + rest)) :
    ∃ locs st', classifyArgs tys st = some (locs, st') ∧ locs.length = tys.length ∧ Placement st st' locs ∧ st'.Room rest := by
  induction tys generalizing st with
  | nil => exact ⟨[], st, rfl, rfl, .refl st, by simpa using hroom⟩
  | cons ty tys ih =>
    obtain ⟨hty, htys⟩ := forall_mem_cons.mp hcov
    have hlt := hroom.lt
    rw [map_cons, sum_cons] at hlt
    have hroom₀ : st.Room ty.stackCost := ⟨hroom.nonneg, by omega⟩
    obtain ⟨loc, st₁, hfirst, hplace⟩ := classifyAbiArg_place hty hroom₀
    have hgrows := hplace.grows
    have hroom₁ : st₁.Room ((tys.map AbiTy.stackCost).sum + rest) :=
      ⟨hroom.nonneg.trans hplace.placement.stack, by omega⟩
    obtain ⟨locs, st', hrest, hlen, hplacement, hroom'⟩ := ih htys hroom₁
    refine ⟨loc :: locs, st', ?_, by simp [hlen], hplace.placement.trans hplacement, hroom'⟩
    rw [classifyArgs, hfirst, bind_some, hrest]
    rfl

theorem callPlaces {tys} (hfits : (tys.map AbiTy.stackCost).sum < 2 ^ 63) (hcov : ∀ ty ∈ tys, ty.covered = true) :
    ∃ locs st, classifyArgs tys {} = some (locs, st) ∧ CallPlaces tys locs := by
  have hroom : ({} : X86AbiState).Room (tys.map AbiTy.stackCost).sum := by
    refine ⟨Int.le_refl _, ?_⟩
    change (0 : Int) + _ < _
    omega
  obtain ⟨locs, st, hrun, -, hplacement, -⟩ := @classifyArgs_placement _ hcov _ 0 hroom
  refine ⟨locs, st, hrun, hplacement.nodup, hplacement.ordered, ?_⟩
  rintro before ty after rfl
  rw [forall_mem_append, forall_mem_cons] at hcov
  rw [map_append, map_cons, sum_append, sum_cons] at hroom
  obtain ⟨locs₁, st₁, hbefore, hlen, -, hroom₁⟩ := classifyArgs_placement hcov.1 hroom
  have hlt := hroom₁.lt
  have hroom' : st₁.Room ty.stackCost := ⟨hroom₁.nonneg, by omega⟩
  obtain ⟨loc, st', harg, hplace⟩ := classifyAbiArg_place hcov.2.1 hroom'
  refine ⟨locs₁, st₁, loc, st', hbefore, ?_, harg, hplace.onStack, hplace.keepsFiles, hplace.aligned⟩
  rw [classifyArgs_append, hbefore, bind_some, classifyArgs, harg, bind_some, Option.map_map] at hrun
  obtain ⟨rest, -, heq⟩ := map_eq_some_iff.mp hrun
  cases heq
  rw [← hlen, getElem?_append_right (Nat.le_refl _), Nat.sub_self]
  rfl

theorem covered_of_classifyArgs {tys st r} (h : classifyArgs tys st = some r) : ∀ ty ∈ tys, ty.covered = true := by
  induction tys generalizing st r with
  | nil => simp
  | cons ty tys ih =>
    rw [classifyArgs] at h
    obtain ⟨r₁, hfirst, hrest⟩ := bind_eq_some_iff.mp h
    obtain ⟨r₂, hrun, -⟩ := map_eq_some_iff.mp hrest
    refine forall_mem_cons.mpr ⟨?_, ih hrun⟩
    rw [← Bool.not_eq_false]
    intro hno
    rw [classifyAbiArg_none hno] at hfirst
    cases hfirst

/-- An aggregate of three eightbytes, one whose eightbytes are of different classes, and an integer of sixteen bytes. -/
def mixedCall : List AbiTy :=
  [.aggregate ⟨24, 8, [(0, .i64), (8, .f64), (16, .i32)], by decide, 3, by decide, rfl⟩,
    .aggregate ⟨16, 8, [(0, .i64), (8, .f64)], by decide, 3, by decide, rfl⟩, .complexF64, .scalar .i128]

/-- An integer of eight bytes in an aggregate with the alignment sixteen: the second eightbyte is padding. -/
def paddedLong : AbiTy := .aggregate ⟨16, 16, [(0, .i64)], by decide, 4, by decide, rfl⟩

end Armfortas.Codegen.X86
