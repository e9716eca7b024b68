import Armfortas.Ir.Lemmas.Patch
import Armfortas.Ir.Lemmas.Ssa
import Armfortas.Opt.Interchange

/-! The rewrite exchanges initial values and bounds but not the induction variables, so the body sees each variable
run over the other loop's range. Nothing changes when the two ranges are the same. -/
namespace Armfortas.Opt.Interchange
open Ir Lib List Option Function

/-! ## One rewritten operand -/

theorem getElem?_set_zero {args : List ValueId} {u} (val : ValueId) (h : args[0]? = some u) :
    (args.set 0 val)[0]? = some val := by
  cases args with
  | nil => cases h
  | cons a as => rfl

theorem getBranchArgTo_setBranchArgTo {dst dst' val u t} (h : getBranchArgTo dst' t = some u) :
    ∃ u', getBranchArgTo dst' (setBranchArgTo dst val t) = some u' ∧ (u' = val ∨ u' = u) := by
  cases t with
  | «return» v => cases h
  | unreachable => cases h
  | switch s cases d => cases h
  | branch d args =>
    simp only [getBranchArgTo] at h ⊢
    split at h
    · next hd =>
      simp only [setBranchArgTo, if_pos hd]
      split
      · exact ⟨val, getElem?_set_zero val h, .inl rfl⟩
      · exact ⟨u, h, .inr rfl⟩
    · cases h
  | condBranch c td targs fd fargs =>
    simp only [getBranchArgTo] at h
    simp only [setBranchArgTo]
    split at h
    · next htd =>
      split
      · exact ⟨val, by simp only [getBranchArgTo, if_pos htd, getElem?_set_zero val h], .inl rfl⟩
      · split <;> exact ⟨u, by simp only [getBranchArgTo, if_pos htd, h], .inr rfl⟩
    · next htd =>
      split at h
      · next hfd =>
        split
        · exact ⟨u, by simp only [getBranchArgTo, if_neg htd, if_pos hfd, h], .inr rfl⟩
        · split
          · exact ⟨val, by simp only [getBranchArgTo, if_neg htd, if_pos hfd, getElem?_set_zero val h], .inl rfl⟩
          · exact ⟨u, by simp only [getBranchArgTo, if_neg htd, if_pos hfd, h], .inr rfl⟩
      · cases h

theorem enter_set {f : Function} {d} {args : List ValueId} {σ : State} {u val}
    (hu : args[0]? = some u) (h : σ.env u = σ.env val) : f.enter d (args.set 0 val) σ = f.enter d args σ := by
  cases args with
  | nil => rfl
  | cons a as =>
    cases hu
    simp only [enter, set_cons_zero, mapM_cons, h]

theorem execTerm_setBranchArgTo {f : Function} {T dst u val t}
    {σ : State} (hu : getBranchArgTo dst t = some u) (h : σ.env u = σ.env val) :
    f.execTerm T (setBranchArgTo dst val t) σ = f.execTerm T t σ := by
  cases t with
  | «return» v => rfl
  | unreachable => rfl
  | switch s cases d => rfl
  | branch d args =>
    simp only [getBranchArgTo] at hu
    simp only [setBranchArgTo, execTerm]
    split at hu
    · next hd => rw [if_pos hd]; exact enter_set hu h
    · cases hu
  | condBranch c td targs fd fargs =>
    simp only [getBranchArgTo] at hu
    simp only [setBranchArgTo]
    split at hu
    · next htd =>
      have hlen : 0 < targs.length := (List.getElem?_eq_some_iff.mp hu).1
      rw [if_pos ⟨htd, hlen⟩]
      simp only [execTerm, enter_set hu h]
    · next htd =>
      split at hu
      · next hfd =>
        have hlen : 0 < fargs.length := (List.getElem?_eq_some_iff.mp hu).1
        rw [if_neg fun hc => htd hc.1, if_pos ⟨hfd, hlen⟩]
        simp only [execTerm, enter_set hu h]
      · cases hu

theorem exec_swapOperand {T W iv old new i i'} {σ : State}
    (hi : swapOperand iv old new i = some i') (h : σ.env old = σ.env new) : i'.exec T W σ = i.exec T W σ := by
  obtain ⟨id, kind, ty⟩ := i
  cases kind <;> simp only [swapOperand, reduceCtorEq] at hi
  case iCmp op a b =>
    split at hi
    · next hab =>
      cases hi
      simp only [Inst.exec, InstKind.operands, mapM_cons, ← h, hab.2]
      rfl
    · split at hi
      · next hab =>
        cases hi
        simp only [Inst.exec, InstKind.operands, mapM_cons, ← h, hab.2]
        rfl
      · cases hi

theorem swapFirst_getElem? {iv old new : ValueId} {is : List Inst} {k : Nat} {i i'} (hi : is[k]? = some i)
    (hi' : (swapFirst iv old new is)[k]? = some i') : i' = i ∨ swapOperand iv old new i = some i' := by
  induction is generalizing k with
  | nil => cases hi
  | cons j is ih =>
    simp only [swapFirst] at hi'
    split at hi'
    · next j' hj =>
      cases k with
      | zero =>
        cases hi
        cases hi'
        exact .inr hj
      | succ k => exact .inl (some.inj (hi'.symm.trans hi))
    · cases k with
      | zero => exact .inl (some.inj (hi'.symm.trans hi))
      | succ k => exact ih hi hi'

theorem length_swapFirst (iv old new : ValueId) (is : List Inst) : (swapFirst iv old new is).length = is.length := by
  induction is with
  | nil => rfl
  | cons j is ih =>
    simp only [swapFirst]
    split
    · rfl
    · simp [ih]

/-! ## One rewritten block -/

section Steps

variable {L : Launch} {f : Function} (hnd : f.BlocksNodup)
include hnd

theorem sameRun_setArg {b dst val}
    (h : ∀ blk t σ, f.tryBlock b = some blk → blk.terminator = some t → L.At f b blk.insts.length σ →
      ∃ u, getBranchArgTo dst t = some u ∧ σ.env u = σ.env val) : L.SameRun f (setArg f b dst val) := by
  refine Launch.sameRun_modifyBlock hnd b _ (fun _ => rfl) fun blk hblk => ?_
  refine ⟨rfl, rfl, fun k σ i i' _ hi hi' => ?_, fun σ hat => ?_⟩
  · cases hi.symm.trans hi'
    rfl
  · cases ht : blk.terminator with
    | none => exact .inl ⟨rfl, rfl⟩
    | some t =>
      obtain ⟨-, rfl⟩ := mem_blocks_of_tryBlock hblk
      obtain ⟨u, hu, henv⟩ := h blk t σ hblk ht hat
      exact .inr ⟨t, _, rfl, rfl, execTerm_setBranchArgTo hu henv⟩

theorem sameRun_swapBound {b : BlockId} {iv old new : ValueId}
    (h : ∀ blk k i i' σ, f.tryBlock b = some blk → L.At f b k σ → blk.insts[k]? = some i →
      swapOperand iv old new i = some i' → σ.env old = σ.env new) : L.SameRun f (swapBound f b iv old new) := by
  refine Launch.sameRun_modifyBlock hnd b _ (fun _ => rfl) fun blk hblk => ?_
  refine ⟨rfl, length_swapFirst iv old new blk.insts, fun k σ i i' hat hi hi' => ?_, fun σ _ => ?_⟩
  · obtain ⟨-, rfl⟩ := mem_blocks_of_tryBlock hblk
    rcases swapFirst_getElem? hi hi' with rfl | hswap
    · rfl
    · exact exec_swapOperand hswap (h blk k i i' σ hblk hat hi hswap)
  · cases ht : blk.terminator with
    | none => exact .inl ⟨rfl, rfl⟩
    | some t => exact .inr ⟨t, t, rfl, rfl, rfl⟩

end Steps

/-! ## Equal ranges -/

/-- Where the pass rewrites an operand, the run finds the two initial values, or the two bounds, equal. -/
structure SameRange (L : Launch) (f : Function) (outer inner : LoopShape) (e : Entries) : Prop where
  init : ∀ blk ∈ f.blocks, blk.id = e.outerPh ∨ blk.id = e.innerEntry → ∀ σ, L.At f blk.id blk.insts.length σ →
    σ.env e.outerInit = σ.env e.innerInit
  outerBound : ∀ blk ∈ f.blocks, blk.id = outer.cmpBlock → ∀ k i i' σ, L.At f blk.id k σ → blk.insts[k]? = some i →
    swapOperand outer.iv outer.bound inner.bound i = some i' → σ.env outer.bound = σ.env inner.bound
  innerBound : ∀ blk ∈ f.blocks, blk.id = inner.cmpBlock → ∀ k i i' σ, L.At f blk.id k σ → blk.insts[k]? = some i →
    swapOperand inner.iv inner.bound outer.bound i = some i' → σ.env outer.bound = σ.env inner.bound

theorem entries_eq_some {f outer inner e} (h : entries f outer inner = some e) :
    (f.terminatorOf e.outerPh).bind (getBranchArgTo outer.header) = some e.outerInit ∧
    (f.terminatorOf e.innerEntry).bind (getBranchArgTo inner.header) = some e.innerInit := by
  unfold entries at h
  simp only [bind_eq_bind, bind_eq_some_iff] at h
  obtain ⟨ph, -, en, -, oi, hoi, ii, hii, heq⟩ := h
  cases heq
  exact ⟨bind_eq_some_iff.mpr hoi, bind_eq_some_iff.mpr hii⟩

theorem tryBlock_setArg {f : Function} (hnd : f.BlocksNodup) {b dst c val blk'}
    (h : (setArg f b dst val).tryBlock c = some blk') : ∃ blk, f.tryBlock c = some blk ∧ blk'.insts = blk.insts ∧
    (blk'.terminator = blk.terminator ∨ blk'.terminator = blk.terminator.map (setBranchArgTo dst val)) := by
  rw [setArg, tryBlock_modifyBlock hnd b fun _ => by rfl] at h
  obtain ⟨blk, hblk, rfl⟩ := map_eq_some_iff.mp h
  refine ⟨blk, hblk, ?_⟩
  split
  · exact ⟨rfl, .inr rfl⟩
  · exact ⟨rfl, .inl rfl⟩

theorem tryBlock_swapBound {f : Function} (hnd : f.BlocksNodup) {b c iv old new blk'}
    (h : (swapBound f b iv old new).tryBlock c = some blk') : ∃ blk, f.tryBlock c = some blk ∧
    (blk'.insts = blk.insts ∨ (blk.id = b ∧ blk'.insts = swapFirst iv old new blk.insts)) := by
  rw [swapBound, tryBlock_modifyBlock hnd b fun _ => by rfl] at h
  obtain ⟨blk, hblk, rfl⟩ := map_eq_some_iff.mp h
  refine ⟨blk, hblk, ?_⟩
  split
  · next hb => exact .inr ⟨hb, rfl⟩
  · exact .inl rfl

theorem nodup_setArg {f : Function} (hnd : f.BlocksNodup) (b dst : BlockId) (val : ValueId) :
    (setArg f b dst val).BlocksNodup :=
  nodup_modifyBlock hnd b fun _ => rfl

theorem nodup_swapBound {f : Function} (hnd : f.BlocksNodup) (b : BlockId) (iv old new : ValueId) :
    (swapBound f b iv old new).BlocksNodup :=
  nodup_modifyBlock hnd b fun _ => rfl

section Nest

variable {L : Launch} {f : Function} (hnd : f.BlocksNodup) {outer inner : LoopShape} {e : Entries}
  (he : entries f outer inner = some e) (hs : SameRange L f outer inner e)
include hs

include hnd he in
/-- The initial values. Both loops may be entered from one block. -/
theorem sameRun_inits :
    L.SameRun f (setArg (setArg f e.outerPh outer.header e.innerInit) e.innerEntry inner.header e.outerInit) := by
  obtain ⟨hoi, hii⟩ := entries_eq_some he
  have h₁ : L.SameRun f (setArg f e.outerPh outer.header e.innerInit) := by
    refine sameRun_setArg hnd fun blk t σ hblk ht hat => ⟨e.outerInit, ?_, ?_⟩
    · simpa [terminatorOf, hblk, ht] using hoi
    · obtain ⟨hmem, hid⟩ := mem_blocks_of_tryBlock hblk
      exact hs.init blk hmem (.inl hid) σ (hid ▸ hat)
  refine h₁.trans (sameRun_setArg (nodup_setArg hnd _ _ _) fun blk₁ t₁ σ hblk₁ ht₁ hat => ?_)
  obtain ⟨blk, hblk, hinsts, hterm⟩ := tryBlock_setArg hnd hblk₁
  obtain ⟨hmem, hid⟩ := mem_blocks_of_tryBlock hblk
  have henv := hs.init blk hmem (.inr hid) σ (hid ▸ hinsts ▸ (h₁.at_iff _ _ _).mp hat)
  cases ht : blk.terminator with
  | none => rcases hterm with hterm | hterm <;> simp [hterm, ht] at ht₁
  | some t =>
    have hget : getBranchArgTo inner.header t = some e.innerInit := by
      simpa [terminatorOf, hblk, ht] using hii
    rcases hterm with hterm | hterm <;> rw [hterm, ht] at ht₁ <;> cases ht₁
    · exact ⟨e.innerInit, hget, henv.symm⟩
    · obtain ⟨u, hu, rfl | rfl⟩ := @getBranchArgTo_setBranchArgTo outer.header _ e.innerInit _ _ hget <;>
        exact ⟨_, hu, henv.symm⟩

/-- The bounds, in a function with the same instructions. Both comparisons may stand in one block. -/
theorem sameRun_bounds {g : Function} (hndg : g.BlocksNodup) (hrun : L.SameRun f g)
    (hinsts : ∀ c blk', g.tryBlock c = some blk' → ∃ blk, f.tryBlock c = some blk ∧ blk'.insts = blk.insts) :
    L.SameRun f (swapBound (swapBound g outer.cmpBlock outer.iv outer.bound inner.bound) inner.cmpBlock inner.iv
      inner.bound outer.bound) := by
  have h₁ : L.SameRun g (swapBound g outer.cmpBlock outer.iv outer.bound inner.bound) := by
    refine sameRun_swapBound hndg fun blk' k i i' σ hblk' hat hi hi' => ?_
    obtain ⟨blk, hblk, heq⟩ := hinsts _ _ hblk'
    obtain ⟨hmem, hid⟩ := mem_blocks_of_tryBlock hblk
    exact hs.outerBound blk hmem hid k i i' σ (hid ▸ (hrun.at_iff _ _ _).mp hat) (heq ▸ hi) hi'
  refine (hrun.trans h₁).trans (sameRun_swapBound (nodup_swapBound hndg _ _ _ _) ?_)
  intro blk₁ k i i' σ hblk₁ hat hi hi'
  obtain ⟨blk', hblk', heq'⟩ := tryBlock_swapBound hndg hblk₁
  obtain ⟨blk, hblk, heq⟩ := hinsts _ _ hblk'
  obtain ⟨hmem, hid⟩ := mem_blocks_of_tryBlock hblk
  have hat' : L.At f blk.id k σ := hid ▸ ((hrun.trans h₁).at_iff _ _ _).mp hat
  rcases heq' with heq' | ⟨hb, heq'⟩
  · exact (hs.innerBound blk hmem hid k i i' σ hat' (heq ▸ heq' ▸ hi) hi').symm
  · rw [heq', heq] at hi
    have hlt : k < blk.insts.length := by
      have := (List.getElem?_eq_some_iff.mp hi).1
      rwa [length_swapFirst] at this
    have hi₀ : blk.insts[k]? = some blk.insts[k] := getElem?_eq_getElem hlt
    rcases swapFirst_getElem? hi₀ hi with rfl | hswap
    · exact (hs.innerBound blk hmem hid k _ i' σ hat' hi₀ hi').symm
    · have hbo : blk.id = outer.cmpBlock := hid.trans ((mem_blocks_of_tryBlock hblk').2.symm.trans hb)
      exact (hs.outerBound blk hmem hbo k _ i σ hat' hi₀ hswap).symm

end Nest

/-- When the ranges agree, the rewritten function runs exactly as the original. -/
theorem sameRun_doInterchange {L} {f : Function} (hnd : f.BlocksNodup) {outer inner}
    (hs : ∀ e, entries f outer inner = some e → SameRange L f outer inner e) :
    L.SameRun f (doInterchange f outer inner) := by
  unfold doInterchange
  cases he : entries f outer inner with
  | none => exact .refl L f
  | some e =>
    have hs := hs e he
    refine sameRun_bounds hs (nodup_setArg (nodup_setArg hnd _ _ _) _ _ _) (sameRun_inits hnd he hs) ?_
    intro c blk₂ hblk₂
    obtain ⟨blk₁, hblk₁, heq₁, -⟩ := tryBlock_setArg (nodup_setArg hnd _ _ _) hblk₂
    obtain ⟨blk, hblk, heq, -⟩ := tryBlock_setArg hnd hblk₁
    exact ⟨blk, hblk, heq₁.trans heq⟩

/-- `do j = 0, n; do i = 0, m; a(j + 4 * i) = 7`, where `n` and `m` are the values numbered `outer` and `inner`:
3 is one iteration, 4 and 7 are two. The result is `a(4)`. -/
def nest (outer inner : ValueId) : Function where
  name := "nest"
  params := [⟨0, .ptr (.int .i32), false⟩]
  returnType := .int .i32
  blocks := [
    ⟨0, "entry", [], [⟨1, .constInt 0 .i64, .int .i64⟩, ⟨2, .constInt 1 .i64, .int .i64⟩,
      ⟨3, .constInt 1 .i64, .int .i64⟩, ⟨4, .constInt 2 .i64, .int .i64⟩, ⟨5, .constInt 4 .i64, .int .i64⟩,
      ⟨6, .constInt 7 .i32, .int .i32⟩, ⟨7, .constInt 2 .i64, .int .i64⟩], some (.branch 1 [1])⟩,
    ⟨1, "outer", [⟨10, .int .i64⟩], [], some (.branch 2 [])⟩,
    ⟨2, "outer_cmp", [], [⟨11, .iCmp .lt 10 outer, .bool⟩], some (.condBranch 11 3 [] 9 [])⟩,
    ⟨3, "outer_body", [], [], some (.branch 4 [1])⟩,
    ⟨4, "inner", [⟨12, .int .i64⟩], [], some (.branch 5 [])⟩,
    ⟨5, "inner_cmp", [], [⟨13, .iCmp .lt 12 inner, .bool⟩], some (.condBranch 13 6 [] 8 [])⟩,
    ⟨6, "inner_body", [], [⟨14, .iBin .mul 12 5, .int .i64⟩, ⟨15, .iBin .add 10 14, .int .i64⟩,
      ⟨16, .getElementPtr 0 [15], .ptr (.int .i32)⟩, ⟨17, .store 6 16, .void⟩], some (.branch 7 [])⟩,
    ⟨7, "inner_latch", [], [⟨18, .iBin .add 12 2, .int .i64⟩], some (.branch 4 [18])⟩,
    ⟨8, "outer_latch", [], [⟨19, .iBin .add 10 2, .int .i64⟩], some (.branch 1 [19])⟩,
    ⟨9, "exit", [], [⟨20, .getElementPtr 0 [5], .ptr (.int .i32)⟩, ⟨21, .load 20, .int .i32⟩],
      some (.return (some 21))⟩]
  entry := 0
  nextValue := 22

def zeros : Launch where
  target := .integer
  world := .idle
  args := [.ptr ⟨.foreign 0, 0⟩]
  mem := fun b o => if b = .foreign 0 ∧ 0 ≤ o ∧ o < 32 then some (.byte 0) else none

theorem bounds_nest {L : Launch} {b k σ} (hb : b ≠ 0) (hat : L.At (nest 4 7) b k σ) : σ.env 4 = σ.env 7 := by
  have hlive : (nest 4 7).Live := Function.Verified.live (by decide)
  have hafter : ∀ m, (nest 4 7).After 0 m b k := fun _ => .inr ⟨hb, Dominates.of_root b⟩
  obtain ⟨d, hd⟩ : ∃ d, (nest 4 7).blocks[0]? = some d := ⟨_, rfl⟩
  have hmem := mem_of_getElem? hd
  cases hd
  rw [hat.leaf_value (i := ⟨4, .constInt 2 .i64, .int .i64⟩) hlive hmem (m := 3) rfl rfl rfl (hafter _),
    hat.leaf_value (i := ⟨7, .constInt 2 .i64, .int .i64⟩) hlive hmem (m := 6) rfl rfl rfl (hafter _)]

end Armfortas.Opt.Interchange
