import Armfortas.Ir.Lemmas.Hidden

/-! A new constant or slot that nothing uses yet changes nothing but the value numbers in use. -/
namespace Armfortas.Ir
open Lib List Option Ir.Function

namespace Function

structure Numbered (f : Function) : Prop where
  blocksNodup : (f.blocks.map (·.id)).Nodup
  terminated : ∀ b ∈ f.blocks, b.terminator.isSome = true
  valuesNodup : f.collectDefinedValues.Nodup
  fresh : ∀ v ∈ f.collectDefinedValues, v < f.nextValue
  instUses : ∀ i ∈ f.allInsts, ∀ v ∈ i.kind.operands, v < f.nextValue
  termUses : ∀ b ∈ f.blocks, ∀ t ∈ b.terminator, ∀ v ∈ t.uses, v < f.nextValue

theorem Verified.numbered {f : Function} (h : f.Verified) : f.Numbered where
  blocksNodup := h.live.blocksNodup
  terminated := h.live.terminated
  valuesNodup := h.live.valuesNodup
  fresh := h.fresh
  instUses i hi v hv := by
    obtain ⟨b, hb, hib⟩ := mem_flatMap.mp hi
    exact h.fresh v (h.live.instUsesDefined b hb i hib v hv)
  termUses b hb t ht v hv := h.fresh v (h.live.termUsesDefined b hb t ht v hv)

variable {f : Function} {b : BlockId} {pos : Nat} {kind : InstKind} {ty : IrType}

theorem Numbered.inst_unique (h : f.Numbered) {i j} (hi : i ∈ f.allInsts) (hj : j ∈ f.allInsts)
    (hid : i.id = j.id) : i = j := by
  obtain ⟨b, hb, hib⟩ := mem_flatMap.mp hi
  obtain ⟨c, hc, hjc⟩ := mem_flatMap.mp hj
  exact (inst_block_unique h.valuesNodup h.blocksNodup hb hc hib hjc hid).2

theorem Numbered.findDefiningInst (h : f.Numbered) {i} (hi : i ∈ f.allInsts) :
    f.findDefiningInst i.id = some i := by
  cases hf : f.findDefiningInst i.id with
  | none =>
    have := find?_eq_none.mp hf i hi
    simp at this
  | some j =>
    have hid : j.id = i.id := by simpa using find?_some hf
    rw [h.inst_unique (mem_of_find?_eq_some hf) hi hid]

theorem Numbered.inst_lt (h : f.Numbered) {i} (hi : i ∈ f.allInsts) : i.id < f.nextValue := by
  obtain ⟨b, hb, hib⟩ := mem_flatMap.mp hi
  exact h.fresh _ (mem_collectDefinedValues.mpr ⟨_, .inst hb hib rfl⟩)

theorem Numbered.inst_pos (h : f.Numbered) {b c : BasicBlock} (hb : b ∈ f.blocks) (hc : c ∈ f.blocks) {j k : Nat}
    {i i'} (hi : b.insts[j]? = some i) (hi' : c.insts[k]? = some i') (hid : i.id = i'.id) :
    b = c ∧ j = k ∧ i = i' := by
  obtain ⟨rfl, rfl⟩ := inst_block_unique h.valuesNodup h.blocksNodup hb hc (mem_of_getElem? hi)
    (mem_of_getElem? hi') hid
  exact ⟨rfl, inst_pos_unique h.valuesNodup hb hi hi' rfl, rfl⟩

def withInst (f : Function) (pos : Nat) (kind : InstKind) (ty : IrType) (blk : BasicBlock) : BasicBlock :=
  { blk with insts := blk.insts.insertIdx pos ⟨f.nextValue, kind, ty⟩ }

variable (h : f.Numbered)
include h

theorem Numbered.insertInst_blocks : (f.insertInst b pos kind ty).blocks =
    f.blocks.map fun blk => if blk.id = b then f.withInst pos kind ty blk else blk :=
  modifyBlock_blocks (f := { f with nextValue := f.nextValue + 1 }) h.blocksNodup b _

theorem Numbered.tryBlock_insertInst (c) : (f.insertInst b pos kind ty).tryBlock c =
    (f.tryBlock c).map fun blk => if blk.id = b then f.withInst pos kind ty blk else blk :=
  tryBlock_modifyBlock (f := { f with nextValue := f.nextValue + 1 }) h.blocksNodup b
    (φ := f.withInst pos kind ty) (fun _ => rfl) c

variable {blk : BasicBlock} (hb : f.tryBlock b = some blk) (hpos : pos ≤ blk.insts.length)
include hb hpos

theorem Numbered.definitions_insertInst :
    (f.insertInst b pos kind ty).definitions.Perm ((f.nextValue, ty) :: f.definitions) := by
  obtain ⟨hmem, hid⟩ := mem_blocks_of_tryBlock hb
  obtain ⟨pre, post, hsplit⟩ := append_of_mem hmem
  have hne : ∀ c ∈ pre ++ post, c.id ≠ b := by
    have hnd := h.blocksNodup
    rw [hsplit, map_append, map_cons, nodup_middle, ← map_append, nodup_cons] at hnd
    intro c hc e
    exact hnd.1 (hid.trans e.symm ▸ List.mem_map_of_mem hc)
  have hsame : ∀ bs : List BasicBlock, (∀ c ∈ bs, c.id ≠ b) →
      bs.map (fun c => if c.id = b then f.withInst pos kind ty c else c) = bs := by
    intro bs hbs
    conv_rhs => rw [← List.map_id bs]
    exact map_congr_left fun c hc => if_neg (hbs c hc)
  have hblocks : (f.insertInst b pos kind ty).blocks = pre ++ f.withInst pos kind ty blk :: post := by
    rw [h.insertInst_blocks, hsplit, map_append, map_cons, if_pos hid,
      hsame pre fun c hc => hne c (mem_append_left _ hc), hsame post fun c hc => hne c (mem_append_right _ hc)]
  have hinsts : ((f.withInst pos kind ty blk).insts.map fun i => (i.id, i.ty)).Perm
      ((f.nextValue, ty) :: blk.insts.map fun i => (i.id, i.ty)) :=
    (perm_insertIdx _ _ hpos).map _
  unfold definitions
  rw [hblocks, hsplit]
  simp only [flatMap_append, flatMap_cons]
  refine List.Perm.trans ?_ perm_middle
  refine List.Perm.append_left _ ?_
  refine List.Perm.trans ?_ perm_middle
  refine List.Perm.append_left _ ?_
  rw [← cons_append]
  refine List.Perm.append_right _ ?_
  refine List.Perm.trans ?_ perm_middle
  exact List.Perm.append_left _ hinsts

theorem Numbered.mem_allInsts_insertInst {i} :
    i ∈ (f.insertInst b pos kind ty).allInsts ↔ i = ⟨f.nextValue, kind, ty⟩ ∨ i ∈ f.allInsts := by
  obtain ⟨hmem, hid⟩ := mem_blocks_of_tryBlock hb
  simp only [allInsts, mem_flatMap, h.insertInst_blocks, List.mem_map]
  constructor
  · rintro ⟨_, ⟨c, hc, rfl⟩, hi⟩
    split at hi
    · next hcb =>
      obtain rfl : c = blk := inj_on_of_nodup_map h.blocksNodup hc hmem (hcb.trans hid.symm)
      rcases (mem_insertIdx hpos).mp hi with rfl | hi
      · exact .inl rfl
      · exact .inr ⟨c, hc, hi⟩
    · exact .inr ⟨c, hc, hi⟩
  · rintro (rfl | ⟨c, hc, hi⟩)
    · exact ⟨_, ⟨blk, hmem, rfl⟩, by rw [if_pos hid]; exact (mem_insertIdx hpos).mpr (.inl rfl)⟩
    · refine ⟨_, ⟨c, hc, rfl⟩, ?_⟩
      split
      · next hcb =>
        obtain rfl : c = blk := inj_on_of_nodup_map h.blocksNodup hc hmem (hcb.trans hid.symm)
        exact (mem_insertIdx hpos).mpr (.inr hi)
      · exact hi

theorem Numbered.insertInst (hleaf : kind.operands = []) : (f.insertInst b pos kind ty).Numbered := by
  have hvals : (f.insertInst b pos kind ty).collectDefinedValues.Perm (f.nextValue :: f.collectDefinedValues) :=
    (h.definitions_insertInst hb hpos).map Prod.fst
  constructor
  case blocksNodup =>
    rw [h.insertInst_blocks, List.map_map]
    refine (congrArg List.Nodup (map_congr_left fun c _ => ?_)).mp h.blocksNodup
    simp only [Function.comp_apply]
    split <;> rfl
  case terminated =>
    intro c hc
    rw [h.insertInst_blocks] at hc
    obtain ⟨c₀, hc₀, rfl⟩ := List.mem_map.mp hc
    split <;> exact h.terminated c₀ hc₀
  case valuesNodup =>
    rw [hvals.nodup_iff, nodup_cons]
    exact ⟨fun hv => Nat.lt_irrefl _ (h.fresh _ hv), h.valuesNodup⟩
  case fresh =>
    intro v hv
    rcases mem_cons.mp (hvals.mem_iff.mp hv) with rfl | hv
    · exact Nat.lt_succ_self _
    · exact Nat.lt_succ_of_lt (h.fresh v hv)
  case instUses =>
    intro i hi v hv
    rcases (h.mem_allInsts_insertInst hb hpos).mp hi with rfl | hi
    · simp [hleaf] at hv
    · exact Nat.lt_succ_of_lt (h.instUses i hi v hv)
  case termUses =>
    intro c hc t ht v hv
    rw [h.insertInst_blocks] at hc
    obtain ⟨c₀, hc₀, rfl⟩ := List.mem_map.mp hc
    refine Nat.lt_succ_of_lt (h.termUses c₀ hc₀ t ?_ v hv)
    split at ht <;> exact ht

theorem Numbered.valueType_insertInst (hleaf : kind.operands = []) {v} (hv : v ≠ f.nextValue) :
    (f.insertInst b pos kind ty).valueType v = f.valueType v := by
  have hn : (f.insertInst b pos kind ty).collectDefinedValues.Nodup := (h.insertInst hb hpos hleaf).valuesNodup
  ext t
  rw [valueType_eq_some_iff hn, valueType_eq_some_iff h.valuesNodup, (h.definitions_insertInst hb hpos).mem_iff]
  simp [hv]

end Function

/-! ## Behaviour -/

section Insert

variable {T : Target} {W : World} {S : ValueId → Prop}

theorem isLeaf_operands {k : InstKind} (h : k.isLeaf = true) : k.operands = [] := by
  cases k <;> simp [InstKind.isLeaf, InstKind.operands] at h ⊢

theorem exec_leaf {i : Inst} (hleaf : i.kind.isLeaf = true) {x} (hx : compute T W i [] = .value x)
    (hty : x.hasType i.ty = true) (σ) : i.exec T W σ = .ok { σ with env := σ.env.set i.id x } := by
  obtain ⟨y, hy, hperf⟩ := perform_leaf (T := T) (W := W) hleaf [] σ.toHeap
  cases hx.symm.trans hy
  unfold Inst.exec
  rw [isLeaf_operands hleaf]
  simp only [mapM_nil, Option.pure_def, hperf, Effect.bind, hty, if_true]

theorem execInsts_insertIdx {i : Inst} (hleaf : i.kind.isLeaf = true) {x} (hx : compute T W i [] = .value x)
    (hty : x.hasType i.ty = true) (hS : ¬ S i.id) (pos is)
    (hops : ∀ j ∈ is, ∀ v ∈ j.kind.operands, S v) {σ σ' : State} (hagree : AgreeOn S σ.env σ'.env)
    (hheap : σ.toHeap = σ'.toHeap) :
    Result.Sim (AgreeOn S) (execInsts T W is σ) (execInsts T W (is.insertIdx pos i) σ') := by
  induction pos generalizing is σ σ' with
  | zero =>
    rw [insertIdx_zero, execInsts, exec_leaf hleaf hx hty σ']
    refine execInsts_agree is hops (fun v y hv hy => ?_) hheap
    have hne : v ≠ i.id := fun e => hS (e ▸ hv)
    change σ'.env.set i.id x v = some y
    rw [Env.set_ne _ _ hne]
    exact hagree v y hv hy
  | succ pos ih =>
    cases is with
    | nil => exact .ok (And.intro hheap hagree)
    | cons j js =>
      have hj := execInsts_agree (T := T) (W := W) [j] (fun k hk => hops k (mem_cons.mpr (.inl (by simpa using hk))))
        hagree hheap
      rw [insertIdx_succ_cons, ← singleton_append, ← singleton_append (l := js.insertIdx pos i),
        execInsts_append, execInsts_append]
      generalize execInsts T W [j] σ = r, execInsts T W [j] σ' = r' at hj
      cases hj with
      | stuck => exact .stuck
      | halt h => exact .halt h
      | ok h => exact ih js (fun k hk => hops k (.tail _ hk)) h.2 h.1

theorem Launch.similar_insertInst {L : Launch} {f : Function} (h : f.Numbered) (b pos)
    {kind : InstKind} {ty} (hleaf : kind.isLeaf = true) {x}
    (hx : compute L.target L.world ⟨f.nextValue, kind, ty⟩ [] = .value x) (hty : x.hasType ty = true) (n) :
    (L.run f n).Similar [] (L.run (f.insertInst b pos kind ty) n) := by
  have htry : ∀ c, (f.insertInst b pos kind ty).tryBlock c = _ := h.tryBlock_insertInst
  have hps : ∀ d, (f.insertInst b pos kind ty).KeepsParams f d := by
    intro d
    rw [KeepsParams, htry, Option.map_map]
    cases f.tryBlock d with
    | none => rfl
    | some blk =>
      simp only [map_some, Function.comp_apply]
      split <;> rfl
  refine Outcome.Sim.similar (Q := fun _ => AgreeOn (· < f.nextValue)) (Launch.run_rel ?_ ?_ n) ?_
  · exact Outcome.Sim.refl (o := L.start f) fun _ _ _ _ _ _ hx => hx
  · rintro c σ σ' - - ⟨hheap, hagree⟩
    cases hc : f.tryBlock c with
    | none =>
      simp only [execBlock, hc]
      exact .stuck
    | some blk =>
      obtain ⟨hmem, rfl⟩ := mem_blocks_of_tryBlock hc
      obtain ⟨t, ht⟩ := isSome_iff_exists.mp (h.terminated blk hmem)
      have hops : ∀ j ∈ blk.insts, ∀ v ∈ j.kind.operands, v < f.nextValue := fun j hj =>
        h.instUses j (mem_flatMap.mpr ⟨blk, hmem, hj⟩)
      have hterm : ∀ σ₁ σ₁' : State, σ₁.toHeap = σ₁'.toHeap → AgreeOn (· < f.nextValue) σ₁.env σ₁'.env →
          Outcome.Sim (fun _ => AgreeOn (· < f.nextValue)) (f.execTerm L.target t σ₁)
            ((f.insertInst b pos kind ty).execTerm L.target t σ₁') := fun σ₁ σ₁' =>
        execTerm_agree hps (h.termUses blk hmem t ht)
      by_cases hb : blk.id = b
      · have hg : (f.insertInst b pos kind ty).tryBlock blk.id = some (f.withInst pos kind ty blk) := by
          rw [htry, hc, map_some, if_pos hb]
        refine execBlock_sim hc hg ht ht ?_ fun σ₁ σ₁' _ _ => hterm σ₁ σ₁'
        exact execInsts_insertIdx (S := (· < f.nextValue)) hleaf hx hty (Nat.lt_irrefl f.nextValue) pos blk.insts
          hops hagree hheap
      · have hg : (f.insertInst b pos kind ty).tryBlock blk.id = some blk := by
          rw [htry, hc, map_some, if_neg hb]
        refine execBlock_sim hc hg ht ht ?_ fun σ₁ σ₁' _ _ => hterm σ₁ σ₁'
        exact execInsts_agree blk.insts hops hagree hheap
  · intro c σ env' hrun hagree v x _ hx
    obtain ⟨ty', hty', -⟩ := Launch.Enters.typed h.valuesNodup ⟨n, hrun⟩ v x hx
    have hdef := (valueType_eq_some_iff h.valuesNodup).mp hty'
    exact hagree v x (h.fresh v (List.mem_map_of_mem (f := Prod.fst) hdef)) hx

end Insert

end Armfortas.Ir
