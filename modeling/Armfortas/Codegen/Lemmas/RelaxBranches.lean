import Armfortas.Codegen.Lemmas.Code
import Armfortas.Codegen.RelaxBranches
import Mathlib.Tactic.Set

/-! What the rewrite of a site does to the code, and the measure it lowers: a `B` can be rewritten once more, a
conditional branch twice, unless it only skips over a branch. -/
namespace Armfortas.Codegen

variable {i : MachineInst} {limits : BranchLimits} {t : MBlockId} {limit : Int} {pos : Nat} {b : MachineBlock}
  {mf : BranchFunction}

open Lib BranchFunction List

/-! ## Relaxable branches -/

def RelaxKind.test : RelaxKind → BranchTest
  | .b => .always
  | .bCond c => .flag c
  | .cbz invertTo reg => if invertTo = .cbnz then .zero reg else .nonzero reg
  | .tbz invertTo reg bit => if invertTo = .tbnz then .bitClear reg bit else .bitSet reg bit

section Relaxable

variable {kind : RelaxKind}

theorem branch_of_relaxable (h : relaxableBranch i limits = some (t, limit, kind)) :
    i.branch = some (t, kind.test) := by
  unfold relaxableBranch at h
  unfold MachineInst.branch
  split at h
  case h_2 hop =>
    cases ht : bcondTarget i with
    | none =>
      rw [ht] at h
      cases h
    | some t' =>
      cases hc : bcondCond i with
      | none =>
        rw [ht, hc] at h
        cases h
      | some c =>
        rw [ht, hc] at h
        cases h
        simp only [hop]
        rfl
  case h_7 => cases h
  all_goals
    next hop hargs =>
    cases h
    simp only [hop, hargs]
    rfl

theorem conditional_cases (h : relaxableBranch i limits = some (t, limit, kind)) (hk : kind ≠ .b) :
    (∃ c, kind = .bCond c ∧ limit = limits.cond) ∨
      (∃ op reg, (op = .cbz ∨ op = .cbnz) ∧ kind = .cbz op reg ∧ limit = limits.cond) ∨
      ∃ op reg bit, (op = .tbz ∨ op = .tbnz) ∧ kind = .tbz op reg bit ∧ limit = limits.tbz := by
  unfold relaxableBranch at h
  split at h
  · cases h
    exact absurd rfl hk
  · split at h
    · cases h
      exact .inl ⟨_, rfl, rfl⟩
    · cases h
  · cases h
    exact .inr (.inl ⟨_, _, .inr rfl, rfl, rfl⟩)
  · cases h
    exact .inr (.inl ⟨_, _, .inl rfl, rfl, rfl⟩)
  · cases h
    exact .inr (.inr ⟨_, _, _, .inr rfl, rfl, rfl⟩)
  · cases h
    exact .inr (.inr ⟨_, _, _, .inl rfl, rfl, rfl⟩)
  · cases h

/-- The inverse of a conditional branch: a conditional branch to `skip` on the inverse test, emitted in one word. -/
structure Inverted (limits : BranchLimits) (skip : MBlockId) (kind : RelaxKind) (inv : MachineInst) : Prop where
  branch : inv.branch = some (skip, kind.test.inverse)
  relaxable : ∃ limit kind', relaxableBranch inv limits = some (skip, limit, kind') ∧ kind' ≠ .b
  emitted : ∀ other mf, instEmitBytes other mf inv = emitTarget mf (some (.blockRef skip))

theorem inverted_spec (h : relaxableBranch i limits = some (t, limit, kind)) (hk : kind ≠ .b) (skip) :
    ∃ inv, invertedBranch skip kind = some inv ∧ Inverted limits skip kind inv := by
  rcases conditional_cases h hk with
    ⟨c, rfl, -⟩ | ⟨op, reg, hop, rfl, -⟩ | ⟨op, reg, bit, hop, rfl, -⟩
  · exact ⟨_, rfl, rfl, ⟨_, _, rfl, by simp⟩, fun _ _ => rfl⟩
  · rcases hop with rfl | rfl <;> exact ⟨_, rfl, rfl, ⟨_, _, rfl, by simp⟩, fun _ _ => rfl⟩
  · rcases hop with rfl | rfl <;> exact ⟨_, rfl, rfl, ⟨_, _, rfl, by simp⟩, fun _ _ => rfl⟩

end Relaxable

/-! ## The measure -/

def isJump (i : MachineInst) : Bool :=
  match i.branch with
  | some (_, .always) => true
  | _ => false

/-- The code behind a branch to `t` is one branch and the label `t`. -/
def skips (t : MBlockId) : List CodeItem → Bool
  | .inst j :: .label t' :: _ => isJump j && t' == t
  | _ => false

def rewrites (limits : BranchLimits) : List CodeItem → Nat
  | .inst i :: rest =>
      match relaxableBranch i limits with
      | some (_, _, .b) => 1
      | some (t, _, _) => if skips t rest then 0 else 2
      | none => 0
  | _ => 0

def budget (limits : BranchLimits) : List CodeItem → Nat
  | [] => 0
  | x :: xs => rewrites limits (x :: xs) + budget limits xs

/-- Code that an earlier branch cannot tell apart. -/
structure Alike (s s' : List CodeItem) : Prop where
  behind : ∀ t, skips t s = skips t s'
  second : ∀ t x, skips t (x :: s) = skips t (x :: s')

theorem Alike.append {s s'} (h : Alike s s') (t pre) :
    skips t (pre ++ s) = skips t (pre ++ s') := by
  match pre with
  | [] => exact h.behind t
  | [x] => exact h.second t x
  | .label _ :: _ :: _ => rfl
  | .inst _ :: .inst _ :: _ => rfl
  | .inst _ :: .label _ :: _ => rfl

theorem rewrites_append {limits s s'} (h : Alike s s') (x pre) :
    rewrites limits (x :: (pre ++ s)) = rewrites limits (x :: (pre ++ s')) := by
  cases x with
  | label b => rfl
  | inst i => simp only [rewrites, h.append]

theorem budget_append {limits s s'} (h : Alike s s') (pre) :
    budget limits (pre ++ s) + budget limits s' = budget limits (pre ++ s') + budget limits s := by
  induction pre with
  | nil => exact Nat.add_comm _ _
  | cons x pre ih =>
    rw [cons_append, cons_append, budget, budget, rewrites_append h]
    omega

section Rewrite

variable {kind : RelaxKind}
  {post : List CodeItem}

theorem isJump_iff : isJump i = true ↔ ∃ t, i.branch = some (t, .always) := by
  unfold isJump
  split
  · rename_i t h
    exact ⟨fun _ => ⟨t, h⟩, fun _ => rfl⟩
  · rename_i h
    exact ⟨fun hf => absurd hf Bool.false_ne_true, fun ⟨t, ht⟩ => absurd ht (h t)⟩

theorem not_isJump_of_conditional (h : relaxableBranch i limits = some (t, limit, kind)) (hk : kind ≠ .b) :
    isJump i = false := by
  rw [Bool.eq_false_iff]
  intro hj
  obtain ⟨t', ht'⟩ := isJump_iff.mp hj
  rw [branch_of_relaxable h] at ht'
  cases kind with
  | b => exact hk rfl
  | bCond c => simp [RelaxKind.test] at ht'
  | cbz op reg => by_cases ho : op = .cbnz <;> simp [RelaxKind.test, ho] at ht'
  | tbz op reg bit => by_cases ho : op = .tbnz <;> simp [RelaxKind.test, ho] at ht'

theorem skips_inst_second (t x) : skips t (x :: .inst i :: post) = false := by
  cases x <;> rfl

theorem skips_of_not_isJump (h : isJump i = false) (t) : skips t (.inst i :: post) = false := by
  match post with
  | [] => rfl
  | .inst _ :: _ => rfl
  | .label _ :: _ => simp [skips, h]

theorem alike_trampoline {inv rest} (h : isJump i = false) (h' : isJump inv = false) :
    Alike (.inst i :: post) (.inst inv :: rest) where
  behind t := by rw [skips_of_not_isJump h, skips_of_not_isJump h']
  second t x := by rw [skips_inst_second, skips_inst_second]

theorem alike_widen {j} (h : isJump i = true) (h' : isJump j = true) :
    Alike (.inst i :: post) (.inst j :: post) where
  behind t := by
    match post with
    | [] => rfl
    | .inst _ :: _ => rfl
    | .label _ :: _ => simp only [skips, h, h']
  second t x := by rw [skips_inst_second, skips_inst_second]

theorem budget_trampoline {inv skip limit' kind'}
    (h : relaxableBranch i limits = some (t, limit, kind)) (hk : kind ≠ .b) (hs : skips t post = false)
    (h' : relaxableBranch inv limits = some (skip, limit', kind')) (hk' : kind' ≠ .b) (far) :
    budget limits (.inst inv :: .inst (branchTo far) :: .label skip :: post) + 1 =
      budget limits (.inst i :: post) := by
  have hold : rewrites limits (.inst i :: post) = 2 := by
    cases kind with
    | b => exact absurd rfl hk
    | bCond | cbz | tbz => simp [rewrites, h, hs]
  have hskip : skips skip (.inst (branchTo far) :: .label skip :: post) = true := by
    simp [skips, isJump, branchTo, MachineInst.branch]
  have hnew : rewrites limits (.inst inv :: .inst (branchTo far) :: .label skip :: post) = 0 := by
    cases kind' with
    | b => exact absurd rfl hk'
    | bCond | cbz | tbz => simp [rewrites, h', hskip]
  have hjump : rewrites limits (.inst (branchTo far) :: .label skip :: post) = 1 := rfl
  have hlabel : rewrites limits (.label skip :: post) = 0 := rfl
  rw [budget, budget, budget, budget, hold, hnew, hjump, hlabel]
  omega

theorem budget_widen (h : relaxableBranch i limits = some (t, limit, .b)) (far) :
    budget limits (.inst (longBranchTo far) :: post) + 1 = budget limits (.inst i :: post) := by
  have hold : rewrites limits (.inst i :: post) = 1 := by simp [rewrites, h]
  have hnew : rewrites limits (.inst (longBranchTo far) :: post) = 0 := rfl
  rw [budget, budget, hold, hnew]
  omega

end Rewrite

/-! ## Blocks and code -/

theorem code_append (bs bs') : code (bs ++ bs') = code bs ++ code bs' := flatMap_append

theorem code_cons (b bs) :
    code (b :: bs) = .label b.id :: (b.insts.map .inst ++ code bs) := by
  rfl

theorem label_mem_code {bs t} : .label t ∈ code bs ↔ ∃ b ∈ bs, b.id = t := by
  simp only [code, MachineBlock.code, mem_flatMap, mem_cons, CodeItem.label.injEq, mem_map, reduceCtorEq,
    and_false, exists_false, or_false]
  exact ⟨fun ⟨b, hb, he⟩ => ⟨b, hb, he.symm⟩, fun ⟨b, hb, he⟩ => ⟨b, hb, he.symm⟩⟩

theorem split_at {α : Type} {l : List α} {n x} (h : l[n]? = some x) :
    l = l.take n ++ x :: l.drop (n + 1) := by
  obtain ⟨hlt, rfl⟩ := List.getElem?_eq_some_iff.mp h
  rw [getElem_cons_drop, take_append_drop]

def flatPos (bs : List MachineBlock) (pos idx : Nat) : Nat := (code (bs.take pos)).length + 1 + idx

/-- The code before instruction `idx` of the block `b` at `pos`. -/
def before (bs : List MachineBlock) (pos idx : Nat) (b : MachineBlock) : List CodeItem :=
  code (bs.take pos) ++ .label b.id :: (b.insts.take idx).map .inst

def behind (bs : List MachineBlock) (pos idx : Nat) (b : MachineBlock) : List CodeItem :=
  (b.insts.drop (idx + 1)).map .inst ++ code (bs.drop (pos + 1))

section Blocks

variable {bs : List MachineBlock} {idx : Nat} (hb : bs[pos]? = some b)

theorem flatPos_lt {pos' idx' b'} (hb : bs[pos']? = some b') (hi : idx' < b'.insts.length)
    (h : pos' < pos ∨ pos' = pos ∧ idx' < idx) : flatPos bs pos' idx' < flatPos bs pos idx := by
  rcases h with hlt | ⟨rfl, hlt⟩
  · have htake : bs.take pos = bs.take pos' ++ b' :: (bs.take pos).drop (pos' + 1) := by
      have hget : (bs.take pos)[pos']? = some b' := by rw [getElem?_take, if_pos hlt, hb]
      have hsplit := split_at hget
      rwa [List.take_take, Nat.min_eq_left hlt.le] at hsplit
    have hlen : (code (bs.take pos)).length ≥ (code (bs.take pos')).length + 1 + b'.insts.length := by
      rw [htake, code_append, code_cons, length_append, length_cons, length_append, length_map]
      omega
    unfold flatPos
    omega
  · unfold flatPos
    omega

variable (hi : b.insts[idx]? = some i)
include hi

theorem length_before : (before bs pos idx b).length = flatPos bs pos idx := by
  obtain ⟨hlt, -⟩ := List.getElem?_eq_some_iff.mp hi
  rw [before, flatPos, length_append, length_cons, length_map, length_take, Nat.min_eq_left hlt.le]
  omega

include hb

theorem code_split : code bs = before bs pos idx b ++ .inst i :: behind bs pos idx b := by
  conv_lhs => rw [split_at hb, code_append, code_cons, split_at hi]
  simp only [before, behind, map_append, map_cons, append_assoc, cons_append]

theorem getElem?_flatPos : (code bs)[flatPos bs pos idx]? = some (.inst i) := by
  rw [code_split hb hi, ← length_before hi, getElem?_here]

theorem drop_flatPos : (code bs).drop (flatPos bs pos idx + 1) = behind bs pos idx b := by
  rw [code_split hb hi, ← length_before hi, drop_length_add_append, drop_one, tail_cons]

theorem code_set (j) : code (bs.set pos { b with insts := b.insts.set idx j }) =
    before bs pos idx b ++ .inst j :: behind bs pos idx b := by
  obtain ⟨hpos, -⟩ := List.getElem?_eq_some_iff.mp hb
  obtain ⟨hidx, -⟩ := List.getElem?_eq_some_iff.mp hi
  have hb' := getElem?_set_self (a := { b with insts := b.insts.set idx j }) hpos
  have hi' : (b.insts.set idx j)[idx]? = some j := getElem?_set_self hidx
  rw [code_split hb' hi', before, behind, take_set_of_le le_rfl, drop_set_of_lt (Nat.lt_succ_self pos),
    take_set_of_le le_rfl, drop_set_of_lt (Nat.lt_succ_self idx)]
  rfl

omit hi in
theorem map_id_set (insts) : (bs.set pos { b with insts := insts }).map MachineBlock.id = bs.map MachineBlock.id := by
  obtain ⟨hpos, rfl⟩ := List.getElem?_eq_some_iff.mp hb
  rw [map_set]
  have hlen : pos < (bs.map MachineBlock.id).length := by rwa [length_map]
  have hget : (bs.map MachineBlock.id)[pos] = bs[pos].id := getElem_map _
  rw [← hget, set_getElem_self]

end Blocks

section Lookup

theorem hasBlock_iff_label {t} : mf.hasBlock t = true ↔ .label t ∈ mf.code := by
  rw [BranchFunction.code, label_mem_code, hasBlock, any_eq_true]
  simp only [beq_iff_eq]

variable (hd : (mf.blocks.map MachineBlock.id).Nodup) (hb : mf.blocks[pos]? = some b)
include hd hb

theorem index_unique {pos' b'} (hb' : mf.blocks[pos']? = some b') (he : b'.id = b.id) : pos' = pos := by
  have hlt : pos' < (mf.blocks.map MachineBlock.id).length := by
    rw [length_map]
    exact (List.getElem?_eq_some_iff.mp hb').1
  refine (getElem?_inj hlt hd).mp ?_
  rw [getElem?_map, getElem?_map, hb, hb', Option.map_some, Option.map_some, he]

theorem blockPosition_eq : mf.blockPosition b.id = some pos := by
  obtain ⟨hlt, hget⟩ := List.getElem?_eq_some_iff.mp hb
  refine findIdx?_eq_some_iff_getElem.mpr ⟨hlt, by rw [hget, beq_self_eq_true], fun j hj => ?_⟩
  intro he
  have hj' : mf.blocks[j]? = some (mf.blocks[j]) := getElem?_eq_getElem _
  exact absurd (index_unique hd hb hj' (beq_iff_eq.mp he)) (by omega)

theorem blockIndex_eq : mf.blockIndex b.id = some pos := by
  unfold blockIndex
  split
  · rename_i hhint
    cases hget : mf.blocks[b.id]? with
    | none => rw [hget] at hhint; cases hhint
    | some b' =>
      rw [hget] at hhint
      rw [index_unique hd hb hget (beq_iff_eq.mp hhint)]
  · exact blockPosition_eq hd hb

theorem block_eq : mf.block b.id = some b := by
  rw [block, blockIndex_eq hd hb]
  exact hb

end Lookup

/-! ## The rewrite of a site -/

/-- What the rewrite of the branch `idx` of the block at `pos` leaves as it was, and what it changes. -/
structure Rewritten (limits : BranchLimits) (mf mf' : BranchFunction) (pos idx : Nat) : Prop where
  wellFormed : mf'.WellFormed
  earlier : ∀ p < pos, mf'.blocks[p]? = mf.blocks[p]?
  here : ∀ b, mf.blocks[pos]? = some b →
    ∃ b', mf'.blocks[pos]? = some b' ∧ b'.id = b.id ∧ ∀ k < idx, b'.insts[k]? = b.insts[k]?
  code : ∃ pre s s', mf.code = pre ++ s ∧ mf'.code = pre ++ s' ∧ pre.length = flatPos mf.blocks pos idx ∧ Alike s s'
  places : ∃ place, Places mf.code mf'.code place
  budget : budget limits mf'.code + 1 = budget limits mf.code

theorem emitted_mono {mf' : BranchFunction} (hblocks : ∀ t, mf.hasBlock t = true → mf'.hasBlock t = true)
    (hlabels : ∀ t, (mf.longBranchLabels.get? t).isSome → (mf'.longBranchLabels.get? t).isSome) {i}
    {other : MachineInst → Nat} (h : (instEmitBytes other mf i).isSome) : (instEmitBytes other mf' i).isSome := by
  have htarget : ∀ o, (emitTarget mf o).isSome → (emitTarget mf' o).isSome := by
    intro o ho
    unfold emitTarget at ho ⊢
    split at ho
    · cases ho
    · split at ho
      · rename_i id hid
        rw [if_pos (hblocks id hid)]
        rfl
      · cases ho
    · rfl
  unfold instEmitBytes at h ⊢
  split at h
  · exact htarget _ h
  · exact htarget _ h
  · exact htarget _ h
  · exact htarget _ h
  · exact htarget _ h
  · exact htarget _ h
  · split at h
    · split at h
      · rename_i hl
        simp only [if_pos (hlabels _ hl)]
        rfl
      · cases h
    · cases h
  · rfl

/-- A branch that overflows: where it is, and that it does not only skip over another. -/
structure Pending (limits : BranchLimits) (mf : BranchFunction) (site : OverflowSite) (pos : Nat) : Prop where
  found : ∃ b i limit, mf.blocks[pos]? = some b ∧ b.id = site.blockId ∧ b.insts[site.instIdx]? = some i ∧
    relaxableBranch i limits = some (site.target, limit, site.kind)
  far : site.kind ≠ .b → skips site.target (mf.code.drop (flatPos mf.blocks pos site.instIdx + 1)) = false

/-- The emitter accepts the instruction. -/
def Emits (mf : BranchFunction) (k : MachineInst) : Prop :=
  (∀ other, (instEmitBytes other mf k).isSome) ∧ ∀ t test, k.branch = some (t, test) → mf.hasBlock t = true

theorem Emits.branch {k t test} (hb : k.branch = some (t, test))
    (hk : ∀ other, (instEmitBytes other mf k).isSome) (ht : mf.hasBlock t = true) : Emits mf k := by
  refine ⟨hk, fun u test' hu => ?_⟩
  rw [hb] at hu
  cases hu
  exact ht

/-- Instruction `idx` of the block `b` at `pos` is exchanged for `new`. -/
structure Edited (mf mf' : BranchFunction) (pos idx : Nat) (b : MachineBlock) (new : List CodeItem) : Prop where
  distinct : (mf'.blocks.map MachineBlock.id).Nodup
  numbered : ∀ b ∈ mf'.blocks, b.id < mf'.nextBlock
  anchors : ∀ t, (mf.longBranchLabels.get? t).isSome → (mf'.longBranchLabels.get? t).isSome
  earlier : ∀ p < pos, mf'.blocks[p]? = mf.blocks[p]?
  here : ∃ b', mf'.blocks[pos]? = some b' ∧ b'.id = b.id ∧ ∀ k < idx, b'.insts[k]? = b.insts[k]?
  code : mf'.code = before mf.blocks pos idx b ++ (new ++ behind mf.blocks pos idx b)

section Expand

variable {mf' : BranchFunction} {idx : Nat}
  {new : List CodeItem} (wf : mf.WellFormed) (hb : mf.blocks[pos]? = some b)
  (hi : b.insts[idx]? = some i)

include hb hi

theorem mem_code_of : .inst i ∈ mf.code := mem_of_getElem? (getElem?_flatPos hb hi)

theorem Edited.hasBlock (h : Edited mf mf' pos idx b new) (ht : mf.hasBlock t = true) : mf'.hasBlock t = true := by
  have hmem := hasBlock_iff_label.mp ht
  rw [BranchFunction.code, code_split hb hi] at hmem
  rw [hasBlock_iff_label, h.code]
  simp only [mem_append, mem_cons, reduceCtorEq, false_or] at hmem ⊢
  exact hmem.imp_right .inr

theorem Edited.wellFormed (h : Edited mf mf' pos idx b new) (wf : mf.WellFormed)
    (hnew : ∀ k, .inst k ∈ new → Emits mf' k) : mf'.WellFormed := by
  have hinsts : ∀ k, .inst k ∈ mf'.code → Emits mf' k := by
    intro k hk
    by_cases hn : .inst k ∈ new
    · exact hnew k hn
    · have hold : .inst k ∈ mf.code := by
        rw [BranchFunction.code, code_split hb hi]
        rw [h.code] at hk
        simp only [mem_append, mem_cons, hn, false_or] at hk ⊢
        exact hk.imp_right .inr
      have hkeep : ∀ t, mf.hasBlock t = true → mf'.hasBlock t = true := fun t => h.hasBlock hb hi
      exact ⟨fun other => emitted_mono hkeep h.anchors (wf.emitted k hold other), fun t test hk =>
        hkeep t (wf.targets k hold t test hk)⟩
  exact ⟨h.distinct, h.numbered, fun k hk => (hinsts k hk).1, fun k hk => (hinsts k hk).2⟩

theorem Edited.rewritten (h : Edited mf mf' pos idx b new) (wf' : mf'.WellFormed)
    (halike : Alike (.inst i :: behind mf.blocks pos idx b) (new ++ behind mf.blocks pos idx b))
    (hplaces : ∃ place, Places mf.code mf'.code place)
    (hbudget : budget limits (new ++ behind mf.blocks pos idx b) + 1 =
      budget limits (.inst i :: behind mf.blocks pos idx b)) : Rewritten limits mf mf' pos idx where
  wellFormed := wf'
  earlier := h.earlier
  here b₀ hb₀ := by
    cases hb.symm.trans hb₀
    exact h.here
  code := ⟨_, _, _, code_split hb hi, h.code, length_before hi, halike⟩
  places := hplaces
  budget := by
    have happend := @budget_append limits _ _ halike (before mf.blocks pos idx b)
    rw [h.code, BranchFunction.code, code_split hb hi]
    omega

/-! ### Unconditional branches -/

omit hb hi in
include wf in
theorem ensureLongBranchLabel_spec (ht : mf.hasBlock t = true) :
    ∃ labels, mf.ensureLongBranchLabel t = some { mf with longBranchLabels := labels } ∧
      (AssocMap.get? labels t).isSome ∧
      ∀ u, (mf.longBranchLabels.get? u).isSome → (AssocMap.get? labels u).isSome := by
  unfold ensureLongBranchLabel
  split
  · rename_i h
    exact ⟨mf.longBranchLabels, rfl, h, fun u hu => hu⟩
  · obtain ⟨b, hb, rfl⟩ := label_mem_code.mp (hasBlock_iff_label.mp ht)
    obtain ⟨pos, hpos⟩ := mem_iff_getElem?.mp hb
    rw [block_eq wf.distinct hpos]
    refine ⟨_, rfl, by rw [AssocMap.get?_insert_self]; rfl, fun u hu => ?_⟩
    rw [AssocMap.get?_insert]
    split
    · rfl
    · exact hu

include wf

theorem edited_widen {labels : AssocMap MBlockId String}
    (hanchors : ∀ u, (mf.longBranchLabels.get? u).isSome → (AssocMap.get? labels u).isSome) (j) :
    Edited mf { mf with longBranchLabels := labels, blocks := mf.blocks.set pos { b with insts := b.insts.set idx j } }
      pos idx b [.inst j] where
  distinct := by
    rw [map_id_set hb]
    exact wf.distinct
  numbered c hc := by
    rcases mem_or_eq_of_mem_set hc with hmem | rfl
    · exact wf.numbered c hmem
    · exact wf.numbered b (mem_of_getElem? hb)
  anchors := hanchors
  earlier p hp := getElem?_set_ne (by omega)
  here := ⟨_, getElem?_set_self (List.getElem?_eq_some_iff.mp hb).1, rfl, fun k hk => getElem?_set_ne (by omega)⟩
  code := code_set hb hi j

theorem widen_spec (hr : relaxableBranch i limits = some (t, limit, .b)) :
    ∃ mf', widenUnconditional mf b.id idx t = some mf' ∧ Rewritten limits mf mf' pos idx := by
  have hbranch := branch_of_relaxable hr
  have htarget := wf.targets i (mem_code_of hb hi) t _ hbranch
  obtain ⟨labels, hens, hanchor, hanchors⟩ := ensureLongBranchLabel_spec wf htarget
  obtain ⟨hidx, -⟩ := List.getElem?_eq_some_iff.mp hi
  have hed := edited_widen wf hb hi hanchors (longBranchTo t)
  refine ⟨_, ?_, hed.rewritten hb hi (hed.wellFormed hb hi wf fun k hk => ?_)
    (alike_widen (isJump_iff.mpr ⟨t, hbranch⟩) rfl) ⟨shift (before mf.blocks pos idx b).length 0, ?_⟩ (budget_widen hr t)⟩
  · have hindex : BranchFunction.blockIndex { mf with longBranchLabels := labels } b.id = some pos :=
      blockIndex_eq wf.distinct hb
    rw [widenUnconditional, hens]
    change (BranchFunction.blockIndex { mf with longBranchLabels := labels } b.id >>= _) = _
    rw [hindex]
    change (mf.blocks[pos]? >>= _) = _
    rw [hb]
    exact if_pos hidx
  · cases mem_singleton.mp hk
    refine .branch (t := t) rfl (fun other => ?_) (hed.hasBlock hb hi htarget)
    change (if (AssocMap.get? labels t).isSome then some 12 else none).isSome = true
    rw [if_pos hanchor]
    rfl
  · have hmem := hasBlock_iff_label.mp htarget
    rw [BranchFunction.code, code_split hb hi] at hmem ⊢
    rw [hed.code]
    exact places_widen hbranch rfl hmem

/-! ### Conditional branches -/

omit hb hi in
theorem fresh_nextBlock : CodeItem.label mf.nextBlock ∉ mf.code := by
  intro hmem
  obtain ⟨c, hc, he⟩ := label_mem_code.mp hmem
  exact absurd (he ▸ wf.numbered c hc) (lt_irrefl _)

/-- The block ends with the inverse branch and a branch to the far target; the rest is a block of its own. -/
def trampolined (mf : BranchFunction) (pos idx : Nat) (b : MachineBlock) (inv : MachineInst) (label : String)
    (far : MBlockId) : BranchFunction :=
  { mf with
    blocks := mf.blocks.take pos ++ { b with insts := b.insts.take idx ++ [inv, branchTo far] } ::
      ⟨mf.nextBlock, label, b.insts.drop (idx + 1)⟩ :: mf.blocks.drop (pos + 1)
    nextBlock := mf.nextBlock + 1 }

theorem edited_trampoline (inv label far) : Edited mf (trampolined mf pos idx b inv label far) pos idx b
    [.inst inv, .inst (branchTo far), .label mf.nextBlock] := by
  obtain ⟨hidx, -⟩ := List.getElem?_eq_some_iff.mp hi
  obtain ⟨hpos, -⟩ := List.getElem?_eq_some_iff.mp hb
  have htake : (mf.blocks.take pos).length = pos := by rw [length_take, Nat.min_eq_left hpos.le]
  -- the ids are those of before and the new one
  have hids : ((trampolined mf pos idx b inv label far).blocks.map MachineBlock.id).Perm
      (mf.nextBlock :: mf.blocks.map MachineBlock.id) := by
    conv_rhs => rw [split_at hb]
    simp only [trampolined, map_append, map_cons]
    have hmiddle := @List.perm_middle _ mf.nextBlock ((mf.blocks.take pos).map MachineBlock.id ++ [b.id])
      ((mf.blocks.drop (pos + 1)).map MachineBlock.id)
    rwa [append_assoc, append_assoc] at hmiddle
  have hskip : mf.nextBlock ∉ mf.blocks.map MachineBlock.id := by
    intro hmem
    obtain ⟨c, hc, he⟩ := mem_map.mp hmem
    exact fresh_nextBlock wf (label_mem_code.mpr ⟨c, hc, he⟩)
  refine ⟨hids.nodup_iff.mpr (nodup_cons.mpr ⟨hskip, wf.distinct⟩), fun c hc => ?_, fun u hu => hu, fun p hp => ?_,
    ⟨{ b with insts := b.insts.take idx ++ [inv, branchTo far] }, ?_, rfl, fun k hk => ?_⟩, ?_⟩
  · rcases mem_cons.mp (hids.mem_iff.mp (mem_map_of_mem hc)) with he | hmem
    · rw [he]
      exact Nat.lt_succ_self _
    · obtain ⟨c', hc', he⟩ := mem_map.mp hmem
      rw [← he]
      exact Nat.lt_succ_of_lt (wf.numbered c' hc')
  · rw [trampolined, getElem?_append_left (by rw [htake]; exact hp), getElem?_take, if_pos hp]
  · rw [trampolined, getElem?_append_right htake.le, htake, Nat.sub_self, getElem?_cons_zero]
  · rw [getElem?_append_left (by rw [length_take]; omega), getElem?_take, if_pos hk]
  · rw [BranchFunction.code, trampolined, code_append, code_cons, code_cons]
    simp only [before, behind, map_append, map_cons, map_nil, append_assoc, cons_append, nil_append]

theorem trampoline_spec {kind} (hr : relaxableBranch i limits = some (t, limit, kind)) (hk : kind ≠ .b)
    (hfar : skips t (mf.code.drop (flatPos mf.blocks pos idx + 1)) = false) :
    ∃ mf', expandConditionalToTrampoline mf b.id idx t kind = some mf' ∧ Rewritten limits mf mf' pos idx := by
  obtain ⟨inv, hinv, hinvb, ⟨limit', kind', hr', hk'⟩, hemitted⟩ := inverted_spec hr hk mf.nextBlock
  have hbranch := branch_of_relaxable hr
  have htarget := wf.targets i (mem_code_of hb hi) t _ hbranch
  obtain ⟨hidx, -⟩ := List.getElem?_eq_some_iff.mp hi
  rw [BranchFunction.code, drop_flatPos hb hi] at hfar
  have hed := edited_trampoline wf hb hi inv (b.label ++ "_relax" ++ toString mf.nextBlock) t
  refine ⟨_, ?_, hed.rewritten hb hi (hed.wellFormed hb hi wf fun k hk => ?_)
    (alike_trampoline (not_isJump_of_conditional hr hk) (not_isJump_of_conditional hr' hk'))
    ⟨shift (before mf.blocks pos idx b).length 2, ?_⟩ (budget_trampoline hr hk hfar hr' hk' t)⟩
  · rw [expandConditionalToTrampoline, block_eq wf.distinct hb]
    change (invertedBranch mf.nextBlock kind >>= _) = _
    rw [hinv]
    change (mf.blockPosition b.id >>= _) = _
    rw [blockPosition_eq wf.distinct hb]
    change (mf.blocks[pos]? >>= _) = _
    rw [hb]
    exact if_pos hidx
  · simp only [mem_cons, CodeItem.inst.injEq, reduceCtorEq, not_mem_nil, or_false] at hk
    rcases hk with rfl | rfl
    · have hhas := hasBlock_iff_label.mpr (show CodeItem.label mf.nextBlock ∈ _ by rw [hed.code]; simp)
      refine .branch hinvb (fun other => ?_) hhas
      rw [hemitted, emitTarget, if_pos hhas]
      rfl
    · have hhas := hed.hasBlock hb hi htarget
      refine .branch (t := t) rfl (fun other => ?_) hhas
      change (if BranchFunction.hasBlock _ t then some 4 else none).isSome = true
      rw [if_pos hhas]
      rfl
  · have hmem := hasBlock_iff_label.mp htarget
    have hfresh := fresh_nextBlock wf
    have hskipTargets : ∀ k u test, .inst k ∈ mf.code → k.branch = some (u, test) → u ≠ mf.nextBlock := by
      rintro k u test hk hu rfl
      exact hfresh (hasBlock_iff_label.mp (wf.targets k hk _ test hu))
    rw [BranchFunction.code, code_split hb hi] at hmem hfresh hskipTargets ⊢
    rw [hed.code]
    exact places_trampoline hbranch hinvb rfl hmem hfresh hskipTargets

omit hb hi in
theorem expandOverflow_spec {site} (h : Pending limits mf site pos) :
    ∃ mf', expandOverflow mf site = some mf' ∧ Rewritten limits mf mf' pos site.instIdx := by
  obtain ⟨⟨b, i, limit, hb, hid, hi, hr⟩, hfar⟩ := h
  unfold expandOverflow
  rw [← hid]
  split
  · rename_i hk
    rw [hk] at hr
    exact widen_spec wf hb hi hr
  · rename_i hk
    exact trampoline_spec wf hb hi hr hk (hfar hk)

end Expand

end Armfortas.Codegen
