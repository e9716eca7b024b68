import Armfortas.Ir.Lemmas.Insert
import Armfortas.Opt.Sroa
import Mathlib.Algebra.Order.Ring.Int

/-! What the pass has to know of an array slot, and that it stays true while other slots are split. -/
namespace Armfortas.Opt.Sroa

variable {f : Function} {cand : SroaCandidate} {size : Nat}

open Lib Ir List Option Terminator Function InstKind

variable {i : Inst} {m : AssocMap ValueId ValueId}

/-! ## Uses of a slot -/

/-- `a` is at most `b`, where both are known. -/
def within (a b : Option Nat) : Bool :=
  match a, b with
  | some n, some k => decide (n ≤ k)
  | _, _ => true

/-- The index is a constant of its width, and the element's offset is an `i64`. -/
def indexFits (f : Function) (elem : IrType) (index : ValueId) : Bool :=
  match f.definingKind index, byteSize elem with
  | some (.constInt x w), some n => decide (w.Fits x ∧ IntWidth.i64.Fits (x * n))
  | _, _ => true

/-- What an instruction may do with the slot and the pointers to its elements: element pointers step by whole
elements, accesses stay within one, and no element pointer is stored. -/
def usesOk (f : Function) (cand : SroaCandidate) (i : Inst) : Bool :=
  match i.kind with
  | .getElementPtr base idxs => base != cand.allocaId ||
      (pointeeSize i.ty == byteSize cand.elemTy && idxs.all (indexFits f cand.elemTy))
  | .load a => !(f.gepsOf cand.allocaId).contains a || within (byteSize i.ty) (byteSize cand.elemTy)
  | .store v a => !(f.gepsOf cand.allocaId).contains a || (!(f.gepsOf cand.allocaId).contains v &&
      within ((f.valueType v).bind byteSize) (byteSize cand.elemTy))
  | _ => true

/-- The slot is used element by element and not by any terminator. -/
structure Faithful (f : Function) (cand : SroaCandidate) : Prop where
  size : (byteSize (.array cand.elemTy cand.count)).isSome = true
  insts : ∀ i ∈ f.allInsts, usesOk f cand i = true
  terms : ∀ b ∈ f.blocks, ∀ t ∈ b.terminator, cand.allocaId ∉ t.uses

instance (f : Function) (cand : SroaCandidate) : Decidable (Faithful f cand) :=
  decidable_of_iff ((byteSize (.array cand.elemTy cand.count)).isSome = true ∧
    (∀ i ∈ f.allInsts, usesOk f cand i = true) ∧ ∀ b ∈ f.blocks, ∀ t ∈ b.terminator, cand.allocaId ∉ t.uses)
    ⟨fun h => ⟨h.1, h.2.1, h.2.2⟩, fun h => ⟨h.size, h.insts, h.terms⟩⟩

structure ElementPtr (f : Function) (s : ValueId) (size : Nat) (i : Inst) (x : Int) : Prop where
  kind : ∃ j ∈ f.allInsts, ∃ w, j.kind = .constInt x w ∧ w.Fits x ∧ i.kind = .getElementPtr s [j.id]
  index : i64TryFrom x = some x
  step : pointeeSize i.ty = some size
  offset : IntWidth.i64.Fits (x * size)

/-- An access of at most `size` bytes through the element pointer `u`. -/
inductive ElementAccess (f : Function) (s : ValueId) (size : Nat) (u : ValueId) : Inst → Prop
  | load {id ty} : (∀ n, byteSize ty = some n → n ≤ size) → ElementAccess f s size u ⟨id, .load u, ty⟩
  | store {id v ty} : v ≠ s → v ∉ f.gepsOf s → (∀ vt n, f.valueType v = some vt → byteSize vt = some n → n ≤ size) →
      ElementAccess f s size u ⟨id, .store v u, ty⟩

structure Splittable (f : Function) (cand : SroaCandidate) (size : Nat) : Prop where
  alloca : ∃ blk m ty, f.tryBlock cand.allocaBlock = some blk ∧ cand.allocaInstIdx ≤ m ∧
    blk.insts[m]? = some ⟨cand.allocaId, .alloca (.array cand.elemTy cand.count), ty⟩
  elem : byteSize cand.elemTy = some size
  array : byteSize (.array cand.elemTy cand.count) = some (size * cand.count)
  geps : ∀ i ∈ f.allInsts, cand.allocaId ∈ i.kind.operands → ∃ x, ElementPtr f cand.allocaId size i x
  accesses : ∀ i ∈ f.allInsts, ∀ u ∈ i.kind.operands, u ∈ f.gepsOf cand.allocaId →
    ElementAccess f cand.allocaId size u i
  terms : ∀ b ∈ f.blocks, ∀ t ∈ b.terminator, ∀ u ∈ t.uses, u ≠ cand.allocaId ∧ u ∉ f.gepsOf cand.allocaId

theorem byteSize_array {elem count} (h : (byteSize (.array elem count)).isSome = true) :
    ∃ n, byteSize elem = some n ∧ byteSize (.array elem count) = some (n * count) := by
  unfold byteSize IrType.sizeBytes at h ⊢
  rw [IrType.trySizeBytes] at h ⊢
  cases he : elem.trySizeBytes .lp64 with
  | error e => simp [he, Except.toOption] at h
  | ok n =>
    simp only [he] at h ⊢
    split at h
    · next hlt => exact ⟨n, rfl, by rw [if_pos hlt]; rfl⟩
    · simp [Except.toOption] at h

theorem definingKind_eq_some {v k} (h : f.definingKind v = some k) :
    ∃ i ∈ f.allInsts, i.id = v ∧ i.kind = k := by
  obtain ⟨i, hi, rfl⟩ := map_eq_some_iff.mp h
  exact ⟨i, mem_of_find?_eq_some hi, by simpa using find?_some hi, rfl⟩

theorem resolveConstInt_eq_some {v x} (h : f.resolveConstInt v = some x) :
    ∃ w, f.definingKind v = some (.constInt x w) ∧ i64TryFrom x = some x := by
  unfold resolveConstInt at h
  split at h
  · next c w hk =>
    have hc : c = x := by
      unfold i64TryFrom at h
      split at h
      · exact some.inj h
      · cases h
    exact ⟨w, hc ▸ hk, hc ▸ hc ▸ h⟩
  · cases h

theorem access_of_not_escapes {gep} (h : gepResultEscapes f gep = false)
    (hi : i ∈ f.allInsts) (hu : gep ∈ i.kind.operands) : i.kind = .load gep ∨ ∃ v, i.kind = .store v gep := by
  obtain ⟨b, hb, hib⟩ := mem_flatMap.mp hi
  have hnot := (List.any_eq_false.mp h) b hb
  simp only [Bool.or_eq_true, not_or] at hnot
  have hinst := hnot.1
  have hone := List.any_eq_false.mp (Bool.not_eq_true _ ▸ hinst) i hib
  simp only [contains_eq_mem, hu, decide_true, Bool.true_and] at hone
  split at hone
  · next ptr hk => exact .inl (by rw [hk]; simpa using hone)
  · next v ptr hk => exact .inr ⟨v, by rw [hk]; simpa using hone⟩
  · simp at hone

theorem not_mem_uses_of_not_escapes {gep} (h : gepResultEscapes f gep = false)
    {b} (hb : b ∈ f.blocks) {t} (ht : b.terminator = some t) : gep ∉ t.uses := by
  have hnot := (List.any_eq_false.mp h) b hb
  simp only [Bool.or_eq_true, not_or, ht] at hnot
  have hterm := hnot.2
  intro hu
  cases t with
  | «return» v =>
    cases v with
    | none => simp [uses] at hu
    | some v => exact hterm (by simpa [uses] using (mem_singleton.mp hu).symm)
  | branch d args => exact hterm (by simpa [uses] using hu)
  | condBranch c td ta fd fa =>
    simp only [uses, mem_cons, mem_append] at hu
    rcases hu with rfl | hu | hu <;> simp_all
  | switch sel cs d => exact hterm (by simpa [uses] using (mem_singleton.mp hu).symm)
  | unreachable => simp [uses] at hu

theorem candidateAt_eq_some {b idx}
    (h : candidateAt f b i idx = some cand) : ∃ elem count, i.kind = .alloca (.array elem count) ∧
      (count ≤ sroaMaxFields ∧ 0 < count ∧ isEligible f i.id = true) ∧
      cand = { allocaId := i.id, allocaBlock := b, allocaInstIdx := idx, elemTy := elem, count := count } := by
  unfold candidateAt at h
  split at h
  · next elem count hk =>
    split at h
    · next hcond => exact ⟨elem, count, hk, hcond, (some.inj h).symm⟩
    · cases h
  · cases h

theorem splittable_of_candidate (h : f.Numbered) (hc : cand ∈ findCandidates f)
    (hf : Faithful f cand) : ∃ size, Splittable f cand size := by
  obtain ⟨b, hb, hcand⟩ := mem_flatMap.mp hc
  obtain ⟨⟨i, idx⟩, hget, hsome⟩ := mem_filterMap.mp hcand
  rw [mem_zipIdx_iff_getElem?] at hget
  obtain ⟨id, kind, ty⟩ := i
  obtain ⟨elem, count, rfl, hcond, rfl⟩ := candidateAt_eq_some hsome
  obtain ⟨size, helem, harray⟩ := byteSize_array hf.size
  -- element pointers, as the pass accepts them
  have helig := List.all_eq_true.mp hcond.2.2
  have hgep : ∀ i ∈ f.allInsts, id ∈ i.kind.operands → (∃ x, ElementPtr f id size i x) ∧
      gepResultEscapes f i.id = false := by
    intro i hi hu
    have hacc := helig i hi
    have huse := hf.insts i hi
    simp only [contains_eq_mem, hu, decide_true, Bool.not_true, Bool.false_or] at hacc
    split at hacc
    · next base index hk =>
      simp only [Bool.and_eq_true, beq_iff_eq, Bool.not_eq_true'] at hacc
      obtain ⟨⟨⟨rfl, hconst⟩, -⟩, hesc⟩ := hacc
      obtain ⟨x, hx⟩ := isSome_iff_exists.mp hconst
      obtain ⟨w, hw, hx64⟩ := resolveConstInt_eq_some hx
      obtain ⟨j, hj, rfl, hjk⟩ := definingKind_eq_some hw
      simp only [usesOk, hk, bne_self_eq_false, Bool.false_or, all_cons, all_nil, Bool.and_true,
        Bool.and_eq_true, beq_iff_eq, indexFits, hw, helem, decide_eq_true_eq] at huse
      exact ⟨⟨x, ⟨j, hj, w, hjk, huse.2.1, hk⟩, hx64, huse.1, huse.2.2⟩, hesc⟩
    · cases hacc
  have hesc : ∀ u ∈ f.gepsOf id, gepResultEscapes f u = false := by
    intro u hu
    obtain ⟨i, hi, rfl, idxs, hk⟩ := mem_gepsOf.mp hu
    exact (hgep i hi (by simp [hk, operands])).2
  refine ⟨size, ?_⟩
  constructor
  case alloca => exact ⟨b, idx, ty, tryBlock_id h.blocksNodup hb, le_rfl, hget⟩
  case elem => exact helem
  case array => exact harray
  case geps => exact fun i hi hu => (hgep i hi hu).1
  case accesses =>
    intro i hi u hu hgep'
    have huse := hf.insts i hi
    obtain ⟨iid, ikind, ity⟩ := i
    rcases access_of_not_escapes (hesc u hgep') hi hu with hk | ⟨v, hk⟩
    · dsimp only at hk
      subst hk
      refine .load fun n hn => ?_
      simpa [usesOk, hgep', within, hn, helem] using huse
    · dsimp only at hk
      subst hk
      simp only [usesOk, contains_eq_mem, hgep', decide_true, Bool.not_true, Bool.false_or, Bool.and_eq_true,
        Bool.not_eq_true', decide_eq_false_iff_not] at huse
      refine .store ?_ huse.1 fun vt n hvt hn => ?_
      · rintro rfl
        -- a store of the array's own address is no element pointer
        obtain ⟨⟨x, ⟨j, _, w, _, _, hkind⟩, -⟩, -⟩ := hgep ⟨iid, .store v u, ity⟩ hi (by simp [operands])
        cases hkind
      · simpa [within, hvt, hn, helem] using huse.2
  case terms =>
    intro b hb t ht u hu
    refine ⟨fun e => hf.terms b hb t ht (e ▸ hu), fun hg => ?_⟩
    exact not_mem_uses_of_not_escapes (hesc u hg) hb ht hu

/-! ## Nobody else knows the slot -/

section Private

theorem Splittable.alloca_mem (hs : Splittable f cand size) :
    ∃ ty, ⟨cand.allocaId, .alloca (.array cand.elemTy cand.count), ty⟩ ∈ f.allInsts := by
  obtain ⟨blk, m, ty, hblk, -, hget⟩ := hs.alloca
  exact ⟨ty, mem_flatMap.mpr ⟨blk, (mem_blocks_of_tryBlock hblk).1, mem_of_getElem? hget⟩⟩

theorem Splittable.allocaId_lt (hs : Splittable f cand size) (h : f.Numbered) : cand.allocaId < f.nextValue := by
  obtain ⟨ty, ha⟩ := hs.alloca_mem
  exact h.inst_lt ha

theorem Splittable.element (hs : Splittable f cand size) {u} (h : f.Element cand.allocaId u) :
    u = cand.allocaId ∨ u ∈ f.gepsOf cand.allocaId := by
  induction h with
  | refl => exact .inl rfl
  | tail _ hgep ih =>
    rcases ih with rfl | hu
    · exact .inr hgep
    · obtain ⟨i, hi, rfl, idxs, hk⟩ := mem_gepsOf.mp hgep
      cases hs.accesses i hi _ (by simp [hk, operands]) hu <;> cases hk

theorem Splittable.private (h : f.Numbered) (hs : Splittable f cand size) : f.Private cand.allocaId where
  insts := by
    intro i hi u hu he
    rcases hs.element he with rfl | hgep
    · obtain ⟨x, ⟨j, hj, w, hjk, -, hk⟩, -⟩ := hs.geps i hi hu
      obtain ⟨ty, ha⟩ := hs.alloca_mem
      have hne : j.id ≠ cand.allocaId := fun e => by
        have := h.inst_unique hj ha e
        rw [this] at hjk
        cases hjk
      simp [hk, usesAsAddress, Ne.symm hne]
    · cases hs.accesses i hi u hu hgep with
      | load => simp [usesAsAddress]
      | store _ hv =>
        have hne : ∀ v, v ∉ f.gepsOf cand.allocaId → v ≠ u := fun v hv e => hv (e ▸ hgep)
        simp [usesAsAddress, hne _ hv]
  terms := by
    intro b hb t ht u hu he
    obtain ⟨hne, hng⟩ := hs.terms b hb t ht u hu
    rcases hs.element he with e | hg
    · exact hne e
    · exact hng hg

end Private

/-! ## Other slots -/

/-- `g` has the instructions of `f`, where those in question are the same, and new slots. -/
structure Extends (f g : Function) (cand : SroaCandidate) : Prop where
  geps : ∀ u, u ∈ g.gepsOf cand.allocaId ↔ u ∈ f.gepsOf cand.allocaId
  leaves : ∀ i ∈ f.allInsts, i.kind.isLeaf = true → i ∈ g.allInsts
  users : ∀ i ∈ g.allInsts, ∀ u ∈ i.kind.operands, u = cand.allocaId ∨ u ∈ f.gepsOf cand.allocaId → i ∈ f.allInsts
  types : ∀ i ∈ f.allInsts, ∀ v ∈ i.kind.operands, g.valueType v = f.valueType v
  terms : ∀ b ∈ g.blocks, ∀ t ∈ b.terminator, ∃ b' ∈ f.blocks, t ∈ b'.terminator

theorem Splittable.extends {f g} (hs : Splittable f cand size)
    (he : Extends f g cand) (ha : ∃ blk m ty, g.tryBlock cand.allocaBlock = some blk ∧ cand.allocaInstIdx ≤ m ∧
      blk.insts[m]? = some ⟨cand.allocaId, .alloca (.array cand.elemTy cand.count), ty⟩) :
    Splittable g cand size where
  alloca := ha
  elem := hs.elem
  array := hs.array
  geps i hi hu := by
    obtain ⟨x, ⟨j, hj, w, hjk, hw, hk⟩, hidx, hstep, hoff⟩ := hs.geps i (he.users i hi _ hu (.inl rfl)) hu
    exact ⟨x, ⟨j, he.leaves j hj (by rw [hjk]; rfl), w, hjk, hw, hk⟩, hidx, hstep, hoff⟩
  accesses i hi u hu hgep := by
    rw [he.geps] at hgep
    have hif := he.users i hi u hu (.inr hgep)
    cases hs.accesses i hif u hu hgep with
    | load hn => exact .load hn
    | store hne hv hn =>
      refine .store hne (fun h => hv ((he.geps _).mp h)) fun vt n hvt => hn vt n ?_
      rw [← hvt]
      exact (he.types _ hif _ (by simp [operands])).symm
  terms b hb t ht u hu := by
    obtain ⟨b', hb', ht'⟩ := he.terms b hb t ht
    rw [he.geps]
    exact hs.terms b' hb' t ht' u hu

section Insert

variable (h : f.Numbered) {b : BlockId} {pos : Nat} {ty ty' : IrType} {blk : BasicBlock}
  (hb : f.tryBlock b = some blk) (hpos : pos ≤ blk.insts.length)
include h hb hpos

theorem extends_insertInst (cand) : Extends f (f.insertInst b pos (.alloca ty) ty') cand where
  geps u := by
    simp only [mem_gepsOf, h.mem_allInsts_insertInst hb hpos]
    constructor
    · rintro ⟨i, rfl | hi, hid, idxs, hk⟩
      · cases hk
      · exact ⟨i, hi, hid, idxs, hk⟩
    · rintro ⟨i, hi, hid, idxs, hk⟩
      exact ⟨i, .inr hi, hid, idxs, hk⟩
  leaves i hi _ := (h.mem_allInsts_insertInst hb hpos).mpr (.inr hi)
  users i hi u hu _ := by
    rcases (h.mem_allInsts_insertInst hb hpos).mp hi with rfl | hi
    · simp [operands] at hu
    · exact hi
  types i hi v hv := h.valueType_insertInst hb hpos rfl (Nat.ne_of_lt (h.instUses i hi v hv))
  terms c hc t ht := by
    rw [h.insertInst_blocks] at hc
    obtain ⟨c₀, hc₀, rfl⟩ := List.mem_map.mp hc
    exact ⟨c₀, hc₀, by split at ht <;> exact ht⟩

theorem Splittable.insertInst (hs : Splittable f cand size) :
    Splittable (f.insertInst b pos (.alloca ty) ty') cand size := by
  refine hs.extends (extends_insertInst h hb hpos cand) ?_
  obtain ⟨c, m, aty, hc, hm, hget⟩ := hs.alloca
  rw [h.tryBlock_insertInst, hc, map_some]
  split
  · refine ⟨_, if m < pos then m else m + 1, aty, rfl, ?_, ?_⟩
    · split <;> omega
    · rw [withInst, getElem?_insertIdx]
      by_cases hlt : m < pos
      · simp [hlt, hget]
      · have h1 : ¬ m + 1 < pos := by omega
        have h2 : m + 1 ≠ pos := by omega
        simp [hlt, h1, h2, hget]
  · exact ⟨_, m, aty, rfl, hm, hget⟩

end Insert

/-! ## The new slots -/

def fieldInst (cand : SroaCandidate) (first k : Nat) : Inst := ⟨first + k, .alloca cand.elemTy, .ptr cand.elemTy⟩

structure Prepared (f : Function) (cand : SroaCandidate) (n : Nat) (g : Function) : Prop where
  numbered : g.Numbered
  nextValue : g.nextValue = f.nextValue + n
  splits : ∀ c size, Splittable f c size → Splittable g c size
  fields : ∃ blk, g.tryBlock cand.allocaBlock = some blk ∧ cand.allocaInstIdx + 1 + n ≤ blk.insts.length ∧
    ∀ k < n, blk.insts[cand.allocaInstIdx + 1 + k]? = some (fieldInst cand f.nextValue k)
  insts : ∀ i, i ∈ g.allInsts ↔ i ∈ f.allInsts ∨ ∃ k < n, i = fieldInst cand f.nextValue k
  terms : ∀ b ∈ g.blocks, ∀ t ∈ b.terminator, ∀ v ∈ t.uses, v < f.nextValue
  similar : ∀ (L : Launch) (j : Nat), (L.run f j).Similar [] (L.run g j)

theorem prepared_insertFields (h : f.Numbered)
    (hs : Splittable f cand size) (n) : Prepared f cand n (insertFields f cand n) := by
  induction n with
  | zero =>
    refine ⟨h, rfl, fun _ _ hc => hc, ?_, by simp [insertFields], h.termUses, fun L j => ?_⟩
    · obtain ⟨blk, m, ty, hblk, hm, hget⟩ := hs.alloca
      have := (List.getElem?_eq_some_iff.mp hget).1
      exact ⟨blk, hblk, by omega, by simp⟩
    · exact .refl _
  | succ n ih =>
    obtain ⟨blk, hblk, hlen, hfields⟩ := ih.fields
    have hpos : cand.allocaInstIdx + 1 + n ≤ blk.insts.length := hlen
    have hnum := ih.numbered
    have hnew : (⟨(insertFields f cand n).nextValue, .alloca cand.elemTy, .ptr cand.elemTy⟩ : Inst) =
        fieldInst cand f.nextValue n := by rw [fieldInst, ih.nextValue]
    constructor
    case numbered => exact hnum.insertInst hblk hpos rfl
    case nextValue => exact congrArg (· + 1) ih.nextValue
    case splits => exact fun c sz hc => (ih.splits c sz hc).insertInst hnum hblk hpos
    case fields =>
      refine ⟨(insertFields f cand n).withInst (cand.allocaInstIdx + 1 + n) (.alloca cand.elemTy)
        (.ptr cand.elemTy) blk, ?_, ?_, fun k hk => ?_⟩
      · rw [insertFields, hnum.tryBlock_insertInst, hblk, map_some,
          if_pos (mem_blocks_of_tryBlock hblk).2]
      · rw [withInst, length_insertIdx, if_pos hpos]
        omega
      · rw [withInst, getElem?_insertIdx, hnew]
        by_cases hkn : k < n
        · rw [if_pos (by omega), hfields k hkn]
        · obtain rfl : k = n := by omega
          simp [hpos]
    case insts =>
      intro i
      rw [insertFields, hnum.mem_allInsts_insertInst hblk hpos, ih.insts, hnew]
      constructor
      · rintro (rfl | hi | ⟨k, hk, rfl⟩)
        · exact .inr ⟨n, by omega, rfl⟩
        · exact .inl hi
        · exact .inr ⟨k, by omega, rfl⟩
      · rintro (hi | ⟨k, hk, rfl⟩)
        · exact .inr (.inl hi)
        · rcases Nat.lt_or_ge k n with hlt | hge
          · exact .inr (.inr ⟨k, hlt, rfl⟩)
          · obtain rfl : k = n := by omega
            exact .inl rfl
    case terms =>
      intro c hc t ht
      rw [insertFields, hnum.insertInst_blocks] at hc
      obtain ⟨c₀, hc₀, rfl⟩ := List.mem_map.mp hc
      exact ih.terms c₀ hc₀ t (by split at ht <;> exact ht)
    case similar =>
      intro L j
      refine (ih.similar L j).trans ?_
      exact Launch.similar_insertInst hnum _ _ rfl rfl (by simp [Val.hasType, IntWidth.Fits]) j

/-! ## Redirected accesses -/

section Retarget

variable {first : ValueId}

theorem fieldIndex_eq (h : f.Numbered) {x} (hp : ElementPtr f cand.allocaId size i x) :
    fieldIndex f cand i = if 0 ≤ x ∧ x < cand.count then some x.toNat else none := by
  obtain ⟨j, hj, w, hjk, -, hk⟩ := hp.kind
  have hres : f.resolveConstInt j.id = some x := by
    simp only [resolveConstInt, definingKind, h.findDefiningInst hj, map_some, hjk, hp.index]
  simp [fieldIndex, hk, hres]

theorem fieldIndex_isSome {k} (h : fieldIndex f cand i = some k) :
    k < cand.count ∧ ∃ idx, i.kind = .getElementPtr cand.allocaId [idx] := by
  unfold fieldIndex at h
  split at h
  · next base index hk =>
    split at h
    · next hb =>
      obtain ⟨x, -, hx⟩ := bind_eq_some_iff.mp h
      split at hx
      · cases hx
        exact ⟨by omega, index, hb ▸ hk⟩
      · cases hx
    · cases h
  · cases h

theorem gepToField_eq_some {u fld} (h : (gepToField f cand first).get? u = some fld) :
    ∃ i ∈ f.allInsts, i.id = u ∧ ∃ k, fieldIndex f cand i = some k ∧ fld = first + k := by
  have hmem := AssocMap.mem_of_get? h
  rw [gepToField, mem_reverse, mem_filterMap] at hmem
  obtain ⟨i, hi, hsome⟩ := hmem
  obtain ⟨k, hk, heq⟩ := map_eq_some_iff.mp hsome
  simp only [Prod.mk.injEq] at heq
  exact ⟨i, hi, heq.1, k, hk, heq.2.symm⟩

theorem gepToField_get? (h : f.Numbered) (hi : i ∈ f.allInsts) :
    (gepToField f cand first).get? i.id = (fieldIndex f cand i).map (first + ·) := by
  cases hg : (gepToField f cand first).get? i.id with
  | some fld =>
    obtain ⟨j, hj, hid, k, hk, rfl⟩ := gepToField_eq_some hg
    rw [h.inst_unique hj hi hid] at hk
    rw [hk]
    rfl
  | none =>
    cases hk : fieldIndex f cand i with
    | none => rfl
    | some k =>
      have hmem : (i.id, first + k) ∈ gepToField f cand first :=
        mem_reverse.mpr (mem_filterMap.mpr ⟨i, hi, by rw [hk]; rfl⟩)
      have := lookup_eq_none_iff.mp hg _ hmem
      simp at this

theorem mem_gepsOf_of_gepToField {u fld} (h : (gepToField f cand first).get? u = some fld) :
    u ∈ f.gepsOf cand.allocaId ∧ ∃ k < cand.count, fld = first + k := by
  obtain ⟨i, hi, rfl, k, hk, rfl⟩ := gepToField_eq_some h
  obtain ⟨hlt, idx, hkind⟩ := fieldIndex_isSome hk
  exact ⟨mem_gepsOf.mpr ⟨i, hi, rfl, _, hkind⟩, k, hlt, rfl⟩

def retargetInst (m : AssocMap ValueId ValueId) (i : Inst) : Inst := { i with kind := retarget m i.kind }

inductive Retargeted (m : AssocMap ValueId ValueId) : Inst → Inst → Prop
  | same (i : Inst) : Retargeted m i i
  | load {id ty a fld} (hm : m.get? a = some fld) : Retargeted m ⟨id, .load a, ty⟩ ⟨id, .load fld, ty⟩
  | store {id ty v a fld} (hm : m.get? a = some fld) : Retargeted m ⟨id, .store v a, ty⟩ ⟨id, .store v fld, ty⟩

theorem retargeted (m i) : Retargeted m i (retargetInst m i) := by
  obtain ⟨id, kind, ty⟩ := i
  cases kind with
  | load a | store v a =>
    simp only [retargetInst, retarget, AssocMap.getD]
    cases hm : m.get? a with
    | none => exact .same _
    | some fld => constructor; exact hm
  | _ => exact .same _

theorem mem_allInsts_retarget :
    i ∈ (retargetFunction m f).allInsts ↔ ∃ j ∈ f.allInsts, i = retargetInst m j := by
  simp only [allInsts, retargetFunction, mem_flatMap, List.mem_map]
  constructor
  · rintro ⟨_, ⟨b, hb, rfl⟩, hi⟩
    obtain ⟨j, hj, rfl⟩ := List.mem_map.mp hi
    exact ⟨j, ⟨b, hb, hj⟩, rfl⟩
  · rintro ⟨j, ⟨b, hb, hj⟩, rfl⟩
    exact ⟨_, ⟨b, hb, rfl⟩, List.mem_map.mpr ⟨j, hj, rfl⟩⟩

theorem exists_retargeted (hi : i ∈ (retargetFunction m f).allInsts) : ∃ j ∈ f.allInsts, Retargeted m j i := by
  obtain ⟨j, hj, rfl⟩ := mem_allInsts_retarget.mp hi
  exact ⟨j, hj, retargeted m j⟩

theorem definitions_retarget (m f) :
    (retargetFunction m f).definitions = f.definitions := by
  simp [definitions, retargetFunction, flatMap_map, comp_def]

def retargetBlock (m : AssocMap ValueId ValueId) (b : BasicBlock) : BasicBlock :=
  { b with insts := b.insts.map (retargetInst m) }

theorem tryBlock_retarget (m f b) :
    (retargetFunction m f).tryBlock b = (f.tryBlock b).map (retargetBlock m) :=
  tryBlock_map (g := retargetBlock m) (fun _ => rfl) b

theorem retarget_getElementPtr {k base idxs} :
    retarget m k = .getElementPtr base idxs ↔ k = .getElementPtr base idxs := by
  cases k <;> simp [retarget]

theorem mem_gepsOf_retarget {s u} :
    u ∈ (retargetFunction m f).gepsOf s ↔ u ∈ f.gepsOf s := by
  simp only [mem_gepsOf, mem_allInsts_retarget]
  constructor
  · rintro ⟨_, ⟨j, hj, rfl⟩, hid, idxs, hk⟩
    exact ⟨j, hj, hid, idxs, retarget_getElementPtr.mp hk⟩
  · rintro ⟨j, hj, hid, idxs, hk⟩
    exact ⟨_, ⟨j, hj, rfl⟩, hid, idxs, retarget_getElementPtr.mpr hk⟩

end Retarget

end Armfortas.Opt.Sroa
