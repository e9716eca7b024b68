import Armfortas.Codegen.X86.Abi
import Mathlib.Algebra.Order.Ring.Int
import Mathlib.Data.List.Nodup

/-! Classification and places of arguments. -/
namespace Armfortas.Codegen.X86
open List Option X86AbiArgLoc X86AbiState

variable {n : Nat} {st : X86AbiState} {cs : List Class} {ty : AbiTy}

/-! ## Merging -/

def Class.Plain (c : Class) : Prop := c = .noClass ∨ c = .integer ∨ c = .sse

instance (c : Class) : Decidable c.Plain := inferInstanceAs (Decidable (_ ∨ _ ∨ _))

theorem AbiField.classOf_cases (f : AbiField) : f.classOf = .integer ∨ f.classOf = .sse := by
  cases f <;> simp [AbiField.classOf]

theorem merge_plain {c : Class} (hc : c.Plain) (f : AbiField) : (merge c f.classOf).Plain ∧ merge c f.classOf ≠ .noClass := by
  obtain hf | hf := f.classOf_cases <;> rw [hf] <;> obtain rfl | rfl | rfl := hc <;> decide

/-- From the first classes to the second, with leaves in these eightbytes. -/
structure Merged (cs cs' : List Class) (touched : List Nat) : Prop where
  length : cs'.length = cs.length
  plain : ∀ c ∈ cs', c.Plain
  noClass : ∀ i, cs'[i]? = some .noClass ↔ cs[i]? = some .noClass ∧ i ∉ touched

namespace Merged

theorem refl (h : ∀ c ∈ cs, c.Plain) : Merged cs cs [] := ⟨rfl, h, by simp⟩

theorem trans {cs cs' cs'' t t'} (h : Merged cs cs' t) (h' : Merged cs' cs'' t') :
    Merged cs cs'' (t ++ t') where
  length := h'.length.trans h.length
  plain := h'.plain
  noClass i := by rw [h'.noClass, h.noClass, mem_append, not_or, and_assoc]

end Merged

/-- Merges give classes as long as all the eightbytes are there, and panic otherwise. -/
structure Merges (cs : List Class) (touched : List Nat) (r : Option (List Class)) : Prop where
  inside : (∀ i ∈ touched, i < cs.length) → ∃ cs', r = some cs' ∧ Merged cs cs' touched
  outside : (¬ ∀ i ∈ touched, i < cs.length) → r = none

theorem Merges.bind {t t' r} {f : List Class → Option (List Class)}
    (h : Merges cs t r) (hf : ∀ cs', (∀ c ∈ cs', c.Plain) → Merges cs' t' (f cs')) :
    Merges cs (t ++ t') (r.bind f) where
  inside hin := by
    rw [forall_mem_append] at hin
    obtain ⟨cs₁, rfl, hmerged⟩ := h.inside hin.1
    obtain ⟨cs', hrun, hmerged'⟩ := (hf cs₁ hmerged.plain).inside (by rw [hmerged.length]; exact hin.2)
    exact ⟨cs', hrun, hmerged.trans hmerged'⟩
  outside hout := by
    rw [forall_mem_append] at hout
    by_cases hin : ∀ i ∈ t, i < cs.length
    · obtain ⟨cs₁, rfl, hmerged⟩ := h.inside hin
      exact (hf cs₁ hmerged.plain).outside (by rw [hmerged.length]; exact fun h => hout ⟨hin, h⟩)
    · rw [h.outside hin]
      rfl

theorem foldlM_merges {α : Type} {step : List Class → α → Option (List Class)} {touched : α → List Nat} {as : List α}
    (hstep : ∀ a ∈ as, ∀ cs : List Class, (∀ c ∈ cs, c.Plain) → Merges cs (touched a) (step cs a))
    (hplain : ∀ c ∈ cs, c.Plain) : Merges cs (as.flatMap touched) (as.foldlM step cs) := by
  induction as generalizing cs with
  | nil => exact ⟨fun _ => ⟨cs, rfl, .refl hplain⟩, fun hout => absurd (by simp) hout⟩
  | cons a as ih =>
    obtain ⟨ha, has⟩ := forall_mem_cons.mp hstep
    exact (ha cs hplain).bind fun cs' hcs' => ih has hcs'

theorem mergeAt_merges (hplain : ∀ c ∈ cs, c.Plain) (i) (f : AbiField) :
    Merges cs [i] (mergeAt cs i f.classOf) where
  inside hin := by
    have hi := forall_mem_singleton.mp hin
    have hmerge := merge_plain (hplain _ (getElem_mem hi)) f
    refine ⟨cs.set i (merge cs[i] f.classOf), by rw [mergeAt, getElem?_eq_getElem hi]; rfl, ?_, ?_, ?_⟩
    · exact length_set
    · intro c hc
      obtain hmem | rfl := mem_or_eq_of_mem_set hc
      · exact hplain c hmem
      · exact hmerge.1
    · intro j
      by_cases hj : i = j
      · subst hj
        simp [hi, hmerge.2]
      · simp [hj, Ne.symm hj]
  outside hout := by
    rw [forall_mem_singleton] at hout
    rw [mergeAt, getElem?_eq_none (Nat.le_of_not_lt hout), map_none]

theorem leaf_inside {leaf : Nat × AbiField} (h : leaf.1 % leaf.2.align = 0) : leaf.1 % 8 + min leaf.2.size 8 ≤ 8 := by
  obtain ⟨off, f⟩ := leaf
  cases f <;> simp only [AbiField.align, AbiField.size] at h ⊢ <;> omega

theorem mergeLeaf_eq {leaf : Nat × AbiField} (h : leaf.1 % leaf.2.align = 0) (cs : List Class) :
    mergeLeaf cs leaf = (touchedBy leaf).foldlM (fun cs i => mergeAt cs i leaf.2.classOf) cs := by
  rw [mergeLeaf, touchedBy]
  simp only [if_pos (leaf_inside h)]
  split <;> simp [foldlM_cons, bind_eq_bind]

theorem mergeLeaves_merges {leaves : List (Nat × AbiField)} (haligned : ∀ leaf ∈ leaves, leaf.1 % leaf.2.align = 0)
    (hplain : ∀ c ∈ cs, c.Plain) :
    Merges cs (leaves.flatMap touchedBy) (leaves.foldlM mergeLeaf cs) := by
  refine foldlM_merges (fun leaf hleaf cs hcs => ?_) hplain
  have htouched := foldlM_merges (α := Nat) (fun i (_ : i ∈ touchedBy leaf) _ hcs => mergeAt_merges hcs i leaf.2) hcs
  rw [flatMap_singleton'] at htouched
  rwa [mergeLeaf_eq (haligned leaf hleaf)]

/-! ## The cleanup -/

theorem strayX87Up_plain (h : ∀ c ∈ cs, c.Plain) (prev) :
    strayX87Up prev cs = false := by
  induction cs generalizing prev with
  | nil => rfl
  | cons c cs ih =>
    obtain ⟨hc, hcs⟩ := forall_mem_cons.mp h
    rw [strayX87Up, ih hcs]
    obtain rfl | rfl | rfl := hc <;> rfl

theorem settleSseUp_plain (h : ∀ c ∈ cs, c.Plain) (prev) : settleSseUp prev cs = cs := by
  induction cs generalizing prev with
  | nil => rfl
  | cons c cs ih =>
    obtain ⟨hc, hcs⟩ := forall_mem_cons.mp h
    have hne : c ≠ .sseUp := by obtain rfl | rfl | rfl := hc <;> decide
    rw [settleSseUp]
    simp only [hne, false_and, if_false, ih hcs]

theorem postMerge_plain (h : ∀ c ∈ cs, c.Plain) :
    postMerge cs = if 2 < cs.length then .memory else .eightbytes cs := by
  have hmemory : cs.contains .memory = false := by
    rw [← Bool.not_eq_true, contains_iff_mem]
    intro hmem
    obtain h | h | h := h _ hmem <;> cases h
  rw [postMerge, hmemory, strayX87Up_plain h, settleSseUp_plain h]
  simp only [Bool.false_eq_true, if_false]
  by_cases hlen : 2 < cs.length
  · have hany : cs.tail.any (· != .sseUp) = true := by
      match cs, hlen with
      | _ :: c :: _, _ =>
        have hc := h c (by simp)
        rw [tail_cons, any_cons, Bool.or_eq_true]
        obtain rfl | rfl | rfl := hc <;> exact .inl rfl
    rw [if_pos hlen, if_pos ⟨hlen, .inr hany⟩]
  · rw [if_neg hlen, if_neg fun h => hlen h.1]

/-! ## Classification -/

/-- The eightbytes of a type that is not passed in memory, none of them padding only. -/
structure Classes (ty : AbiTy) (cs : List Class) : Prop where
  length : cs.length = ty.nEightbytes
  le : cs.length ≤ 2
  all : ∀ c ∈ cs, c = .integer ∨ c = .sse

theorem nEightbytes_pos (ty : AbiTy) : 0 < ty.nEightbytes := Nat.lt_of_lt_of_le Nat.one_pos (Nat.le_max_right _ _)

theorem classify_cases (ty : AbiTy) :
    if ty.covered then classify ty = some .memory ∨ ∃ cs, classify ty = some (.eightbytes cs) ∧ Classes ty cs
    else classify ty = none ∨ ∃ cs, classify ty = some (.eightbytes cs) ∧ .noClass ∈ cs := by
  rw [AbiTy.covered, classify]
  by_cases hbig : 8 < ty.nEightbytes
  · simp [hbig]
  · by_cases hany : (ty.leaves.any fun leaf => leaf.1 % leaf.2.align != 0) = true
    · simp only [hbig, hany, if_false, if_true, decide_false, Bool.false_or, Bool.true_or, true_or]
    · have haligned : ∀ leaf ∈ ty.leaves, leaf.1 % leaf.2.align = 0 := by simpa using hany
      have hplain : ∀ c ∈ List.replicate ty.nEightbytes Class.noClass, c.Plain :=
        fun c hc => .inl (eq_of_mem_replicate hc)
      have hmerge := mergeLeaves_merges haligned hplain
      simp only [hbig, hany, if_false, decide_false, Bool.false_or, Bool.and_eq_true, List.all_eq_true,
        Bool.or_eq_true, decide_eq_true_eq, Bool.false_eq_true]
      by_cases hin : ∀ i ∈ ty.leaves.flatMap touchedBy, i < ty.nEightbytes
      · obtain ⟨cs, hrun, hmerged⟩ := hmerge.inside (by rwa [length_replicate])
        have hlen : cs.length = ty.nEightbytes := hmerged.length.trans length_replicate
        rw [hrun, map_some, postMerge_plain hmerged.plain, hlen]
        by_cases hlong : 2 < ty.nEightbytes
        · rw [if_pos ⟨hin, .inl hlong⟩, if_pos hlong]
          exact .inl rfl
        · rw [if_neg hlong]
          split
          · next hcov =>
            refine .inr ⟨cs, rfl, hlen, by omega, fun c hc => ?_⟩
            obtain ⟨i, hi, rfl⟩ := getElem_of_mem hc
            refine (hmerged.plain _ hc).resolve_left fun hno => ?_
            have hnot := (hmerged.noClass i).mp (by rw [getElem?_eq_getElem hi, hno])
            have hmem := (hcov.2.resolve_left hlong) i (mem_range.mpr (hlen ▸ hi))
            exact hnot.2 (contains_iff_mem.mp hmem)
          · next hcov =>
            have hpad : ¬ ∀ i ∈ List.range ty.nEightbytes, (ty.leaves.flatMap touchedBy).contains i = true :=
              fun h => hcov ⟨hin, .inr h⟩
            push Not at hpad
            obtain ⟨i, hi, hnot⟩ := hpad
            have hi' := mem_range.mp hi
            refine .inr ⟨cs, rfl, mem_of_getElem? (i := i) ((hmerged.noClass i).mpr ⟨?_, ?_⟩)⟩
            · rw [getElem?_replicate, if_pos hi']
            · rwa [Ne, contains_iff_mem] at hnot
      · rw [if_neg fun h => hin h.1, hmerge.outside (by rwa [length_replicate])]
        exact .inl rfl

/-! ## Registers -/

def X86AbiState.advance (st : X86AbiState) (cs : List Class) : X86AbiState :=
  { st with gpIdx := st.gpIdx + cs.count .integer, xmmIdx := st.xmmIdx + cs.count .sse }

theorem takeRegs_spec (hall : ∀ c ∈ cs, c = .integer ∨ c = .sse) (st : X86AbiState)
    (hgp : st.gpIdx + cs.count .integer ≤ argGp.length) (hxmm : st.xmmIdx + cs.count .sse ≤ argXmm.length) :
    ∃ regs, takeRegs cs st = some (regs, st.advance cs) ∧ regs.length = cs.length ∧
      regs.filter X86Reg.isGp = (argGp.drop st.gpIdx).take (cs.count .integer) ∧
      regs.filter (!X86Reg.isGp ·) = (argXmm.drop st.xmmIdx).take (cs.count .sse) := by
  have hgpAll : ∀ r ∈ argGp, r.isGp = true := by decide
  have hxmmAll : ∀ r ∈ argXmm, r.isGp = false := by decide
  induction cs generalizing st with
  | nil => exact ⟨[], rfl, rfl, by simp, by simp⟩
  | cons c cs ih =>
    obtain ⟨hc, hcs⟩ := forall_mem_cons.mp hall
    obtain rfl | rfl := hc
    · rw [count_cons_self, count_cons_of_ne (by decide)] at *
      have hlt : st.gpIdx < argGp.length := by omega
      obtain ⟨regs, hrun, hlen, hregs, hrest⟩ := ih hcs { st with gpIdx := st.gpIdx + 1 }
        (by dsimp only; omega) hxmm
      have hfirst := hgpAll _ (getElem_mem hlt)
      refine ⟨argGp[st.gpIdx] :: regs, ?_, by simp [hlen], ?_, ?_⟩
      · rw [takeRegs, getElem?_eq_getElem hlt]
        simp [hrun, advance, Nat.add_assoc, Nat.add_comm 1]
      · rw [filter_cons_of_pos hfirst, hregs, drop_eq_getElem_cons hlt, take_succ_cons]
      · rw [filter_cons_of_neg (by simp [hfirst]), hrest]
    · rw [count_cons_self, count_cons_of_ne (by decide)] at *
      have hlt : st.xmmIdx < argXmm.length := by omega
      obtain ⟨regs, hrun, hlen, hregs, hrest⟩ := ih hcs { st with xmmIdx := st.xmmIdx + 1 } hgp
        (by dsimp only; omega)
      have hfirst := hxmmAll _ (getElem_mem hlt)
      refine ⟨argXmm[st.xmmIdx] :: regs, ?_, by simp [hlen], ?_, ?_⟩
      · rw [takeRegs, getElem?_eq_getElem hlt]
        simp [hrun, advance, Nat.add_assoc, Nat.add_comm 1]
      · rw [filter_cons_of_neg (by simp [hfirst]), hregs]
      · rw [filter_cons_of_pos (by simp [hfirst]), hrest, drop_eq_getElem_cons hlt, take_succ_cons]

theorem argShape_spec {regs : List X86Reg} (hall : ∀ c ∈ cs, c = .integer ∨ c = .sse)
    (hpos : 0 < cs.length) (hle : cs.length ≤ 2) (hlen : regs.length = cs.length) :
    ∃ loc, argShape cs regs = some loc ∧ loc.regs = regs ∧ loc.area = none := by
  match cs, regs, hpos, hle, hlen with
  | [c], [r], _, _, _ =>
    obtain rfl | rfl := hall c (by simp)
    · exact ⟨.gp r, rfl, rfl, rfl⟩
    · exact ⟨.xmm r, rfl, rfl, rfl⟩
  | [c, c'], [a, b], _, _, _ =>
    obtain rfl | rfl := hall c (by simp) <;> obtain rfl | rfl := hall c' (by simp)
    · exact ⟨.gpPair a b, rfl, rfl, rfl⟩
    · exact ⟨.gpThenXmm a b, rfl, rfl, rfl⟩
    · exact ⟨.xmmThenGp a b, rfl, rfl, rfl⟩
    · exact ⟨.xmmPair a b, rfl, rfl, rfl⟩

/-! ## The stack -/

def roundToAlign (n align : Nat) : Nat := n + align - 1 - (n + align - 1) % align

theorem roundToAlign_spec {align} (h : 0 < align) (n) :
    n ≤ roundToAlign n align ∧ roundToAlign n align < n + align ∧ align ∣ roundToAlign n align := by
  have hlt := Nat.mod_lt (n + align - 1) h
  rw [roundToAlign]
  exact ⟨by omega, by omega, Nat.dvd_sub_mod _⟩

/-- Clearing the low bits of a word rounds it down. -/
theorem toNat_clear (x : BitVec 64) {m : BitVec 64} {k} (hm : m.toNat = 2 ^ k - 1) :
    (x &&& ~~~m).toNat = x.toNat - x.toNat % 2 ^ k := by
  have hsum : (x &&& ~~~m) + (x &&& m) = x := by
    rw [BitVec.add_eq_or_of_and_eq_zero]
    · ext i
      simp only [BitVec.getElem_or, BitVec.getElem_and, BitVec.getElem_not]
      cases x[i] <;> cases m[i] <;> rfl
    · ext i
      simp only [BitVec.getElem_and, BitVec.getElem_not, BitVec.getElem_zero]
      cases x[i] <;> cases m[i] <;> rfl
  have hlow : (x &&& m).toNat = x.toNat % 2 ^ k := by rw [BitVec.toNat_and, hm, Nat.and_two_pow_sub_one_eq_mod]
  have hle : x &&& m ≤ x := by rw [BitVec.le_def, hlow]; exact Nat.mod_le _ _
  rw [BitVec.eq_sub_iff_add_eq.mpr hsum, BitVec.toNat_sub_of_le hle, hlow]

theorem toNat_roundOffset {o a : Int64} {n k} (ho : o.toBitVec.toNat = n) (ha : a.toBitVec.toNat = 2 ^ k)
    (hlt : n + 2 ^ k < 2 ^ 64) : ((o + a - 1) &&& ~~~(a - 1)).toBitVec.toNat = roundToAlign n (2 ^ k) := by
  have hpos := Nat.two_pow_pos k
  have hsum : (o + a).toBitVec.toNat = n + 2 ^ k := by
    rw [Int64.toBitVec_add, BitVec.toNat_add_of_lt (by rwa [ho, ha]), ho, ha]
  have hpred (x : Int64) (h : 0 < x.toBitVec.toNat) : (x - 1).toBitVec.toNat = x.toBitVec.toNat - 1 :=
    BitVec.toNat_sub_of_le (BitVec.le_def.mpr h)
  rw [Int64.toBitVec_and, Int64.toBitVec_not, toNat_clear _ ((hpred a (by omega)).trans (by rw [ha])),
    hpred (o + a) (by omega), hsum, roundToAlign]

theorem toNat_roundSize {s : UInt64} {n} (hs : s.toBitVec.toNat = n) (hlt : n + 7 < 2 ^ 64) :
    ((s + 7) &&& ~~~7).toInt64.toBitVec.toNat = roundToAlign n 8 := by
  have hsum : (s + 7).toBitVec.toNat = n + 7 := by
    rw [UInt64.toBitVec_add, BitVec.toNat_add_of_lt (by rwa [hs]), hs]
    rfl
  rw [UInt64.toBitVec_toInt64, UInt64.toBitVec_and, UInt64.toBitVec_not, toNat_clear _ (k := 3) rfl, hsum, roundToAlign]
  rfl

theorem toInt_of_toNat {x : Int64} (h : x.toBitVec.toNat = n) (hn : n < 2 ^ 63) : x.toInt = n := by
  rw [← h]
  exact BitVec.toInt_eq_toNat_of_lt (by omega)

theorem toNat_of_toInt {x : Int64} (h : x.toInt = n) : x.toBitVec.toNat = n := by
  have hlt := x.toBitVec.isLt
  have hcond := BitVec.toInt_eq_toNat_cond x.toBitVec
  change x.toInt = _ at hcond
  split at hcond <;> omega

theorem toNat_ofNat (h : n < 2 ^ 64) : (UInt64.ofNat n).toBitVec.toNat = n := Nat.mod_eq_of_lt h

theorem stackAlign_pow (ty : AbiTy) : ∃ k < 64, ty.stackAlign = 2 ^ k := by
  cases ty with
  | scalar f =>
    refine ⟨if f = .i128 then 4 else 3, ?_⟩
    cases f <;> exact ⟨by decide, rfl⟩
  | complexF32 | complexF64 => exact ⟨3, by decide, rfl⟩
  | aggregate a =>
    obtain ⟨k, hlt, hk⟩ := a.alignPow
    rw [AbiTy.stackAlign, hk]
    obtain hle | hle := Nat.le_total k 3
    · exact ⟨3, by decide, Nat.max_eq_right (Nat.pow_le_pow_right Nat.two_pos hle)⟩
    · exact ⟨k, hlt, Nat.max_eq_left (Nat.pow_le_pow_right Nat.two_pos hle)⟩

/-- With room on the stack, the words of a place are the numbers they stand for. -/
theorem pushStack_words (ty : AbiTy) (hn : st.stackOffset.toInt = n)
    (hroom : n + ty.stackCost < 2 ^ 63) :
    ∃ offset size align, st.pushStack ty = (.stack offset size align, { st with stackOffset := offset + size }) ∧
      offset.toInt = roundToAlign n ty.stackAlign ∧ size.toInt = roundToAlign ty.size 8 ∧
      align.toInt = ty.stackAlign ∧ (offset + size).toInt = offset.toInt + size.toInt := by
  rw [AbiTy.stackCost] at hroom
  obtain ⟨k, -, hk⟩ := stackAlign_pow ty
  have hpos : 0 < ty.stackAlign := by rw [hk]; exact Nat.two_pow_pos k
  have hle := (roundToAlign_spec hpos n).2.1
  have hle' := (roundToAlign_spec (by decide : 0 < 8) ty.size).2.1
  have halign : (UInt64.ofNat ty.stackAlign).toInt64.toBitVec.toNat = ty.stackAlign := toNat_ofNat (by omega)
  have hoffset := toNat_roundOffset (toNat_of_toInt hn) (halign.trans hk) (by omega)
  rw [← hk] at hoffset
  have hsize := toNat_roundSize (toNat_ofNat (n := ty.size) (by omega)) (by omega)
  have hoffset' := toInt_of_toNat hoffset (by omega)
  have hsize' := toInt_of_toNat hsize (by omega)
  refine ⟨_, _, _, rfl, hoffset', hsize', toInt_of_toNat halign (by omega), ?_⟩
  rw [hoffset', hsize', ← Int.natCast_add]
  refine toInt_of_toNat ?_ (by omega)
  rw [Int64.toBitVec_add, BitVec.toNat_add_of_lt (by omega), hoffset, hsize]

/-! ## One argument -/

def X86AbiState.Full (st : X86AbiState) (ty : AbiTy) : Prop :=
  argGp.length < st.gpIdx + ty.needed .integer ∨ argXmm.length < st.xmmIdx + ty.needed .sse

/-- The places go on where the first state ends, up to the second one. -/
structure Placement (st st' : X86AbiState) (locs : List X86AbiArgLoc) : Prop where
  gp : st.gpIdx ≤ st'.gpIdx ∧
    (locs.flatMap regs).filter X86Reg.isGp = (argGp.drop st.gpIdx).take (st'.gpIdx - st.gpIdx)
  xmm : st.xmmIdx ≤ st'.xmmIdx ∧
    (locs.flatMap regs).filter (!X86Reg.isGp ·) = (argXmm.drop st.xmmIdx).take (st'.xmmIdx - st.xmmIdx)
  stack : st.stackOffset.toInt ≤ st'.stackOffset.toInt
  areas : ∀ a ∈ locs.filterMap area, st.stackOffset.toInt ≤ a.1 ∧ a.2 ≤ st'.stackOffset.toInt
  ordered : (locs.filterMap area).Pairwise fun a b => a.2 ≤ b.1

namespace Placement

theorem refl (st) : Placement st st [] :=
  ⟨⟨Nat.le_refl _, by simp⟩, ⟨Nat.le_refl _, by simp⟩, Int.le_refl _, by simp, by simp⟩

theorem take_take {α : Type} (l : List α) {a b c} (hab : a ≤ b) (hbc : b ≤ c) :
    (l.drop a).take (b - a) ++ (l.drop b).take (c - b) = (l.drop a).take (c - a) := by
  have hdrop : l.drop b = (l.drop a).drop (b - a) := by rw [drop_drop, Nat.add_sub_cancel' hab]
  rw [hdrop, ← take_add, show b - a + (c - b) = c - a by omega]

theorem trans {st st₁ st' locs locs'} (h : Placement st st₁ locs)
    (h' : Placement st₁ st' locs') : Placement st st' (locs ++ locs') where
  gp := by
    refine ⟨h.gp.1.trans h'.gp.1, ?_⟩
    rw [flatMap_append, filter_append, h.gp.2, h'.gp.2, take_take _ h.gp.1 h'.gp.1]
  xmm := by
    refine ⟨h.xmm.1.trans h'.xmm.1, ?_⟩
    rw [flatMap_append, filter_append, h.xmm.2, h'.xmm.2, take_take _ h.xmm.1 h'.xmm.1]
  stack := h.stack.trans h'.stack
  areas a ha := by
    rw [filterMap_append, mem_append] at ha
    obtain ha | ha := ha
    · exact ⟨(h.areas a ha).1, (h.areas a ha).2.trans h'.stack⟩
    · exact ⟨h.stack.trans (h'.areas a ha).1, (h'.areas a ha).2⟩
  ordered := by
    rw [filterMap_append, pairwise_append]
    exact ⟨h.ordered, h'.ordered, fun a ha b hb => (h.areas a ha).2.trans (h'.areas b hb).1⟩

theorem nodup {st locs} (h : Placement {} st locs) :
    (locs.flatMap regs).Nodup := by
  have hgp : ((locs.flatMap regs).filter X86Reg.isGp).Nodup := by
    rw [h.gp.2]
    exact List.Nodup.sublist (take_sublist _ _) (by decide)
  have hxmm : ((locs.flatMap regs).filter (!X86Reg.isGp ·)).Nodup := by
    rw [h.xmm.2]
    exact List.Nodup.sublist (take_sublist _ _) (by decide)
  refine (filter_append_perm X86Reg.isGp _).nodup_iff.mp (nodup_append'.mpr ⟨hgp, hxmm, ?_⟩)
  intro r hr hr'
  have hpos := of_mem_filter hr
  have hneg := of_mem_filter hr'
  rw [hpos] at hneg
  cases hneg

end Placement

/-- What becomes of an argument that is covered. -/
structure ArgPlace (ty : AbiTy) (st : X86AbiState) (loc : X86AbiArgLoc) (st' : X86AbiState) : Prop where
  onStack : loc.area.isSome ↔ classify ty = some .memory ∨ st.Full ty
  keepsFiles : loc.area.isSome → st'.gpIdx = st.gpIdx ∧ st'.xmmIdx = st.xmmIdx
  aligned : ∀ offset size align, loc = .stack offset size align →
    align.toInt = ty.stackAlign ∧ align.toInt ∣ offset.toInt ∧ ty.size ≤ size.toInt
  placement : Placement st st' [loc]
  grows : st'.stackOffset.toInt ≤ st.stackOffset.toInt + ty.stackCost

/-- There is room on the stack for arguments that need so many bytes. -/
structure X86AbiState.Room (st : X86AbiState) (cost : Nat) : Prop where
  nonneg : 0 ≤ st.stackOffset.toInt
  lt : st.stackOffset.toInt + cost < 2 ^ 63

theorem pushStack_place (hroom : st.Room ty.stackCost) (h : classify ty = some .memory ∨ st.Full ty) :
    ArgPlace ty st (st.pushStack ty).1 (st.pushStack ty).2 := by
  obtain ⟨n, hn⟩ := Int.eq_ofNat_of_zero_le hroom.nonneg
  have hlt := hroom.lt
  obtain ⟨offset, size, align, hpush, hoffset, hsize, halign, hsum⟩ := pushStack_words ty hn (by omega)
  obtain ⟨k, -, hk⟩ := stackAlign_pow ty
  obtain ⟨hle, hlt', hdvd⟩ := roundToAlign_spec (hk ▸ Nat.two_pow_pos k : 0 < ty.stackAlign) n
  obtain ⟨hle', hlt'', -⟩ := roundToAlign_spec (by decide : 0 < 8) ty.size
  rw [hpush]
  refine ⟨iff_of_true rfl h, fun _ => ⟨rfl, rfl⟩, ?_, ⟨⟨Nat.le_refl _, ?_⟩, ⟨Nat.le_refl _, ?_⟩, ?_, ?_, ?_⟩, ?_⟩
  · intro offset' size' align' heq
    cases heq
    rw [halign, hoffset, hsize]
    exact ⟨rfl, Int.natCast_dvd_natCast.mpr hdvd, Int.ofNat_le.mpr hle'⟩
  · simp [regs]
  · simp [regs]
  · change _ ≤ (offset + size).toInt
    omega
  · simp only [filterMap_cons, filterMap_nil, area, forall_mem_singleton]
    omega
  · simp [area]
  · change (offset + size).toInt ≤ _
    rw [AbiTy.stackCost]
    omega

theorem count_integer_sse (h : ∀ c ∈ cs, c = .integer ∨ c = .sse) :
    cs.count .integer + cs.count .sse = cs.length := by
  induction cs with
  | nil => rfl
  | cons c cs ih =>
    obtain ⟨hc, hcs⟩ := forall_mem_cons.mp h
    have := ih hcs
    obtain rfl | rfl := hc <;> simp <;> omega

theorem classifyAbiArg_place (hcov : ty.covered = true) (hroom : st.Room ty.stackCost) :
    ∃ loc st', classifyAbiArg ty st = some (loc, st') ∧ ArgPlace ty st loc st' := by
  have hcases := classify_cases ty
  rw [if_pos hcov] at hcases
  obtain hmemory | ⟨cs, hcs, hclasses⟩ := hcases
  · refine ⟨_, _, ?_, pushStack_place hroom (.inl hmemory)⟩
    rw [classifyAbiArg, hmemory]
  · have hneeded : ∀ c, ty.needed c = cs.count c := fun c => by rw [AbiTy.needed, hcs]
    by_cases hfull : argGp.length < st.gpIdx + cs.count .integer ∨ argXmm.length < st.xmmIdx + cs.count .sse
    · refine ⟨_, _, ?_, pushStack_place hroom (.inr (by rwa [X86AbiState.Full, hneeded, hneeded]))⟩
      rw [classifyAbiArg, hcs]
      simp only [count_integer_sse hclasses.all, ne_eq, not_true_eq_false, if_false, if_pos hfull]
    · obtain ⟨hgp, hxmm⟩ := not_or.mp hfull
      obtain ⟨regs, hrun, hlen, hregs, hrest⟩ :=
        takeRegs_spec hclasses.all st (Nat.le_of_not_lt hgp) (Nat.le_of_not_lt hxmm)
      have hpos : 0 < cs.length := hclasses.length ▸ nEightbytes_pos ty
      obtain ⟨loc, hshape, rfl, harea⟩ := argShape_spec hclasses.all hpos hclasses.le hlen
      refine ⟨loc, st.advance cs, ?_, ?_⟩
      · rw [classifyAbiArg, hcs]
        simp only [count_integer_sse hclasses.all, ne_eq, not_true_eq_false, if_false, if_neg hfull, hrun,
          bind_some, hshape, map_some]
      · refine ⟨?_, ?_, ?_, ?_, Int.le_add_of_nonneg_right (Int.natCast_nonneg _)⟩
        · rw [harea, hcs, X86AbiState.Full, hneeded, hneeded]
          simp [hfull]
        · simp [harea]
        · rintro offset size align rfl
          cases harea
        · refine ⟨⟨Nat.le_add_right _ _, ?_⟩, ⟨Nat.le_add_right _ _, ?_⟩, Int.le_refl _, ?_, ?_⟩
          · simpa [advance] using hregs
          · simpa [advance] using hrest
          · simp [harea]
          · simp [harea]

theorem classifyAbiArg_none (hcov : ty.covered = false) (st) : classifyAbiArg ty st = none := by
  have hcases := classify_cases ty
  rw [if_neg (by rw [hcov]; exact Bool.false_ne_true)] at hcases
  obtain hnone | ⟨cs, hcs, hmem⟩ := hcases
  · rw [classifyAbiArg, hnone]
  · have hne : cs.count .integer + cs.count .sse ≠ cs.length := by
      obtain ⟨pre, post, rfl⟩ := append_of_mem hmem
      have hpre : ∀ l : List Class, l.count .integer + l.count .sse ≤ l.length := fun l => by
        induction l with
        | nil => exact Nat.le_refl _
        | cons c l ih => cases c <;> simp <;> omega
      have h₁ := hpre pre
      have h₂ := hpre post
      simp
      omega
    rw [classifyAbiArg, hcs]
    exact if_pos hne

end Armfortas.Codegen.X86
