import Armfortas.Codegen.Lemmas.RelaxBranches
import Mathlib.Algebra.Order.Ring.Nat
import Mathlib.Algebra.Ring.Int.Defs

/-! The scan for branches that are out of range. -/
namespace Armfortas.Codegen

open Lib BranchFunction List Option

/-! ## Bytes of code -/

def codeBytes (size : MachineInst → Nat) (cs : List CodeItem) : Nat := (cs.map (CodeItem.bytes size)).sum

section Bytes

variable {size : MachineInst → Nat}

theorem codeBytes_append (cs cs') : codeBytes size (cs ++ cs') = codeBytes size cs + codeBytes size cs' := by
  rw [codeBytes, map_append, sum_append]
  rfl

theorem codeBytes_insts (is : List MachineInst) : codeBytes size (is.map .inst) = (is.map size).sum := by
  rw [codeBytes, List.map_map]
  rfl

theorem codeBytes_cons (b bs) :
    codeBytes size (code (b :: bs)) = (b.insts.map size).sum + codeBytes size (code bs) := by
  rw [code_cons, ← singleton_append, codeBytes_append, codeBytes_append, codeBytes_insts]
  exact Nat.zero_add _

variable {bs : List MachineBlock} {pos idx : Nat} {b : MachineBlock} {i : MachineInst}

theorem byteOffset_flatPos (hb : bs[pos]? = some b) (hi : b.insts[idx]? = some i) :
    byteOffset size (code bs) (flatPos bs pos idx) =
      codeBytes size (code (bs.take pos)) + ((b.insts.take idx).map size).sum := by
  have hlabel : ∀ cs, codeBytes size (.label b.id :: cs) = codeBytes size cs := fun cs => Nat.zero_add _
  rw [byteOffset, code_split hb hi, ← length_before hi, take_left, before]
  change codeBytes size _ = _
  rw [codeBytes_append, hlabel, codeBytes_insts]

end Bytes

section Labels

variable {mf : BranchFunction} {pos : Nat} {b : MachineBlock}

theorem labelPos_unique (hd : (mf.blocks.map MachineBlock.id).Nodup) {t p}
    (h : mf.code[p]? = some (.label t)) : labelPos mf.code t = some p := by
  have hpair : ∀ bs : List MachineBlock, (bs.map MachineBlock.id).Nodup → ∀ p q : Nat,
      (code bs)[p]? = some (.label t) → (code bs)[q]? = some (.label t) → p = q := by
    intro bs
    induction bs with
    | nil => intro _ p q hp; cases hp
    | cons b bs ih =>
      intro hnd p q hp hq
      rw [map_cons, nodup_cons] at hnd
      have hinsts : ∀ p : Nat, (b.insts.map CodeItem.inst ++ code bs)[p]? = some (.label t) →
          b.insts.length ≤ p ∧ (code bs)[p - b.insts.length]? = some (.label t) := by
        intro p hp
        rcases Nat.lt_or_ge p b.insts.length with hlt | hge
        · rw [getElem?_append_left (by rwa [length_map]), getElem?_map] at hp
          obtain ⟨j, -, hj⟩ := map_eq_some_iff.mp hp
          cases hj
        · rw [getElem?_append_right (by rwa [length_map]), length_map] at hp
          exact ⟨hge, hp⟩
      have hself : ∀ p : Nat, (code bs)[p]? = some (.label t) → b.id ≠ t := by
        rintro p hp rfl
        obtain ⟨c, hc, he⟩ := label_mem_code.mp (mem_of_getElem? hp)
        exact hnd.1 (List.mem_map.mpr ⟨c, hc, he⟩)
      cases p with
      | zero =>
        cases q with
        | zero => rfl
        | succ q =>
          cases hp
          exact absurd rfl (hself _ (hinsts q hq).2)
      | succ p =>
        cases q with
        | zero =>
          cases hq
          exact absurd rfl (hself _ (hinsts p hp).2)
        | succ q =>
          obtain ⟨hp1, hp2⟩ := hinsts p hp
          obtain ⟨hq1, hq2⟩ := hinsts q hq
          have := ih hnd.2 _ _ hp2 hq2
          omega
  cases hl : labelPos mf.code t with
  | none => exact absurd (mem_of_getElem? h) (labelPos_eq_none.mp hl)
  | some q => rw [hpair mf.blocks hd q p (getElem?_labelPos hl) h]

theorem labelPos_block (hd : (mf.blocks.map MachineBlock.id).Nodup) (hb : mf.blocks[pos]? = some b) :
    labelPos mf.code b.id = some (code (mf.blocks.take pos)).length := by
  have hcode : mf.code = code (mf.blocks.take pos) ++ code (b :: mf.blocks.drop (pos + 1)) := by
    rw [← code_append, ← split_at hb]
    rfl
  apply labelPos_unique hd
  rw [hcode, code_cons, getElem?_here]

end Labels

theorem block_of_inst {bs p i} (h : (code bs)[p]? = some (.inst i)) :
    ∃ pos b idx, bs[pos]? = some b ∧ b.insts[idx]? = some i ∧ p = flatPos bs pos idx := by
  induction bs generalizing p with
  | nil => cases h
  | cons b bs ih =>
    rw [code_cons] at h
    cases p with
    | zero => cases h
    | succ p =>
      rw [getElem?_cons_succ] at h
      rcases Nat.lt_or_ge p b.insts.length with hlt | hge
      · rw [getElem?_append_left (by rwa [length_map]), getElem?_map] at h
        obtain ⟨j, hj, he⟩ := map_eq_some_iff.mp h
        cases he
        exact ⟨0, b, p, rfl, hj, by simp [flatPos, code]; omega⟩
      · rw [getElem?_append_right (by rwa [length_map]), length_map] at h
        obtain ⟨pos, b', idx, hb, hi, hp⟩ := ih h
        refine ⟨pos + 1, b', idx, hb, hi, ?_⟩
        rw [flatPos] at hp
        rw [flatPos, take_succ_cons, code_cons, length_cons, length_append, length_map]
        omega

/-! ## Branch sites -/

structure IsSite (size : MachineInst → Nat) (limits : BranchLimits) (b : MachineBlock) (idx : Nat) (s : BranchSite) :
    Prop where
  inst : ∃ i, b.insts[idx]? = some i ∧ relaxableBranch i limits = some (s.overflow.target, s.limit, s.overflow.kind)
  block : s.overflow.blockId = b.id
  index : s.overflow.instIdx = idx
  localOffset : s.localOffset = (((b.insts.take idx).map size).sum : Nat)

section Scan

variable {other : MachineInst → Nat} {limits : BranchLimits} {mf : BranchFunction}

theorem scanInsts_spec (id insts) (hemit : ∀ i ∈ insts, instEmitBytes other mf i = some (mf.size other i)) (idx off) :
    ∃ sites, scanInsts other limits mf id idx off insts = some (sites, off + (insts.map (mf.size other)).sum) ∧
      (∀ s, s ∈ sites ↔ s.overflow.blockId = id ∧ ∃ k i, insts[k]? = some i ∧
        relaxableBranch i limits = some (s.overflow.target, s.limit, s.overflow.kind) ∧
        s.overflow.instIdx = idx + k ∧ s.localOffset = off + (((insts.take k).map (mf.size other)).sum : Nat)) ∧
      sites.Pairwise fun a b => a.overflow.instIdx < b.overflow.instIdx := by
  induction insts generalizing idx off with
  | nil => exact ⟨[], by simp [scanInsts], by simp, .nil⟩
  | cons i insts ih =>
    obtain ⟨sites, hrun, hmem, hord⟩ := ih (fun j hj => hemit j (mem_cons_of_mem _ hj)) (idx + 1)
      (off + mf.size other i)
    have hbytes := hemit i mem_cons_self
    -- the sites behind `i` are those of the rest, one further on
    have hrest : ∀ s, s ∈ sites ↔ s.overflow.blockId = id ∧ ∃ k j, insts[k]? = some j ∧
        relaxableBranch j limits = some (s.overflow.target, s.limit, s.overflow.kind) ∧
        s.overflow.instIdx = idx + (k + 1) ∧
        s.localOffset = off + ((((i :: insts).take (k + 1)).map (mf.size other)).sum : Nat) := by
      intro s
      rw [hmem]
      refine and_congr_right fun _ => exists_congr fun k => exists_congr fun j => and_congr_right fun _ =>
        and_congr_right fun _ => ?_
      rw [take_succ_cons, map_cons, sum_cons, Nat.cast_add, add_assoc, add_assoc, add_comm 1 k]
    have hlater : ∀ s ∈ sites, idx < s.overflow.instIdx := by
      intro s hs
      obtain ⟨-, k, j, -, -, hk, -⟩ := (hrest s).mp hs
      omega
    have htotal : off + mf.size other i + (insts.map (mf.size other)).sum =
        off + ((i :: insts).map (mf.size other)).sum := by
      rw [map_cons, sum_cons, Nat.cast_add, add_assoc]
    cases hr : relaxableBranch i limits with
    | none =>
      refine ⟨sites, ?_, fun s => ?_, hord⟩
      · rw [scanInsts, hbytes]
        simp only [hr, bind_eq_bind, bind_some, hrun, nil_append, htotal]
      · rw [hrest]
        refine and_congr_right fun _ => ⟨fun ⟨k, j, hj, h⟩ => ⟨k + 1, j, hj, h⟩, fun ⟨k, j, hj, h⟩ => ?_⟩
        cases k with
        | zero =>
          cases hj
          rw [hr] at h
          cases h.1
        | succ k => exact ⟨k, j, hj, h⟩
    | some r =>
      obtain ⟨target, limit, kind⟩ := r
      refine ⟨⟨⟨id, idx, target, kind⟩, off, limit⟩ :: sites, ?_, fun s => ?_, pairwise_cons.mpr ⟨hlater, hord⟩⟩
      · rw [scanInsts, hbytes]
        simp only [hr, bind_eq_bind, bind_some, hrun, singleton_append, htotal]
      · rw [mem_cons, hrest]
        constructor
        · rintro (rfl | ⟨hid, k, j, hj, h⟩)
          · exact ⟨rfl, 0, i, rfl, hr, rfl, by simp⟩
          · exact ⟨hid, k + 1, j, hj, h⟩
        · rintro ⟨hid, k, j, hj, hrel, hidx, hoff⟩
          cases k with
          | zero =>
            left
            cases hj
            rw [hr] at hrel
            cases hrel
            obtain ⟨⟨id', idx', t', kind'⟩, off', limit'⟩ := s
            simp only [take_zero, map_nil, sum_nil, Nat.cast_zero, add_zero] at hid hidx hoff
            rw [hid, hidx, hoff]
          | succ k => exact .inr ⟨hid, k, j, hj, hrel, hidx, hoff⟩

structure Scanned (size : MachineInst → Nat) (limits : BranchLimits) (running : Int) (offsets : AssocMap MBlockId Int)
    (bs : List MachineBlock) (layout : BranchLayout) : Prop where
  offset : ∀ (pos : Nat) (b : MachineBlock), bs[pos]? = some b →
    layout.blockOffsets.get? b.id = some (running + codeBytes size (code (bs.take pos)))
  older : ∀ t, (∀ b ∈ bs, b.id ≠ t) → layout.blockOffsets.get? t = offsets.get? t
  sites : ∀ s, s ∈ layout.sites ↔ ∃ b ∈ bs, ∃ idx, IsSite size limits b idx s
  distinct : layout.sites.Pairwise fun a b =>
    ¬(a.overflow.blockId = b.overflow.blockId ∧ a.overflow.instIdx = b.overflow.instIdx)

theorem scanBlocks_spec (bs) (hemit : ∀ b ∈ bs, ∀ i ∈ b.insts, instEmitBytes other mf i = some (mf.size other i))
    (hd : (bs.map MachineBlock.id).Nodup) (running offsets) :
    ∃ layout, scanBlocks other limits mf running offsets bs = some layout ∧
      Scanned (mf.size other) limits running offsets bs layout := by
  induction bs generalizing running offsets with
  | nil =>
    refine ⟨⟨offsets, []⟩, rfl, ?_, fun _ _ => rfl, ?_, .nil⟩
    · intro pos b hb
      cases hb
    · intro s
      simp
  | cons b bs ih =>
    rw [map_cons, nodup_cons] at hd
    obtain ⟨sites, hrun, hmem, hord⟩ := @scanInsts_spec other limits mf b.id b.insts
      (hemit b mem_cons_self) 0 0
    obtain ⟨layout, hrest, hsc⟩ := ih (fun c hc => hemit c (mem_cons_of_mem _ hc)) hd.2
      (running + (0 + (b.insts.map (mf.size other)).sum)) (offsets.insert b.id running)
    have hother : ∀ c ∈ bs, c.id ≠ b.id := fun c hc he => hd.1 (List.mem_map.mpr ⟨c, hc, he⟩)
    have hhere : ∀ s, s ∈ sites ↔ ∃ idx, IsSite (mf.size other) limits b idx s := by
      intro s
      rw [hmem]
      constructor
      · rintro ⟨hid, k, i, hi, hr, hidx, hoff⟩
        exact ⟨k, ⟨i, hi, hr⟩, hid, by omega, by rw [hoff, zero_add]⟩
      · rintro ⟨k, ⟨i, hi, hr⟩, hid, hidx, hoff⟩
        exact ⟨hid, k, i, hi, hr, by omega, by rw [hoff, zero_add]⟩
    refine ⟨⟨layout.blockOffsets, sites ++ layout.sites⟩, ?_, fun pos c hc => ?_, fun t ht => ?_, fun s => ?_, ?_⟩
    · rw [scanBlocks, hrun]
      simp only [bind_eq_bind, bind_some, hrest]
    · cases pos with
      | zero =>
        cases hc
        rw [hsc.older _ hother, AssocMap.get?_insert_self, take_zero]
        simp [codeBytes, code]
      | succ pos =>
        rw [hsc.offset pos c hc, take_succ_cons, codeBytes_cons, Nat.cast_add, zero_add, add_assoc]
    · rw [hsc.older t fun c hc => ht c (mem_cons_of_mem _ hc), AssocMap.get?_insert_ne]
      exact (ht b mem_cons_self).symm
    · rw [mem_append, hhere, hsc.sites]
      simp only [mem_cons, exists_eq_or_imp]
    · refine pairwise_append.mpr ⟨hord.imp fun hlt he => by omega, hsc.distinct, fun s hs s' hs' he => ?_⟩
      obtain ⟨idx, hsite⟩ := (hhere s).mp hs
      obtain ⟨c, hc, idx', hsite'⟩ := (hsc.sites s').mp hs'
      refine hother c hc ?_
      rw [← hsite'.block, ← he.1, hsite.block]

/-! ## Overflows -/

structure Overflows (other : MachineInst → Nat) (limits : BranchLimits) (mf : BranchFunction) (o : OverflowSite)
    (pos : Nat) (limit : Int) : Prop where
  found : ∃ b i, mf.blocks[pos]? = some b ∧ b.id = o.blockId ∧ b.insts[o.instIdx]? = some i ∧
    relaxableBranch i limits = some (o.target, limit, o.kind)
  distance : ∃ q, labelPos mf.code o.target = some q ∧
    limit < |(byteOffset (mf.size other) mf.code q : Int) -
      byteOffset (mf.size other) mf.code (flatPos mf.blocks pos o.instIdx)|

theorem size_of_emitted (wf : mf.WellFormed) {i} (hi : .inst i ∈ mf.code) :
    instEmitBytes other mf i = some (mf.size other i) := by
  obtain ⟨n, hn⟩ := isSome_iff_exists.mp (wf.emitted i hi other)
  rw [size, hn]
  rfl

theorem inst_mem_code {b} (hb : b ∈ mf.blocks) {i} (hi : i ∈ b.insts) : .inst i ∈ mf.code := by
  obtain ⟨pos, hpos⟩ := mem_iff_getElem?.mp hb
  obtain ⟨idx, hidx⟩ := mem_iff_getElem?.mp hi
  exact mem_code_of hpos hidx

theorem offset_iff {layout} (wf : mf.WellFormed) (hsc : Scanned (mf.size other) limits 0 [] mf.blocks layout) {t o} :
    layout.blockOffsets.get? t = some o ↔
      ∃ q, labelPos mf.code t = some q ∧ o = byteOffset (mf.size other) mf.code q := by
  have hblock : ∀ (pos : Nat) (b : MachineBlock), mf.blocks[pos]? = some b → layout.blockOffsets.get? b.id =
      some (byteOffset (mf.size other) mf.code (code (mf.blocks.take pos)).length : Int) := by
    intro pos b hb
    have hcode : mf.code = code (mf.blocks.take pos) ++ code (mf.blocks.drop pos) := by
      rw [← code_append, take_append_drop]
      rfl
    rw [hsc.offset pos b hb, zero_add, byteOffset, hcode, take_left]
    rfl
  constructor
  · intro h
    by_cases hmem : ∃ b ∈ mf.blocks, b.id = t
    · obtain ⟨b, hb, rfl⟩ := hmem
      obtain ⟨pos, hpos⟩ := mem_iff_getElem?.mp hb
      rw [hblock pos b hpos] at h
      cases h
      exact ⟨_, labelPos_block wf.distinct hpos, rfl⟩
    · rw [hsc.older t fun b hb he => hmem ⟨b, hb, he⟩] at h
      cases h
  · rintro ⟨q, hq, rfl⟩
    obtain ⟨b, hb, rfl⟩ := label_mem_code.mp (mem_of_getElem? (getElem?_labelPos hq))
    obtain ⟨pos, hpos⟩ := mem_iff_getElem?.mp hb
    rw [labelPos_block wf.distinct hpos] at hq
    cases hq
    exact hblock pos b hpos

theorem intoOverflows_spec {offsets : AssocMap MBlockId Int} (sites)
    (hsource : ∀ s ∈ sites, (offsets.get? s.overflow.blockId).isSome) :
    ∃ overflows, intoOverflows offsets sites = some overflows ∧
      (∀ o, o ∈ overflows ↔ ∃ s ∈ sites, s.overflow = o ∧ ∃ source target,
        offsets.get? s.overflow.blockId = some source ∧ offsets.get? s.overflow.target = some target ∧
        s.limit < |target - (source + s.localOffset)|) ∧ overflows.Sublist (sites.map BranchSite.overflow) := by
  induction sites with
  | nil => exact ⟨[], rfl, by simp, .slnil⟩
  | cons s sites ih =>
    obtain ⟨overflows, hrun, hmem, hsub⟩ := ih fun s hs => hsource s (mem_cons_of_mem _ hs)
    obtain ⟨source, hs⟩ := isSome_iff_exists.mp (hsource s mem_cons_self)
    by_cases hfar : ∃ target, offsets.get? s.overflow.target = some target ∧
        s.limit < |target - (source + s.localOffset)|
    · obtain ⟨target, ht, hlt⟩ := hfar
      refine ⟨s.overflow :: overflows, ?_, fun o => ?_, hsub.cons_cons _⟩
      · rw [intoOverflows, overflowOf, hs, hrun]
        simp only [bind_eq_bind, bind_some, ht, if_pos hlt, toList_some, singleton_append]
      · simp only [mem_cons, exists_eq_or_imp, hmem]
        exact or_congr_left ⟨fun he => ⟨he.symm, source, target, hs, ht, hlt⟩, fun he => he.1.symm⟩
    · refine ⟨overflows, ?_, fun o => ?_, hsub.cons _⟩
      · rw [intoOverflows, overflowOf, hs, hrun]
        cases ht : offsets.get? s.overflow.target with
        | none => rfl
        | some target =>
          have hle : ¬s.limit < |target - (source + s.localOffset)| := fun hlt => hfar ⟨target, ht, hlt⟩
          simp only [bind_eq_bind, bind_some, if_neg hle, toList_none, nil_append]
      · simp only [mem_cons, exists_eq_or_imp, hmem]
        refine (or_iff_right ?_).symm
        rintro ⟨-, source', target, hs', ht, hlt⟩
        rw [hs] at hs'
        cases hs'
        exact hfar ⟨target, ht, hlt⟩

theorem scan_spec (wf : mf.WellFormed) : ∃ layout overflows, scanBranchLayout other limits mf = some layout ∧
      intoOverflows layout.blockOffsets layout.sites = some overflows ∧
      (∀ o, o ∈ overflows ↔ ∃ pos limit, Overflows other limits mf o pos limit) ∧
      overflows.Pairwise fun a b => ¬(a.blockId = b.blockId ∧ a.instIdx = b.instIdx) := by
  obtain ⟨layout, hscan, hsc⟩ := @scanBlocks_spec other limits mf mf.blocks
    (fun b hb i hi => size_of_emitted wf (inst_mem_code hb hi)) wf.distinct 0 []
  have hsource : ∀ s ∈ layout.sites, (layout.blockOffsets.get? s.overflow.blockId).isSome := by
    intro s hs
    obtain ⟨b, hb, idx, hsite⟩ := (hsc.sites s).mp hs
    obtain ⟨pos, hpos⟩ := mem_iff_getElem?.mp hb
    rw [hsite.block, hsc.offset pos b hpos]
    rfl
  obtain ⟨overflows, hrun, hmem, hsub⟩ := intoOverflows_spec layout.sites hsource
  refine ⟨layout, overflows, hscan, hrun, fun o => ?_, ?_⟩
  · rw [hmem]
    constructor
    · rintro ⟨s, hs, rfl, source, target, hsrc, htgt, hlt⟩
      obtain ⟨b, hb, idx, ⟨i, hi, hr⟩, hid, hidx, hoff⟩ := (hsc.sites s).mp hs
      obtain ⟨pos, hpos⟩ := mem_iff_getElem?.mp hb
      obtain ⟨q, hq, rfl⟩ := (offset_iff wf hsc).mp htgt
      rw [hid, hsc.offset pos b hpos] at hsrc
      cases hsrc
      refine ⟨pos, s.limit, ⟨b, i, hpos, hid.symm, by rwa [hidx], hr⟩, q, hq, ?_⟩
      have hbytes := @byteOffset_flatPos (mf.size other) mf.blocks pos idx b i hpos hi
      rw [hidx, BranchFunction.code, hbytes, Nat.cast_add, ← hoff, ← zero_add (codeBytes _ _ : Int)]
      exact hlt
    · rintro ⟨pos, limit, ⟨b, i, hpos, hid, hi, hr⟩, q, hq, hlt⟩
      refine ⟨⟨o, (((b.insts.take o.instIdx).map (mf.size other)).sum : Nat), limit⟩, ?_, rfl, ?_⟩
      · exact (hsc.sites _).mpr ⟨b, mem_of_getElem? hpos, o.instIdx, ⟨i, hi, hr⟩, hid.symm, rfl, rfl⟩
      · have hbytes := @byteOffset_flatPos (mf.size other) mf.blocks pos o.instIdx b i hpos hi
        refine ⟨_, _, hid ▸ hsc.offset pos b hpos, (offset_iff wf hsc).mpr ⟨q, hq, rfl⟩, ?_⟩
        rw [BranchFunction.code, hbytes, Nat.cast_add] at hlt
        rw [zero_add]
        exact hlt
  · exact (pairwise_map.mpr hsc.distinct).sublist hsub

end Scan

end Armfortas.Codegen
