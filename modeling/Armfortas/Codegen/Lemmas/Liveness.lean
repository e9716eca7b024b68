import Armfortas.Codegen.Liveness
import Mathlib.Algebra.Group.Action.Defs
import Mathlib.Algebra.Order.BigOperators.Group.Finset
import Mathlib.Data.Nat.SuccPred
import Mathlib.Data.Prod.Lex
import Mathlib.Tactic.Ring

/-! The sets only grow, so the dataflow loop ends. The intervals come out sorted, one for each register. -/
namespace Armfortas.Codegen
open Lib List

/-! ## Registers -/

variable {mf : MachineFunction}

theorem MachineInst.usesFor_subset {w} {i : MachineInst} {v} (h : v ∈ i.usesFor w) : v ∈ i.refs := by
  obtain ⟨⟨op, k⟩, hop, hv⟩ := mem_filterMap.mp h
  have hmem : op ∈ i.operands := mem_of_getElem? (mem_zipIdx_iff_getElem?.mp hop)
  refine mem_append_right _ (mem_filterMap.mpr ⟨op, hmem, ?_⟩)
  cases op with
  | vreg u =>
    dsimp only at hv ⊢
    split at hv
    · exact hv
    · cases hv
  | _ => cases hv

theorem foldl_max_le {l : List Nat} {m n} (hm : m ≤ n) (hl : ∀ v ∈ l, v < n) :
    l.foldl (fun m v => max m (v + 1)) m ≤ n := by
  induction l generalizing m with
  | nil => exact hm
  | cons v l ih => exact ih (max_le hm (hl v mem_cons_self)) fun u hu => hl u (.tail _ hu)

theorem le_foldl_max (l : List Nat) (m) : m ≤ l.foldl (fun m v => max m (v + 1)) m := by
  induction l generalizing m with
  | nil => exact le_rfl
  | cons v l ih => exact (le_max_left _ _).trans (ih _)

theorem MachineFunction.vregCapacity_eq (mf : MachineFunction) : mf.vregCapacity = mf.vregs.length := by
  refine le_antisymm (foldl_max_le le_rfl fun v hv => ?_) (le_foldl_max _ _)
  obtain ⟨b, hb, hv⟩ := mem_flatMap.mp hv
  obtain ⟨i, hi, hv⟩ := mem_flatMap.mp hv
  exact mf.declared b hb i hi v hv

/-! ## The dataflow loop ends -/

section Dataflow

variable {w : Bool} {s s' : LiveSets}

def LiveSets.Le (s s' : LiveSets) : Prop := ∀ k, s.liveIn k ⊆ s'.liveIn k ∧ s.liveOut k ⊆ s'.liveOut k

theorem LiveSets.Le.refl (s : LiveSets) : s.Le s := fun _ => ⟨subset_rfl, subset_rfl⟩

theorem LiveSets.Le.trans {s₁ s₂ s₃ : LiveSets} (h : s₁.Le s₂) (h' : s₂.Le s₃) : s₁.Le s₃ := fun k =>
  ⟨(h k).1.trans (h' k).1, (h k).2.trans (h' k).2⟩

theorem LiveSets.mem_join {succs v} : v ∈ s.join succs ↔ ∃ k ∈ succs, v ∈ s.liveIn k := by
  have key : ∀ (l : List Nat) (out : Finset VRegId),
      v ∈ l.foldl (fun out k => out ∪ s.liveIn k) out ↔ v ∈ out ∨ ∃ k ∈ l, v ∈ s.liveIn k := by
    intro l
    induction l with
    | nil => simp
    | cons k l ih =>
      intro out
      rw [foldl_cons, ih, Finset.mem_union, exists_mem_cons_iff, or_assoc]
  rw [LiveSets.join, key]
  simp

theorem LiveSets.Le.join (h : s.Le s') (succs) : s.join succs ⊆ s'.join succs := by
  intro v hv
  obtain ⟨k, hk, hv⟩ := LiveSets.mem_join.mp hv
  exact LiveSets.mem_join.mpr ⟨k, hk, (h k).1 hv⟩

theorem liveBefore_mono {out out'} (h : out ⊆ out') (insts) : liveBefore w insts out ⊆ liveBefore w insts out' := by
  induction insts with
  | nil => exact h
  | cons i is ih =>
    refine Finset.union_subset_union_left ?_
    cases i.defReg with
    | none => exact ih
    | some d => exact Finset.erase_subset_erase d ih

theorem liveBefore_subset {out bound insts} (hout : out ⊆ bound)
    (hrefs : ∀ i ∈ insts, ∀ v ∈ i.refs, v ∈ bound) : liveBefore w insts out ⊆ bound := by
  induction insts with
  | nil => exact hout
  | cons i is ih =>
    have his := ih fun j hj => hrefs j (.tail _ hj)
    refine Finset.union_subset ?_ fun v hv => ?_
    · cases i.defReg with
      | none => exact his
      | some d => exact (Finset.erase_subset _ _).trans his
    · exact hrefs i mem_cons_self v (MachineInst.usesFor_subset (mem_toFinset.mp hv))

/-- The sets are below what recomputing them gives, and hold declared registers. -/
structure LiveSets.Rising (w : Bool) (mf : MachineFunction) (s : LiveSets) : Prop where
  liveOut : ∀ b k, (b, k) ∈ mf.blocks.zipIdx → s.liveOut k ⊆ s.join (mf.blockSuccessors b)
  liveIn : ∀ b k, (b, k) ∈ mf.blocks.zipIdx → s.liveIn k ⊆ liveBefore w b.insts (s.join (mf.blockSuccessors b))
  bound : ∀ k, s.liveIn k ⊆ Finset.range mf.vregCapacity ∧ s.liveOut k ⊆ Finset.range mf.vregCapacity

def LiveSets.size (mf : MachineFunction) (s : LiveSets) : Nat :=
  ∑ k ∈ Finset.range mf.blocks.length, ((s.liveIn k).card + (s.liveOut k).card)

theorem LiveSets.Rising.size_le (h : s.Rising w mf) : s.size mf ≤ 2 * (mf.blocks.length * mf.vregCapacity) := by
  have hone : ∀ k ∈ Finset.range mf.blocks.length, (s.liveIn k).card + (s.liveOut k).card ≤ 2 * mf.vregCapacity := by
    intro k _
    have h₁ := Finset.card_le_card (h.bound k).1
    have h₂ := Finset.card_le_card (h.bound k).2
    rw [Finset.card_range] at h₁ h₂
    omega
  calc s.size mf ≤ ∑ _k ∈ Finset.range mf.blocks.length, 2 * mf.vregCapacity := Finset.sum_le_sum hone
    _ = 2 * (mf.blocks.length * mf.vregCapacity) := by
        rw [Finset.sum_const, Finset.card_range, smul_eq_mul]
        ring

theorem LiveSets.Le.size_le (h : s.Le s') : s.size mf ≤ s'.size mf :=
  Finset.sum_le_sum fun k _ => Nat.add_le_add (Finset.card_le_card (h k).1) (Finset.card_le_card (h k).2)

theorem LiveSets.Le.size_lt (h : s.Le s') {k} (hk : k < mf.blocks.length)
    (hne : s.liveIn k ≠ s'.liveIn k ∨ s.liveOut k ≠ s'.liveOut k) : s.size mf < s'.size mf := by
  refine Finset.sum_lt_sum (fun j _ => Nat.add_le_add (Finset.card_le_card (h j).1) (Finset.card_le_card (h j).2))
    ⟨k, Finset.mem_range.mpr hk, ?_⟩
  rcases hne with hne | hne
  · exact Nat.add_lt_add_of_lt_of_le (Finset.card_lt_card ((h k).1.ssubset_of_ne hne)) (Finset.card_le_card (h k).2)
  · exact Nat.add_lt_add_of_le_of_lt (Finset.card_le_card (h k).1) (Finset.card_lt_card ((h k).2.ssubset_of_ne hne))

theorem visitBlock_spec (h : s.Rising w mf) (changed) {b k} (hb : (b, k) ∈ mf.blocks.zipIdx) :
    s.Le (visitBlock w mf (s, changed) (b, k)).1 ∧ (visitBlock w mf (s, changed) (b, k)).1.Rising w mf ∧
      ((visitBlock w mf (s, changed) (b, k)).2 = true →
        changed = true ∨ s.size mf < (visitBlock w mf (s, changed) (b, k)).1.size mf) := by
  have hle : s.Le (visitBlock w mf (s, changed) (b, k)).1 := by
    intro j
    simp only [visitBlock]
    by_cases hj : j = k
    · subst hj
      simpa using ⟨h.liveIn b j hb, h.liveOut b j hb⟩
    · simp [Function.update_of_ne hj]
  have hget := mem_zipIdx_iff_getElem?.mp hb
  have hmem : b ∈ mf.blocks := mem_of_getElem? hget
  have hjoin : s.join (mf.blockSuccessors b) ⊆ Finset.range mf.vregCapacity := by
    intro v hv
    obtain ⟨j, -, hv⟩ := LiveSets.mem_join.mp hv
    exact (h.bound j).1 hv
  refine ⟨hle, ⟨?_, ?_, ?_⟩, fun hch => ?_⟩
  · intro c j hc
    refine subset_trans ?_ (hle.join _)
    simp only [visitBlock]
    by_cases hj : j = k
    · subst hj
      have := (mem_zipIdx_iff_getElem?.mp hc).symm.trans hget
      cases this
      simp
    · simpa [Function.update_of_ne hj] using h.liveOut c j hc
  · intro c j hc
    refine subset_trans ?_ (liveBefore_mono (hle.join _) _)
    simp only [visitBlock]
    by_cases hj : j = k
    · subst hj
      have := (mem_zipIdx_iff_getElem?.mp hc).symm.trans hget
      cases this
      simp
    · simpa [Function.update_of_ne hj] using h.liveIn c j hc
  · intro j
    simp only [visitBlock]
    by_cases hj : j = k
    · subst hj
      simp only [Function.update_self]
      refine ⟨liveBefore_subset hjoin fun i hi v hv => ?_, hjoin⟩
      rw [Finset.mem_range, mf.vregCapacity_eq]
      exact mf.declared b hmem i hi v hv
    · simpa [Function.update_of_ne hj] using h.bound j
  · simp only [visitBlock, Bool.or_eq_true, bne_iff_ne] at hch
    have hlt := (List.getElem?_eq_some_iff.mp hget).1
    rcases hch with (hch | hch) | hch
    · exact .inl hch
    · exact .inr (hle.size_lt hlt (.inl (by simpa [visitBlock] using hch)))
    · exact .inr (hle.size_lt hlt (.inr (by simpa [visitBlock] using hch)))

theorem livePass_spec (h : s.Rising w mf) (hpass : livePass w mf s = some s') :
    s'.Rising w mf ∧ s.size mf < s'.size mf := by
  have key : ∀ (l : List (MachineBlock × Nat)) (changed : Bool) (s : LiveSets), (∀ e ∈ l, e ∈ mf.blocks.zipIdx) →
      s.Rising w mf →
      s.Le (l.foldl (visitBlock w mf) (s, changed)).1 ∧ (l.foldl (visitBlock w mf) (s, changed)).1.Rising w mf ∧
      ((l.foldl (visitBlock w mf) (s, changed)).2 = true →
        changed = true ∨ s.size mf < (l.foldl (visitBlock w mf) (s, changed)).1.size mf) := by
    intro l
    induction l with
    | nil => exact fun changed s _ h => ⟨.refl s, h, .inl⟩
    | cons e l ih =>
      intro changed s hl h
      obtain ⟨b, k⟩ := e
      obtain ⟨hle, hr, hch⟩ := visitBlock_spec h changed (hl (b, k) mem_cons_self)
      obtain ⟨hle', hr', hch'⟩ := ih (visitBlock w mf (s, changed) (b, k)).2 (visitBlock w mf (s, changed) (b, k)).1
        (fun e he => hl e (.tail _ he)) hr
      refine ⟨hle.trans hle', hr', fun hfin => ?_⟩
      rcases hch' hfin with h₁ | h₁
      · rcases hch h₁ with h₂ | h₂
        · exact .inl h₂
        · exact .inr (h₂.trans_le hle'.size_le)
      · exact .inr (hle.size_le.trans_lt h₁)
  unfold livePass at hpass
  dsimp only at hpass
  obtain ⟨-, hr, hch⟩ := key mf.blocks.zipIdx.reverse false s (fun e he => mem_reverse.mp he) h
  split at hpass
  · next hflag =>
    cases hpass
    refine ⟨hr, ?_⟩
    rcases hch hflag with hfalse | hlt
    · cases hfalse
    · exact hlt
  · cases hpass

theorem computeLivenessImpl_isSome (w mf) : ∃ lv, computeLivenessImpl w mf = some lv := by
  have h₀ : LiveSets.Rising w mf { liveIn := fun _ => ∅, liveOut := fun _ => ∅ } :=
    ⟨fun _ _ _ => Finset.empty_subset _, fun _ _ _ => Finset.empty_subset _,
      fun _ => ⟨Finset.empty_subset _, Finset.empty_subset _⟩⟩
  obtain ⟨s, hs, -⟩ := exhaust_spec (P := LiveSets.Rising w mf)
    (m := fun s => 2 * (mf.blocks.length * mf.vregCapacity) - s.size mf)
    (fun a b ha (hab : livePass w mf a = some b) => by
      obtain ⟨hb, hlt⟩ := livePass_spec ha hab
      have := hb.size_le
      exact ⟨hb, by omega⟩) h₀ (Nat.lt_succ_of_le (Nat.sub_le _ _))
  exact ⟨_, by rw [computeLivenessImpl, hs]; rfl⟩

end Dataflow

/-! ## The intervals -/

theorem LiveInterval.before_iff {a b : LiveInterval} :
    a.before b ↔ toLex (a.start, a.vreg) ≤ toLex (b.start, b.vreg) := by
  rw [Prod.Lex.toLex_le_toLex]
  rfl

theorem LiveInterval.before.start_le {a b : LiveInterval} (h : a.before b) : a.start ≤ b.start := by
  rcases h with h | ⟨h, -⟩
  · exact h.le
  · exact h.le

instance : Std.Total LiveInterval.before :=
  ⟨fun a b => by simpa only [LiveInterval.before_iff] using le_total _ _⟩

instance : IsTrans LiveInterval LiveInterval.before :=
  ⟨fun a b c => by simpa only [LiveInterval.before_iff] using le_trans⟩

structure Intervals (mf : MachineFunction) (l : List LiveInterval) : Prop where
  sorted : l.Pairwise fun a b => a.before b
  nodup : (l.map (·.vreg)).Nodup
  declared : ∀ I ∈ l, I.vreg < mf.vregs.length
  cls : ∀ I ∈ l, I.cls = mf.classOf I.vreg
  hint : ∀ I ∈ l, I.hint = none

theorem intervalOf_vreg {ranges : VRegId → Option (Nat × Nat)} {v I}
    (h : intervalOf mf ranges v = some I) : I.vreg = v ∧ I.cls = mf.classOf I.vreg ∧ I.hint = none := by
  obtain ⟨r, -, rfl⟩ := Option.map_eq_some_iff.mp h
  exact ⟨rfl, rfl, rfl⟩

theorem buildIntervals_spec (ranges : VRegId → Option (Nat × Nat)) : Intervals mf (buildIntervals mf ranges) := by
  have hperm := perm_insertionSort LiveInterval.before ((List.range mf.vregCapacity).filterMap (intervalOf mf ranges))
  have hmem : ∀ I ∈ buildIntervals mf ranges, ∃ v, v < mf.vregs.length ∧ intervalOf mf ranges v = some I := by
    intro I hI
    obtain ⟨v, hv, hI⟩ := mem_filterMap.mp (hperm.mem_iff.mp hI)
    exact ⟨v, mf.vregCapacity_eq ▸ mem_range.mp hv, hI⟩
  constructor
  case sorted => exact pairwise_insertionSort _ _
  case nodup =>
    refine (hperm.map _).nodup_iff.mpr ?_
    rw [map_filterMap]
    refine nodup_range.filterMap fun v v' u hu hu' => ?_
    obtain ⟨I, hI, rfl⟩ := Option.map_eq_some_iff.mp hu
    obtain ⟨I', hI', he⟩ := Option.map_eq_some_iff.mp hu'
    rw [← (intervalOf_vreg hI).1, ← (intervalOf_vreg hI').1, he]
  case declared =>
    intro I hI
    obtain ⟨v, hv, hI⟩ := hmem I hI
    exact (intervalOf_vreg hI).1 ▸ hv
  case cls =>
    intro I hI
    obtain ⟨v, -, hI⟩ := hmem I hI
    exact (intervalOf_vreg hI).2.1
  case hint =>
    intro I hI
    obtain ⟨v, -, hI⟩ := hmem I hI
    exact (intervalOf_vreg hI).2.2

theorem computeLivenessImpl_spec {w lv} (h : computeLivenessImpl w mf = some lv) :
    Intervals mf lv.intervals ∧ lv.callPositions = mf.callPositions := by
  obtain ⟨s, -, rfl⟩ := Option.map_eq_some_iff.mp h
  exact ⟨buildIntervals_spec _, rfl⟩

/-! ## Positions -/

theorem numbered_append (p is js) : numbered p (is ++ js) = numbered p is ++ numbered (p + 2 * is.length) js := by
  induction is generalizing p with
  | nil => simp [numbered]
  | cons i is ih =>
    rw [cons_append, numbered, ih, numbered, cons_append, length_cons]
    congr 3
    omega

theorem spansFrom_numbered (p bs) :
    ((spansFrom p bs).flatMap fun e => numbered e.1 e.2.insts) = numbered p (bs.flatMap (·.insts)) := by
  induction bs generalizing p with
  | nil => rfl
  | cons b bs ih => rw [spansFrom, flatMap_cons, flatMap_cons, ih, numbered_append]

theorem MachineFunction.numberedInsts_eq (mf : MachineFunction) :
    mf.numberedInsts = numbered 0 (mf.blocks.flatMap (·.insts)) := spansFrom_numbered 0 mf.blocks

theorem le_of_mem_numbered {p q i is} (h : (q, i) ∈ numbered p is) : p ≤ q := by
  induction is generalizing p with
  | nil => cases h
  | cons j is ih =>
    rcases mem_cons.mp h with h | h
    · cases h
      exact le_rfl
    · exact (Nat.le_add_right p 2).trans (ih h)

theorem numbered_pairwise (p is) : (numbered p is).Pairwise fun a b => a.1 < b.1 := by
  induction is generalizing p with
  | nil => exact .nil
  | cons i is ih =>
    refine pairwise_cons.mpr ⟨fun e he => ?_, ih (p + 2)⟩
    have := le_of_mem_numbered he
    omega

theorem MachineFunction.callPositions_eq (mf : MachineFunction) :
    mf.callPositions = (mf.numberedInsts.filter fun e => e.2.opcode.isCall).map (·.1) := by
  refine List.Pairwise.insertionSort_eq (pairwise_map.mpr ?_)
  rw [mf.numberedInsts_eq]
  exact ((numbered_pairwise 0 _).filter _).imp Nat.le_of_lt

theorem MachineFunction.callPositions_pairwise (mf : MachineFunction) : mf.callPositions.Pairwise (· < ·) := by
  rw [mf.callPositions_eq, mf.numberedInsts_eq, pairwise_map]
  exact (numbered_pairwise 0 _).filter _

/-! ## Calls inside an interval -/

section Crossing

variable {calls : List Nat} {start stop : Nat}

theorem lt_takeWhile_length_iff {P : Nat → Bool} (hP : ∀ a b, a ≤ b → P b = true → P a = true)
    (hc : calls.Pairwise (· < ·)) {k p} (hk : calls[k]? = some p) : k < (calls.takeWhile P).length ↔ P p = true := by
  induction calls generalizing k with
  | nil => simp at hk
  | cons c calls ih =>
    obtain ⟨hlt, hc⟩ := pairwise_cons.mp hc
    by_cases hPc : P c = true
    · rw [takeWhile_cons_of_pos hPc]
      cases k with
      | zero =>
        obtain rfl : c = p := by simpa using hk
        simp [hPc]
      | succ k => simpa using ih hc (by simpa using hk)
    · rw [takeWhile_cons_of_neg hPc]
      refine iff_of_false (Nat.not_lt_zero k) fun hp => hPc ?_
      cases k with
      | zero =>
        obtain rfl : c = p := by simpa using hk
        exact hp
      | succ k =>
        have hmem : p ∈ calls := mem_of_getElem? (by simpa using hk)
        exact hP c p (hlt p hmem).le hp

theorem inside_iff (hc : calls.Pairwise (· < ·)) {k p} (hk : calls[k]? = some p) :
    start < p ∧ p < stop ↔ (calls.takeWhile (· ≤ start)).length ≤ k ∧ k < (calls.takeWhile (· < stop)).length := by
  have h₁ := lt_takeWhile_length_iff (P := fun x => decide (x ≤ start))
    (fun a b hab hb => by simp only [decide_eq_true_eq] at hb ⊢; omega) hc hk
  have h₂ := lt_takeWhile_length_iff (P := fun x => decide (x < stop))
    (fun a b hab hb => by simp only [decide_eq_true_eq] at hb ⊢; omega) hc hk
  simp only [decide_eq_true_eq] at h₁ h₂
  rw [← h₂, ← Nat.not_lt, h₁, Nat.not_le]

theorem classify_none (hc : calls.Pairwise (· < ·)) (h : classifyCallCrossing calls start stop = .none) {c}
    (hmem : c ∈ calls) : ¬ (start < c ∧ c < stop) := by
  obtain ⟨k, hk⟩ := mem_iff_getElem?.mp hmem
  rw [inside_iff hc hk]
  unfold classifyCallCrossing at h
  dsimp only at h
  split at h
  · omega
  · split at h
    · cases h
    · next hone hnone =>
      rw [List.getElem?_eq_none_iff] at hnone
      have hlt := (List.getElem?_eq_some_iff.mp hk).1
      omega
  · cases h

theorem classify_one (hc : calls.Pairwise (· < ·)) {p} (h : classifyCallCrossing calls start stop = .one p) :
    p ∈ calls ∧ start < p ∧ p < stop ∧ ∀ c ∈ calls, start < c → c < stop → c = p := by
  unfold classifyCallCrossing at h
  dsimp only at h
  split at h
  · cases h
  · next hone =>
    split at h
    · next q hq =>
      cases h
      have hin : start < p ∧ p < stop := (inside_iff hc hq).mpr (by omega)
      refine ⟨mem_of_getElem? hq, hin.1, hin.2, fun c hmem h₁ h₂ => ?_⟩
      obtain ⟨k, hk⟩ := mem_iff_getElem?.mp hmem
      have := (inside_iff hc hk).mp ⟨h₁, h₂⟩
      obtain rfl : k = (calls.takeWhile (· ≤ start)).length := by omega
      exact Option.some.inj (hk.symm.trans hq)
    · cases h
  · cases h

theorem classify_eq_none (hc : calls.Pairwise (· < ·)) (h : ∀ c ∈ calls, ¬ (start < c ∧ c < stop)) :
    classifyCallCrossing calls start stop = .none := by
  have hle : (calls.takeWhile (· < stop)).length ≤ (calls.takeWhile (· ≤ start)).length := by
    by_contra hlt
    rw [Nat.not_le] at hlt
    have hlen : (calls.takeWhile (· ≤ start)).length < calls.length :=
      hlt.trans_le (takeWhile_sublist _).length_le
    have hget := getElem?_eq_getElem hlen
    exact h _ (mem_of_getElem? hget) ((inside_iff hc hget).mpr ⟨le_rfl, hlt⟩)
  unfold classifyCallCrossing
  dsimp only
  rw [Nat.sub_eq_zero_of_le hle]
  rfl

end Crossing

end Armfortas.Codegen
