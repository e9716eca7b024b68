import Armfortas.Codegen.Code
import Mathlib.Order.Monotone.Basic

/-! Replacing a branch by a long one, or a conditional branch by its inverse over a branch, keeps where control goes. -/
namespace Armfortas.Codegen
open Lib List Option CodeItem

/-! ## Tests -/

@[simp] theorem ArmCond.inverse_inverse (c : ArmCond) : c.inverse.inverse = c := by
  cases c <;> rfl

theorem ArmCond.holds_inverse (f) (c : ArmCond) : c.inverse.holds f = !c.holds f := by
  obtain ⟨n, z, c', v⟩ := f
  cases c <;> cases n <;> cases z <;> cases c' <;> cases v <;> rfl

@[simp] theorem BranchTest.inverse_inverse (t : BranchTest) : t.inverse.inverse = t := by
  cases t <;> simp [BranchTest.inverse]

theorem BranchTest.holds_inverse (ev) (t : BranchTest) : t.inverse.holds ev = !t.holds ev := by
  cases t with
  | flag c => exact ArmCond.holds_inverse ev.flags c
  | always | never | zero | nonzero | bitClear | bitSet => simp [BranchTest.inverse, BranchTest.holds]

/-! ## Labels -/

theorem labelPos_append (xs ys t) :
    labelPos (xs ++ ys) t = (labelPos xs t).or ((labelPos ys t).map (· + xs.length)) := by
  rw [labelPos, findIdx?_append]
  rfl

theorem labelPos_cons_inst (i xs t) :
    labelPos (.inst i :: xs) t = (labelPos xs t).map (· + 1) := by
  simp [labelPos, findIdx?_cons]

theorem labelPos_cons_label_self (t xs) : labelPos (.label t :: xs) t = some 0 := by
  simp [labelPos, findIdx?_cons]

theorem labelPos_eq_none {cs t} : labelPos cs t = none ↔ .label t ∉ cs := by
  simp only [labelPos, findIdx?_eq_none_iff, beq_eq_false_iff_ne]
  exact ⟨fun h hmem => h _ hmem rfl, fun h x hx he => h (he ▸ hx)⟩

theorem labelPos_lt {cs t q} (h : labelPos cs t = some q) : q < cs.length := by
  obtain ⟨hlt, -⟩ := findIdx?_eq_some_iff_getElem.mp h
  exact hlt

theorem getElem?_labelPos {cs t q} (h : labelPos cs t = some q) :
    cs[q]? = some (.label t) := by
  obtain ⟨hlt, hq, -⟩ := findIdx?_eq_some_iff_getElem.mp h
  rw [getElem?_eq_getElem hlt, beq_iff_eq.mp hq]

/-! ## The places of the old code in the new -/

def shift (k m p : Nat) : Nat := if p ≤ k then p else p + m

theorem shift_strictMono (k m) : StrictMono (shift k m) := by
  intro p q h
  unfold shift
  split <;> split <;> omega

theorem shift_succ {k m p} (h : p ≠ k) : shift k m (p + 1) = shift k m p + 1 := by
  unfold shift
  split <;> split <;> omega

section Insert

variable {pre post mid : List CodeItem} {i i' : MachineInst}

theorem labelPos_insert {t} (hmid : .label t ∉ mid) :
    labelPos (pre ++ .inst i' :: (mid ++ post)) t =
      (labelPos (pre ++ .inst i :: post) t).map (shift pre.length mid.length) := by
  rw [labelPos_append, labelPos_append, labelPos_cons_inst, labelPos_cons_inst, labelPos_append,
    labelPos_eq_none.mpr hmid, none_or]
  cases hpre : labelPos pre t with
  | some q =>
    have hlt := labelPos_lt hpre
    rw [some_or, some_or, map_some, shift, if_pos (by omega)]
  | none =>
    cases labelPos post t with
    | none => rfl
    | some q =>
      simp only [map_some, none_or, some.injEq, shift]
      rw [if_neg (by omega)]
      omega

theorem getElem?_insert {p} (hp : p ≠ pre.length) :
    (pre ++ .inst i' :: (mid ++ post))[shift pre.length mid.length p]? = (pre ++ .inst i :: post)[p]? := by
  unfold shift
  split
  · rw [getElem?_append_left (by omega), getElem?_append_left (by omega)]
  · obtain ⟨q, rfl⟩ : ∃ q, p = pre.length + 1 + q := ⟨p - pre.length - 1, by omega⟩
    rw [getElem?_append_right (by omega), getElem?_append_right (by omega)]
    have hq : pre.length + 1 + q + mid.length - pre.length = mid.length + q + 1 := by omega
    have hq' : pre.length + 1 + q - pre.length = q + 1 := by omega
    rw [hq, hq', getElem?_cons_succ, getElem?_cons_succ, getElem?_append_right (by omega),
      Nat.add_sub_cancel_left]

theorem step_insert (ev) {p} (hp : p ≠ pre.length)
    (htargets : ∀ j t test, .inst j ∈ pre ++ .inst i :: post → j.branch = some (t, test) → .label t ∉ mid) :
    step ev (pre ++ .inst i' :: (mid ++ post)) (shift pre.length mid.length p) =
      (step ev (pre ++ .inst i :: post) p).map (shift pre.length mid.length) := by
  have hitem := @getElem?_insert pre post mid i i' p hp
  have hnext := @shift_succ pre.length mid.length p hp
  unfold step
  rw [hitem]
  cases hget : (pre ++ inst i :: post)[p]? with
  | none => rfl
  | some item =>
    cases item with
    | label b => simp only [map_some, hnext]
    | inst j =>
      cases hb : j.branch with
      | none => cases hl : j.leaves <;> simp [hb, hl, hnext]
      | some r =>
        obtain ⟨t, test⟩ := r
        have hmem : inst j ∈ pre ++ .inst i :: post := mem_of_getElem? hget
        have hlabel := @labelPos_insert pre post mid i i' t (htargets j t test hmem hb)
        cases ht : test.holds ev <;> simp [hb, ht, hnext, hlabel]

end Insert

/-! ## Kept control -/

theorem Relaxed.refl (i) : Relaxed i i := ⟨fun _ => rfl, fun t test h => ⟨t, test, h, .inl rfl⟩⟩

theorem Relaxed.of_branch {i i' t test t' test'} (hb : i.branch = some (t, test)) (hb' : i'.branch = some (t', test'))
    (h : test' = test ∨ test' = test.inverse) : Relaxed i i' where
  other hn := by
    rw [hb] at hn
    cases hn
  branch u test₀ hu := by
    rw [hb] at hu
    cases hu
    exact ⟨t', test', hb', h⟩

theorem Relaxed.trans {i j k} (h : Relaxed i j) (h' : Relaxed j k) : Relaxed i k where
  other hn := by
    obtain rfl := h.other hn
    exact h'.other hn
  branch t test hb := by
    obtain ⟨t', test', hb', he⟩ := h.branch t test hb
    obtain ⟨t'', test'', hb'', he'⟩ := h'.branch t' test' hb'
    refine ⟨t'', test'', hb'', ?_⟩
    rcases he with rfl | rfl <;> rcases he' with rfl | rfl <;> simp

theorem Places.refl (cs) : Places cs cs id where
  entry := rfl
  mono := strictMono_id
  insts _ i h := ⟨i, h, .refl i⟩
  control _ := .refl _

theorem Places.trans {cs cs' cs''} {place place' : Nat → Nat} (h : Places cs cs' place)
    (h' : Places cs' cs'' place') : Places cs cs'' (place' ∘ place) where
  entry := by rw [Function.comp_apply, h.entry, h'.entry]
  mono := h'.mono.comp h.mono
  insts p i hp := by
    obtain ⟨j, hj, hr⟩ := h.insts p i hp
    obtain ⟨k, hk, hr'⟩ := h'.insts _ j hj
    exact ⟨k, hk, hr.trans hr'⟩
  control ev := (h.control ev).trans (h'.control ev) h'.mono.injective

section Widen

variable {pre post mid : List CodeItem} {i i' : MachineInst}

theorem getElem?_here (x : CodeItem) (pre post) : (pre ++ x :: post)[pre.length]? = some x := by
  rw [getElem?_append_right le_rfl, Nat.sub_self, getElem?_cons_zero]

theorem insts_insert (hrel : Relaxed i i') (p : Nat) (j : MachineInst)
    (hp : (pre ++ .inst i :: post)[p]? = some (.inst j)) :
    ∃ j', (pre ++ .inst i' :: (mid ++ post))[shift pre.length mid.length p]? = some (.inst j') ∧ Relaxed j j' := by
  by_cases hk : p = pre.length
  · subst hk
    rw [getElem?_here] at hp
    cases hp
    refine ⟨i', ?_, hrel⟩
    rw [shift, if_pos le_rfl, getElem?_here]
  · exact ⟨j, (getElem?_insert hk).trans hp, .refl j⟩

theorem step_here {ev t test} (hb : i.branch = some (t, test)) :
    step ev (pre ++ .inst i :: post) pre.length =
      if test.holds ev then labelPos (pre ++ .inst i :: post) t else some (pre.length + 1) := by
  rw [step, getElem?_here]
  simp only [hb]

theorem places_insert (hrel : Relaxed i i')
    (htargets : ∀ j t test, .inst j ∈ pre ++ .inst i :: post → j.branch = some (t, test) → .label t ∉ mid)
    (hmoves : ∀ ev q, step ev (pre ++ .inst i :: post) pre.length = some q →
      Detour (step ev (pre ++ .inst i' :: (mid ++ post))) (fun y => ∀ x, shift pre.length mid.length x ≠ y)
        pre.length (shift pre.length mid.length q))
    (hstops : ∀ ev, step ev (pre ++ .inst i :: post) pre.length ≠ none) :
    Places (pre ++ .inst i :: post) (pre ++ .inst i' :: (mid ++ post)) (shift pre.length mid.length) where
  entry := if_pos (Nat.zero_le _)
  mono := shift_strictMono _ _
  insts := insts_insert hrel
  control ev := by
    have hself : shift pre.length mid.length pre.length = pre.length := if_pos le_rfl
    constructor
    · intro p q hstep
      by_cases hk : p = pre.length
      · subst hk
        rw [hself]
        exact hmoves ev q hstep
      · refine .last ?_
        rw [step_insert ev hk htargets, hstep]
        rfl
    · intro p hstop
      by_cases hk : p = pre.length
      · subst hk
        exact absurd hstop (hstops ev)
      · rw [step_insert ev hk htargets, hstop]
        rfl

theorem step_ne_none (ev) {t test} (hb : i.branch = some (t, test)) (hlabel : .label t ∈ pre ++ .inst i :: post) :
    step ev (pre ++ .inst i :: post) pre.length ≠ none := by
  intro hn
  rw [step_here hb] at hn
  split at hn
  · exact labelPos_eq_none.mp hn hlabel
  · cases hn

theorem places_widen {t test} (hb : i.branch = some (t, test))
    (hb' : i'.branch = some (t, test)) (hlabel : .label t ∈ pre ++ .inst i :: post) :
    Places (pre ++ .inst i :: post) (pre ++ .inst i' :: post) (shift pre.length 0) := by
  refine @places_insert pre post [] i i' (.of_branch hb hb' (.inl rfl)) (fun _ _ _ _ _ => not_mem_nil)
    (fun ev q hq => .last ?_)
    fun ev => step_ne_none ev hb hlabel
  · rw [nil_append, step_here hb']
    rw [step_here hb] at hq
    split at hq
    · rw [if_pos ‹_›, ← nil_append post, labelPos_insert not_mem_nil, hq]
      rfl
    · rw [if_neg ‹_›]
      cases hq
      rw [shift, if_neg (by omega)]
      rfl

theorem places_trampoline {j : MachineInst} {far skip test}
    (hb : i.branch = some (far, test)) (hb' : i'.branch = some (skip, test.inverse))
    (hj : j.branch = some (far, .always)) (hfar : .label far ∈ pre ++ .inst i :: post)
    (hskip : .label skip ∉ pre ++ .inst i :: post)
    (htargets : ∀ k t test, .inst k ∈ pre ++ .inst i :: post → k.branch = some (t, test) → t ≠ skip) :
    Places (pre ++ .inst i :: post) (pre ++ .inst i' :: .inst j :: .label skip :: post) (shift pre.length 2) := by
  have hmid : ∀ t, t ≠ skip → label t ∉ [inst j, .label skip] := by
    intro t ht hmem
    simp [ht] at hmem
  have hfarne : far ≠ skip := fun he => hskip (he ▸ hfar)
  have hhidden : ∀ m, m = 1 ∨ m = 2 → ∀ x, shift pre.length 2 x ≠ pre.length + m := by
    intro m hm x
    unfold shift
    split <;> omega
  have hitem : ∀ x, (pre ++ inst i' :: .inst j :: .label skip :: post)[pre.length + x]? =
      (inst i' :: .inst j :: .label skip :: post)[x]? := by
    intro x
    rw [getElem?_append_right (Nat.le_add_right _ _), Nat.add_sub_cancel_left]
  refine @places_insert pre post [.inst j, .label skip] i i' (.of_branch hb hb' (.inr rfl))
    (fun k t test hk hkb => hmid t (htargets k t test hk hkb)) (fun ev q hq => ?_) fun ev => step_ne_none ev hb hfar
  · have hstart : step ev (pre ++ .inst i' :: .inst j :: .label skip :: post) pre.length = _ := step_here hb'
    rw [step_here hb] at hq
    rw [BranchTest.holds_inverse] at hstart
    split at hq
    · -- taken: fall through to the branch and take that
      rename_i htaken
      rw [htaken, Bool.not_true, if_neg Bool.false_ne_true] at hstart
      refine .more hstart (hhidden 1 (.inl rfl)) (.last ?_)
      rw [step, cons_append, cons_append, nil_append, hitem 1]
      simp only [getElem?_cons_succ, getElem?_cons_zero, hj, BranchTest.holds, if_true]
      have := @labelPos_insert pre post [.inst j, .label skip] i i' far (hmid far hfarne)
      rw [hq] at this
      exact this
    · -- not taken: the inverse is, and leads behind the branch
      rename_i htaken
      rw [Bool.not_eq_true] at htaken
      cases hq
      have hpos : labelPos (pre ++ .inst i' :: .inst j :: .label skip :: post) skip = some (pre.length + 2) := by
        have hpre : label skip ∉ pre := fun h => hskip (mem_append_left _ h)
        rw [labelPos_append, labelPos_eq_none.mpr hpre, none_or, labelPos_cons_inst, labelPos_cons_inst,
          labelPos_cons_label_self, map_some, map_some, map_some, Nat.add_comm]
      rw [htaken, Bool.not_false, if_pos rfl, hpos] at hstart
      refine .more hstart (hhidden 2 (.inr rfl)) (.last ?_)
      rw [step, cons_append, cons_append, nil_append, hitem 2]
      simp only [getElem?_cons_succ, getElem?_cons_zero, shift, length_cons, length_nil]
      rw [if_neg (by omega)]

end Widen

end Armfortas.Codegen
