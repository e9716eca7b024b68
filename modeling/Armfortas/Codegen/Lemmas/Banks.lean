import Armfortas.Codegen.LinearScan
import Armfortas.Lib.IntervalScan
import Mathlib.Algebra.Order.Ring.Nat
import Mathlib.Data.List.Sort

/-! A bank knows nothing of how intervals are split. It is judged against a relation `G` between intervals and the
numbers of the registers they have been given in this bank. -/
namespace Armfortas.Codegen
open Lib List

def LiveInterval.holding (w : LiveInterval) (r : Nat) : Holding VRegId Nat :=
  { holder := w.vreg, res := r, lo := w.start, hi := w.stop }

namespace Bank

def regs (b : Bank) : List Nat := b.active.map (·.1) ++ (b.caller ++ b.callee)

def given (G : LiveInterval → Nat → Prop) : Set (Holding VRegId Nat) := { h | ∃ w r, G w r ∧ h = w.holding r }

def held (G : LiveInterval → Nat → Prop) (b : Bank) : Set (Holding VRegId Nat) :=
  { h | ∃ w r, G w r ∧ (r, w.stop, w.vreg) ∈ b.active ∧ h = w.holding r }

/-- The bank at a position, all intervals that begin earlier having been treated. -/
structure Ok (calls : List Nat) (isFp : Bool) (G : LiveInterval → Nat → Prop) (b : Bank) (pos : Nat) : Prop where
  tidy : Tidy (given G) (b.held G) pos
  active : ∀ e ∈ b.active, ∃ w, G w e.1 ∧ w.stop = e.2.1 ∧ w.vreg = e.2.2
  nodup : b.regs.Nodup
  caller : ∀ r ∈ b.caller, isCalleeSaved isFp r = false
  callee : ∀ r ∈ b.callee, isCalleeSaved isFp r = true
  started : ∀ w r, G w r → w.start ≤ pos
  safe : ∀ w r, G w r → ∀ c ∈ calls, w.start < c → c < w.stop → isCalleeSaved isFp r = true

variable {calls : List Nat} {isFp : Bool} {G G' : LiveInterval → Nat → Prop} {b b' : Bank} {pos pos' : Nat}

theorem Ok.later (h : b.Ok calls isFp G pos) (hpos : pos ≤ pos') : b.Ok calls isFp G pos' :=
  { h with
    tidy := h.tidy.retain hpos (fun _ hx => hx) (fun _ hx => hx) fun _ _ hx => .inl hx
    started := fun w r hw => (h.started w r hw).trans hpos }

theorem Ok.congr (h : b.Ok calls isFp G pos) (hG : ∀ w r, G' w r ↔ G w r) : b.Ok calls isFp G' pos := by
  obtain rfl : G' = G := by
    funext w r
    exact propext (hG w r)
  exact h

/-! ## Registers that come free -/

theorem regs_expire_perm (b : Bank) : (b.expire isFp pos').regs.Perm b.regs := by
  have hfreed := filter_append_perm (fun r => isCalleeSaved isFp r) ((b.active.filter (·.2.1 < pos')).map (·.1))
  have hactive := (filter_append_perm (fun e : Nat × Nat × VRegId => decide (e.2.1 < pos')) b.active).map (·.1)
  rw [map_append] at hactive
  rw [perm_iff_count]
  intro r
  have h₁ := hfreed.count_eq r
  have h₂ := hactive.count_eq r
  simp only [regs, expire, count_append, decide_not] at h₁ h₂ ⊢
  omega

theorem Ok.expire (h : b.Ok calls isFp G pos) (hpos : pos ≤ pos') : (b.expire isFp pos').Ok calls isFp G pos' where
  tidy := by
    refine h.tidy.retain hpos (fun _ hx => hx) ?_ ?_
    · rintro x ⟨w, r, hG, hmem, rfl⟩
      exact ⟨w, r, hG, mem_of_mem_filter hmem, rfl⟩
    · rintro x - ⟨w, r, hG, hmem, rfl⟩
      by_cases hlt : w.stop < pos'
      · exact .inr hlt
      · exact .inl ⟨w, r, hG, mem_filter.mpr ⟨hmem, by simpa using hlt⟩, rfl⟩
  active e he := h.active e (mem_of_mem_filter he)
  nodup := b.regs_expire_perm.nodup_iff.mpr h.nodup
  caller r hr := by
    rcases mem_append.mp hr with hr | hr
    · exact h.caller r hr
    · simpa using (mem_filter.mp hr).2
  callee r hr := by
    rcases mem_append.mp hr with hr | hr
    · exact h.callee r hr
    · exact (mem_filter.mp hr).2
  started w r hw := (h.started w r hw).trans hpos
  safe := h.safe

/-! ## Registers that are taken -/

structure Takes (b : Bank) (reg : Nat) (b' : Bank) : Prop where
  active : b'.active = b.active
  perm : b.regs.Perm (reg :: b'.regs)
  caller : ∀ r ∈ b'.caller, r ∈ b.caller
  callee : ∀ r ∈ b'.callee, r ∈ b.callee

theorem takes_caller {reg rest} (h : b.caller.Perm (reg :: rest)) :
    b.Takes reg { b with caller := rest } where
  active := rfl
  perm := by
    rw [perm_iff_count]
    intro r
    have := h.count_eq r
    simp only [regs, count_append, count_cons] at this ⊢
    omega
  caller r hr := h.mem_iff.mpr (.tail _ hr)
  callee _ hr := hr

theorem takes_callee {reg rest} (h : b.callee.Perm (reg :: rest)) :
    b.Takes reg { b with callee := rest } where
  active := rfl
  perm := by
    rw [perm_iff_count]
    intro r
    have := h.count_eq r
    simp only [regs, count_append, count_cons] at this ⊢
    omega
  caller _ hr := hr
  callee r hr := h.mem_iff.mpr (.tail _ hr)

theorem perm_of_getLast? {l : List Nat} {r} (h : l.getLast? = some r) : l.Perm (r :: l.dropLast) := by
  have := dropLast_append_getLast? r h
  rw [← this, dropLast_concat]
  exact perm_append_singleton _ _

theorem popCallee_takes {reg} (h : b.popCallee = some (reg, b')) : b.Takes reg b' ∧ reg ∈ b.callee := by
  obtain ⟨r, hr, heq⟩ := Option.map_eq_some_iff.mp h
  cases heq
  exact ⟨takes_callee (perm_of_getLast? hr), mem_of_getLast? hr⟩

theorem popAny_takes {reg} (h : b.popAny = some (reg, b')) : b.Takes reg b' := by
  unfold popAny at h
  split at h
  · next r hr =>
    cases h
    exact takes_caller (perm_of_getLast? hr)
  · exact (popCallee_takes h).1

theorem choose_takes {crossesCall hint reg} (h : b.choose crossesCall hint = some (reg, b')) :
    b.Takes reg b' ∧ (crossesCall = true → reg ∈ b.callee) := by
  unfold choose at h
  split at h
  · exact ⟨(popCallee_takes h).1, fun _ => (popCallee_takes h).2⟩
  · next hcross =>
    refine ⟨?_, fun hc => absurd hc hcross⟩
    split at h
    · split at h
      · next hmem =>
        cases h
        exact takes_caller (perm_cons_erase hmem)
      · split at h
        · next hmem =>
          cases h
          exact takes_callee (perm_cons_erase hmem)
        · exact popAny_takes h
    · exact popAny_takes h

/-! ## Registers that are given -/

theorem mem_hold {reg stop v e} :
    e ∈ (b.hold reg stop v).active ↔ e = (reg, stop, v) ∨ e ∈ b.active := by
  rw [hold, mem_insertionSort, mem_append, mem_singleton, or_comm]

theorem regs_hold_perm (reg stop v) : (b.hold reg stop v).regs.Perm (reg :: b.regs) := by
  have h := (perm_insertionSort (fun x y : Nat × Nat × VRegId => x.2.1 ≤ y.2.1)
    (b.active ++ [(reg, stop, v)])).map (·.1)
  rw [map_append] at h
  refine (h.append_right (b.caller ++ b.callee)).trans ?_
  rw [append_assoc]
  exact perm_middle

theorem Ok.give (h : b.Ok calls isFp G pos) {w : LiveInterval} {reg} (hstart : w.start = pos)
    (hactive : b'.active = b.active) (hnodup : (reg :: b'.regs).Nodup) (hcaller : ∀ r ∈ b'.caller, r ∈ b.caller)
    (hcallee : ∀ r ∈ b'.callee, r ∈ b.callee) (hnew : ∀ x r, G x r → x.vreg ≠ w.vreg)
    (hG : ∀ x r, G' x r ↔ (x = w ∧ r = reg) ∨ G x r)
    (hsafe : ∀ c ∈ calls, w.start < c → c < w.stop → isCalleeSaved isFp reg = true) :
    (b'.hold reg w.stop w.vreg).Ok calls isFp G' pos where
  tidy := by
    have hfree : ∀ a ∈ b.held G, a.res ≠ (w.holding reg).res := by
      rintro a ⟨x, r, -, hmem, rfl⟩ (rfl : r = reg)
      refine (nodup_cons.mp hnodup).1 (mem_append_left _ ?_)
      exact mem_map_of_mem (f := (·.1)) (hactive ▸ hmem)
    refine (h.tidy.acquire hstart hfree).retain le_rfl ?_ ?_ ?_
    · rintro a ⟨x, r, hx, rfl⟩
      rcases (hG x r).mp hx with ⟨rfl, rfl⟩ | hx
      · exact .inl rfl
      · exact .inr ⟨x, r, hx, rfl⟩
    · rintro a ⟨x, r, hx, hmem, rfl⟩
      rcases (hG x r).mp hx with ⟨rfl, rfl⟩ | hx
      · exact .inl rfl
      · rcases mem_hold.mp hmem with heq | hmem
        · exact absurd (congrArg (·.2.2) heq) (hnew x r hx)
        · exact .inr ⟨x, r, hx, hactive ▸ hmem, rfl⟩
    · rintro a - (rfl | ⟨x, r, hx, hmem, rfl⟩)
      · exact .inl ⟨w, reg, (hG w reg).mpr (.inl ⟨rfl, rfl⟩), mem_hold.mpr (.inl rfl), rfl⟩
      · exact .inl ⟨x, r, (hG x r).mpr (.inr hx), mem_hold.mpr (.inr (hactive ▸ hmem)), rfl⟩
  active e he := by
    rcases mem_hold.mp he with rfl | he
    · exact ⟨w, (hG w reg).mpr (.inl ⟨rfl, rfl⟩), rfl, rfl⟩
    · obtain ⟨x, hx, hx'⟩ := h.active e (hactive ▸ he)
      exact ⟨x, (hG x e.1).mpr (.inr hx), hx'⟩
  nodup := (regs_hold_perm ..).nodup_iff.mpr hnodup
  caller r hr := h.caller r (hcaller r hr)
  callee r hr := h.callee r (hcallee r hr)
  started x r hx := by
    rcases (hG x r).mp hx with ⟨rfl, -⟩ | hx
    · exact hstart.le
    · exact h.started x r hx
  safe x r hx := by
    rcases (hG x r).mp hx with ⟨rfl, rfl⟩ | hx
    · exact hsafe
    · exact h.safe x r hx

theorem Ok.dropLast (h : b.Ok calls isFp G pos) {reg stop victim}
    (hlast : b.active.getLast? = some (reg, stop, victim))
    (hfun : ∀ x y r r', G x r → G y r' → x.vreg = y.vreg → r = r') :
    ({ b with active := b.active.dropLast } : Bank).Ok calls isFp (fun x r => G x r ∧ x.vreg ≠ victim) pos ∧
      (reg :: ({ b with active := b.active.dropLast } : Bank).regs).Nodup := by
  have heq := dropLast_append_getLast? _ hlast
  have hnodup : (reg :: ({ b with active := b.active.dropLast } : Bank).regs).Nodup := by
    refine (List.Perm.nodup_iff ?_).mp h.nodup
    rw [regs, regs, ← heq, dropLast_concat, map_append, append_assoc]
    exact perm_middle
  refine ⟨?_, hnodup⟩
  constructor
  case tidy =>
    refine h.tidy.retain le_rfl ?_ ?_ ?_
    · rintro a ⟨x, r, hx, rfl⟩
      exact ⟨x, r, hx.1, rfl⟩
    · rintro a ⟨x, r, hx, hmem, rfl⟩
      exact ⟨x, r, hx.1, mem_of_mem_dropLast hmem, rfl⟩
    · rintro a ⟨y, r', hy, ha⟩ ⟨x, r, hx, hmem, rfl⟩
      have hne : x.vreg ≠ victim := by
        have := congrArg (·.holder) ha
        exact fun e => hy.2 (this.symm.trans e)
      rw [← heq] at hmem
      rcases mem_append.mp hmem with hmem | hmem
      · exact .inl ⟨x, r, ⟨hx, hne⟩, hmem, rfl⟩
      · exact absurd (congrArg (·.2.2) (mem_singleton.mp hmem)) hne
  case active =>
    intro e he
    obtain ⟨x, hx, hx'⟩ := h.active e (mem_of_mem_dropLast he)
    refine ⟨x, ⟨hx, fun hv => ?_⟩, hx'⟩
    -- another entry of the victim would name its register
    obtain ⟨y, hy, -, hyv⟩ := h.active _ (mem_of_getLast? hlast)
    have hreg : e.1 = reg := hfun x y e.1 reg hx hy (hv.trans hyv.symm)
    exact (nodup_cons.mp hnodup).1 (mem_append_left _ (hreg ▸ mem_map_of_mem he))
  case nodup => exact (nodup_cons.mp hnodup).2
  case caller => exact h.caller
  case callee => exact h.callee
  case started => exact fun w r hw => h.started w r hw.1
  case safe => exact fun w r hw => h.safe w r hw.1

theorem initial_ok (calls isFp) : (Bank.initial isFp).Ok calls isFp (fun _ _ => False) 0 where
  tidy := Tidy.empty.retain le_rfl (fun _ ⟨_, _, h, _⟩ => h.elim) (fun _ ⟨_, _, h, _⟩ => h.elim)
    fun _ ⟨_, _, h, _⟩ => h.elim
  active := by simp [initial]
  nodup := by cases isFp <;> decide
  caller := by cases isFp <;> decide
  callee := by cases isFp <;> decide
  started := by simp
  safe := by simp

end Bank

end Armfortas.Codegen
