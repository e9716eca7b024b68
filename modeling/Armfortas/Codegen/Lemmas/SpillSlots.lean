import Armfortas.Codegen.LinearScan
import Armfortas.Codegen.Lemmas.Liveness
import Armfortas.Lib.IntervalScan

/-! Slots of the frame are disjoint. Registers of one colour are live at different positions. -/
namespace Armfortas.Codegen
open Lib List Function Coloring

/-! ## The frame -/

def FrameSlot.Disjoint (a b : FrameSlot) : Prop := a.offset + a.size ≤ b.offset ∨ b.offset + b.size ≤ a.offset

theorem FrameSlot.Disjoint.symm {a b : FrameSlot} (h : a.Disjoint b) : b.Disjoint a := Or.symm h

theorem le_roundUp (n) {align} (h : 0 < align) : n ≤ roundUp n align := by
  unfold roundUp
  have := Nat.div_add_mod (n + (align - 1)) align
  have := Nat.mod_lt (n + (align - 1)) h
  rw [Nat.mul_comm]
  omega

theorem StackFrame.allocLocal_spec (frame : StackFrame) (size) :
    frame.nextOffset + size ≤ (frame.allocLocal size).2.nextOffset ∧
      (frame.allocLocal size).1 = -((frame.allocLocal size).2.nextOffset : Int) ∧
      (frame.allocLocal size).2.locals = frame.locals ++ [{ offset := (frame.allocLocal size).1, size := size }] := by
  refine ⟨le_roundUp _ ?_, rfl, rfl⟩
  split
  · decide
  · split <;> decide

structure Reserved {ι : Type} (frame : StackFrame) (R : ι → FrameSlot → Prop) : Prop where
  mem : ∀ o slot, R o slot → slot ∈ frame.locals
  above : ∀ o slot, R o slot → -(frame.nextOffset : Int) ≤ slot.offset
  disjoint : ∀ o o' slot slot', R o slot → R o' slot' → o ≠ o' → slot.Disjoint slot'

theorem Reserved.mono {ι : Type} {frame} {R R' : ι → FrameSlot → Prop} (h : Reserved frame R)
    (hR : ∀ o slot, R' o slot → R o slot) : Reserved frame R' where
  mem o slot ho := h.mem o slot (hR o slot ho)
  above o slot ho := h.above o slot (hR o slot ho)
  disjoint o o' slot slot' ho ho' := h.disjoint o o' slot slot' (hR o slot ho) (hR o' slot' ho')

theorem Reserved.alloc {ι : Type} {frame} {R R' : ι → FrameSlot → Prop} (h : Reserved frame R) (o₀ : ι)
    (size)
    (hR : ∀ o slot, R' o slot → R o slot ∨ (o = o₀ ∧ slot = { offset := (frame.allocLocal size).1, size := size })) :
    Reserved (frame.allocLocal size).2 R' := by
  obtain ⟨hnext, hoff, hlocals⟩ := frame.allocLocal_spec size
  have hbelow : ∀ o slot, R o slot →
      FrameSlot.Disjoint { offset := (frame.allocLocal size).1, size := size } slot := by
    intro o slot ho
    have := h.above o slot ho
    left
    dsimp only
    omega
  constructor
  case mem =>
    intro o slot ho
    rcases hR o slot ho with ho | ⟨-, rfl⟩
    · exact mem_append_left _ (h.mem o slot ho)
    · exact mem_append_right _ (mem_singleton_self _)
  case above =>
    intro o slot ho
    rcases hR o slot ho with ho | ⟨-, rfl⟩
    · have := h.above o slot ho
      omega
    · exact hoff.ge
  case disjoint =>
    intro o o' slot slot' ho ho' hne
    rcases hR o slot ho with ho | ⟨rfl, rfl⟩ <;> rcases hR o' slot' ho' with ho' | ⟨rfl, rfl⟩
    · exact h.disjoint o o' slot slot' ho ho' hne
    · exact (hbelow o slot ho).symm
    · exact hbelow o' slot' ho'
    · exact absurd rfl hne

/-! ## Colouring -/

theorem popMin_eq_some {l m rest} (h : popMin l = some (m, rest)) :
    l.Perm (m :: rest) := by
  obtain ⟨m', hm, heq⟩ := Option.map_eq_some_iff.mp h
  cases heq
  exact perm_cons_erase (min?_mem hm)

def Coloring.given (s : Coloring) (done : List LiveInterval) : Set (Holding VRegId Nat) :=
  { h | ∃ I ∈ done, s.vregColors I.vreg = some h.res ∧ h.holder = I.vreg ∧ h.lo = I.start ∧ h.hi = I.stop }

def Coloring.pool (s : Coloring) (act : List (Holding VRegId Nat)) : List Nat := act.map (·.res) ++ (s.free8 ++ s.free16)

structure Coloring.Ok (s : Coloring) (done : List LiveInterval) (act : List (Holding VRegId Nat)) (pos : Nat) : Prop where
  active : s.active = act.map fun h => (h.hi, h.res)
  tidy : Tidy (s.given done) { h | h ∈ act } pos
  nodup : (s.pool act).Nodup
  free8 : ∀ c ∈ s.free8, s.colors[c]? = some 8
  free16 : ∀ c ∈ s.free16, s.colors[c]? = some 16
  held : ∀ h ∈ act, s.colors[h.res]? = some 8 ∨ s.colors[h.res]? = some 16
  fits : ∀ I ∈ done, ∃ c size, s.vregColors I.vreg = some c ∧ s.colors[c]? = some size ∧ spillSlotSize I.cls ≤ size
  others : ∀ v, (∀ I ∈ done, I.vreg ≠ v) → s.vregColors v = none

variable {s : Coloring} {done : List LiveInterval} {act : List (Holding VRegId Nat)} {pos pos' : Nat}

theorem filter_perm_of_or {l : List (Holding VRegId Nat)} {p q : Holding VRegId Nat → Bool}
    (h : ∀ x ∈ l, (p x = true ∧ q x = false) ∨ (p x = false ∧ q x = true)) : (l.filter p ++ l.filter q).Perm l := by
  have hq : l.filter q = l.filter (fun x => !p x) := by
    refine filter_congr fun x hx => ?_
    rcases h x hx with ⟨h₁, h₂⟩ | ⟨h₁, h₂⟩ <;> simp [h₁, h₂]
  rw [hq]
  exact filter_append_perm _ _

theorem Coloring.Ok.release (h : s.Ok done act pos) (hpos : pos ≤ pos') :
    (s.release pos').Ok done (act.filter fun x => decide (¬ x.hi < pos')) pos' := by
  have hexp : ∀ size, ((s.active.filter (·.1 < pos')).filter fun e => s.colors[e.2]? == some size).map (·.2) =
      ((act.filter fun x => decide (x.hi < pos')).filter fun x => s.colors[x.res]? == some size).map (·.res) := by
    intro size
    rw [h.active, filter_map, filter_map, map_map]
    rfl
  have hsplit : (((act.filter fun x => decide (x.hi < pos')).filter fun x => s.colors[x.res]? == some 8) ++
      (act.filter fun x => decide (x.hi < pos')).filter fun x => s.colors[x.res]? == some 16).Perm
      (act.filter fun x => decide (x.hi < pos')) := by
    refine filter_perm_of_or fun x hx => ?_
    rcases h.held x (mem_of_mem_filter hx) with hc | hc <;> simp [hc]
  have hpool : ((s.release pos').pool (act.filter fun x => decide (¬ x.hi < pos'))).Perm (s.pool act) := by
    have hact : (act.filter (fun x => decide (x.hi < pos')) ++ act.filter (fun x => decide (¬ x.hi < pos'))).Perm act := by
      refine filter_perm_of_or fun x _ => ?_
      by_cases hx : x.hi < pos' <;> simp [hx]
    have h₁ := (hsplit.map (·.res)).symm
    rw [map_append] at h₁
    have h₂ := hact.map (·.res)
    rw [map_append] at h₂
    simp only [pool, Coloring.release, hexp]
    refine List.Perm.trans ?_ ((h₂.symm.trans (h₁.append_right _)).symm.append_right (s.free8 ++ s.free16))
    rw [perm_iff_count]
    simp only [count_append]
    omega
  constructor
  case active =>
    rw [Coloring.release, h.active, filter_map]
    rfl
  case tidy =>
    refine h.tidy.retain hpos (fun x hx => hx) (fun x hx => mem_of_mem_filter hx) fun x _ hx => ?_
    by_cases hlt : x.hi < pos'
    · exact .inr hlt
    · exact .inl (mem_filter.mpr ⟨hx, by simpa using hlt⟩)
  case nodup => exact hpool.nodup_iff.mpr h.nodup
  case free8 =>
    intro c hc
    rcases mem_append.mp hc with hc | hc
    · exact h.free8 c hc
    · obtain ⟨e, he, rfl⟩ := mem_map.mp hc
      exact beq_iff_eq.mp (mem_filter.mp he).2
  case free16 =>
    intro c hc
    rcases mem_append.mp hc with hc | hc
    · exact h.free16 c hc
    · obtain ⟨e, he, rfl⟩ := mem_map.mp hc
      exact beq_iff_eq.mp (mem_filter.mp he).2
  case held => exact fun x hx => h.held x (mem_of_mem_filter hx)
  case fits => exact h.fits
  case others => exact h.others

theorem Coloring.Ok.pick (h : s.Ok done act pos) {size} (hsize : size = 8 ∨ size = 16) {c s'}
    (hp : s.pick size = (c, s')) :
    (c :: s'.pool act).Nodup ∧ s'.vregColors = s.vregColors ∧ s'.active = s.active ∧
      (∃ sz, s'.colors[c]? = some sz ∧ size ≤ sz ∧ (sz = 8 ∨ sz = 16)) ∧
      (∀ (d : Nat) (sz : Nat), s.colors[d]? = some sz → s'.colors[d]? = some sz) ∧ (∀ d ∈ s'.free8, d ∈ s.free8) ∧
      ∀ d ∈ s'.free16, d ∈ s.free16 := by
  unfold Coloring.pick at hp
  split at hp
  · next c₀ rest hpop =>
    cases hp
    split at hpop
    · next hs =>
      have hperm := popMin_eq_some hpop
      have hc : c ∈ s.free8 := hperm.mem_iff.mpr mem_cons_self
      refine ⟨?_, rfl, rfl, ⟨8, h.free8 c hc, hs.le, .inl rfl⟩, fun d sz hd => hd, fun d hd => ?_, fun d hd => hd⟩
      · refine (List.Perm.nodup_iff ?_).mp h.nodup
        rw [perm_iff_count]
        intro d
        have := hperm.count_eq d
        simp only [pool, count_append, count_cons] at this ⊢
        omega
      · exact hperm.mem_iff.mpr (.tail _ hd)
    · cases hpop
  · split at hp
    · next c₀ rest hpop =>
      cases hp
      have hperm := popMin_eq_some hpop
      have hc : c ∈ s.free16 := hperm.mem_iff.mpr mem_cons_self
      refine ⟨?_, rfl, rfl, ⟨16, h.free16 c hc, by omega, .inr rfl⟩, fun d sz hd => hd, fun d hd => hd, fun d hd => ?_⟩
      · refine (List.Perm.nodup_iff ?_).mp h.nodup
        rw [perm_iff_count]
        intro d
        have := hperm.count_eq d
        simp only [pool, count_append, count_cons] at this ⊢
        omega
      · exact hperm.mem_iff.mpr (.tail _ hd)
    · cases hp
      have hlt : ∀ d ∈ s.pool act, d < s.colors.length := by
        intro d hd
        have hget : ∃ sz, s.colors[d]? = some sz := by
          rcases mem_append.mp hd with hd | hd
          · obtain ⟨x, hx, rfl⟩ := mem_map.mp hd
            rcases h.held x hx with hc | hc <;> exact ⟨_, hc⟩
          · rcases mem_append.mp hd with hd | hd
            · exact ⟨8, h.free8 d hd⟩
            · exact ⟨16, h.free16 d hd⟩
        obtain ⟨sz, hsz⟩ := hget
        exact (List.getElem?_eq_some_iff.mp hsz).1
      refine ⟨nodup_cons.mpr ⟨fun hmem => ?_, h.nodup⟩, rfl, rfl, ⟨size, ?_, le_rfl, hsize⟩, fun d sz hd => ?_,
        fun d hd => hd, fun d hd => hd⟩
      · exact absurd (hlt _ hmem) (lt_irrefl _)
      · simp
      · exact getElem?_append_left (List.getElem?_eq_some_iff.mp hd).1 ▸ hd

theorem spillSlotSize_eq (cls) : spillSlotSize cls = 8 ∨ spillSlotSize cls = 16 := by
  cases cls <;> simp [spillSlotSize]

theorem Coloring.Ok.add (h : s.Ok done act pos) {I : LiveInterval} (hpos : pos ≤ I.start)
    (hnew : ∀ J ∈ done, J.vreg ≠ I.vreg) : ∃ act', (s.add I).Ok (done ++ [I]) act' I.start := by
  have hrel := h.release hpos
  obtain ⟨c, s', hp⟩ : ∃ c s', (s.release I.start).pick (spillSlotSize I.cls) = (c, s') := ⟨_, _, rfl⟩
  obtain ⟨hnodup, hcolors, hact, ⟨sz, hsz, hle, hsz'⟩, hkeep, h8, h16⟩ := hrel.pick (spillSlotSize_eq I.cls) hp
  have hadd : s.add I = { s' with
      vregColors := Function.update s'.vregColors I.vreg (some c), active := s'.active ++ [(I.stop, c)] } := by
    simp only [Coloring.add, hp]
  rw [hadd]
  have hold : ∀ J ∈ done, Function.update s'.vregColors I.vreg (some c) J.vreg = (s.release I.start).vregColors J.vreg := by
    intro J hJ
    rw [update_of_ne (hnew J hJ), hcolors]
  refine ⟨act.filter (fun x => decide (¬ x.hi < I.start)) ++ [{ holder := I.vreg, res := c, lo := I.start, hi := I.stop }], ?_⟩
  constructor
  case active => rw [hact, hrel.active, map_append, map_singleton]
  case tidy =>
    have hfree : ∀ a ∈ { x | x ∈ act.filter fun x => decide (¬ x.hi < I.start) }, a.res ≠ c := by
      rintro a ha rfl
      exact (nodup_cons.mp hnodup).1 (mem_append_left _ (mem_map_of_mem ha))
    have : Tidy (insert ⟨I.vreg, c, I.start, I.stop⟩ _) (insert ⟨I.vreg, c, I.start, I.stop⟩ _) I.start :=
      hrel.tidy.acquire rfl hfree
    refine this.retain le_rfl ?_ ?_ ?_
    · rintro x ⟨J, hJ, hc, hx⟩
      rcases mem_append.mp hJ with hJ | hJ
      · exact .inr ⟨J, hJ, (hold J hJ).symm.trans hc, hx⟩
      · cases mem_singleton.mp hJ
        dsimp only at hc
        rw [update_self, Option.some.injEq] at hc
        exact .inl (Holding.ext hx.1 hc.symm hx.2.1 hx.2.2)
    · intro x hx
      rcases mem_append.mp hx with hx | hx
      · exact .inr hx
      · exact .inl (mem_singleton.mp hx)
    · rintro x - (rfl | hx)
      · exact .inl (mem_append_right _ (mem_singleton_self _))
      · exact .inl (mem_append_left _ hx)
  case nodup =>
    refine (List.Perm.nodup_iff ?_).mp hnodup
    simp only [pool, map_append, map_singleton, append_assoc, singleton_append]
    exact perm_middle.symm
  case free8 => exact fun d hd => hkeep d 8 (hrel.free8 d (h8 d hd))
  case free16 => exact fun d hd => hkeep d 16 (hrel.free16 d (h16 d hd))
  case held =>
    intro x hx
    rcases mem_append.mp hx with hx | hx
    · exact (hrel.held x hx).imp (hkeep _ _) (hkeep _ _)
    · cases mem_singleton.mp hx
      rcases hsz' with rfl | rfl
      · exact .inl hsz
      · exact .inr hsz
  case fits =>
    intro J hJ
    rcases mem_append.mp hJ with hJ | hJ
    · obtain ⟨d, size, hd, hsize, hfit⟩ := hrel.fits J hJ
      exact ⟨d, size, (hold J hJ).trans hd, hkeep d size hsize, hfit⟩
    · cases mem_singleton.mp hJ
      exact ⟨c, sz, update_self .., hsz, hle⟩
  case others =>
    intro v hv
    have hne : v ≠ I.vreg := fun e => hv I (mem_append_right _ (mem_singleton_self _)) e.symm
    change Function.update s'.vregColors I.vreg (some c) v = none
    rw [update_of_ne hne, hcolors]
    exact hrel.others v fun J hJ => hv J (mem_append_left _ hJ)

theorem Coloring.empty_ok : empty.Ok [] [] 0 where
  active := rfl
  tidy := Tidy.empty.retain le_rfl (fun _ ⟨_, hI, _⟩ => nomatch hI) (fun _ hx => nomatch hx) fun _ ⟨_, hI, _⟩ => nomatch hI
  nodup := nodup_nil
  free8 := by simp [empty]
  free16 := by simp [empty]
  held := by simp
  fits := by simp
  others _ _ := rfl

theorem Coloring.Ok.foldl (h : s.Ok done act pos) {l : List LiveInterval} (hpos : ∀ I ∈ l, pos ≤ I.start)
    (hsorted : l.Pairwise fun I J => I.start ≤ J.start) (hnodup : (l.map (·.vreg)).Nodup)
    (hnew : ∀ I ∈ l, ∀ J ∈ done, J.vreg ≠ I.vreg) :
    ∃ act' pos', (l.foldl Coloring.add s).Ok (done ++ l) act' pos' := by
  induction l generalizing s done act pos with
  | nil => exact ⟨act, pos, by simpa using h⟩
  | cons I l ih =>
    obtain ⟨act', h'⟩ := h.add (hpos I mem_cons_self) (hnew I mem_cons_self)
    rw [pairwise_cons] at hsorted
    rw [map_cons, nodup_cons] at hnodup
    have := ih h' hsorted.1 hsorted.2 hnodup.2 ?_
    · simpa using this
    · intro J hJ K hK
      rcases mem_append.mp hK with hK | hK
      · exact hnew J (.tail _ hJ) K hK
      · cases mem_singleton.mp hK
        exact fun e => hnodup.1 (e ▸ mem_map_of_mem hJ)

/-- What the scan relies on about the colours of a function's registers. -/
structure SpillSlotPlan.Sound (plan : SpillSlotPlan) (intervals : List LiveInterval) : Prop where
  fits : ∀ I ∈ intervals, ∃ c size, plan.vregColors I.vreg = some c ∧ plan.colors[c]? = some size ∧
    spillSlotSize I.cls ≤ size
  others : ∀ v, (∀ I ∈ intervals, I.vreg ≠ v) → plan.vregColors v = none
  apart : ∀ I ∈ intervals, ∀ J ∈ intervals, I.vreg ≠ J.vreg → plan.vregColors I.vreg = plan.vregColors J.vreg →
    I.stop < J.start ∨ J.stop < I.start

theorem SpillSlotPlan.new_sound {mf : MachineFunction} {l : List LiveInterval} (h : Intervals mf l) :
    (SpillSlotPlan.new l).Sound l := by
  have hsorted : l.Pairwise fun I J => I.start ≤ J.start := h.sorted.imp LiveInterval.before.start_le
  obtain ⟨act, pos, hok⟩ := Coloring.empty_ok.foldl (fun _ _ => Nat.zero_le _) hsorted h.nodup
    (fun _ _ J hJ => nomatch hJ)
  refine ⟨hok.fits, hok.others, fun I hI J hJ hne heq => ?_⟩
  obtain ⟨c, -, hc, -⟩ := hok.fits I hI
  refine hok.tidy.apart ⟨I.vreg, c, I.start, I.stop⟩ ⟨I, hI, hc, rfl, rfl, rfl⟩ ⟨J.vreg, c, J.start, J.stop⟩
    ⟨J, hJ, ?_, rfl, rfl, rfl⟩ rfl fun e => hne (Holding.mk.inj e).1
  exact heq.symm.trans hc

end Armfortas.Codegen
