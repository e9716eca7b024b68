import Armfortas.Codegen.Lemmas.LinearScan

/-! A round gives the next interval a register, splits it, spills it, or spills another one in its place. -/
namespace Armfortas.Codegen
open Lib List Option MachineFunction Function Scan

variable {mf : MachineFunction} {ivs : List LiveInterval} {w : LiveInterval}

structure Scan.Inv (mf : MachineFunction) (ivs spl : List LiveInterval) (s : Scan) (pos : Nat) : Prop where
  shape : s.Shape mf ivs pos
  banks : ∀ f, (s.bank f).Ok mf.callPositions f (GivenIn (Part ivs s.splitsInProgress) s.assignments f) pos
  slots : s.Slots spl

/-- The banks when the round begins: registers have come free in the one the interval is for. -/
def Scan.expired (s : Scan) (w : LiveInterval) (f : Bool) : Bank :=
  if f = w.cls.isFp then (s.bank f).expire f w.start else s.bank f

/-- The scan without the interval whose round it is. -/
abbrev Scan.pop (s : Scan) (rest : List LiveInterval) : Scan := { s with worklist := rest }

theorem Scan.bank_setBank_expired (s : Scan) (w : LiveInterval) (rest f) :
    ((s.pop rest).setBank w.cls.isFp (s.expired w w.cls.isFp)).bank f = s.expired w f := by
  by_cases hf : f = w.cls.isFp
  · subst hf
    exact Scan.bank_setBank_self ..
  · rw [Scan.bank_setBank_of_ne _ _ _ hf, Scan.expired, if_neg hf]
    rfl

/-! ## Splitting -/

section Split

variable {splits : List SplitInProgress}
  {sp : SplitInProgress}

theorem SplitsOk.append (h : SplitsOk mf ivs splits) (hw : w ∈ ivs) (hunsplit : ∀ sp ∈ splits, sp.orig ≠ w.vreg)
    (horig : sp.orig = w.vreg) (hcall : classifyCallCrossing mf.callPositions w.start w.stop = .one sp.callPos)
    (hreal : mf.realCrosses w.vreg (some sp.callPos) = true) (hdeclared : mf.vregs.length ≤ sp.synthetic)
    (hfresh : ∀ sp' ∈ splits, sp'.synthetic ≠ sp.synthetic) : SplitsOk mf ivs (splits ++ [sp]) where
  crossed sp' hsp' := by
    rcases mem_append.mp hsp' with hsp' | hsp'
    · exact h.crossed sp' hsp'
    · cases mem_singleton.mp hsp'
      exact ⟨w, hw, horig, hcall, horig ▸ hreal⟩
  fresh sp' hsp' := by
    rcases mem_append.mp hsp' with hsp' | hsp'
    · exact h.fresh sp' hsp'
    · cases mem_singleton.mp hsp'
      exact hdeclared
  synthetics := by
    rw [map_append, map_singleton, nodup_append]
    refine ⟨h.synthetics, nodup_singleton _, fun v hv v' hv' => ?_⟩
    obtain ⟨sp', hsp', rfl⟩ := List.mem_map.mp hv
    exact mem_singleton.mp hv' ▸ hfresh sp' hsp'
  origs := by
    rw [map_append, map_singleton, nodup_append]
    refine ⟨h.origs, nodup_singleton _, fun v hv v' hv' => ?_⟩
    obtain ⟨sp', hsp', rfl⟩ := List.mem_map.mp hv
    rw [mem_singleton.mp hv', horig]
    exact hunsplit sp' hsp'

theorem part_append (hivs : Intervals mf ivs) (hw : w ∈ ivs) (hunsplit : ∀ sp ∈ splits, sp.orig ≠ w.vreg)
    (horig : sp.orig = w.vreg) (hsyn : ∀ sp ∈ splits, sp.synthetic ≠ w.vreg) {x} :
    Part ivs (splits ++ [sp]) x ↔
      (Part ivs splits x ∧ x.vreg ≠ w.vreg) ∨ x = { w with stop := sp.callPos - 1 } ∨
        x = w.postHalf sp.synthetic sp.callPos := by
  constructor
  · intro hx
    cases hx with
    | whole hI hno =>
      refine .inl ⟨.whole hI fun sp' hsp' => hno sp' (mem_append_left _ hsp'), fun e => ?_⟩
      exact hno sp (mem_append_right _ (mem_singleton_self _)) (horig.trans e.symm)
    | pre hI hsp ho =>
      rcases mem_append.mp hsp with hsp | hsp
      · exact .inl ⟨.pre hI hsp ho, fun e => hunsplit _ hsp (ho.trans e)⟩
      · cases mem_singleton.mp hsp
        cases hivs.eq_of_vreg hI hw (ho.symm.trans horig)
        exact .inr (.inl rfl)
    | post hI hsp ho =>
      rcases mem_append.mp hsp with hsp | hsp
      · exact .inl ⟨.post hI hsp ho, hsyn _ hsp⟩
      · cases mem_singleton.mp hsp
        cases hivs.eq_of_vreg hI hw (ho.symm.trans horig)
        exact .inr (.inr rfl)
  · rintro (⟨hx, hne⟩ | rfl | rfl)
    · cases hx with
      | whole hI hno =>
        refine .whole hI fun sp' hsp' => ?_
        rcases mem_append.mp hsp' with hsp' | hsp'
        · exact hno sp' hsp'
        · cases mem_singleton.mp hsp'
          exact fun e => hne (e.symm.trans horig)
      | pre hI hsp ho => exact .pre hI (mem_append_left _ hsp) ho
      | post hI hsp ho => exact .post hI (mem_append_left _ hsp) ho
    · exact .pre hw (mem_append_right _ (mem_singleton_self _)) horig
    · exact .post hw (mem_append_right _ (mem_singleton_self _)) horig

theorem perm_insertSorted (w l) : (insertSorted w l).Perm (w :: l) := by
  refine perm_middle.trans ?_
  rw [takeWhile_append_dropWhile]

theorem sorted_insertSorted {l : List LiveInterval} (h : l.Pairwise LiveInterval.before) (w) :
    (insertSorted w l).Pairwise LiveInterval.before := by
  induction l with
  | nil => exact pairwise_singleton ..
  | cons x l ih =>
    obtain ⟨hx, hl⟩ := pairwise_cons.mp h
    by_cases hb : x.before w
    · have : insertSorted w (x :: l) = x :: insertSorted w l := by simp [insertSorted, hb]
      rw [this, pairwise_cons]
      refine ⟨fun y hy => ?_, ih hl⟩
      rcases mem_cons.mp ((perm_insertSorted w l).mem_iff.mp hy) with rfl | hy
      · exact hb
      · exact hx y hy
    · have : insertSorted w (x :: l) = w :: x :: l := by simp [insertSorted, hb]
      have hw : w.before x := (Std.Total.total (r := LiveInterval.before) x w).resolve_left hb
      rw [this, pairwise_cons]
      refine ⟨fun y hy => ?_, h⟩
      rcases mem_cons.mp hy with rfl | hy
      · exact hw
      · exact Trans.trans hw (hx y hy)

theorem Queue.insert {P P' : LiveInterval → Prop} {Placed : VRegId → Prop} {l pos} {x : LiveInterval}
    (h : Queue P Placed l pos) (hpos : pos ≤ x.start) (hP : ∀ y, P' y ↔ P y ∨ y = x)
    (hnew : ∀ y, P y → y.vreg ≠ x.vreg) : Queue P' Placed (insertSorted x l) pos := by
  have hmem : ∀ y, y ∈ insertSorted x l ↔ y = x ∨ y ∈ l := fun y => (perm_insertSorted ..).mem_iff.trans mem_cons
  constructor
  case sorted => exact sorted_insertSorted h.sorted x
  case later => exact fun y hy => ((hmem y).mp hy).elim (· ▸ hpos) (h.later y)
  case nodup =>
    refine ((perm_insertSorted ..).map _).nodup_iff.mpr (nodup_cons.mpr ⟨fun hx => ?_, h.nodup⟩)
    obtain ⟨y, hy, he⟩ := List.mem_map.mp hx
    exact hnew y (h.pending y hy) he
  case pending => exact fun y hy => (hP y).mpr (((hmem y).mp hy).symm.imp_left (h.pending y))
  case unplaced =>
    intro y hy hpl
    rcases (hmem y).mp hy with rfl | hy
    · obtain ⟨z, hz, he⟩ := h.known _ hpl
      exact hnew z hz he
    · exact h.unplaced y hy hpl
  case placed =>
    intro y hy
    rcases (hP y).mp hy with hy | rfl
    · exact (h.placed y hy).imp_left (map_subset _ (fun z hz => (hmem z).mpr (.inr hz)) ·)
    · exact .inl (List.mem_map_of_mem ((hmem _).mpr (.inl rfl)))
  case known =>
    intro v hv
    obtain ⟨y, hy, rfl⟩ := h.known v hv
    exact ⟨y, (hP y).mpr (.inl hy), rfl⟩

end Split

def Scan.newSplit (s : Scan) (w : LiveInterval) (callPos : Nat) : SplitInProgress :=
  { synthetic := s.mf.vregs.length, orig := w.vreg, callPos := callPos
    bridgeSlot := (s.mf.allocLocal (spillSlotSize w.cls)).1 }

theorem Scan.expired_of_ne {s : Scan} {f} (hf : f ≠ w.cls.isFp) : s.expired w f = s.bank f :=
  if_neg hf

theorem MachineFunction.classOf_newVReg (mf : MachineFunction) (cls) {v} (hv : v < mf.vregs.length) :
    v < (mf.newVReg cls).2.vregs.length ∧ (mf.newVReg cls).2.classOf v = mf.classOf v := by
  rw [classOf, classOf, newVReg, getElem?_append_left hv,
    length_append]
  exact ⟨Nat.lt_add_right _ hv, rfl⟩

theorem MachineFunction.classOf_newVReg_self (mf : MachineFunction) (cls) :
    mf.vregs.length < (mf.newVReg cls).2.vregs.length ∧ (mf.newVReg cls).2.classOf mf.vregs.length = cls := by
  simp [classOf, newVReg]

/-- An interval with a call inside may come up twice. -/
def crossings (mf : MachineFunction) (worklist : List LiveInterval) : Nat :=
  (worklist.map fun x => if classifyCallCrossing mf.callPositions x.start x.stop = .none then 1 else 2).sum

section Round

variable {spl : List LiveInterval} {s : Scan} {pos : Nat}
  {rest : List LiveInterval} (hivs : Intervals mf ivs) (hspl : Intervals mf spl) (h : s.Inv mf ivs spl pos)
  (hw : s.worklist = w :: rest)

include h hw

theorem Scan.Inv.expired (f) :
    (s.expired w f).Ok mf.callPositions f (GivenIn (Part ivs s.splitsInProgress) s.assignments f) w.start := by
  have hpos := (h.shape.head hw).2.2
  unfold Scan.expired
  split
  · exact (h.banks f).expire hpos
  · exact (h.banks f).later hpos

theorem Scan.Inv.next : Part ivs s.splitsInProgress w ∧ s.assignments w.vreg = none ∧ s.spills w.vreg = none := by
  obtain ⟨hpart, hnot, -⟩ := h.shape.head hw
  rw [Scan.Placed, not_or] at hnot
  exact ⟨hpart, not_isSome_iff_eq_none.mp hnot.1, not_isSome_iff_eq_none.mp hnot.2⟩

omit hw in
theorem Scan.Inv.synthetic_lt {sp} (hsp : sp ∈ s.splitsInProgress) :
    sp.synthetic < s.mf.vregs.length := by
  obtain ⟨I, hI, ho, -⟩ := h.shape.splits.crossed sp hsp
  exact (h.shape.typed _ (.post hI hsp ho)).1

include hivs

omit hw in
theorem Scan.Inv.part_newSplit (hI : w ∈ ivs) (hunsplit : ∀ sp ∈ s.splitsInProgress, sp.orig ≠ w.vreg) {callPos x} :
    Part ivs (s.splitsInProgress ++ [s.newSplit w callPos]) x ↔
      (Part ivs s.splitsInProgress x ∧ x.vreg ≠ w.vreg) ∨ x = { w with stop := callPos - 1 } ∨
        x = w.postHalf s.mf.vregs.length callPos :=
  part_append hivs hI hunsplit rfl fun _ hsp => h.shape.splits.synthetic_ne hivs hsp hI

theorem Scan.Inv.assign {reg b} (ht : (s.expired w w.cls.isFp).Takes reg b)
    (hsafe : ∀ c ∈ mf.callPositions, w.start < c → c < w.stop → isCalleeSaved w.cls.isFp reg = true) :
    ((s.pop rest).assign w reg b).Inv mf ivs spl w.start := by
  obtain ⟨hpart, hnone, hspill⟩ := h.next hw
  constructor
  case shape =>
    refine h.shape.place hivs hw (by simp [Scan.assign]) (by simp [Scan.assign]) (by simp [Scan.assign])
      (by simp [Scan.assign]) (fun v => ?_) (fun v => ?_) fun v p hp => ?_
    · by_cases hv : v = w.vreg <;> simp [Scan.Placed, Scan.assign, hv]
    · by_cases hv : v = w.vreg
      · exact .inr (by simp [Scan.assign, hv, hspill])
      · simpa [Scan.assign, hv] using h.shape.exclusive v
    · by_cases hv : v = w.vreg
      · exact .inr ⟨hv, reg, by simpa [Scan.assign, hv] using hp.symm⟩
      · exact .inl (by simpa [Scan.assign, hv] using hp)
  case banks =>
    simp only [Scan.assign, Scan.setBank_splits]
    exact banks_give (h.expired hw) (Scan.bank_setBank_self ..)
      (fun f hf => (Scan.bank_setBank_of_ne _ _ _ hf).trans (Scan.expired_of_ne hf).symm) ht.active
      (ht.perm.nodup_iff.mp (h.expired hw _).nodup) ht.caller ht.callee hnone
      (fun f x r => givenIn_update hpart (fun x hx he => hx.unique hivs h.shape.splits hpart he) hnone fun x _ => Iff.rfl)
      hsafe
  case slots => apply h.slots.congr <;> simp [Scan.assign]

theorem Scan.Inv.released {reg stop} {x : LiveInterval}
    (hlast : (s.expired w w.cls.isFp).active.getLast? = some (reg, stop, x.vreg))
    (hx : GivenIn (Part ivs s.splitsInProgress) s.assignments w.cls.isFp x reg) (f) :
    (if f = w.cls.isFp then { s.expired w f with active := (s.expired w f).active.dropLast } else s.expired w f).Ok
      mf.callPositions f (GivenIn (Part ivs s.splitsInProgress) (Function.update s.assignments x.vreg none) f) w.start := by
  have hunique := fun x y (hx : Part ivs s.splitsInProgress x) hy he => hx.unique hivs h.shape.splits (y := y) hy he
  split
  · next hf =>
    subst hf
    have hdrop := (h.expired hw w.cls.isFp).dropLast hlast fun _ _ _ _ hx hy he => givenIn_functional hunique hx hy he
    exact hdrop.1.congr fun y r => givenIn_remove
  · next hf =>
    refine (h.expired hw f).congr fun y r => givenIn_remove.trans (and_iff_left_of_imp fun hy he => hf ?_)
    cases hunique y x hy.1 hx.1 he
    exact hy.2.1.symm.trans hx.2.1

include hspl

theorem Scan.Inv.spillCurrent :
    ((s.pop rest).spillCurrent w (s.expired w w.cls.isFp)).Inv mf ivs spl w.start := by
  obtain ⟨hpart, hnone, hspill⟩ := h.next hw
  obtain ⟨off, plan, mf', hslot⟩ : ∃ off plan mf', s.slotFor w.vreg w.cls = (off, plan, mf') := ⟨_, _, _, rfl⟩
  obtain ⟨hslots, hblocks, hvregs⟩ := h.slots.spill hspl h.shape.splits ((h.shape.typed w hpart).2.symm ▸ hslot)
  have heq : (s.pop rest).spillCurrent w (s.expired w w.cls.isFp) =
      { (s.pop rest).setBank w.cls.isFp (s.expired w w.cls.isFp) with
        mf := mf', plan := plan, spills := Function.update s.spills w.vreg (some off) } := by
    simp only [Scan.spillCurrent]
    rw [show (s.pop rest).slotFor w.vreg w.cls = (off, plan, mf') from hslot]
  rw [heq]
  constructor
  case shape =>
    refine h.shape.place hivs hw hblocks hvregs (by simp) (by simp) (fun v => ?_) (fun v => ?_) fun v p hp => ?_
    · by_cases hv : v = w.vreg <;> simp [Scan.Placed, hv]
    · by_cases hv : v = w.vreg
      · exact .inl (by simp [hv, hnone])
      · simpa [hv] using h.shape.exclusive v
    · exact .inl (by simpa using hp)
  case banks =>
    intro f
    have hbank := h.expired hw f
    rw [← s.bank_setBank_expired w rest f] at hbank
    simp only [Scan.setBank_splits, setBank_assignments]
    exact hbank
  case slots => exact hslots.congr rfl rfl (by simp) rfl

/-- A holder that ends later gives way. The calls inside the interval are also inside the holder's. -/
theorem Scan.Inv.evict {reg stop victim}
    (hlast : (s.expired w w.cls.isFp).active.getLast? = some (reg, stop, victim)) (hstop : w.stop < stop) :
    ((s.pop rest).evict w (s.expired w w.cls.isFp) reg victim).Inv mf ivs spl w.start := by
  obtain ⟨hpart, hnone, hspill⟩ := h.next hw
  have hbank := h.expired hw w.cls.isFp
  obtain ⟨x, hx, rfl, rfl⟩ := hbank.active _ (mem_of_getLast? hlast)
  have hvictim : s.assignments x.vreg ≠ none := fun e => by
    have := hx.2.2
    rw [e] at this
    cases this
  have hne : x.vreg ≠ w.vreg := fun e => hvictim (e ▸ hnone)
  obtain ⟨off, plan, mf', hslot⟩ : ∃ off plan mf', s.slotFor x.vreg (s.mf.classOf x.vreg) = (off, plan, mf') := ⟨_, _, _, rfl⟩
  obtain ⟨hslots, hblocks, hvregs⟩ := h.slots.spill hspl h.shape.splits hslot
  have heq : (s.pop rest).evict w (s.expired w w.cls.isFp) reg x.vreg =
      { (s.pop rest).setBank w.cls.isFp
          (({ s.expired w w.cls.isFp with active := (s.expired w w.cls.isFp).active.dropLast } : Bank).hold reg w.stop
            w.vreg) with
        mf := mf', plan := plan, spills := Function.update s.spills x.vreg (some off)
        assignments := Function.update (Function.update s.assignments x.vreg none) w.vreg
          (some (physFor w.cls reg)) } := by
    simp only [Scan.evict]
    rw [show (s.pop rest).slotFor x.vreg (s.mf.classOf x.vreg) = (off, plan, mf') from hslot]
  rw [heq]
  constructor
  case shape =>
    refine h.shape.place hivs hw hblocks hvregs (by simp) (by simp) (fun v => ?_) (fun v => ?_) fun v p hp => ?_
    · by_cases hv : v = w.vreg
      · simp [Scan.Placed, hv]
      · by_cases hv' : v = x.vreg
        · simp [Scan.Placed, hv', isSome_iff_ne_none.mpr hvictim]
        · simp [Scan.Placed, hv, hv']
    · by_cases hv : v = w.vreg
      · exact .inr (by simp [hv, hne.symm, hspill])
      · by_cases hv' : v = x.vreg
        · exact .inl (by simp [hv', hne])
        · simpa [hv, hv'] using h.shape.exclusive v
    · by_cases hv : v = w.vreg
      · exact .inr ⟨hv, reg, by simpa [hv] using hp.symm⟩
      · by_cases hv' : v = x.vreg
        · simp [hv', hne] at hp
        · exact .inl (by simpa [hv, hv'] using hp)
  case banks =>
    have hnodup := (hbank.dropLast hlast fun _ _ _ _ hx hy he => givenIn_functional
      (fun _ _ hx hy he => hx.unique hivs h.shape.splits hy he) hx hy he).2
    have hnone' : Function.update s.assignments x.vreg none w.vreg = none := by
      rw [update_of_ne hne.symm, hnone]
    have hsafe : ∀ c ∈ mf.callPositions, w.start < c → c < w.stop → isCalleeSaved w.cls.isFp reg = true :=
      fun c hc hlo hhi => hbank.safe x reg hx c hc ((hbank.started x reg hx).trans_lt hlo) (hhi.trans hstop)
    simp only [Scan.setBank_splits]
    refine banks_give (h.released hivs hw hlast hx) (Scan.bank_setBank_self ..) (fun f hf => ?_) (by simp) hnodup (by simp)
      (by simp) hnone' (fun f y r => givenIn_update hpart (fun y hy he => hy.unique hivs h.shape.splits hpart he) hnone'
        fun _ _ => Iff.rfl) hsafe
    rw [if_neg hf]
    exact (Scan.bank_setBank_of_ne _ _ _ hf).trans (Scan.expired_of_ne hf).symm
  case slots => exact hslots.congr rfl rfl (by simp) rfl

omit hspl in
theorem Scan.Inv.splitShape {callPos} (reg b) (hI : w ∈ ivs)
    (hunsplit : ∀ sp ∈ s.splitsInProgress, sp.orig ≠ w.vreg)
    (hcall : classifyCallCrossing mf.callPositions w.start w.stop = .one callPos)
    (hreal : mf.realCrosses w.vreg (some callPos) = true) :
    ((s.pop rest).split w b callPos reg).Shape mf ivs w.start := by
  obtain ⟨hpart, hnone, hspill⟩ := h.next hw
  obtain ⟨-, hlo, -, -⟩ := classify_one mf.callPositions_pairwise hcall
  have hlt : ∀ x, Part ivs s.splitsInProgress x → x.vreg < s.mf.vregs.length := fun x hx => (h.shape.typed x hx).1
  have hparts : ∀ x, Part ivs (s.splitsInProgress ++ [s.newSplit w callPos]) x ↔ _ := fun x =>
    h.part_newSplit hivs hI hunsplit
  have hold : ∀ x, Part ivs s.splitsInProgress x → _ := fun x hx =>
    ((s.mf.allocLocal (spillSlotSize w.cls)).2.classOf_newVReg w.cls (hlt x hx)).imp id fun e => e.trans (h.shape.typed x hx).2
  constructor
  case toQueue =>
    refine ((hw ▸ h.shape.toQueue).next (x := { w with stop := callPos - 1 }) rfl (fun _ => Iff.rfl) fun v => ?_).insert
      (hlo.le.trans (Nat.le_succ _)) (fun x => (hparts x).trans or_assoc.symm) ?_
    · by_cases hv : v = w.vreg <;> simp [Scan.Placed, Scan.split, hv]
    · rintro x (⟨hx, -⟩ | rfl)
      · exact (hlt x hx).ne
      · exact (hlt w hpart).ne
  case blocks => exact h.shape.blocks
  case vregs => exact h.shape.vregs.trans (by simp [Scan.split, newVReg, allocLocal])
  case splits =>
    refine h.shape.splits.append hI hunsplit rfl hcall hreal h.shape.vregs fun sp hsp => ?_
    exact (h.synthetic_lt hsp).ne
  case typed =>
    intro x hx
    rcases (hparts x).mp hx with ⟨hx, -⟩ | rfl | rfl
    · exact hold x hx
    · exact hold w hpart
    · exact (s.mf.allocLocal (spillSlotSize w.cls)).2.classOf_newVReg_self w.cls
  case exclusive =>
    intro v
    by_cases hv : v = w.vreg
    · exact .inr (by simp [Scan.split, hv, hspill])
    · simpa [Scan.split, hv] using h.shape.exclusive v
  case named =>
    intro x hx p hp
    rcases (hparts x).mp hx with ⟨hx, hne⟩ | rfl | rfl
    · exact h.shape.named x hx p (by simpa [Scan.split, hne] using hp)
    · exact ⟨reg, by simpa [Scan.split] using hp.symm⟩
    · have hnew : s.mf.vregs.length ≠ w.vreg := (hlt w hpart).ne'
      have hp : s.assignments s.mf.vregs.length = some p := by simpa [Scan.split, LiveInterval.postHalf, hnew] using hp
      exact absurd (h.shape.lt_of_placed (.inl (isSome_of_eq_some hp))) (Nat.lt_irrefl _)

omit hspl in
theorem Scan.Inv.split {callPos reg} (hcall : classifyCallCrossing mf.callPositions w.start w.stop = .one callPos)
    (hreal : mf.realCrosses w.vreg (some callPos) = true) (hreg : reg ∈ (s.expired w w.cls.isFp).caller) :
    ((s.pop rest).split w (s.expired w w.cls.isFp) callPos reg).Inv mf ivs spl w.start := by
  obtain ⟨hpart, hnone, hspill⟩ := h.next hw
  obtain ⟨hmem, hlo, hhi, honly⟩ := classify_one mf.callPositions_pairwise hcall
  obtain ⟨hI, hunsplit⟩ := hpart.crossing hivs h.shape.splits hmem hlo hhi
  have hshape := h.splitShape hivs hw reg (s.expired w w.cls.isFp) hI hunsplit hcall hreal
  have hparts : ∀ x, Part ivs (s.splitsInProgress ++ [s.newSplit w callPos]) x ↔ _ := fun x =>
    h.part_newSplit hivs hI hunsplit
  constructor
  case shape => exact hshape
  case banks =>
    have ht := Bank.takes_caller (perm_cons_erase hreg)
    have hexp := h.expired hw
    refine banks_give (w := { w with stop := callPos - 1 }) hexp (Scan.bank_setBank_self ..) (fun f hf => ?_)
      ht.active (ht.perm.nodup_iff.mp (h.expired hw _).nodup) ht.caller ht.callee hnone
      (fun f x r => givenIn_update ((hparts _).mpr (.inr (.inl rfl)))
        (fun x hx he => hx.unique hivs hshape.splits ((hparts _).mpr (.inr (.inl rfl))) he) hnone fun x hx => ?_)
      fun c hc hlo' hhi' => ?_
    · exact (Scan.bank_setBank_of_ne _ _ _ hf).trans (Scan.expired_of_ne hf).symm
    · have hne : x.vreg ≠ w.vreg := fun e => by simp [e, hnone] at hx
      rw [hparts]
      refine ⟨fun hx' => ?_, fun hx' => .inl ⟨hx', hne⟩⟩
      rcases hx' with hx' | rfl | rfl
      · exact hx'.1
      · exact absurd rfl hne
      · exact absurd (h.shape.lt_of_placed (.inl hx)) (Nat.lt_irrefl _)
    · have hhi' : c < callPos - 1 := hhi'
      have := honly c hc hlo' (by omega)
      omega
  case slots =>
    have hunplaced : ¬ s.Placed s.mf.vregs.length := fun hpl => absurd (h.shape.lt_of_placed hpl) (Nat.lt_irrefl _)
    have hcls : ∀ v, v < s.mf.vregs.length → _ := fun v hv =>
      ((s.mf.allocLocal (spillSlotSize w.cls)).2.classOf_newVReg w.cls hv).2
    constructor
    case sound => simpa [Scan.split] using h.slots.sound
    case reserved =>
      refine h.slots.reserved.alloc (.vreg s.mf.vregs.length) _ fun o slot ho => ?_
      cases o with
      | color c => exact .inl (by simpa [Scan.split, Scan.Owns] using ho)
      | vreg u =>
        obtain ⟨hsize, ⟨sp, hsp, rfl, hslot⟩ | ⟨hcolor, hnot, hoff⟩⟩ := ho
        · rcases mem_append.mp hsp with hsp | hsp
          · exact .inl ⟨hsize.trans (congrArg _ (hcls _ (h.synthetic_lt hsp))), .inl ⟨sp, hsp, rfl, hslot⟩⟩
          · cases mem_singleton.mp hsp
            refine .inr ⟨rfl, FrameSlot.ext hslot.symm (hsize.trans (congrArg _ ?_))⟩
            exact ((s.mf.allocLocal (spillSlotSize w.cls)).2.classOf_newVReg_self w.cls).2
        · simp only [Scan.split, Scan.setBank_plan, Scan.setBank_spills] at hcolor hoff
          have hlt := h.shape.lt_of_placed (.inr (isSome_of_eq_some hoff))
          exact .inl ⟨hsize.trans (congrArg _ (hcls u hlt)),
            .inr ⟨hcolor, fun sp hsp => hnot sp (mem_append_left _ hsp), hoff⟩⟩
    case colored => simpa [Scan.split] using h.slots.colored
    case bridged =>
      intro sp hsp off hoff
      simp only [Scan.split, Scan.setBank_spills] at hoff
      rcases mem_append.mp hsp with hsp | hsp
      · exact h.slots.bridged sp hsp off hoff
      · cases mem_singleton.mp hsp
        exact absurd (.inr (isSome_of_eq_some hoff)) hunplaced

omit h hw hivs hspl in
theorem Scan.splitPoint_eq_some {crossing b callPos reg}
    (hp : splitPoint mf w crossing b = some (callPos, reg)) :
    crossing = .one callPos ∧ mf.realCrosses w.vreg (some callPos) = true ∧ reg ∈ b.caller := by
  unfold splitPoint at hp
  split at hp
  · split at hp
    · next hreal =>
      obtain ⟨r, hr, heq⟩ := map_eq_some_iff.mp hp
      cases heq
      exact ⟨rfl, hreal, mem_reverse.mp (mem_of_find?_eq_some hr)⟩
    · cases hp
  · cases hp

omit h hw hivs hspl in
theorem crossings_split {callPos} (n)
    (hcall : classifyCallCrossing mf.callPositions w.start w.stop = .one callPos) :
    crossings mf (insertSorted (w.postHalf n callPos) rest) < crossings mf (w :: rest) := by
  obtain ⟨-, hlo, -, honly⟩ := classify_one mf.callPositions_pairwise hcall
  have hpost : classifyCallCrossing mf.callPositions (w.postHalf n callPos).start (w.postHalf n callPos).stop = .none := by
    refine classify_eq_none mf.callPositions_pairwise fun c hc hin => ?_
    have hin : callPos + 1 < c ∧ c < w.stop := hin
    have := honly c hc (by omega) hin.2
    omega
  rw [crossings, ((perm_insertSorted ..).map _).sum_eq, crossings, map_cons, map_cons, sum_cons,
    sum_cons, if_pos hpost, hcall]
  simp

omit h hw hivs hspl in
theorem crossings_tail : crossings mf rest < crossings mf (w :: rest) := by
  rw [crossings, crossings, map_cons, sum_cons]
  split <;> omega

theorem Scan.Inv.process :
    (Scan.process mf mf.callPositions (s.pop rest) w).Inv mf ivs spl w.start ∧
      crossings mf (Scan.process mf mf.callPositions (s.pop rest) w).worklist < crossings mf s.worklist := by
  have hbank : ((s.pop rest).bank w.cls.isFp).expire w.cls.isFp w.start = s.expired w w.cls.isFp :=
    (if_pos rfl).symm
  rw [hw]
  unfold Scan.process
  rw [hbank]
  dsimp only
  split
  · next reg b hchoose =>
    obtain ⟨ht, hcallee⟩ := Bank.choose_takes hchoose
    refine ⟨h.assign hivs hw ht fun c hc hlo hhi => ?_, ?_⟩
    · refine (h.expired hw _).callee reg (hcallee (bne_iff_ne.mpr fun hnone => ?_))
      exact classify_none mf.callPositions_pairwise hnone hc ⟨hlo, hhi⟩
    · simpa [Scan.assign] using crossings_tail
  · split
    · next callPos reg hpoint =>
      obtain ⟨hcall, hreal, hreg⟩ := splitPoint_eq_some hpoint
      exact ⟨h.split hivs hw hcall hreal hreg, crossings_split _ hcall⟩
    · unfold spill
      split
      · next reg stop victim hlast =>
        split
        · next hstop => exact ⟨h.evict hivs hspl hw hlast hstop, by simpa [Scan.evict] using crossings_tail⟩
        · exact ⟨h.spillCurrent hivs hspl hw, by simpa [Scan.spillCurrent] using crossings_tail⟩
      · exact ⟨h.spillCurrent hivs hspl hw, by simpa [Scan.spillCurrent] using crossings_tail⟩

end Round

/-! ## Calls and the callee's registers -/

section Saved

variable {spl rest : List LiveInterval} {s s' : Scan} {pos : Nat}

/-- The callee-saved registers that have been given out are on the list of those to save. -/
def Scan.Saves (s : Scan) : Prop :=
  ∀ v p f r, s.assignments v = some p → p.number f = some r → isCalleeSaved f r = true →
    (if f then .fp r else .gp r) ∈ s.calleeSavedUsed

theorem Scan.Saves.place (h : s.Saves) (w : LiveInterval) (reg) (hold : s.calleeSavedUsed ⊆ s'.calleeSavedUsed)
    (hassign : ∀ v p, s'.assignments v = some p → s.assignments v = some p ∨ some (physFor w.cls reg) = some p)
    (hnew : isCalleeSaved w.cls.isFp reg = true → (if w.cls.isFp then .fp reg else .gp reg) ∈ s'.calleeSavedUsed) :
    s'.Saves := by
  intro v p f r hp hr hc
  rcases hassign v p hp with hp | hp
  · exact hold (h v p f r hp hr hc)
  · obtain rfl := some.inj hp
    obtain ⟨rfl, rfl⟩ := number_physFor_eq hr
    exact hnew hc

theorem update_eq_some {a : VRegId → Option PhysReg} {v u o p} (h : Function.update a v o u = some p) :
    a u = some p ∨ o = some p := by
  rw [Function.update_apply] at h
  split at h
  · exact .inr h
  · exact .inl h

theorem Scan.Inv.saves_process (h : s.Inv mf ivs spl pos) (hw : s.worklist = w :: rest) (hs : s.Saves) :
    (Scan.process mf mf.callPositions (s.pop rest) w).Saves := by
  have hbank : ((s.pop rest).bank w.cls.isFp).expire w.cls.isFp w.start = s.expired w w.cls.isFp :=
    (if_pos rfl).symm
  have hkeep (b) : s.calleeSavedUsed ⊆ ((s.pop rest).setBank w.cls.isFp b).calleeSavedUsed := by
    cases w.cls.isFp <;> exact Subset.refl _
  have hspill (b) : ((s.pop rest).spillCurrent w b).Saves :=
    fun v p f r hp hr hc => hkeep b (hs v p f r (by simpa [Scan.spillCurrent] using hp) hr hc)
  unfold Scan.process
  rw [hbank]
  dsimp only
  split
  · next reg b _ =>
    refine hs.place w reg ?_ (fun v p => update_eq_some) ?_ <;> dsimp only [Scan.assign] <;> grind
  · split
    · next callPos reg hpoint =>
      refine hs.place w reg (hkeep _) (fun v p => update_eq_some) fun hc => ?_
      obtain ⟨-, -, hreg⟩ := splitPoint_eq_some hpoint
      rw [(h.expired hw _).caller reg hreg] at hc
      cases hc
    · unfold spill
      split
      · next reg stop victim hlast =>
        split
        · -- the register was assigned to the one that gives way
          obtain ⟨x, ⟨-, hcls, hx⟩, -⟩ := (h.expired hw _).active _ (mem_of_getLast? hlast)
          refine hs.place w reg (hkeep _) (fun v p hp => ?_) fun hc => hkeep _ (hs _ _ _ reg hx ?_ hc)
          · rcases update_eq_some hp with hp | hp
            · exact .inl ((update_eq_some hp).resolve_right (by simp))
            · exact .inr hp
          · rw [← hcls]
            cases x.cls <;> rfl
        · exact hspill _
      · exact hspill _

end Saved

/-! ## The whole scan -/

section Run

variable {spl : List LiveInterval}

theorem part_nil {w} : Part ivs [] w ↔ w ∈ ivs := by
  refine ⟨fun h => ?_, fun h => .whole h fun _ hsp => nomatch hsp⟩
  cases h with
  | whole hI _ => exact hI
  | pre _ hsp _ => cases hsp
  | post _ hsp _ => cases hsp

theorem Scan.initial_inv (hivs : Intervals mf ivs) (hspl : Intervals mf spl) :
    (initial mf spl ivs).Inv mf ivs spl 0 where
  shape :=
    { blocks := rfl
      vregs := le_rfl
      splits := ⟨by simp [initial], by simp [initial], nodup_nil, nodup_nil⟩
      typed w hw := ⟨hivs.declared w (part_nil.mp hw), (hivs.cls w (part_nil.mp hw)).symm⟩
      sorted := hivs.sorted
      later _ _ := Nat.zero_le _
      nodup := hivs.nodup
      pending w hw := part_nil.mpr hw
      unplaced := by simp [initial, Scan.Placed]
      placed w hw := .inl (List.mem_map_of_mem (part_nil.mp hw))
      known := by simp [initial, Scan.Placed]
      exclusive _ := .inl rfl
      named := by simp [initial] }
  banks f := by
    have hbank : (initial mf spl ivs).bank f = .initial f := by cases f <;> rfl
    rw [hbank]
    exact (Bank.initial_ok mf.callPositions f).congr fun w r => by simp [GivenIn, initial]
  slots :=
    { sound := SpillSlotPlan.new_sound hspl
      reserved := by
        refine Reserved.mono (R := fun _ _ => False) ⟨by simp, by simp, by simp⟩ fun o slot ho => ?_
        cases o <;> simp [Scan.Owns, initial, SpillSlotPlan.new] at ho
      colored := by simp [initial]
      bridged := by simp [initial] }

theorem crossings_le (l) : crossings mf l ≤ 2 * l.length := by
  induction l with
  | nil => rfl
  | cons x l ih =>
    rw [crossings, map_cons, sum_cons, length_cons]
    rw [crossings] at ih
    split <;> omega

theorem scan_run (hivs : Intervals mf ivs) (hspl : Intervals mf spl) :
    ∃ s pos, exhaust (Scan.step mf mf.callPositions) (2 * ivs.length + 1) (initial mf spl ivs) = some s ∧
      s.Inv mf ivs spl pos ∧ s.Saves ∧ s.worklist = [] := by
  have hround : ∀ s s' : Scan, (∃ pos, s.Inv mf ivs spl pos ∧ s.Saves) → Scan.step mf mf.callPositions s = some s' →
      (∃ pos, s'.Inv mf ivs spl pos ∧ s'.Saves) ∧ crossings mf s'.worklist < crossings mf s.worklist := by
    rintro s s' ⟨pos, h, hs⟩ hstep
    unfold Scan.step at hstep
    split at hstep
    · cases hstep
    · next w rest hw =>
      cases hstep
      have := h.process hivs hspl hw
      exact ⟨⟨_, this.1, h.saves_process hw hs⟩, this.2⟩
  obtain ⟨s, hrun, ⟨pos, h, hs⟩, hdone⟩ := exhaust_spec hround ⟨0, initial_inv hivs hspl, nofun⟩
    (Nat.lt_succ_of_le (crossings_le ivs))
  refine ⟨s, pos, hrun, h, hs, ?_⟩
  unfold Scan.step at hdone
  split at hdone
  · next hnil => exact hnil
  · cases hdone

theorem linearScan_run (mf : MachineFunction) :
    ∃ liveness spillLiveness pos, ∃ s : Scan, computeLiveness mf = some liveness ∧
      computeSpillLiveness mf = some spillLiveness ∧ linearScan mf liveness = some (s.mf, s.finish mf.callPositions) ∧
      Intervals mf liveness.intervals ∧ Intervals mf spillLiveness.intervals ∧
      s.Inv mf liveness.intervals spillLiveness.intervals pos ∧ s.Saves ∧ s.worklist = [] := by
  obtain ⟨liveness, hlive⟩ := computeLivenessImpl_isSome true mf
  obtain ⟨spillLiveness, hspillLive⟩ := computeLivenessImpl_isSome false mf
  obtain ⟨hivs, hcalls⟩ := computeLivenessImpl_spec hlive
  obtain ⟨hspl, -⟩ := computeLivenessImpl_spec hspillLive
  obtain ⟨s, pos, hrun, h⟩ := scan_run hivs hspl
  refine ⟨liveness, spillLiveness, pos, s, hlive, hspillLive, ?_, hivs, hspl, h⟩
  rw [linearScan, computeSpillLiveness, hspillLive, bind_some, hcalls, hrun]
  rfl

end Run

end Armfortas.Codegen
