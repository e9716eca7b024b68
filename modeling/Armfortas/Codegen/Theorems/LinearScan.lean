import Armfortas.Codegen.Lemmas.ScanRun

/-! Registers are never shared by intervals with a common position, nothing is left without a place, and spilled
registers that live at the same time have slots of their own. -/
namespace Armfortas.Codegen
open Lib List Option Scan

/-- The same register of the machine, under whatever width. -/
def PhysReg.Same (p q : PhysReg) : Prop := ∃ isFp n, p.number isFp = some n ∧ q.number isFp = some n

/-- An interval, or a half of a split one, that has been given a register. -/
inductive AllocResult.Places (ivs : List LiveInterval) (res : AllocResult) : LiveInterval → PhysReg → Prop
  | whole {I : LiveInterval} {p : PhysReg} (hI : I ∈ ivs) (hp : res.assignments I.vreg = some p)
      (hno : ∀ r ∈ res.splitRecords, r.vreg ≠ I.vreg) : Places ivs res I p
  | pre {I : LiveInterval} {r : SplitRecord} (hI : I ∈ ivs) (hr : r ∈ res.splitRecords) (h : r.vreg = I.vreg) :
      Places ivs res { I with stop := r.callPosition - 1 } r.prePhys
  | post {I : LiveInterval} {r : SplitRecord} {p : PhysReg} (hI : I ∈ ivs) (hr : r ∈ res.splitRecords)
      (h : r.vreg = I.vreg) (hp : r.post = .allocated p) : Places ivs res { I with start := r.callPosition + 1 } p

/-- A register that is kept in the frame, throughout or around a call. -/
inductive AllocResult.SpilledTo (res : AllocResult) : VRegId → Int → Prop
  | spill {v : VRegId} {off : Int} (h : res.spills v = some off) : SpilledTo res v off
  | bridge {r : SplitRecord} (hr : r ∈ res.splitRecords) : SpilledTo res r.vreg r.bridgeSlot

section Finish

variable {mf : MachineFunction} {ivs spl : List LiveInterval} {s : Scan} {pos : Nat}

theorem Scan.halves_eq_some {sp pre post} (h : s.halves sp = some (pre, post)) :
    s.assignments sp.orig = some pre ∧ ∀ p, post = .allocated p → s.assignments sp.synthetic = some p := by
  unfold halves at h
  split at h
  · cases h
  · next hpre =>
    split at h
    · next hpost =>
      cases h
      exact ⟨hpre, fun p hp => by cases hp; exact hpost⟩
    · split at h
      · cases h
        exact ⟨hpre, fun p hp => nomatch hp⟩
      · cases h

theorem Scan.mem_records {calls r} (h : r ∈ (s.finish calls).splitRecords) :
    ∃ sp ∈ s.splitsInProgress, r.vreg = sp.orig ∧ r.callPosition = sp.callPos ∧ r.bridgeSlot = sp.bridgeSlot ∧
      s.assignments sp.orig = some r.prePhys ∧ ∀ p, r.post = .allocated p → s.assignments sp.synthetic = some p := by
  obtain ⟨sp, hsp, hrec⟩ := mem_filterMap.mp ((mem_insertionSort _).mp h)
  obtain ⟨halves, hhalves, hrec⟩ := bind_eq_some_iff.mp hrec
  obtain ⟨k, -, rfl⟩ := map_eq_some_iff.mp hrec
  have := halves_eq_some hhalves
  exact ⟨sp, hsp, rfl, rfl, rfl, this.1, this.2⟩

section Placed

variable (hivs : Intervals mf ivs) (h : s.Inv mf ivs spl pos) (hdone : s.worklist = [])

include h

theorem Scan.Inv.finish_eq (hivs : Intervals mf ivs) {I} (hI : I ∈ ivs) :
    (s.finish mf.callPositions).assignments I.vreg = s.assignments I.vreg ∧
      (s.finish mf.callPositions).spills I.vreg = s.spills I.vreg := by
  have hrec : s.recorded I.vreg = false := by
    rw [recorded, List.any_eq_false]
    intro sp hsp
    simp [h.shape.splits.synthetic_ne hivs hsp hI]
  simp [finish, hrec]

include hdone

theorem Scan.Inv.all_placed {w} (hw : Part ivs s.splitsInProgress w) : s.Placed w.vreg := by
  rcases h.shape.placed w hw with hmem | hpl
  · simp [hdone] at hmem
  · exact hpl

theorem Scan.Inv.exists_record {sp} (hsp : sp ∈ s.splitsInProgress) {pre}
    (hpre : s.assignments sp.orig = some pre) : ∃ r ∈ (s.finish mf.callPositions).splitRecords, r.vreg = sp.orig := by
  obtain ⟨I, hI, ho, hcall, -⟩ := h.shape.splits.crossed sp hsp
  have hmem := (classify_one mf.callPositions_pairwise hcall).1
  obtain ⟨halves, hhalves⟩ : ∃ halves, s.halves sp = some halves := by
    unfold halves
    rw [hpre]
    dsimp only
    split
    · exact ⟨_, rfl⟩
    · next hnone =>
      have : s.Placed sp.synthetic := h.all_placed hdone (.post hI hsp ho)
      rw [if_pos (this.resolve_left (by simp [hnone]))]
      exact ⟨_, rfl⟩
  obtain ⟨k, hk⟩ := isSome_iff_exists.mp (isSome_idxOf?.mpr hmem)
  obtain ⟨r, hr, hv⟩ : ∃ r, s.record mf.callPositions sp = some r ∧ r.vreg = sp.orig := by
    refine ⟨{ vreg := sp.orig, callPosition := sp.callPos, callIndex := k, prePhys := halves.1, post := halves.2
              bridgeSlot := sp.bridgeSlot }, ?_, rfl⟩
    rw [record, hhalves, bind_some, hk]
    rfl
  exact ⟨r, (mem_insertionSort _).mpr (mem_filterMap.mpr ⟨sp, hsp, hr⟩), hv⟩

theorem Scan.Inv.part_of_places (hivs : Intervals mf ivs) {w p} (hw : (s.finish mf.callPositions).Places ivs w p) :
    ∃ x, Part ivs s.splitsInProgress x ∧ s.assignments x.vreg = some p ∧ x.start = w.start ∧ x.stop = w.stop ∧
      ((x = w ∧ w.vreg < mf.vregs.length) ∨ ∃ I ∈ ivs, ∃ sp ∈ s.splitsInProgress, sp.orig = I.vreg ∧
        x = I.postHalf sp.synthetic sp.callPos ∧ w = { I with start := sp.callPos + 1 }) := by
  cases hw with
  | whole hI hp hno =>
    rw [(h.finish_eq hivs hI).1] at hp
    refine ⟨w, .whole hI fun sp hsp ho => ?_, hp, rfl, rfl, .inl ⟨rfl, hivs.declared w hI⟩⟩
    obtain ⟨r, hr, hv⟩ := h.exists_record hdone hsp (ho ▸ hp)
    exact hno r hr (hv.trans ho)
  | @pre I r hI hr hv =>
    obtain ⟨sp, hsp, ho, hpos, -, hp, -⟩ := mem_records hr
    have ho' : sp.orig = I.vreg := ho.symm.trans hv
    exact ⟨_, hpos ▸ .pre hI hsp ho', ho' ▸ hp, rfl, rfl, .inl ⟨rfl, hivs.declared I hI⟩⟩
  | @post I r _ hI hr hv hp =>
    obtain ⟨sp, hsp, ho, hpos, -, -, hpost⟩ := mem_records hr
    have ho' : sp.orig = I.vreg := ho.symm.trans hv
    exact ⟨_, .post hI hsp ho', hpost p hp, by rw [hpos]; rfl, rfl, .inr ⟨I, hI, sp, hsp, ho', rfl, by rw [hpos]⟩⟩

theorem Scan.Inv.places_apart (hivs : Intervals mf ivs) {w w' p p'} (hw : (s.finish mf.callPositions).Places ivs w p)
    (hw' : (s.finish mf.callPositions).Places ivs w' p') (hne : w ≠ w') (hsame : p.Same p') : w.stop < w'.start ∨
    w'.stop < w.start := by
  obtain ⟨x, hx, hp, hstart, hstop, hform⟩ := h.part_of_places hdone hivs hw
  obtain ⟨x', hx', hp', hstart', hstop', hform'⟩ := h.part_of_places hdone hivs hw'
  have hxne : x ≠ x' := by
    rintro rfl
    rcases hform with ⟨rfl, hlt⟩ | ⟨I, hI, sp, hsp, ho, hxI, rfl⟩
    · rcases hform' with ⟨rfl, -⟩ | ⟨J, hJ, sp, hsp, -, hxJ, -⟩
      · exact hne rfl
      · exact absurd hlt (Nat.not_lt.mpr (hxJ ▸ h.shape.splits.fresh sp hsp))
    · rcases hform' with ⟨rfl, hlt⟩ | ⟨J, hJ, sp', hsp', ho', hxJ, rfl⟩
      · exact absurd hlt (Nat.not_lt.mpr (hxI ▸ h.shape.splits.fresh sp hsp))
      · have he := congrArg LiveInterval.vreg (hxI.symm.trans hxJ)
        cases h.shape.splits.eq_of_synthetic hsp hsp' he
        cases hivs.eq_of_vreg hI hJ (ho.symm.trans ho')
        exact hne rfl
  obtain ⟨isFp, n, hn, hn'⟩ := hsame
  obtain ⟨r, rfl⟩ := h.shape.named x hx p hp
  obtain ⟨r', rfl⟩ := h.shape.named x' hx' p' hp'
  obtain ⟨hcls, hr⟩ := number_physFor_eq hn
  obtain ⟨hcls', hr'⟩ := number_physFor_eq hn'
  rw [hr] at hp
  rw [hr'] at hp'
  have := (h.banks isFp).tidy.apart (x.holding n) ⟨x, n, ⟨hx, hcls, hp⟩, rfl⟩ (x'.holding n) ⟨x', n, ⟨hx', hcls', hp'⟩, rfl⟩
    rfl fun e => hxne (hx.unique hivs h.shape.splits hx' (congrArg (·.holder) e))
  rw [← hstart, ← hstop, ← hstart', ← hstop']
  exact this

omit hdone in
theorem Scan.Inv.unmentioned {v} (hv : ((s.finish mf.callPositions).assignments v).isSome)
    (hno : ∀ I ∈ ivs, I.vreg ≠ v) : ∀ b ∈ s.mf.blocks, ∀ i ∈ b.insts, v ∉ i.refs := by
  have hv' : (s.assignments v).isSome := by
    simp only [finish] at hv
    split at hv
    · cases hv
    · exact hv
  obtain ⟨x, hx, rfl⟩ := h.shape.known v (.inl hv')
  rw [h.shape.blocks]
  intro b hb i hi hmem
  have hlt := mf.declared b hb i hi _ hmem
  cases hx with
  | whole hI _ => exact hno _ hI rfl
  | pre hI _ _ => exact hno _ hI rfl
  | post _ hsp _ => exact absurd hlt (Nat.not_lt.mpr (h.shape.splits.fresh _ hsp))

theorem Scan.Inv.assigned_xor_spilled {I} (hI : I ∈ ivs) :
    Xor (s.assignments I.vreg).isSome (s.spills I.vreg).isSome := by
  have hpl : s.Placed I.vreg := by
    by_cases hsplit : ∃ sp ∈ s.splitsInProgress, sp.orig = I.vreg
    · obtain ⟨sp, hsp, ho⟩ := hsplit
      have := h.all_placed hdone (.pre hI hsp ho)
      exact this
    · exact h.all_placed hdone (.whole hI fun sp hsp ho => hsplit ⟨sp, hsp, ho⟩)
  rcases h.shape.exclusive I.vreg with hnone | hnone
  · exact .inr ⟨hpl.resolve_left (by simp [hnone]), by simp [hnone]⟩
  · exact .inl ⟨hpl.resolve_right (by simp [hnone]), by simp [hnone]⟩

end Placed

section Spilled

variable (hivs : Intervals mf ivs) (hspl : Intervals mf spl) (h : s.Inv mf ivs spl pos)

include hivs hspl h

theorem Scan.Inv.owner_of_spilledTo {J} (hJ : J ∈ spl) {off} (hoff : (s.finish mf.callPositions).SpilledTo J.vreg off) :
    ∃ o size, s.Owns o { offset := off, size := size } ∧ spillSlotSize J.cls ≤ size ∧
      ((∃ c, o = .color c ∧ s.plan.vregColors J.vreg = some c) ∨
        ∃ sp ∈ s.splitsInProgress, o = .vreg sp.synthetic ∧ sp.orig = J.vreg) := by
  generalize hv : J.vreg = v at hoff
  cases hoff with
  | spill hspill =>
    subst hv
    have hspill' : s.spills J.vreg = some off := by
      simp only [finish] at hspill
      split at hspill
      · cases hspill
      · exact hspill
    obtain ⟨c, size, hc, hsize, hle⟩ := h.slots.sound.fits J hJ
    exact ⟨.color c, size, ⟨h.slots.colored _ c off hc hspill', hsize⟩, hle, .inl ⟨c, rfl, hc⟩⟩
  | bridge hr =>
    obtain ⟨sp, hsp, ho, -, hslot, -⟩ := mem_records hr
    obtain ⟨I, hI, hoI, -⟩ := h.shape.splits.crossed sp hsp
    have hvreg : I.vreg = J.vreg := hoI.symm.trans (ho.symm.trans hv.symm)
    have hcls : s.mf.classOf sp.synthetic = J.cls := by
      rw [hspl.cls J hJ, ← hvreg, ← hivs.cls I hI]
      exact (h.shape.typed _ (.post hI hsp hoI)).2
    exact ⟨.vreg sp.synthetic, spillSlotSize (s.mf.classOf sp.synthetic), ⟨rfl, .inl ⟨sp, hsp, rfl, hslot.symm⟩⟩,
      (congrArg spillSlotSize hcls).ge, .inr ⟨sp, hsp, rfl, ho.symm⟩⟩

theorem Scan.Inv.spilled_disjoint {J J'} (hJ : J ∈ spl) (hJ' : J' ∈ spl) (hne : J.vreg ≠ J'.vreg)
    (hoverlap : J.start ≤ J'.stop ∧ J'.start ≤ J.stop) {off off'}
    (hoff : (s.finish mf.callPositions).SpilledTo J.vreg off) (hoff' : (s.finish mf.callPositions).SpilledTo J'.vreg off') :
    FrameSlot.Disjoint { offset := off, size := spillSlotSize J.cls } { offset := off', size := spillSlotSize J'.cls } := by
  obtain ⟨o, size, ho, hsize, hform⟩ := h.owner_of_spilledTo hivs hspl hJ hoff
  obtain ⟨o', size', ho', hsize', hform'⟩ := h.owner_of_spilledTo hivs hspl hJ' hoff'
  have hone : o ≠ o' := by
    rintro rfl
    rcases hform with ⟨c, rfl, hc⟩ | ⟨sp, hsp, rfl, horig⟩
    · rcases hform' with ⟨c', heq, hc'⟩ | ⟨sp, -, heq, -⟩
      · cases heq
        have := h.slots.sound.apart J hJ J' hJ' hne (hc.trans hc'.symm)
        omega
      · cases heq
    · rcases hform' with ⟨c', heq, -⟩ | ⟨sp', hsp', heq, horig'⟩
      · cases heq
      · cases h.shape.splits.eq_of_synthetic hsp hsp' (SlotOwner.vreg.inj heq)
        exact hne (horig.symm.trans horig')
  have := h.slots.reserved.disjoint o o' _ _ ho ho' hone
  unfold FrameSlot.Disjoint at this ⊢
  dsimp only at this ⊢
  omega

end Spilled

end Finish

/-- Whatever the function: intervals in the same register have no position in common, every register with an interval
is assigned or else spilled, and registers kept in the frame at the same time share no byte of it. Entries that are
left over belong to registers the code does not mention. -/
theorem linearScan_sound (mf : MachineFunction) :
    ∃ liveness spillLiveness mf' res, computeLiveness mf = some liveness ∧ computeSpillLiveness mf = some spillLiveness ∧
      linearScan mf liveness = some (mf', res) ∧
      (∀ w w' p p', res.Places liveness.intervals w p → res.Places liveness.intervals w' p' → w ≠ w' → p.Same p' →
        w.stop < w'.start ∨ w'.stop < w.start) ∧
      (∀ I ∈ liveness.intervals, Xor (res.assignments I.vreg).isSome (res.spills I.vreg).isSome) ∧
      (∀ J ∈ spillLiveness.intervals, ∀ J' ∈ spillLiveness.intervals, J.vreg ≠ J'.vreg →
        J.start ≤ J'.stop ∧ J'.start ≤ J.stop → ∀ off off', res.SpilledTo J.vreg off → res.SpilledTo J'.vreg off' →
          FrameSlot.Disjoint { offset := off, size := spillSlotSize J.cls }
            { offset := off', size := spillSlotSize J'.cls }) ∧
      ∀ v, (res.assignments v).isSome → (∀ I ∈ liveness.intervals, I.vreg ≠ v) →
        ∀ b ∈ mf'.blocks, ∀ i ∈ b.insts, v ∉ i.refs := by
  obtain ⟨liveness, spillLiveness, pos, s, hlive, hspillLive, hscan, hivs, hspl, h, -, hdone⟩ := linearScan_run mf
  refine ⟨liveness, spillLiveness, s.mf, _, hlive, hspillLive, hscan, fun w w' p p' hw hw' hne hsame => ?_,
    fun I hI => ?_, fun J hJ J' hJ' hne hoverlap off off' hoff hoff' => ?_, fun v hv hno => ?_⟩
  · exact h.places_apart hdone hivs hw hw' hne hsame
  · obtain ⟨ha, hs⟩ := h.finish_eq hivs hI
    rw [ha, hs]
    exact h.assigned_xor_spilled hdone hI
  · exact h.spilled_disjoint hivs hspl hJ hJ' hne hoverlap hoff hoff'
  · exact h.unmentioned hv hno

/-- What the calling convention asks of the allocation, for every function: a register that is live across a call is
in a register the callee saves, and the callee-saved registers given out are on the list of those to save. -/
theorem linearScan_keeps_convention (mf : MachineFunction) :
    ∃ liveness mf' res, computeLiveness mf = some liveness ∧ linearScan mf liveness = some (mf', res) ∧
      ∀ w p, res.Places liveness.intervals w p → ∃ isFp r, p.number isFp = some r ∧
        (∀ c ∈ mf.callPositions, w.start < c → c < w.stop → isCalleeSaved isFp r = true) ∧
        (isCalleeSaved isFp r = true → (if isFp then .fp r else .gp r) ∈ res.calleeSavedUsed) := by
  obtain ⟨liveness, spillLiveness, pos, s, hlive, -, hscan, hivs, -, h, hsaves, hdone⟩ := linearScan_run mf
  refine ⟨liveness, s.mf, _, hlive, hscan, fun w p hw => ?_⟩
  obtain ⟨x, hx, hp, hstart, hstop, -⟩ := h.part_of_places hdone hivs hw
  obtain ⟨r, rfl⟩ := h.shape.named x hx p hp
  have hr : (physFor x.cls r).number x.cls.isFp = some r := by cases x.cls <;> rfl
  refine ⟨x.cls.isFp, r, hr, fun c hc hlo hhi => ?_, fun hc => ?_⟩
  · exact (h.banks _).safe x r ⟨hx, rfl, hp⟩ c hc (hstart ▸ hlo) (hstop ▸ hhi)
  · exact (mem_insertionSort _).mpr (hsaves _ _ _ _ hp hr hc)

end Armfortas.Codegen
