import Armfortas.Codegen.Lemmas.Banks
import Armfortas.Codegen.Lemmas.SpillSlots

/-! It has three parts: which intervals have been placed, the two banks, and the slots. Each outcome of a round keeps
all three. -/
namespace Armfortas.Codegen
open Lib List Option Function

/-! ## Parts of intervals -/

/-- The intervals the scan works on: those of the function, and the halves of the ones that have been split. -/
inductive Part (ivs : List LiveInterval) (splits : List SplitInProgress) : LiveInterval → Prop
  | whole {I : LiveInterval} (hI : I ∈ ivs) (hsp : ∀ sp ∈ splits, sp.orig ≠ I.vreg) : Part ivs splits I
  | pre {I : LiveInterval} {sp : SplitInProgress} (hI : I ∈ ivs) (hsp : sp ∈ splits) (h : sp.orig = I.vreg) :
      Part ivs splits { I with stop := sp.callPos - 1 }
  | post {I : LiveInterval} {sp : SplitInProgress} (hI : I ∈ ivs) (hsp : sp ∈ splits) (h : sp.orig = I.vreg) :
      Part ivs splits (I.postHalf sp.synthetic sp.callPos)

structure SplitsOk (mf : MachineFunction) (ivs : List LiveInterval) (splits : List SplitInProgress) : Prop where
  crossed : ∀ sp ∈ splits, ∃ I ∈ ivs, sp.orig = I.vreg ∧
    classifyCallCrossing mf.callPositions I.start I.stop = .one sp.callPos ∧ mf.realCrosses sp.orig (some sp.callPos) = true
  fresh : ∀ sp ∈ splits, mf.vregs.length ≤ sp.synthetic
  synthetics : (splits.map (·.synthetic)).Nodup
  origs : (splits.map (·.orig)).Nodup

variable {mf : MachineFunction} {ivs spl : List LiveInterval} {splits : List SplitInProgress}

theorem Intervals.eq_of_vreg (h : Intervals mf ivs) {I J} (hI : I ∈ ivs) (hJ : J ∈ ivs)
    (he : I.vreg = J.vreg) : I = J := inj_on_of_nodup_map h.nodup hI hJ he

theorem SplitsOk.eq_of_orig (h : SplitsOk mf ivs splits) {sp sp'} (hsp : sp ∈ splits)
    (hsp' : sp' ∈ splits) (he : sp.orig = sp'.orig) : sp = sp' := inj_on_of_nodup_map h.origs hsp hsp' he

theorem SplitsOk.eq_of_synthetic (h : SplitsOk mf ivs splits) {sp sp'} (hsp : sp ∈ splits)
    (hsp' : sp' ∈ splits) (he : sp.synthetic = sp'.synthetic) : sp = sp' :=
  inj_on_of_nodup_map h.synthetics hsp hsp' he

theorem SplitsOk.synthetic_ne (h : SplitsOk mf ivs splits) (hivs : Intervals mf ivs) {sp}
    (hsp : sp ∈ splits) {I} (hI : I ∈ ivs) : sp.synthetic ≠ I.vreg :=
  fun e => absurd (hivs.declared I hI) (Nat.not_lt.mpr (e ▸ h.fresh sp hsp))

theorem Part.unique (hivs : Intervals mf ivs) (h : SplitsOk mf ivs splits) {x y}
    (hx : Part ivs splits x) (hy : Part ivs splits y) (he : x.vreg = y.vreg) : x = y := by
  cases hx with
  | whole hI hno =>
    cases hy with
    | whole hJ _ => exact hivs.eq_of_vreg hI hJ he
    | pre hJ hsp ho => exact absurd (ho.trans he.symm) (hno _ hsp)
    | post hJ hsp ho => exact absurd he.symm (h.synthetic_ne hivs hsp hI)
  | pre hI hsp ho =>
    cases hy with
    | whole hJ hno => exact absurd (ho.trans he) (hno _ hsp)
    | pre hJ hsp' ho' =>
      cases hivs.eq_of_vreg hI hJ he
      cases h.eq_of_orig hsp hsp' (ho.trans ho'.symm)
      rfl
    | post hJ hsp' ho' => exact (h.synthetic_ne hivs hsp' hI he.symm).elim
  | post hI hsp ho =>
    cases hy with
    | whole hJ _ => exact absurd he (h.synthetic_ne hivs hsp hJ)
    | pre hJ hsp' ho' => exact (h.synthetic_ne hivs hsp hJ he).elim
    | post hJ hsp' ho' =>
      cases h.eq_of_synthetic hsp hsp' he
      cases hivs.eq_of_vreg hI hJ (ho.symm.trans ho')
      rfl

theorem SplitsOk.classify (h : SplitsOk mf ivs splits) (hivs : Intervals mf ivs) {sp}
    (hsp : sp ∈ splits) {I} (hI : I ∈ ivs) (ho : sp.orig = I.vreg) :
    classifyCallCrossing mf.callPositions I.start I.stop = .one sp.callPos := by
  obtain ⟨J, hJ, hJo, hc, -⟩ := h.crossed sp hsp
  cases hivs.eq_of_vreg hI hJ (ho.symm.trans hJo)
  exact hc

theorem Part.crossing (hivs : Intervals mf ivs) (h : SplitsOk mf ivs splits) {x}
    (hx : Part ivs splits x) {c} (hc : c ∈ mf.callPositions) (hlo : x.start < c) (hhi : c < x.stop) :
    x ∈ ivs ∧ ∀ sp ∈ splits, sp.orig ≠ x.vreg := by
  cases hx with
  | whole hI hno => exact ⟨hI, hno⟩
  | @pre I sp hI hsp ho =>
    obtain ⟨-, h₁, h₂, hall⟩ := classify_one mf.callPositions_pairwise (h.classify hivs hsp hI ho)
    have hhi : c < sp.callPos - 1 := hhi
    have := hall c hc hlo (by omega)
    omega
  | @post I sp hI hsp ho =>
    obtain ⟨-, h₁, h₂, hall⟩ := classify_one mf.callPositions_pairwise (h.classify hivs hsp hI ho)
    have hlo : sp.callPos + 1 < c := hlo
    have := hall c hc (by omega) hhi
    omega

/-! ## Registers given -/

theorem physFor_injective (cls : RegClass) : Function.Injective (physFor cls) := by
  intro r r' h
  cases cls <;> simpa [physFor] using h

theorem number_physFor_eq {cls r n isFp} (h : (physFor cls r).number isFp = some n) :
    cls.isFp = isFp ∧ r = n := by
  cases cls <;> cases isFp <;> simp_all [physFor, PhysReg.number, RegClass.isFp]

def GivenIn (P : LiveInterval → Prop) (assignments : VRegId → Option PhysReg) (isFp : Bool) (x : LiveInterval) (r : Nat) :
    Prop :=
  P x ∧ x.cls.isFp = isFp ∧ assignments x.vreg = some (physFor x.cls r)

section GivenIn

variable {P P' : LiveInterval → Prop} {assignments : VRegId → Option PhysReg} {isFp : Bool} {w x : LiveInterval}
  {r reg : Nat} {victim : VRegId}

theorem givenIn_update (hw : P' w) (hunique : ∀ x, P' x → x.vreg = w.vreg → x = w) (hnone : assignments w.vreg = none)
    (hP : ∀ x, (assignments x.vreg).isSome → (P' x ↔ P x)) :
    GivenIn P' (update assignments w.vreg (some (physFor w.cls reg))) isFp x r ↔
      (x = w ∧ r = reg ∧ w.cls.isFp = isFp) ∨ GivenIn P assignments isFp x r := by
  by_cases hx : x.vreg = w.vreg
  · have hnot : ¬ GivenIn P assignments isFp x r := fun h => by
      have := h.2.2
      rw [hx, hnone] at this
      cases this
    rw [GivenIn, hx, update_self]
    constructor
    · rintro ⟨hPx, hcls, heq⟩
      cases hunique x hPx hx
      exact .inl ⟨rfl, (physFor_injective _ (some.inj heq)).symm, hcls⟩
    · rintro (⟨rfl, rfl, hcls⟩ | h)
      · exact ⟨hw, hcls, rfl⟩
      · exact absurd h hnot
  · rw [GivenIn, update_of_ne hx]
    constructor
    · rintro ⟨hPx, hcls, heq⟩
      exact .inr ⟨(hP x (by simp [heq])).mp hPx, hcls, heq⟩
    · rintro (⟨rfl, -⟩ | ⟨hPx, hcls, heq⟩)
      · exact absurd rfl hx
      · exact ⟨(hP x (by simp [heq])).mpr hPx, hcls, heq⟩

theorem givenIn_remove :
    GivenIn P (update assignments victim none) isFp x r ↔ GivenIn P assignments isFp x r ∧ x.vreg ≠ victim := by
  by_cases hx : x.vreg = victim
  · simp [GivenIn, hx]
  · simp [GivenIn, hx]

theorem givenIn_functional (hunique : ∀ x y, P x → P y → x.vreg = y.vreg → x = y) {y r'}
    (hx : GivenIn P assignments isFp x r) (hy : GivenIn P assignments isFp y r') (he : x.vreg = y.vreg) : r = r' := by
  cases hunique x y hx.1 hy.1 he
  exact physFor_injective _ (some.inj (hx.2.2.symm.trans hy.2.2))

theorem banks_give {calls} {bank bank' : Bool → Bank} {b : Bank} {assignments' : VRegId → Option PhysReg}
    (hb : ∀ f, (bank f).Ok calls f (GivenIn P assignments f) w.start)
    (hself : bank' w.cls.isFp = b.hold reg w.stop w.vreg) (hother : ∀ f, f ≠ w.cls.isFp → bank' f = bank f)
    (hactive : b.active = (bank w.cls.isFp).active) (hnodup : (reg :: b.regs).Nodup)
    (hcaller : ∀ r ∈ b.caller, r ∈ (bank w.cls.isFp).caller) (hcallee : ∀ r ∈ b.callee, r ∈ (bank w.cls.isFp).callee)
    (hnone : assignments w.vreg = none)
    (hG : ∀ f x r, GivenIn P' assignments' f x r ↔ (x = w ∧ r = reg ∧ w.cls.isFp = f) ∨ GivenIn P assignments f x r)
    (hsafe : ∀ c ∈ calls, w.start < c → c < w.stop → isCalleeSaved w.cls.isFp reg = true) (f : Bool) :
    (bank' f).Ok calls f (GivenIn P' assignments' f) w.start := by
  by_cases hf : f = w.cls.isFp
  · subst hf
    rw [hself]
    refine (hb w.cls.isFp).give rfl hactive hnodup hcaller hcallee (fun x r hx he => ?_) (fun x r => ?_) hsafe
    · have := hx.2.2
      rw [he, hnone] at this
      cases this
    · rw [hG]
      simp
  · rw [hother f hf]
    refine (hb f).congr fun x r => ?_
    rw [hG]
    exact or_iff_right fun h => hf h.2.2.symm

end GivenIn

section SetBank

variable (s : Scan) (isFp : Bool) (b : Bank)

@[simp] theorem Scan.setBank_mf : (s.setBank isFp b).mf = s.mf := by cases isFp <;> rfl
@[simp] theorem Scan.setBank_assignments : (s.setBank isFp b).assignments = s.assignments := by cases isFp <;> rfl
@[simp] theorem Scan.setBank_spills : (s.setBank isFp b).spills = s.spills := by cases isFp <;> rfl
@[simp] theorem Scan.setBank_plan : (s.setBank isFp b).plan = s.plan := by cases isFp <;> rfl
@[simp] theorem Scan.setBank_splits : (s.setBank isFp b).splitsInProgress = s.splitsInProgress := by cases isFp <;> rfl
@[simp] theorem Scan.setBank_worklist : (s.setBank isFp b).worklist = s.worklist := by cases isFp <;> rfl

@[simp] theorem Scan.bank_setBank_self : (s.setBank isFp b).bank isFp = b := by cases isFp <;> rfl

theorem Scan.bank_setBank_of_ne {isFp'} (h : isFp' ≠ isFp) : (s.setBank isFp b).bank isFp' = s.bank isFp' := by
  cases isFp <;> cases isFp' <;> first | rfl | exact absurd rfl h

end SetBank

/-! ## What has been placed -/

/-- The intervals still to come, in order. Those of the other registers have been placed. -/
structure Queue (P : LiveInterval → Prop) (Placed : VRegId → Prop) (worklist : List LiveInterval) (pos : Nat) : Prop where
  sorted : worklist.Pairwise LiveInterval.before
  later : ∀ w ∈ worklist, pos ≤ w.start
  nodup : (worklist.map (·.vreg)).Nodup
  pending : ∀ w ∈ worklist, P w
  unplaced : ∀ w ∈ worklist, ¬ Placed w.vreg
  placed : ∀ w, P w → w.vreg ∈ worklist.map (·.vreg) ∨ Placed w.vreg
  known : ∀ v, Placed v → ∃ w, P w ∧ w.vreg = v

variable {s s' : Scan} {pos : Nat} {w : LiveInterval} {rest : List LiveInterval}

theorem Queue.next {P P' : LiveInterval → Prop} {Placed Placed' : VRegId → Prop} {x} (h : Queue P Placed (w :: rest) pos)
    (he : x.vreg = w.vreg) (hP : ∀ y, P' y ↔ (P y ∧ y.vreg ≠ w.vreg) ∨ y = x)
    (hPl : ∀ v, Placed' v ↔ v = w.vreg ∨ Placed v) : Queue P' Placed' rest w.start := by
  obtain ⟨hsorted, hrest⟩ := pairwise_cons.mp h.sorted
  obtain ⟨hw, hnodup⟩ := nodup_cons.mp h.nodup
  have hne : ∀ y ∈ rest, y.vreg ≠ w.vreg := fun y hy e => hw (List.mem_map.mpr ⟨y, hy, e⟩)
  constructor
  case sorted => exact hrest
  case later => exact fun y hy => (hsorted y hy).start_le
  case nodup => exact hnodup
  case pending => exact fun y hy => (hP y).mpr (.inl ⟨h.pending y (.tail _ hy), hne y hy⟩)
  case unplaced => exact fun y hy hpl => ((hPl _).mp hpl).elim (hne y hy) (h.unplaced y (.tail _ hy))
  case placed =>
    intro y hy
    rw [hPl]
    rcases (hP y).mp hy with ⟨hy, hne⟩ | rfl
    · rcases h.placed y hy with hy | hy
      · exact .inl ((mem_cons.mp hy).resolve_left hne)
      · exact .inr (.inr hy)
    · exact .inr (.inl he)
  case known =>
    intro v hv
    by_cases hvw : v = w.vreg
    · exact ⟨x, (hP x).mpr (.inr rfl), he.trans hvw.symm⟩
    · obtain ⟨y, hy, rfl⟩ := h.known v (((hPl v).mp hv).resolve_left hvw)
      exact ⟨y, (hP y).mpr (.inl ⟨hy, hvw⟩), rfl⟩

def Scan.Placed (s : Scan) (v : VRegId) : Prop := (s.assignments v).isSome ∨ (s.spills v).isSome

structure Scan.Shape (mf : MachineFunction) (ivs : List LiveInterval) (s : Scan) (pos : Nat) : Prop
    extends Queue (Part ivs s.splitsInProgress) s.Placed s.worklist pos where
  blocks : s.mf.blocks = mf.blocks
  vregs : mf.vregs.length ≤ s.mf.vregs.length
  splits : SplitsOk mf ivs s.splitsInProgress
  typed : ∀ w, Part ivs s.splitsInProgress w → w.vreg < s.mf.vregs.length ∧ s.mf.classOf w.vreg = w.cls
  exclusive : ∀ v, s.assignments v = none ∨ s.spills v = none
  named : ∀ w, Part ivs s.splitsInProgress w → ∀ p, s.assignments w.vreg = some p → ∃ r, p = physFor w.cls r

theorem Scan.Shape.lt_of_placed (h : s.Shape mf ivs pos) {v} (hv : s.Placed v) : v < s.mf.vregs.length := by
  obtain ⟨w, hw, rfl⟩ := h.known v hv
  exact (h.typed w hw).1

theorem Scan.Shape.head (h : s.Shape mf ivs pos) (hw : s.worklist = w :: rest) :
    Part ivs s.splitsInProgress w ∧ ¬ s.Placed w.vreg ∧ pos ≤ w.start :=
  ⟨h.pending w (hw ▸ mem_cons_self), h.unplaced w (hw ▸ mem_cons_self), h.later w (hw ▸ mem_cons_self)⟩

theorem Scan.Shape.place (h : s.Shape mf ivs pos) (hivs : Intervals mf ivs) (hw : s.worklist = w :: rest)
    (hblocks : s'.mf.blocks = s.mf.blocks) (hvregs : s'.mf.vregs = s.mf.vregs)
    (hsplits : s'.splitsInProgress = s.splitsInProgress) (hrest : s'.worklist = rest)
    (hplaced : ∀ v, s'.Placed v ↔ v = w.vreg ∨ s.Placed v)
    (hexcl : ∀ v, s'.assignments v = none ∨ s'.spills v = none)
    (hnamed : ∀ v p, s'.assignments v = some p → s.assignments v = some p ∨ (v = w.vreg ∧ ∃ r, p = physFor w.cls r)) :
    s'.Shape mf ivs w.start := by
  have hpart := (h.head hw).1
  have hunique : ∀ y, Part ivs s.splitsInProgress y → y.vreg = w.vreg → y = w := fun y hy =>
    hy.unique hivs h.splits hpart
  constructor
  case toQueue =>
    rw [hrest, hsplits]
    refine (hw ▸ h.toQueue).next rfl (fun y => ⟨fun hy => ?_, ?_⟩) hplaced
    · by_cases he : y.vreg = w.vreg
      · exact .inr (hunique y hy he)
      · exact .inl ⟨hy, he⟩
    · rintro (⟨hy, -⟩ | rfl) <;> assumption
  case blocks => exact hblocks.trans h.blocks
  case vregs => exact hvregs ▸ h.vregs
  case splits => exact hsplits ▸ h.splits
  case typed =>
    intro x hx
    rw [MachineFunction.classOf, hvregs]
    exact h.typed x (hsplits ▸ hx)
  case exclusive => exact hexcl
  case named =>
    intro x hx p hp
    rw [hsplits] at hx
    rcases hnamed _ p hp with hp | ⟨he, r, rfl⟩
    · exact h.named x hx p hp
    · cases hunique x hx he
      exact ⟨r, rfl⟩

/-! ## Slots -/

inductive SlotOwner
  | color (c : Nat)
  | vreg (v : VRegId)

/-- The slots of the colours, the bridge slots, and those of spilled registers without a colour. -/
def Scan.Owns (s : Scan) : SlotOwner → FrameSlot → Prop
  | .color c, slot => s.plan.offsets c = some slot.offset ∧ s.plan.colors[c]? = some slot.size
  | .vreg v, slot => slot.size = spillSlotSize (s.mf.classOf v) ∧
      ((∃ sp ∈ s.splitsInProgress, sp.synthetic = v ∧ sp.bridgeSlot = slot.offset) ∨
        (s.plan.vregColors v = none ∧ (∀ sp ∈ s.splitsInProgress, sp.synthetic ≠ v) ∧ s.spills v = some slot.offset))

structure Scan.Slots (spl : List LiveInterval) (s : Scan) : Prop where
  sound : s.plan.Sound spl
  reserved : Reserved s.mf.frame s.Owns
  colored : ∀ v c off, s.plan.vregColors v = some c → s.spills v = some off → s.plan.offsets c = some off
  bridged : ∀ sp ∈ s.splitsInProgress, ∀ off, s.spills sp.synthetic = some off → off = sp.bridgeSlot

theorem Scan.Slots.synthetic_uncolored (h : s.Slots spl) (hspl : Intervals mf spl)
    (hsplits : SplitsOk mf ivs s.splitsInProgress) {sp} (hsp : sp ∈ s.splitsInProgress) :
    s.plan.vregColors sp.synthetic = none :=
  h.sound.others _ fun I hI e => absurd (hspl.declared I hI) (Nat.not_lt.mpr (e ▸ hsplits.fresh sp hsp))

theorem Scan.Slots.congr (h : s.Slots spl) (hmf : s'.mf = s.mf) (hplan : s'.plan = s.plan)
    (hsplits : s'.splitsInProgress = s.splitsInProgress) (hspills : s'.spills = s.spills) : s'.Slots spl := by
  cases s
  subst hmf hplan hsplits hspills
  exact ⟨h.sound, h.reserved, h.colored, h.bridged⟩

section Spill

variable (h : s.Slots spl) {v : VRegId} {off : Int}

theorem update_spills {f : VRegId → Option Int} {u} (hu : u ≠ v) :
    update f v (some off) u = f u := update_of_ne hu ..

include h

theorem Scan.Slots.spill_bridge (hspl : Intervals mf spl) (hsplits : SplitsOk mf ivs s.splitsInProgress)
    {sp} (hsp : sp ∈ s.splitsInProgress) :
    ({ s with spills := update s.spills sp.synthetic (some sp.bridgeSlot) } : Scan).Slots spl where
  sound := h.sound
  reserved := by
    refine h.reserved.mono fun o slot ho => ?_
    cases o with
    | color c => exact ho
    | vreg u => exact ⟨ho.1, ho.2.imp id fun hown =>
      ⟨hown.1, hown.2.1, (update_spills fun e => hown.2.1 sp hsp e.symm).symm.trans hown.2.2⟩⟩
  colored u c off hc hoff := by
    have hne : u ≠ sp.synthetic := fun e => by
      rw [e, h.synthetic_uncolored hspl hsplits hsp] at hc
      cases hc
    exact h.colored u c off hc ((update_spills hne).symm.trans hoff)
  bridged sp' hsp' off hoff := by
    dsimp only at hoff
    by_cases he : sp'.synthetic = sp.synthetic
    · cases hsplits.eq_of_synthetic hsp' hsp he
      rw [update_self, some.injEq] at hoff
      exact hoff.symm
    · exact h.bridged sp' hsp' off ((update_spills he).symm.trans hoff)

theorem Scan.Slots.spill_own (hnot : ∀ sp ∈ s.splitsInProgress, sp.synthetic ≠ v)
    (hcolor : s.plan.vregColors v = none) :
    ({ s with
      mf := (s.mf.allocLocal (spillSlotSize (s.mf.classOf v))).2
      spills := update s.spills v (some (s.mf.allocLocal (spillSlotSize (s.mf.classOf v))).1) } : Scan).Slots
      spl where
  sound := h.sound
  reserved := by
    refine h.reserved.alloc (.vreg v) _ fun o slot ho => ?_
    cases o with
    | color c => exact .inl ho
    | vreg u =>
      by_cases hu : u = v
      · cases hu
        rcases ho.2 with ⟨sp, hmem, he, -⟩ | ⟨-, -, hoff⟩
        · exact absurd he (hnot sp hmem)
        · dsimp only at hoff
          rw [update_self, some.injEq] at hoff
          exact .inr ⟨rfl, FrameSlot.ext hoff.symm ho.1⟩
      · exact .inl ⟨ho.1, ho.2.imp id fun hown => ⟨hown.1, hown.2.1, (update_spills hu).symm.trans hown.2.2⟩⟩
  colored u c off hc hoff := by
    have hne : u ≠ v := fun e => by
      rw [e, hcolor] at hc
      cases hc
    exact h.colored u c off hc ((update_spills hne).symm.trans hoff)
  bridged sp hsp off hoff := h.bridged sp hsp off ((update_spills (hnot sp hsp)).symm.trans hoff)

theorem Scan.Slots.spill_color (hnot : ∀ sp ∈ s.splitsInProgress, sp.synthetic ≠ v) {color}
    (hcolor : s.plan.vregColors v = some color) (hoff : s.plan.offsets color = some off) :
    ({ s with spills := update s.spills v (some off) } : Scan).Slots spl where
  sound := h.sound
  reserved := by
    refine h.reserved.mono fun o slot ho => ?_
    cases o with
    | color c => exact ho
    | vreg u =>
      refine ⟨ho.1, ho.2.imp id fun hown => ⟨hown.1, hown.2.1, (update_spills ?_).symm.trans hown.2.2⟩⟩
      rintro rfl
      exact absurd (hcolor.symm.trans hown.1) (by simp)
  colored u c off' hc hoff' := by
    dsimp only at hc hoff'
    by_cases hu : u = v
    · cases hu
      cases hcolor.symm.trans hc
      rw [update_self] at hoff'
      exact hoff.trans hoff'
    · exact h.colored u c off' hc ((update_spills hu).symm.trans hoff')
  bridged sp hsp off' hoff' := h.bridged sp hsp off' ((update_spills (hnot sp hsp)).symm.trans hoff')

theorem Scan.Slots.alloc_color {color} (hnone : s.plan.offsets color = none) :
    ({ s with
      mf := (s.mf.allocLocal (s.plan.colors[color]?.getD 0)).2
      plan := { s.plan with
        offsets := update s.plan.offsets color
          (some (s.mf.allocLocal (s.plan.colors[color]?.getD 0)).1) } } : Scan).Slots spl where
  sound := ⟨h.sound.fits, h.sound.others, h.sound.apart⟩
  reserved := by
    refine h.reserved.alloc (.color color) _ fun o slot ho => ?_
    cases o with
    | vreg u => exact .inl ho
    | color c =>
      obtain ⟨hoff, hsize⟩ := ho
      dsimp only at hoff hsize
      by_cases hc : c = color
      · cases hc
        rw [update_self, some.injEq] at hoff
        exact .inr ⟨rfl, FrameSlot.ext hoff.symm (by rw [hsize]; rfl)⟩
      · exact .inl ⟨(update_of_ne hc ..).symm.trans hoff, hsize⟩
  colored u c off hc hoff := by
    have := h.colored u c off hc hoff
    have hne : c ≠ color := fun e => by
      rw [e, hnone] at this
      cases this
    exact (update_of_ne hne ..).trans this
  bridged := h.bridged

end Spill

theorem Scan.Slots.spill (h : s.Slots spl) (hspl : Intervals mf spl) (hsplits : SplitsOk mf ivs s.splitsInProgress)
    {v off plan mf'}
    (hslot : s.slotFor v (s.mf.classOf v) = (off, plan, mf')) :
    ({ s with mf := mf', plan := plan, spills := update s.spills v (some off) } : Scan).Slots spl ∧
      mf'.blocks = s.mf.blocks ∧ mf'.vregs = s.mf.vregs := by
  unfold Scan.slotFor at hslot
  split at hslot
  · next sp hfind =>
    cases hslot
    obtain rfl : sp.synthetic = v := by simpa using find?_some hfind
    exact ⟨h.spill_bridge hspl hsplits (mem_of_find?_eq_some hfind), rfl, rfl⟩
  · next hfind =>
    have hnot : ∀ sp ∈ s.splitsInProgress, sp.synthetic ≠ v := by
      intro sp hmem
      simpa using find?_eq_none.mp hfind sp hmem
    unfold SpillSlotPlan.offsetFor at hslot
    split at hslot
    · next hcolor =>
      cases hslot
      exact ⟨h.spill_own hnot hcolor, rfl, rfl⟩
    · next color hcolor =>
      split at hslot
      · next off hoff =>
        cases hslot
        exact ⟨h.spill_color hnot hcolor hoff, rfl, rfl⟩
      · next hnone =>
        cases hslot
        refine ⟨(h.alloc_color hnone).spill_color hnot hcolor ?_, rfl, rfl⟩
        exact update_self ..

end Armfortas.Codegen
