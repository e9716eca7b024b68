import Armfortas.Codegen.Liveness

/-! Intervals are taken in the order of their starts. An interval that crosses a call needs a callee-saved register,
is split at the call, or is spilled; when no register is free, the interval that ends last gives way. The two banks of
registers are handled alike. The loop over the worklist runs on fuel. -/
namespace Armfortas.Codegen
open Lib Function

def gpAllocOrder : List Nat :=
  [12, 13, 14, 15, 0, 1, 2, 3, 4, 5, 6, 7, 19, 20, 21, 22, 23, 24, 25, 26, 27, 28]

def fpAllocOrder : List Nat :=
  [16, 17, 18, 19, 20, 21, 22, 23, 24, 25, 26, 27, 28, 0, 1, 2, 3, 4, 5, 6, 7, 8, 9, 10, 11, 12, 13, 14, 15]

/-- `GP_CALLEE_SAVED` and `FP_CALLEE_SAVED`. -/
def isCalleeSaved (isFp : Bool) (r : Nat) : Bool :=
  if isFp then decide (8 ≤ r ∧ r ≤ 15) else decide (19 ≤ r ∧ r ≤ 28)

def spillSlotSize : RegClass → Nat
  | .v128 => 16
  | _ => 8

/-! ## Sharing spill slots -/

/-- The colour of each register, the size of each colour, and the slots handed out so far. -/
structure SpillSlotPlan where
  vregColors : VRegId → Option Nat
  colors : List Nat
  offsets : Nat → Option Int

/-- The state of the colouring. The heaps of the source are lists from which the least element is taken. -/
structure Coloring where
  vregColors : VRegId → Option Nat
  colors : List Nat
  /-- ends of the intervals that hold a colour -/
  active : List (Nat × Nat)
  free8 : List Nat
  free16 : List Nat

def popMin (l : List Nat) : Option (Nat × List Nat) := l.min?.map fun m => (m, l.erase m)

def Coloring.release (s : Coloring) (pos : Nat) : Coloring :=
  let expired := s.active.filter (·.1 < pos)
  let ofSize := fun size => (expired.filter fun e => s.colors[e.2]? == some size).map (·.2)
  { s with
    active := s.active.filter (¬ ·.1 < pos)
    free8 := s.free8 ++ ofSize 8
    free16 := s.free16 ++ ofSize 16 }

/-- The lowest free colour that fits, the small ones first, or a new one. -/
def Coloring.pick (s : Coloring) (size : Nat) : Nat × Coloring :=
  match if size = 8 then popMin s.free8 else none with
  | some (c, rest) => (c, { s with free8 := rest })
  | none => match popMin s.free16 with
      | some (c, rest) => (c, { s with free16 := rest })
      | none => (s.colors.length, { s with colors := s.colors ++ [size] })

def Coloring.add (s : Coloring) (interval : LiveInterval) : Coloring :=
  let (color, s) := (s.release interval.start).pick (spillSlotSize interval.cls)
  { s with
    vregColors := update s.vregColors interval.vreg (some color)
    active := s.active ++ [(interval.stop, color)] }

def Coloring.empty : Coloring :=
  { vregColors := fun _ => none, colors := [], active := [], free8 := [], free16 := [] }

def SpillSlotPlan.new (intervals : List LiveInterval) : SpillSlotPlan :=
  let s := intervals.foldl Coloring.add .empty
  { vregColors := s.vregColors, colors := s.colors, offsets := fun _ => none }

/-- The slot of the register's colour, or one of its own if it has none. -/
def SpillSlotPlan.offsetFor (plan : SpillSlotPlan) (mf : MachineFunction) (vreg : VRegId) (cls : RegClass) :
    Int × SpillSlotPlan × MachineFunction :=
  match plan.vregColors vreg with
  | none =>
      let (offset, mf) := mf.allocLocal (spillSlotSize cls)
      (offset, plan, mf)
  | some color => match plan.offsets color with
      | some offset => (offset, plan, mf)
      | none =>
          let (offset, mf) := mf.allocLocal (plan.colors[color]?.getD 0)
          (offset, { plan with offsets := update plan.offsets color (some offset) }, mf)

/-! ## What the splitter asks of the code -/

def PhysReg.number (isFp : Bool) : PhysReg → Option Nat
  | .gp n | .gp32 n => if isFp then none else some n
  | .fp n | .fp32 n => if isFp then some n else none
  | _ => none

namespace MachineFunction

variable (mf : MachineFunction)

/-- An instruction after `start`, up to `stop`, names the register as its first operand. -/
def physWrittenIn (r : Nat) (isFp : Bool) (start stop : Nat) : Bool :=
  mf.numberedInsts.any fun (p, i) => match i.operands.head? with
    | some (.physReg q) => q.number isFp == some r && decide (start < p) && decide (p ≤ stop)
    | _ => false

/-- The first and the last mention. -/
def vregActualRange (v : VRegId) : Option (Nat × Nat) :=
  (mf.numberedInsts.filter fun (_, i) => v ∈ i.refs).foldl (fun range (p, _) => match range with
    | some (lo, hi) => some (min lo p, max hi p)
    | none => some (p, p)) none

/-- Mentioned in one block, and defined in one at most. -/
def singleBlock (v : VRegId) : Bool :=
  decide ((mf.blocks.filter fun b => b.insts.any fun i => i.defReg == some v).length ≤ 1) &&
    (mf.blocks.filter fun b => b.insts.any fun i => decide (v ∈ i.refs)).length == 1

def realCrosses (v : VRegId) (singleCall : Option Nat) : Bool :=
  mf.singleBlock v && match mf.vregActualRange v with
    | some (lo, hi) => singleCall.any fun p => decide (lo < p) && decide (p < hi)
    | none => false

end MachineFunction

/-! ## The scan -/

/-- The registers of one bank: those in use with the end and the register they are held for, sorted by end, and
the two pools, which are taken from at their ends. -/
structure Bank where
  active : List (Nat × Nat × VRegId)
  caller : List Nat
  callee : List Nat
  deriving DecidableEq, Repr

def Bank.initial (isFp : Bool) : Bank :=
  let order := if isFp then fpAllocOrder else gpAllocOrder
  { active := [], caller := order.filter (!isCalleeSaved isFp ·), callee := order.filter (isCalleeSaved isFp ·) }

def Bank.expire (isFp : Bool) (b : Bank) (pos : Nat) : Bank :=
  let freed := (b.active.filter (·.2.1 < pos)).map (·.1)
  { active := b.active.filter (¬ ·.2.1 < pos)
    caller := b.caller ++ freed.filter (!isCalleeSaved isFp ·)
    callee := b.callee ++ freed.filter (isCalleeSaved isFp ·) }

def Bank.hold (b : Bank) (reg stop : Nat) (vreg : VRegId) : Bank :=
  { b with active := (b.active ++ [(reg, stop, vreg)]).insertionSort fun x y => x.2.1 ≤ y.2.1 }

def Bank.popCallee (b : Bank) : Option (Nat × Bank) :=
  b.callee.getLast?.map fun r => (r, { b with callee := b.callee.dropLast })

def Bank.popAny (b : Bank) : Option (Nat × Bank) :=
  match b.caller.getLast? with
  | some r => some (r, { b with caller := b.caller.dropLast })
  | none => b.popCallee

/-- A free register: callee-saved across a call, else the hinted one, else a caller-saved one first. -/
def Bank.choose (b : Bank) (crossesCall : Bool) (hint : Option Nat) : Option (Nat × Bank) :=
  if crossesCall then b.popCallee
  else match hint with
    | some h =>
        if h ∈ b.caller then some (h, { b with caller := b.caller.erase h })
        else if h ∈ b.callee then some (h, { b with callee := b.callee.erase h })
        else b.popAny
    | none => b.popAny

structure SplitInProgress where
  synthetic : VRegId
  orig : VRegId
  callPos : Nat
  bridgeSlot : Int
  deriving DecidableEq, Repr

structure Scan where
  mf : MachineFunction
  assignments : VRegId → Option PhysReg
  spills : VRegId → Option Int
  plan : SpillSlotPlan
  gp : Bank
  fp : Bank
  calleeSavedUsed : List PhysReg
  splitsInProgress : List SplitInProgress
  /-- the intervals still to come -/
  worklist : List LiveInterval

def Scan.bank (s : Scan) (isFp : Bool) : Bank := if isFp then s.fp else s.gp

def Scan.setBank (s : Scan) (isFp : Bool) (b : Bank) : Scan := if isFp then { s with fp := b } else { s with gp := b }

/-- The register of a bank as the class names it. -/
def physFor (cls : RegClass) (r : Nat) : PhysReg :=
  match cls with
  | .fp32 => .fp32 r
  | .fp64 | .v128 => .fp r
  | .gp32 => .gp32 r
  | .gp64 => .gp r

/-- The slot a register is spilled to: the bridge slot for the second half of a split one. -/
def Scan.slotFor (s : Scan) (v : VRegId) (cls : RegClass) : Int × SpillSlotPlan × MachineFunction :=
  match s.splitsInProgress.find? (·.synthetic == v) with
  | some sp => (sp.bridgeSlot, s.plan, s.mf)
  | none => s.plan.offsetFor s.mf v cls

def Scan.assign (s : Scan) (interval : LiveInterval) (reg : Nat) (bank : Bank) : Scan :=
  let isFp := interval.cls.isFp
  let named := if isFp then PhysReg.fp reg else PhysReg.gp reg
  { s.setBank isFp (bank.hold reg interval.stop interval.vreg) with
    assignments := update s.assignments interval.vreg (some (physFor interval.cls reg))
    calleeSavedUsed :=
      if isCalleeSaved isFp reg && decide (named ∉ s.calleeSavedUsed) then s.calleeSavedUsed ++ [named]
      else s.calleeSavedUsed }

/-- A caller-saved register that nothing overwrites before the call, and the call. -/
def Scan.splitPoint (mf : MachineFunction) (interval : LiveInterval) (crossing : CallCrossing) (bank : Bank) :
    Option (Nat × Nat) :=
  match crossing with
  | .one callPos =>
      if mf.realCrosses interval.vreg (some callPos) then
        (bank.caller.reverse.find? fun r => !mf.physWrittenIn r interval.cls.isFp interval.start (callPos - 1)).map
          fun r => (callPos, r)
      else none
  | _ => none

def LiveInterval.postHalf (interval : LiveInterval) (synthetic : VRegId) (callPos : Nat) : LiveInterval :=
  { vreg := synthetic, cls := interval.cls, start := callPos + 1, stop := interval.stop, hint := none }

def insertSorted (w : LiveInterval) (worklist : List LiveInterval) : List LiveInterval :=
  worklist.takeWhile (fun x => decide (x.before w)) ++ w :: worklist.dropWhile (fun x => decide (x.before w))

/-- Split the interval at the call. The first half gets the register, the second half is still to come. Registers
of a pool are distinct, so it is removed by its number. -/
def Scan.split (s : Scan) (interval : LiveInterval) (bank : Bank) (callPos reg : Nat) : Scan :=
  let (bridgeSlot, mf) := s.mf.allocLocal (spillSlotSize interval.cls)
  let (synthetic, mf) := mf.newVReg interval.cls
  let bank := { bank with caller := bank.caller.erase reg }
  { s.setBank interval.cls.isFp (bank.hold reg (callPos - 1) interval.vreg) with
    mf := mf
    assignments := update s.assignments interval.vreg (some (physFor interval.cls reg))
    splitsInProgress := s.splitsInProgress ++
      [{ synthetic := synthetic, orig := interval.vreg, callPos := callPos, bridgeSlot := bridgeSlot }]
    worklist := insertSorted (interval.postHalf synthetic callPos) s.worklist }

def Scan.spillCurrent (s : Scan) (interval : LiveInterval) (bank : Bank) : Scan :=
  let (offset, plan, mf) := s.slotFor interval.vreg interval.cls
  { s.setBank interval.cls.isFp bank with
    mf := mf, plan := plan, spills := update s.spills interval.vreg (some offset) }

/-- Spill the holder that ends last and give its register to the interval. -/
def Scan.evict (s : Scan) (interval : LiveInterval) (bank : Bank) (reg : Nat) (victim : VRegId) : Scan :=
  let (offset, plan, mf) := s.slotFor victim (s.mf.classOf victim)
  let bank := { bank with active := bank.active.dropLast }
  { s.setBank interval.cls.isFp (bank.hold reg interval.stop interval.vreg) with
    mf := mf, plan := plan
    spills := update s.spills victim (some offset)
    assignments := update (update s.assignments victim none) interval.vreg
      (some (physFor interval.cls reg)) }

def Scan.spill (s : Scan) (interval : LiveInterval) (bank : Bank) : Scan :=
  match bank.active.getLast? with
  | some (reg, stop, victim) =>
      if interval.stop < stop then s.evict interval bank reg victim else s.spillCurrent interval bank
  | none => s.spillCurrent interval bank

def Scan.process (mf : MachineFunction) (calls : List Nat) (s : Scan) (interval : LiveInterval) : Scan :=
  let crossing := classifyCallCrossing calls interval.start interval.stop
  let bank := (s.bank interval.cls.isFp).expire interval.cls.isFp interval.start
  match bank.choose (crossing != .none) interval.hint with
  | some (reg, bank) => s.assign interval reg bank
  | none => match Scan.splitPoint mf interval crossing bank with
      | some (callPos, reg) => s.split interval bank callPos reg
      | none => s.spill interval bank

def Scan.step (mf : MachineFunction) (calls : List Nat) (s : Scan) : Option Scan :=
  match s.worklist with
  | [] => none
  | interval :: rest => some (Scan.process mf calls { s with worklist := rest } interval)

/-! ## The result -/

inductive PostHalf
  | allocated (p : PhysReg)
  | spilled
  deriving DecidableEq, Repr

structure SplitRecord where
  vreg : VRegId
  callPosition : Nat
  callIndex : Nat
  prePhys : PhysReg
  post : PostHalf
  bridgeSlot : Int
  deriving DecidableEq, Repr

structure AllocResult where
  assignments : VRegId → Option PhysReg
  spills : VRegId → Option Int
  calleeSavedUsed : List PhysReg
  splitRecords : List SplitRecord

/-- Where both halves of a split register ended up, if the first one still has its register. -/
def Scan.halves (s : Scan) (sp : SplitInProgress) : Option (PhysReg × PostHalf) :=
  match s.assignments sp.orig with
  | none => none
  | some pre => match s.assignments sp.synthetic with
      | some p => some (pre, .allocated p)
      | none => if (s.spills sp.synthetic).isSome then some (pre, .spilled) else none

def Scan.record (calls : List Nat) (s : Scan) (sp : SplitInProgress) : Option SplitRecord :=
  (s.halves sp).bind fun (pre, post) => (calls.idxOf? sp.callPos).map fun k =>
    { vreg := sp.orig, callPosition := sp.callPos, callIndex := k, prePhys := pre, post := post,
      bridgeSlot := sp.bridgeSlot }

/-- The halves that have been put into a record have no entry of their own any more. -/
def Scan.recorded (s : Scan) (v : VRegId) : Bool :=
  s.splitsInProgress.any fun sp => sp.synthetic == v && (s.halves sp).isSome

def PhysReg.sortKey : PhysReg → Nat
  | .gp n | .gp32 n => n
  | .fp n | .fp32 n => 100 + n
  | _ => 200

def Scan.finish (calls : List Nat) (s : Scan) : AllocResult :=
  { assignments := fun v => if s.recorded v then none else s.assignments v
    spills := fun v => if s.recorded v then none else s.spills v
    calleeSavedUsed := s.calleeSavedUsed.insertionSort fun a b => a.sortKey ≤ b.sortKey
    splitRecords := (s.splitsInProgress.filterMap (s.record calls)).insertionSort fun a b =>
      a.vreg < b.vreg ∨ (a.vreg = b.vreg ∧ a.callPosition ≤ b.callPosition) }

def Scan.initial (mf : MachineFunction) (spillIntervals intervals : List LiveInterval) : Scan :=
  { mf := mf
    assignments := fun _ => none
    spills := fun _ => none
    plan := .new spillIntervals
    gp := .initial false
    fp := .initial true
    calleeSavedUsed := []
    splitsInProgress := []
    worklist := intervals }

/-- The function, with its new slots and registers, and the allocation. -/
def linearScan (mf : MachineFunction) (liveness : LivenessResult) : Option (MachineFunction × AllocResult) :=
  (computeSpillLiveness mf).bind fun spillLiveness =>
    (exhaust (Scan.step mf liveness.callPositions) (2 * liveness.intervals.length + 1)
      (.initial mf spillLiveness.intervals liveness.intervals)).map fun s => (s.mf, s.finish liveness.callPositions)

end Armfortas.Codegen
