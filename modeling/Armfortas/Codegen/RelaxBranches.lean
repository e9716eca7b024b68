import Armfortas.Codegen.Code
import Armfortas.Lib.AssocMap
import Mathlib.Algebra.Group.Int.Defs
import Mathlib.Algebra.Order.Group.Unbundled.Abs

/-! `relax_branches` with the parts of a machine function that it reads and writes. `none` is a panic. The bytes of an
instruction come from the emitter: a branch is one word and a long branch three, and the sizes of all others are a
parameter. -/
namespace Armfortas.Codegen
open Lib

structure BranchFunction where
  name : String
  blocks : List MachineBlock
  nextBlock : Nat
  longBranchLabels : AssocMap MBlockId String

namespace BranchFunction

def hasBlock (mf : BranchFunction) (id : MBlockId) : Bool := mf.blocks.any fun b => b.id == id

def blockPosition (mf : BranchFunction) (id : MBlockId) : Option Nat := mf.blocks.findIdx? fun b => b.id == id

/-- Where `block` and `block_mut` find a block: at its own number if it is there. -/
def blockIndex (mf : BranchFunction) (id : MBlockId) : Option Nat :=
  if mf.blocks[id]?.any fun b => b.id == id then some id else mf.blockPosition id

def block (mf : BranchFunction) (id : MBlockId) : Option MachineBlock := do
  let idx ← mf.blockIndex id
  mf.blocks[idx]?

def ensureLongBranchLabel (mf : BranchFunction) (target : MBlockId) : Option BranchFunction :=
  if (mf.longBranchLabels.get? target).isSome then some mf
  else do
    let _ ← mf.block target
    let label := "larmfortas_" ++ mf.name ++ "_long_" ++ toString target
    some { mf with longBranchLabels := mf.longBranchLabels.insert target label }

end BranchFunction

/-! ## Sizes -/

/-- The word of a branch whose target operand is given; its label must exist. -/
def emitTarget (mf : BranchFunction) : Option MachineOperand → Option Nat
  | none => none
  | some (.blockRef id) => if mf.hasBlock id then some 4 else none
  | some _ => some 4

def instEmitBytes (other : MachineInst → Nat) (mf : BranchFunction) (inst : MachineInst) : Option Nat :=
  match inst.opcode with
  | .b => emitTarget mf inst.operands[0]?
  | .bCond | .cbz | .cbnz => emitTarget mf inst.operands[1]?
  | .tbz | .tbnz => emitTarget mf inst.operands[2]?
  | .bLong =>
      match inst.operands with
      | [.blockRef id] => if (mf.longBranchLabels.get? id).isSome then some 12 else none
      | _ => none
  | _ => some (other inst)

/-! ## Branches and their ranges -/

structure BranchLimits where
  cond : Int
  tbz : Int
  unconditional : Int

def productionBranchLimits : BranchLimits where
  cond := 1048576 - 64
  tbz := 32768 - 64
  unconditional := 134217728 - 64

inductive RelaxKind
  | b
  | bCond (cond : ArmCond)
  | cbz (invertTo : ArmOpcode) (reg : MachineOperand)
  | tbz (invertTo : ArmOpcode) (reg : MachineOperand) (bit : Int)
  deriving DecidableEq, Repr

/-- The target, the configured range and the rewrite of a local direct branch. -/
def relaxableBranch (inst : MachineInst) (limits : BranchLimits) : Option (MBlockId × Int × RelaxKind) :=
  match inst.opcode, inst.operands with
  | .b, .blockRef target :: _ => some (target, limits.unconditional, .b)
  | .bCond, _ =>
      match bcondTarget inst, bcondCond inst with
      | some target, some cond => some (target, limits.cond, .bCond cond)
      | _, _ => none
  | .cbz, reg :: .blockRef target :: _ => some (target, limits.cond, .cbz .cbnz reg)
  | .cbnz, reg :: .blockRef target :: _ => some (target, limits.cond, .cbz .cbz reg)
  | .tbz, reg :: .imm bit :: .blockRef target :: _ => some (target, limits.tbz, .tbz .tbnz reg bit)
  | .tbnz, reg :: .imm bit :: .blockRef target :: _ => some (target, limits.tbz, .tbz .tbz reg bit)
  | _, _ => none

structure OverflowSite where
  blockId : MBlockId
  instIdx : Nat
  target : MBlockId
  kind : RelaxKind
  deriving DecidableEq, Repr

structure BranchSite where
  overflow : OverflowSite
  localOffset : Int
  limit : Int

structure BranchLayout where
  blockOffsets : AssocMap MBlockId Int
  sites : List BranchSite

/-! ## The scan -/

section Scan

variable (other : MachineInst → Nat) (limits : BranchLimits) (mf : BranchFunction)

/-- The branch sites of a block from the instruction `instIdx` on, and the bytes of the block. -/
def scanInsts (blockId : MBlockId) : Nat → Int → List MachineInst → Option (List BranchSite × Int)
  | _, localOffset, [] => some ([], localOffset)
  | instIdx, localOffset, inst :: insts => do
      let here := match relaxableBranch inst limits with
        | some (target, limit, kind) => [⟨⟨blockId, instIdx, target, kind⟩, localOffset, limit⟩]
        | none => []
      let bytes ← instEmitBytes other mf inst
      let (sites, total) ← scanInsts blockId (instIdx + 1) (localOffset + bytes) insts
      some (here ++ sites, total)

def scanBlocks : Int → AssocMap MBlockId Int → List MachineBlock → Option BranchLayout
  | _, offsets, [] => some ⟨offsets, []⟩
  | running, offsets, block :: blocks => do
      let (sites, bytes) ← scanInsts other limits mf block.id 0 0 block.insts
      let layout ← scanBlocks (running + bytes) (offsets.insert block.id running) blocks
      some ⟨layout.blockOffsets, sites ++ layout.sites⟩

def scanBranchLayout : Option BranchLayout := scanBlocks other limits mf 0 [] mf.blocks

end Scan

/-- Whether a site is out of range; a target that is no block of the function is left alone. -/
def overflowOf (offsets : AssocMap MBlockId Int) (site : BranchSite) : Option (Option OverflowSite) := do
  let sourceOffset ← offsets.get? site.overflow.blockId
  match offsets.get? site.overflow.target with
  | none => some none
  | some targetOffset =>
      let delta := targetOffset - (sourceOffset + site.localOffset)
      some (if site.limit < |delta| then some site.overflow else none)

def intoOverflows (offsets : AssocMap MBlockId Int) : List BranchSite → Option (List OverflowSite)
  | [] => some []
  | site :: sites => do
      let overflow ← overflowOf offsets site
      let overflows ← intoOverflows offsets sites
      some (overflow.toList ++ overflows)

/-! ## The rewrites -/

def invertedBranch (skip : MBlockId) : RelaxKind → Option MachineInst
  | .b => none
  | .bCond cond => some ⟨.bCond, [.cond cond.inverse, .blockRef skip], none⟩
  | .cbz invertTo reg => some ⟨invertTo, [reg, .blockRef skip], none⟩
  | .tbz invertTo reg bit => some ⟨invertTo, [reg, .imm bit, .blockRef skip], none⟩

def branchTo (target : MBlockId) : MachineInst := ⟨.b, [.blockRef target], none⟩

def longBranchTo (target : MBlockId) : MachineInst := ⟨.bLong, [.blockRef target], none⟩

def expandConditionalToTrampoline (mf : BranchFunction) (blockId : MBlockId) (instIdx : Nat) (farTarget : MBlockId)
    (kind : RelaxKind) : Option BranchFunction := do
  let skipId := mf.nextBlock
  let skipLabel := (← mf.block blockId).label ++ "_relax" ++ toString skipId
  let inverted ← invertedBranch skipId kind
  let blockPos ← mf.blockPosition blockId
  let block ← mf.blocks[blockPos]?
  if instIdx < block.insts.length then
    let shortened := { block with insts := block.insts.take instIdx ++ [inverted, branchTo farTarget] }
    let skipBlock : MachineBlock := ⟨skipId, skipLabel, block.insts.drop (instIdx + 1)⟩
    some { mf with
      blocks := mf.blocks.take blockPos ++ shortened :: skipBlock :: mf.blocks.drop (blockPos + 1)
      nextBlock := mf.nextBlock + 1 }
  else
    none

def widenUnconditional (mf : BranchFunction) (blockId : MBlockId) (instIdx : Nat) (farTarget : MBlockId) :
    Option BranchFunction := do
  let mf ← mf.ensureLongBranchLabel farTarget
  let blockPos ← mf.blockIndex blockId
  let block ← mf.blocks[blockPos]?
  if instIdx < block.insts.length then
    let widened := { block with insts := block.insts.set instIdx (longBranchTo farTarget) }
    some { mf with blocks := mf.blocks.set blockPos widened }
  else
    none

def expandOverflow (mf : BranchFunction) (site : OverflowSite) : Option BranchFunction :=
  match site.kind with
  | .b => widenUnconditional mf site.blockId site.instIdx site.target
  | kind => expandConditionalToTrampoline mf site.blockId site.instIdx site.target kind

/-! ## The passes -/

def laterSite (mf : BranchFunction) (a b : OverflowSite) : Bool :=
  let aPos := (mf.blockPosition a.blockId).getD 0
  let bPos := (mf.blockPosition b.blockId).getD 0
  decide (bPos < aPos) || (aPos == bPos && decide (b.instIdx ≤ a.instIdx))

def sortSites (mf : BranchFunction) (sites : List OverflowSite) : Option (List OverflowSite) :=
  if sites.all fun site => (mf.blockPosition site.blockId).isSome then some (sites.mergeSort (laterSite mf)) else none

def expandAll : BranchFunction → List OverflowSite → Option BranchFunction
  | mf, [] => some mf
  | mf, site :: sites => do
      let mf ← expandOverflow mf site
      expandAll mf sites

/-- `relax_once_with_limits`, with whether anything changed. -/
def relaxOnceWithLimits (other : MachineInst → Nat) (limits : BranchLimits) (mf : BranchFunction) :
    Option (BranchFunction × Bool) := do
  let layout ← scanBranchLayout other limits mf
  let overflows ← intoOverflows layout.blockOffsets layout.sites
  if overflows.isEmpty then
    some (mf, false)
  else do
    let sorted ← sortSites mf overflows
    let expanded ← expandAll mf sorted
    some (expanded, true)

def isUnconditional (limits : BranchLimits) (inst : MachineInst) : Bool :=
  match relaxableBranch inst limits with
  | some (_, _, .b) => true
  | _ => false

def isConditional (limits : BranchLimits) (inst : MachineInst) : Bool :=
  (relaxableBranch inst limits).isSome && !isUnconditional limits inst

/-- The structural bound: a conditional branch can change into a short one and a `B`, and a `B` into a veneer. -/
def maxChangingPasses (limits : BranchLimits) (mf : BranchFunction) : Nat :=
  let insts := mf.blocks.flatMap MachineBlock.insts
  insts.countP (isConditional limits) * 2 + insts.countP (isUnconditional limits)

/-- The passes, up to a bound past which the source panics. -/
def relaxPasses (other : MachineInst → Nat) (limits : BranchLimits) : Nat → BranchFunction → Option BranchFunction
  | 0, _ => none
  | bound + 1, mf => do
      let (relaxed, changed) ← relaxOnceWithLimits other limits mf
      if changed then relaxPasses other limits bound relaxed else some relaxed

def relaxBranchesWithLimits (other : MachineInst → Nat) (limits : BranchLimits) (mf : BranchFunction) :
    Option BranchFunction :=
  relaxPasses other limits (maxChangingPasses limits mf + 1) mf

def relaxBranches (other : MachineInst → Nat) (mf : BranchFunction) : Option BranchFunction :=
  relaxBranchesWithLimits other productionBranchLimits mf

/-! ## What relaxation is for -/

namespace BranchFunction

def code (mf : BranchFunction) : List CodeItem := Codegen.code mf.blocks

def size (other : MachineInst → Nat) (mf : BranchFunction) (inst : MachineInst) : Nat :=
  (instEmitBytes other mf inst).getD 0

/-- A function the emitter accepts, with its blocks numbered by `new_block`. -/
structure WellFormed (mf : BranchFunction) : Prop where
  distinct : (mf.blocks.map MachineBlock.id).Nodup
  numbered : ∀ b ∈ mf.blocks, b.id < mf.nextBlock
  emitted : ∀ i, .inst i ∈ mf.code → ∀ other, (instEmitBytes other mf i).isSome
  targets : ∀ i, .inst i ∈ mf.code → ∀ t test, i.branch = some (t, test) → mf.hasBlock t = true

def InRange (other : MachineInst → Nat) (limits : BranchLimits) (mf : BranchFunction) : Prop :=
  ∀ (p q : Nat) (i : MachineInst) (t : MBlockId) (limit : Int) (kind : RelaxKind),
    mf.code[p]? = some (.inst i) → relaxableBranch i limits = some (t, limit, kind) →
    labelPos mf.code t = some q →
    |(byteOffset (mf.size other) mf.code q : Int) - byteOffset (mf.size other) mf.code p| ≤ limit

end BranchFunction

end Armfortas.Codegen
