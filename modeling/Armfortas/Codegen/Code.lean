import Armfortas.Codegen.Mir
import Armfortas.Lib.Detour
import Mathlib.Algebra.GroupWithZero.Nat
import Mathlib.Data.Nat.Basic
import Mathlib.Order.Monotone.Defs

/-! The labels and instructions of a function as the emitter writes them, one list, and where control goes from each
place. -/
namespace Armfortas.Codegen

/-! ## Conditions -/

def ArmCond.inverse : ArmCond → ArmCond
  | .eq => .ne
  | .ne => .eq
  | .hs => .lo
  | .lo => .hs
  | .mi => .pl
  | .pl => .mi
  | .hi => .ls
  | .ls => .hi
  | .ge => .lt
  | .lt => .ge
  | .gt => .le
  | .le => .gt

structure Flags where
  n : Bool
  z : Bool
  c : Bool
  v : Bool
  deriving DecidableEq, Repr

def ArmCond.holds (f : Flags) : ArmCond → Bool
  | .eq => f.z
  | .ne => !f.z
  | .hs => f.c
  | .lo => !f.c
  | .mi => f.n
  | .pl => !f.n
  | .hi => f.c && !f.z
  | .ls => !f.c || f.z
  | .ge => f.n == f.v
  | .lt => f.n != f.v
  | .gt => !f.z && f.n == f.v
  | .le => f.z || f.n != f.v

inductive BranchTest
  | always
  | never
  | flag (c : ArmCond)
  | zero (reg : MachineOperand)
  | nonzero (reg : MachineOperand)
  | bitClear (reg : MachineOperand) (bit : Int)
  | bitSet (reg : MachineOperand) (bit : Int)
  deriving DecidableEq, Repr

/-- The flags and the registers, as far as branches test them. -/
structure Valuation where
  flags : Flags
  zero : MachineOperand → Bool
  bit : MachineOperand → Int → Bool

namespace BranchTest

def holds (ev : Valuation) : BranchTest → Bool
  | .always => true
  | .never => false
  | .flag c => c.holds ev.flags
  | .zero reg => ev.zero reg
  | .nonzero reg => !ev.zero reg
  | .bitClear reg bit => !ev.bit reg bit
  | .bitSet reg bit => ev.bit reg bit

def inverse : BranchTest → BranchTest
  | .always => .never
  | .never => .always
  | .flag c => .flag c.inverse
  | .zero reg => .nonzero reg
  | .nonzero reg => .zero reg
  | .bitClear reg bit => .bitSet reg bit
  | .bitSet reg bit => .bitClear reg bit

end BranchTest

/-! ## Branches -/

def bcondTarget (i : MachineInst) : Option MBlockId :=
  i.operands.findSome? fun
    | .blockRef b => some b
    | _ => none

def bcondCond (i : MachineInst) : Option ArmCond :=
  i.operands.findSome? fun
    | .cond c => some c
    | _ => none

def MachineInst.branch (i : MachineInst) : Option (MBlockId × BranchTest) :=
  match i.opcode, i.operands with
  | .b, .blockRef t :: _ => some (t, .always)
  | .bLong, [.blockRef t] => some (t, .always)
  | .bCond, _ =>
      match bcondTarget i, bcondCond i with
      | some t, some c => some (t, .flag c)
      | _, _ => none
  | .cbz, reg :: .blockRef t :: _ => some (t, .zero reg)
  | .cbnz, reg :: .blockRef t :: _ => some (t, .nonzero reg)
  | .tbz, reg :: .imm bit :: .blockRef t :: _ => some (t, .bitClear reg bit)
  | .tbnz, reg :: .imm bit :: .blockRef t :: _ => some (t, .bitSet reg bit)
  | _, _ => none

/-- Control does not come back to the function: a return, a tail call or a trap. -/
def MachineInst.leaves (i : MachineInst) : Bool :=
  match i.opcode with
  | .ret | .b | .brk => true
  | _ => false

/-! ## The code of a function -/

inductive CodeItem
  | label (b : MBlockId)
  | inst (i : MachineInst)
  deriving DecidableEq, Repr

def MachineBlock.code (b : MachineBlock) : List CodeItem := .label b.id :: b.insts.map .inst

def code (blocks : List MachineBlock) : List CodeItem := blocks.flatMap MachineBlock.code

def labelPos (cs : List CodeItem) (t : MBlockId) : Option Nat := cs.findIdx? (· == .label t)

/-- Where control goes from a place in the code; a label takes no time. -/
def step (ev : Valuation) (cs : List CodeItem) (p : Nat) : Option Nat :=
  match cs[p]? with
  | none => none
  | some (.label _) => some (p + 1)
  | some (.inst i) =>
      match i.branch with
      | some (t, test) => if test.holds ev then labelPos cs t else some (p + 1)
      | none => if i.leaves then none else some (p + 1)

def CodeItem.bytes (size : MachineInst → Nat) : CodeItem → Nat
  | .label _ => 0
  | .inst i => size i

def byteOffset (size : MachineInst → Nat) (cs : List CodeItem) (p : Nat) : Nat :=
  ((cs.take p).map (CodeItem.bytes size)).sum

/-! ## The same control in other code -/

/-- An instruction or a branch on the same test, perhaps inverted. -/
structure Relaxed (i i' : MachineInst) : Prop where
  other : i.branch = none → i' = i
  branch : ∀ t test, i.branch = some (t, test) →
    ∃ t' test', i'.branch = some (t', test') ∧ (test' = test ∨ test' = test.inverse)

/-- The old code has its places in the new one, in order, and from each of them every outcome of the tests leads to the
place of where it led before, through added items only. -/
structure Places (cs cs' : List CodeItem) (place : Nat → Nat) : Prop where
  entry : place 0 = 0
  mono : StrictMono place
  insts : ∀ p i, cs[p]? = some (.inst i) → ∃ i', cs'[place p]? = some (.inst i') ∧ Relaxed i i'
  control : ∀ ev, Lib.Carries (step ev cs) (step ev cs') place

end Armfortas.Codegen
