import Mathlib.Algebra.Ring.Nat
import Mathlib.Data.List.Basic

/-! The classification of an argument by eightbytes and the places of the arguments of a call. A panic, by an index, a
debug assertion or an unreachable branch, is `none`. The arithmetic of the stack is on machine words and wraps, as it
does without overflow checks. -/
namespace Armfortas.Codegen.X86

inductive X86Reg
  | rax | rcx | rdx | rbx | rsp | rbp | rsi | rdi | r8 | r9 | r10 | r11 | r12 | r13 | r14 | r15
  | xmm0 | xmm1 | xmm2 | xmm3 | xmm4 | xmm5 | xmm6 | xmm7 | xmm8 | xmm9 | xmm10 | xmm11 | xmm12 | xmm13 | xmm14 | xmm15
  deriving DecidableEq, Repr

def X86Reg.isGp : X86Reg → Bool
  | .rax | .rcx | .rdx | .rbx | .rsp | .rbp | .rsi | .rdi | .r8 | .r9 | .r10 | .r11 | .r12 | .r13 | .r14 | .r15 => true
  | _ => false

/-! ## Types of arguments -/

inductive Class
  | integer
  | sse
  | sseUp
  | x87
  | x87Up
  | complexX87
  | noClass
  | memory
  deriving DecidableEq, Repr

inductive AbiField
  | bool
  | i8
  | i16
  | i32
  | i64
  | i128
  | f32
  | f64
  | ptr
  deriving DecidableEq, Repr

namespace AbiField

def size : AbiField → Nat
  | bool | i8 => 1
  | i16 => 2
  | i32 | f32 => 4
  | i64 | f64 | ptr => 8
  | i128 => 16

def align (f : AbiField) : Nat := f.size

def classOf : AbiField → Class
  | bool | i8 | i16 | i32 | i64 | i128 | ptr => .integer
  | f32 | f64 => .sse

end AbiField

/-- An aggregate by its leaves. Its size is a `u64`, and its alignment a power of two that is one. -/
structure AbiAggregate where
  size : Nat
  align : Nat
  fields : List (Nat × AbiField)
  sizeLt : size < 2 ^ 64
  alignPow : ∃ k < 64, align = 2 ^ k

inductive AbiTy
  | scalar (f : AbiField)
  | complexF32
  | complexF64
  | aggregate (a : AbiAggregate)

namespace AbiTy

def size : AbiTy → Nat
  | scalar f => f.size
  | complexF32 => 8
  | complexF64 => 16
  | aggregate a => a.size

def stackAlign : AbiTy → Nat
  | scalar .i128 => 16
  | scalar f => max f.align 8
  | complexF32 | complexF64 => 8
  | aggregate a => max a.align 8

def leaves : AbiTy → List (Nat × AbiField)
  | scalar .i128 => [(0, .i64), (8, .i64)]
  | scalar f => [(0, f)]
  | complexF32 => [(0, .f32), (4, .f32)]
  | complexF64 => [(0, .f64), (8, .f64)]
  | aggregate a => a.fields

end AbiTy

/-! ## Classification -/

inductive Classified
  | memory
  | eightbytes (classes : List Class)
  deriving DecidableEq, Repr

def merge (a b : Class) : Class :=
  if a = b then a
  else match a, b with
    | .noClass, x => x
    | x, .noClass => x
    | .memory, _ | _, .memory => .memory
    | .integer, _ | _, .integer => .integer
    | .x87, _ | _, .x87 | .x87Up, _ | _, .x87Up | .complexX87, _ | _, .complexX87 => .memory
    | _, _ => .sse

def mergeAt (classes : List Class) (idx : Nat) (c : Class) : Option (List Class) :=
  classes[idx]?.map fun old => classes.set idx (merge old c)

def mergeLeaf (classes : List Class) (leaf : Nat × AbiField) : Option (List Class) :=
  let idx := leaf.1 / 8
  (mergeAt classes idx leaf.2.classOf).bind fun classes =>
    if leaf.1 % 8 + min leaf.2.size 8 ≤ 8 then
      if 8 < leaf.2.size then mergeAt classes (idx + 1) leaf.2.classOf else some classes
    else none

/-- An `X87Up` that does not follow an `X87`. -/
def strayX87Up : Option Class → List Class → Bool
  | _, [] => false
  | prev, c :: cs => (c == .x87Up && prev != some .x87) || strayX87Up (some c) cs

/-- An `SseUp` that does not follow an `Sse` or an `SseUp` becomes an `Sse`. -/
def settleSseUp : Option Class → List Class → List Class
  | _, [] => []
  | prev, c :: cs =>
      let c := if c = .sseUp ∧ prev ≠ some .sse ∧ prev ≠ some .sseUp then .sse else c
      c :: settleSseUp (some c) cs

def postMerge (classes : List Class) : Classified :=
  if classes.contains .memory then .memory
  else if strayX87Up none classes then .memory
  else if 2 < classes.length ∧ (classes.head? ≠ some .sse ∨ classes.tail.any (· != .sseUp)) then .memory
  else .eightbytes (settleSseUp none classes)

def AbiTy.nEightbytes (ty : AbiTy) : Nat := max ((ty.size + 7) / 8) 1

def classify (ty : AbiTy) : Option Classified :=
  if 8 < ty.nEightbytes then some .memory
  else if ty.leaves.any fun leaf => leaf.1 % leaf.2.align != 0 then some .memory
  else (ty.leaves.foldlM mergeLeaf (List.replicate ty.nEightbytes .noClass)).map postMerge

/-! ## Places -/

def argGp : List X86Reg := [.rdi, .rsi, .rdx, .rcx, .r8, .r9]

def argXmm : List X86Reg := [.xmm0, .xmm1, .xmm2, .xmm3, .xmm4, .xmm5, .xmm6, .xmm7]

inductive X86AbiArgLoc
  | gp (r : X86Reg)
  | gpPair (a b : X86Reg)
  | xmm (r : X86Reg)
  | xmmPair (a b : X86Reg)
  | gpThenXmm (a b : X86Reg)
  | xmmThenGp (a b : X86Reg)
  | stack (offset size align : Int64)
  deriving DecidableEq, Repr

structure X86AbiState where
  gpIdx : Nat := 0
  xmmIdx : Nat := 0
  stackOffset : Int64 := 0
  deriving DecidableEq, Repr

def X86AbiState.pushStack (st : X86AbiState) (ty : AbiTy) : X86AbiArgLoc × X86AbiState :=
  let align := (UInt64.ofNat ty.stackAlign).toInt64
  let offset := (st.stackOffset + align - 1) &&& ~~~(align - 1)
  let size := ((UInt64.ofNat ty.size + 7) &&& ~~~7).toInt64
  (.stack offset size align, { st with stackOffset := offset + size })

def takeRegs : List Class → X86AbiState → Option (List X86Reg × X86AbiState)
  | [], st => some ([], st)
  | .integer :: classes, st => do
      let r ← argGp[st.gpIdx]?
      let (regs, st) ← takeRegs classes { st with gpIdx := st.gpIdx + 1 }
      return (r :: regs, st)
  | .sse :: classes, st => do
      let r ← argXmm[st.xmmIdx]?
      let (regs, st) ← takeRegs classes { st with xmmIdx := st.xmmIdx + 1 }
      return (r :: regs, st)
  | _ :: _, _ => none

def argShape : List Class → List X86Reg → Option X86AbiArgLoc
  | [.integer], [r] => some (.gp r)
  | [.sse], [r] => some (.xmm r)
  | [.integer, .integer], [a, b] => some (.gpPair a b)
  | [.sse, .sse], [a, b] => some (.xmmPair a b)
  | [.integer, .sse], [a, b] => some (.gpThenXmm a b)
  | [.sse, .integer], [a, b] => some (.xmmThenGp a b)
  | _, _ => none

def classifyAbiArg (ty : AbiTy) (st : X86AbiState) : Option (X86AbiArgLoc × X86AbiState) :=
  match classify ty with
  | none => none
  | some .memory => some (st.pushStack ty)
  | some (.eightbytes classes) =>
      let gpNeeded := classes.count .integer
      let xmmNeeded := classes.count .sse
      if gpNeeded + xmmNeeded ≠ classes.length then none
      else if argGp.length < st.gpIdx + gpNeeded ∨ argXmm.length < st.xmmIdx + xmmNeeded then some (st.pushStack ty)
      else
        (takeRegs classes st).bind fun r => (argShape classes r.1).map fun loc => (loc, r.2)

def classifyArgs : List AbiTy → X86AbiState → Option (List X86AbiArgLoc × X86AbiState)
  | [], st => some ([], st)
  | ty :: tys, st =>
      (classifyAbiArg ty st).bind fun r => (classifyArgs tys r.2).map fun rest => (r.1 :: rest.1, rest.2)

/-! ## What the places are -/

namespace X86AbiArgLoc

def regs : X86AbiArgLoc → List X86Reg
  | gp r | xmm r => [r]
  | gpPair a b | xmmPair a b | gpThenXmm a b | xmmThenGp a b => [a, b]
  | stack _ _ _ => []

/-- The first byte on the stack and the one behind the last. -/
def area : X86AbiArgLoc → Option (Int × Int)
  | stack offset size _ => some (offset.toInt, offset.toInt + size.toInt)
  | _ => none

end X86AbiArgLoc

def AbiTy.needed (ty : AbiTy) (c : Class) : Nat :=
  match classify ty with
  | some (.eightbytes classes) => classes.count c
  | _ => 0

/-- The most the stack of a call grows by for an argument, counting what rounding adds. -/
def AbiTy.stackCost (ty : AbiTy) : Nat := ty.stackAlign + ty.size + 7

def touchedBy (leaf : Nat × AbiField) : List Nat :=
  if 8 < leaf.2.size then [leaf.1 / 8, leaf.1 / 8 + 1] else [leaf.1 / 8]

/-- Every leaf lies in the type, and no eightbyte is padding only in a type that may go to registers. -/
def AbiTy.covered (ty : AbiTy) : Bool :=
  let touched := ty.leaves.flatMap touchedBy
  decide (8 < ty.nEightbytes) || (ty.leaves.any fun leaf => leaf.1 % leaf.2.align != 0) ||
    (touched.all (· < ty.nEightbytes) &&
      (decide (2 < ty.nEightbytes) || (List.range ty.nEightbytes).all (touched.contains ·)))

end Armfortas.Codegen.X86
