import Armfortas.Ir.Semantics.Memory
import Armfortas.Ir.Walk

/-! What the IR leaves open is a parameter: the target's arithmetic (`Target`) and everything outside the function
(`World`). Within these, execution is a function of the state. Calls, volatile accesses and stores are recorded in a
trace. -/
namespace Armfortas.Ir
open Lib

/-! ## Arithmetic of the target -/

/-- The blocks of storage a value points into. -/
def Val.bases : Val → List Base
  | .ptr p => [p.base]
  | .bytes bs => bs.filterMap fun
      | .frag p _ => some p.base
      | .byte _ => none
  | _ => []

/-- Operations on vectors and aggregates, without their operands. -/
inductive WideOp
  | bin (op : VecBinOp)
  | un (op : VecUnOp)
  | fma
  | select
  | iCmp (op : CmpOp)
  | fCmp (op : CmpOp)
  | bitcast (ty : IrType)
  | extract (lane : Nat)
  | insert (lane : Nat)
  | broadcast
  | reduce (op : VecReduceOp)
  | extractField (field : Nat)
  | insertField (field : Nat)

/-- What the target decides. `none` from a division, a power or a square root is a trap. Vector operations
move pointers but do not invent them. -/
structure Target where
  /-- numeric address of a pointer -/
  place : Ptr → Int
  /-- quotient or remainder by zero, or of the least number by -1 -/
  exceptional : IntBinOp → IntWidth → Int → Int → Option Int
  /-- shift by a negative amount or by at least the width -/
  shiftBeyond : BitBinOp → IntWidth → Int → Int → Int
  floatConst : BitVec 64 → FloatWidth → Nat
  floatAdd : FloatWidth → Nat → Nat → Nat
  floatSub : FloatWidth → Nat → Nat → Nat
  floatMul : FloatWidth → Nat → Nat → Nat
  floatDiv : FloatWidth → Nat → Nat → Option Nat
  floatPow : FloatWidth → Nat → Nat → Option Nat
  floatSqrt : FloatWidth → Nat → Option Nat
  floatNeg : FloatWidth → Nat → Nat
  floatAbs : FloatWidth → Nat → Nat
  floatCmp : CmpOp → FloatWidth → Nat → Nat → Bool
  intToFloat : IntWidth → Int → FloatWidth → Nat
  floatToInt : FloatWidth → Nat → IntWidth → Int
  floatResize : FloatWidth → Nat → FloatWidth → Nat
  /-- `none` where the target has no such operation -/
  wide : WideOp → IrType → List Val → Option Val
  wide_honest : ∀ op ty vals v, wide op ty vals = some v → ∀ b ∈ v.bases, ∃ x ∈ vals, b ∈ x.bases

/-- The address of a pointer as an `i64`. -/
def Target.address (T : Target) (p : Ptr) : Int :=
  match p.base with
  | .absolute => IntWidth.i64.wrap p.off
  | _ => IntWidth.i64.wrap (T.place p)

def Val.asInt (T : Target) : Val → Option (IntWidth × Int)
  | .int w x => some (w, x)
  | .ptr p => some (.i64, T.address p)
  | _ => none

def CmpOp.eval : CmpOp → Int → Int → Bool
  | .eq, x, y => x = y
  | .ne, x, y => x ≠ y
  | .lt, x, y => x < y
  | .le, x, y => x ≤ y
  | .gt, x, y => x > y
  | .ge, x, y => x ≥ y

/-- Two's complement arithmetic; division truncates. -/
def Target.evalInt (T : Target) (op : IntBinOp) (w : IntWidth) (x y : Int) : Option Int :=
  match op with
  | .add => some (w.wrap (x + y))
  | .sub => some (w.wrap (x - y))
  | .mul => some (w.wrap (x * y))
  | .div => if y = 0 ∨ (x = -2 ^ (w.bits - 1) ∧ y = -1) then (T.exceptional .div w x y).map w.wrap else some (x.tdiv y)
  | .mod => if y = 0 ∨ (x = -2 ^ (w.bits - 1) ∧ y = -1) then (T.exceptional .mod w x y).map w.wrap else some (x.tmod y)

def Target.evalBit (T : Target) (op : BitBinOp) (w : IntWidth) (x y : Int) : Int :=
  let a := BitVec.ofInt w.bits x
  let b := BitVec.ofInt w.bits y
  let shift (r : BitVec w.bits) : Int :=
    if 0 ≤ y ∧ y < w.bits then r.toInt else w.wrap (T.shiftBeyond op w x y)
  match op with
  | .and => (a &&& b).toInt
  | .or => (a ||| b).toInt
  | .xor => (a ^^^ b).toInt
  | .shl => shift (a <<< y.toNat)
  | .lshr => shift (a >>> y.toNat)
  | .ashr => shift (a.sshiftRight y.toNat)

def evalBitUn (op : BitUnOp) (w : IntWidth) (x : Int) : Int :=
  let a := BitVec.ofInt w.bits x
  match op with
  | .not => (~~~ a).toInt
  | .countLeadingZeros => w.wrap ((List.range w.bits).takeWhile fun i => !a.getMsbD i).length
  | .countTrailingZeros => w.wrap ((List.range w.bits).takeWhile fun i => !a.getLsbD i).length
  | .popCount => w.wrap ((List.range w.bits).countP a.getLsbD)

def Target.evalFloat (T : Target) (op : FloatBinOp) (w : FloatWidth) (x y : Nat) : Option Nat :=
  match op with
  | .add => some (T.floatAdd w x y % 2 ^ w.bits)
  | .sub => some (T.floatSub w x y % 2 ^ w.bits)
  | .mul => some (T.floatMul w x y % 2 ^ w.bits)
  | .div => (T.floatDiv w x y).map (· % 2 ^ w.bits)
  | .pow => (T.floatPow w x y).map (· % 2 ^ w.bits)

def Target.evalFloatUn (T : Target) (op : FloatUnOp) (w : FloatWidth) (x : Nat) : Option Nat :=
  match op with
  | .neg => some (T.floatNeg w x % 2 ^ w.bits)
  | .abs => some (T.floatAbs w x % 2 ^ w.bits)
  | .sqrt => (T.floatSqrt w x).map (· % 2 ^ w.bits)

/-! ## The world outside -/

inductive Callee
  | internal (index : Nat)
  | external (name : String)
  | indirect (target : Val)
  | runtime (func : RuntimeFunc)
  deriving DecidableEq

/-- Memory holds a pointer into the block. -/
def Mem.Mentions (m : Mem) (b : Base) : Prop := ∃ b' o p i, m b' o = some (.frag p i) ∧ p.base = b

/-- What a call does: its result and the contents of the storage it can reach. -/
structure Response where
  result : Val
  mem : Mem

/-- Everything outside the activation numbered `frame`. A call is answered from the number of interactions
before it, the callee, the arguments, the local storage whose address callees were given, and the memory
they can reach; `none` is a call that does not return. Nobody invents a pointer into this activation. -/
structure World where
  frame : Nat
  respond : Nat → Callee → List Val → List Base → Mem → Option Response
  /-- the bytes a volatile load finds, given the ones in memory -/
  volatileRead : Nat → Ptr → List MByte → List MByte
  undef : ValueId → IrType → Val
  respond_honest : ∀ n c args known view r b, respond n c args known view = some r → b.isLocal frame = true →
    b ∈ r.result.bases ∨ r.mem.Mentions b → b ∈ known ∨ view.Mentions b
  volatileRead_length : ∀ n p bs, (volatileRead n p bs).length = bs.length
  volatileRead_honest : ∀ n p bs q i, q.base.isLocal frame = true → .frag q i ∈ volatileRead n p bs →
    ∃ q' j, .frag q' j ∈ bs ∧ q'.base = q.base
  undef_honest : ∀ v ty b, b ∈ (undef v ty).bases → b.isLocal frame = false

/-- The storage a callee can reach: all that is not local to this activation, what it was told about, and
what pointers found there lead to. -/
inductive Accessible (frame : Nat) (known : List Base) (m : Mem) : Base → Prop
  | shared {b : Base} : b.isLocal frame = false → Accessible frame known m b
  | known {b : Base} : b ∈ known → Accessible frame known m b
  | stored {b : Base} {o : Int} {p : Ptr} {i : Nat} :
      Accessible frame known m b → m b o = some (.frag p i) → Accessible frame known m p.base

open Classical in
/-- The part of memory in the given blocks. -/
noncomputable def Mem.restrict (m : Mem) (s : Base → Prop) : Mem := fun b o => if s b then m b o else none

/-- New contents for a block. Only foreign storage comes and goes. -/
def Mem.refill (b : Base) (old new : Option MByte) : Option MByte :=
  match b with
  | .foreign _ => new
  | _ => old.map fun x => new.getD x

open Classical in
/-- Memory after a call that could reach the given blocks. -/
noncomputable def Mem.absorb (m : Mem) (s : Base → Prop) (new : Mem) : Mem := fun b o =>
  if s b then Mem.refill b (m b o) (new b o) else m b o

/-! ## States -/

inductive Event
  | store (p : Ptr) (bs : List MByte)
  | volatileLoad (p : Ptr) (bs : List MByte)
  | volatileStore (p : Ptr) (bs : List MByte)
  | call (callee : Callee) (args : List Val) (view : Mem)
  | boundsError (args : List Val)

abbrev Env := ValueId → Option Val

def Env.set (env : Env) (v : ValueId) (x : Val) : Env := fun u => if u = v then some x else env u

@[simp] theorem Env.set_self (env : Env) (v : ValueId) (x : Val) : env.set v x v = some x := by simp [Env.set]

@[simp] theorem Env.set_ne (env : Env) {u v : ValueId} (x : Val) (h : u ≠ v) : env.set v x u = env u := by
  simp [Env.set, h]

/-- What lives outside the SSA values: memory, the local storage callees were given addresses of, the
number of calls and volatile accesses so far, and the trace with the latest event first. -/
structure Heap where
  mem : Mem
  known : List Base
  clock : Nat
  trace : List Event

structure State extends Heap where
  env : Env

/-- Why execution does not go on: a trap of the machine, an exit from the program inside a call, or a
state the IR gives no meaning to. -/
inductive Halt
  | trap
  | exit
  | stuck
  deriving DecidableEq

/-- What an instruction does: the value it yields, if any, and the heap after it. -/
inductive Effect
  | ok (v : Option Val) (h : Heap)
  | halt (why : Halt) (trace : List Event)

inductive Result
  | ok (σ : State)
  | halt (why : Halt) (trace : List Event)

/-! ## Computations -/

inductive Computed
  | value (v : Val)
  | trap
  | stuck

def Computed.ofOption (r : Option Int) (mk : Int → Val) : Computed :=
  match r with
  | some x => .value (mk x)
  | none => .trap

def Computed.ofFloat (w : FloatWidth) (r : Option Nat) : Computed :=
  match r with
  | some x => .value (.float w x)
  | none => .trap

def InstKind.wideOp : InstKind → Option WideOp
  | .vBin op _ _ => some (.bin op)
  | .vUn op _ => some (.un op)
  | .vFma _ _ _ => some .fma
  | .vSelect _ _ _ => some .select
  | .vICmp op _ _ => some (.iCmp op)
  | .vFCmp op _ _ => some (.fCmp op)
  | .vBitcast _ ty => some (.bitcast ty)
  | .vExtract _ lane => some (.extract lane)
  | .vInsert _ lane _ => some (.insert lane)
  | .vBroadcast _ => some .broadcast
  | .vReduce op _ => some (.reduce op)
  | .extractField _ n => some (.extractField n)
  | .insertField _ n _ => some (.insertField n)
  | _ => none

def Target.onInts (T : Target) (x y : Val) (k : IntWidth → Int → Int → Computed) : Computed :=
  match x.asInt T, y.asInt T with
  | some (w, a), some (w', b) => if w = w' then k w a b else .stuck
  | _, _ => .stuck

def pointeeSize : IrType → Option Nat
  | .ptr inner => byteSize inner
  | _ => none

/-- `p` moved by `idx` elements of `size` bytes, in 64-bit arithmetic. -/
def Ptr.advance (p : Ptr) (idx : Int) (size : Nat) : Ptr :=
  { p with off := IntWidth.i64.wrap (p.off + idx * size) }

def onUnary (vals : List Val) (k : Val → Computed) : Computed :=
  match vals with
  | [x] => k x
  | _ => .stuck

def onBinary (vals : List Val) (k : Val → Val → Computed) : Computed :=
  match vals with
  | [x, y] => k x y
  | _ => .stuck

def Target.onInt (T : Target) (x : Val) (k : IntWidth → Int → Computed) : Computed :=
  match x.asInt T with
  | some (w, a) => k w a
  | none => .stuck

def onFloat (x : Val) (k : FloatWidth → Nat → Computed) : Computed :=
  match x with
  | .float w a => k w a
  | _ => .stuck

def onFloats (x y : Val) (k : FloatWidth → Nat → Nat → Computed) : Computed :=
  match x, y with
  | .float w a, .float w' b => if w = w' then k w a b else .stuck
  | _, _ => .stuck

def evalLogic (op : BoolBinOp) (x y : Val) : Computed :=
  match op, x, y with
  | .and, .bool a, .bool b => .value (.bool (a && b))
  | .or, .bool a, .bool b => .value (.bool (a || b))
  | _, _, _ => .stuck

def evalNot (x : Val) : Computed :=
  match x with
  | .bool a => .value (.bool !a)
  | _ => .stuck

def evalSelect (vals : List Val) : Computed :=
  match vals with
  | [.bool c, x, y] => .value (if c then x else y)
  | _ => .stuck

def Target.evalPtrToInt (T : Target) (x : Val) : Computed :=
  match x with
  | .ptr p => .value (if p.base = .absolute then .int .i64 (T.address p) else .ptr p)
  | _ => .stuck

def evalIntToPtr (x : Val) : Computed :=
  match x with
  | .ptr p => .value (.ptr p)
  | .int .i64 a => .value (.ptr ⟨.absolute, a⟩)
  | _ => .stuck

/-- The base alone, or the base moved by one index. -/
def Target.evalGep (T : Target) (ty : IrType) (vals : List Val) : Computed :=
  match vals with
  | [.ptr p] => .value (.ptr p)
  | [.ptr p, idx] => match idx.asInt T, pointeeSize ty with
      | some (_, a), some size => .value (.ptr (p.advance a size))
      | _, _ => .stuck
  | _ => .stuck

/-- The value of an instruction that touches neither memory nor the world, from its operands' values. -/
def compute (T : Target) (W : World) (i : Inst) (vals : List Val) : Computed :=
  match i.kind with
  | .constInt x w => .value (.int w (w.wrap x))
  | .constFloat b w => .value (.float w (T.floatConst b w % 2 ^ w.bits))
  | .constBool b => .value (.bool b)
  | .constString _ => .value (.ptr ⟨.string i.id, 0⟩)
  | .undef ty => .value (W.undef i.id ty)
  | .alloca _ => .value (.ptr ⟨.slot W.frame i.id, 0⟩)
  | .globalAddr name => .value (.ptr ⟨.global name, 0⟩)
  | .iBin op _ _ => onBinary vals fun x y => T.onInts x y fun w a b => .ofOption (T.evalInt op w a b) (.int w)
  | .iNeg _ => onUnary vals fun x => T.onInt x fun w a => .value (.int w (w.wrap (-a)))
  | .fBin op _ _ => onBinary vals fun x y => onFloats x y fun w a b => .ofFloat w (T.evalFloat op w a b)
  | .fUn op _ => onUnary vals fun x => onFloat x fun w a => .ofFloat w (T.evalFloatUn op w a)
  | .iCmp op _ _ => onBinary vals fun x y => T.onInts x y fun _ a b => .value (.bool (op.eval a b))
  | .fCmp op _ _ => onBinary vals fun x y => onFloats x y fun w a b => .value (.bool (T.floatCmp op w a b))
  | .logic op _ _ => onBinary vals (evalLogic op)
  | .not _ => onUnary vals evalNot
  | .select _ _ _ => evalSelect vals
  | .bitBin op _ _ => onBinary vals fun x y => T.onInts x y fun w a b => .value (.int w (T.evalBit op w a b))
  | .bitUn op _ => onUnary vals fun x => T.onInt x fun w a => .value (.int w (evalBitUn op w a))
  | .intToFloat _ w => onUnary vals fun x => T.onInt x fun w' a =>
      .value (.float w (T.intToFloat w' a w % 2 ^ w.bits))
  | .floatToInt _ w => onUnary vals fun x => onFloat x fun w' a => .value (.int w (w.wrap (T.floatToInt w' a w)))
  | .floatExtend _ w | .floatTrunc _ w => onUnary vals fun x => onFloat x fun w' a =>
      .value (.float w (T.floatResize w' a w % 2 ^ w.bits))
  | .intExtend _ w signed => onUnary vals fun x => T.onInt x fun w' a =>
      .value (.int w (w.wrap (if signed then a else a % 2 ^ w'.bits)))
  | .intTrunc _ w => onUnary vals fun x => T.onInt x fun _ a => .value (.int w (w.wrap a))
  | .ptrToInt _ => onUnary vals T.evalPtrToInt
  | .intToPtr _ _ => onUnary vals evalIntToPtr
  | .getElementPtr _ _ => T.evalGep i.ty vals
  | k => match k.wideOp with
      | some op => match T.wide op i.ty vals with
          | some v => .value v
          | none => .stuck
      | none => .stuck

/-! ## Instructions -/

def execLoad (T : Target) (ty : IrType) (p : Ptr) (h : Heap) : Effect :=
  match byteSize ty with
  | none => .halt .stuck h.trace
  | some n => match h.mem.read p n with
      | none => .halt .trap h.trace
      | some bs => match decode T.address ty bs with
          | some v => .ok (some v) h
          | none => .halt .stuck h.trace

def execStore (v : Val) (p : Ptr) (h : Heap) : Effect :=
  match h.mem.write p v.encode with
  | none => .halt .trap h.trace
  | some m => .ok none { h with mem := m, trace := .store p v.encode :: h.trace }

def execVolatileLoad (T : Target) (W : World) (ty : IrType) (p : Ptr) (h : Heap) : Effect :=
  match byteSize ty with
  | none => .halt .stuck h.trace
  | some n => match h.mem.read p n with
      | none => .halt .trap h.trace
      | some bs =>
          let seen := W.volatileRead h.clock p bs
          match decode T.address ty seen with
          | some v => .ok (some v) { h with clock := h.clock + 1, trace := .volatileLoad p seen :: h.trace }
          | none => .halt .stuck h.trace

def execVolatileStore (v : Val) (p : Ptr) (h : Heap) : Effect :=
  match h.mem.write p v.encode with
  | none => .halt .trap h.trace
  | some m => .ok none { h with mem := m, clock := h.clock + 1, trace := .volatileStore p v.encode :: h.trace }

/-- A call: the callee learns the local addresses among its arguments, sees the storage it can reach, and
may change it. -/
noncomputable def execCall (W : World) (ty : IrType) (c : Callee) (args : List Val) (h : Heap) : Effect :=
  let known := h.known ++ args.flatMap (·.bases)
  let reach := Accessible W.frame known h.mem
  let view := h.mem.restrict reach
  let trace := Event.call c args view :: h.trace
  match W.respond h.clock c args known view with
  | none => .halt .exit trace
  | some r => .ok (if ty = .void then none else some r.result)
      { mem := h.mem.absorb reach r.mem, known := known, clock := h.clock + 1, trace := trace }

/-- The bounds check of the runtime: it ends the program unless `lower ≤ index ≤ upper`. -/
def execCheckBounds (T : Target) (vals : List Val) (h : Heap) : Effect :=
  match vals with
  | [index, lower, upper] => match index.asInt T, lower.asInt T, upper.asInt T with
      | some (_, x), some (_, lo), some (_, hi) =>
          if lo ≤ x ∧ x ≤ hi then .ok none h else .halt .exit (.boundsError vals :: h.trace)
      | _, _, _ => .halt .stuck h.trace
  | _ => .halt .stuck h.trace

def withPtr (vals : List Val) (h : Heap) (k : Ptr → Effect) : Effect :=
  match vals with
  | [.ptr p] => k p
  | _ => .halt .stuck h.trace

def withValueAndPtr (vals : List Val) (h : Heap) (k : Val → Ptr → Effect) : Effect :=
  match vals with
  | [v, .ptr p] => k v p
  | _ => .halt .stuck h.trace

/-- Execute an instruction on the values of its operands. -/
noncomputable def perform (T : Target) (W : World) (i : Inst) (vals : List Val) (h : Heap) : Effect :=
  match i.kind with
  | .load _ | .vLoad _ => withPtr vals h fun p => execLoad T i.ty p h
  | .store _ _ | .vStore _ _ => withValueAndPtr vals h fun v p => execStore v p h
  | .volatileLoad _ => withPtr vals h fun p => execVolatileLoad T W i.ty p h
  | .volatileStore _ _ => withValueAndPtr vals h fun v p => execVolatileStore v p h
  | .call (.indirect _) _ => match vals with
      | target :: args => execCall W i.ty (.indirect target) args h
      | [] => .halt .stuck h.trace
  | .call (.internal n) _ => execCall W i.ty (.internal n) vals h
  | .call (.external name) _ => execCall W i.ty (.external name) vals h
  | .runtimeCall .checkBounds _ => execCheckBounds T vals h
  | .runtimeCall rf _ => execCall W i.ty (.runtime rf) vals h
  | _ => match compute T W i vals with
      | .value v => .ok (some v) h
      | .trap => .halt .trap h.trace
      | .stuck => .halt .stuck h.trace

/-- Bind the result of an instruction, which must inhabit the declared type. -/
def Effect.bind (i : Inst) (env : Env) : Effect → Result
  | .ok none h => .ok { h with env := env }
  | .ok (some v) h => if v.hasType i.ty then .ok { h with env := env.set i.id v } else .halt .stuck h.trace
  | .halt why t => .halt why t

noncomputable def Inst.exec (T : Target) (W : World) (i : Inst) (σ : State) : Result :=
  match i.kind.operands.mapM σ.env with
  | some vals => (perform T W i vals σ.toHeap).bind i σ.env
  | none => .halt .stuck σ.trace

noncomputable def execInsts (T : Target) (W : World) : List Inst → State → Result
  | [], σ => .ok σ
  | i :: is, σ => match i.exec T W σ with
      | .ok σ' => execInsts T W is σ'
      | .halt why t => .halt why t

/-! ## Blocks and runs -/

/-- Where a run stands between two blocks. -/
inductive Outcome
  | running (b : BlockId) (σ : State)
  | returned (v : Option Val) (σ : State)
  | halted (why : Halt) (trace : List Event)

def Outcome.returnValue : Outcome → Option (Option Val)
  | .returned v _ => some v
  | _ => none

theorem Outcome.returnValue_eq_some {o : Outcome} {v : Option Val} (h : o.returnValue = some v) :
    ∃ σ, o = .returned v σ := by
  cases o <;> simp [Outcome.returnValue] at h
  exact ⟨_, by rw [h]⟩

/-- Bind parameters one by one; arguments must match in number and type. -/
def bindParams : List BlockParam → List Val → Env → Option Env
  | [], [], env => some env
  | p :: ps, v :: vs, env => if v.hasType p.ty then bindParams ps vs (env.set p.id v) else none
  | _, _, _ => none

def Function.enter (f : Function) (dest : BlockId) (args : List ValueId) (σ : State) : Outcome :=
  match f.tryBlock dest, args.mapM σ.env with
  | some blk, some vals => match bindParams blk.params vals σ.env with
      | some env => .running dest { σ with env := env }
      | none => .halted .stuck σ.trace
  | _, _ => .halted .stuck σ.trace

/-- The first case with the selector's value, else the default. -/
def switchDest (cases : List (Int × BlockId)) (default : BlockId) (x : Int) : BlockId :=
  match cases.find? (·.1 == x) with
  | some (_, dest) => dest
  | none => default

def Function.execTerm (f : Function) (T : Target) (t : Terminator) (σ : State) : Outcome :=
  match t with
  | .return none => .returned none σ
  | .return (some v) => match σ.env v with
      | some x => .returned (some x) σ
      | none => .halted .stuck σ.trace
  | .branch dest args => f.enter dest args σ
  | .condBranch c tdest targs fdest fargs => match σ.env c with
      | some (.bool true) => f.enter tdest targs σ
      | some (.bool false) => f.enter fdest fargs σ
      | _ => .halted .stuck σ.trace
  | .switch s cases default => match (σ.env s).bind (·.asInt T) with
      | some (_, x) => f.enter (switchDest cases default x) [] σ
      | none => .halted .stuck σ.trace
  | .unreachable => .halted .trap σ.trace

noncomputable def Function.execBlock (f : Function) (T : Target) (W : World) (b : BlockId) (σ : State) : Outcome :=
  match f.tryBlock b with
  | none => .halted .stuck σ.trace
  | some blk => match execInsts T W blk.insts σ with
      | .halt why t => .halted why t
      | .ok σ' => match blk.terminator with
          | some t => f.execTerm T t σ'
          | none => .halted .stuck σ'.trace

noncomputable def Function.step (f : Function) (T : Target) (W : World) : Outcome → Outcome
  | .running b σ => f.execBlock T W b σ
  | o => o

/-- Everything a run depends on besides the function. -/
structure Launch where
  target : Target
  world : World
  args : List Val
  mem : Mem

def Launch.start (L : Launch) (f : Function) : Outcome :=
  match bindParams (f.params.map fun p => ⟨p.id, p.ty⟩) L.args fun _ => none with
  | some env => .running f.entry { env := env, mem := L.mem, known := [], clock := 0, trace := [] }
  | none => .halted .stuck []

noncomputable def Launch.run (L : Launch) (f : Function) : Nat → Outcome
  | 0 => L.start f
  | n + 1 => f.step L.target L.world (L.run f n)

/-- The run enters block `b` in state `σ`. -/
def Launch.Enters (L : Launch) (f : Function) (b : BlockId) (σ : State) : Prop :=
  ∃ n, L.run f n = .running b σ

/-- The run reaches position `k` of block `b` in state `σ`, before the instruction there. -/
def Launch.At (L : Launch) (f : Function) (b : BlockId) (k : Nat) (σ : State) : Prop :=
  ∃ σ₀ blk, L.Enters f b σ₀ ∧ f.tryBlock b = some blk ∧ k ≤ blk.insts.length ∧
    execInsts L.target L.world (blk.insts.take k) σ₀ = .ok σ

/-- Nobody outside knows an address in this activation before it starts, its slots have the storage the
`alloca` instructions ask for, and literals hold their text. -/
structure Launch.Fits (L : Launch) (f : Function) : Prop where
  args : ∀ a ∈ L.args, ∀ b ∈ a.bases, b.isLocal L.world.frame = false
  mem : ∀ b, b.isLocal L.world.frame = true → ¬ L.mem.Mentions b
  slots : ∀ i ∈ f.allInsts, ∀ ty, i.kind = .alloca ty → ∀ o,
    (L.mem (.slot L.world.frame i.id) o).isSome = true ↔ ∃ n, byteSize ty = some n ∧ 0 ≤ o ∧ o < n
  literals : ∀ i ∈ f.allInsts, ∀ bs, i.kind = .constString bs → ∀ (k : Nat) b, bs[k]? = some b →
    L.mem (.string i.id) k = some (.byte b)

/-! ## A target and a world to run code with -/

/-- A target for code without floating point and vector arithmetic; division by zero traps. -/
def Target.integer : Target where
  place p := p.off
  exceptional _ _ _ _ := none
  shiftBeyond _ _ _ _ := 0
  floatConst _ _ := 0
  floatAdd _ _ _ := 0
  floatSub _ _ _ := 0
  floatMul _ _ _ := 0
  floatDiv _ _ _ := none
  floatPow _ _ _ := none
  floatSqrt _ _ := none
  floatNeg _ _ := 0
  floatAbs _ _ := 0
  floatCmp _ _ _ _ := false
  intToFloat _ _ _ := 0
  floatToInt _ _ _ := 0
  floatResize _ _ _ := 0
  wide _ _ _ := none
  wide_honest := by simp

/-- A world in which every call returns 0 and changes nothing. -/
def World.idle : World where
  frame := 0
  respond _ _ _ _ view := some { result := .int .i32 0, mem := view }
  volatileRead _ _ bs := bs
  undef _ _ := .int .i32 0
  respond_honest := by
    intro n c args known view r b hr _ hb
    simp only [Option.some.injEq] at hr
    subst hr
    rcases hb with hb | hb
    · simp [Val.bases] at hb
    · exact .inr hb
  volatileRead_length _ _ _ := rfl
  volatileRead_honest n p bs q i _ h := ⟨q, i, h, rfl⟩
  undef_honest := by simp [Val.bases]

/-- Slots of the given sizes, all bytes zero. -/
def Mem.zeros (sizes : List (ValueId × Nat)) : Mem := fun b o =>
  match b with
  | .slot 0 v => match sizes.lookup v with
      | some n => if 0 ≤ o ∧ o < n then some (.byte 0) else none
      | none => none
  | _ => none

/-- A run in the idle world with zeroed slots. -/
def Launch.idle (args : List Val) (sizes : List (ValueId × Nat)) : Launch where
  target := .integer
  world := .idle
  args := args
  mem := .zeros sizes

end Armfortas.Ir
