import Armfortas.Ir.Semantics.Exec
import Armfortas.Ir.Module
import Mathlib.Data.Nat.Pairing

/-! The functions of a module call each other, directly, by name or through a pointer; every other callee is outside
and may call functions of the module in turn. An activation is numbered by its call depth. When it returns, its slots
are gone, and a pointer to one of them is from then on just the number it stood for. Fuel bounds the nesting of calls
and the number of blocks; a run that uses it up has only its trace so far. -/
namespace Armfortas.Ir
open Lib

/-! ## Outside the module -/

/-- A call to the outside comes back, or leads to a call of a function of the module. After that one has
returned, the outside goes on at `returnTo`, with the result as argument. -/
inductive Answer
  | done (r : Response)
  | callback (name : String) (args : List Val) (mem : Mem) (returnTo : Ptr)

def Answer.mem : Answer → Mem
  | .done r => r.mem
  | .callback _ _ mem _ => mem

def Answer.bases : Answer → List Base
  | .done r => r.result.bases
  | .callback name args _ returnTo => .global name :: returnTo.base :: args.flatMap (·.bases)

/-- What the outside knows only if it is told: slots, and functions it is not linked with. -/
def Base.isGuarded (hidden : String → Bool) : Base → Bool
  | .slot _ _ => true
  | .global name => hidden name
  | _ => false

/-- Everything outside the module, which learns about guarded storage only from the module. -/
structure Outside where
  hidden : String → Bool
  respond : Nat → Callee → List Val → List Base → Mem → Option Answer
  volatileRead : Nat → Ptr → List MByte → List MByte
  undef : ValueId → IrType → Val
  /-- what a slot holds before the first store -/
  garbage : Nat → ValueId → Int → BitVec 8
  respond_honest : ∀ n c args known view a b, respond n c args known view = some a → b.isGuarded hidden = true →
    b ∈ a.bases ∨ a.mem.Mentions b → b ∈ known ∨ view.Mentions b
  volatileRead_length : ∀ n p bs, (volatileRead n p bs).length = bs.length
  volatileRead_honest : ∀ n p bs q i, q.base.isGuarded hidden = true → .frag q i ∈ volatileRead n p bs →
    ∃ q' j, .frag q' j ∈ bs ∧ q'.base = q.base
  undef_honest : ∀ v ty b, b ∈ (undef v ty).bases → b.isGuarded hidden = false

theorem Base.isGuarded_of_isLocal {hidden : String → Bool} {d : Nat} {b : Base} (h : b.isLocal d = true) :
    b.isGuarded hidden = true := by
  cases b <;> simp [Base.isLocal] at h
  rfl

/-- What an activation sees of the outside between two calls. -/
def Outside.world (O : Outside) (d : Nat) : World where
  frame := d
  respond _ _ _ _ _ := none
  volatileRead := O.volatileRead
  undef := O.undef
  respond_honest _ _ _ _ _ _ _ h := by cases h
  volatileRead_length := O.volatileRead_length
  volatileRead_honest n p bs q i hl h := O.volatileRead_honest n p bs q i (Base.isGuarded_of_isLocal hl) h
  undef_honest v ty b h := by
    by_contra hl
    have := O.undef_honest v ty b h
    rw [Base.isGuarded_of_isLocal (by simpa using hl)] at this
    cases this

/-- The storage the outside can reach: all but slots, and the slots it was told about or finds pointers to. -/
inductive Exposed (known : List Base) (m : Mem) : Base → Prop
  | shared {b : Base} : (∀ n v, b ≠ .slot n v) → Exposed known m b
  | known {b : Base} : b ∈ known → Exposed known m b
  | stored {b : Base} {o : Int} {p : Ptr} {i : Nat} :
      Exposed known m b → m b o = some (.frag p i) → Exposed known m p.base

/-! ## Activations -/

def Function.slotBytes (f : Function) (v : ValueId) : Option Nat :=
  match f.findDefiningInst v with
  | some ⟨_, .alloca ty, _⟩ => byteSize ty
  | _ => none

/-- Storage for the slots of activation `d`. -/
def Mem.openFrame (m : Mem) (f : Function) (d : Nat) (garbage : ValueId → Int → BitVec 8) : Mem := fun b o =>
  match b with
  | .slot n v =>
      if n = d then
        if 0 ≤ o ∧ o < (f.slotBytes v).getD 0 then some (.byte (garbage v o)) else none
      else m b o
  | _ => m b o

/-- A pointer into activation `d` after it has returned. -/
def Ptr.retire (T : Target) (d : Nat) (p : Ptr) : Ptr :=
  if p.base.isLocal d then ⟨.absolute, T.address p⟩ else p

def MByte.retire (T : Target) (d : Nat) : MByte → MByte
  | .byte b => .byte b
  | .frag p i => .frag (p.retire T d) i

def Val.retire (T : Target) (d : Nat) : Val → Val
  | .ptr p => .ptr (p.retire T d)
  | .bytes bs => .bytes (bs.map (·.retire T d))
  | x => x

def Mem.closeFrame (m : Mem) (T : Target) (d : Nat) : Mem := fun b o =>
  if b.isLocal d then none else (m b o).map (·.retire T d)

/-- The heap after activation `d` has returned. -/
def Heap.closeFrame (h : Heap) (T : Target) (d : Nat) : Heap :=
  { h with mem := h.mem.closeFrame T d, known := h.known.filter fun b => !b.isLocal d }

def Effect.leave (T : Target) (d : Nat) : Effect → Effect
  | .ok v h => .ok (v.map (·.retire T d)) (h.closeFrame T d)
  | .halt why t => .halt why t

/-- The value of a call instruction of type `ty`. -/
def Effect.result (ty : IrType) : Effect → Effect
  | .ok v h => .ok (if ty = .void then none else v) h
  | .halt why t => .halt why t

/-! ## One block, given what calls do -/

abbrev Fuelled := Except (List Event)

abbrev Caller := IrType → Callee → List Val → Heap → Fuelled Effect

section Block

variable (T : Target) (W : World) (k : Nat) (call : Caller)

noncomputable def performIn (i : Inst) (vals : List Val) (h : Heap) : Fuelled Effect :=
  match i.kind with
  | .call (.indirect _) _ => match vals with
      | target :: args => call i.ty (.indirect target) args h
      | [] => .ok (.halt .stuck h.trace)
  | .call (.internal n) _ => call i.ty (.internal n) vals h
  | .call (.external name) _ => call i.ty (.external name) vals h
  | .runtimeCall .checkBounds _ => .ok (execCheckBounds T vals h)
  | .runtimeCall rf _ => call i.ty (.runtime rf) vals h
  -- literals of different functions are different storage
  | .constString _ => .ok (.ok (some (.ptr ⟨.string (Nat.pair k i.id), 0⟩)) h)
  | _ => .ok (perform T W i vals h)

noncomputable def Inst.execIn (i : Inst) (σ : State) : Fuelled Result :=
  match i.kind.operands.mapM σ.env with
  | some vals => (performIn T W k call i vals σ.toHeap).map (·.bind i σ.env)
  | none => .ok (.halt .stuck σ.trace)

noncomputable def execInstsIn : List Inst → State → Fuelled Result
  | [], σ => .ok (.ok σ)
  | i :: is, σ => match i.execIn T W k call σ with
      | .ok (.ok σ') => execInstsIn is σ'
      | r => r

noncomputable def Function.execBlockIn (f : Function) (b : BlockId) (σ : State) : Fuelled Outcome :=
  match f.tryBlock b with
  | none => .ok (.halted .stuck σ.trace)
  | some blk => match execInstsIn T W k call blk.insts σ with
      | .error t => .error t
      | .ok (.halt why t) => .ok (.halted why t)
      | .ok (.ok σ') => match blk.terminator with
          | some t => .ok (f.execTerm T t σ')
          | none => .ok (.halted .stuck σ'.trace)

end Block

/-! ## Calls -/

def Module.resolve (M : Module) : Callee → Option Nat
  | .internal k => some k
  | .external name => M.byName name
  | .indirect (.ptr ⟨.global name, 0⟩) => M.byName name
  | _ => none

/-- A call of a function of the module is an activation of it; the outside answers the others. -/
def Module.dispatch (M : Module) (invoke : Nat → List Val → Heap → Fuelled Effect) (consult : Caller) : Caller :=
  fun ty c args h => match M.resolve c with
    | some j => (invoke j args h).map (·.result ty)
    | none => consult ty c args h

def Fuelled.goOn (next : BlockId → State → Fuelled Effect) : Fuelled Outcome → Fuelled Effect
  | .error t => .error t
  | .ok (.running b σ) => next b σ
  | .ok (.returned v σ) => .ok (.ok v σ.toHeap)
  | .ok (.halted why t) => .ok (.halt why t)

def Fuelled.andThen (next : Option Val → Heap → Fuelled Effect) : Fuelled Effect → Fuelled Effect
  | .ok (.ok v h) => next v h
  | r => r

/-- The heap while the outside works on a call, with its changes to the storage it can reach. -/
noncomputable def Heap.consulted (h : Heap) (c : Callee) (args : List Val) (new : Mem) : Heap :=
  let known := h.known ++ args.flatMap (·.bases)
  let reach := Exposed known h.mem
  { mem := h.mem.absorb reach new, known := known, clock := h.clock + 1,
    trace := .call c args (h.mem.restrict reach) :: h.trace }

/-- What the outside answers to a call. -/
noncomputable def Outside.answer (O : Outside) (c : Callee) (args : List Val) (h : Heap) : Option Answer :=
  let known := h.known ++ args.flatMap (·.bases)
  O.respond h.clock c args known (h.mem.restrict (Exposed known h.mem))

/-- The state in which function `f` starts as activation `d`. -/
def Function.activate (f : Function) (O : Outside) (d : Nat) (args : List Val) (h : Heap) : Option State :=
  (bindParams (f.params.map fun p => ⟨p.id, p.ty⟩) args fun _ => none).map fun env =>
    { h with mem := h.mem.openFrame f d (O.garbage h.clock), env := env }

structure Machine where
  target : Target
  outside : Outside

namespace Machine

variable (S : Machine) (M : Module)

mutual

noncomputable def runBlocks : Nat → Nat → Nat → Function → BlockId → State → Fuelled Effect
  | 0, _, _, _, _, σ => .error σ.trace
  | n + 1, d, k, f, b, σ =>
      (f.execBlockIn S.target (S.outside.world d) k (M.dispatch (invoke n (d + 1)) (consult n d)) b σ).goOn
        (runBlocks n d k f)
termination_by structural fuel => fuel

noncomputable def invoke : Nat → Nat → Nat → List Val → Heap → Fuelled Effect
  | 0, _, _, _, h => .error h.trace
  | n + 1, d, k, args, h => match M.functions[k]? with
      | none => .ok (.halt .stuck h.trace)
      | some f => match f.activate S.outside d args h with
          | none => .ok (.halt .stuck h.trace)
          | some σ => (runBlocks n d k f f.entry σ).map (·.leave S.target d)
termination_by structural fuel => fuel

/-- Ask the outside from activation `d`, until it has no function of the module to call any more. -/
noncomputable def consult : Nat → Nat → Caller
  | 0, _, _, _, _, h => .error h.trace
  | n + 1, d, ty, c, args, h => match S.outside.answer c args h with
      | none => .ok (.halt .exit (h.consulted c args h.mem).trace)
      | some (.done r) => .ok (.ok (if ty = .void then none else some r.result) (h.consulted c args r.mem))
      | some (.callback name args' mem returnTo) => match M.byName name with
          | none => .ok (.halt .stuck (h.consulted c args mem).trace)
          | some j => (invoke n (d + 1) j args' (h.consulted c args mem)).andThen fun v h' =>
              consult n d ty (.indirect (.ptr returnTo)) v.toList h'
termination_by structural fuel => fuel

end

noncomputable def call (n d : Nat) : Caller := M.dispatch (S.invoke M n (d + 1)) (S.consult M n d)

theorem runBlocks_succ (n d k : Nat) (f : Function) (b : BlockId) (σ : State) : S.runBlocks M (n + 1) d k f b σ =
    (f.execBlockIn S.target (S.outside.world d) k (S.call M n d) b σ).goOn (S.runBlocks M n d k f) := rfl

end Machine

/-! ## Whole runs -/

/-- A start of the program: one of the module's functions is called with arguments. -/
structure Start extends Machine where
  entry : Nat
  args : List Val
  mem : Mem

def Start.heap (L : Start) : Heap where
  mem := L.mem
  known := []
  clock := 0
  trace := []

noncomputable def Start.run (L : Start) (M : Module) (fuel : Nat) : Fuelled Effect :=
  L.toMachine.invoke M fuel 0 L.entry L.args L.heap

def Fuelled.returnValue : Fuelled Effect → Option (Option Val)
  | .ok (.ok v _) => some v
  | _ => none

/-- The symbols the tables of the module hold the addresses of. -/
def Module.tableSymbols (M : Module) : List String :=
  M.globals.flatMap fun g => match g.initializer with
    | some (.quadTable slots) => slots.filterMap fun
        | .sym name => some name
        | .int _ => none
    | _ => []

/-- The outside starts a function it is linked with. No activation exists yet, so there are no slots and no
pointers to slots; functions of the module without external linkage are known only through its tables. -/
structure Start.Fits (L : Start) (M : Module) : Prop where
  entry : ∀ f, M.functions[L.entry]? = some f → f.internalOnly = false
  hidden : ∀ f ∈ M.functions, f.internalOnly = true → L.outside.hidden f.name = true
  args : ∀ a ∈ L.args, ∀ b ∈ a.bases, b.isGuarded L.outside.hidden = false
  slots : ∀ d v o, L.mem (.slot d v) o = none
  mem : ∀ b, b.isGuarded L.outside.hidden = true → L.mem.Mentions b →
    ∃ name ∈ M.tableSymbols, b = .global name

/-- An outside that never returns from a call. -/
def Outside.silent (hidden : String → Bool) : Outside where
  hidden := hidden
  respond _ _ _ _ _ := none
  volatileRead _ _ bs := bs
  undef _ _ := .int .i32 0
  garbage _ _ _ := 0
  respond_honest _ _ _ _ _ _ _ h := by cases h
  volatileRead_length := World.idle.volatileRead_length
  volatileRead_honest n p bs q i _ h := ⟨q, i, h, rfl⟩
  undef_honest _ _ _ h := by cases h

/-- A start in a silent outside, with the functions of the module hidden that have no external linkage. -/
def Start.silent (M : Module) (entry : Nat) (args : List Val) (mem : Mem) : Start where
  target := .integer
  outside := .silent fun name => M.functions.any fun f => f.internalOnly && f.name == name
  entry := entry
  args := args
  mem := mem

end Armfortas.Ir
