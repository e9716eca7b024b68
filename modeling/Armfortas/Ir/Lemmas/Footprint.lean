import Armfortas.Ir.Lemmas.Run

/-! Which memory an instruction can change, and where the pointers it yields come from. -/
namespace Armfortas.Ir
open Lib List InstKind Val

variable {ty : IrType} {p : Ptr} {x : Val} {b : Base}

/-! ## Kinds of access -/

def InstKind.stored : InstKind → Option (ValueId × ValueId)
  | .store v a | .vStore v a | .volatileStore v a => some (v, a)
  | _ => none

/-- Leaves the function. The bounds check only compares. -/
def InstKind.isCall : InstKind → Bool
  | .call _ _ => true
  | .runtimeCall .checkBounds _ => false
  | .runtimeCall _ _ => true
  | _ => false

def InstKind.isCompute : InstKind → Bool
  | .load _ | .vLoad _ | .store _ _ | .vStore _ _ | .volatileLoad _ | .volatileStore _ _ | .call _ _
  | .runtimeCall _ _ => false
  | _ => true

variable {T : Target} {W : World} {i : Inst} {vals : List Val} {heap heap' : Heap} {v : Option Val}

def Computed.effect (heap : Heap) : Computed → Effect
  | .value v => .ok (some v) heap
  | .trap => .halt .trap heap.trace
  | .stuck => .halt .stuck heap.trace

theorem perform_eq_effect (h : i.kind.isCompute = true) :
    perform T W i vals heap = (compute T W i vals).effect heap := by
  obtain ⟨id, kind, ty⟩ := i
  cases kind <;> first | rfl | simp [isCompute] at h

theorem perform_compute (h : i.kind.isCompute = true) (hp : perform T W i vals heap = .ok v heap') :
    heap' = heap ∧ ∃ x, v = some x ∧ compute T W i vals = .value x := by
  rw [perform_eq_effect h] at hp
  cases hc : compute T W i vals with
  | value x =>
    rw [hc] at hp
    simp only [Computed.effect, Effect.ok.injEq] at hp
    exact ⟨hp.2.symm, x, hp.1.symm, rfl⟩
  | trap => rw [hc] at hp; cases hp
  | stuck => rw [hc] at hp; cases hp

/-! ## Inversions -/

theorem withPtr_ok {k : Ptr → Effect} (h : withPtr vals heap k = .ok v heap') :
    ∃ p, vals = [.ptr p] ∧ k p = .ok v heap' := by
  unfold withPtr at h
  split at h
  · next p => exact ⟨p, rfl, h⟩
  · cases h

theorem withValueAndPtr_ok {k : Val → Ptr → Effect} (h : withValueAndPtr vals heap k = .ok v heap') :
    ∃ x p, vals = [x, .ptr p] ∧ k x p = .ok v heap' := by
  unfold withValueAndPtr at h
  split at h
  · next x p => exact ⟨x, p, rfl, h⟩
  · cases h

theorem execLoad_ok (h : execLoad T ty p heap = .ok v heap') :
    heap' = heap ∧ ∃ n bs x, byteSize ty = some n ∧ heap.mem.read p n = some bs ∧ decode T.address ty bs = some x ∧
      v = some x := by
  unfold execLoad at h
  split at h
  · cases h
  · next n hn =>
    split at h
    · cases h
    · next bs hbs =>
      split at h
      · next x hx =>
        simp only [Effect.ok.injEq] at h
        exact ⟨h.2.symm, n, bs, x, hn, hbs, hx, h.1.symm⟩
      · cases h

theorem execVolatileLoad_ok (h : execVolatileLoad T W ty p heap = .ok v heap') :
    heap'.mem = heap.mem ∧ heap'.known = heap.known ∧ ∃ n bs x, byteSize ty = some n ∧
      heap.mem.read p n = some bs ∧ decode T.address ty (W.volatileRead heap.clock p bs) = some x ∧ v = some x := by
  unfold execVolatileLoad at h
  split at h
  · cases h
  · next n hn =>
    split at h
    · cases h
    · next bs hbs =>
      simp only at h
      split at h
      · next x hx =>
        obtain ⟨rfl, rfl⟩ := h
        exact ⟨rfl, rfl, n, bs, x, hn, hbs, hx, rfl⟩
      · cases h

theorem execStore_ok (h : execStore x p heap = .ok v heap') :
    v = none ∧ (heap.mem.read p x.encode.length).isSome = true ∧ heap'.mem = heap.mem.put p x.encode ∧
      heap'.known = heap.known := by
  unfold execStore at h
  split at h
  · cases h
  · next m hm =>
    obtain ⟨rfl, rfl⟩ := h
    obtain ⟨hs, rfl⟩ := Mem.write_eq_some_iff.mp hm
    exact ⟨rfl, hs, rfl, rfl⟩

theorem execVolatileStore_ok (h : execVolatileStore x p heap = .ok v heap') :
    v = none ∧ (heap.mem.read p x.encode.length).isSome = true ∧ heap'.mem = heap.mem.put p x.encode ∧
      heap'.known = heap.known := by
  unfold execVolatileStore at h
  split at h
  · cases h
  · next m hm =>
    obtain ⟨rfl, rfl⟩ := h
    obtain ⟨hs, rfl⟩ := Mem.write_eq_some_iff.mp hm
    exact ⟨rfl, hs, rfl, rfl⟩

theorem perform_store {val addr} (hk : i.kind.stored = some (val, addr)) (h : perform T W i vals heap = .ok v heap') :
    ∃ x p, vals = [x, .ptr p] ∧ v = none ∧ (heap.mem.read p x.encode.length).isSome = true ∧
      heap'.mem = heap.mem.put p x.encode ∧ heap'.known = heap.known := by
  obtain ⟨id, kind, ty⟩ := i
  cases kind <;> simp only [stored, reduceCtorEq] at hk
  all_goals
    obtain ⟨x, p, hv, hk⟩ := withValueAndPtr_ok h
  · exact ⟨x, p, hv, execStore_ok hk⟩
  · exact ⟨x, p, hv, execVolatileStore_ok hk⟩
  · exact ⟨x, p, hv, execStore_ok hk⟩

structure Answered (W : World) (ty : IrType) (vals : List Val) (heap : Heap) (v : Option Val) (heap' : Heap) where
  callee : Callee
  args : List Val
  sub : ∀ x ∈ args, x ∈ vals
  response : Response
  known_eq : heap'.known = heap.known ++ args.flatMap (·.bases)
  respond : W.respond heap.clock callee args heap'.known
    (heap.mem.restrict (Accessible W.frame heap'.known heap.mem)) = some response
  mem_eq : heap'.mem = heap.mem.absorb (Accessible W.frame heap'.known heap.mem) response.mem
  result : v = if ty = .void then none else some response.result

theorem execCall_ok {c args} (hsub : ∀ x ∈ args, x ∈ vals)
    (h : execCall W ty c args heap = .ok v heap') : Nonempty (Answered W ty vals heap v heap') := by
  unfold execCall at h
  simp only at h
  split at h
  · cases h
  · next r hr =>
    obtain ⟨rfl, rfl⟩ := h
    exact ⟨⟨c, args, hsub, r, rfl, hr, rfl, rfl⟩⟩

theorem perform_call (hk : i.kind.isCall = true) (h : perform T W i vals heap = .ok v heap') :
    Nonempty (Answered W i.ty vals heap v heap') := by
  obtain ⟨id, kind, ty⟩ := i
  cases kind <;> simp only [isCall, Bool.false_eq_true] at hk
  case call callee args =>
    cases callee with
    | internal n => exact execCall_ok (fun _ hx => hx) h
    | external name => exact execCall_ok (fun _ hx => hx) h
    | indirect target =>
      simp only [perform] at h
      split at h
      · exact execCall_ok (fun _ hx => .tail _ hx) h
      · cases h
  case runtimeCall rf args =>
    cases rf <;> first | exact execCall_ok (fun _ hx => hx) h | simp at hk

theorem execCheckBounds_ok (h : execCheckBounds T vals heap = .ok v heap') : v = none ∧ heap' = heap := by
  unfold execCheckBounds at h
  split at h
  · split at h
    · split at h
      · simp only [Effect.ok.injEq] at h
        exact ⟨h.1.symm, h.2.symm⟩
      · cases h
    · cases h
  · cases h

theorem perform_mem (hs : i.kind.stored = none) (hc : i.kind.isCall = false)
    (h : perform T W i vals heap = .ok v heap') : heap'.mem = heap.mem ∧ heap'.known = heap.known := by
  by_cases hcomp : i.kind.isCompute = true
  · rw [(perform_compute hcomp h).1]
    exact ⟨rfl, rfl⟩
  · obtain ⟨id, kind, ty⟩ := i
    cases kind <;> simp only [isCompute, stored, isCall, not_true_eq_false, reduceCtorEq,
      Bool.true_eq_false] at hcomp hs hc
    case load a =>
      obtain ⟨p, -, hk⟩ := withPtr_ok h
      rw [(execLoad_ok hk).1]
      exact ⟨rfl, rfl⟩
    case vLoad a =>
      obtain ⟨p, -, hk⟩ := withPtr_ok h
      rw [(execLoad_ok hk).1]
      exact ⟨rfl, rfl⟩
    case volatileLoad a =>
      obtain ⟨p, -, hk⟩ := withPtr_ok h
      obtain ⟨hm, hkn, -⟩ := execVolatileLoad_ok hk
      exact ⟨hm, hkn⟩
    case runtimeCall rf args =>
      cases rf <;> simp only [Bool.true_eq_false] at hc
      rw [(execCheckBounds_ok h).2]
      exact ⟨rfl, rfl⟩

inductive MemStep (W : World) (i : Inst) (σ σ' : State) : Prop
  | none : i.kind.stored = none → i.kind.isCall = false → σ'.mem = σ.mem → σ'.known = σ.known → MemStep W i σ σ'
  | store {val addr : ValueId} {x : Val} {p : Ptr} : i.kind.stored = some (val, addr) → σ.env val = some x →
      σ.env addr = some (.ptr p) → (σ.mem.read p x.encode.length).isSome = true → σ'.mem = σ.mem.put p x.encode →
      σ'.known = σ.known → MemStep W i σ σ'
  | call {vals : List Val} {v : Option Val} : i.kind.isCall = true → i.kind.operands.mapM σ.env = some vals →
      Nonempty (Answered W i.ty vals σ.toHeap v σ'.toHeap) → MemStep W i σ σ'

theorem operands_of_stored {k : InstKind} {val addr} (h : k.stored = some (val, addr)) : k.operands = [val, addr] := by
  cases k <;> simp only [stored, reduceCtorEq, Option.some.injEq, Prod.mk.injEq] at h <;>
    simp [operands, h.1, h.2]

theorem exec_memStep {σ σ'} (h : i.exec T W σ = .ok σ') : MemStep W i σ σ' := by
  obtain ⟨vals, v, hvals, hperf, -⟩ := exec_ok h
  cases hs : i.kind.stored with
  | some va =>
    obtain ⟨x, p, rfl, -, hread, hmem, hknown⟩ := perform_store hs hperf
    rw [operands_of_stored hs, mapM_eq_some_iff] at hvals
    cases hvals with
    | cons hx hrest =>
      cases hrest with
      | cons hp _ => exact .store hs hx hp hread hmem hknown
  | none =>
    cases hc : i.kind.isCall with
    | true => exact .call hc hvals (perform_call hc hperf)
    | false =>
      obtain ⟨hm, hk⟩ := perform_mem hs hc hperf
      exact .none hs hc hm hk

/-! ## Where pointers come from -/

theorem decode_bases {place : Ptr → Int} {bs} (h : decode place ty bs = some x)
    (hb : b ∈ x.bases) : b = .absolute ∨ ∃ p k, MByte.frag p k ∈ bs ∧ p.base = b := by
  have hptr : ∀ p, asPtr bs = some p → b = p.base → ∃ p k, MByte.frag p k ∈ bs ∧ p.base = b := by
    intro p hp hbp
    unfold asPtr at hp
    split at hp
    · next q k rest =>
      split at hp
      · cases hp
        exact ⟨p, k, mem_cons_self, hbp.symm⟩
      · cases hp
    · cases hp
  unfold decode at h
  split at h
  · split at h
    · next p hp =>
      cases h
      exact .inr (hptr p hp (by simpa [bases] using hb))
    · cases h
      simp [bases] at hb
  · cases h
    simp [bases] at hb
  · cases h
    simp [bases] at hb
  · split at h
    · next p hp =>
      cases h
      exact .inr (hptr p hp (by simpa [bases] using hb))
    · cases h
      exact .inl (by simpa [bases] using hb)
  · split at h
    · next p hp =>
      cases h
      exact .inr (hptr p hp (by simpa [bases] using hb))
    · cases h
      exact .inl (by simpa [bases] using hb)
  · cases h
    obtain ⟨m, hm, hmb⟩ := mem_filterMap.mp hb
    cases m with
    | byte => cases hmb
    | frag p k => exact .inr ⟨p, k, hm, by simpa using hmb⟩
  · cases h
    obtain ⟨m, hm, hmb⟩ := mem_filterMap.mp hb
    cases m with
    | byte => cases hmb
    | frag p k => exact .inr ⟨p, k, hm, by simpa using hmb⟩
  · cases h
  · cases h

theorem Mem.mentions_of_read {m : Mem} {p q n k bs} (h : m.read p n = some bs)
    (hq : MByte.frag q k ∈ bs) : m.Mentions q.base := by
  obtain ⟨hlen, hget⟩ := Mem.read_eq_some_iff.mp h
  obtain ⟨j, hj, hjq⟩ := getElem_of_mem hq
  refine ⟨p.base, p.off + j, q, k, ?_, rfl⟩
  rw [hget j (hlen ▸ hj), getElem?_eq_getElem hj, hjq]

theorem mem_bases_of_encode {k} (h : MByte.frag p k ∈ x.encode) : p.base ∈ x.bases := by
  cases x with
  | int w n => simp [encode] at h
  | bool b => simp [encode] at h
  | float w n => simp [encode] at h
  | ptr q =>
    obtain ⟨j, -, hj⟩ := mem_map.mp h
    cases hj
    exact mem_singleton.mpr rfl
  | bytes bs => exact mem_filterMap.mpr ⟨_, h, rfl⟩

def Computed.Plain (c : Computed) : Prop := ∀ x, c = .value x → x.bases = []

namespace Computed.Plain

theorem not_mem {c} (hc : Plain c) (h : c = .value x) : b ∉ x.bases := by
  simp [hc x h]

theorem stuck : Plain .stuck := fun _ h => by cases h

theorem value (h : x.bases = []) : Plain (.value x) := fun _ hx => by cases hx; exact h

theorem onUnary {k : Val → Computed} (h : ∀ x, Plain (k x)) : Plain (Ir.onUnary vals k) := by
  unfold Ir.onUnary
  split
  · exact h _
  · exact stuck

theorem onBinary {k : Val → Val → Computed} (h : ∀ x y, Plain (k x y)) : Plain (Ir.onBinary vals k) := by
  unfold Ir.onBinary
  split
  · exact h _ _
  · exact stuck

theorem onInt {k : IntWidth → Int → Computed} (h : ∀ w a, Plain (k w a)) : Plain (T.onInt x k) := by
  unfold Target.onInt
  split
  · exact h _ _
  · exact stuck

theorem onInts {x y} {k : IntWidth → Int → Int → Computed} (h : ∀ w a b, Plain (k w a b)) : Plain (T.onInts x y k) := by
  unfold Target.onInts
  split
  · split
    · exact h _ _ _
    · exact stuck
  · exact stuck

theorem onFloat {k : FloatWidth → Nat → Computed} (h : ∀ w a, Plain (k w a)) : Plain (Ir.onFloat x k) := by
  unfold Ir.onFloat
  split
  · exact h _ _
  · exact stuck

theorem onFloats {x y} {k : FloatWidth → Nat → Nat → Computed} (h : ∀ w a b, Plain (k w a b)) :
    Plain (Ir.onFloats x y k) := by
  unfold Ir.onFloats
  split
  · split
    · exact h _ _ _
    · exact stuck
  · exact stuck

theorem ofOption {r w} : Plain (.ofOption r (.int w)) := by
  cases r with
  | none => exact fun _ h => by cases h
  | some x => exact value rfl

theorem ofFloat {w r} : Plain (.ofFloat w r) := by
  cases r with
  | none => exact fun _ h => by cases h
  | some x => exact value rfl

theorem evalLogic {op x y} : Plain (Ir.evalLogic op x y) := by
  unfold Ir.evalLogic
  split <;> first | exact value rfl | exact stuck

theorem evalNot : Plain (Ir.evalNot x) := by
  unfold Ir.evalNot
  split <;> first | exact value rfl | exact stuck

end Computed.Plain

/-- What an instruction makes pointers to on its own. -/
def Inst.origins (W : World) (i : Inst) : List Base :=
  match i.kind with
  | .alloca _ => [.slot W.frame i.id]
  | .constString _ => [.string i.id]
  | .globalAddr name => [.global name]
  | .undef ty => (W.undef i.id ty).bases
  | .intToPtr _ _ => [.absolute]
  | _ => []

theorem compute_bases (h : compute T W i vals = .value x) (hb : b ∈ x.bases) :
    (∃ y ∈ vals, b ∈ y.bases) ∨ b ∈ i.origins W := by
  obtain ⟨id, kind, ty⟩ := i
  cases kind
  case alloca aty =>
    cases h
    exact .inr hb
  case undef uty =>
    cases h
    exact .inr hb
  case constString bs =>
    cases h
    exact .inr hb
  case globalAddr name =>
    cases h
    exact .inr hb
  case select c t e =>
    simp only [compute, evalSelect] at h
    split at h
    · next c' x' y' =>
      cases h
      cases c' with
      | true => exact .inl ⟨x', by simp, hb⟩
      | false => exact .inl ⟨y', by simp, hb⟩
    · cases h
  case ptrToInt a =>
    simp only [compute, onUnary] at h
    split at h
    · next y =>
      cases y <;> simp only [Target.evalPtrToInt, reduceCtorEq] at h
      split at h <;> cases h
      · simp [bases] at hb
      · exact .inl ⟨_, mem_singleton.mpr rfl, hb⟩
    · cases h
  case intToPtr a pty =>
    simp only [compute, onUnary] at h
    split at h
    · next y =>
      unfold evalIntToPtr at h
      split at h
      · cases h
        exact .inl ⟨_, mem_singleton.mpr rfl, hb⟩
      · cases h
        exact .inr hb
      · cases h
    · cases h
  case getElementPtr base idxs =>
    simp only [compute, Target.evalGep] at h
    split at h
    · cases h
      exact .inl ⟨_, mem_singleton.mpr rfl, hb⟩
    · next p idx =>
      split at h
      · cases h
        exact .inl ⟨.ptr p, by simp, hb⟩
      · cases h
    · cases h
  -- what is left are vector operations and arithmetic
  all_goals
    first
    | dsimp only [compute, wideOp] at h
      split at h
      · next v hv =>
        cases h
        exact .inl (T.wide_honest _ _ _ _ hv b hb)
      · cases h
    | refine absurd hb (Computed.Plain.not_mem ?_ h)
      first
      | exact .value rfl
      | exact .stuck
      | exact .onBinary fun _ _ => .onInts fun _ _ _ => .ofOption
      | exact .onBinary fun _ _ => .onInts fun _ _ _ => .value rfl
      | exact .onBinary fun _ _ => .onFloats fun _ _ _ => .ofFloat
      | exact .onBinary fun _ _ => .onFloats fun _ _ _ => .value rfl
      | exact .onBinary fun _ _ => .evalLogic
      | exact .onUnary fun _ => .evalNot
      | exact .onUnary fun _ => .onInt fun _ _ => .value rfl
      | exact .onUnary fun _ => .onFloat fun _ _ => .ofFloat
      | exact .onUnary fun _ => .onFloat fun _ _ => .value rfl

theorem slot_mem_origins {s} (h : Base.slot W.frame s ∈ i.origins W) : s = i.id ∧ ∃ ty, i.kind = .alloca ty := by
  obtain ⟨id, kind, ty⟩ := i
  cases kind <;> simp only [Inst.origins, mem_singleton, not_mem_nil, reduceCtorEq, Base.slot.injEq] at h
  case alloca aty => exact ⟨h.2, aty, rfl⟩
  case undef uty =>
    have := W.undef_honest _ _ _ h
    simp [Base.isLocal] at this

theorem perform_load_bases (hcomp : i.kind.isCompute = false) (hs : i.kind.stored = none) (hc : i.kind.isCall = false)
    (h : perform T W i vals heap = .ok (some x) heap') (hb : b ∈ x.bases) (habs : b ≠ .absolute)
    (hvol : ∀ n p bs q j, q.base = b → .frag q j ∈ W.volatileRead n p bs → ∃ q' k, .frag q' k ∈ bs ∧ q'.base = b) :
    heap.mem.Mentions b := by
  have hload : ∀ {ty p v}, execLoad T ty p heap = .ok (some v) heap' → b ∈ v.bases → heap.mem.Mentions b := by
    intro ty p v hk hbv
    obtain ⟨-, n, bs, y, -, hread, hdec, hy⟩ := execLoad_ok hk
    cases hy
    rcases decode_bases hdec hbv with rfl | ⟨q, k, hq, rfl⟩
    · exact absurd rfl habs
    · exact Mem.mentions_of_read hread hq
  obtain ⟨id, kind, ty⟩ := i
  cases kind <;> simp only [isCompute, stored, isCall, reduceCtorEq,
    Bool.true_eq_false] at hcomp hs hc
  case load a =>
    obtain ⟨p, -, hk⟩ := withPtr_ok h
    exact hload hk hb
  case vLoad a =>
    obtain ⟨p, -, hk⟩ := withPtr_ok h
    exact hload hk hb
  case volatileLoad a =>
    obtain ⟨p, -, hk⟩ := withPtr_ok h
    obtain ⟨-, -, n, bs, y, -, hread, hdec, hy⟩ := execVolatileLoad_ok hk
    cases hy
    rcases decode_bases hdec hb with rfl | ⟨q, k, hq, hqb⟩
    · exact absurd rfl habs
    · obtain ⟨q', k', hq', hqq⟩ := hvol _ _ _ _ _ hqb hq
      exact hqq ▸ Mem.mentions_of_read hread hq'
  case runtimeCall rf args =>
    cases rf <;> simp only [Bool.true_eq_false] at hc
    cases (execCheckBounds_ok h).1

end Armfortas.Ir
