import Armfortas.Ir.Semantics.Module
import Armfortas.Ir.Lemmas.Private

/-! Storage nobody has a pointer to stays out of reach: no run makes such a pointer, and slots of this kind keep their
contents. Two kinds of storage are covered at once: slots of activations that do not exist yet, and any further
guarded storage, such as a function whose address is never taken or a slot that is only handed to functions that read
it. -/
namespace Armfortas.Ir
open Lib List Option InstKind Val

variable {d k : Nat} {P G : Base → Prop} {h h' : Heap} {T : Target} {call : Caller} {p : Ptr} {new : Mem} {m : Mem}
  {f : Function} {g : ValueId → Int → BitVec 8} {b : Base} {c : Callee} {args : List Val} {v : Option Val}
  {σ σ' : State}

/-! ## Values and heaps without certain pointers -/

def Val.Free (P : Base → Prop) (x : Val) : Prop := ∀ b ∈ x.bases, ¬ P b

structure Heap.Free (P : Base → Prop) (h : Heap) : Prop where
  mem : ∀ b, P b → ¬ h.mem.Mentions b
  known : ∀ b ∈ h.known, ¬ P b

structure State.Free (P : Base → Prop) (E : ValueId → Prop) (σ : State) : Prop where
  heap : σ.toHeap.Free P
  env : ∀ u x, σ.env u = some x → ¬ E u → x.Free P

def Heap.Bare (d : Nat) (h : Heap) : Prop := ∀ n v o, d ≤ n → h.mem (.slot n v) o = none

def SameSlots (P : Base → Prop) (h h' : Heap) : Prop := ∀ n v, P (.slot n v) → h'.mem (.slot n v) = h.mem (.slot n v)

/-- Out of reach of the activations before `d`: the given storage, and slots of later activations. -/
def Off (G : Base → Prop) (d : Nat) (b : Base) : Prop := G b ∨ ∃ n v, d ≤ n ∧ b = .slot n v

/-- A heap before activation `d`: nothing points to later activations or to `G`. -/
structure Heap.Clean (G : Base → Prop) (d : Nat) (h : Heap) : Prop where
  free : h.Free (Off G d)
  bare : h.Bare d

section

variable {Q : Base → Prop} {x : Val}

theorem Val.Free.mono (hx : x.Free P) (hQ : ∀ b, Q b → P b) : x.Free Q := fun b hb hq => hx b hb (hQ b hq)

theorem Heap.Free.congr (hh : h.Free P) (hm : h'.mem = h.mem) (hk : h'.known = h.known) : h'.Free P :=
  ⟨hm ▸ hh.mem, hk ▸ hh.known⟩

theorem Heap.Bare.congr (hb : h.Bare d) (hm : h'.mem = h.mem) : h'.Bare d := fun n v o hn => by
  rw [hm, hb n v o hn]

theorem SameSlots.trans {h''} (hs : SameSlots P h h') (hs' : SameSlots P h' h'') : SameSlots P h h'' :=
  fun n v hP => (hs' n v hP).trans (hs n v hP)

theorem SameSlots.of_eq (hm : h'.mem = h.mem) : SameSlots P h h' := fun n v _ => by rw [hm]

theorem Off.mono {d e} (hde : d ≤ e) (b) (hb : Off G e b) : Off G d b := by
  rcases hb with hb | ⟨n, v, hn, hb⟩
  · exact .inl hb
  · exact .inr ⟨n, v, Nat.le_trans hde hn, hb⟩

theorem Off.guarded {hidden : String → Bool} (hG : ∀ b, G b → b.isGuarded hidden = true)
    (b) (hb : Off G d b) : b.isGuarded hidden = true := by
  rcases hb with hb | ⟨n, v, -, rfl⟩
  · exact hG b hb
  · rfl

theorem Heap.Free.put (hh : h.Free P) (hx : x.Free P) (hm : h'.mem = h.mem.put p x.encode)
    (hk : h'.known = h.known) : h'.Free P := by
  refine ⟨fun b hb hment => ?_, hk ▸ hh.known⟩
  rcases (hm ▸ hment).of_put with hment | hmem
  · exact hh.mem b hb hment
  · exact hx b hmem hb

theorem SameSlots.put {bs} (hp : ¬ P p.base) (hm : h'.mem = h.mem.put p bs) : SameSlots P h h' := by
  intro n v hP
  funext o
  rw [hm, Mem.put_of_not_covers]
  rintro ⟨hb, -⟩
  exact hp (hb ▸ hP)

theorem Heap.Bare.put (hb : h.Bare d) {bs : List MByte} (hr : (h.mem.read p bs.length).isSome = true)
    (hm : h'.mem = h.mem.put p bs) : h'.Bare d := fun n v o hn => by
  have := Mem.put_isSome hr (.slot n v) o
  rw [hb n v o hn] at this
  simpa [hm] using this

end

/-! ## Calls to the outside -/

section Outside

variable {O : Outside} {c : Callee} {args : List Val}

theorem Heap.Free.told (hh : h.Free P) (hargs : ∀ x ∈ args, x.Free P) :
    ∀ b ∈ h.known ++ args.flatMap (·.bases), ¬ P b := by
  intro b hb
  rcases mem_append.mp hb with hb | hb
  · exact hh.known b hb
  · obtain ⟨x, hx, hbx⟩ := mem_flatMap.mp hb
    exact hargs x hx b hbx

theorem Outside.answer_free (hP : ∀ b, P b → b.isGuarded O.hidden = true) (hh : h.Free P)
    (hargs : ∀ x ∈ args, x.Free P) {a} (ha : O.answer c args h = some a) :
    (∀ b ∈ a.bases, ¬ P b) ∧ ∀ b, P b → ¬ a.mem.Mentions b := by
  have hno : ∀ b, P b → ¬ (b ∈ a.bases ∨ a.mem.Mentions b) := by
    intro b hb hor
    rcases O.respond_honest _ _ _ _ _ _ b ha (hP b hb) hor with hk | hm
    · exact hh.told hargs b hk hb
    · exact hh.mem b hb hm.of_restrict
  exact ⟨fun b hb hPb => hno b hPb (.inl hb), fun b hPb hm => hno b hPb (.inr hm)⟩

theorem Heap.Free.consulted (hh : h.Free P) (hargs : ∀ x ∈ args, x.Free P)
    (hnew : ∀ b, P b → ¬ new.Mentions b) : (h.consulted c args new).Free P := by
  refine ⟨fun b hb hm => ?_, hh.told hargs⟩
  rcases hm.of_absorb with hm | hm
  · exact hh.mem b hb hm
  · exact hnew b hb hm

theorem SameSlots.consulted (hh : h.Free P) (hargs : ∀ x ∈ args, x.Free P) :
    SameSlots P h (h.consulted c args new) := by
  intro n v hP
  have hno : ¬ Exposed (h.known ++ args.flatMap (·.bases)) h.mem (.slot n v) := by
    intro he
    generalize hb : Base.slot n v = b at he
    cases he with
    | shared hs => exact hs n v hb.symm
    | known hk => exact hh.told hargs b hk (hb ▸ hP)
    | stored _ hm => exact hh.mem _ (hb ▸ hP) ⟨_, _, _, _, hm, rfl⟩
  funext o
  exact if_neg hno

theorem Heap.Bare.consulted (hb : h.Bare d) : (h.consulted c args new).Bare d := by
  intro n v o hn
  change Mem.absorb _ _ _ _ _ = none
  unfold Mem.absorb
  split
  · rw [hb n v o hn]
    rfl
  · exact hb n v o hn

end Outside

/-! ## Activations begin and end -/

section Frames

theorem Mem.Mentions.of_openFrame (h : (m.openFrame f d g).Mentions b) : m.Mentions b := by
  obtain ⟨b', o, p, i, hm, hb⟩ := h
  unfold Mem.openFrame at hm
  split at hm
  · split at hm
    · split at hm <;> cases hm
    · exact ⟨_, o, p, i, hm, hb⟩
  · exact ⟨b', o, p, i, hm, hb⟩

theorem Mem.openFrame_other {n} (hn : n ≠ d) (v) : m.openFrame f d g (.slot n v) = m (.slot n v) := by
  funext o
  simp [Mem.openFrame, hn]

theorem Ptr.retire_base (h : (p.retire T d).base = b) : b = .absolute ∨ (b.isLocal d = false ∧ p.base = b) := by
  unfold Ptr.retire at h
  split at h
  · exact .inl h.symm
  · next hl => exact .inr ⟨h ▸ by simpa using hl, h⟩

theorem Ptr.retire_eq (h : p.base.isLocal d = false) : p.retire T d = p := by
  simp [Ptr.retire, h]

theorem Mem.Mentions.of_closeFrame (h : (m.closeFrame T d).Mentions b) :
    b = .absolute ∨ (b.isLocal d = false ∧ m.Mentions b) := by
  obtain ⟨b', o, p, i, hm, hb⟩ := h
  unfold Mem.closeFrame at hm
  split at hm
  · cases hm
  · obtain ⟨y, hy, hyp⟩ := map_eq_some_iff.mp hm
    cases y with
    | byte z => cases hyp
    | frag q j =>
      simp only [MByte.retire, MByte.frag.injEq] at hyp
      rcases Ptr.retire_base (hyp.1 ▸ hb) with rfl | ⟨hl, hq⟩
      · exact .inl rfl
      · exact .inr ⟨hl, b', o, q, j, hy, hq⟩

theorem Val.mem_bases_retire {x : Val} (h : b ∈ (x.retire T d).bases) :
    b = .absolute ∨ (b.isLocal d = false ∧ b ∈ x.bases) := by
  cases x with
  | ptr p =>
    simp only [retire, bases, mem_singleton] at h ⊢
    rcases Ptr.retire_base h.symm with hb | ⟨hl, hb⟩
    · exact .inl hb
    · exact .inr ⟨hl, hb.symm⟩
  | bytes bs =>
    simp only [retire, bases, mem_filterMap, List.mem_map] at h
    obtain ⟨z, ⟨y, hy, rfl⟩, hz⟩ := h
    cases y with
    | byte w => simp [MByte.retire] at hz
    | frag p i =>
      simp only [MByte.retire, some.injEq] at hz
      rcases Ptr.retire_base hz with hb | ⟨hl, hb⟩
      · exact .inl hb
      · refine .inr ⟨hl, ?_⟩
        simp only [bases, mem_filterMap]
        exact ⟨.frag p i, hy, by simp [hb]⟩
  | int w n => simp [retire, bases] at h
  | bool v => simp [retire, bases] at h
  | float w n => simp [retire, bases] at h

end Frames

/-! ## One instruction -/

def InstKind.callTarget : InstKind → List Val → Option (Callee × List Val)
  | .call (.indirect _) _, target :: args => some (.indirect target, args)
  | .call (.internal n) _, vals => some (.internal n, vals)
  | .call (.external name) _, vals => some (.external name, vals)
  | .runtimeCall .checkBounds _, _ => none
  | .runtimeCall rf _, vals => some (.runtime rf, vals)
  | _, _ => none

section Step

variable {W : World} {i : Inst} {vals : List Val}

theorem performIn_callTarget (hc : i.kind.callTarget vals = some (c, args)) :
    performIn T W k call i vals h = call i.ty c args h := by
  unfold callTarget at hc
  split at hc <;> simp only [reduceCtorEq, some.injEq, Prod.mk.injEq] at hc
  · obtain ⟨rfl, rfl⟩ := hc
    simp_all [performIn]
  · obtain ⟨rfl, rfl⟩ := hc
    simp_all [performIn]
  · obtain ⟨rfl, rfl⟩ := hc
    simp_all [performIn]
  · obtain ⟨rfl, rfl⟩ := hc
    next rf _ hrf hk =>
      cases rf <;> simp_all [performIn]

theorem callTarget_args {kind : InstKind} (hc : kind.callTarget vals = some (c, args)) : ∀ x ∈ args, x ∈ vals := by
  unfold callTarget at hc
  split at hc <;> simp only [reduceCtorEq, some.injEq, Prod.mk.injEq] at hc <;> obtain ⟨rfl, rfl⟩ := hc
  · exact fun x hx => .tail _ hx
  all_goals exact fun x hx => hx

theorem performIn_no_target {call'} (hc : i.kind.callTarget vals = none) :
    performIn T W k call' i vals h = performIn T W k call i vals h := by
  obtain ⟨id, kind, ty⟩ := i
  cases kind <;> try rfl
  case call callee args =>
    cases callee with
    | internal n => cases hc
    | external name => cases hc
    | indirect t =>
      cases vals with
      | nil => rfl
      | cons x xs => cases hc
  case runtimeCall rf args => cases rf <;> first | rfl | cases hc

/-- What is no call does the same as in a function alone, except that literals are told apart. -/
theorem performIn_plain (hc : i.kind.isCall = false) (hs : ∀ bs, i.kind ≠ .constString bs) :
    performIn T W k call i vals h = .ok (perform T W i vals h) := by
  obtain ⟨id, kind, ty⟩ := i
  cases kind <;> simp only [isCall, Bool.true_eq_false] at hc <;> try rfl
  case constString bs => exact absurd rfl (hs bs)
  case runtimeCall rf args =>
    cases rf <;> simp only [Bool.true_eq_false] at hc
    rfl

theorem performIn_call_ok (hc : i.kind.isCall = true) (hp : performIn T W k call i vals h = .ok (.ok v h')) :
    ∃ c args, i.kind.callTarget vals = some (c, args) ∧ call i.ty c args h = .ok (.ok v h') := by
  cases ht : i.kind.callTarget vals with
  | some ca => exact ⟨ca.1, ca.2, rfl, by rw [← hp, performIn_callTarget ht]⟩
  | none =>
    obtain ⟨id, kind, ty⟩ := i
    cases kind <;> simp only [isCall, Bool.false_eq_true] at hc
    case call callee args =>
      cases callee with
      | internal n => cases ht
      | external name => cases ht
      | indirect t =>
        cases vals with
        | nil => cases hp
        | cons x xs => cases ht
    case runtimeCall rf args => cases rf <;> simp only [Bool.false_eq_true] at hc <;> cases ht

theorem execIn_ok (hx : i.execIn T W k call σ = .ok (.ok σ')) :
    ∃ vals v, i.kind.operands.mapM σ.env = some vals ∧ performIn T W k call i vals σ.toHeap = .ok (.ok v σ'.toHeap) ∧
      ((v = none ∧ σ'.env = σ.env) ∨ ∃ x, v = some x ∧ x.hasType i.ty = true ∧ σ'.env = σ.env.set i.id x) := by
  unfold Inst.execIn at hx
  split at hx
  · next vals hvals =>
    cases hp : performIn T W k call i vals σ.toHeap with
    | error t =>
      rw [hp] at hx
      cases hx
    | ok e =>
      rw [hp] at hx
      simp only [Except.map, Except.ok.injEq] at hx
      cases e with
      | halt why t => cases hx
      | ok v heap =>
        cases v with
        | none =>
          simp only [Effect.bind, Result.ok.injEq] at hx
          subst hx
          exact ⟨vals, none, hvals, hp, .inl ⟨rfl, rfl⟩⟩
        | some x =>
          simp only [Effect.bind] at hx
          split at hx
          · next hty =>
            simp only [Result.ok.injEq] at hx
            subst hx
            exact ⟨vals, some x, hvals, hp, .inr ⟨x, rfl, hty, rfl⟩⟩
          · cases hx
  · cases hx

theorem execIn_env_ne (hx : i.execIn T W k call σ = .ok (.ok σ')) {u} (hu : u ≠ i.id) : σ'.env u = σ.env u := by
  obtain ⟨_, _, _, _, ⟨-, he⟩ | ⟨x, -, -, he⟩⟩ := execIn_ok hx
  · rw [he]
  · rw [he, Env.set_ne _ _ hu]

end Step

/-! ## What a step keeps -/

/-- The function may be handed guarded addresses at this position: it only reads through them. -/
abbrev ReadOnly := Nat → Nat → Prop

def Callee.Trusts (ro : ReadOnly) (pos : Nat) : Callee → Prop
  | .internal j => ro j pos
  | _ => False

/-- The uses of a guarded address that do not give it away. -/
def InstKind.Permits (ro : ReadOnly) (u : ValueId) : InstKind → Prop
  | .load _ => True
  | .store v _ => v ≠ u
  | .call (.internal j) args => ∀ pos : Nat, args[pos]? = some u → ro j pos
  | _ => False

/-- Something that yields `v` made no pointers to `P`, kept the slots there and left no activation behind. -/
structure Kept (P : Base → Prop) (d : Nat) (h : Heap) (v : Option Val) (h' : Heap) : Prop where
  value : ∀ x, v = some x → x.Free P
  free : h'.Free P
  bare : h'.Bare d
  same : SameSlots P h h'

def Caller.Keeps (P : Base → Prop) (ro : ReadOnly) (d : Nat) (call : Caller) : Prop :=
  ∀ ty c args h v h', (∀ (pos : Nat) x, args[pos]? = some x → x.Free P ∨ c.Trusts ro pos) →
    (∀ x, c = .indirect x → x.Free P) → h.Free P → h.Bare (d + 1) → call ty c args h = .ok (.ok v h') →
    Kept P (d + 1) h v h'

section Keep

variable {O : Outside} {E : ValueId → Prop} {ro : ReadOnly}
  {i : Inst} {vals : List Val} {σ σ' : State}

theorem State.Free.operands (hf : σ.Free P E) (hvals : i.kind.operands.mapM σ.env = some vals)
    (hE : ∀ u ∈ i.kind.operands, ¬ E u) : ∀ x ∈ vals, x.Free P := by
  intro x hx
  obtain ⟨u, hu, hux⟩ := exists_of_mem_mapM hvals hx
  exact hf.env u x hux (hE u hu)

theorem State.Free.callArgs (hf : σ.Free P E) (hperm : ∀ u ∈ i.kind.operands, E u → i.kind.Permits ro u)
    (hvals : i.kind.operands.mapM σ.env = some vals) (hc : i.kind.callTarget vals = some (c, args)) :
    (∀ (pos : Nat) x, args[pos]? = some x → x.Free P ∨ c.Trusts ro pos) ∧ ∀ x, c = .indirect x → x.Free P := by
  obtain ⟨id, kind, ty⟩ := i
  -- a call other than an internal one permits nothing, so its operands are free
  have hfree : (∀ u, ¬ kind.Permits ro u) → ∀ x ∈ vals, x.Free P := fun hno =>
    hf.operands hvals fun u hu hE => hno u (hperm u hu hE)
  have hget : ∀ (xs : List Val) (pos : Nat) x, (∀ y ∈ xs, y.Free P) → xs[pos]? = some x → x.Free P :=
    fun xs pos x hxs hx => hxs x (mem_of_getElem? hx)
  unfold callTarget at hc
  split at hc <;> simp only [reduceCtorEq, some.injEq, Prod.mk.injEq] at hc <;> obtain ⟨rfl, rfl⟩ := hc
  · next t as target args hk =>
    subst hk
    have hall := hfree fun _ hno => hno
    exact ⟨fun pos x hx => .inl (hget _ pos x (fun y hy => hall y (.tail _ hy)) hx),
      fun x hx => (by cases hx; exact hall _ mem_cons_self)⟩
  · next n as vals hk =>
    subst hk
    refine ⟨fun pos x hx => ?_, fun x hx => by cases hx⟩
    rw [getElem?_of_mapM hvals pos] at hx
    obtain ⟨u, hu, hux⟩ := bind_eq_some_iff.mp hx
    by_cases hE : E u
    · exact .inr (hperm u (mem_of_getElem? hu) hE pos hu)
    · exact .inl (hf.env u x hux hE)
  · next name as vals hk =>
    subst hk
    exact ⟨fun pos x hx => .inl (hget _ pos x (hfree fun _ hno => hno) hx), fun x hx => by cases hx⟩
  · next rf as vals hrf hk =>
    subst hk
    exact ⟨fun pos x hx => .inl (hget _ pos x (hfree fun _ hno => hno) hx), fun x hx => by cases hx⟩

theorem perform_free (hP : ∀ b, P b → b.isGuarded O.hidden = true) (hc : i.kind.isCall = false)
    (hf : σ.Free P E) (hbare : σ.toHeap.Bare (d + 1)) (hperm : ∀ u ∈ i.kind.operands, E u → i.kind.Permits ro u)
    (hvals : i.kind.operands.mapM σ.env = some vals) {h'} (hp : perform T (O.world d) i vals σ.toHeap = .ok v h') :
    (∀ x, v = some x → ∀ b ∈ x.bases, P b → b ∈ i.origins (O.world d)) ∧ h'.Free P ∧ h'.Bare (d + 1) ∧
      ((∀ val a, i.kind = .store val a → ¬ E a) → SameSlots P σ.toHeap h') := by
  by_cases hcomp : i.kind.isCompute = true
  · obtain ⟨rfl, x, rfl, hx⟩ := perform_compute hcomp hp
    refine ⟨fun y hy b hb hPb => ?_, hf.heap, hbare, fun _ => .of_eq rfl⟩
    cases hy
    rcases compute_bases hx hb with ⟨y, hy, hby⟩ | hown
    · obtain ⟨u, hu, huy⟩ := exists_of_mem_mapM hvals hy
      by_cases hE : E u
      · have := hperm u hu hE
        obtain ⟨id, kind, ty⟩ := i
        cases kind <;> simp [InstKind.Permits, isCompute] at this hcomp
      · exact absurd hPb (hf.env u y huy hE b hby)
    · exact hown
  cases hs : i.kind.stored with
  | some va =>
    obtain ⟨val, addr⟩ := va
    obtain ⟨x, p, rfl, rfl, hread, hmem, hknown⟩ := perform_store hs hp
    rw [operands_of_stored hs, mapM_eq_some_iff] at hvals
    obtain ⟨hx, hrest⟩ := forall₂_cons.mp hvals
    obtain ⟨hptr, -⟩ := forall₂_cons.mp hrest
    -- the stored value is free; the address is, unless this is a plain store to an exempt one
    have hval : ¬ E val := fun hE => by
      have := hperm val (by simp [operands_of_stored hs]) hE
      obtain ⟨id, kind, ty⟩ := i
      cases kind <;> simp_all [InstKind.Permits, stored]
    refine ⟨fun y hy => (by cases hy), hf.heap.put (hf.env val x hx hval) hmem hknown, hbare.put hread hmem, ?_⟩
    intro hstore
    have haddr : ¬ E addr := fun hE => by
      have := hperm addr (by simp [operands_of_stored hs]) hE
      obtain ⟨id, kind, ty⟩ := i
      cases kind <;> simp_all [InstKind.Permits, stored]
    exact .put (hf.env addr _ hptr haddr _ (by simp [bases])) hmem
  | none =>
    obtain ⟨hm, hk⟩ := perform_mem hs hc hp
    refine ⟨fun x hx b hb hPb => ?_, hf.heap.congr hm hk, hbare.congr hm, fun _ => .of_eq hm⟩
    subst hx
    have hguard := hP b hPb
    refine absurd (perform_load_bases (by simpa using hcomp) hs hc hp hb ?_ ?_) (hf.heap.mem b hPb)
    · rintro rfl
      cases hguard
    · rintro n p bs q j rfl hin
      exact O.volatileRead_honest n p bs q j hguard hin

theorem execIn_free (hP : ∀ b, P b → b.isGuarded O.hidden = true) (hown : ¬ E i.id → ∀ b ∈ i.origins (O.world d), ¬ P b)
    (hperm : ∀ u ∈ i.kind.operands, E u → i.kind.Permits ro u) (hcall : call.Keeps P ro d) (hf : σ.Free P E)
    (hbare : σ.toHeap.Bare (d + 1)) (hx : i.execIn T (O.world d) k call σ = .ok (.ok σ')) :
    σ'.Free P E ∧ σ'.toHeap.Bare (d + 1) ∧
      ((∀ val a, i.kind = .store val a → ¬ E a) → SameSlots P σ.toHeap σ'.toHeap) := by
  obtain ⟨vals, v, hvals, hp, henv⟩ := execIn_ok hx
  suffices hmain : (∀ x, v = some x → ∀ b ∈ x.bases, P b → b ∈ i.origins (O.world d)) ∧ σ'.toHeap.Free P ∧
      σ'.toHeap.Bare (d + 1) ∧ ((∀ val a, i.kind = .store val a → ¬ E a) → SameSlots P σ.toHeap σ'.toHeap) by
    obtain ⟨hval, hheap, hbare', hsame⟩ := hmain
    refine ⟨⟨hheap, fun u x hux hE => ?_⟩, hbare', hsame⟩
    rcases henv with ⟨-, he⟩ | ⟨y, rfl, -, he⟩
    · exact hf.env u x (he ▸ hux) hE
    · rw [he] at hux
      by_cases hu : u = i.id
      · subst hu
        rw [Env.set_self, some.injEq] at hux
        subst hux
        exact fun b hb hPb => hown hE b (hval y rfl b hb hPb) hPb
      · exact hf.env u x (by rwa [Env.set_ne _ _ hu] at hux) hE
  cases hc : i.kind.isCall with
  | true =>
    obtain ⟨c, args, ht, hcl⟩ := performIn_call_ok hc hp
    obtain ⟨hargs, htarget⟩ := hf.callArgs hperm hvals ht
    have hkept := hcall _ _ _ _ _ _ hargs htarget hf.heap hbare hcl
    exact ⟨fun x hx b hb hPb => absurd hPb (hkept.value x hx b hb), hkept.free, hkept.bare, fun _ => hkept.same⟩
  | false =>
    by_cases hs : ∃ bs, i.kind = .constString bs
    · obtain ⟨bs, hk⟩ := hs
      obtain ⟨id, kind, ty⟩ := i
      subst hk
      simp only [performIn, Except.ok.injEq, Effect.ok.injEq] at hp
      obtain ⟨rfl, hheap⟩ := hp
      refine ⟨fun x hx b hb hPb => ?_, hheap ▸ hf.heap, hheap ▸ hbare, fun _ => .of_eq (by rw [hheap])⟩
      cases hx
      simp only [bases, mem_singleton] at hb
      subst hb
      cases hP _ hPb
    · rw [performIn_plain hc fun bs hk => hs ⟨bs, hk⟩, Except.ok.injEq] at hp
      exact perform_free hP hc hf hbare hperm hvals hp

end Keep

/-! ## Whole runs -/

def Module.Exempt (M : Module) (ro : ReadOnly) (j : Nat) (u : ValueId) : Prop :=
  ∃ f, ∃ pos : Nat, ∃ p : Param, M.functions[j]? = some f ∧ f.params[pos]? = some p ∧ p.id = u ∧ ro j pos

/-- The functions of the module do not name the guarded storage, and what they are trusted with they only
load from. -/
structure Module.Respects (M : Module) (O : Outside) (G : Base → Prop) (ro : ReadOnly) : Prop where
  guarded : ∀ b, G b → b.isGuarded O.hidden = true
  globals : ∀ f ∈ M.functions, ∀ i ∈ f.allInsts, ∀ name, i.kind = .globalAddr name → ¬ G (.global name)
  loads : ∀ j f, M.functions[j]? = some f → ∀ i ∈ f.allInsts, ∀ u ∈ i.kind.operands, M.Exempt ro j u →
    ∃ a, i.kind = .load a
  terms : ∀ j f, M.functions[j]? = some f → ∀ b ∈ f.blocks, ∀ t ∈ b.terminator, ∀ u ∈ t.uses, ¬ M.Exempt ro j u

section Run

variable {S : Machine} {M : Module} {ro : ReadOnly}

theorem origins_not_off (hM : M.Respects S.outside G ro) (hf : f ∈ M.functions) {i}
    (hi : i ∈ f.allInsts) (hG : ∀ v, ¬ G (.slot d v)) : ∀ b ∈ i.origins (S.outside.world d), ¬ Off G (d + 1) b := by
  intro b hb hoff
  have hguard := Off.guarded hM.guarded b hoff
  obtain ⟨id, kind, ty⟩ := i
  cases kind <;> simp only [Inst.origins, mem_singleton, not_mem_nil] at hb
  case alloca aty =>
    subst hb
    rcases hoff with hg | ⟨n, v, hn, heq⟩
    · exact hG id hg
    · simp only [Outside.world, Base.slot.injEq] at heq
      omega
  case globalAddr name =>
    subst hb
    rcases hoff with hg | ⟨n, v, -, heq⟩
    · exact hM.globals f hf _ hi name rfl hg
    · cases heq
  case undef uty =>
    have := S.outside.undef_honest _ _ _ hb
    rw [hguard] at this
    cases this
  case constString bs =>
    subst hb
    cases hguard
  case intToPtr a pty =>
    subst hb
    cases hguard

/-- A state of function `k` in activation `d` that knows nothing out of reach. -/
structure Proper (M : Module) (G : Base → Prop) (ro : ReadOnly) (d k : Nat) (σ : State) : Prop where
  free : σ.Free (Off G (d + 1)) (M.Exempt ro k)
  bare : σ.toHeap.Bare (d + 1)

theorem Proper.enter {b b' args} (h : Proper M G ro d k σ)
    (hargs : ∀ u ∈ args, ¬ M.Exempt ro k u) (he : f.enter b args σ = .running b' σ') :
    Proper M G ro d k σ' ∧ σ'.toHeap = σ.toHeap := by
  obtain ⟨-, dst, vals, env, -, hvals, hbind, rfl⟩ := Function.enter_running he
  refine ⟨⟨⟨h.free.heap, fun u x hux hE => ?_⟩, h.bare⟩, rfl⟩
  rcases bindParams_cases hbind hux with hold | hnew
  · exact h.free.env u x hold hE
  · obtain ⟨w, hw, hwx⟩ := exists_of_mem_mapM hvals hnew
    exact h.free.env w x hwx (hargs w hw)

/-- What a block of function `k` leads to in activation `d`. -/
inductive Proper.Outcome (M : Module) (G : Base → Prop) (ro : ReadOnly) (d k : Nat) (h : Heap) : Outcome → Prop
  | running {b : BlockId} {σ : State} : Proper M G ro d k σ → SameSlots (Off G (d + 1)) h σ.toHeap →
      Outcome M G ro d k h (.running b σ)
  | returned {v : Option Val} {σ : State} : Kept (Off G (d + 1)) (d + 1) h v σ.toHeap →
      Outcome M G ro d k h (.returned v σ)
  | halted {why : Halt} {t : List Event} : Outcome M G ro d k h (.halted why t)

theorem Proper.execTerm {σ} (h : Proper M G ro d k σ) {t : Terminator}
    (huses : ∀ u ∈ t.uses, ¬ M.Exempt ro k u) {heap} (hsame : SameSlots (Off G (d + 1)) heap σ.toHeap) :
    Proper.Outcome M G ro d k heap (f.execTerm S.target t σ) := by
  rcases execTerm_cases f S.target t σ with ⟨dest, args, ht⟩ | ⟨-, ho⟩ | ⟨v, x, rfl, hx, ho⟩ | ⟨-, ho⟩ | ho
  · rw [ht.execTerm]
    cases he : f.enter dest args σ with
    | running b σ' =>
      obtain ⟨hp, hheap⟩ := h.enter (fun u hu => huses u (ht.mem_uses u hu)) he
      exact .running hp (hheap ▸ hsame)
    | halted why t' => exact .halted
    | returned v σ' => rcases Function.enter_cases f dest args σ with h' | ⟨_, h'⟩ <;> rw [h'] at he <;> cases he
  · rw [ho]
    exact .returned ⟨fun x hx => (by cases hx), h.free.heap, h.bare, hsame⟩
  · rw [ho]
    refine .returned ⟨fun y hy => ?_, h.free.heap, h.bare, hsame⟩
    cases hy
    exact h.free.env v x hx (huses v (by simp [Terminator.uses]))
  · rw [ho]
    exact .halted
  · rw [ho]
    exact .halted

section Body

variable {f : Function} (hM : M.Respects S.outside G ro) (hG : ∀ v, ¬ G (.slot d v)) (hf : M.functions[k]? = some f)
  (hcall : call.Keeps (Off G (d + 1)) ro d)
include hM hG hf hcall

theorem Proper.execIn {i} (hi : i ∈ f.allInsts) (h : Proper M G ro d k σ)
    (hx : i.execIn S.target (S.outside.world d) k call σ = .ok (.ok σ')) :
    Proper M G ro d k σ' ∧ SameSlots (Off G (d + 1)) σ.toHeap σ'.toHeap := by
  have hload := hM.loads k f hf i hi
  have hperm : ∀ u ∈ i.kind.operands, M.Exempt ro k u → i.kind.Permits ro u := by
    intro u hu hE
    obtain ⟨a, hk⟩ := hload u hu hE
    rw [hk]
    trivial
  obtain ⟨hfree, hbare, hsame⟩ := execIn_free (Off.guarded hM.guarded)
    (fun _ => origins_not_off hM (mem_of_getElem? hf) hi hG) hperm hcall h.free h.bare hx
  refine ⟨⟨hfree, hbare⟩, hsame fun val a hk hE => ?_⟩
  obtain ⟨a', hk'⟩ := hload a (by simp [hk, operands]) hE
  rw [hk] at hk'
  cases hk'

theorem Proper.execInstsIn {is} (his : ∀ i ∈ is, i ∈ f.allInsts) (h : Proper M G ro d k σ)
    (hx : execInstsIn S.target (S.outside.world d) k call is σ = .ok (.ok σ')) :
    Proper M G ro d k σ' ∧ SameSlots (Off G (d + 1)) σ.toHeap σ'.toHeap := by
  induction is generalizing σ with
  | nil =>
    cases hx
    exact ⟨h, .of_eq rfl⟩
  | cons i is ih =>
    simp only [Ir.execInstsIn] at hx
    split at hx
    · next σ₁ h₁ =>
      obtain ⟨hp₁, hs₁⟩ := h.execIn hM hG hf hcall (his i mem_cons_self) h₁
      obtain ⟨hp, hs⟩ := ih (fun j hj => his j (.tail _ hj)) hp₁ hx
      exact ⟨hp, hs₁.trans hs⟩
    · next hno => exact absurd hx (hno σ')

theorem Proper.execBlockIn {b σ} (h : Proper M G ro d k σ) {o}
    (hx : f.execBlockIn S.target (S.outside.world d) k call b σ = .ok o) : Proper.Outcome M G ro d k σ.toHeap o := by
  unfold Function.execBlockIn at hx
  split at hx
  · cases hx
    exact .halted
  · next blk hblk =>
    have hmem := (Function.mem_blocks_of_tryBlock hblk).1
    split at hx
    · cases hx
    · cases hx
      exact .halted
    · next σ₁ h₁ =>
      obtain ⟨hp, hs⟩ := h.execInstsIn hM hG hf hcall
        (fun i hi => mem_flatMap.mpr ⟨blk, hmem, hi⟩) h₁
      split at hx
      · next t ht =>
        cases hx
        exact hp.execTerm (hM.terms k f hf blk hmem t ht) hs
      · cases hx
        exact .halted

end Body

theorem Proper.activate {σ} (hf : M.functions[k]? = some f)
    (hargs : ∀ (pos : Nat) x, args[pos]? = some x → x.Free (Off G d) ∨ ro k pos) (hh : h.Clean G d)
    (ha : f.activate S.outside d args h = some σ) : Proper M G ro d k σ := by
  obtain ⟨env, hbind, rfl⟩ := map_eq_some_iff.mp ha
  have hmono := Off.mono (G := G) (Nat.le_succ d)
  refine ⟨⟨⟨fun b hb hm => hh.free.mem b (hmono b hb) hm.of_openFrame, fun b hb ho => hh.free.known b hb (hmono b ho)⟩,
    fun u x hux hE => ?_⟩, fun n v o hn => ?_⟩
  · rcases bindParams_params hbind hux with hnone | ⟨pos, p, hp, hpu, hx⟩
    · cases hnone
    · simp only [getElem?_map, map_eq_some_iff] at hp
      obtain ⟨q, hq, rfl⟩ := hp
      rcases hargs pos x hx with hx | hro
      · exact hx.mono hmono
      · exact absurd ⟨f, pos, q, hf, hq, hpu, hro⟩ hE
  · change h.mem.openFrame f d _ (.slot n v) o = none
    rw [Mem.openFrame_other (by omega)]
    exact hh.bare n v o (by omega)

theorem Kept.clean (hk : Kept (Off G d) d h v h') : h'.Clean G d := ⟨hk.free, hk.bare⟩

theorem Kept.leave (hguard : ∀ b, G b → b.isGuarded S.outside.hidden = true) (hh : h.Clean G d)
    (hk : Kept (Off G (d + 1)) (d + 1) { h with mem := h.mem.openFrame f d g } v h') :
    Kept (Off G d) d h (v.map (·.retire S.target d)) (h'.closeFrame S.target d) := by
  -- what is out of reach after the return was out of reach before it, or belongs to the activation
  have hoff : ∀ b, Off G d b → b ≠ .absolute ∧ (b.isLocal d = false → Off G (d + 1) b) := by
    rintro b (hb | ⟨n, w, hn, rfl⟩)
    · refine ⟨fun habs => ?_, fun _ => .inl hb⟩
      have := hguard b hb
      rw [habs] at this
      cases this
    · refine ⟨by simp, fun hl => .inr ⟨n, w, ?_, rfl⟩⟩
      have : n ≠ d := by simpa [Base.isLocal] using hl
      omega
  refine ⟨fun x hx b hb hob => ?_, ⟨fun b hob hm => ?_, fun b hb hob => ?_⟩, fun n w o hn => ?_, fun n w how => ?_⟩
  · obtain ⟨y, hy, rfl⟩ := map_eq_some_iff.mp hx
    rcases mem_bases_retire hb with habs | ⟨hl, hby⟩
    · exact (hoff b hob).1 habs
    · exact hk.value y hy b hby ((hoff b hob).2 hl)
  · rcases Mem.Mentions.of_closeFrame hm with habs | ⟨hl, hm⟩
    · exact (hoff b hob).1 habs
    · exact hk.free.mem b ((hoff b hob).2 hl) hm
  · obtain ⟨hb, hl⟩ := mem_filter.mp hb
    exact hk.free.known b hb ((hoff b hob).2 (by simpa using hl))
  · change (if (Base.slot n w).isLocal d then none else (h'.mem (.slot n w) o).map (·.retire S.target d)) = none
    split
    · rfl
    · next hl =>
      have : n ≠ d := by simpa [Base.isLocal] using hl
      rw [hk.bare n w o (by omega)]
      rfl
  · funext o
    change (if (Base.slot n w).isLocal d then none else (h'.mem (.slot n w) o).map (·.retire S.target d)) = _
    by_cases hnd : n = d
    · rw [if_pos (by simp [Base.isLocal, hnd]), hh.bare n w o (by omega)]
    · rw [if_neg (by simpa [Base.isLocal] using hnd)]
      have hsame := hk.same n w ((hoff _ how).2 (by simpa [Base.isLocal] using hnd))
      change h'.mem (.slot n w) = h.mem.openFrame f d g (.slot n w) at hsame
      rw [hsame, Mem.openFrame_other hnd]
      cases hb : h.mem (.slot n w) o with
      | none => rfl
      | some y =>
        cases y with
        | byte z => rfl
        | frag p i =>
          -- a pointer in the slot does not point to an activation that did not exist
          have hl : p.base.isLocal d = false := by
            by_contra hl
            refine hh.free.mem p.base ?_ ⟨_, o, p, i, hb, rfl⟩
            cases hpb : p.base with
            | slot m u =>
              rw [hpb] at hl
              have : m = d := by simpa [Base.isLocal] using hl
              exact .inr ⟨m, u, by omega, rfl⟩
            | _ => rw [hpb] at hl; simp [Base.isLocal] at hl
          simp [MByte.retire, Ptr.retire_eq hl]

theorem Kept.after {h₀ h h'} (hk : Kept P d h v h')
    (hs : SameSlots P h₀ h) : Kept P d h₀ v h' := ⟨hk.value, hk.free, hk.bare, hs.trans hk.same⟩

/-- With this fuel no run makes a pointer to what is out of reach, nor changes slots there. -/
structure Machine.Keeps (S : Machine) (M : Module) (G : Base → Prop) (ro : ReadOnly) (n : Nat) : Prop where
  blocks : ∀ d k f b σ v h', (∀ m w, G (.slot m w) → m < d) → M.functions[k]? = some f → Proper M G ro d k σ →
    S.runBlocks M n d k f b σ = .ok (.ok v h') → Kept (Off G (d + 1)) (d + 1) σ.toHeap v h'
  invoke : ∀ d k args h v h', (∀ m w, G (.slot m w) → m < d) →
    (∀ (pos : Nat) x, args[pos]? = some x → x.Free (Off G d) ∨ ro k pos) → h.Clean G d →
    S.invoke M n d k args h = .ok (.ok v h') → Kept (Off G d) d h v h'
  consult : ∀ d ty c args h v h', (∀ m w, G (.slot m w) → m < d + 1) → (∀ x ∈ args, x.Free (Off G (d + 1))) →
    h.Clean G (d + 1) → S.consult M n d ty c args h = .ok (.ok v h') → Kept (Off G (d + 1)) (d + 1) h v h'

section Fuel

variable {n : Nat} (ih : S.Keeps M G ro n)
include ih

theorem Machine.Keeps.caller (hG : ∀ m w, G (.slot m w) → m < d + 1) : (S.call M n d).Keeps (Off G (d + 1)) ro d := by
  intro ty c args h v h' hargs htarget hfree hbare hx
  unfold Machine.call Module.dispatch at hx
  split at hx
  · next j hj =>
    cases he : S.invoke M n (d + 1) j args h with
    | error t => rw [he] at hx; cases hx
    | ok e =>
      rw [he] at hx
      simp only [Except.map, Except.ok.injEq] at hx
      cases e with
      | halt why t => cases hx
      | ok w h₁ =>
        simp only [Effect.result, Effect.ok.injEq] at hx
        obtain ⟨rfl, rfl⟩ := hx
        have hk := ih.invoke (d + 1) j args h w h₁ hG (fun pos x hpos => ?_) ⟨hfree, hbare⟩ he
        · refine ⟨fun x hx => ?_, hk.free, hk.bare, hk.same⟩
          split at hx
          · cases hx
          · exact hk.value x hx
        · rcases hargs pos x hpos with hx | htr
          · exact .inl hx
          · cases c with
            | internal n =>
              cases hj
              exact .inr htr
            | _ => exact htr.elim
  · next hj =>
    refine ih.consult d ty c args h v h' hG (fun x hx => ?_) ⟨hfree, hbare⟩ hx
    obtain ⟨pos, hpos⟩ := mem_iff_getElem?.mp hx
    rcases hargs pos x hpos with hx | htr
    · exact hx
    · cases c with
      | internal n => cases hj
      | _ => exact htr.elim

variable (hM : M.Respects S.outside G ro)
include hM

theorem Machine.Keeps.blocks_succ {f b σ} (hG : ∀ m w, G (.slot m w) → m < d) (hf : M.functions[k]? = some f)
    (hp : Proper M G ro d k σ) (hx : S.runBlocks M (n + 1) d k f b σ = .ok (.ok v h')) :
    Kept (Off G (d + 1)) (d + 1) σ.toHeap v h' := by
  rw [Machine.runBlocks_succ] at hx
  cases ho : f.execBlockIn S.target (S.outside.world d) k (S.call M n d) b σ with
  | error t => rw [ho] at hx; cases hx
  | ok o =>
    rw [ho] at hx
    have hout := hp.execBlockIn hM (fun w hw => Nat.lt_irrefl d (hG d w hw)) hf
      (ih.caller fun m w hw => Nat.lt_succ_of_lt (hG m w hw)) ho
    cases hout with
    | running hp' hs => exact (ih.blocks d k f _ _ v h' hG hf hp' hx).after hs
    | returned hk =>
      cases hx
      exact hk
    | halted => cases hx

theorem Machine.Keeps.invoke_succ (hG : ∀ m w, G (.slot m w) → m < d)
    (hargs : ∀ (pos : Nat) x, args[pos]? = some x → x.Free (Off G d) ∨ ro k pos) (hh : h.Clean G d)
    (hx : S.invoke M (n + 1) d k args h = .ok (.ok v h')) : Kept (Off G d) d h v h' := by
  simp only [Machine.invoke] at hx
  split at hx
  · cases hx
  · next f hf =>
    split at hx
    · cases hx
    · next σ hσ =>
      have hp := Proper.activate hf hargs hh hσ
      cases hr : S.runBlocks M n d k f f.entry σ with
      | error t => rw [hr] at hx; cases hx
      | ok e =>
        rw [hr] at hx
        cases e with
        | halt why t => cases hx
        | ok w h₁ =>
          obtain ⟨rfl, rfl⟩ := hx
          have hk := ih.blocks d k f f.entry σ w h₁ hG hf hp hr
          obtain ⟨env, -, rfl⟩ := map_eq_some_iff.mp hσ
          exact hk.leave hM.guarded hh

theorem Machine.Keeps.consult_succ {ty} (hG : ∀ m w, G (.slot m w) → m < d + 1)
    (hargs : ∀ x ∈ args, x.Free (Off G (d + 1))) (hh : h.Clean G (d + 1))
    (hx : S.consult M (n + 1) d ty c args h = .ok (.ok v h')) : Kept (Off G (d + 1)) (d + 1) h v h' := by
  simp only [Machine.consult] at hx
  split at hx
  · cases hx
  · next r ha =>
    obtain ⟨hbases, hmem⟩ := S.outside.answer_free (Off.guarded hM.guarded) hh.free hargs ha
    obtain ⟨rfl, rfl⟩ := hx
    refine ⟨fun x hx => ?_, hh.free.consulted hargs hmem, hh.bare.consulted, .consulted hh.free hargs⟩
    split at hx
    · cases hx
    · cases hx
      exact hbases
  · next name args' mem returnTo ha =>
    obtain ⟨hbases, hmem⟩ := S.outside.answer_free (Off.guarded hM.guarded) hh.free hargs ha
    have hargs' : ∀ x ∈ args', x.Free (Off G (d + 1)) := fun x hx b hb =>
      hbases b (by simpa [Answer.bases] using .inr (.inr ⟨x, hx, hb⟩))
    split at hx
    · cases hx
    · next j hj =>
      cases hi : S.invoke M n (d + 1) j args' (h.consulted c args mem) with
      | error t => rw [hi] at hx; cases hx
      | ok e =>
        rw [hi] at hx
        cases e with
        | halt why t => cases hx
        | ok w h₁ =>
          -- the callback is one more activation, then the outside goes on
          have hk := ih.invoke (d + 1) j args' _ w h₁ hG
            (fun pos x hpos => .inl (hargs' x (mem_of_getElem? hpos)))
            ⟨hh.free.consulted hargs hmem, hh.bare.consulted⟩ hi
          refine (ih.consult d ty _ w.toList h₁ v h' hG (fun x hx => ?_) hk.clean hx).after
            ((SameSlots.consulted hh.free hargs).trans hk.same)
          exact hk.value x (by simpa using hx)

end Fuel

/-- By induction on the fuel, for blocks, calls and the outside at once. -/
theorem run_kept (hM : M.Respects S.outside G ro) (n) : S.Keeps M G ro n := by
  induction n with
  | zero => exact ⟨nofun, nofun, nofun⟩
  | succ n ih =>
    exact ⟨fun _ _ _ _ _ _ _ => ih.blocks_succ hM, fun _ _ _ _ _ _ => ih.invoke_succ hM,
      fun _ _ _ _ _ _ _ => ih.consult_succ hM⟩

end Run

end Armfortas.Ir
