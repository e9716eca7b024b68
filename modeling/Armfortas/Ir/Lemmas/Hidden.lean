import Armfortas.Ir.Lemmas.Patch
import Armfortas.Ir.Lemmas.Private

/-! Passes rearrange slots nobody else knows about. Everything that does not go through a hidden slot then does the
same before and after: loads find the same bytes, callees reach and see the same memory. -/
namespace Armfortas.Ir
open Lib List Option

variable {H : List Base} {m : Mem} {t t' : List Event} {p : Ptr} {vals : List Val} {o o' : Outcome} {ty : IrType}
  {σ σ' : State}

/-! ## What is visible -/

def Event.isHidden (H : List Base) : Event → Bool
  | .store p _ => decide (p.base ∈ H)
  | _ => false

def visible (H : List Base) (t : List Event) : List Event := t.filter fun e => !e.isHidden H

theorem visible_cons_congr (h : visible H t' = visible H t) (e) : visible H (e :: t') = visible H (e :: t) := by
  unfold visible at h ⊢
  rw [filter_cons, filter_cons, h]

theorem visible_cons_hidden {t bs} (hp : p.base ∈ H) : visible H (.store p bs :: t) = visible H t := by
  simp [visible, Event.isHidden, hp]

theorem visible_append (H K t) : visible (H ++ K) t = visible K (visible H t) := by
  rw [visible, visible, visible, List.filter_filter]
  congr 1
  funext e
  cases e <;> simp [Event.isHidden, Bool.and_comm]

theorem visible_append' (H K t) : visible (H ++ K) t = visible H (visible K t) := by
  rw [visible, visible, visible, List.filter_filter]
  congr 1
  funext e
  cases e <;> simp [Event.isHidden]

theorem visible_trans {K t₁ t₂ t₃} (h : visible H t₂ = visible H t₁) (h' : visible K t₃ = visible K t₂) :
    visible (H ++ K) t₃ = visible (H ++ K) t₁ := by
  rw [visible_append', h', ← visible_append', visible_append, h, ← visible_append]

structure HeapRel (H : List Base) (h h' : Heap) : Prop where
  mem : ∀ b, b ∉ H → h'.mem b = h.mem b
  known : h'.known = h.known
  clock : h'.clock = h.clock
  trace : visible H h'.trace = visible H h.trace

theorem HeapRel.refl (H) (h : Heap) : HeapRel H h h := ⟨fun _ _ => rfl, rfl, rfl, rfl⟩

theorem HeapRel.trans {H K h₁ h₂ h₃} (h : HeapRel H h₁ h₂) (h' : HeapRel K h₂ h₃) : HeapRel (H ++ K) h₁ h₃ where
  mem b hb := by
    rw [mem_append, not_or] at hb
    rw [h'.mem b hb.2, h.mem b hb.1]
  known := h'.known.trans h.known
  clock := h'.clock.trans h.clock
  trace := visible_trans h.trace h'.trace

/-! ## Callees -/

/-- Nobody outside was told about hidden storage. -/
structure Quiet (H : List Base) (h : Heap) : Prop where
  mem : ∀ b ∈ H, ¬ h.mem.Mentions b
  known : ∀ b ∈ H, b ∉ h.known

section Call

variable {frame : Nat} (hlocal : ∀ b ∈ H, b.isLocal frame = true)
include hlocal

theorem Accessible.not_mem_hidden {known} (hknown : ∀ b ∈ H, b ∉ known)
    (hmem : ∀ b ∈ H, ¬ m.Mentions b) {b} (h : Accessible frame known m b) : b ∉ H := fun hb =>
  not_accessible (hlocal b hb) (hknown b hb) (hmem b hb) h

theorem Accessible.congr {known} {m' : Mem} (hknown : ∀ b ∈ H, b ∉ known)
    (hmem : ∀ b ∈ H, ¬ m.Mentions b) (heq : ∀ b, b ∉ H → m' b = m b) {b} (h : Accessible frame known m b) :
    Accessible frame known m' b := by
  induction h with
  | shared hs => exact .shared hs
  | known hk => exact .known hk
  | stored ha hm ih => exact .stored ih (by rw [heq _ (ha.not_mem_hidden hlocal hknown hmem), hm])

variable {known : List Base} {m' : Mem} (hknown : ∀ b ∈ H, b ∉ known) (hmem : ∀ b ∈ H, ¬ m.Mentions b)
  (heq : ∀ b, b ∉ H → m' b = m b)
include hknown hmem heq

theorem accessible_eq (hmem' : ∀ b ∈ H, ¬ m'.Mentions b) : Accessible frame known m' = Accessible frame known m := by
  funext b
  exact propext ⟨fun h => h.congr hlocal hknown hmem' fun b hb => (heq b hb).symm,
    fun h => h.congr hlocal hknown hmem heq⟩

theorem restrict_eq : m'.restrict (Accessible frame known m) = m.restrict (Accessible frame known m) := by
  funext b o
  unfold Mem.restrict
  split
  · next h => rw [heq b (h.not_mem_hidden hlocal hknown hmem)]
  · rfl

end Call

/-! ## Effects -/

inductive Effect.Related (H : List Base) : Effect → Effect → Prop
  | stuck {t : List Event} {e : Effect} : Related H (.halt .stuck t) e
  | halt {why : Halt} {t t' : List Event} : visible H t' = visible H t → Related H (.halt why t) (.halt why t')
  | ok {v : Option Val} {h h' : Heap} : HeapRel H h h' → Related H (.ok v h) (.ok v h')

theorem withPtr_related {h h'} (hvals : ∀ x ∈ vals, ∀ b ∈ H, b ∉ x.bases) {k k' : Ptr → Effect}
    (hk : ∀ p : Ptr, p.base ∉ H → Effect.Related H (k p) (k' p)) :
    Effect.Related H (withPtr vals h k) (withPtr vals h' k') := by
  unfold withPtr
  split
  · next p => exact hk p fun hb => hvals _ mem_cons_self _ hb (by simp [Val.bases])
  · exact .stuck

theorem withValueAndPtr_related {h h'} (hvals : ∀ x ∈ vals, ∀ b ∈ H, b ∉ x.bases)
    {k k' : Val → Ptr → Effect} (hk : ∀ (x : Val) (p : Ptr), p.base ∉ H → Effect.Related H (k x p) (k' x p)) :
    Effect.Related H (withValueAndPtr vals h k) (withValueAndPtr vals h' k') := by
  unfold withValueAndPtr
  split
  · next x p => exact hk x p fun hb => hvals (.ptr p) (by simp) _ hb (by simp [Val.bases])
  · exact .stuck

section Perform

variable {T : Target} {W : World} {h h' : Heap} (hrel : HeapRel H h h')
include hrel

theorem HeapRel.read (hp : p.base ∉ H) (n) : h'.mem.read p n = h.mem.read p n :=
  Mem.read_congr fun o _ _ => by rw [hrel.mem _ hp]

theorem HeapRel.put (p bs b) (hb : b ∉ H) : h'.mem.put p bs b = h.mem.put p bs b := by
  unfold Mem.put
  rw [hrel.mem b hb]

theorem execLoad_related (hp : p.base ∉ H) (ty) : Effect.Related H (execLoad T ty p h) (execLoad T ty p h') := by
  unfold execLoad
  cases byteSize ty with
  | none => exact .stuck
  | some n =>
    simp only [hrel.read hp]
    cases h.mem.read p n with
    | none => exact .halt hrel.trace
    | some bs =>
      dsimp only
      cases decode T.address ty bs with
      | none => exact .stuck
      | some v => exact .ok hrel

theorem execVolatileLoad_related (hp : p.base ∉ H) (ty) :
    Effect.Related H (execVolatileLoad T W ty p h) (execVolatileLoad T W ty p h') := by
  unfold execVolatileLoad
  cases byteSize ty with
  | none => exact .stuck
  | some n =>
    simp only [hrel.read hp, hrel.clock]
    cases h.mem.read p n with
    | none => exact .halt hrel.trace
    | some bs =>
      dsimp only
      cases decode T.address ty (W.volatileRead h.clock p bs) with
      | none => exact .stuck
      | some v => exact .ok ⟨hrel.mem, hrel.known, rfl, visible_cons_congr hrel.trace _⟩

theorem execStore_related (hp : p.base ∉ H) (x) : Effect.Related H (execStore x p h) (execStore x p h') := by
  unfold execStore Mem.write
  rw [hrel.read hp]
  cases (h.mem.read p x.encode.length).isSome with
  | false => exact .halt hrel.trace
  | true => exact .ok ⟨hrel.put p _, hrel.known, hrel.clock, visible_cons_congr hrel.trace _⟩

theorem execVolatileStore_related (hp : p.base ∉ H) (x) :
    Effect.Related H (execVolatileStore x p h) (execVolatileStore x p h') := by
  unfold execVolatileStore Mem.write
  rw [hrel.read hp]
  cases (h.mem.read p x.encode.length).isSome with
  | false => exact .halt hrel.trace
  | true =>
    exact .ok ⟨hrel.put p _, hrel.known, congrArg (· + 1) hrel.clock, visible_cons_congr hrel.trace _⟩

theorem execCheckBounds_related (vals) : Effect.Related H (execCheckBounds T vals h) (execCheckBounds T vals h') := by
  unfold execCheckBounds
  split
  · split
    · split
      · exact .ok hrel
      · exact .halt (visible_cons_congr hrel.trace _)
    · exact .stuck
  · exact .stuck

variable (hlocal : ∀ b ∈ H, b.isLocal W.frame = true) (hq : Quiet H h) (hq' : Quiet H h')
include hlocal hq hq'

theorem execCall_related {args} (hargs : ∀ x ∈ args, ∀ b ∈ H, b ∉ x.bases) (ty c) :
    Effect.Related H (execCall W ty c args h) (execCall W ty c args h') := by
  have hknown : ∀ b ∈ H, b ∉ h.known ++ args.flatMap (·.bases) := by
    intro b hb hmem
    rcases mem_append.mp hmem with hk | ha
    · exact hq.known b hb hk
    · obtain ⟨x, hx, hbx⟩ := mem_flatMap.mp ha
      exact hargs x hx b hb hbx
  unfold execCall
  simp only [hrel.known, hrel.clock, accessible_eq hlocal hknown hq.mem hrel.mem hq'.mem,
    restrict_eq hlocal hknown hq.mem hrel.mem]
  cases W.respond h.clock c args (h.known ++ args.flatMap (·.bases)) _ with
  | none => exact .halt (visible_cons_congr hrel.trace _)
  | some r =>
    refine .ok ⟨fun b hb => ?_, rfl, rfl, visible_cons_congr hrel.trace _⟩
    funext o
    simp only [Mem.absorb, hrel.mem b hb]

/-- An instruction whose operands do not lead to hidden storage does the same on both heaps. -/
theorem perform_related (i) (hvals : ∀ x ∈ vals, ∀ b ∈ H, b ∉ x.bases) :
    Effect.Related H (perform T W i vals h) (perform T W i vals h') := by
  have hcall : ∀ (ty : IrType) (c : Callee), Effect.Related H (execCall W ty c vals h) (execCall W ty c vals h') :=
    execCall_related hrel hlocal hq hq' hvals
  have hptr : ∀ {k k' : Ptr → Effect}, (∀ p : Ptr, p.base ∉ H → Effect.Related H (k p) (k' p)) →
      Effect.Related H (withPtr vals h k) (withPtr vals h' k') := withPtr_related hvals
  have hvp : ∀ {k k' : Val → Ptr → Effect}, (∀ (x : Val) (p : Ptr), p.base ∉ H → Effect.Related H (k x p) (k' x p)) →
      Effect.Related H (withValueAndPtr vals h k) (withValueAndPtr vals h' k') := withValueAndPtr_related hvals
  by_cases hc : i.kind.isCompute = true
  · rw [perform_eq_effect hc, perform_eq_effect hc]
    cases compute T W i vals with
    | value v => exact .ok hrel
    | trap => exact .halt hrel.trace
    | stuck => exact .stuck
  · obtain ⟨id, kind, ty⟩ := i
    cases kind <;> simp only [InstKind.isCompute, not_true_eq_false] at hc
    case load a => exact hptr fun p hp => execLoad_related hrel hp ty
    case vLoad a => exact hptr fun p hp => execLoad_related hrel hp ty
    case store v a => exact hvp fun x p hp => execStore_related hrel hp x
    case vStore v a => exact hvp fun x p hp => execStore_related hrel hp x
    case volatileLoad a => exact hptr fun p hp => execVolatileLoad_related hrel hp ty
    case volatileStore v a => exact hvp fun x p hp => execVolatileStore_related hrel hp x
    case call callee args =>
      cases callee with
      | internal n => exact hcall ty _
      | external name => exact hcall ty _
      | indirect target =>
        cases vals with
        | nil => exact .stuck
        | cons t rest =>
          exact execCall_related hrel hlocal hq hq' (fun x hx => hvals x (.tail _ hx)) ty _
    case runtimeCall rf args =>
      cases rf <;> first | exact execCheckBounds_related hrel vals | exact hcall ty _

end Perform

/-! ## Results and outcomes -/

/-- The same values on heaps related by `R`, or the same end as far as it is visible. -/
abbrev Result.Pair (H : List Base) (R : Heap → Heap → Prop) : Result → Result → Prop :=
  Result.Rel (fun σ σ' => σ'.env = σ.env ∧ R σ.toHeap σ'.toHeap) fun t t' => visible H t' = visible H t

abbrev Outcome.Pair (H : List Base) (R : Heap → Heap → Prop) : Outcome → Outcome → Prop :=
  Outcome.Rel (fun _ σ σ' => σ'.env = σ.env ∧ R σ.toHeap σ'.toHeap) R fun t t' => visible H t' = visible H t

/-- The two runs cannot be told apart from outside, and every value computed so far is the same. -/
abbrev Outcome.Similar (H : List Base) : Outcome → Outcome → Prop :=
  Outcome.Rel (fun _ σ σ' => AgreeOn (fun _ => True) σ.env σ'.env ∧ HeapRel H σ.toHeap σ'.toHeap) (HeapRel H)
    fun t t' => visible H t' = visible H t

section Outcomes

variable {R : Heap → Heap → Prop}

theorem Outcome.Pair.similar (h : Outcome.Pair H R o o') (hR : ∀ h h', R h h' → HeapRel H h h') : o.Similar H o' :=
  h.mono (fun _ _ _ _ hp => ⟨fun v _ _ hx => (congrFun hp.1 v).trans hx, hR _ _ hp.2⟩) hR fun _ _ h => h

theorem Outcome.Sim.similar {Q : BlockId → Env → Env → Prop} (h : Outcome.Sim Q o o')
    (hQ : ∀ b σ env', o = .running b σ → Q b σ.env env' → AgreeOn (fun _ => True) σ.env env') : o.Similar [] o' :=
  h.mono (fun b σ σ' hr hp => ⟨hQ b σ σ'.env hr hp.2, hp.1 ▸ .refl _ _⟩) (fun _ _ e => e ▸ .refl _ _)
    fun _ _ e => e ▸ rfl

theorem Outcome.Similar.returnValue (h : o.Similar H o') {v}
    (hv : o.returnValue = some v) : o'.returnValue = some v := by
  obtain ⟨σ, rfl⟩ := Outcome.returnValue_eq_some hv
  cases h
  rfl

theorem Outcome.Similar.refl (o : Outcome) : o.Similar [] o :=
  (Outcome.Sim.refl (R := fun _ => AgreeOn fun _ => True) fun _ _ _ _ _ _ hx => hx).similar fun _ _ _ _ h => h

theorem Outcome.Similar.trans {K} {o₁ o₂ o₃ : Outcome} (h : o₁.Similar H o₂) (h' : o₂.Similar K o₃) :
    o₁.Similar (H ++ K) o₃ := by
  cases h with
  | stuck => exact .stuck
  | running h =>
    cases h' with
    | running h' => exact .running ⟨fun v x hv hx => h'.1 v x hv (h.1 v x hv hx), h.2.trans h'.2⟩
  | returned h =>
    cases h' with
    | returned h' => exact .returned (h.trans h')
  | halted h =>
    cases h' with
    | stuck => exact .stuck
    | halted h' => exact .halted (visible_trans h h')

section Steps

variable {T : Target} {W : World} {i i' : Inst} {σ σ' : State}

theorem Effect.Related.bind {e e'} (h : Effect.Related H e e') (henv : σ'.env = σ.env) (hid : i'.id = i.id)
    (hty : i'.ty = i.ty) (hR : ∀ σ₁ σ₁', e.bind i σ.env = .ok σ₁ → e'.bind i' σ'.env = .ok σ₁' →
      HeapRel H σ₁.toHeap σ₁'.toHeap → R σ₁.toHeap σ₁'.toHeap) :
    Result.Pair H R (e.bind i σ.env) (e'.bind i' σ'.env) := by
  cases h with
  | stuck => exact .stuck
  | halt h => exact .halt h
  | @ok v heap heap' hrel =>
    cases v with
    | none => exact .ok ⟨henv, hR _ _ rfl rfl hrel⟩
    | some x =>
      simp only [Effect.bind, hid, hty, henv] at hR ⊢
      by_cases hx : x.hasType i.ty = true
      · simp only [hx, if_true] at hR ⊢
        exact .ok ⟨rfl, hR _ _ rfl rfl hrel⟩
      · simp only [hx]
        exact .stuck

theorem exec_pair (hrel : HeapRel H σ.toHeap σ'.toHeap) (hlocal : ∀ b ∈ H, b.isLocal W.frame = true)
    (hq : Quiet H σ.toHeap) (hq' : Quiet H σ'.toHeap) (henv : σ'.env = σ.env)
    (hops : ∀ u ∈ i.kind.operands, ∀ x, σ.env u = some x → ∀ b ∈ H, b ∉ x.bases)
    (hR : ∀ σ₁ σ₁', i.exec T W σ = .ok σ₁ → i.exec T W σ' = .ok σ₁' → HeapRel H σ₁.toHeap σ₁'.toHeap →
      R σ₁.toHeap σ₁'.toHeap) : Result.Pair H R (i.exec T W σ) (i.exec T W σ') := by
  unfold Inst.exec at hR ⊢
  rw [henv] at hR ⊢
  cases hvals : i.kind.operands.mapM σ.env with
  | none => exact .stuck
  | some vals =>
    simp only [hvals] at hR
    have hfree : ∀ x ∈ vals, ∀ b ∈ H, b ∉ x.bases := fun x hx => by
      obtain ⟨u, hu, hux⟩ := exists_of_mem_mapM hvals hx
      exact hops u hu x hux
    have := (perform_related (T := T) hrel hlocal hq hq' i hfree).bind (i := i) henv (rfl : i.id = i.id) rfl
      (R := R) (by rwa [henv])
    rwa [henv] at this

theorem exec_pair_compute (hc : i.kind.isCompute = true) (henv : σ'.env = σ.env) (hR : R σ.toHeap σ'.toHeap)
    (htrace : visible H σ'.trace = visible H σ.trace) : Result.Pair H R (i.exec T W σ) (i.exec T W σ') := by
  unfold Inst.exec
  rw [henv]
  cases i.kind.operands.mapM σ.env with
  | none => exact .stuck
  | some vals =>
    simp only [perform_eq_effect hc]
    cases compute T W i vals with
    | trap => exact .halt htrace
    | stuck => exact .stuck
    | value v =>
      simp only [Computed.effect, Effect.bind]
      by_cases hv : v.hasType i.ty = true
      · simp only [hv, if_true]
        exact .ok ⟨rfl, hR⟩
      · simp only [hv]
        exact .stuck

theorem exec_load {id a} (hp : σ.env a = some (.ptr p)) :
    (⟨id, .load a, ty⟩ : Inst).exec T W σ = (execLoad T ty p σ.toHeap).bind ⟨id, .load a, ty⟩ σ.env := by
  simp [Inst.exec, InstKind.operands, hp, perform, withPtr]

theorem exec_store {id v a x} (hv : σ.env v = some x) (hp : σ.env a = some (.ptr p)) :
    (⟨id, .store v a, ty⟩ : Inst).exec T W σ = (execStore x p σ.toHeap).bind ⟨id, .store v a, ty⟩ σ.env := by
  simp [Inst.exec, InstKind.operands, hv, hp, perform, withValueAndPtr]

theorem exec_pair_load {id a a' p p'} (hp : σ.env a = some (.ptr p))
    (hp' : σ'.env a' = some (.ptr p')) (henv : σ'.env = σ.env)
    (hread : ∀ n, byteSize ty = some n → σ'.mem.read p' n = σ.mem.read p n) (hR : R σ.toHeap σ'.toHeap)
    (htrace : visible H σ'.trace = visible H σ.trace) :
    Result.Pair H R ((⟨id, .load a, ty⟩ : Inst).exec T W σ) ((⟨id, .load a', ty⟩ : Inst).exec T W σ') := by
  rw [exec_load hp, exec_load hp']
  unfold execLoad
  cases hn : byteSize ty with
  | none => exact .stuck
  | some n =>
    simp only [hread n hn]
    cases σ.mem.read p n with
    | none => exact .halt htrace
    | some bs =>
      dsimp only
      cases decode T.address ty bs with
      | none => exact .stuck
      | some v =>
        simp only [Effect.bind, henv]
        by_cases hv : v.hasType ty = true
        · simp only [hv, if_true]
          exact .ok ⟨rfl, hR⟩
        · simp only [hv]
          exact .stuck

/-- The heap after the bytes have been stored. -/
abbrev Heap.put (h : Heap) (p : Ptr) (bs : List MByte) : Heap :=
  { h with mem := h.mem.put p bs, trace := .store p bs :: h.trace }

theorem exec_pair_store {id v a a' x p p'} (hv : σ.env v = some x)
    (hp : σ.env a = some (.ptr p)) (hp' : σ'.env a' = some (.ptr p')) (henv : σ'.env = σ.env)
    (hroom : (σ'.mem.read p' x.encode.length).isSome = (σ.mem.read p x.encode.length).isSome)
    (hR : (σ.mem.read p x.encode.length).isSome = true →
      R (σ.toHeap.put p x.encode) (σ'.toHeap.put p' x.encode))
    (htrace : visible H σ'.trace = visible H σ.trace) :
    Result.Pair H R ((⟨id, .store v a, ty⟩ : Inst).exec T W σ) ((⟨id, .store v a', ty⟩ : Inst).exec T W σ') := by
  rw [exec_store hv hp, exec_store (henv ▸ hv) hp']
  unfold execStore Mem.write
  rw [hroom]
  cases hs : (σ.mem.read p x.encode.length).isSome with
  | false => exact .halt htrace
  | true => exact .ok ⟨henv, hR hs⟩

end Steps

end Outcomes

/-! ## Runs -/

/-- The heap a run starts from. -/
def Heap.initial (m : Mem) : Heap := { mem := m, known := [], clock := 0, trace := [] }

def Launch.withMem (L : Launch) (m : Mem) : Launch := { L with mem := m }

section Runs

variable {R : Heap → Heap → Prop} {f g : Function}

theorem enter_pair {dest} (hps : g.KeepsParams f dest) {args} (henv : σ'.env = σ.env) (hheap : R σ.toHeap σ'.toHeap) :
    Outcome.Pair H R (f.enter dest args σ) (g.enter dest args σ') := by
  unfold Function.enter
  rw [henv]
  cases hf : f.tryBlock dest with
  | none => exact .stuck
  | some blk =>
    obtain ⟨blk', hg, hp⟩ := hps.some hf
    rw [hg]
    cases args.mapM σ.env with
    | none => exact .stuck
    | some vals =>
      simp only [hp]
      cases bindParams blk.params vals σ.env with
      | none => exact .stuck
      | some env => exact .running ⟨rfl, hheap⟩

variable (hR : ∀ h h', R h h' → HeapRel H h h')
include hR

theorem execTerm_pair (hps : ∀ d, g.KeepsParams f d) {T}
    (t) (henv : σ'.env = σ.env) (hheap : R σ.toHeap σ'.toHeap) :
    Outcome.Pair H R (f.execTerm T t σ) (g.execTerm T t σ') := by
  rcases execTerm_cases f T t σ with ⟨dest, args, htk⟩ | ⟨rfl, he⟩ | ⟨v, x, rfl, hx, he⟩ | ⟨rfl, he⟩ | he
  · rw [htk.execTerm, Takes.execTerm (henv ▸ htk)]
    exact enter_pair (hps dest) henv hheap
  · exact .returned hheap
  · rw [he]
    simp only [Function.execTerm, henv, hx]
    exact .returned hheap
  · exact .halted (hR _ _ hheap).trace
  · rw [he]
    exact .stuck

theorem Launch.run_pair {L : Launch} (hparams : g.params = f.params) (hentry : g.entry = f.entry)
    (hps : ∀ d, g.KeepsParams f d) (hstart : R (.initial L.mem) (.initial m))
    (hblock : ∀ blk σ σ', f.tryBlock blk.id = some blk → L.Enters f blk.id σ → (L.withMem m).Enters g blk.id σ' →
      σ'.env = σ.env → R σ.toHeap σ'.toHeap → ∃ blk', g.tryBlock blk.id = some blk' ∧ blk'.terminator = blk.terminator ∧
      Result.Pair H R (execInsts L.target L.world blk.insts σ) (execInsts L.target L.world blk'.insts σ')) (n) :
    Outcome.Pair H R (L.run f n) ((L.withMem m).run g n) := by
  refine Launch.run_rel ?_ (fun b σ σ' hent hent' hp => ?_) n
  · simp only [Launch.start, hparams, hentry, Launch.withMem]
    cases bindParams (f.params.map fun p => ⟨p.id, p.ty⟩) L.args fun _ => none with
    | none => exact .stuck
    | some env => exact .running ⟨rfl, hstart⟩
  · cases hf : f.tryBlock b with
    | none =>
      simp only [Function.execBlock, hf]
      exact .stuck
    | some blk =>
      obtain ⟨-, rfl⟩ := Function.mem_blocks_of_tryBlock hf
      obtain ⟨blk', hg, ht, hpair⟩ := hblock blk σ σ' hf hent hent' hp.1 hp.2
      exact execBlock_rel hf hg hpair fun t _ _ ht' _ _ h => ⟨t, ht.trans ht', execTerm_pair hR hps t h.1 h.2⟩

omit hR in
theorem execInsts_pair {L : Launch} {blk blk' : BasicBlock} (hf : f.tryBlock blk.id = some blk)
    (hg : g.tryBlock blk.id = some blk') (hlen : blk'.insts.length = blk.insts.length)
    (hstep : ∀ k i i' σ σ', L.At f blk.id k σ → (L.withMem m).At g blk.id k σ' → blk.insts[k]? = some i →
      blk'.insts[k]? = some i' → σ'.env = σ.env → R σ.toHeap σ'.toHeap →
      Result.Pair H R (i.exec L.target L.world σ) (i'.exec L.target L.world σ'))
    (hent : L.Enters f blk.id σ) (hent' : (L.withMem m).Enters g blk.id σ') (henv : σ'.env = σ.env)
    (hheap : R σ.toHeap σ'.toHeap) :
    Result.Pair H R (execInsts L.target L.world blk.insts σ) (execInsts L.target L.world blk'.insts σ') := by
  have htake : ∀ k ≤ blk.insts.length, Result.Pair H R (execInsts L.target L.world (blk.insts.take k) σ)
      (execInsts L.target L.world (blk'.insts.take k) σ') := by
    intro k
    induction k with
    | zero => exact fun _ => .ok (And.intro henv hheap)
    | succ k ih =>
      intro hk
      have hk' := Nat.le_of_succ_le hk
      have hi : blk.insts[k]? = some blk.insts[k] := getElem?_eq_getElem hk
      have hlt : k < blk'.insts.length := hlen ▸ hk
      have hi' : blk'.insts[k]? = some blk'.insts[k] := getElem?_eq_getElem hlt
      rw [take_add_one, take_add_one, hi, hi', toList_some, toList_some, execInsts_append,
        execInsts_append]
      have hpre := ih hk'
      generalize he : execInsts L.target L.world (blk.insts.take k) σ = r,
        he' : execInsts L.target L.world (blk'.insts.take k) σ' = r' at hpre
      cases hpre with
      | stuck => exact .stuck
      | halt h => exact .halt h
      | @ok σ₁ σ₁' h =>
        have hone := hstep k _ _ σ₁ σ₁' ⟨σ, blk, hent, hf, hk', he⟩ ⟨σ', blk', hent', hg, hlen ▸ hk', he'⟩ hi hi' h.1 h.2
        simp only [execInsts]
        generalize blk.insts[k].exec L.target L.world σ₁ = x, blk'.insts[k].exec L.target L.world σ₁' = x' at hone
        cases hone with
        | stuck => exact .stuck
        | halt h => exact .halt h
        | ok h => exact .ok h
  have h := htake _ le_rfl
  rwa [take_length, ← hlen, take_length] at h

end Runs

end Armfortas.Ir
