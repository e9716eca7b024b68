import Armfortas.Ir.Lemmas.Scope
import Armfortas.Ir.Lemmas.Simulation
import Mathlib.Data.String.Basic

/-! Two modules with the same symbols run in step: with the same fuel they end the same way and leave the same heap,
given that their blocks do, whenever their calls with less fuel do. Some endings of the first module, such as a state
without meaning, promise nothing. -/
namespace Armfortas.Ir
open Lib List

variable {R : BlockId → State → State → Prop} {σ σ' : State} {n : Nat} {L : Start} {ro : ReadOnly}

/-! ## Endings that promise nothing -/

/-- How a run ends early: `none` when it is out of fuel. -/
abbrev Excuse := Option Halt → Prop

abbrev Stuck : Excuse := fun e => e = some .stuck

section Follows

variable {X : Excuse}

def Fuelled.Excused (X : Excuse) : Fuelled Effect → Prop
  | .error _ => X none
  | .ok (.halt why _) => X (some why)
  | .ok (.ok _ _) => False

/-- The second run does what the first does. -/
def Fuelled.Follows (X : Excuse) (x y : Fuelled Effect) : Prop := x.Excused X ∨ y = x

theorem Fuelled.Follows.refl (x) : Fuelled.Follows X x x := .inr rfl

theorem Fuelled.Follows.map {x y} (h : Fuelled.Follows X x y) {g : Effect → Effect}
    (hg : ∀ why t, g (.halt why t) = .halt why t) : Fuelled.Follows X (x.map g) (y.map g) := by
  rcases h with h | rfl
  · left
    rcases x with t | ⟨v, heap⟩ | ⟨why, t⟩
    · exact h
    · exact h.elim
    · simpa [Except.map, hg] using h
  · exact .inr rfl

theorem Fuelled.Follows.andThen {x y} (h : Fuelled.Follows X x y)
    {next next' : Option Val → Heap → Fuelled Effect} (hnext : ∀ v heap, Fuelled.Follows X (next v heap) (next' v heap)) :
    Fuelled.Follows X (x.andThen next) (y.andThen next') := by
  rcases h with h | rfl
  · left
    rcases x with t | ⟨v, heap⟩ | ⟨why, t⟩
    · exact h
    · exact h.elim
    · exact h
  · rcases y with t | ⟨v, heap⟩ | ⟨why, t⟩
    · exact .refl _
    · exact hnext v heap
    · exact .refl _

/-- States after instructions: related, or both runs have ended alike. -/
inductive Result.Follows (X : Excuse) (R : State → State → Prop) : Fuelled Result → Fuelled Result → Prop
  | late {t : List Event} {y : Fuelled Result} : X none → Follows X R (.error t) y
  | excused {why : Halt} {t : List Event} {y : Fuelled Result} : X (some why) → Follows X R (.ok (.halt why t)) y
  | timeout (t : List Event) : Follows X R (.error t) (.error t)
  | halt (why : Halt) (t : List Event) : Follows X R (.ok (.halt why t)) (.ok (.halt why t))
  | ok {σ σ' : State} : R σ σ' → Follows X R (.ok (.ok σ)) (.ok (.ok σ'))

/-- Outcomes of a block: the same block comes next, or both runs have ended alike. -/
inductive Outcome.Follows (X : Excuse) (R : BlockId → State → State → Prop) : Fuelled Outcome → Fuelled Outcome → Prop
  | late {t : List Event} {y : Fuelled Outcome} : X none → Follows X R (.error t) y
  | excused {why : Halt} {t : List Event} {y : Fuelled Outcome} : X (some why) → Follows X R (.ok (.halted why t)) y
  | timeout (t : List Event) : Follows X R (.error t) (.error t)
  | halted (why : Halt) (t : List Event) : Follows X R (.ok (.halted why t)) (.ok (.halted why t))
  | returned {v : Option Val} {σ σ' : State} : σ'.toHeap = σ.toHeap → Follows X R (.ok (.returned v σ)) (.ok (.returned v σ'))
  | running {b : BlockId} {σ σ' : State} : R b σ σ' → Follows X R (.ok (.running b σ)) (.ok (.running b σ'))

theorem Outcome.Follows.goOn {x y} (h : Outcome.Follows X R x y)
    {next next' : BlockId → State → Fuelled Effect}
    (hnext : ∀ b σ σ', R b σ σ' → Fuelled.Follows X (next b σ) (next' b σ')) :
    Fuelled.Follows X (x.goOn next) (y.goOn next') := by
  cases h with
  | late hx => exact .inl hx
  | excused hx => exact .inl hx
  | timeout t => exact .refl _
  | halted why t => exact .refl _
  | returned hh => exact .inr (by simp only [Fuelled.goOn, hh])
  | running hr => exact hnext _ _ _ hr

theorem Result.Follows.mono {R Q : State → State → Prop} {x y} (h : Result.Follows X R x y)
    (hQ : ∀ σ σ', R σ σ' → Q σ σ') : Result.Follows X Q x y := by
  cases h with
  | late hx => exact .late hx
  | excused hx => exact .excused hx
  | timeout t => exact .timeout t
  | halt why t => exact .halt why t
  | ok hr => exact .ok (hQ _ _ hr)

theorem Outcome.Follows.mono {R Q : BlockId → State → State → Prop} {x y} (h : Outcome.Follows X R x y)
    (hQ : ∀ b σ σ', R b σ σ' → Q b σ σ') : Outcome.Follows X Q x y := by
  cases h with
  | late hx => exact .late hx
  | excused hx => exact .excused hx
  | timeout t => exact .timeout t
  | halted why t => exact .halted why t
  | returned hh => exact .returned hh
  | running hr => exact .running (hQ _ _ _ hr)

theorem Outcome.Sim.follows {Q : BlockId → Env → Env → Prop} {o o'}
    (h : Outcome.Sim Q o o') (hX : X (some .stuck))
    (hR : ∀ b σ σ', o = .running b σ → σ'.toHeap = σ.toHeap → Q b σ.env σ'.env → R b σ σ') :
    Outcome.Follows X R (.ok o) (.ok o') := by
  cases h with
  | stuck => exact .excused hX
  | halted h => exact h ▸ .halted _ _
  | returned h => exact .returned h.symm
  | running h => exact .running (hR _ _ _ rfl h.1.symm h.2)

theorem Fuelled.Follows.bind {e e'} (h : Fuelled.Follows X e e') (hX : X (some .stuck)) {i i' : Inst}
    (hty : i'.ty = i.ty) {env env'} {R : State → State → Prop}
    (hnone : ∀ heap, e = .ok (.ok none heap) → R { heap with env := env } { heap with env := env' })
    (hsome : ∀ x heap, e = .ok (.ok (some x) heap) → x.hasType i.ty = true →
      R { heap with env := env.set i.id x } { heap with env := env'.set i'.id x }) :
    Result.Follows X R (e.map (·.bind i env)) (e'.map (·.bind i' env')) := by
  rcases h with h | rfl
  · rcases e with t | ⟨v, heap⟩ | ⟨why, t⟩
    · exact .late h
    · exact h.elim
    · exact .excused h
  · rcases e' with t | ⟨v, heap⟩ | ⟨why, t⟩
    · exact .timeout t
    · cases v with
      | none => exact .ok (hnone heap rfl)
      | some x =>
        simp only [Except.map, Effect.bind, hty]
        by_cases hx : x.hasType i.ty = true
        · rw [if_pos hx, if_pos hx]
          exact .ok (hsome x heap rfl hx)
        · rw [if_neg hx, if_neg hx]
          exact .excused hX
    · exact .halt why t

end Follows

/-! ## Instructions that are changed or left out -/

section Insts

variable {X : Excuse} {T : Target} {W : World} {k : Nat} {call call' : Caller}

theorem execIn_follows (hX : X (some .stuck)) {i i' : Inst} (hid : i'.id = i.id) (hty : i'.ty = i.ty)
    (heffect : ∀ vals, i.kind.operands.mapM σ.env = some vals → ∃ vals', i'.kind.operands.mapM σ'.env = some vals' ∧
      Fuelled.Follows X (performIn T W k call i vals σ.toHeap) (performIn T W k call' i' vals' σ'.toHeap))
    {Q : Env → Env → Prop}
    (hnone : ∀ vals heap, performIn T W k call i vals σ.toHeap = .ok (.ok none heap) → Q σ.env σ'.env)
    (hset : ∀ x, Q (σ.env.set i.id x) (σ'.env.set i.id x)) :
    Result.Follows X (fun τ τ' => τ'.toHeap = τ.toHeap ∧ Q τ.env τ'.env ∧ i.execIn T W k call σ = .ok (.ok τ))
      (i.execIn T W k call σ) (i'.execIn T W k call' σ') := by
  unfold Inst.execIn
  cases hvals : i.kind.operands.mapM σ.env with
  | none => exact .excused hX
  | some vals =>
    obtain ⟨vals', hvals', hfollow⟩ := heffect vals hvals
    simp only [hvals']
    refine hfollow.bind hX hty (fun heap he => ⟨rfl, hnone vals heap he, ?_⟩) (fun x heap he hx => ⟨rfl, hid ▸ hset x, ?_⟩)
    · rw [he]
      rfl
    · rw [he]
      simp [Except.map, Effect.bind, hx]

theorem performIn_mapOperands (hcall : ∀ ty c args h, Fuelled.Follows X (call ty c args h) (call' ty c args h))
    (r : ValueId → ValueId) (i vals) (h : Heap) :
    Fuelled.Follows X (performIn T W k call i vals h) (performIn T W k call' (i.mapOperands r) vals h) := by
  obtain ⟨id, kind, ty⟩ := i
  cases kind with
  | call callee args =>
    cases callee with
    | indirect target =>
      cases vals with
      | nil => exact .refl _
      | cons x xs => exact hcall _ _ _ _
    | internal n => exact hcall _ _ _ _
    | external name => exact hcall _ _ _ _
  | runtimeCall rf args =>
    cases rf with
    | checkBounds => exact .refl _
    | _ => exact hcall _ _ _ _
  | constString s => exact .refl _
  | _ => exact .inr (congrArg Except.ok (perform_mapOperands r _ vals h))

noncomputable def execOptIn (T : Target) (W : World) (k : Nat) (call : Caller) (i : Option Inst) (σ : State) :
    Fuelled Result :=
  match i with
  | some i => i.execIn T W k call σ
  | none => .ok (.ok σ)

/-- Instruction lists of which the second is the first with some instructions changed and some left out. The
relation may depend on the position in the first. -/
theorem execInstsIn_follows {g : Inst → Option Inst} {is : List Inst} {R : Nat → State → State → Prop} {m}
    (hstep : ∀ (j : Nat) i σ σ', is[j]? = some i → R (m + j) σ σ' →
      Result.Follows X (R (m + j + 1)) (i.execIn T W k call σ) (execOptIn T W k call' (g i) σ'))
    (h : R m σ σ') : Result.Follows X (R (m + is.length)) (execInstsIn T W k call is σ)
      (execInstsIn T W k call' (is.filterMap g) σ') := by
  induction is generalizing m σ σ' with
  | nil => exact .ok h
  | cons i is ih =>
    have hhead := hstep 0 i σ σ' rfl h
    have htail := fun τ τ' (hr : R (m + 1) τ τ') => ih (m := m + 1) (fun j i' ρ ρ' hj hr' => by
      have := hstep (j + 1) i' ρ ρ' hj (by rwa [Nat.add_assoc, Nat.add_comm 1 j] at hr')
      rwa [show m + (j + 1) = m + 1 + j by omega] at this) hr
    rw [show m + (i :: is).length = m + 1 + is.length by simp; omega]
    simp only [execInstsIn, filterMap_cons]
    cases hg : g i with
    | none =>
      rw [hg] at hhead
      generalize i.execIn T W k call σ = x at hhead
      cases hhead with
      | late hx => exact .late hx
      | excused hx => exact .excused hx
      | ok hr => exact htail _ _ hr
    | some i' =>
      rw [hg] at hhead
      simp only [execOptIn] at hhead
      simp only [execInstsIn]
      generalize i.execIn T W k call σ = x at hhead
      generalize i'.execIn T W k call' σ' = y at hhead
      cases hhead with
      | late hx => exact .late hx
      | excused hx => exact .excused hx
      | timeout t => exact .timeout t
      | halt why t => exact .halt why t
      | ok hr => exact htail _ _ hr

end Insts

theorem execBlockIn_follows {X T W k call call'} {f f' : Function}
    {b blk blk'} {Q : State → State → Prop}
    (hblk : f.tryBlock b = some blk) (hblk' : f'.tryBlock b = some blk') (hX : X (some .stuck))
    (hinsts : Result.Follows X Q (execInstsIn T W k call blk.insts σ) (execInstsIn T W k call' blk'.insts σ'))
    (hterm : ∀ t τ τ', blk.terminator = some t → Q τ τ' → ∃ t', blk'.terminator = some t' ∧
      Outcome.Follows X R (.ok (f.execTerm T t τ)) (.ok (f'.execTerm T t' τ'))) :
    Outcome.Follows X R (f.execBlockIn T W k call b σ) (f'.execBlockIn T W k call' b σ') := by
  simp only [Function.execBlockIn, hblk, hblk']
  generalize execInstsIn T W k call blk.insts σ = x at hinsts
  generalize execInstsIn T W k call' blk'.insts σ' = y at hinsts
  cases hinsts with
  | late hx => exact .late hx
  | excused hx => exact .excused hx
  | timeout t => exact .timeout t
  | halt why t => exact .halted why t
  | ok hq =>
    cases ht : blk.terminator with
    | none => exact .excused hX
    | some t =>
      obtain ⟨t', ht', hfollow⟩ := hterm t _ _ ht hq
      simpa only [ht'] using hfollow

theorem Module.byName_congr {M M' : Module} (h : ∀ k : Nat, M'.functions[k]?.map (·.name) = M.functions[k]?.map (·.name))
    (name) : M'.byName name = M.byName name := by
  have hnames : M'.functions.map (·.name) = M.functions.map (·.name) := ext_getElem? fun k => by simpa using h k
  have heq : ∀ N : Module, N.byName name = (N.functions.map (·.name)).findIdx? (· == name) := fun N => by
    rw [findIdx?_map]
    rfl
  rw [heq, heq, hnames]

/-! ## Whole runs -/

def Symbols (G : Base → Prop) : Prop := ∀ m w, ¬ G (.slot m w)

/-- Calls of the two modules agree at some fuel, where `A` relates the arguments of a call and `B` is known of
what the outside is asked. -/
structure Machine.CallsRelate (S : Machine) (M M' : Module) (X : Excuse) (A : Nat → Nat → List Val → List Val → Heap → Prop)
    (B : Nat → List Val → Heap → Prop) (n : Nat) : Prop where
  invoke : ∀ d k args args' h, A d k args args' h →
    Fuelled.Follows X (S.invoke M n d k args h) (S.invoke M' n d k args' h)
  consult : ∀ d ty c args h, B d args h →
    Fuelled.Follows X (S.consult M n d ty c args h) (S.consult M' n d ty c args h)

/-- Calls of the two modules agree at some fuel, for related arguments and from clean heaps. -/
abbrev Machine.CallsFollow (S : Machine) (M M' : Module) (X : Excuse) (G : Base → Prop)
    (A : Nat → Nat → List Val → List Val → Heap → Prop) (n : Nat) : Prop :=
  S.CallsRelate M M' X (fun d k args args' h => A d k args args' h ∧ (∀ x ∈ args, x.Free (Off G d)) ∧ h.Clean G d)
    (fun d args h => (∀ x ∈ args, x.Free (Off G (d + 1))) ∧ h.Clean G (d + 1)) n

section Machine

variable {S : Machine} {M M' : Module} {X : Excuse} {G : Base → Prop}
  {A : Nat → Nat → List Val → List Val → Heap → Prop} {R : Nat → Nat → BlockId → State → State → Prop}

theorem Machine.CallsFollow.consult_succ (hM : M.Respects S.outside G fun _ _ => False) (hG : Symbols G)
    (hnames : ∀ name, M'.byName name = M.byName name)
    (hcallback : ∀ d name j args h, M.byName name = some j → ¬ G (.global name) → A d j args args h)
    (ih : S.CallsFollow M M' X G A n) (d ty c args) (h : Heap)
    (hB : (∀ x ∈ args, x.Free (Off G (d + 1))) ∧ h.Clean G (d + 1)) :
    Fuelled.Follows X (S.consult M (n + 1) d ty c args h) (S.consult M' (n + 1) d ty c args h) := by
  obtain ⟨hargs, hh⟩ := hB
  simp only [Machine.consult]
  cases ha : S.outside.answer c args h with
  | none => exact .refl _
  | some a =>
    obtain ⟨hbases, hmem⟩ := S.outside.answer_free (Off.guarded hM.guarded) hh.free hargs ha
    cases a with
    | done r => exact .refl _
    | callback name args' mem returnTo =>
      simp only [hnames]
      cases hj : M.byName name with
      | none => exact .refl _
      | some j =>
        have hargs' : ∀ x ∈ args', x.Free (Off G (d + 1)) := fun x hx b hb =>
          hbases b (by simpa [Answer.bases] using .inr (.inr ⟨x, hx, hb⟩))
        have hname : ¬ G (.global name) := fun hg => hbases _ mem_cons_self (.inl hg)
        have hheap : (h.consulted c args mem).Clean G (d + 1) :=
          ⟨hh.free.consulted hargs hmem, hh.bare.consulted⟩
        have hcall := ih.invoke (d + 1) j args' args' _ ⟨hcallback _ name j args' _ hj hname, hargs', hheap⟩
        have hkept := (run_kept hM n).invoke (d + 1) j args' (h.consulted c args mem)
        dsimp only
        rcases hcall with hex | heq
        · left
          generalize S.invoke M n (d + 1) j args' (h.consulted c args mem) = x at hex
          rcases x with t | ⟨v, heap⟩ | ⟨why, t⟩
          · exact hex
          · exact hex.elim
          · exact hex
        · rw [heq]
          cases hx : S.invoke M n (d + 1) j args' (h.consulted c args mem) with
          | error t => exact .refl _
          | ok e =>
            cases e with
            | halt why t => exact .refl _
            | ok v h' =>
              have hk := hkept v h' (fun m w hw => absurd hw (hG m w))
                (fun pos x hpos => .inl (hargs' x (mem_of_getElem? hpos))) hheap hx
              exact ih.consult d ty _ v.toList h' ⟨fun x hx => hk.value x (by simpa using hx), hk.clean⟩

/-- Blocks that are simulated whenever calls with less fuel are make whole calls simulated. -/
theorem Machine.callsRelate {A : Nat → Nat → List Val → List Val → Heap → Prop} {B : Nat → List Val → Heap → Prop}
    (hX : X (some .stuck))
    (hconsult : ∀ n, S.CallsRelate M M' X A B n → ∀ d ty c args h, B d args h →
      Fuelled.Follows X (S.consult M (n + 1) d ty c args h) (S.consult M' (n + 1) d ty c args h))
    (hstart : ∀ d k f args args' h σ, M.functions[k]? = some f → A d k args args' h →
      f.activate S.outside d args h = some σ →
      ∃ f' σ', M'.functions[k]? = some f' ∧ f'.activate S.outside d args' h = some σ' ∧ f'.entry = f.entry ∧
        R d k f.entry σ σ')
    (hheap : ∀ d k b σ σ', R d k b σ σ' → σ'.toHeap = σ.toHeap)
    (hblock : ∀ n, S.CallsRelate M M' X A B n → ∀ d k f f' b σ σ', M.functions[k]? = some f →
      M'.functions[k]? = some f' → R d k b σ σ' →
      Outcome.Follows X (R d k) (f.execBlockIn S.target (S.outside.world d) k (S.call M n d) b σ)
        (f'.execBlockIn S.target (S.outside.world d) k (S.call M' n d) b σ'))
    (n) : S.CallsRelate M M' X A B n ∧ ∀ d k f f' b σ σ', M.functions[k]? = some f →
      M'.functions[k]? = some f' → R d k b σ σ' →
      Fuelled.Follows X (S.runBlocks M n d k f b σ) (S.runBlocks M' n d k f' b σ') := by
  induction n with
  | zero =>
    refine ⟨⟨fun _ _ _ _ _ _ => .refl _, fun _ _ _ _ _ _ => .refl _⟩, fun d k f f' b σ σ' _ _ hr => ?_⟩
    exact .inr (congrArg (fun h : Heap => (.error h.trace : Fuelled Effect)) (hheap d k b σ σ' hr))
  | succ n ih =>
    obtain ⟨ihcalls, ihrun⟩ := ih
    refine ⟨⟨fun d k args args' h hA => ?_, hconsult n ihcalls⟩, fun d k f f' b σ σ' hf hf' hr => ?_⟩
    · simp only [Machine.invoke]
      cases hf : M.functions[k]? with
      | none => exact .inl hX
      | some f =>
        dsimp only
        cases hσ : f.activate S.outside d args h with
        | none => exact .inl hX
        | some σ =>
          obtain ⟨f', σ', hf', hσ', hentry, hr⟩ := hstart d k f args args' h σ hf hA hσ
          simp only [hf', hσ', hentry]
          exact (ihrun d k f f' f.entry σ σ' hf hf' hr).map fun _ _ => rfl
    · rw [Machine.runBlocks_succ, Machine.runBlocks_succ]
      exact (hblock n ihcalls d k f f' b σ σ' hf hf' hr).goOn fun b' τ τ' hr' =>
        ihrun d k f f' b' τ τ' hf hf' hr'

/-! ### Calls from all heaps -/

/-- Calls of the two modules agree at some fuel, whatever the arguments and the heap. -/
abbrev Machine.CallsSame (S : Machine) (M M' : Module) (X : Excuse) (n : Nat) : Prop :=
  S.CallsRelate M M' X (fun _ _ args args' _ => args' = args) (fun _ _ _ => True) n

theorem Machine.CallsSame.consult_succ (hnames : ∀ name, M'.byName name = M.byName name)
    (ih : S.CallsSame M M' X n) (d ty c args) (h : Heap) :
    Fuelled.Follows X (S.consult M (n + 1) d ty c args h) (S.consult M' (n + 1) d ty c args h) := by
  simp only [Machine.consult]
  cases S.outside.answer c args h with
  | none => exact .refl _
  | some a =>
    cases a with
    | done r => exact .refl _
    | callback name args' mem returnTo =>
      simp only [hnames]
      cases M.byName name with
      | none => exact .refl _
      | some j =>
        exact (ih.invoke (d + 1) j args' args' _ rfl).andThen fun v h' => ih.consult d ty _ v.toList h' trivial

theorem Machine.CallsSame.call (hnames : ∀ name, M'.byName name = M.byName name)
    (h : S.CallsSame M M' X n) (d ty c args) (heap : Heap) :
    Fuelled.Follows X (S.call M n d ty c args heap) (S.call M' n d ty c args heap) := by
  have hresolve : M'.resolve c = M.resolve c := by
    unfold Module.resolve
    split <;> simp [hnames]
  simp only [Machine.call, Module.dispatch, hresolve]
  cases M.resolve c with
  | none => exact h.consult d ty c args heap trivial
  | some j => exact (h.invoke (d + 1) j args args heap rfl).map fun _ _ => rfl

/-! ## Whole runs -/

theorem Start.Fits.args_free (hfit : L.Fits M) (hM : M.Respects L.outside G ro) :
    ∀ x ∈ L.args, x.Free (Off G 0) := by
  intro x hx b hb hoff
  exact absurd (hfit.args x hx b hb) (by simp [Off.guarded hM.guarded b hoff])

theorem Start.Fits.clean (hfit : L.Fits M) (hM : M.Respects L.outside G ro)
    (htables : ∀ name ∈ M.tableSymbols, ¬ G (.global name)) : L.heap.Clean G 0 where
  free := {
    mem := by
      intro b hoff hmentions
      obtain ⟨name, hname, rfl⟩ := hfit.mem b (Off.guarded hM.guarded b hoff) hmentions
      rcases hoff with hoff | ⟨n, v, -, hb⟩
      · exact htables name hname hoff
      · cases hb
    known := by simp [Start.heap] }
  bare := fun n v o _ => hfit.slots n v o

theorem Machine.CallsFollow.start (h : L.toMachine.CallsFollow M M' X G A n)
    (hfit : L.Fits M) (hM : M.Respects L.outside G ro) (htables : ∀ name ∈ M.tableSymbols, ¬ G (.global name))
    (hA : A 0 L.entry L.args L.args L.heap) : Fuelled.Follows X (L.run M n) (L.run M' n) :=
  h.invoke 0 L.entry L.args L.args L.heap ⟨hA, hfit.args_free hM, hfit.clean hM htables⟩

end Machine

theorem Start.silent_fits {M : Module} {entry args mem}
    (hentry : ∀ f, M.functions[entry]? = some f → f.internalOnly = false) (hargs : ∀ a ∈ args, a.bases = [])
    (hslots : ∀ d v o, mem (.slot d v) o = none)
    (hmem : ∀ b o p i, mem b o = some (.frag p i) → ∃ name ∈ M.tableSymbols, p.base = .global name) :
    (Start.silent M entry args mem).Fits M where
  entry := hentry
  hidden f hf hi := any_eq_true.mpr ⟨f, hf, by simp [hi]⟩
  args a ha b hb := by simp [hargs a ha] at hb
  slots := hslots
  mem b _ hb := by
    obtain ⟨b', o, p, i, hm, rfl⟩ := hb
    exact hmem b' o p i hm

end Armfortas.Ir
