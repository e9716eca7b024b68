import Armfortas.Ir.Lemmas.Footprint

/-! A slot whose address is only loaded from, stored to and indexed stays out of reach of everybody else: no other
value, no memory and no callee holds a pointer to it. -/
namespace Armfortas.Ir
open Lib List Option InstKind

variable {f : Function} {m : Mem} {b : Base} {i : Inst} {σ : State} {vals : List Val} {k : InstKind}

/-! ## Uses of an address -/

/-- The value occurs only as the address of an access or as the base of an element pointer. -/
def InstKind.usesAsAddress (u : ValueId) : InstKind → Bool
  | .load a | .vLoad a | .volatileLoad a => a == u
  | .store v a | .vStore v a | .volatileStore v a => a == u && v != u
  | .getElementPtr base idxs => base == u && !idxs.contains u
  | _ => false

namespace Function

def gepsOf (f : Function) (u : ValueId) : List ValueId :=
  f.allInsts.filterMap fun i => match i.kind with
    | .getElementPtr base _ => if base = u then some i.id else none
    | _ => none

/-- `v` is `s` or an element pointer computed from it, in any number of steps. -/
def Element (f : Function) (s : ValueId) : ValueId → Prop := Relation.ReflTransGen (fun u v => v ∈ f.gepsOf u) s

theorem mem_gepsOf {u v} :
    v ∈ f.gepsOf u ↔ ∃ i ∈ f.allInsts, i.id = v ∧ ∃ idxs, i.kind = .getElementPtr u idxs := by
  rw [gepsOf, mem_filterMap]
  constructor
  · rintro ⟨i, hi, h⟩
    split at h
    · next base idxs hk =>
      split at h
      · next hbu =>
        simp only [some.injEq] at h
        exact ⟨i, hi, h, idxs, hbu ▸ hk⟩
      · cases h
    · cases h
  · rintro ⟨i, hi, hv, idxs, hk⟩
    exact ⟨i, hi, by simp [hk, hv]⟩

instance (f : Function) (s v : ValueId) : Decidable (f.Element s v) :=
  decidable_of_iff (v ∈ bfs f.gepsOf (f.allInsts.length + 1) s) <| by
    refine mem_bfs_iff (s :: f.allInsts.map (·.id)) mem_cons_self (fun a _ y hy => ?_) (by simp)
    obtain ⟨i, hi, rfl, -⟩ := mem_gepsOf.mp hy
    exact .tail _ (List.mem_map_of_mem hi)

/-- No use of the slot or of an element pointer into it gives its address away. -/
structure Private (f : Function) (s : ValueId) : Prop where
  insts : ∀ i ∈ f.allInsts, ∀ u ∈ i.kind.operands, f.Element s u → i.kind.usesAsAddress u = true
  terms : ∀ b ∈ f.blocks, ∀ t ∈ b.terminator, ∀ u ∈ t.uses, ¬ f.Element s u

instance (f : Function) (s : ValueId) : Decidable (f.Private s) :=
  decidable_of_iff ((∀ i ∈ f.allInsts, ∀ u ∈ i.kind.operands, f.Element s u → i.kind.usesAsAddress u = true) ∧
    ∀ b ∈ f.blocks, ∀ t ∈ b.terminator, ∀ u ∈ t.uses, ¬ f.Element s u) ⟨fun h => ⟨h.1, h.2⟩, fun h => ⟨h.1, h.2⟩⟩

end Function

/-! ## Nobody else knows -/

structure Secluded (W : World) (f : Function) (s : ValueId) (σ : State) : Prop where
  env : ∀ u x, σ.env u = some x → Base.slot W.frame s ∈ x.bases → f.Element s u
  mem : ¬ σ.mem.Mentions (.slot W.frame s)
  known : Base.slot W.frame s ∉ σ.known

theorem Mem.Mentions.of_restrict {P : Base → Prop} (h : (m.restrict P).Mentions b) :
    m.Mentions b := by
  obtain ⟨b', o, p, k, hm, hb⟩ := h
  unfold Mem.restrict at hm
  split at hm
  · exact ⟨b', o, p, k, hm, hb⟩
  · cases hm

theorem Mem.Mentions.of_absorb {m new : Mem} {P : Base → Prop} (h : (m.absorb P new).Mentions b) :
    m.Mentions b ∨ new.Mentions b := by
  obtain ⟨b', o, p, k, hm, hb⟩ := h
  unfold Mem.absorb at hm
  split at hm
  · unfold Mem.refill at hm
    split at hm
    · exact .inr ⟨_, o, p, k, hm, hb⟩
    · obtain ⟨x, hx, hxm⟩ := map_eq_some_iff.mp hm
      cases hn : new b' o with
      | none => exact .inl ⟨b', o, p, k, by rw [hx, ← hxm, hn]; rfl, hb⟩
      | some y => exact .inr ⟨b', o, p, k, by rw [hn, ← hxm, hn]; rfl, hb⟩
  · exact .inl ⟨b', o, p, k, hm, hb⟩

theorem Mem.Mentions.of_put {p} {x : Val} (h : (m.put p x.encode).Mentions b) :
    m.Mentions b ∨ b ∈ x.bases := by
  obtain ⟨b', o, q, k, hm, rfl⟩ := h
  by_cases hc : p.covers x.encode.length b' o
  · rw [Mem.put_of_covers hc] at hm
    exact .inr (mem_bases_of_encode (mem_of_getElem? hm))
  · rw [Mem.put_of_not_covers hc] at hm
    exact .inl ⟨b', o, q, k, hm, rfl⟩

theorem not_accessible {frame known} (hlocal : b.isLocal frame = true)
    (hknown : b ∉ known) (hmem : ¬ m.Mentions b) : ¬ Accessible frame known m b := by
  intro h
  cases h with
  | shared hs => simp [hlocal] at hs
  | known hk => exact hknown hk
  | stored _ hm => exact hmem ⟨_, _, _, _, hm, rfl⟩

section Secluded

variable {T : Target} {W : World} {f : Function} {s : ValueId}

theorem isLocal_slot (frame s) : (Base.slot frame s).isLocal frame = true := by
  simp [Base.isLocal]

theorem Secluded.operand (hp : f.Private s) (hi : i ∈ f.allInsts) (h : Secluded W f s σ)
    (hvals : i.kind.operands.mapM σ.env = some vals) {y} (hy : y ∈ vals)
    (hb : Base.slot W.frame s ∈ y.bases) : ∃ u ∈ i.kind.operands, f.Element s u ∧ i.kind.usesAsAddress u = true := by
  obtain ⟨u, hu, huy⟩ := exists_of_mem_mapM hvals hy
  have he := h.env u y huy hb
  exact ⟨u, hu, he, hp.insts i hi u hu he⟩

theorem usesAsAddress_of_isCompute {u} (h : k.usesAsAddress u = true)
    (hc : k.isCompute = true) : ∃ idxs, k = .getElementPtr u idxs := by
  cases k <;> simp [usesAsAddress, isCompute] at h hc ⊢
  exact h.1

theorem usesAsAddress_of_isCall {u} (h : k.usesAsAddress u = true) : k.isCall = false := by
  cases k <;> simp [usesAsAddress, isCall] at h ⊢

theorem usesAsAddress_of_stored {u val addr} (h : k.usesAsAddress u = true)
    (hs : k.stored = some (val, addr)) : addr = u ∧ val ≠ u := by
  cases k <;> simp only [stored, reduceCtorEq, some.injEq, Prod.mk.injEq] at hs <;>
    simpa [usesAsAddress, hs.1, hs.2] using h

theorem Secluded.call (hp : f.Private s) (hi : i ∈ f.allInsts) (hc : i.kind.isCall = true)
    (h : Secluded W f s σ) (hvals : i.kind.operands.mapM σ.env = some vals) {v heap'}
    (a : Answered W i.ty vals σ.toHeap v heap') :
    Base.slot W.frame s ∉ heap'.known ∧ ¬ Accessible W.frame heap'.known σ.mem (.slot W.frame s) ∧
      ¬ a.response.mem.Mentions (.slot W.frame s) ∧ Base.slot W.frame s ∉ a.response.result.bases := by
  have hknown : Base.slot W.frame s ∉ heap'.known := by
    rw [a.known_eq, mem_append, mem_flatMap]
    rintro (hk | ⟨y, hy, hb⟩)
    · exact h.known hk
    · obtain ⟨u, -, -, hu⟩ := h.operand hp hi hvals (a.sub y hy) hb
      simp [usesAsAddress_of_isCall hu] at hc
  have hhonest : ∀ {P : Prop}, (P → Base.slot W.frame s ∈ a.response.result.bases ∨
      a.response.mem.Mentions (.slot W.frame s)) → ¬ P := by
    intro P hP hP'
    rcases W.respond_honest _ _ _ _ _ _ _ a.respond (isLocal_slot _ _) (hP hP') with hk | hm
    · exact hknown hk
    · exact h.mem hm.of_restrict
  exact ⟨hknown, not_accessible (isLocal_slot _ _) hknown h.mem, hhonest .inr, hhonest .inl⟩

theorem Secluded.exec (hp : f.Private s) (hi : i ∈ f.allInsts) {σ σ'} (h : Secluded W f s σ)
    (hexec : i.exec T W σ = .ok σ') : Secluded W f s σ' := by
  obtain ⟨vals, v, hvals, hperf, henv⟩ := exec_ok hexec
  -- a new value that points to the slot is an element pointer
  suffices hnew : (∀ x, v = some x → Base.slot W.frame s ∈ x.bases → f.Element s i.id) ∧
      ¬ σ'.mem.Mentions (.slot W.frame s) ∧ Base.slot W.frame s ∉ σ'.known by
    refine ⟨fun u x hx hb => ?_, hnew.2.1, hnew.2.2⟩
    rcases henv with ⟨-, he⟩ | ⟨y, rfl, -, he⟩
    · exact h.env u x (he ▸ hx) hb
    · rw [he] at hx
      by_cases hu : u = i.id
      · subst hu
        rw [Env.set_self, some.injEq] at hx
        exact hnew.1 y rfl (hx ▸ hb)
      · exact h.env u x (by rwa [Env.set_ne _ _ hu] at hx) hb
  by_cases hcomp : i.kind.isCompute = true
  · obtain ⟨hheap, x, rfl, hx⟩ := perform_compute hcomp hperf
    have hmem : σ'.mem = σ.mem ∧ σ'.known = σ.known := by simp only [hheap, and_self]
    refine ⟨fun y hy hb => ?_, hmem.1 ▸ h.mem, hmem.2 ▸ h.known⟩
    cases hy
    rcases compute_bases hx hb with ⟨y, hy, hby⟩ | hown
    · obtain ⟨u, -, he, hu⟩ := h.operand hp hi hvals hy hby
      obtain ⟨idxs, hk⟩ := usesAsAddress_of_isCompute hu hcomp
      exact he.tail (Function.mem_gepsOf.mpr ⟨i, hi, rfl, idxs, hk⟩)
    · exact (slot_mem_origins hown).1 ▸ .refl
  cases exec_memStep hexec with
  | none hs hc hm hk =>
    refine ⟨fun x hx hb => ?_, hm ▸ h.mem, hk ▸ h.known⟩
    subst hx
    refine absurd (perform_load_bases (by simpa using hcomp) hs hc hperf hb (by simp) ?_) h.mem
    rintro n p bs q j hq hin
    exact hq ▸ W.volatileRead_honest n p bs q j (by rw [hq, isLocal_slot]) hin
  | store hs hx hp' _ hm hk =>
    obtain ⟨_, _, -, rfl, -⟩ := perform_store hs hperf
    refine ⟨fun x hx => (by cases hx), fun hment => ?_, hk ▸ h.known⟩
    rcases (hm ▸ hment).of_put with hment | hb
    · exact h.mem hment
    · -- the value that is stored does not point to the slot
      have he := h.env _ _ hx hb
      exact (usesAsAddress_of_stored (hp.insts i hi _ (by simp [operands_of_stored hs]) he) hs).2 rfl
  | call hc _ _ =>
    obtain ⟨a⟩ := perform_call hc hperf
    obtain ⟨hk, -, hm, hr⟩ := h.call hp hi hc hvals a
    refine ⟨fun x hx hb => ?_, fun hment => ?_, hk⟩
    · rw [a.result] at hx
      split at hx
      · cases hx
      · cases hx
        exact absurd hb hr
    · rw [a.mem_eq] at hment
      rcases hment.of_absorb with hment | hment
      · exact h.mem hment
      · exact hm hment

theorem Secluded.slot_eq (hp : f.Private s) (hi : i ∈ f.allInsts) {σ σ'} (h : Secluded W f s σ)
    (hexec : i.exec T W σ = .ok σ') (hother : ∀ val addr, i.kind.stored = some (val, addr) → ¬ f.Element s addr)
    (o) : σ'.mem (.slot W.frame s) o = σ.mem (.slot W.frame s) o := by
  cases exec_memStep hexec with
  | none _ _ hm _ => rw [hm]
  | store hs _ hp' _ hm _ =>
    rw [hm, Mem.put_of_not_covers]
    rintro ⟨hb, -⟩
    exact hother _ _ hs (h.env _ _ hp' (by simp [Val.bases, hb]))
  | call hc hvals ha =>
    obtain ⟨a⟩ := ha
    have := (h.call hp hi hc hvals a).2.1
    rw [a.mem_eq, Mem.absorb, if_neg this]

theorem Secluded.bindParams {ps env} (h : Secluded W f s σ)
    (hvals : ∀ x ∈ vals, Base.slot W.frame s ∉ x.bases) (hbind : bindParams ps vals σ.env = some env) :
    Secluded W f s { σ with env := env } := by
  refine ⟨fun u x hx hb => ?_, h.mem, h.known⟩
  rcases bindParams_cases hbind hx with hold | hnew
  · exact h.env u x hold hb
  · exact absurd hb (hvals x hnew)

end Secluded

/-- Nobody knows an address in this activation before it starts. -/
structure Launch.Discreet (L : Launch) : Prop where
  args : ∀ a ∈ L.args, ∀ b ∈ a.bases, b.isLocal L.world.frame = false
  mem : ∀ b, b.isLocal L.world.frame = true → ¬ L.mem.Mentions b

theorem Launch.Fits.discreet {L : Launch} (h : L.Fits f) : L.Discreet := ⟨h.args, h.mem⟩

theorem Mem.not_mentions_zeros (sizes : List (ValueId × Nat)) (b) : ¬ (Mem.zeros sizes).Mentions b := by
  rintro ⟨b', o, p, k, hm, -⟩
  unfold Mem.zeros at hm
  split at hm
  · split at hm
    · split at hm <;> cases hm
    · cases hm
  · cases hm

/-- The slot of an instruction has the size its type asks for; there are no literals. -/
def slotSized (sizes : List (ValueId × Nat)) (i : Inst) : Bool :=
  match i.kind with
  | .alloca ty => sizes.lookup i.id == byteSize ty
  | .constString bs => bs.isEmpty
  | _ => true

theorem Launch.idle_fits {args sizes}
    (hargs : ∀ a ∈ args, ∀ b ∈ a.bases, b.isLocal 0 = false) (hslots : ∀ i ∈ f.allInsts, slotSized sizes i = true) :
    (Launch.idle args sizes).Fits f where
  args := hargs
  mem b _ := Mem.not_mentions_zeros sizes b
  slots i hi ty hk o := by
    have hs := hslots i hi
    simp only [slotSized, hk, beq_iff_eq] at hs
    change (Mem.zeros sizes (.slot 0 i.id) o).isSome = true ↔ _
    simp only [Mem.zeros, hs]
    cases byteSize ty with
    | none => simp
    | some n => by_cases ho : 0 ≤ o ∧ o < n <;> simp [ho]
  literals i hi bs hk k b hb := by
    have hs := hslots i hi
    simp only [slotSized, hk, List.isEmpty_iff] at hs
    simp [hs] at hb

theorem Launch.At.secluded {L : Launch} (hfits : L.Discreet) {s} (hp : f.Private s)
    {b k} (hat : L.At f b k σ) : Secluded L.world f s σ := by
  refine hat.induction (P := fun _ _ σ => Secluded L.world f s σ) ?_ ?_ ?_
  · intro σ hs
    obtain ⟨-, hbind, hheap⟩ := Launch.start_running hs
    obtain ⟨⟨mem, known, clock, trace⟩, env⟩ := σ
    cases hheap
    have hempty : Secluded L.world f s { mem := L.mem, known := [], clock := 0, trace := [], env := fun _ => none } :=
      ⟨fun u x hx => (by cases hx), hfits.mem _ (isLocal_slot _ _), by simp⟩
    refine hempty.bindParams (fun x hx hb => ?_) hbind
    simpa [isLocal_slot] using hfits.args x hx _ hb
  · intro blk hblk k i σ σ' _ hi h hexec _
    have hmem := (Function.mem_blocks_of_tryBlock hblk).1
    exact h.exec hp (mem_flatMap.mpr ⟨blk, hmem, mem_of_getElem? hi⟩) hexec
  · intro blk hblk t c args σ σ' _ ht htk henter _ h
    have hmem := (Function.mem_blocks_of_tryBlock hblk).1
    obtain ⟨-, dst, vals, env, -, hvals, hbind, rfl⟩ := Function.enter_running henter
    refine h.bindParams (fun x hx hb => ?_) hbind
    obtain ⟨u, hu, hux⟩ := exists_of_mem_mapM hvals hx
    exact hp.terms blk hmem t ht u (htk.mem_uses u hu) (h.env u x hux hb)

end Armfortas.Ir
