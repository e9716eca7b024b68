import Armfortas.Ir.Lemmas.Footprint
import Armfortas.Ir.Lemmas.Prune

/-! What is true right after a definition stays true wherever the definition dominates: the values it speaks of come
from before it, so they cannot be defined again in between without passing it. -/
namespace Armfortas.Ir
open Lib List Ir.Function

variable {f : Function} {L : Launch} {b : BasicBlock} {v : ValueId} {i : Inst} {σ : State}

namespace Function

/-- Everything from position `k` of block `d` on, and every block it strictly dominates. -/
def After (f : Function) (d : BlockId) (k : Nat) (b : BlockId) (j : Nat) : Prop :=
  (b = d ∧ k ≤ j) ∨ (b ≠ d ∧ f.Dom d b)

theorem UseOk.mono {j k} (h : f.UseOk b v j) (hjk : j ≤ k) : f.UseOk b v k where
  sameBlock m i hi hv := Nat.lt_of_lt_of_le (h.sameBlock m i hi hv) hjk
  across := h.across

theorem Dom.of_edge {d b c} (h : f.Dom d c) (he : f.Edge b c) (hne : d ≠ c) : f.Dom d b :=
  fun havoid => h (.step havoid he hne.symm)

/-- What may be used at the start of a block, and is not one of its parameters, may be used at the end of
each block that leads to it. -/
theorem WellFormed.useOk_of_edge (wf : f.WellFormed) {b c} (hb : b ∈ f.blocks) (hc : c ∈ f.blocks)
    (he : f.Edge b.id c.id) (hr : f.Reachable b.id) (hv : ∀ p ∈ c.params, v ≠ p.id)
    (h : f.UseOk c v 0) : f.UseOk b v b.insts.length where
  sameBlock k i hi _ := (List.getElem?_eq_some_iff.mp hi).1
  across := by
    intro d hd _
    have hdc : d ≠ c.id := by
      intro hdc
      cases hd with
      | param _ _ =>
        rw [← hdc, Edge, successors, tryBlock_id wf.blocksNodup hb] at he
        exact wf.entryNotTarget b hb he
      | blockParam hb' hp e =>
        obtain rfl := inj_on_of_nodup_map wf.blocksNodup hb' hc hdc
        exact hv _ hp e.symm
      | inst hb' hi e =>
        obtain rfl := inj_on_of_nodup_map wf.blocksNodup hb' hc hdc
        obtain ⟨k, hk⟩ := mem_iff_getElem?.mp hi
        exact absurd (h.sameBlock k _ hk e) (Nat.not_lt_zero k)
    obtain ⟨hrd, -, hdom⟩ := h.across d hd hdc
    exact ⟨hrd, hr, hdom.of_edge he hdc⟩

end Function

/-! ## Persistence -/

section Persist

variable (h : f.Live) {d : BasicBlock} (hd : d ∈ f.blocks) {k : Nat}
include h hd

/-- What holds whenever position `k` of `d` is reached and is kept from there on holds at every later point. -/
theorem Launch.At.persists {Q : State → Prop} (hest : ∀ σ, L.At f d.id k σ → Q σ)
    (hinst : ∀ b ∈ f.blocks, ∀ j i σ σ', f.After d.id k b.id j → L.At f b.id j σ → b.insts[j]? = some i →
      i.exec L.target L.world σ = .ok σ' → Q σ → Q σ')
    (hedge : ∀ c ∈ f.blocks, c.id ≠ d.id → f.Dom d.id c.id → ∀ σ vals env,
      bindParams c.params vals σ.env = some env → Q σ → Q { σ with env := env })
    (hk : k ≤ d.insts.length) {b j σ} (hat : L.At f b j σ) (hafter : f.After d.id k b j) :
    Q σ := by
  have htry := tryBlock_id h.blocksNodup hd
  revert hafter
  refine hat.induction (P := fun b j σ => f.After d.id k b j → Q σ) ?_ ?_ ?_
  · rintro σ hs (⟨hbd, hk0⟩ | ⟨hbd, hdom⟩)
    · obtain rfl : k = 0 := Nat.le_zero.mp hk0
      exact hest σ (Launch.Enters.at ⟨0, hbd ▸ hs⟩ htry)
    · exact absurd (.root hbd) hdom
  · intro blk hblk j i σ σ' hat hi ih hexec hat' hafter
    have hmem := (mem_blocks_of_tryBlock hblk).1
    rcases hafter with ⟨hbd, hkj⟩ | ⟨hbd, hdom⟩
    · rcases Nat.lt_or_ge j k with hlt | hge
      · obtain rfl : j + 1 = k := Nat.le_antisymm hlt hkj
        exact hest σ' (hbd ▸ hat')
      · exact hinst blk hmem j i σ σ' (.inl ⟨hbd, hge⟩) hat hi hexec (ih (.inl ⟨hbd, hge⟩))
    · exact hinst blk hmem j i σ σ' (.inr ⟨hbd, hdom⟩) hat hi hexec (ih (.inr ⟨hbd, hdom⟩))
  · intro blk hblk t c args σ σ' hat ht htk henter hent ih hafter
    have hmem := (mem_blocks_of_tryBlock hblk).1
    rcases hafter with ⟨hcd, hk0⟩ | ⟨hcd, hdom⟩
    · obtain rfl : k = 0 := Nat.le_zero.mp hk0
      exact hest σ' (Launch.Enters.at (hcd ▸ hent) htry)
    · have hedge' : f.Edge blk.id c := by
        simpa [Function.Edge, successors, hblk, BasicBlock.targets, ht] using htk.mem_targets
      obtain ⟨-, dst, vals, env, hdst, -, hbind, rfl⟩ := enter_running henter
      obtain ⟨hdmem, rfl⟩ := mem_blocks_of_tryBlock hdst
      refine hedge dst hdmem hcd hdom σ vals env hbind (ih ?_)
      by_cases hbd : blk.id = d.id
      · have : blk = d := inj_on_of_nodup_map h.blocksNodup hmem hd hbd
        subst this
        exact .inl ⟨rfl, hk⟩
      · exact .inr ⟨hbd, hdom.pred hcd hedge'⟩

end Persist

/-- A fact about values defined before position `k` of block `d`. -/
structure PointFact (f : Function) (d : BasicBlock) (k : Nat) where
  holds : Env → Prop
  about : ValueId → Prop
  congr : ∀ {env env'}, (∀ v, about v → env' v = env v) → holds env → holds env'
  before : ∀ v, about v → f.UseOk d v k

section PointFact

variable (h : f.Live) {d : BasicBlock} (hd : d ∈ f.blocks) {k : Nat} (F : PointFact f d k)

theorem PointFact.not_about_dominated {b} (hb : b ≠ d.id) (hdom : f.Dom d.id b)
    (hv : f.DefIn v b) : ¬ F.about v := by
  intro ha
  obtain ⟨hrb, hrd, hdom'⟩ := (F.before v ha).across b hv hb
  exact hb (Dominates.antisymm hdom' hdom hrb)

include h hd

theorem PointFact.not_about_after (hb : b ∈ f.blocks) {j} (hi : b.insts[j]? = some i)
    (hafter : f.After d.id k b.id j) : ¬ F.about i.id := by
  rcases hafter with ⟨hbd, hkj⟩ | ⟨hbd, hdom⟩
  · have : b = d := inj_on_of_nodup_map h.blocksNodup hb hd hbd
    subst this
    exact fun ha => Nat.not_lt.mpr hkj ((F.before _ ha).sameBlock j i hi rfl)
  · exact F.not_about_dominated hbd hdom (.inst hb (mem_of_getElem? hi) rfl)

theorem PointFact.persists (hest : ∀ σ, L.At f d.id k σ → F.holds σ.env) (hk : k ≤ d.insts.length) {b j}
    (hat : L.At f b j σ) (hafter : f.After d.id k b j) : F.holds σ.env := by
  refine hat.persists h hd (Q := fun σ => F.holds σ.env) hest ?_ ?_ hk hafter
  · intro b hb j i σ σ' hafter _ hi hexec hF
    exact F.congr (fun v hv => exec_env_ne hexec fun e => F.not_about_after h hd hb hi hafter (e ▸ hv)) hF
  · intro c hc hcd hdom σ vals env hbind hF
    refine F.congr (fun v hv => ?_) hF
    exact bindParams_env_of_not_mem hbind fun p hp e =>
      F.not_about_dominated hcd hdom (.blockParam hc hp e.symm) hv

end PointFact
/-! ## Equations -/

section Equation

variable (h : f.Live)
include h

theorem Launch.At.leaf_value {d} (hd : d ∈ f.blocks) {m}
    (hi : d.insts[m]? = some i) (hleaf : i.kind.isLeaf = true) {x}
    (hx : compute L.target L.world i [] = .value x) {b k} (hat : L.At f b k σ)
    (hafter : f.After d.id (m + 1) b k) : σ.env i.id = some x := by
  let F : PointFact f d (m + 1) := {
    holds := fun env => env i.id = some x
    about := fun v => v = i.id
    congr := fun heq hold => (heq _ rfl).trans hold
    before := fun v hv => hv ▸ useOk_self h.valuesNodup hd hi }
  refine F.persists h hd (fun σ₁ hat₁ => ?_) (List.getElem?_eq_some_iff.mp hi).1 hat hafter
  obtain ⟨σ₀, -, hexec⟩ := hat₁.pred (tryBlock_id h.blocksNodup hd) hi
  obtain ⟨vals, v, -, hperf, hres⟩ := exec_ok hexec
  obtain ⟨y, hy, hperf'⟩ := perform_leaf (T := L.target) (W := L.world) hleaf vals σ₀.toHeap
  rw [hperf', Effect.ok.injEq] at hperf
  cases hx.symm.trans hy
  obtain ⟨hn, -⟩ | ⟨z, hz, -, henv⟩ := hres
  · rw [hn] at hperf
    cases hperf.1
  · rw [hz, Option.some.injEq] at hperf
    change σ₁.env i.id = some x
    rw [henv, Env.set_self, hperf.1]

end Equation

end Armfortas.Ir
