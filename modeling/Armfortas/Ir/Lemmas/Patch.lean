import Armfortas.Ir.Lemmas.Prune

/-! A block may be exchanged for one that does the same in every state a run reaches it with. -/
namespace Armfortas.Ir
open Lib List Option Ir.Function

theorem execTerm_params {f g : Function} {T t σ}
    (h : ∀ d, g.KeepsParams f d) : g.execTerm T t σ = f.execTerm T t σ := by
  have henter : ∀ d args, g.enter d args σ = f.enter d args σ := by
    intro d args
    have hd := h d
    unfold enter
    cases hf : f.tryBlock d with
    | none =>
      rw [KeepsParams, hf, map_none, map_eq_none_iff] at hd
      rw [hd]
    | some b =>
      obtain ⟨b', hb', hp⟩ := hd.some hf
      rw [hb']
      cases hm : args.mapM σ.env with
      | none => rfl
      | some vals => simp only [hp]
  cases t with
  | «return» v => cases v <;> rfl
  | unreachable => rfl
  | branch d args => exact henter d args
  | condBranch c td targs fd fargs => simp only [execTerm, henter]
  | switch s cases d => simp only [execTerm, henter]

structure Launch.SameRun (L : Launch) (f g : Function) : Prop where
  run : ∀ n, L.run g n = L.run f n
  at_iff : ∀ b k σ, L.At g b k σ ↔ L.At f b k σ

theorem Launch.SameRun.refl (L : Launch) (f) : L.SameRun f f := ⟨fun _ => rfl, fun _ _ _ => Iff.rfl⟩

theorem Launch.SameRun.trans {L : Launch} {f g h} (h₁ : L.SameRun f g) (h₂ : L.SameRun g h) : L.SameRun f h :=
  ⟨fun n => (h₂.run n).trans (h₁.run n), fun b k σ => (h₂.at_iff b k σ).trans (h₁.at_iff b k σ)⟩

section Patch

variable {L : Launch} {f g : Function}

theorem Launch.run_congr (hstart : L.start g = L.start f)
    (hstep : ∀ b σ, L.Enters f b σ → g.execBlock L.target L.world b σ = f.execBlock L.target L.world b σ) (n) :
    L.run g n = L.run f n := by
  induction n with
  | zero => exact hstart
  | succ n ih =>
    rw [Launch.run, Launch.run, ih]
    cases hr : L.run f n with
    | running b σ => exact hstep b σ ⟨n, hr⟩
    | returned v σ => rfl
    | halted why t => rfl

/-- A block with as many instructions, of which each does the same where the run meets it. -/
structure Launch.SameBlock (L : Launch) (f : Function) (b b' : BasicBlock) : Prop where
  params : b'.params = b.params
  length : b'.insts.length = b.insts.length
  insts : ∀ k σ i i', L.At f b.id k σ → b.insts[k]? = some i → b'.insts[k]? = some i' →
    i'.exec L.target L.world σ = i.exec L.target L.world σ
  term : ∀ σ, L.At f b.id b.insts.length σ →
    (b.terminator = none ∧ b'.terminator = none) ∨
    ∃ t t', b.terminator = some t ∧ b'.terminator = some t' ∧ f.execTerm L.target t' σ = f.execTerm L.target t σ

theorem Launch.SameBlock.take {b b'} (h : L.SameBlock f b b') (hb : f.tryBlock b.id = some b) {σ}
    (hent : L.Enters f b.id σ) (k) (hk : k ≤ b.insts.length) :
    execInsts L.target L.world (b'.insts.take k) σ = execInsts L.target L.world (b.insts.take k) σ := by
  induction k with
  | zero => rfl
  | succ k ih =>
    have hk' := Nat.le_of_succ_le hk
    have hi : b.insts[k]? = some b.insts[k] := getElem?_eq_getElem hk
    have hlt : k < b'.insts.length := h.length ▸ hk
    have hi' : b'.insts[k]? = some b'.insts[k] := getElem?_eq_getElem hlt
    rw [take_add_one, take_add_one, hi, hi', toList_some, toList_some, execInsts_append,
      execInsts_append, ih hk']
    cases he : execInsts L.target L.world (b.insts.take k) σ with
    | halt why t => rfl
    | ok σ₁ => simp only [execInsts, h.insts k σ₁ _ _ ⟨σ, b, hent, hb, hk', he⟩ hi hi']

theorem Launch.sameRun_of_blocks (hparams : g.params = f.params) (hentry : g.entry = f.entry)
    (hnone : ∀ b, f.tryBlock b = none → g.tryBlock b = none)
    (hsome : ∀ b, f.tryBlock b.id = some b → ∃ b', g.tryBlock b.id = some b' ∧ L.SameBlock f b b') : L.SameRun f g := by
  have hps : ∀ d, g.KeepsParams f d := by
    intro d
    unfold KeepsParams
    cases hd : f.tryBlock d with
    | none => rw [hnone d hd]
    | some b =>
      obtain ⟨-, rfl⟩ := mem_blocks_of_tryBlock hd
      obtain ⟨b', hb', hs⟩ := hsome b hd
      rw [hb', map_some, map_some, hs.params]
  have hrun : ∀ n, L.run g n = L.run f n := by
    refine Launch.run_congr (by simp only [Launch.start, hparams, hentry]) fun b σ hent => ?_
    unfold execBlock
    cases hb : f.tryBlock b with
    | none => rw [hnone b hb]
    | some blk =>
      obtain ⟨-, rfl⟩ := mem_blocks_of_tryBlock hb
      obtain ⟨blk', hb', hs⟩ := hsome blk hb
      have htake := hs.take hb hent _ le_rfl
      rw [take_length, ← hs.length, take_length] at htake
      simp only [hb', htake]
      cases he : execInsts L.target L.world blk.insts σ with
      | halt why t => rfl
      | ok σ₁ =>
        rcases hs.term σ₁ ⟨σ, blk, hent, hb, le_rfl, by rwa [take_length]⟩ with ⟨h₁, h₂⟩ | ⟨t, t', h₁, h₂, ht⟩
        · simp only [h₁, h₂]
        · simp only [h₁, h₂, execTerm_params hps, ht]
  refine ⟨hrun, fun b k σ => ?_⟩
  have hent : ∀ σ, L.Enters g b σ ↔ L.Enters f b σ := fun σ => by simp only [Launch.Enters, hrun]
  constructor
  · rintro ⟨σ₀, blk', he, hb', hk, hexec⟩
    cases hb : f.tryBlock b with
    | none => simp [hnone b hb] at hb'
    | some blk =>
      obtain ⟨-, rfl⟩ := mem_blocks_of_tryBlock hb
      obtain ⟨blk₁, hb₁, hs⟩ := hsome blk hb
      cases hb₁.symm.trans hb'
      have he' := (hent σ₀).mp he
      exact ⟨σ₀, blk, he', hb, hs.length ▸ hk, by rw [← hs.take hb he' k (hs.length ▸ hk)]; exact hexec⟩
  · rintro ⟨σ₀, blk, he, hb, hk, hexec⟩
    obtain ⟨-, rfl⟩ := mem_blocks_of_tryBlock hb
    obtain ⟨blk', hb', hs⟩ := hsome blk hb
    exact ⟨σ₀, blk', (hent σ₀).mpr he, hb', hs.length ▸ hk, by rw [hs.take hb he k hk]; exact hexec⟩

theorem Launch.SameBlock.refl (L : Launch) (f b) : L.SameBlock f b b := by
  refine ⟨rfl, rfl, fun k σ i i' _ hi hi' => ?_, fun σ _ => ?_⟩
  · cases hi.symm.trans hi'
    rfl
  · cases ht : b.terminator with
    | none => exact .inl ⟨rfl, rfl⟩
    | some t => exact .inr ⟨t, t, rfl, rfl, rfl⟩

theorem Function.tryBlock_modifyBlock (hnd : f.BlocksNodup) (b) {φ : BasicBlock → BasicBlock}
    (hid : ∀ blk, (φ blk).id = blk.id) (c) :
    (f.modifyBlock b φ).tryBlock c = (f.tryBlock c).map fun blk => if blk.id = b then φ blk else blk := by
  rw [← tryBlock_map (f := f) (fun blk => by split <;> simp [hid]) c]
  unfold tryBlock
  rw [Function.modifyBlock_blocks hnd]

theorem Function.nodup_modifyBlock (hnd : f.BlocksNodup) (b) {φ : BasicBlock → BasicBlock}
    (hid : ∀ blk, (φ blk).id = blk.id) : (f.modifyBlock b φ).BlocksNodup := by
  rw [BlocksNodup, Function.modifyBlock_blocks hnd, List.map_map]
  refine (congrArg List.Nodup (map_congr_left fun blk _ => ?_)).mp hnd
  simp only [Function.comp_apply]
  split <;> simp [hid]

theorem Launch.sameRun_modifyBlock (hnd : f.BlocksNodup) (b) (φ : BasicBlock → BasicBlock)
    (hid : ∀ blk, (φ blk).id = blk.id) (hsame : ∀ blk, f.tryBlock b = some blk → L.SameBlock f blk (φ blk)) :
    L.SameRun f (f.modifyBlock b φ) := by
  have htry := tryBlock_modifyBlock hnd b hid
  refine Launch.sameRun_of_blocks rfl rfl (fun c hc => by rw [htry, hc]; rfl) fun blk hblk => ?_
  rw [htry, hblk, map_some]
  by_cases hb : blk.id = b
  · exact ⟨φ blk, by simp [hb], hsame blk (hb ▸ hblk)⟩
  · exact ⟨blk, by simp [hb], .refl L f blk⟩

end Patch

end Armfortas.Ir
