import Armfortas.Opt.Lemmas.CseSound

/-! Correctness of local common-subexpression elimination. -/
namespace Armfortas.Opt.Cse
open Lib Ir

section

variable {T : Target} {W : World} {f : Function} {b : BasicBlock} {k : Nat} {call : Caller}

theorem execInstsIn_append {is js σ τ} (h : execInstsIn T W k call (is ++ js) σ = .ok (.ok τ)) :
    ∃ ρ, execInstsIn T W k call is σ = .ok (.ok ρ) ∧ execInstsIn T W k call js ρ = .ok (.ok τ) := by
  induction is generalizing σ with
  | nil => exact ⟨σ, rfl, h⟩
  | cons i is ih =>
    simp only [List.cons_append, execInstsIn] at h ⊢
    split at h
    · next ρ hρ => exact ih h
    · next hno => exact absurd h (hno τ)

theorem keysHold_take (wf : f.WellFormed) (hb : b ∈ f.blocks) {n} (hn : n ≤ b.insts.length) {σ τ}
    (h : execInstsIn T W k call (b.insts.take n) σ = .ok (.ok τ)) : KeysHold T W b n τ.env := by
  induction n generalizing τ with
  | zero => exact fun m i key hm => absurd hm (Nat.not_lt_zero m)
  | succ n ih =>
    have hi : b.insts[n]? = some b.insts[n] := List.getElem?_eq_getElem hn
    rw [List.take_add_one, hi] at h
    obtain ⟨ρ, hρ, hlast⟩ := execInstsIn_append h
    have hexec : b.insts[n].execIn T W k call ρ = .ok (.ok τ) := by
      simp only [Option.toList_some, execInstsIn] at hlast
      split at hlast
      · next ρ' hρ' => rw [hρ', ← hlast]
      · next hno => exact absurd hlast (hno τ)
    exact (ih (Nat.le_of_succ_le hn) hρ).step wf hb hi hexec

end

/-- `v` and `first` are defined in one block, `first` earlier, and whenever execution of the block gets past the
definition of `v`, both have the same value. -/
def SameValue (T : Target) (f : Function) (v first : ValueId) : Prop :=
  ∃ b ∈ f.blocks, ∃ (m j : Nat) (i i' : Inst), m < j ∧ b.insts[m]? = some i ∧ b.insts[j]? = some i' ∧ i.id = first ∧
    i'.id = v ∧ ∀ W k call σ τ, execInstsIn T W k call (b.insts.take (j + 1)) σ = .ok (.ok τ) →
      ∃ x, τ.env first = some x ∧ τ.env v = some x

theorem Sound.sameValue {f passed rewrites} (hs : Sound f passed rewrites)
    (wf : f.WellFormed) {T} (hfloat : CommutesWhereDropped T f rewrites) {v first}
    (h : rewrites.get? v = some first) : SameValue T f v first := by
  obtain ⟨b, hb, m, j, i, i', key, hmj, hi, hi', rfl, rfl, hk, hk'⟩ := hs.repeats v first h
  refine ⟨b, hb, m, j, i, i', hmj, hi, hi', rfl, rfl, fun W k call σ τ hrun => ?_⟩
  have hmem : i' ∈ f.allInsts := List.mem_flatMap.mpr ⟨b, hb, List.mem_of_getElem? hi'⟩
  have hfloat' := hfloat i' hmem (by simp [keeps, h])
  have hswaps : swapsFloats i.kind = swapsFloats i'.kind := (keyOf_keyed hk).swaps.symm.trans (keyOf_keyed hk').swaps
  have hkeys := keysHold_take wf hb (List.getElem?_eq_some_iff.mp hi').1 hrun
  obtain ⟨x, hx, hex, -⟩ := hkeys m i key (by omega) hi hk (hswaps ▸ hfloat')
  obtain ⟨y, hy, hey, -⟩ := hkeys j i' key (by omega) hi' hk' hfloat'
  rw [hex] at hey
  cases hey
  exact ⟨x, hx, hy⟩

/-- `(p + q) * (q + p)`, with -1 written in two ways added to it. -/
def twice : Function where
  name := "twice"
  params := [⟨0, .int .i8, false⟩, ⟨1, .int .i8, false⟩]
  returnType := .int .i8
  blocks := [⟨0, "entry", [], [⟨2, .iBin .add 0 1, .int .i8⟩, ⟨3, .iBin .add 1 0, .int .i8⟩,
    ⟨4, .iBin .mul 2 3, .int .i8⟩, ⟨5, .constInt 255 .i8, .int .i8⟩, ⟨6, .constInt (-1) .i8, .int .i8⟩,
    ⟨7, .iBin .add 4 5, .int .i8⟩, ⟨8, .iBin .add 7 6, .int .i8⟩], some (.return (some 8))⟩]
  entry := 0
  nextValue := 9

def twiceModule : Module where
  globals := []
  functions := [twice]
  structDefs := []
  externFuncs := []

end Armfortas.Opt.Cse
