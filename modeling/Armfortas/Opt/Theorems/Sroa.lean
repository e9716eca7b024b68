import Armfortas.Opt.Lemmas.SroaSound
import Mathlib.Tactic.Positivity

/-! Splitting arrays into their elements keeps every run, as long as each array that the pass takes as a candidate is
used element by element. The pass itself does not look at the terminators that use the array, at the size of accesses
and at the step of element pointers. -/
namespace Armfortas.Opt.Sroa
open Lib Ir List

/-! ## Memory before and after -/

/-- The candidates with the number of the first slot of each. -/
def firstSlots (next : Nat) : List SroaCandidate → List (SroaCandidate × Nat)
  | [] => []
  | c :: cs => (c, next) :: firstSlots (next + c.count) cs

/-- All storage that the pass rearranges. -/
def hiddenSlots (frame next : Nat) (cands : List SroaCandidate) : List Base :=
  (firstSlots next cands).flatMap fun p => hiddenBases frame p.1 p.2

/-- Slots start with arbitrary contents; those of the elements start with what the array starts with. -/
structure SplitMem (frame next : Nat) (cands : List SroaCandidate) (m m' : Mem) : Prop where
  outside : ∀ b, b ∉ hiddenSlots frame next cands → m' b = m b
  fields : ∀ p ∈ firstSlots next cands, ∀ size, byteSize p.1.elemTy = some size → ∀ k < p.1.count,
    ∀ o : Int, 0 ≤ o → o < size → m' (.slot frame (p.2 + k)) o = m (.slot frame p.1.allocaId) (k * size + o)

def HasRoom (frame : Nat) (cand : SroaCandidate) (m : Mem) : Prop := ∀ o,
  (m (.slot frame cand.allocaId) o).isSome = true ↔
    ∃ n, byteSize (.array cand.elemTy cand.count) = some n ∧ 0 ≤ o ∧ o < n

/-! ## All candidates -/

def mixMem (H : List Base) (m m' : Mem) : Mem := fun b => if b ∈ H then m' b else m b

theorem discreet_mixMem {L : Launch} {m} (hL : L.Discreet) (hL' : (L.withMem m).Discreet) (H : List Base) :
    (L.withMem (mixMem H L.mem m)).Discreet where
  args := hL.args
  mem b hb := by
    rintro ⟨b', o, p, k, hm, hp⟩
    change mixMem H L.mem m b' o = _ at hm
    unfold mixMem at hm
    split at hm
    · exact hL'.mem b hb ⟨b', o, p, k, hm, hp⟩
    · exact hL.mem b hb ⟨b', o, p, k, hm, hp⟩

theorem mem_of_mem_firstSlots {next cands p}
    (hp : p ∈ firstSlots next cands) : p.1 ∈ cands := by
  induction cands generalizing next with
  | nil => simp [firstSlots] at hp
  | cons c cs ih =>
    rcases mem_cons.mp hp with rfl | hp
    · exact mem_cons_self
    · exact .tail _ (ih hp)

section Mix

variable {frame next : Nat} {c : SroaCandidate} {cs : List SroaCandidate} {m m' : Mem}

theorem SplitMem.head (hm : SplitMem frame next (c :: cs) m m') {size} (helem : byteSize c.elemTy = some size)
    (harray : byteSize (.array c.elemTy c.count) = some (size * c.count)) (hroom : HasRoom frame c m)
    (hroom' : HasRoom frame c m') :
    SplitRel frame c size next (.initial m) (.initial (mixMem (hiddenBases frame c next) m m')) := by
  have hext : ∀ m₁, HasRoom frame c m₁ → ∀ o,
      (m₁ (.slot frame c.allocaId) o).isSome = true ↔ 0 ≤ o ∧ o < size * c.count := by
    intro m₁ h₁ o
    rw [h₁ o, harray]
    simp
  refine ⟨⟨fun b hb => if_neg hb, rfl, rfl, rfl⟩, hext m hroom, fun o => ?_, fun k hk o h0 hlt => ?_⟩
  · simp only [Heap.initial, mixMem, if_pos (mem_hiddenBases.mpr (.inl rfl))]
    exact hext m' hroom' o
  · simp only [Heap.initial, mixMem, if_pos (mem_hiddenBases.mpr (.inr ⟨k, hk, rfl⟩))]
    exact hm.fields (c, next) mem_cons_self size helem k hk o h0 hlt

theorem SplitMem.tail (hm : SplitMem frame next (c :: cs) m m')
    (hothers : ∀ c' ∈ cs, Base.slot frame c'.allocaId ∉ hiddenBases frame c next) :
    SplitMem frame (next + c.count) cs (mixMem (hiddenBases frame c next) m m') m' where
  outside b hb := by
    unfold mixMem
    split
    · rfl
    · next hbH =>
      refine hm.outside b fun hmem => ?_
      rcases mem_append.mp hmem with h | h
      · exact hbH h
      · exact hb h
  fields p hp size hsize k hk o h0 hlt := by
    rw [mixMem, if_neg (hothers p.1 (mem_of_mem_firstSlots hp))]
    exact hm.fields p (.tail _ hp) size hsize k hk o h0 hlt

theorem HasRoom.mix {c'} (h : HasRoom frame c' m)
    (hother : Base.slot frame c'.allocaId ∉ hiddenBases frame c next) :
    HasRoom frame c' (mixMem (hiddenBases frame c next) m m') := by
  intro o
  rw [mixMem, if_neg hother]
  exact h o

end Mix

theorem similar_candidates (cands : List SroaCandidate) : ∀ {f : Function} {L : Launch} {m : Mem}, f.Numbered →
    (∀ c ∈ cands, ∃ size, Splittable f c size) → (cands.map (·.allocaId)).Nodup → L.Discreet →
    (L.withMem m).Discreet → (∀ c ∈ cands, HasRoom L.world.frame c L.mem ∧ HasRoom L.world.frame c m) →
    SplitMem L.world.frame f.nextValue cands L.mem m → ∀ n,
    (L.run f n).Similar (hiddenSlots L.world.frame f.nextValue cands)
      ((L.withMem m).run (cands.foldl (fun g c => (decomposeAlloca g c).1) f) n) := by
  induction cands with
  | nil =>
    intro f L m _ _ _ _ _ _ hm n
    obtain rfl : m = L.mem := funext fun b => hm.outside b (by simp [hiddenSlots, firstSlots])
    exact .refl _
  | cons c cs ih =>
    intro f L m hn hs hnd hL hL' hroom hm n
    obtain ⟨size, hc⟩ := hs c mem_cons_self
    rw [map_cons, nodup_cons] at hnd
    -- the slots of the other candidates are not touched
    have hothers : ∀ c' ∈ cs, Base.slot L.world.frame c'.allocaId ∉ hiddenBases L.world.frame c f.nextValue := by
      intro c' hc' hmem
      rcases mem_hiddenBases.mp hmem with e | ⟨k, -, e⟩ <;> simp only [Base.slot.injEq, true_and] at e
      · exact hnd.1 (e ▸ mem_map_of_mem hc')
      · obtain ⟨sz, hs'⟩ := hs c' (.tail _ hc')
        exact absurd (e ▸ hs'.allocaId_lt hn) (Nat.not_lt.mpr (Nat.le_add_right _ k))
    have hmix := discreet_mixMem hL hL' (hiddenBases L.world.frame c f.nextValue)
    obtain ⟨h1, h2⟩ := hroom c mem_cons_self
    have hfirst := similar_decomposeAlloca hn hc hL hmix (hm.head hc.elem hc.array h1 h2) n
    have hnext := nextValue_decomposeAlloca hn hc
    have hrest := ih (f := (decomposeAlloca f c).1) (L := L.withMem _) (m := m) (numbered_decomposeAlloca hn hc)
      (fun c' hc' => (hs c' (.tail _ hc')).imp fun _ h => splittable_decomposeAlloca hn hc h) hnd.2
      hmix hL' (fun c' hc' => ?_) (hnext ▸ hm.tail hothers) n
    · rw [hnext] at hrest
      exact hfirst.trans hrest
    · obtain ⟨h1, h2⟩ := hroom c' (.tail _ hc')
      exact ⟨h1.mix (hothers c' hc'), h2⟩

/-! ## The pass -/

theorem sroaFunction_fst (f : Function) :
    (sroaFunction f).1 = (findCandidates f).foldl (fun g c => (decomposeAlloca g c).1) f := by
  have hfold : ∀ (cs : List SroaCandidate) (acc : Function × Bool),
      (cs.foldl sroaStep acc).1 = cs.foldl (fun g c => (decomposeAlloca g c).1) acc.1 := by
    intro cs
    induction cs with
    | nil => exact fun _ => rfl
    | cons c cs ih => exact fun acc => ih _
  exact hfold _ _

theorem nodup_findCandidates {f : Function} (hn : f.Numbered) : ((findCandidates f).map (·.allocaId)).Nodup := by
  have hblock : ∀ b ∈ f.blocks, ((b.insts.zipIdx.filterMap fun p => candidateAt f b.id p.1 p.2).map
      (·.allocaId)).Sublist (b.params.map (·.id) ++ b.insts.map (·.id)) := by
    intro b _
    refine List.Sublist.trans ?_ (sublist_append_right _ _)
    have hids : b.insts.zipIdx.map (fun p => p.1.id) = b.insts.map (·.id) := by
      conv_rhs => rw [← zipIdx_map_fst 0 b.insts, map_map]
      rfl
    rw [← hids]
    refine filterMap_map_sublist fun p cand hp => ?_
    obtain ⟨elem, count, -, -, rfl⟩ := candidateAt_eq_some hp
    rfl
  have hnd := hn.valuesNodup
  rw [Function.collectDefinedValues_eq] at hnd
  rw [findCandidates, map_flatMap]
  exact (flatMap_sublist hblock).nodup (nodup_append.mp hnd).2.1

theorem splittable_foldl {cands : List SroaCandidate} : ∀ {f : Function}, f.Numbered →
    (∀ c ∈ cands, ∃ size, Splittable f c size) → ∀ {c size}, Splittable f c size →
    Splittable (cands.foldl (fun g c => (decomposeAlloca g c).1) f) c size := by
  induction cands with
  | nil => exact fun _ _ _ _ hc => hc
  | cons c cs ih =>
    intro f hn hs c' size' hc'
    obtain ⟨size, hc⟩ := hs c mem_cons_self
    exact ih (numbered_decomposeAlloca hn hc)
      (fun d hd => (hs d (.tail _ hd)).imp fun _ h => splittable_decomposeAlloca hn hc h)
      (splittable_decomposeAlloca hn hc hc')

theorem Splittable.hasRoom {f c size} (hs : Splittable f c size) {L : Launch}
    (hL : L.Fits f) : HasRoom L.world.frame c L.mem := by
  obtain ⟨ty, ha⟩ := hs.alloca_mem
  exact hL.slots _ ha _ rfl

theorem splitMem_zeros {next cands} {sizes : List (ValueId × Nat)}
    (hslots : ∀ p ∈ firstSlots next cands, ∃ size, byteSize p.1.elemTy = some size ∧
      sizes.lookup p.1.allocaId = some (size * p.1.count) ∧ ∀ k < p.1.count, sizes.lookup (p.2 + k) = some size) :
    SplitMem 0 next cands (.zeros sizes) (.zeros sizes) where
  outside _ _ := rfl
  fields p hp size hsize k hk o h0 hlt := by
    obtain ⟨size', hsize', harray, hfields⟩ := hslots p hp
    cases hsize.symm.trans hsize'
    have hmul : k * size + size ≤ size * p.1.count := by
      have := Nat.mul_le_mul_right size (Nat.succ_le_of_lt hk)
      rw [Nat.succ_mul] at this
      rwa [Nat.mul_comm size]
    have hin : 0 ≤ (k : Int) * size + o ∧ (k : Int) * size + o < (size * p.1.count : Nat) := by
      have : (0 : Int) ≤ k * size := by positivity
      omega
    simp only [Mem.zeros, harray, hfields k hk, h0, hlt, hin, and_self, if_true]

/-- `a(1) = 7; a(2) = 5; pair = a(1)` on a local array. -/
def pair : Function where
  name := "pair"
  params := []
  returnType := .int .i32
  blocks := [
    ⟨0, "entry", [], [⟨0, .alloca (.array (.int .i32) 2), .ptr (.array (.int .i32) 2)⟩,
      ⟨1, .constInt 0 .i64, .int .i64⟩, ⟨2, .constInt 1 .i64, .int .i64⟩, ⟨3, .constInt 7 .i32, .int .i32⟩,
      ⟨4, .constInt 5 .i32, .int .i32⟩, ⟨5, .getElementPtr 0 [1], .ptr (.int .i32)⟩, ⟨6, .store 3 5, .void⟩,
      ⟨7, .getElementPtr 0 [2], .ptr (.int .i32)⟩, ⟨8, .store 4 7, .void⟩], some (.branch 1 [])⟩,
    ⟨1, "exit", [], [⟨9, .load 5, .int .i32⟩], some (.return (some 9))⟩]
  entry := 0
  nextValue := 10

def zeroedPair (first : ValueId) : Launch := .idle [] [(0, 8), (first, 4), (first + 1, 4)]

theorem zeroedPair_fits {first} {f : Function}
    (h : ∀ i ∈ f.allInsts, slotSized [(0, 8), (first, 4), (first + 1, 4)] i = true) : (zeroedPair first).Fits f :=
  Launch.idle_fits (by simp) h

/-- `a(1) = 7`, then the array goes to the next block as an argument and `a(1)` is read there. -/
def passedOn : Function where
  name := "passed_on"
  params := []
  returnType := .int .i32
  blocks := [
    ⟨0, "entry", [], [⟨0, .alloca (.array (.int .i32) 2), .ptr (.array (.int .i32) 2)⟩,
      ⟨1, .constInt 0 .i64, .int .i64⟩, ⟨2, .constInt 7 .i32, .int .i32⟩,
      ⟨3, .getElementPtr 0 [1], .ptr (.int .i32)⟩, ⟨4, .store 2 3, .void⟩], some (.branch 1 [0])⟩,
    ⟨1, "exit", [⟨5, .ptr (.array (.int .i32) 2)⟩], [⟨6, .getElementPtr 5 [1], .ptr (.int .i32)⟩,
      ⟨7, .load 6, .int .i32⟩], some (.return (some 7))⟩]
  entry := 0
  nextValue := 8

end Armfortas.Opt.Sroa
