import Armfortas.Ir.DominatorTree

/-! Only distinct block numbers are assumed: targets that are not blocks are skipped by every walk, and a function
whose entry is not a block reaches no block at all. -/
namespace Armfortas.Ir
open Lib Relation.ReflTransGen AssocMap

namespace Function

variable {f : Function}

def Flow (f : Function) (a b : BlockId) : Prop := b ∈ f.knownSuccessors a

def ReachedBlock (f : Function) (b : BlockId) : Prop :=
  f.hasBlock f.entry = true ∧ Relation.ReflTransGen f.Flow f.entry b

def OnEveryPath (f : Function) (a b : BlockId) : Prop :=
  ∀ path : List BlockId, path.IsChain f.Flow → path.head? = some f.entry → path.getLast? = some b → a ∈ path

theorem onEveryPath_iff {a b} : f.OnEveryPath a b ↔ Dominates f.Flow f.entry a b :=
  dominates_iff_forall_path.symm

theorem flow_iff {a b} : f.Flow a b ↔ f.Edge a b ∧ f.hasBlock b = true := List.mem_filter

theorem ReachedBlock.hasBlock {b} (h : f.ReachedBlock b) : f.hasBlock b = true := by
  obtain ⟨hentry, hreach⟩ := h
  cases hreach with
  | refl => exact hentry
  | tail _ hab => exact (flow_iff.mp hab).2

theorem ReachedBlock.mem_blocks {b} (h : f.ReachedBlock b) : b ∈ f.blocks.map (·.id) :=
  hasBlock_iff.mp h.hasBlock

theorem ReachedBlock.flow {a b} (h : f.ReachedBlock a) (hab : f.Flow a b) : f.ReachedBlock b :=
  ⟨h.1, h.2.tail hab⟩

theorem mem_predecessors_iff_flow (hnd : f.BlocksNodup) {a b} (hb : f.hasBlock b = true) :
    a ∈ f.predecessors b ↔ f.Flow a b := by
  rw [mem_predecessors_iff hnd, flow_iff]
  exact ⟨fun h => ⟨h, hb⟩, fun h => h.1⟩

theorem ReachedBlock.of_dominates {d b} (hb : f.ReachedBlock b) (h : Dominates f.Flow f.entry d b) :
    f.ReachedBlock d := by
  obtain ⟨hentry, hreach⟩ := hb
  refine ⟨hentry, ?_⟩
  by_contra hd
  refine h ?_
  clear h
  induction hreach with
  | refl => exact .root fun e => hd (e ▸ .refl)
  | tail hr hab ih => exact .step ih hab fun e => hd (e ▸ hr.tail hab)

/-! ## The dominator sets -/

theorem mem_reachableKnown_iff {b} : b ∈ f.reachableKnown ↔ f.ReachedBlock b := by
  have hfound : b ∈ bfs (fun a => (f.successors a).filter f.hasBlock) (f.allTargets.length + 1) f.entry ↔
      Relation.ReflTransGen f.Flow f.entry b :=
    mem_bfs_iff (f.entry :: f.allTargets) List.mem_cons_self
      (fun _ _ _ hy => .tail _ (successors_subset_allTargets (List.mem_filter.mp hy).1)) (by simp)
  simp only [reachableKnown, List.mem_filter, Bool.and_eq_true, decide_eq_true_eq, hfound]
  exact ⟨fun h => ⟨h.2.1, h.2.2⟩, fun h => ⟨h.mem_blocks, h.1, h.2⟩⟩

theorem domGraph (hnd : f.BlocksNodup) (hentry : f.hasBlock f.entry = true) :
    DomGraph f.reachableKnown f.entry (fun b => (f.predecessors b).filter (· ∈ f.reachableKnown)) f.Flow := by
  refine ⟨mem_reachableKnown_iff.mpr ⟨hentry, .refl⟩, fun a ha b hab => ?_, fun x hx p => ?_⟩
  · exact mem_reachableKnown_iff.mpr ((mem_reachableKnown_iff.mp ha).flow hab)
  · rw [List.mem_filter, mem_predecessors_iff_flow hnd (mem_reachableKnown_iff.mp hx).hasBlock, decide_eq_true_eq, and_comm]

theorem dominatorInfo_dominates_iff (hnd : f.BlocksNodup) {d b} :
    f.computeDominatorInfo.dominates d b = true ↔ f.ReachedBlock b ∧ Dominates f.Flow f.entry d b := by
  rw [DominatorInfo.dominates, Bool.and_eq_true, decide_eq_true_eq, decide_eq_true_eq]
  show b ∈ f.reachableKnown ∧ d ∈ (dominators f.reachableKnown f.entry
    fun b => (f.predecessors b).filter (· ∈ f.reachableKnown)).row b ↔ _
  rw [mem_reachableKnown_iff]
  refine and_congr_right fun hb => ?_
  rw [mem_dominators_iff (domGraph hnd hb.1) (mem_reachableKnown_iff.mpr hb), mem_reachableKnown_iff]
  exact ⟨fun h => h.2, fun h => ⟨hb.of_dominates h, h⟩⟩

/-! ## The immediate dominators -/

theorem reachableReversePostorder_spec (hnd : f.BlocksNodup) (hentry : f.hasBlock f.entry = true) :
    ∃ rpo, f.reachableReversePostorder = some rpo ∧ IdomGraph f.Flow f.entry rpo f.predecessors := by
  obtain ⟨rpo, hrpo, hflow⟩ := reversePostorder_spec f.knownSuccessors f.entry
    (f.blocks.map (·.id)) fun x hx => ReachedBlock.mem_blocks ⟨hentry, hx⟩
  refine ⟨rpo, hrpo, hflow.nodup, hflow.mem, fun x hx hxr => ?_, fun x hx p _ => ?_⟩
  · obtain ⟨p, hp, hsub⟩ := hflow.parent x hx hxr
    exact ⟨p, hp, idxOf_lt_of_sublist hflow.nodup hsub⟩
  · exact mem_predecessors_iff_flow hnd (ReachedBlock.hasBlock ⟨hentry, (hflow.mem x).mp hx⟩)

theorem get?_filterMap (l : List BlockId) (g : BlockId → Option BlockId) (b) :
    get? (l.filterMap fun x => (g x).map fun y => (x, y)) b = if b ∈ l then g b else none := by
  induction l with
  | nil => rfl
  | cons x l ih =>
    rw [get?] at ih ⊢
    rw [List.filterMap_cons]
    by_cases hx : b = x
    · subst hx
      cases hg : g b with
      | none => simp [hg, ih]
      | some y => simp
    · cases hg : g x with
      | none => simp [ih, hx]
      | some y => simp [ih, hx, List.lookup_cons, beq_eq_false_iff_ne.mpr hx]

theorem keys_filterMap_sublist (l : List BlockId) (g : BlockId → Option BlockId) :
    ((l.filterMap fun x => (g x).map fun y => (x, y)).map (·.1)).Sublist l := by
  induction l with
  | nil => exact .slnil
  | cons x l ih =>
    rw [List.filterMap_cons]
    cases g x with
    | none => exact ih.cons x
    | some y => exact ih.cons_cons x

/-- What the map of immediate dominators says: its keys are the reachable blocks but the entry, and following it
from a block passes exactly the dominators. -/
structure IdomTree (f : Function) (idoms : AssocMap BlockId BlockId) : Prop where
  keysNodup : (idoms.map (·.1)).Nodup
  keys : ∀ b, (idoms.get? b).isSome ↔ f.ReachedBlock b ∧ b ≠ f.entry
  chain : ∀ b, f.ReachedBlock b → ∀ d, Chain idoms b d ↔ Dominates f.Flow f.entry d b
  ranked : ∃ order : List BlockId, order.length ≤ idoms.length + 1 ∧
    ∀ b p, idoms.get? b = some p → order.idxOf p < order.idxOf b

theorem IdomTree.of_solved {rpo idom}
    (G : IdomGraph f.Flow f.entry rpo f.predecessors) (hentry : f.hasBlock f.entry = true)
    (I : IdomInv f.Flow f.entry rpo idom) (hknown : ∀ b ∈ rpo, (idom.get? b).isSome)
    (hchain : ∀ b ∈ rpo, ∀ d, Chain idom b d ↔ Dominates f.Flow f.entry d b) :
    f.IdomTree ((rpo.filter (· != f.entry)).filterMap fun b => (idom.get? b).map fun parent => (b, parent)) := by
  generalize hidoms : ((rpo.filter (· != f.entry)).filterMap _) = idoms
  have hmem : ∀ b, b ∈ rpo.filter (· != f.entry) ↔ f.ReachedBlock b ∧ b ≠ f.entry := by
    intro b
    rw [List.mem_filter, G.mem, bne_iff_ne]
    exact ⟨fun h => ⟨⟨hentry, h.1⟩, h.2⟩, fun h => ⟨h.1.2, h.2⟩⟩
  have hget : ∀ b p, get? idoms b = some p ↔ b ≠ f.entry ∧ idom.get? b = some p := by
    intro b p
    rw [← hidoms, get?_filterMap]
    constructor
    · intro h
      split at h
      · next hb => exact ⟨((hmem b).mp hb).2, h⟩
      · cases h
    · rintro ⟨hne, hbp⟩
      rw [if_pos ((hmem b).mpr ⟨⟨hentry, (G.mem b).mp (I.node b p hbp)⟩, hne⟩), hbp]
  have hkeys : (idoms.map (·.1)).Sublist (rpo.filter (· != f.entry)) := hidoms ▸ keys_filterMap_sublist _ _
  have hsame : ∀ b d, Chain idoms b d ↔ Chain idom b d := by
    intro b d
    constructor <;> intro h
    · induction h using head_induction_on with
      | refl => exact .refl _ _
      | head hac hcd ih => exact .head ((hget _ _).mp hac).2 ih
    · induction h using head_induction_on with
      | refl => exact .refl _ _
      | @head a c hac hcd ih =>
        by_cases ha : a = f.entry
        · -- the entry is its own candidate inside the solver
          rw [ha, I.atRoot] at hac
          rw [ha, Option.some.inj hac]
          exact ih
        · exact .head ((hget a c).mpr ⟨ha, hac⟩) ih
  refine ⟨hkeys.nodup (G.nodup.filter _), fun b => ?_, fun b hb d => ?_, rpo, ?_, fun b p hbp => ?_⟩
  · rw [Option.isSome_iff_exists]
    constructor
    · rintro ⟨p, hbp⟩
      obtain ⟨hne, hbp⟩ := (hget b p).mp hbp
      exact ⟨⟨hentry, (G.mem b).mp (I.node b p hbp)⟩, hne⟩
    · rintro ⟨hb, hne⟩
      obtain ⟨p, hbp⟩ := Option.isSome_iff_exists.mp (hknown b ((G.mem b).mpr hb.2))
      exact ⟨p, (hget b p).mpr ⟨hne, hbp⟩⟩
  · rw [hsame, hchain b ((G.mem b).mpr hb.2)]
  · have hsub : rpo ⊆ idoms.map (·.1) ++ [f.entry] := by
      intro b hb
      by_cases hne : b = f.entry
      · simp [hne]
      · obtain ⟨p, hbp⟩ := Option.isSome_iff_exists.mp (hknown b hb)
        have hmem := mem_of_get? ((hget b p).mpr ⟨hne, hbp⟩)
        exact List.mem_append_left _ (List.mem_map_of_mem (f := (·.1)) hmem)
    simpa using (List.subperm_of_subset G.nodup hsub).length_le
  · obtain ⟨hne, hbp⟩ := (hget b p).mp hbp
    exact I.lt hbp hne

theorem computeImmediateDominators_spec (hnd : f.BlocksNodup) (hentry : f.hasBlock f.entry = true) :
    ∃ idoms, f.computeImmediateDominators = some idoms ∧ f.IdomTree idoms := by
  obtain ⟨rpo, hrpo, G⟩ := reachableReversePostorder_spec hnd hentry
  obtain ⟨idom, hsolve, I, hknown, hchain⟩ := idomSolve_spec G
  exact ⟨_, by simp only [computeImmediateDominators, if_pos hentry, hrpo, hsolve],
    IdomTree.of_solved G hentry I hknown hchain⟩

/-! ## The intervals -/

theorem mem_dominatorTreeChildren {idoms : AssocMap BlockId BlockId} (hnd : (idoms.map (·.1)).Nodup)
    {p c} : c ∈ dominatorTreeChildren idoms p ↔ idoms.get? c = some p := by
  rw [dominatorTreeChildren, sortIds, List.mem_insertionSort, List.mem_map]
  constructor
  · rintro ⟨e, he, rfl⟩
    rw [List.mem_filter, beq_iff_eq] at he
    exact (lookup_eq_some_iff hnd).mpr (he.2 ▸ he.1)
  · intro h
    exact ⟨(c, p), List.mem_filter.mpr ⟨mem_of_get? h, by simp⟩, rfl⟩

namespace IdomTree

variable {idoms : AssocMap BlockId BlockId} (T : f.IdomTree idoms)
include T

theorem rankedChildren : ∃ rank bound, Ranked (dominatorTreeChildren idoms) rank bound := by
  obtain ⟨order, -, hlt⟩ := T.ranked
  refine ⟨order.idxOf, order.length, fun x => ?_, fun x x' y h h' => ?_, fun x y h => ?_, fun x y h => ?_⟩
  · rw [dominatorTreeChildren, sortIds, (List.perm_insertionSort _ _).nodup_iff]
    exact T.keysNodup.sublist (List.filter_sublist.map _)
  · rw [mem_dominatorTreeChildren T.keysNodup] at h h'
    exact Option.some.inj (h.symm.trans h')
  · exact hlt y x ((mem_dominatorTreeChildren T.keysNodup).mp h)
  · exact List.idxOf_le_length

theorem below_iff_chain {x y} : Below (dominatorTreeChildren idoms) x y ↔ Chain idoms y x := by
  rw [Below, Chain, ← Relation.reflTransGen_swap]
  have hrel : (fun a b => b ∈ dominatorTreeChildren idoms a) = Function.swap fun a b => idoms.get? a = some b := by
    funext a b
    exact propext (mem_dominatorTreeChildren T.keysNodup)
  rw [hrel]

theorem mem_nodes {b} (hentry : f.hasBlock f.entry = true) : b ∈ idoms.map (·.1) ++ [f.entry] ↔ f.ReachedBlock b := by
  have hkey : b ∈ idoms.map (·.1) ↔ (idoms.get? b).isSome := by
    rw [Option.isSome_iff_exists, List.mem_map]
    constructor
    · rintro ⟨e, he, rfl⟩
      exact ⟨e.2, (lookup_eq_some_iff T.keysNodup).mpr he⟩
    · rintro ⟨p, hp⟩
      exact ⟨(b, p), mem_of_get? hp, rfl⟩
  rw [List.mem_append, List.mem_singleton, hkey, T.keys]
  constructor
  · rintro (h | rfl)
    · exact h.1
    · exact ⟨hentry, .refl⟩
  · intro h
    by_cases hb : b = f.entry
    · exact .inr hb
    · exact .inl ⟨h, hb⟩

end IdomTree

theorem dominatorTreeIntervals_spec (hnd : f.BlocksNodup) (hentry : f.hasBlock f.entry = true) :
    ∃ t, f.dominatorTreeIntervals = some t ∧
      ∀ d b, t.dominates d b = true ↔ f.ReachedBlock b ∧ Dominates f.Flow f.entry d b := by
  obtain ⟨idoms, hidoms, T⟩ := computeImmediateDominators_spec hnd hentry
  obtain ⟨rank, bound, R⟩ := T.rankedChildren
  have hroot : ∀ b, Below (dominatorTreeChildren idoms) f.entry b ↔ f.ReachedBlock b := by
    intro b
    rw [T.below_iff_chain]
    constructor
    · intro h
      rcases cases_head h with rfl | ⟨p, hp, -⟩
      · exact ⟨hentry, .refl⟩
      · exact ((T.keys b).mp (Option.isSome_iff_exists.mpr ⟨p, hp⟩)).1
    · exact fun hb => (T.chain b hb f.entry).mpr (Dominates.of_root b)
  obtain ⟨ivs, hwalk, hencl⟩ := intervalWalk_spec R f.entry (idoms.map (·.1) ++ [f.entry])
    fun b hb => (T.mem_nodes hentry).mpr ((hroot b).mp hb)
  rw [List.length_append, List.length_map, List.length_singleton] at hwalk
  refine ⟨⟨ivs⟩, by simp only [dominatorTreeIntervals, if_pos hentry, hidoms, hwalk]; rfl, fun d b => ?_⟩
  rw [DominatorTreeIntervals.dominates, hencl, hroot, hroot, T.below_iff_chain]
  constructor
  · exact fun h => ⟨h.2.1, (T.chain b h.2.1 d).mp h.2.2⟩
  · exact fun h => ⟨h.1.of_dominates h.2, h.1, (T.chain b h.1 d).mpr h.2⟩

end Function

end Armfortas.Ir
