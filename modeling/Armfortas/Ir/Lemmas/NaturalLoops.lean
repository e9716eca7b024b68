import Armfortas.Ir.LoopTree
import Armfortas.Ir.Lemmas.DominatorTree
import Armfortas.Lib.NaturalLoop
import Mathlib.Data.List.Dedup

/-! The back edges found through intervals are those of the dominator sets, and the backward search from the latches
collects the natural loop. -/
namespace Armfortas.Ir
open Lib List

theorem mem_sortIds {ids n} : n ∈ sortIds ids ↔ n ∈ ids := by
  rw [sortIds, mem_insertionSort]

theorem nodup_sortIds {ids} : (sortIds ids).Nodup ↔ ids.Nodup :=
  (perm_insertionSort _ _).nodup_iff

namespace Function

variable {f : Function}

/-- `l → h` is a back edge: `l` is reachable and `h` lies on every path to it. -/
def BackEdgeBlocks (f : Function) (l h : BlockId) : Prop :=
  f.ReachedBlock l ∧ f.Flow l h ∧ f.OnEveryPath h l

theorem backEdgeBlocks_iff (hentry : f.hasBlock f.entry = true) {l h} :
    f.BackEdgeBlocks l h ↔ BackEdge f.Flow f.entry l h := by
  rw [BackEdgeBlocks, onEveryPath_iff]
  exact ⟨fun ⟨hl, he, hd⟩ => ⟨hl.2, he, hd⟩, fun ⟨hl, he, hd⟩ => ⟨⟨hentry, hl⟩, he, hd⟩⟩

/-! ## Back edges -/

theorem mem_intervalBackEdges (hnd : f.BlocksNodup) {t : DominatorTreeIntervals}
    (ht : ∀ d b, t.dominates d b = true ↔ f.ReachedBlock b ∧ Dominates f.Flow f.entry d b) {l h} :
    (l, h) ∈ f.intervalBackEdges t ↔ f.BackEdgeBlocks l h := by
  rw [BackEdgeBlocks, onEveryPath_iff, intervalBackEdges, mem_flatMap]
  constructor
  · rintro ⟨blk, hblk, hmem⟩
    obtain ⟨h', hh', he⟩ := mem_map.mp hmem
    obtain ⟨rfl, rfl⟩ := Prod.mk.inj he
    obtain ⟨htgt, hdom⟩ := mem_filter.mp hh'
    obtain ⟨hreach, hdom⟩ := (ht _ _).mp hdom
    have hedge : f.Edge blk.id h' := by
      rw [Edge, successors, tryBlock_id hnd hblk]
      exact htgt
    exact ⟨hreach, flow_iff.mpr ⟨hedge, (hreach.of_dominates hdom).hasBlock⟩, hdom⟩
  · rintro ⟨hreach, hflow, hdom⟩
    obtain ⟨hedge, -⟩ := flow_iff.mp hflow
    unfold Edge successors at hedge
    split at hedge
    · next blk hblk =>
      obtain ⟨hmem, rfl⟩ := mem_blocks_of_tryBlock hblk
      exact ⟨blk, hmem, mem_map_of_mem (mem_filter.mpr ⟨hedge, (ht _ _).mpr ⟨hreach, hdom⟩⟩)⟩
    · cases hedge

theorem findNaturalLoopsByIntervals_eq (hnd : f.BlocksNodup) :
    f.findNaturalLoopsByIntervals = some f.findNaturalLoops := by
  have hkey : ∀ t : DominatorTreeIntervals, (∀ d b, t.dominates d b = f.computeDominatorInfo.dominates d b) →
      f.loopsOfBackEdges (f.intervalBackEdges t) = f.findNaturalLoops := by
    intro t ht
    have hedges : f.intervalBackEdges t = f.backEdges := by
      unfold intervalBackEdges backEdges
      simp only [ht]
    rw [hedges]
    rfl
  by_cases hentry : f.hasBlock f.entry = true
  · obtain ⟨t, ht, hdom⟩ := dominatorTreeIntervals_spec hnd hentry
    rw [findNaturalLoopsByIntervals, ht, Option.map_some, hkey t fun d b => ?_]
    rw [Bool.eq_iff_iff, hdom, dominatorInfo_dominates_iff hnd]
  · rw [findNaturalLoopsByIntervals, dominatorTreeIntervals, if_neg hentry, Option.map_some, hkey _ fun d b => ?_]
    rw [Bool.eq_iff_iff, dominatorInfo_dominates_iff hnd]
    exact ⟨fun h => by simp [DominatorTreeIntervals.dominates, encloses] at h, fun h => absurd h.1.1 hentry⟩

/-! ## Bodies -/

theorem loopBody_start {header latches} (hheader : f.hasBlock header = true)
    (hlatches : ∀ l ∈ latches, f.hasBlock l = true) :
    SearchInv (fun b => (f.predecessors b).filter (· != header)) (f.blocks.map (·.id)) [header]
      ((latches.filter (· != header)).dedup).reverse (header :: latches).dedup := by
  refine ⟨nodup_dedup _, fun x hx => ?_, nodup_reverse.mpr (nodup_dedup _), fun x hx => ?_,
    fun x hx hna hnd => ?_⟩
  · rcases mem_cons.mp (mem_dedup.mp hx) with rfl | hx
    · exact hasBlock_iff.mp hheader
    · exact hasBlock_iff.mp (hlatches x hx)
  · rw [mem_reverse, mem_dedup, mem_filter] at hx
    exact mem_dedup.mpr (.tail _ hx.1)
  · rw [mem_singleton] at hnd
    have hx' := (mem_cons.mp (mem_dedup.mp hx)).resolve_left hnd
    refine absurd ?_ hna
    rw [mem_reverse, mem_dedup, mem_filter, bne_iff_ne]
    exact ⟨hx', hnd⟩

theorem predecessors_subset {a b} (h : a ∈ f.predecessors b) : a ∈ f.blocks.map (·.id) := by
  rw [predecessors, mem_flatMap] at h
  obtain ⟨blk, hblk, h⟩ := h
  obtain ⟨-, -, rfl⟩ := mem_map.mp h
  exact mem_map_of_mem hblk

theorem loopBody_nodup {header latches} (hheader : f.hasBlock header = true)
    (hlatches : ∀ l ∈ latches, f.hasBlock l = true) :
    (f.loopBody header latches).Nodup ∧ ∀ b ∈ f.loopBody header latches, b ∈ f.blocks.map (·.id) :=
  search_nodup toFront_perm (fun _ _ _ hy => predecessors_subset (mem_filter.mp hy).1) _ _ _
    (loopBody_start hheader hlatches)

theorem mem_loopBody (hnd : f.BlocksNodup) {header latches}
    (hheader : f.hasBlock header = true) (hlatches : ∀ l ∈ latches, f.hasBlock l = true) {b} :
    b ∈ f.loopBody header latches ↔ b = header ∨ ∃ l ∈ latches, ReachesAvoiding f.Flow header b l := by
  have hstart := loopBody_start hheader hlatches
  have hseen : ∀ x, x ∈ header :: latches → x ∈ f.loopBody header latches := fun x hx =>
    subset_search toFront_perm _ _ _ x (mem_dedup.mpr hx)
  constructor
  · refine search_sound_of_agenda toFront_perm (P := fun x => f.hasBlock x = true ∧
      ∃ l ∈ latches, ReachesAvoiding f.Flow header x l)
      (R := fun x => x = header ∨ ∃ l ∈ latches, ReachesAvoiding f.Flow header x l) (fun x hx => .inr hx.2)
      (fun x hx y hy => ?_) _ _ _
      (fun x hx => ?_) (fun x hx => ?_) b
    · obtain ⟨hxb, l, hl, hpath⟩ := hx
      obtain ⟨hy, hyh⟩ := mem_filter.mp hy
      have hflow := (mem_predecessors_iff_flow hnd hxb).mp hy
      exact ⟨hasBlock_iff.mpr (predecessors_subset hy), l, hl, .head (bne_iff_ne.mp hyh) hflow hpath⟩
    · rw [mem_reverse, mem_dedup, mem_filter, bne_iff_ne] at hx
      exact ⟨hlatches x hx.1, x, hx.1, .refl hx.2⟩
    · rcases mem_cons.mp (mem_dedup.mp hx) with hx | hx
      · exact .inl hx
      · by_cases hxh : x = header
        · exact .inl hxh
        · exact .inr ⟨x, hx, .refl hxh⟩
  · have hfuel : (f.blocks.map (·.id)).length + ((latches.filter (· != header)).dedup).reverse.length ≤
        f.blocks.length + 1 + ((header :: latches).dedup).length := by
      have hle := (subperm_of_subset hstart.agendaNodup hstart.agendaSeen).length_le
      rw [length_map]
      omega
    have hclosed : ∀ x ∈ f.loopBody header latches, x ∉ [header] →
        ∀ y ∈ (f.predecessors x).filter (· != header), y ∈ f.loopBody header latches := search_closed toFront_perm
      (fun _ _ _ hy => predecessors_subset (mem_filter.mp hy).1) _ _ _ hstart hfuel
    rintro (rfl | ⟨l, hl, hbh, hpath⟩)
    · exact hseen b mem_cons_self
    · -- back along the path, every predecessor of a collected block is collected
      induction hpath using Relation.ReflTransGen.head_induction_on with
      | refl => exact hseen l (.tail _ hl)
      | @head a c hac hcl ih =>
        have hc := ih hac.2
        refine hclosed c hc (by simpa using hac.2) a (mem_filter.mpr ⟨?_, bne_iff_ne.mpr hbh⟩)
        exact (mem_predecessors_iff_flow hnd (flow_iff.mp hac.1).2).mpr hac.1

/-! ## The list of loops -/

/-- What `find_natural_loops` returns: one loop for each header of a back edge, with the sources of its back
edges and its natural loop. -/
structure LoopsFound (f : Function) (loops : List NaturalLoop) : Prop where
  headersNodup : (loops.map (·.header)).Nodup
  headers : ∀ h, (∃ lp ∈ loops, lp.header = h) ↔ ∃ l, f.BackEdgeBlocks l h
  latches : ∀ lp ∈ loops, ∀ l, l ∈ lp.latches ↔ f.BackEdgeBlocks l lp.header
  bodyNodup : ∀ lp ∈ loops, lp.body.Nodup
  bodyBlocks : ∀ lp ∈ loops, ∀ b ∈ lp.body, b ∈ f.blocks.map (·.id)
  body : ∀ lp ∈ loops, ∀ b, b ∈ lp.body ↔
    b = lp.header ∨ ∃ l, f.BackEdgeBlocks l lp.header ∧ ReachesAvoiding f.Flow lp.header b l

theorem findNaturalLoops_found (hnd : f.BlocksNodup) :
    ∃ loops, f.findNaturalLoopsByIntervals = some loops ∧ f.LoopsFound loops := by
  have hkey : ∀ edges : List (BlockId × BlockId), (∀ l h, (l, h) ∈ edges ↔ f.BackEdgeBlocks l h) →
      f.LoopsFound (f.loopsOfBackEdges edges) := by
    intro edges hedges
    have hheader : ∀ h, h ∈ sortIds (edges.map (·.2)).dedup ↔ ∃ l, f.BackEdgeBlocks l h := by
      intro h
      rw [mem_sortIds, mem_dedup, mem_map]
      exact ⟨fun ⟨⟨l, h'⟩, he, hh⟩ => ⟨l, (hedges l h).mp (hh ▸ he)⟩, fun ⟨l, hl⟩ => ⟨(l, h), (hedges l h).mpr hl, rfl⟩⟩
    have hlatch : ∀ h l, l ∈ sortIds ((edges.filter (·.2 == h)).map (·.1)) ↔ f.BackEdgeBlocks l h := by
      intro h l
      rw [mem_sortIds, mem_map, ← hedges]
      constructor
      · rintro ⟨⟨l', h'⟩, he, rfl⟩
        obtain ⟨he, hh⟩ := mem_filter.mp he
        exact beq_iff_eq.mp hh ▸ he
      · exact fun he => ⟨(l, h), mem_filter.mpr ⟨he, by simp⟩, rfl⟩
    have hloop : ∀ lp ∈ f.loopsOfBackEdges edges, (∃ l, f.BackEdgeBlocks l lp.header) ∧
        lp.latches = sortIds ((edges.filter (·.2 == lp.header)).map (·.1)) ∧
        lp.body = f.loopBody lp.header lp.latches := by
      intro lp hlp
      obtain ⟨h, hh, rfl⟩ := mem_map.mp hlp
      exact ⟨(hheader h).mp hh, rfl, rfl⟩
    have hblocks : ∀ lp ∈ f.loopsOfBackEdges edges, f.hasBlock lp.header = true ∧
        ∀ l ∈ lp.latches, f.hasBlock l = true := by
      intro lp hlp
      obtain ⟨⟨l, -, hflow, -⟩, hlatches, -⟩ := hloop lp hlp
      refine ⟨(flow_iff.mp hflow).2, fun k hk => ?_⟩
      rw [hlatches, hlatch] at hk
      exact hk.1.hasBlock
    have hheaders : (f.loopsOfBackEdges edges).map (·.header) = sortIds (edges.map (·.2)).dedup := by
      rw [loopsOfBackEdges, map_map]
      exact map_id _
    refine ⟨?_, fun h => ?_, fun lp hlp l => ?_, fun lp hlp => ?_, fun lp hlp => ?_, fun lp hlp b => ?_⟩
    · rw [hheaders]
      exact nodup_sortIds.mpr (nodup_dedup _)
    · rw [← hheader, ← hheaders, mem_map]
    · rw [(hloop lp hlp).2.1, hlatch]
    · rw [(hloop lp hlp).2.2]
      exact (loopBody_nodup (hblocks lp hlp).1 (hblocks lp hlp).2).1
    · rw [(hloop lp hlp).2.2]
      exact (loopBody_nodup (hblocks lp hlp).1 (hblocks lp hlp).2).2
    · rw [(hloop lp hlp).2.2, mem_loopBody hnd (hblocks lp hlp).1 (hblocks lp hlp).2, (hloop lp hlp).2.1]
      simp only [hlatch]
  by_cases hentry : f.hasBlock f.entry = true
  · obtain ⟨t, ht, hdom⟩ := dominatorTreeIntervals_spec hnd hentry
    exact ⟨_, by rw [findNaturalLoopsByIntervals, ht]; rfl, hkey _ fun l h => mem_intervalBackEdges hnd hdom⟩
  · refine ⟨_, by rw [findNaturalLoopsByIntervals, dominatorTreeIntervals, if_neg hentry]; rfl, hkey _ fun l h => ?_⟩
    refine mem_intervalBackEdges hnd fun d b => ⟨fun h => ?_, fun h => absurd h.1.1 hentry⟩
    simp [DominatorTreeIntervals.dominates, encloses] at h

end Function

end Armfortas.Ir
