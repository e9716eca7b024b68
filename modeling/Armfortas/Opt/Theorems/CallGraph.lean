import Armfortas.Ir.Lemmas.NaturalLoops
import Armfortas.Opt.CallGraph

/-! A function is marked exactly when it lies on a cycle of calls, and comes after all that it calls outside of such a
cycle. -/
namespace Armfortas.Opt
open Ir Lib List

theorem internalCallee_eq_some {i j} :
    internalCallee i = some j ↔ ∃ args, i.kind = .call (.internal j) args := by
  rw [internalCallee]
  constructor
  · intro h
    split at h
    · next idx args heq =>
      cases h
      exact ⟨args, heq⟩
    · cases h
  · rintro ⟨args, heq⟩
    rw [heq]

theorem mem_internalCallees {f j} :
    j ∈ internalCallees f ↔ ∃ b ∈ f.blocks, ∃ inst ∈ b.insts, ∃ args, inst.kind = .call (.internal j) args := by
  rw [internalCallees, mem_sortIds, mem_dedup, mem_filterMap]
  simp only [mem_flatMap, internalCallee_eq_some]
  constructor
  · rintro ⟨inst, ⟨b, hb, hinst⟩, hcall⟩
    exact ⟨b, hb, inst, hinst, hcall⟩
  · rintro ⟨b, hb, inst, hinst, hcall⟩
    exact ⟨inst, ⟨b, hb, hinst⟩, hcall⟩

/-- Nodes that stand for the functions of a module. -/
structure NodesOf (M : Module) (nodes : List CallNode) : Prop where
  length : nodes.length = M.functions.length
  callees : ∀ i : Nat, nodes[i]?.map CallNode.callees = M.functions[i]?.map internalCallees

theorem NodesOf.mem_calleesIn {M nodes} (h : NodesOf M nodes) {i j} :
    j ∈ calleesIn nodes i ↔ Calls M i j := by
  rw [calleesIn, mem_filter, h.callees, h.length, Calls, decide_eq_true_eq, and_comm]
  refine and_congr_right fun _ => ?_
  cases M.functions[i]? with
  | none => simp
  | some f => simp [mem_internalCallees]

theorem calleesIn_lt {nodes} (i : Nat) :
    ∀ j ∈ calleesIn nodes i, j ∈ List.range nodes.length := fun _ hj =>
  mem_range.mpr (of_decide_eq_true (mem_filter.mp hj).2)

theorem markRecursiveNodes_spec {M nodes} (h : NodesOf M nodes) :
    ∃ nodes', markRecursiveNodes nodes = some nodes' ∧ NodesOf M nodes' ∧
      ∀ i < M.functions.length, (CallGraph.mk nodes').isRecursive i = true ↔ Relation.TransGen (Calls M) i i := by
  obtain ⟨state, hrun, hflags⟩ := Scc.visitAll_recursive (calleesIn nodes) (List.range nodes.length)
    (fun i _ => calleesIn_lt i) (Nat.le_of_eq length_range)
  have hedge : (fun a b => b ∈ calleesIn nodes a) = Calls M := by
    funext a b
    exact propext h.mem_calleesIn
  refine ⟨_, by rw [markRecursiveNodes, hrun]; rfl, ⟨?_, fun i => ?_⟩, fun i hi => ?_⟩
  · rw [length_mapIdx]
    exact h.length
  · rw [getElem?_mapIdx, Option.map_map, ← h.callees i]
    rfl
  · rw [← h.length] at hi
    rw [← hedge, ← hflags i (mem_range.mpr hi)]
    simp [CallGraph.isRecursive, getElem?_mapIdx, getElem?_eq_getElem hi]

theorem nodesOf_callNodes (M : Module) : NodesOf M (callNodes M) where
  length := length_mapIdx
  callees i := by
    rw [callNodes, getElem?_mapIdx, Option.map_map]
    rfl

theorem build_spec (M : Module) :
    ∃ g, CallGraph.build M = some g ∧ NodesOf M g.nodes ∧
      ∀ i < M.functions.length, g.isRecursive i = true ↔ Relation.TransGen (Calls M) i i := by
  obtain ⟨nodes, hmark, hnodes, hflags⟩ := markRecursiveNodes_spec (nodesOf_callNodes M)
  exact ⟨⟨nodes⟩, by rw [CallGraph.build, hmark]; rfl, hnodes, hflags⟩

theorem rpoDfs_spec {nodes : List CallNode} {i} (hi : i ∈ List.range nodes.length) {state}
    (h : Post.Inv (calleesIn nodes) [] state)
    (hlt : (Post.unvisited (List.range nodes.length) state).length < nodes.length + 1) :
    ∃ state', rpoDfs nodes state i = some state' ∧
      Post.Visit (calleesIn nodes) (List.range nodes.length) [] [i] state state' :=
  Post.visit_spec (fun i _ => calleesIn_lt i) _ hi h (fun _ hg => nomatch hg) hlt

theorem bottomUpOrder_spec {M} {g : CallGraph} (h : NodesOf M g.nodes) :
    ∃ order, g.bottomUpOrder = some order ∧ order.Nodup ∧ (∀ i, i ∈ order ↔ i < M.functions.length) ∧
      ∀ i j, Calls M i j → Relation.ReflTransGen (Calls M) j i ∨ [j, i].Sublist order := by
  have hfuel : ∀ state, (Post.unvisited (List.range g.nodes.length) state).length < g.nodes.length + 1 := fun state =>
    Nat.lt_succ_of_le ((length_filter_le _ _).trans (Nat.le_of_eq length_range))
  have hedge : (fun a b => b ∈ calleesIn g.nodes a) = Calls M := by
    funext a b
    exact propext h.mem_calleesIn
  have hroots : ∀ i ∈ g.roots, i ∈ List.range g.nodes.length := fun i hi => mem_of_mem_filter hi
  obtain ⟨state₁, hrun₁, h₁⟩ := Post.visits_spec (List.range g.nodes.length)
    (fun i hi _ hs hlt => rpoDfs_spec (hroots i hi) hs hlt) Post.Inv.init (hfuel _)
  have hstep : ∀ i ∈ List.range g.nodes.length, ∀ state, Post.Inv (calleesIn g.nodes) [] state →
      (Post.unvisited (List.range g.nodes.length) state).length < g.nodes.length + 1 →
      ∃ state', (if !state.visited i then rpoDfs g.nodes state i else some state) = some state' ∧
        Post.Visit (calleesIn g.nodes) (List.range g.nodes.length) [] [i] state state' := by
    intro i hi state hs hlt
    split
    · exact rpoDfs_spec hi hs hlt
    · next hvis => exact ⟨state, rfl, hs, fun _ hv => hv, fun _ hv => .inl hv, by simpa using hvis⟩
  obtain ⟨state, hrun, h₂⟩ := Post.visits_spec (List.range g.nodes.length) hstep h₁.inv (hfuel _)
  have hmem : ∀ i, i ∈ state.order ↔ i < M.functions.length := by
    intro i
    rw [← h.length, ← mem_range]
    constructor
    · intro hi
      refine (h₂.inside i ((h₂.inv.visited i).mpr (.inr hi))).elim (fun hold => ?_) id
      exact (h₁.inside i hold).elim (fun hno => nomatch hno) id
    · exact fun hi => ((h₂.inv.visited i).mp (h₂.visited i hi)).resolve_left (fun hno => nomatch hno)
  refine ⟨state.order, ?_, h₂.inv.nodup, hmem, fun i j hcall => ?_⟩
  · rw [CallGraph.bottomUpOrder, hrun₁, Option.bind_some, hrun]
    rfl
  · rw [← hedge] at hcall ⊢
    refine h₂.inv.edge i ((hmem i).mpr ?_) j hcall
    obtain ⟨-, f, hf, -⟩ := h.mem_calleesIn.mp hcall
    exact (List.getElem?_eq_some_iff.mp hf).1

/-- A function is recursive exactly when it lies on a cycle of calls; the order has every function once, each after
the functions it calls that are not on a cycle with it. -/
theorem callGraph_correct (M : Module) :
    ∃ g order, CallGraph.build M = some g ∧ g.bottomUpOrder = some order ∧
      (∀ i < M.functions.length, g.isRecursive i = true ↔ Relation.TransGen (Calls M) i i) ∧
      order.Nodup ∧ (∀ i, i ∈ order ↔ i < M.functions.length) ∧
      ∀ i j, Calls M i j → ¬ Relation.ReflTransGen (Calls M) j i → [j, i].Sublist order := by
  obtain ⟨g, hbuild, hnodes, hflags⟩ := build_spec M
  obtain ⟨order, horder, hnodup, hmem, hedge⟩ := bottomUpOrder_spec hnodes
  exact ⟨g, order, hbuild, horder, hflags, hnodup, hmem, fun i j hcall hno => (hedge i j hcall).resolve_left hno⟩

end Armfortas.Opt
