import Armfortas.Driver.DepScan
import Armfortas.Lib.Shares

/-! The order of `resolve_compilation_order` is a topological one, and there is one unless files depend on each other. -/

namespace Armfortas.Driver
open List Relation

def Defines (files : List FileDeps) (i : Nat) (key : String) : Prop :=
  ∃ f, files[i]? = some f ∧ ∃ d ∈ f.defines, d.toLower = key

def DependsOn (files : List FileDeps) (i j : Nat) : Prop :=
  i ≠ j ∧ ∃ f, files[i]? = some f ∧ ∃ used ∈ f.uses, Defines files j used.toLower

variable {files : List FileDeps} {map : String → Option Nat} {edges : List (Nat × Nat)} {i j n : Nat} {key : String}

theorem mem_definitions : (key, i) ∈ definitions files ↔ Defines files i key := by
  simp only [definitions, mem_flatMap, List.mem_map, Prod.exists, Prod.mk.injEq, mem_zipIdx_iff_getElem?, Defines]
  constructor
  · rintro ⟨f, _, hf, d, hd, hkey, rfl⟩
    exact ⟨f, hf, d, hd, hkey⟩
  · rintro ⟨f, hf, d, hd, hkey⟩
    exact ⟨f, i, hf, d, hd, hkey, rfl⟩

theorem mem_useEdges (hmap : ∀ key j, map key = some j ↔ Defines files j key) :
    (j, i) ∈ useEdges files map ↔ DependsOn files i j := by
  simp only [useEdges, mem_flatMap, mem_filterMap, Prod.exists, mem_zipIdx_iff_getElem?, Option.bind_eq_some_iff, hmap,
    DependsOn]
  constructor
  · rintro ⟨f, i, hf, used, hused, j, hj, h⟩
    split at h
    · next hne =>
      cases h
      exact ⟨hne, f, hf, used, hused, hj⟩
    · cases h
  · rintro ⟨hne, f, hf, used, hused, hj⟩
    exact ⟨f, i, hf, used, hused, j, hj, if_pos hne⟩

theorem moduleToFile_spec (entries : List (String × Nat)) (map : String → Option Nat) :
    match moduleToFile files entries map with
    | .ok final => ∀ key i, final key = some i ↔ map key = some i ∨ (key, i) ∈ entries
    | .error _ => ∃ key i j, i ≠ j ∧ (map key = some i ∨ (key, i) ∈ entries) ∧ (map key = some j ∨ (key, j) ∈ entries) := by
  induction entries generalizing map with
  | nil => simp [moduleToFile]
  | cons entry entries ih =>
    obtain ⟨key, i⟩ := entry
    -- the entry is known from here on, whichever way
    suffices h : ∀ map', (∀ k j, map' k = some j ↔ map k = some j ∨ (k, j) = (key, i)) →
        match moduleToFile files entries map' with
        | .ok final => ∀ k j, final k = some j ↔ map k = some j ∨ (k, j) ∈ (key, i) :: entries
        | .error _ => ∃ k j j', j ≠ j' ∧ (map k = some j ∨ (k, j) ∈ (key, i) :: entries) ∧
            (map k = some j' ∨ (k, j') ∈ (key, i) :: entries) by
      unfold moduleToFile
      cases hkey : map key with
      | none =>
        refine h _ fun k j => ?_
        by_cases hk : k = key
        · simp [hk, hkey, eq_comm]
        · simp [hk]
      | some first =>
        dsimp only
        by_cases hfirst : first ≠ i
        · rw [if_pos hfirst]
          exact ⟨key, first, i, hfirst, .inl hkey, .inr mem_cons_self⟩
        · rw [if_neg hfirst]
          refine h map fun k j => (or_iff_left_of_imp ?_).symm
          rintro ⟨rfl, rfl⟩
          rw [hkey, not_not.mp hfirst]
    intro map' hmap'
    simpa only [hmap', mem_cons, or_assoc] using ih map'

theorem flatMap_dependents (h : ∀ e ∈ edges, e.1 < n) : ((range n).flatMap (dependents edges)).Perm (edges.map (·.2)) := by
  induction edges with
  | nil => simp [dependents]
  | cons e edges ih =>
    obtain ⟨he, h⟩ := forall_mem_cons.mp h
    refine (Lib.flatMap_perm_cons nodup_range (mem_range.mpr he) (g := dependents edges) (fun j hj => ?_) ?_).trans
      ((ih h).cons _)
    · simp [dependents, hj.symm]
    · simp [dependents]

theorem kahn_init (h : ∀ e ∈ edges, e.1 < n) :
    Lib.Kahn.Inv (dependents edges) (range n) [] ⟨(range n).filter (inDegree edges · = 0), [], inDegree edges⟩ where
  nodup := nodup_range.filter _
  mem x := by simp
  degree x _ := by simp [inDegree, (flatMap_dependents h).count_eq]
  sorted := .nil

/-- Ends on every input. -/
theorem resolveCompilationOrder_correct (files : List FileDeps) :
    ∃ result, resolveCompilationOrder files = some result ∧
      ((∃ order, result = .ok order) ↔
        (∀ key i j, Defines files i key → Defines files j key → i = j) ∧ ∀ i, ¬ TransGen (DependsOn files) i i) ∧
      ∀ order, result = .ok order → order.Perm (range files.length) ∧
        ∀ i j, DependsOn files i j → order.idxOf j < order.idxOf i := by
  have hspec := @moduleToFile_spec files (definitions files) fun _ => none
  simp only [mem_definitions, reduceCtorEq, false_or] at hspec
  unfold resolveCompilationOrder
  cases hregister : moduleToFile files (definitions files) fun _ => none with
  | error e =>
    rw [hregister] at hspec
    obtain ⟨key, i, j, hne, hi, hj⟩ := hspec
    exact ⟨_, rfl, ⟨nofun, fun h => absurd (h.1 key i j hi hj) hne⟩, nofun⟩
  | ok map =>
    rw [hregister] at hspec
    have hedge {i j} : i ∈ dependents (useEdges files map) j ↔ DependsOn files i j := by
      rw [← mem_useEdges hspec]
      simp [dependents]
    have hlt {i j} (h : DependsOn files i j) : i < files.length ∧ j < files.length := by
      obtain ⟨-, f, hi, -, -, g, hj, -⟩ := h
      exact ⟨(List.getElem?_eq_some_iff.mp hi).1, (List.getElem?_eq_some_iff.mp hj).1⟩
    obtain ⟨s, hrun, hnodup, hsub, hsorted, hleft⟩ := Lib.Kahn.exhaust_step nodup_range
      (fun j _ i hi => mem_range.mpr (hlt (hedge.mp hi)).1)
      (kahn_init fun e he => (hlt ((mem_useEdges hspec).mp he)).2)
    rw [length_range] at hrun
    dsimp only
    rw [hrun, Option.map_some]
    refine ⟨_, rfl, ?_⟩
    by_cases hlen : s.order.length = files.length
    · rw [if_neg (not_not.mpr hlen)]
      have hperm := (subperm_of_subset hnodup hsub).perm_of_length_le (by rw [length_range, hlen])
      have hidx {i j} (h : DependsOn files i j) : s.order.idxOf j < s.order.idxOf i :=
        Lib.Kahn.idxOf_lt_of_mem_succ hsorted (hperm.mem_iff.mpr (mem_range.mpr (hlt h).2))
          (hperm.mem_iff.mpr (mem_range.mpr (hlt h).1)) h.1.symm (hedge.mpr h)
      have hmono {i j} (h : TransGen (DependsOn files) i j) : s.order.idxOf j < s.order.idxOf i := by
        induction h with
        | single h => exact hidx h
        | tail _ h ih => exact (hidx h).trans ih
      refine ⟨iff_of_true ⟨_, rfl⟩ ⟨fun key i j hi hj => ?_, fun i hi => (hmono hi).false⟩, ?_⟩
      · exact Option.some.inj (((hspec key i).mpr hi).symm.trans ((hspec key j).mpr hj))
      · rintro _ ⟨⟩
        exact ⟨hperm, fun _ _ => hidx⟩
    · rw [if_pos hlen]
      refine ⟨iff_of_false nofun fun ⟨_, hacyclic⟩ => hlen ?_, nofun⟩
      have hall {i} := Lib.Kahn.mem_of_acyclic (x := i)
        (fun i hi => hacyclic i (transGen_swap.mp (TransGen.mono (fun _ _ => hedge.mp) _ _ hi))) hleft
      rw [((perm_ext_iff_of_nodup hnodup nodup_range).mpr fun i => ⟨hsub i, hall⟩).length_eq, length_range]

end Armfortas.Driver
