import Armfortas.Lib.Exhaust
import Armfortas.Sema.TypeLayout
import Mathlib.Data.Nat.Basic

/-! Look-ups end and do not depend on the order of USE edges. -/

namespace Armfortas.Sema
open Lib List

/-! ## Candidates of the USE edges -/

/-- What the loop comes to, in terms of the set of candidates. -/
def Imported.Of (candidates : String → Prop) : Imported → Prop
  | .nothing => ∀ c, ¬ candidates c
  | .one c => candidates c ∧ ∀ d, candidates d → d = c
  | .ambiguous => ∃ c d, candidates c ∧ candidates d ∧ c ≠ d

theorem Imported.Of.unique {candidates i j} (hi : Imported.Of candidates i) (hj : Imported.Of candidates j) : i = j := by
  cases i with
  | nothing =>
    cases j with
    | nothing => rfl
    | one c => exact absurd hj.1 (hi c)
    | ambiguous =>
      obtain ⟨c, -, hc, -⟩ := hj
      exact absurd hc (hi c)
  | one c =>
    cases j with
    | nothing => exact absurd hi.1 (hj c)
    | one d => rw [hj.2 c hi.1]
    | ambiguous =>
      obtain ⟨d, e, hd, he, hne⟩ := hj
      exact absurd ((hi.2 d hd).trans (hi.2 e he).symm) hne
  | ambiguous =>
    obtain ⟨c, d, hc, hd, hne⟩ := hi
    cases j with
    | nothing => exact absurd hc (hj c)
    | one e => exact absurd ((hj.2 c hc).trans (hj.2 d hd).symm) hne
    | ambiguous => rfl

theorem importFrom_spec {resolve : ScopeId → Option (Option String)} {answer : ScopeId → Option String} {sources}
    (h : ∀ s ∈ sources, resolve s = some (answer s)) (imported : Option String) :
    ∃ i, importFrom resolve sources imported = some i ∧
      i.Of fun c => imported = some c ∨ ∃ s ∈ sources, answer s = some c := by
  induction sources generalizing imported with
  | nil =>
    cases imported with
    | none => exact ⟨.nothing, rfl, by simp [Imported.Of]⟩
    | some c => exact ⟨.one c, rfl, by simp [Imported.Of]⟩
  | cons s sources ih =>
    obtain ⟨hs, hsources⟩ := forall_mem_cons.mp h
    rw [importFrom.eq_def]
    simp only [hs]
    cases hanswer : answer s with
    | none => simpa [hanswer] using ih hsources imported
    | some candidate =>
      cases imported with
      | none => simpa [hanswer, eq_comm] using ih hsources (some candidate)
      | some existing =>
        by_cases heq : existing = candidate
        · simpa [hanswer, heq] using ih hsources (some candidate)
        · exact ⟨.ambiguous, if_neg heq, existing, candidate, .inl rfl, .inr ⟨s, mem_cons_self, hanswer⟩, heq⟩

namespace TypeLayoutRegistry

variable {TypeLayout : Type} {R : TypeLayoutRegistry TypeLayout} {scope : ScopeId} {name : String}

/-! ## Order of the USE edges -/

/-- Every edge `(scope, source)` of a list is recorded. -/
def bindUses (R : TypeLayoutRegistry TypeLayout) (edges : List (ScopeId × ScopeId)) : TypeLayoutRegistry TypeLayout :=
  edges.foldl (fun R e => R.bindBareUseScope e.1 e.2) R

theorem bindUses_eq (edges : List (ScopeId × ScopeId)) :
    R.bindUses edges = { R with bareUseScopes := (R.bindUses edges).bareUseScopes } := by
  induction edges generalizing R with
  | nil => rfl
  | cons e edges ih => exact @ih (R.bindBareUseScope e.1 e.2)

theorem mem_bindUses {edges s} :
    s ∈ (R.bindUses edges).bareUseScopes.getD scope [] ↔ s ∈ R.bareUseScopes.getD scope [] ∨ (scope, s) ∈ edges := by
  induction edges generalizing R with
  | nil => simp [bindUses]
  | cons e edges ih =>
    rw [bindUses, foldl_cons, ← bindUses, ih, mem_cons, ← or_assoc]
    refine or_congr_left ?_
    by_cases hscope : scope = e.1
    · rw [bindBareUseScope, hscope, AssocMap.getD_insert_self]
      split <;> simp_all [Prod.ext_iff]
    · rw [bindBareUseScope, AssocMap.getD_insert_ne _ _ _ hscope]
      simp [Prod.ext_iff, hscope]

/-- Pairs that look-ups do not leave. -/
structure Closed (R : TypeLayoutRegistry TypeLayout) (pairs : List (ScopeId × String)) : Prop where
  rename : ∀ p ∈ pairs, ∀ q, R.layoutAliases.get? p = some q → q ∈ pairs
  uses : ∀ p ∈ pairs, ∀ s ∈ R.bareUseScopes.getD p.1 [], (s, p.2) ∈ pairs
  host : ∀ p ∈ pairs, ∀ s, R.scopeParents.getD p.1 none = some s → (s, p.2) ∈ pairs

theorem closed_lookups : R.Closed (R.lookups scope name) := by
  refine ⟨fun p hp q hq => ?_, fun p hp s hs => ?_, fun p hp s hs => ?_⟩
  · have hq := AssocMap.mem_of_get? hq
    refine mem_product.mpr ⟨?_, .tail _ (List.mem_map.mpr ⟨_, hq, rfl⟩)⟩
    exact mem_append_left _ (mem_append_left _ (.tail _ (List.mem_map.mpr ⟨_, hq, rfl⟩)))
  · rw [AssocMap.getD] at hs
    cases hget : R.bareUseScopes.get? p.1 with
    | none => simp [hget] at hs
    | some sources =>
      rw [hget] at hs
      refine mem_product.mpr ⟨mem_append_left _ (mem_append_right _ ?_), (mem_product.mp hp).2⟩
      exact mem_flatMap.mpr ⟨_, AssocMap.mem_of_get? hget, hs⟩
  · rw [AssocMap.getD] at hs
    cases hget : R.scopeParents.get? p.1 with
    | none => simp [hget] at hs
    | some host =>
      rw [hget] at hs
      refine mem_product.mpr ⟨mem_append_right _ ?_, (mem_product.mp hp).2⟩
      exact mem_filterMap.mpr ⟨_, AssocMap.mem_of_get? hget, hs⟩

theorem resolve_sameUses {uses : AssocMap ScopeId (List ScopeId)}
    (huses : ∀ scope s, s ∈ R.bareUseScopes.getD scope [] ↔ s ∈ uses.getD scope []) {pairs} (hclosed : R.Closed pairs)
    {fuel fuel' : Nat} {seen} (hmem : (scope, name) ∈ pairs) (hfuel : (pairs.filter (· ∉ seen)).length < fuel)
    (hfuel' : (pairs.filter (· ∉ seen)).length < fuel') :
    ∃ answer, R.resolveNameInScope fuel scope name seen = some answer ∧
      { R with bareUseScopes := uses }.resolveNameInScope fuel' scope name seen = some answer := by
  induction fuel generalizing scope name seen fuel' with
  | zero => exact absurd hfuel (Nat.not_lt_zero _)
  | succ fuel ih =>
    obtain ⟨fuel', rfl⟩ := Nat.exists_eq_add_of_le' (Nat.one_le_of_lt hfuel')
    rw [resolveNameInScope, resolveNameInScope]
    by_cases hseen : (scope, name) ∈ seen
    · exact ⟨none, if_pos hseen, if_pos hseen⟩
    rw [if_neg hseen, if_neg hseen]
    have hless : (pairs.filter (· ∉ (scope, name) :: seen)).length < (pairs.filter (· ∉ seen)).length :=
      @length_filter_cons_lt _ _ _ _ id _ _ _ hmem hseen
    have hlt := hless.trans_le (Nat.le_of_lt_succ hfuel)
    have hlt' := hless.trans_le (Nat.le_of_lt_succ hfuel')
    have hdeclared : { R with bareUseScopes := uses }.declaredName scope name = R.declaredName scope name := rfl
    dsimp only
    rw [hdeclared]
    cases R.declaredName scope name with
    | some canonical => exact ⟨some canonical, rfl, rfl⟩
    | none =>
      cases hrename : R.layoutAliases.get? (scope, name) with
      | some q =>
        dsimp only
        exact ih (hclosed.rename _ hmem q hrename) hlt hlt'
      | none =>
        dsimp only
        -- the answers of all edges, in the order of each of the two
        have hedges (s : ScopeId) : ∃ answer, s ∈ R.bareUseScopes.getD scope [] →
            R.resolveNameInScope fuel s name ((scope, name) :: seen) = some answer ∧
              { R with bareUseScopes := uses }.resolveNameInScope fuel' s name ((scope, name) :: seen) = some answer := by
          by_cases hs : s ∈ R.bareUseScopes.getD scope []
          · obtain ⟨answer, h⟩ := ih (hclosed.uses _ hmem s hs) hlt hlt'
            exact ⟨answer, fun _ => h⟩
          · exact ⟨none, fun h => absurd h hs⟩
        choose answer hanswer using hedges
        obtain ⟨i, hi, hof⟩ := importFrom_spec (fun s hs => (hanswer s hs).1) none
        obtain ⟨j, hj, hof'⟩ := importFrom_spec (fun s hs => (hanswer s ((huses scope s).mpr hs)).2) none
        simp only [← huses] at hof'
        obtain rfl := hof.unique hof'
        rw [hi, hj]
        cases i with
        | ambiguous => exact ⟨none, rfl, rfl⟩
        | one canonical => exact ⟨some canonical, rfl, rfl⟩
        | nothing =>
          cases hhost : R.scopeParents.getD scope none with
          | none => exact ⟨none, rfl, rfl⟩
          | some host =>
            dsimp only
            exact ih (hclosed.host _ hmem host hhost) hlt hlt'

/-- Every look-up ends, also with some under way, and the order of the edges does not matter. -/
theorem resolveNameInScope_order (R : TypeLayoutRegistry TypeLayout) (edges edges' : List (ScopeId × ScopeId))
    (hperm : edges.Perm edges') (scope : ScopeId) (name : String) (seen : List (ScopeId × String)) :
    ∃ enough answer, ∀ fuel, enough ≤ fuel → (R.bindUses edges).resolveNameInScope fuel scope name seen = some answer ∧
      (R.bindUses edges').resolveNameInScope fuel scope name seen = some answer := by
  have heq : R.bindUses edges' = { R.bindUses edges with bareUseScopes := (R.bindUses edges').bareUseScopes } := by
    rw [bindUses_eq edges, bindUses_eq edges']
  have huses (scope s : ScopeId) : s ∈ (R.bindUses edges).bareUseScopes.getD scope [] ↔
      s ∈ (R.bindUses edges').bareUseScopes.getD scope [] := by
    rw [mem_bindUses, mem_bindUses, hperm.mem_iff]
  have hmem : (scope, name) ∈ (R.bindUses edges).lookups scope name := by simp [lookups]
  have hboth {fuel fuel'} := @resolve_sameUses _ (R.bindUses edges) scope name _ huses _ closed_lookups fuel fuel' seen hmem
  rw [← heq] at hboth
  obtain ⟨answer, h, h'⟩ := hboth (Nat.lt_succ_self _) (Nat.lt_succ_self _)
  refine ⟨(((R.bindUses edges).lookups scope name).filter (· ∉ seen)).length + 1, answer, fun fuel hfuel => ⟨?_, ?_⟩⟩
  · obtain ⟨answer', hr, hr'⟩ := hboth hfuel (Nat.lt_succ_self _)
    rwa [← h', hr']
  · obtain ⟨answer', hr, hr'⟩ := hboth (Nat.lt_succ_self _) hfuel
    rwa [← h, hr]

/-- `node` is the name that module `names` has for the type `cell` of module `cells`. -/
def renamingRegistry : TypeLayoutRegistry Unit where
  layouts := [("cells::cell", ())]
  layoutAliases := [((3, "node"), (4, "cell"))]
  bareUseScopes := []
  scopeParents := [(0, none), (1, none), (2, none), (3, none), (4, none)]
  scopePaths := [(0, "main"), (1, "lists"), (2, "trees"), (3, "names"), (4, "cells")]

/-- Modules 1 and 2 use each other; only the second leads on to the name. -/
theorem resolveNameInScope_order_twoUses :
    (∃ enough answer, ∀ fuel, enough ≤ fuel →
      (renamingRegistry.bindUses [(0, 1), (0, 2), (1, 2), (2, 1), (2, 3)]).resolveNameInScope fuel 0 "node" [] =
          some answer ∧
        (renamingRegistry.bindUses [(2, 3), (2, 1), (1, 2), (0, 2), (0, 1)]).resolveNameInScope fuel 0 "node" [] =
          some answer) ∧
    (renamingRegistry.bindUses [(0, 1), (0, 2), (1, 2), (2, 1), (2, 3)]).resolveNameInScope 6 0 "node" [] =
      some (some "cells::cell") :=
  ⟨resolveNameInScope_order renamingRegistry _ [(2, 3), (2, 1), (1, 2), (0, 2), (0, 1)] (by decide) 0 "node" [],
    by decide +kernel⟩

end TypeLayoutRegistry

end Armfortas.Sema
