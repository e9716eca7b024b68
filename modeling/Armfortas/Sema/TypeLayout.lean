import Armfortas.Lib.AssocMap
import Mathlib.Data.List.ProdSigma

/-! Names of derived types are looked up through rename bindings, USE edges and host scopes. -/
namespace Armfortas.Sema
open Lib

abbrev ScopeId := Nat

/-- The look-up only asks whether there is a layout under a key. -/
structure TypeLayoutRegistry (TypeLayout : Type) where
  layouts : AssocMap String TypeLayout
  layoutAliases : AssocMap (ScopeId × String) (ScopeId × String)
  bareUseScopes : AssocMap ScopeId (List ScopeId)
  scopeParents : AssocMap ScopeId (Option ScopeId)
  scopePaths : AssocMap ScopeId String

inductive Imported
  | nothing
  | one (canonical : String)
  | ambiguous

/-- The loop over the USE edges; `none` where a look-up does not end. -/
def importFrom (resolve : ScopeId → Option (Option String)) : List ScopeId → Option String → Option Imported
  | [], none => some .nothing
  | [], some imported => some (.one imported)
  | source :: rest, imported =>
    match resolve source with
    | none => none
    | some none => importFrom resolve rest imported
    | some (some candidate) =>
      match imported with
      | none => importFrom resolve rest (some candidate)
      | some existing => if existing = candidate then importFrom resolve rest imported else some .ambiguous

namespace TypeLayoutRegistry

variable {TypeLayout : Type} (R : TypeLayoutRegistry TypeLayout)

def bindBareUseScope (scope sourceScope : ScopeId) : TypeLayoutRegistry TypeLayout :=
  let sources := R.bareUseScopes.getD scope []
  { R with
    bareUseScopes := R.bareUseScopes.insert scope (if sourceScope ∈ sources then sources else sources ++ [sourceScope]) }

/-- The name as it is declared in the scope itself. -/
def declaredName (scope : ScopeId) (name : String) : Option String :=
  match R.scopePaths.get? scope with
  | some path => if (R.layouts.get? (path ++ "::" ++ name)).isSome then some (path ++ "::" ++ name) else none
  | none => none

/-- What is inserted into `seen` is removed before the return, so that `seen` has the look-ups under way. -/
def resolveNameInScope : Nat → ScopeId → String → List (ScopeId × String) → Option (Option String)
  | 0, _, _, _ => none
  | fuel + 1, scope, name, seen =>
    if (scope, name) ∈ seen then some none
    else
      let seen := (scope, name) :: seen
      match R.declaredName scope name with
      | some canonical => some (some canonical)
      | none =>
        match R.layoutAliases.get? (scope, name) with
        | some (sourceScope, originalName) => resolveNameInScope fuel sourceScope originalName seen
        | none =>
          match importFrom (resolveNameInScope fuel · name seen) (R.bareUseScopes.getD scope []) none with
          | none => none
          | some .ambiguous => some none
          | some (.one canonical) => some (some canonical)
          | some .nothing =>
            match R.scopeParents.getD scope none with
            | some parent => resolveNameInScope fuel parent name seen
            | none => some none

/-- Every pair that a look-up can come to. -/
def lookups (scope : ScopeId) (name : String) : List (ScopeId × String) :=
  (scope :: R.layoutAliases.map (·.2.1) ++ R.bareUseScopes.flatMap (·.2) ++ R.scopeParents.filterMap (·.2)) ×ˢ
    (name :: R.layoutAliases.map (·.2.2))

end TypeLayoutRegistry

end Armfortas.Sema
