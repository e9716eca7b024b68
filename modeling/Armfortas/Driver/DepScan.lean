import Armfortas.Lib.Kahn

/-! `resolve_compilation_order` of the driver's dependency scan. -/
namespace Armfortas.Driver
open List

/-- What a scan of one file found; `path` as displayed, and its last component. -/
structure FileDeps where
  path : String
  fileName : String
  defines : List String
  uses : List String

/-- The modules in the order they are put into `module_to_file`, in lower case. -/
def definitions (files : List FileDeps) : List (String × Nat) :=
  files.zipIdx.flatMap fun (f, i) => f.defines.map fun d => (d.toLower, i)

def displayed (files : List FileDeps) (i : Nat) : String :=
  (files[i]?.map FileDeps.path).getD ""

def moduleToFile (files : List FileDeps) :
    List (String × Nat) → (String → Option Nat) → Except String (String → Option Nat)
  | [], map => .ok map
  | (key, i) :: rest, map =>
    match map key with
    | some first =>
      if first ≠ i then
        .error ("duplicate module definition '" ++ key ++ "': '" ++ displayed files first ++ "' and '" ++
          displayed files i ++ "' both define it")
      else moduleToFile files rest map
    | none => moduleToFile files rest (Function.update map key (some i))

/-- A pair `(j, i)` for each name that file `i` uses and another file `j` defines. -/
def useEdges (files : List FileDeps) (map : String → Option Nat) : List (Nat × Nat) :=
  files.zipIdx.flatMap fun (f, i) => f.uses.filterMap fun used =>
    (map used.toLower).bind fun j => if i ≠ j then some (j, i) else none

def dependents (edges : List (Nat × Nat)) (j : Nat) : List Nat :=
  (edges.filter (·.1 = j)).map (·.2)

def inDegree (edges : List (Nat × Nat)) (i : Nat) : Nat :=
  (edges.map (·.2)).count i

/-- `none` would be a loop that does not end. -/
def resolveCompilationOrder (files : List FileDeps) : Option (Except String (List Nat)) :=
  match moduleToFile files (definitions files) fun _ => none with
  | .error e => some (.error e)
  | .ok map =>
    let n := files.length
    let edges := useEdges files map
    let queue := (range n).filter (inDegree edges · = 0)
    (Lib.exhaust (Lib.Kahn.step (dependents edges)) (n + 1) ⟨queue, [], inDegree edges⟩).map fun s =>
      if s.order.length ≠ n then
        let cycleFiles := (files.zipIdx.filter (s.inDegree ·.2 > 0)).map (·.1.fileName)
        .error ("circular module dependency detected among: " ++ ", ".intercalate cycleFiles)
      else .ok s.order

end Armfortas.Driver
