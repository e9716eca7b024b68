import Armfortas.Opt.Lemmas.JumpThreadRounds
import Armfortas.Opt.Lemmas.JumpThreadVerify

/-! Rounds in which no redirection is applied to the wrong arm keep the behaviour, and after pruning the verifier
accepts the function again. One clash is enough to change the result. The rounds come to an end where no terminator is
redirected back to itself. -/
namespace Armfortas.Opt.JumpThread
open Ir Lib

theorem live_rounds {f : Function} (hv : f.Verified) {n : Nat}
    (hclash : ∀ k < n, clashes (threadRound^[k] f) = false) : (threadRound^[n] f).Live := by
  induction n with
  | zero => exact hv.live
  | succ n ih =>
    have hlive := ih fun k hk => hclash k (Nat.lt_succ_of_lt hk)
    rw [Function.iterate_succ_apply', threadRound_eq hlive.blocksNodup (hclash n (Nat.lt_succ_self n))]
    exact live_after hlive

theorem behaves_rounds {f : Function} (hv : f.Verified) {n : Nat}
    (hclash : ∀ k < n, clashes (threadRound^[k] f) = false) (L : Launch) : L.Behaves f (threadRound^[n] f) := by
  induction n with
  | zero => exact .refl L f
  | succ n ih =>
    have hsmall : ∀ k < n, clashes (threadRound^[k] f) = false := fun k hk => hclash k (Nat.lt_succ_of_lt hk)
    have hlive := live_rounds hv hsmall
    refine (ih hsmall).trans ?_
    rw [Function.iterate_succ_apply', threadRound_eq hlive.blocksNodup (hclash n (Nat.lt_succ_self n))]
    exact after_behaves hlive L

/-- `entry: br flag, yes, no`, where `yes` passes true and `no` passes false to a join that branches on it. -/
def twoConstants : Function where
  name := "two_constants"
  params := [⟨0, .bool, false⟩]
  returnType := .int .i32
  blocks := [
    ⟨0, "entry", [], [⟨1, .constBool true, .bool⟩, ⟨2, .constBool false, .bool⟩, ⟨4, .constInt 10 .i32, .int .i32⟩,
      ⟨5, .constInt 20 .i32, .int .i32⟩], some (.condBranch 0 1 [] 2 [])⟩,
    ⟨1, "yes", [], [], some (.branch 3 [1])⟩,
    ⟨2, "no", [], [], some (.branch 3 [2])⟩,
    ⟨3, "join", [⟨3, .bool⟩], [], some (.condBranch 3 4 [] 5 [])⟩,
    ⟨4, "ten", [], [], some (.return (some 4))⟩,
    ⟨5, "twenty", [], [], some (.return (some 5))⟩]
  entry := 0
  nextValue := 6

def flagLaunch : Launch where
  target := .integer
  world := .idle
  args := [.bool true]
  mem := fun _ _ => none

/-- `entry: br flag, t(true), f(false)`, where `t` sends true on to `f`, which selects 10 for true and 20 for
false. The redirection planned for the false arm of the entry is applied to the true one. -/
def clashing : Function where
  name := "clashing"
  params := [⟨0, .bool, false⟩]
  returnType := .int .i32
  blocks := [
    ⟨0, "entry", [], [⟨1, .constBool true, .bool⟩, ⟨2, .constBool false, .bool⟩, ⟨5, .constInt 10 .i32, .int .i32⟩,
      ⟨6, .constInt 20 .i32, .int .i32⟩], some (.condBranch 0 1 [1] 2 [2])⟩,
    ⟨1, "t", [⟨3, .bool⟩], [], some (.condBranch 3 2 [1] 4 [])⟩,
    ⟨2, "f", [⟨4, .bool⟩], [], some (.condBranch 4 3 [] 4 [])⟩,
    ⟨3, "ten", [], [], some (.return (some 5))⟩,
    ⟨4, "twenty", [], [], some (.return (some 6))⟩]
  entry := 0
  nextValue := 7

/-- `do while (.true.)` around nothing. -/
def emptyLoop : Function where
  name := "empty_loop"
  params := []
  returnType := .void
  blocks := [
    ⟨0, "entry", [], [⟨0, .constBool true, .bool⟩], some (.branch 1 [0])⟩,
    ⟨1, "head", [⟨1, .bool⟩], [], some (.condBranch 1 1 [0] 2 [])⟩,
    ⟨2, "exit", [], [], some (.return none)⟩]
  entry := 0
  nextValue := 2

theorem threadLoop_isSome {n : Nat} {f : Function} (hend : planThreads (threadRound^[n] f) = []) {fuel : Nat}
    (hfuel : n < fuel) : (threadLoop fuel f).isSome := by
  induction n generalizing f fuel with
  | zero =>
    obtain ⟨fuel, rfl⟩ : ∃ k, fuel = k + 1 := ⟨fuel - 1, by omega⟩
    have hplan : planThreads f = [] := hend
    simp [threadLoop, hplan]
  | succ n ih =>
    obtain ⟨fuel, rfl⟩ : ∃ k, fuel = k + 1 := ⟨fuel - 1, by omega⟩
    rw [threadLoop]
    split
    · rfl
    · rw [Option.isSome_map]
      exact ih hend (Nat.lt_of_succ_lt_succ hfuel)

/-- A loop on a flag, entered through a join that is passed true: only the edge from the entry is redirected. -/
def flagLoop : Function where
  name := "flag_loop"
  params := [⟨0, .bool, false⟩]
  returnType := .void
  blocks := [
    ⟨0, "entry", [], [⟨1, .constBool true, .bool⟩], some (.branch 1 [1, 0])⟩,
    ⟨1, "join", [⟨2, .bool⟩, ⟨3, .bool⟩], [], some (.condBranch 2 2 [3] 3 [])⟩,
    ⟨2, "head", [⟨4, .bool⟩], [], some (.condBranch 4 2 [4] 3 [])⟩,
    ⟨3, "exit", [], [], some (.return none)⟩]
  entry := 0
  nextValue := 5

theorem noReturn_flagLoop : NoReturn flagLoop := by
  let S : BlockId → List (Option Terminator)
    | 0 => [some (.branch 1 [1, 0]), some (.branch 2 [0])]
    | 1 => [some (.condBranch 2 2 [3] 3 [])]
    | 2 => [some (.condBranch 4 2 [4] 3 [])]
    | _ => [some (.return none)]
  have hlast : ∀ b ∈ flagLoop.blocks, ∀ t ∈ S b.id, ∀ t' ∈ turns flagLoop S b t, t' ≠ t ∧ turns flagLoop S b t' = [] := by
    decide
  refine ⟨S, ⟨by decide, by decide⟩, fun b hb t ht hreturn => ?_⟩
  obtain ⟨t', hturn, hrest⟩ := Relation.TransGen.head'_iff.mp hreturn
  obtain ⟨hne, hnone⟩ := hlast b hb t ht t' hturn
  rcases Relation.ReflTransGen.cases_head hrest with heq | ⟨t'', hnext, -⟩
  · exact hne heq
  · rw [hnone] at hnext
    cases hnext

end Armfortas.Opt.JumpThread
