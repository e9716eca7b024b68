import Mathlib.Data.Fin.Basic
import Mathlib.Data.List.FinRange
import Mathlib.Logic.Function.Basic
import Armfortas.Runtime.Lemmas.Loops

/-! The three calls of an ordered worksharing loop, and a team that makes them. What a call does under the lock is one
step; what it does to the thread's own state belongs to the same step, since no one else sees it. -/
namespace Armfortas.Runtime.Openmp
open Lib

inductive OrderedStatus
  | success
  | invalidOrdered
  deriving DecidableEq, Repr

structure OrderedGeneration where
  preparedTasks : Nat := 0
  nextOrdinal : Int := 0
  deriving DecidableEq, Repr

/-- The hash map as a function. -/
structure OrderedWorkspaceState where
  generations : UInt64 → Option OrderedGeneration

/-- The fields of `TeamContext` that ordered loops use. -/
structure OrderedContext where
  teamSize : Int32
  orderedGeneration : UInt64 := 0
  orderedActiveGeneration : Option UInt64 := none
  deriving DecidableEq

def OrderedWorkspaceState.set (w : OrderedWorkspaceState) (g : UInt64) (entry : Option OrderedGeneration) :
    OrderedWorkspaceState := { generations := Function.update w.generations g entry }

/-- `afs_omp_ordered_prepare` of a member of a team. -/
def orderedPrepare (team : OrderedContext) (workspace : OrderedWorkspaceState) :
    OrderedStatus × OrderedContext × OrderedWorkspaceState :=
  if team.orderedActiveGeneration.isSome then (.invalidOrdered, team, workspace)
  else
    let generation := team.orderedGeneration + 1
    let team := { team with orderedGeneration := generation }
    if generation = 0 then (.invalidOrdered, team, workspace)
    else
      let teamSize := team.teamSize.toInt.toNat
      let entry := (workspace.generations generation).getD { }
      let entry := { entry with preparedTasks := entry.preparedTasks + 1 }
      let workspace := workspace.set generation (some entry)
      if teamSize < entry.preparedTasks then (.invalidOrdered, team, workspace)
      else if entry.preparedTasks = teamSize ∧ 1 < generation then (.success, team, workspace.set (generation - 1) none)
      else (.success, team, workspace)

/-- `afs_omp_ordered_enter` of a member of a team; `none` means that it waits. -/
def orderedEnter (iteration lower step : Int64) (team : OrderedContext) (workspace : OrderedWorkspaceState) :
    Option (OrderedStatus × OrderedContext) :=
  let delta := iteration.toInt - lower.toInt
  if step = 0 then some (.invalidOrdered, team)
  else if delta.tmod step.toInt ≠ 0 then some (.invalidOrdered, team)
  else
    let ordinal := delta.tdiv step.toInt
    if ordinal < 0 then some (.invalidOrdered, team)
    else if team.orderedGeneration = 0 ∨ team.orderedActiveGeneration.isSome then some (.invalidOrdered, team)
    else match workspace.generations team.orderedGeneration with
      | none => some (.invalidOrdered, team)
      | some entry =>
          if ordinal < entry.nextOrdinal then some (.invalidOrdered, team)
          else if ordinal = entry.nextOrdinal then
            some (.success, { team with orderedActiveGeneration := some team.orderedGeneration })
          else none

/-- `afs_omp_ordered_exit` of a member of a team. -/
def orderedExit (team : OrderedContext) (workspace : OrderedWorkspaceState) :
    OrderedStatus × OrderedContext × OrderedWorkspaceState :=
  match team.orderedActiveGeneration with
  | none => (.invalidOrdered, team, workspace)
  | some generation =>
      let team := { team with orderedActiveGeneration := none }
      match workspace.generations generation with
      | none => (.invalidOrdered, team, workspace)
      | some entry =>
          (.success, team, workspace.set generation (some { entry with nextOrdinal := i128 (entry.nextOrdinal + 1) }))

/-! ## A team at work -/

structure OrderedLoop where
  lower : Int64
  upper : Int64
  step : Int64
  step_ne : step ≠ 0

def OrderedLoop.iterations (loop : OrderedLoop) : List Int :=
  fortranLoop loop.lower.toInt loop.upper.toInt loop.step.toInt

/-- The loops all members run, and which iterations are whose. Each member may take its own in any order. -/
structure OrderedPlan (n : Nat) where
  loops : List OrderedLoop
  share : Nat → Fin n → List Int64
  covers : ∀ l loop, loops[l]? = some loop →
    ((List.finRange n).flatMap fun m => (share l m).map Int64.toInt).Perm loop.iterations

/-- A member: its context, how many loops it has begun, the iterations of the last one that are left, and whether it is
inside the ordered region of the first of them. -/
structure OrderedMember where
  team : OrderedContext
  begun : Nat := 0
  todo : List Int64 := []
  inside : Bool := false

inductive OrderedCall
  | prepare
  | enter (iteration : Int64)
  | exit
  deriving DecidableEq, Repr

/-- A call that has returned, with the number of the loop it was made in. -/
structure OrderedEvent where
  loop : Nat
  call : OrderedCall
  status : OrderedStatus
  deriving DecidableEq, Repr

def OrderedEvent.entered (l : Nat) (e : OrderedEvent) : Option Int :=
  match e.call with
  | .enter iteration => if e.loop = l ∧ e.status = .success then some iteration.toInt else none
  | _ => none

structure OrderedTeam (n : Nat) where
  members : Fin n → OrderedMember
  workspace : OrderedWorkspaceState
  log : List OrderedEvent

namespace OrderedTeam

variable {n : Nat}

def returned (s : OrderedTeam n) (m : Fin n) (member : OrderedMember) (workspace : OrderedWorkspaceState)
    (event : OrderedEvent) : OrderedTeam n :=
  { members := Function.update s.members m member, workspace := workspace, log := s.log ++ [event] }

/-- The next call of member `m`; `none` when it waits or is done. -/
def step (plan : OrderedPlan n) (m : Fin n) (s : OrderedTeam n) : Option (OrderedTeam n) :=
  let member := s.members m
  if member.inside then
    let (status, team, workspace) := orderedExit member.team s.workspace
    some (s.returned m { member with team, todo := member.todo.tail, inside := false } workspace
      { loop := member.begun - 1, call := .exit, status })
  else match member.todo with
    | iteration :: _ =>
        (plan.loops[member.begun - 1]?).bind fun loop =>
          (orderedEnter iteration loop.lower loop.step member.team s.workspace).map fun r =>
            s.returned m { member with team := r.2, inside := true } s.workspace
              { loop := member.begun - 1, call := .enter iteration, status := r.1 }
    | [] =>
        if member.begun < plan.loops.length then
          let (status, team, workspace) := orderedPrepare member.team s.workspace
          some (s.returned m { member with team, begun := member.begun + 1, todo := plan.share member.begun m } workspace
            { loop := member.begun, call := .prepare, status })
        else none

/-- The members make their calls in the given order; one that cannot go on is passed over. -/
def run (plan : OrderedPlan n) : List (Fin n) → OrderedTeam n → OrderedTeam n
  | [], s => s
  | m :: ms, s => run plan ms ((s.step plan m).getD s)

def initial (teamSize : Int32) : OrderedTeam n :=
  { members := fun _ => { team := { teamSize := teamSize } }, workspace := { generations := fun _ => none }, log := [] }

def entries (s : OrderedTeam n) (l : Nat) : List Int := s.log.filterMap (OrderedEvent.entered l)

end OrderedTeam

end Armfortas.Runtime.Openmp
