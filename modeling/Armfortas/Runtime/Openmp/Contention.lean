import Mathlib.Algebra.Ring.Nat
import Mathlib.Data.List.Basic

/-! Nested parallel regions take their threads from one counter. The tasks of a group form a tree: a task inside a
region waits until the members of the region have ended. A load, an exchange and a release of the counter are one step
each. -/
namespace Armfortas.Runtime.Openmp

structure RuntimeConfig where
  threadLimit : Int32
  dynamic : Bool
  maxActiveLevels : Nat
  numProcessors : Int32

structure ContentionGroup where
  limit : Nat
  activeThreads : Nat
  deriving DecidableEq

namespace ContentionGroup

def new (limit : Int32) : ContentionGroup := { limit := (max limit.toInt 1).toNat, activeThreads := 1 }

/-- What `reserve_additional` asks for when it has seen `current`. -/
def granted (group : ContentionGroup) (requested current : Nat) : Nat := min requested (group.limit - current)

/-- `fetch_sub` wraps around. -/
def release (group : ContentionGroup) (count : Nat) : ContentionGroup :=
  if 0 < count then { group with activeThreads := (group.activeThreads + (2 ^ 64 - count)) % 2 ^ 64 } else group

end ContentionGroup

def determineTeamSize (config : RuntimeConfig) (ifValue requestedThreads fallbackThreads : Int32)
    (parentActiveLevel : Nat) : Int32 :=
  if ifValue = 0 ∨ config.maxActiveLevels ≤ parentActiveLevel then 1
  else
    let teamSize := min (max (if 0 < requestedThreads then requestedThreads else fallbackThreads) 1) config.threadLimit
    if config.dynamic then min teamSize config.numProcessors else teamSize

/-- `usize::try_from(requested_team_size.saturating_sub(1)).unwrap_or(usize::MAX)`. -/
def requestedAdditional (teamSize : Int32) : Nat :=
  if 0 ≤ teamSize.toInt - 1 then (teamSize.toInt - 1).toNat else 2 ^ 64 - 1

/-- A thread at work on behalf of the group. -/
inductive Task
  | running
  /-- in the loop of `reserve_additional`, with the count it has seen last -/
  | reserving (requested current : Nat)
  /-- in a region, until its members have ended -/
  | region (reserved : Nat) (members : List Task)
  | ended (panicked : Bool)

/-- Steps of `afs_omp_parallel_region` and of the tasks. Of the members of a region only those are there that could be
spawned; the region is left when all of them have ended, whether they panicked or not. -/
inductive Task.Step (config : RuntimeConfig) : ContentionGroup → Task → ContentionGroup → Task → Prop
  | load {group : ContentionGroup} (ifValue requestedThreads fallbackThreads : Int32) (level : Nat) :
      Step config group .running group (.reserving
        (requestedAdditional (determineTeamSize config ifValue requestedThreads fallbackThreads level)) group.activeThreads)
  | refused {group : ContentionGroup} {requested current spawned : Nat} : group.granted requested current = 0 →
      spawned ≤ 1 → Step config group (.reserving requested current) group (.region 0 (.replicate spawned .running))
  | exchanged {group : ContentionGroup} {requested spawned : Nat} :
      group.granted requested group.activeThreads ≠ 0 → spawned ≤ group.granted requested group.activeThreads + 1 →
      Step config group (.reserving requested group.activeThreads)
        { group with activeThreads := group.activeThreads + group.granted requested group.activeThreads }
        (.region (group.granted requested group.activeThreads) (.replicate spawned .running))
  -- the weak exchange may fail even if the count is the one seen
  | observed {group : ContentionGroup} {requested current : Nat} : group.granted requested current ≠ 0 →
      Step config group (.reserving requested current) group (.reserving requested group.activeThreads)
  | ended {group : ContentionGroup} (panicked : Bool) : Step config group .running group (.ended panicked)
  | member {group group' : ContentionGroup} {reserved : Nat} {before after : List Task} {task task' : Task} :
      Step config group task group' task' →
      Step config group (.region reserved (before ++ task :: after)) group' (.region reserved (before ++ task' :: after))
  | left {group : ContentionGroup} {reserved : Nat} {members : List Task} :
      (∀ task ∈ members, ∃ panicked, task = .ended panicked) →
      Step config group (.region reserved members) (group.release reserved) .running

/-- What comes about in a group from the outermost region on, which makes the group. The last thing is that its caller
runs on. -/
inductive Task.Reached (config : RuntimeConfig) : ContentionGroup → Task → Prop
  | outermost (ifValue requestedThreads fallbackThreads : Int32) : Reached config (.new config.threadLimit) (.reserving
      (requestedAdditional (determineTeamSize config ifValue requestedThreads fallbackThreads 0)) 1)
  | step {group group' : ContentionGroup} {task task' : Task} : Reached config group task → task ≠ .running →
      Step config group task group' task' → Reached config group' task'

end Armfortas.Runtime.Openmp
