import Mathlib.Data.List.Basic
import Armfortas.Lib.Progression

/-! The functions that hand out the iterations of a worksharing loop, and those that number the iterations of two
collapsed loops. Bounds and steps are `i64`, the arithmetic in between is `i128`. Output pointers are not null. -/
namespace Armfortas.Runtime.Openmp
open Lib

def i128 (x : Int) : Int := x.bmod (2 ^ 128)

def loopIterationCount (lower upper step : Int) : Int :=
  if 0 < step then
    if upper < lower then 0 else i128 ((i128 (upper - lower)).tdiv step + 1)
  else if lower < upper then 0
  else i128 ((i128 (lower - upper)).tdiv (i128 (-step)) + 1)

/-- What is reported back: a negative code, zero, or one with `first` and `last` written. -/
inductive Bounds
  | invalid
  | empty
  | interval (first last : Int64)
  deriving DecidableEq, Repr

/-- The interval of `localIterations` iterations from number `firstIndex` on. -/
def localInterval (lower step firstIndex localIterations : Int) : Bounds :=
  let localFirst := i128 (lower + i128 (firstIndex * step))
  let localLast := i128 (localFirst + i128 (i128 (localIterations - 1) * step))
  .interval (.ofInt localFirst) (.ofInt localLast)

def staticBounds (lower upper step : Int64) (threadNum teamSize : Int32) : Bounds :=
  if step = 0 ∨ teamSize ≤ 0 ∨ threadNum < 0 ∨ teamSize ≤ threadNum then .invalid
  else
    let iterations := loopIterationCount lower.toInt upper.toInt step.toInt
    if iterations = 0 then .empty
    else
      let base := iterations.tdiv teamSize.toInt
      let remainder := iterations.tmod teamSize.toInt
      let localIterations := i128 (base + if threadNum.toInt < remainder then 1 else 0)
      if localIterations = 0 then .empty
      else
        let firstIndex := i128 (i128 (threadNum.toInt * base) + min threadNum.toInt remainder)
        localInterval lower.toInt step.toInt firstIndex localIterations

def staticChunkBounds (lower upper step chunkSize : Int64) (threadNum teamSize : Int32) (chunkIndex : Int64) : Bounds :=
  if step = 0 ∨ chunkSize ≤ 0 ∨ teamSize ≤ 0 ∨ threadNum < 0 ∨ teamSize ≤ threadNum ∨ chunkIndex < 0 then .invalid
  else
    let iterations := loopIterationCount lower.toInt upper.toInt step.toInt
    let globalChunk := i128 (threadNum.toInt + i128 (chunkIndex.toInt * teamSize.toInt))
    let totalChunks := (i128 (i128 (iterations + chunkSize.toInt) - 1)).tdiv chunkSize.toInt
    if totalChunks ≤ globalChunk then .empty
    else
      let firstIndex := i128 (globalChunk * chunkSize.toInt)
      let localIterations := min chunkSize.toInt (i128 (iterations - firstIndex))
      localInterval lower.toInt step.toInt firstIndex localIterations

/-- The cursor the members of a team share. -/
structure DynamicWorkspace where
  nextIndex : Int := 0
  deriving DecidableEq, Repr

/-- `afs_omp_dynamic_bounds` of a member of a team. The cursor moves under the lock. -/
def dynamicBounds (lower upper step chunkSize : Int64) (workspace : DynamicWorkspace) : Bounds × DynamicWorkspace :=
  if step = 0 ∨ chunkSize ≤ 0 then (.invalid, workspace)
  else
    let iterations := loopIterationCount lower.toInt upper.toInt step.toInt
    let firstIndex := workspace.nextIndex
    if iterations ≤ firstIndex then (.empty, workspace)
    else
      let localIterations := min chunkSize.toInt (i128 (iterations - firstIndex))
      (localInterval lower.toInt step.toInt firstIndex localIterations,
        { nextIndex := i128 (firstIndex + localIterations) })

/-! ## Collapsed loops -/

def tryI64 (x : Int) : Option Int64 := if -2 ^ 63 ≤ x ∧ x < 2 ^ 63 then some (.ofInt x) else none

/-- `checked_mul` and `checked_add` of `i128`, given the exact result. -/
def checkedI128 (x : Int) : Option Int := if -2 ^ 127 ≤ x ∧ x < 2 ^ 127 then some x else none

structure Collapse2Shape where
  outerCount : Int64
  innerCount : Int64
  totalCount : Int64
  deriving DecidableEq, Repr

/-- `afs_omp_collapse2_shape`; `none` is a failure. -/
def collapse2Shape (outerLower outerUpper outerStep innerLower innerUpper innerStep : Int64) : Option Collapse2Shape :=
  if outerStep = 0 ∨ innerStep = 0 then none
  else do
    let outerIterations := loopIterationCount outerLower.toInt outerUpper.toInt outerStep.toInt
    let innerIterations := loopIterationCount innerLower.toInt innerUpper.toInt innerStep.toInt
    let totalIterations ← checkedI128 (outerIterations * innerIterations)
    let outerCount ← tryI64 outerIterations
    let innerCount ← tryI64 innerIterations
    let totalCount ← tryI64 totalIterations
    pure { outerCount, innerCount, totalCount }

def collapse2Indices (flatIndex outerCount innerCount outerLower outerStep innerLower innerStep : Int64) :
    Option (Int64 × Int64) :=
  if flatIndex < 0 ∨ outerCount ≤ 0 ∨ innerCount ≤ 0 ∨ outerStep = 0 ∨ innerStep = 0 then none
  else if i128 (outerCount.toInt * innerCount.toInt) ≤ flatIndex.toInt then none
  else do
    let outerIndex := flatIndex.toInt.tdiv innerCount.toInt
    let innerIndex := flatIndex.toInt.tmod innerCount.toInt
    let outer ← tryI64 (i128 (outerLower.toInt + i128 (outerIndex * outerStep.toInt)))
    let inner ← tryI64 (i128 (innerLower.toInt + i128 (innerIndex * innerStep.toInt)))
    pure (outer, inner)

/-- Flags of a nonrectangular space: one to three. -/
def validFlags (flags : Int32) : Bool := decide (1 ≤ flags ∧ flags ≤ 3)

/-- Bit zero makes the outer variable the lower bound, bit one the upper bound. -/
def nonrectInnerBounds (outer : Int) (fixedLower fixedUpper : Int64) (flags : Int32) : Option (Int × Int) :=
  if validFlags flags then
    some (if flags &&& 1 ≠ 0 then outer else fixedLower.toInt, if flags &&& 2 ≠ 0 then outer else fixedUpper.toInt)
  else none

/-- The inner iterations of one row, and where they begin. -/
def nonrectRow (outerLower outerStep innerLower innerUpper innerStep : Int64) (flags : Int32) (outerIndex : Int) :
    Option (Int × Int × Int) := do
  let outer := i128 (outerLower.toInt + i128 (outerIndex * outerStep.toInt))
  let (lower, upper) ← nonrectInnerBounds outer innerLower innerUpper flags
  pure (outer, lower, loopIterationCount lower upper innerStep.toInt)

/-- The loop of `afs_omp_collapse2_nonrect_shape`, with `left` rows to go. -/
def nonrectTotal (outerLower outerStep innerLower innerUpper innerStep : Int64) (flags : Int32) :
    Nat → Int → Int → Option Int
  | 0, _, total => some total
  | left + 1, outerIndex, total => do
      let (_, _, innerIterations) ← nonrectRow outerLower outerStep innerLower innerUpper innerStep flags outerIndex
      let total ← checkedI128 (total + innerIterations)
      nonrectTotal outerLower outerStep innerLower innerUpper innerStep flags left (i128 (outerIndex + 1)) total

/-- `afs_omp_collapse2_nonrect_shape`: the number of rows and of iterations. -/
def collapse2NonrectShape (outerLower outerUpper outerStep innerLower innerUpper innerStep : Int64) (flags : Int32) :
    Option (Int64 × Int64) :=
  if outerStep = 0 ∨ innerStep = 0 ∨ !validFlags flags then none
  else do
    let outerIterations := loopIterationCount outerLower.toInt outerUpper.toInt outerStep.toInt
    let outerCount ← tryI64 outerIterations
    let total ← nonrectTotal outerLower outerStep innerLower innerUpper innerStep flags outerIterations.toNat 0 0
    let totalCount ← tryI64 total
    pure (outerCount, totalCount)

/-- The loop of `afs_omp_collapse2_nonrect_indices`. -/
def nonrectFind (outerLower outerStep innerLower innerUpper innerStep : Int64) (flags : Int32) :
    Nat → Int → Int → Option (Int64 × Int64)
  | 0, _, _ => none
  | left + 1, outerIndex, remaining => do
      let (outer, lower, innerIterations) ←
        nonrectRow outerLower outerStep innerLower innerUpper innerStep flags outerIndex
      if remaining < innerIterations then
        let outer ← tryI64 outer
        let inner ← tryI64 (i128 (lower + i128 (remaining * innerStep.toInt)))
        pure (outer, inner)
      else
        nonrectFind outerLower outerStep innerLower innerUpper innerStep flags left (i128 (outerIndex + 1))
          (i128 (remaining - innerIterations))

def collapse2NonrectIndices (flatIndex outerCount outerLower outerStep innerLower innerUpper innerStep : Int64)
    (flags : Int32) : Option (Int64 × Int64) :=
  if flatIndex < 0 ∨ outerCount ≤ 0 ∨ outerStep = 0 ∨ innerStep = 0 ∨ !validFlags flags then none
  else nonrectFind outerLower outerStep innerLower innerUpper innerStep flags outerCount.toInt.toNat 0 flatIndex.toInt

end Armfortas.Runtime.Openmp
