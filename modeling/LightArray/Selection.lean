import LightArray.Dims

namespace LightArray
open MachineWord RowMajor

/-- One axis of a basic index: an integer, or a slice already resolved with
`slice.indices(len)`. -/
inductive Selector
  | int (i : ℤ)
  | slice (start stop step : ℤ)
  deriving DecidableEq, Repr

/-- What a plan does with one axis. -/
structure PlanAxis where
  start : ℕ
  step : ℤ
  count : ℕ
  deriving DecidableEq, Repr

/-- Normalise a possibly negative index on `axis` of length `len`. -/
def normalizeIndex (len : ℕ) (index : ℤ) (axis : ℕ) : Except Failure ℕ :=
  let i := if index < 0 then wrapIsize (index+asIsize len) else index
  if i < 0 ∨ len ≤ asUsize i then .error (.array (.indexOutOfBounds index axis len))
  else .ok (asUsize i)

/-- Flat offset of the leading axes, one integer each. -/
def locateLoop (axis offset : ℕ) : List ℕ → List ℕ → List ℤ → Except Failure ℕ
  | len :: shape, stride :: strides, index :: indices => do
    let i ← normalizeIndex len index axis
    locateLoop (axis+1) (wrapUsize (offset+wrapUsize (i*stride))) shape strides indices
  | _, _, _ => .ok offset

/-- Length of a resolved slice. -/
def sliceCount (start stop step : ℤ) : ℕ :=
  if 0 < step then
    if start < stop then ((stop-start-1).tdiv step+1).toNat else 0
  else if stop < start then ((start-stop-1).tdiv (-step)+1).toNat else 0

/-- Plan of the remaining axes and the part of the result shape they give. -/
def planLoop (axis : ℕ) : List ℕ → List Selector → Except Failure (List PlanAxis × List ℕ)
  | [], _ => .ok ([], [])
  | len :: shape, .int i :: sels => do
    let i ← normalizeIndex len i axis
    let (plan, out) ← planLoop (axis+1) shape sels
    .ok (⟨i,1,1⟩ :: plan, out)
  | _ :: shape, .slice start stop step :: sels => do
    let (plan, out) ← planLoop (axis+1) shape sels
    .ok (⟨asUsize start,step,sliceCount start stop step⟩ :: plan, sliceCount start stop step :: out)
  | len :: shape, [] => do
    let (plan, out) ← planLoop (axis+1) shape []
    .ok (⟨0,1,len⟩ :: plan, len :: out)

/-- What `plan_view` finds: nothing selected, a block of the buffer at an
element offset, or a selection that is not one block. -/
inductive PlanOutcome
  | empty
  | strided
  | window (offset : ℕ)
  deriving DecidableEq, Repr

/-- The loop of `plan_view` over the axes of the plan, with the running offset
and whether the block has started. -/
def planViewLoop (offset : ℕ) (started : Bool) :
    List PlanAxis → List ℕ → List ℕ → PlanOutcome
  | p :: plan, len :: shape, stride :: strides =>
    if p.count = 0 then .empty
    else if started then
      if p.start = 0 ∧ p.step = 1 ∧ p.count = len then planViewLoop offset true plan shape strides
      else .strided
    else if 1 < p.count then
      if p.step ≠ 1 then .strided
      else planViewLoop (wrapUsize (offset+wrapUsize (p.start*stride))) true plan shape strides
    else planViewLoop (wrapUsize (offset+wrapUsize (p.start*stride))) false plan shape strides
  | _, _, _ => .window offset

namespace Dims

variable {s : ℕ}

/-- Index with one integer per leading axis: the flat offset of the sub-array
addressed and its dims. -/
def locate (d : Dims s) (indices : List ℤ) : Except Failure (ℕ × Dims s) :=
  if d.ndim < indices.length then
    .error (.array (.tooManyIndices indices.length d.ndim))
  else do
    let offset ← locateLoop 0 0 d.shape d.elemStrides indices
    .ok (offset, d.dropLeading indices.length)

/-- Per axis `(start, step, count)` of a basic index, and the result shape. -/
def selectionPlan (d : Dims s) (sels : List Selector) : Except Failure (List PlanAxis × List ℕ) :=
  if d.ndim < sels.length then
    .error (.array (.tooManyIndices sels.length d.ndim))
  else planLoop 0 d.shape sels

/-- The contiguity decision of `plan_view`. -/
def planOutcome (d : Dims s) (plan : List PlanAxis) : PlanOutcome :=
  planViewLoop 0 false plan d.shape d.elemStrides

end Dims

end LightArray
