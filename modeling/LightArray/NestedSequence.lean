import LightArray.Dims
import LightArray.OrderedTree

/-! Nested Python lists and tuples (`nested_sequence`): the walk that discovers
shape, dtype and data while it recurses. -/
namespace LightArray
open MachineWord OrderedTree

/-- A Python object that is no list or tuple. -/
inductive Scalar (F : Type)
  | float (x : F)
  | bool (b : Bool)
  | int (i : ℤ)
  | other
  deriving DecidableEq

/-- A nested Python sequence. -/
abbrev PySequence (F : Type) := Rose (Scalar F)

/-- An owned array of one of the native dtypes. -/
inductive AnyArray (F : Type)
  | f64 (dims : Dims 8) (data : List F)
  | i64 (dims : Dims 8) (data : List ℤ)
  | bool (dims : Dims 1) (data : List Bool)
  deriving DecidableEq

/-- State of a walk over nested sequences. Integers are kept exactly until a
float shows up. -/
structure Walk (F : Type) where
  dims : List ℕ
  floats : List F
  ints : List ℤ
  sawFloat : Bool
  sawInt : Bool
  sawBool : Bool

section walk

variable {F : Type} (ofInt : ℤ → F)

def Walk.start : Walk F := ⟨[], [], [], false, false, false⟩

/-- The checks `walk_items` makes on a sequence of `len` items at `depth`. -/
def Walk.enter (depth len : ℕ) (w : Walk F) : Option (Walk F) :=
  if depth = w.dims.length then
    if maxNdim < depth+1 then none else some {w with dims := w.dims ++ [len]}
  else if w.dims.getD depth 0 ≠ len then none
  else some w

/-- One item of a sequence at `depth` that is no sequence itself; `ofInt` is the
conversion `as f64`. -/
def Walk.push (depth : ℕ) (item : Scalar F) (w : Walk F) : Option (Walk F) :=
  match item with
  | .float x =>
    if depth+1 ≠ w.dims.length then none
    else some {w with floats := w.floats ++ [x], sawFloat := true}
  | .bool b =>
    if depth+1 ≠ w.dims.length then none
    else some {w with
      floats := w.floats ++ [ofInt b.toInt]
      ints := if w.sawFloat then w.ints else w.ints ++ [b.toInt]
      sawBool := true}
  | .int i =>
    if depth+1 ≠ w.dims.length then none
    -- beyond int64 NumPy decides
    else if i < -(2^63) ∨ 2^63 ≤ i then none
    else some {w with
      floats := w.floats ++ [ofInt i]
      ints := if w.sawFloat then w.ints else w.ints ++ [i]
      sawInt := true}
  | .other => none

mutual

/-- One item of a sequence at `depth`. -/
def walkItem (depth : ℕ) : PySequence F → Walk F → Option (Walk F)
  | .leaf item, w => w.push ofInt depth item
  | .seq items, w => do
    let w ← w.enter (depth+1) items.length
    walkItems (depth+1) items w

/-- The loop of `walk_items` over the items of a sequence at `depth`. -/
def walkItems (depth : ℕ) : List (PySequence F) → Walk F → Option (Walk F)
  | [], w => some w
  | item :: items, w => do
    let w ← walkItem depth item w
    walkItems depth items w

end

/-- The walk from the root; false for an object that is no sequence. -/
def walk : PySequence F → Option (Walk F)
  | .leaf _ => none
  | .seq items => do
    let w ← Walk.start.enter 0 items.length
    walkItems ofInt 0 items w

/-- The array a nested sequence maps to; none leaves the input to NumPy. -/
def nestedSequence (obj : PySequence F) : Except Failure (Option (AnyArray F)) :=
  match walk ofInt obj with
  | none => .ok none
  | some w =>
    -- mixed scalars and sequences at one level slip past the walk
    if w.floats.length ≠ wrapProduct w.dims then .ok none
    else if w.sawFloat || !(w.sawInt || w.sawBool) then do
      let d ← Dims.checked w.dims 8 w.floats.length
      .ok (some (.f64 d w.floats))
    else if w.sawInt then do
      let d ← Dims.checked w.dims 8 w.ints.length
      .ok (some (.i64 d w.ints))
    else do
      let data := w.ints.map (· != 0)
      let d ← Dims.checked w.dims 1 data.length
      .ok (some (.bool d data))

end walk

section meaning

variable {F : Type} (ofInt : ℤ → F)

namespace Scalar

/-- A float, a bool or an int64-range integer. -/
def Native : Scalar F → Prop
  | .float _ => True
  | .bool _ => True
  | .int i => -(2^63) ≤ i ∧ i < 2^63
  | .other => False

def isFloat : Scalar F → Bool
  | .float _ => true
  | _ => false

def isInt : Scalar F → Bool
  | .int _ => true
  | _ => false

def isBool : Scalar F → Bool
  | .bool _ => true
  | _ => false

/-- The value as float64. -/
def toFloat : Scalar F → F
  | .float x => x
  | .bool b => ofInt b.toInt
  | .int i => ofInt i
  | .other => ofInt 0

/-- The value as int64. -/
def toInt : Scalar F → ℤ
  | .bool b => b.toInt
  | .int i => i
  | _ => 0

def truth : Scalar F → Bool
  | .bool b => b
  | _ => false

end Scalar

/-- Float64 for a float or no leaf at all, int64 for an integer and no float,
bool for bools only. -/
def inferredDType (leaves : List (Scalar F)) : DType :=
  if leaves.any Scalar.isFloat || leaves.isEmpty then .float64
  else if leaves.any Scalar.isInt then .int64
  else .bool

/-- The array with these leaves as its data. -/
def Represents (obj : PySequence F) : AnyArray F → Prop
  | .f64 d data =>
    inferredDType obj.leaves = .float64 ∧ Rose.ShapeOf [obj] d.shape ∧
      data = obj.leaves.map (Scalar.toFloat ofInt)
  | .i64 d data =>
    inferredDType obj.leaves = .int64 ∧ Rose.ShapeOf [obj] d.shape ∧
      data = obj.leaves.map Scalar.toInt
  | .bool d data =>
    inferredDType obj.leaves = .bool ∧ Rose.ShapeOf [obj] d.shape ∧
      data = obj.leaves.map Scalar.truth

/-- At each depth leaves only or sequences of one common length, native leaves,
and at most 8 levels of sequences. -/
structure Rectangular (obj : PySequence F) : Prop where
  uniform : Rose.Uniform [obj]
  native : ∀ x ∈ obj.leaves, x.Native
  levels : ∀ x ∈ Rose.level maxNdim [obj], x.isSeq = false

end meaning

end LightArray
