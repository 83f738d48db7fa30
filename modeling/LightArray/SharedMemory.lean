import LightArray.AccessPaths
import LightArray.Cells
import LightArray.ZipMap

/-! Reads and writes of arrays (`python.rs`, `array.rs`) in one memory, addressed
by the byte where an element starts. The cache of a strided view is a buffer of
this memory like any other. -/
namespace LightArray
open MachineWord RowMajor Cells

/-- What a call gives back; `delegated` when NumPy is asked instead. -/
inductive Outcome (F : Type)
  | done
  | data (shape : List ℕ) (values : List F)
  | view (a : PyArray)
  | raised (e : Failure)
  | delegated

/-- An `&Array<f64>`: its dims and its elements, as they are when read. -/
structure ArrayRef (F : Type) where
  dims : Dims DType.float64.itemsize
  len : ℕ
  get : (ℕ → F) → ℕ → F

/-- Do two arrays share any memory? -/
def overlaps (a b : ℕ × ℕ) : Bool := decide (a.1 < b.2) && decide (b.1 < a.2)

/-- The right operand of an in-place operator. -/
inductive InplaceOperand (F : Type)
  | array (b : PyArray) (float64 : b.dtype = .float64)
  | scalar (v : F)

variable {F : Type}

/-- What a kernel that only reads sees of an array. -/
def ArrayRef.value (x : ArrayRef F) (mem : ℕ → F) : NdArray .float64 F :=
  ⟨x.dims, (List.range x.len).map (x.get mem)⟩

namespace PyArray

/-- Reload the cache of a strided view from the base's memory (`gather_from`). -/
def refresh (a : PyArray) (mem : ℕ → F) : ℕ → F :=
  storeEach (fun p => a.elementPtr p.1) (fun mem p => mem p.2) a.refreshReads mem

def arr (a : PyArray) (mem : ℕ → F) : ℕ → F := if a.strided.isSome then a.refresh mem else mem

def arrMut (a : PyArray) (mem : ℕ → F) : ℕ → F := if a.strided.isSome then a.refresh mem else mem

/-- Write the cache of a strided view back to the base (`scatter_to`): the walk of
`refresh` in the other direction. -/
def commit (a : PyArray) (mem : ℕ → F) : ℕ → F :=
  storeEach (fun p => p.2) (fun mem p => mem (a.elementPtr p.1)) a.refreshReads mem

/-- `data()`. -/
def data (a : PyArray) (mem : ℕ → F) : List F := (List.range a.len).map fun k => mem (a.elementPtr k)

/-- `as_f64`. -/
def asF64 (a : PyArray) (h : a.dtype = .float64) : ArrayRef F :=
  ⟨h ▸ a.dims, a.len, fun mem k => mem (a.elementPtr k)⟩

/-- A copy in a buffer of its own. -/
def clone (a : PyArray) (h : a.dtype = .float64) (mem : ℕ → F) : ArrayRef F :=
  ⟨h ▸ a.dims, a.len, fun _ k => mem (a.elementPtr k)⟩

/-- `self = f(self)` element-wise in place. -/
def mapInplace (f : F → F) (a : PyArray) (mem : ℕ → F) : ℕ → F :=
  storeEach a.elementPtr (fun mem k => f (mem (a.elementPtr k))) (List.range a.len) mem

/-- `self = f(self, other)` element-wise in place, with `other` broadcast. -/
def zipMapInplace (f : F → F → F) (a : PyArray) (h : a.dtype = .float64) (other : ArrayRef F) (mem : ℕ → F) :
    Except Failure (ℕ → F) :=
  let x := a.asF64 h
  if x.dims = other.dims then
    .ok (storeEach a.elementPtr (fun mem k => f (x.get mem k) (other.get mem k)) (List.range (min x.len other.len)) mem)
  else do
    let out ← broadcastShape x.dims.shape other.dims.shape
    if out ≠ x.dims.shape then
      .error (.array (.message ("non-broadcastable output operand with shape " ++ shapeStr x.dims.shape ++
        " doesn't match the broadcast shape " ++ shapeStr out)))
    else
      let result ← NdArray.zipMap f (x.value mem) (other.value mem)
      if result.data.length ≠ x.len then
        .error (.panic "copy_from_slice: source slice length does not match destination slice length")
      else
        .ok (storeEach a.elementPtr (fun mem k => result.data.getD k (x.get mem k)) (List.range x.len) mem)

/-- `a[i, j, ...] = value` for a full integer index of a contiguous array. -/
def set (a : PyArray) (indices : List ℤ) (value : F) (mem : ℕ → F) : Except Failure (ℕ → F) := do
  let (offset, d) ← a.dims.locate indices
  if d.ndim ≠ 0 then
    .error (.array (.message ("setting an array element with a sequence: " ++ toString indices.length ++
      " indices given for a " ++ toString a.dims.ndim ++ "-dimensional array")))
  else if offset < a.len then .ok (Function.update mem (a.elementPtr offset) value)
  else .error (.panic "index out of bounds")

/-- `__setitem__` with an index of integers and a scalar of the array's own kind. -/
def setItem (a : PyArray) (idx : List ℤ) (value : F) (mem : ℕ → F) : (ℕ → F) × Outcome F :=
  if idx.length ≠ a.dims.ndim then (mem, .delegated)
  else if ∃ i ∈ idx, i < -(2^63) ∨ 2^63 ≤ i then
    (mem, .raised (.python .overflowError "Python int too large to convert to C long"))
  else
    match a.stridedElement idx with
    | .error e => (mem, .raised e)
    -- a strided view: straight into the base
    | .ok (some p) => (Function.update mem p value, .done)
    | .ok none =>
      match a.set idx value (a.arrMut mem) with
      | .error e => (a.arrMut mem, .raised e)
      | .ok mem' => (a.commit mem', .done)

/-- `fill` with a scalar. -/
def fill (a : PyArray) (value : F) (mem : ℕ → F) : (ℕ → F) × Outcome F :=
  let mem := a.arrMut mem
  if a.dtype = .float64 then (a.commit (a.mapInplace (fun _ => value) mem), .done) else (mem, .delegated)

/-- In-place operator `self OP= other`. -/
def inplaceOp (f : F → F → F) (a : PyArray) (other : InplaceOperand F) (mem : ℕ → F) :
    (ℕ → F) × Outcome F :=
  match other with
  | .array b hb =>
    -- `classify` reads the operand before the target is refreshed
    let mem := a.arrMut (b.arr mem)
    if ha : a.dtype = .float64 then
      let operand := if overlaps a.span b.span then b.clone hb mem else b.asF64 hb
      match a.zipMapInplace f ha operand mem with
      | .error e => (mem, .raised e)
      | .ok mem' => (a.commit mem', .done)
    else (mem, .delegated)
  | .scalar v =>
    let mem := a.arrMut mem
    if a.dtype = .float64 then (a.commit (a.mapInplace (fun x => f x v) mem), .done) else (mem, .delegated)

/-- A reader of the whole array. -/
def read (a : PyArray) (mem : ℕ → F) : (ℕ → F) × Outcome F :=
  (a.arr mem, .data a.shape (a.data (a.arr mem)))

/-- `__getitem__` with an index of integers. -/
def element (a : PyArray) (idx : List ℤ) (alloc : ℕ) (mem : ℕ → F) : (ℕ → F) × Outcome F :=
  match a.getItem mem alloc (idx.map .int) with
  | .error e => (mem, .raised e)
  | .ok (.scalar v) => (mem, .data [] [v])
  | .ok (.array b) => (mem, .view b)

end PyArray

/-- An array reached from the owner `o` by basic indexing. -/
structure View (o : PyArray) where
  steps : List Step
  array : PyArray
  chain : Chain (fun p => p) o steps array

/-- The operations of a run; an index is full. -/
inductive SharedOp (F : Type) (o : PyArray)
  | setItem (a : View o) (idx : List ℤ) (full : idx.length = a.array.shape.length) (value : F)
  | fill (a : View o) (value : F)
  | inplaceScalar (f : F → F → F) (a : View o) (value : F)
  | inplaceArray (f : F → F → F) (a b : View o) (float64 : b.array.dtype = .float64)
  | read (a : View o)
  | element (a : View o) (idx : List ℤ) (full : idx.length = a.array.shape.length) (alloc : ℕ)

namespace SharedOp

variable {o : PyArray}

def run : SharedOp F o → (ℕ → F) → (ℕ → F) × Outcome F
  | .setItem a idx _ value, mem => a.array.setItem idx value mem
  | .fill a value, mem => a.array.fill value mem
  | .inplaceScalar f a value, mem => a.array.inplaceOp f (.scalar value) mem
  | .inplaceArray f a b hb, mem => a.array.inplaceOp f (.array b.array hb) mem
  | .read a, mem => a.array.read mem
  | .element a idx _ alloc, mem => a.array.element idx alloc mem

/-- The memory after a sequence of operations, and what each of them gave back. -/
def runAll : List (SharedOp F o) → (ℕ → F) → (ℕ → F) × List (Outcome F)
  | [], mem => (mem, [])
  | op :: ops, mem =>
    let (mem', outcome) := op.run mem
    let (final, outcomes) := runAll ops mem'
    (final, outcome :: outcomes)

/-- The array an operation writes or reads. -/
def target : SharedOp F o → View o
  | .setItem a .. | .fill a _ | .inplaceScalar _ a _ | .inplaceArray _ a .. | .read a | .element a .. => a

/-- The arrays an operation is about. -/
def views : SharedOp F o → List (View o)
  | .setItem a .. | .fill a _ | .inplaceScalar _ a _ | .read a | .element a .. => [a]
  | .inplaceArray _ a b _ => [a, b]

end SharedOp

end LightArray
