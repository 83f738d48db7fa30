import LightArray.Selection

/-! The Python-visible array as the view operations see it (`python.rs`): where
its elements live, the layouts that indexing composes, and the two paths by
which an index becomes a scalar, a contiguous window or a strided view. -/
namespace LightArray
open MachineWord RowMajor

/-- The array owning a buffer, as its views refer to it. -/
structure Owner where
  dtype : DType
  ptr : ℕ
  len : ℕ
  deriving DecidableEq

/-- A strided view: the owner of the memory, the address of the first element
and the byte strides. -/
structure Strided where
  base : Owner
  ptr : ℕ
  strides : List ℤ
  deriving DecidableEq

/-- `ptr`, `len` and `base` are the storage of `inner`; for a strided view that
is the storage of its cache, and `dims` are the dims of the cache. -/
structure PyArray where
  dtype : DType
  dims : Dims dtype.itemsize
  ptr : ℕ
  len : ℕ
  base : Option Owner
  strided : Option Strided
  deriving DecidableEq

/-- The result of an indexing operation. -/
inductive Value (T : Type)
  | scalar (v : T)
  | array (a : PyArray)
  deriving DecidableEq

/-- Pointer arithmetic in bytes. -/
def wrappingOffset (ptr : ℕ) (bytes : ℤ) : ℕ := asUsize (ptr+bytes)

/-- Where the elements of an array live. -/
structure Layout where
  ptr : ℕ
  shape : List ℕ
  strides : List ℤ
  deriving DecidableEq

namespace Layout

/-- The loop of `Layout::select`; an integer selector drops its axis. -/
def selectLoop (ptr : ℕ) : List PlanAxis → List ℤ → List Selector → Layout
  | p :: plan, stride :: strides, sels =>
    let ptr' := if 0 < p.count then wrappingOffset ptr (wrapIsize (asIsize p.start*stride)) else ptr
    let rest := selectLoop ptr' plan strides sels.tail
    match sels with
    | .int _ :: _ => rest
    | _ => ⟨rest.ptr, p.count :: rest.shape, wrapIsize (p.step*stride) :: rest.strides⟩
  | _, _, _ => ⟨ptr, [], []⟩

/-- Apply a basic-indexing plan. -/
def select (l : Layout) (plan : List PlanAxis) (sels : List Selector) : Layout :=
  selectLoop l.ptr plan l.strides sels

/-- Insert a length-1 axis at `pos` (`None` in an index). -/
def insertAxis (l : Layout) (pos : ℕ) : Except Failure Layout :=
  if l.shape.length = maxNdim then
    .error (.python .valueError "at most 8 dimensions are supported")
  else
    .ok ⟨l.ptr, l.shape.insertIdx (min pos l.shape.length) 1,
      l.strides.insertIdx (min pos l.shape.length) 0⟩

def reversed (l : Layout) : Layout := ⟨l.ptr, l.shape.reverse, l.strides.reverse⟩

/-- The loop of `is_c_contiguous` from the last axis, with the stride expected
of the next one. Axes of length 1 may have any stride. -/
def contiguousLoop (itemsize : ℕ) : List ℕ → List ℤ → Bool × ℤ
  | d :: ds, s :: ss =>
    match contiguousLoop itemsize ds ss with
    | (ok, expected) => (ok && (d == 1 || s == expected), wrapIsize (expected*asIsize d))
  | _, _ => (true, asIsize itemsize)

def isCContiguous (l : Layout) (itemsize : ℕ) : Bool := (contiguousLoop itemsize l.shape l.strides).1

/-- Insert the axes of the `None` entries, in order. -/
def insertAxes (l : Layout) : List ℕ → Except Failure Layout
  | [] => .ok l
  | pos :: rest => do
    let l' ← l.insertAxis pos
    l'.insertAxes rest

end Layout

namespace PyArray

def itemsize (a : PyArray) : ℕ := a.dtype.itemsize

def shape (a : PyArray) : List ℕ := a.dims.shape

/-- The array owning the buffer: its base when it is a view itself. -/
def baseOf (a : PyArray) : Owner :=
  match a.strided with
  | some v => v.base
  | none => a.base.getD ⟨a.dtype, a.ptr, a.len⟩

def layoutOf (a : PyArray) : Layout :=
  match a.strided with
  | some v => ⟨v.ptr, a.dims.shape, v.strides⟩
  | none => ⟨a.ptr, a.dims.shape, a.dims.strides⟩

/-- The element at flat position `k` of the contiguous storage. -/
def elementPtr (a : PyArray) (k : ℕ) : ℕ := wrapUsize (a.ptr+k*a.itemsize)

/-- `Array::filled` in a new buffer at `alloc`. -/
def filled (alloc : ℕ) (t : DType) (shape : List ℕ) : Except Failure PyArray := do
  let d ← Dims.allocated shape t.itemsize
  .ok ⟨t, d, alloc, d.size, none, none⟩

/-- A default-filled array of the given dtype. -/
def zerosLike (alloc : ℕ) (t : DType) (shape : List ℕ) : Except Failure PyArray :=
  filled alloc t shape

/-- A C-contiguous window at `ptr` into the buffer of `base`. -/
def rawViewLike (t : DType) (ptr : ℕ) (shape : List ℕ) (base : Owner) : Except Failure PyArray := do
  let d ← Dims.withItemsize shape t.itemsize
  .ok ⟨t, d, ptr, d.size, some base, none⟩

/-- `dims.size()` elements starting at `offset`, sharing this buffer. -/
def view (a : PyArray) (offset : ℕ) (d : Dims a.dtype.itemsize) : Except Failure PyArray :=
  if wrapUsize (offset+d.size) ≤ a.len then
    .ok ⟨a.dtype, d, a.elementPtr offset, d.size, some a.baseOf, none⟩
  else .error (.panic "view out of bounds")

/-- In-place reshape: same data, new dims. -/
def setShape (a : PyArray) (shape : List ℕ) : Except Failure PyArray :=
  if wrapProduct shape ≠ a.len then
    .error (.array (.sizeMismatch (wrapProduct shape) a.len))
  else do
    let d ← Dims.withItemsize shape a.dtype.itemsize
    .ok {a with dims := d}

/-- The contiguous window a plan selects; none when it is strided. An empty
selection is a new array. -/
def planView (alloc : ℕ) (a : PyArray) (plan : List PlanAxis) (outShape : List ℕ) :
    Except Failure (Option PyArray) :=
  match a.dims.planOutcome plan with
  | .strided => .ok none
  | .empty => do
    let d ← Dims.checked outShape a.dtype.itemsize 0
    .ok (some ⟨a.dtype, d, alloc, 0, none, none⟩)
  | .window offset => do
    let d ← Dims.withItemsize outShape a.dtype.itemsize
    let v ← a.view offset d
    .ok (some v)

/-- Integer indexing of leading axes, as a view of the sub-array. -/
def indexView (a : PyArray) (idx : List ℤ) : Except Failure PyArray := do
  let (offset, d) ← a.dims.locate idx
  a.view offset d

/-- Scalar element of a contiguous array for a full integer index. -/
def get {T : Type} (mem : ℕ → T) (a : PyArray) (idx : List ℤ) : Except Failure (Option T) := do
  let (offset, d) ← a.dims.locate idx
  if d.ndim = 0 then
    if offset < a.len then .ok (some (mem (a.elementPtr offset)))
    else .error (.panic "index out of bounds")
  else .ok none

/-- The pointer walk of `strided_element_at` over the axes. -/
def stridedElementLoop (axis ptr : ℕ) : List ℤ → List ℕ → List ℤ → Except Failure ℕ
  | i :: idx, len :: shape, stride :: strides =>
    let k := if i < 0 then wrapIsize (i+asIsize len) else i
    if k < 0 ∨ asIsize len ≤ k then .error (.array (.indexOutOfBounds i axis len))
    else stridedElementLoop (axis+1) (wrappingOffset ptr (wrapIsize (k*stride))) idx shape strides
  | _, _, _ => .ok ptr

/-- Address of the element at a full integer index of a strided view; none for
other arrays and for partial indices. -/
def stridedElement (a : PyArray) (idx : List ℤ) : Except Failure (Option ℕ) :=
  match a.strided with
  | none => .ok none
  | some v =>
    if idx.length ≠ a.dims.ndim then .ok none
    else do
      let p ← stridedElementLoop 0 v.ptr idx a.dims.shape v.strides
      .ok (some p)

/-- The array described by `l` inside the memory `a` lives in: a contiguous
window when the layout allows, a strided view otherwise. -/
def viewFromLayout (alloc : ℕ) (a : PyArray) (l : Layout) : Except Failure PyArray :=
  if wrapProduct l.shape = 0 then zerosLike alloc a.dtype l.shape
  else if l.isCContiguous a.itemsize then rawViewLike a.dtype l.ptr l.shape a.baseOf
  else do
    let cache ← zerosLike alloc a.dtype l.shape
    .ok {cache with strided := some ⟨a.baseOf, l.ptr, l.strides⟩}

/-- `a.T`: the same memory with the axes reversed. -/
def transposed (alloc : ℕ) (a : PyArray) : Except Failure PyArray :=
  viewFromLayout alloc a a.layoutOf.reversed

/-- `a[i, j]`: a scalar for a full index, a view of the sub-array otherwise. -/
def indexResult {T : Type} (mem : ℕ → T) (alloc : ℕ) (a : PyArray) (idx : List ℤ) :
    Except Failure (Value T) := do
  match ← a.stridedElement idx with
  | some p => .ok (.scalar (mem p))
  | none =>
    if a.strided.isSome then
      let sels := idx.map Selector.int
      let (plan, _) ← a.dims.selectionPlan sels
      let v ← viewFromLayout alloc a (a.layoutOf.select plan sels)
      .ok (.array v)
    else
      match ← a.get mem idx with
      | some v => .ok (.scalar v)
      | none =>
        let v ← a.indexView idx
        .ok (.array v)

/-- The shape with a 1 inserted at every position of `newAxes`, in order. -/
def insertOnes (shape : List ℕ) (newAxes : List ℕ) : List ℕ :=
  newAxes.foldl (fun sh pos => sh.insertIdx (min pos sh.length) 1) shape

/-- The strided path of `select_result`. -/
def selectStrided (alloc : ℕ) (a : PyArray) (plan : List PlanAxis) (sels : List Selector)
    (newAxes : List ℕ) : Except Failure PyArray := do
  let l ← (a.layoutOf.select plan sels).insertAxes newAxes
  viewFromLayout alloc a l

/-- Basic indexing with slices: a contiguous window when possible, a strided
view otherwise. `newAxes` are result positions of `None`. -/
def selectResult (alloc : ℕ) (a : PyArray) (sels : List Selector) (newAxes : List ℕ) :
    Except Failure PyArray := do
  let (plan, outShape) ← a.dims.selectionPlan sels
  if a.strided.isNone then
    match ← planView alloc a plan outShape with
    | some selected =>
      if newAxes.isEmpty then .ok selected
      else selected.setShape (insertOnes outShape newAxes)
    | none => selectStrided alloc a plan sels newAxes
  else selectStrided alloc a plan sels newAxes

end PyArray

/-- An entry of an index tuple; slices are resolved for their axis. -/
inductive Item
  | int (i : ℤ)
  | slice (start stop step : ℤ)
  | newaxis
  deriving DecidableEq, Repr

/-- A step of a chain of views. -/
inductive Step
  | index (key : List Item)
  | transpose
  deriving DecidableEq, Repr

/-- The selectors of an index tuple: its entries other than `None`. -/
def selectors : List Item → List Selector
  | [] => []
  | .int i :: key => .int i :: selectors key
  | .slice start stop step :: key => .slice start stop step :: selectors key
  | .newaxis :: key => selectors key

/-- Result positions of the `None` entries, counting from `out`. -/
def newAxes (out : ℕ) : List Item → List ℕ
  | [] => []
  | .int _ :: key => newAxes out key
  | .slice .. :: key => newAxes (out+1) key
  | .newaxis :: key => out :: newAxes (out+1) key

/-- The entries of an index tuple that is integers only. -/
def onlyInts : List Item → Option (List ℤ)
  | [] => some []
  | .int i :: key => (onlyInts key).map (i :: ·)
  | _ => none

/-- Errors while an index tuple is read: an integer beyond `isize`, or a slice
for an axis the array does not have. -/
def checkKey (ndim axis : ℕ) : List Item → Except Failure Unit
  | [] => .ok ()
  | .newaxis :: key => checkKey ndim axis key
  | .int i :: key =>
    if i < -(2^63) ∨ 2^63 ≤ i then
      .error (.python .overflowError "Python int too large to convert to C long")
    else checkKey ndim (axis+1) key
  | .slice .. :: key =>
    if axis < ndim then checkKey ndim (axis+1) key
    else .error (.python .indexError "too many indices for array")

/-- `a[key]` for a tuple of integers, slices and `None`. -/
def PyArray.getItem {T : Type} (mem : ℕ → T) (alloc : ℕ) (a : PyArray) (key : List Item) :
    Except Failure (Value T) := do
  checkKey a.dims.ndim 0 key
  match onlyInts key with
  | some ints => a.indexResult mem alloc ints
  | none =>
    let v ← a.selectResult alloc (selectors key) (newAxes 0 key)
    .ok (.array v)

/-- One step of a chain of views. -/
def PyArray.runStep {T : Type} (mem : ℕ → T) (alloc : ℕ) (a : PyArray) :
    Step → Except Failure (Value T)
  | .index key => a.getItem mem alloc key
  | .transpose => do
    let v ← a.transposed alloc
    .ok (.array v)

end LightArray
