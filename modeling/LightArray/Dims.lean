import LightArray.RowMajor

/-! Inline shape and C-contiguous byte strides (`dims.rs`), with the failures
that indexing and construction report. -/
namespace LightArray
open MachineWord RowMajor

/-- Maximum number of dimensions handled natively. -/
def maxNdim : ℕ := 8

/-- The native element types. -/
inductive DType
  | float64
  | int64
  | bool
  deriving DecidableEq, Repr

/-- Size of one element in bytes. -/
def DType.itemsize : DType → ℕ
  | .float64 => 8
  | .int64 => 8
  | .bool => 1

/-- Format character of the buffer protocol. -/
def DType.format : DType → String
  | .float64 => "d"
  | .int64 => "l"
  | .bool => "?"

theorem DType.itemsize_pos (t : DType) : 0 < t.itemsize := by cases t <;> decide

theorem DType.itemsize_dvd (t : DType) : (t.itemsize : ℤ) ∣ (wordModulus : ℤ) := by
  cases t <;> decide

/-- An `isize` that is a multiple of the element size. -/
def ByteStride (t : DType) (stride : ℤ) : Prop :=
  (t.itemsize : ℤ) ∣ stride ∧ -(2^63) ≤ stride ∧ stride < 2^63

theorem byteStride_wrapIsize {t : DType} {z : ℤ} (h : (t.itemsize : ℤ) ∣ z) :
    ByteStride t (wrapIsize z) :=
  ⟨dvd_wrapIsize t.itemsize_dvd h, wrapIsize_range z⟩

theorem byteStride_zero (t : DType) : ByteStride t 0 := ⟨dvd_zero _, by decide, by decide⟩

inductive DimsError
  | tooManyDims (n : ℕ)
  deriving DecidableEq, Repr

inductive ArrayError
  | shapeMismatch (a b : List ℕ)
  | sizeMismatch (expected got : ℕ)
  | dims (e : DimsError)
  | indexOutOfBounds (index : ℤ) (axis len : ℕ)
  | tooManyIndices (given ndim : ℕ)
  | message (m : String)
  deriving DecidableEq, Repr

/-- The Python exception classes raised directly by the binding and by its Python
helpers. -/
inductive PyException
  | attributeError
  | axisError
  | bufferError
  | indexError
  | overflowError
  | stopIteration
  | typeError
  | valueError
  | zeroDivisionError
  deriving DecidableEq, Repr

/-- How a call ends without a result: an `ArrayError`, a Python exception
raised by the binding, or a panic. -/
inductive Failure
  | array (e : ArrayError)
  | python (kind : PyException) (text : String)
  | panic (text : String)
  deriving DecidableEq, Repr

theorem bind_eq_ok {ε α β : Type} {x : Except ε α} {f : α → Except ε β} {b : β} :
    (x >>= f) = .ok b ↔ ∃ a, x = .ok a ∧ f a = .ok b := by
  cases x with
  | error e => simp [bind, Except.bind]
  | ok a => simp [bind, Except.bind]

/-- The exception class an `ArrayError` becomes in Python. -/
def ArrayError.exception : ArrayError → PyException
  | .indexOutOfBounds .. => .indexError
  | .tooManyIndices .. => .indexError
  | _ => .valueError

/-- The stride loop of `with_itemsize`, from the last axis to the first: the
strides stored and the running stride left over. -/
def cStrides (itemsize : ℕ) : List ℕ → List ℤ × ℤ
  | [] => ([], asIsize itemsize)
  | d :: ds =>
    match cStrides itemsize ds with
    | (strides, stride) => (stride :: strides, wrapIsize (stride*asIsize d))

/-- Shape and strides of an array whose elements take `itemsize` bytes. Entries
beyond `ndim` of the fixed arrays are zero and not listed. -/
structure Dims (itemsize : ℕ) where
  shape : List ℕ
  strides : List ℤ
  ndim_le : shape.length ≤ maxNdim
  strides_eq : strides = (cStrides itemsize shape).1
  deriving DecidableEq

namespace Dims

variable {s : ℕ}

def withItemsize (shape : List ℕ) (itemsize : ℕ) : Except Failure (Dims itemsize) :=
  if h : shape.length ≤ maxNdim then .ok ⟨shape, (cStrides itemsize shape).1, h, rfl⟩
  else .error (.array (.dims (.tooManyDims shape.length)))

def ndim (d : Dims s) : ℕ := d.shape.length

/-- `size()`: the wrapping product of the shape. -/
def size (d : Dims s) : ℕ := wrapProduct d.shape

/-- Stride of an axis in elements, as `elem_stride` divides it. -/
def elemStrides (d : Dims s) : List ℕ := d.strides.map fun stride => asUsize stride/s

/-- `with_itemsize` followed by the comparison with the buffer's length, as
`Array::new` and `reshape_view` make it. -/
def checked (shape : List ℕ) (itemsize len : ℕ) : Except Failure (Dims itemsize) := do
  let d ← withItemsize shape itemsize
  if d.size ≠ len then
    .error (.array (.sizeMismatch d.size len))
  else
    .ok d

/-- `with_itemsize` followed by the allocation of `size()` elements, as
`Array::filled` makes it. A buffer never exceeds `isize::MAX` bytes. -/
def allocated (shape : List ℕ) (itemsize : ℕ) : Except Failure (Dims itemsize) := do
  let d ← withItemsize shape itemsize
  if isizeMax < d.size*itemsize then
    .error (.panic "capacity overflow")
  else
    .ok d

/-- The same shape for elements of another size. -/
def retyped (d : Dims s) (itemsize : ℕ) : Dims itemsize where
  shape := d.shape
  strides := (cStrides itemsize d.shape).1
  ndim_le := d.ndim_le
  strides_eq := rfl

/-- Dims with the leading axes removed. -/
def dropLeading (d : Dims s) (n : ℕ) : Dims s where
  shape := d.shape.drop n
  strides := (cStrides s (d.shape.drop n)).1
  ndim_le := (List.length_drop ▸ Nat.sub_le ..).trans d.ndim_le
  strides_eq := rfl

/-- What `shape_ptr` points at: the whole fixed array. -/
def shapeCells (d : Dims s) : List ℕ := d.shape ++ List.replicate (maxNdim-d.ndim) 0

/-- What `strides_ptr` points at. -/
def strideCells (d : Dims s) : List ℤ := d.strides ++ List.replicate (maxNdim-d.ndim) 0

end Dims

/-- Every stored stride is the wrapped byte size of the trailing block. -/
theorem cStrides_eq (s : ℕ) (shape : List ℕ) :
    cStrides s shape =
      ((unitStrides shape).map (fun p => wrapIsize (s*p : ℕ)), wrapIsize (s*shape.prod : ℕ)) := by
  induction shape with
  | nil => simp [cStrides, unitStrides, asIsize]
  | cons d ds ih =>
    have hrun : wrapIsize (wrapIsize (s*ds.prod : ℕ)*asIsize d) = wrapIsize (s*(d*ds.prod) : ℕ) := by
      apply wrapIsize_congr
      push_cast [cast_wrapIsize, cast_asIsize]
      ring
    rw [cStrides, ih]
    simp only [unitStrides, List.map_cons, List.prod_cons, hrun]

namespace Dims

variable {s : ℕ}

theorem withItemsize_ok {shape : List ℕ} {d : Dims s} (h : withItemsize shape s = .ok d) :
    d.shape = shape := by
  unfold withItemsize at h
  split at h
  · cases h
    rfl
  · cases h

theorem withItemsize_of_le {shape : List ℕ} (s : ℕ) (h : shape.length ≤ maxNdim) :
    ∃ d : Dims s, withItemsize shape s = .ok d ∧ d.shape = shape :=
  ⟨_, dif_pos h, rfl⟩

theorem checked_ok {shape : List ℕ} {len : ℕ} {d : Dims s} (h : checked shape s len = .ok d) :
    d.shape = shape ∧ d.size = len := by
  obtain ⟨e, he, hif⟩ := bind_eq_ok.mp h
  split at hif
  · cases hif
  · rename_i hsize
    cases hif
    exact ⟨withItemsize_ok he, not_not.mp hsize⟩

theorem allocated_ok {shape : List ℕ} {d : Dims s} (h : allocated shape s = .ok d) :
    d.shape = shape ∧ d.size*s ≤ isizeMax := by
  obtain ⟨e, he, hif⟩ := bind_eq_ok.mp h
  split at hif
  · cases hif
  · rename_i hsize
    cases hif
    exact ⟨withItemsize_ok he, not_lt.mp hsize⟩

theorem checked_iff {len : ℕ} {shape : List ℕ} :
    (∃ d : Dims s, checked shape s len = .ok d) ↔ shape.length ≤ maxNdim ∧ wrapProduct shape = len := by
  constructor
  · rintro ⟨d, hd⟩
    obtain ⟨hs, hsize⟩ := checked_ok hd
    exact ⟨hs ▸ d.ndim_le, by rw [← hsize, size, hs]⟩
  · rintro ⟨hlen, hprod⟩
    obtain ⟨d, hd, hs⟩ := withItemsize_of_le s hlen
    have hsize : d.size = len := by rw [size, hs, hprod]
    exact ⟨d, by simp [checked, hd, hsize, bind, Except.bind]⟩

theorem allocated_iff {shape : List ℕ} :
    (∃ d : Dims s, allocated shape s = .ok d) ↔
      shape.length ≤ maxNdim ∧ wrapProduct shape*s ≤ isizeMax := by
  constructor
  · rintro ⟨d, hd⟩
    obtain ⟨hs, hsize⟩ := allocated_ok hd
    exact ⟨hs ▸ d.ndim_le, by rwa [size, hs] at hsize⟩
  · rintro ⟨hlen, hprod⟩
    obtain ⟨d, hd, hs⟩ := withItemsize_of_le s hlen
    have hsize : ¬ isizeMax < d.size*s := by rw [size, hs, not_lt]; exact hprod
    exact ⟨d, by simp [allocated, hd, hsize, bind, Except.bind]⟩

/-- The strides are a function of the shape, so equal shapes are equal dims. -/
theorem ext_shape {d e : Dims s} (h : d.shape = e.shape) : d = e := by
  cases d
  cases e
  simp_all

theorem strides_eq_map (d : Dims s) :
    d.strides = (unitStrides d.shape).map (fun p => wrapIsize (s*p : ℕ)) := by
  rw [d.strides_eq, cStrides_eq]

/-- Byte strides are multiples of the element size, wrapped or not. -/
theorem byteStrides {t : DType} (d : Dims t.itemsize) : ∀ stride ∈ d.strides, ByteStride t stride := by
  rw [strides_eq_map]
  intro stride h
  obtain ⟨p, -, rfl⟩ := List.mem_map.mp h
  apply byteStride_wrapIsize
  push_cast
  exact dvd_mul_right _ _

theorem length_strides (d : Dims s) : d.strides.length = d.shape.length := by
  rw [strides_eq_map, List.length_map, length_unitStrides]

@[simp] theorem dropLeading_shape (d : Dims s) (n : ℕ) :
    (d.dropLeading n).shape = d.shape.drop n := rfl

/-- Strides of an array that fits in memory are exact. -/
theorem strides_exact (d : Dims s) (h : d.shape.prod ≠ 0) (hfit : s*d.shape.prod ≤ isizeMax) :
    d.strides = (unitStrides d.shape).map (fun p => ((s*p : ℕ) : ℤ)) := by
  rw [strides_eq_map]
  apply List.map_congr_left
  intro p hp
  have hle := Nat.mul_le_mul_left s (le_prod_of_mem_unitStrides h hp)
  exact asIsize_of_le (hle.trans hfit)

theorem elemStrides_exact (d : Dims s) (hs : 0 < s) (h : d.shape.prod ≠ 0)
    (hfit : s*d.shape.prod ≤ isizeMax) : d.elemStrides = unitStrides d.shape := by
  rw [elemStrides, strides_exact d h hfit, List.map_map]
  conv_rhs => rw [← List.map_id (unitStrides d.shape)]
  apply List.map_congr_left
  intro p hp
  have hle := Nat.mul_le_mul_left s (le_prod_of_mem_unitStrides h hp)
  rw [isizeMax_eq] at hfit
  have hu : asUsize ((s*p : ℕ) : ℤ) = s*p := by
    rw [asUsize_of_nonneg (by omega) (by rw [wordModulus_eq]; omega)]
    exact Int.toNat_natCast _
  rw [Function.comp_apply, hu, Nat.mul_div_cancel_left p hs, id]

end Dims

end LightArray
