import LightArray.ViewChain

/-! Export through the buffer protocol (`__getbuffer__`) and the layouts a
consumer may ask for. -/
namespace LightArray
open MachineWord RowMajor

/-- Request flags, with the values of CPython's buffer protocol. -/
abbrev BufferFlags := BitVec 32

def pyBufFormat : BufferFlags := 0x4
def pyBufNd : BufferFlags := 0x8
def pyBufStrides : BufferFlags := 0x18
def pyBufCContiguous : BufferFlags := 0x38
def pyBufFContiguous : BufferFlags := 0x58
def pyBufAnyContiguous : BufferFlags := 0x98

/-- All bits of `request` are set. -/
def BufferFlags.includes (flags request : BufferFlags) : Bool := flags &&& request == request

/-- What a pointer of a `Py_buffer` refers to: nothing, the inline arrays of the
exporter's dims, or the strides of its strided view. -/
inductive CellsPtr
  | null
  | dims
  | strided
  deriving DecidableEq, Repr

structure PyBuffer where
  buf : ℕ
  len : ℤ
  readonly : Bool
  itemsize : ℤ
  format : Option String
  ndim : ℕ
  shape : CellsPtr
  strides : CellsPtr
  deriving DecidableEq

namespace PyArray

/-- The fields filled in for an accepted request. -/
def fillBuffer (a : PyArray) (flags : BufferFlags) : PyBuffer where
  buf := a.layoutOf.ptr
  len := asIsize (wrapUsize (a.len*a.itemsize))
  readonly := false
  itemsize := a.itemsize
  format := if flags.includes pyBufFormat then some a.dtype.format else none
  -- without PyBUF_ND the consumer expects a flat contiguous buffer
  ndim := if flags.includes pyBufNd then a.dims.ndim else 1
  shape := if 0 < a.dims.ndim ∧ flags.includes pyBufNd then .dims else .null
  strides :=
    if a.strided.isSome ∧ 0 < a.dims.ndim then .strided
    else if 0 < a.dims.ndim ∧ flags.includes pyBufStrides then .dims
    else .null

def getBuffer (a : PyArray) (flags : BufferFlags) : Except Failure PyBuffer :=
  if a.strided.isSome ∧ ¬ flags.includes pyBufStrides then
    .error (.python .bufferError "ndarray is not C-contiguous")
  else if a.strided.isSome ∧ flags.includes pyBufCContiguous then
    .error (.python .bufferError "ndarray is not C-contiguous")
  else .ok (a.fillBuffer flags)

/-- The shape entries a consumer reads through a buffer of this array. -/
def bufferShape (a : PyArray) (b : PyBuffer) : List ℕ :=
  if b.shape = .null then [] else a.dims.shapeCells.take b.ndim

/-- The stride entries a consumer reads through a buffer of this array. -/
def bufferStrides (a : PyArray) (b : PyBuffer) : List ℤ :=
  match b.strides with
  | .null => []
  | .strided => a.layoutOf.strides.take b.ndim
  | .dims => a.dims.strideCells.take b.ndim

/-- The layout a buffer with shape and strides describes. -/
def bufferLayout (a : PyArray) (b : PyBuffer) : Layout :=
  ⟨b.buf, a.bufferShape b, a.bufferStrides b⟩

end PyArray

namespace Layout

/-- Row-major and without gaps from `ptr` on. -/
def RowMajor (l : Layout) (itemsize : ℕ) : Prop :=
  ∀ idx, InRange l.shape idx → l.addr idx = l.ptr+itemsize*(flat l.shape idx : Word)

/-- Column-major and without gaps from `ptr` on. -/
def ColumnMajor (l : Layout) (itemsize : ℕ) : Prop :=
  ∀ idx, InRange l.shape idx → l.addr idx = l.ptr+itemsize*(flat l.shape.reverse idx.reverse : Word)

/-- Byte strides of the row-major layout of a shape. -/
def rowStrides (itemsize : ℕ) (shape : List ℕ) : List ℤ :=
  (unitStrides shape).map fun p => wrapIsize (itemsize*p : ℕ)

/-- Byte strides of the column-major layout: each axis steps over the ones before. -/
def columnStrides (itemsize : ℕ) (shape : List ℕ) : List ℤ := (rowStrides itemsize shape.reverse).reverse

theorem length_rowStrides (itemsize : ℕ) (shape : List ℕ) :
    (rowStrides itemsize shape).length = shape.length := by
  rw [rowStrides, List.length_map, length_unitStrides]

theorem length_columnStrides (itemsize : ℕ) (shape : List ℕ) :
    (columnStrides itemsize shape).length = shape.length := by
  rw [columnStrides, List.length_reverse, length_rowStrides, List.length_reverse]

theorem dot_rowStrides (itemsize : ℕ) (shape idx : List ℕ) :
    dot idx (strideWords (rowStrides itemsize shape)) = itemsize*(flat shape idx : Word) := by
  have hmap : strideWords (rowStrides itemsize shape) =
      ((unitStrides shape).map (Nat.cast : ℕ → Word)).map ((itemsize : Word)*·) := by
    rw [rowStrides, strideWords, List.map_map, List.map_map]
    apply List.map_congr_left
    intro p _
    simp
  rw [hmap, dot_map_mul, ← dot_natCast, dot_unitStrides]

theorem dot_columnStrides (itemsize : ℕ) {shape idx : List ℕ} (h : idx.length = shape.length) :
    dot idx (strideWords (columnStrides itemsize shape)) =
      itemsize*(flat shape.reverse idx.reverse : Word) := by
  have hlen : idx.reverse.length = (strideWords (rowStrides itemsize shape.reverse)).length := by
    rw [length_strideWords, length_rowStrides, List.length_reverse, List.length_reverse, h]
  have hrev := dot_reverse hlen
  rw [List.reverse_reverse] at hrev
  rw [columnStrides, strideWords, List.map_reverse, ← strideWords, hrev, dot_rowStrides]

/-- Agreement of words is agreement of the `isize` strides themselves. -/
theorem agreeOn_strideWords {shape : List ℕ} {ss es : List ℤ}
    (hs : ∀ s ∈ ss, -(2^63) ≤ s ∧ s < 2^63) (he : ∀ e ∈ es, -(2^63) ≤ e ∧ e < 2^63) :
    AgreeOn shape (strideWords ss) (strideWords es) ↔ AgreeOn shape ss es := by
  induction shape generalizing ss es with
  | nil => simp [AgreeOn]
  | cons d ds ih =>
    cases ss with
    | nil => simp [AgreeOn]
    | cons s ss =>
      cases es with
      | nil => simp [AgreeOn]
      | cons e es =>
        obtain ⟨hs0, hss⟩ := List.forall_mem_cons.mp hs
        obtain ⟨he0, hes⟩ := List.forall_mem_cons.mp he
        have heq : (s : Word) = e ↔ s = e := by
          refine ⟨fun h => ?_, fun h => congrArg _ h⟩
          have hw := wrapIsize_congr h
          rwa [wrapIsize_of_range hs0.1 hs0.2, wrapIsize_of_range he0.1 he0.2] at hw
        simp only [strideWords_cons, AgreeOn, heq, ih hss hes]

theorem range_rowStrides (itemsize : ℕ) (shape : List ℕ) :
    ∀ s ∈ rowStrides itemsize shape, -(2^63) ≤ s ∧ s < 2^63 := by
  intro s hs
  obtain ⟨p, -, rfl⟩ := List.mem_map.mp hs
  exact wrapIsize_range _

section contiguity

variable {l : Layout} {itemsize : ℕ}

/-- A non-empty layout is row-major exactly when the strides of its axes longer
than 1 are the row-major ones. -/
theorem rowMajor_iff (hwf : l.Wf) (hs : ∀ s ∈ l.strides, -(2^63) ≤ s ∧ s < 2^63)
    (hpos : 0 < l.shape.prod) :
    l.RowMajor itemsize ↔ AgreeOn l.shape l.strides (rowStrides itemsize l.shape) := by
  rw [← agreeOn_strideWords hs (range_rowStrides itemsize l.shape), ← dot_eq_iff_agreeOn
    (by rw [length_strideWords, hwf.strides_length])
    (by rw [length_strideWords, length_rowStrides]) hpos]
  apply forall₂_congr
  intro idx _
  rw [Layout.addr, add_right_inj, dot_rowStrides]

theorem columnMajor_iff (hwf : l.Wf) (hs : ∀ s ∈ l.strides, -(2^63) ≤ s ∧ s < 2^63)
    (hpos : 0 < l.shape.prod) :
    l.ColumnMajor itemsize ↔ AgreeOn l.shape l.strides (columnStrides itemsize l.shape) := by
  have hcol : ∀ s ∈ columnStrides itemsize l.shape, -(2^63) ≤ s ∧ s < 2^63 := fun s h =>
    range_rowStrides itemsize l.shape.reverse s (List.mem_reverse.mp h)
  rw [← agreeOn_strideWords hs hcol, ← dot_eq_iff_agreeOn
    (by rw [length_strideWords, hwf.strides_length])
    (by rw [length_strideWords, length_columnStrides]) hpos]
  apply forall₂_congr
  intro idx hidx
  rw [Layout.addr, add_right_inj, dot_columnStrides itemsize hidx.length_eq]

/-- Every order of an empty shape is vacuous. -/
theorem columnMajor_of_empty (h : l.shape.prod = 0) : l.ColumnMajor itemsize := by
  intro idx hidx
  exact absurd h hidx.prod_pos.ne'

/-- The test of `is_c_contiguous` finds every row-major layout of non-empty shape. -/
theorem isCContiguous_of_agreeOn (hwf : l.Wf) (hpos : 0 < l.shape.prod)
    (h : AgreeOn l.shape l.strides (rowStrides itemsize l.shape)) :
    l.isCContiguous itemsize = true := by
  obtain ⟨ptr, shape, strides⟩ := l
  have hlen : strides.length = shape.length := hwf.strides_length
  show (contiguousLoop itemsize shape strides).1 = true
  clear hwf
  dsimp only at h hpos
  induction shape generalizing strides with
  | nil => cases strides <;> rfl
  | cons d ds ih =>
    cases strides with
    | nil => simp at hlen
    | cons s ss =>
      rw [List.prod_cons] at hpos
      have hd : 0 < d := Nat.pos_of_mul_pos_right hpos
      have hlen' : ss.length = ds.length := by simpa using hlen
      have htail := ih ss (Nat.pos_of_mul_pos_left hpos) h.2 hlen'
      have hexp := contiguousLoop_run itemsize hlen'
      simp only [contiguousLoop, htail, Bool.true_and, Bool.or_eq_true, beq_iff_eq]
      by_cases h1 : 1 < d
      · exact .inr ((h.1 h1).trans hexp.symm)
      · exact .inl (by omega)

end contiguity

end Layout

end LightArray
