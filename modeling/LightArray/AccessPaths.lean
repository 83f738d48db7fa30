import LightArray.ArrayRun
import LightArray.BufferContract
import LightArray.WalkStrided

namespace LightArray
open MachineWord RowMajor

/-- `code`, `bits` and `lanes` of an exported tensor's elements. -/
structure DlDataType where
  code : ℕ
  bits : ℕ
  lanes : ℕ
  deriving DecidableEq, Repr

def dlDtype : DType → DlDataType
  | .float64 => ⟨2, 64, 1⟩
  | .int64 => ⟨0, 64, 1⟩
  | .bool => ⟨6, 8, 1⟩

/-- The tensor of a DLPack export, with its own copies of shape and strides. -/
structure DlTensor where
  data : ℕ
  ndim : ℕ
  dtype : DlDataType
  shape : List ℤ
  strides : List ℤ
  deriving DecidableEq

/-- Where a consumer finds an element: strides are in elements. -/
def DlTensor.address (t : DlTensor) (idx : List ℕ) : ℕ :=
  wrappingOffset t.data ((t.dtype.bits/8 : ℕ)*dot idx (t.strides.take t.ndim))

/-- The first cells of a `[i64; MAX_NDIM]`. -/
def fixedCells (cells : List ℤ) : List ℤ := cells ++ List.replicate (maxNdim-cells.length) 0

namespace PyArray

/-- First element and element strides. -/
def elementLayout (a : PyArray) : ℕ × List ℤ :=
  match a.strided with
  | some v => (v.ptr, fixedCells (v.strides.map (·.tdiv a.itemsize)))
  | none => (a.ptr, fixedCells (a.dims.elemStrides.map asIsize))

/-- The tensor `export` puts into its capsule. -/
def exportTensor (a : PyArray) : DlTensor where
  data := a.elementLayout.1
  ndim := a.dims.ndim
  dtype := dlDtype a.dtype
  shape := fixedCells (a.dims.shape.map asIsize)
  strides := a.elementLayout.2

/-- What `refresh` does for a strided view: the flat position of every element
written and the address it is read from. -/
def refreshReads (a : PyArray) : List (ℕ × ℕ) :=
  match a.strided with
  | some v => (walkStrided a.dims.shape v.strides).map fun p => (p.1, wrappingOffset v.ptr p.2)
  | none => []

/-- Every access path finds the element at an index at the address `p`. -/
structure AccessedAt (a : PyArray) (ints : List ℤ) (p : ℕ) : Prop where
  scalar : ∀ alloc, a.indexResult (fun q => q) alloc ints = .ok (.scalar p)
  refresh : a.strided.isSome → let k := flat a.shape (List.zipWith coordinate a.shape ints)
    a.refreshReads[k]? = some (k,p)
  stored : a.strided = none →
    a.elementPtr (flat a.shape (List.zipWith coordinate a.shape ints)) = p
  dlpack : a.exportTensor.address (List.zipWith coordinate a.shape ints) = p
  buffer : ∀ flags b, flags.includes pyBufStrides → a.getBuffer flags = .ok b →
    wrappingOffset b.buf (dot (List.zipWith coordinate a.shape ints) (a.bufferStrides b)) = p

/-- The paths agree on every index in range, and dividing byte strides by the
element size loses nothing. -/
def PathsAgree (a : PyArray) : Prop :=
  (∀ ints, List.Forall₂ (fun (i : ℤ) (d : ℕ) => -(d:ℤ) ≤ i ∧ i < d) ints a.shape →
    ∃ p, a.AccessedAt ints p) ∧
    ∀ s ∈ a.layoutOf.strides, a.itemsize*s.tdiv a.itemsize = s

variable {a : PyArray} {idx : List ℕ}

theorem itemsize_bits (t : DType) : (dlDtype t).bits/8 = t.itemsize := by cases t <;> rfl

/-- An address computed in wrapping arithmetic is the element's when it is so as a word. -/
theorem eq_elementAddress {p : ℕ} (hp : p < wordModulus) (h : (p : Word) = a.layoutOf.addr idx) :
    p = a.elementAddress idx :=
  eq_of_cast_eq hp (wrappingOffset_lt _ _) (h.trans (a.cast_elementAddress idx).symm)

namespace Sound

theorem exact_division (h : a.Sound) : ∀ s ∈ a.layoutOf.strides, a.itemsize*s.tdiv a.itemsize = s :=
  fun s hs => Int.mul_tdiv_cancel' (h.byteStrides s hs).1

theorem refreshReads_getElem? (h : a.Sound) (hidx : InRange a.shape idx) (hs : a.strided.isSome) :
    a.refreshReads[flat a.shape idx]? = some (flat a.shape idx, a.elementAddress idx) := by
  obtain ⟨v, hv⟩ := Option.isSome_iff_exists.mp hs
  have hl : a.layoutOf = ⟨v.ptr, a.dims.shape, v.strides⟩ := by simp only [layoutOf, hv]
  have hlen := h.wf.strides_length
  have hlen' : v.strides.length = a.shape.length := by rwa [hl] at hlen
  obtain ⟨o, ho, hoff⟩ := getElem?_walkStrided hlen' (h.len ▸ h.len_lt) hidx
  have hp : wrappingOffset v.ptr o = a.elementAddress idx := by
    apply eq_elementAddress (wrappingOffset_lt _ _)
    rw [cast_wrappingOffset, hoff, hl]
    rfl
  simp only [refreshReads, hv, List.getElem?_map]
  rw [← shape, ho, Option.map_some, hp]

theorem elementPtr_flat (hs : a.strided = none) :
    a.elementPtr (flat a.shape idx) = a.elementAddress idx := by
  apply eq_elementAddress (wrapUsize_lt _)
  rw [cast_wrapUsize, addr_plain hs]
  push_cast
  ring

theorem dot_elementStrides (h : a.Sound) (hidx : InRange a.shape idx) :
    ((a.itemsize*dot idx (a.elementLayout.2.take a.dims.ndim) : ℤ) : Word) =
      dot idx (strideWords a.layoutOf.strides) := by
  have hlen := h.wf.strides_length
  rw [layout_shape, shape] at hlen
  push_cast
  rw [dot_map_cast]
  cases hv : a.strided with
  | some v =>
    have hl : a.layoutOf = ⟨v.ptr, a.dims.shape, v.strides⟩ := by simp only [layoutOf, hv]
    have hexact := h.exact_division
    rw [hl] at hlen hexact ⊢
    dsimp only at hlen hexact ⊢
    have htake : (a.elementLayout.2.take a.dims.ndim) = v.strides.map (·.tdiv a.itemsize) := by
      simp only [elementLayout, hv, fixedCells]
      exact List.take_left' (by rw [List.length_map, hlen, Dims.ndim])
    rw [htake, ← dot_map_mul, List.map_map, List.map_map, strideWords]
    congr 1
    apply List.map_congr_left
    intro s hs
    rw [Function.comp_apply, Function.comp_apply, ← Int.cast_natCast, ← Int.cast_mul, hexact s hs]
  | none =>
    have he : a.dims.elemStrides = unitStrides a.shape :=
      Dims.elemStrides_exact a.dims a.dtype.itemsize_pos hidx.prod_pos.ne' h.fits
    have htake : (a.elementLayout.2.take a.dims.ndim) = (unitStrides a.shape).map asIsize := by
      simp only [elementLayout, hv, fixedCells, he]
      exact List.take_left' (by rw [List.length_map, length_unitStrides, Dims.ndim, shape])
    have hword : ((unitStrides a.shape).map asIsize).map (Int.cast : ℤ → Word) =
        (unitStrides a.shape).map Nat.cast := by
      rw [List.map_map]
      apply List.map_congr_left
      intro p _
      exact cast_asIsize p
    rw [htake, hword, ← dot_natCast, dot_unitStrides, layout_plain hv, Dims.dot_strides]
    rfl

theorem dlpack_address (h : a.Sound) (hidx : InRange a.shape idx) :
    a.exportTensor.address idx = a.elementAddress idx := by
  apply eq_elementAddress (wrappingOffset_lt _ _)
  have hdata : a.exportTensor.data = a.layoutOf.ptr := by
    cases hv : a.strided <;> simp only [exportTensor, elementLayout, layoutOf, hv]
  have hbits : a.exportTensor.dtype.bits/8 = a.itemsize := itemsize_bits a.dtype
  rw [cast_wrappingOffset, hdata, hbits, Layout.addr, ← h.dot_elementStrides hidx]
  rfl

theorem buffer_address (h : a.Sound) {flags : BufferFlags} {b : PyBuffer}
    (hf : flags.includes pyBufStrides) (hb : a.getBuffer flags = .ok b) :
    wrappingOffset b.buf (dot idx (a.bufferStrides b)) = a.elementAddress idx := by
  have hl : a.bufferLayout b = a.layoutOf := getBuffer_ok hb ▸ bufferLayout_fillBuffer h.wf hf
  have hptr := congrArg Layout.ptr hl
  have hstrides := congrArg Layout.strides hl
  rw [elementAddress, ← hptr, ← hstrides]
  rfl

/-- While nothing overflows, all paths to an element end at its address. -/
theorem accessedAt (h : a.Sound) {ints : List ℤ}
    (hints : List.Forall₂ (fun (i : ℤ) (d : ℕ) => -(d:ℤ) ≤ i ∧ i < d) ints a.shape) :
    a.AccessedAt ints (a.elementAddress (List.zipWith coordinate a.shape ints)) := by
  have hidx := (h.indexResult_ints (fun q => q) 0 hints).1
  exact ⟨fun alloc => (h.indexResult_ints (fun q => q) alloc hints).2,
    h.refreshReads_getElem? hidx, elementPtr_flat, h.dlpack_address hidx,
    fun flags b => h.buffer_address⟩

theorem accessPaths (h : a.Sound) : a.PathsAgree :=
  ⟨fun _ hints => ⟨_, h.accessedAt hints⟩, h.exact_division⟩

end Sound

end PyArray

/-- A chain of views is a run without reshaping. -/
theorem Chain.reached {allowed : PyArray → ShapeOp → Prop} {o a : PyArray} {steps : List Step}
    (ho : o.OwnerWf) (h : Chain (fun p => p) o steps a) : Reached allowed a := by
  induction h with
  | owner => exact .owner ho
  | step _ address resolved run ih => exact .view ih resolved address run

/-- Every access path addresses the same memory, for every array reached without
an overflowing shape. -/
theorem access_paths_agree {a : PyArray} (h : Reached (fun a op => op.Exact a) a) : a.PathsAgree :=
  h.sound.accessPaths

theorem access_paths_agree_gridTransposed :
    ∃ p, gridTransposed.AccessedAt [-1,0] p := by
  have hreached : Reached (fun a op => op.Exact a) gridTransposed :=
    chain_gridTransposed.reached grid_ownerWf
  exact (access_paths_agree hreached).1 [-1,0] (by decide)

/-- `pair.reshape(6, 3074457345618258603)`. -/
def pairOverflowed : PyArray :=
  ⟨.float64, ⟨[6,3074457345618258603], [6148914691236517208,8], by decide, by decide⟩, 4096, 2,
    some ⟨.float64,4096,2⟩, none⟩

/-- An index in range of an overflowed shape has no element to read. -/
theorem access_beyond_buffer :
    ¬ ∀ a : PyArray, Reached (fun _ _ => True) a → a.PathsAgree := by
  intro h
  have hpair : pair.OwnerWf := ⟨rfl, rfl, rfl, by decide, by decide, by decide, by decide⟩
  have hrun : ShapeOp.run 0 pair (.reshape [6,3074457345618258603]) = .ok pairOverflowed := by
    decide +kernel
  have hvalid : ShapeOp.Valid (.reshape [6,3074457345618258603]) := trivial
  have hwords : ShapeOp.Words (.reshape [6,3074457345618258603]) := by
    unfold ShapeOp.Words
    decide
  have hreached : Reached (fun _ _ => True) pairOverflowed :=
    .shape (.owner hpair) hvalid hwords trivial (show 0 < wordModulus by decide) hrun
  obtain ⟨p, hp⟩ := (h pairOverflowed hreached).1 [1,0] (by decide)
  have hpanic : pairOverflowed.indexResult (fun q => q) 0 [1,0] =
      .error (.panic "index out of bounds") := by
    decide +kernel
  cases hpanic.symm.trans (hp.scalar 0)

end LightArray
