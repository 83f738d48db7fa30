import LightArray.ArrayRun
import LightArray.BufferExport

namespace LightArray
open MachineWord RowMajor

/-- The consumer gets what its flags ask for. Empty arrays and axes of length 1
are contiguous in every order. -/
structure Honoured (a : PyArray) (flags : BufferFlags) (b : PyBuffer) : Prop where
  plain : flags.includes pyBufStrides = false → ∀ idx, InRange a.shape idx →
    a.layoutOf.addr idx = b.buf+a.itemsize*(flat a.shape idx : Word)
  cContiguous : flags.includes pyBufCContiguous → (a.bufferLayout b).RowMajor a.itemsize
  fContiguous : flags.includes pyBufFContiguous → (a.bufferLayout b).ColumnMajor a.itemsize
  anyContiguous : flags.includes pyBufAnyContiguous →
    (a.bufferLayout b).RowMajor a.itemsize ∨ (a.bufferLayout b).ColumnMajor a.itemsize
  len : b.len = a.itemsize*a.shape.prod

namespace PyArray

variable {a : PyArray} {flags : BufferFlags} {b : PyBuffer}

/-- The requests `__getbuffer__` refuses: a strided view without strides, or as a
C-contiguous block. -/
def Refuses (a : PyArray) (flags : BufferFlags) : Prop :=
  a.strided.isSome ∧ (flags.includes pyBufStrides = false ∨ flags.includes pyBufCContiguous = true)

/-- Empty, or every axis longer than 1 steps over the axes before it. -/
def ColumnOrdered (a : PyArray) : Prop :=
  a.shape.prod = 0 ∨
    AgreeOn a.shape a.layoutOf.strides (Layout.columnStrides a.itemsize a.shape)

/-- The requests answered as asked. -/
def Honours (a : PyArray) (flags : BufferFlags) : Prop :=
  a.Refuses flags ∨
    a.itemsize*a.shape.prod ≤ isizeMax ∧ (flags.includes pyBufFContiguous → a.ColumnOrdered) ∧
      (flags.includes pyBufAnyContiguous → a.strided = none ∨ a.ColumnOrdered)

/-- A request for more bits is a request for fewer. -/
theorem includes_of_subset {request part : BufferFlags} (hsub : request &&& part = part)
    (h : flags.includes request = true) : flags.includes part = true := by
  have he : flags &&& request = request := by simpa [BufferFlags.includes] using h
  have hpart : flags &&& part = part := by
    calc flags &&& part = flags &&& (request &&& part) := by rw [hsub]
      _ = flags &&& request &&& part := (BitVec.and_assoc ..).symm
      _ = part := by rw [he, hsub]
  simpa [BufferFlags.includes] using hpart

theorem getBuffer_eq (a : PyArray) (flags : BufferFlags) :
    (a.Refuses flags → ∃ e, a.getBuffer flags = .error e) ∧
      (¬ a.Refuses flags → a.getBuffer flags = .ok (a.fillBuffer flags)) := by
  unfold getBuffer Refuses
  constructor
  · rintro ⟨hs, hn | hc⟩
    · exact ⟨_, if_pos ⟨hs, by simp [hn]⟩⟩
    · by_cases hn : flags.includes pyBufStrides = true
      · exact ⟨_, by rw [if_neg (by simp [hn]), if_pos ⟨hs, hc⟩]⟩
      · exact ⟨_, if_pos ⟨hs, hn⟩⟩
  · intro h
    rw [if_neg, if_neg]
    · exact fun hc => h ⟨hc.1, .inr hc.2⟩
    · exact fun hn => h ⟨hn.1, .inl (by simpa using hn.2)⟩

theorem getBuffer_ok (h : a.getBuffer flags = .ok b) : b = a.fillBuffer flags := by
  by_cases href : a.Refuses flags
  · obtain ⟨e, he⟩ := (getBuffer_eq a flags).1 href
    cases he.symm.trans h
  · exact Except.ok.inj (h.symm.trans ((getBuffer_eq a flags).2 href))

theorem fillBuffer_len (a : PyArray) (flags : BufferFlags) :
    (a.fillBuffer flags).len = asIsize (wrapUsize (a.len*a.itemsize)) := by
  rw [fillBuffer]

/-- With strides requested the consumer reads the array's own layout. -/
theorem bufferLayout_fillBuffer (hwf : a.layoutOf.Wf) (h : flags.includes pyBufStrides = true) :
    a.bufferLayout (a.fillBuffer flags) = a.layoutOf := by
  have hnd : flags.includes pyBufNd = true := includes_of_subset (by decide) h
  have hlen : a.layoutOf.strides.length = a.dims.shape.length := by
    rw [hwf.strides_length, layout_shape, shape]
  by_cases hz : 0 < a.dims.shape.length
  · have hshape : a.bufferShape (a.fillBuffer flags) = a.layoutOf.shape := by
      rw [layout_shape, shape]
      simp [bufferShape, fillBuffer, hnd, hz, Dims.shapeCells, Dims.ndim]
    have hstrides : a.bufferStrides (a.fillBuffer flags) = a.layoutOf.strides := by
      rw [← hlen] at hz
      cases hv : a.strided with
      | some v => simp [bufferStrides, fillBuffer, hnd, hz, hv, Dims.ndim, ← hlen]
      | none =>
        have hl : a.layoutOf.strides = a.dims.strides := by rw [layout_plain hv]
        rw [hl] at hlen hz ⊢
        simp [bufferStrides, fillBuffer, hnd, h, hz, hv, Dims.ndim, Dims.strideCells, ← hlen]
    show (⟨a.layoutOf.ptr, _, _⟩ : Layout) = a.layoutOf
    rw [hshape, hstrides]
  · have hshape : a.dims.shape = [] := List.length_eq_zero_iff.mp (Nat.le_zero.mp (not_lt.mp hz))
    have hstrides : a.layoutOf.strides = [] := List.length_eq_zero_iff.mp (by rw [hlen, hshape]; rfl)
    have hlayout : a.layoutOf = ⟨a.layoutOf.ptr, [], []⟩ := by
      rw [← hstrides, ← hshape, ← shape, ← layout_shape]
    rw [hlayout]
    show (⟨a.layoutOf.ptr, _, _⟩ : Layout) = _
    simp [bufferShape, bufferStrides, fillBuffer, Dims.ndim, hshape]

namespace Stored

theorem isize_strides (h : a.Stored) : ∀ s ∈ a.layoutOf.strides, -(2^63) ≤ s ∧ s < 2^63 :=
  fun s hs => (h.byteStrides s hs).2

/-- The exported length counts every element exactly when they fit one allocation. -/
theorem len_iff (h : a.Stored) :
    asIsize (wrapUsize (a.len*a.itemsize)) = a.itemsize*a.shape.prod ↔
      a.itemsize*a.shape.prod ≤ isizeMax := by
  rw [isizeMax_eq]
  constructor
  · intro he
    have hr := (wrapIsize_range (wrapUsize (a.len*a.itemsize) : ℕ)).2
    change asIsize _ < _ at hr
    rw [he, ← Nat.cast_mul] at hr
    omega
  · intro hfit
    have hle : a.shape.prod ≤ a.itemsize*a.shape.prod :=
      Nat.le_mul_of_pos_left _ a.dtype.itemsize_pos
    have hlen : a.len = a.shape.prod := by
      rw [h.len, wrapProduct_of_lt (by rw [wordModulus_eq]; omega)]
    rw [hlen, mul_comm a.shape.prod, wrapUsize_of_lt (by rw [wordModulus_eq]; omega),
      asIsize_of_le (by rw [isizeMax_eq]; omega)]
    push_cast
    rfl

theorem columnMajor_iff (h : a.Stored) : a.layoutOf.ColumnMajor a.itemsize ↔ a.ColumnOrdered := by
  unfold ColumnOrdered
  rw [← layout_shape]
  by_cases hz : a.layoutOf.shape.prod = 0
  · simp only [hz, true_or, iff_true]
    exact Layout.columnMajor_of_empty hz
  · rw [Layout.columnMajor_iff h.wf h.isize_strides (Nat.pos_of_ne_zero hz)]
    simp only [hz, false_or]

theorem rowMajor_iff (h : a.Stored) : a.layoutOf.RowMajor a.itemsize ↔ a.strided = none := by
  constructor
  · intro hrow
    by_contra hs
    obtain ⟨hne, hnot⟩ := h.strided (Option.isSome_iff_ne_none.mpr hs)
    have hpos := Nat.pos_of_ne_zero hne
    have hagree := (Layout.rowMajor_iff h.wf h.isize_strides hpos).mp hrow
    rw [Layout.isCContiguous_of_agreeOn h.wf hpos hagree] at hnot
    cases hnot
  · intro hs idx _
    rw [addr_plain hs, layout_plain hs, shape]

theorem honoured_iff (h : a.Stored) (flags : BufferFlags) :
    (∀ b, a.getBuffer flags = .ok b → Honoured a flags b) ↔ a.Honours flags := by
  obtain ⟨herr, hok⟩ := getBuffer_eq a flags
  by_cases href : a.Refuses flags
  · obtain ⟨e, he⟩ := herr href
    refine ⟨fun _ => .inl href, fun _ b hb => ?_⟩
    rw [he] at hb
    cases hb
  · have hget := hok href
    have hread := fun request (hsub : request &&& pyBufStrides = pyBufStrides)
        (hr : flags.includes request = true) =>
      bufferLayout_fillBuffer (a := a) h.wf (includes_of_subset hsub hr)
    have hc' := hread pyBufCContiguous (by decide)
    have hf' := hread pyBufFContiguous (by decide)
    have hany' := hread pyBufAnyContiguous (by decide)
    rw [Honours, or_iff_right href, ← h.len_iff, ← h.columnMajor_iff, ← h.rowMajor_iff]
    constructor
    · intro hall
      have hb := hall _ hget
      refine ⟨(fillBuffer_len a flags).symm.trans hb.len, fun hf => ?_, fun hany => ?_⟩
      · rw [← hf' hf]
        exact hb.fContiguous hf
      · rw [← hany' hany]
        exact hb.anyContiguous hany
    · rintro ⟨hlen, hf, hany⟩ b hb
      cases hget.symm.trans hb
      refine ⟨?_, ?_, ?_, ?_, (fillBuffer_len a flags).trans hlen⟩
      · intro hn idx hidx
        have hs : a.strided = none := by
          by_contra hs
          exact href ⟨Option.isSome_iff_ne_none.mpr hs, .inl hn⟩
        rw [← layout_shape] at hidx
        rw [h.rowMajor_iff.mpr hs idx hidx, layout_shape]
        rfl
      · intro hc
        have hs : a.strided = none := by
          by_contra hs
          exact href ⟨Option.isSome_iff_ne_none.mpr hs, .inr hc⟩
        rw [hc' hc]
        exact h.rowMajor_iff.mpr hs
      · intro hr
        rw [hf' hr]
        exact hf hr
      · intro hr
        rw [hany' hr]
        exact hany hr

end Stored

end PyArray

/-- A request is honoured exactly when it is refused, or the elements fit one
allocation and no F-contiguous block is asked of an array that is not column-major,
nor any contiguous block of a strided view that is not. -/
theorem buffer_request_honoured_iff {a : PyArray} (h : Reached (fun _ _ => True) a)
    (flags : BufferFlags) :
    (∀ b, a.getBuffer flags = .ok b → Honoured a flags b) ↔ a.Honours flags :=
  h.stored.honoured_iff flags

theorem buffer_request_honoured_iff_grid :
    Honoured grid pyBufCContiguous (grid.fillBuffer pyBufCContiguous) := by
  have hgrid : grid.Honours pyBufCContiguous :=
    .inr ⟨by decide, fun hf => absurd hf (by decide), fun _ => .inl rfl⟩
  exact (buffer_request_honoured_iff (.owner grid_ownerWf) pyBufCContiguous).mpr hgrid _ (by decide)

/-- A C-ordered matrix is handed out to a consumer that asks for Fortran order. -/
theorem fContiguous_request_accepted :
    ¬ ∀ (a : PyArray) (flags : BufferFlags), Reached (fun _ _ => True) a →
      ∀ b, a.getBuffer flags = .ok b → Honoured a flags b := by
  intro h
  have hgrid : Reached (fun _ _ => True) grid := .owner grid_ownerWf
  have hh := (hgrid.stored.honoured_iff pyBufFContiguous).mp (h grid _ hgrid)
  rcases hh with href | ⟨-, hf, -⟩
  · exact absurd href.1 (by decide)
  · rcases hf (by decide) with hz | hagree
    · exact absurd hz (by decide)
    · exact absurd (hagree.1 (by decide)) (by decide)

end LightArray
