import LightArray.ShapeRun
import LightArray.ViewRun

namespace LightArray
open MachineWord RowMajor

/-- What `PyUntypedBuffer` reports of a NumPy array. -/
structure RawBuffer where
  buf : ℕ
  readonly : Bool
  itemsize : ℕ
  format : String
  shape : List ℕ
  strides : List ℤ

/-- The buffer protocol's promises: one `Py_ssize_t` stride for each axis and a
byte length, the product of the shape and the item size, that is a `Py_ssize_t`. -/
structure RawBuffer.Wf (raw : RawBuffer) : Prop where
  buf_lt : raw.buf < wordModulus
  strides_length : raw.strides.length = raw.shape.length
  isize_shape : ∀ d ∈ raw.shape, d ≤ isizeMax
  isize_strides : ∀ s ∈ raw.strides, -(2^63) ≤ s ∧ s < 2^63
  len_le : raw.itemsize*raw.shape.prod ≤ isizeMax

/-- The loop of `view_of_numpy`: the lowest and the highest element address, or
none when a stride is no multiple of the element size. -/
def reachLoop (itemsize : ℕ) (lo hi : ℤ) : List ℕ → List ℤ → Option (ℤ × ℤ)
  | d :: shape, stride :: strides =>
    let reach := wrapIsize (wrapIsize (asIsize d-1)*stride)
    if stride.tmod itemsize ≠ 0 then none
    else if reach < 0 then reachLoop itemsize (wrapIsize (lo+reach)) hi shape strides
    else reachLoop itemsize lo (wrapIsize (hi+reach)) shape strides
  | _, _ => some (lo,hi)

namespace PyArray

/-- First byte of the data and the byte after it. -/
def span (a : PyArray) : ℕ × ℕ := (a.ptr, wrapUsize (a.ptr+wrapUsize (a.len*a.itemsize)))

/-- `view_of_numpy` for the array `owner` that `base_of(source)` is: none when the
dtype differs or the NumPy array does not lie inside the owner's buffer. -/
def viewOfNumpy (alloc : ℕ) (owner : PyArray) (raw : RawBuffer) : Except Failure (Option PyArray) :=
  if raw.readonly ∨ raw.itemsize ≠ owner.itemsize ∨ raw.format ≠ owner.dtype.format ∨
      maxNdim < raw.shape.length then .ok none
  else if wrapProduct raw.shape = 0 then .ok none
  else
    match reachLoop owner.itemsize (asIsize raw.buf) (asIsize raw.buf) raw.shape raw.strides with
    | none => .ok none
    | some (lo, hi) =>
      if lo < asIsize owner.span.1 ∨ asIsize owner.span.2 < wrapIsize (hi+owner.itemsize) ∨
          (wrapIsize (lo-asIsize owner.span.1)).tmod owner.itemsize ≠ 0 then .ok none
      else do
        let v ← owner.viewFromLayout alloc ⟨raw.buf, raw.shape, raw.strides⟩
        .ok (some v)

end PyArray

/-- The dimensions of an operation are machine words. -/
def ShapeOp.Words : ShapeOp → Prop
  | .new _ _ shape => ∀ d ∈ shape, d < wordModulus
  | .filled _ shape => ∀ d ∈ shape, d < wordModulus
  | .reshape raw => ∀ d ∈ raw, -(2^63) ≤ d ∧ d < 2^63
  | .assignShape raw => ∀ d ∈ raw, -(2^63) ≤ d ∧ d < 2^63

/-- The arrays reached from owners by constructing and reshaping as `allowed`
permits, by chains of views and by views NumPy returns. -/
inductive Reached (allowed : PyArray → ShapeOp → Prop) : PyArray → Prop
  | owner {o : PyArray} (wf : o.OwnerWf) : Reached allowed o
  | shape {a b : PyArray} {op : ShapeOp} {alloc : ℕ} (reached : Reached allowed a)
      (valid : op.Valid) (words : op.Words) (permitted : allowed a op)
      (address : alloc < wordModulus) (run : op.run alloc a = .ok b) : Reached allowed b
  | view {a b : PyArray} {step : Step} {alloc : ℕ} (reached : Reached allowed a)
      (resolved : step.Resolved a.shape) (address : alloc < wordModulus)
      (run : a.runStep (fun p => p) alloc step = .ok (.array b)) : Reached allowed b
  | viewOf {owner b : PyArray} {raw : RawBuffer} {alloc : ℕ} (reached : Reached allowed owner)
      (owned : owner.base = none ∧ owner.strided = none) (buffer : raw.Wf)
      (address : alloc < wordModulus) (run : owner.viewOfNumpy alloc raw = .ok (some b)) :
      Reached allowed b

namespace PyArray

variable {T : Type} {mem : ℕ → T} {a b : PyArray} {alloc : ℕ}

theorem view_stored {offset : ℕ} {d : Dims a.dtype.itemsize} (hok : a.view offset d = .ok b) :
    b.Stored ∧ b.strided = none := by
  unfold view at hok
  split at hok
  · cases hok
    exact ⟨stored_plain (wrapUsize_lt _) rfl, rfl⟩
  · cases hok

namespace Stored

theorem sound (h : a.Stored) (hu : ∀ d ∈ a.shape, d < wordModulus)
    (hfits : a.itemsize*a.shape.prod ≤ isizeMax) : a.Sound where
  usize := hu
  wf := h.wf
  byteStrides := h.byteStrides
  strided := h.strided
  len := by
    have hle : a.shape.prod ≤ a.itemsize*a.shape.prod := Nat.le_mul_of_pos_left _ a.dtype.itemsize_pos
    rw [isizeMax_eq] at hfits
    rw [h.len, wrapProduct_of_lt (by rw [wordModulus_eq]; omega)]
  fits := hfits

theorem setDims (h : a.Stored) (hs : a.strided = none) {d : Dims a.dtype.itemsize}
    (hsize : a.len = d.size) : Stored {a with dims := d} := by
  have hptr := h.wf.ptr_lt
  rw [layout_plain hs] at hptr
  have hb : ({a with dims := d} : PyArray).strided = none := hs
  have hl := layout_plain hb
  refine ⟨?_, ?_, fun hsome => ?_, hsize⟩
  · rw [hl]
    exact ⟨d.length_strides, hptr⟩
  · rw [hl]
    exact d.byteStrides
  · rw [hb] at hsome
    cases hsome

theorem setShape (h : a.Stored) (hs : a.strided = none) {shape : List ℕ}
    (hok : a.setShape shape = .ok b) : b.Stored := by
  unfold PyArray.setShape at hok
  split at hok
  · cases hok
  · rename_i hprod
    obtain ⟨d, hd, he⟩ := bind_eq_ok.mp hok
    cases he
    apply h.setDims hs
    rw [Dims.size, Dims.withItemsize_ok hd, not_not.mp hprod]

theorem planView (halloc : alloc < wordModulus) {plan : List PlanAxis} {out : List ℕ}
    (hok : PyArray.planView alloc a plan out = .ok (some b)) : b.Stored ∧ b.strided = none := by
  unfold PyArray.planView at hok
  split at hok
  · cases hok
  · obtain ⟨d, hd, he⟩ := bind_eq_ok.mp hok
    cases he
    exact ⟨stored_plain halloc (Dims.checked_ok hd).2.symm, rfl⟩
  · obtain ⟨d, -, hrest⟩ := bind_eq_ok.mp hok
    obtain ⟨v, hv, he⟩ := bind_eq_ok.mp hrest
    cases he
    exact view_stored hv

theorem selected (h : a.Stored) (plan : List PlanAxis) (sels : List Selector) :
    (a.layoutOf.select plan sels).Wf ∧
      ∀ s ∈ (a.layoutOf.select plan sels).strides, ByteStride a.dtype s :=
  ⟨selectLoop_wf _ _ _ _ h.wf.ptr_lt, selectLoop_byteStrides _ _ _ _ h.byteStrides⟩

theorem selectStrided (h : a.Stored) (halloc : alloc < wordModulus) {plan : List PlanAxis}
    {sels : List Selector} {axes : List ℕ} (hok : a.selectStrided alloc plan sels axes = .ok b) :
    b.Stored := by
  obtain ⟨l, hl, hv⟩ := bind_eq_ok.mp hok
  obtain ⟨hwf, hbytes⟩ := h.selected plan sels
  exact (viewFromLayout_ok (insertAxes_wf hwf hl)
    (insertAxes_byteStrides hwf.strides_length hbytes hl) halloc hv).1

theorem selectResult (h : a.Stored) (halloc : alloc < wordModulus) {sels : List Selector}
    {axes : List ℕ} (hok : a.selectResult alloc sels axes = .ok b) : b.Stored := by
  obtain ⟨⟨plan, out⟩, -, hrest⟩ := bind_eq_ok.mp hok
  dsimp only at hrest
  split at hrest
  · obtain ⟨sel, hsel, hlast⟩ := bind_eq_ok.mp hrest
    cases sel with
    | none => exact h.selectStrided halloc hlast
    | some selected =>
      obtain ⟨hst, hplain⟩ := planView halloc hsel
      dsimp only at hlast
      split at hlast
      · cases hlast
        exact hst
      · exact hst.setShape hplain hlast
  · exact h.selectStrided halloc hrest

theorem indexResult (h : a.Stored) (halloc : alloc < wordModulus) {ints : List ℤ}
    (hok : a.indexResult mem alloc ints = .ok (.array b)) : b.Stored := by
  obtain ⟨e, -, hrest⟩ := bind_eq_ok.mp hok
  cases e with
  | some p => cases hrest
  | none =>
    dsimp only at hrest
    split at hrest
    · obtain ⟨⟨plan, out⟩, -, hview⟩ := bind_eq_ok.mp hrest
      obtain ⟨v, hv, hr⟩ := bind_eq_ok.mp hview
      cases hr
      obtain ⟨hwf, hbytes⟩ := h.selected plan (ints.map .int)
      exact (viewFromLayout_ok hwf hbytes halloc hv).1
    · obtain ⟨g, -, hlast⟩ := bind_eq_ok.mp hrest
      cases g with
      | some v => cases hlast
      | none =>
        obtain ⟨v, hv, hr⟩ := bind_eq_ok.mp hlast
        cases hr
        obtain ⟨⟨off, d⟩, -, hview⟩ := bind_eq_ok.mp hv
        exact (view_stored hview).1

theorem runStep (h : a.Stored) (halloc : alloc < wordModulus) {step : Step}
    (hok : a.runStep mem alloc step = .ok (.array b)) : b.Stored := by
  cases step with
  | index key =>
    obtain ⟨⟨⟩, -, hrest⟩ := bind_eq_ok.mp hok
    split at hrest
    · exact h.indexResult halloc hrest
    · obtain ⟨v, hv, hr⟩ := bind_eq_ok.mp hrest
      cases hr
      exact h.selectResult halloc hv
  | transpose =>
    obtain ⟨v, hv, hr⟩ := bind_eq_ok.mp hok
    cases hr
    have hbytes : ∀ s ∈ a.layoutOf.reversed.strides, ByteStride a.dtype s := fun s hs =>
      h.byteStrides s (List.mem_reverse.mp hs)
    exact (viewFromLayout_ok (reversed_wf h.wf) hbytes halloc hv).1

theorem reshapeView {shape : List ℕ} (hok : a.reshapeView shape = .ok b) : b.Stored := by
  obtain ⟨d, -, hv⟩ := bind_eq_ok.mp hok
  exact (view_stored hv).1

theorem shapeOp (h : a.Stored) (halloc : alloc < wordModulus) {op : ShapeOp}
    (hok : op.run alloc a = .ok b) : b.Stored := by
  have hnew {t : DType} {len : ℕ} {shape : List ℕ} (hok : new alloc t len shape = .ok b) :
      b.Stored := by
    obtain ⟨d, hd, he⟩ := bind_eq_ok.mp hok
    cases he
    exact stored_plain halloc (Dims.checked_ok hd).2.symm
  cases op with
  | new t len shape => exact hnew hok
  | filled t shape =>
    obtain ⟨d, -, he⟩ := bind_eq_ok.mp hok
    cases he
    exact stored_plain halloc rfl
  | reshape raw =>
    obtain ⟨shape, -, hrest⟩ := bind_eq_ok.mp hok
    split at hrest
    · exact hnew hrest
    · exact reshapeView hrest
  | assignShape raw =>
    have hs := (assignShape_ok hok).1
    unfold ShapeOp.run assignShape at hok
    rw [hs] at hok
    obtain ⟨shape, -, hrest⟩ := bind_eq_ok.mp hok
    exact h.setShape hs hrest

end Stored

/-- The strides of an accepted NumPy view are multiples of the element size. -/
theorem reachLoop_dvd {itemsize : ℕ} {lo hi : ℤ} {shape : List ℕ} {strides : List ℤ} {r : ℤ × ℤ}
    (hlen : strides.length = shape.length) (h : reachLoop itemsize lo hi shape strides = some r) :
    ∀ s ∈ strides, (itemsize : ℤ) ∣ s := by
  induction shape generalizing lo hi strides with
  | nil =>
    rw [List.length_nil, List.length_eq_zero_iff] at hlen
    simp [hlen]
  | cons d shape ih =>
    cases strides with
    | nil => simp
    | cons stride strides =>
      have hlen' : strides.length = shape.length := by simpa using hlen
      simp only [reachLoop] at h
      split at h
      · cases h
      · rename_i hmod
        have hdvd : (itemsize : ℤ) ∣ stride := Int.dvd_of_tmod_eq_zero (not_not.mp hmod)
        split at h
        · exact List.forall_mem_cons.mpr ⟨hdvd, ih hlen' h⟩
        · exact List.forall_mem_cons.mpr ⟨hdvd, ih hlen' h⟩

theorem viewOfNumpy_ok {owner : PyArray} {raw : RawBuffer} (hraw : raw.Wf)
    (hok : owner.viewOfNumpy alloc raw = .ok (some b)) :
    raw.itemsize = owner.itemsize ∧ (∀ s ∈ raw.strides, ByteStride owner.dtype s) ∧
      owner.viewFromLayout alloc ⟨raw.buf, raw.shape, raw.strides⟩ = .ok b := by
  unfold viewOfNumpy at hok
  split at hok
  · cases hok
  · rename_i hsame
    push Not at hsame
    split at hok
    · cases hok
    · split at hok
      · cases hok
      · rename_i lo hi hloop
        split at hok
        · cases hok
        · obtain ⟨v, hv, he⟩ := bind_eq_ok.mp hok
          cases he
          have hdvd := reachLoop_dvd hraw.strides_length hloop
          exact ⟨hsame.2.1, fun s hs => ⟨hdvd s hs, hraw.isize_strides s hs⟩, hv⟩

theorem viewOfNumpy_stored {owner : PyArray} {raw : RawBuffer} (hraw : raw.Wf)
    (halloc : alloc < wordModulus) (hok : owner.viewOfNumpy alloc raw = .ok (some b)) :
    b.Stored ∧ b.shape = raw.shape ∧ b.itemsize = raw.itemsize := by
  obtain ⟨hsize, hbytes, hv⟩ := viewOfNumpy_ok hraw hok
  obtain ⟨hb, hdtype, hshape, -⟩ :=
    viewFromLayout_ok ⟨hraw.strides_length, hraw.buf_lt⟩ hbytes halloc hv
  refine ⟨hb, hshape, ?_⟩
  rw [itemsize, hdtype, hsize]
  rfl

namespace Sound

theorem len_lt (h : a.Sound) : a.len < wordModulus := by
  rw [h.len]
  exact Denotes.prod_lt h.frame_fits (IndexMap.refl_into a.shape)

theorem stored (h : a.Sound) : a.Stored where
  wf := h.wf
  byteStrides := h.byteStrides
  strided := h.strided
  len := by rw [wrapProduct_of_lt (h.len ▸ h.len_lt), h.len]

theorem wellSized (h : a.Sound) : a.WellSized := ⟨h.len, h.len ▸ h.fits⟩

theorem runStep (h : a.Sound) (halloc : alloc < wordModulus) {step : Step}
    (hres : step.Resolved a.shape) (hok : a.runStep mem alloc step = .ok (.array b)) : b.Sound := by
  obtain ⟨n, -, hb⟩ := h.denotes.runStep h.frame_fits halloc hres hok
  exact Denotes.sound h.frame_fits hb

theorem viewOfNumpy {owner : PyArray} {raw : RawBuffer} (hraw : raw.Wf)
    (halloc : alloc < wordModulus) (hok : owner.viewOfNumpy alloc raw = .ok (some b)) : b.Sound := by
  obtain ⟨hb, hshape, hsize⟩ := viewOfNumpy_stored hraw halloc hok
  apply hb.sound
  · intro d hd
    have hle := hraw.isize_shape d (hshape ▸ hd)
    rw [isizeMax_eq] at hle
    rw [wordModulus_eq]
    omega
  · rw [hsize, hshape]
    exact hraw.len_le

theorem usize_shapeOp (h : a.Sound) {op : ShapeOp} (hw : op.Words) (hok : op.run alloc a = .ok b) :
    ∀ d ∈ b.shape, d < wordModulus := by
  cases op with
  | new t len shape =>
    rw [(new_ok hok).shape_eq]
    exact hw
  | filled t shape =>
    rw [(filled_ok hok).shape_eq]
    exact hw
  | reshape raw =>
    rw [(reshape_ok hok).2.shape_eq]
    exact fillIn_usize h.len_lt hw
  | assignShape raw =>
    rw [(assignShape_ok hok).2.2.shape_eq]
    exact fillIn_usize h.len_lt hw

theorem shapeOp (h : a.Sound) (halloc : alloc < wordModulus) {op : ShapeOp} (hv : op.Valid)
    (hw : op.Words) (hop : op.Exact a) (hok : op.run alloc a = .ok b) : b.Sound := by
  have hb := ShapeOp.run_wellSized h.wellSized hv hop hok
  exact (h.stored.shapeOp halloc hok).sound (h.usize_shapeOp hw hok) (hb.len_eq ▸ hb.fits)

end Sound

end PyArray

/-- Whatever its dimensions, an array a program holds is stored as its layout says. -/
theorem Reached.stored {allowed : PyArray → ShapeOp → Prop} {a : PyArray} (h : Reached allowed a) :
    a.Stored := by
  induction h with
  | owner wf => exact wf.sound.stored
  | shape _ _ _ _ address run ih => exact ih.shapeOp address run
  | view _ _ address run ih => exact ih.runStep address run
  | viewOf _ _ buffer address run _ => exact (PyArray.viewOfNumpy_stored buffer address run).1

/-- Runs whose dimensions do not overflow reach arrays with one element for every
multi-index. -/
theorem Reached.sound {a : PyArray} (h : Reached (fun a op => op.Exact a) a) : a.Sound := by
  induction h with
  | owner wf => exact wf.sound
  | shape _ valid words permitted address run ih => exact ih.shapeOp address valid words permitted run
  | view _ resolved address run ih => exact ih.runStep address resolved run
  | viewOf _ _ buffer address run _ => exact .viewOfNumpy buffer address run

end LightArray
