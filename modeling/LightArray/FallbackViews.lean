import LightArray.BufferContract
import LightArray.ForeignViews

namespace LightArray
open MachineWord RowMajor

def pyBufFullRo : BufferFlags := 0x11C

/-- What keeps the memory of a NumPy array alive (`base`). -/
inductive NumpyBase
  | none
  | memoryview (obj : PyArray)
  | ndarray (base : NumpyBase)
  | other

/-- A NumPy array: the memory it describes and its base. -/
structure NumpyView where
  raw : RawBuffer
  base : NumpyBase

/-- `np.asarray(a)`, through a memoryview of the array. -/
def PyArray.asNumpy (a : PyArray) : Except Failure NumpyView := do
  let b ← a.getBuffer pyBufFullRo
  .ok ⟨⟨b.buf, b.readonly, b.itemsize.toNat, b.format.getD "B", a.bufferShape b, a.bufferStrides b⟩, .memoryview a⟩

/-- The loop of `_lightarray_source` over the bases. -/
def NumpyBase.source : NumpyBase → Option PyArray
  | .ndarray base => base.source
  | .memoryview obj => some obj
  | .none | .other => Option.none

/-- `_lightarray_source`: the array whose memory this is a writable view of. -/
def NumpyView.source (x : NumpyView) : Option PyArray := if x.raw.readonly then Option.none else x.base.source

/-- The dtypes in `_NATIVE_NUMS`. -/
def RawBuffer.nativeDType (raw : RawBuffer) : Option DType :=
  [DType.float64, .int64, .bool].find? fun t => raw.format == t.format && raw.itemsize == t.itemsize

/-- `is_c_contiguous` of an untyped buffer. -/
def RawBuffer.isCContiguous (raw : RawBuffer) : Bool :=
  raw.shape.prod == 0 || (⟨raw.buf, raw.shape, raw.strides⟩ : Layout).isCContiguous raw.itemsize

/-- What `from_numpy` makes of a NumPy array. -/
inductive FromNumpy
  | view (a : PyArray)
  | copied (a : PyArray)
  | unchanged
  deriving DecidableEq

/-- `array(obj)` on a NumPy array: a copy, except that a bool buffer which is not
contiguous stays with NumPy. -/
def copyNumpy (alloc : ℕ) (t : DType) (raw : RawBuffer) : Except Failure FromNumpy :=
  if t = .bool ∧ raw.shape ≠ [] ∧ raw.isCContiguous = false then .ok .unchanged
  else do
    let d ← Dims.checked raw.shape t.itemsize raw.shape.prod
    .ok (.copied ⟨t, d, alloc, d.size, none, none⟩)

/-- `from_numpy` on an exact `numpy.ndarray`; `dunder` says that a result inside
`__array__` has to stay with NumPy, and `deref` finds the object behind a base. -/
def fromNumpy (deref : Owner → PyArray) (alloc : ℕ) (dunder : Bool) (x : NumpyView) : Except Failure FromNumpy :=
  match x.raw.nativeDType with
  | none => .ok .unchanged
  | some t =>
    if maxNdim < x.raw.shape.length ∨ dunder then .ok .unchanged
    else
      match x.source with
      | none => copyNumpy alloc t x.raw
      | some source => do
        match ← (deref source.baseOf).viewOfNumpy alloc x.raw with
        | some v => .ok (.view v)
        | none => copyNumpy alloc t x.raw

/-- `y` is a view NumPy makes of `x`: it shows the elements that `n` selects, in strides
of whole elements, and its bases end where those of `x` do. -/
structure NumpyView.Views (x y : NumpyView) (n : IndexMap) : Prop where
  buffer : y.raw.Wf
  readonly : y.raw.readonly = x.raw.readonly
  itemsize : y.raw.itemsize = x.raw.itemsize
  format : y.raw.format = x.raw.format
  shape : y.raw.shape = n.shape
  into : n.Into x.raw.shape
  elements : ∀ idx, InRange n.shape idx → y.raw.elementAddress idx = x.raw.elementAddress (n.map idx)
  strides : ∀ s ∈ y.raw.strides, (y.raw.itemsize : ℤ) ∣ s
  base : y.base.source = x.base.source

section asNumpy

variable {a : PyArray} {x : NumpyView}

/-- NumPy's request is never refused, and NumPy sees the layout of the array. -/
theorem PyArray.Stored.asNumpy (h : a.Stored) :
    a.asNumpy = .ok ⟨⟨a.layoutOf.ptr, false, a.itemsize, a.dtype.format, a.layoutOf.shape, a.layoutOf.strides⟩, .memoryview a⟩ := by
  have href : ¬ a.Refuses pyBufFullRo := by
    rintro ⟨-, hstrides | hcontiguous⟩
    · exact absurd hstrides (by decide)
    · exact absurd hcontiguous (by decide)
  have hlayout : a.bufferLayout (a.fillBuffer pyBufFullRo) = a.layoutOf := bufferLayout_fillBuffer h.wf (by decide)
  have hshape : a.bufferShape (a.fillBuffer pyBufFullRo) = a.layoutOf.shape := congrArg Layout.shape hlayout
  have hstrides : a.bufferStrides (a.fillBuffer pyBufFullRo) = a.layoutOf.strides := congrArg Layout.strides hlayout
  have hbuffer := (getBuffer_eq a pyBufFullRo).2 href
  simp only [PyArray.asNumpy, hbuffer, hshape, hstrides, bind, Except.bind]
  rfl

end asNumpy

namespace PyArray

variable {T : Type} {mem : ℕ → T} {a b : PyArray} {alloc : ℕ}

theorem view_baseOf {offset : ℕ} {d : Dims a.dtype.itemsize} (hok : a.view offset d = .ok b) : b.baseOf = a.baseOf := by
  unfold view at hok
  split at hok
  · cases hok
    rfl
  · cases hok

theorem setShape_baseOf {shape : List ℕ} (hok : a.setShape shape = .ok b) : b.baseOf = a.baseOf := by
  unfold setShape at hok
  split at hok
  · cases hok
  · obtain ⟨d, -, he⟩ := bind_eq_ok.mp hok
    cases he
    rfl

theorem viewFromLayout_baseOf_of_len {l : Layout} (hok : a.viewFromLayout alloc l = .ok b) (hne : b.len ≠ 0) :
    b.baseOf = a.baseOf := by
  by_cases hz : wrapProduct l.shape = 0
  · unfold viewFromLayout at hok
    rw [if_pos hz] at hok
    obtain ⟨d, hd, he⟩ := bind_eq_ok.mp hok
    cases he
    refine absurd ?_ hne
    show d.size = 0
    rw [Dims.size, (Dims.allocated_ok hd).1, hz]
  · exact viewFromLayout_baseOf hz hok

theorem planView_baseOf {plan : List PlanAxis} {out : List ℕ} (hok : planView alloc a plan out = .ok (some b))
    (hne : b.len ≠ 0) : b.baseOf = a.baseOf := by
  unfold planView at hok
  split at hok
  · cases hok
  · obtain ⟨d, -, he⟩ := bind_eq_ok.mp hok
    cases he
    exact absurd rfl hne
  · obtain ⟨d, -, hrest⟩ := bind_eq_ok.mp hok
    obtain ⟨v, hv, he⟩ := bind_eq_ok.mp hrest
    cases he
    exact view_baseOf hv

theorem setShape_len {shape : List ℕ} (hok : a.setShape shape = .ok b) : b.len = a.len := by
  unfold setShape at hok
  split at hok
  · cases hok
  · obtain ⟨d, -, he⟩ := bind_eq_ok.mp hok
    cases he
    rfl

theorem selectStrided_baseOf {plan : List PlanAxis} {sels : List Selector} {axes : List ℕ}
    (hok : a.selectStrided alloc plan sels axes = .ok b) (hne : b.len ≠ 0) : b.baseOf = a.baseOf := by
  obtain ⟨l, -, hv⟩ := bind_eq_ok.mp hok
  exact viewFromLayout_baseOf_of_len hv hne

theorem selectResult_baseOf {sels : List Selector} {axes : List ℕ} (hok : a.selectResult alloc sels axes = .ok b)
    (hne : b.len ≠ 0) : b.baseOf = a.baseOf := by
  obtain ⟨⟨plan, out⟩, -, hrest⟩ := bind_eq_ok.mp hok
  dsimp only at hrest
  split at hrest
  · obtain ⟨sel, hsel, hlast⟩ := bind_eq_ok.mp hrest
    cases sel with
    | none => exact selectStrided_baseOf hlast hne
    | some selected =>
      dsimp only at hlast
      split at hlast
      · cases hlast
        exact planView_baseOf hsel hne
      · rw [setShape_baseOf hlast]
        exact planView_baseOf hsel (setShape_len hlast ▸ hne)
  · exact selectStrided_baseOf hrest hne

theorem indexResult_baseOf {ints : List ℤ} (hok : a.indexResult mem alloc ints = .ok (.array b)) (hne : b.len ≠ 0) :
    b.baseOf = a.baseOf := by
  obtain ⟨e, -, hrest⟩ := bind_eq_ok.mp hok
  cases e with
  | some p => cases hrest
  | none =>
    dsimp only at hrest
    split at hrest
    · obtain ⟨⟨plan, out⟩, -, hview⟩ := bind_eq_ok.mp hrest
      obtain ⟨v, hv, hr⟩ := bind_eq_ok.mp hview
      cases hr
      exact viewFromLayout_baseOf_of_len hv hne
    · obtain ⟨g, -, hlast⟩ := bind_eq_ok.mp hrest
      cases g with
      | some v => cases hlast
      | none =>
        obtain ⟨v, hv, hr⟩ := bind_eq_ok.mp hlast
        cases hr
        obtain ⟨⟨off, d⟩, -, hview⟩ := bind_eq_ok.mp hv
        exact view_baseOf hview

/-- A view that is not empty keeps the owner of its source. -/
theorem runStep_baseOf {step : Step} (hok : a.runStep mem alloc step = .ok (.array b)) (hne : b.len ≠ 0) :
    b.baseOf = a.baseOf := by
  cases step with
  | index key =>
    obtain ⟨⟨⟩, -, hrest⟩ := bind_eq_ok.mp hok
    split at hrest
    · exact indexResult_baseOf hrest hne
    · obtain ⟨v, hv, hr⟩ := bind_eq_ok.mp hrest
      cases hr
      exact selectResult_baseOf hv hne
  | transpose =>
    obtain ⟨v, hv, hr⟩ := bind_eq_ok.mp hok
    cases hr
    exact viewFromLayout_baseOf_of_len hv hne

/-- A view has no more elements than its source. -/
theorem Sound.runStep_len_le (h : a.Sound) (halloc : alloc < wordModulus) {step : Step} (hres : step.Resolved a.shape)
    (hok : a.runStep mem alloc step = .ok (.array b)) : b.len ≤ a.len := by
  obtain ⟨n, -, hb⟩ := h.denotes.runStep h.frame_fits halloc hres hok
  have hd : Denotes a.frame ((IndexMap.refl a.shape).comp n) b := hb
  have hle : ((IndexMap.refl a.shape).comp n).shape.prod ≤ a.shape.prod := hd.into.prod_le
  rwa [hd.len, h.len]

theorem OwnerWf.ownsBuffer {o : PyArray} (ho : o.OwnerWf) : o.OwnsBuffer :=
  ⟨ho.owned, ho.plain, ho.fits, ho.address, ho.ptr_lt⟩

theorem OwnerWf.baseOf {o : PyArray} (ho : o.OwnerWf) : o.baseOf = ⟨o.dtype, o.ptr, o.len⟩ := by
  rw [PyArray.baseOf, ho.plain, ho.owned]
  rfl

/-- An element of the owner is in its buffer. -/
theorem inBuffer_slot {o : PyArray} {k : ℕ} (hk : k < o.len) : o.InBuffer (o.slot k) := by
  have hle := Nat.mul_le_mul_left o.itemsize (Nat.succ_le_of_lt hk)
  rw [Nat.mul_succ] at hle
  refine ⟨Nat.le_add_right _ _, ?_, ?_⟩
  · rw [slot]
    omega
  · rw [slot, Nat.add_sub_cancel_left]
    exact dvd_mul_right _ _

end PyArray

section detour

variable {o a b : PyArray} {x y : NumpyView} {m n : IndexMap} {deref : Owner → PyArray} {alloc : ℕ}

/-- Where all elements are in one buffer, no reach of a description overflows. -/
theorem RawBuffer.reachesFit {raw : RawBuffer} (ho : o.OwnsBuffer) (hraw : raw.Wf) (hne : 0 < raw.shape.prod)
    (h : ∀ idx, InRange raw.shape idx → o.InBuffer (raw.elementAddress idx)) : raw.ReachesFit := by
  have hpos : 0 < o.itemsize := o.dtype.itemsize_pos
  have hfits := ho.fits
  rw [isizeMax_eq] at hfits
  have hlt : (raw.buf : ℤ) < wordModulus := by exact_mod_cast hraw.buf_lt
  have hdot : (raw.buf : ℤ)+dot (List.replicate raw.shape.length 0) raw.strides = raw.buf := by
    rw [dot_zero_left, add_zero]
  have hzero : (raw.elementAddress (List.replicate raw.shape.length 0) : ℤ) = raw.buf := by
    rw [PyArray.elementAddress_of_range, hdot]
    · rw [hdot]
      exact Int.natCast_nonneg _
    · rw [hdot]
      exact hlt
  obtain ⟨hstart, hstop, -⟩ := h _ (inRange_zeros hne)
  have hwindow : ∀ s ∈ raw.strides, (o.itemsize*o.len : ℕ)-(o.itemsize : ℤ)+1+|s| ≤ wordModulus := by
    intro s hs
    obtain ⟨hlow, hhigh⟩ := hraw.isize_strides s hs
    have habs : |s| ≤ 2^63 := abs_le.mpr ⟨hlow, hhigh.le⟩
    rw [wordModulus_eq]
    push_cast
    omega
  have hoffsets (idx : List ℕ) (hidx : InRange raw.shape idx) :
      0 ≤ (raw.buf : ℤ)-o.ptr+dot idx raw.strides ∧
        (raw.buf : ℤ)-o.ptr+dot idx raw.strides < (o.itemsize*o.len : ℕ)-o.itemsize+1 := by
    apply dot_window hwindow ⟨by omega, by omega⟩ _ hidx
    intro i hi
    obtain ⟨hfirst, hlast, -⟩ := h i hi
    refine ⟨(raw.elementAddress i : ℤ)-o.ptr, ⟨by omega, by omega⟩, ?_⟩
    rw [RawBuffer.elementAddress]
    push_cast [cast_wrappingOffset]
    ring
  intro p hp
  obtain ⟨hlow, hhigh⟩ := reach_of_window hne hoffsets p hp
  omega

/-- What NumPy makes of an array over the owner is a description of the owner's buffer. -/
theorem NumpyView.Views.describable (ho : o.OwnerWf) (hd : Denotes o.frame m a) (hx : a.asNumpy = .ok x)
    (hy : x.Views y n) (hne : 0 < n.shape.prod) (hndim : n.shape.length ≤ maxNdim) :
    o.Describable y.raw ∧ ∀ idx, InRange n.shape idx →
      InRange m.shape (n.map idx) ∧ y.raw.elementAddress idx = o.slot (flat o.shape (m.map (n.map idx))) := by
  have hsound := hd.sound ho.sound.frame_fits
  cases (hsound.stored.asNumpy.symm.trans hx)
  have hinto : n.Into a.layoutOf.shape := hy.into
  rw [a.layout_shape, hd.shape] at hinto
  have haddress (idx : List ℕ) (hidx : InRange n.shape idx) :
      y.raw.elementAddress idx = o.slot (flat o.shape (m.map (n.map idx))) := by
    have hin := hinto.inRange idx hidx
    calc
      y.raw.elementAddress idx = a.elementAddress (n.map idx) := hy.elements idx hidx
      _ = o.frame.element (m.map (n.map idx)) := hd.elementAddress hin
      _ = o.slot (flat o.shape (m.map (n.map idx))) := ho.element (hd.into.inRange _ hin)
  have hinBuffer (idx : List ℕ) (hidx : InRange y.raw.shape idx) : o.InBuffer (y.raw.elementAddress idx) := by
    rw [hy.shape] at hidx
    rw [haddress idx hidx]
    apply PyArray.inBuffer_slot
    rw [ho.len_eq]
    exact flat_lt (hd.into.inRange _ (hinto.inRange idx hidx))
  have hsize : y.raw.itemsize = o.itemsize := hy.itemsize.trans hd.itemsize_eq
  have hformat : y.raw.format = o.dtype.format := hy.format.trans (congrArg DType.format hd.dtype)
  have hshape : 0 < y.raw.shape.prod := hy.shape ▸ hne
  refine ⟨⟨hy.buffer, hy.readonly, hsize, hformat, hy.shape ▸ hndim, hshape, hsize ▸ hy.strides, ?_⟩,
    fun idx hidx => ⟨hinto.inRange idx hidx, haddress idx hidx⟩⟩
  exact RawBuffer.reachesFit ho.ownsBuffer hy.buffer hshape hinBuffer

/-- What an adopted view of the owner shows. -/
theorem denotes_viewOfNumpy (ho : o.OwnerWf) (hd : o.Describable y.raw) (hinto : m.Into o.shape)
    (hshape : y.raw.shape = m.shape)
    (haddress : ∀ idx, InRange m.shape idx → y.raw.elementAddress idx = o.slot (flat o.shape (m.map idx)))
    (halloc : alloc < wordModulus) (hv : o.viewOfNumpy alloc y.raw = .ok (some b)) : Denotes o.frame m b := by
  have hsound : b.Sound := .viewOfNumpy hd.buffer halloc hv
  obtain ⟨⟨hdtype, hbshape, -⟩, helements⟩ := PyArray.viewOfNumpy_shares ho.ownsBuffer hd halloc hv
  have hms : b.shape = m.shape := hbshape.trans hshape
  refine ⟨hdtype, hms, hinto, hms ▸ hsound.usize, hsound.wf, hsound.byteStrides, hsound.strided, fun idx hidx => ?_,
    hms ▸ hsound.len⟩
  rw [← b.cast_elementAddress, helements idx (hshape ▸ hidx), haddress idx hidx, ho.frame_addr]

/-- `_lightarray_source` of a NumPy view of an exported array is the array. -/
theorem NumpyView.Views.source_eq (hs : a.Stored) (hx : a.asNumpy = .ok x) (hy : x.Views y n) : y.source = some a := by
  cases (hs.asNumpy.symm.trans hx)
  have hread : y.raw.readonly = false := hy.readonly
  have hbase : y.base.source = some a := hy.base
  rw [NumpyView.source, hread, if_neg Bool.false_ne_true, hbase]

/-- A view that `from_numpy` hands back was adopted by the owner. -/
theorem fromNumpy_view {dunder : Bool} (hok : fromNumpy deref alloc dunder y = .ok (.view b)) (hs : y.source = some a) :
    y.raw.shape.length ≤ maxNdim ∧ (deref a.baseOf).viewOfNumpy alloc y.raw = .ok (some b) := by
  have hcopy (t : DType) : copyNumpy alloc t y.raw ≠ .ok (.view b) := by
    intro h
    unfold copyNumpy at h
    split at h
    · cases h
    · obtain ⟨d, -, he⟩ := bind_eq_ok.mp h
      cases he
  unfold fromNumpy at hok
  split at hok
  · cases hok
  · rename_i t ht
    split at hok
    · cases hok
    · rename_i hsmall
      push Not at hsmall
      rw [hs] at hok
      obtain ⟨found, hfound, hrest⟩ := bind_eq_ok.mp hok
      cases found with
      | none => exact absurd hrest (hcopy t)
      | some v =>
        cases hrest
        exact ⟨hsmall.1, hfound⟩

/-- An adopted description is not empty. -/
theorem viewOfNumpy_nonempty (hv : o.viewOfNumpy alloc y.raw = .ok (some b)) : 0 < y.raw.shape.prod := by
  unfold PyArray.viewOfNumpy at hv
  split at hv
  · cases hv
  · split at hv
    · cases hv
    · rename_i hne
      by_contra hz
      exact hne (wrapProduct_zero (Nat.eq_zero_of_not_pos hz))

/-- The arrays reached from an owner by native steps and by NumPy functions that return
views, in any order, each with the index map that NumPy composes for it. -/
inductive Route (deref : Owner → PyArray) (o : PyArray) : IndexMap → PyArray → Prop
  | owner : Route deref o (.refl o.shape) o
  | native {m n : IndexMap} {a b : PyArray} {step : Step} {alloc : ℕ} (route : Route deref o m a) (address : alloc < wordModulus)
      (resolved : step.Resolved a.shape) (map : numpyStep step a.shape = some n)
      (run : a.runStep (fun p => p) alloc step = .ok (.array b)) : Route deref o (m.comp n) b
  | numpy {m n : IndexMap} {a b : PyArray} {x y : NumpyView} {alloc : ℕ} {dunder : Bool} (route : Route deref o m a)
      (address : alloc < wordModulus) (exported : a.asNumpy = .ok x) (views : x.Views y n)
      (adopted : fromNumpy deref alloc dunder y = .ok (.view b)) : Route deref o (m.comp n) b

/-- A faithful map out of an array that is not empty leads to one that is not. -/
theorem Denotes.len_ne_zero_of_comp {f : Frame} (ha : Denotes f m a) (hinto : n.Into m.shape) (hne : 0 < n.shape.prod) : a.len ≠ 0 := by
  have hle := hinto.prod_le
  rw [ha.len]
  omega

/-- One detour: the adopted view shows the elements NumPy selected. -/
theorem NumpyView.Views.adopted (ho : o.OwnerWf) (hderef : deref o.baseOf = o) (hd : Denotes o.frame m a)
    (hbase : a.len ≠ 0 → a.baseOf = o.baseOf) (hx : a.asNumpy = .ok x) (hy : x.Views y n) {dunder : Bool}
    (halloc : alloc < wordModulus) (hok : fromNumpy deref alloc dunder y = .ok (.view b)) :
    Denotes o.frame (m.comp n) b ∧ b.baseOf = o.baseOf := by
  have hstored := (hd.sound ho.sound.frame_fits).stored
  obtain ⟨hndim, hv⟩ := fromNumpy_view hok (hy.source_eq hstored hx)
  have hne := viewOfNumpy_nonempty hv
  rw [hy.shape] at hne hndim
  have hinto : n.Into m.shape := by
    have h := hy.into
    cases (hstored.asNumpy.symm.trans hx)
    rwa [← hd.shape, ← a.layout_shape]
  rw [hbase (hd.len_ne_zero_of_comp hinto hne), hderef] at hv
  obtain ⟨hdesc, helements⟩ := hy.describable ho hd hx hne hndim
  refine ⟨denotes_viewOfNumpy ho hdesc (hd.into.comp hinto) hy.shape (fun idx hidx => (helements idx hidx).2) halloc hv, ?_⟩
  rw [ho.baseOf]
  exact (PyArray.viewOfNumpy_shares ho.ownsBuffer hdesc halloc hv).1.2.2

theorem Route.denotes (ho : o.OwnerWf) (hderef : deref o.baseOf = o) (h : Route deref o m a) :
    Denotes o.frame m a ∧ (a.len ≠ 0 → a.baseOf = o.baseOf) := by
  induction h with
  | owner => exact ⟨ho.sound.denotes, fun _ => rfl⟩
  | native route address resolved map run ih =>
    obtain ⟨hd, hbase⟩ := ih
    obtain ⟨n', hn, hb⟩ := hd.runStep ho.sound.frame_fits address resolved run
    cases (map.symm.trans (hd.shape ▸ hn))
    refine ⟨hb, fun hne => ?_⟩
    rw [PyArray.runStep_baseOf run hne]
    apply hbase
    have hle := (hd.sound ho.sound.frame_fits).runStep_len_le address resolved run
    omega
  | numpy route address exported views adopted ih =>
    obtain ⟨hd, hbase⟩ := ih
    obtain ⟨hb, hown⟩ := views.adopted ho hderef hd hbase exported address adopted
    exact ⟨hb, fun _ => hown⟩

end detour

end LightArray
