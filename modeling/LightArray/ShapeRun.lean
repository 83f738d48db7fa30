import LightArray.Reshape

namespace LightArray
open MachineWord RowMajor

/-- A construction or a reshaping of the current array. -/
inductive ShapeOp
  | new (t : DType) (len : ℕ) (shape : List ℕ)
  | filled (t : DType) (shape : List ℕ)
  | reshape (raw : List ℤ)
  | assignShape (raw : List ℤ)

namespace ShapeOp

def run (alloc : ℕ) (a : PyArray) : ShapeOp → Except Failure PyArray
  | .new t len shape => PyArray.new alloc t len shape
  | .filled t shape => PyArray.filled alloc t shape
  | .reshape raw => a.reshape alloc raw
  | .assignShape raw => a.assignShape raw

/-- A buffer never exceeds `isize::MAX` bytes. -/
def Valid : ShapeOp → Prop
  | .new t len _ => t.itemsize*len ≤ isizeMax
  | _ => True

/-- The operations whose dimensions do not overflow onto a size the check accepts. -/
def Exact (a : PyArray) : ShapeOp → Prop
  | .new _ len shape =>
    ¬ (shape.length ≤ maxNdim ∧ wordModulus ≤ shape.prod ∧ shape.prod%wordModulus = len)
  | .filled t shape =>
    ¬ (shape.length ≤ maxNdim ∧ wordModulus ≤ shape.prod ∧
      shape.prod%wordModulus*t.itemsize ≤ isizeMax)
  | .reshape raw => NoOverflow a.len raw
  | .assignShape raw => a.strided.isSome ∨ NoOverflow a.len raw

end ShapeOp

namespace PyArray

variable {a b : PyArray} {alloc : ℕ}

/-- What a successful operation returns: the requested shape over as many
elements as its wrapped product says. -/
structure Reshaped (t : DType) (len : ℕ) (shape : List ℕ) (b : PyArray) : Prop where
  dtype : b.dtype = t
  shape_eq : b.shape = shape
  len_eq : b.len = len
  wrapped : wrapProduct shape = len

theorem new_ok {t : DType} {len : ℕ} {shape : List ℕ} (h : new alloc t len shape = .ok b) :
    Reshaped t len shape b := by
  obtain ⟨d, hd, he⟩ := bind_eq_ok.mp h
  cases he
  obtain ⟨hs, hsize⟩ := Dims.checked_ok hd
  exact ⟨rfl, hs, rfl, by rw [← hsize, Dims.size, hs]⟩

theorem filled_ok {t : DType} {shape : List ℕ} (h : filled alloc t shape = .ok b) :
    Reshaped t (wrapProduct shape) shape b := by
  obtain ⟨d, hd, he⟩ := bind_eq_ok.mp h
  cases he
  obtain ⟨hs, -⟩ := Dims.allocated_ok hd
  exact ⟨rfl, hs, by rw [Dims.size, hs], rfl⟩

theorem reshapeView_ok {shape : List ℕ} (h : a.reshapeView shape = .ok b) :
    Reshaped a.dtype a.len shape b := by
  obtain ⟨d, hd, hv⟩ := bind_eq_ok.mp h
  obtain ⟨hs, hsize⟩ := Dims.checked_ok hd
  unfold view at hv
  split at hv
  · cases hv
    exact ⟨rfl, hs, hsize, by rw [← hsize, Dims.size, hs]⟩
  · cases hv

theorem setShape_ok {shape : List ℕ} (h : a.setShape shape = .ok b) :
    Reshaped a.dtype a.len shape b := by
  unfold setShape at h
  split at h
  · cases h
  · rename_i hprod
    obtain ⟨d, hd, he⟩ := bind_eq_ok.mp h
    cases he
    exact ⟨rfl, Dims.withItemsize_ok hd, rfl, not_not.mp hprod⟩

theorem reshape_ok {raw : List ℤ} (h : a.reshape alloc raw = .ok b) :
    Resolves a.len raw ∧ Reshaped a.dtype a.len (fillIn (a.len/knownSize raw) raw) b := by
  obtain ⟨shape, hshape, hrest⟩ := bind_eq_ok.mp h
  obtain ⟨hres, rfl⟩ := extractShapeArgs_ok.mp hshape
  split at hrest
  · exact ⟨hres, new_ok hrest⟩
  · exact ⟨hres, reshapeView_ok hrest⟩

theorem assignShape_ok {raw : List ℤ} (h : a.assignShape raw = .ok b) :
    a.strided = none ∧ Resolves a.len raw ∧
      Reshaped a.dtype a.len (fillIn (a.len/knownSize raw) raw) b := by
  unfold assignShape at h
  split at h
  · cases h
  · rename_i hs
    obtain ⟨shape, hshape, hrest⟩ := bind_eq_ok.mp h
    obtain ⟨hres, rfl⟩ := resolveShape_ok.mp hshape
    rw [Bool.not_eq_true, Option.isSome_eq_false_iff, Option.isNone_iff_eq_none] at hs
    exact ⟨hs, hres, setShape_ok hrest⟩

theorem exists_new (alloc : ℕ) (t : DType) {len : ℕ} {shape : List ℕ} (hndim : shape.length ≤ maxNdim)
    (hprod : wrapProduct shape = len) : ∃ b, new alloc t len shape = .ok b := by
  obtain ⟨d, hd⟩ : ∃ d : Dims t.itemsize, Dims.checked shape t.itemsize len = .ok d :=
    Dims.checked_iff.mpr ⟨hndim, hprod⟩
  refine ⟨⟨t, d, alloc, len, none, none⟩, ?_⟩
  rw [new, hd]
  rfl

theorem exists_reshapeView {shape : List ℕ} (hndim : shape.length ≤ maxNdim)
    (hprod : wrapProduct shape = a.len) : ∃ b, a.reshapeView shape = .ok b := by
  obtain ⟨d, hd⟩ : ∃ d : Dims a.dtype.itemsize, Dims.checked shape a.dtype.itemsize a.len = .ok d :=
    Dims.checked_iff.mpr ⟨hndim, hprod⟩
  have hwrap : wrapUsize (0+d.size) ≤ a.len := by
    rw [(Dims.checked_ok hd).2, zero_add]
    exact Nat.mod_le ..
  refine ⟨⟨a.dtype, d, a.elementPtr 0, d.size, some a.baseOf, none⟩, ?_⟩
  rw [reshapeView, hd]
  exact if_pos hwrap

/-- A request that resolves to a shape of the right wrapped size is carried out. -/
theorem reshape_of_resolves (alloc : ℕ) {raw : List ℤ} (hlen : raw.length ≤ maxNdim) (hres : Resolves a.len raw)
    (hprod : wrapProduct (fillIn (a.len/knownSize raw) raw) = a.len) :
    ∃ b, a.reshape alloc raw = .ok b := by
  have hargs := extractShapeArgs_ok.mpr ⟨hres, rfl⟩
  have hndim : (fillIn (a.len/knownSize raw) raw).length ≤ maxNdim := by rwa [length_fillIn]
  rw [reshape, hargs]
  show ∃ b, (if a.strided.isSome then new alloc a.dtype a.len _ else a.reshapeView _) = .ok b
  split
  · exact exists_new alloc a.dtype hndim hprod
  · exact exists_reshapeView hndim hprod

theorem assignShape_of_resolves {raw : List ℤ} (hs : a.strided = none) (hlen : raw.length ≤ maxNdim)
    (hres : Resolves a.len raw) (hprod : wrapProduct (fillIn (a.len/knownSize raw) raw) = a.len) :
    ∃ b, a.assignShape raw = .ok b := by
  have hargs := resolveShape_ok.mpr ⟨hres, rfl⟩
  obtain ⟨d, hd, -⟩ := Dims.withItemsize_of_le a.dtype.itemsize
    (show (fillIn (a.len/knownSize raw) raw).length ≤ maxNdim by rwa [length_fillIn])
  refine ⟨⟨a.dtype, d, a.ptr, a.len, a.base, a.strided⟩, ?_⟩
  rw [assignShape, if_neg (by simp [hs]), hargs]
  show a.setShape _ = _
  rw [setShape, if_neg (not_not.mpr hprod), hd]
  rfl

/-- Carrying out a request keeps an array well sized when its product is exact. -/
theorem Reshaped.wellSized {t : DType} {len : ℕ} {shape : List ℕ} (h : Reshaped t len shape b)
    (hexact : shape.prod = len) (hfits : t.itemsize*len ≤ isizeMax) : b.WellSized := by
  refine ⟨?_, ?_⟩
  · rw [h.len_eq, h.shape_eq, hexact]
  · rw [itemsize, h.dtype, h.len_eq]
    exact hfits

theorem Reshaped.prod_eq {t : DType} {len : ℕ} {shape : List ℕ} (h : Reshaped t len shape b)
    (hexact : b.ExactShape) : shape.prod = len := by
  rw [← h.shape_eq, ← hexact.1, h.len_eq]

end PyArray

namespace ShapeOp

variable {a b : PyArray} {op : ShapeOp} {alloc : ℕ}

theorem run_wellSized (ha : a.WellSized) (hv : op.Valid) (hop : op.Exact a)
    (h : op.run alloc a = .ok b) : b.WellSized := by
  have hraw {raw : List ℤ} (hno : NoOverflow a.len raw) (hres : Resolves a.len raw)
      (hb : b.Reshaped a.dtype a.len (fillIn (a.len/knownSize raw) raw)) : b.WellSized := by
    have hlen : raw.length ≤ maxNdim := by
      rw [← length_fillIn (a.len/knownSize raw) raw, ← hb.shape_eq]
      exact b.dims.ndim_le
    exact hb.wellSized ((resolves_exact_iff ha.len_lt).mpr hno hres hlen hb.wrapped) ha.fits
  have hprod {t : DType} {len : ℕ} {shape : List ℕ} (hb : b.Reshaped t len shape)
      (hlt : shape.length ≤ maxNdim → shape.prod < wordModulus) : shape.prod = len := by
    have hw := hb.wrapped
    rwa [wrapProduct_of_lt (hlt (hb.shape_eq ▸ b.dims.ndim_le))] at hw
  cases op with
  | new t len shape =>
    have hb := PyArray.new_ok h
    refine hb.wellSized (hprod hb fun hlen => ?_) hv
    by_contra hge
    have hw := hb.wrapped
    rw [wrapProduct_eq] at hw
    exact hop ⟨hlen, not_lt.mp hge, hw⟩
  | filled t shape =>
    have hb := PyArray.filled_ok h
    obtain ⟨d, hd, -⟩ := bind_eq_ok.mp h
    obtain ⟨hlen, hfit⟩ := Dims.allocated_iff.mp ⟨d, hd⟩
    refine hb.wellSized (hprod hb fun _ => ?_) (by rwa [mul_comm])
    by_contra hge
    rw [wrapProduct_eq] at hfit
    exact hop ⟨hlen, not_lt.mp hge, hfit⟩
  | reshape raw =>
    obtain ⟨hres, hb⟩ := PyArray.reshape_ok h
    exact hraw hop hres hb
  | assignShape raw =>
    obtain ⟨hs, hres, hb⟩ := PyArray.assignShape_ok h
    rcases hop with hstr | hno
    · rw [hs] at hstr
      cases hstr
    · exact hraw hno hres hb

/-- An operation outside its condition succeeds with a shape that promises more. -/
theorem exact_of_run (ha : a.WellSized)
    (h : ∀ alloc b, op.run alloc a = .ok b → b.ExactShape) : op.Exact a := by
  cases op with
  | new t len shape =>
    rintro ⟨hlen, hge, hmod⟩
    have hmod' : wrapProduct shape = len := (wrapProduct_eq shape).trans hmod
    obtain ⟨d, hd⟩ := Dims.checked_iff.mpr ⟨hlen, hmod'⟩
    have hrun : PyArray.new 0 t len shape = .ok ⟨t, d, 0, len, none, none⟩ := by
      rw [PyArray.new, hd]
      rfl
    have hp := (PyArray.new_ok hrun).prod_eq (h 0 _ hrun)
    have hlt : shape.prod%wordModulus < wordModulus := Nat.mod_lt _ (by decide)
    omega
  | filled t shape =>
    rintro ⟨hlen, hge, hfit⟩
    have hfit' : wrapProduct shape*t.itemsize ≤ isizeMax := by rwa [wrapProduct_eq]
    obtain ⟨d, hd⟩ := Dims.allocated_iff.mpr ⟨hlen, hfit'⟩
    have hrun : PyArray.filled 0 t shape = .ok ⟨t, d, 0, d.size, none, none⟩ := by
      rw [PyArray.filled, hd]
      rfl
    have hp := (PyArray.filled_ok hrun).prod_eq (h 0 _ hrun)
    have hlt := wrapUsize_lt shape.prod
    rw [wrapProduct_eq] at hp
    omega
  | reshape raw =>
    refine (resolves_exact_iff ha.len_lt).mp fun hres hlen hprod => ?_
    obtain ⟨b, hb⟩ := PyArray.reshape_of_resolves 0 hlen hres hprod
    exact (PyArray.reshape_ok hb).2.prod_eq (h 0 b hb)
  | assignShape raw =>
    rw [Exact, or_iff_not_imp_left]
    intro hs
    rw [Bool.not_eq_true, Option.isSome_eq_false_iff, Option.isNone_iff_eq_none] at hs
    refine (resolves_exact_iff ha.len_lt).mp fun hres hlen hprod => ?_
    obtain ⟨b, hb⟩ := PyArray.assignShape_of_resolves hs hlen hres hprod
    exact (PyArray.assignShape_ok hb).2.2.prod_eq (h 0 b hb)

end ShapeOp

/-- Runs of operations that all meet their condition. -/
inductive ShapeRun (a : PyArray) : PyArray → Prop
  | start : ShapeRun a a
  | step {b c : PyArray} {op : ShapeOp} {alloc : ℕ} (run : ShapeRun a b) (valid : op.Valid)
      (exact : op.Exact b) (ok : op.run alloc b = .ok c) : ShapeRun a c

theorem ShapeRun.wellSized {a b : PyArray} (ha : a.WellSized) (h : ShapeRun a b) : b.WellSized := by
  induction h with
  | start => exact ha
  | step _ valid exact ok ih => exact ShapeOp.run_wellSized ih valid exact ok

/-- An operation yields exact shapes only, exactly when its dimensions do not
overflow; and no run of such operations reaches a shape that promises more
elements than its buffer holds. -/
theorem exactShape_iff_exact {a : PyArray} (ha : a.WellSized) :
    (∀ op : ShapeOp, op.Valid →
      ((∀ alloc b, op.run alloc a = .ok b → b.ExactShape) ↔ op.Exact a)) ∧
      ∀ b, ShapeRun a b → b.ExactShape := by
  refine ⟨fun op hv => ⟨ShapeOp.exact_of_run ha, fun hop alloc b h => ?_⟩, fun b h => ?_⟩
  · exact (ShapeOp.run_wellSized ha hv hop h).exactShape
  · exact (h.wellSized ha).exactShape

/-- Two elements. -/
def pair : PyArray := ⟨.float64, ⟨[2], [8], by decide, by decide⟩, 4096, 2, none, none⟩

theorem pair_wellSized : pair.WellSized := ⟨by decide, by decide⟩

/-- The product of these dimensions is `2^64+2`. -/
theorem reshape_overflow_accepted :
    ¬ ∀ (a : PyArray) (op : ShapeOp), a.WellSized → op.Valid →
      ∀ alloc b, op.run alloc a = .ok b → b.ExactShape := by
  intro h
  have hexact : ShapeOp.Exact pair (.reshape [6,3074457345618258603]) :=
    ShapeOp.exact_of_run pair_wellSized (h pair _ pair_wellSized trivial)
  exact hexact (by decide)

theorem exactShape_iff_exact_pair :
    ShapeOp.Exact pair (.reshape [-1,1]) ∧
      ∀ alloc b, ShapeOp.run alloc pair (.reshape [-1,1]) = .ok b → b.ExactShape := by
  have hno : ShapeOp.Exact pair (.reshape [-1,1]) := by
    rw [ShapeOp.Exact, NoOverflow]
    decide
  exact ⟨hno, ((exactShape_iff_exact pair_wellSized).1 (.reshape [-1,1]) trivial).mpr hno⟩

end LightArray
