import LightArray.CachedViews

namespace LightArray
open MachineWord RowMajor

/-- One integer for each axis, each an index of it. -/
def InBounds (shape : List ℕ) (ints : List ℤ) : Prop :=
  List.Forall₂ (fun (i : ℤ) (d : ℕ) => -(d:ℤ) ≤ i ∧ i < d) ints shape

instance (shape : List ℕ) (ints : List ℤ) : Decidable (InBounds shape ints) :=
  inferInstanceAs (Decidable (List.Forall₂ (fun (i : ℤ) (d : ℕ) => -(d:ℤ) ≤ i ∧ i < d) ints shape))

def Failure.isPanic : Failure → Bool
  | .panic _ => true
  | _ => false

theorem PlanOf.inBounds {shape : List ℕ} {ints : List ℤ} {plan : List PlanAxis} {n : IndexMap}
    (h : PlanOf (ints.map .int) shape plan n) (hlen : ints.length = shape.length) : InBounds shape ints := by
  induction ints generalizing shape plan n with
  | nil =>
    rw [List.length_nil, eq_comm, List.length_eq_zero_iff] at hlen
    subst hlen
    exact .nil
  | cons i ints ih =>
    cases h with
    | int lower upper tail => exact .cons ⟨lower, upper⟩ (ih tail (by simpa using hlen))

theorem normalizeIndex_error {len axis : ℕ} {i : ℤ} {e : Failure} (h : normalizeIndex len i axis = .error e) :
    e.isPanic = false := by
  unfold normalizeIndex at h
  generalize (if i < 0 then wrapIsize (i+asIsize len) else i) = j at h
  dsimp only at h
  split_ifs at h
  cases h
  rfl

theorem locateLoop_error {axis offset : ℕ} {shape strides : List ℕ} {ints : List ℤ} {e : Failure}
    (h : locateLoop axis offset shape strides ints = .error e) : e.isPanic = false := by
  induction ints generalizing axis offset shape strides with
  | nil => cases shape <;> cases strides <;> cases h
  | cons i ints ih =>
    cases shape with
    | nil => cases h
    | cons len shape =>
      cases strides with
      | nil => cases h
      | cons stride strides =>
        rw [locateLoop] at h
        cases hk : normalizeIndex len i axis with
        | ok k =>
          rw [hk] at h
          exact ih h
        | error e' =>
          rw [hk] at h
          cases h
          exact normalizeIndex_error hk

theorem stridedElementLoop_error {axis ptr : ℕ} {shape : List ℕ} {strides ints : List ℤ} {e : Failure}
    (h : PyArray.stridedElementLoop axis ptr ints shape strides = .error e) : e.isPanic = false := by
  induction ints generalizing axis ptr shape strides with
  | nil => cases h
  | cons i ints ih =>
    cases shape with
    | nil => cases h
    | cons len shape =>
      cases strides with
      | nil => cases h
      | cons stride strides =>
        rw [stridedElementLoop_cons] at h
        split_ifs at h
        · cases h
          rfl
        · exact ih h

theorem checkKey_ints (ndim axis : ℕ) (ints : List ℤ) :
    checkKey ndim axis (ints.map .int) = if ∃ i ∈ ints, i < -(2^63) ∨ 2^63 ≤ i then
      .error (.python .overflowError "Python int too large to convert to C long") else .ok () := by
  induction ints generalizing axis with
  | nil => simp [checkKey]
  | cons i ints ih =>
    rw [List.map_cons, checkKey, ih]
    simp only [List.mem_cons, exists_eq_or_imp]
    by_cases hi : i < -(2^63) ∨ 2^63 ≤ i
    · rw [if_pos hi, if_pos (.inl hi)]
    · rw [if_neg hi]
      exact if_congr (or_iff_right hi).symm rfl rfl

theorem onlyInts_ints (ints : List ℤ) : onlyInts (ints.map .int) = some ints := by
  induction ints with
  | nil => rfl
  | cons i ints ih => rw [List.map_cons, onlyInts, ih, Option.map_some]

namespace PyArray

variable {T : Type} {a : PyArray} {ints : List ℤ} {mem : ℕ → T} {alloc : ℕ}

/-- Address of the element at a full integer index, in the base for a strided view. -/
def fullAddress (a : PyArray) (ints : List ℤ) : Except Failure ℕ :=
  match a.strided with
  | some v => stridedElementLoop 0 v.ptr ints a.dims.shape v.strides
  | none => do
    let offset ← locateLoop 0 0 a.dims.shape a.dims.elemStrides ints
    if offset < a.len then .ok (a.elementPtr offset) else .error (.panic "index out of bounds")

theorem stridedElement_full (hs : a.strided.isSome) (hfull : ints.length = a.shape.length) :
    a.stridedElement ints = (a.fullAddress ints).map some := by
  obtain ⟨v, hv⟩ := Option.isSome_iff_exists.mp hs
  have hndim : ¬ ints.length ≠ a.dims.ndim := not_not.mpr hfull
  simp only [stridedElement, fullAddress, hv, if_neg hndim]
  rfl

theorem stridedElement_plain (hs : a.strided = none) : a.stridedElement ints = .ok none := by
  simp only [stridedElement, hs]

/-- `locate` of a full index ends at an element. -/
theorem locate_full (hfull : ints.length = a.shape.length) :
    ∃ d : Dims a.dtype.itemsize, d.ndim = 0 ∧ a.dims.locate ints =
      (locateLoop 0 0 a.dims.shape a.dims.elemStrides ints).map fun offset => (offset, d) := by
  refine ⟨a.dims.dropLeading ints.length, ?_, ?_⟩
  · rw [Dims.ndim, Dims.dropLeading_shape, hfull, shape, List.drop_length, List.length_nil]
  · rw [Dims.locate, if_neg (by rw [hfull, Dims.ndim, shape]; omega)]
    rfl

theorem get_full (hs : a.strided = none) (hfull : ints.length = a.shape.length) :
    a.get mem ints = (a.fullAddress ints).map fun p => some (mem p) := by
  obtain ⟨d, hd, hloc⟩ := locate_full hfull
  rw [get, hloc]
  simp only [fullAddress, hs]
  cases locateLoop 0 0 a.dims.shape a.dims.elemStrides ints with
  | error e => rfl
  | ok offset =>
    show (if d.ndim = 0 then _ else _) = Except.map _ (if offset < a.len then _ else _)
    rw [if_pos hd]
    split_ifs <;> rfl

theorem set_full {value : T} (hs : a.strided = none) (hfull : ints.length = a.shape.length) :
    a.set ints value mem = (a.fullAddress ints).map fun p => Function.update mem p value := by
  obtain ⟨d, hd, hloc⟩ := locate_full hfull
  rw [set, hloc]
  simp only [fullAddress, hs]
  cases locateLoop 0 0 a.dims.shape a.dims.elemStrides ints with
  | error e => rfl
  | ok offset =>
    show (if d.ndim ≠ 0 then _ else _) = Except.map _ (if offset < a.len then _ else _)
    rw [if_neg (not_not.mpr hd)]
    split_ifs <;> rfl

theorem indexResult_address (hfull : ints.length = a.shape.length) :
    a.indexResult mem alloc ints = (a.fullAddress ints).map fun p => .scalar (mem p) := by
  rw [indexResult]
  cases hs : a.strided with
  | some v =>
    rw [stridedElement_full (by rw [hs]; rfl) hfull]
    cases a.fullAddress ints <;> rfl
  | none =>
    rw [stridedElement_plain hs, get_full hs hfull]
    cases a.fullAddress ints <;> rfl

namespace Sound

theorem fullAddress_inBounds (h : a.Sound) (hin : InBounds a.shape ints) :
    a.fullAddress ints = .ok (a.elementAddress (List.zipWith coordinate a.shape ints)) := by
  have hread := (h.indexResult_ints (fun p => p) 0 hin).2
  rw [indexResult_address hin.length_eq] at hread
  cases hp : a.fullAddress ints with
  | error e =>
    rw [hp] at hread
    cases hread
  | ok p =>
    rw [hp] at hread
    cases hread
    rfl

/-- Any other index is refused with an exception. -/
theorem fullAddress_outside (h : a.Sound) (hfull : ints.length = a.shape.length)
    (hints : ¬ ∃ i ∈ ints, i < -(2^63) ∨ 2^63 ≤ i) (hout : ¬ InBounds a.shape ints) :
    ∃ e, a.fullAddress ints = .error e ∧ e.isPanic = false := by
  have hisize : ∀ i ∈ ints, -(2^63) ≤ i ∧ i < 2^63 := by
    intro i hi
    by_contra hbeyond
    exact hints ⟨i, hi, by omega⟩
  cases hs : a.strided with
  | some v =>
    simp only [fullAddress, hs]
    cases hp : stridedElementLoop 0 v.ptr ints a.dims.shape v.strides with
    | error e => exact ⟨e, rfl, stridedElementLoop_error hp⟩
    | ok p =>
      have hl : a.layoutOf = ⟨v.ptr, a.dims.shape, v.strides⟩ := by simp only [layoutOf, hs]
      have hwf := h.wf
      rw [hl] at hwf
      obtain ⟨-, plan, n, hn, -⟩ := stridedElementLoop_ok hisize h.usize hfull hwf.strides_length hwf.ptr_lt hp
      exact absurd (hn.inBounds hfull) hout
  | none =>
    simp only [fullAddress, hs]
    cases hoff : locateLoop 0 0 a.dims.shape a.dims.elemStrides ints with
    | error e => exact ⟨e, rfl, locateLoop_error hoff⟩
    | ok offset =>
      have hstr : a.dims.elemStrides.length = a.dims.shape.length := by
        rw [Dims.elemStrides, List.length_map, a.dims.length_strides]
      obtain ⟨-, plan, n, hn, -⟩ := locateLoop_ok h.usize hisize hstr hfull.le (by decide) hoff
      exact absurd (hn.inBounds hfull) hout

theorem isize_of_inBounds (h : a.Sound) (hin : InBounds a.shape ints) :
    ¬ ∃ i ∈ ints, i < -(2^63) ∨ 2^63 ≤ i := by
  rintro ⟨i, hi, hbeyond⟩
  have hpos := (h.indexResult_ints (fun p => p) 0 hin).1.prod_pos
  have hdims := h.denotes.isize_shape h.frame_fits hpos.ne'
  obtain ⟨k, hk, rfl⟩ := List.getElem_of_mem hi
  have hk' : k < a.shape.length := hin.length_eq ▸ hk
  have hrange := (List.forall₂_iff_get.mp hin).2 k hk hk'
  have hle : a.shape[k] ≤ isizeMax := hdims _ (List.getElem_mem hk')
  rw [isizeMax_eq] at hle
  rw [List.get_eq_getElem, List.get_eq_getElem] at hrange
  dsimp only at hrange hbeyond
  omega

end Sound

end PyArray

end LightArray
