import LightArray.PyArray

namespace LightArray
open MachineWord RowMajor

/-- Dimensions given, without the one to be inferred. -/
def givenDims (raw : List ℤ) : List ℕ := (raw.filter (0 ≤ ·)).map Int.toNat

def unknownCount (raw : List ℤ) : ℕ := (raw.filter (· < 0)).length

/-- The wrapping product of the dimensions given. -/
def knownSize (raw : List ℤ) : ℕ := wrapProduct (givenDims raw)

/-- The loop over the requested dimensions: a negative one is refused or
replaced by the inferred length. -/
def resolveLoop (refuse : Bool) (inferred : ℕ) (failure : Failure) :
    List ℤ → Except Failure (List ℕ)
  | [] => .ok []
  | d :: raw =>
    if d < 0 then
      if refuse then .error failure
      else do
        let shape ← resolveLoop refuse inferred failure raw
        .ok (inferred :: shape)
    else do
      let shape ← resolveLoop refuse inferred failure raw
      .ok (d.toNat :: shape)

def cannotReshape (size : ℕ) (raw : List ℤ) : Failure :=
  .python .valueError s!"cannot reshape array of size {size} into shape {raw}"

def cannotInfer (size : ℕ) (raw : List ℤ) : Bool :=
  knownSize raw == 0 || size%knownSize raw != 0

/-- The shape requested from `reshape` for an array of `size` elements. -/
def extractShapeArgs (size : ℕ) (raw : List ℤ) : Except Failure (List ℕ) :=
  if 1 < unknownCount raw then
    .error (.python .valueError "can only specify one unknown dimension")
  else
    resolveLoop (cannotInfer size raw) (size/knownSize raw) (cannotReshape size raw) raw

/-- The shape requested by `a.shape = raw`. -/
def resolveShape (size : ℕ) (raw : List ℤ) : Except Failure (List ℕ) :=
  resolveLoop (1 < unknownCount raw || cannotInfer size raw) (size/knownSize raw)
    (cannotReshape size raw) raw

namespace PyArray

/-- `Array::new` on a buffer of `len` elements at `ptr`. -/
def new (ptr : ℕ) (t : DType) (len : ℕ) (shape : List ℕ) : Except Failure PyArray := do
  let d ← Dims.checked shape t.itemsize len
  .ok ⟨t, d, ptr, len, none, none⟩

/-- The whole buffer under another shape, as a view. -/
def reshapeView (a : PyArray) (shape : List ℕ) : Except Failure PyArray := do
  let d ← Dims.checked shape a.dtype.itemsize a.len
  a.view 0 d

/-- `a.reshape(raw)` for at most 8 dimensions: a strided view is copied. -/
def reshape (alloc : ℕ) (a : PyArray) (raw : List ℤ) : Except Failure PyArray := do
  let shape ← extractShapeArgs a.len raw
  if a.strided.isSome then new alloc a.dtype a.len shape
  else a.reshapeView shape

/-- `a.shape = raw`. -/
def assignShape (a : PyArray) (raw : List ℤ) : Except Failure PyArray :=
  if a.strided.isSome then
    .error (.python .attributeError
      "Incompatible shape for in-place modification. Use `.reshape()` to make a copy with the desired shape.")
  else do
    let shape ← resolveShape a.len raw
    a.setShape shape

/-- One element for every multi-index, within the allocation limit. -/
structure WellSized (a : PyArray) : Prop where
  len_eq : a.len = a.shape.prod
  fits : a.itemsize*a.len ≤ isizeMax

/-- The data length is the natural-number product of the shape and the strides
of a non-empty array are the exact row-major ones. -/
def ExactShape (a : PyArray) : Prop :=
  a.len = a.shape.prod ∧
    (a.len ≠ 0 → a.dims.strides = (unitStrides a.shape).map fun p => ((a.itemsize*p : ℕ) : ℤ))

theorem WellSized.exactShape {a : PyArray} (h : a.WellSized) : a.ExactShape := by
  refine ⟨h.len_eq, fun hne => ?_⟩
  rw [h.len_eq] at hne
  exact a.dims.strides_exact hne (h.len_eq ▸ h.fits)

theorem WellSized.len_lt {a : PyArray} (h : a.WellSized) : a.len < wordModulus := by
  have hle : a.len ≤ a.itemsize*a.len := Nat.le_mul_of_pos_left _ a.dtype.itemsize_pos
  have hf := h.fits
  rw [isizeMax_eq] at hf
  rw [wordModulus_eq]
  omega

end PyArray

section resolve

/-- The shape the loop builds when it refuses nothing. -/
def fillIn (inferred : ℕ) (raw : List ℤ) : List ℕ :=
  raw.map fun d => if d < 0 then inferred else d.toNat

theorem resolveLoop_eq (refuse : Bool) (inferred : ℕ) (failure : Failure) (raw : List ℤ) :
    resolveLoop refuse inferred failure raw =
      if unknownCount raw = 0 ∨ refuse = false then .ok (fillIn inferred raw) else .error failure := by
  induction raw with
  | nil => rfl
  | cons d raw ih =>
    by_cases hd : d < 0
    · cases refuse with
      | true => simp [resolveLoop, unknownCount, hd]
      | false => simp [resolveLoop, ih, fillIn, hd, bind, Except.bind]
    · have hcount : unknownCount (d :: raw) = unknownCount raw := by simp [unknownCount, hd]
      rw [resolveLoop, if_neg hd, ih, hcount]
      split
      · simp [fillIn, hd, bind, Except.bind]
      · rfl

theorem resolveLoop_ok {refuse : Bool} {inferred : ℕ} {failure : Failure} {raw : List ℤ}
    {shape : List ℕ} : resolveLoop refuse inferred failure raw = .ok shape ↔
      (unknownCount raw = 0 ∨ refuse = false) ∧ shape = fillIn inferred raw := by
  rw [resolveLoop_eq]
  split <;> simp_all [eq_comm]

theorem length_fillIn (inferred : ℕ) (raw : List ℤ) : (fillIn inferred raw).length = raw.length :=
  List.length_map ..

theorem fillIn_usize {size : ℕ} {raw : List ℤ} (hsize : size < wordModulus)
    (hraw : ∀ d ∈ raw, -(2^63) ≤ d ∧ d < 2^63) :
    ∀ d ∈ fillIn (size/knownSize raw) raw, d < wordModulus := by
  intro d hd
  obtain ⟨e, he, rfl⟩ := List.mem_map.mp hd
  split
  · exact (Nat.div_le_self ..).trans_lt hsize
  · have hle := (hraw e he).2
    rw [wordModulus_eq]
    omega

theorem prod_fillIn (inferred : ℕ) (raw : List ℤ) :
    (fillIn inferred raw).prod = (givenDims raw).prod*inferred^unknownCount raw := by
  induction raw with
  | nil => rfl
  | cons d raw ih =>
    by_cases hd : d < 0
    · have hg : givenDims (d :: raw) = givenDims raw := by simp [givenDims, hd]
      have hu : unknownCount (d :: raw) = unknownCount raw+1 := by simp [unknownCount, hd]
      rw [hg, hu, fillIn, List.map_cons, List.prod_cons, ← fillIn, ih, if_pos hd, pow_succ]
      ring
    · have hg : givenDims (d :: raw) = d.toNat :: givenDims raw := by
        simp [givenDims, not_lt.mp hd]
      have hu : unknownCount (d :: raw) = unknownCount raw := by simp [unknownCount, hd]
      rw [hg, hu, fillIn, List.map_cons, List.prod_cons, ← fillIn, ih, if_neg hd, List.prod_cons]
      ring

/-- A request resolves when it infers at most one dimension and that one exactly. -/
def Resolves (size : ℕ) (raw : List ℤ) : Prop :=
  unknownCount raw = 0 ∨ unknownCount raw = 1 ∧ knownSize raw ≠ 0 ∧ knownSize raw ∣ size

theorem cannotInfer_eq_false {size : ℕ} {raw : List ℤ} :
    cannotInfer size raw = false ↔ knownSize raw ≠ 0 ∧ knownSize raw ∣ size := by
  simp [cannotInfer, Nat.dvd_iff_mod_eq_zero]

/-- The two copies of the resolution agree on what they accept. -/
theorem extractShapeArgs_ok {size : ℕ} {raw : List ℤ} {shape : List ℕ} :
    extractShapeArgs size raw = .ok shape ↔
      Resolves size raw ∧ shape = fillIn (size/knownSize raw) raw := by
  unfold extractShapeArgs Resolves
  split
  · simp only [reduceCtorEq, false_iff]
    rintro ⟨h0 | ⟨h1, -⟩, -⟩ <;> omega
  · rw [resolveLoop_ok, cannotInfer_eq_false]
    have hone (h : unknownCount raw ≠ 0) : unknownCount raw = 1 := by omega
    by_cases h0 : unknownCount raw = 0
    · simp [h0]
    · simp [hone h0]

theorem resolveShape_ok {size : ℕ} {raw : List ℤ} {shape : List ℕ} :
    resolveShape size raw = .ok shape ↔
      Resolves size raw ∧ shape = fillIn (size/knownSize raw) raw := by
  unfold resolveShape Resolves
  rw [resolveLoop_ok, Bool.or_eq_false_iff, cannotInfer_eq_false, decide_eq_false_iff_not]
  by_cases h0 : unknownCount raw = 0
  · simp [h0]
  · have hone : ¬ 1 < unknownCount raw ↔ unknownCount raw = 1 := by omega
    simp only [h0, false_or, hone]

/-- Requests whose dimensions given do not overflow onto the size of the array. -/
def NoOverflow (size : ℕ) (raw : List ℤ) : Prop :=
  ¬ (raw.length ≤ maxNdim ∧ wordModulus ≤ (givenDims raw).prod ∧
    (unknownCount raw = 0 ∧ (givenDims raw).prod%wordModulus = size ∨
      unknownCount raw = 1 ∧ size ≠ 0 ∧ (givenDims raw).prod%wordModulus ∣ size))

/-- The wrapped product of a resolved shape certifies its size exactly when the
dimensions given do not overflow onto it. -/
theorem resolves_exact_iff {size : ℕ} {raw : List ℤ} (hsize : size < wordModulus) :
    (Resolves size raw → raw.length ≤ maxNdim →
      wrapProduct (fillIn (size/knownSize raw) raw) = size →
        (fillIn (size/knownSize raw) raw).prod = size) ↔ NoOverflow size raw := by
  rw [wrapProduct_eq, prod_fillIn, NoOverflow]
  have hk : knownSize raw = (givenDims raw).prod%wordModulus := wrapProduct_eq _
  rw [Resolves, hk]
  generalize (givenDims raw).prod = K
  generalize hcount : unknownCount raw = u
  have hKlt : K < wordModulus → K%wordModulus = K := Nat.mod_eq_of_lt
  constructor
  · rintro h ⟨hlen, hK, ⟨rfl, hmod⟩ | ⟨rfl, hne, hdvd⟩⟩
    · have he := h (.inl rfl) hlen (by simpa [wrapUsize] using hmod)
      simp only [pow_zero, mul_one] at he
      omega
    · have hpos : K%wordModulus ≠ 0 := by
        intro hz
        rw [hz, zero_dvd_iff] at hdvd
        exact hne hdvd
      have hq := Nat.mul_div_cancel' hdvd
      have hwrap : wrapUsize (K*(size/(K%wordModulus))^1) = size := by
        rw [wrapUsize, pow_one, ← Nat.mod_mul_mod, hq, Nat.mod_eq_of_lt hsize]
      have he := h (.inr ⟨rfl, hpos, hdvd⟩) hlen hwrap
      have hmod : K%wordModulus < wordModulus := Nat.mod_lt _ (by decide)
      have hq0 : 0 < size/(K%wordModulus) :=
        Nat.div_pos (Nat.le_of_dvd (Nat.pos_of_ne_zero hne) hdvd) (Nat.pos_of_ne_zero hpos)
      have hlt : K%wordModulus*(size/(K%wordModulus)) < K*(size/(K%wordModulus)) :=
        Nat.mul_lt_mul_of_pos_right (hmod.trans_le hK) hq0
      rw [pow_one] at he
      omega
  · rintro h (rfl | ⟨rfl, hpos, hdvd⟩) hlen hwrap
    · rw [pow_zero, mul_one] at hwrap ⊢
      by_cases hK : wordModulus ≤ K
      · exact absurd ⟨hlen, hK, .inl ⟨rfl, hwrap⟩⟩ h
      · rwa [wrapUsize, hKlt (by omega)] at hwrap
    · have hq := Nat.mul_div_cancel' hdvd
      rw [pow_one]
      by_cases hK : wordModulus ≤ K
      · -- an empty array fits any known lengths: the unknown one is 0
        by_cases hz : size = 0
        · rw [hz, Nat.zero_div, mul_zero]
        · exact absurd ⟨hlen, hK, .inr ⟨rfl, hz, hdvd⟩⟩ h
      · rw [hKlt (by omega)] at hq ⊢
        exact hq

end resolve

end LightArray
