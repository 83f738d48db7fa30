import LightArray.Dims

/-! The arrays of the core as values (`array.rs`): dims and the elements of the
buffer in C order. -/
namespace LightArray
open MachineWord RowMajor

/-- `Array<T>`. -/
structure NdArray (t : DType) (T : Type) where
  dims : Dims t.itemsize
  data : List T
  deriving DecidableEq

/-- `Vec::with_capacity`: no buffer takes more than `isize::MAX` bytes. -/
def withCapacity (t : DType) (n : ℕ) : Except Failure Unit :=
  if isizeMax < t.itemsize*n then .error (.panic "capacity overflow") else .ok ()

theorem withCapacity_of_le {t : DType} {n : ℕ} (h : t.itemsize*n ≤ isizeMax) : withCapacity t n = .ok () :=
  if_neg (not_lt.mpr h)

theorem withCapacity_panics {t : DType} {n : ℕ} (h : ¬ t.itemsize*n ≤ isizeMax) :
    withCapacity t n = .error (.panic "capacity overflow") := if_pos (not_le.mp h)

theorem withCapacity_ok {t : DType} {n : ℕ} {u : Unit} : withCapacity t n = .ok u ↔ t.itemsize*n ≤ isizeMax := by
  refine ⟨fun h => ?_, withCapacity_of_le⟩
  by_contra hgt
  rw [withCapacity_panics hgt] at h
  cases h

theorem lt_wordModulus_of_fits {t : DType} {n : ℕ} (h : t.itemsize*n ≤ isizeMax) : n < wordModulus := by
  have hle : n ≤ t.itemsize*n := Nat.le_mul_of_pos_left _ t.itemsize_pos
  rw [isizeMax_eq] at h
  rw [wordModulus_eq]
  omega

namespace NdArray

variable {t : DType} {T : Type}

def shape (a : NdArray t T) : List ℕ := a.dims.shape

def ndim (a : NdArray t T) : ℕ := a.dims.ndim

/-- `Array::new`. -/
def new (t : DType) (data : List T) (shape : List ℕ) : Except Failure (NdArray t T) := do
  let d ← Dims.checked shape t.itemsize data.length
  .ok ⟨d, data⟩

/-- The element at a multi-index. -/
def at? (a : NdArray t T) (idx : List ℕ) : Option T := a.data[flat a.shape idx]?

/-- The buffer holds the elements the shape counts. -/
structure Counted (a : NdArray t T) : Prop where
  count : a.data.length = a.shape.prod
  fits : t.itemsize*a.data.length ≤ isizeMax

variable {a b : NdArray t T} {data : List T} {shape idx : List ℕ}

theorem ndim_le (a : NdArray t T) : a.shape.length ≤ maxNdim := a.dims.ndim_le

theorem Counted.prod_fits (h : a.Counted) : t.itemsize*a.shape.prod ≤ isizeMax := h.count ▸ h.fits

theorem Counted.prod_lt (h : a.Counted) : a.shape.prod < wordModulus := lt_wordModulus_of_fits h.prod_fits

theorem Counted.flat_lt (h : a.Counted) (hidx : InRange a.shape idx) : flat a.shape idx < a.data.length :=
  h.count ▸ RowMajor.flat_lt hidx

theorem counted_replicate {n : ℕ} {v : T} (hdata : a.data = List.replicate n v) (hn : n = a.shape.prod)
    (hfits : t.itemsize*n ≤ isizeMax) : a.Counted := by
  have hlen : a.data.length = n := by rw [hdata, List.length_replicate]
  exact ⟨hlen.trans hn, hlen ▸ hfits⟩

theorem exists_at? (h : a.data.length = a.shape.prod) (hidx : InRange a.shape idx) : ∃ v, a.at? idx = some v :=
  ⟨_, List.getElem?_eq_getElem (h ▸ RowMajor.flat_lt hidx)⟩

theorem new_ok (h : new t data shape = .ok a) : a.shape = shape ∧ a.data = data ∧ wrapProduct shape = data.length := by
  obtain ⟨d, hd, he⟩ := bind_eq_ok.mp h
  cases he
  obtain ⟨hs, hsize⟩ := Dims.checked_ok hd
  exact ⟨hs, rfl, by rw [← hsize, Dims.size, hs]⟩

theorem exists_new (hlen : shape.length ≤ maxNdim) (hcount : wrapProduct shape = data.length) :
    ∃ a : NdArray t T, new t data shape = .ok a ∧ a.shape = shape ∧ a.data = data := by
  obtain ⟨d, hd⟩ := Dims.checked_iff.mpr ⟨hlen, hcount⟩
  exact ⟨⟨d, data⟩, by rw [new, hd]; rfl, (Dims.checked_ok hd).1, rfl⟩

theorem ext_shape (hs : a.shape = b.shape) (hd : a.data = b.data) : a = b := by
  cases a
  cases b
  cases hd
  congr 1
  exact Dims.ext_shape hs

/-- Arrays of one shape with the same elements are the same. -/
theorem ext_at? (ha : a.data.length = a.shape.prod) (hb : b.data.length = b.shape.prod) (hs : a.shape = b.shape)
    (h : ∀ idx, InRange a.shape idx → a.at? idx = b.at? idx) : a = b := by
  have hdata : a.data = b.data := by
    apply List.ext_getElem?
    intro k
    rcases lt_or_ge k a.shape.prod with hk | hk
    · have hidx := h (unflat a.shape k) (inRange_unflat hk)
      rw [at?, at?, ← hs, flat_unflat hk] at hidx
      exact hidx
    · rw [List.getElem?_eq_none (by omega), List.getElem?_eq_none (by rw [hb, ← hs]; exact hk)]
  exact ext_shape hs hdata

/-- A buffer filled in the order of the multi-indices. -/
theorem at?_of_forall₂ {R : List ℕ → T → Prop} (h : List.Forall₂ R (enum a.shape) a.data) (hidx : InRange a.shape idx) :
    ∃ v, a.at? idx = some v ∧ R idx v := by
  have hk : flat a.shape idx < (enum a.shape).length := by
    rw [length_enum]
    exact RowMajor.flat_lt hidx
  have hd : flat a.shape idx < a.data.length := h.length_eq ▸ hk
  have hR := h.get hk hd
  rw [List.get_eq_getElem, List.get_eq_getElem, getElem_enum hk, unflat_flat hidx] at hR
  exact ⟨_, List.getElem?_eq_getElem hd, hR⟩

/-- The elements of an array whose buffer lists them by multi-index. -/
theorem at?_of_enum {g : List ℕ → T} (h : a.data = (enum a.shape).map g) (hidx : InRange a.shape idx) :
    a.at? idx = some (g idx) := by
  have hall : List.Forall₂ (fun idx v => v = g idx) (enum a.shape) a.data := by
    rw [h, List.forall₂_map_right_iff, List.forall₂_same]
    exact fun _ _ => rfl
  obtain ⟨v, hv, rfl⟩ := at?_of_forall₂ hall hidx
  exact hv

end NdArray

end LightArray
