import LightArray.NestedSequence
import LightArray.NdArray

namespace LightArray

/-- The elements of a dtype, with floats of type `F`. -/
def Elem (F : Type) : DType → Type
  | .float64 => F
  | .int64 => ℤ
  | .bool => Bool

namespace AnyArray

variable {F : Type}

def dtype : AnyArray F → DType
  | .f64 .. => .float64
  | .i64 .. => .int64
  | .bool .. => .bool

/-- The array inside, which has the dtype. -/
def inner : (a : AnyArray F) → NdArray a.dtype (Elem F a.dtype)
  | .f64 dims data => ⟨dims, data⟩
  | .i64 dims data => ⟨dims, data⟩
  | .bool dims data => ⟨dims, data⟩

def ofArray : (t : DType) → NdArray t (Elem F t) → AnyArray F
  | .float64, a => .f64 a.dims a.data
  | .int64, a => .i64 a.dims a.data
  | .bool, a => .bool a.dims a.data

/-- `as_f64`, `as_i64` and `as_bool`. -/
def asArray : (t : DType) → AnyArray F → Option (NdArray t (Elem F t))
  | .float64, .f64 dims data => some ⟨dims, data⟩
  | .int64, .i64 dims data => some ⟨dims, data⟩
  | .bool, .bool dims data => some ⟨dims, data⟩
  | _, _ => none

def shape (a : AnyArray F) : List ℕ := a.inner.shape

def ndim (a : AnyArray F) : ℕ := a.inner.ndim

variable (t : DType) (a : NdArray t (Elem F t))

@[simp] theorem dtype_ofArray : (ofArray t a).dtype = t := by cases t <;> rfl

@[simp] theorem shape_ofArray : (ofArray t a).shape = a.shape := by cases t <;> rfl

@[simp] theorem ndim_ofArray : (ofArray t a).ndim = a.ndim := by cases t <;> rfl

@[simp] theorem asArray_ofArray : asArray t (ofArray t a) = some a := by cases t <;> rfl

theorem ofArray_injective {a b : NdArray t (Elem F t)} (h : ofArray t a = ofArray t b) : a = b := by
  have hget := congrArg (asArray t) h
  rw [asArray_ofArray, asArray_ofArray] at hget
  exact Option.some.inj hget

end AnyArray

end LightArray
