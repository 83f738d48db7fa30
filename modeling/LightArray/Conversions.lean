import LightArray.NdimLimit
import LightArray.Rounding

/-! Conversions of float64 elements to integers: `AnyArray::cast` (`array.rs`) and `__int__`
(`python.rs`). -/
namespace LightArray
open Rounding

/-- A float64: a finite number, an infinity or NaN. -/
inductive FloatValue
  | finite (q : ℚ)
  | infinity (negative : Bool)
  | nan
  deriving DecidableEq

namespace FloatValue

def isFinite : FloatValue → Bool
  | .finite _ => true
  | _ => false

/-- `v.abs() >= limit` for a finite limit. -/
def absGe (limit : ℚ) : FloatValue → Bool
  | .finite q => limit ≤ |q|
  | .infinity _ => true
  | .nan => false

/-- `v != 0.0`. -/
def isNonzero : FloatValue → Bool
  | .finite q => q != 0
  | _ => true

/-- Rust's `as i64`: truncation, saturated at the ends of the range. -/
def asI64 : FloatValue → ℤ
  | .finite q => max (-(2^63)) (min (trunc q) (2^63-1))
  | .infinity true => -(2^63)
  | .infinity false => 2^63-1
  | .nan => 0

end FloatValue

/-- Names of the native dtypes. -/
def DType.name : DType → String
  | .float64 => "float64"
  | .int64 => "int64"
  | .bool => "bool"

/-- The core's `Scalar`: one element of an array. -/
inductive Element (F : Type)
  | f (v : F)
  | i (v : ℤ)
  | b (v : Bool)
  deriving DecidableEq

/-- The single element of an array of size 1. -/
def AnyArray.item {F : Type} : AnyArray F → Option (Element F)
  | .f64 _ [v] => some (.f v)
  | .i64 _ [v] => some (.i v)
  | .bool _ [v] => some (.b v)
  | _ => none

/-- `to_i64`: bool promotes, float64 does not. -/
def AnyArray.toI64 {F : Type} : AnyArray F → Option (NdArray .int64 ℤ)
  | .f64 .. => none
  | .i64 dims data => some ⟨dims, data⟩
  | .bool dims data => some ⟨dims.retyped 8, data.map Bool.toInt⟩

/-- `AnyArray::cast`; NumPy makes what is `none`. -/
def AnyArray.cast (ofInt : ℤ → FloatValue) (a : AnyArray FloatValue) (target : String) : Option (AnyArray FloatValue) :=
  if a.dtype.name = target then some a
  else if target = "float64" then some (a.toF64 ofInt)
  else
    match a, target with
    | .f64 dims data, "int64" =>
      if data.any fun v => !v.isFinite || v.absGe (9.2*10^18) then none
      else some (.i64 dims (data.map FloatValue.asI64))
    | .bool dims data, "int64" =>
      match (AnyArray.bool dims data : AnyArray FloatValue).toI64 with
      | some b => some (.i64 b.dims b.data)
      | none => none
    | .f64 dims data, "bool" => some (.bool (dims.retyped 1) (data.map FloatValue.isNonzero))
    | .i64 dims data, "bool" => some (.bool (dims.retyped 1) (data.map fun v => v != 0))
    | _, _ => none

/-- `__int__`. -/
def AnyArray.int (a : AnyArray FloatValue) : Except Failure ℤ :=
  match a.item with
  | some (.f v) => .ok v.asI64
  | some (.i v) => .ok v
  | some (.b v) => .ok v.toInt
  | none => .error (.python .typeError "only length-1 arrays can be converted to Python scalars")

/-- `n` is `v` truncated toward zero, as an int64. -/
def FloatValue.TruncatesTo (v : FloatValue) (n : ℤ) : Prop :=
  ∃ q, v = .finite q ∧ n = trunc q ∧ -(2^63) ≤ n ∧ n < 2^63

/-- No conversion of a float64 array to integers gives anything but truncated elements. -/
structure ExactConversions (ofInt : ℤ → FloatValue) (dims : Dims 8) (data : List FloatValue) : Prop where
  cast : ∀ b, AnyArray.cast ofInt (.f64 dims data) "int64" = some b →
    ∃ ints, b = .i64 dims ints ∧ List.Forall₂ FloatValue.TruncatesTo data ints
  refuses : (∃ v ∈ data, ¬ ∃ n, v.TruncatesTo n) → AnyArray.cast ofInt (.f64 dims data) "int64" = none
  int : ∀ n, AnyArray.int (.f64 dims data) = .ok n → ∃ v, data = [v] ∧ v.TruncatesTo n
  agree : ∀ d ints, AnyArray.cast ofInt (.f64 dims data) "int64" = some (.i64 d ints) →
    ∀ (k : ℕ) v d' n, data[k]? = some v → AnyArray.int (.f64 d' [v]) = .ok n → ints[k]? = some n

namespace FloatValue

variable {v : FloatValue} {n : ℤ}

/-- The values whose integer part is an int64. -/
theorem exists_truncatesTo : (∃ n, v.TruncatesTo n) ↔ ∃ q : ℚ, v = .finite q ∧ -(2^63)-1 < q ∧ q < 2^63 := by
  have hrange (q : ℚ) : (-(2^63) ≤ trunc q ∧ trunc q < 2^63) ↔ -(2^63)-1 < q ∧ q < 2^63 := by
    rw [trunc_lt_iff (by norm_num), le_trunc_iff (by norm_num)]
    push_cast
    rfl
  constructor
  · rintro ⟨n, q, rfl, rfl, h⟩
    exact ⟨q, rfl, (hrange q).mp h⟩
  · rintro ⟨q, rfl, h⟩
    exact ⟨trunc q, q, rfl, rfl, (hrange q).mpr h⟩

/-- The saturating cast is exact on them. -/
theorem truncatesTo_asI64 (h : ∃ n, v.TruncatesTo n) : v.TruncatesTo v.asI64 := by
  obtain ⟨n, q, rfl, rfl, hlo, hhi⟩ := h
  have hcast : asI64 (.finite q) = trunc q := by
    rw [asI64, min_eq_left (by omega), max_eq_right hlo]
  exact ⟨q, rfl, hcast, by omega, by omega⟩

/-- The guard of `cast` lets through finite values below 9.2e18 only. -/
theorem exists_truncatesTo_of_guard (h : (!v.isFinite || v.absGe (9.2*10^18)) = false) : ∃ n, v.TruncatesTo n := by
  rw [exists_truncatesTo]
  cases v with
  | finite q =>
    have hq : |q| < 9.2*10^18 := by simpa [isFinite, absGe] using h
    rw [abs_lt] at hq
    exact ⟨q, rfl, by linarith, by linarith⟩
  | infinity negative => simp [isFinite] at h
  | nan => simp [isFinite] at h

end FloatValue

variable {ofInt : ℤ → FloatValue} {dims : Dims 8} {data : List FloatValue}

theorem cast_int64 : AnyArray.cast ofInt (.f64 dims data) "int64" =
    if data.any fun v => !v.isFinite || v.absGe (9.2*10^18) then none else some (.i64 dims (data.map FloatValue.asI64)) := by
  have hname : ¬ (AnyArray.f64 dims data).dtype.name = "int64" := by
    show ¬ DType.float64.name = "int64"
    decide
  rw [AnyArray.cast, if_neg hname, if_neg (by decide)]

/-- What `cast` returns is exact, element by element. -/
theorem cast_int64_exact {b : AnyArray FloatValue} (h : AnyArray.cast ofInt (.f64 dims data) "int64" = some b) :
    b = .i64 dims (data.map FloatValue.asI64) ∧ ∀ v ∈ data, v.TruncatesTo v.asI64 := by
  rw [cast_int64] at h
  split_ifs at h with hguard
  cases h
  refine ⟨rfl, fun v hv => FloatValue.truncatesTo_asI64 (FloatValue.exists_truncatesTo_of_guard ?_)⟩
  rw [Bool.not_eq_true, List.any_eq_false] at hguard
  exact Bool.not_eq_true _ |>.mp (hguard v hv)

theorem int_singleton (v : FloatValue) : AnyArray.int (.f64 dims [v]) = .ok v.asI64 := rfl

theorem int_ok {n : ℤ} (h : AnyArray.int (.f64 dims data) = .ok n) : ∃ v, data = [v] ∧ n = v.asI64 := by
  match data, h with
  | [v], h => exact ⟨v, rfl, (Except.ok.inj h).symm⟩

/-- The conversions of a float64 array to integers are exact except for `__int__` of an array
whose single element is NaN, an infinity or too large. -/
theorem exactConversions_iff (ofInt : ℤ → FloatValue) (dims : Dims 8) (data : List FloatValue) :
    ExactConversions ofInt dims data ↔ ∀ v, data = [v] →
    ∃ q : ℚ, v = .finite q ∧ -(2^63)-1 < q ∧ q < 2^63 := by
  constructor
  · rintro h v rfl
    obtain ⟨w, hw, hexact⟩ := h.int _ (int_singleton v)
    cases hw
    exact FloatValue.exists_truncatesTo.mp ⟨_, hexact⟩
  · intro hfits
    refine ⟨fun b hb => ?_, ?_, fun n hn => ?_, fun d ints hints k v d' n hv hn => ?_⟩
    · obtain ⟨rfl, hall⟩ := cast_int64_exact hb
      refine ⟨_, rfl, ?_⟩
      rw [List.forall₂_map_right_iff, List.forall₂_same]
      exact hall
    · rintro ⟨v, hv, hno⟩
      by_contra hsome
      obtain ⟨b, hb⟩ := Option.ne_none_iff_exists'.mp hsome
      exact hno ⟨_, (cast_int64_exact hb).2 v hv⟩
    · obtain ⟨v, hv, rfl⟩ := int_ok hn
      exact ⟨v, hv, FloatValue.truncatesTo_asI64 (FloatValue.exists_truncatesTo.mpr (hfits v hv))⟩
    · obtain ⟨heq, -⟩ := cast_int64_exact hints
      cases heq
      rw [List.getElem?_map, hv, ← Except.ok.inj hn]
      rfl

/-- One axis of length 1. -/
def singleAxis : Dims 8 := ⟨[1], _, by decide, rfl⟩

/-- `int(la.array([1e19]))` is the largest int64; `cast` refuses the same array. -/
theorem int_saturates : AnyArray.int (.f64 singleAxis [.finite (10^19)]) = .ok (2^63-1) ∧
    (∀ ofInt, AnyArray.cast ofInt (.f64 singleAxis [.finite (10^19)]) "int64" = none) ∧
    ¬ ∀ (ofInt : ℤ → FloatValue) (dims : Dims 8) (data : List FloatValue), ExactConversions ofInt dims data := by
  have htrunc : trunc (10^19:ℚ) = 10^19 := by
    rw [trunc, if_neg (by norm_num)]
    norm_num
  have hint : AnyArray.int (.f64 singleAxis [.finite (10^19)]) = .ok (2^63-1) := by
    rw [int_singleton, FloatValue.asI64, htrunc]
    norm_num
  refine ⟨hint, fun ofInt => ?_, fun h => ?_⟩
  · rw [cast_int64]
    norm_num [FloatValue.isFinite, FloatValue.absGe]
  · obtain ⟨v, hv, q, rfl, hn, -⟩ := (h (fun _ => .nan) singleAxis [.finite (10^19)]).int _ hint
    cases hv
    rw [htrunc] at hn
    norm_num at hn

end LightArray
