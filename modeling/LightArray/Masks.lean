import LightArray.Extremes
import LightArray.MaskSelect
import LightArray.Nonzero
import LightArray.OperatorOrder
import LightArray.Transpose

/-! Comparisons, boolean masks, `where` and selection by masks (`array.rs`, `python.rs`). -/
namespace LightArray
open MachineWord RowMajor MaskSelect

namespace NdArray

variable {t : DType} {T : Type}

/-- Equal-shape comparison producing a mask; none when shapes differ. -/
def compare (f : T → T → Bool) (a b : NdArray t T) : Option (NdArray .bool Bool) :=
  if a.shape ≠ b.shape then none else some ⟨a.dims.retyped 1, List.zipWith f a.data b.data⟩

def compareScalar (f : T → Bool) (a : NdArray t T) : NdArray .bool Bool := ⟨a.dims.retyped 1, a.data.map f⟩

protected def count (a : NdArray .bool Bool) : ℕ := a.data.count true

protected def not (a : NdArray .bool Bool) : NdArray .bool Bool := ⟨a.dims, a.data.map not⟩

/-- Element-wise combination of two equal-shape masks. -/
def zipBool (f : Bool → Bool → Bool) (a b : NdArray .bool Bool) : Option (NdArray .bool Bool) :=
  if a.dims ≠ b.dims then none else some ⟨a.dims, List.zipWith f a.data b.data⟩

/-- `where(cond, x, y)` with a boolean mask of the same shape. -/
def selectWhere (cond : List Bool) (x y : NdArray t T) : Except Failure (NdArray t T) :=
  if x.dims ≠ y.dims ∨ cond.length ≠ x.data.length then .error (.array (.shapeMismatch x.shape y.shape))
  else .ok ⟨x.dims, merge cond x.data y.data⟩

end NdArray

inductive CompareOp
  | lt
  | le
  | eq
  | ne
  | gt
  | ge
  deriving DecidableEq, Repr

namespace CompareOp

variable {F : Type} (o : FloatOrder F)

/-- The comparison of two floats: false when one is NaN, save for `!=`. -/
def onFloats (op : CompareOp) (x y : F) : Bool :=
  match op, o.partialCmp x y with
  | .lt, some .lt => true
  | .le, some .lt => true
  | .le, some .eq => true
  | .eq, some .eq => true
  | .ne, some .eq => false
  | .ne, _ => true
  | .gt, some .gt => true
  | .ge, some .gt => true
  | .ge, some .eq => true
  | _, _ => false

def onInts (op : CompareOp) (x y : ℤ) : Bool :=
  match op with
  | .lt => x < y
  | .le => x ≤ y
  | .eq => x = y
  | .ne => x ≠ y
  | .gt => y < x
  | .ge => y ≤ x

def onBools (op : CompareOp) (x y : Bool) : Bool :=
  match op with
  | .lt => !x && y
  | .le => !x || y
  | .eq => x == y
  | .ne => x != y
  | .gt => x && !y
  | .ge => x || !y

def equality (op : CompareOp) : Bool := op = .eq || op = .ne

def ufunc : CompareOp → String
  | .lt => "less"
  | .le => "less_equal"
  | .eq => "equal"
  | .ne => "not_equal"
  | .gt => "greater"
  | .ge => "greater_equal"

/-- The comparison with the operands exchanged. -/
def swap : CompareOp → CompareOp
  | .lt => .gt
  | .le => .ge
  | .eq => .eq
  | .ne => .ne
  | .gt => .lt
  | .ge => .le

/-- The comparison that holds when this one does not. -/
def negate : CompareOp → CompareOp
  | .lt => .ge
  | .le => .gt
  | .eq => .ne
  | .ne => .eq
  | .gt => .le
  | .ge => .lt

variable {o} {op : CompareOp} {x y : F}

theorem partialCmp_swap : o.partialCmp y x = (o.partialCmp x y).map Ordering.swap := by
  unfold FloatOrder.partialCmp
  cases hx : o.isNan x <;> cases hy : o.isNan y <;> try rfl
  rcases o.total x y hx hy with hle | hle <;> rw [hle]
  · cases o.le y x <;> rfl
  · cases o.le x y <;> rfl

theorem onFloats_swap : op.swap.onFloats o y x = op.onFloats o x y := by
  unfold onFloats
  rw [partialCmp_swap]
  cases o.partialCmp x y with
  | none => cases op <;> rfl
  | some r => cases op <;> cases r <;> rfl

theorem onInts_swap {x y : ℤ} : op.swap.onInts y x = op.onInts x y := by
  cases op <;> simp [onInts, swap, eq_comm]

theorem onBools_swap {x y : Bool} : op.swap.onBools y x = op.onBools x y := by
  cases op <;> cases x <;> cases y <;> rfl

/-- Floats that are no NaN compare one way or the other. -/
theorem onFloats_negate (h : op.equality = true ∨ o.isNan x = false ∧ o.isNan y = false) :
    op.negate.onFloats o x y = !op.onFloats o x y := by
  unfold onFloats
  rcases h with heq | ⟨hx, hy⟩
  · have hop : op = .eq ∨ op = .ne := by simpa [equality] using heq
    cases o.partialCmp x y with
    | none => rcases hop with rfl | rfl <;> rfl
    | some r => rcases hop with rfl | rfl <;> cases r <;> rfl
  · rw [FloatOrder.partialCmp_eq hx hy]
    cases op <;> cases o.nanLast x y <;> rfl

theorem onInts_negate {x y : ℤ} : op.negate.onInts x y = !op.onInts x y := by
  cases op <;> simp only [onInts, negate, ← decide_not, not_lt, not_le, ne_eq, not_not]

theorem onBools_negate {x y : Bool} : op.negate.onBools x y = !op.onBools x y := by
  cases op <;> cases x <;> cases y <;> rfl

end CompareOp

/-- What a comparison gives back: a mask, a call of NumPy's ufunc, or `NotImplemented`. -/
inductive CompareResult (F : Type)
  | native (mask : NdArray .bool Bool)
  | numpy (name : String) (slf : AnyArray F) (other : PyOperand F)
  | notImplemented

section comparison

variable {F : Type} (o : FloatOrder F) (ofInt : ℤ → F)

/-- The masks computed natively. -/
def compareNative (slf : AnyArray F) (operand : Operand F) (op : CompareOp) : Except Failure (Option (NdArray .bool Bool)) :=
  match slf, operand with
  | .f64 dims data, .f64 b => .ok (NdArray.compare (t := .float64) (op.onFloats o) ⟨dims, data⟩ b)
  | .f64 dims data, .alt (.i64 bdims bdata) => do
    let b ← (AnyArray.i64 bdims bdata).toArrayF64 ofInt
    .ok (NdArray.compare (t := .float64) (op.onFloats o) ⟨dims, data⟩ b)
  | .f64 dims data, .float v => .ok (some (NdArray.compareScalar (t := .float64) (fun x => op.onFloats o x v) ⟨dims, data⟩))
  | .f64 dims data, .int i => .ok (some (NdArray.compareScalar (t := .float64) (fun x => op.onFloats o x (ofInt i)) ⟨dims, data⟩))
  | .f64 dims data, .bool b =>
    .ok (some (NdArray.compareScalar (t := .float64) (fun x => op.onFloats o x (ofInt b.toInt)) ⟨dims, data⟩))
  | .i64 dims data, .int i => .ok (some (NdArray.compareScalar (t := .int64) (fun x => op.onInts x i) ⟨dims, data⟩))
  | .i64 dims data, .alt (.i64 bdims bdata) => .ok (NdArray.compare (t := .int64) op.onInts ⟨dims, data⟩ ⟨bdims, bdata⟩)
  | .i64 dims data, .float s => do
    let a ← (AnyArray.i64 dims data).toArrayF64 ofInt
    .ok (some (NdArray.compareScalar (fun x => op.onFloats o x s) a))
  | .i64 dims data, .f64 b => do
    let a ← (AnyArray.i64 dims data).toArrayF64 ofInt
    .ok (NdArray.compare (t := .float64) (op.onFloats o) a b)
  | .bool dims data, .alt (.bool bdims bdata) =>
    .ok (if op.equality then NdArray.compare (t := .bool) op.onBools ⟨dims, data⟩ ⟨bdims, bdata⟩ else none)
  | .bool dims data, .bool v =>
    .ok (if op.equality then some (NdArray.compareScalar (t := .bool) (fun x => op.onBools x v) ⟨dims, data⟩) else none)
  | _, _ => .ok none

/-- `__richcmp__`. -/
def richcmp (slf : AnyArray F) (other : PyOperand F) (op : CompareOp) : Except Failure (CompareResult F) := do
  let operand := classify ofInt other
  match ← compareNative o ofInt slf operand op with
  | some mask => .ok (.native mask)
  | none =>
    match operand with
    | .other => if numpyHandles other then .ok (.numpy op.ufunc slf other) else .ok .notImplemented
    | _ => .ok (.numpy op.ufunc slf other)

end comparison

section laws

variable {t : DType} {T : Type} {f g : T → T → Bool} {a b : NdArray t T}

theorem NdArray.compare_swap (h : ∀ x y, g y x = f x y) : compare g b a = compare f a b := by
  unfold compare
  by_cases hs : a.shape = b.shape
  · have hdims : b.dims.retyped 1 = a.dims.retyped 1 := Dims.ext_shape hs.symm
    have hdata : List.zipWith g b.data a.data = List.zipWith f a.data b.data := by
      rw [List.zipWith_comm]
      simp only [h]
    rw [if_neg (not_not.mpr hs), if_neg (not_not.mpr hs.symm), hdims, hdata]
  · rw [if_pos hs, if_pos (Ne.symm hs)]

theorem NdArray.compare_shape {m : NdArray .bool Bool} (h : compare f a b = some m) :
    m.shape = a.shape ∧ m.shape = b.shape := by
  unfold compare at h
  split_ifs at h with hs
  cases h
  exact ⟨rfl, not_not.mp hs⟩

theorem zipWith_not {xs ys : List T} (h : ∀ x ∈ xs, ∀ y ∈ ys, g x y = !f x y) :
    List.zipWith g xs ys = (List.zipWith f xs ys).map not := by
  induction xs generalizing ys with
  | nil => rfl
  | cons x xs ih =>
    cases ys with
    | nil => rfl
    | cons y ys =>
      have hrest := ih fun x' hx' y' hy' => h x' (List.mem_cons_of_mem x hx') y' (List.mem_cons_of_mem y hy')
      rw [List.zipWith_cons_cons, List.zipWith_cons_cons, List.map_cons, hrest,
        h x List.mem_cons_self y List.mem_cons_self]

theorem NdArray.compare_not {m : NdArray .bool Bool} (h : ∀ x ∈ a.data, ∀ y ∈ b.data, g x y = !f x y)
    (hm : compare f a b = some m) : compare g a b = some m.not := by
  unfold compare at *
  split_ifs at hm ⊢ with hs
  cases hm
  rw [zipWith_not h]
  rfl

theorem NdArray.compareScalar_not {f g : T → Bool} (h : ∀ x ∈ a.data, g x = !f x) :
    compareScalar g a = (compareScalar f a).not := by
  have hdata : a.data.map g = (a.data.map f).map not := by
    rw [List.map_map]
    exact List.map_congr_left h
  rw [compareScalar, hdata]
  rfl

variable {F : Type} {o : FloatOrder F} {ofInt : ℤ → F}

theorem toArrayF64_i64 {dims : Dims 8} {data : List ℤ} (h : (AnyArray.i64 dims data : AnyArray F).inner.Counted) :
    (AnyArray.i64 dims data).toArrayF64 ofInt = .ok ⟨dims, data.map ofInt⟩ := by
  have hlen : (data.map ofInt).length = data.length := List.length_map _
  have hfits : withCapacity .float64 (data.map ofInt).length = .ok () := withCapacity_of_le (hlen ▸ h.fits)
  have hdims : (⟨dims.shape, _, dims.ndim_le, rfl⟩ : Dims 8) = dims := Dims.ext_shape rfl
  change (withCapacity .float64 (data.map ofInt).length >>= _) = _
  rw [hfits]
  change Except.ok _ = Except.ok _
  congr 2

theorem richcmp_array {a b : AnyArray F} {op : CompareOp} : richcmp o ofInt a (.array b) op =
    (compareNative o ofInt a (classify ofInt (.array b)) op).map fun r => r.elim (.numpy op.ufunc a (.array b)) .native := by
  unfold richcmp
  dsimp only
  cases compareNative o ofInt a (classify ofInt (.array b)) op with
  | error e => rfl
  | ok r =>
    cases r with
    | some m => rfl
    | none => cases b <;> rfl

variable (o ofInt) in
/-- The native masks do not depend on which operand the comparison belongs to. -/
theorem compareNative_reflected {a b : AnyArray F} (ha : a.inner.Counted) (hb : b.inner.Counted) (op : CompareOp) :
    ∃ r, compareNative o ofInt a (classify ofInt (.array b)) op = .ok r ∧
      compareNative o ofInt b (classify ofInt (.array a)) op.swap = .ok r ∧
      ∀ m, r = some m → m.shape = a.shape ∧ m.shape = b.shape := by
  have hfloats : ∀ x y, op.swap.onFloats o y x = op.onFloats o x y := fun x y => CompareOp.onFloats_swap
  have hequality : op.swap.equality = op.equality := by cases op <;> rfl
  cases a with
  | f64 adims adata =>
    cases b with
    | f64 bdims bdata =>
      refine ⟨_, rfl, congrArg Except.ok (NdArray.compare_swap hfloats), fun m hm => NdArray.compare_shape hm⟩
    | i64 bdims bdata =>
      refine ⟨NdArray.compare (t := .float64) (op.onFloats o) ⟨adims, adata⟩ ⟨bdims, bdata.map ofInt⟩, ?_, ?_,
        fun m hm => NdArray.compare_shape hm⟩
      · simp only [classify, compareNative, toArrayF64_i64 hb]
        rfl
      · simp only [classify, compareNative, toArrayF64_i64 hb]
        exact congrArg Except.ok (NdArray.compare_swap hfloats)
    | bool bdims bdata => exact ⟨none, rfl, rfl, fun m hm => by cases hm⟩
  | i64 adims adata =>
    cases b with
    | f64 bdims bdata =>
      refine ⟨NdArray.compare (t := .float64) (op.onFloats o) ⟨adims, adata.map ofInt⟩ ⟨bdims, bdata⟩, ?_, ?_,
        fun m hm => NdArray.compare_shape hm⟩
      · simp only [classify, compareNative, toArrayF64_i64 ha]
        rfl
      · simp only [classify, compareNative, toArrayF64_i64 ha]
        exact congrArg Except.ok (NdArray.compare_swap hfloats)
    | i64 bdims bdata =>
      have hints : ∀ x y, op.swap.onInts y x = op.onInts x y := fun x y => CompareOp.onInts_swap
      refine ⟨_, rfl, congrArg Except.ok (NdArray.compare_swap hints), fun m hm => NdArray.compare_shape hm⟩
    | bool bdims bdata => exact ⟨none, rfl, rfl, fun m hm => by cases hm⟩
  | bool adims adata =>
    cases b with
    | f64 bdims bdata => exact ⟨none, rfl, rfl, fun m hm => by cases hm⟩
    | i64 bdims bdata => exact ⟨none, rfl, rfl, fun m hm => by cases hm⟩
    | bool bdims bdata =>
      have hbools : ∀ x y, op.swap.onBools y x = op.onBools x y := fun x y => CompareOp.onBools_swap
      refine ⟨_, rfl, ?_, fun m hm => ?_⟩
      · simp only [classify, compareNative, hequality]
        cases op.equality with
        | true => exact congrArg Except.ok (NdArray.compare_swap hbools)
        | false => rfl
      · split_ifs at hm
        exact NdArray.compare_shape hm

variable (o ofInt) in
/-- Two arrays compared either way round give the same mask, or both comparisons are NumPy's. -/
theorem richcmp_reflected {a b : AnyArray F} (ha : a.inner.Counted) (hb : b.inner.Counted) (op : CompareOp) :
    (∃ m, m.shape = a.shape ∧ m.shape = b.shape ∧ richcmp o ofInt a (.array b) op = .ok (.native m) ∧
      richcmp o ofInt b (.array a) op.swap = .ok (.native m)) ∨
    (richcmp o ofInt a (.array b) op = .ok (.numpy op.ufunc a (.array b)) ∧
      richcmp o ofInt b (.array a) op.swap = .ok (.numpy op.swap.ufunc b (.array a))) := by
  obtain ⟨r, hab, hba, hshape⟩ := compareNative_reflected o ofInt ha hb op
  rw [richcmp_array, richcmp_array, hab, hba]
  cases r with
  | none => exact .inr ⟨rfl, rfl⟩
  | some m => exact .inl ⟨m, (hshape m rfl).1, (hshape m rfl).2, rfl, rfl⟩

/-- `tied` beside integers of its shape. -/
def besideTied : AnyArray (Option ℤ) := .i64 tied.dims [3,2,1,0]

theorem richcmp_reflected_tied : ∃ m : NdArray .bool Bool, richcmp nanInts some besideTied (.array (.f64 tied.dims tied.data)) .ge =
    .ok (.native m) ∧ m.data = [true,false,true,false] := by
  have ha : (AnyArray.f64 tied.dims tied.data).inner.Counted := ⟨by decide, by decide⟩
  have hb : besideTied.inner.Counted := ⟨by decide, by decide⟩
  rcases richcmp_reflected nanInts some ha hb .le with ⟨m, -, -, -, hm⟩ | ⟨-, hm⟩
  · refine ⟨m, hm, ?_⟩
    cases hm
    rfl
  · cases hm

theorem toArrayF64_data {a : AnyArray F} {u : NdArray .float64 F} (h : a.toArrayF64 ofInt = .ok u) :
    u.data = a.floatData ofInt := by
  obtain ⟨u', -, hu⟩ := bind_eq_ok.mp h
  cases hu
  rfl

variable (ofInt) in
/-- The floats an operand may be compared as. -/
def Operand.floats : Operand F → List F
  | .f64 b => b.data
  | .alt b => b.floatData ofInt
  | .float v => [v]
  | .int i => [ofInt i]
  | .bool b => [ofInt b.toInt]
  | .other => []

/-- Away from NaN the mask of the opposite comparison is the complement; for `==` and `!=` it
always is. -/
theorem compareNative_negate {slf : AnyArray F} {operand : Operand F} {op : CompareOp} {m : NdArray .bool Bool}
    (hnan : op.equality = true ∨
      (∀ x ∈ slf.floatData ofInt, o.isNan x = false) ∧ ∀ y ∈ operand.floats ofInt, o.isNan y = false)
    (h : compareNative o ofInt slf operand op = .ok (some m)) :
    compareNative o ofInt slf operand op.negate = .ok (some m.not) := by
  have hequality : op.negate.equality = op.equality := by cases op <;> rfl
  have hfloats : ∀ x ∈ slf.floatData ofInt, ∀ y ∈ operand.floats ofInt, op.negate.onFloats o x y = !op.onFloats o x y :=
    fun x hx y hy => CompareOp.onFloats_negate (hnan.imp_right fun hn => ⟨hn.1 x hx, hn.2 y hy⟩)
  have hints : ∀ x y, op.negate.onInts x y = !op.onInts x y := fun x y => CompareOp.onInts_negate
  have hbools : ∀ x y, op.negate.onBools x y = !op.onBools x y := fun x y => CompareOp.onBools_negate
  cases slf with
  | f64 dims data =>
    cases operand with
    | f64 b => exact congrArg Except.ok (NdArray.compare_not hfloats (Except.ok.inj h))
    | float v =>
      cases h
      exact congrArg (Except.ok ∘ some) (NdArray.compareScalar_not fun x hx => hfloats x hx v (List.mem_singleton_self v))
    | int i =>
      cases h
      exact congrArg (Except.ok ∘ some) (NdArray.compareScalar_not fun x hx => hfloats x hx _ (List.mem_singleton_self _))
    | bool b =>
      cases h
      exact congrArg (Except.ok ∘ some) (NdArray.compareScalar_not fun x hx => hfloats x hx _ (List.mem_singleton_self _))
    | alt b =>
      cases b with
      | i64 bdims bdata =>
        obtain ⟨u, hu, hm⟩ := bind_eq_ok.mp h
        have hdata := toArrayF64_data hu
        have hall : ∀ x ∈ data, ∀ y ∈ u.data, op.negate.onFloats o x y = !op.onFloats o x y := by
          rw [hdata]
          exact hfloats
        simp only [compareNative, hu]
        exact congrArg Except.ok (NdArray.compare_not hall (Except.ok.inj hm))
      | f64 bdims bdata => cases h
      | bool bdims bdata => cases h
    | other => cases h
  | i64 dims data =>
    cases operand with
    | f64 b =>
      obtain ⟨u, hu, hm⟩ := bind_eq_ok.mp h
      have hdata := toArrayF64_data hu
      simp only [compareNative, hu]
      exact congrArg Except.ok (NdArray.compare_not (fun x hx y hy => hfloats x (hdata ▸ hx) y hy) (Except.ok.inj hm))
    | float v =>
      obtain ⟨u, hu, hm⟩ := bind_eq_ok.mp h
      have hdata := toArrayF64_data hu
      cases hm
      simp only [compareNative, hu]
      exact congrArg (Except.ok ∘ some)
        (NdArray.compareScalar_not fun x hx => hfloats x (hdata ▸ hx) v (List.mem_singleton_self v))
    | int i =>
      cases h
      exact congrArg (Except.ok ∘ some) (NdArray.compareScalar_not fun x _ => hints x i)
    | bool b => cases h
    | alt b =>
      cases b with
      | i64 bdims bdata => exact congrArg Except.ok (NdArray.compare_not (fun x _ y _ => hints x y) (Except.ok.inj h))
      | f64 bdims bdata => cases h
      | bool bdims bdata => cases h
    | other => cases h
  | bool dims data =>
    cases operand with
    | f64 b => cases h
    | float v => cases h
    | int i => cases h
    | bool v =>
      simp only [compareNative, hequality] at h ⊢
      cases heq : op.equality with
      | false =>
        rw [heq] at h
        cases h
      | true =>
        rw [heq] at h
        cases h
        exact congrArg (Except.ok ∘ some) (NdArray.compareScalar_not fun x _ => hbools x v)
    | alt b =>
      cases b with
      | bool bdims bdata =>
        simp only [compareNative, hequality] at h ⊢
        cases heq : op.equality with
        | false =>
          rw [heq] at h
          cases h
        | true =>
          rw [heq] at h
          exact congrArg Except.ok (NdArray.compare_not (fun x _ y _ => hbools x y) (Except.ok.inj h))
      | f64 bdims bdata => cases h
      | i64 bdims bdata => cases h
    | other => cases h

theorem richcmp_native_iff {slf : AnyArray F} {other : PyOperand F} {op : CompareOp} {m : NdArray .bool Bool} :
    richcmp o ofInt slf other op = .ok (.native m) ↔ compareNative o ofInt slf (classify ofInt other) op = .ok (some m) := by
  unfold richcmp
  dsimp only
  cases compareNative o ofInt slf (classify ofInt other) op with
  | error e =>
    constructor
    · intro h
      cases h
    · intro h
      cases h
  | ok r =>
    cases r with
    | some m' =>
      constructor
      · intro h
        cases h
        rfl
      · intro h
        cases h
        rfl
    | none =>
      constructor
      · intro h
        cases hop : classify ofInt other <;> simp only [hop, bind, Except.bind] at h
        case other => split_ifs at h <;> cases h
        all_goals cases h
      · intro h
        cases h

/-- Away from NaN, the opposite comparison gives the complement of the mask, whatever the
dtypes and whether the operand is an array or a number. -/
theorem richcmp_negate {slf : AnyArray F} {other : PyOperand F} {op : CompareOp} {m : NdArray .bool Bool}
    (hnan : op.equality = true ∨
      (∀ x ∈ slf.floatData ofInt, o.isNan x = false) ∧ ∀ y ∈ (classify ofInt other).floats ofInt, o.isNan y = false)
    (h : richcmp o ofInt slf other op = .ok (.native m)) :
    richcmp o ofInt slf other op.negate = .ok (.native m.not) := by
  rw [richcmp_native_iff] at h ⊢
  exact compareNative_negate hnan h

theorem richcmp_negate_tied : richcmp nanInts some (.f64 tied.dims tied.data) (.int 3) .ne =
    .ok (.native (NdArray.not ⟨tied.dims.retyped 1, [true,false,false,true]⟩)) := by
  have hequal : richcmp nanInts some (.f64 tied.dims tied.data) (.int 3) .eq =
      .ok (.native ⟨tied.dims.retyped 1, [true,false,false,true]⟩) := rfl
  exact richcmp_negate (.inl rfl) hequal

end laws

section selection

variable {t : DType} {T : Type} {a b x y : NdArray t T} {mask : List Bool}

theorem NdArray.exists_compressFlat (ha : a.Counted) (hlen : mask.length = a.data.length) :
    ∃ r, a.compressFlat mask = .ok r ∧ r.shape = [r.data.length] ∧ r.data = selected a.data mask ∧ r.Counted := by
  have hle : (selected a.data mask).length ≤ a.data.length := by
    calc (selected a.data mask).length
        ≤ (a.data.zip mask).length := by
          rw [selected, List.length_map]
          exact List.length_filter_le ..
      _ ≤ a.data.length := by
        rw [List.length_zip]
        exact min_le_left ..
  have hlt : (selected a.data mask).length < wordModulus := hle.trans_lt (lt_wordModulus_of_fits ha.fits)
  have hcount : wrapProduct [(selected a.data mask).length] = (selected a.data mask).length := by
    rw [wrapProduct_eq, List.prod_singleton, wrapUsize_of_lt hlt]
  obtain ⟨r, hr, hshape, hdata⟩ := exists_new (t := t) (by simp [maxNdim]) hcount
  have hfits : t.itemsize*r.data.length ≤ isizeMax := by
    rw [hdata]
    exact (Nat.mul_le_mul_left _ hle).trans ha.fits
  refine ⟨r, ?_, by rw [hshape, hdata], hdata, by rw [hshape, hdata, List.prod_singleton], hfits⟩
  rw [compressFlat, if_neg (not_not.mpr hlen)]
  exact hr

theorem NdArray.compressFlat_eq_iff (ha : a.Counted) (hb : b.Counted) (hla : mask.length = a.data.length)
    (hlb : mask.length = b.data.length) :
    a.compressFlat mask = b.compressFlat mask ↔ selected a.data mask = selected b.data mask := by
  obtain ⟨r, hr, hrshape, hrdata, -⟩ := exists_compressFlat ha hla
  obtain ⟨s, hs, hsshape, hsdata, -⟩ := exists_compressFlat hb hlb
  rw [hr, hs, ← hrdata, ← hsdata]
  constructor
  · intro h
    cases h
    rfl
  · intro h
    have hshape : r.shape = s.shape := by rw [hrshape, hsshape, h]
    rw [ext_shape hshape h]

section operands

variable {F : Type} (ofInt : ℤ → F)

/-- An operand of `where` as an array of the mask's shape. -/
def whereArray (shape : List ℕ) : Operand F → Except Failure (Option (NdArray .float64 F))
  | .f64 a => .ok (if a.shape = shape then some a else none)
  | .float v => do
    let a ← NdArray.filled .float64 shape v
    .ok (some a)
  | .int i => do
    let a ← NdArray.filled .float64 shape (ofInt i)
    .ok (some a)
  | _ => .ok none

/-- `where_native` for a mask read as its elements and its shape; none when NumPy is asked. -/
def whereNative (mask : List Bool) (shape : List ℕ) (x y : Operand F) : Except Failure (Option (NdArray .float64 F)) :=
  -- two integer scalars give an integer result in NumPy
  if !x.isFloat && !y.isFloat then .ok none
  else do
    let xa ← whereArray ofInt shape x
    let ya ← whereArray ofInt shape y
    match xa, ya with
    | some xa, some ya =>
      let z ← NdArray.selectWhere mask xa ya
      .ok (some z)
    | _, _ => .ok none

/-- What an operand stands for beside arrays of a shape: itself, or a number in every place. -/
def Operand.Spread (shape : List ℕ) : Operand F → NdArray .float64 F → Prop
  | .f64 a, u => u = a ∧ a.shape = shape
  | .float v, u => u.shape = shape ∧ u.data = List.replicate shape.prod v
  | .int i, u => u.shape = shape ∧ u.data = List.replicate shape.prod (ofInt i)
  | _, _ => False

variable {shape : List ℕ} {u : NdArray .float64 F}

theorem exists_filled (hlen : shape.length ≤ maxNdim) (hfit : DType.float64.itemsize*shape.prod ≤ isizeMax) (v : F) :
    ∃ a, NdArray.filled .float64 shape v = .ok a ∧ a.shape = shape ∧ a.data = List.replicate shape.prod v := by
  have hwrap : wrapProduct shape = shape.prod := by
    rw [wrapProduct_eq, wrapUsize_of_lt (lt_wordModulus_of_fits hfit)]
  obtain ⟨d, hd⟩ := (Dims.allocated_iff (s := DType.float64.itemsize)).mpr ⟨hlen, by rwa [hwrap, Nat.mul_comm]⟩
  have hshape := (Dims.allocated_ok hd).1
  refine ⟨⟨d, List.replicate d.size v⟩, by rw [NdArray.filled, hd]; rfl, hshape, ?_⟩
  rw [Dims.size, hshape, hwrap]

/-- Nothing else than the operand is read, and it is read whenever it stands for an array. -/
theorem whereArray_spread (hlen : shape.length ≤ maxNdim) (hfit : DType.float64.itemsize*shape.prod ≤ isizeMax)
    (x : Operand F) : ∃ r, whereArray ofInt shape x = .ok r ∧ ∀ u, r = some u ↔ x.Spread ofInt shape u := by
  have hnumber (v : F) : ∃ a, NdArray.filled .float64 shape v = .ok a ∧
      ∀ u : NdArray .float64 F, some a = some u ↔ u.shape = shape ∧ u.data = List.replicate shape.prod v := by
    obtain ⟨a, ha, hshape, hdata⟩ := exists_filled hlen hfit v
    refine ⟨a, ha, fun u => ?_⟩
    constructor
    · intro h
      cases h
      exact ⟨hshape, hdata⟩
    · rintro ⟨hus, hud⟩
      rw [NdArray.ext_shape (hshape.trans hus.symm) (hdata.trans hud.symm)]
  cases x with
  | f64 a =>
    refine ⟨_, rfl, fun u => ?_⟩
    split_ifs with hs
    · exact ⟨fun h => ⟨(Option.some.inj h).symm, hs⟩, fun h => congrArg some h.1.symm⟩
    · exact ⟨fun h => (by cases h), fun h => absurd h.2 hs⟩
  | float v =>
    obtain ⟨a, ha, hu⟩ := hnumber v
    exact ⟨some a, by rw [whereArray, ha]; rfl, hu⟩
  | int i =>
    obtain ⟨a, ha, hu⟩ := hnumber (ofInt i)
    exact ⟨some a, by rw [whereArray, ha]; rfl, hu⟩
  | alt a => exact ⟨none, rfl, fun u => ⟨fun h => (by cases h), False.elim⟩⟩
  | bool b => exact ⟨none, rfl, fun u => ⟨fun h => (by cases h), False.elim⟩⟩
  | other => exact ⟨none, rfl, fun u => ⟨fun h => (by cases h), False.elim⟩⟩

theorem Operand.Spread.counted {x : Operand F} (hx : ∀ a, x = .f64 a → a.Counted)
    (hfit : DType.float64.itemsize*shape.prod ≤ isizeMax) (h : x.Spread ofInt shape u) : u.shape = shape ∧ u.Counted := by
  have hnumber {v : F} (hs : u.shape = shape ∧ u.data = List.replicate shape.prod v) : u.shape = shape ∧ u.Counted := by
    have hlen : u.data.length = shape.prod := by rw [hs.2, List.length_replicate]
    exact ⟨hs.1, by rw [hlen, hs.1], by rwa [hlen]⟩
  cases x with
  | f64 a =>
    obtain ⟨rfl, hs⟩ := h
    exact ⟨hs, hx u rfl⟩
  | float v => exact hnumber h
  | int i => exact hnumber h
  | alt a => exact h.elim
  | bool b => exact h.elim
  | other => exact h.elim

end operands

/-- An array is what a mask and its complement select of it. -/
structure Merges (mask : NdArray .bool Bool) (x y z : NdArray t T) : Prop where
  shape : z.shape = mask.shape
  counted : z.Counted
  taken : z.compressFlat mask.data = x.compressFlat mask.data
  left : z.compressFlat mask.not.data = y.compressFlat mask.not.data

theorem NdArray.merges_iff {mask : NdArray .bool Bool} (hmask : mask.Counted) (hx : x.Counted) (hy : y.Counted)
    (hxs : x.shape = mask.shape) (hys : y.shape = mask.shape) {z : NdArray t T} :
    Merges mask x y z ↔ selectWhere mask.data x y = .ok z := by
  have hxlen : x.data.length = mask.data.length := by rw [hx.count, hxs, hmask.count]
  have hylen : y.data.length = mask.data.length := by rw [hy.count, hys, hmask.count]
  have hnot : mask.not.data = mask.data.map not := rfl
  have hnotlen : (mask.data.map not).length = mask.data.length := List.length_map _
  have haligned := aligned hxlen hylen
  have hmerge : selectWhere mask.data x y = .ok ⟨x.dims, merge mask.data x.data y.data⟩ := by
    apply if_neg
    rw [not_or, not_not, not_not]
    exact ⟨Dims.ext_shape (hxs.trans hys.symm), hxlen.symm⟩
  have hlen : (merge mask.data x.data y.data).length = mask.data.length := length_merge hxlen hylen
  have hcounted : NdArray.Counted ⟨x.dims, merge mask.data x.data y.data⟩ := by
    refine ⟨?_, ?_⟩
    · change (merge mask.data x.data y.data).length = x.shape.prod
      rw [hlen, ← hxlen, hx.count]
    · change t.itemsize*(merge mask.data x.data y.data).length ≤ isizeMax
      rw [hlen, ← hxlen]
      exact hx.fits
  rw [hmerge, Except.ok.injEq]
  constructor
  · intro h
    have hzlen : z.data.length = mask.data.length := by rw [h.counted.count, h.shape, hmask.count]
    have htaken := (compressFlat_eq_iff h.counted hx hzlen.symm hxlen.symm).mp h.taken
    have hleft := h.left
    rw [hnot, compressFlat_eq_iff h.counted hy (hnotlen.trans hzlen.symm) (hnotlen.trans hylen.symm)] at hleft
    have hdata : z.data = merge mask.data x.data y.data := merge_unique haligned hzlen htaken hleft
    apply ext_shape
    · exact hxs.trans h.shape.symm
    · exact hdata.symm
  · rintro rfl
    refine ⟨hxs, hcounted, ?_, ?_⟩
    · rw [compressFlat_eq_iff hcounted hx hlen.symm hxlen.symm]
      exact selected_merge haligned
    · rw [hnot, compressFlat_eq_iff hcounted hy (hnotlen.trans hlen.symm) (hnotlen.trans hylen.symm)]
      exact selected_merge_not haligned

/-- `where` is native for a float on one side at least and operands that stand for arrays of
the mask's shape. The result is then the only array from which the mask selects what it selects
of `x`, and the complement what it selects of `y`. -/
theorem whereNative_merges {F : Type} (ofInt : ℤ → F) {mask : NdArray .bool Bool} (hmask : mask.Counted)
    (hfit : DType.float64.itemsize*mask.shape.prod ≤ isizeMax) {x y : Operand F} (hx : ∀ a, x = .f64 a → a.Counted)
    (hy : ∀ a, y = .f64 a → a.Counted) :
    ∃ r, whereNative ofInt mask.data mask.shape x y = .ok r ∧
      ((∃ z, r = some z) ↔ (x.isFloat = true ∨ y.isFloat = true) ∧ (∃ u, x.Spread ofInt mask.shape u) ∧
        ∃ v, y.Spread ofInt mask.shape v) ∧
      ∀ z u v, r = some z → x.Spread ofInt mask.shape u → y.Spread ofInt mask.shape v →
        ∀ w, Merges mask u v w ↔ w = z := by
  have hlen : mask.shape.length ≤ maxNdim := mask.dims.ndim_le
  obtain ⟨rx, hrx, hxs⟩ := whereArray_spread ofInt hlen hfit x
  obtain ⟨ry, hry, hys⟩ := whereArray_spread ofInt hlen hfit y
  unfold whereNative
  by_cases hfloat : (!x.isFloat && !y.isFloat) = true
  · refine ⟨none, if_pos hfloat, ⟨fun h => ?_, fun h => ?_⟩, fun z u v h => ?_⟩
    · obtain ⟨z, hz⟩ := h
      cases hz
    · rw [Bool.and_eq_true, Bool.not_eq_true', Bool.not_eq_true'] at hfloat
      rw [hfloat.1, hfloat.2] at h
      rcases h.1 with hno | hno <;> cases hno
    · cases h
  · have hone : x.isFloat = true ∨ y.isFloat = true := by
      cases hxf : x.isFloat with
      | true => exact .inl rfl
      | false =>
        cases hyf : y.isFloat with
        | true => exact .inr rfl
        | false => exact absurd (by rw [hxf, hyf]; rfl) hfloat
    rw [if_neg hfloat, hrx, hry]
    cases rx with
    | none =>
      refine ⟨none, rfl, ⟨fun h => ?_, fun h => ?_⟩, fun z u v h => ?_⟩
      · obtain ⟨z, hz⟩ := h
        cases hz
      · obtain ⟨u, hu⟩ := h.2.1
        cases (hxs u).mpr hu
      · cases h
    | some xa =>
      cases ry with
      | none =>
        refine ⟨none, rfl, ⟨fun h => ?_, fun h => ?_⟩, fun z u v h => ?_⟩
        · obtain ⟨z, hz⟩ := h
          cases hz
        · obtain ⟨v, hv⟩ := h.2.2
          cases (hys v).mpr hv
        · cases h
      | some ya =>
        have hxa := (hxs xa).mp rfl
        have hya := (hys ya).mp rfl
        obtain ⟨hxshape, hxc⟩ := hxa.counted ofInt hx hfit
        obtain ⟨hyshape, hyc⟩ := hya.counted ofInt hy hfit
        have hmerges (w : NdArray .float64 F) := NdArray.merges_iff (z := w) hmask hxc hyc hxshape hyshape
        obtain ⟨z, hz⟩ : ∃ z, NdArray.selectWhere mask.data xa ya = .ok z := by
          apply Exists.intro
          apply if_neg
          rw [not_or, not_not, not_not]
          exact ⟨Dims.ext_shape (hxshape.trans hyshape.symm), by rw [hxc.count, hmask.count, hxshape]⟩
        refine ⟨some z, ?_, ⟨fun _ => ⟨hone, ⟨xa, hxa⟩, ya, hya⟩, fun _ => ⟨z, rfl⟩⟩, ?_⟩
        · change (NdArray.selectWhere mask.data xa ya >>= _) = _
          rw [hz]
          rfl
        · intro z' u v hz' hu hv w
          cases hz'
          have hxu : xa = u := Option.some.inj ((hxs u).mpr hu)
          have hyv : ya = v := Option.some.inj ((hys v).mpr hv)
          rw [← hxu, ← hyv, hmerges, hz, Except.ok.injEq, eq_comm]

/-- Every second element of `planes`. -/
def everySecond : NdArray .bool Bool := ⟨NdArray.planes.dims.retyped 1, [true,false,true,false,true,false]⟩

theorem everySecond_counted : everySecond.Counted := ⟨by decide, by decide⟩

theorem planes_counted : NdArray.planes.Counted := ⟨by decide, by decide⟩

theorem whereNative_merges_planes : ∃ z : NdArray .float64 ℤ,
    whereNative id everySecond.data everySecond.shape (.f64 NdArray.planes) (.int 9) = .ok (some z) ∧
      z.data = [1,9,3,9,5,9] := by
  have hx : ∀ a, Operand.f64 NdArray.planes = .f64 a → a.Counted := by
    intro a ha
    cases ha
    exact planes_counted
  have hy : ∀ a : NdArray .float64 ℤ, Operand.int 9 = .f64 a → a.Counted := by
    intro a ha
    cases ha
  have hspread : ∃ v, (Operand.int 9).Spread id everySecond.shape v :=
    ⟨⟨NdArray.planes.dims, [9,9,9,9,9,9]⟩, rfl, rfl⟩
  obtain ⟨r, hr, hnative, -⟩ := whereNative_merges id everySecond_counted (by decide) hx hy
  obtain ⟨z, rfl⟩ := hnative.mpr ⟨.inl rfl, ⟨NdArray.planes, rfl, rfl⟩, hspread⟩
  refine ⟨z, hr, ?_⟩
  cases hr
  rfl

/-- Selecting by the conjunction of two masks is selecting by one, and then by what the one
selects of the other. -/
theorem NdArray.compressFlat_and {m n : NdArray .bool Bool} (ha : a.Counted) (hm : m.Counted) (hn : n.Counted)
    (hms : m.shape = a.shape) (hns : n.shape = a.shape) :
    ∃ mn r k s, zipBool and m n = some mn ∧ a.compressFlat m.data = .ok r ∧ n.compressFlat m.data = .ok k ∧
      k.shape = r.shape ∧ a.compressFlat mn.data = .ok s ∧ r.compressFlat k.data = .ok s := by
  have hmlen : m.data.length = a.data.length := by rw [hm.count, hms, ha.count]
  have hnlen : n.data.length = a.data.length := by rw [hn.count, hns, ha.count]
  have hzip : zipBool and m n = some ⟨m.dims, List.zipWith and m.data n.data⟩ :=
    if_neg (not_not.mpr (Dims.ext_shape (hms.trans hns.symm)))
  have hziplen : (List.zipWith and m.data n.data).length = a.data.length := by
    rw [List.length_zipWith, hmlen, hnlen, min_self]
  obtain ⟨r, hr, hrshape, hrdata, hrc⟩ := exists_compressFlat ha hmlen
  obtain ⟨k, hk, hkshape, hkdata, hkc⟩ := exists_compressFlat hn (hmlen.trans hnlen.symm)
  obtain ⟨s, hs, hsshape, hsdata, -⟩ := exists_compressFlat ha hziplen
  have hcountr : r.data.length = m.data.count true := by rw [hrdata, length_selected hmlen]
  have hcountk : k.data.length = m.data.count true := by rw [hkdata, length_selected (hmlen.trans hnlen.symm)]
  have hklen : k.data.length = r.data.length := hcountk.trans hcountr.symm
  obtain ⟨s', hs', hsshape', hsdata', -⟩ := exists_compressFlat hrc hklen
  have hdata : s'.data = s.data := by
    rw [hsdata', hrdata, hkdata, hsdata, selected_and hmlen hnlen]
  have hsame : s' = s := ext_shape (by rw [hsshape', hsshape, hdata]) hdata
  exact ⟨_, r, k, s, hzip, hr, hk, by rw [hkshape, hrshape, hklen], hs, hsame ▸ hs'⟩

theorem NdArray.compressFlat_and_planes : ∃ s : NdArray .float64 ℤ, s.data = [1,5] ∧
    planes.compressFlat (List.zipWith and everySecond.data [true,true,false,true,true,true]) = .ok s := by
  obtain ⟨mn, r, k, s, hmn, -, -, -, hs, -⟩ := compressFlat_and (a := planes) (m := everySecond)
    (n := ⟨everySecond.dims, [true,true,false,true,true,true]⟩) planes_counted everySecond_counted
    ⟨by decide, by decide⟩ rfl rfl
  cases hmn
  refine ⟨s, ?_, hs⟩
  cases hs
  rfl

end selection

section counting

variable {F : Type} (o : FloatOrder F) (ofInt : ℤ → F)

/-- `count_nonzero` of a whole array: `(a != 0).sum()`; none where NumPy compares. -/
def countNonzero (a : AnyArray F) : Except Failure (Option ℤ) := do
  match ← richcmp o ofInt a (.int 0) .ne with
  | .native m => .ok (some (asIsize m.count))
  | _ => .ok none

variable {o ofInt}

theorem length_positions {T : Type} (test : T → Bool) (data : List T) :
    (positions test data).length = (data.map test).count true := by
  have haux (n : ℕ) : ((data.zipIdx n).filter fun p => test p.1).length = (data.map test).count true := by
    induction data generalizing n with
    | nil => rfl
    | cons x data ih =>
      rw [List.zipIdx_cons, List.map_cons]
      cases hx : test x with
      | true => rw [List.filter_cons_of_pos (by exact hx), List.length_cons, ih, List.count_cons_self]
      | false => rw [List.filter_cons_of_neg (by simp [hx]), ih, List.count_cons_of_ne Bool.false_ne_true]
  rw [positions, List.length_map, haux]

variable (o ofInt) in
/-- The count of the non-zero elements is the length of the index arrays `nonzero` gives. -/
theorem countNonzero_nonzero {a : AnyArray F} (ha : a.inner.Counted) (hdim : 0 < a.ndim) (ht : a.dtype ≠ .bool) :
    ∃ out idxs, a.nonzero (fun v => CompareOp.ne.onFloats o v (ofInt 0)) = .ok out ∧
      NonzeroAt (fun v => CompareOp.ne.onFloats o v (ofInt 0)) a idxs ∧ Zipped a.ndim idxs out ∧
      countNonzero o ofInt a = .ok (some idxs.length) := by
  let nonzeroF : F → Bool := fun v => CompareOp.ne.onFloats o v (ofInt 0)
  obtain ⟨out, hout, hzip⟩ := AnyArray.nonzero_ok nonzeroF ha hdim
  have hat : NonzeroAt nonzeroF a (a.nonzeroIndices nonzeroF) := AnyArray.nonzeroAt_nonzeroIndices ha
  refine ⟨out, _, hout, hat, hzip, ?_⟩
  have hmask : ∃ m, richcmp o ofInt a (.int 0) .ne = .ok (.native m) ∧
      m.data = a.inner.data.map (isNonzero nonzeroF a.dtype) := by
    cases a with
    | f64 dims data => exact ⟨_, rfl, rfl⟩
    | i64 dims data =>
      have hne (x : ℤ) : CompareOp.ne.onInts x 0 = (x != 0) := by
        by_cases hx : x = 0 <;> simp [CompareOp.onInts, hx]
      exact ⟨_, rfl, List.map_congr_left fun x _ => hne x⟩
    | bool dims data => exact absurd rfl ht
  obtain ⟨m, hm, hdata⟩ := hmask
  have hcount : m.count = (a.nonzeroIndices nonzeroF).length := by
    rw [NdArray.count, hdata, AnyArray.nonzeroIndices, List.length_map, length_positions]
  have hsmall : m.count ≤ isizeMax := by
    calc m.count
        ≤ m.data.length := List.count_le_length
      _ = a.inner.data.length := by rw [hdata, List.length_map]
      _ ≤ a.dtype.itemsize*a.inner.data.length := Nat.le_mul_of_pos_left _ a.dtype.itemsize_pos
      _ ≤ isizeMax := ha.fits
  rw [countNonzero, hm, ← hcount]
  change Except.ok (some (asIsize m.count)) = _
  rw [asIsize_of_le hsmall]

theorem countNonzero_nonzero_tied : countNonzero nanInts some besideTied = .ok (some 3) := by
  have hcounted : besideTied.inner.Counted := ⟨by decide, by decide⟩
  obtain ⟨out, idxs, hout, -, hzip, hcount⟩ := countNonzero_nonzero nanInts some hcounted (by decide) (by decide)
  rw [hcount]
  have hlen : out.map NdArray.shape = [[3]] := by
    cases hout
    rfl
  obtain ⟨c, rfl⟩ : ∃ c, out = [c] := List.length_eq_one_iff.mp hzip.length
  have hshape : [idxs.length] = [3] := (hzip.shape c (List.mem_singleton_self c)).symm.trans (List.singleton_inj.mp hlen)
  rw [List.singleton_inj.mp hshape]
  rfl

end counting

end LightArray
