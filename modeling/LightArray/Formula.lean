import LightArray.OperatorResult

/-! Expressions of arrays and Python numbers: the element-wise functions (`lib.rs`) and the operators,
evaluated one after the other the way the interpreter does. -/
namespace LightArray
open MachineWord RowMajor

/-- What code outside the core gives back: `_fallback.call` of a NumPy function, and CPython where no
method of an array handles a pair. -/
structure Outside (F : Type) where
  call : String → List (PyOperand F) → Except Failure (PyOperand F)
  python : Operator → PyOperand F → PyOperand F → Except Failure (PyOperand F)

/-- The functions for which NumPy keeps an integer dtype. -/
def keepsInt : List String := ["floor", "ceil", "trunc", "rint", "negative", "positive", "absolute", "abs", "sign",
  "square", "reciprocal", "fabs"]

variable {F : Type} (ofInt : ℤ → F) (out : Outside F)

def BinaryResult.operand (o : Operator) (x1 x2 : PyOperand F) : BinaryResult F → Except Failure (PyOperand F)
  | .native a => .ok (.array a)
  | .numpy name y1 y2 => out.call name [y1, y2]
  | .notImplemented => out.python o x1 x2

/-- `unary`: `f` to an array natively, a Python number as a float, and anything else through NumPy. -/
def unary (name : String) (x : PyOperand F) (f : F → F) : Except Failure (PyOperand F) :=
  match x with
  | .array (.f64 dims data) => .ok (.array (.f64 dims (data.map f)))
  | .array (.i64 dims data) =>
    if name ∈ keepsInt then out.call name [x]
    else do
      let a ← AnyArray.toArrayF64 ofInt (.i64 dims data)
      .ok (.array (.f64 a.dims (a.data.map f)))
  | .float v => .ok (.float (f v))
  | .int i => do
    let v ← extractFloat ofInt i
    .ok (.float (f v))
  | x => out.call name [x]

/-- `x1 OP x2`: the method of the left operand, or the reflected one of the right. -/
def applyOperator (ops : FloatArith F) (o : Operator) (x1 x2 : PyOperand F) : Except Failure (PyOperand F) :=
  match x1, x2 with
  | .array a, x2 => do
    let r ← o.forward ofInt ops a x2
    r.operand out o (.array a) x2
  | x1, .array b => do
    let r ← o.reflected ofInt ops b x1
    r.operand out o x1 (.array b)
  | x1, x2 => out.python o x1 x2

/-- An int64 array. -/
def PyOperand.isInt64 : PyOperand F → Bool
  | .array (.i64 ..) => true
  | _ => false

/-- An expression in the names of arrays and numbers. -/
inductive Formula (F : Type)
  | name (i : ℕ)
  | unary (n : String) (f : F → F) (e : Formula F)
  | operator (o : Operator) (l r : Formula F)

namespace Formula

variable (ops : FloatArith F) (env : ℕ → PyOperand F)

def eval : Formula F → Except Failure (PyOperand F)
  | name i => .ok (env i)
  | unary n f e => do
    let x ← e.eval
    LightArray.unary ofInt out n x f
  | operator o l r => do
    let x1 ← l.eval
    let x2 ← r.eval
    applyOperator ofInt out ops o x1 x2

/-- The expression of single numbers. -/
def value (ρ : ℕ → F) : Formula F → F
  | name i => ρ i
  | unary _ f e => f (e.value ρ)
  | operator o l r => o.arith ops (l.value ρ) (r.value ρ)

def names : Formula F → Set ℕ
  | name i => {i}
  | unary _ _ e => e.names
  | operator _ l r => l.names ∪ r.names

/-- The shapes of what the names stand for. -/
def shapes (e : Formula F) : Set StretchOrder := (fun i => (env i).shape) '' e.names

def isArray : Formula F → Bool
  | name i => !(env i).isScalar
  | _ => true

def isFloat64 : Formula F → Bool
  | name i => (env i).isFloat64
  | _ => true

def isInt64 : Formula F → Bool
  | name i => (env i).isInt64
  | _ => false

/-- No part of the expression is left to NumPy or to CPython: every function has an array that it
computes on in float64, and every operator has an array and a float64 operand, or divides. -/
def Native : Formula F → Prop
  | name i => (env i).Wf
  | unary n _ e => e.Native ∧ (e.isArray env ∧ e.isFloat64 env ∨ n ∉ keepsInt ∧ e.isInt64 env)
  | operator o l r => l.Native ∧ r.Native ∧ (l.isArray env ∨ r.isArray env) ∧
      (o.ufunc == "divide" || l.isFloat64 env || r.isFloat64 env)

/-- The shape that some operands have in common takes at most `isize::MAX` bytes. -/
def Small (A : Set StretchOrder) : Prop := ∀ s : List ℕ, IsLUB A (s : StretchOrder) → DType.float64.itemsize*s.prod ≤ isizeMax

/-- The result of every part has a size that a buffer can have. -/
def Fits : Formula F → Prop
  | name i => DType.float64.itemsize*(env i).shape.prod ≤ isizeMax
  | unary _ _ e => e.Fits
  | operator o l r => l.Fits ∧ r.Fits ∧ Small ((operator o l r).shapes env)

/-- What the evaluation of an expression gives. -/
structure Denotes (e : Formula F) (z : PyOperand F) : Prop where
  wf : z.Wf
  isArray : (!z.isScalar) = e.isArray env
  isFloat64 : z.isFloat64 = e.isFloat64 env
  isInt64 : z.isInt64 = e.isInt64 env
  shape : IsLUB (e.shapes env) (z.shape : StretchOrder)
  fits : DType.float64.itemsize*z.shape.prod ≤ isizeMax
  elements : ∀ idx, InRange z.shape idx → ∀ ρ : ℕ → F, (∀ i ∈ e.names, (env i).floatAt ofInt idx = some (ρ i)) →
    z.floatAt ofInt idx = some (e.value ops ρ)

end Formula

variable {ofInt out} {x x1 x2 : PyOperand F} {n : String} {f : F → F → F}

/-- An operand shows at an index of a larger shape what it shows at the index stretched back. -/
theorem PyOperand.floatAt_stretch {t idx : List ℕ} (h : BroadcastsTo x.shape t) (hlen : t.length ≤ idx.length) :
    x.floatAt ofInt (stretch t idx) = x.floatAt ofInt idx := by
  cases x with
  | array a =>
    have hidx : stretch a.shape (stretch t idx) = stretch a.shape idx := stretch_stretch h hlen
    rw [floatAt, floatAt, hidx]
  | float v => rfl
  | int i => rfl
  | bool b => rfl
  | other numpy => rfl

theorem exists_floatAt {s idx : List ℕ} (hx : x.Wf) (hs : BroadcastsTo x.shape s) (hidx : InRange s idx) :
    ∃ v, x.floatAt ofInt idx = some v := by
  cases x with
  | array a =>
    have hin : InRange a.shape (stretch a.shape idx) := inRange_stretch hs hidx
    have hlt : flat a.shape (stretch a.shape idx) < (a.floatData ofInt).length := by
      rw [length_floatData ofInt hx]
      exact flat_lt hin
    exact ⟨_, List.getElem?_eq_getElem hlt⟩
  | float v => exact ⟨_, rfl⟩
  | int i => exact ⟨_, rfl⟩
  | bool b => exact ⟨_, rfl⟩
  | other numpy => exact hx.elim

theorem floatAt_f64 {a : NdArray .float64 F} {idx : List ℕ} (hidx : InRange a.shape idx) :
    (PyOperand.array (.f64 a.dims a.data)).floatAt ofInt idx = a.at? idx := by
  have hself : stretch a.shape idx = idx := stretch_self hidx
  show a.data[flat a.shape (stretch a.shape idx)]? = _
  rw [hself]
  rfl

/-- Empty axes aside, stretching only makes a shape larger. -/
theorem prod_le_of_broadcastsTo {s u : List ℕ} (h : BroadcastsTo s u) : s.prod ≤ (u.map (max 1)).prod := by
  obtain ⟨-, hall⟩ := h
  generalize u.length-s.length = k at hall
  have hsuffix : s.prod ≤ ((u.drop k).map (max 1)).prod := by
    generalize u.drop k = t at hall
    induction hall with
    | nil => exact le_rfl
    | cons hd _ ih =>
      rw [List.prod_cons, List.map_cons, List.prod_cons]
      apply Nat.mul_le_mul _ ih
      omega
  have hlead : 0 < ((u.take k).map (max 1)).prod := by
    apply List.prod_pos
    intro d hd
    obtain ⟨c, -, rfl⟩ := List.mem_map.mp hd
    exact lt_of_lt_of_le one_pos (le_max_left 1 c)
  calc
    s.prod ≤ ((u.drop k).map (max 1)).prod := hsuffix
    _ ≤ ((u.take k).map (max 1)).prod*((u.drop k).map (max 1)).prod := Nat.le_mul_of_pos_left _ hlead
    _ = (u.map (max 1)).prod := by rw [← List.prod_append, ← List.map_append, List.take_append_drop]

theorem exists_array_of_isScalar (h : x.isScalar = false) : ∃ a, x = .array a := by
  cases x with
  | array a => exact ⟨a, rfl⟩
  | float v => cases h
  | int i => cases h
  | bool b => cases h
  | other numpy => cases h

theorem exists_toFloat64 (ofInt : ℤ → F) (hx : x.Wf) (hfits : DType.float64.itemsize*x.shape.prod ≤ isizeMax) :
    ∃ u, x.toFloat64 ofInt = .ok u := by
  cases x with
  | array a =>
    obtain ⟨u, hu, -⟩ := exists_toArrayF64 ofInt hx hfits
    exact ⟨.inl u, by rw [PyOperand.toFloat64, hu]; rfl⟩
  | float v => exact ⟨_, rfl⟩
  | int i => exact ⟨_, rfl⟩
  | bool b => exact ⟨_, rfl⟩
  | other numpy => exact hx.elim

theorem counted_map {u : NdArray .float64 F} (hu : u.Counted) (g : F → F) : (u.map g).Counted := by
  have hlen : (u.map g).data.length = u.data.length := List.length_map _
  exact ⟨hlen.trans hu.count, by rw [hlen]; exact hu.fits⟩

/-- Two operands of which one is an array combine exactly when their shapes broadcast. -/
theorem combineFloats_spec {u v : NdArray .float64 F ⊕ F} (hu : ShowsFloat64 ofInt x1 u) (hv : ShowsFloat64 ofInt x2 v)
    (harray : x1.isScalar = false ∨ x2.isScalar = false)
    (hfit : ∀ s, broadcastShape x1.shape x2.shape = .ok s → DType.float64.itemsize*s.prod ≤ isizeMax) :
    (∀ z, combineFloats f u v = .ok z → z.Counted) ∧
    ∀ s, broadcastShape x1.shape x2.shape = .ok s → ∃ z, combineFloats f u v = .ok z := by
  cases u with
  | inl u =>
    obtain ⟨hcount, hshow⟩ := hu
    cases v with
    | inl v =>
      obtain ⟨hcount', hshow'⟩ := hv
      rw [hshow.shape_eq, hshow'.shape_eq] at hfit ⊢
      refine ⟨fun z hz => (NdArray.zipMap_ok hcount hcount' hfit hz).counted, fun s hs => ?_⟩
      obtain ⟨z, hz, -⟩ := NdArray.zipMap_spec (f := f) hcount hcount' hs (hfit s hs)
      exact ⟨z, hz⟩
    | inr t =>
      refine ⟨fun z hz => ?_, fun s _ => ⟨_, rfl⟩⟩
      cases hz
      exact counted_map hcount _
  | inr s =>
    cases v with
    | inl v =>
      refine ⟨fun z hz => ?_, fun s _ => ⟨_, rfl⟩⟩
      cases hz
      exact counted_map hv.1 _
    | inr t =>
      have hs := hu.isScalar
      have ht := hv.isScalar
      rcases harray with h | h
      · rw [h] at hs
        cases hs
      · rw [h] at ht
        cases ht

/-- Float64 arithmetic of an ordered pair whose broadcast fits. -/
structure FloatResult (ofInt : ℤ → F) (n : String) (f : F → F → F) (x1 x2 : PyOperand F) : Prop where
  native : ∀ r, evaluate ofInt n f x1 x2 = .ok r → ∃ z : NdArray .float64 F, r = nativeF64 z ∧ z.Counted ∧
    BroadcastOf (PyOperand.floatAt ofInt) f x1 x2 z.shape z.data
  total : ∀ s, broadcastShape x1.shape x2.shape = .ok s → ∃ r, evaluate ofInt n f x1 x2 = .ok r

theorem floatResult (h1 : x1.Wf) (h2 : x2.Wf) (harray : x1.isScalar = false ∨ x2.isScalar = false)
    (hfloats : usesFloats n x1 x2) (hfits1 : DType.float64.itemsize*x1.shape.prod ≤ isizeMax)
    (hfits2 : DType.float64.itemsize*x2.shape.prod ≤ isizeMax)
    (hfit : ∀ s, broadcastShape x1.shape x2.shape = .ok s → DType.float64.itemsize*s.prod ≤ isizeMax) :
    FloatResult ofInt n f x1 x2 := by
  obtain ⟨u, hu⟩ := exists_toFloat64 ofInt h1 hfits1
  obtain ⟨v, hv⟩ := exists_toFloat64 ofInt h2 hfits2
  have hshow := toFloat64_ok h1 hu
  have hshow' := toFloat64_ok h2 hv
  obtain ⟨hcounted, htotal⟩ := combineFloats_spec (f := f) hshow hshow' harray hfit
  have heval : evaluate ofInt n f x1 x2 = (do let r ← combineFloats f u v; .ok (nativeF64 r)) := by
    rw [evaluate, if_pos hfloats, hu, hv]
    rfl
  refine ⟨fun r hr => ?_, fun s hs => ?_⟩
  · rw [heval] at hr
    obtain ⟨z, hz, hzr⟩ := bind_eq_ok.mp hr
    cases hzr
    refine ⟨z, rfl, hcounted z hz, ?_⟩
    apply broadcastOf_combine hshow hshow' hz
    intro s hs _ _ _
    exact lt_wordModulus_of_fits (hfit s hs)
  · obtain ⟨z, hz⟩ := htotal s hs
    exact ⟨nativeF64 z, by rw [heval, hz]; rfl⟩

/-- `x1 OP x2` of an array and another operand is the operator of the ordered pair. -/
theorem applyOperator_eq {ops : FloatArith F} {o : Operator} (h1 : x1.Wf) (h2 : x2.Wf)
    (harray : x1.isScalar = false ∨ x2.isScalar = false) :
    applyOperator ofInt out ops o x1 x2 = (do
      let r ← evaluate ofInt o.ufunc (o.arith ops) x1 x2
      r.operand out o x1 x2) := by
  have hforward (a : AnyArray F) (ha : x1 = .array a) : applyOperator ofInt out ops o x1 x2 = (do
      let r ← evaluate ofInt o.ufunc (o.arith ops) x1 x2
      r.operand out o x1 x2) := by
    subst ha
    rw [← binaryOp_forward h1 h2, ← Operator.forward_eq]
    rfl
  have hreflected (hs : x1.isScalar) (b : AnyArray F) (hb : x2 = .array b) : applyOperator ofInt out ops o x1 x2 = (do
      let r ← evaluate ofInt o.ufunc (o.arith ops) x1 x2
      r.operand out o x1 x2) := by
    subst hb
    rw [← binaryOp_reflected h2 h1, ← Operator.reflected_eq]
    cases x1 with
    | array a => cases hs
    | float v => rfl
    | int i => rfl
    | bool v => rfl
    | other numpy => rfl
  by_cases hs : x1.isScalar
  · obtain ⟨b, hb⟩ := exists_array_of_isScalar (harray.resolve_left (by rw [hs]; exact Bool.noConfusion))
    exact hreflected hs b hb
  · obtain ⟨a, ha⟩ := exists_array_of_isScalar (Bool.not_eq_true _ ▸ hs)
    exact hforward a ha

namespace Formula

variable {ops : FloatArith F} {env : ℕ → PyOperand F} {e l r : Formula F} {g : F → F} {o : Operator} {z : PyOperand F}

theorem Denotes.exists_float64 (h : Denotes ofInt ops env e z) (harray : e.isArray env) (hfloat : e.isFloat64 env) :
    ∃ a : NdArray .float64 F, z = .array (.f64 a.dims a.data) ∧ a.Counted := by
  rw [← h.isArray] at harray
  rw [← h.isFloat64] at hfloat
  cases z with
  | array b =>
    cases b with
    | f64 dims data => exact ⟨⟨dims, data⟩, rfl, h.wf⟩
    | i64 dims data => cases hfloat
    | bool dims data => cases hfloat
  | float v => cases harray
  | int i => cases harray
  | bool b => cases harray
  | other numpy => cases harray

theorem Denotes.exists_int64 (h : Denotes ofInt ops env e z) (hint : e.isInt64 env) :
    ∃ dims data, z = .array (.i64 dims data) := by
  rw [← h.isInt64] at hint
  cases z with
  | array b =>
    cases b with
    | f64 dims data => cases hint
    | i64 dims data => exact ⟨dims, data, rfl⟩
    | bool dims data => cases hint
  | float v => cases hint
  | int i => cases hint
  | bool b => cases hint
  | other numpy => cases hint

theorem denotes_name {i : ℕ} (h : (env i).Wf) (hfits : (name i : Formula F).Fits env) :
    Denotes ofInt ops env (name i) (env i) where
  wf := h
  isArray := rfl
  isFloat64 := rfl
  isInt64 := rfl
  shape := by
    have hshapes : (name i : Formula F).shapes env = {((env i).shape : StretchOrder)} := Set.image_singleton
    rw [hshapes]
    exact isLUB_singleton
  fits := hfits
  elements := fun idx _ ρ hρ => hρ i rfl

/-- The function of an array that holds what the argument shows. -/
theorem denotes_map {u : NdArray .float64 F} (h : Denotes ofInt ops env e x) (hu : u.Counted) (hshape : u.shape = x.shape)
    (hread : ∀ idx, InRange x.shape idx → x.floatAt ofInt idx = u.data[flat u.shape (stretch u.shape idx)]?) :
    Denotes ofInt ops env (unary n g e) (.array (.f64 u.dims (u.data.map g))) := by
  have hs : (PyOperand.array (.f64 u.dims (u.data.map g))).shape = x.shape := hshape
  refine ⟨counted_map hu g, rfl, rfl, rfl, ?_, ?_, fun idx hidx ρ hρ => ?_⟩
  · rw [hs]
    exact h.shape
  · rw [hs]
    exact h.fits
  · have hin : InRange x.shape idx := hs ▸ hidx
    have helem := h.elements idx hin ρ hρ
    rw [hread idx hin] at helem
    show (u.data.map g)[flat u.shape (stretch u.shape idx)]? = _
    rw [List.getElem?_map, helem]
    rfl

theorem denotes_unary (out : Outside F) (h : Denotes ofInt ops env e x) (hnative : (unary n g e).Native env) :
    ∃ z, LightArray.unary ofInt out n x g = .ok z ∧ Denotes ofInt ops env (unary n g e) z := by
  rcases hnative.2 with ⟨harray, hfloat⟩ | ⟨hkeeps, hint⟩
  · obtain ⟨u, rfl, hcount⟩ := h.exists_float64 harray hfloat
    refine ⟨_, rfl, ?_⟩
    apply denotes_map h hcount rfl
    intro idx _
    rfl
  · obtain ⟨dims, data, rfl⟩ := h.exists_int64 hint
    obtain ⟨u, hu, hcount, hshape⟩ := exists_toArrayF64 ofInt h.wf h.fits
    obtain ⟨-, hshow⟩ := toArrayF64_ok h.wf hu
    refine ⟨.array (.f64 u.dims (u.data.map g)), ?_, ?_⟩
    · rw [LightArray.unary, if_neg hkeeps, hu]
      rfl
    · apply denotes_map h hcount hshape
      intro idx _
      exact hshow.read_eq idx

/-- Read in the broadcast, a part shows its value. -/
theorem Denotes.read {s idx : List ℕ} {ρ : ℕ → F} (h : Denotes ofInt ops env e x) (hs : BroadcastsTo x.shape s)
    (hidx : InRange s idx) (hρ : ∀ i ∈ e.names, (env i).floatAt ofInt idx = some (ρ i)) :
    x.floatAt ofInt idx = some (e.value ops ρ) := by
  have hlen : x.shape.length ≤ idx.length := by
    rw [hidx.length_eq]
    exact hs.1
  have hname (i : ℕ) (hi : i ∈ e.names) : (env i).floatAt ofInt (stretch x.shape idx) = some (ρ i) := by
    have hle : BroadcastsTo (env i).shape x.shape := h.shape.1 (Set.mem_image_of_mem _ hi)
    rw [PyOperand.floatAt_stretch hle hlen]
    exact hρ i hi
  have helem := h.elements (stretch x.shape idx) (inRange_stretch hs hidx) ρ hname
  rwa [PyOperand.floatAt_stretch (broadcastsTo_self _) hlen] at helem

theorem shapes_operator : (operator o l r).shapes env = l.shapes env ∪ r.shapes env := Set.image_union _ _ _

section operator

variable (hl : Denotes ofInt ops env l x1) (hr : Denotes ofInt ops env r x2) (hnative : (operator o l r).Native env)
  (hfits : (operator o l r).Fits env)

include hl hr

theorem isLUB_operator {s : List ℕ} (h : broadcastShape x1.shape x2.shape = .ok s) :
    IsLUB ((operator o l r).shapes env) (s : StretchOrder) := by
  rw [shapes_operator]
  exact partialJoin_broadcastShape.isLUB_union hl.shape hr.shape (toOption_eq_some.mpr h)

include hnative

theorem exists_array_operand : x1.isScalar = false ∨ x2.isScalar = false := by
  obtain ⟨-, -, harray, -⟩ := hnative
  rw [← hl.isArray, ← hr.isArray] at harray
  simpa using harray

include hfits

/-- The operator computes in float64. -/
theorem floatResult_operator : FloatResult ofInt o.ufunc (o.arith ops) x1 x2 := by
  have huses : usesFloats o.ufunc x1 x2 := by
    have hfloats := hnative.2.2.2
    rwa [← hl.isFloat64, ← hr.isFloat64] at hfloats
  apply floatResult hl.wf hr.wf (exists_array_operand hl hr hnative) huses hl.fits hr.fits
  intro s hs
  exact hfits.2.2 s (isLUB_operator hl hr hs)

theorem denotes_operator (hz : applyOperator ofInt out ops o x1 x2 = .ok z) :
    Denotes ofInt ops env (operator o l r) z := by
  have hresult := floatResult_operator hl hr hnative hfits
  rw [applyOperator_eq hl.wf hr.wf (exists_array_operand hl hr hnative)] at hz
  obtain ⟨res, hres, hoperand⟩ := bind_eq_ok.mp hz
  obtain ⟨a, rfl, hcount, hbroadcast⟩ := hresult.native res hres
  cases hoperand
  have hlub := isLUB_operator (o := o) hl hr hbroadcast.broadcast
  obtain ⟨hle1, hle2⟩ := broadcastsTo_of_broadcastShape hbroadcast.broadcast
  refine ⟨hcount, rfl, rfl, rfl, hlub, hfits.2.2 a.shape hlub, fun idx hidx ρ hρ => ?_⟩
  obtain ⟨u, v, hu, hv, huv⟩ := hbroadcast.elements idx hidx
  rw [hl.read hle1 hidx fun i hi => hρ i (.inl hi)] at hu
  rw [hr.read hle2 hidx fun i hi => hρ i (.inr hi)] at hv
  cases hu
  cases hv
  exact (floatAt_f64 (a := a) hidx).trans huv

theorem exists_operator (out : Outside F) {u : List ℕ} (hu : (u : StretchOrder) ∈ upperBounds ((operator o l r).shapes env)) :
    ∃ z, applyOperator ofInt out ops o x1 x2 = .ok z := by
  rw [shapes_operator] at hu
  obtain ⟨s, hs⟩ := partialJoin_broadcastShape.exists_of_bounded hl.shape hr.shape hu
  have hresult := floatResult_operator hl hr hnative hfits
  obtain ⟨res, hres⟩ := hresult.total s (toOption_eq_some.mp hs)
  obtain ⟨a, rfl, -, -⟩ := hresult.native res hres
  refine ⟨.array (.f64 a.dims a.data), ?_⟩
  rw [applyOperator_eq hl.wf hr.wf (exists_array_operand hl hr hnative), hres]
  rfl

end operator

theorem eval_run (ofInt : ℤ → F) (out : Outside F) (ops : FloatArith F) (hnative : e.Native env) (hfits : e.Fits env) :
    (∀ z, e.eval ofInt out ops env = .ok z → Denotes ofInt ops env e z) ∧
    ∀ u : List ℕ, (u : StretchOrder) ∈ upperBounds (e.shapes env) → ∃ z, e.eval ofInt out ops env = .ok z := by
  induction e with
  | name i =>
    refine ⟨fun z hz => ?_, fun u _ => ⟨_, rfl⟩⟩
    cases hz
    exact denotes_name hnative hfits
  | unary n g e ih =>
    obtain ⟨hsound, htotal⟩ := ih hnative.1 hfits
    refine ⟨fun z hz => ?_, fun u hu => ?_⟩
    · obtain ⟨x, hx, hxz⟩ := bind_eq_ok.mp hz
      obtain ⟨z', hz', hdenotes⟩ := denotes_unary out (hsound x hx) hnative
      cases hxz.symm.trans hz'
      exact hdenotes
    · obtain ⟨x, hx⟩ := htotal u hu
      obtain ⟨z, hz, -⟩ := denotes_unary out (hsound x hx) hnative
      refine ⟨z, ?_⟩
      rw [eval, hx]
      exact hz
  | operator o l r ihl ihr =>
    obtain ⟨hlsound, hltotal⟩ := ihl hnative.1 hfits.1
    obtain ⟨hrsound, hrtotal⟩ := ihr hnative.2.1 hfits.2.1
    refine ⟨fun z hz => ?_, fun u hu => ?_⟩
    · obtain ⟨x1, hx1, hrest⟩ := bind_eq_ok.mp hz
      obtain ⟨x2, hx2, hxz⟩ := bind_eq_ok.mp hrest
      exact denotes_operator (hlsound x1 hx1) (hrsound x2 hx2) hnative hfits hxz
    · -- a bound of all the shapes bounds those of either side
      have hboth := hu
      rw [shapes_operator, upperBounds_union] at hboth
      obtain ⟨x1, hx1⟩ := hltotal u hboth.1
      obtain ⟨x2, hx2⟩ := hrtotal u hboth.2
      obtain ⟨z, hz⟩ := exists_operator (hlsound x1 hx1) (hrsound x2 hx2) hnative hfits out hu
      refine ⟨z, ?_⟩
      rw [eval, hx1]
      show (r.eval ofInt out ops env >>= _) = _
      rw [hx2]
      exact hz

/-- The bounds of the shapes are what every operand stretches to. -/
theorem mem_upperBounds_shapes {u : List ℕ} :
    (u : StretchOrder) ∈ upperBounds (e.shapes env) ↔ ∀ i ∈ e.names, BroadcastsTo (env i).shape u := by
  refine ⟨fun h i hi => h (Set.mem_image_of_mem _ hi), ?_⟩
  rintro h _ ⟨i, hi, rfl⟩
  exact h i hi

theorem wf_of_native (h : e.Native env) : ∀ i ∈ e.names, (env i).Wf := by
  induction e with
  | name i =>
    rintro _ rfl
    exact h
  | unary n g e ih => exact ih h.1
  | operator o l r ihl ihr =>
    rintro i (hi | hi)
    · exact ihl h.1 i hi
    · exact ihr h.2.1 i hi

/-- Where the common shape, its empty axes counted as one, fits in memory, so does every part. -/
theorem fits_of_bound {u : List ℕ} (h : ∀ i ∈ e.names, BroadcastsTo (env i).shape u)
    (hu : DType.float64.itemsize*(u.map (max 1)).prod ≤ isizeMax) : e.Fits env := by
  have hsmall {s : List ℕ} (hs : BroadcastsTo s u) : DType.float64.itemsize*s.prod ≤ isizeMax :=
    (Nat.mul_le_mul_left _ (prod_le_of_broadcastsTo hs)).trans hu
  induction e with
  | name i => exact hsmall (h i rfl)
  | unary n g e ih => exact ih h
  | operator o l r ihl ihr =>
    refine ⟨ihl fun i hi => h i (.inl hi), ihr fun i hi => h i (.inr hi), fun s hs => ?_⟩
    exact hsmall (hs.2 (mem_upperBounds_shapes.mpr h))

/-- An expression that stays native and whose parts have sizes a buffer can have gives a result
exactly when the shapes of all operands stretch to a common one. The result has the least such
shape, whichever way the operators are nested, and at each index it is the expression of the
numbers the operands show there, int64 and bool elements and Python numbers taken as float64. -/
theorem eval_denotes (ofInt : ℤ → F) (out : Outside F) (ops : FloatArith F) (env : ℕ → PyOperand F) (e : Formula F)
    (hnative : e.Native env) (hfits : e.Fits env) :
    ((∃ z, e.eval ofInt out ops env = .ok z) ↔ ∃ u, ∀ i ∈ e.names, BroadcastsTo (env i).shape u) ∧
    ∀ z, e.eval ofInt out ops env = .ok z → z.Wf ∧ IsLUB (e.shapes env) (z.shape : StretchOrder) ∧
      ∀ idx, InRange z.shape idx → (∀ i ∈ e.names, ∃ v, (env i).floatAt ofInt idx = some v) ∧
        ∀ ρ : ℕ → F, (∀ i ∈ e.names, (env i).floatAt ofInt idx = some (ρ i)) →
          z.floatAt ofInt idx = some (e.value ops ρ) := by
  obtain ⟨hsound, htotal⟩ := eval_run ofInt out ops hnative hfits
  refine ⟨⟨?_, ?_⟩, fun z hz => ?_⟩
  · rintro ⟨z, hz⟩
    exact ⟨z.shape, mem_upperBounds_shapes.mp (hsound z hz).shape.1⟩
  · rintro ⟨u, hu⟩
    exact htotal u (mem_upperBounds_shapes.mpr hu)
  · have hdenotes := hsound z hz
    refine ⟨hdenotes.wf, hdenotes.shape, fun idx hidx => ⟨fun i hi => ?_, hdenotes.elements idx hidx⟩⟩
    exact exists_floatAt (wf_of_native hnative i hi) (mem_upperBounds_shapes.mp hdenotes.shape.1 i hi) hidx

def wholeArith : FloatArith ℤ := ⟨(· + ·), (· - ·), (· * ·), (· / ·), (· / ·), (· % ·), fun a b => a^b.toNat⟩

def refusing : Outside ℤ := ⟨fun _ _ => .error (.python .typeError ""), fun _ _ _ => .error (.python .typeError "")⟩

def rowAndColumn (i : ℕ) : PyOperand ℤ :=
  if i = 0 then .array (.f64 NdArray.rowOfThree.dims NdArray.rowOfThree.data)
  else if i = 1 then .array (.f64 NdArray.columnOfTwo.dims NdArray.columnOfTwo.data)
  else .int 2

/-- `2*(x+y)`. -/
def twiceSum : Formula ℤ := .operator .mul (.name 2) (.operator .add (.name 0) (.name 1))

/-- `(x+x)+(y+y)`. -/
def sumOfDoubles : Formula ℤ := .operator .add (.operator .add (.name 0) (.name 0)) (.operator .add (.name 1) (.name 1))

theorem rowAndColumn_wf (i : ℕ) : (rowAndColumn i).Wf := by
  unfold rowAndColumn
  split_ifs
  · exact ⟨by decide, by decide⟩
  · exact ⟨by decide, by decide⟩
  · exact ⟨by decide, by decide⟩

theorem rowAndColumn_bound (i : ℕ) : BroadcastsTo (rowAndColumn i).shape [2,3] := by
  apply broadcastShape_eq_ok.mp
  unfold rowAndColumn
  split_ifs
  · show broadcastShape [2,3] [1,3] = .ok [2,3]
    decide
  · show broadcastShape [2,3] [2,1] = .ok [2,3]
    decide
  · exact (broadcastShape_nil _).2

theorem twiceSum_native : twiceSum.Native rowAndColumn :=
  ⟨rowAndColumn_wf 2, ⟨rowAndColumn_wf 0, rowAndColumn_wf 1, .inl rfl, rfl⟩, .inr rfl, rfl⟩

theorem sumOfDoubles_native : sumOfDoubles.Native rowAndColumn :=
  ⟨⟨rowAndColumn_wf 0, rowAndColumn_wf 0, .inl rfl, rfl⟩, ⟨rowAndColumn_wf 1, rowAndColumn_wf 1, .inl rfl, rfl⟩, .inl rfl, rfl⟩

theorem rowAndColumn_fits (e : Formula ℤ) : e.Fits rowAndColumn :=
  fits_of_bound (fun i _ => rowAndColumn_bound i) (by decide)

theorem doubled_ndim : [2,3].length ≤ maxNdim := by decide

theorem doubled_strides : [24,8] = (cStrides 8 [2,3]).1 := by decide

/-- What `2*(x+y)` and `(x+x)+(y+y)` give. -/
def doubled : PyOperand ℤ := .array (.f64 ⟨[2,3], [24,8], doubled_ndim, doubled_strides⟩ [22,24,26,42,44,46])

theorem twiceSum_eval : twiceSum.eval (fun i => i) refusing wholeArith rowAndColumn = .ok doubled := by
  have hdims : (⟨[2,3], [24,8], doubled_ndim, doubled_strides⟩ : Dims 8) = ⟨[2,3], _, doubled_ndim, rfl⟩ := Dims.ext_shape rfl
  rw [doubled, hdims]
  rfl

/-- The shapes stretch to a common one, the result has the least, and its element at (1,2) is `2*(3+20)`. -/
theorem eval_denotes_twiceSum : (∃ u, ∀ i ∈ twiceSum.names, BroadcastsTo (rowAndColumn i).shape u) ∧
    IsLUB (twiceSum.shapes rowAndColumn) (doubled.shape : StretchOrder) ∧ doubled.floatAt (fun i => i) [1,2] = some 46 := by
  obtain ⟨hiff, hresult⟩ := eval_denotes (fun i => i) refusing wholeArith rowAndColumn twiceSum twiceSum_native (rowAndColumn_fits _)
  obtain ⟨-, hlub, helem⟩ := hresult doubled twiceSum_eval
  have hin : InRange doubled.shape [1,2] := by
    show InRange [2,3] [1,2]
    decide
  refine ⟨hiff.mp ⟨_, twiceSum_eval⟩, hlub, (helem [1,2] hin).2 (fun i => if i = 0 then 3 else if i = 1 then 20 else 2) ?_⟩
  rintro i (hi | hi | hi)
  · cases hi
    rfl
  · cases hi
    rfl
  · cases hi
    rfl

/-- The numbers the operands show at an index. -/
theorem exists_shown {N : Set ℕ} {idx : List ℕ} (h : ∀ i ∈ N, ∃ v, (env i).floatAt ofInt idx = some v) (d : F) :
    ∃ ρ : ℕ → F, (∀ i v, (env i).floatAt ofInt idx = some v → ρ i = v) ∧
      ∀ i ∈ N, (env i).floatAt ofInt idx = some (ρ i) := by
  have hshown (i : ℕ) (v : F) (hv : (env i).floatAt ofInt idx = some v) : ((env i).floatAt ofInt idx).getD d = v := by
    rw [hv, Option.getD_some]
  refine ⟨fun i => ((env i).floatAt ofInt idx).getD d, hshown, fun i hi => ?_⟩
  obtain ⟨v, hv⟩ := h i hi
  exact hv.trans (congrArg some (hshown i v hv).symm)

theorem scalar_floatAt {v : F} (idx : List ℕ) (h : x.scalar ofInt = some v) : x.floatAt ofInt idx = some v := by
  cases x with
  | array a => cases h
  | float w => exact h
  | int i => exact h
  | bool b => exact h
  | other numpy => cases h

section rewrite

variable {e' : Formula F} (hnative : e.Native env) (hnative' : e'.Native env) (hfits : e.Fits env) (hfits' : e'.Fits env)
  (hfloat : e.isArray env ∧ e.isFloat64 env) (hfloat' : e'.isArray env ∧ e'.isFloat64 env)
  (hshapes : ∀ u, (∀ i ∈ e.names, BroadcastsTo (env i).shape u) ↔ ∀ i ∈ e'.names, BroadcastsTo (env i).shape u)
  (hvalue : ∀ ρ : ℕ → F, (∀ i v, (env i).scalar ofInt = some v → ρ i = v) → e.value ops ρ = e'.value ops ρ)

include hnative hnative' hfits hfits' hfloat hfloat' hshapes hvalue

theorem eval_of_rewrite (hz : e.eval ofInt out ops env = .ok z) : e'.eval ofInt out ops env = .ok z := by
  obtain ⟨hsound, -⟩ := eval_run ofInt out ops hnative hfits
  obtain ⟨hsound', htotal'⟩ := eval_run ofInt out ops hnative' hfits'
  have hdenotes := hsound z hz
  have hbounds : upperBounds (e.shapes env) = upperBounds (e'.shapes env) := by
    apply Set.ext
    intro u
    exact mem_upperBounds_shapes.trans ((hshapes u).trans mem_upperBounds_shapes.symm)
  obtain ⟨z', hz'⟩ := htotal' z.shape (hbounds ▸ hdenotes.shape.1)
  have hdenotes' := hsound' z' hz'
  have hlub : IsLUB (e.shapes env) (z'.shape : StretchOrder) := by
    rw [IsLUB, hbounds]
    exact hdenotes'.shape
  obtain ⟨a, rfl, ha⟩ := hdenotes.exists_float64 hfloat.1 hfloat.2
  obtain ⟨b, rfl, hb⟩ := hdenotes'.exists_float64 hfloat'.1 hfloat'.2
  have hshape : a.shape = b.shape := hdenotes.shape.unique hlub
  rw [hz']
  have hab : a = b := by
    apply NdArray.ext_at? ha.count hb.count hshape
    intro idx hidx
    have hidx' : InRange b.shape idx := hshape ▸ hidx
    obtain ⟨d, hd⟩ := NdArray.exists_at? ha.count hidx
    have hread (i : ℕ) (hi : i ∈ e.names ∪ e'.names) : ∃ v, (env i).floatAt ofInt idx = some v := by
      rcases hi with hi | hi
      · exact exists_floatAt (wf_of_native hnative i hi) (hdenotes.shape.1 (Set.mem_image_of_mem _ hi)) hidx
      · exact exists_floatAt (wf_of_native hnative' i hi) (hdenotes'.shape.1 (Set.mem_image_of_mem _ hi)) hidx'
    obtain ⟨ρ, hscalar, hρ⟩ := exists_shown hread d
    have hleft := hdenotes.elements idx hidx ρ fun i hi => hρ i (.inl hi)
    have hright := hdenotes'.elements idx hidx' ρ fun i hi => hρ i (.inr hi)
    rw [floatAt_f64 hidx] at hleft
    rw [floatAt_f64 hidx'] at hright
    rw [hleft, hright, hvalue ρ fun i v hv => hscalar i v (scalar_floatAt idx hv)]
  rw [hab]

end rewrite

/-- Two expressions whose operands stretch to the same shapes, and which are equal for single numbers
(names of Python numbers keeping their values), have the same results: every identity of the
element type is one of arrays, broadcasting included. -/
theorem eval_rewrite (ofInt : ℤ → F) (out : Outside F) (ops : FloatArith F) (env : ℕ → PyOperand F) (e e' : Formula F)
    (hnative : e.Native env) (hnative' : e'.Native env) (hfits : e.Fits env) (hfits' : e'.Fits env)
    (hfloat : e.isArray env ∧ e.isFloat64 env) (hfloat' : e'.isArray env ∧ e'.isFloat64 env)
    (hshapes : ∀ u, (∀ i ∈ e.names, BroadcastsTo (env i).shape u) ↔ ∀ i ∈ e'.names, BroadcastsTo (env i).shape u)
    (hvalue : ∀ ρ : ℕ → F, (∀ i v, (env i).scalar ofInt = some v → ρ i = v) → e.value ops ρ = e'.value ops ρ)
    (z : PyOperand F) : e.eval ofInt out ops env = .ok z ↔ e'.eval ofInt out ops env = .ok z := by
  constructor
  · exact eval_of_rewrite hnative hnative' hfits hfits' hfloat hfloat' hshapes hvalue
  · exact eval_of_rewrite hnative' hnative hfits' hfits hfloat' hfloat (fun u => (hshapes u).symm)
      fun ρ hρ => (hvalue ρ hρ).symm

/-- The double of a sum is computed, so the sum of doubles has the same value. -/
theorem eval_rewrite_double : sumOfDoubles.eval (fun i => i) refusing wholeArith rowAndColumn = .ok doubled := by
  refine (eval_rewrite (fun i => i) refusing wholeArith rowAndColumn twiceSum sumOfDoubles twiceSum_native sumOfDoubles_native
    (rowAndColumn_fits _) (rowAndColumn_fits _) ⟨rfl, rfl⟩ ⟨rfl, rfl⟩ ?_ ?_ doubled).mp twiceSum_eval
  · intro u
    refine ⟨fun h i hi => h i ?_, fun h i hi => ?_⟩
    · rcases hi with (hi | hi) | (hi | hi)
      · exact .inr (.inl hi)
      · exact .inr (.inl hi)
      · exact .inr (.inr hi)
      · exact .inr (.inr hi)
    · rcases hi with rfl | hi | hi
      · exact broadcastsTo_iff.mpr ⟨Nat.zero_le _, fun _ => .inr rfl⟩
      · exact h i (.inl (.inl hi))
      · exact h i (.inr (.inl hi))
  · intro ρ hρ
    have htwo : ρ 2 = 2 := hρ 2 2 rfl
    show ρ 2*(ρ 0+ρ 1) = ρ 0+ρ 0+(ρ 1+ρ 1)
    rw [htwo]
    ring

end Formula

end LightArray
