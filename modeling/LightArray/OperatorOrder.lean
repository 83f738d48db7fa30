import LightArray.BinaryOp

namespace LightArray
open MachineWord RowMajor

variable {F : Type} (ofInt : ℤ → F)

namespace PyOperand

/-- The operands of the native operators: arrays whose buffer holds what the shape counts, and
Python floats, ints of 64 bits and bools. -/
def Wf : PyOperand F → Prop
  | .array a => a.inner.Counted
  | .float _ => True
  | .int i => -(2^63) ≤ i ∧ i < 2^63
  | .bool _ => True
  | .other _ => False

def shape : PyOperand F → List ℕ
  | .array a => a.shape
  | _ => []

def isScalar : PyOperand F → Bool
  | .array _ => false
  | _ => true

/-- A float64 array or a float. -/
def isFloat64 : PyOperand F → Bool
  | .array (.f64 ..) => true
  | .float _ => true
  | _ => false

/-- A scalar as float64. -/
def scalar : PyOperand F → Option F
  | .float v => some v
  | .int i => some (ofInt i)
  | .bool b => some (ofInt b.toInt)
  | _ => none

/-- The element an operand shows at an index of the broadcast, as float64. -/
def floatAt (idx : List ℕ) : PyOperand F → Option F
  | .array a => (a.floatData ofInt)[flat a.shape (stretch a.shape idx)]?
  | x => x.scalar ofInt

/-- The same of an int64 operand. -/
def intAt (idx : List ℕ) : PyOperand F → Option ℤ
  | .array (.i64 dims data) => data[flat dims.shape (stretch dims.shape idx)]?
  | .int i => some i
  | _ => none

end PyOperand

/-- An operand is float64, or the operator is division. -/
def usesFloats (name : String) (x1 x2 : PyOperand F) : Bool := name == "divide" || x1.isFloat64 || x2.isFloat64

/-- The int64 arithmetic of an ordered pair. -/
def evaluateInts (name : String) (x1 x2 : PyOperand F) : Option (NdArray .int64 ℤ) :=
  match intOp name, x1, x2 with
  | some op, .array (.i64 d u), .array (.i64 e v) => NdArray.zipInt ⟨d,u⟩ ⟨e,v⟩ op
  | some op, .array (.i64 d u), .int i => some (NdArray.mapInt ⟨d,u⟩ fun x => op x i)
  | some op, .int i, .array (.i64 e v) => some (NdArray.mapInt ⟨e,v⟩ fun x => op i x)
  | _, _, _ => none

/-- An operand as float64, an array or a scalar. -/
def PyOperand.toFloat64 : PyOperand F → Except Failure (NdArray .float64 F ⊕ F)
  | .array a => do
    let u ← a.toArrayF64 ofInt
    .ok (.inl u)
  | .float v => .ok (.inr v)
  | .int i => .ok (.inr (ofInt i))
  | .bool b => .ok (.inr (ofInt b.toInt))
  | .other _ => .error (.panic "not an operand")

/-- The float64 arithmetic of an ordered pair. -/
def combineFloats (f : F → F → F) : NdArray .float64 F ⊕ F → NdArray .float64 F ⊕ F → Except Failure (NdArray .float64 F)
  | .inl u, .inl v => NdArray.zipMap f u v
  | .inl u, .inr s => .ok (u.map fun x => f x s)
  | .inr s, .inl v => .ok (v.map fun x => f s x)
  | .inr _, .inr _ => .error (.panic "no array")

/-- What the operator means for an ordered pair with an array in it. -/
def evaluate (name : String) (f : F → F → F) (x1 x2 : PyOperand F) : Except Failure (BinaryResult F) :=
  if usesFloats name x1 x2 then do
    let u ← x1.toFloat64 ofInt
    let v ← x2.toFloat64 ofInt
    let r ← combineFloats f u v
    .ok (nativeF64 r)
  else
    match evaluateInts name x1 x2 with
    | some r => .ok (.native (.i64 r.dims r.data))
    | none => .ok (.numpy name x1 x2)

/-- The float64 branch the two functions share. -/
def floatBinary (u : NdArray .float64 F) (operand : Operand F) (reflected : Bool) (f : F → F → F) :
    Except Failure (BinaryResult F) :=
  match operand with
  | .f64 b => do
    let r ← if reflected then NdArray.zipMap f b u else NdArray.zipMap f u b
    .ok (nativeF64 r)
  | .alt b => do
    let b ← b.toArrayF64 ofInt
    let r ← if reflected then NdArray.zipMap f b u else NdArray.zipMap f u b
    .ok (nativeF64 r)
  | scalar =>
    match scalar.scalar ofInt with
    | some s => .ok (nativeF64 (if reflected then u.map fun x => f s x else u.map fun x => f x s))
    | none => .error (.panic "remaining variants are scalars")

variable {ofInt} {name : String} {f : F → F → F} {a b : AnyArray F} {x : PyOperand F}

theorem toArrayF64_f64 {dims : Dims 8} {data : List F} (h : (AnyArray.f64 dims data).inner.Counted) :
    (AnyArray.f64 dims data).toArrayF64 ofInt = .ok ⟨dims, data⟩ := by
  have hfits : withCapacity .float64 data.length = .ok () := withCapacity_of_le h.fits
  have hdims : (⟨dims.shape, _, dims.ndim_le, rfl⟩ : Dims 8) = dims := Dims.ext_shape rfl
  show (withCapacity .float64 data.length >>= _) = _
  rw [hfits]
  show Except.ok _ = Except.ok _
  congr 2

theorem toArrayF64_fails {e : Failure} (h : a.toArrayF64 ofInt = .error e) : e = .panic "capacity overflow" := by
  unfold AnyArray.toArrayF64 withCapacity at h
  split_ifs at h
  · cases h
    rfl
  · cases h

theorem toFloat64_fails {e : Failure} (hx : x.Wf) (h : x.toFloat64 ofInt = .error e) : e = .panic "capacity overflow" := by
  cases x with
  | array b =>
    cases hb : b.toArrayF64 ofInt with
    | ok u =>
      rw [PyOperand.toFloat64, hb] at h
      cases h
    | error e' =>
      rw [PyOperand.toFloat64, hb] at h
      cases h
      exact toArrayF64_fails hb
  | float s => cases h
  | int i => cases h
  | bool s => cases h
  | other numpy => exact hx.elim

/-- It does not matter which operand is converted first. -/
theorem toFloat64_comm {β : Type} {y : PyOperand F} (hx : x.Wf) (hy : y.Wf)
    (g : NdArray .float64 F ⊕ F → NdArray .float64 F ⊕ F → Except Failure β) :
    (do let v ← y.toFloat64 ofInt; let u ← x.toFloat64 ofInt; g u v) =
      (do let u ← x.toFloat64 ofInt; let v ← y.toFloat64 ofInt; g u v) := by
  cases hu : x.toFloat64 ofInt with
  | ok u => cases y.toFloat64 ofInt <;> rfl
  | error e =>
    cases hv : y.toFloat64 ofInt with
    | ok v => rfl
    | error e' =>
      rw [toFloat64_fails hx hu, toFloat64_fails hy hv]
      rfl

theorem classify_int {i : ℤ} (h : -(2^63) ≤ i ∧ i < 2^63) : classify ofInt (.int i) = .int i := if_pos h

theorem classify_ne_other (ofInt : ℤ → F) (hx : x.Wf) : classify ofInt x ≠ .other := by
  cases x with
  | array b => cases b <;> exact fun h => by cases h
  | float s => exact fun h => by cases h
  | int i =>
    rw [classify_int hx]
    exact fun h => by cases h
  | bool s => exact fun h => by cases h
  | other numpy => exact hx.elim

theorem classify_isFloat (ofInt : ℤ → F) (hx : x.Wf) : (classify ofInt x).isFloat = x.isFloat64 := by
  cases x with
  | array b => cases b <;> rfl
  | float s => rfl
  | int i =>
    rw [classify_int hx]
    rfl
  | bool s => rfl
  | other numpy => exact hx.elim

theorem altBinary_floats {operand : Operand F} {reflected : Bool} (hother : operand ≠ .other)
    (h : (name == "divide" || operand.isFloat) = true) :
    altBinary ofInt a x operand reflected name f = (do let u ← a.toArrayF64 ofInt; floatBinary ofInt u operand reflected f) := by
  cases operand with
  | other => exact absurd rfl hother
  | f64 b => exact if_pos h
  | alt b => exact if_pos h
  | float v => exact if_pos h
  | int i => exact if_pos h
  | bool v => exact if_pos h

theorem binaryOp_floats (ha : a.inner.Counted) (hx : x.Wf) {reflected : Bool} (h : usesFloats name (.array a) x) :
    binaryOp ofInt a x reflected name f =
      (do let u ← a.toArrayF64 ofInt; floatBinary ofInt u (classify ofInt x) reflected f) := by
  have hother := classify_ne_other ofInt hx
  have hfloat := classify_isFloat ofInt hx
  cases a with
  | f64 d u =>
    rw [toArrayF64_f64 ha]
    unfold binaryOp
    cases hc : classify ofInt x with
    | other => exact absurd hc hother
    | f64 b => rfl
    | alt b => rfl
    | float v => rfl
    | int i => rfl
    | bool v => rfl
  | i64 d u =>
    apply altBinary_floats hother
    simpa [usesFloats, PyOperand.isFloat64, hfloat] using h
  | bool d u =>
    apply altBinary_floats hother
    simpa [usesFloats, PyOperand.isFloat64, hfloat] using h

theorem floatBinary_eq {u : NdArray .float64 F} {reflected : Bool} (hx : x.Wf) :
    floatBinary ofInt u (classify ofInt x) reflected f = (do
      let s ← x.toFloat64 ofInt
      let r ← if reflected then combineFloats f s (.inl u) else combineFloats f (.inl u) s
      .ok (nativeF64 r)) := by
  cases x with
  | array b =>
    cases b with
    | f64 e v =>
      rw [PyOperand.toFloat64, toArrayF64_f64 hx]
      rfl
    | i64 e v =>
      rw [PyOperand.toFloat64]
      show (AnyArray.toArrayF64 ofInt (.i64 e v) >>= _) = _
      cases AnyArray.toArrayF64 ofInt (.i64 e v) <;> rfl
    | bool e v =>
      rw [PyOperand.toFloat64]
      show (AnyArray.toArrayF64 ofInt (.bool e v) >>= _) = _
      cases AnyArray.toArrayF64 ofInt (.bool e v) <;> rfl
  | float s => cases reflected <;> rfl
  | int i =>
    rw [classify_int hx]
    cases reflected <;> rfl
  | bool s => cases reflected <;> rfl
  | other numpy => exact hx.elim

theorem usesFloats_comm (x y : PyOperand F) : usesFloats name x y = usesFloats name y x := by
  unfold usesFloats
  rw [Bool.or_assoc, Bool.or_assoc, Bool.or_comm x.isFloat64]

/-- The integer arithmetic of an ordered pair, left to NumPy where there is none. -/
theorem altBinary_ints (hx : x.Wf) (hname : (name == "divide") = false) (hfloat : x.isFloat64 = false) {reflected : Bool} :
    altBinary ofInt a x (classify ofInt x) reflected name f =
      match (if reflected then evaluateInts name x (.array a) else evaluateInts name (.array a) x) with
      | some r => .ok (.native (.i64 r.dims r.data))
      | none => .ok (numpyBinary a x reflected name) := by
  cases x with
  | array b =>
    cases b with
    | f64 e v => cases hfloat
    | i64 e v =>
      simp only [altBinary, classify, hname, Operand.isFloat, evaluateInts]
      cases a <;> cases intOp name <;> cases reflected <;> rfl
    | bool e v =>
      simp only [altBinary, classify, hname, Operand.isFloat, evaluateInts]
      cases a <;> cases intOp name <;> cases reflected <;> rfl
  | float s => cases hfloat
  | int i =>
    rw [classify_int hx]
    simp only [altBinary, hname, Operand.isFloat, evaluateInts]
    cases a <;> cases intOp name <;> cases reflected <;> rfl
  | bool s =>
    simp only [altBinary, classify, hname, Operand.isFloat, evaluateInts]
    cases a <;> cases intOp name <;> cases reflected <;> rfl
  | other numpy => exact hx.elim

theorem usesFloats_eq_false {y : PyOperand F} (h : ¬ usesFloats name x y) :
    (name == "divide") = false ∧ x.isFloat64 = false ∧ y.isFloat64 = false := by
  unfold usesFloats at h
  rw [Bool.not_eq_true, Bool.or_eq_false_iff, Bool.or_eq_false_iff] at h
  exact ⟨h.1.1, h.1.2, h.2⟩

theorem binaryOp_ints (hx : x.Wf) (h : ¬ usesFloats name (.array a) x) {reflected : Bool} :
    binaryOp ofInt a x reflected name f =
      match (if reflected then evaluateInts name x (.array a) else evaluateInts name (.array a) x) with
      | some r => .ok (.native (.i64 r.dims r.data))
      | none => .ok (numpyBinary a x reflected name) := by
  obtain ⟨hname, ha, hfloat⟩ := usesFloats_eq_false h
  cases a with
  | f64 d u => cases ha
  | i64 d u => exact altBinary_ints hx hname hfloat
  | bool d u => exact altBinary_ints hx hname hfloat

/-- The forward method evaluates the array and the other operand. -/
theorem binaryOp_forward (ha : a.inner.Counted) (hx : x.Wf) :
    binaryOp ofInt a x false name f = evaluate ofInt name f (.array a) x := by
  by_cases h : usesFloats name (.array a) x
  · rw [binaryOp_floats ha hx h, evaluate, if_pos h, PyOperand.toFloat64]
    cases a.toArrayF64 ofInt with
    | error e => rfl
    | ok u => exact floatBinary_eq hx
  · rw [binaryOp_ints hx h, evaluate, if_neg h]
    rfl

/-- The reflected method evaluates the other operand and the array. -/
theorem binaryOp_reflected (ha : a.inner.Counted) (hx : x.Wf) :
    binaryOp ofInt a x true name f = evaluate ofInt name f x (.array a) := by
  by_cases h : usesFloats name (.array a) x
  · rw [binaryOp_floats ha hx h, evaluate, usesFloats_comm, if_pos h, ← toFloat64_comm (y := .array a) hx ha,
      PyOperand.toFloat64]
    cases a.toArrayF64 ofInt with
    | error e => rfl
    | ok u => exact floatBinary_eq hx
  · rw [binaryOp_ints hx h, evaluate, usesFloats_comm, if_neg h]
    rfl

end LightArray
