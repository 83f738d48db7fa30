import LightArray.OperatorOrder

namespace LightArray
open MachineWord RowMajor

variable {F : Type} (ofInt : ℤ → F)

/-- The operators that have methods. -/
inductive Operator
  | add | sub | mul | truediv | floordiv | mod | pow

namespace Operator

def ufunc : Operator → String
  | add => "add"
  | sub => "subtract"
  | mul => "multiply"
  | truediv => "divide"
  | floordiv => "floor_divide"
  | mod => "remainder"
  | pow => "power"

def arith (ops : FloatArith F) : Operator → F → F → F
  | add => ops.add
  | sub => ops.sub
  | mul => ops.mul
  | truediv => ops.div
  | floordiv => ops.floorDiv
  | mod => ops.mod
  | pow => ops.pow

/-- The forward method, `x1.__add__(x2)`. -/
def forward (ops : FloatArith F) (slf : AnyArray F) (other : PyOperand F) : Operator → Except Failure (BinaryResult F)
  | add => slf.add ofInt ops other
  | sub => slf.sub ofInt ops other
  | mul => slf.mul ofInt ops other
  | truediv => slf.truediv ofInt ops other
  | floordiv => slf.floordiv ofInt ops other
  | mod => slf.mod ofInt ops other
  | pow => slf.pow ofInt ops other none

/-- The reflected method, `x2.__radd__(x1)`. -/
def reflected (ops : FloatArith F) (slf : AnyArray F) (other : PyOperand F) : Operator → Except Failure (BinaryResult F)
  | add => slf.radd ofInt ops other
  | sub => slf.rsub ofInt ops other
  | mul => slf.rmul ofInt ops other
  | truediv => slf.rtruediv ofInt ops other
  | floordiv => slf.rfloordiv ofInt ops other
  | mod => slf.rmod ofInt ops other
  | pow => slf.rpow ofInt ops other none

theorem forward_eq (ops : FloatArith F) (slf : AnyArray F) (other : PyOperand F) (o : Operator) :
    o.forward ofInt ops slf other = binaryOp ofInt slf other false o.ufunc (o.arith ops) := by
  cases o <;> rfl

theorem reflected_eq (ops : FloatArith F) (slf : AnyArray F) (other : PyOperand F) (o : Operator) :
    o.reflected ofInt ops slf other = binaryOp ofInt slf other true o.ufunc (o.arith ops) := by
  cases o <;> rfl

end Operator

/-- Where an operator can be applied to an ordered pair: `binary_op` either way around, a method
of one of the operands, and a module-level function. -/
inductive Entry (F : Type)
  | binary (reflected : Bool)
  | method (o : Operator) (ops : FloatArith F) (reflected : Bool)
  | function (n : String) (ops : FloatArith F)

namespace Entry

variable (name : String) (f : F → F → F) (x1 x2 : PyOperand F)

/-- The array whose method is called. -/
def slf (reflected : Bool) : Option (AnyArray F) :=
  match (if reflected then x2 else x1) with
  | .array a => some a
  | _ => none

/-- The entry applies this operator, and there is an array to call it on. -/
def Applies : Entry F → Prop
  | binary reflected => (slf x1 x2 reflected).isSome
  | method o ops reflected => o.ufunc = name ∧ o.arith ops = f ∧ (slf x1 x2 reflected).isSome
  | function n ops => operatorUfunc n = name ∧ operatorArith ops n = some f

/-- What the entry makes of the pair `x1`, `x2`. -/
def outcome : Entry F → Except Failure (Option (BinaryResult F))
  | binary reflected =>
    match slf x1 x2 reflected with
    | none => .ok none
    | some a => do
      let r ← if reflected then binaryOp ofInt a x1 true name f else binaryOp ofInt a x2 false name f
      .ok (some r)
  | method o ops reflected =>
    match slf x1 x2 reflected with
    | none => .ok none
    | some a => do
      let r ← if reflected then o.reflected ofInt ops a x1 else o.forward ofInt ops a x2
      .ok (some r)
  | function n ops => operatorFunction ofInt ops n x1 x2

/-- The entry computes `z` natively. -/
def Native (e : Entry F) (z : AnyArray F) : Prop := e.outcome ofInt name f x1 x2 = .ok (some (.native z))

end Entry

/-- The operations the int64 operators compute modulo 2^64. -/
def exactOp : String → Option (ℤ → ℤ → ℤ)
  | "add" => some fun u v => u+v
  | "subtract" => some fun u v => u-v
  | "multiply" => some fun u v => u*v
  | _ => none

/-- The data holds `g` of the two elements shown at each index of the broadcast. -/
structure BroadcastOf {T : Type} (read : List ℕ → PyOperand F → Option T) (g : T → T → T) (x1 x2 : PyOperand F)
    (shape : List ℕ) (data : List T) : Prop where
  broadcast : broadcastShape x1.shape x2.shape = .ok shape
  elements : ∀ idx, InRange shape idx → ∃ u v, read idx x1 = some u ∧ read idx x2 = some v ∧
    data[flat shape idx]? = some (g u v)

/-- The native result of an ordered pair: `f` on float64 conversions, or int64 arithmetic. -/
def RightResult (name : String) (f : F → F → F) (x1 x2 : PyOperand F) : AnyArray F → Prop
  | .f64 dims data => usesFloats name x1 x2 ∧ BroadcastOf (PyOperand.floatAt ofInt) f x1 x2 dims.shape data
  | .i64 dims data => ¬ usesFloats name x1 x2 ∧ (x1.shape = x2.shape ∨ x1.isScalar ∨ x2.isScalar) ∧
    ∃ g, exactOp name = some g ∧ BroadcastOf PyOperand.intAt (fun u v => wrapIsize (g u v)) x1 x2 dims.shape data
  | .bool .. => False

/-- Every native result of an entry is the right one, and an entry that applies computes what
another one does. -/
structure OrderedOperator (name : String) (f : F → F → F) (x1 x2 : PyOperand F) : Prop where
  right : ∀ e : Entry F, e.Applies name f x1 x2 → ∀ z, e.Native ofInt name f x1 x2 z → RightResult ofInt name f x1 x2 z
  agree : ∀ e e' : Entry F, e.Applies name f x1 x2 → e'.Applies name f x1 x2 →
    ∀ z, e.Native ofInt name f x1 x2 z → e'.Native ofInt name f x1 x2 z

/-- Float64 operands whose broadcast has 2^64 elements or more, a size that wraps to one a buffer
can have. -/
def BroadcastOverflows (name : String) (x1 x2 : PyOperand F) : Prop :=
  usesFloats name x1 x2 ∧ DType.float64.itemsize*x1.shape.prod ≤ isizeMax ∧ DType.float64.itemsize*x2.shape.prod ≤ isizeMax ∧
    ∃ out, broadcastShape x1.shape x2.shape = .ok out ∧ wordModulus ≤ out.prod ∧
      DType.float64.itemsize*wrapProduct out ≤ isizeMax

variable {ofInt} {name : String} {f : F → F → F} {a : AnyArray F} {x1 x2 : PyOperand F} {z : AnyArray F}

theorem Entry.exists_slf {reflected : Bool} (h : (Entry.slf x1 x2 reflected).isSome) :
    ∃ a, (if reflected then x2 else x1) = .array a := by
  unfold Entry.slf at h
  cases hx : (if reflected then x2 else x1) with
  | array a => exact ⟨a, rfl⟩
  | float v => simp [hx] at h
  | int i => simp [hx] at h
  | bool b => simp [hx] at h
  | other numpy => simp [hx] at h

theorem evaluate_ne_notImplemented : evaluate ofInt name f x1 x2 ≠ .ok .notImplemented := by
  intro h
  unfold evaluate at h
  split_ifs at h
  · obtain ⟨u, -, hu⟩ := bind_eq_ok.mp h
    obtain ⟨v, -, hv⟩ := bind_eq_ok.mp hu
    obtain ⟨r, -, hr⟩ := bind_eq_ok.mp hv
    cases hr
  · cases hi : evaluateInts name x1 x2 with
    | some r =>
      rw [hi] at h
      cases h
    | none =>
      rw [hi] at h
      cases h

/-- The module-level function answers whatever a method answers. -/
theorem evaluate_handled : (do let r ← evaluate ofInt name f x1 x2; .ok r.handled) =
    (do let r ← evaluate ofInt name f x1 x2; .ok (some r)) := by
  have hne : evaluate ofInt name f x1 x2 ≠ .ok .notImplemented := evaluate_ne_notImplemented
  cases hr : evaluate ofInt name f x1 x2 with
  | error e => rfl
  | ok result =>
    cases result with
    | native z => rfl
    | numpy n y1 y2 => rfl
    | notImplemented => exact absurd hr hne

theorem operatorFunction_eq {ops : FloatArith F} {n : String} (h1 : x1.Wf) (h2 : x2.Wf)
    (harray : ∃ a, x1 = .array a ∨ x2 = .array a) (hname : operatorUfunc n = name) (hf : operatorArith ops n = some f) :
    operatorFunction ofInt ops n x1 x2 = (do let r ← evaluate ofInt name f x1 x2; .ok (some r)) := by
  rw [← evaluate_handled, operatorFunction, hf, hname]
  obtain ⟨b, rfl | rfl⟩ := harray
  · rw [← binaryOp_forward h1 h2]
  · cases x1 with
    | array a => rw [← binaryOp_forward h1 h2]
    | float v => rw [← binaryOp_reflected h2 h1]
    | int i => rw [← binaryOp_reflected h2 h1]
    | bool v => rw [← binaryOp_reflected h2 h1]
    | other numpy => exact h1.elim

theorem Entry.outcome_eq {e : Entry F} (h1 : x1.Wf) (h2 : x2.Wf) (harray : ∃ a, x1 = .array a ∨ x2 = .array a)
    (h : e.Applies name f x1 x2) :
    e.outcome ofInt name f x1 x2 = (do let r ← evaluate ofInt name f x1 x2; .ok (some r)) := by
  cases e with
  | binary reflected =>
    obtain ⟨a, ha⟩ := exists_slf h
    cases reflected with
    | false =>
      subst ha
      rw [← binaryOp_forward h1 h2]
      rfl
    | true =>
      subst ha
      rw [← binaryOp_reflected h2 h1]
      rfl
  | method o ops reflected =>
    obtain ⟨rfl, rfl, hslf⟩ := h
    obtain ⟨a, ha⟩ := exists_slf hslf
    cases reflected with
    | false =>
      subst ha
      rw [← binaryOp_forward h1 h2, ← Operator.forward_eq]
      rfl
    | true =>
      subst ha
      rw [← binaryOp_reflected h2 h1, ← Operator.reflected_eq]
      rfl
  | function n ops => exact operatorFunction_eq h1 h2 harray h.1 h.2

theorem native_iff {e : Entry F} (h1 : x1.Wf) (h2 : x2.Wf) (harray : ∃ a, x1 = .array a ∨ x2 = .array a)
    (h : e.Applies name f x1 x2) : e.Native ofInt name f x1 x2 z ↔ evaluate ofInt name f x1 x2 = .ok (.native z) := by
  rw [Entry.Native, Entry.outcome_eq h1 h2 harray h]
  cases evaluate ofInt name f x1 x2 with
  | error e =>
    refine iff_of_false (fun h => ?_) (fun h => ?_)
    · cases h
    · cases h
  | ok r =>
    refine ⟨fun h => ?_, fun h => ?_⟩
    · cases h
      rfl
    · cases h
      rfl

/-- The operand is an array of these elements. -/
structure ShowsArray {T : Type} (read : List ℕ → PyOperand F → Option T) (x : PyOperand F) (shape : List ℕ) (data : List T) : Prop where
  shape_eq : x.shape = shape
  count : data.length = shape.prod
  read_eq : ∀ idx, read idx x = data[flat shape (stretch shape idx)]?

/-- The operand is a scalar of this value. -/
structure ShowsScalar {T : Type} (read : List ℕ → PyOperand F → Option T) (x : PyOperand F) (t : T) : Prop where
  isScalar : x.isScalar
  shape_eq : x.shape = []
  read_eq : ∀ idx, read idx x = some t

section elements

variable {T : Type} {read : List ℕ → PyOperand F → Option T} {g : T → T → T} {s idx : List ℕ} {d d' : List T} {t : T}

theorem ShowsArray.element (h : ShowsArray read x1 s d) (hidx : InRange s idx) : ∃ u, read idx x1 = some u ∧ d[flat s idx]? = some u := by
  have hu : ∃ u, d[flat s idx]? = some u := ⟨_, List.getElem?_eq_getElem (h.count ▸ flat_lt hidx)⟩
  obtain ⟨u, hu⟩ := hu
  refine ⟨u, ?_, hu⟩
  rw [h.read_eq, stretch_self hidx, hu]

theorem broadcastOf_map_left (h : ShowsArray read x1 s d) (ht : ShowsScalar read x2 t) :
    BroadcastOf read g x1 x2 s (d.map fun u => g u t) := by
  refine ⟨?_, fun idx hidx => ?_⟩
  · rw [h.shape_eq, ht.shape_eq]
    exact (broadcastShape_nil s).2
  · obtain ⟨u, hu, hd⟩ := h.element hidx
    exact ⟨u, t, hu, ht.read_eq idx, by rw [List.getElem?_map, hd]; rfl⟩

theorem broadcastOf_map_right (ht : ShowsScalar read x1 t) (h : ShowsArray read x2 s d) :
    BroadcastOf read g x1 x2 s (d.map fun u => g t u) := by
  refine ⟨?_, fun idx hidx => ?_⟩
  · rw [h.shape_eq, ht.shape_eq]
    exact (broadcastShape_nil s).1
  · obtain ⟨u, hu, hd⟩ := h.element hidx
    exact ⟨t, u, ht.read_eq idx, hu, by rw [List.getElem?_map, hd]; rfl⟩

theorem broadcastOf_zipWith (h : ShowsArray read x1 s d) (h' : ShowsArray read x2 s d') :
    BroadcastOf read g x1 x2 s (List.zipWith g d d') := by
  refine ⟨?_, fun idx hidx => ?_⟩
  · rw [h.shape_eq, h'.shape_eq]
    exact broadcastShape_eq_ok.mpr (broadcastsTo_self s)
  · obtain ⟨u, hu, hd⟩ := h.element hidx
    obtain ⟨v, hv, hd'⟩ := h'.element hidx
    exact ⟨u, v, hu, hv, List.getElem?_zipWith_eq_some.mpr ⟨u, v, hd, hd', rfl⟩⟩

end elements

theorem length_floatData (ofInt : ℤ → F) (ha : a.inner.Counted) : (a.floatData ofInt).length = a.shape.prod := by
  cases a with
  | f64 d u => exact ha.count
  | i64 d u => exact (List.length_map _).trans ha.count
  | bool d u => exact (List.length_map _).trans ha.count

theorem toArrayF64_ok {u : NdArray .float64 F} (ha : a.inner.Counted) (h : a.toArrayF64 ofInt = .ok u) :
    u.Counted ∧ ShowsArray (PyOperand.floatAt ofInt) (.array a) u.shape u.data := by
  obtain ⟨⟨⟩, hcap, hu⟩ := bind_eq_ok.mp h
  cases hu
  have hlen := length_floatData ofInt ha
  exact ⟨⟨hlen, withCapacity_ok.mp hcap⟩, rfl, hlen, fun idx => rfl⟩

/-- The operand is the float64 array or the scalar. -/
def ShowsFloat64 (ofInt : ℤ → F) (x : PyOperand F) : NdArray .float64 F ⊕ F → Prop
  | .inl u => u.Counted ∧ ShowsArray (PyOperand.floatAt ofInt) x u.shape u.data
  | .inr s => ShowsScalar (PyOperand.floatAt ofInt) x s

theorem toFloat64_ok {x : PyOperand F} {u : NdArray .float64 F ⊕ F} (hx : x.Wf) (h : x.toFloat64 ofInt = .ok u) :
    ShowsFloat64 ofInt x u := by
  cases x with
  | array a =>
    obtain ⟨v, hv, hu⟩ := bind_eq_ok.mp h
    cases hu
    exact toArrayF64_ok hx hv
  | float s =>
    cases h
    exact ⟨rfl, rfl, fun idx => rfl⟩
  | int i =>
    cases h
    exact ⟨rfl, rfl, fun idx => rfl⟩
  | bool s =>
    cases h
    exact ⟨rfl, rfl, fun idx => rfl⟩
  | other numpy => cases h

theorem broadcastOf_combine {u v : NdArray .float64 F ⊕ F} {r : NdArray .float64 F} (hu : ShowsFloat64 ofInt x1 u)
    (hv : ShowsFloat64 ofInt x2 v) (hr : combineFloats f u v = .ok r)
    (hfit : ∀ out, broadcastShape x1.shape x2.shape = .ok out → DType.float64.itemsize*x1.shape.prod ≤ isizeMax →
      DType.float64.itemsize*x2.shape.prod ≤ isizeMax → DType.float64.itemsize*wrapProduct out ≤ isizeMax → out.prod < wordModulus) :
    BroadcastOf (PyOperand.floatAt ofInt) f x1 x2 r.shape r.data := by
  cases u with
  | inl u =>
    obtain ⟨hcount, hshow⟩ := hu
    cases v with
    | inl v =>
      obtain ⟨hcount', hshow'⟩ := hv
      have hzip : NdArray.Zipped f u v r := by
        apply NdArray.zipped_of_zipMap hcount hcount' hr
        intro out hout halloc
        rw [← hshow.shape_eq, ← hshow'.shape_eq] at hout
        apply hfit out hout _ _ halloc
        · rw [hshow.shape_eq]
          exact hcount.prod_fits
        · rw [hshow'.shape_eq]
          exact hcount'.prod_fits
      refine ⟨?_, fun idx hidx => ?_⟩
      · rw [hshow.shape_eq, hshow'.shape_eq]
        exact hzip.shape
      · obtain ⟨s, t, hs, ht, hst⟩ := hzip.elements idx hidx
        exact ⟨s, t, (hshow.read_eq idx).trans hs, (hshow'.read_eq idx).trans ht, hst⟩
    | inr t =>
      cases hr
      exact broadcastOf_map_left hshow hv
  | inr t =>
    cases v with
    | inl v =>
      cases hr
      exact broadcastOf_map_right hu hv.2
    | inr t' => cases hr

theorem intOp_exact {op : ℤ → ℤ → ℤ} (h : intOp name = some op) :
    ∃ g, exactOp name = some g ∧ op = fun u v => wrapIsize (g u v) := by
  unfold intOp at h
  split at h
  · cases h
    exact ⟨fun u v => u+v, rfl, rfl⟩
  · cases h
    exact ⟨fun u v => u-v, rfl, rfl⟩
  · cases h
    exact ⟨fun u v => u*v, rfl, rfl⟩
  · cases h

theorem shows_int {dims : Dims 8} {data : List ℤ} (h : (AnyArray.i64 dims data : AnyArray F).inner.Counted) :
    ShowsArray PyOperand.intAt (.array (.i64 dims data : AnyArray F)) dims.shape data := ⟨rfl, h.count, fun _ => rfl⟩

theorem constant_int (i : ℤ) : ShowsScalar PyOperand.intAt (.int i : PyOperand F) i := ⟨rfl, rfl, fun _ => rfl⟩

/-- int64 arithmetic of two arrays of one shape or of an array and an int. -/
theorem broadcastOf_ints {r : NdArray .int64 ℤ} (h1 : x1.Wf) (h2 : x2.Wf) (h : evaluateInts name x1 x2 = some r) :
    (x1.shape = x2.shape ∨ x1.isScalar ∨ x2.isScalar) ∧ ∃ g, exactOp name = some g ∧
      BroadcastOf PyOperand.intAt (fun u v => wrapIsize (g u v)) x1 x2 r.shape r.data := by
  unfold evaluateInts at h
  split at h
  case h_1 hop =>
    obtain ⟨g, hg, rfl⟩ := intOp_exact hop
    rename_i d u e v
    unfold NdArray.zipInt at h
    split_ifs at h with hd
    cases h
    obtain rfl : d = e := not_not.mp hd
    exact ⟨.inl rfl, g, hg, broadcastOf_zipWith (shows_int h1) (shows_int h2)⟩
  case h_2 hop =>
    obtain ⟨g, hg, rfl⟩ := intOp_exact hop
    cases h
    exact ⟨.inr (.inr rfl), g, hg, broadcastOf_map_left (shows_int h1) (constant_int _)⟩
  case h_3 hop =>
    obtain ⟨g, hg, rfl⟩ := intOp_exact hop
    cases h
    exact ⟨.inr (.inl rfl), g, hg, broadcastOf_map_right (constant_int _) (shows_int h2)⟩
  case h_4 => cases h

theorem rightResult_of_evaluate (h1 : x1.Wf) (h2 : x2.Wf) (hno : ¬ BroadcastOverflows name x1 x2)
    (h : evaluate ofInt name f x1 x2 = .ok (.native z)) : RightResult ofInt name f x1 x2 z := by
  unfold evaluate at h
  split_ifs at h with hfloats
  · obtain ⟨u, hu, hrest⟩ := bind_eq_ok.mp h
    obtain ⟨v, hv, hlast⟩ := bind_eq_ok.mp hrest
    obtain ⟨r, hr, hz⟩ := bind_eq_ok.mp hlast
    cases hz
    refine ⟨hfloats, broadcastOf_combine (toFloat64_ok h1 hu) (toFloat64_ok h2 hv) hr fun out hout hx1 hx2 halloc => ?_⟩
    by_contra hge
    exact hno ⟨hfloats, hx1, hx2, out, hout, not_lt.mp hge, halloc⟩
  · cases hi : evaluateInts name x1 x2 with
    | some r =>
      rw [hi] at h
      cases h
      exact ⟨hfloats, broadcastOf_ints h1 h2 hi⟩
    | none =>
      rw [hi] at h
      cases h

theorem exists_array {x : PyOperand F} (hx : x.Wf) (hs : x.shape ≠ []) : ∃ a : AnyArray F, x = .array a ∧ a.inner.Counted := by
  cases x with
  | array a => exact ⟨a, rfl, hx⟩
  | float v => exact absurd rfl hs
  | int i => exact absurd rfl hs
  | bool b => exact absurd rfl hs
  | other numpy => exact absurd rfl hs

theorem exists_toArrayF64 (ofInt : ℤ → F) (ha : a.inner.Counted) (hfits : DType.float64.itemsize*a.shape.prod ≤ isizeMax) :
    ∃ u, a.toArrayF64 ofInt = .ok u ∧ u.Counted ∧ u.shape = a.shape := by
  have hcap : withCapacity .float64 (a.floatData ofInt).length = .ok () := by
    rw [length_floatData ofInt ha]
    exact withCapacity_of_le hfits
  have hok : ∃ u, a.toArrayF64 ofInt = .ok u := by
    rw [AnyArray.toArrayF64, hcap]
    exact ⟨_, rfl⟩
  obtain ⟨u, hu⟩ := hok
  obtain ⟨hcount, hshow⟩ := toArrayF64_ok ha hu
  exact ⟨u, hu, hcount, hshow.shape_eq.symm⟩

/-- An overflowing broadcast gives an array with fewer elements than its shape counts. -/
theorem zipMap_of_overflow {u v : NdArray .float64 F} {out : List ℕ} (hu : u.Counted) (hv : v.Counted)
    (hout : broadcastShape u.shape v.shape = .ok out) (hwraps : wordModulus ≤ out.prod)
    (halloc : DType.float64.itemsize*wrapProduct out ≤ isizeMax) :
    ∃ z, NdArray.zipMap f u v = .ok z ∧ z.data.length < z.shape.prod := by
  have hdims : ¬ u.dims = v.dims := by
    intro hd
    rw [← NdArray.dims_eq_iff.mp hd, broadcastShape_eq_ok.mpr (broadcastsTo_self _)] at hout
    cases hout
    exact absurd hu.prod_lt (not_lt.mpr hwraps)
  obtain ⟨z, hz, rfl, hall⟩ := NdArray.zipMapBroadcast_runs (f := f) hu hv hout halloc
  refine ⟨z, by rw [NdArray.zipMap, if_neg hdims, hz], ?_⟩
  calc
    z.data.length = ((enum z.shape).take (wrapProduct z.shape)).length := hall.length_eq.symm
    _ ≤ wrapProduct z.shape := List.length_take_le _ _
    _ < wordModulus := wrapProduct_lt _
    _ ≤ z.shape.prod := hwraps

theorem evaluate_of_overflow (ofInt : ℤ → F) (f : F → F → F) (h1 : x1.Wf) (h2 : x2.Wf) (h : BroadcastOverflows name x1 x2) :
    ∃ a dims data, x1 = .array a ∧ evaluate ofInt name f x1 x2 = .ok (.native (.f64 dims data)) ∧
      data.length < dims.shape.prod := by
  obtain ⟨hfloats, hfits, hfits', out, hout, hwraps, halloc⟩ := h
  have hlarge {x : PyOperand F} (hx : DType.float64.itemsize*x.shape.prod ≤ isizeMax) : x.shape ≠ out := by
    rintro rfl
    exact absurd (lt_wordModulus_of_fits hx) (not_lt.mpr hwraps)
  have hne : x1.shape ≠ [] := by
    intro hs
    rw [hs, (broadcastShape_nil _).1] at hout
    exact hlarge hfits' (Except.ok.inj hout)
  have hne' : x2.shape ≠ [] := by
    intro hs
    rw [hs, (broadcastShape_nil _).2] at hout
    exact hlarge hfits (Except.ok.inj hout)
  obtain ⟨a, rfl, ha⟩ := exists_array h1 hne
  obtain ⟨b, rfl, hb⟩ := exists_array h2 hne'
  obtain ⟨u, hu, hcount, hshape⟩ := exists_toArrayF64 ofInt ha hfits
  obtain ⟨v, hv, hcount', hshape'⟩ := exists_toArrayF64 ofInt hb hfits'
  have hout' : broadcastShape u.shape v.shape = .ok out := by
    rw [hshape, hshape']
    exact hout
  obtain ⟨z, hz, hshort⟩ := zipMap_of_overflow (f := f) hcount hcount' hout' hwraps halloc
  refine ⟨a, z.dims, z.data, rfl, ?_, hshort⟩
  rw [evaluate, if_pos hfloats, PyOperand.toFloat64, hu, PyOperand.toFloat64, hv]
  show (NdArray.zipMap f u v >>= _) = _
  rw [hz]
  rfl

theorem not_rightResult_of_short {dims : Dims 8} {data : List F} (h : data.length < dims.shape.prod) :
    ¬ RightResult ofInt name f x1 x2 (.f64 dims data) := by
  rintro ⟨-, hall⟩
  obtain ⟨u, v, -, -, hlast⟩ := hall.elements _ (inRange_unflat h)
  rw [flat_unflat h, List.getElem?_eq_none le_rfl] at hlast
  cases hlast

theorem not_ordered_of_overflow (h1 : x1.Wf) (h2 : x2.Wf) (h : BroadcastOverflows name x1 x2) :
    ¬ OrderedOperator ofInt name f x1 x2 := by
  obtain ⟨a, dims, data, rfl, heval, hshort⟩ := evaluate_of_overflow ofInt f h1 h2 h
  intro hordered
  have happ : (Entry.binary false).Applies name f (.array a) x2 := rfl
  exact not_rightResult_of_short hshort
    (hordered.right _ happ _ ((native_iff h1 h2 ⟨a, .inl rfl⟩ happ).mpr heval))

/-- For every name and function and two operands of which one is an array: every native result is
the function of the left element and the right one in that order, and the entry points agree,
exactly when there is no broadcast of float64 operands whose size wraps to one a buffer can have. -/
theorem orderedOperator_iff (ofInt : ℤ → F) (name : String) (f : F → F → F) (x1 x2 : PyOperand F) (h1 : x1.Wf) (h2 : x2.Wf)
    (harray : ∃ a, x1 = .array a ∨ x2 = .array a) :
    OrderedOperator ofInt name f x1 x2 ↔ ¬ BroadcastOverflows name x1 x2 := by
  refine ⟨fun h hover => not_ordered_of_overflow h1 h2 hover h, fun hno => ⟨fun e he z hz => ?_, fun e e' he he' z hz => ?_⟩⟩
  · exact rightResult_of_evaluate h1 h2 hno ((native_iff h1 h2 harray he).mp hz)
  · exact (native_iff h1 h2 harray he').mpr ((native_iff h1 h2 harray he).mp hz)

def firstThree : AnyArray ℤ := .i64 ⟨[3], _, by decide, rfl⟩ [1,2,3]

/-- A difference with the int on the left. -/
theorem orderedOperator_iff_reflected : OrderedOperator (fun i => i) "subtract" (· - ·) (.int 5) (.array firstThree) :=
  (orderedOperator_iff (fun i => i) "subtract" (· - ·) (.int 5) (.array firstThree) ⟨by decide, by decide⟩
    ⟨by decide, by decide⟩ ⟨firstThree, .inr rfl⟩).mpr fun h => absurd h.1 (by decide)

/-- Two arrays of 2^32 elements whose broadcast has 2^64. -/
def hugeColumn : AnyArray ℤ := .f64 ⟨[2^32,1], _, by decide, rfl⟩ (List.replicate (2^32) 0)

def hugeRow : AnyArray ℤ := .f64 ⟨[1,2^32], _, by decide, rfl⟩ (List.replicate (2^32) 0)

/-- Their sum has a shape and no elements. -/
theorem sum_of_huge : PyOperand.Wf (.array hugeColumn) ∧ PyOperand.Wf (.array hugeRow) ∧
    ¬ OrderedOperator (fun i => i) "add" (· + ·) (.array hugeColumn) (.array hugeRow) := by
  have hover : BroadcastOverflows "add" (.array hugeColumn) (.array hugeRow) :=
    ⟨rfl, by decide, by decide, [2^32,2^32], by decide, by decide, by decide⟩
  have hcolumn : hugeColumn.inner.Counted := NdArray.counted_replicate rfl (by decide) (by decide)
  have hrow : hugeRow.inner.Counted := NdArray.counted_replicate rfl (by decide) (by decide)
  exact ⟨hcolumn, hrow, not_ordered_of_overflow hcolumn hrow hover⟩

end LightArray
