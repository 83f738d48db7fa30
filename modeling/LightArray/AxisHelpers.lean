import LightArray.LongAxes
import LightArray.ShapeHelpers
import LightArray.ZipMap

/-! `squeeze`, `expand_dims`, `flip` and `diff` of the package (`__init__.py`) with one
axis argument. Each brings a negative axis into range in its own way and then
indexes a Python list or tuple with it. -/
namespace LightArray
open MachineWord RowMajor

/-- `key[ax] = s` for every axis. -/
def setAxes (s : PySlice) : List ℤ → List PySlice → Except Failure (List PySlice)
  | [], key => .ok key
  | ax :: axes, key => do
    let k ← pyIndex "list assignment index out of range" key.length ax
    setAxes s axes (key.set k s)

/-- What the bytes at an address are, read as an element of a dtype. -/
def Memory (F : Type) : Type := (t : DType) → ℕ → Elem F t

/-- `n`, `axis` and whether `prepend` and `append` are given. -/
structure DiffArgs where
  n : ℤ
  axis : ℤ
  prepend : Bool
  append : Bool

/-- The difference of two elements: floats subtract, int64 wraps, bools differ. -/
def difference {F : Type} (sub : F → F → F) : (t : DType) → Elem F t → Elem F t → Elem F t
  | .float64 => sub
  | .int64 => fun (x y : ℤ) => wrapIsize (x-y)
  | .bool => xor

/-- NumPy's `subtract` of two arrays, by the fallback. -/
abbrev NumpySubtract (F : Type) : Type := AnyArray F → AnyArray F → Except Failure (AnyArray F)

/-- NumPy broadcasts two integer arrays, or raises. -/
structure NumpySubtract.Documented {F : Type} (np : NumpySubtract F) : Prop where
  broadcasts : ∀ (x y : NdArray .int64 (Elem F .int64)) (r : List ℕ), x.Counted → y.Counted →
    broadcastShape x.shape y.shape = .ok r → ¬ TooLong r → DType.int64.itemsize*r.prod ≤ isizeMax →
      ∃ z, np (.ofArray .int64 x) (.ofArray .int64 y) = .ok z ∧ z.shape = r
  refuses : ∀ x y : NdArray .int64 (Elem F .int64), (∀ r, broadcastShape x.shape y.shape ≠ .ok r) →
    ∃ e, np (.ofArray .int64 x) (.ofArray .int64 y) = .error e

/-- Integers are subtracted by the broadcasting loop of the floats. -/
def NumpySubtract.reference {F : Type} : NumpySubtract F
  | .i64 d u, .i64 e v => do
    let z ← NdArray.zipMap (fun x y => wrapIsize (x-y)) (⟨d,u⟩ : NdArray .float64 ℤ) ⟨e,v⟩
    .ok (.i64 z.dims z.data)
  | _, _ => .error (.python .typeError "")

theorem NumpySubtract.reference_documented {F : Type} : (reference : NumpySubtract F).Documented where
  broadcasts x y r hx hy hr _ hfit := by
    obtain ⟨z, hz, hshape, -⟩ := NdArray.zipMap_spec (f := fun x y => wrapIsize (x-y)) (x := ⟨x.dims,x.data⟩)
      (y := ⟨y.dims,y.data⟩) ⟨hx.1, hx.2⟩ ⟨hy.1, hy.2⟩ hr hfit
    refine ⟨.i64 z.dims z.data, ?_, hshape⟩
    show (NdArray.zipMap _ _ _ >>= _) = _
    rw [hz]
    rfl
  refuses x y hr := by
    cases he : broadcastShape x.shape y.shape with
    | ok r => exact absurd he (hr r)
    | error e =>
      refine ⟨e, ?_⟩
      show (NdArray.zipMap _ _ _ >>= _) = _
      rw [NdArray.zipMap_error he]
      rfl

/-- `x - y` of two arrays, with what NumPy does for it. -/
def AnyArray.subtract {F : Type} (ofInt : ℤ → F) (sub : F → F → F) (np : NumpySubtract F) (x y : AnyArray F) :
    Except Failure (AnyArray F) :=
  if x.dtype = .float64 ∨ y.dtype = .float64 then
    match x.toF64 ofInt, y.toF64 ofInt with
    | .f64 d u, .f64 e v => do
      let z ← NdArray.zipMap sub ⟨d,u⟩ ⟨e,v⟩
      .ok (.f64 z.dims z.data)
    | _, _ => np x y
  else
    match x, y with
    | .i64 d u, .i64 e v => if d = e then .ok (.i64 d (List.zipWith (difference sub .int64) u v)) else np x y
    | _, _ => np x y

namespace PyArray

variable {T F : Type}

/-- `flip(m, axis)`; none is left to NumPy. -/
def flip (mem : ℕ → T) (alloc : ℕ) (m : PyArray) (axis : AxisArg) : Except Failure (Option (Value T)) :=
  if m.dims.ndim = 0 then .ok none
  else
    match axis with
    | .none => do
      let v ← m.getSlices mem alloc (List.replicate m.dims.ndim .reversed)
      .ok (some v)
    | axis => do
      let axes ← axis.axes
      let key ← setAxes .reversed axes (List.replicate m.dims.ndim .all)
      let v ← m.getSlices mem alloc key
      .ok (some v)

/-- `arr()` with the dtype kept beside the elements. -/
def contentsAny (mem : Memory F) (cache : (a : PyArray) → a.Cache (Elem F a.dtype)) (a : PyArray) :
    Except Failure (AnyArray F) := do
  let x ← a.contents (mem a.dtype) (cache a)
  .ok (.ofArray a.dtype x)

/-- `diff(a, n, axis, prepend, append)`; none is left to NumPy. The two views get the
addresses `alloc` and `alloc'` for their caches. -/
def diff (ofInt : ℤ → F) (sub : F → F → F) (np : NumpySubtract F) (mem : Memory F) (cache : (a : PyArray) → a.Cache (Elem F a.dtype))
    (alloc alloc' : ℕ) (a : PyArray) (args : DiffArgs) : Except Failure (Option (AnyArray F)) :=
  if args.prepend ∨ args.append ∨ args.n ≠ 1 ∨ a.dims.ndim = 0 ∨ a.dtype = .bool then .ok none
  else do
    let ax := fromEnd a.dims.ndim args.axis
    let head ← setAxes .fromOne [ax] (List.replicate a.dims.ndim .all)
    let tail ← setAxes .beforeLast [ax] (List.replicate a.dims.ndim .all)
    let x ← a.getSlices (mem a.dtype) alloc head
    let y ← a.getSlices (mem a.dtype) alloc' tail
    match x, y with
    | .array b, .array c =>
      -- the right operand is classified first
      let y ← contentsAny mem cache c
      let x ← contentsAny mem cache b
      let z ← x.subtract ofInt sub np y
      .ok (some z)
    | _, _ => .ok none

end PyArray

section numpy

variable {T : Type}

/-- Shape and elements of an array in C order. -/
structure Listed (T : Type) where
  shape : List ℕ
  values : List T

/-- What the helpers use of NumPy for arrays of more than 8 dimensions. -/
structure NumpyShape (T : Type) where
  reshape : Listed T → List ℕ → Except Failure (Listed T)
  squeeze : Listed T → ℤ → Except Failure (Listed T)

/-- NumPy reshapes in C order, has no length that is not an `isize`, and squeezes out an
axis of length 1. -/
structure NumpyShape.Documented (np : NumpyShape T) : Prop where
  reshape : ∀ x shape, ¬ TooLong shape → shape.prod = x.values.length → np.reshape x shape = .ok ⟨shape, x.values⟩
  tooLong : ∀ x shape, TooLong shape → ∃ e, np.reshape x shape = .error e
  squeeze : ∀ x axis k, MeansAxis axis x.shape.length k → x.shape[k]? = some 1 →
    np.squeeze x axis = .ok ⟨x.shape.eraseIdx k, x.values⟩

/-- A lightarray array with the memory it is in, or a NumPy array. -/
inductive Made (T : Type)
  | native (b : PyArray) (mem : ℕ → T)
  | numpy (x : Listed T)

def PyArray.listed (a : PyArray) (mem : ℕ → T) : Listed T := ⟨a.shape, a.rowOrder.map mem⟩

def Made.listed : Made T → Listed T
  | .native b mem => b.listed mem
  | .numpy x => x

/-- `expand_dims`, with NumPy's `reshape` beyond 8 dimensions. -/
def PyArray.expandDimsAny (np : NumpyShape T) (alloc : ℕ) (mem : ℕ → T) (a : PyArray) (cache : a.Cache T)
    (axis : AxisArg) : Except Failure (Made T) := do
  match ← a.expandDims alloc mem cache axis with
  | some (b,mem') => .ok (.native b mem')
  | none =>
    let axes ← axis.axes
    let shape ← expandedShape a.shape axes
    let x ← np.reshape (a.listed mem) shape
    .ok (.numpy x)

/-- `squeeze(x, axis)`, by NumPy for a NumPy array. -/
def Made.squeeze (np : NumpyShape T) (alloc : ℕ) (cache : (a : PyArray) → a.Cache T) (axis : ℤ) :
    Made T → Except Failure (Made T)
  | .native b mem => do
    match ← b.squeeze alloc mem (cache b) (.int axis) with
    | some (c,mem') => .ok (.native c mem')
    | none =>
      let shape ← squeezedShape b.shape (.int axis)
      let x ← np.reshape (b.listed mem) shape
      .ok (.numpy x)
  | .numpy x => do
    let y ← np.squeeze x axis
    .ok (.numpy y)

end numpy

/-- No axis of an array of `ndim` dimensions. -/
def NoAxis (axis : ℤ) (ndim : ℕ) : Prop := axis < -ndim ∨ ndim ≤ axis

/-- Still negative after the number of dimensions was added once, and then taken for
an index from the end. -/
def WrapsTwice (axis : ℤ) (ndim : ℕ) : Prop := -(2*ndim) ≤ axis ∧ axis < -ndim

namespace PyArray

/-- `squeeze(a, axis)` raises or removes the one axis meant. -/
def SqueezeObeys (a : PyArray) (axis : ℤ) : Prop :=
  ∀ (T : Type) (mem : ℕ → T) (cache : a.Cache T) (alloc : ℕ), alloc < wordModulus →
    (NoAxis axis a.shape.length → ∃ e, a.squeeze alloc mem cache (.int axis) = .error e) ∧
      ∀ k, MeansAxis axis a.shape.length k →
        (a.shape[k]? ≠ some 1 → ∃ e, a.squeeze alloc mem cache (.int axis) = .error e) ∧
          (a.shape[k]? = some 1 → ∃ b mem', a.squeeze alloc mem cache (.int axis) = .ok (some (b,mem')) ∧
            b.listed mem' = ⟨a.shape.eraseIdx k, a.rowOrder.map mem⟩)

/-- `expand_dims(a, axis)` raises or inserts the one axis meant, which `squeeze` takes
out again. -/
def ExpandObeys (a : PyArray) (axis : ℤ) : Prop :=
  ∀ (T : Type) (np : NumpyShape T) (mem : ℕ → T) (cache : (b : PyArray) → b.Cache T) (alloc alloc' : ℕ),
    np.Documented → alloc < wordModulus → alloc' < wordModulus →
      (NoAxis axis (a.shape.length+1) → ∃ e, a.expandDimsAny np alloc mem (cache a) (.int axis) = .error e) ∧
        ∀ k, MeansAxis axis (a.shape.length+1) k →
          ∃ x y, a.expandDimsAny np alloc mem (cache a) (.int axis) = .ok x ∧
            x.listed = ⟨a.shape.insertIdx k 1, a.rowOrder.map mem⟩ ∧
              x.squeeze np alloc' cache axis = .ok y ∧ y.listed = a.listed mem

/-- `b` shows the elements of `a` with axis `k` reversed. -/
def Reverses (k : ℕ) (a b : PyArray) : Prop :=
  b.shape = a.shape ∧ ∀ i x j, InRange a.shape (i ++ x :: j) → i.length = k →
    b.elementAddress (i ++ x :: j) = a.elementAddress (i ++ (a.shape.getD k 0-1-x) :: j)

/-- `flip(a, axis)` raises or reverses the one axis meant, and twice it changes nothing. -/
def FlipObeys (a : PyArray) (axis : ℤ) : Prop :=
  ∀ (T : Type) (mem : ℕ → T) (alloc alloc' : ℕ), alloc < wordModulus → alloc' < wordModulus →
    (NoAxis axis a.shape.length → ∃ e, a.flip mem alloc (.int axis) = .error e) ∧
      ∀ k, MeansAxis axis a.shape.length k →
        ∃ b c, a.flip mem alloc (.int axis) = .ok (some (.array b)) ∧ Reverses k a b ∧
          b.flip mem alloc' (.int axis) = .ok (some (.array c)) ∧ c.shape = a.shape ∧ c.rowOrder = a.rowOrder

/-- `w` holds the differences of neighbours of `a` along axis `k`. -/
structure DiffAlong {F : Type} (sub : F → F → F) (mem : Memory F) (a : PyArray) (k : ℕ)
    (w : NdArray a.dtype (Elem F a.dtype)) : Prop where
  shape : w.shape = a.shape.set k (a.shape.getD k 0-1)
  counted : w.Counted
  elements : ∀ i x j, InRange w.shape (i ++ x :: j) → i.length = k → w.at? (i ++ x :: j) =
    some (difference sub a.dtype (mem a.dtype (a.elementAddress (i ++ (x+1) :: j)))
      (mem a.dtype (a.elementAddress (i ++ x :: j))))

/-- `diff(a, axis=axis)` raises or takes the differences along the one axis meant. -/
def DiffObeys (a : PyArray) (axis : ℤ) : Prop :=
  ∀ (F : Type) (ofInt : ℤ → F) (sub : F → F → F) (np : NumpySubtract F) (mem : Memory F)
    (cache : (b : PyArray) → b.Cache (Elem F b.dtype)) (alloc alloc' : ℕ),
    np.Documented → alloc < wordModulus → alloc' < wordModulus →
      (NoAxis axis a.shape.length → ∃ e, a.diff ofInt sub np mem cache alloc alloc' ⟨1, axis, false, false⟩ = .error e) ∧
        ∀ k, MeansAxis axis a.shape.length k → ∃ w,
          a.diff ofInt sub np mem cache alloc alloc' ⟨1, axis, false, false⟩ = .ok (some (.ofArray a.dtype w)) ∧
            DiffAlong sub mem a k w

end PyArray

section shapes

variable {shape out : List ℕ} {axis : ℤ} {n k : ℕ}

theorem meansAxis_unique {j : ℕ} (hj : MeansAxis axis n j) (hk : MeansAxis axis n k) : j = k := by
  unfold MeansAxis at hj hk
  omega

theorem noAxis_iff : NoAxis axis n ↔ ∀ k, ¬ MeansAxis axis n k := by
  unfold NoAxis MeansAxis
  constructor
  · intro h k
    omega
  · intro h
    by_contra hin
    apply h (fromEnd n axis).toNat
    unfold fromEnd
    split <;> omega

/-- An axis brought into range once and then used as an index. -/
theorem meansAxis_fromEnd :
    MeansAxis (fromEnd n axis) n k ↔ MeansAxis axis n k ∨ k < n ∧ (k : ℤ) = axis+2*n := by
  unfold MeansAxis fromEnd
  split <;> omega

theorem wrapsTwice_iff : WrapsTwice axis n ↔ ∃ k : ℕ, k < n ∧ (k : ℤ) = axis+2*n := by
  unfold WrapsTwice
  constructor
  · intro h
    exact ⟨(axis+2*n).toNat, by omega, by omega⟩
  · rintro ⟨k, hk, he⟩
    omega

theorem WrapsTwice.noAxis (h : WrapsTwice axis n) : NoAxis axis n := .inl h.2

theorem squeezedShape_int_ok : squeezedShape shape (.int axis) = .ok out ↔
    (∃ k, MeansAxis (fromEnd shape.length axis) shape.length k ∧ shape[k]? = some 1) ∧
      out = dropAxes [fromEnd shape.length axis] shape := by
  have hcheck : checkUnit shape [fromEnd shape.length axis] = .ok () ↔ _ := checkUnit_ok
  rw [List.forall_mem_singleton] at hcheck
  show (checkUnit shape [fromEnd shape.length axis] >>= fun _ => .ok _) = Except.ok out ↔ _
  rw [bind_eq_ok, ← hcheck]
  constructor
  · rintro ⟨⟨⟩, hu, he⟩
    exact ⟨hu, (Except.ok.inj he).symm⟩
  · rintro ⟨hu, rfl⟩
    exact ⟨(), hu, rfl⟩

/-- Positions that are no axis are kept. -/
theorem dropAxes_none {axes : List ℤ} {start : ℕ} (h : ∀ i : ℕ, start ≤ i → (i : ℤ) ∉ axes) :
    ((shape.zipIdx start).filter fun p => (p.2 : ℤ) ∉ axes).map Prod.fst = shape := by
  have hall : (shape.zipIdx start).filter (fun p => (p.2 : ℤ) ∉ axes) = shape.zipIdx start := by
    rw [List.filter_eq_self]
    intro p hp
    exact decide_eq_true (h p.2 (List.le_snd_of_mem_zipIdx hp))
  rw [hall, List.zipIdx_map_fst]

theorem dropAxes_singleton (k : ℕ) (shape : List ℕ) : dropAxes [(k : ℤ)] shape = shape.eraseIdx k := by
  have hgen (start k : ℕ) (shape : List ℕ) :
      ((shape.zipIdx start).filter fun p => (p.2 : ℤ) ∉ [((start+k : ℕ) : ℤ)]).map Prod.fst = shape.eraseIdx k := by
    induction shape generalizing start k with
    | nil => rfl
    | cons d shape ih =>
      rw [List.zipIdx_cons]
      cases k with
      | zero =>
        rw [List.filter_cons_of_neg (by simp)]
        apply dropAxes_none
        intro i hi
        rw [List.mem_singleton]
        omega
      | succ k =>
        have hrest := ih (start+1) k
        rw [show start+1+k = start+(k+1) by omega] at hrest
        have hne : ¬ (start : ℤ) ∈ [((start+(k+1) : ℕ) : ℤ)] := by
          rw [List.mem_singleton]
          omega
        rw [List.filter_cons_of_pos (by simpa using hne), List.map_cons, hrest]
        rfl
  have h := hgen 0 k shape
  rwa [Nat.zero_add] at h

/-- Without a new axis the lengths are taken as they are. -/
theorem spread_none {axes : List ℤ} {is : List ℕ} (h : ∀ i ∈ is, (i : ℤ) ∉ axes) (hlen : is.length = shape.length) :
    spread axes is shape = .ok shape := by
  induction is generalizing shape with
  | nil =>
    rw [List.length_eq_zero_iff.mp hlen.symm]
    rfl
  | cons i is ih =>
    obtain ⟨hi, his⟩ := List.forall_mem_cons.mp h
    cases shape with
    | nil => cases hlen
    | cons d shape =>
      simp only [spread, if_neg hi, ih his (Nat.succ.inj hlen)]
      rfl

theorem spread_singleton (start : ℕ) (h : k ≤ shape.length) :
    spread [((start+k : ℕ) : ℤ)] (List.range' start (shape.length+1)) shape = .ok (shape.insertIdx k 1) := by
  induction shape generalizing start k with
  | nil =>
    have hk : k = 0 := Nat.le_zero.mp h
    subst hk
    simp [spread, bind, Except.bind]
  | cons d shape ih =>
    cases k with
    | zero =>
      have hrest : spread [(start : ℤ)] (List.range' (start+1) (shape.length+1)) (d :: shape) = .ok (d :: shape) := by
        apply spread_none
        · intro i hi
          have hlt := (List.mem_range'_1.mp hi).1
          rw [List.mem_singleton]
          omega
        · simp
      rw [List.length_cons, List.range'_succ, Nat.add_zero]
      simp only [spread, List.mem_singleton, if_true, hrest]
      rfl
    | succ k =>
      have hrest := ih (start+1) (Nat.le_of_succ_le_succ h)
      rw [show start+1+k = start+(k+1) by omega] at hrest
      have hne : ¬ (start : ℤ) ∈ [((start+(k+1) : ℕ) : ℤ)] := by
        rw [List.mem_singleton]
        omega
      rw [List.length_cons, List.range'_succ]
      simp only [spread, if_neg hne, hrest]
      rfl

theorem expandedShape_int (h : MeansAxis axis (shape.length+1) k) :
    expandedShape shape [axis] = .ok (shape.insertIdx k 1) := by
  have hcheck : checkNewAxes (shape.length+1) [axis] = .ok () := by
    rw [checkNewAxes_ok, List.forall_mem_singleton]
    unfold MeansAxis at h
    omega
  have hspread := spread_singleton 0 (Nat.le_of_lt_succ h.1)
  rw [Nat.zero_add, ← List.range_eq_range'] at hspread
  unfold expandedShape
  simp only [List.length_singleton, List.map_singleton, List.mergeSort_singleton, h.fromEnd]
  rw [hcheck]
  show (if [(k : ℤ)].dedup.length ≠ [(k : ℤ)].length then .error (.python .valueError "repeated axis")
    else spread [(k : ℤ)] (List.range (shape.length+1)) shape) = .ok _
  rw [if_neg (by simp), hspread]

theorem expandedShape_error (h : NoAxis axis (shape.length+1)) : ∃ e, expandedShape shape [axis] = .error e := by
  have hcheck : ∃ e, checkNewAxes (shape.length+1) [axis] = .error e := by
    refine ⟨_, if_neg ?_⟩
    unfold NoAxis at h
    omega
  obtain ⟨e, he⟩ := hcheck
  refine ⟨e, ?_⟩
  unfold expandedShape
  simp only [List.length_singleton, he]
  rfl

end shapes

namespace PyArray

variable {T F : Type} {a b : PyArray} {mem mem' : ℕ → T} {alloc : ℕ} {axis : ℤ} {k : ℕ}

/-- Reshaping to a list of lengths as many elements as the array has. -/
theorem Sound.reshapeList_listed (h : a.Sound) (halloc : alloc < wordModulus) (mem : ℕ → T) (cache : a.Cache T)
    {shape : List ℕ} (hd : ∀ d ∈ shape, d ≤ isizeMax) (hlen : shape.length ≤ maxNdim) (hprod : shape.prod = a.shape.prod) :
    ∃ b mem', a.reshapeList alloc mem cache shape = .ok (some (b,mem')) ∧ b.Sound ∧
      b.listed mem' = ⟨shape, a.rowOrder.map mem⟩ := by
  have hcount : shape.prod = a.len := hprod.trans h.len.symm
  obtain ⟨b, mem', hcall, hr⟩ := h.reshapeList alloc mem cache hd hlen hcount
  obtain ⟨hb, hplain, hdata⟩ := h.reshaped hr
  have hu : ∀ d ∈ shape, d < wordModulus := by
    intro d hd'
    have hle := hd d hd'
    rw [isizeMax_eq] at hle
    rw [wordModulus_eq]
    omega
  have hcounted : b.len = b.shape.prod := by rw [hb.len_eq, hb.shape_eq, hcount]
  refine ⟨b, mem', hcall, h.reshaped_sound halloc hu hcount hr, ?_⟩
  rw [listed, ← data_plain hplain hcounted, hdata, hb.shape_eq]

/-- `squeeze` with an axis that is brought to one of length 1. -/
theorem Sound.squeeze_listed (h : a.Sound) (hdims : ∀ d ∈ a.shape, d ≤ isizeMax) (halloc : alloc < wordModulus)
    (mem : ℕ → T) (cache : a.Cache T) (hk : MeansAxis (fromEnd a.shape.length axis) a.shape.length k)
    (hone : a.shape[k]? = some 1) : ∃ b mem', a.squeeze alloc mem cache (.int axis) = .ok (some (b,mem')) ∧
      b.listed mem' = ⟨dropAxes [fromEnd a.shape.length axis] a.shape, a.rowOrder.map mem⟩ := by
  have hsub := dropAxes_sublist [fromEnd a.shape.length axis] a.shape
  have hprod : (dropAxes [fromEnd a.shape.length axis] a.shape).prod = a.shape.prod := by
    apply prod_dropAxes
    intro j hj
    have he : (j : ℤ) = fromEnd a.shape.length axis := List.mem_singleton.mp hj
    rw [← he] at hk
    have hjk : j = k := by
      unfold MeansAxis at hk
      omega
    rwa [hjk]
  obtain ⟨b, mem', hb, -, hlisted⟩ := h.reshapeList_listed halloc mem cache (fun d hd => hdims d (hsub.subset hd))
    (hsub.length_le.trans a.dims.ndim_le) hprod
  refine ⟨b, mem', ?_, hlisted⟩
  rw [squeeze, squeezedShape_int_ok.mpr ⟨⟨k, hk, hone⟩, rfl⟩]
  exact hb

/-- `squeeze` raises when the axis is brought to none of length 1. -/
theorem squeeze_error (mem : ℕ → T) (cache : a.Cache T) (alloc : ℕ)
    (h : ∀ k, MeansAxis (fromEnd a.shape.length axis) a.shape.length k → a.shape[k]? ≠ some 1) :
    ∃ e, a.squeeze alloc mem cache (.int axis) = .error e := by
  cases hs : squeezedShape a.shape (.int axis) with
  | error e => exact ⟨e, by rw [squeeze, hs]; rfl⟩
  | ok out =>
    obtain ⟨⟨k, hk, hone⟩, -⟩ := squeezedShape_int_ok.mp hs
    exact absurd hone (h k hk)

/-- The slips of the four helpers. -/
theorem Sound.squeezeObeys_iff (h : a.Sound) (hdims : ∀ d ∈ a.shape, d ≤ isizeMax) (axis : ℤ) :
    a.SqueezeObeys axis ↔ ¬ ∃ k : ℕ, (k : ℤ) = axis+2*a.shape.length ∧ a.shape[k]? = some 1 ∧ NoAxis axis a.shape.length := by
  constructor
  · rintro hobeys ⟨k, hk, hone, hout⟩
    have hlt : k < a.shape.length := (List.getElem?_eq_some_iff.mp hone).1
    obtain ⟨e, he⟩ := (hobeys ℕ id (constantCache 0 a) 0 (by decide)).1 hout
    obtain ⟨b, mem', hb, -⟩ := h.squeeze_listed hdims (show 0 < wordModulus by decide) id (constantCache 0 a)
      (meansAxis_fromEnd.mpr (.inr ⟨hlt, hk⟩)) hone
    cases he.symm.trans hb
  · intro hno T mem cache alloc halloc
    refine ⟨fun hout => ?_, fun k hk => ⟨fun hone => ?_, fun hone => ?_⟩⟩
    · apply squeeze_error
      intro k hk hone
      rcases meansAxis_fromEnd.mp hk with hmeans | ⟨-, he⟩
      · exact noAxis_iff.mp hout k hmeans
      · exact hno ⟨k, he, hone, hout⟩
    · apply squeeze_error
      intro j hj
      rcases meansAxis_fromEnd.mp hj with hmeans | ⟨hlt, he⟩
      · rwa [meansAxis_unique hmeans hk]
      · unfold MeansAxis at hk
        omega
    · obtain ⟨b, mem', hb, hlisted⟩ := h.squeeze_listed hdims halloc mem cache (meansAxis_fromEnd.mpr (.inl hk)) hone
      refine ⟨b, mem', hb, ?_⟩
      rw [hlisted, hk.fromEnd, dropAxes_singleton]

theorem prod_insertIdx_one {shape : List ℕ} (hk : k ≤ shape.length) : (shape.insertIdx k 1).prod = shape.prod := by
  rw [List.prod_insertIdx hk fun d _ => Commute.one_left d, one_mul]

theorem Sound.expandDims_error (mem : ℕ → T) (cache : a.Cache T) (alloc : ℕ) (h : NoAxis axis (a.shape.length+1)) :
    ∃ e, a.expandDims alloc mem cache (.int axis) = .error e := by
  obtain ⟨e, he⟩ := expandedShape_error h
  refine ⟨e, ?_⟩
  show (expandedShape a.shape [axis] >>= _) = _
  rw [he]
  rfl

theorem insertIdx_short {shape : List ℕ} (h : ∀ d ∈ shape, d ≤ isizeMax) (k : ℕ) : ∀ d ∈ shape.insertIdx k 1, d ≤ isizeMax := by
  intro d hd
  rcases List.eq_or_mem_of_mem_insertIdx hd with rfl | hd
  · decide
  · exact h d hd

section insert

variable (hk : MeansAxis axis (a.shape.length+1) k)
include hk

theorem length_insertIdx_axis : (a.shape.insertIdx k 1).length = a.shape.length+1 :=
  List.length_insertIdx_of_le_length (Nat.le_of_lt_succ hk.1) 1

theorem getElem?_insertIdx_axis : (a.shape.insertIdx k 1)[k]? = some 1 := by
  rw [List.getElem?_insertIdx_self, if_pos (Nat.le_of_lt_succ hk.1)]

theorem expandDims_int (mem : ℕ → T) (cache : a.Cache T) (alloc : ℕ) :
    a.expandDims alloc mem cache (.int axis) = a.reshapeList alloc mem cache (a.shape.insertIdx k 1) := by
  show (expandedShape a.shape [axis] >>= _) = _
  rw [expandedShape_int hk]
  rfl

/-- A native array with the axis inserted, and without it again. -/
theorem Sound.expand_native (h : a.Sound) (hdims : ∀ d ∈ a.shape, d ≤ isizeMax) (hmax : a.shape.length+1 ≤ maxNdim)
    (np : NumpyShape T) (mem : ℕ → T) (cache : (b : PyArray) → b.Cache T) {alloc' : ℕ} (halloc : alloc < wordModulus)
    (halloc' : alloc' < wordModulus) : ∃ x y, a.expandDimsAny np alloc mem (cache a) (.int axis) = .ok x ∧
      x.listed = ⟨a.shape.insertIdx k 1, a.rowOrder.map mem⟩ ∧
        x.squeeze np alloc' cache axis = .ok y ∧ y.listed = a.listed mem := by
  have hlen := length_insertIdx_axis hk
  have hd := insertIdx_short hdims k
  obtain ⟨b, mem', hb, hbsound, hlisted⟩ := h.reshapeList_listed halloc mem (cache a) hd (hlen.trans_le hmax)
    (prod_insertIdx_one (Nat.le_of_lt_succ hk.1))
  have hbshape : b.shape = a.shape.insertIdx k 1 := congrArg Listed.shape hlisted
  have hvalues : b.rowOrder.map mem' = a.rowOrder.map mem := congrArg Listed.values hlisted
  have hbk : MeansAxis axis b.shape.length k := by rwa [hbshape, hlen]
  obtain ⟨c, mem'', hc, hclisted⟩ := hbsound.squeeze_listed (hbshape ▸ hd) halloc' mem' (cache b)
    (meansAxis_fromEnd.mpr (.inl hbk)) (hbshape ▸ getElem?_insertIdx_axis hk)
  refine ⟨.native b mem', .native c mem'', ?_, hlisted, ?_, ?_⟩
  · rw [expandDimsAny, expandDims_int hk, hb]
    rfl
  · rw [Made.squeeze, hc]
    rfl
  · show c.listed mem'' = _
    rw [hclisted, hbk.fromEnd, dropAxes_singleton, hbshape, List.eraseIdx_insertIdx_self 1, hvalues]
    rfl

/-- More dimensions than lightarray has: NumPy's array, and NumPy takes the axis out again. -/
theorem expand_numpy (hdims : ∀ d ∈ a.shape, d ≤ isizeMax) (hmax : maxNdim < a.shape.length+1) {np : NumpyShape T} (hnp : np.Documented) (mem : ℕ → T)
    (cache : (b : PyArray) → b.Cache T) (alloc alloc' : ℕ) :
    ∃ x y, a.expandDimsAny np alloc mem (cache a) (.int axis) = .ok x ∧
      x.listed = ⟨a.shape.insertIdx k 1, a.rowOrder.map mem⟩ ∧
        x.squeeze np alloc' cache axis = .ok y ∧ y.listed = a.listed mem := by
  have hlen := length_insertIdx_axis hk
  have hshort : ¬ TooLong (a.shape.insertIdx k 1) := not_tooLong.mpr (insertIdx_short hdims k)
  have hnone : a.reshapeList alloc mem (cache a) (a.shape.insertIdx k 1) = .ok none := by
    rw [PyArray.reshapeList, PyArray.reshapeCall, if_pos]
    rw [argCount, List.length_map, hlen]
    exact hmax
  have hvalues : (a.shape.insertIdx k 1).prod = (a.listed mem).values.length := by
    rw [prod_insertIdx_one (Nat.le_of_lt_succ hk.1), listed, List.length_map, length_rowOrder]
  refine ⟨.numpy ⟨a.shape.insertIdx k 1, a.rowOrder.map mem⟩, .numpy (a.listed mem), ?_, rfl, ?_, rfl⟩
  · rw [expandDimsAny, expandDims_int hk, hnone]
    show (expandedShape a.shape [axis] >>= _) = _
    rw [expandedShape_int hk]
    show (np.reshape (a.listed mem) _ >>= _) = _
    rw [hnp.reshape _ _ hshort hvalues]
    rfl
  · have hsqueeze := hnp.squeeze ⟨a.shape.insertIdx k 1, a.rowOrder.map mem⟩ axis k (hlen ▸ hk) (getElem?_insertIdx_axis hk)
    rw [Made.squeeze, hsqueeze]
    show Except.ok (Made.numpy ⟨(a.shape.insertIdx k 1).eraseIdx k, _⟩) = _
    rw [List.eraseIdx_insertIdx_self 1]
    rfl

end insert

theorem Sound.expandObeys (h : a.Sound) (hdims : ∀ d ∈ a.shape, d ≤ isizeMax) (axis : ℤ) : a.ExpandObeys axis := by
  intro T np mem cache alloc alloc' hnp halloc halloc'
  refine ⟨fun hout => ?_, fun k hk => ?_⟩
  · obtain ⟨e, he⟩ := Sound.expandDims_error mem (cache a) alloc hout
    exact ⟨e, by rw [expandDimsAny, he]; rfl⟩
  · by_cases hmax : a.shape.length+1 ≤ maxNdim
    · exact h.expand_native hk hdims hmax np mem cache halloc halloc'
    · exact expand_numpy hk hdims (not_le.mp hmax) hnp mem cache alloc alloc'

theorem setAxes_ok (sl : PySlice) {n : ℕ} (h : MeansAxis axis n k) :
    setAxes sl [axis] (List.replicate n .all) = .ok (axisKey n k sl) := by
  rw [setAxes, List.length_replicate, pyIndex_ok.mpr h]
  rfl

theorem setAxes_error (sl : PySlice) {n : ℕ} (h : ∀ k, ¬ MeansAxis axis n k) :
    ∃ e, setAxes sl [axis] (List.replicate n .all) = .error e := by
  cases hk : pyIndex "list assignment index out of range" n axis with
  | error e =>
    refine ⟨e, ?_⟩
    rw [setAxes, List.length_replicate, hk]
    rfl
  | ok k => exact absurd (pyIndex_ok.mp hk) (h k)

theorem rangeLength_reversed (d : ℕ) : rangeLength ((d : ℤ)-1) (-1) (-1) = d := by
  rw [rangeLength, if_neg (by omega), if_pos (by omega), neg_neg, Int.ediv_one]
  omega

theorem ne_nil_of_axis {shape : List ℕ} (h : MeansAxis axis shape.length k) : shape ≠ [] := by
  rintro rfl
  exact absurd h.1 (Nat.not_lt_zero k)

theorem flip_int (hndim : a.shape ≠ []) (mem : ℕ → T) (alloc : ℕ) (axis : ℤ) :
    a.flip mem alloc (.int axis) = (setAxes .reversed [axis] (List.replicate a.shape.length .all) >>= fun key =>
      a.getSlices mem alloc key >>= fun v => .ok (some v)) := by
  have hne : a.dims.ndim ≠ 0 := fun hz => hndim (List.length_eq_zero_iff.mp hz)
  unfold flip
  rw [if_neg hne]
  rfl

theorem Sound.flip_reverses (h : a.Sound) (hdims : ∀ d ∈ a.shape, d ≤ isizeMax) (mem : ℕ → T) (halloc : alloc < wordModulus)
    (hk : MeansAxis axis a.shape.length k) :
    ∃ b, a.flip mem alloc (.int axis) = .ok (some (.array b)) ∧ b.Sound ∧ Reverses k a b := by
  obtain ⟨s, d, u, hshape, rfl⟩ := exists_axis hk.1
  have hd : d ≤ isizeMax := hdims d (by simp [hshape])
  have hres : ResolvedSlice d ((d : ℤ)-1) (-1) (-1) := .inr (by omega)
  obtain ⟨b, hb, hbsound, -, hbshape, haddr⟩ := h.getSlices_axis mem halloc hshape hdims (indices_reversed hd) hres
  rw [rangeLength_reversed, ← hshape] at hbshape
  refine ⟨b, ?_, hbsound, hbshape, fun i x j hin hi => ?_⟩
  · rw [flip_int (ne_nil_of_axis hk), setAxes_ok .reversed hk]
    show (a.getSlices mem alloc _ >>= fun v => .ok (some v)) = _
    rw [hb]
    rfl
  · have hpos : (((d : ℤ)-1)+(-1)*x).toNat = d-1-x := by omega
    rw [haddr i x j (hbshape ▸ hin) hi, hpos, hshape, getD_length]

/-- Reversing the same axis again restores every element. -/
theorem Reverses.twice {c : PyArray} (hk : k < a.shape.length) (hb : Reverses k a b) (hc : Reverses k b c) :
    c.shape = a.shape ∧ c.rowOrder = a.rowOrder := by
  obtain ⟨s, d, u, hshape, rfl⟩ := exists_axis hk
  have hs : c.shape = a.shape := hc.1.trans hb.1
  refine ⟨hs, ?_⟩
  rw [rowOrder, rowOrder, hs]
  apply List.map_congr_left
  intro idx hidx
  rw [mem_enum, hshape] at hidx
  obtain ⟨i, xj, rfl, hi, hxj⟩ := hidx.split
  obtain ⟨x, j, rfl, hx, hj⟩ := hxj.cases_cons
  have hlen := hi.length_eq
  have hmid : InRange (s ++ d :: u) (i ++ (d-1-x) :: j) := hi.append (inRange_cons.mpr ⟨by omega, hj⟩)
  have hback : d-1-(d-1-x) = x := by omega
  have hin : InRange b.shape (i ++ x :: j) := by
    rw [hb.1, hshape]
    exact hidx
  rw [hc.2 i x j hin hlen, hb.1, hshape, getD_length, hb.2 i _ j (hshape ▸ hmid) hlen, hshape, getD_length, hback]

theorem Sound.flipObeys (h : a.Sound) (hndim : a.shape ≠ []) (hdims : ∀ d ∈ a.shape, d ≤ isizeMax) (axis : ℤ) :
    a.FlipObeys axis := by
  intro T mem alloc alloc' halloc halloc'
  refine ⟨fun hout => ?_, fun k hk => ?_⟩
  · obtain ⟨e, he⟩ := setAxes_error .reversed (noAxis_iff.mp hout)
    refine ⟨e, ?_⟩
    rw [flip_int hndim, he]
    rfl
  · obtain ⟨b, hb, hbsound, hrev⟩ := h.flip_reverses hdims mem halloc hk
    have hbdims : ∀ d ∈ b.shape, d ≤ isizeMax := by rwa [hrev.1]
    obtain ⟨c, hc, -, hrev'⟩ := hbsound.flip_reverses hbdims mem halloc' (by rwa [hrev.1])
    exact ⟨b, c, hb, hrev, hc, hrev.twice hk.1 hrev'⟩

section difference

variable {ofInt : ℤ → F} {sub : F → F → F} {np : NumpySubtract F}

/-- Two arrays of one shape and one dtype are subtracted element by element. -/
theorem subtract_ofArray {t : DType} (ht : t ≠ .bool) {x y : NdArray t (Elem F t)} (hs : x.shape = y.shape) :
    AnyArray.subtract ofInt sub np (.ofArray t x) (.ofArray t y) =
      .ok (.ofArray t ⟨x.dims, List.zipWith (difference sub t) x.data y.data⟩) := by
  have hd : x.dims = y.dims := Dims.ext_shape hs
  cases t with
  | float64 =>
    show (NdArray.zipMap sub x y >>= fun z => .ok (AnyArray.f64 z.dims z.data)) = _
    have hzip : NdArray.zipMap sub x y = .ok ⟨x.dims, List.zipWith sub x.data y.data⟩ := if_pos hd
    rw [hzip]
    rfl
  | int64 => exact if_pos hd
  | bool => exact absurd rfl ht

theorem Sound.contentsAny (h : b.Sound) {t : DType} (ht : b.dtype = t) (mem : Memory F)
    (cache : (b : PyArray) → b.Cache (Elem F b.dtype)) : ∃ x : NdArray t (Elem F t),
      b.contentsAny mem cache = .ok (.ofArray t x) ∧ x.shape = b.shape ∧ x.data = b.rowOrder.map (mem t) := by
  subst ht
  refine ⟨⟨b.dims, b.rowOrder.map (mem b.dtype)⟩, ?_, rfl, rfl⟩
  rw [PyArray.contentsAny, h.contents (mem b.dtype) (cache b)]
  rfl

theorem diff_eq (hndim : a.shape ≠ []) (hbool : a.dtype ≠ .bool) (mem : Memory F)
    (cache : (b : PyArray) → b.Cache (Elem F b.dtype)) (alloc alloc' : ℕ) (axis : ℤ) :
    a.diff ofInt sub np mem cache alloc alloc' ⟨1, axis, false, false⟩ =
      (setAxes .fromOne [fromEnd a.shape.length axis] (List.replicate a.shape.length .all) >>= fun head =>
        setAxes .beforeLast [fromEnd a.shape.length axis] (List.replicate a.shape.length .all) >>= fun tail =>
          a.getSlices (mem a.dtype) alloc head >>= fun x => a.getSlices (mem a.dtype) alloc' tail >>= fun y =>
            match x, y with
            | .array b, .array c => contentsAny mem cache c >>= fun y => contentsAny mem cache b >>= fun x =>
              x.subtract ofInt sub np y >>= fun z => .ok (some z)
            | _, _ => .ok none) := by
  have hne : a.dims.ndim ≠ 0 := fun hz => hndim (List.length_eq_zero_iff.mp hz)
  rw [diff, if_neg (by simp [hne, hbool])]
  rfl

/-- The listed views of an array from its second and up to its last but one element
along an axis, subtracted. -/
theorem diffAlong_views {c : PyArray} {s u : List ℕ} {d : ℕ} (sub : F → F → F) (mem : Memory F) (hb : b.Sound) (hbt : b.dtype = a.dtype)
    (hshape : a.shape = s ++ d :: u) (hbshape : b.shape = s ++ (d-1) :: u) (hcshape : c.shape = s ++ (d-1) :: u)
    (hbaddr : ∀ i x j, InRange b.shape (i ++ x :: j) → i.length = s.length →
      b.elementAddress (i ++ x :: j) = a.elementAddress (i ++ (x+1) :: j))
    (hcaddr : ∀ i x j, InRange c.shape (i ++ x :: j) → i.length = s.length →
      c.elementAddress (i ++ x :: j) = a.elementAddress (i ++ x :: j))
    {x y : NdArray a.dtype (Elem F a.dtype)} (hxshape : x.shape = b.shape) (hxdata : x.data = b.rowOrder.map (mem a.dtype))
    (hydata : y.data = c.rowOrder.map (mem a.dtype)) :
    DiffAlong sub mem a s.length ⟨x.dims, List.zipWith (difference sub a.dtype) x.data y.data⟩ := by
  have hdata : List.zipWith (difference sub a.dtype) x.data y.data = (enum x.shape).map fun idx =>
      difference sub a.dtype (mem a.dtype (b.elementAddress idx)) (mem a.dtype (c.elementAddress idx)) := by
    rw [hxdata, hydata, rowOrder, rowOrder, hcshape, ← hbshape, ← hxshape, List.map_map, List.map_map,
      List.zipWith_map, List.zipWith_self]
    rfl
  have hcount : (List.zipWith (difference sub a.dtype) x.data y.data).length = x.shape.prod := by
    rw [hdata, List.length_map, length_enum]
  refine ⟨?_, ⟨hcount, ?_⟩, fun i p j hin hi => ?_⟩
  · show x.shape = _
    rw [hxshape, hbshape, hshape, getD_length, List.set_append_right _ _ le_rfl, Nat.sub_self]
    rfl
  · rw [hcount, hxshape, ← hbt]
    exact hb.fits
  · have hin' : InRange b.shape (i ++ p :: j) := hxshape ▸ hin
    rw [NdArray.at?_of_enum hdata hin, hbaddr i p j hin' hi, hcaddr i p j (hcshape ▸ hbshape ▸ hin') hi]

/-- The two views that `diff` takes, subtracted. -/
theorem diff_views {c : PyArray} (ofInt : ℤ → F) (sub : F → F → F) (np : NumpySubtract F) (hbool : a.dtype ≠ .bool) (mem : Memory F) (cache : (b : PyArray) → b.Cache (Elem F b.dtype))
    {alloc' : ℕ} (hk : MeansAxis (fromEnd a.shape.length axis) a.shape.length k)
    (hb : a.getSlices (mem a.dtype) alloc (axisKey a.shape.length k .fromOne) = .ok (.array b))
    (hc : a.getSlices (mem a.dtype) alloc' (axisKey a.shape.length k .beforeLast) = .ok (.array c))
    (hbsound : b.Sound) (hcsound : c.Sound) (hbt : b.dtype = a.dtype) (hct : c.dtype = a.dtype) :
    ∃ x y : NdArray a.dtype (Elem F a.dtype), (x.shape = b.shape ∧ x.data = b.rowOrder.map (mem a.dtype)) ∧
      (y.shape = c.shape ∧ y.data = c.rowOrder.map (mem a.dtype)) ∧
        a.diff ofInt sub np mem cache alloc alloc' ⟨1, axis, false, false⟩ =
          (AnyArray.subtract ofInt sub np (.ofArray a.dtype x) (.ofArray a.dtype y) >>= fun z => .ok (some z)) := by
  obtain ⟨x, hx, hxlisted⟩ := hbsound.contentsAny hbt mem cache
  obtain ⟨y, hy, hylisted⟩ := hcsound.contentsAny hct mem cache
  refine ⟨x, y, hxlisted, hylisted, ?_⟩
  rw [diff_eq (ne_nil_of_axis hk) hbool, setAxes_ok .fromOne hk, setAxes_ok .beforeLast hk]
  simp only [hb, hc, hx, hy, bind, Except.bind]

/-- An axis that is still outside is refused by the key list. -/
theorem diff_error (hndim : a.shape ≠ []) (hbool : a.dtype ≠ .bool) (mem : Memory F)
    (cache : (b : PyArray) → b.Cache (Elem F b.dtype)) (alloc alloc' : ℕ) (hout : NoAxis axis a.shape.length)
    (hno : ¬ WrapsTwice axis a.shape.length) :
    ∃ e, a.diff ofInt sub np mem cache alloc alloc' ⟨1, axis, false, false⟩ = .error e := by
  have hnone : ∀ k, ¬ MeansAxis (fromEnd a.shape.length axis) a.shape.length k := by
    intro k hk
    rcases meansAxis_fromEnd.mp hk with hmeans | hwrap
    · exact noAxis_iff.mp hout k hmeans
    · exact hno (wrapsTwice_iff.mpr ⟨k, hwrap⟩)
  obtain ⟨e, he⟩ := setAxes_error .fromOne hnone
  refine ⟨e, ?_⟩
  rw [diff_eq hndim hbool, he]
  rfl

/-- `diff` along the axis that the argument is brought to. -/
theorem Sound.diff_along (h : a.Sound) (ofInt : ℤ → F) (sub : F → F → F) (np : NumpySubtract F) (hdims : ∀ d ∈ a.shape, d ≤ isizeMax)
    (hbool : a.dtype ≠ .bool) (mem : Memory F) (cache : (b : PyArray) → b.Cache (Elem F b.dtype)) {alloc' : ℕ}
    (halloc : alloc < wordModulus) (halloc' : alloc' < wordModulus)
    (hk : MeansAxis (fromEnd a.shape.length axis) a.shape.length k) :
    ∃ w, a.diff ofInt sub np mem cache alloc alloc' ⟨1, axis, false, false⟩ = .ok (some (.ofArray a.dtype w)) ∧
      DiffAlong sub mem a k w := by
  have hmeans := hk
  obtain ⟨s, d, u, hshape, rfl⟩ := exists_axis hk.1
  have hd : d ≤ isizeMax := hdims d (by simp [hshape])
  have hfrom : PySlice.fromOne.indices d = (((min 1 d : ℕ) : ℤ), (d : ℤ), 1) := by
    rw [indices_fromOne hd]
    push_cast
    rfl
  obtain ⟨b, hb, hbsound, hbt, hbshape, hbaddr⟩ := h.getSlices_axis (mem a.dtype) halloc hshape hdims hfrom
    (resolved_up (min_le_right 1 d) le_rfl)
  obtain ⟨c, hc, hcsound, hct, hcshape, hcaddr⟩ := h.getSlices_axis (mem a.dtype) halloc' hshape hdims
    (indices_beforeLast hd) (resolved_up (Nat.zero_le d) (Nat.sub_le d 1))
  have hlen : rangeLength ((min 1 d : ℕ) : ℤ) d 1 = d-1 := by
    rw [rangeLength_up]
    omega
  have hlen' : rangeLength 0 ((d-1 : ℕ) : ℤ) 1 = d-1 := rangeLength_up 0 (d-1)
  rw [hlen] at hbshape
  rw [hlen'] at hcshape
  obtain ⟨x, y, ⟨hxshape, hxdata⟩, ⟨hyshape, hydata⟩, hdiff⟩ :=
    diff_views ofInt sub np hbool mem cache hmeans hb hc hbsound hcsound hbt hct
  have hxy : x.shape = y.shape := by rw [hxshape, hyshape, hbshape, hcshape]
  refine ⟨⟨x.dims, List.zipWith (difference sub a.dtype) x.data y.data⟩, ?_,
    diffAlong_views sub mem hbsound hbt hshape hbshape hcshape (fun i p j hin hi => ?_) (fun i p j hin hi => ?_)
      hxshape hxdata hydata⟩
  · rw [hdiff, subtract_ofArray hbool hxy]
    rfl
  · -- an index in range shows that there is an element to start from
    obtain ⟨i', pj, he, hi', hpj⟩ := (hbshape ▸ hin : InRange (s ++ (d-1) :: u) (i ++ p :: j)).split
    obtain ⟨rfl, rfl⟩ := List.append_inj he (hi.trans hi'.length_eq.symm)
    have hp : p < d-1 := (inRange_cons.mp hpj).1
    have hnext : (((min 1 d : ℕ) : ℤ)+1*(p : ℤ)).toNat = p+1 := by omega
    rw [hbaddr i p j hin hi, hnext]
  · have hthis : ((0 : ℤ)+1*(p : ℤ)).toNat = p := by omega
    rw [hcaddr i p j hin hi, hthis]

/-- Some element of each dtype. -/
def zeroElem : (t : DType) → Elem ℤ t
  | .float64 => (0 : ℤ)
  | .int64 => (0 : ℤ)
  | .bool => false

theorem Sound.diffObeys_iff (h : a.Sound) (hndim : a.shape ≠ []) (hdims : ∀ d ∈ a.shape, d ≤ isizeMax)
    (hbool : a.dtype ≠ .bool) (axis : ℤ) : a.DiffObeys axis ↔ ¬ WrapsTwice axis a.shape.length := by
  constructor
  · intro hobeys hwraps
    obtain ⟨k, hlt, hk⟩ := wrapsTwice_iff.mp hwraps
    have hpos : 0 < wordModulus := by decide
    have hcache (b : PyArray) : b.Cache (Elem ℤ b.dtype) := constantCache (zeroElem b.dtype) b
    obtain ⟨e, he⟩ := (hobeys ℤ id (· - ·) .reference (fun t _ => zeroElem t) hcache 0 0
      NumpySubtract.reference_documented hpos hpos).1 hwraps.noAxis
    obtain ⟨w, hw, -⟩ := h.diff_along id (· - ·) .reference hdims hbool (fun t _ => zeroElem t)
      hcache hpos hpos (meansAxis_fromEnd.mpr (.inr ⟨hlt, hk⟩))
    cases he.symm.trans hw
  · intro hno F ofInt sub np mem cache alloc alloc' _ halloc halloc'
    refine ⟨fun hout => diff_error hndim hbool mem cache alloc alloc' hout hno, fun k hk => ?_⟩
    exact h.diff_along ofInt sub np hdims hbool mem cache halloc halloc' (meansAxis_fromEnd.mpr (.inl hk))

end difference

end PyArray

end LightArray
