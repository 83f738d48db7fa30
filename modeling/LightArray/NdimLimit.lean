import LightArray.Concatenate
import LightArray.NestedAccept
import LightArray.Reshape
import LightArray.IndexMap

namespace LightArray
open MachineWord OrderedTree RowMajor

/-- A `dtype` argument, by what `is_float64_or_none` tells. -/
inductive DTypeArg
  | none
  | float64
  | other
  deriving DecidableEq

/-- The `shape` argument of the creation functions, and an argument of `reshape`. -/
inductive ShapeArg
  | int (n : ℤ)
  | seq (dims : List ℤ)
  deriving DecidableEq

/-- The keywords of `array` other than `dtype`. -/
structure ArrayKeywords where
  ndmin : Option ℕ
  others : Bool

def ArrayKeywords.isEmpty (kwargs : ArrayKeywords) : Bool := kwargs.ndmin.isNone && !kwargs.others

/-- A NumPy array: its shape and, for a native dtype, what `from_buffer_any` copies. -/
structure NumpyArray (F : Type) where
  shape : List ℕ
  content : Option (AnyArray F)

/-- `numpy.asarray` on nested sequences. -/
structure Numpy (F : Type) where
  asarray : DTypeArg → PySequence F → Except Failure (NumpyArray F)

/-- Nested sequences of numbers become arrays of the shape of the nesting, unless another dtype
(such as `object`) is asked for. -/
def Numpy.Nests {F : Type} (np : Numpy F) : Prop :=
  ∀ dtype obj r, dtype ≠ .other → np.asarray dtype obj = .ok r → (∀ x ∈ obj.leaves, x.Native) → Rose.ShapeOf [obj] r.shape

section creation

variable {F : Type} (ofInt : ℤ → F)

def AnyArray.toF64 : AnyArray F → AnyArray F
  | .f64 d data => .f64 d data
  | .i64 d data => .f64 ⟨d.shape, _, d.ndim_le, rfl⟩ (data.map ofInt)
  | .bool d data => .f64 ⟨d.shape, _, d.ndim_le, rfl⟩ (data.map fun b => ofInt b.toInt)

/-- `from_buffer_any`: an array of too many dimensions stays a NumPy array. -/
def fromBufferAny (r : NumpyArray F) : Option (AnyArray F) :=
  if maxNdim < r.shape.length then none else r.content

/-- `array(obj)` on a list or tuple. -/
def arrayOrNumpy (np : Numpy F) (obj : PySequence F) : Except Failure (Option (AnyArray F)) := do
  match ← nestedSequence ofInt obj with
  | some arr => .ok (some arr)
  | none =>
    let converted ← np.asarray .none obj
    .ok (fromBufferAny converted)

/-- `array(obj, dtype=float)` on a list or tuple: the result has to be native. -/
def arrayFromAny (np : Numpy F) (obj : PySequence F) : Except Failure (AnyArray F) := do
  match ← nestedSequence ofInt obj with
  | some any => .ok (any.toF64 ofInt)
  | none =>
    let converted ← np.asarray .float64 obj
    match fromBufferAny converted with
    | some any => .ok (any.toF64 ofInt)
    | none => .error (.python .typeError "could not convert input to a float64 array")

/-- `array`; `dunder` is what `called_from_dunder_array` says. -/
def array (np : Numpy F) (dunder : Bool) (obj : PySequence F) (dtype : DTypeArg) (kwargs : ArrayKeywords) :
    Except Failure (Option (AnyArray F)) :=
  if dunder then .ok none
  else if kwargs.isEmpty && dtype == .none then arrayOrNumpy ofInt np obj
  else if kwargs.isEmpty && dtype != .other then do
    let arr ← arrayFromAny ofInt np obj
    .ok (some arr)
  else .ok none

def extractUsize (n : ℤ) : Option ℕ := if 0 ≤ n ∧ n < wordModulus then some n.toNat else none

def extractShape : ShapeArg → Except Failure (List ℕ)
  | .int n =>
    match extractUsize n with
    | some d => .ok [d]
    | none => .error (.python .overflowError (if n < 0 then "can't convert negative int to unsigned" else "int too big to convert"))
  | .seq dims =>
    match dims.mapM extractUsize with
    | some shape => .ok shape
    | none => .error (.python .typeError "shape must be an int or a sequence of ints")

/-- An int is never asked for its length. -/
def tooManyDims : ShapeArg → Bool
  | .int _ => false
  | .seq dims => maxNdim < dims.length

/-- `Array::filled`. -/
def NdArray.filled (t : DType) {T : Type} (shape : List ℕ) (value : T) : Except Failure (NdArray t T) := do
  let d ← Dims.allocated shape t.itemsize
  .ok ⟨d, List.replicate d.size value⟩

/-- `filled`, behind `zeros`, `ones` and `empty`. -/
def filled (dunder : Bool) (shape : ShapeArg) (value : F) (dtype : DTypeArg) : Except Failure (Option (AnyArray F)) :=
  if tooManyDims shape || dunder || dtype == .other then .ok none
  else do
    let dims ← extractShape shape
    let a ← NdArray.filled .float64 dims value
    .ok (some (.f64 a.dims a.data))

/-- `extract::<f64>` of a Python int; those that round to 2^1024 or more are refused. -/
def extractFloat (i : ℤ) : Except Failure F :=
  if 2^1024-2^970 ≤ i ∨ i ≤ -(2^1024-2^970) then .error (.python .overflowError "int too large to convert to float")
  else .ok (ofInt i)

/-- `full`: other fill values and dtypes go to NumPy. -/
def full (dunder : Bool) (shape : ShapeArg) (fillValue : Scalar F) (dtype : DTypeArg) : Except Failure (Option (AnyArray F)) :=
  if tooManyDims shape || dunder then .ok none
  else do
    let dims ← extractShape shape
    match fillValue, dtype with
    | .bool b, .none =>
      let a ← NdArray.filled .bool dims b
      .ok (some (.bool a.dims a.data))
    | .int i, .none =>
      if i < -(2^63) ∨ 2^63 ≤ i then .ok none
      else
        let a ← NdArray.filled .int64 dims i
        .ok (some (.i64 a.dims a.data))
    | .int i, .float64 =>
      let v ← extractFloat ofInt i
      let a ← NdArray.filled .float64 dims v
      .ok (some (.f64 a.dims a.data))
    | .float v, .none | .float v, .float64 =>
      let a ← NdArray.filled .float64 dims v
      .ok (some (.f64 a.dims a.data))
    | _, _ => .ok none

end creation

section views

/-- The dimensions that the arguments of `reshape` ask for, each an `isize`. -/
def rawShape (args : List ShapeArg) : Except Failure (List ℤ) := do
  let raw ← match args with
    | [.seq dims] => .ok dims
    | args => args.mapM fun
      | .int n => .ok n
      | .seq _ => .error (.python .typeError "'tuple' object cannot be interpreted as an integer")
  if ∃ d ∈ raw, d < -(2^63) ∨ 2^63 ≤ d then .error (.python .overflowError "int too big to convert")
  else .ok raw

/-- How many dimensions the arguments ask for. -/
def argCount : List ShapeArg → ℕ
  | [.seq dims] => dims.length
  | args => args.length

/-- An entry of an index tuple, or `...`. -/
inductive KeyItem
  | item (i : Item)
  | ellipsis
  deriving DecidableEq

/-- An index: `None` alone or a tuple. -/
inductive Key
  | newaxis
  | tuple (items : List KeyItem)

/-- The entries before `...`, and whether there is one. -/
def splitKey : List KeyItem → List Item × Bool
  | [] => ([], false)
  | .ellipsis :: _ => ([], true)
  | .item i :: key => (i :: (splitKey key).1, (splitKey key).2)

namespace PyArray

/-- `a.reshape(...)`. -/
def reshapeMethod (alloc : ℕ) (a : PyArray) (args : List ShapeArg) (kwargs : Bool) : Except Failure (Option PyArray) :=
  if kwargs then .ok none
  else if maxNdim < argCount args then .ok none
  else do
    let raw ← rawShape args
    let z ← a.reshape alloc raw
    .ok (some z)

/-- `a[key]`; an index with `...` goes to NumPy. -/
def getKey {T : Type} (mem : ℕ → T) (alloc : ℕ) (a : PyArray) : Key → Except Failure (Option (Value T))
  | .newaxis => do
    let v ← a.selectResult alloc [] [0]
    .ok (some (.array v))
  | .tuple key =>
    match splitKey key with
    | (items, false) => do
      let v ← a.getItem mem alloc items
      .ok (some v)
    | (items, true) => do
      checkKey a.dims.ndim 0 items
      .ok none

end PyArray

/-- An entry of the list given to `stack`: a lightarray array, or something of a shape. -/
inductive StackItem (F : Type)
  | native (a : AnyArray F)
  | other (shape : List ℕ)

variable {F : Type}

def StackItem.shape : StackItem F → List ℕ
  | .native a => a.shape
  | .other shape => shape

def StackItem.native? : StackItem F → Option (AnyArray F)
  | .native a => some a
  | .other _ => none

/-- `stack(arrays, axis)`; natively for lightarray arrays without keywords. -/
def stack (items : List (StackItem F)) (axis : Option ℤ) (kwargs : Bool) : Except Failure (Option (AnyArray F)) :=
  let ax := axis.getD 0
  if kwargs then .ok none
  else if ax < -(2^63) ∨ 2^63 ≤ ax then .ok none
  else
    match items.mapM StackItem.native? with
    | none => .ok none
    | some parts => AnyArray.stack parts ax

end views

section limit

variable {F : Type}

/-- One call of an operation that makes an array. -/
inductive Call (F : Type)
  | array (items : List (PySequence F)) (dtype : DTypeArg) (kwargs : ArrayKeywords)
  | filled (shape : ShapeArg) (value : F) (dtype : DTypeArg)
  | full (shape : ShapeArg) (fillValue : Scalar F) (dtype : DTypeArg)
  | reshape (a : PyArray) (args : List ShapeArg) (kwargs : Bool)
  | stack (items : List (StackItem F)) (axis : Option ℤ) (kwargs : Bool)
  | getItem (a : PyArray) (key : Key)

/-- What surrounds a call: NumPy, the conversion `as f64`, the calling frame, the elements in
memory and the address of a new buffer. -/
structure Setting (F : Type) where
  np : Numpy F
  ofInt : ℤ → F
  dunder : Bool
  mem : ℕ → F
  alloc : ℕ

/-- The call is handed to NumPy, and what NumPy makes is returned. -/
def Call.HandsOver (s : Setting F) : Call F → Prop
  | .array items dtype kwargs => LightArray.array s.ofInt s.np s.dunder (.seq items) dtype kwargs = .ok none
  | .filled shape value dtype => LightArray.filled s.dunder shape value dtype = .ok none
  | .full shape fillValue dtype => LightArray.full s.ofInt s.dunder shape fillValue dtype = .ok none
  | .reshape a args kwargs => a.reshapeMethod s.alloc args kwargs = .ok none
  | .stack items axis kwargs => LightArray.stack items axis kwargs = .ok none
  | .getItem a key => a.getKey s.mem s.alloc key = .ok none

/-- The length of the axes that the entries of an index read. -/
def consumed : List KeyItem → ℕ
  | [] => 0
  | .item .newaxis :: key => consumed key
  | .ellipsis :: key => consumed key
  | .item _ :: key => consumed key+1

/-- The shape of a basic index by NumPy's rules; `...` stands for the axes that are left. -/
def keyShape : List KeyItem → List ℕ → Option (List ℕ)
  | [], shape => some shape
  | .item .newaxis :: key, shape => (keyShape key shape).map (1 :: ·)
  | .item (.int i) :: key, d :: ds => if -(d:ℤ) ≤ i ∧ i < d then keyShape key ds else none
  | .item (.slice start stop step) :: key, _ :: ds => (keyShape key ds).map (rangeLength start stop step :: ·)
  | .ellipsis :: key, shape =>
    let whole := shape.length-consumed key
    (keyShape key (shape.drop whole)).map (shape.take whole ++ ·)
  | _ :: _, [] => none

/-- The calls that are valid and the shape of the result that NumPy gives. -/
inductive Gives (np : Numpy F) : Call F → List ℕ → Prop
  | array {items dtype kwargs r} (h : np.asarray dtype (.seq items) = .ok r) :
    Gives np (.array items dtype kwargs) (List.replicate (kwargs.ndmin.getD 0-r.shape.length) 1 ++ r.shape)
  | filled {dims : List ℕ} {value dtype} : Gives np (.filled (.seq (dims.map Nat.cast)) value dtype) dims
  | filledInt {d : ℕ} {value dtype} : Gives np (.filled (.int d) value dtype) [d]
  | full {dims : List ℕ} {fillValue dtype} : Gives np (.full (.seq (dims.map Nat.cast)) fillValue dtype) dims
  | fullInt {d : ℕ} {fillValue dtype} : Gives np (.full (.int d) fillValue dtype) [d]
  | reshape {a : PyArray} {raw : List ℤ} {shape : List ℕ} {kwargs args} (hargs : args = [.seq raw] ∨ args = raw.map .int)
    (hfits : List.Forall₂ (fun (d : ℤ) (n : ℕ) => 0 ≤ d → d = n) raw shape) (hunknown : unknownCount raw ≤ 1)
    (hsize : shape.prod = a.len) : Gives np (.reshape a args kwargs) shape
  | stack {items : List (StackItem F)} {s : List ℕ} {axis kwargs k} (hne : items ≠ []) (hshapes : ∀ x ∈ items, x.shape = s)
    (haxis : MeansAxis (axis.getD 0) (s.length+1) k) : Gives np (.stack items axis kwargs) (s.insertIdx k items.length)
  | newaxis {a : PyArray} : Gives np (.getItem a .newaxis) (1 :: a.shape)
  | index {a : PyArray} {key shape} (hints : ∀ i, .item (.int i) ∈ key → -(2^63) ≤ i ∧ i < 2^63)
    (h : keyShape key a.shape = some shape) : Gives np (.getItem a (.tuple key)) shape

/-- Where the limit is decided before it is met: everywhere but in `array` with a float64 dtype,
`stack` of lightarray arrays and indices of integers, slices and `None`. -/
def Call.Delegates (dunder : Bool) : Call F → Prop
  | .array _ dtype kwargs => dunder = true ∨ kwargs.isEmpty = false ∨ dtype ≠ .float64
  | .filled .. | .full .. | .reshape .. => True
  | .stack items _ kwargs => kwargs = true ∨ ∃ x ∈ items, x.native? = none
  | .getItem _ key => ∃ items, key = .tuple items ∧ .ellipsis ∈ items

theorem nestedSequence_of_not_walkable {ofInt : ℤ → F} {items : List (PySequence F)} (h : ¬ Walkable (.seq items)) :
    nestedSequence ofInt (.seq items) = .ok none := by
  have hnone : walk ofInt (.seq items) = none := by
    by_contra hne
    exact h (walk_iff.mp (Option.ne_none_iff_exists'.mp hne))
  rw [nestedSequence, hnone]

/-- A nested sequence that NumPy reads with too many dimensions is not read natively. -/
theorem nestedSequence_of_limit (ofInt : ℤ → F) {np : Numpy F} (hnp : np.Nests) {items : List (PySequence F)} {dtype : DTypeArg}
    {r : NumpyArray F} (hdtype : dtype ≠ .other) (hr : np.asarray dtype (.seq items) = .ok r) (hlimit : maxNdim < r.shape.length) :
    nestedSequence ofInt (.seq items) = .ok none := by
  apply nestedSequence_of_not_walkable
  intro hwalk
  have hshape := hnp dtype _ r hdtype hr hwalk.native
  have hlevel := hwalk.levels _ ((hshape maxNdim r.shape[maxNdim]).mp (List.getElem?_eq_getElem hlimit))
  cases hlevel

theorem array_handsOver_iff {s : Setting F} (hnp : s.np.Nests) {items : List (PySequence F)} {dtype : DTypeArg}
    {kwargs : ArrayKeywords} {r : NumpyArray F} (hr : s.np.asarray dtype (.seq items) = .ok r)
    (hlimit : maxNdim < (List.replicate (kwargs.ndmin.getD 0-r.shape.length) 1 ++ r.shape).length) :
    (Call.array items dtype kwargs).HandsOver s ↔ (Call.array items dtype kwargs).Delegates s.dunder := by
  simp only [Call.HandsOver, Call.Delegates, array]
  cases hdunder : s.dunder with
  | true => simp
  | false =>
    cases hempty : kwargs.isEmpty with
    | false => simp
    | true =>
      have hndmin : kwargs.ndmin = none := by
        rw [ArrayKeywords.isEmpty, Bool.and_eq_true, Option.isNone_iff_eq_none] at hempty
        exact hempty.1
      have hdims : maxNdim < r.shape.length := by simpa [hndmin] using hlimit
      have hbuffer : fromBufferAny r = none := if_pos hdims
      cases dtype with
      | none =>
        have hnested := nestedSequence_of_limit s.ofInt hnp (by decide) hr hdims
        simp [arrayOrNumpy, hnested, hr, hbuffer, bind, Except.bind]
      | float64 =>
        have hnested := nestedSequence_of_limit s.ofInt hnp (by decide) hr hdims
        simp [arrayFromAny, hnested, hr, hbuffer, bind, Except.bind]
      | other => simp

theorem reshape_error_of_limit (a : AnyArray F) {shape : List ℕ} (hlimit : maxNdim < shape.length) :
    ∃ e, a.reshape shape = .error e := by
  cases hr : a.reshape shape with
  | error e => exact ⟨e, rfl⟩
  | ok z =>
    obtain ⟨b, hb, -⟩ := bind_eq_ok.mp hr
    have hle := b.ndim_le
    rw [(NdArray.new_ok hb).1] at hle
    exact absurd hlimit (not_lt.mpr hle)

/-- `stack` inserts the new axis without looking at the limit. -/
theorem stack_error_of_limit {parts : List (AnyArray F)} {s : List ℕ} {axis : ℤ} {k : ℕ} (hne : parts ≠ [])
    (hshapes : ∀ p ∈ parts, p.shape = s) (haxis : MeansAxis axis (s.length+1) k) (hlimit : maxNdim ≤ s.length) :
    ∃ e, AnyArray.stack parts axis = .error e := by
  obtain ⟨first, rest, rfl⟩ := List.exists_cons_of_ne_nil hne
  have hfirst : first.shape = s := hshapes first List.mem_cons_self
  have hndim : first.ndim = s.length := congrArg List.length hfirst
  obtain ⟨hk, haxis⟩ := haxis
  have hguard : (∀ p ∈ first :: rest, p.shape = first.shape) ∧ -((first.ndim : ℤ)+1) ≤ axis ∧ axis < (first.ndim : ℤ)+1 := by
    refine ⟨fun p hp => (hshapes p hp).trans hfirst.symm, ?_, ?_⟩ <;> omega
  rw [AnyArray.stack, if_pos hguard]
  generalize hax : (if axis < 0 then (axis+((first.ndim : ℤ)+1)).toNat else axis.toNat) = ax
  have hlen : maxNdim < (first.shape.insertIdx ax 1).length := by
    rw [List.length_insertIdx_of_le_length (by rw [hfirst]; split_ifs at hax <;> omega), hfirst]
    omega
  obtain ⟨e, he⟩ := reshape_error_of_limit first hlen
  refine ⟨e, ?_⟩
  show (AnyArray.expand (first.shape.insertIdx ax 1) (first :: rest) >>= _) = _
  rw [AnyArray.expand, he]
  rfl

/-- Either something among the items is no lightarray array, or they are all read. -/
theorem mapM_native_cases (items : List (StackItem F)) :
    (items.mapM StackItem.native? = none ∧ ∃ x ∈ items, x.native? = none) ∨
      ∃ parts : List (AnyArray F), items.mapM StackItem.native? = some parts ∧ items = parts.map .native := by
  induction items with
  | nil => exact .inr ⟨[], rfl, rfl⟩
  | cons x items ih =>
    cases x with
    | other shape => exact .inl ⟨by simp [List.mapM_cons, StackItem.native?], .other shape, List.mem_cons_self, rfl⟩
    | native a =>
      rcases ih with ⟨hnone, y, hy, hother⟩ | ⟨parts, hsome, rfl⟩
      · exact .inl ⟨by simp [List.mapM_cons, StackItem.native?, hnone], y, List.mem_cons_of_mem _ hy, hother⟩
      · exact .inr ⟨a :: parts, by simp [List.mapM_cons, StackItem.native?, hsome], rfl⟩

theorem stack_handsOver_iff {s : Setting F} {items : List (StackItem F)} {shape : List ℕ} {axis : Option ℤ} {kwargs : Bool} {k : ℕ}
    (hne : items ≠ []) (hshapes : ∀ x ∈ items, x.shape = shape) (haxis : MeansAxis (axis.getD 0) (shape.length+1) k)
    (hlimit : maxNdim < (shape.insertIdx k items.length).length) :
    (Call.stack items axis kwargs).HandsOver s ↔ (Call.stack items axis kwargs).Delegates s.dunder := by
  have hdims : maxNdim ≤ shape.length := by
    rw [List.length_insertIdx_of_le_length (Nat.le_of_lt_succ haxis.1)] at hlimit
    omega
  simp only [Call.HandsOver, Call.Delegates, stack]
  cases kwargs with
  | true => simp
  | false =>
    rcases mapM_native_cases items with ⟨hnone, x, hx, hother⟩ | ⟨parts, hsome, rfl⟩
    · have hnot : ∃ x ∈ items, x.native? = none := ⟨x, hx, hother⟩
      simp [hnone, hnot]
    · have hnative : ∀ p ∈ parts, p.shape = shape := fun p hp => hshapes _ (List.mem_map_of_mem hp)
      have hparts : parts ≠ [] := by simpa using hne
      obtain ⟨e, he⟩ := stack_error_of_limit hparts hnative haxis hdims
      have hsmall : shape.length ≤ maxNdim := by
        obtain ⟨p, hp⟩ := List.exists_mem_of_ne_nil _ hparts
        exact hnative p hp ▸ p.inner.ndim_le
      have hisize : ¬ (axis.getD 0 < -(2^63) ∨ 2^63 ≤ axis.getD 0) := by
        obtain ⟨hk, hax⟩ := haxis
        have hmax : maxNdim = 8 := rfl
        omega
      have hall : ¬ ∃ x ∈ parts.map StackItem.native, x.native? = none := by
        rintro ⟨x, hx, hother⟩
        obtain ⟨p, -, rfl⟩ := List.mem_map.mp hx
        cases hother
      rw [if_neg hisize, hsome]
      refine iff_of_false ?_ (not_or.mpr ⟨Bool.false_ne_true, hall⟩)
      simp [he]

theorem length_fits {raw : List ℤ} {shape : List ℕ} {args : List ShapeArg} (hargs : args = [.seq raw] ∨ args = raw.map .int)
    (hlen : raw.length = shape.length) (hlimit : maxNdim < shape.length) : maxNdim < argCount args := by
  rcases hargs with rfl | rfl
  · rw [argCount, hlen]
    exact hlimit
  · have hmany : argCount (raw.map .int) = raw.length := by
      match raw with
      | [] => rfl
      | [_] => rfl
      | _ :: _ :: _ => simp [argCount]
    rw [hmany, hlen]
    exact hlimit

/-- The entries before `...` of a valid index are read without an error. -/
theorem checkKey_before {ndim axis : ℕ} {key : List KeyItem} {shape out : List ℕ} (hints : ∀ i, .item (.int i) ∈ key → -(2^63) ≤ i ∧ i < 2^63)
    (h : keyShape key shape = some out) (hndim : ndim = axis+shape.length) : checkKey ndim axis (splitKey key).1 = .ok () := by
  induction key generalizing axis shape out with
  | nil => rfl
  | cons i key ih =>
    have hints' : ∀ i, .item (.int i) ∈ key → -(2^63) ≤ i ∧ i < 2^63 := fun i hi => hints i (List.mem_cons_of_mem _ hi)
    match i, shape with
    | .ellipsis, _ => rfl
    | .item .newaxis, shape =>
      rw [keyShape, Option.map_eq_some_iff] at h
      obtain ⟨out', hout, -⟩ := h
      exact ih hints' hout hndim
    | .item (.int i), d :: ds =>
      rw [keyShape] at h
      split at h
      · have hisize := hints i List.mem_cons_self
        rw [splitKey, checkKey, if_neg (by omega)]
        exact ih hints' h (by rw [hndim, List.length_cons]; omega)
      · cases h
    | .item (.slice ..), d :: ds =>
      rw [keyShape, Option.map_eq_some_iff] at h
      obtain ⟨out', hout, -⟩ := h
      rw [List.length_cons] at hndim
      rw [splitKey, checkKey, if_pos (by omega)]
      exact ih hints' hout (by omega)
    | .item (.int _), [] => cases h
    | .item (.slice ..), [] => cases h

theorem mem_ellipsis_iff {key : List KeyItem} : (splitKey key).2 = true ↔ .ellipsis ∈ key := by
  induction key with
  | nil => simp [splitKey]
  | cons i key ih => cases i <;> simp [splitKey, ih]

theorem index_handsOver_iff {s : Setting F} {a : PyArray} {key : List KeyItem} {shape : List ℕ}
    (hints : ∀ i, .item (.int i) ∈ key → -(2^63) ≤ i ∧ i < 2^63) (h : keyShape key a.shape = some shape) :
    (Call.getItem (F := F) a (.tuple key)).HandsOver s ↔ (Call.getItem (F := F) a (.tuple key)).Delegates s.dunder := by
  have hdelegates : (Call.getItem (F := F) a (.tuple key)).Delegates s.dunder ↔ (splitKey key).2 = true := by
    rw [mem_ellipsis_iff]
    exact ⟨fun ⟨items, he, hmem⟩ => Key.tuple.inj he ▸ hmem, fun hmem => ⟨key, rfl, hmem⟩⟩
  have hcheck : checkKey a.dims.ndim 0 (splitKey key).1 = .ok () := checkKey_before hints h (zero_add _).symm
  rw [hdelegates, Call.HandsOver, PyArray.getKey]
  split
  · rename_i items hsplit
    rw [hsplit]
    cases a.getItem s.mem s.alloc items <;> simp [bind, Except.bind]
  · rename_i items hsplit
    rw [hsplit] at hcheck ⊢
    rw [hcheck]
    exact iff_of_true rfl rfl

/-- Which valid calls with more than `MAX_NDIM` dimensions in the result are handed to NumPy. -/
theorem handsOver_iff (s : Setting F) (hnp : s.np.Nests) (c : Call F) (shape : List ℕ) (h : Gives s.np c shape)
    (hlimit : maxNdim < shape.length) : c.HandsOver s ↔ c.Delegates s.dunder := by
  cases h with
  | array h => exact array_handsOver_iff hnp h hlimit
  | filled =>
    refine iff_of_true ?_ trivial
    have hmany : tooManyDims (.seq (shape.map Nat.cast)) = true := by simpa [tooManyDims] using hlimit
    simp [Call.HandsOver, filled, hmany]
  | full =>
    refine iff_of_true ?_ trivial
    have hmany : tooManyDims (.seq (shape.map Nat.cast)) = true := by simpa [tooManyDims] using hlimit
    simp [Call.HandsOver, full, hmany]
  | filledInt => exact absurd hlimit (by simp [maxNdim])
  | fullInt => exact absurd hlimit (by simp [maxNdim])
  | @reshape a raw _ kwargs args hargs hfits _ _ =>
    refine iff_of_true ?_ trivial
    have hmany : maxNdim < argCount args := length_fits hargs hfits.length_eq hlimit
    simp [Call.HandsOver, PyArray.reshapeMethod, hmany]
  | stack hne hshapes haxis => exact stack_handsOver_iff hne hshapes haxis hlimit
  | newaxis =>
    refine iff_of_false ?_ ?_
    · rename_i a
      rw [Call.HandsOver, PyArray.getKey]
      cases a.selectResult s.alloc [] [0] <;> simp [bind, Except.bind]
    · rintro ⟨items, he, -⟩
      cases he
  | index hints h => exact index_handsOver_iff hints h

/-- The depth of a sequence of one item in one item in ..., within NumPy's 64 dimensions. -/
def chainDepth : ℕ → PySequence ℤ → Option ℕ
  | 0, _ => none
  | _+1, .leaf _ => some 0
  | n+1, .seq [x] => (chainDepth n x).map (·+1)
  | _, _ => none

theorem shapeOf_chain {n k : ℕ} {obj : PySequence ℤ} (h : chainDepth n obj = some k) : Rose.ShapeOf [obj] (List.replicate k 1) := by
  induction n generalizing k obj with
  | zero => cases h
  | succ n ih =>
    match obj with
    | .leaf x =>
      cases h
      rintro (_ | k) m
      · simp [Rose.level, Rose.node]
      · have hnil : ∀ j, Rose.level j ([] : List (PySequence ℤ)) = [] := fun j => by
          induction j with
          | zero => rfl
          | succ j ihj => exact ihj
        simp [Rose.level, Rose.children, hnil]
    | .seq [x] =>
      rw [chainDepth, Option.map_eq_some_iff] at h
      obtain ⟨j, hj, rfl⟩ := h
      rintro (_ | i) m
      · simp [Rose.level, Rose.node, List.replicate_succ, eq_comm]
      · have hrest := ih hj i m
        simpa [Rose.level, Rose.children, List.replicate_succ] using hrest
    | .seq [] => cases h
    | .seq (_ :: _ :: _) => cases h

/-- NumPy on sequences of one item each. -/
def chainSetting : Setting ℤ where
  np := ⟨fun _ obj =>
    match chainDepth 65 obj with
    | some k => .ok ⟨List.replicate k 1, none⟩
    | none => .error (.python .valueError "setting an array element with a sequence")⟩
  ofInt i := i
  dunder := false
  mem _ := 0
  alloc := 0

theorem chainSetting_nests : chainSetting.np.Nests := by
  intro dtype obj r _ hr _
  simp only [chainSetting] at hr
  split at hr
  · rename_i k hk
    cases hr
    exact shapeOf_chain hk
  · cases hr

/-- One element in eight dimensions. -/
def cell : AnyArray ℤ := .f64 ⟨[1,1,1,1,1,1,1,1], _, by decide, rfl⟩ [5]

/-- Two of them are not stacked, and NumPy is not asked to. -/
theorem stack_of_cells : Gives chainSetting.np (.stack [.native cell, .native cell] none false) [2,1,1,1,1,1,1,1,1] ∧
    ¬ (Call.stack [.native cell, .native cell] none false).HandsOver chainSetting := by
  have hcells : ∀ p ∈ [cell, cell], p.shape = [1,1,1,1,1,1,1,1] := by decide
  have haxis : MeansAxis 0 9 0 := ⟨by decide, .inl rfl⟩
  constructor
  · exact Gives.stack (k := 0) (List.cons_ne_nil _ _) (by decide) haxis
  · intro h
    obtain ⟨e, he⟩ := stack_error_of_limit (List.cons_ne_nil _ _) hcells haxis le_rfl
    cases he.symm.trans h

/-- Nine lists inside each other. -/
def nineDeep : List (PySequence ℤ) := [.seq [.seq [.seq [.seq [.seq [.seq [.seq [.seq [.leaf (.int 5)]]]]]]]]]

theorem array_of_nineDeep : (Call.array nineDeep .none ⟨none, false⟩).HandsOver chainSetting := by
  have hgives : Gives chainSetting.np (.array nineDeep .none ⟨none, false⟩) [1,1,1,1,1,1,1,1,1] :=
    Gives.array (r := ⟨[1,1,1,1,1,1,1,1,1], none⟩) rfl
  exact (handsOver_iff chainSetting chainSetting_nests _ _ hgives (by decide)).mpr (.inr (.inr (by decide)))

end limit

end LightArray
