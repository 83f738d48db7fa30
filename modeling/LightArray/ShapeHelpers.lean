import LightArray.NdimLimit
import LightArray.Ravel

/-! The shape helpers of the package (`__init__.py`): `squeeze`, `expand_dims` and
`atleast_2d`. All are built on `reshape` and share memory where it does. -/
namespace LightArray
open MachineWord RowMajor

/-- An `axis` argument. -/
inductive AxisArg
  | none
  | int (axis : ℤ)
  | tuple (axes : List ℤ)
  deriving DecidableEq

/-- `(axis,) if isinstance(axis, int) else tuple(axis)`. -/
def AxisArg.axes : AxisArg → Except Failure (List ℤ)
  | .none => .error (.python .typeError "'NoneType' object is not iterable")
  | .int axis => .ok [axis]
  | .tuple axes => .ok axes

/-- `ax + n if ax < 0 else ax`. -/
def fromEnd (n : ℕ) (ax : ℤ) : ℤ := if ax < 0 then ax+n else ax

/-- The item that index `i` of a Python sequence of `n` items means. -/
def pyIndex (text : String) (n : ℕ) (i : ℤ) : Except Failure ℕ :=
  let k := fromEnd n i
  if 0 ≤ k ∧ k < n then .ok k.toNat else .error (.python .indexError text)

/-- `any(a.shape[ax] != 1 for ax in axes)` raises. -/
def checkUnit (shape : List ℕ) : List ℤ → Except Failure Unit
  | [] => .ok ()
  | ax :: axes => do
    let k ← pyIndex "tuple index out of range" shape.length ax
    if shape.getD k 1 ≠ 1 then
      .error (.python .valueError "cannot select an axis to squeeze out which has size not equal to one")
    else checkUnit shape axes

/-- The axes that are left: `[d for i, d in enumerate(a.shape) if i not in axes]`. -/
def dropAxes (axes : List ℤ) (shape : List ℕ) : List ℕ :=
  (shape.zipIdx.filter fun p => (p.2 : ℤ) ∉ axes).map Prod.fst

/-- The check of every axis of `expand_dims`. -/
def checkNewAxes (outNdim : ℕ) : List ℤ → Except Failure Unit
  | [] => .ok ()
  | ax :: axes =>
    if -(outNdim : ℤ) ≤ ax ∧ ax < outNdim then checkNewAxes outNdim axes
    else .error (.python .axisError s!"axis {ax} is out of bounds for array of dimension {outNdim}")

/-- The loop of `expand_dims`: a 1 for a new axis, the next length of the shape otherwise. -/
def spread (axes : List ℤ) : List ℕ → List ℕ → Except Failure (List ℕ)
  | [], _ => .ok []
  | i :: is, shape =>
    if (i : ℤ) ∈ axes then do
      let rest ← spread axes is shape
      .ok (1 :: rest)
    else
      match shape with
      | [] => .error (.python .stopIteration "")
      | d :: shape => do
        let rest ← spread axes is shape
        .ok (d :: rest)

/-- The shape `expand_dims` asks for. -/
def expandedShape (shape : List ℕ) (axes : List ℤ) : Except Failure (List ℕ) := do
  let outNdim := shape.length+axes.length
  checkNewAxes outNdim axes
  let axes := (axes.map (fromEnd outNdim)).mergeSort
  if axes.dedup.length ≠ axes.length then .error (.python .valueError "repeated axis")
  else spread axes (List.range outNdim) shape

/-- The shape `squeeze` asks for. -/
def squeezedShape (shape : List ℕ) : AxisArg → Except Failure (List ℕ)
  | .none => .ok (shape.filter (· ≠ 1))
  | axis => do
    let axes ← axis.axes
    let axes := axes.map (fromEnd shape.length)
    checkUnit shape axes
    .ok (dropAxes axes shape)

namespace PyArray

variable {T : Type}

/-- `a.reshape(...)` with the memory after the call; none is a NumPy array. -/
def reshapeCall (alloc : ℕ) (mem : ℕ → T) (a : PyArray) (cache : a.Cache T) (args : List ShapeArg) :
    Except Failure (Option (PyArray × (ℕ → T))) :=
  if maxNdim < argCount args then .ok none
  else do
    let raw ← rawShape args
    let shape ← extractShapeArgs a.len raw
    let r ← a.reshaped alloc mem cache shape
    .ok (some r)

/-- `a.reshape(shape)` for a list of lengths. -/
def reshapeList (alloc : ℕ) (mem : ℕ → T) (a : PyArray) (cache : a.Cache T) (shape : List ℕ) :
    Except Failure (Option (PyArray × (ℕ → T))) :=
  a.reshapeCall alloc mem cache [.seq (shape.map Nat.cast)]

def squeeze (alloc : ℕ) (mem : ℕ → T) (a : PyArray) (cache : a.Cache T) (axis : AxisArg) :
    Except Failure (Option (PyArray × (ℕ → T))) := do
  let shape ← squeezedShape a.shape axis
  a.reshapeList alloc mem cache shape

def expandDims (alloc : ℕ) (mem : ℕ → T) (a : PyArray) (cache : a.Cache T) (axis : AxisArg) :
    Except Failure (Option (PyArray × (ℕ → T))) := do
  let axes ← axis.axes
  let shape ← expandedShape a.shape axes
  a.reshapeList alloc mem cache shape

/-- The array `atleast_2d` appends for `a`. -/
def atleast2d (alloc : ℕ) (mem : ℕ → T) (a : PyArray) (cache : a.Cache T) :
    Except Failure (Option (PyArray × (ℕ → T))) :=
  if a.dims.ndim = 0 then a.reshapeCall alloc mem cache [.int 1, .int 1]
  else if a.dims.ndim = 1 then a.reshapeCall alloc mem cache [.int 1, .int (-1)]
  else .ok (some (a,mem))

/-- The two arrays have the same elements at the same addresses in C order, in
the buffer of one owner, so they show the same values in every memory. -/
structure SharesMemory (a b : PyArray) : Prop where
  rowOrder : b.rowOrder = a.rowOrder
  owner : b.baseOf = a.baseOf
  reads : ∀ (T : Type) (mem : ℕ → T) (cacheA : a.Cache T) (cacheB : b.Cache T), ∃ values,
    a.contents mem cacheA = .ok ⟨a.dims, values⟩ ∧ b.contents mem cacheB = .ok ⟨b.dims, values⟩

/-- A buffer at `alloc` for as many elements is apart from those of the array. -/
def Fresh (a : PyArray) (alloc : ℕ) : Prop :=
  alloc < wordModulus ∧ ∀ k < a.len, wrapUsize (alloc+k*a.itemsize) ∉ a.rowOrder

end PyArray

/-- A call of a shape helper. -/
inductive HelperCall
  | squeeze (axis : AxisArg)
  | expandDims (axis : AxisArg)
  | atleast2d

namespace HelperCall

def run {T : Type} (c : HelperCall) (alloc : ℕ) (mem : ℕ → T) (a : PyArray) (cache : a.Cache T) :
    Except Failure (Option (PyArray × (ℕ → T))) :=
  match c with
  | .squeeze axis => a.squeeze alloc mem cache axis
  | .expandDims axis => a.expandDims alloc mem cache axis
  | .atleast2d => a.atleast2d alloc mem cache

/-- The axes exist; those squeezed out have length 1, and new ones are distinct
and no more than 8 dimensions result. -/
def Valid (shape : List ℕ) : HelperCall → Prop
  | .squeeze .none => True
  | .squeeze axis => ∃ axes, axis.axes = .ok axes ∧
    ∀ ax ∈ axes, ∃ k, MeansAxis ax shape.length k ∧ shape[k]? = some 1
  | .expandDims axis => ∃ axes, axis.axes = .ok axes ∧ shape.length+axes.length ≤ maxNdim ∧
    (∀ ax ∈ axes, -((shape.length+axes.length : ℕ) : ℤ) ≤ ax ∧ ax < (shape.length+axes.length : ℕ)) ∧
      (axes.map (fromEnd (shape.length+axes.length))).Nodup
  | .atleast2d => True

end HelperCall

section shapes

variable {shape out : List ℕ} {axes : List ℤ} {n : ℕ}

theorem pyIndex_ok {text : String} {i : ℤ} {k : ℕ} : pyIndex text n i = .ok k ↔ MeansAxis i n k := by
  unfold pyIndex fromEnd MeansAxis
  dsimp only
  split <;> split <;> simp only [Except.ok.injEq, reduceCtorEq, false_iff] <;> omega

theorem checkNewAxes_ok : checkNewAxes n axes = .ok () ↔ ∀ ax ∈ axes, -(n:ℤ) ≤ ax ∧ ax < n := by
  induction axes with
  | nil => simp [checkNewAxes]
  | cons ax axes ih =>
    rw [checkNewAxes, List.forall_mem_cons]
    split
    · rename_i hin
      simp only [ih, hin, and_self, true_and]
    · rename_i hout
      simp only [hout, reduceCtorEq, false_and]

theorem dropAxes_sublist (axes : List ℤ) (shape : List ℕ) : (dropAxes axes shape).Sublist shape := by
  have h := (List.filter_sublist (p := fun p : ℕ × ℕ => (p.2 : ℤ) ∉ axes) (l := shape.zipIdx)).map Prod.fst
  rwa [List.zipIdx_map_fst] at h

/-- Dropping axes of length 1 keeps the number of elements. -/
theorem prod_dropAxes (h : ∀ k : ℕ, (k : ℤ) ∈ axes → shape[k]? = some 1) :
    (dropAxes axes shape).prod = shape.prod := by
  have hgen (start : ℕ) (hs : ∀ k : ℕ, ((start+k : ℕ) : ℤ) ∈ axes → shape[k]? = some 1) :
      (((shape.zipIdx start).filter fun p => (p.2 : ℤ) ∉ axes).map Prod.fst).prod = shape.prod := by
    clear h
    induction shape generalizing start with
    | nil => rfl
    | cons d shape ih =>
      have hrest := ih (start+1) fun k hk => by
        have hget := hs (k+1) (by rwa [show start+(k+1) = start+1+k by omega])
        rwa [List.getElem?_cons_succ] at hget
      rw [List.zipIdx_cons]
      by_cases hd : (start : ℤ) ∈ axes
      · have hone : d = 1 := by simpa using hs 0 hd
        rw [List.filter_cons_of_neg (by simpa using hd), hrest, List.prod_cons, hone, one_mul]
      · rw [List.filter_cons_of_pos (by simpa using hd), List.map_cons, List.prod_cons, List.prod_cons, hrest]
  exact hgen 0 fun k hk => h k (by simpa using hk)

theorem checkUnit_ok : checkUnit shape axes = .ok () ↔
    ∀ ax ∈ axes, ∃ k, MeansAxis ax shape.length k ∧ shape[k]? = some 1 := by
  induction axes with
  | nil => simp [checkUnit]
  | cons ax axes ih =>
    rw [List.forall_mem_cons, ← ih, checkUnit, bind_eq_ok]
    simp only [pyIndex_ok]
    constructor
    · rintro ⟨k, hk, hrest⟩
      split at hrest
      · cases hrest
      · rename_i hone
        have hget : shape[k]? = some 1 := by
          rw [List.getElem?_eq_getElem hk.1]
          simpa [List.getD_eq_getElem?_getD, List.getElem?_eq_getElem hk.1] using hone
        exact ⟨⟨k, hk, hget⟩, hrest⟩
    · rintro ⟨⟨k, hk, hget⟩, hrest⟩
      refine ⟨k, hk, ?_⟩
      rw [if_neg (by simp [List.getD_eq_getElem?_getD, hget]), hrest]

/-- An axis in range means the same one after a negative one is counted from the end. -/
theorem MeansAxis.fromEnd {ax : ℤ} {k : ℕ} (h : MeansAxis ax n k) : fromEnd n ax = k := by
  obtain ⟨hlt, rfl | rfl⟩ := h
  · rw [LightArray.fromEnd, if_neg (by omega)]
  · rw [LightArray.fromEnd, if_pos (by omega)]
    omega

theorem squeezedShape_valid {axis : AxisArg} (h : HelperCall.Valid shape (.squeeze axis)) :
    ∃ out, squeezedShape shape axis = .ok out ∧ out.prod = shape.prod ∧ out.Sublist shape := by
  by_cases hnone : axis = .none
  · subst hnone
    refine ⟨_, rfl, ?_, List.filter_sublist⟩
    induction shape with
    | nil => rfl
    | cons d shape ih =>
      by_cases hd : d = 1
      · rw [List.filter_cons_of_neg (by simpa using hd), ih h, List.prod_cons, hd, one_mul]
      · rw [List.filter_cons_of_pos (by simpa using hd), List.prod_cons, List.prod_cons, ih h]
  · obtain ⟨axes, haxes, hunit⟩ : ∃ axes, axis.axes = .ok axes ∧
        ∀ ax ∈ axes, ∃ k, MeansAxis ax shape.length k ∧ shape[k]? = some 1 := by
      cases axis with
      | none => exact absurd rfl hnone
      | int ax => exact h
      | tuple axes => exact h
    have hmeant : ∀ ax ∈ axes.map (fromEnd shape.length), ∃ k : ℕ, ax = k ∧ k < shape.length ∧ shape[k]? = some 1 := by
      intro ax hax
      obtain ⟨ax', hax', rfl⟩ := List.mem_map.mp hax
      obtain ⟨k, hk, hone⟩ := hunit ax' hax'
      exact ⟨k, hk.fromEnd, hk.1, hone⟩
    have hcheck : checkUnit shape (axes.map (fromEnd shape.length)) = .ok () := by
      apply checkUnit_ok.mpr
      intro ax hax
      obtain ⟨k, rfl, hlt, hone⟩ := hmeant ax hax
      exact ⟨k, ⟨hlt, .inl rfl⟩, hone⟩
    refine ⟨dropAxes (axes.map (fromEnd shape.length)) shape, ?_, ?_, dropAxes_sublist _ _⟩
    · unfold squeezedShape
      split
      · exact absurd rfl hnone
      · rw [haxes]
        show (checkUnit shape _ >>= _) = _
        rw [hcheck]
        rfl
    · apply prod_dropAxes
      intro k hk
      obtain ⟨k', he, -, hone⟩ := hmeant k hk
      rwa [Int.natCast_inj.mp he]

/-- Every index that is no new axis takes the next length. -/
theorem spread_ok {is : List ℕ} (h : (is.filter fun i : ℕ => (i : ℤ) ∉ axes).length = shape.length) :
    ∃ out, spread axes is shape = .ok out ∧ out.length = is.length ∧ out.prod = shape.prod ∧
      ∀ d ∈ out, d = 1 ∨ d ∈ shape := by
  induction is generalizing shape with
  | nil =>
    have hs : shape = [] := List.length_eq_zero_iff.mp h.symm
    exact ⟨[], rfl, rfl, by rw [hs], nofun⟩
  | cons i is ih =>
    by_cases hi : (i : ℤ) ∈ axes
    · rw [List.filter_cons_of_neg (by simpa using hi)] at h
      obtain ⟨out, hout, hlen, hprod, hmem⟩ := ih h
      refine ⟨1 :: out, ?_, by rw [List.length_cons, List.length_cons, hlen], by rw [List.prod_cons, one_mul, hprod], ?_⟩
      · simp only [spread, if_pos hi, hout]
        rfl
      · exact List.forall_mem_cons.mpr ⟨.inl rfl, hmem⟩
    · rw [List.filter_cons_of_pos (by simpa using hi), List.length_cons] at h
      cases shape with
      | nil => cases h
      | cons d shape =>
        obtain ⟨out, hout, hlen, hprod, hmem⟩ := ih (Nat.succ.inj h)
        refine ⟨d :: out, ?_, by rw [List.length_cons, List.length_cons, hlen], by rw [List.prod_cons, List.prod_cons, hprod], ?_⟩
        · simp only [spread, if_neg hi, hout]
          rfl
        · refine List.forall_mem_cons.mpr ⟨.inr List.mem_cons_self, fun e he => ?_⟩
          exact (hmem e he).imp id (List.mem_cons_of_mem d)

theorem dedup_length_iff {l : List ℤ} : l.dedup.length = l.length ↔ l.Nodup := by
  constructor
  · intro h
    rw [← List.dedup_eq_self]
    exact (List.dedup_sublist l).eq_of_length h
  · intro h
    rw [List.Nodup.dedup h]

/-- The other axes are as many as the array has. -/
theorem length_filter_notMem {m : ℕ} (hnodup : axes.Nodup) (hrange : ∀ ax ∈ axes, 0 ≤ ax ∧ ax < (n+m : ℕ))
    (hlen : axes.length = m) : ((List.range (n+m)).filter fun i : ℕ => (i : ℤ) ∉ axes).length = n := by
  have hmem : ((List.range (n+m)).filter fun i : ℕ => (i : ℤ) ∈ axes).length = m := by
    have hperm : (((List.range (n+m)).filter fun i : ℕ => (i : ℤ) ∈ axes).map (Nat.cast : ℕ → ℤ)).Perm axes := by
      rw [List.perm_ext_iff_of_nodup ((List.nodup_range.filter _).map Nat.cast_injective) hnodup]
      intro ax
      simp only [List.mem_map, List.mem_filter, List.mem_range, decide_eq_true_eq]
      constructor
      · rintro ⟨i, ⟨-, hi⟩, rfl⟩
        exact hi
      · intro hax
        obtain ⟨hl, hu⟩ := hrange ax hax
        exact ⟨ax.toNat, ⟨by omega, by rwa [Int.toNat_of_nonneg hl]⟩, Int.toNat_of_nonneg hl⟩
    have h := hperm.length_eq
    rwa [List.length_map, hlen] at h
  have hsplit := List.length_eq_length_filter_add (l := List.range (n+m)) fun i : ℕ => (i : ℤ) ∈ axes
  rw [hmem, List.length_range] at hsplit
  simp only [← decide_not] at hsplit
  omega

theorem expandedShape_valid (haxes : ∀ ax ∈ axes, -((shape.length+axes.length : ℕ) : ℤ) ≤ ax ∧ ax < (shape.length+axes.length : ℕ))
    (hnodup : (axes.map (fromEnd (shape.length+axes.length))).Nodup) :
    ∃ out, expandedShape shape axes = .ok out ∧ out.length = shape.length+axes.length ∧
      out.prod = shape.prod ∧ ∀ d ∈ out, d = 1 ∨ d ∈ shape := by
  generalize hn : shape.length+axes.length = n at haxes hnodup
  have hperm := List.mergeSort_perm (axes.map (fromEnd n)) (fun a b => decide (a ≤ b))
  have hsorted : ((axes.map (fromEnd n)).mergeSort).Nodup := hperm.nodup_iff.mpr hnodup
  have hrange : ∀ ax ∈ (axes.map (fromEnd n)).mergeSort, 0 ≤ ax ∧ ax < (shape.length+axes.length : ℕ) := by
    intro ax hax
    obtain ⟨ax', hax', rfl⟩ := List.mem_map.mp (hperm.mem_iff.mp hax)
    have h := haxes ax' hax'
    rw [hn]
    unfold fromEnd
    split <;> omega
  have hlen : ((axes.map (fromEnd n)).mergeSort).length = axes.length := by
    rw [hperm.length_eq, List.length_map]
  obtain ⟨out, hout, hlength, hprod, hmem⟩ := spread_ok (length_filter_notMem hsorted hrange hlen)
  rw [List.length_range, hn] at hlength
  refine ⟨out, ?_, hlength, hprod, hmem⟩
  rw [hn] at hout
  unfold expandedShape
  simp only [hn]
  rw [checkNewAxes_ok.mpr haxes]
  show (if _ then _ else _) = _
  rw [if_neg (not_not.mpr (dedup_length_iff.mpr hsorted)), hout]

end shapes

namespace PyArray

variable {T : Type} {a b : PyArray} {mem mem' : ℕ → T} {alloc : ℕ} {cache : a.Cache T}

/-- A request whose dimensions are exact is carried out. -/
theorem Sound.reshapeCall (h : a.Sound) (alloc : ℕ) (mem : ℕ → T) (cache : a.Cache T)
    {args : List ShapeArg} {raw : List ℤ} (hraw : rawShape args = .ok raw)
    (hndim : argCount args ≤ maxNdim) (hres : Resolves a.len raw)
    (hprod : (fillIn (a.len/knownSize raw) raw).prod = a.len) (hlen : raw.length ≤ maxNdim) :
    ∃ b mem', a.reshapeCall alloc mem cache args = .ok (some (b,mem')) ∧
      a.reshaped alloc mem cache (fillIn (a.len/knownSize raw) raw) = .ok (b,mem') := by
  have hargs := extractShapeArgs_ok.mpr ⟨hres, rfl⟩
  obtain ⟨⟨b, mem'⟩, hr⟩ := h.exists_reshaped alloc mem cache (by rwa [length_fillIn]) hprod
  refine ⟨b, mem', ?_, hr⟩
  rw [PyArray.reshapeCall, if_neg (not_lt.mpr hndim), hraw]
  show (extractShapeArgs a.len raw >>= _) = _
  rw [hargs]
  show (a.reshaped alloc mem cache _ >>= _) = _
  rw [hr]
  rfl

theorem fillIn_natCast (inferred : ℕ) (shape : List ℕ) : fillIn inferred (shape.map Nat.cast) = shape := by
  rw [fillIn, List.map_map]
  conv_rhs => rw [← List.map_id shape]
  apply List.map_congr_left
  intro d _
  simp

theorem Sound.reshapeList (h : a.Sound) (alloc : ℕ) (mem : ℕ → T) (cache : a.Cache T) {shape : List ℕ} (hd : ∀ d ∈ shape, d ≤ isizeMax)
    (hlen : shape.length ≤ maxNdim) (hprod : shape.prod = a.len) :
    ∃ b mem', a.reshapeList alloc mem cache shape = .ok (some (b,mem')) ∧
      a.reshaped alloc mem cache shape = .ok (b,mem') := by
  have hraw : rawShape [.seq (shape.map Nat.cast)] = .ok (shape.map Nat.cast) := by
    unfold rawShape
    apply if_neg
    rintro ⟨e, he, hout⟩
    obtain ⟨d, hd', rfl⟩ := List.mem_map.mp he
    have hle := hd d hd'
    rw [isizeMax_eq] at hle
    omega
  have hunknown : unknownCount (shape.map Nat.cast) = 0 := by
    rw [unknownCount, List.length_eq_zero_iff, List.filter_eq_nil_iff]
    intro e he
    obtain ⟨d, -, rfl⟩ := List.mem_map.mp he
    simp
  have hfill := fillIn_natCast (a.len/knownSize (shape.map Nat.cast)) shape
  have hcount : argCount [.seq (shape.map Nat.cast)] ≤ maxNdim := by
    rw [argCount, List.length_map]
    exact hlen
  have hr := h.reshapeCall alloc mem cache hraw hcount (.inl hunknown)
    (by rw [hfill, hprod]) (by rwa [List.length_map])
  rwa [hfill] at hr

theorem reshapeView_baseOf {shape : List ℕ} (h : a.reshapeView shape = .ok b) : b.baseOf = a.baseOf := by
  obtain ⟨d, -, hview⟩ := bind_eq_ok.mp h
  unfold view at hview
  split at hview
  · cases hview
    rfl
  · cases hview

theorem rowOrder_eq_of_sameData (h : a.SameData b) (hs : a.strided = none) (ha : a.len = a.shape.prod)
    (hb : b.len = b.shape.prod) : b.rowOrder = a.rowOrder := by
  rw [rowOrder_plain h.plain hb, rowOrder_plain hs ha, h.len]
  exact List.map_congr_left fun k _ => h.elementPtr k

/-- What `reshape` returns shares memory exactly when the array is no strided view. -/
theorem Sound.reshaped_shares_iff (h : a.Sound) (hne : a.shape.prod ≠ 0) (hfresh : a.Fresh alloc) {shape : List ℕ}
    (hprod : shape.prod = a.len) (hok : a.reshaped alloc mem cache shape = .ok (b,mem')) :
    a.SharesMemory b ↔ a.strided = none := by
  have hb := (h.reshaped hok).1
  have hlen : b.len = b.shape.prod := by rw [hb.len_eq, hb.shape_eq, hprod]
  constructor
  · intro hshare
    by_contra hs
    have hcopy := h.reshaped_strided (Option.isSome_iff_ne_none.mpr hs) hok
    obtain ⟨c, hc, he⟩ := bind_eq_ok.mp hcopy
    cases he
    obtain ⟨d, -, hd⟩ := bind_eq_ok.mp hc
    cases hd
    have hpos : 0 < a.len := h.len ▸ Nat.pos_of_ne_zero hne
    apply hfresh.2 0 hpos
    rw [← hshare.rowOrder, rowOrder_plain rfl hlen]
    apply List.mem_map.mpr
    refine ⟨0, List.mem_range.mpr ?_, rfl⟩
    rw [hb.len_eq]
    exact hpos
  · intro hs
    obtain ⟨hview, rfl⟩ := h.reshaped_plain hs hok
    have hsame := reshapeView_sameData hview
    have hrow := rowOrder_eq_of_sameData hsame hs h.len hlen
    refine ⟨hrow, reshapeView_baseOf hview, fun T mem cacheA cacheB => ⟨_, h.contents mem cacheA, ?_⟩⟩
    rw [contents_plain hsame.plain, data_plain hsame.plain hlen, hrow]

theorem Sound.sharesMemory_self (h : a.Sound) : a.SharesMemory a :=
  ⟨rfl, rfl, fun _ mem cacheA cacheB => ⟨_, h.contents mem cacheA, h.contents mem cacheB⟩⟩

section shares

variable (h : a.Sound) (hne : a.shape.prod ≠ 0) (hfresh : a.Fresh alloc)
include h hne hfresh

/-- A helper that reshapes shares memory exactly when the array is no strided view. -/
theorem Sound.reshapeCall_shares (mem : ℕ → T) (cache : a.Cache T) {args : List ShapeArg} {raw : List ℤ}
    (hraw : rawShape args = .ok raw) (hndim : argCount args ≤ maxNdim) (hlen : raw.length ≤ maxNdim)
    (hres : Resolves a.len raw) (hprod : (fillIn (a.len/knownSize raw) raw).prod = a.len) :
    ∃ b mem', a.reshapeCall alloc mem cache args = .ok (some (b,mem')) ∧ (a.SharesMemory b ↔ a.strided = none) := by
  obtain ⟨b, mem', hcall, hr⟩ := h.reshapeCall alloc mem cache hraw hndim hres hprod hlen
  exact ⟨b, mem', hcall, h.reshaped_shares_iff hne hfresh hprod hr⟩

theorem Sound.reshapeList_shares (mem : ℕ → T) (cache : a.Cache T) {shape : List ℕ} (hd : ∀ d ∈ shape, d ≤ isizeMax)
    (hlen : shape.length ≤ maxNdim) (hprod : shape.prod = a.shape.prod) :
    ∃ b mem', a.reshapeList alloc mem cache shape = .ok (some (b,mem')) ∧ (a.SharesMemory b ↔ a.strided = none) := by
  have hcount : shape.prod = a.len := hprod.trans h.len.symm
  obtain ⟨b, mem', hcall, hr⟩ := h.reshapeList alloc mem cache hd hlen hcount
  exact ⟨b, mem', hcall, h.reshaped_shares_iff hne hfresh hcount hr⟩

theorem Sound.squeeze_shares (mem : ℕ → T) (cache : a.Cache T) {axis : AxisArg}
    (hv : (HelperCall.squeeze axis).Valid a.shape) :
    ∃ b mem', a.squeeze alloc mem cache axis = .ok (some (b,mem')) ∧ (a.SharesMemory b ↔ a.strided = none) := by
  have hdim := h.denotes.isize_shape h.frame_fits hne
  obtain ⟨out, hout, hprod, hsub⟩ := squeezedShape_valid hv
  rw [squeeze, hout]
  exact h.reshapeList_shares hne hfresh mem cache (fun d hd => hdim d (hsub.subset hd))
    (hsub.length_le.trans a.dims.ndim_le) hprod

theorem Sound.expandDims_shares (mem : ℕ → T) (cache : a.Cache T) {axis : AxisArg}
    (hv : (HelperCall.expandDims axis).Valid a.shape) :
    ∃ b mem', a.expandDims alloc mem cache axis = .ok (some (b,mem')) ∧ (a.SharesMemory b ↔ a.strided = none) := by
  have hdim := h.denotes.isize_shape h.frame_fits hne
  obtain ⟨axes, haxes, hndim, hrange, hnodup⟩ := hv
  obtain ⟨out, hout, hlen, hprod, hmem⟩ := expandedShape_valid hrange hnodup
  have hd : ∀ d ∈ out, d ≤ isizeMax := by
    intro d hd
    rcases hmem d hd with rfl | hd
    · decide
    · exact hdim d hd
  rw [expandDims, haxes]
  show ∃ b mem', (expandedShape a.shape axes >>= _) = Except.ok (some (b,mem')) ∧ _
  rw [hout]
  exact h.reshapeList_shares hne hfresh mem cache hd (hlen ▸ hndim) hprod

/-- `atleast_2d` gives back an array of two dimensions or more. -/
theorem Sound.atleast2d_shares (mem : ℕ → T) (cache : a.Cache T) :
    ∃ b mem', a.atleast2d alloc mem cache = .ok (some (b,mem')) ∧
      (a.SharesMemory b ↔ a.strided = none ∨ 2 ≤ a.shape.length) := by
  unfold atleast2d
  by_cases h0 : a.dims.ndim = 0
  · have hlen : a.len = 1 := by
      rw [h.len, shape, List.length_eq_zero_iff.mp h0]
      rfl
    have hndim : ¬ 2 ≤ a.shape.length := by
      rw [shape]
      exact fun hle => absurd (h0 ▸ hle : 2 ≤ 0) (by decide)
    rw [if_pos h0]
    obtain ⟨b, mem', hb, hiff⟩ := h.reshapeCall_shares hne hfresh mem cache
      (show rawShape [.int 1, .int 1] = .ok [1,1] by decide) (by decide) (by decide) (.inl rfl) (by simp [fillIn, hlen])
    exact ⟨b, mem', hb, by simpa [hndim] using hiff⟩
  · rw [if_neg h0]
    by_cases h1 : a.dims.ndim = 1
    · have hknown : knownSize [1,-1] = 1 := by decide
      have hndim : ¬ 2 ≤ a.shape.length := by
        rw [shape]
        exact fun hle => absurd (h1 ▸ hle : 2 ≤ 1) (by decide)
      rw [if_pos h1]
      obtain ⟨b, mem', hb, hiff⟩ := h.reshapeCall_shares hne hfresh mem cache
        (show rawShape [.int 1, .int (-1)] = .ok [1,-1] by decide) (by decide) (by decide) (.inr ⟨by decide, by decide, by rw [hknown]; exact one_dvd _⟩)
        (by simp [fillIn, hknown])
      exact ⟨b, mem', hb, by simpa [hndim] using hiff⟩
    · -- the array itself
      have hndim : 2 ≤ a.shape.length := by
        change 2 ≤ a.dims.ndim
        omega
      rw [if_neg h1]
      exact ⟨a, mem, rfl, fun _ => .inr hndim, fun _ => h.sharesMemory_self⟩

/-- A valid call of a shape helper returns an array, and shares memory exactly when
nothing is to be copied. -/
theorem Sound.helper_shares (c : HelperCall) (hv : c.Valid a.shape) (mem : ℕ → T) (cache : a.Cache T) :
    ∃ b mem', c.run alloc mem a cache = .ok (some (b,mem')) ∧
      (a.SharesMemory b ↔ a.strided = none ∨ c = .atleast2d ∧ 2 ≤ a.shape.length) := by
  cases c with
  | squeeze axis =>
    obtain ⟨b, mem', hb, hiff⟩ := h.squeeze_shares hne hfresh mem cache hv
    exact ⟨b, mem', hb, by simpa using hiff⟩
  | expandDims axis =>
    obtain ⟨b, mem', hb, hiff⟩ := h.expandDims_shares hne hfresh mem cache hv
    exact ⟨b, mem', hb, by simpa using hiff⟩
  | atleast2d =>
    obtain ⟨b, mem', hb, hiff⟩ := h.atleast2d_shares hne hfresh mem cache
    exact ⟨b, mem', hb, by simpa using hiff⟩

end shares

end PyArray

/-- `squeeze`, `expand_dims` and `atleast_2d` of a non-empty array share its memory
exactly when it is no strided view, or `atleast_2d` gives back the array itself. -/
theorem shape_helpers_share_iff {a : PyArray} (h : Reached (fun a op => op.Exact a) a) (hne : a.shape.prod ≠ 0)
    (c : HelperCall) (hv : c.Valid a.shape) {T : Type} (mem : ℕ → T) (cache : a.Cache T) {alloc : ℕ}
    (hfresh : a.Fresh alloc) : ∃ b mem', c.run alloc mem a cache = .ok (some (b,mem')) ∧
      (a.SharesMemory b ↔ a.strided = none ∨ c = .atleast2d ∧ 2 ≤ a.shape.length) :=
  h.sound.helper_shares hne hfresh c hv mem cache

theorem shape_helpers_share_iff_grid : ∃ b mem',
    HelperCall.run (.expandDims (.int (-1))) 8192 (fun p => p) grid ⟨List.replicate 12 0, rfl⟩ = .ok (some (b,mem')) ∧
      grid.SharesMemory b := by
  have hreached : Reached (fun a op => op.Exact a) grid := .owner grid_ownerWf
  have hv : HelperCall.Valid grid.shape (.expandDims (.int (-1))) :=
    ⟨[-1], rfl, by decide, by decide, by decide⟩
  have hfresh : grid.Fresh 8192 := by
    unfold PyArray.Fresh
    decide
  obtain ⟨b, mem', hb, hiff⟩ := shape_helpers_share_iff hreached (by decide) _ hv (fun p => p)
    ⟨List.replicate 12 0, rfl⟩ hfresh
  exact ⟨b, mem', hb, hiff.mpr (.inl rfl)⟩

/-- `expand_dims(grid.T, 0)` is a copy. -/
theorem expandDims_copies_view :
    ¬ ∀ (a : PyArray) (c : HelperCall) (alloc : ℕ) (cache : a.Cache ℕ), Reached (fun a op => op.Exact a) a →
      a.shape.prod ≠ 0 → c.Valid a.shape → a.Fresh alloc →
        ∃ b mem', c.run alloc (fun p => p) a cache = .ok (some (b,mem')) ∧ a.SharesMemory b := by
  intro h
  have hv : HelperCall.Valid gridColumns.shape (.expandDims (.int 0)) :=
    ⟨[0], rfl, by decide, by decide, by decide⟩
  have hfresh : gridColumns.Fresh 16384 := by
    unfold PyArray.Fresh
    decide
  have hne : gridColumns.shape.prod ≠ 0 := by decide
  obtain ⟨b, mem', hb, hshare⟩ := h gridColumns (.expandDims (.int 0)) 16384 ⟨List.replicate 12 0, rfl⟩
    gridColumns_reached hne hv hfresh
  obtain ⟨b', mem'', hb', hiff⟩ := gridColumns_reached.sound.helper_shares hne hfresh _ hv
    (fun p => p) ⟨List.replicate 12 0, rfl⟩
  cases hb.symm.trans hb'
  rcases hiff.mp hshare with hs | ⟨hc, -⟩
  · cases hs
  · cases hc

end LightArray
