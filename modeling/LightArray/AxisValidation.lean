import LightArray.AxisHelpers

namespace LightArray
open MachineWord RowMajor

/-- A NumPy that makes every array it can. -/
def NumpyShape.reference {T : Type} : NumpyShape T where
  reshape x shape :=
    if (∃ d ∈ shape, isizeMax < d) ∨ shape.prod ≠ x.values.length then
      .error (.python .valueError "cannot reshape array")
    else .ok ⟨shape, x.values⟩
  squeeze x axis := do
    let k ← pyIndex "axis is out of bounds" x.shape.length axis
    if x.shape[k]? = some 1 then .ok ⟨x.shape.eraseIdx k, x.values⟩
    else .error (.python .valueError "cannot select an axis to squeeze out which has size not equal to one")

theorem NumpyShape.reference_documented {T : Type} : (reference : NumpyShape T).Documented where
  reshape x shape hshort hprod := by
    apply if_neg
    rintro (hlong | hne)
    · exact hshort hlong
    · exact hne hprod
  tooLong x shape hlong := ⟨_, if_pos (.inl hlong)⟩
  squeeze x axis k hk hone := by
    show (pyIndex _ x.shape.length axis >>= _) = _
    rw [pyIndex_ok.mpr hk]
    exact if_pos hone

namespace PyArray

variable {T F : Type} {a b : PyArray} {alloc : ℕ} {axis : ℤ} {k : ℕ}

/-- `reshape` reads its lengths as `isize`s. -/
theorem reshapeList_tooLong (mem : ℕ → T) (cache : a.Cache T) (alloc : ℕ) {shape : List ℕ} (hlen : shape.length ≤ maxNdim)
    (hlong : TooLong shape) : ∃ e, a.reshapeList alloc mem cache shape = .error e := by
  obtain ⟨d, hd, hgt⟩ := hlong
  rw [isizeMax_eq] at hgt
  have hout : ∃ e ∈ shape.map (Nat.cast : ℕ → ℤ), e < -(2^63) ∨ 2^63 ≤ e :=
    ⟨d, List.mem_map_of_mem hd, .inr (by omega)⟩
  have hraw : rawShape [.seq (shape.map Nat.cast)] = .error (.python .overflowError "int too big to convert") := if_pos hout
  have hcount : ¬ maxNdim < argCount [.seq (shape.map Nat.cast)] := by
    rw [argCount, List.length_map]
    exact not_lt.mpr hlen
  refine ⟨.python .overflowError "int too big to convert", ?_⟩
  rw [reshapeList, reshapeCall, if_neg hcount, hraw]
  rfl

theorem mem_dropAxes {axes : List ℤ} {shape : List ℕ} {i d : ℕ} (hd : shape[i]? = some d) (hi : (i : ℤ) ∉ axes) :
    d ∈ dropAxes axes shape := by
  apply List.mem_map.mpr
  refine ⟨(d,i), List.mem_filter.mpr ⟨List.mem_zipIdx_iff_getElem?.mpr hd, ?_⟩, rfl⟩
  exact decide_eq_true hi

/-- The axis that is too long is left, whichever one of length 1 is squeezed out. -/
theorem squeeze_tooLong (mem : ℕ → T) (cache : a.Cache T) (alloc : ℕ) (axis : ℤ) (hlong : TooLong a.shape) :
    ∃ e, a.squeeze alloc mem cache (.int axis) = .error e := by
  cases hs : squeezedShape a.shape (.int axis) with
  | error e => exact ⟨e, by rw [squeeze, hs]; rfl⟩
  | ok out =>
    obtain ⟨⟨k, hk, hone⟩, rfl⟩ := squeezedShape_int_ok.mp hs
    have hout : TooLong (dropAxes [fromEnd a.shape.length axis] a.shape) := by
      obtain ⟨d, hd, hgt⟩ := hlong
      obtain ⟨i, hi⟩ := List.mem_iff_getElem?.mp hd
      refine ⟨d, mem_dropAxes hi ?_, hgt⟩
      intro hmem
      have hax := List.mem_singleton.mp hmem
      have hik : i = k := by
        unfold MeansAxis at hk
        omega
      rw [hik, hone] at hi
      cases hi
      exact absurd hgt (by decide)
    have hlen := (dropAxes_sublist [fromEnd a.shape.length axis] a.shape).length_le.trans a.dims.ndim_le
    obtain ⟨e, he⟩ := reshapeList_tooLong mem cache alloc hlen hout
    refine ⟨e, ?_⟩
    rw [squeeze, hs]
    exact he

theorem squeezeObeys_tooLong (hlong : TooLong a.shape) (axis : ℤ) :
    a.SqueezeObeys axis ↔ ∀ k, MeansAxis axis a.shape.length k → a.shape[k]? ≠ some 1 := by
  constructor
  · intro hobeys k hk hone
    obtain ⟨b, mem', hb, -⟩ := ((hobeys ℕ id (constantCache 0 a) 0 (by decide)).2 k hk).2 hone
    obtain ⟨e, he⟩ := squeeze_tooLong id (constantCache 0 a) 0 axis hlong
    cases hb.symm.trans he
  · intro hno T mem cache alloc _
    have herror := squeeze_tooLong mem cache alloc axis hlong
    exact ⟨fun _ => herror, fun k hk => ⟨fun _ => herror, fun hone => absurd hone (hno k hk)⟩⟩

/-- Neither lightarray nor NumPy reshapes to a length that is too long. -/
theorem expandDimsAny_tooLong {np : NumpyShape T} (hnp : np.Documented) (mem : ℕ → T) (cache : a.Cache T) (alloc : ℕ)
    (hlong : TooLong a.shape) (hk : MeansAxis axis (a.shape.length+1) k) :
    ∃ e, a.expandDimsAny np alloc mem cache (.int axis) = .error e := by
  have hout : TooLong (a.shape.insertIdx k 1) := by
    obtain ⟨d, hd, hgt⟩ := hlong
    exact ⟨d, (List.mem_insertIdx (Nat.le_of_lt_succ hk.1)).mpr (.inr hd), hgt⟩
  have hlen := length_insertIdx_axis hk
  by_cases hmax : a.shape.length+1 ≤ maxNdim
  · obtain ⟨e, he⟩ := reshapeList_tooLong mem cache alloc (hlen.trans_le hmax) hout
    refine ⟨e, ?_⟩
    rw [expandDimsAny, expandDims_int hk, he]
    rfl
  · obtain ⟨e, he⟩ := hnp.tooLong (a.listed mem) _ hout
    have hnone : a.reshapeList alloc mem cache (a.shape.insertIdx k 1) = .ok none := by
      rw [reshapeList, reshapeCall, if_pos]
      rw [argCount, List.length_map, hlen]
      exact not_le.mp hmax
    refine ⟨e, ?_⟩
    rw [expandDimsAny, expandDims_int hk, hnone]
    show (expandedShape a.shape [axis] >>= _) = _
    rw [expandedShape_int hk]
    show (np.reshape (a.listed mem) _ >>= _) = _
    rw [he]
    rfl

theorem expandObeys_tooLong (hlong : TooLong a.shape) (axis : ℤ) :
    a.ExpandObeys axis ↔ NoAxis axis (a.shape.length+1) := by
  constructor
  · intro hobeys
    rw [noAxis_iff]
    intro k hk
    obtain ⟨x, y, hx, -⟩ := (hobeys ℕ .reference id (constantCache 0) 0 0 NumpyShape.reference_documented
      (by decide) (by decide)).2 k hk
    obtain ⟨e, he⟩ := expandDimsAny_tooLong NumpyShape.reference_documented id (constantCache 0 a) 0 hlong hk
    cases hx.symm.trans he
  · intro hout T np mem cache alloc alloc' _ _ _
    refine ⟨fun _ => ?_, fun k hk => absurd hk (noAxis_iff.mp hout k)⟩
    obtain ⟨e, he⟩ := Sound.expandDims_error mem (cache a) alloc hout
    exact ⟨e, by rw [expandDimsAny, he]; rfl⟩

/-- The reversed array is cut short. -/
theorem Sound.flipObeys_tooLong (h : a.Sound) (hlong : TooLong a.shape) (axis : ℤ) :
    a.FlipObeys axis ↔ NoAxis axis a.shape.length := by
  have hndim := hlong.ne_nil
  constructor
  · intro hobeys
    rw [noAxis_iff]
    intro k hk
    have hpos : 0 < wordModulus := by decide
    obtain ⟨b, -, hb, hrev, -⟩ := (hobeys ℕ id 0 0 hpos hpos).2 k hk
    have hwords : ∀ e < wordModulus, PySlice.reversed.count e < wordModulus := fun e he =>
      (count_reversed_le he).trans_lt (by decide)
    obtain ⟨c, hc, -, -, htakes⟩ := h.getSlices_long hlong (id : ℕ → ℕ) hpos k hwords
    have hflip : a.flip id 0 (.int axis) = .ok (some (.array c)) := by
      rw [flip_int hndim, setAxes_ok .reversed hk]
      show (a.getSlices id 0 _ >>= fun v => .ok (some v)) = _
      rw [hc]
      rfl
    cases hb.symm.trans hflip
    obtain ⟨d, hd, hgt⟩ := hlong
    have hle : ∀ e ∈ b.shape, e ≤ isizeMax := htakes.le
      (fun e he => count_reversed_le (h.usize e (List.mem_of_getElem? he))) fun e he => count_all_le (h.usize e he)
    rw [hrev.1] at hle
    exact absurd hgt (not_lt.mpr (hle d hd))
  · intro hout T mem alloc alloc' _ _
    refine ⟨fun _ => ?_, fun k hk => absurd hk (noAxis_iff.mp hout k)⟩
    obtain ⟨e, he⟩ := setAxes_error .reversed (noAxis_iff.mp hout)
    refine ⟨e, ?_⟩
    rw [flip_int hndim, he]
    rfl

section difference

variable (ofInt : ℤ → F) (sub : F → F → F) {np : NumpySubtract F} {t : DType}

/-- Arrays that broadcast are subtracted. -/
theorem subtract_broadcasts (ht : t ≠ .bool) (hnp : np.Documented) {x y : NdArray t (Elem F t)} (hx : x.Counted) (hy : y.Counted)
    {r : List ℕ} (hr : broadcastShape x.shape y.shape = .ok r) (hshort : ¬ TooLong r) (hfit : t.itemsize*r.prod ≤ isizeMax) :
    ∃ z, AnyArray.subtract ofInt sub np (.ofArray t x) (.ofArray t y) = .ok z ∧ z.shape = r := by
  cases t with
  | float64 =>
    obtain ⟨z, hz, hshape, -⟩ := NdArray.zipMap_spec (f := sub) hx hy hr hfit
    refine ⟨.f64 z.dims z.data, ?_, hshape⟩
    show (NdArray.zipMap sub x y >>= fun z => .ok (AnyArray.f64 z.dims z.data)) = _
    rw [hz]
    rfl
  | int64 =>
    by_cases hd : x.dims = y.dims
    · refine ⟨_, if_pos hd, ?_⟩
      show x.shape = r
      have hself := broadcastShape_eq_ok.mpr (broadcastsTo_self x.shape)
      rw [show y.shape = x.shape from congrArg Dims.shape hd.symm, hself] at hr
      exact Except.ok.inj hr
    · obtain ⟨z, hz, hshape⟩ := hnp.broadcasts x y r hx hy hr hshort hfit
      exact ⟨z, (if_neg hd).trans hz, hshape⟩
  | bool => exact absurd rfl ht

/-- The others are refused, here or by NumPy. -/
theorem subtract_refuses (ht : t ≠ .bool) (hnp : np.Documented) {x y : NdArray t (Elem F t)}
    (hr : ∀ r, broadcastShape x.shape y.shape ≠ .ok r) :
    ∃ e, AnyArray.subtract ofInt sub np (.ofArray t x) (.ofArray t y) = .error e := by
  cases t with
  | float64 =>
    cases he : broadcastShape x.shape y.shape with
    | ok r => exact absurd he (hr r)
    | error e =>
      refine ⟨e, ?_⟩
      show (NdArray.zipMap sub x y >>= fun z => .ok (AnyArray.f64 z.dims z.data)) = _
      rw [NdArray.zipMap_error (f := sub) he]
      rfl
  | int64 =>
    have hd : ¬ x.dims = y.dims := by
      intro hd
      have hself := broadcastShape_eq_ok.mpr (broadcastsTo_self x.shape)
      apply hr x.shape
      rwa [show y.shape = x.shape from congrArg Dims.shape hd.symm]
    obtain ⟨e, he⟩ := hnp.refuses x y hr
    exact ⟨e, (if_neg hd).trans he⟩
  | bool => exact absurd rfl ht

/-- The two views of `diff` broadcast when their lengths along the axis do. -/
theorem views_broadcast {c : PyArray} {d : ℕ} (hu : ∀ e ∈ a.shape, e < wordModulus) (hb : Takes a b k .fromOne)
    (hc : Takes a c k .beforeLast) (hd : a.shape[k]? = some d) :
    (∃ r, broadcastShape b.shape c.shape = .ok r) ↔ SlicesBroadcast d := by
  have hlen : b.shape.length = c.shape.length := hb.1.trans hc.1.symm
  rw [exists_broadcastShape_iff, forall_trailingAxis (P := fun x y => x = y ∨ x = 1 ∨ y = 1) hlen (.inl rfl),
    slicesBroadcast_iff (hu d (List.mem_of_getElem? hd))]
  constructor
  · intro h
    have hbk := hb.2 k d hd
    have hck := hc.2 k d hd
    rw [if_pos rfl] at hbk hck
    exact h k _ _ hbk hck
  · intro h i x y hx hy
    have hi : i < a.shape.length := by
      rw [← hb.1]
      exact (List.getElem?_eq_some_iff.mp hx).1
    have hbi := hb.2 i _ (List.getElem?_eq_getElem hi)
    have hci := hc.2 i _ (List.getElem?_eq_getElem hi)
    rw [hx] at hbi
    rw [hy] at hci
    by_cases hik : i = k
    · subst hik
      rw [List.getElem?_eq_getElem hi] at hd
      cases hd
      rw [if_pos rfl] at hbi hci
      rwa [Option.some.inj hbi, Option.some.inj hci]
    · rw [if_neg hik] at hbi hci
      exact .inl ((Option.some.inj hbi).trans (Option.some.inj hci).symm)

/-- Their broadcast has nothing along an axis that was too long. -/
theorem broadcast_long {c : PyArray} {r : List ℕ} (hu : ∀ e ∈ a.shape, e < wordModulus) (hb : Takes a b k .fromOne)
    (hc : Takes a c k .beforeLast) (hr : broadcastShape b.shape c.shape = .ok r) {i e : ℕ} (hi : a.shape[i]? = some e)
    (hgt : isizeMax < e) : r[i]? = some 0 := by
  have hlen : b.shape.length = r.length := by
    rw [(broadcastShape_iff.mp hr).1, hb.1, hc.1, max_self]
  have hstretch := (broadcastsTo_iff.mp (broadcastsTo_of_broadcastShape hr).1).2
  rw [forall_trailingAxis (P := fun x y => x = y ∨ x = 1) hlen (.inl rfl)] at hstretch
  have hbi : b.shape[i]? = some 0 := by
    have hlt := hu e (List.mem_of_getElem? hi)
    have hget := hb.2 i e hi
    rwa [count_fromOne_long hgt hlt, count_all_long hgt hlt, ite_self] at hget
  have hir : i < r.length := hlen ▸ (List.getElem?_eq_some_iff.mp hbi).1
  rcases hstretch i 0 _ hbi (List.getElem?_eq_getElem hir) with he | he
  · rw [List.getElem?_eq_getElem hir, ← he]
  · cases he

/-- It is an array that can be made, without elements. -/
theorem broadcast_made {c : PyArray} {r : List ℕ} {d : ℕ} (hlong : TooLong a.shape) (hu : ∀ e ∈ a.shape, e < wordModulus)
    (hb : Takes a b k .fromOne) (hc : Takes a c k .beforeLast) (hr : broadcastShape b.shape c.shape = .ok r)
    (hd : a.shape[k]? = some d) (hok : SlicesBroadcast d) : ¬ TooLong r ∧ r.prod = 0 := by
  have hall : ∀ e ∈ a.shape, PySlice.all.count e ≤ isizeMax := fun e he => count_all_le (hu e he)
  constructor
  · rw [not_tooLong]
    apply broadcastShape_le (by decide) hr
    · exact hb.le (fun e he => count_fromOne_le (hu e (List.mem_of_getElem? he))) hall
    · apply hc.le _ hall
      intro e he
      rw [hd] at he
      cases he
      exact hok.beforeLast_le (hu d (List.mem_of_getElem? hd))
  · obtain ⟨i, e, hi, hgt⟩ := hlong.exists_axis
    exact List.prod_eq_zero (List.mem_of_getElem? (broadcast_long hu hb hc hr hi hgt))

/-- What an array lists is as many elements as its shape counts. -/
theorem Sound.counted_listed (h : b.Sound) (ht : b.dtype = t) {mem : ℕ → F} {w : NdArray t F} (hshape : w.shape = b.shape)
    (hdata : w.data = b.rowOrder.map mem) : w.Counted := by
  have hcount : w.data.length = b.shape.prod := by rw [hdata, List.length_map, length_rowOrder]
  refine ⟨hcount.trans (congrArg List.prod hshape.symm), ?_⟩
  rw [hcount, ← ht]
  exact h.fits

/-- `diff` of an array with an axis that is too long: nothing is left of that axis, or the
subtraction is refused. -/
theorem Sound.diff_tooLong (h : a.Sound) (hlong : TooLong a.shape)
    (hnp : np.Documented) (hbool : a.dtype ≠ .bool) (mem : Memory F) (cache : (b : PyArray) → b.Cache (Elem F b.dtype))
    {alloc' : ℕ} (halloc : alloc < wordModulus) (halloc' : alloc' < wordModulus)
    (hk : MeansAxis (fromEnd a.shape.length axis) a.shape.length k) {d : ℕ} (hd : a.shape[k]? = some d) :
    (SlicesBroadcast d → ∃ z, a.diff ofInt sub np mem cache alloc alloc' ⟨1, axis, false, false⟩ = .ok (some z) ∧
      ∀ i e : ℕ, a.shape[i]? = some e → isizeMax < e → z.shape[i]? = some 0) ∧
    (¬ SlicesBroadcast d → ∃ e, a.diff ofInt sub np mem cache alloc alloc' ⟨1, axis, false, false⟩ = .error e) := by
  have hfromWords : ∀ e < wordModulus, PySlice.fromOne.count e < wordModulus := fun e he =>
    (count_fromOne_le he).trans_lt (by decide)
  obtain ⟨b, hb, hbsound, hbt, hbtakes⟩ := h.getSlices_long hlong (mem a.dtype) halloc k hfromWords
  obtain ⟨c, hc, hcsound, hct, hctakes⟩ := h.getSlices_long hlong (mem a.dtype) halloc' k fun e he => count_beforeLast_lt he
  obtain ⟨x, y, ⟨hxshape, hxdata⟩, ⟨hyshape, hydata⟩, hdiff⟩ :=
    diff_views ofInt sub np hbool mem cache hk hb hc hbsound hcsound hbt hct
  have hjoin := views_broadcast h.usize hbtakes hctakes hd
  rw [← hxshape, ← hyshape] at hjoin
  constructor
  · intro hok
    obtain ⟨r, hr⟩ := hjoin.mpr hok
    have hr' : broadcastShape b.shape c.shape = .ok r := by rwa [← hxshape, ← hyshape]
    obtain ⟨hshort, hprod⟩ := broadcast_made hlong h.usize hbtakes hctakes hr' hd hok
    have hfit : a.dtype.itemsize*r.prod ≤ isizeMax := by
      rw [hprod, mul_zero]
      exact Nat.zero_le _
    obtain ⟨z, hz, rfl⟩ := subtract_broadcasts ofInt sub hbool hnp (hbsound.counted_listed hbt hxshape hxdata)
      (hcsound.counted_listed hct hyshape hydata) hr hshort hfit
    refine ⟨z, ?_, fun i e hi hgt => broadcast_long h.usize hbtakes hctakes hr' hi hgt⟩
    rw [hdiff, hz]
    rfl
  · -- floats are refused by `zip_map`, integers by NumPy
    intro hno
    have hnone (r : List ℕ) : broadcastShape x.shape y.shape ≠ .ok r := fun hr => hno (hjoin.mp ⟨r, hr⟩)
    obtain ⟨e, he⟩ := subtract_refuses ofInt sub hbool hnp hnone
    refine ⟨e, ?_⟩
    rw [hdiff, he]
    rfl

/-- One less than too long is not nothing. -/
theorem DiffAlong.not_short {mem : Memory F} {w : NdArray a.dtype (Elem F a.dtype)} (h : DiffAlong sub mem a k w) {i e : ℕ}
    (hi : a.shape[i]? = some e) (hgt : isizeMax < e) : w.shape[i]? ≠ some 0 := by
  have hone : 1 < isizeMax := by decide
  have hlt := (List.getElem?_eq_some_iff.mp hi).1
  rw [h.shape, List.getElem?_set]
  intro hnone
  split at hnone
  · rename_i hki
    subst hki
    rw [if_pos hlt, List.getD_eq_getElem?_getD, hi, Option.getD_some] at hnone
    have he := Option.some.inj hnone
    omega
  · rw [hi] at hnone
    cases hnone
    omega

/-- So no result of `diff` is the one asked for. -/
theorem Sound.not_diffAlong_tooLong (h : a.Sound) (hlong : TooLong a.shape) (hnp : np.Documented) (hbool : a.dtype ≠ .bool)
    (mem : Memory F) (cache : (b : PyArray) → b.Cache (Elem F b.dtype)) {alloc' : ℕ} (halloc : alloc < wordModulus)
    (halloc' : alloc' < wordModulus) (hk : MeansAxis axis a.shape.length k) (w : NdArray a.dtype (Elem F a.dtype))
    (hw : a.diff ofInt sub np mem cache alloc alloc' ⟨1, axis, false, false⟩ = .ok (some (.ofArray a.dtype w))) :
    ¬ DiffAlong sub mem a k w := by
  have hd := List.getElem?_eq_getElem hk.1
  obtain ⟨hok, hrefused⟩ := h.diff_tooLong ofInt sub hlong hnp hbool mem cache halloc halloc'
    (meansAxis_fromEnd.mpr (.inl hk)) hd
  intro halong
  by_cases hbroadcast : SlicesBroadcast (a.shape.get ⟨k, hk.1⟩)
  · obtain ⟨z, hz, hzero⟩ := hok hbroadcast
    cases hw.symm.trans hz
    obtain ⟨i, e, hi, hgt⟩ := hlong.exists_axis
    have hnone := hzero i e hi hgt
    rw [AnyArray.shape_ofArray] at hnone
    exact halong.not_short sub hi hgt hnone
  · obtain ⟨e, he⟩ := hrefused hbroadcast
    cases hw.symm.trans he

theorem Sound.diffObeys_tooLong (h : a.Sound) (hlong : TooLong a.shape) (hbool : a.dtype ≠ .bool) (axis : ℤ) :
    a.DiffObeys axis ↔ NoAxis axis a.shape.length ∧
      ∀ (k d : ℕ), (k : ℤ) = axis+2*a.shape.length → a.shape[k]? = some d → ¬ SlicesBroadcast d := by
  have hnp := NumpySubtract.reference_documented (F := ℤ)
  constructor
  · intro hobeys
    have hpos : 0 < wordModulus := by decide
    have hcache (b : PyArray) : b.Cache (Elem ℤ b.dtype) := constantCache (zeroElem b.dtype) b
    obtain ⟨hraises, hacts⟩ := hobeys ℤ id (· - ·) .reference (fun t _ => zeroElem t) hcache 0 0 hnp hpos hpos
    have hout : NoAxis axis a.shape.length := by
      rw [noAxis_iff]
      intro k hk
      obtain ⟨w, hw, halong⟩ := hacts k hk
      exact h.not_diffAlong_tooLong id (· - ·) hlong hnp hbool _ _ hpos hpos hk w hw halong
    refine ⟨hout, fun k d hk hd hok => ?_⟩
    have hlt := (List.getElem?_eq_some_iff.mp hd).1
    obtain ⟨e, he⟩ := hraises hout
    obtain ⟨z, hz, -⟩ := (h.diff_tooLong id (· - ·) hlong hnp hbool (fun t _ => zeroElem t) hcache hpos hpos
      (meansAxis_fromEnd.mpr (.inr ⟨hlt, hk⟩)) hd).1 hok
    cases he.symm.trans hz
  · rintro ⟨hout, hrefused⟩ F ofInt sub np mem cache alloc alloc' hnp halloc halloc'
    refine ⟨fun _ => ?_, fun k hk => absurd hk (noAxis_iff.mp hout k)⟩
    by_cases hwraps : WrapsTwice axis a.shape.length
    · obtain ⟨k, hlt, hk⟩ := wrapsTwice_iff.mp hwraps
      have hd := List.getElem?_eq_getElem hlt
      exact (h.diff_tooLong ofInt sub hlong hnp hbool mem cache halloc halloc'
        (meansAxis_fromEnd.mpr (.inr ⟨hlt, hk⟩)) hd).2 (hrefused k _ hk hd)
    · exact diff_error hlong.ne_nil hbool mem cache alloc alloc' hout hwraps

end difference

end PyArray

/-- The helpers that take an axis. -/
inductive AxisHelper
  | squeeze
  | expandDims
  | flip
  | diff
  deriving DecidableEq

namespace AxisHelper

/-- The helper raises for an axis out of range and acts on the one meant otherwise. -/
def Obeys (a : PyArray) (axis : ℤ) : AxisHelper → Prop
  | .squeeze => a.SqueezeObeys axis
  | .expandDims => a.ExpandObeys axis
  | .flip => a.FlipObeys axis
  | .diff => a.DiffObeys axis

/-- An axis out of range is taken for one from the end; `squeeze` notices it unless that
axis has length 1, and a subtraction unless its slices broadcast. With an axis that is too
long no request for an axis in range is carried out. -/
def Mistakes (shape : List ℕ) (axis : ℤ) : AxisHelper → Prop
  | .squeeze => TooLong shape ∧ (∃ k, MeansAxis axis shape.length k ∧ shape[k]? = some 1) ∨
    ¬ TooLong shape ∧ WrapsTwice axis shape.length ∧ shape[(axis+2*shape.length).toNat]? = some 1
  | .expandDims => TooLong shape ∧ ¬ NoAxis axis (shape.length+1)
  | .flip => TooLong shape ∧ ¬ NoAxis axis shape.length
  | .diff => TooLong shape ∧ ¬ NoAxis axis shape.length ∨
    WrapsTwice axis shape.length ∧ ∃ d, shape[(axis+2*shape.length).toNat]? = some d ∧ SlicesBroadcast d

end AxisHelper

namespace PyArray

variable {a : PyArray}

/-- Each helper, for arrays with and without an axis that is too long. -/
theorem Sound.squeeze_validates (h : a.Sound) (axis : ℤ) :
    a.SqueezeObeys axis ↔ ¬ AxisHelper.squeeze.Mistakes a.shape axis := by
  by_cases hlong : TooLong a.shape
  · rw [squeezeObeys_tooLong hlong]
    simp only [AxisHelper.Mistakes, hlong, true_and, not_true_eq_false, false_and, or_false, not_exists, not_and, ne_eq]
  · have hmistakes : AxisHelper.squeeze.Mistakes a.shape axis ↔
        WrapsTwice axis a.shape.length ∧ a.shape[(axis+2*a.shape.length).toNat]? = some 1 := by
      simp only [AxisHelper.Mistakes, hlong, false_and, false_or, not_false_eq_true, true_and]
    rw [h.squeezeObeys_iff (not_tooLong.mp hlong), hmistakes, not_iff_not]
    constructor
    · rintro ⟨k, hk, hone, -⟩
      have hlt := (List.getElem?_eq_some_iff.mp hone).1
      refine ⟨wrapsTwice_iff.mpr ⟨k, hlt, hk⟩, ?_⟩
      rwa [← hk, Int.toNat_natCast]
    · rintro ⟨hwraps, hone⟩
      refine ⟨(axis+2*a.shape.length).toNat, Int.toNat_of_nonneg ?_, hone, hwraps.noAxis⟩
      unfold WrapsTwice at hwraps
      omega

theorem Sound.expand_validates (h : a.Sound) (axis : ℤ) :
    a.ExpandObeys axis ↔ ¬ AxisHelper.expandDims.Mistakes a.shape axis := by
  by_cases hlong : TooLong a.shape
  · rw [expandObeys_tooLong hlong]
    simp only [AxisHelper.Mistakes, hlong, true_and, not_not]
  · exact iff_of_true (h.expandObeys (not_tooLong.mp hlong) axis) fun hm => hlong hm.1

theorem Sound.flip_validates (h : a.Sound) (hndim : a.shape ≠ []) (axis : ℤ) :
    a.FlipObeys axis ↔ ¬ AxisHelper.flip.Mistakes a.shape axis := by
  by_cases hlong : TooLong a.shape
  · rw [h.flipObeys_tooLong hlong]
    simp only [AxisHelper.Mistakes, hlong, true_and, not_not]
  · exact iff_of_true (h.flipObeys hndim (not_tooLong.mp hlong) axis) fun hm => hlong hm.1

theorem Sound.diff_validates (h : a.Sound) (hndim : a.shape ≠ []) (hbool : a.dtype ≠ .bool) (axis : ℤ) :
    a.DiffObeys axis ↔ ¬ AxisHelper.diff.Mistakes a.shape axis := by
  by_cases hlong : TooLong a.shape
  · rw [h.diffObeys_tooLong hlong hbool]
    constructor
    · rintro ⟨hout, hno⟩ (⟨-, hin⟩ | ⟨hwraps, d, hd, hok⟩)
      · exact hin hout
      · have hpos : 0 ≤ axis+2*a.shape.length := by
          unfold WrapsTwice at hwraps
          omega
        exact hno _ d (Int.toNat_of_nonneg hpos) hd hok
    · intro hno
      have hout : NoAxis axis a.shape.length := by
        by_contra hin
        exact hno (.inl ⟨hlong, hin⟩)
      refine ⟨hout, fun k d hk hd hok => hno (.inr ⟨?_, d, ?_, hok⟩)⟩
      · exact wrapsTwice_iff.mpr ⟨k, (List.getElem?_eq_some_iff.mp hd).1, hk⟩
      · rwa [← hk, Int.toNat_natCast]
  · rw [h.diffObeys_iff hndim (not_tooLong.mp hlong) hbool, not_iff_not]
    simp only [AxisHelper.Mistakes, hlong, false_and, false_or]
    refine ⟨fun hwraps => ⟨hwraps, ?_⟩, fun hm => hm.1⟩
    obtain ⟨k, hlt, hk⟩ := wrapsTwice_iff.mp hwraps
    refine ⟨a.shape[k], ?_, .inl (not_tooLong.mp hlong _ (List.getElem_mem hlt))⟩
    rw [← hk, Int.toNat_natCast]
    exact List.getElem?_eq_getElem hlt

theorem Sound.obeys_iff (h : a.Sound) (hndim : a.shape ≠ []) (c : AxisHelper) (hbool : c = .diff → a.dtype ≠ .bool) (axis : ℤ) :
    c.Obeys a axis ↔ ¬ c.Mistakes a.shape axis := by
  cases c with
  | squeeze => exact h.squeeze_validates axis
  | expandDims => exact h.expand_validates axis
  | flip => exact h.flip_validates hndim axis
  | diff => exact h.diff_validates hndim (hbool rfl) axis

end PyArray

/-- The axis of a helper is validated exactly when it is not brought from outside the
range to an index from the end, and no axis is too long to be carried over. -/
theorem axis_helpers_validate_iff {a : PyArray} (h : Reached (fun a op => op.Exact a) a) (hndim : a.shape ≠ [])
    (c : AxisHelper) (hbool : c = .diff → a.dtype ≠ .bool) (axis : ℤ) : c.Obeys a axis ↔ ¬ c.Mistakes a.shape axis :=
  h.sound.obeys_iff hndim c hbool axis

theorem axis_helpers_validate_iff_grid : grid.DiffObeys (-1) ∧ ¬ grid.DiffObeys (-3) := by
  have hreached : Reached (fun a op => op.Exact a) grid := .owner grid_ownerWf
  have hiff (axis : ℤ) : AxisHelper.diff.Obeys grid axis ↔ ¬ AxisHelper.diff.Mistakes grid.shape axis :=
    axis_helpers_validate_iff hreached (by decide) .diff (fun _ => by decide) axis
  have hshort : ¬ TooLong grid.shape := not_tooLong.mpr (by decide)
  refine ⟨(hiff (-1)).mpr ?_, fun hobeys => (hiff (-3)).mp hobeys (.inr ?_)⟩
  · rintro (⟨hlong, -⟩ | ⟨hwraps, -⟩)
    · exact hshort hlong
    · exact absurd hwraps.2 (by decide)
  · exact ⟨⟨by decide, by decide⟩, 4, rfl, .inl (by decide)⟩

theorem zeroColumn_ndim : [2,1].length ≤ maxNdim := by decide

/-- `zeros((2, 1))`. -/
def zeroColumn : PyArray := ⟨.float64, ⟨[2,1], [8,8], zeroColumn_ndim, by decide⟩, 4096, 2, none, none⟩

/-- `squeeze(zeros((2, 1)), axis=-3)` does not raise. -/
theorem squeeze_accepts_axis :
    ¬ ∀ (a : PyArray) (c : AxisHelper) (axis : ℤ), Reached (fun a op => op.Exact a) a → a.shape ≠ [] →
      (c = .diff → a.dtype ≠ .bool) → c.Obeys a axis := by
  intro h
  have howner : zeroColumn.OwnerWf := ⟨rfl, rfl, rfl, by decide, by decide, by decide, by decide⟩
  have hshort : ¬ TooLong zeroColumn.shape := not_tooLong.mpr (by decide)
  have hobeys := h zeroColumn .squeeze (-3) (.owner howner) (by decide) nofun
  refine (howner.sound.obeys_iff (by decide) .squeeze nofun (-3)).mp hobeys (.inr ⟨hshort, ?_, ?_⟩)
  · exact ⟨by decide, by decide⟩
  · decide

end LightArray
