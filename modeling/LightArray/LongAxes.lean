import LightArray.AxisSlices

namespace LightArray
open MachineWord RowMajor

/-- A length that is no `isize`. -/
def TooLong (shape : List ℕ) : Prop := ∃ d ∈ shape, isizeMax < d

theorem TooLong.exists_axis {shape : List ℕ} (h : TooLong shape) : ∃ i e : ℕ, shape[i]? = some e ∧ isizeMax < e := by
  obtain ⟨e, he, hgt⟩ := h
  obtain ⟨i, hi⟩ := List.mem_iff_getElem?.mp he
  exact ⟨i, e, hi, hgt⟩

theorem TooLong.ne_nil {shape : List ℕ} (h : TooLong shape) : shape ≠ [] := by
  obtain ⟨e, he, -⟩ := h
  exact List.ne_nil_of_mem he

theorem not_tooLong {shape : List ℕ} : ¬ TooLong shape ↔ ∀ d ∈ shape, d ≤ isizeMax := by
  unfold TooLong
  push Not
  rfl

/-- How many elements a slice takes of an axis. -/
def PySlice.count (s : PySlice) (len : ℕ) : ℕ :=
  sliceCount (s.indices len).1 (s.indices len).2.1 (s.indices len).2.2

section counts

variable {len : ℕ}

/-- A slice by one that is resolved takes the elements between its bounds. -/
theorem sliceCount_up (start stop : ℤ) : sliceCount start stop 1 = (stop-start).toNat := by
  rw [sliceCount, if_pos one_pos, Int.tdiv_one]
  split <;> omega

theorem sliceCount_down (start stop : ℤ) : sliceCount start stop (-1) = (start-stop).toNat := by
  rw [sliceCount, if_neg (by decide), neg_neg, Int.tdiv_one]
  split <;> omega

theorem count_all (h : len ≤ isizeMax) : PySlice.all.count len = len := by
  simp only [PySlice.count, indices_all h, sliceCount_up]
  omega

theorem count_reversed (h : len ≤ isizeMax) : PySlice.reversed.count len = len := by
  simp only [PySlice.count, indices_reversed h, sliceCount_down]
  omega

theorem count_fromOne (h : len ≤ isizeMax) : PySlice.fromOne.count len = len-1 := by
  simp only [PySlice.count, indices_fromOne h, sliceCount_up]
  omega

theorem count_beforeLast (h : len ≤ isizeMax) : PySlice.beforeLast.count len = len-1 := by
  simp only [PySlice.count, indices_beforeLast h, sliceCount_up]
  omega

section long

variable (h : isizeMax < len) (hlen : len < wordModulus)
include h hlen

/-- A bound of no sign is past the end of an axis of negative length. -/
theorem adjustBound_long {step v : ℤ} (hv : 0 ≤ v) :
    adjustBound (asIsize len) step v = if step < 0 then wrapIsize ((len : ℤ)-2^64-1) else (len : ℤ)-2^64 := by
  have hlong : asIsize len = (len : ℤ)-2^64 := asIsize_of_gt h hlen
  rw [wordModulus_eq] at hlen
  rw [adjustBound, if_neg (not_lt.mpr hv), hlong, if_pos (by omega)]

theorem count_all_long : PySlice.all.count len = 0 := by
  simp only [PySlice.count, PySlice.indices, PySlice.all, Option.getD_none]
  rw [adjustBound_long h hlen (by decide), adjustBound_long h hlen (by decide)]
  simp [sliceCount_up]

theorem count_fromOne_long : PySlice.fromOne.count len = 0 := by
  simp only [PySlice.count, PySlice.indices, PySlice.fromOne, Option.getD_none, Option.getD_some]
  rw [adjustBound_long h hlen (by decide), adjustBound_long h hlen (by decide)]
  simp [sliceCount_up]

/-- The stop of -1 is counted from the negative length, and wraps for 2^63. -/
theorem count_beforeLast_long : PySlice.beforeLast.count len = if len = 2^63 then 2^64-1 else 2^64-len := by
  have hlong : asIsize len = (len : ℤ)-2^64 := asIsize_of_gt h hlen
  simp only [PySlice.count, PySlice.indices, PySlice.beforeLast, Option.getD_none, Option.getD_some]
  rw [adjustBound_long h hlen (by decide), if_neg (by decide), sliceCount_up, adjustBound, if_pos (by decide), hlong]
  rw [isizeMax_eq] at h
  rw [wordModulus_eq] at hlen
  by_cases he : len = 2^63
  · have hwrap : wrapIsize (-1+((len : ℤ)-2^64)) = -1+((len : ℤ)-2^64)+2^64*1 :=
      wrapIsize_eq_of_range (by omega) (by omega)
    simp only [hwrap, if_pos he]
    rw [if_neg (by omega)]
    omega
  · have hwrap : wrapIsize (-1+((len : ℤ)-2^64)) = -1+((len : ℤ)-2^64) :=
      wrapIsize_of_range (by omega) (by omega)
    simp only [hwrap, if_neg he]
    rw [if_pos (by omega), if_neg (by decide)]
    omega

/-- Both ends of the reversed axis wrap. -/
theorem count_reversed_long : PySlice.reversed.count len ≤ isizeMax := by
  have hlong : asIsize len = (len : ℤ)-2^64 := asIsize_of_gt h hlen
  have hindices : PySlice.reversed.indices len =
      (adjustBound (asIsize len) (-1) isizeMax, adjustBound (asIsize len) (-1) (-(2^63)), -1) := rfl
  have hstart : adjustBound (asIsize len) (-1) isizeMax = wrapIsize ((len : ℤ)-2^64-1) :=
    (adjustBound_long h hlen (by decide)).trans (if_pos (by decide))
  have hstop : adjustBound (asIsize len) (-1) (-(2^63)) = (len : ℤ)-2^63 := by
    rw [isizeMax_eq] at h
    rw [wordModulus_eq] at hlen
    have hwrap : wrapIsize (-(2^63)+((len : ℤ)-2^64)) = -(2^63)+((len : ℤ)-2^64)+2^64*1 :=
      wrapIsize_eq_of_range (by omega) (by omega)
    rw [adjustBound, if_pos (by decide), hlong]
    simp only [hwrap]
    rw [if_neg (by omega)]
    ring
  have hlt := (wrapIsize_range ((len : ℤ)-2^64-1)).2
  simp only [PySlice.count, hindices, hstop, hstart, sliceCount_down]
  rw [isizeMax_eq] at h ⊢
  omega

end long

/-- A slice of everything never takes an axis that is too long. -/
theorem count_all_le (hlen : len < wordModulus) : PySlice.all.count len ≤ isizeMax := by
  rcases le_or_gt len isizeMax with h | h
  · rwa [count_all h]
  · rw [count_all_long h hlen]
    exact Nat.zero_le _

theorem count_reversed_le (hlen : len < wordModulus) : PySlice.reversed.count len ≤ isizeMax := by
  rcases le_or_gt len isizeMax with h | h
  · rwa [count_reversed h]
  · exact count_reversed_long h hlen

theorem count_fromOne_le (hlen : len < wordModulus) : PySlice.fromOne.count len ≤ isizeMax := by
  rcases le_or_gt len isizeMax with h | h
  · rw [count_fromOne h]
    omega
  · rw [count_fromOne_long h hlen]
    exact Nat.zero_le _

theorem count_beforeLast_lt (hlen : len < wordModulus) : PySlice.beforeLast.count len < wordModulus := by
  rcases le_or_gt len isizeMax with h | h
  · rw [count_beforeLast h]
    omega
  · rw [count_beforeLast_long h hlen]
    rw [isizeMax_eq] at h
    rw [wordModulus_eq] at hlen ⊢
    split <;> omega

/-- What `a[1:]` and `a[:-1]` take of an axis broadcasts: the two are equally long, or the
axis is so long that the second wraps to one element. -/
def SlicesBroadcast (len : ℕ) : Prop := len ≤ isizeMax ∨ len+1 = wordModulus

theorem slicesBroadcast_iff {len : ℕ} (hlen : len < wordModulus) : SlicesBroadcast len ↔
    PySlice.fromOne.count len = PySlice.beforeLast.count len ∨ PySlice.fromOne.count len = 1 ∨
      PySlice.beforeLast.count len = 1 := by
  unfold SlicesBroadcast
  rcases le_or_gt len isizeMax with h | h
  · rw [count_fromOne h, count_beforeLast h]
    exact iff_of_true (.inl h) (.inl rfl)
  · rw [count_fromOne_long h hlen, count_beforeLast_long h hlen]
    rw [isizeMax_eq] at h ⊢
    rw [wordModulus_eq] at hlen ⊢
    split <;> omega

theorem SlicesBroadcast.beforeLast_le {len : ℕ} (h : SlicesBroadcast len) (hlen : len < wordModulus) :
    PySlice.beforeLast.count len ≤ isizeMax := by
  rcases le_or_gt len isizeMax with hle | hgt
  · rw [count_beforeLast hle]
    omega
  · rw [count_beforeLast_long hgt hlen]
    have hlast := h.resolve_left (not_le.mpr hgt)
    rw [isizeMax_eq] at hgt ⊢
    rw [wordModulus_eq] at hlast
    split <;> omega

end counts

section plans

variable {key : List PySlice} {shape : List ℕ} {sels : List Selector} {plan : List PlanAxis}

/-- The plan of a key of slices takes what the slices count. -/
theorem planLoop_slices (axis : ℕ) (h : key.length = shape.length) :
    ∃ plan, planLoop axis shape (selectors (List.zipWith PySlice.item key shape)) =
        .ok (plan, List.zipWith PySlice.count key shape) ∧
      plan.map PlanAxis.count = List.zipWith PySlice.count key shape := by
  induction shape generalizing axis key with
  | nil => exact ⟨[], by rw [List.length_eq_zero_iff.mp h]; rfl, by rw [List.zipWith_nil_right]; rfl⟩
  | cons d shape ih =>
    cases key with
    | nil => cases h
    | cons s key =>
      obtain ⟨plan, hplan, hcount⟩ := ih (axis+1) (Nat.succ.inj h)
      refine ⟨⟨asUsize (s.indices d).1, (s.indices d).2.2, s.count d⟩ :: plan, ?_, ?_⟩
      · rw [List.zipWith_cons_cons, PySlice.item, selectors, planLoop, hplan]
        rfl
      · rw [List.map_cons, hcount, List.zipWith_cons_cons]

/-- Without an integer the layout keeps every axis of the plan. -/
theorem selectLoop_shape {strides : List ℤ} (ptr : ℕ) (hlen : strides.length = plan.length)
    (h : ∀ i, Selector.int i ∉ sels) : (Layout.selectLoop ptr plan strides sels).shape = plan.map PlanAxis.count := by
  induction plan generalizing ptr strides sels with
  | nil =>
    rw [List.length_eq_zero_iff.mp hlen]
    rfl
  | cons p plan ih =>
    cases strides with
    | nil => cases hlen
    | cons stride strides =>
      have hrest (ptr' : ℕ) : (Layout.selectLoop ptr' plan strides sels.tail).shape = plan.map PlanAxis.count :=
        ih ptr' (Nat.succ.inj hlen) fun i hi => h i (List.mem_of_mem_tail hi)
      cases sels with
      | nil =>
        rw [List.map_cons, ← hrest (if 0 < p.count then wrappingOffset ptr (wrapIsize (asIsize p.start*stride)) else ptr)]
        rfl
      | cons sel sels =>
        cases sel with
        | int i => exact absurd List.mem_cons_self (h i)
        | slice start stop step =>
          rw [List.map_cons, ← hrest (if 0 < p.count then wrappingOffset ptr (wrapIsize (asIsize p.start*stride)) else ptr)]
          rfl

/-- A slice of one axis, everything of the others. -/
theorem getElem?_axisCounts {k i e : ℕ} (sl : PySlice) (h : shape[i]? = some e) :
    (List.zipWith PySlice.count (axisKey shape.length k sl) shape)[i]? =
      some (if i = k then sl.count e else PySlice.all.count e) := by
  have hi := (List.getElem?_eq_some_iff.mp h).1
  have hkey : (axisKey shape.length k sl)[i]? = some (if i = k then sl else .all) := by
    rw [axisKey, List.getElem?_set, List.getElem?_replicate_of_lt hi, List.length_replicate]
    by_cases hik : i = k
    · rw [if_pos hik.symm, if_pos (hik ▸ hi), if_pos hik]
    · rw [if_neg (Ne.symm hik), if_neg hik]
  rw [List.getElem?_zipWith, hkey, h]
  by_cases hik : i = k
  · simp only [if_pos hik]
  · simp only [if_neg hik]

end plans

namespace PyArray

variable {T : Type} {a b : PyArray} {alloc k : ℕ} {key : List PySlice} {sl : PySlice}

/-- Too long an axis is one of an array without elements. -/
theorem Sound.prod_eq_zero (h : a.Sound) (hlong : TooLong a.shape) : a.shape.prod = 0 := by
  obtain ⟨d, hd, hgt⟩ := hlong
  by_contra hne
  have hle : d ≤ a.shape.prod := Nat.le_of_dvd (Nat.pos_of_ne_zero hne) (List.dvd_prod hd)
  have hfit : a.shape.prod ≤ a.itemsize*a.shape.prod := Nat.le_mul_of_pos_left _ a.dtype.itemsize_pos
  have hfits := h.fits
  omega

/-- A plan that takes nothing of some axis is carried out: there is no window to share. -/
theorem Sound.selectResult_nothing (h : a.Sound) (alloc : ℕ) {sels : List Selector} {plan : List PlanAxis} {out : List ℕ}
    (hslices : ∀ i, Selector.int i ∉ sels) (hplan : a.dims.selectionPlan sels = .ok (plan,out))
    (hcount : plan.map PlanAxis.count = out) (hlen : out.length = a.shape.length) (hzero : 0 ∈ out) :
    ∃ b, a.selectResult alloc sels [] = .ok b ∧ b.dtype = a.dtype ∧ b.shape = out := by
  have hprod : wrapProduct out = 0 := wrapProduct_zero (List.prod_eq_zero hzero)
  have hndim : out.length ≤ maxNdim := hlen.trans_le a.dims.ndim_le
  have hplanlen : plan.length = a.shape.length := by rw [← hlen, ← hcount, List.length_map]
  have hstrided : ∃ b, a.selectStrided alloc plan sels [] = .ok b ∧ b.dtype = a.dtype ∧ b.shape = out := by
    have hstrides : a.layoutOf.strides.length = plan.length := by
      rw [hplanlen, ← a.layout_shape]
      exact h.wf.strides_length
    have hshape : (a.layoutOf.select plan sels).shape = out := by
      rw [Layout.select, selectLoop_shape a.layoutOf.ptr hstrides hslices, hcount]
    obtain ⟨d, hd⟩ : ∃ d : Dims a.dtype.itemsize, Dims.allocated out a.dtype.itemsize = .ok d :=
      Dims.allocated_iff.mpr ⟨hndim, by rw [hprod, zero_mul]; exact Nat.zero_le _⟩
    refine ⟨⟨a.dtype, d, alloc, d.size, none, none⟩, ?_, rfl, ?_⟩
    · show a.viewFromLayout alloc (a.layoutOf.select plan sels) = _
      rw [viewFromLayout, hshape, if_pos hprod, zerosLike, filled, hd]
      rfl
    · exact (Dims.allocated_ok hd).1
  cases hs : a.strided with
  | some v =>
    simp only [selectResult, hplan, hs, bind, Except.bind]
    exact hstrided
  | none =>
    cases hloop : a.dims.planOutcome plan with
    | empty =>
      obtain ⟨d, hd⟩ : ∃ d : Dims a.dtype.itemsize, Dims.checked out a.dtype.itemsize 0 = .ok d :=
        Dims.checked_iff.mpr ⟨hndim, hprod⟩
      refine ⟨⟨a.dtype, d, alloc, 0, none, none⟩, ?_, rfl, (Dims.checked_ok hd).1⟩
      simp only [selectResult, planView, hplan, hs, hloop, hd, bind, Except.bind]
      rfl
    | strided =>
      simp only [selectResult, planView, hplan, hs, hloop, bind, Except.bind]
      exact hstrided
    | window offset =>
      obtain ⟨p, hp, he⟩ := List.mem_map.mp (hcount ▸ hzero)
      have hstrides : a.dims.elemStrides.length = a.dims.shape.length := by
        rw [Dims.elemStrides, List.length_map, a.dims.length_strides]
      exact absurd he (planViewLoop_count_ne_zero hplanlen hstrides hloop p hp)

/-- Slices that take nothing of some axis give a new array of the lengths they count. -/
theorem Sound.getSlices_nothing (h : a.Sound) (mem : ℕ → T) (halloc : alloc < wordModulus) (hne : a.shape ≠ [])
    (hkey : key.length = a.shape.length) (hwords : ∀ e ∈ List.zipWith PySlice.count key a.shape, e < wordModulus)
    (hzero : 0 ∈ List.zipWith PySlice.count key a.shape) :
    ∃ b, a.getSlices mem alloc key = .ok (.array b) ∧ b.Sound ∧ b.dtype = a.dtype ∧
      b.shape = List.zipWith PySlice.count key a.shape := by
  obtain ⟨plan, hloop, hcount⟩ := planLoop_slices 0 hkey
  have hsels := selectors_slices key a.shape
  have hle : (selectors (List.zipWith PySlice.item key a.shape)).length ≤ a.dims.ndim := length_selectors_slices key a.shape
  have hplan : a.dims.selectionPlan (selectors (List.zipWith PySlice.item key a.shape)) =
      .ok (plan, List.zipWith PySlice.count key a.shape) := (if_neg (not_lt.mpr hle)).trans hloop
  have hlen : (List.zipWith PySlice.count key a.shape).length = a.shape.length := by
    rw [List.length_zipWith, hkey, min_self]
  obtain ⟨b, hb, hdtype, hshape⟩ := h.selectResult_nothing alloc hsels hplan hcount hlen hzero
  refine ⟨b, ?_, ?_, hdtype, hshape⟩
  · have hkeyne : key ≠ [] := by
      rintro rfl
      exact hne (List.length_eq_zero_iff.mp hkey.symm)
    have hcheck : checkKey a.dims.ndim 0 (List.zipWith PySlice.item key a.shape) = .ok () :=
      checkKey_slices (by rw [zero_add]; exact le_rfl)
    rw [getSlices, getItem, hcheck]
    simp only [onlyInts_slices hkeyne hne, newAxes_slices, hb, bind, Except.bind]
  · apply (h.stored.selectResult halloc hb).sound
    · rwa [hshape]
    · rw [hshape, List.prod_eq_zero hzero, mul_zero]
      exact Nat.zero_le _

/-- `b` has as many of each axis as the slice of axis `k` and slices of everything count. -/
def Takes (a b : PyArray) (k : ℕ) (sl : PySlice) : Prop :=
  b.shape.length = a.shape.length ∧ ∀ i e, a.shape[i]? = some e →
    b.shape[i]? = some (if i = k then sl.count e else PySlice.all.count e)

/-- A slice of one axis of an array that has one too long. -/
theorem Sound.getSlices_long (h : a.Sound) (hlong : TooLong a.shape) (mem : ℕ → T) (halloc : alloc < wordModulus) (k : ℕ)
    (hsl : ∀ e < wordModulus, sl.count e < wordModulus) :
    ∃ b, a.getSlices mem alloc (axisKey a.shape.length k sl) = .ok (.array b) ∧ b.Sound ∧ b.dtype = a.dtype ∧
      a.Takes b k sl := by
  have hkey : (axisKey a.shape.length k sl).length = a.shape.length := by
    rw [axisKey, List.length_set, List.length_replicate]
  have hlen : (List.zipWith PySlice.count (axisKey a.shape.length k sl) a.shape).length = a.shape.length := by
    rw [List.length_zipWith, hkey, min_self]
  have hget (i e : ℕ) (he : a.shape[i]? = some e) := getElem?_axisCounts (k := k) sl he
  have hzero : 0 ∈ List.zipWith PySlice.count (axisKey a.shape.length k sl) a.shape := by
    have hother (i e : ℕ) (he : a.shape[i]? = some e) (hik : i ≠ k) (hcount : PySlice.all.count e = 0) :
        0 ∈ List.zipWith PySlice.count (axisKey a.shape.length k sl) a.shape := by
      have hi := hget i e he
      rw [if_neg hik, hcount] at hi
      exact List.mem_of_getElem? hi
    obtain ⟨i, d, hi, hgt⟩ := hlong.exists_axis
    obtain ⟨j, hj⟩ := List.mem_iff_getElem?.mp (List.prod_eq_zero_iff.mp (h.prod_eq_zero hlong))
    by_cases hik : i = k
    · refine hother j 0 hj ?_ (count_all (Nat.zero_le _))
      rintro rfl
      rw [← hik, hi] at hj
      cases hj
      exact absurd hgt (Nat.not_lt_zero _)
    · exact hother i d hi hik (count_all_long hgt (h.usize d (List.mem_of_getElem? hi)))
  have hwords : ∀ e ∈ List.zipWith PySlice.count (axisKey a.shape.length k sl) a.shape, e < wordModulus := by
    intro e he
    obtain ⟨i, hi⟩ := List.mem_iff_getElem?.mp he
    have hlt := (List.getElem?_eq_some_iff.mp hi).1
    rw [hlen] at hlt
    have hd := h.usize _ (List.getElem_mem hlt)
    rw [hget i _ (List.getElem?_eq_getElem hlt)] at hi
    cases hi
    split
    · exact hsl _ hd
    · exact (count_all_le hd).trans_lt (by decide)
  obtain ⟨b, hb, hsound, hdtype, hshape⟩ := h.getSlices_nothing mem halloc hlong.ne_nil hkey hwords hzero
  refine ⟨b, hb, hsound, hdtype, by rw [hshape, hlen], fun i e he => ?_⟩
  rw [hshape, hget i e he]

/-- No axis of the result is longer than the slices count. -/
theorem Takes.le {n : ℕ} (h : a.Takes b k sl) (hsl : ∀ e, a.shape[k]? = some e → sl.count e ≤ n)
    (hall : ∀ e ∈ a.shape, PySlice.all.count e ≤ n) : ∀ d ∈ b.shape, d ≤ n := by
  intro d hd
  obtain ⟨i, hi, rfl⟩ := List.mem_iff_getElem.mp hd
  have hi' : i < a.shape.length := h.1 ▸ hi
  have hget := h.2 i _ (List.getElem?_eq_getElem hi')
  rw [List.getElem?_eq_getElem hi] at hget
  rw [Option.some.inj hget]
  split
  · rename_i hik
    subst hik
    exact hsl _ (List.getElem?_eq_getElem hi')
  · exact hall _ (List.getElem_mem hi')

end PyArray

end LightArray
