import LightArray.Contents
import LightArray.SelectionAgreement
import LightArray.ViewRun

namespace LightArray
open MachineWord RowMajor

/-- `slice(start, stop, step)` with bounds that are `isize`s. -/
structure PySlice where
  start : Option ℤ
  stop : Option ℤ
  step : Option ℤ

/-- A bound of a slice, brought into an axis of `length`. -/
def adjustBound (length step v : ℤ) : ℤ :=
  if v < 0 then
    let v := wrapIsize (v+length)
    if v < 0 then if step < 0 then -1 else 0 else v
  else if length ≤ v then if step < 0 then wrapIsize (length-1) else length
  else v

namespace PySlice

/-- `slice.indices(len as isize)` for a step other than 0. -/
def indices (s : PySlice) (len : ℕ) : ℤ × ℤ × ℤ :=
  let length := asIsize len
  let step := s.step.getD 1
  let start := s.start.getD (if step < 0 then (isizeMax : ℤ) else 0)
  let stop := s.stop.getD (if step < 0 then -(2^63) else (isizeMax : ℤ))
  (adjustBound length step start, adjustBound length step stop, step)

def item (s : PySlice) (len : ℕ) : Item := .slice (s.indices len).1 (s.indices len).2.1 (s.indices len).2.2

/-- `slice(None)`. -/
def all : PySlice := ⟨none, none, none⟩

/-- `slice(None, None, -1)`. -/
def reversed : PySlice := ⟨none, none, some (-1)⟩

/-- `slice(1, None)`. -/
def fromOne : PySlice := ⟨some 1, none, none⟩

/-- `slice(None, -1)`. -/
def beforeLast : PySlice := ⟨none, some (-1), none⟩

end PySlice

/-- `a[key]` for a tuple of slices, one for each axis. -/
def PyArray.getSlices {T : Type} (mem : ℕ → T) (alloc : ℕ) (a : PyArray) (key : List PySlice) :
    Except Failure (Value T) :=
  a.getItem mem alloc (List.zipWith PySlice.item key a.shape)

/-- Whole slices but for the axis `k`. -/
def axisKey (ndim k : ℕ) (s : PySlice) : List PySlice := (List.replicate ndim PySlice.all).set k s

section indices

variable {len : ℕ}

/-- On an axis Python can index the bounds do not wrap. -/
theorem adjustBound_eq {step v : ℤ} (hlen : len ≤ isizeMax) (hv : -(2^63) ≤ v ∧ v < 2^63) :
    adjustBound (asIsize len) step v =
      if v < 0 then if v+len < 0 then if step < 0 then -1 else 0 else v+len
      else if len ≤ v then if step < 0 then (len : ℤ)-1 else len else v := by
  have hle := isizeMax_eq ▸ hlen
  have hlow : v < 0 → wrapIsize (v+len) = v+len := fun h => wrapIsize_of_range (by omega) (by omega)
  have hend : wrapIsize ((len : ℤ)-1) = (len : ℤ)-1 := wrapIsize_of_range (by omega) (by omega)
  rw [adjustBound, asIsize_of_le hlen, hend]
  split
  · rename_i hneg
    simp only [hlow hneg]
  · rfl

theorem indices_all (h : len ≤ isizeMax) : PySlice.all.indices len = (0, (len : ℤ), 1) := by
  have hle := isizeMax_eq ▸ h
  simp only [PySlice.indices, PySlice.all, Option.getD_none, isizeMax_eq]
  rw [adjustBound_eq h (by omega), adjustBound_eq h (by omega)]
  norm_num
  omega

theorem indices_reversed (h : len ≤ isizeMax) : PySlice.reversed.indices len = ((len : ℤ)-1, -1, -1) := by
  have hle := isizeMax_eq ▸ h
  simp only [PySlice.indices, PySlice.reversed, Option.getD_none, Option.getD_some, isizeMax_eq]
  rw [adjustBound_eq h (by omega), adjustBound_eq h (by omega)]
  norm_num
  omega

theorem indices_fromOne (h : len ≤ isizeMax) : PySlice.fromOne.indices len = (min 1 (len : ℤ), (len : ℤ), 1) := by
  have hle := isizeMax_eq ▸ h
  simp only [PySlice.indices, PySlice.fromOne, Option.getD_none, Option.getD_some, isizeMax_eq]
  rw [adjustBound_eq h (by omega), adjustBound_eq h (by omega)]
  norm_num
  omega

theorem indices_beforeLast (h : len ≤ isizeMax) : PySlice.beforeLast.indices len = (0, ((len-1 : ℕ) : ℤ), 1) := by
  have hle := isizeMax_eq ▸ h
  simp only [PySlice.indices, PySlice.beforeLast, Option.getD_none, Option.getD_some]
  rw [adjustBound_eq h (by omega), adjustBound_eq h (by omega)]
  norm_num
  omega

end indices

section keys

variable {shape : List ℕ} {key : List PySlice} {sels : List Selector}

theorem selectors_slices (key : List PySlice) (shape : List ℕ) :
    ∀ i, Selector.int i ∉ selectors (List.zipWith PySlice.item key shape) := by
  induction key generalizing shape with
  | nil => simp [selectors]
  | cons s key ih =>
    cases shape with
    | nil => simp [selectors]
    | cons d shape =>
      intro i hi
      rw [List.zipWith_cons_cons, PySlice.item, selectors, List.mem_cons] at hi
      rcases hi with hi | hi
      · cases hi
      · exact ih shape i hi

theorem newAxes_slices (out : ℕ) (key : List PySlice) (shape : List ℕ) :
    newAxes out (List.zipWith PySlice.item key shape) = [] := by
  induction key generalizing out shape with
  | nil => simp [newAxes]
  | cons s key ih =>
    cases shape with
    | nil => simp [newAxes]
    | cons d shape => exact ih (out+1) shape

theorem length_selectors_slices (key : List PySlice) (shape : List ℕ) :
    (selectors (List.zipWith PySlice.item key shape)).length ≤ shape.length := by
  induction key generalizing shape with
  | nil => simp [selectors]
  | cons s key ih =>
    cases shape with
    | nil => simp [selectors]
    | cons d shape => exact Nat.succ_le_succ (ih shape)

theorem onlyInts_slices (hkey : key ≠ []) (hshape : shape ≠ []) :
    onlyInts (List.zipWith PySlice.item key shape) = none := by
  cases key with
  | nil => exact absurd rfl hkey
  | cons s key =>
    cases shape with
    | nil => exact absurd rfl hshape
    | cons d shape => rfl

theorem checkKey_slices {ndim axis : ℕ} {key : List PySlice} {shape : List ℕ} (h : axis+shape.length ≤ ndim) :
    checkKey ndim axis (List.zipWith PySlice.item key shape) = .ok () := by
  induction key generalizing axis shape with
  | nil => simp [checkKey]
  | cons s key ih =>
    cases shape with
    | nil => simp [checkKey]
    | cons d shape =>
      rw [List.length_cons] at h
      rw [List.zipWith_cons_cons, PySlice.item, checkKey, if_pos (by omega)]
      exact ih (by omega)

theorem not_someInt {P : ℕ → ℤ → Prop} (h : ∀ i, Selector.int i ∉ sels) : ¬ SomeInt P shape sels := by
  rintro ⟨i, len, hmem, -⟩
  exact h i (List.of_mem_zip hmem).1

theorem rangeLength_up (start stop : ℕ) : rangeLength start stop 1 = stop-start := by
  rw [rangeLength, if_pos one_pos]
  omega

theorem resolved_up {start stop len : ℕ} (hstart : start ≤ len) (hstop : stop ≤ len) : ResolvedSlice len start stop 1 :=
  .inl (by omega)

theorem zipWith_axisKey (s : List ℕ) (d : ℕ) (u : List ℕ) (sl : PySlice) :
    List.zipWith PySlice.item (axisKey (s ++ d :: u).length s.length sl) (s ++ d :: u) =
      s.map PySlice.all.item ++ sl.item d :: u.map PySlice.all.item := by
  have hall (v : List ℕ) : List.zipWith PySlice.item (List.replicate v.length .all) v = v.map PySlice.all.item := by
    induction v with
    | nil => rfl
    | cons e v ih => rw [List.length_cons, List.replicate_succ, List.zipWith_cons_cons, ih, List.map_cons]
  induction s with
  | nil =>
    rw [List.nil_append, List.length_nil, axisKey, List.length_cons, List.replicate_succ, List.set_cons_zero,
      List.zipWith_cons_cons, hall]
    rfl
  | cons e s ih =>
    rw [axisKey] at ih ⊢
    rw [List.cons_append, List.length_cons, List.length_cons, List.replicate_succ, List.set_cons_succ,
      List.zipWith_cons_cons, ih]
    rfl

theorem resolvedSelectors_axis {s u : List ℕ} {d : ℕ} {start stop step : ℤ} (hdims : ∀ e ∈ s ++ d :: u, e ≤ isizeMax)
    (hres : ResolvedSlice d start stop step) :
    ResolvedSelectors (selectors (s.map PySlice.all.item ++ .slice start stop step :: u.map PySlice.all.item)) (s ++ d :: u) := by
  have hall (v : List ℕ) (hv : ∀ e ∈ v, e ≤ isizeMax) : ResolvedSelectors (selectors (v.map PySlice.all.item)) v := by
    induction v with
    | nil => trivial
    | cons e v ih =>
      obtain ⟨he, hv'⟩ := List.forall_mem_cons.mp hv
      have hind := indices_all he
      refine ⟨?_, ih hv'⟩
      rw [hind]
      exact resolved_up (Nat.zero_le e) le_rfl
  induction s with
  | nil => exact ⟨hres, hall u fun e he => hdims e (List.mem_cons_of_mem _ he)⟩
  | cons e s ih =>
    obtain ⟨he, hs⟩ := List.forall_mem_cons.mp hdims
    refine ⟨?_, ih hs⟩
    rw [indices_all he]
    exact resolved_up (Nat.zero_le e) le_rfl

/-- A slice of everything keeps its axis. -/
theorem numpyIndex_all_cons {key : List Item} {shape : List ℕ} {e : ℕ} (he : e ≤ isizeMax) {n : IndexMap}
    (hn : numpyIndex key shape = some n) : ∃ n', numpyIndex (PySlice.all.item e :: key) (e :: shape) = some n' ∧
      n'.shape = e :: n.shape ∧ ∀ x idx, n'.map (x :: idx) = x :: n.map idx := by
  have hitem : PySlice.all.item e = .slice 0 e 1 := by
    rw [PySlice.item, indices_all he]
  refine ⟨⟨e :: n.shape, fun idx => idx.headD 0 :: n.map idx.tail⟩, ?_, rfl, fun x idx => rfl⟩
  rw [hitem, numpyIndex, hn]
  have hlen := rangeLength_up 0 e
  simp only [Nat.cast_zero, Nat.sub_zero] at hlen
  simp only [Option.map_some, hlen, zero_add, one_mul, Int.toNat_natCast]

theorem numpyIndex_all {v : List ℕ} (hv : ∀ e ∈ v, e ≤ isizeMax) :
    ∃ n, numpyIndex (v.map PySlice.all.item) v = some n ∧ n.shape = v ∧ ∀ j, j.length = v.length → n.map j = j := by
  induction v with
  | nil => exact ⟨.refl [], rfl, rfl, fun _ _ => rfl⟩
  | cons e v ih =>
    obtain ⟨he, hv'⟩ := List.forall_mem_cons.mp hv
    obtain ⟨n, hn, hshape, hmap⟩ := ih hv'
    obtain ⟨n', hn', hshape', hmap'⟩ := numpyIndex_all_cons he hn
    refine ⟨n', hn', by rw [hshape', hshape], fun j hj => ?_⟩
    cases j with
    | nil => cases hj
    | cons x j => rw [hmap', hmap j (Nat.succ.inj hj)]

/-- One axis is sliced, the others are kept. -/
theorem numpyIndex_axis {s u : List ℕ} {d : ℕ} (start stop step : ℤ) (hdims : ∀ e ∈ s ++ d :: u, e ≤ isizeMax) :
    ∃ n, numpyIndex (s.map PySlice.all.item ++ .slice start stop step :: u.map PySlice.all.item) (s ++ d :: u) = some n ∧
      n.shape = s ++ rangeLength start stop step :: u ∧
        ∀ (i : List ℕ) (x : ℕ) (j : List ℕ), i.length = s.length → j.length = u.length → n.map (i ++ x :: j) = i ++ (start+step*x).toNat :: j := by
  induction s with
  | nil =>
    obtain ⟨n, hn, hshape, hmap⟩ := numpyIndex_all fun e he => hdims e (List.mem_cons_of_mem _ he)
    refine ⟨⟨rangeLength start stop step :: n.shape, fun idx => (start+step*idx.headD 0).toNat :: n.map idx.tail⟩, ?_, ?_, ?_⟩
    · rw [List.map_nil, List.nil_append, List.nil_append, numpyIndex, hn]
      rfl
    · rw [hshape]
      rfl
    · intro i x j hi hj
      rw [List.length_eq_zero_iff.mp hi]
      show _ :: n.map j = _
      rw [hmap j hj]
      rfl
  | cons e s ih =>
    obtain ⟨he, hs⟩ := List.forall_mem_cons.mp hdims
    obtain ⟨n, hn, hshape, hmap⟩ := ih hs
    obtain ⟨n', hn', hshape', hmap'⟩ := numpyIndex_all_cons he hn
    refine ⟨n', hn', by rw [hshape', hshape]; rfl, fun i x j hi hj => ?_⟩
    cases i with
    | nil => cases hi
    | cons y i =>
      rw [List.cons_append, hmap', hmap i x j (Nat.succ.inj hi) hj]
      rfl

end keys

namespace PyArray

variable {T : Type} {a b : PyArray} {mem : ℕ → T} {alloc : ℕ} {sels : List Selector} {plan : List PlanAxis} {n : IndexMap}

theorem exists_viewFromLayout (a : PyArray) (alloc : ℕ) {l : Layout} (hlen : l.shape.length ≤ maxNdim)
    (hfits : wrapProduct l.shape*a.itemsize ≤ isizeMax) : ∃ b, a.viewFromLayout alloc l = .ok b := by
  obtain ⟨d, hd⟩ : ∃ d : Dims a.dtype.itemsize, Dims.allocated l.shape a.dtype.itemsize = .ok d :=
    Dims.allocated_iff.mpr ⟨hlen, hfits⟩
  have hzeros : zerosLike alloc a.dtype l.shape = .ok ⟨a.dtype, d, alloc, d.size, none, none⟩ := by
    rw [zerosLike, filled, hd]
    rfl
  unfold viewFromLayout
  split
  · exact ⟨_, hzeros⟩
  · split
    · obtain ⟨d', hd', -⟩ := Dims.withItemsize_of_le a.dtype.itemsize hlen
      refine ⟨⟨a.dtype, d', l.ptr, d'.size, some a.baseOf, none⟩, ?_⟩
      rw [rawViewLike, hd']
      rfl
    · rw [hzeros]
      exact ⟨_, rfl⟩

/-- The contiguous window of a plan is inside the buffer. -/
theorem Sound.exists_planView (h : a.Sound) (hn : PlanOf sels a.shape plan n) (alloc : ℕ) :
    ∃ r, planView alloc a plan n.shape = .ok r := by
  have hlen : n.shape.length ≤ maxNdim := hn.length_shape_le.trans a.dims.ndim_le
  have hcounted : (⟨a.dims, a.data id⟩ : NdArray a.dtype ℕ).Counted := by
    refine ⟨(a.length_data id).trans h.len, ?_⟩
    rw [a.length_data id, h.len]
    exact h.fits
  unfold planView
  split
  · exact ⟨none, rfl⟩
  · rename_i hempty
    obtain ⟨d, hd⟩ : ∃ d : Dims a.dtype.itemsize, Dims.checked n.shape a.dtype.itemsize 0 = .ok d :=
      Dims.checked_iff.mpr ⟨hlen, wrapProduct_zero (hn.planViewLoop_empty hempty)⟩
    rw [hd]
    exact ⟨_, rfl⟩
  · rename_i offset hwindow
    obtain ⟨hend, -⟩ := NdArray.window_flat hcounted hn hwindow
    rw [a.length_data id] at hend
    obtain ⟨d, hd, hshape⟩ := Dims.withItemsize_of_le a.dtype.itemsize hlen
    have hlt := h.len_lt
    have hsize : d.size = n.shape.prod := by
      rw [Dims.size, hshape, wrapProduct_of_lt (by omega)]
    have hview : ∃ v, a.view offset d = .ok v := by
      refine ⟨_, if_pos ?_⟩
      rw [hsize, wrapUsize_of_lt (by omega)]
      exact hend
    obtain ⟨v, hv⟩ := hview
    rw [hd]
    show ∃ r, (a.view offset d >>= _) = _
    rw [hv]
    exact ⟨_, rfl⟩

/-- Basic indexing with resolved slices succeeds. -/
theorem Sound.exists_selectResult (h : a.Sound) (alloc : ℕ) (hslices : ∀ i, Selector.int i ∉ sels)
    (hres : ResolvedSelectors sels a.shape) (hlen : sels.length ≤ a.shape.length) :
    ∃ b, a.selectResult alloc sels [] = .ok b := by
  have hints : IsizeSelectors sels := fun i hi => absurd hi (hslices i)
  obtain ⟨⟨plan, out⟩, hplan⟩ : ∃ r, a.dims.selectionPlan sels = .ok r :=
    (exists_selectionPlan h.usize hints).mpr ⟨not_lt.mpr hlen, not_someInt hslices, not_someInt hslices⟩
  obtain ⟨n, hn, rfl⟩ := selectionPlan_planOf h.usize hints hres hplan
  have hstrided : ∃ b, a.selectStrided alloc plan sels [] = .ok b := by
    have hstrides : a.layoutOf.strides.length = a.shape.length := a.layout_shape ▸ h.wf.strides_length
    obtain ⟨-, hshape, -⟩ := hn.selectLoop a.layoutOf.ptr a.layoutOf.strides hstrides h.wf.ptr_lt
    have hprod : n.shape.prod ≤ a.shape.prod := hn.into.prod_le
    show ∃ b, a.viewFromLayout alloc (a.layoutOf.select plan sels) = .ok b
    apply exists_viewFromLayout
    · rw [Layout.select, hshape]
      exact hn.length_shape_le.trans a.dims.ndim_le
    · rw [Layout.select, hshape, wrapProduct_of_lt (hprod.trans_lt (h.len ▸ h.len_lt))]
      calc
        n.shape.prod*a.itemsize ≤ a.shape.prod*a.itemsize := Nat.mul_le_mul_right _ hprod
        _ = a.itemsize*a.shape.prod := mul_comm _ _
        _ ≤ isizeMax := h.fits
  obtain ⟨r, hr⟩ := h.exists_planView hn alloc
  simp only [selectResult, hplan, hr, bind, Except.bind]
  cases hs : a.strided with
  | some v => exact hstrided
  | none =>
    cases r with
    | none => exact hstrided
    | some selected => exact ⟨selected, rfl⟩

/-- A slice of one axis is a view of the elements it enumerates there. -/
theorem Sound.getSlices_axis (h : a.Sound) (mem : ℕ → T) (halloc : alloc < wordModulus) {s u : List ℕ} {d : ℕ}
    (hshape : a.shape = s ++ d :: u) (hdims : ∀ e ∈ a.shape, e ≤ isizeMax) {sl : PySlice} {start stop step : ℤ}
    (hsl : sl.indices d = (start,stop,step)) (hres : ResolvedSlice d start stop step) :
    ∃ b, a.getSlices mem alloc (axisKey a.shape.length s.length sl) = .ok (.array b) ∧ b.Sound ∧ b.dtype = a.dtype ∧
      b.shape = s ++ rangeLength start stop step :: u ∧
      ∀ (i : List ℕ) (x : ℕ) (j : List ℕ), InRange b.shape (i ++ x :: j) → i.length = s.length →
        b.elementAddress (i ++ x :: j) = a.elementAddress (i ++ (start+step*x).toNat :: j) := by
  have hitem : sl.item d = .slice start stop step := by rw [PySlice.item, hsl]
  have hkey := zipWith_axisKey s d u sl
  rw [hitem, ← hshape] at hkey
  have hresolved := resolvedSelectors_axis (hshape ▸ hdims) hres
  obtain ⟨n, hn, hnshape, hnmap⟩ := numpyIndex_axis start stop step (hshape ▸ hdims)
  rw [← hshape] at hresolved hn
  generalize s.map PySlice.all.item ++ .slice start stop step :: u.map PySlice.all.item = key at hkey hresolved hn
  subst hkey
  have hsels := selectors_slices (axisKey a.shape.length s.length sl) a.shape
  obtain ⟨b, hb⟩ := h.exists_selectResult alloc hsels hresolved (length_selectors_slices _ _)
  have hne : a.shape ≠ [] := by
    rw [hshape]
    exact List.append_ne_nil_of_right_ne_nil s (List.cons_ne_nil d u)
  have hnone : onlyInts (List.zipWith PySlice.item (axisKey a.shape.length s.length sl) a.shape) = none := by
    apply onlyInts_slices _ hne
    rw [axisKey, ne_eq, List.set_eq_nil_iff, List.replicate_eq_nil_iff]
    exact fun hz => hne (List.length_eq_zero_iff.mp hz)
  have hok : a.getSlices mem alloc (axisKey a.shape.length s.length sl) = .ok (.array b) := by
    have hcheck : checkKey a.dims.ndim 0 (List.zipWith PySlice.item (axisKey a.shape.length s.length sl) a.shape) = .ok () :=
      checkKey_slices (by rw [zero_add]; exact le_rfl)
    rw [getSlices, getItem, hcheck]
    simp only [hnone, newAxes_slices, hb, bind, Except.bind]
  have hstep : Step.Resolved (.index (List.zipWith PySlice.item (axisKey a.shape.length s.length sl) a.shape)) a.shape :=
    hresolved
  obtain ⟨n', hn', hd⟩ := h.denotes.runStep h.frame_fits halloc hstep hok
  have hnn : n' = n := Option.some.inj (hn'.symm.trans hn)
  subst hnn
  have hbshape : b.shape = n'.shape := hd.shape
  refine ⟨b, hok, Denotes.sound h.frame_fits hd, hd.dtype, hbshape.trans hnshape, fun i x j hin hi => ?_⟩
  have hlen := hin.length_eq
  rw [hbshape, hnshape, List.length_append, List.length_append, hi, List.length_cons, List.length_cons] at hlen
  rw [hbshape] at hin
  calc
    b.elementAddress (i ++ x :: j) = a.frame.element (n'.map (i ++ x :: j)) := hd.elementAddress hin
    _ = a.elementAddress (n'.map (i ++ x :: j)) := a.element_frame _
    _ = _ := by rw [hnmap i x j hi (by omega)]

end PyArray

end LightArray
