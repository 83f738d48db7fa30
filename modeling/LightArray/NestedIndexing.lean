import LightArray.Contents
import LightArray.FullIndex
import LightArray.NestedLists

namespace LightArray
open MachineWord OrderedTree RowMajor

section leading

variable {shape : List ℕ} {ints : List ℤ}

/-- Integers within the leading axes. -/
def Leading (shape : List ℕ) (ints : List ℤ) : Prop :=
  ints.length ≤ shape.length ∧ InBounds (shape.take ints.length) ints

theorem leading_nil (shape : List ℕ) : Leading shape [] := ⟨Nat.zero_le _, .nil⟩

theorem leading_cons {d : ℕ} {i : ℤ} : Leading (d :: shape) (i :: ints) ↔ (-(d:ℤ) ≤ i ∧ i < d) ∧ Leading shape ints := by
  constructor
  · intro h
    obtain ⟨hlen, hin⟩ := h
    cases hin with
    | cons hi hin => exact ⟨hi, Nat.le_of_succ_le_succ hlen, hin⟩
  · intro h
    exact ⟨Nat.succ_le_succ h.2.1, .cons h.1 h.2.2⟩

/-- The selection integers of the leading axes make: the sub-array at their coordinates. -/
theorem planOf_leading (h : Leading shape ints) : ∃ plan n, PlanOf (ints.map .int) shape plan n ∧
    n.shape = shape.drop ints.length ∧ ∀ idx, n.map idx = List.zipWith coordinate shape ints ++ idx := by
  induction ints generalizing shape with
  | nil =>
    refine ⟨_, _, .rest shape, rfl, fun idx => ?_⟩
    rw [List.zipWith_nil_right]
    rfl
  | cons i ints ih =>
    cases shape with
    | nil => exact absurd h.1 (Nat.not_succ_le_zero _)
    | cons d shape =>
      obtain ⟨hi, hrest⟩ := leading_cons.mp h
      obtain ⟨plan, n, hn, hshape, hmap⟩ := ih hrest
      exact ⟨_, _, .int hi.1 hi.2 hn, hshape, fun idx => congrArg (coordinate d i :: ·) (hmap idx)⟩

theorem PlanOf.leading {plan : List PlanAxis} {n : IndexMap} (h : PlanOf (ints.map .int) shape plan n) :
    Leading shape ints := by
  induction ints generalizing shape plan n with
  | nil => exact leading_nil shape
  | cons i ints ih =>
    cases h with
    | int lower upper tail => exact leading_cons.mpr ⟨⟨lower, upper⟩, ih tail⟩

theorem Leading.length_zipWith (h : Leading shape ints) : (List.zipWith coordinate shape ints).length = ints.length := by
  rw [List.length_zipWith, Nat.min_eq_right h.1]

theorem Leading.inRange (h : Leading shape ints) : InRange (shape.take ints.length) (List.zipWith coordinate shape ints) := by
  induction ints generalizing shape with
  | nil =>
    rw [List.zipWith_nil_right]
    exact .nil
  | cons i ints ih =>
    cases shape with
    | nil => exact absurd h.1 (Nat.not_succ_le_zero _)
    | cons d shape =>
      obtain ⟨hi, hrest⟩ := leading_cons.mp h
      exact .cons (coordinate_lt hi.1 hi.2) (ih hrest)

theorem Leading.inRange_isize (h : Leading shape ints) (hdims : ∀ d ∈ shape, d ≤ isizeMax) :
    ¬ ∃ i ∈ ints, i < -(2^63) ∨ 2^63 ≤ i := by
  induction ints generalizing shape with
  | nil => simp
  | cons i ints ih =>
    cases shape with
    | nil => exact absurd h.1 (Nat.not_succ_le_zero _)
    | cons d shape =>
      obtain ⟨hi, hrest⟩ := leading_cons.mp h
      obtain ⟨hd, hdims⟩ := List.forall_mem_cons.mp hdims
      rw [isizeMax_eq] at hd
      rintro ⟨j, hj, hbeyond⟩
      rcases List.mem_cons.mp hj with rfl | hj
      · omega
      · exact ih hrest hdims ⟨j, hj, hbeyond⟩

/-- Before an empty axis every stride is 0. -/
theorem dot_unitStrides_zero {R : Type} [Semiring R] {f : ℕ → R} (hf : f 0 = 0) {idx : List ℕ}
    (hlen : idx.length ≤ shape.length) (hzero : (shape.drop idx.length).prod = 0) :
    dot idx ((unitStrides shape).map f) = 0 := by
  induction idx generalizing shape with
  | nil => cases shape <;> rfl
  | cons i idx ih =>
    cases shape with
    | nil => exact absurd hlen (Nat.not_succ_le_zero _)
    | cons d shape =>
      rw [List.length_cons, List.drop_succ_cons] at hzero
      have hprod : shape.prod = 0 := by
        calc
          shape.prod = (shape.take idx.length).prod*(shape.drop idx.length).prod := (List.prod_take_mul_prod_drop ..).symm
          _ = 0 := by rw [hzero, Nat.mul_zero]
      have hrest := ih (Nat.le_of_succ_le_succ hlen) hzero
      rw [unitStrides, List.map_cons, dot, hprod, hf, mul_zero, zero_add]
      exact hrest

end leading

namespace PyArray

variable {T : Type} {a : PyArray} {ints : List ℤ} {mem : ℕ → T} {alloc : ℕ}

theorem elemStrides_eq (a : PyArray) :
    a.dims.elemStrides = (unitStrides a.shape).map fun p => asUsize (wrapIsize (a.dtype.itemsize*p : ℕ))/a.dtype.itemsize := by
  rw [Dims.elemStrides, a.dims.strides_eq, cStrides_eq, List.map_map]
  rfl

theorem Sound.locate_zero (h : a.Sound) (hints : ∀ i ∈ ints, -(2^63) ≤ i ∧ i < 2^63) {off : ℕ} {d : Dims a.dtype.itemsize}
    (hloc : a.dims.locate ints = .ok (off,d)) (hzero : d.shape.prod = 0) : off = 0 := by
  unfold Dims.locate at hloc
  split at hloc
  · cases hloc
  · rename_i hlen
    obtain ⟨off', hoff, he⟩ := bind_eq_ok.mp hloc
    cases he
    have hle : ints.length ≤ a.dims.shape.length := not_lt.mp hlen
    have hstr : a.dims.elemStrides.length = a.dims.shape.length := by
      rw [Dims.elemStrides, List.length_map, a.dims.length_strides]
    obtain ⟨hlt, plan, n, hn, -, haddr⟩ := locateLoop_ok h.usize hints hstr hle (by decide) hoff
    obtain ⟨plan', n', hn', -, hmap⟩ := planOf_leading hn.leading
    have hnn : n' = n := Option.some.inj (hn'.numpySelect.symm.trans hn.numpySelect)
    have hcoords := hn.leading.length_zipWith
    have hdot := haddr []
    rw [dot_nil_left, ← hnn, hmap, List.append_nil, elemStrides_eq, List.map_map, Nat.cast_zero, add_zero, zero_add] at hdot
    have hstart : dot (List.zipWith coordinate a.shape ints) ((unitStrides a.shape).map
        ((Nat.cast : ℕ → Word) ∘ fun p => asUsize (wrapIsize (a.dtype.itemsize*p : ℕ))/a.dtype.itemsize)) = 0 := by
      apply dot_unitStrides_zero _ (hcoords.le.trans hle) (hcoords.symm ▸ hzero)
      have hw : wrapIsize 0 = 0 := wrapIsize_of_range (by decide) (by decide)
      simp [hw, asUsize]
    rw [hstart] at hdot
    exact eq_of_cast_eq hlt (by decide) (hdot.trans Nat.cast_zero.symm)

/-- The sub-array at integers of the leading axes lies inside the buffer. -/
theorem Sound.exists_view (h : a.Sound) (hints : ∀ i ∈ ints, -(2^63) ≤ i ∧ i < 2^63)
    {off : ℕ} {d : Dims a.dtype.itemsize} (hloc : a.dims.locate ints = .ok (off,d)) : ∃ b, a.view off d = .ok b := by
  obtain ⟨hoff, plan, n, hn, hshape, hflat⟩ := h.denotes.locate h.frame_fits hints hloc
  have hlen := h.len_lt
  have hprod : n.shape.prod ≤ a.shape.prod := hn.into.prod_le
  have hsize : d.size = n.shape.prod := by
    rw [Dims.size, hshape, wrapProduct_of_lt (hprod.trans_lt (h.len ▸ h.len_lt))]
  have hsmall : a.len < 2^63 := by
    have hfits := h.fits
    rw [isizeMax_eq] at hfits
    have hle : a.shape.prod ≤ a.itemsize*a.shape.prod := Nat.le_mul_of_pos_left _ a.dtype.itemsize_pos
    rw [h.len]
    omega
  have hend : off+n.shape.prod ≤ a.len := by
    rcases Nat.eq_zero_or_pos n.shape.prod with hzero | hpos
    · -- nothing is selected, and the offset stays where the buffer starts
      have hoff0 := h.locate_zero hints hloc (hshape ▸ hzero)
      rw [hzero, hoff0]
      exact Nat.zero_le _
    · have hword (k : ℕ) (hk : k < n.shape.prod) : ∃ q < a.len, ((off+k : ℕ) : Word) = q := by
        refine ⟨flat a.shape (n.map (unflat n.shape k)), ?_, ?_⟩
        · rw [h.len]
          exact flat_lt (hn.into.inRange _ (inRange_unflat hk))
        · have hk' := hflat _ (inRange_unflat hk)
          rw [flat_unflat hk] at hk'
          rw [Nat.cast_add]
          exact hk'
      obtain ⟨q, hq, hoffq⟩ := hword 0 hpos
      have hfirst : off = q := eq_of_cast_eq hoff (hq.trans hlen) hoffq
      obtain ⟨r, hr, hlastr⟩ := hword (n.shape.prod-1) (Nat.sub_lt hpos Nat.one_pos)
      have hprodlen : n.shape.prod ≤ a.len := h.len.symm ▸ hprod
      have hsum : off+(n.shape.prod-1) < wordModulus := by
        rw [wordModulus_eq]
        omega
      have hlast : off+(n.shape.prod-1) = r := eq_of_cast_eq hsum (hr.trans hlen) hlastr
      omega
  refine ⟨_, if_pos ?_⟩
  rw [hsize, wrapUsize_of_lt (by omega)]
  exact hend

theorem exists_locate (hdims : ∀ d ∈ a.shape, d ≤ isizeMax) (hints : ∀ i ∈ ints, -(2^63) ≤ i ∧ i < 2^63)
    (hlead : Leading a.shape ints) : ∃ off, a.dims.locate ints = .ok (off, a.dims.dropLeading ints.length) := by
  obtain ⟨plan, n, hn, -, -⟩ := planOf_leading hlead
  obtain ⟨off, hoff⟩ : ∃ off, locateLoop 0 0 a.dims.shape a.dims.elemStrides ints = .ok off :=
    locateLoop_of_planOf hints hdims hn
  refine ⟨off, ?_⟩
  have hle : ¬ a.dims.ndim < ints.length := not_lt.mpr hlead.1
  rw [Dims.locate, if_neg hle, hoff]
  rfl

/-- Integers of some of the axes show the sub-array at their coordinates. -/
theorem Sound.indexResult_leading (h : a.Sound) (hs : a.strided = none) (hdims : ∀ d ∈ a.shape, d ≤ isizeMax)
    (hlead : Leading a.shape ints) (hlt : ints.length < a.shape.length) (mem : ℕ → T) (alloc : ℕ) :
    ∃ b, a.indexResult mem alloc ints = .ok (.array b) ∧ b.Sound ∧ b.strided = none ∧ b.dtype = a.dtype ∧
      b.shape = a.shape.drop ints.length ∧ ∀ idx, InRange b.shape idx →
        b.elementAddress idx = a.elementAddress (List.zipWith coordinate a.shape ints ++ idx) := by
  have hisize := hlead.inRange_isize hdims
  have hints : ∀ i ∈ ints, -(2^63) ≤ i ∧ i < 2^63 := by
    intro i hi
    by_contra hbeyond
    exact hisize ⟨i, hi, by omega⟩
  obtain ⟨off, hloc⟩ := exists_locate hdims hints hlead
  obtain ⟨b, hb⟩ := h.exists_view hints hloc
  have hview : a.indexView ints = .ok b := by
    rw [indexView, hloc]
    exact hb
  have hpart : (a.dims.dropLeading ints.length).ndim ≠ 0 := by
    rw [Dims.ndim, Dims.dropLeading_shape, List.length_drop]
    exact (Nat.sub_pos_of_lt hlt).ne'
  have hget : a.get mem ints = .ok none := by
    rw [get, hloc]
    exact if_neg hpart
  have hres : a.indexResult mem alloc ints = .ok (.array b) := by
    rw [indexResult, stridedElement_plain hs]
    simp only [hs, hget, hview, bind, Except.bind, Option.isSome_none, Bool.false_eq_true, ↓reduceIte]
  have hplain : b.strided = none := by
    unfold view at hb
    split at hb
    · cases hb
      rfl
    · cases hb
  obtain ⟨plan, n, hn, hshape, hmap⟩ := planOf_leading hlead
  obtain ⟨n', hn', hd⟩ := h.denotes.indexView h.frame_fits hs hints hview
  have hnn : n' = n := Option.some.inj (hn'.symm.trans hn.numpySelect)
  subst hnn
  have hbshape : b.shape = n'.shape := hd.shape
  refine ⟨b, hres, hd.sound h.frame_fits, hplain, hd.dtype, hbshape.trans hshape, fun idx hidx => ?_⟩
  calc
    b.elementAddress idx = a.frame.element (n'.map idx) := hd.elementAddress (hbshape ▸ hidx)
    _ = a.elementAddress (n'.map idx) := a.element_frame _
    _ = _ := by rw [hmap]

/-- Any other integers are refused with an exception. -/
theorem Sound.indexResult_outside (h : a.Sound) (hs : a.strided = none) (hints : ∀ i ∈ ints, -(2^63) ≤ i ∧ i < 2^63)
    (hout : ¬ Leading a.shape ints) (mem : ℕ → T) (alloc : ℕ) :
    ∃ e, a.indexResult mem alloc ints = .error e ∧ e.isPanic = false := by
  have hloc : ∃ e, a.dims.locate ints = .error e ∧ e.isPanic = false := by
    unfold Dims.locate
    split
    · exact ⟨_, rfl, rfl⟩
    · rename_i hlen
      cases hoff : locateLoop 0 0 a.dims.shape a.dims.elemStrides ints with
      | error e => exact ⟨e, rfl, locateLoop_error hoff⟩
      | ok off =>
        have hstr : a.dims.elemStrides.length = a.dims.shape.length := by
          rw [Dims.elemStrides, List.length_map, a.dims.length_strides]
        obtain ⟨-, plan, n, hn, -⟩ := locateLoop_ok h.usize hints hstr (not_lt.mp hlen) (by decide) hoff
        exact absurd hn.leading hout
  obtain ⟨e, he, hpanic⟩ := hloc
  have hget : a.get mem ints = .error e := by
    rw [get, he]
    rfl
  refine ⟨e, ?_, hpanic⟩
  rw [indexResult, stridedElement_plain hs]
  simp only [hs, hget, bind, Except.bind, Option.isSome_none, Bool.false_eq_true, ↓reduceIte]

/-- A full index gives a NumPy scalar, and NumPy scalars have no items: to index one raises an exception. -/
def ScalarsRaise (scalarItem : T → List ℤ → Failure) : Prop := ∀ v key, (scalarItem v key).isPanic = false

/-- Indexing by a chain of integer keys, each with the address of a new buffer; `scalarItem` is what NumPy raises
for an index of its scalars. -/
def indexRun (scalarItem : T → List ℤ → Failure) (mem : ℕ → T) : PyArray → List (ℕ × List ℤ) → Except Failure (Value T)
  | a, [] => .ok (.array a)
  | a, (alloc,key) :: keys => do
    match ← a.getItem mem alloc (key.map .int) with
    | .array b => indexRun scalarItem mem b keys
    | .scalar v =>
      match keys with
      | [] => .ok (.scalar v)
      | (_,key') :: _ => .error (scalarItem v key')

end PyArray

section lists

variable {F : Type}

/-- `items[i]` of a list; none where it raises. -/
def listItem? {α : Type} (items : List α) (i : ℤ) : Option α :=
  let j := if i < 0 then i+items.length else i
  if j < 0 then none else items[j.toNat]?

/-- `obj[i][j]...` of nested lists; none where it raises. -/
def PySequence.item? (obj : PySequence F) : List ℤ → Option (PySequence F)
  | [] => some obj
  | i :: ints => (listItem? obj.children i).bind fun c => PySequence.item? c ints

theorem listItem?_inside {α : Type} {items : List α} {i : ℤ} (hi : -(items.length:ℤ) ≤ i ∧ i < items.length) :
    listItem? items i = items[coordinate items.length i]? := by
  rw [listItem?, coordinate, if_neg]
  split_ifs <;> omega

theorem listItem?_outside {α : Type} {items : List α} {i : ℤ} (hi : ¬ (-(items.length:ℤ) ≤ i ∧ i < items.length)) :
    listItem? items i = none := by
  rw [listItem?]
  by_cases hneg : i < 0
  · have hbelow : i+items.length < 0 := by omega
    simp only [if_pos hneg, if_pos hbelow]
  · have habove : items.length ≤ i.toNat := by omega
    simp only [if_neg hneg, List.getElem?_eq_none habove]

theorem PySequence.item?_append (obj : PySequence F) (p q : List ℤ) :
    obj.item? (p ++ q) = (obj.item? p).bind (·.item? q) := by
  induction p generalizing obj with
  | nil => rfl
  | cons i p ih =>
    rw [List.cons_append, item?, item?]
    cases listItem? obj.children i with
    | none => rfl
    | some c => exact ih c

variable {shape : List ℕ} {obj : PySequence F} {ints : List ℤ}

/-- Python's index of nested lists, in coordinates. -/
theorem item?_leading (h : Rose.Fills shape obj) (hlead : Leading shape ints) :
    obj.item? ints = obj.subtree? (List.zipWith coordinate shape ints) := by
  induction ints generalizing shape obj with
  | nil =>
    rw [List.zipWith_nil_right]
    rfl
  | cons i ints ih =>
    cases shape with
    | nil => exact absurd hlead.1 (Nat.not_succ_le_zero _)
    | cons d shape =>
      obtain ⟨items, rfl, rfl, hitems⟩ := h
      obtain ⟨hi, hrest⟩ := leading_cons.mp hlead
      rw [List.zipWith_cons_cons, PySequence.item?, Rose.subtree?, Rose.children, listItem?_inside hi]
      cases hc : items[coordinate items.length i]? with
      | none => rfl
      | some c => exact ih (hitems c (List.mem_of_getElem? hc)) hrest

theorem item?_outside (h : Rose.Fills shape obj) (hout : ¬ Leading shape ints) : obj.item? ints = none := by
  induction ints generalizing shape obj with
  | nil => exact absurd (leading_nil shape) hout
  | cons i ints ih =>
    cases shape with
    | nil =>
      obtain ⟨x, rfl⟩ := h
      rw [PySequence.item?, Rose.children, listItem?_outside (by simp)]
      rfl
    | cons d shape =>
      obtain ⟨items, rfl, rfl, hitems⟩ := h
      rw [PySequence.item?, Rose.children]
      by_cases hi : -(items.length:ℤ) ≤ i ∧ i < items.length
      · have hrest : ¬ Leading shape ints := fun hrest => hout (leading_cons.mpr ⟨hi, hrest⟩)
        rw [listItem?_inside hi]
        cases hc : items[coordinate items.length i]? with
        | none => rfl
        | some c => exact ih (hitems c (List.mem_of_getElem? hc)) hrest
      · rw [listItem?_outside hi]
        rfl

end lists

section agreement

variable {F : Type} {ofInt : ℤ → F} {t : DType} {mem : ℕ → Elem F t} {a : PyArray} {obj : PySequence F}

/-- The memory of a contiguous array holds the leaves of nested lists at their indices. -/
structure Holds (ofInt : ℤ → F) (mem : ℕ → Elem F t) (a : PyArray) (obj : PySequence F) : Prop where
  sound : a.Sound
  plain : a.strided = none
  dtype : a.dtype = t
  isize : ∀ d ∈ a.shape, d ≤ isizeMax
  fills : Rose.Fills a.shape obj
  reads : ∀ idx x, obj.subtree? idx = some (.leaf x) → mem (a.elementAddress idx) = x.toElem ofInt t

/-- What indexing an array gives, beside what indexing the lists gives. -/
inductive Agrees (ofInt : ℤ → F) (mem : ℕ → Elem F t) :
    Except Failure (Value (Elem F t)) → Option (PySequence F) → Prop
  | scalar (x : Scalar F) : Agrees ofInt mem (.ok (.scalar (x.toElem ofInt t))) (some (.leaf x))
  | array {b : PyArray} {items : List (PySequence F)} (holds : Holds ofInt mem b (.seq items)) :
      Agrees ofInt mem (.ok (.array b)) (some (.seq items))
  | error {e : Failure} (raised : e.isPanic = false) : Agrees ofInt mem (.error e) none

theorem Agrees.eq_scalar {r : Except Failure (Value (Elem F t))} {x : Scalar F} (h : Agrees ofInt mem r (some (.leaf x))) :
    r = .ok (.scalar (x.toElem ofInt t)) := by
  cases h
  rfl

/-- One key of integers: a scalar, a sub-array that holds the sub-list, or exceptions on
both sides. -/
theorem Holds.getItem (h : Holds ofInt mem a obj) (alloc : ℕ) (key : List ℤ) :
    Agrees ofInt mem (a.getItem mem alloc (key.map .int)) (obj.item? key) := by
  rw [PyArray.getItem, checkKey_ints, onlyInts_ints]
  by_cases hlead : Leading a.shape key
  · rw [if_neg (hlead.inRange_isize h.isize), item?_leading h.fills hlead]
    change Agrees ofInt mem (a.indexResult mem alloc key) _
    have hcoords := hlead.length_zipWith
    have hin := hlead.inRange
    rcases Nat.lt_or_ge key.length a.shape.length with hlt | hge
    · -- a partial index: what is left of the lists fills what is left of the axes
      obtain ⟨b, hb, hsound, hplain, hdtype, hshape, haddr⟩ :=
        h.sound.indexResult_leading h.plain h.isize hlead hlt mem alloc
      obtain ⟨r, hr⟩ := h.fills.exists_subtree (hcoords.le.trans hlead.1) (hcoords.symm ▸ hin)
      have hfill := (h.fills.subtree hr).2.2
      rw [hcoords, ← hshape] at hfill
      have hbdims : ∀ d ∈ b.shape, d ≤ isizeMax := by
        intro d hd
        rw [hshape] at hd
        exact h.isize d (List.mem_of_mem_drop hd)
      have hholds : Holds ofInt mem b r := by
        refine ⟨hsound, hplain, hdtype.trans h.dtype, hbdims, hfill, fun idx x hx => ?_⟩
        rw [haddr idx (hfill.inRange hx)]
        apply h.reads
        rw [Rose.subtree?_append, hr]
        exact hx
      have hne : b.shape ≠ [] := by
        rw [hshape]
        exact List.drop_eq_nil_iff.not.mpr (not_le.mpr hlt)
      obtain ⟨items, rfl⟩ := hfill.exists_seq hne
      rw [hb, hr]
      exact .array hholds
    · -- a full index: the leaf at the coordinates is the element there
      have htake : a.shape.take key.length = a.shape := List.take_of_length_le hge
      rw [htake] at hin
      obtain ⟨x, hx⟩ := h.fills.exists_leaf hin
      have hbounds : InBounds a.shape key := htake ▸ hlead.2
      rw [(h.sound.indexResult_ints mem alloc hbounds).2, h.reads _ x hx, hx]
      exact .scalar x
  · rw [item?_outside h.fills hlead]
    split_ifs with hbeyond
    · exact .error rfl
    · have hints : ∀ i ∈ key, -(2^63) ≤ i ∧ i < 2^63 := by
        intro i hi
        by_contra hout
        exact hbeyond ⟨i, hi, by omega⟩
      obtain ⟨e, he, hpanic⟩ := h.sound.indexResult_outside h.plain hints hlead mem alloc
      change Agrees ofInt mem (a.indexResult mem alloc key) none
      rw [he]
      exact .error hpanic

/-- A chain of keys reads along the path they make together. -/
theorem Holds.indexRun {items : List (PySequence F)} (h : Holds ofInt mem a (.seq items))
    {scalarItem : Elem F t → List ℤ → Failure} (hscalar : PyArray.ScalarsRaise scalarItem) (keys : List (ℕ × List ℤ))
    (hkeys : ∀ k ∈ keys, k.2 ≠ []) :
    Agrees ofInt mem (PyArray.indexRun scalarItem mem a keys) (PySequence.item? (.seq items) (keys.flatMap Prod.snd)) := by
  induction keys generalizing a items with
  | nil => exact .array h
  | cons k keys ih =>
    obtain ⟨hk, hkeys⟩ := List.forall_mem_cons.mp hkeys
    have hstep := h.getItem k.1 k.2
    rw [PyArray.indexRun, List.flatMap_cons, PySequence.item?_append]
    generalize a.getItem mem k.1 (k.2.map .int) = r at hstep
    generalize PySequence.item? (.seq items) k.2 = s at hstep
    cases hstep with
    | scalar x =>
      cases keys with
      | nil => exact .scalar x
      | cons k' keys =>
        have hk' := (List.forall_mem_cons.mp hkeys).1
        obtain ⟨i, rest, hi⟩ := List.exists_cons_of_ne_nil hk'
        have hnone : PySequence.item? (.leaf x) ((k' :: keys).flatMap Prod.snd) = none := by
          rw [List.flatMap_cons, hi, List.cons_append, PySequence.item?, Rose.children, listItem?_outside (by simp)]
          rfl
        change Agrees ofInt mem (.error _) (PySequence.item? (.leaf x) _)
        rw [hnone]
        exact .error (hscalar _ _)
    | array hb => exact ih hb hkeys
    | error raised => exact .error raised

/-- A contiguous array whose memory has the contents of `arr`. -/
structure Places (arr : AnyArray F) (mem : ℕ → Elem F arr.dtype) (a : PyArray) : Prop where
  sound : a.Sound
  plain : a.strided = none
  dtype : a.dtype = arr.dtype
  shape : a.shape = arr.shape
  data : a.data mem = arr.inner.data
  isize : ∀ d ∈ a.shape, d ≤ isizeMax

theorem Places.holds {arr : AnyArray F} {mem : ℕ → Elem F arr.dtype} (hp : Places arr mem a)
    (hr : Represents ofInt obj arr) (hu : Rose.Uniform [obj]) : Holds ofInt mem a obj := by
  obtain ⟨-, hshape, hdata⟩ := AnyArray.represents_iff.mp hr
  rw [← hp.shape] at hshape
  have hfill := Rose.fills_of_shapeOf hu hshape obj (List.mem_singleton_self obj)
  refine ⟨hp.sound, hp.plain, hp.dtype, hp.isize, hfill, fun idx x hx => ?_⟩
  have hin := hfill.inRange hx
  have hleaf := hfill.getElem?_leaves hx
  have hread : (a.data mem)[flat a.shape idx]? = some (mem (a.elementAddress idx)) := by
    rw [PyArray.data_plain hp.plain hp.sound.len, PyArray.rowOrder, List.map_map, List.getElem?_map]
    have henum : (enum a.shape)[flat a.shape idx]? = some idx := by
      have hlt : flat a.shape idx < (enum a.shape).length := length_enum a.shape ▸ flat_lt hin
      rw [List.getElem?_eq_getElem hlt, getElem_enum hlt, unflat_flat hin]
    rw [henum]
    rfl
  rw [hp.data, hdata, List.getElem?_map, hleaf] at hread
  exact (Option.some.inj hread).symm

/-- `array(obj)[k1][k2]...` is `obj[k1][k2]...`, each `k` a non-empty tuple of integers:
the scalar converted to the dtype, an array of the sub-list, or exceptions on both sides. -/
theorem nested_indexing {items : List (PySequence F)} {arr : AnyArray F}
    (h : nestedSequence ofInt (.seq items) = .ok (some arr)) (hrect : Rectangular (.seq items))
    {mem : ℕ → Elem F arr.dtype} (ha : Places arr mem a) {scalarItem : Elem F arr.dtype → List ℤ → Failure}
    (hscalar : PyArray.ScalarsRaise scalarItem) (keys : List (ℕ × List ℤ)) (hkeys : ∀ k ∈ keys, k.2 ≠ []) :
    Agrees ofInt mem (PyArray.indexRun scalarItem mem a keys) (PySequence.item? (.seq items) (keys.flatMap Prod.snd)) := by
  have hwalk := walkable_of_accepted h
  obtain ⟨w, hw⟩ := walk_iff.mpr hwalk
  have hrep := (accepts_iff_of_walk hw hwalk).2 arr h
  exact (ha.holds hrep hrect.uniform).indexRun hscalar keys hkeys

/-- The two rows of integers as an array at address 4096. -/
def countsArray : PyArray := ⟨.int64, ⟨[2,3], _, AnyArray.counts_ndim, rfl⟩, 4096, 6, none, none⟩

theorem countsArray_ownerWf : countsArray.OwnerWf :=
  ⟨rfl, rfl, rfl, by decide, by decide, by decide, by decide⟩

/-- Memory that counts up from there. -/
def countsMemory : ℕ → ℤ := fun p => ((p-4096)/8+1 : ℕ)

theorem nested_indexing_counts :
    PyArray.indexRun (fun _ _ => .python .indexError "invalid index to scalar variable.") countsMemory countsArray
      [(0,[-1]),(0,[1])] = .ok (.scalar 5) := by
  have hok : nestedSequence (fun i => i) (.seq AnyArray.countRows) = .ok (some AnyArray.counts) := rfl
  have hrect : Rectangular (.seq AnyArray.countRows) :=
    AnyArray.rectangular_toList AnyArray.counts_counted AnyArray.counts_inRange64
  have hplaced : Places AnyArray.counts countsMemory countsArray :=
    ⟨countsArray_ownerWf.sound, rfl, rfl, rfl, rfl, by decide⟩
  have hscalar : PyArray.ScalarsRaise fun (_ : ℤ) (_ : List ℤ) => .python .indexError "invalid index to scalar variable." :=
    fun _ _ => rfl
  have hread := nested_indexing hok hrect hplaced hscalar [(0,[-1]),(0,[1])] (by decide)
  exact hread.eq_scalar

end agreement

end LightArray
