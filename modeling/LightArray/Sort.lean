import LightArray.StableSort
import LightArray.TakeLeading
import LightArray.Nonzero
import LightArray.SelectionAgreement

/-! `sorted_1d`, `argsort_1d` (`array.rs`) and the native path of `sort` (`lib.rs`):
the values and the indices are sorted by one comparison, with NaN last. -/
namespace LightArray
open MachineWord RowMajor StableSort

/-- What the comparison uses of `f64`: the NaNs, and a preorder of the other values. -/
structure FloatOrder (F : Type) where
  isNan : F → Bool
  le : F → F → Bool
  total : ∀ a b, isNan a = false → isNan b = false → le a b = true ∨ le b a = true
  trans : ∀ a b c, isNan a = false → isNan b = false → isNan c = false →
    le a b = true → le b c = true → le a c = true

namespace FloatOrder

variable {F : Type} (o : FloatOrder F) {a b : F}

/-- `partial_cmp`. -/
def partialCmp (a b : F) : Option Ordering :=
  if o.isNan a || o.isNan b then none
  else if o.le a b then some (if o.le b a then .eq else .lt)
  else some .gt

/-- The comparison of both sorts; none where `expect` would panic. -/
def nanLast? (a b : F) : Option Ordering :=
  match o.isNan a, o.isNan b with
  | true, true => some .eq
  | true, false => some .gt
  | false, true => some .lt
  | false, false => o.partialCmp a b

/-- `expect` never panics: two values other than NaN compare. -/
theorem isSome_nanLast (a b : F) : (o.nanLast? a b).isSome := by
  unfold nanLast? partialCmp
  cases o.isNan a <;> cases o.isNan b <;> cases o.le a b <;> rfl

def nanLast (a b : F) : Ordering := (o.nanLast? a b).get (o.isSome_nanLast a b)

theorem nanLast_eq : o.nanLast a b =
    match o.isNan a, o.isNan b with
    | true, true => .eq
    | true, false => .gt
    | false, true => .lt
    | false, false => if o.le a b then if o.le b a then .eq else .lt else .gt := by
  apply Option.get_of_eq_some
  unfold nanLast? partialCmp
  cases o.isNan a <;> cases o.isNan b <;> try rfl
  cases o.le a b <;> rfl

theorem isLE_nanLast : (o.nanLast a b).isLE ↔
    o.isNan b = true ∨ o.isNan a = false ∧ o.isNan b = false ∧ o.le a b = true := by
  rw [nanLast_eq]
  cases o.isNan a <;> cases o.isNan b <;> cases o.le a b <;> cases o.le b a <;> simp

theorem nanLast_eq_eq : o.nanLast a b = .eq ↔ o.isNan a = true ∧ o.isNan b = true ∨
    o.isNan a = false ∧ o.isNan b = false ∧ o.le a b = true ∧ o.le b a = true := by
  rw [nanLast_eq]
  cases o.isNan a <;> cases o.isNan b <;> cases o.le a b <;> cases o.le b a <;> simp

/-- The NaN cases make the comparison a total preorder of all values. -/
instance : Std.TransCmp o.nanLast where
  eq_swap {a b} := by
    rw [nanLast_eq, nanLast_eq]
    have htotal := o.total a b
    cases ha : o.isNan a <;> cases hb : o.isNan b <;> try rfl
    rcases htotal ha hb with h | h <;> rw [h]
    · cases o.le b a <;> rfl
    · cases o.le a b <;> rfl
  isLE_trans {a b c} hab hbc := by
    rw [isLE_nanLast] at hab hbc ⊢
    rcases hbc with hc | ⟨hb, hc, hle⟩
    · exact .inl hc
    · rcases hab with hb' | ⟨ha, -, hle'⟩
      · rw [hb] at hb'
        cases hb'
      · exact .inr ⟨ha, hc, o.trans a b c ha hb hc hle' hle⟩

end FloatOrder

variable {F : Type}

/-- `sorted_1d`. -/
def sorted1d (o : FloatOrder F) (a : NdArray .float64 F) : Except Failure (NdArray .float64 F) :=
  if a.ndim ≠ 1 then .error (.array (.message "sorted_1d expects a 1-D array"))
  else .ok ⟨a.dims, sortBy o.nanLast a.data⟩

/-- The sorted indices of `argsort_1d`; their type bounds the reads of the comparison. -/
def sortedIndices (o : FloatOrder F) (data : List F) : List (Fin data.length) :=
  sortBy (fun i j => o.nanLast data[i] data[j]) (List.finRange data.length)

/-- `argsort_1d`. -/
def argsort1d (o : FloatOrder F) (a : NdArray .float64 F) : Except Failure (Option (NdArray .int64 ℤ)) :=
  if a.ndim ≠ 1 then .ok none
  else do
    let order ← AnyArray.column ((sortedIndices o a.data).map fun i : Fin a.data.length => ((i : ℕ) : ℤ))
    .ok (some order)

/-- The arguments of `sort` after the array: the positional ones, with the integer
they extract to if any, `descending`, and whether no keyword is left besides it
and `stable=None`. -/
structure SortArgs where
  args : List (Option ℤ)
  descending : Bool
  plain : Bool

/-- The axes that name the only one. -/
def SortArgs.axisOk (p : SortArgs) : Bool :=
  match p.args with
  | [] => true
  | [some ax] => ax == -1 || ax == 0
  | _ => false

/-- `sort` of a float64 array; none when NumPy is asked instead. -/
def sort (o : FloatOrder F) (a : NdArray .float64 F) (p : SortArgs) : Except Failure (Option (NdArray .float64 F)) :=
  if a.ndim = 1 ∧ p.axisOk = true ∧ p.plain = true then do
    let sorted ← sorted1d o a
    if p.descending then
      let r ← sorted.select [.slice (wrapIsize (asIsize sorted.data.length-1)) (-1) (-1)]
      .ok (some r)
    else .ok (some sorted)
  else .ok none

/-- What stands before what in a sorted list of indices: NaN last, in non-decreasing
order, and what compares equal in the order of the indices. -/
def Precedes (o : FloatOrder F) (data : List F) (i j : ℤ) : Prop :=
  ∃ x y, data[i.toNat]? = some x ∧ data[j.toNat]? = some y ∧
    (o.isNan x = true → o.isNan y = true) ∧
    (o.isNan x = false → o.isNan y = false → o.le x y = true) ∧
    (o.isNan x = true ∧ o.isNan y = true ∨
      o.isNan x = false ∧ o.isNan y = false ∧ o.le x y = true ∧ o.le y x = true → i < j)

section indices

variable (o : FloatOrder F) (data : List F)

theorem sortedIndices_perm :
    ((sortedIndices o data).map fun i : Fin data.length => ((i : ℕ) : ℤ)).Perm
      ((List.range data.length).map fun i : ℕ => (i : ℤ)) := by
  have hperm := (sortedPositions_perm o.nanLast data).map fun i : ℕ => (i : ℤ)
  rwa [List.map_map] at hperm

theorem sortedIndices_precedes :
    ((sortedIndices o data).map fun i : Fin data.length => ((i : ℕ) : ℤ)).Pairwise (Precedes o data) := by
  have hstable : (sortedIndices o data).Pairwise fun i j =>
      (o.nanLast data[i] data[j]).isLE ∧ (o.nanLast data[i] data[j] = .eq → i < j) := sortedPositions_pairwise data
  rw [List.pairwise_map]
  refine hstable.imp fun {i j} h => ?_
  obtain ⟨hle, hties⟩ := h
  rw [FloatOrder.isLE_nanLast] at hle
  rw [FloatOrder.nanLast_eq_eq] at hties
  refine ⟨data[i], data[j], by simp, by simp, fun hx => ?_, fun hx hy => ?_, fun hxy => ?_⟩
  · rcases hle with hy | ⟨hx', -, -⟩
    · exact hy
    · rw [hx] at hx'
      cases hx'
  · rcases hle with hy' | ⟨-, -, hle⟩
    · rw [hy] at hy'
      cases hy'
    · exact hle
  · have hlt : (i : ℕ) < j := hties hxy
    omega

/-- Reading the values at the sorted indices sorts the values. -/
theorem map_sortedIndices : (sortedIndices o data).map (fun i => data[i]) = sortBy o.nanLast data := by
  have hmap : (List.finRange data.length).map (fun i => data[i]) = data := List.map_get_finRange data
  calc
    (sortedIndices o data).map (fun i => data[i]) = sortBy o.nanLast ((List.finRange data.length).map fun i => data[i]) :=
      map_sortBy (fun i : Fin data.length => data[i]) _
    _ = sortBy o.nanLast data := by rw [hmap]

end indices

section array

variable {o : FloatOrder F} {a : NdArray .float64 F}

theorem shape_of_ndim (ha : a.Counted) (hdim : a.ndim = 1) : a.shape = [a.data.length] := by
  obtain ⟨n, hn⟩ := List.length_eq_one_iff.mp (show a.shape.length = 1 from hdim)
  rw [ha.count, hn, List.prod_singleton]

theorem data_lt (ha : a.Counted) : a.data.length < 2^60 := by
  have h := ha.fits
  rw [isizeMax_eq, show DType.float64.itemsize = 8 from rfl] at h
  omega

/-- The rows of a 1-D array are its elements. -/
theorem rowAt_one (ha : a.Counted) (hdim : a.ndim = 1) (i : Fin a.data.length) : a.rowAt i = [a.data[i]] := by
  have htail : a.shape.tail = [] := by rw [shape_of_ndim ha hdim, List.tail_cons]
  rw [NdArray.rowAt, htail, List.prod_nil, mul_one, List.drop_eq_getElem_cons i.isLt]
  rfl

theorem normalizeIndex_fin (ha : a.Counted) (i : Fin a.data.length) :
    normalizeIndex a.data.length ((i : ℕ) : ℤ) 0 = .ok i := by
  have hlt := data_lt ha
  have hi := i.isLt
  rw [normalizeIndex_iff (by rw [wordModulus_eq]; omega) (by omega)]
  refine ⟨by omega, by omega, ?_⟩
  rw [coordinate, if_neg (by omega), Int.toNat_natCast]

/-- The elements at the sorted indices are the sorted elements. -/
theorem takeLeading_sortedIndices (ha : a.Counted) (hdim : a.ndim = 1) :
    a.takeLeading ((sortedIndices o a.data).map fun i : Fin a.data.length => ((i : ℕ) : ℤ)) =
      .ok ⟨a.dims, sortBy o.nanLast a.data⟩ := by
  have hshape := shape_of_ndim ha hdim
  have hlt := data_lt ha
  have hlen : (sortedIndices o a.data).length = a.data.length := by
    rw [sortedIndices, length_sortBy, List.length_finRange]
  apply (NdArray.takeLeading_iff ha hshape (by rw [wordModulus_eq]; omega) fun i hi => ?_).mpr
  · refine ⟨(sortedIndices o a.data).map Fin.val, ?_, ?_, ?_, ?_⟩
    · rw [List.forall₂_map_left_iff, List.forall₂_map_right_iff, List.forall₂_same]
      exact fun i _ => normalizeIndex_fin ha i
    · rw [List.length_map, hlen]
      exact hshape
    · calc
        sortBy o.nanLast a.data = (sortedIndices o a.data).map fun i => a.data[i] := (map_sortedIndices o a.data).symm
        _ = (sortedIndices o a.data).flatMap fun i => [a.data[i]] := List.map_eq_flatMap
        _ = (sortedIndices o a.data).flatMap fun i : Fin a.data.length => a.rowAt i :=
          List.flatMap_congr fun i _ => (rowAt_one ha hdim i).symm
        _ = ((sortedIndices o a.data).map Fin.val).flatMap a.rowAt := (List.flatMap_map ..).symm
    · rw [List.length_map, hlen, List.prod_nil, mul_one]
      exact ha.fits
  · obtain ⟨k, -, rfl⟩ := List.mem_map.mp hi
    have hk := k.isLt
    omega

/-- The reversed slice of a 1-D array is its reverse, also when it is empty. -/
theorem select_reversed (ha : a.Counted) (hdim : a.ndim = 1) :
    ∃ r, a.select [.slice (wrapIsize (asIsize a.data.length-1)) (-1) (-1)] = .ok r ∧ r.shape = a.shape ∧
      r.data = a.data.reverse := by
  have hshape := shape_of_ndim ha hdim
  have hlt := data_lt ha
  have hstart : wrapIsize (asIsize a.data.length-1) = a.data.length-1 := by
    rw [asIsize_of_le (by rw [isizeMax_eq]; omega)]
    exact wrapIsize_of_range (by omega) (by omega)
  have hres : ResolvedSlice a.data.length (a.data.length-1) (-1) (-1) := by
    right
    omega
  have hcount : rangeLength ((a.data.length : ℤ)-1) (-1) (-1) = a.data.length := by
    rw [rangeLength, if_neg (by omega), if_pos (by omega), neg_neg, Int.ediv_one]
    omega
  have hplan := PlanOf.slice hres (PlanOf.rest [])
  rw [hcount, ← hshape] at hplan
  have hsel : a.dims.selectionPlan [.slice ((a.data.length : ℤ)-1) (-1) (-1)] =
      .ok ([⟨asUsize ((a.data.length : ℤ)-1),-1,a.data.length⟩], [a.data.length]) := by
    have hfew : ¬ a.dims.ndim < 1 := by
      rw [show a.dims.ndim = 1 from hdim]
      exact lt_irrefl 1
    rw [Dims.selectionPlan, if_neg (by simpa using hfew), show a.dims.shape = _ from hshape, planLoop,
      sliceCount_eq hres, hcount]
    rfl
  obtain ⟨r, hr, hselected⟩ := NdArray.gatherPlan_selected ha hplan (by omega)
  have hrshape : r.shape = [a.data.length] := hselected.shape
  have hrlen : r.data.length = a.data.length := by rw [hselected.count, hrshape, List.prod_singleton]
  refine ⟨r, ?_, hrshape.trans hshape.symm, ?_⟩
  · rw [hstart, NdArray.select, hsel]
    exact hr
  · apply List.ext_getElem?
    intro k
    rcases lt_or_ge k a.data.length with hk | hk
    · have hread := hselected.elements [k] (inRange_cons.mpr ⟨hk, inRange_nil.mpr rfl⟩)
      have hpos : ((a.data.length : ℤ)-1+-1*(k : ℤ)).toNat = a.data.length-1-k := by omega
      simp only [NdArray.at?, hrshape, hshape, flat, List.headD_cons, List.prod_nil, mul_one, add_zero, hpos] at hread
      rw [hread, List.getElem?_reverse hk]
    · rw [List.getElem?_eq_none (by omega), List.getElem?_eq_none (by rw [List.length_reverse]; exact hk)]

/-- Sorting the values and sorting the indices agree, and the descending sort is
the ascending one reversed. -/
theorem sort_argsort (o : FloatOrder F) (a : NdArray .float64 F) (ha : a.Counted) (hdim : a.ndim = 1) :
    ∃ order s, argsort1d o a = .ok (some order) ∧ sorted1d o a = .ok s ∧
      order.shape = a.shape ∧ order.data.Perm ((List.range a.data.length).map fun i : ℕ => (i : ℤ)) ∧
      order.data.Pairwise (Precedes o a.data) ∧ s.shape = a.shape ∧ s.data.Perm a.data ∧
      a.takeLeading order.data = .ok s ∧
      ∀ p : SortArgs, p.axisOk = true → p.plain = true →
        ∃ r, sort o a p = .ok (some r) ∧ r.shape = a.shape ∧
          r.data = if p.descending then s.data.reverse else s.data := by
  have hlt := data_lt ha
  have hlen : ((sortedIndices o a.data).map fun i : Fin a.data.length => ((i : ℕ) : ℤ)).length = a.data.length := by
    rw [List.length_map, sortedIndices, length_sortBy, List.length_finRange]
  obtain ⟨order, horder, hshape, hdata⟩ :=
    AnyArray.column_ok (v := (sortedIndices o a.data).map fun i : Fin a.data.length => ((i : ℕ) : ℤ))
      (by rw [hlen, wordModulus_eq]; omega)
  have hargsort : argsort1d o a = .ok (some order) := by
    rw [argsort1d, if_neg (not_not.mpr hdim), horder]
    rfl
  have hsorted : sorted1d o a = .ok ⟨a.dims, sortBy o.nanLast a.data⟩ := if_neg (not_not.mpr hdim)
  refine ⟨order, _, hargsort, hsorted, ?_, ?_, ?_, rfl, sortBy_perm _ _, ?_, fun p haxis hplain => ?_⟩
  · rw [hshape, hlen, shape_of_ndim ha hdim]
  · exact hdata ▸ sortedIndices_perm o a.data
  · exact hdata ▸ sortedIndices_precedes o a.data
  · exact hdata ▸ takeLeading_sortedIndices ha hdim
  · rw [sort, if_pos ⟨hdim, haxis, hplain⟩, hsorted]
    cases p.descending with
    | false => exact ⟨_, rfl, rfl, rfl⟩
    | true =>
      have hs : (⟨a.dims, sortBy o.nanLast a.data⟩ : NdArray .float64 F).Counted := by
        refine ⟨?_, ?_⟩
        · rw [length_sortBy, ha.count]
          rfl
        · rw [length_sortBy]
          exact ha.fits
      obtain ⟨r, hr, hrshape, hrdata⟩ := select_reversed hs hdim
      refine ⟨r, ?_, hrshape, hrdata⟩
      show (NdArray.select _ _ >>= _) = _
      rw [hr]
      rfl

end array

/-- Integers with one NaN. -/
def nanInts : FloatOrder (Option ℤ) where
  isNan := Option.isNone
  le a b := match a, b with
    | some x, some y => decide (x ≤ y)
    | _, _ => false
  total a b ha hb := by
    cases a <;> cases b <;> simp_all [le_total]
  trans a b c ha hb hc hab hbc := by
    cases a <;> cases b <;> cases c <;> simp_all
    omega

/-- A tie and a NaN. -/
def tied : NdArray .float64 (Option ℤ) := ⟨⟨[4], _, by decide, rfl⟩, [some 3,none,some 1,some 3]⟩

theorem sort_argsort_tied :
    ∃ order s, argsort1d nanInts tied = .ok (some order) ∧ sorted1d nanInts tied = .ok s ∧
      order.data.Pairwise (Precedes nanInts tied.data) ∧ tied.takeLeading order.data = .ok s ∧
      ∃ r, sort nanInts tied ⟨[some (-1)],true,true⟩ = .ok (some r) ∧ r.data = s.data.reverse := by
  obtain ⟨order, s, horder, hs, -, -, hpre, -, -, htake, hsort⟩ :=
    sort_argsort nanInts tied ⟨by decide, by decide⟩ rfl
  obtain ⟨r, hr, -, hdata⟩ := hsort ⟨[some (-1)],true,true⟩ rfl rfl
  exact ⟨order, s, horder, hs, hpre, htake, r, hr, hdata⟩

end LightArray
