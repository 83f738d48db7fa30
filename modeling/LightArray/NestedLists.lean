import Mathlib.Data.List.GetD
import LightArray.AnyArray
import LightArray.BoxTree
import LightArray.NestedAccept

namespace LightArray
open MachineWord OrderedTree RowMajor

variable {F : Type}

namespace Scalar

/-- The scalar as an element of an array. -/
def toElem (ofInt : ℤ → F) : (t : DType) → Scalar F → Elem F t
  | .float64, x => x.toFloat ofInt
  | .int64, x => x.toInt
  | .bool, x => x.truth

/-- An element as the scalar Python sees. -/
def ofElem : (t : DType) → Elem F t → Scalar F
  | .float64, x => .float x
  | .int64, i => .int i
  | .bool, b => .bool b

variable {ofInt : ℤ → F}

theorem toElem_ofElem (t : DType) (e : Elem F t) : (ofElem t e).toElem ofInt t = e := by
  cases t <;> rfl

end Scalar

namespace AnyArray

variable {ofInt : ℤ → F} {a b : AnyArray F} {obj : PySequence F} {items : List (PySequence F)}

/-- The elements as Python scalars, in row-major order. -/
def scalars (a : AnyArray F) : List (Scalar F) := a.inner.data.map (Scalar.ofElem a.dtype)

/-- The nested lists with the elements of the array. -/
def toList (a : AnyArray F) : PySequence F := Rose.tabulate a.shape fun idx => a.scalars.getD (flat a.shape idx) .other

/-- Every integer is an int64. -/
def InRange64 : AnyArray F → Prop
  | .i64 _ data => ∀ i ∈ data, -(2^63) ≤ i ∧ i < 2^63
  | _ => True

theorem fills_toList (a : AnyArray F) : Rose.Fills a.shape a.toList := Rose.tabulate_fills _ _

theorem length_scalars (ha : a.inner.Counted) : a.scalars.length = a.shape.prod := by
  rw [scalars, List.length_map, ha.count]
  rfl

theorem leaves_toList (ha : a.inner.Counted) : a.toList.leaves = a.scalars := by
  have hlen := length_scalars ha
  have hflat : (fun idx => a.scalars.getD (flat a.shape idx) .other) = (a.scalars.getD · .other) ∘ flat a.shape := rfl
  rw [toList, Rose.leaves_tabulate, hflat, ← List.map_map, map_flat_enum, ← hlen]
  apply List.ext_getElem
  · rw [List.length_map, List.length_range]
  · intro k _ hk
    rw [List.getElem_map, List.getElem_range, List.getD_eq_getElem _ _ hk]

theorem represents_iff : Represents ofInt obj a ↔ inferredDType obj.leaves = a.dtype ∧ Rose.ShapeOf [obj] a.shape ∧
    a.inner.data = obj.leaves.map (Scalar.toElem ofInt a.dtype) := by
  cases a <;> exact Iff.rfl

theorem ext_inner (ht : a.dtype = b.dtype) (hs : a.shape = b.shape) (hdata : a.scalars = b.scalars) : a = b := by
  cases a with
  | f64 adims adata =>
    cases b with
    | f64 bdims bdata =>
      have hd : adims = bdims := Dims.ext_shape hs
      have hinj : Function.Injective (Scalar.float : F → Scalar F) := fun x y h => Scalar.float.inj h
      exact congrArg₂ f64 hd (List.map_injective_iff.mpr hinj hdata)
    | i64 bdims bdata => cases ht
    | bool bdims bdata => cases ht
  | i64 adims adata =>
    cases b with
    | f64 bdims bdata => cases ht
    | i64 bdims bdata =>
      have hd : adims = bdims := Dims.ext_shape hs
      have hinj : Function.Injective (Scalar.int : ℤ → Scalar F) := fun x y h => Scalar.int.inj h
      exact congrArg₂ i64 hd (List.map_injective_iff.mpr hinj hdata)
    | bool bdims bdata => cases ht
  | bool adims adata =>
    cases b with
    | f64 bdims bdata => cases ht
    | i64 bdims bdata => cases ht
    | bool bdims bdata =>
      have hd : adims = bdims := Dims.ext_shape hs
      have hinj : Function.Injective (Scalar.bool : Bool → Scalar F) := fun x y h => Scalar.bool.inj h
      exact congrArg₂ AnyArray.bool hd (List.map_injective_iff.mpr hinj hdata)

/-- A nested sequence represents one array. -/
theorem represents_unique (ha : Represents ofInt obj a) (hb : Represents ofInt obj b) : a = b := by
  obtain ⟨hta, hsa, hda⟩ := represents_iff.mp ha
  obtain ⟨htb, hsb, hdb⟩ := represents_iff.mp hb
  have ht : a.dtype = b.dtype := hta.symm.trans htb
  have hs : a.shape = b.shape := by
    apply List.ext_getElem?
    intro k
    apply Option.ext
    intro n
    rw [hsa k n, hsb k n]
  apply ext_inner ht hs
  rw [scalars, scalars, hda, hdb, ht]

/-- The dtype inferred from the elements is the array's, unless there are none. -/
theorem inferredDType_scalars (h : a.inner.data = [] → a.dtype = .float64) : inferredDType a.scalars = a.dtype := by
  cases a with
  | f64 dims data =>
    apply if_pos
    cases data with
    | nil => rfl
    | cons x data => rfl
  | i64 dims data =>
    cases data with
    | nil => cases h rfl
    | cons i data =>
      have hfloat : (data.map (Scalar.int : ℤ → Scalar F)).any Scalar.isFloat = false := by
        rw [List.any_map, List.any_eq_false]
        exact fun i _ => Bool.noConfusion
      change inferredDType (.int i :: data.map Scalar.int) = .int64
      simp [inferredDType, Scalar.isFloat, Scalar.isInt, hfloat]
  | bool dims data =>
    cases data with
    | nil => cases h rfl
    | cons b data =>
      have hfloat : (data.map (Scalar.bool : Bool → Scalar F)).any Scalar.isFloat = false := by
        rw [List.any_map, List.any_eq_false]
        exact fun i _ => Bool.noConfusion
      have hint : (data.map (Scalar.bool : Bool → Scalar F)).any Scalar.isInt = false := by
        rw [List.any_map, List.any_eq_false]
        exact fun i _ => Bool.noConfusion
      change inferredDType (.bool b :: data.map Scalar.bool) = .bool
      simp [inferredDType, Scalar.isFloat, Scalar.isInt, hfloat, hint]

theorem native_scalars (h : a.InRange64) : ∀ x ∈ a.scalars, x.Native := by
  intro x hx
  obtain ⟨e, he, rfl⟩ := List.mem_map.mp hx
  cases a with
  | f64 dims data => trivial
  | i64 dims data => exact h e he
  | bool dims data => trivial

theorem toList_seq (hdim : 0 < a.ndim) : ∃ items, a.toList = .seq items := by
  have hne : a.shape ≠ [] := List.ne_nil_of_length_pos hdim
  exact a.fills_toList.exists_seq hne

theorem fills_singleton (a : AnyArray F) : ∀ t ∈ [a.toList], Rose.Fills a.shape t := by
  intro t ht
  rw [List.mem_singleton.mp ht]
  exact a.fills_toList

/-- The nested lists of an array are rectangular. -/
theorem rectangular_toList (ha : a.inner.Counted) (hrange : a.InRange64) : Rectangular a.toList := by
  refine ⟨Rose.uniform_of_fills a.fills_singleton, leaves_toList ha ▸ native_scalars hrange, fun x hx => ?_⟩
  rcases Rose.mem_level_fills a.fills_singleton hx with ⟨n, hn, -⟩ | ⟨-, hleaf⟩
  · have hlt := (List.getElem?_eq_some_iff.mp hn).1
    exact absurd a.inner.dims.ndim_le (not_le.mpr hlt)
  · exact hleaf

variable (ofInt) in
/-- `array(a.tolist())` is `a` exactly when the nested lists show its shape and its dtype:
no axis but the last is empty, and an array without elements holds floats. -/
theorem array_toList (ha : a.inner.Counted) (hrange : a.InRange64) :
    nestedSequence ofInt a.toList = .ok (some a) ↔
      0 < a.ndim ∧ 0 ∉ a.shape.dropLast ∧ (a.inner.data = [] → a.dtype = .float64) := by
  have hleaves := leaves_toList ha
  have hfills := a.fills_singleton
  constructor
  · intro h
    have hdim : 0 < a.ndim := by
      by_contra hzero
      have hs : a.shape = [] := List.length_eq_zero_iff.mp (Nat.le_zero.mp (not_lt.mp hzero))
      rw [toList, hs] at h
      cases h
    obtain ⟨items, hitems⟩ := toList_seq hdim
    rw [hitems] at h
    have hwalk := walkable_of_accepted h
    obtain ⟨w, hw⟩ := walk_iff.mpr hwalk
    have hrep := (accepts_iff_of_walk hw hwalk).2 a h
    rw [← hitems] at hrep
    obtain ⟨hdtype, hshape, -⟩ := represents_iff.mp hrep
    refine ⟨hdim, fun hzero => ?_, fun hdata => ?_⟩
    · -- below an empty axis no length would be found
      obtain ⟨k, hk, hk0⟩ := List.getElem_of_mem hzero
      have hlast : k+1 < a.shape.length := by
        rw [List.length_dropLast] at hk
        omega
      have hkshape : a.shape[k]? = some 0 := by
        rw [List.getElem?_eq_getElem (by omega), ← hk0, List.getElem_dropLast]
      have hnone : Rose.level (k+1) [a.toList] = [] := by
        apply Rose.level_succ_of_empty
        intro y hy
        rcases Rose.mem_level_fills hfills hy with ⟨n, hn, rfl⟩ | ⟨hn, -⟩
        · rw [hkshape] at hn
          cases hn
          rfl
        · rw [hkshape] at hn
          cases hn
      have hmem := (hshape (k+1) a.shape[k+1]).mp (List.getElem?_eq_getElem hlast)
      rw [hnone] at hmem
      cases hmem
    · rw [← hdtype, hleaves, scalars, hdata]
      rfl
  · rintro ⟨hdim, hzero, hempty⟩
    obtain ⟨items, hitems⟩ := toList_seq hdim
    have hshape := Rose.shapeOf_of_fills hfills (List.cons_ne_nil _ _) hzero
    have hrect := rectangular_toList ha hrange
    have hrep : Represents ofInt a.toList a := by
      refine represents_iff.mpr ⟨hleaves ▸ inferredDType_scalars hempty, hshape, ?_⟩
      rw [hleaves, scalars, List.map_map]
      have hback : Scalar.toElem ofInt a.dtype ∘ Scalar.ofElem a.dtype = id := funext (Scalar.toElem_ofElem a.dtype)
      rw [hback, List.map_id]
    rw [hitems] at hrect hrep hshape hleaves ⊢
    have hwalk := (rectangular_iff.mp hrect).1
    obtain ⟨w, hw⟩ := walk_iff.mpr hwalk
    obtain ⟨hacc, hrepresents⟩ := accepts_iff_of_walk hw hwalk
    have hdims : a.shape = w.dims := shapeOf_unique hw hshape
    have hlt : a.shape.prod < wordModulus := by
      rw [← length_scalars ha, scalars, List.length_map]
      exact lt_wordModulus_of_fits ha.fits
    obtain ⟨arr, harr⟩ := hacc.mpr (by rw [hleaves, length_scalars ha, ← hdims, Nat.mod_eq_of_lt hlt])
    rw [harr, represents_unique (hrepresents arr harr) hrep]

theorem counts_ndim : [2,3].length ≤ maxNdim := by decide

/-- Two rows of integers. -/
def counts : AnyArray ℤ := .i64 ⟨[2,3], _, counts_ndim, rfl⟩ [1,2,3,4,5,6]

/-- The rows as lists. -/
def countRows : List (PySequence ℤ) :=
  [.seq [.leaf (.int 1), .leaf (.int 2), .leaf (.int 3)], .seq [.leaf (.int 4), .leaf (.int 5), .leaf (.int 6)]]

theorem counts_counted : counts.inner.Counted := ⟨by decide, by decide⟩

theorem counts_inRange64 : counts.InRange64 := by
  have hrange : ∀ i ∈ ([1,2,3,4,5,6] : List ℤ), -(2^63) ≤ i ∧ i < 2^63 := by decide
  exact hrange

theorem array_toList_counts : nestedSequence (fun i => i) (.seq countRows) = .ok (some counts) := by
  have hshown : 0 < counts.ndim ∧ 0 ∉ counts.shape.dropLast := by decide
  exact (array_toList (fun i => i) counts_counted counts_inRange64).mpr ⟨hshown.1, hshown.2, fun hdata => by cases hdata⟩

/-- A sequence comes back from its array exactly when it is rectangular and its leaves
are of one kind. -/
theorem toList_array (h : nestedSequence ofInt (.seq items) = .ok (some a)) :
    a.toList = .seq items ↔
      Rectangular (.seq items) ∧ ∀ x ∈ (Rose.seq items).leaves, ∃ e, x = Scalar.ofElem a.dtype e := by
  have hwalk := walkable_of_accepted h
  obtain ⟨w, hw⟩ := walk_iff.mpr hwalk
  have hrep := (accepts_iff_of_walk hw hwalk).2 a h
  obtain ⟨-, hshape, hdata⟩ := represents_iff.mp hrep
  constructor
  · intro he
    have hfills : ∀ t ∈ [Rose.seq items], Rose.Fills a.shape t := he ▸ a.fills_singleton
    refine ⟨⟨Rose.uniform_of_fills hfills, hwalk.native, hwalk.levels⟩, fun x hx => ?_⟩
    have hnative := hwalk.native x hx
    rw [← he, toList, Rose.leaves_tabulate] at hx
    obtain ⟨idx, -, rfl⟩ := List.mem_map.mp hx
    rcases Nat.lt_or_ge (flat a.shape idx) a.scalars.length with hlt | hge
    · rw [List.getD_eq_getElem _ _ hlt]
      obtain ⟨e, -, hx⟩ := List.mem_map.mp (List.getElem_mem hlt)
      exact ⟨e, hx.symm⟩
    · -- the walk let no other object through
      rw [List.getD_eq_default _ _ hge] at hnative
      exact hnative.elim
  · rintro ⟨hrect, hkind⟩
    have hfill := Rose.fills_of_shapeOf hrect.uniform hshape _ (List.mem_singleton_self _)
    symm
    apply hfill.eq_tabulate
    intro idx x hx
    have hleaf := hfill.getElem?_leaves hx
    obtain ⟨e, rfl⟩ := hkind x (List.mem_of_getElem? hleaf)
    rw [List.getD_eq_getElem?_getD, scalars, hdata, List.getElem?_map, List.getElem?_map, hleaf, Option.map_some,
      Option.map_some, Option.getD_some, Scalar.toElem_ofElem]

/-- `[1, True]`. -/
def oneTrue : List (PySequence ℤ) := [.leaf (.int 1), .leaf (.bool true)]

theorem toList_array_oneTrue : ∃ a, nestedSequence (fun i => i) (.seq oneTrue) = .ok (some a) ∧ a.toList ≠ .seq oneTrue := by
  have hok : nestedSequence (fun i => i) (.seq oneTrue) = .ok (some (.i64 ⟨[2], _, by decide, rfl⟩ [1,1])) := rfl
  refine ⟨_, hok, fun h => ?_⟩
  have hkind := ((toList_array hok).mp h).2 (.bool true) (by decide)
  obtain ⟨e, he⟩ := hkind
  cases he

end AnyArray

end LightArray
