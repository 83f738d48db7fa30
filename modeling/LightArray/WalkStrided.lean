import LightArray.LayoutAddress
import LightArray.Odometer

namespace LightArray
open MachineWord RowMajor

/-- One call `f(k, offset)` followed by `k += 1`: the calls so far and `k`. -/
def visitElement (v : List (ℕ × ℤ) × ℕ) (offset : ℤ) : List (ℕ × ℤ) × ℕ :=
  (v.1 ++ [(v.2,offset)], wrapUsize (v.2+1))

/-- An axis of the odometer of `walk_strided`. -/
def strideAxis (d : ℕ) (stride : ℤ) : Axis ℤ where
  len := d
  inc offset := wrapIsize (offset+stride)
  rewind _ offset := wrapIsize (offset-wrapIsize (stride*asIsize d))

/-- Flat index and byte offset of the elements visited, in order. One and two
dimensions avoid the odometer. -/
def walkStrided : List ℕ → List ℤ → List (ℕ × ℤ)
  | [], _ => [(0,0)]
  | [d], s :: _ => (List.range d).map fun i => (i, wrapIsize (asIsize i*s))
  | [d,e], s :: t :: _ =>
    ((List.range d).foldl (fun v i =>
      let row := wrapIsize (asIsize i*s)
      (List.range e).foldl (fun v j => visitElement v (wrapIsize (row+wrapIsize (asIsize j*t)))) v)
      ([],0)).1
  | shape, strides =>
    let size := wrapProduct shape
    if size = 0 then []
    else
      let axes := List.zipWith strideAxis shape strides
      (visits axes size (List.replicate axes.length 0) 0).zipIdx.map fun p => (p.2, p.1.2)

/-- The calls of `walk_strided` for the given offsets. -/
def calls (offsets : List ℤ) : List (ℕ × ℤ) := offsets.zipIdx.map Prod.swap

theorem getElem?_calls (offsets : List ℤ) (k : ℕ) :
    (calls offsets)[k]? = offsets[k]?.map fun o => (k,o) := by
  simp [calls, Function.comp_def]

/-- The counter is a `usize`: it wraps after every call. -/
theorem foldl_visitElement (offsets : List ℤ) (out : List (ℕ × ℤ)) (k : ℕ) :
    (offsets.foldl visitElement (out,wrapUsize k)).1 = out ++ (offsets.zipIdx k).map fun p => (wrapUsize p.2,p.1) := by
  induction offsets generalizing out k with
  | nil => simp
  | cons o offsets ih =>
    have hk : wrapUsize (wrapUsize k+1) = wrapUsize (k+1) := Nat.mod_add_mod k wordModulus 1
    rw [List.foldl_cons, visitElement, hk, ih]
    simp

/-- It does not wrap before the last call of `2^64`. -/
theorem wrapped_calls {offsets : List ℤ} (h : offsets.length ≤ wordModulus) :
    (offsets.zipIdx.map fun p => (wrapUsize p.2,p.1)) = calls offsets := by
  apply List.map_congr_left
  rintro ⟨o, k⟩ hp
  have hk := List.snd_lt_of_mem_zipIdx hp
  rw [wrapUsize_of_lt (by omega)]
  rfl

/-- An axis of the odometer moves the offset by its stride. -/
theorem exactAxis_strideAxis (d : ℕ) (stride : ℤ) :
    ExactAxis (Int.cast : ℤ → Word) (strideAxis d stride) (stride : Word) := by
  constructor
  · intro o
    show ((wrapIsize (o+stride) : ℤ) : Word) = _
    rw [cast_wrapIsize, Int.cast_add]
  · intro o
    show ((wrapIsize (o-wrapIsize (stride*asIsize d)) : ℤ) : Word) = o-(d : Word)*stride
    push_cast [cast_wrapIsize, cast_asIsize]
    ring

theorem exactAxes_zipWith {shape : List ℕ} {strides : List ℤ} (h : strides.length = shape.length) :
    List.Forall₂ (ExactAxis (Int.cast : ℤ → Word)) (List.zipWith strideAxis shape strides)
      (strideWords strides) := by
  induction shape generalizing strides with
  | nil =>
    rw [List.length_nil, List.length_eq_zero_iff] at h
    subst h
    exact .nil
  | cons d shape ih =>
    cases strides with
    | nil => simp at h
    | cons s strides => exact .cons (exactAxis_strideAxis d s) (ih (by simpa using h))

theorem lens_zipWith {shape : List ℕ} {strides : List ℤ} (h : strides.length = shape.length) :
    lens (List.zipWith strideAxis shape strides) = shape := by
  induction shape generalizing strides with
  | nil => rfl
  | cons d shape ih =>
    cases strides with
    | nil => simp at h
    | cons s strides =>
      rw [List.zipWith_cons_cons, lens_cons, ih (by simpa using h)]
      rfl

/-- The odometer visits every multi-index at its offset. -/
theorem walk_odometer {shape : List ℕ} {strides : List ℤ} (h : strides.length = shape.length)
    (hpos : 0 < shape.prod) :
    ((visits (List.zipWith strideAxis shape strides) shape.prod
      (List.replicate (List.zipWith strideAxis shape strides).length 0) 0).map Prod.snd).map
        (Int.cast : ℤ → Word) = (enum shape).map fun idx => dot idx (strideWords strides) := by
  have hl := lens_zipWith h
  obtain ⟨hfst, hsnd⟩ := visits_full Int.cast (exactAxes_zipWith h) 0 (by rwa [hl])
  rw [hl] at hfst hsnd
  calc (_ : List Word) = (visits (List.zipWith strideAxis shape strides) shape.prod
        (List.replicate (List.zipWith strideAxis shape strides).length 0) 0).map
          fun p => dot p.1 (strideWords strides) := by
        rw [List.map_map]
        apply List.map_congr_left
        intro p hp
        rw [Function.comp_apply, hsnd p hp, Int.cast_zero, zero_add]
    _ = (enum shape).map fun idx => dot idx (strideWords strides) := by
        rw [← hfst, List.map_map]
        rfl

theorem walk_line (d : ℕ) (s : ℤ) :
    ((List.range d).map fun i => (i, wrapIsize (asIsize i*s))) =
        calls ((List.range d).map fun i => wrapIsize (asIsize i*s)) ∧
      ((List.range d).map fun i => wrapIsize (asIsize i*s)).map (Int.cast : ℤ → Word) =
        (enum [d]).map fun idx => dot idx (strideWords [s]) := by
  constructor
  · apply List.ext_getElem?
    intro k
    rw [getElem?_calls]
    by_cases hk : k < d <;> simp [hk]
  · rw [enum_singleton, List.map_map, List.map_map]
    apply List.map_congr_left
    intro i _
    simp [cast_asIsize]

/-- The offsets of the two-dimensional case, in the order of its nested loops. -/
def planeOffsets (d e : ℕ) (s t : ℤ) : List ℤ :=
  (List.range d).flatMap fun i => (List.range e).map fun j => wrapIsize (wrapIsize (asIsize i*s)+wrapIsize (asIsize j*t))

theorem length_planeOffsets (d e : ℕ) (s t : ℤ) : (planeOffsets d e s t).length = d*e := by
  simp [planeOffsets, List.length_flatMap]

theorem walkStrided_plane (d e : ℕ) (s t : ℤ) :
    walkStrided [d,e] [s,t] = (planeOffsets d e s t).zipIdx.map fun p => (wrapUsize p.2,p.1) := by
  calc walkStrided [d,e] [s,t] = ((planeOffsets d e s t).foldl visitElement ([],wrapUsize 0)).1 := by
        rw [planeOffsets, List.foldl_flatMap]
        simp only [List.foldl_map]
        rfl
    _ = (planeOffsets d e s t).zipIdx.map fun p => (wrapUsize p.2,p.1) := by
        rw [foldl_visitElement, List.nil_append]

/-- The nested loops of the two-dimensional case, as one pass over the offsets. -/
theorem walk_plane {d e : ℕ} (s t : ℤ) (h : d*e ≤ wordModulus) :
    walkStrided [d,e] [s,t] = calls (planeOffsets d e s t) ∧
      (planeOffsets d e s t).map (Int.cast : ℤ → Word) =
        (enum [d,e]).map fun idx => dot idx (strideWords [s,t]) := by
  constructor
  · rw [walkStrided_plane, wrapped_calls (by rwa [length_planeOffsets])]
  · rw [planeOffsets, enum, enum_singleton, List.map_flatMap, List.map_flatMap]
    apply List.flatMap_congr
    intro i _
    rw [List.map_map, List.map_map, List.map_map]
    apply List.map_congr_left
    intro j _
    simp [cast_asIsize]

/-- The counter reaches every element. -/
def CountFits (shape : List ℕ) : Prop := shape.prod < wordModulus ∨ shape.length = 2 ∧ shape.prod = wordModulus

/-- Every case of `walk_strided` visits the elements in C order, each at the
offset of its multi-index. -/
theorem walkStrided_fits {shape : List ℕ} {strides : List ℤ} (h : strides.length = shape.length)
    (hcount : CountFits shape) :
    ∃ offsets : List ℤ, walkStrided shape strides = calls offsets ∧
      offsets.map (Int.cast : ℤ → Word) = (enum shape).map fun idx => dot idx (strideWords strides) := by
  match shape, strides with
  | [], _ => exact ⟨[0], rfl, by simp [enum]⟩
  | [d], [s] => exact ⟨_, walk_line d s⟩
  | [d,e], [s,t] =>
    have hle : d*e ≤ wordModulus := by
      have hprod : [d,e].prod ≤ wordModulus := hcount.elim le_of_lt fun h => h.2.le
      simpa using hprod
    exact ⟨_, walk_plane s t hle⟩
  | d :: e :: f :: shape, strides =>
    have hprod : (d :: e :: f :: shape).prod < wordModulus :=
      hcount.resolve_right fun h => absurd h.1 (by simp)
    rw [walkStrided, wrapProduct_of_lt hprod]
    · dsimp only
      split
      · rename_i hz
        refine ⟨[], rfl, ?_⟩
        have hnil : enum (d :: e :: f :: shape) = [] :=
          List.length_eq_zero_iff.mp (by rw [length_enum, hz])
        rw [hnil]
        rfl
      · rename_i hne
        refine ⟨_, ?_, walk_odometer h (Nat.pos_of_ne_zero hne)⟩
        rw [calls, List.zipIdx_map, List.map_map]
        rfl
    all_goals simp

theorem walkStrided_spec {shape : List ℕ} {strides : List ℤ} (h : strides.length = shape.length)
    (hprod : shape.prod < wordModulus) :
    ∃ offsets : List ℤ, walkStrided shape strides = calls offsets ∧
      offsets.map (Int.cast : ℤ → Word) = (enum shape).map fun idx => dot idx (strideWords strides) :=
  walkStrided_fits h (.inl hprod)

/-- The element at a multi-index is visited at its flat position. -/
theorem getElem?_walkStrided {shape idx : List ℕ} {strides : List ℤ}
    (h : strides.length = shape.length) (hprod : shape.prod < wordModulus) (hidx : InRange shape idx) :
    ∃ offset : ℤ, (walkStrided shape strides)[flat shape idx]? = some (flat shape idx, offset) ∧
      (offset : Word) = dot idx (strideWords strides) := by
  obtain ⟨offsets, hw, hoff⟩ := walkStrided_spec h hprod
  have hk : flat shape idx < (enum shape).length := by
    rw [length_enum]
    exact flat_lt hidx
  have hget := congrArg (·[flat shape idx]?) hoff
  simp only [List.getElem?_map, List.getElem?_eq_getElem hk, getElem_enum hk, unflat_flat hidx,
    Option.map_some] at hget
  obtain ⟨o, ho, hcast⟩ := Option.map_eq_some_iff.mp hget
  exact ⟨o, by rw [hw, getElem?_calls, ho, Option.map_some], hcast⟩

theorem length_walkStrided {shape : List ℕ} {strides : List ℤ} (h : strides.length = shape.length)
    (hprod : shape.prod < wordModulus) : (walkStrided shape strides).length = shape.prod := by
  obtain ⟨offsets, hw, hoff⟩ := walkStrided_spec h hprod
  have hlen := congrArg List.length hoff
  rw [List.length_map, List.length_map, length_enum] at hlen
  rw [hw, calls, List.length_map, List.length_zipIdx, hlen]

end LightArray
