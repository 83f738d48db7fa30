import LightArray.PyArray

namespace LightArray
open MachineWord RowMajor

/-- A result shape with the source multi-index of every result multi-index. -/
structure IndexMap where
  shape : List ℕ
  map : List ℕ → List ℕ

namespace IndexMap

/-- Index the result of `m` by `n`. -/
def comp (m n : IndexMap) : IndexMap := ⟨n.shape, fun idx => m.map (n.map idx)⟩

/-- A faithful map into `source`: in range, and distinct for distinct indices. -/
structure Into (m : IndexMap) (source : List ℕ) : Prop where
  inRange : ∀ idx, InRange m.shape idx → InRange source (m.map idx)
  injective : ∀ i j, InRange m.shape i → InRange m.shape j → m.map i = m.map j → i = j

theorem Into.comp {m n : IndexMap} {source : List ℕ} (hm : m.Into source) (hn : n.Into m.shape) :
    (m.comp n).Into source := by
  constructor
  · intro idx h
    exact hm.inRange _ (hn.inRange idx h)
  · intro i j hi hj h
    exact hn.injective i j hi hj
      (hm.injective _ _ (hn.inRange i hi) (hn.inRange j hj) h)

/-- The identity on a shape. -/
def refl (shape : List ℕ) : IndexMap := ⟨shape, fun idx => idx⟩

theorem refl_into (shape : List ℕ) : (refl shape).Into shape :=
  ⟨fun _ h => h, fun _ _ _ _ h => h⟩

end IndexMap

/-- `len(range(start, stop, step))`. -/
def rangeLength (start stop step : ℤ) : ℕ :=
  if 0 < step then ((stop-start+step-1)/step).toNat
  else if step < 0 then ((start-stop-step-1)/(-step)).toNat
  else 0

/-- A basic index without `None`: an integer drops its axis and counts from the
end when negative, a slice enumerates `start, start+step, ...`, and the axes
that are not indexed are kept. -/
def numpySelect : List Selector → List ℕ → Option IndexMap
  | [], shape => some (.refl shape)
  | .int i :: sels, d :: ds =>
    if -d ≤ i ∧ i < d then
      (numpySelect sels ds).map fun m =>
        ⟨m.shape, fun idx => (if i < 0 then i+d else i).toNat :: m.map idx⟩
    else none
  | .slice start stop step :: sels, _ :: ds =>
    (numpySelect sels ds).map fun m =>
      ⟨rangeLength start stop step :: m.shape,
        fun idx => (start+step*idx.headD 0).toNat :: m.map idx.tail⟩
  | _ :: _, [] => none

/-- A basic index: `None` gives an axis of length 1 and reads nothing. -/
def numpyIndex : List Item → List ℕ → Option IndexMap
  | [], shape => some (.refl shape)
  | .newaxis :: key, shape =>
    (numpyIndex key shape).map fun m => ⟨1 :: m.shape, fun idx => m.map idx.tail⟩
  | .int i :: key, d :: ds =>
    if -d ≤ i ∧ i < d then
      (numpyIndex key ds).map fun m =>
        ⟨m.shape, fun idx => (if i < 0 then i+d else i).toNat :: m.map idx⟩
    else none
  | .slice start stop step :: key, _ :: ds =>
    (numpyIndex key ds).map fun m =>
      ⟨rangeLength start stop step :: m.shape,
        fun idx => (start+step*idx.headD 0).toNat :: m.map idx.tail⟩
  | _ :: _, [] => none

/-- One step by NumPy's rules. -/
def numpyStep : Step → List ℕ → Option IndexMap
  | .index key, shape => numpyIndex key shape
  | .transpose, shape => some ⟨shape.reverse, List.reverse⟩

/-- A chain of steps by NumPy's rules, composed. -/
def numpyChain : List Step → List ℕ → Option IndexMap
  | [], shape => some (.refl shape)
  | step :: steps, shape => do
    let m ← numpyStep step shape
    let n ← numpyChain steps m.shape
    some (m.comp n)

/-- What `slice.indices(len)` returns: bounds inside the axis, on the side the
step comes from. -/
def ResolvedSlice (len : ℕ) (start stop step : ℤ) : Prop :=
  0 < step ∧ 0 ≤ start ∧ start ≤ len ∧ 0 ≤ stop ∧ stop ≤ len ∨
    step < 0 ∧ -1 ≤ start ∧ start < len ∧ -1 ≤ stop ∧ stop < len

/-- Every slice among the selectors is resolved for its axis. -/
def ResolvedSelectors : List Selector → List ℕ → Prop
  | .slice start stop step :: sels, d :: ds =>
    ResolvedSlice d start stop step ∧ ResolvedSelectors sels ds
  | .int _ :: sels, _ :: ds => ResolvedSelectors sels ds
  | _, _ => True

/-- Every slice of the step is resolved for its axis of an array of this shape. -/
def Step.Resolved : Step → List ℕ → Prop
  | .index key, shape => ResolvedSelectors (selectors key) shape
  | .transpose, _ => True

/-- The result shape of a key with `None` entries: the axes `K` the slices keep,
with `x` in the place of every `None`. -/
def weave {α : Type} (x : α) : List Item → List α → List α
  | [], K => K
  | .newaxis :: key, K => x :: weave x key K
  | .int _ :: key, K => weave x key K
  | .slice .. :: key, k :: K => k :: weave x key K
  | .slice .. :: key, [] => weave x key []

/-- Drop the coordinates of the `None` axes. -/
def unweave : List Item → List ℕ → List ℕ
  | [], idx => idx
  | .newaxis :: key, idx => unweave key idx.tail
  | .int _ :: key, idx => unweave key idx
  | .slice .. :: key, idx => idx.headD 0 :: unweave key idx.tail

/-- The number of axes a key's slices keep. -/
def sliceAxes : List Item → ℕ
  | [] => 0
  | .slice .. :: key => sliceAxes key+1
  | _ :: key => sliceAxes key

section resolved

/-- The two formulas for the length of a slice agree. -/
theorem sliceCount_eq {len : ℕ} {start stop step : ℤ} (h : ResolvedSlice len start stop step) :
    sliceCount start stop step = rangeLength start stop step := by
  unfold sliceCount rangeLength
  rcases h with ⟨hs, -, -, -, -⟩ | ⟨hs, -, -, -, -⟩
  · rw [if_pos hs, if_pos hs]
    split
    · rw [Int.tdiv_eq_ediv_of_nonneg (by omega),
        show stop-start+step-1 = (stop-start-1)+step*1 by ring, Int.add_mul_ediv_left _ _ hs.ne']
    · rename_i hle
      have hneg : (stop-start+step-1)/step ≤ 0 := by
        have hlt : (stop-start+step-1)/step < 1 := Int.ediv_lt_of_lt_mul hs (by omega)
        omega
      omega
  · have hp : 0 < -step := by omega
    rw [if_neg (show ¬ 0 < step by omega), if_neg (show ¬ 0 < step by omega), if_pos hs]
    split
    · rw [Int.tdiv_eq_ediv_of_nonneg (by omega),
        show start-stop-step-1 = (start-stop-1)+(-step)*1 by ring,
        Int.add_mul_ediv_left _ _ hp.ne']
    · rename_i hle
      have hlt : (start-stop-step-1)/(-step) < 1 := Int.ediv_lt_of_lt_mul hp (by omega)
      omega

/-- The elements of a resolved slice lie inside its axis. -/
theorem slice_position {len : ℕ} {start stop step : ℤ} (h : ResolvedSlice len start stop step)
    {i : ℕ} (hi : i < rangeLength start stop step) :
    0 ≤ start+step*i ∧ start+step*i < len := by
  unfold rangeLength at hi
  rcases h with ⟨hs, h0, h1, h2, h3⟩ | ⟨hs, h0, h1, h2, h3⟩
  · rw [if_pos hs] at hi
    have hq : ((i:ℤ)+1) ≤ (stop-start+step-1)/step := by omega
    have hm := (Int.le_ediv_iff_mul_le hs).mp hq
    have hmul : 0 ≤ step*i := by positivity
    constructor
    · omega
    · have he : ((i:ℤ)+1)*step = step*i+step := by ring
      omega
  · have hp : 0 < -step := by omega
    rw [if_neg (show ¬ 0 < step by omega), if_pos hs] at hi
    have hq : ((i:ℤ)+1) ≤ (start-stop-step-1)/(-step) := by omega
    have hm := (Int.le_ediv_iff_mul_le hp).mp hq
    have he : ((i:ℤ)+1)*(-step) = -(step*i)+(-step) := by ring
    have hmul : step*i ≤ 0 := Int.mul_nonpos_of_nonpos_of_nonneg hs.le (by omega)
    constructor <;> omega

theorem slice_coordinate_cast {len : ℕ} {start stop step : ℤ} (h : ResolvedSlice len start stop step) {i : ℕ}
    (hi : i < rangeLength start stop step) : (((start+step*i).toNat : ℕ) : Word) = start+step*i := by
  rw [← Int.cast_natCast, Int.toNat_of_nonneg (slice_position h hi).1]
  push_cast
  rfl

/-- A resolved slice visits no element twice. -/
theorem slice_injective {len : ℕ} {start stop step : ℤ} (h : ResolvedSlice len start stop step)
    {i j : ℕ} (he : start+step*i = start+step*j) : i = j := by
  have hne : step ≠ 0 := by rcases h with h | h <;> omega
  exact_mod_cast mul_left_cancel₀ hne (add_left_cancel he)

/-- A resolved slice is no longer than its axis. -/
theorem rangeLength_le {len : ℕ} {start stop step : ℤ} (h : ResolvedSlice len start stop step) :
    rangeLength start stop step ≤ len := by
  by_contra hgt
  have hmaps : ∀ i ∈ Finset.range (rangeLength start stop step),
      (start+step*i).toNat ∈ Finset.range len := by
    intro i hi
    have hp := slice_position h (Finset.mem_range.mp hi)
    exact Finset.mem_range.mpr (by omega)
  have hcard : (Finset.range len).card < (Finset.range (rangeLength start stop step)).card := by
    simpa using Nat.lt_of_not_le hgt
  obtain ⟨i, hi, j, hj, hne, he⟩ := Finset.exists_ne_map_eq_of_card_lt_of_maps_to hcard hmaps
  have hpi := slice_position h (Finset.mem_range.mp hi)
  have hpj := slice_position h (Finset.mem_range.mp hj)
  exact hne (slice_injective h (by omega))

end resolved

end LightArray
