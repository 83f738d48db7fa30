import LightArray.IndexMap

namespace LightArray
open MachineWord RowMajor

/-- The coordinate an in-range integer index selects. -/
def coordinate (len : ℕ) (i : ℤ) : ℕ := (if i < 0 then i+len else i).toNat

/-- Plans of basic indices whose slices are resolved, with their index maps. -/
inductive PlanOf : List Selector → List ℕ → List PlanAxis → IndexMap → Prop
  | rest (shape : List ℕ) : PlanOf [] shape (shape.map fun d => ⟨0,1,d⟩) (.refl shape)
  | int {sels shape plan m} {len : ℕ} {i : ℤ} (lower : -(len:ℤ) ≤ i) (upper : i < len)
      (tail : PlanOf sels shape plan m) :
      PlanOf (.int i :: sels) (len :: shape) (⟨coordinate len i,1,1⟩ :: plan)
        ⟨m.shape, fun idx => coordinate len i :: m.map idx⟩
  | slice {sels shape plan m} {len : ℕ} {start stop step : ℤ} (resolved : ResolvedSlice len start stop step)
      (tail : PlanOf sels shape plan m) :
      PlanOf (.slice start stop step :: sels) (len :: shape)
        (⟨asUsize start,step,rangeLength start stop step⟩ :: plan)
        ⟨rangeLength start stop step :: m.shape,
          fun idx => (start+step*idx.headD 0).toNat :: m.map idx.tail⟩

/-- Every integer among the selectors is an `isize`. -/
def IsizeSelectors (sels : List Selector) : Prop :=
  ∀ i, Selector.int i ∈ sels → -(2^63) ≤ i ∧ i < 2^63

theorem coordinate_lt {len : ℕ} {i : ℤ} (hl : -(len:ℤ) ≤ i) (hu : i < len) :
    coordinate len i < len := by
  unfold coordinate
  split <;> omega

/-- Counting back from the end wraps once the index passes `isize::MAX`. -/
theorem wrapIsize_index {len : ℕ} {i : ℤ} (hlen : len < wordModulus) (hi : -(2^63) ≤ i) (hneg : i < 0) :
    wrapIsize (i+asIsize len) = if i+len < 2^63 then i+len else i+len-2^64 := by
  rw [wordModulus_eq] at hlen
  have hw : wrapIsize (i+asIsize len) = wrapIsize (i+len) := by
    apply wrapIsize_congr
    push_cast [cast_asIsize]
    rfl
  rw [hw]
  split
  · exact wrapIsize_of_range (by omega) ‹_›
  · have hshift : wrapIsize (i+len) = wrapIsize (i+len-2^64) := by
      apply wrapIsize_congr
      have hz : ((2^64 : ℤ) : Word) = 0 := by decide
      push_cast at hz ⊢
      rw [hz, sub_zero]
    rw [hshift, wrapIsize_of_range (by omega) (by omega)]

/-- The bounds check on a position that is an `isize`. -/
theorem checkedIndex_iff {len axis k : ℕ} {index j : ℤ} (hj : j < 2^63) :
    (if j < 0 ∨ len ≤ asUsize j then .error (.array (.indexOutOfBounds index axis len)) else .ok (asUsize j) :
      Except Failure ℕ) = .ok k ↔ 0 ≤ j ∧ j < len ∧ k = j.toNat := by
  rcases lt_or_ge j 0 with hneg | hpos
  · rw [if_pos (.inl hneg)]
    exact iff_of_false nofun (by omega)
  · have hu : asUsize j = j.toNat := asUsize_of_nonneg hpos (by rw [wordModulus_eq]; omega)
    rw [hu]
    split
    · exact iff_of_false nofun (by omega)
    · rw [Except.ok.injEq]
      omega

/-- Index normalisation succeeds on the indices of the axis only, and on those that count back to
an element past `isize::MAX` not even then. -/
theorem normalizeIndex_iff {len axis k : ℕ} {i : ℤ} (hlen : len < wordModulus) (hi : -(2^63) ≤ i ∧ i < 2^63) :
    normalizeIndex len i axis = .ok k ↔ (-(len:ℤ) ≤ i ∧ i < len) ∧ (i < 0 → i+len < 2^63) ∧ k = coordinate len i := by
  unfold normalizeIndex coordinate
  by_cases hneg : i < 0
  · simp only [if_pos hneg]
    rw [checkedIndex_iff (wrapIsize_range _).2, wrapIsize_index hlen hi.1 hneg]
    rw [wordModulus_eq] at hlen
    split <;> omega
  · simp only [if_neg hneg]
    rw [checkedIndex_iff hi.2]
    omega
theorem normalizeIndex_ok {len axis k : ℕ} {i : ℤ} (hlen : len < wordModulus)
    (hi : -(2^63) ≤ i ∧ i < 2^63) (h : normalizeIndex len i axis = .ok k) :
    -(len:ℤ) ≤ i ∧ i < len ∧ k = coordinate len i := by
  obtain ⟨⟨hl, hu⟩, -, hk⟩ := (normalizeIndex_iff hlen hi).mp h
  exact ⟨hl, hu, hk⟩

theorem planLoop_nil (axis : ℕ) (shape : List ℕ) :
    planLoop axis shape [] = .ok (shape.map (fun d => ⟨0,1,d⟩), shape) := by
  induction shape generalizing axis with
  | nil => rfl
  | cons d ds ih =>
    rw [planLoop, ih]
    rfl

/-- A plan that was made is the plan of its selectors. -/
theorem planLoop_planOf {axis : ℕ} {shape out : List ℕ} {sels : List Selector} {plan : List PlanAxis}
    (hdims : ∀ d ∈ shape, d < wordModulus) (hints : IsizeSelectors sels)
    (hres : ResolvedSelectors sels shape) (hlen : sels.length ≤ shape.length)
    (h : planLoop axis shape sels = .ok (plan, out)) :
    ∃ m, PlanOf sels shape plan m ∧ m.shape = out := by
  induction sels generalizing axis shape plan out with
  | nil =>
    rw [planLoop_nil] at h
    cases h
    exact ⟨_, .rest shape, rfl⟩
  | cons sel sels ih =>
    cases shape with
    | nil => simp at hlen
    | cons len shape =>
      have hdims' : ∀ d ∈ shape, d < wordModulus := fun d hd => hdims d (List.mem_cons_of_mem _ hd)
      have hints' : IsizeSelectors sels := fun i hi => hints i (List.mem_cons_of_mem _ hi)
      have hlen' : sels.length ≤ shape.length := by simpa using hlen
      cases sel with
      | int i =>
        obtain ⟨k, hk, htail⟩ := bind_eq_ok.mp h
        obtain ⟨⟨plan', out'⟩, hrest, he⟩ := bind_eq_ok.mp htail
        cases he
        obtain ⟨m, hm, hshape⟩ := ih hdims' hints' hres hlen' hrest
        obtain ⟨hl, hu, rfl⟩ := normalizeIndex_ok (hdims len (by simp)) (hints i (by simp)) hk
        exact ⟨_, .int hl hu hm, hshape⟩
      | slice start stop step =>
        obtain ⟨⟨plan', out'⟩, hrest, he⟩ := bind_eq_ok.mp h
        cases he
        obtain ⟨m, hm, rfl⟩ := ih hdims' hints' hres.2 hlen' hrest
        rw [sliceCount_eq hres.1]
        exact ⟨_, .slice hres.1 hm, rfl⟩

theorem selectionPlan_planOf {s : ℕ} {d : Dims s} {out : List ℕ} {sels : List Selector}
    {plan : List PlanAxis} (hdims : ∀ n ∈ d.shape, n < wordModulus) (hints : IsizeSelectors sels)
    (hres : ResolvedSelectors sels d.shape) (h : d.selectionPlan sels = .ok (plan, out)) :
    ∃ m, PlanOf sels d.shape plan m ∧ m.shape = out := by
  unfold Dims.selectionPlan at h
  split at h
  · cases h
  · rename_i hlen
    exact planLoop_planOf hdims hints hres (not_lt.mp hlen) h

namespace PlanOf

variable {sels : List Selector} {shape : List ℕ} {plan : List PlanAxis} {m : IndexMap}

theorem numpySelect (h : PlanOf sels shape plan m) : numpySelect sels shape = some m := by
  induction h with
  | rest shape => cases shape <;> rfl
  | int lower upper _ ih =>
    simp only [LightArray.numpySelect, if_pos (And.intro lower upper), ih, Option.map_some]
    rfl
  | slice _ _ ih => simp only [LightArray.numpySelect, ih, Option.map_some]

theorem into (h : PlanOf sels shape plan m) : m.Into shape := by
  induction h with
  | rest shape => exact IndexMap.refl_into shape
  | int lower upper _ ih =>
    constructor
    · intro idx hidx
      exact inRange_cons.mpr ⟨coordinate_lt lower upper, ih.inRange idx hidx⟩
    · intro i j hi hj he
      exact ih.injective i j hi hj (List.cons.inj he).2
  | slice resolved _ ih =>
    constructor
    · intro idx hidx
      obtain ⟨i, is, rfl, hi, his⟩ := hidx.cases_cons
      have hp := slice_position resolved hi
      exact inRange_cons.mpr ⟨by simp only [List.headD_cons]; omega, ih.inRange is his⟩
    · intro i j hi hj he
      obtain ⟨a, as, rfl, ha, has⟩ := hi.cases_cons
      obtain ⟨b, bs, rfl, hb, hbs⟩ := hj.cases_cons
      obtain ⟨hhead, htail⟩ := List.cons.inj he
      have hpa := slice_position resolved ha
      have hpb := slice_position resolved hb
      simp only [List.headD_cons] at hhead
      have hab : a = b := slice_injective resolved (by omega)
      rw [hab, ih.injective as bs has hbs htail]

end PlanOf

end LightArray
