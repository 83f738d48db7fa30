import LightArray.LayoutAddress

namespace LightArray
open MachineWord RowMajor

section planView

variable {sels : List Selector} {shape : List ℕ} {plan : List PlanAxis} {m : IndexMap}

theorem planViewLoop_rest_started {offset off : ℕ} {shape strides : List ℕ}
    (h : planViewLoop offset true (shape.map fun d => ⟨0,1,d⟩) shape strides = .window off) :
    off = offset := by
  induction shape generalizing strides with
  | nil =>
    cases h
    rfl
  | cons d ds ih =>
    cases strides with
    | nil =>
      cases h
      rfl
    | cons stride strides =>
      simp only [List.map_cons, planViewLoop, and_self, ↓reduceIte] at h
      split at h
      · cases h
      · exact ih h

theorem planViewLoop_rest {offset off : ℕ} {shape strides : List ℕ}
    (h : planViewLoop offset false (shape.map fun d => ⟨0,1,d⟩) shape strides = .window off) :
    (off : Word) = offset := by
  induction shape generalizing offset strides with
  | nil =>
    cases h
    rfl
  | cons d ds ih =>
    cases strides with
    | nil =>
      cases h
      rfl
    | cons stride strides =>
      have hoff : ((wrapUsize (offset+wrapUsize (0*stride)) : ℕ) : Word) = offset := by
        push_cast [cast_wrapUsize]
        ring
      simp only [List.map_cons, planViewLoop, ne_eq, not_true_eq_false, Bool.false_eq_true,
        ↓reduceIte] at h
      split at h
      · cases h
      · split at h
        · rw [planViewLoop_rest_started h, hoff]
        · rw [ih h, hoff]

/-- After the block has started every axis is taken whole. -/
theorem PlanOf.planViewLoop_started (hp : PlanOf sels shape plan m) {offset off : ℕ}
    (h : planViewLoop offset true plan shape (unitStrides shape) = .window off) :
    off = offset ∧ m.shape.prod = shape.prod ∧
      ∀ idx, InRange m.shape idx → flat m.shape idx = flat shape (m.map idx) := by
  induction hp with
  | rest shape => exact ⟨planViewLoop_rest_started h, rfl, fun _ _ => rfl⟩
  | @int sels shape plan m len i lower upper _ ih =>
    simp only [unitStrides, planViewLoop, one_ne_zero, ↓reduceIte, true_and] at h
    split at h
    · rename_i hwhole
      obtain ⟨hoff, hprod, hflat⟩ := ih h
      obtain ⟨hk, hlen⟩ := hwhole
      refine ⟨hoff, ?_, fun idx hidx => ?_⟩
      · rw [hprod, List.prod_cons, ← hlen, one_mul]
      · rw [hflat idx hidx, flat, hk, zero_mul, zero_add]
    · cases h
  | @slice sels shape plan m len start stop step resolved _ ih =>
    simp only [unitStrides, planViewLoop, ↓reduceIte] at h
    split at h
    · cases h
    · rename_i hpos
      split at h
      · rename_i hwhole
        obtain ⟨hoff, hprod, hflat⟩ := ih h
        obtain ⟨-, hstep, hcount⟩ := hwhole
        have hstart : start = 0 := by
          subst hstep
          have hfirst := slice_position resolved (Nat.pos_of_ne_zero hpos)
          have hlast := slice_position resolved
            (show rangeLength start stop 1-1 < rangeLength start stop 1 by omega)
          omega
        refine ⟨hoff, ?_, fun idx hidx => ?_⟩
        · rw [List.prod_cons, List.prod_cons, hprod, hcount]
        · obtain ⟨i, is, rfl, hi, his⟩ := hidx.cases_cons
          simp only [flat, List.headD_cons, List.tail_cons, hprod, hflat is his, hstart, hstep]
          rw [show (0+1*(i:ℤ)).toNat = i by omega]
      · cases h

/-- The window of a plan starts where its first element lies and runs in
row-major order. -/
theorem PlanOf.planViewLoop_window (hp : PlanOf sels shape plan m) {offset off : ℕ}
    (h : planViewLoop offset false plan shape (unitStrides shape) = .window off)
    {idx : List ℕ} (hidx : InRange m.shape idx) :
    (off : Word)+flat m.shape idx = offset+flat shape (m.map idx) := by
  induction hp generalizing offset idx with
  | rest shape => rw [planViewLoop_rest h]; rfl
  | @int sels shape plan m len i lower upper _ ih =>
    simp only [unitStrides, planViewLoop, one_ne_zero, lt_self_iff_false, Bool.false_eq_true,
      ↓reduceIte] at h
    rw [ih h hidx, flat]
    push_cast [cast_wrapUsize]
    ring
  | @slice sels shape plan m len start stop step resolved tail ih =>
    obtain ⟨i, is, rfl, hi, his⟩ := hidx.cases_cons
    have hcoord := slice_coordinate_cast resolved hi
    simp only [unitStrides, planViewLoop, Bool.false_eq_true, ↓reduceIte] at h
    split at h
    · cases h
    · split at h
      · split at h
        · cases h
        · rename_i hstep
          rw [ne_eq, not_not] at hstep
          obtain ⟨hoff, hprod, hflat⟩ := tail.planViewLoop_started h
          simp only [flat, List.headD_cons, List.tail_cons, hoff]
          push_cast [cast_wrapUsize, cast_asUsize, hcoord, hprod, hflat is his]
          rw [hstep, Int.cast_one]
          ring
      · -- one element of the axis: the block starts further in
        have hi0 : i = 0 := by omega
        have ht := ih h his
        simp only [flat, List.headD_cons, List.tail_cons]
        push_cast [cast_wrapUsize, cast_asUsize, hcoord] at ht ⊢
        rw [hi0, Nat.cast_zero]
        linear_combination ht

theorem planViewLoop_rest_empty {offset : ℕ} {started : Bool} {shape strides : List ℕ}
    (h : planViewLoop offset started (shape.map fun d => ⟨0,1,d⟩) shape strides = .empty) :
    shape.prod = 0 := by
  induction shape generalizing offset started strides with
  | nil => cases h
  | cons d ds ih =>
    cases strides with
    | nil => cases h
    | cons stride strides =>
      simp only [List.map_cons, planViewLoop, ne_eq, not_true_eq_false, and_self,
        ↓reduceIte] at h
      rw [List.prod_cons]
      split at h
      · rename_i hd
        rw [hd, zero_mul]
      · split at h
        · rw [ih h, mul_zero]
        · split at h <;> rw [ih h, mul_zero]

theorem PlanOf.planViewLoop_empty (hp : PlanOf sels shape plan m) {offset : ℕ} {started : Bool}
    {strides : List ℕ} (h : planViewLoop offset started plan shape strides = .empty) :
    m.shape.prod = 0 := by
  induction hp generalizing offset started strides with
  | rest shape => exact planViewLoop_rest_empty h
  | int _ _ _ ih =>
    cases strides with
    | nil => cases h
    | cons stride strides =>
      simp only [planViewLoop, one_ne_zero, lt_self_iff_false, ↓reduceIte] at h
      split at h
      · split at h
        · exact ih h
        · cases h
      · exact ih h
  | slice _ _ ih =>
    cases strides with
    | nil => cases h
    | cons stride strides =>
      simp only [planViewLoop] at h
      rw [List.prod_cons]
      split at h
      · rename_i hc
        rw [hc, zero_mul]
      · split at h
        · split at h
          · rw [ih h, mul_zero]
          · cases h
        · split at h
          · split at h
            · cases h
            · rw [ih h, mul_zero]
          · rw [ih h, mul_zero]

end planView

section locate

theorem drop_unitStrides (shape : List ℕ) (n : ℕ) :
    (unitStrides shape).drop n = unitStrides (shape.drop n) := by
  induction shape generalizing n with
  | nil => simp [unitStrides]
  | cons d ds ih => cases n <;> simp [unitStrides, ih]

/-- `locate` selects the leading integers and adds up their offsets. -/
theorem locateLoop_ok {axis offset off : ℕ} {shape strides : List ℕ} {ints : List ℤ}
    (hdims : ∀ d ∈ shape, d < wordModulus) (hints : ∀ i ∈ ints, -(2^63) ≤ i ∧ i < 2^63)
    (hstr : strides.length = shape.length) (hlen : ints.length ≤ shape.length)
    (hoff : offset < wordModulus) (h : locateLoop axis offset shape strides ints = .ok off) :
    off < wordModulus ∧ ∃ plan m, PlanOf (ints.map .int) shape plan m ∧
      m.shape = shape.drop ints.length ∧
      ∀ idx, (off : Word)+dot idx ((strides.drop ints.length).map (Nat.cast : ℕ → Word)) =
        offset+dot (m.map idx) (strides.map (Nat.cast : ℕ → Word)) := by
  induction ints generalizing axis offset shape strides with
  | nil =>
    have he : locateLoop axis offset shape strides [] = .ok offset := by
      cases shape <;> cases strides <;> rfl
    cases he.symm.trans h
    exact ⟨hoff, _, _, .rest shape, rfl, fun idx => rfl⟩
  | cons i ints ih =>
    cases shape with
    | nil => simp at hlen
    | cons len shape =>
      cases strides with
      | nil => simp at hstr
      | cons stride strides =>
        obtain ⟨k, hk, hrest⟩ := bind_eq_ok.mp h
        obtain ⟨hl, hu, rfl⟩ := normalizeIndex_ok (hdims len (by simp)) (hints i (by simp)) hk
        obtain ⟨hlt, plan, m, hm, hshape, haddr⟩ := ih
          (fun d hd => hdims d (List.mem_cons_of_mem _ hd))
          (fun j hj => hints j (List.mem_cons_of_mem _ hj))
          (by simpa using hstr) (by simpa using hlen) (wrapUsize_lt _) hrest
        refine ⟨hlt, _, _, .int hl hu hm, hshape, fun idx => ?_⟩
        have ha := haddr idx
        push_cast [cast_wrapUsize] at ha
        simp only [List.length_cons, List.drop_succ_cons, List.map_cons, dot_cons]
        linear_combination ha

end locate

end LightArray
