import LightArray.MachineWord
import Mathlib.Data.List.Forall2
import Mathlib.Data.List.Range
import Mathlib.Data.List.Nodup

/-! Multi-indices of a shape, their row-major positions and the linear form of
a stride list. A shape is a list of axis lengths, outermost axis first. -/
namespace RowMajor

/-- Every coordinate lies inside its axis. -/
def InRange (shape idx : List ℕ) : Prop := List.Forall₂ (fun i d => i < d) idx shape

instance (shape idx : List ℕ) : Decidable (InRange shape idx) :=
  inferInstanceAs (Decidable (List.Forall₂ (fun i d => i < d) idx shape))

/-- Row-major position of a multi-index. -/
def flat : List ℕ → List ℕ → ℕ
  | _ :: ds, i :: is => i*ds.prod+flat ds is
  | _, _ => 0

/-- The multi-index at a row-major position. -/
def unflat : List ℕ → ℕ → List ℕ
  | [], _ => []
  | _ :: ds, n => n/ds.prod :: unflat ds (n%ds.prod)

/-- All multi-indices in row-major order. -/
def enum : List ℕ → List (List ℕ)
  | [] => [[]]
  | d :: ds => (List.range d).flatMap fun i => (enum ds).map (i :: ·)

/-- Linear form of a stride list at a multi-index. -/
def dot {R : Type*} [Semiring R] : List ℕ → List R → R
  | i :: is, s :: ss => (i:R)*s+dot is ss
  | _, _ => 0

/-- Row-major strides in elements. -/
def unitStrides : List ℕ → List ℕ
  | [] => []
  | _ :: ds => ds.prod :: unitStrides ds

theorem length_unitStrides (shape : List ℕ) : (unitStrides shape).length = shape.length := by
  induction shape with
  | nil => rfl
  | cons d ds ih => simp [unitStrides, ih]

theorem getElem?_unitStrides_last {shape : List ℕ} (h : 0 < shape.length) :
    (unitStrides shape)[shape.length-1]? = some 1 := by
  induction shape with
  | nil => cases h
  | cons d ds ih =>
    cases ds with
    | nil => rfl
    | cons e es => exact ih (Nat.succ_pos _)

/-- The trailing blocks of a non-empty shape are no larger than the whole. -/
theorem le_prod_of_mem_unitStrides {shape : List ℕ} (h : shape.prod ≠ 0) {p : ℕ}
    (hp : p ∈ unitStrides shape) : p ≤ shape.prod := by
  induction shape with
  | nil => simp [unitStrides] at hp
  | cons d ds ih =>
    rw [List.prod_cons] at h ⊢
    have hd : 1 ≤ d := Nat.one_le_iff_ne_zero.mpr (left_ne_zero_of_mul h)
    have hle : ds.prod ≤ d*ds.prod := Nat.le_mul_of_pos_left _ hd
    rcases List.mem_cons.mp hp with rfl | hp
    · exact hle
    · exact (ih (right_ne_zero_of_mul h) hp).trans hle

section InRange

@[simp] theorem inRange_nil {idx : List ℕ} : InRange [] idx ↔ idx = [] := by
  simp [InRange]

@[simp] theorem inRange_cons {d i : ℕ} {ds is : List ℕ} :
    InRange (d :: ds) (i :: is) ↔ i < d ∧ InRange ds is := by
  simp [InRange]

@[simp] theorem not_inRange_cons_nil {d : ℕ} {ds : List ℕ} : ¬ InRange (d :: ds) [] := by
  simp [InRange]

theorem InRange.length_eq {shape idx : List ℕ} (h : InRange shape idx) :
    idx.length = shape.length := List.Forall₂.length_eq h

theorem InRange.cases_cons {d : ℕ} {ds idx : List ℕ} (h : InRange (d :: ds) idx) :
    ∃ i is, idx = i :: is ∧ i < d ∧ InRange ds is := by
  cases idx with
  | nil => exact absurd h not_inRange_cons_nil
  | cons i is => exact ⟨i, is, rfl, inRange_cons.mp h⟩

theorem InRange.reverse {shape idx : List ℕ} (h : InRange shape idx) :
    InRange shape.reverse idx.reverse := List.rel_reverse h

theorem InRange.append {s t i j : List ℕ} (hi : InRange s i) (hj : InRange t j) :
    InRange (s ++ t) (i ++ j) := List.rel_append hi hj

theorem InRange.split {s t idx : List ℕ} (h : InRange (s ++ t) idx) :
    ∃ i j, idx = i ++ j ∧ InRange s i ∧ InRange t j :=
  ⟨idx.take s.length, idx.drop s.length, (List.take_append_drop ..).symm, List.forall₂_take_append _ _ _ h,
    List.forall₂_drop_append _ _ _ h⟩

/-- A shape with an in-range index has no empty axis. -/
theorem InRange.prod_pos {shape idx : List ℕ} (h : InRange shape idx) : 0 < shape.prod := by
  induction shape generalizing idx with
  | nil => simp
  | cons d ds ih =>
    obtain ⟨i, is, rfl, hi, his⟩ := h.cases_cons
    rw [List.prod_cons]
    exact Nat.mul_pos (by omega) (ih his)

/-- A coordinate is smaller than the number of multi-indices. -/
theorem InRange.lt_prod_of_mem {shape idx : List ℕ} (h : InRange shape idx) {i : ℕ} (hi : i ∈ idx) : i < shape.prod := by
  induction shape generalizing idx with
  | nil =>
    rw [inRange_nil.mp h] at hi
    cases hi
  | cons d ds ih =>
    obtain ⟨j, is, rfl, hj, his⟩ := h.cases_cons
    rw [List.prod_cons]
    rcases List.mem_cons.mp hi with rfl | hi
    · exact hj.trans_le (Nat.le_mul_of_pos_right d his.prod_pos)
    · exact (ih his hi).trans_le (Nat.le_mul_of_pos_left _ (by omega))

end InRange

section flat

theorem flat_lt {shape idx : List ℕ} (h : InRange shape idx) : flat shape idx < shape.prod := by
  induction shape generalizing idx with
  | nil =>
    rw [inRange_nil.mp h]
    simp [flat]
  | cons d ds ih =>
    obtain ⟨i, is, rfl, hi, his⟩ := h.cases_cons
    have ht := ih his
    calc
      i*ds.prod+flat ds is < i*ds.prod+ds.prod := by omega
      _ = (i+1)*ds.prod := by ring
      _ ≤ d*ds.prod := Nat.mul_le_mul_right _ hi
      _ = (d :: ds).prod := List.prod_cons.symm

theorem unflat_flat {shape idx : List ℕ} (h : InRange shape idx) :
    unflat shape (flat shape idx) = idx := by
  induction shape generalizing idx with
  | nil => exact (inRange_nil.mp h).symm
  | cons d ds ih =>
    obtain ⟨i, is, rfl, -, his⟩ := h.cases_cons
    have hlt := flat_lt his
    have hpos : 0 < ds.prod := his.prod_pos
    have hdiv : (i*ds.prod+flat ds is)/ds.prod = i := by
      rw [mul_comm, Nat.mul_add_div hpos, Nat.div_eq_of_lt hlt, add_zero]
    have hmod : (i*ds.prod+flat ds is)%ds.prod = flat ds is := by
      rw [mul_comm, Nat.mul_add_mod, Nat.mod_eq_of_lt hlt]
    simp only [flat, unflat, hdiv, hmod, ih his]

theorem flat_injective {shape i j : List ℕ} (hi : InRange shape i) (hj : InRange shape j)
    (h : flat shape i = flat shape j) : i = j := by
  rw [← unflat_flat hi, h, unflat_flat hj]

theorem inRange_unflat {shape : List ℕ} {n : ℕ} (h : n < shape.prod) :
    InRange shape (unflat shape n) := by
  induction shape generalizing n with
  | nil => simp [unflat]
  | cons d ds ih =>
    rw [List.prod_cons] at h
    have hpos : 0 < ds.prod := Nat.pos_of_mul_pos_left (Nat.zero_lt_of_lt h)
    exact inRange_cons.mpr ⟨(Nat.div_lt_iff_lt_mul hpos).mpr h, ih (Nat.mod_lt _ hpos)⟩

theorem flat_unflat {shape : List ℕ} {n : ℕ} (h : n < shape.prod) :
    flat shape (unflat shape n) = n := by
  induction shape generalizing n with
  | nil => simp_all [flat]
  | cons d ds ih =>
    rw [List.prod_cons] at h
    have hpos : 0 < ds.prod := Nat.pos_of_mul_pos_left (Nat.zero_lt_of_lt h)
    simp only [flat, unflat, ih (Nat.mod_lt _ hpos)]
    exact Nat.div_add_mod' n ds.prod

theorem unflat_zero (shape : List ℕ) : unflat shape 0 = List.replicate shape.length 0 := by
  induction shape with
  | nil => rfl
  | cons d ds ih => simp [unflat, ih, List.replicate_succ]

theorem flat_zeros (shape : List ℕ) : flat shape (List.replicate shape.length 0) = 0 := by
  induction shape with
  | nil => rfl
  | cons d ds ih => simp [flat, ih, List.replicate_succ]

theorem inRange_zeros {shape : List ℕ} (h : 0 < shape.prod) :
    InRange shape (List.replicate shape.length 0) :=
  unflat_zero shape ▸ inRange_unflat h

/-- Leading axes count blocks of the trailing ones. -/
theorem flat_append {s t i j : List ℕ} (h : i.length = s.length) :
    flat (s ++ t) (i ++ j) = flat s i*t.prod+flat t j := by
  induction s generalizing i with
  | nil =>
    rw [List.length_nil, List.length_eq_zero_iff] at h
    simp [h, flat]
  | cons d ds ih =>
    cases i with
    | nil => simp at h
    | cons i is =>
      simp only [List.cons_append, flat, ih (by simpa using h), List.prod_append]
      ring

/-- The position in a block of rows, with one axis between the outer and the inner ones. -/
theorem flat_insert {s t i j : List ℕ} {len l : ℕ} (h : i.length = s.length) :
    flat (s ++ len :: t) (i ++ l :: j) = (flat s i*len+l)*t.prod+flat t j := by
  rw [flat_append h, flat, List.prod_cons]
  ring

end flat

section axis

variable {s t i j : List ℕ} {len l : ℕ}

/-- A shape seen from one of its axes. -/
theorem exists_axis {shape : List ℕ} {k : ℕ} (hk : k < shape.length) :
    ∃ s len t, shape = s ++ len :: t ∧ k = s.length :=
  ⟨shape.take k, shape[k], shape.drop (k+1), by simp, by simp; omega⟩

theorem insertIdx_length {α : Type*} (a b : List α) (x : α) : (a ++ b).insertIdx a.length x = a ++ x :: b := by
  induction a with
  | nil => rfl
  | cons y a ih => rw [List.cons_append, List.length_cons, List.insertIdx_succ_cons, ih, List.cons_append]

theorem eraseIdx_length {α : Type*} (a b : List α) (x : α) : (a ++ x :: b).eraseIdx a.length = a ++ b := by
  rw [List.eraseIdx_append_of_length_le (le_refl _), Nat.sub_self, List.eraseIdx_zero, List.tail_cons]

theorem getD_length {α : Type*} (a b : List α) (x d : α) : (a ++ x :: b).getD a.length d = x := by
  simp

theorem drop_length_succ {α : Type*} (a b : List α) (x : α) : (a ++ x :: b).drop (a.length+1) = b := by
  rw [← List.drop_drop, List.drop_left, List.drop_one, List.tail_cons]

end axis

section enum

theorem mem_enum {shape idx : List ℕ} : idx ∈ enum shape ↔ InRange shape idx := by
  induction shape generalizing idx with
  | nil => simp [enum]
  | cons d ds ih =>
    simp only [enum, List.mem_flatMap, List.mem_range, List.mem_map]
    constructor
    · rintro ⟨i, hi, is, his, rfl⟩
      exact inRange_cons.mpr ⟨hi, ih.mp his⟩
    · intro h
      obtain ⟨i, is, rfl, hi, his⟩ := h.cases_cons
      exact ⟨i, hi, is, ih.mpr his, rfl⟩

theorem enum_singleton (d : ℕ) : enum [d] = (List.range d).map fun i => [i] := by
  simp [enum, List.map_eq_flatMap]

theorem range_mul (a b : ℕ) :
    (List.range a).flatMap (fun i => (List.range b).map (i*b+·)) = List.range (a*b) := by
  induction a with
  | zero => simp
  | succ a ih =>
    rw [List.range_succ, List.flatMap_append, ih, Nat.succ_mul, List.range_add]
    simp

/-- Row-major order is the order of the positions. -/
theorem map_flat_enum (shape : List ℕ) : (enum shape).map (flat shape) = List.range shape.prod := by
  induction shape with
  | nil => rfl
  | cons d ds ih =>
    have hrow (i : ℕ) : ((enum ds).map (i :: ·)).map (flat (d :: ds)) =
        (List.range ds.prod).map (i*ds.prod+·) := by
      rw [← ih, List.map_map, List.map_map]
      rfl
    rw [enum, List.map_flatMap, List.prod_cons, ← range_mul]
    exact List.flatMap_congr fun i _ => hrow i

theorem length_enum (shape : List ℕ) : (enum shape).length = shape.prod := by
  have h := congrArg List.length (map_flat_enum shape)
  simpa using h

theorem nodup_enum (shape : List ℕ) : (enum shape).Nodup := by
  apply List.Nodup.of_map (flat shape)
  rw [map_flat_enum]
  exact List.nodup_range

theorem getElem_enum {shape : List ℕ} {n : ℕ} (h : n < (enum shape).length) :
    (enum shape)[n] = unflat shape n := by
  have hn : n < shape.prod := length_enum shape ▸ h
  have hm : InRange shape (enum shape)[n] := mem_enum.mp (List.getElem_mem h)
  have hf : flat shape (enum shape)[n] = n := by
    have hg : ((enum shape).map (flat shape))[n]? = some n := by
      rw [map_flat_enum, List.getElem?_range hn]
    rw [List.getElem?_map, List.getElem?_eq_getElem h] at hg
    simpa using hg
  rw [← unflat_flat hm, hf]

theorem enum_eq_map_unflat (shape : List ℕ) : enum shape = (List.range shape.prod).map (unflat shape) := by
  apply List.ext_getElem
  · simp [length_enum]
  · intro n h _
    simp [getElem_enum h]

end enum

section dot

variable {R : Type*} [CommSemiring R]

@[simp] theorem dot_nil_left (ss : List R) : dot [] ss = 0 := by
  cases ss <;> rfl

@[simp] theorem dot_nil_right (is : List ℕ) : dot is ([] : List R) = 0 := by
  cases is <;> rfl

@[simp] theorem dot_cons (i : ℕ) (is : List ℕ) (s : R) (ss : List R) :
    dot (i :: is) (s :: ss) = i*s+dot is ss := rfl

theorem dot_append {i j : List ℕ} {s t : List R} (h : i.length = s.length) :
    dot (i ++ j) (s ++ t) = dot i s+dot j t := by
  induction i generalizing s with
  | nil =>
    rw [List.length_nil, eq_comm, List.length_eq_zero_iff] at h
    simp [h]
  | cons i is ih =>
    cases s with
    | nil => simp at h
    | cons s ss => simp [ih (by simpa using h), add_assoc]

theorem dot_reverse {i : List ℕ} {s : List R} (h : i.length = s.length) :
    dot i.reverse s.reverse = dot i s := by
  induction i generalizing s with
  | nil =>
    rw [List.length_nil, eq_comm, List.length_eq_zero_iff] at h
    simp [h]
  | cons i is ih =>
    cases s with
    | nil => simp at h
    | cons s ss =>
      have hl : is.length = ss.length := by simpa using h
      rw [List.reverse_cons, List.reverse_cons, dot_append (by simp [hl]), ih hl]
      simp [add_comm]

/-- With strides that are no less than 0 an index inside the shape stays below the lengths. -/
theorem dot_le {shape idx strides : List ℕ} (h : InRange shape idx) : dot idx strides ≤ dot shape strides := by
  induction shape generalizing idx strides with
  | nil => simp [inRange_nil.mp h]
  | cons d ds ih =>
    obtain ⟨i, is, rfl, hi, his⟩ := h.cases_cons
    cases strides with
    | nil => simp
    | cons s ss =>
      have hmul : i*s ≤ d*s := Nat.mul_le_mul_right s hi.le
      have hrest : dot is ss ≤ dot ds ss := ih his
      simp only [dot_cons, Nat.cast_id]
      omega

theorem dot_zero_left (n : ℕ) (s : List R) :
    dot (List.replicate n 0) s = 0 := by
  induction n generalizing s with
  | zero => simp
  | succ n ih => cases s <;> simp [List.replicate_succ, ih]

theorem dot_map_cast {S : Type*} [CommRing S] (is : List ℕ) (ss : List ℤ) :
    ((dot is ss : ℤ) : S) = dot is (ss.map (Int.cast : ℤ → S)) := by
  induction is generalizing ss with
  | nil => simp
  | cons i is ih => cases ss <;> simp [ih]

theorem dot_natCast {S : Type*} [CommSemiring S] (is : List ℕ) (ss : List ℕ) :
    ((dot is ss : ℕ) : S) = dot is (ss.map (Nat.cast : ℕ → S)) := by
  induction is generalizing ss with
  | nil => simp
  | cons i is ih => cases ss <;> simp [ih]

theorem dot_map_mul (c : R) (is : List ℕ) (ss : List R) :
    dot is (ss.map (c*·)) = c*dot is ss := by
  induction is generalizing ss with
  | nil => simp
  | cons i is ih =>
    cases ss with
    | nil => simp
    | cons s ss =>
      simp only [List.map_cons, dot_cons, ih]
      ring

/-- The row-major position is the linear form of the row-major strides. -/
theorem dot_unitStrides (shape idx : List ℕ) : dot idx (unitStrides shape) = flat shape idx := by
  induction shape generalizing idx with
  | nil => cases idx <;> simp [unitStrides, flat]
  | cons d ds ih => cases idx <;> simp [unitStrides, flat, ih]

/-- Two stride lists agree on every axis of length at least 2. -/
def AgreeOn : List ℕ → List R → List R → Prop
  | d :: ds, s :: ss, e :: es => (1 < d → s = e) ∧ AgreeOn ds ss es
  | _, _, _ => True

/-- On a non-empty shape two stride lists give every index the same value exactly
when they agree on the axes where an index can move. -/
theorem dot_eq_iff_agreeOn {shape : List ℕ} {ss es : List R}
    (hs : ss.length = shape.length) (he : es.length = shape.length) (hpos : 0 < shape.prod) :
    (∀ idx, InRange shape idx → dot idx ss = dot idx es) ↔ AgreeOn shape ss es := by
  induction shape generalizing ss es with
  | nil =>
    rw [List.length_nil, List.length_eq_zero_iff] at hs he
    simp [hs, he, AgreeOn]
  | cons d ds ih =>
    cases ss with
    | nil => simp at hs
    | cons s ss =>
      cases es with
      | nil => simp at he
      | cons e es =>
        rw [List.prod_cons] at hpos
        have hd : 0 < d := Nat.pos_of_mul_pos_right hpos
        have hds : 0 < ds.prod := Nat.pos_of_mul_pos_left hpos
        have htail := ih (by simpa using hs) (by simpa using he) hds
        rw [AgreeOn, ← htail]
        constructor
        · intro h
          constructor
          · -- the index that moves one step along this axis only
            intro h1
            have hone := h (1 :: List.replicate ds.length 0) (inRange_cons.mpr ⟨h1, inRange_zeros hds⟩)
            simpa [dot_zero_left] using hone
          · intro is his
            have hzero := h (0 :: is) (inRange_cons.mpr ⟨hd, his⟩)
            simpa using hzero
        · rintro ⟨hhead, hrest⟩ idx hidx
          obtain ⟨i, is, rfl, hi, his⟩ := hidx.cases_cons
          rw [dot_cons, dot_cons, hrest is his]
          by_cases h1 : 1 < d
          · rw [hhead h1]
          · -- the axis has length 1
            rw [show i = 0 by omega, Nat.cast_zero, zero_mul, zero_mul]

end dot

end RowMajor
