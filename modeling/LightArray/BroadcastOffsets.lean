import LightArray.BroadcastShape

namespace LightArray
open MachineWord RowMajor

/-- An axis of the odometer for the offset into one operand, where a step that leaves the range
of `usize` has no result. -/
def checkedAxis (d s : ℕ) : Axis (Option ℕ) where
  len := d
  inc o := o.bind fun n => if n+s < wordModulus then some (n+s) else none
  rewind i o := o.bind fun n => if s*i ≤ n then some (n-s*i) else none

/-- The first `n` offsets into `shape` walked over `out`. -/
def checkedOffsets (shape out : List ℕ) (n : ℕ) : List (Option ℕ) :=
  (visits (List.zipWith checkedAxis out (broadcastStrides shape out)) n (List.replicate out.length 0) (some 0)).map
    Prod.snd

variable {shape out a b idx : List ℕ}

theorem broadcastStridesLoop_exact (h0 : 0 < shape.prod) (hlt : shape.prod < wordModulus) :
    (broadcastStridesLoop shape).2 = shape.prod := by
  induction shape with
  | nil => rfl
  | cons d ds ih =>
    rw [List.prod_cons] at h0 hlt ⊢
    have hd : 0 < d := Nat.pos_of_mul_pos_right h0
    have hle : ds.prod ≤ d*ds.prod := Nat.le_mul_of_pos_left _ hd
    rw [broadcastStridesLoop]
    dsimp only
    rw [ih (Nat.pos_of_mul_pos_left h0) (hle.trans_lt hlt), mul_comm, wrapUsize_of_lt hlt]

/-- A carry adds at most one block of every axis before it takes the blocks back. -/
theorem dot_broadcastStridesLoop_lt (h0 : 0 < shape.prod) (hlt : shape.prod < wordModulus) :
    dot shape (broadcastStridesLoop shape).1 < 2*shape.prod := by
  induction shape with
  | nil => simp
  | cons d ds ih =>
    rw [List.prod_cons] at h0 hlt ⊢
    have hd : 0 < d := Nat.pos_of_mul_pos_right h0
    have hds : 0 < ds.prod := Nat.pos_of_mul_pos_left h0
    have hle : ds.prod ≤ d*ds.prod := Nat.le_mul_of_pos_left _ hd
    have hrest := ih hds (hle.trans_lt hlt)
    have hrun := broadcastStridesLoop_exact hds (hle.trans_lt hlt)
    simp only [broadcastStridesLoop, dot_cons, Nat.cast_id, hrun]
    by_cases h1 : d = 1
    · rw [if_pos h1, mul_zero, h1]
      omega
    · rw [if_neg h1]
      have h2 : 2*ds.prod ≤ d*ds.prod := Nat.mul_le_mul_right _ (by omega)
      omega

/-- Only axes of length 1 are stretched, and their stride is 0. -/
theorem dot_broadcastStrides_lens (h : BroadcastsTo shape out) :
    dot out (broadcastStrides shape out) = dot shape (broadcastStridesLoop shape).1 := by
  obtain ⟨-, hall⟩ := h
  rw [broadcastStrides, dot_replicate_zero]
  generalize out.drop (out.length-shape.length) = t at hall
  induction hall with
  | nil => rfl
  | @cons d t ds ts hd _ ih =>
    simp only [broadcastStridesLoop, dot_cons, Nat.cast_id, ih]
    rcases hd with rfl | rfl
    · rfl
    · simp

theorem dot_broadcastStrides_lt (h : BroadcastsTo shape out) (h0 : 0 < shape.prod)
    (hfit : 2*shape.prod < wordModulus) : dot out (broadcastStrides shape out) < 2*shape.prod := by
  rw [dot_broadcastStrides_lens h]
  exact dot_broadcastStridesLoop_lt h0 (by omega)

theorem dot_broadcastStrides_exact (h : BroadcastsTo shape out) (hfit : 2*shape.prod < wordModulus)
    (hidx : InRange out idx) : dot idx (broadcastStrides shape out) = flat shape (stretch shape idx) := by
  have hin := flat_lt (inRange_stretch h hidx)
  have hle : dot idx (broadcastStrides shape out) ≤ dot out (broadcastStrides shape out) := dot_le hidx
  have hlt := dot_broadcastStrides_lt h (Nat.zero_lt_of_lt hin) hfit
  apply eq_of_cast_eq (by omega) (by omega)
  rw [dot_natCast, dot_broadcastStrides h hidx]

theorem boundedAxis_checkedAxis {bound d s : ℕ} (hb : bound < wordModulus) :
    BoundedAxis bound some (checkedAxis d s) s where
  inc n hn := by
    show (if n+s < wordModulus then some (n+s) else none) = _
    rw [if_pos (by omega)]
  rewind n hn := by
    show (if s*d ≤ n+d*s then some (n+d*s-s*d) else none) = _
    rw [mul_comm s d, if_pos (Nat.le_add_left ..), Nat.add_sub_cancel]

theorem lens_checkedAxes {strides : List ℕ} (h : strides.length = out.length) :
    lens (List.zipWith checkedAxis out strides) = out := by
  induction out generalizing strides with
  | nil => rfl
  | cons d out ih =>
    cases strides with
    | nil => simp at h
    | cons s strides =>
      rw [List.zipWith_cons_cons, lens_cons, ih (by simpa using h)]
      rfl

theorem boundedAxes_checkedAxes {bound : ℕ} {strides : List ℕ} (h : strides.length = out.length)
    (hb : bound < wordModulus) :
    List.Forall₂ (BoundedAxis bound some) (List.zipWith checkedAxis out strides) strides := by
  induction out generalizing strides with
  | nil =>
    rw [List.length_nil, List.length_eq_zero_iff] at h
    subst h
    exact .nil
  | cons d out ih =>
    cases strides with
    | nil => simp at h
    | cons s strides => exact .cons (boundedAxis_checkedAxis hb) (ih (by simpa using h))

/-- Every visit finds the offset of the element its operand shows. -/
theorem checked_visits (h : BroadcastsTo shape out) (hpos : 0 < out.prod) (hfit : 2*shape.prod < wordModulus) (n : ℕ) :
    ∀ p ∈ visits (List.zipWith checkedAxis out (broadcastStrides shape out)) n (List.replicate out.length 0) (some 0),
      InRange out p.1 ∧ p.2 = some (flat shape (stretch shape p.1)) := by
  have hstrides := length_broadcastStrides h
  have hlens := lens_checkedAxes hstrides
  have hzeros := inRange_zeros hpos
  have hin := flat_lt (inRange_stretch h hzeros)
  have hlt := dot_broadcastStrides_lt h (Nat.zero_lt_of_lt hin) hfit
  intro p hp
  have hidx := visits_inRange n (some 0) (by rwa [hlens]) p hp
  rw [hlens] at hidx
  refine ⟨hidx, ?_⟩
  have hstart : InRange (lens (List.zipWith checkedAxis out (broadcastStrides shape out))) (List.replicate out.length 0) := by
    rwa [hlens]
  have hval := visits_val (boundedAxes_checkedAxes hstrides (hlt.trans hfit)) (by rw [hlens]) n hstart p
  rw [dot_zero_left] at hval
  rw [hval hp, dot_broadcastStrides_exact h hfit hidx]

/-- No offset underflows, overflows or leaves the operand, however far the odometer runs. -/
theorem checkedOffsets_in (h : BroadcastsTo shape out) (hpos : 0 < out.prod) (hfit : 2*shape.prod < wordModulus)
    (n : ℕ) : ∀ o ∈ checkedOffsets shape out n, ∃ k < shape.prod, o = some k := by
  intro o ho
  obtain ⟨p, hp, rfl⟩ := List.mem_map.mp ho
  obtain ⟨hidx, hk⟩ := checked_visits h hpos hfit n p hp
  exact ⟨_, flat_lt (inRange_stretch h hidx), hk⟩

theorem checkedOffsets_full (h : BroadcastsTo shape out) (hpos : 0 < out.prod) (hfit : 2*shape.prod < wordModulus) :
    checkedOffsets shape out out.prod = (enum out).map fun idx => some (flat shape (stretch shape idx)) := by
  have hlens := lens_checkedAxes (length_broadcastStrides h)
  have hlen : (List.zipWith checkedAxis out (broadcastStrides shape out)).length = out.length := by
    rw [← length_lens, hlens]
  have hfst := visits_fst (List.zipWith checkedAxis out (broadcastStrides shape out)) (some 0) (by rwa [hlens])
  rw [hlens, hlen] at hfst
  rw [checkedOffsets, ← hfst, List.map_map]
  exact List.map_congr_left fun p hp => (checked_visits h hpos hfit _ p hp).2

/-- The wrapping run reads where the checked runs of the two operands do. -/
theorem checkedOffsets_eq_reads (ha : BroadcastsTo a out) (hb : BroadcastsTo b out) (hpos : 0 < out.prod)
    (hout : out.prod < wordModulus) (hfa : 2*a.prod < wordModulus) (hfb : 2*b.prod < wordModulus) :
    checkedOffsets a out out.prod = (broadcastReads a b out).map (fun o => some o.1) ∧
      checkedOffsets b out out.prod = (broadcastReads a b out).map (fun o => some o.2) := by
  rw [broadcastReads_spec ha hb hout (by omega) (by omega), List.map_map, List.map_map, checkedOffsets_full ha hpos hfa,
    checkedOffsets_full hb hpos hfb]
  exact ⟨rfl, rfl⟩

end LightArray
