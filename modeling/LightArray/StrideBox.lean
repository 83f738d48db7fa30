import LightArray.RowMajor

namespace RowMajor

/-- What `f` keeps of the reach `(d-1)*s` of each axis, added up. -/
def reachSum (f : ℤ → ℤ) : List ℕ → List ℤ → ℤ
  | d :: ds, s :: ss => f (((d:ℤ)-1)*s)+reachSum f ds ss
  | _, _ => 0

/-- From index 0 down to the lowest value. -/
def lowReach (shape : List ℕ) (strides : List ℤ) : ℤ := reachSum (min 0) shape strides

/-- From index 0 up to the highest value. -/
def highReach (shape : List ℕ) (strides : List ℤ) : ℤ := reachSum (max 0) shape strides

section reachSum

variable {f : ℤ → ℤ} {shape idx : List ℕ} {strides : List ℤ}

@[simp] theorem reachSum_nil_left (f : ℤ → ℤ) (ss : List ℤ) : reachSum f [] ss = 0 := by
  cases ss <;> rfl

@[simp] theorem reachSum_nil_right (f : ℤ → ℤ) (ds : List ℕ) : reachSum f ds [] = 0 := by
  cases ds <;> rfl

@[simp] theorem reachSum_cons (f : ℤ → ℤ) (d : ℕ) (ds : List ℕ) (s : ℤ) (ss : List ℤ) :
    reachSum f (d :: ds) (s :: ss) = f (((d:ℤ)-1)*s)+reachSum f ds ss := rfl

theorem lowReach_cons (d : ℕ) (ds : List ℕ) (s : ℤ) (ss : List ℤ) :
    lowReach (d :: ds) (s :: ss) = min 0 (((d:ℤ)-1)*s)+lowReach ds ss := rfl

theorem highReach_cons (d : ℕ) (ds : List ℕ) (s : ℤ) (ss : List ℤ) :
    highReach (d :: ds) (s :: ss) = max 0 (((d:ℤ)-1)*s)+highReach ds ss := rfl

/-- A coordinate moves an axis by no more than its reach. -/
theorem axis_between {i d : ℕ} (hi : i < d) (s : ℤ) :
    min 0 (((d:ℤ)-1)*s) ≤ i*s ∧ i*s ≤ max 0 (((d:ℤ)-1)*s) := by
  have hi0 : (0:ℤ) ≤ i := Int.natCast_nonneg i
  have hid : (i:ℤ) ≤ (d:ℤ)-1 := by omega
  rcases le_total 0 s with hs | hs
  · have hlow : 0 ≤ (i:ℤ)*s := mul_nonneg hi0 hs
    have hhigh : (i:ℤ)*s ≤ ((d:ℤ)-1)*s := mul_le_mul_of_nonneg_right hid hs
    omega
  · have hhigh : (i:ℤ)*s ≤ 0 := mul_nonpos_of_nonneg_of_nonpos hi0 hs
    have hlow : ((d:ℤ)-1)*s ≤ (i:ℤ)*s := mul_le_mul_of_nonpos_right hid hs
    omega

theorem dot_between (h : InRange shape idx) (strides : List ℤ) :
    lowReach shape strides ≤ dot idx strides ∧ dot idx strides ≤ highReach shape strides := by
  induction shape generalizing idx strides with
  | nil => simp [inRange_nil.mp h, lowReach, highReach]
  | cons d ds ih =>
    obtain ⟨i, is, rfl, hi, his⟩ := h.cases_cons
    cases strides with
    | nil => simp [lowReach, highReach]
    | cons s ss =>
      have haxis := axis_between hi s
      have hrest := ih his ss
      rw [dot_cons, lowReach_cons, highReach_cons]
      omega

/-- Either end of the interval is the value at a corner. -/
theorem exists_dot_reachSum (hf : ∀ x, f x = 0 ∨ f x = x) (hpos : 0 < shape.prod) (strides : List ℤ) :
    ∃ idx, InRange shape idx ∧ dot idx strides = reachSum f shape strides := by
  induction shape generalizing strides with
  | nil => exact ⟨[], inRange_nil.mpr rfl, by simp⟩
  | cons d ds ih =>
    rw [List.prod_cons] at hpos
    have hd : 0 < d := Nat.pos_of_mul_pos_right hpos
    have hds : 0 < ds.prod := Nat.pos_of_mul_pos_left hpos
    cases strides with
    | nil =>
      obtain ⟨is, his, -⟩ := ih hds []
      exact ⟨0 :: is, inRange_cons.mpr ⟨hd, his⟩, by simp⟩
    | cons s ss =>
      obtain ⟨is, his, hval⟩ := ih hds ss
      rcases hf (((d:ℤ)-1)*s) with h0 | hreach
      · refine ⟨0 :: is, inRange_cons.mpr ⟨hd, his⟩, ?_⟩
        rw [dot_cons, reachSum_cons, h0, hval, Nat.cast_zero, zero_mul]
      · refine ⟨(d-1) :: is, inRange_cons.mpr ⟨by omega, his⟩, ?_⟩
        rw [dot_cons, reachSum_cons, hreach, hval, Nat.cast_pred hd]

theorem exists_dot_lowReach (hpos : 0 < shape.prod) (strides : List ℤ) :
    ∃ idx, InRange shape idx ∧ dot idx strides = lowReach shape strides := by
  apply exists_dot_reachSum _ hpos
  intro x
  omega

theorem exists_dot_highReach (hpos : 0 < shape.prod) (strides : List ℤ) :
    ∃ idx, InRange shape idx ∧ dot idx strides = highReach shape strides := by
  apply exists_dot_reachSum _ hpos
  intro x
  omega

/-- Index 0 itself is in the interval. -/
theorem zero_between (shape : List ℕ) (strides : List ℤ) :
    lowReach shape strides ≤ 0 ∧ 0 ≤ highReach shape strides := by
  induction shape generalizing strides with
  | nil => simp [lowReach, highReach]
  | cons d ds ih =>
    cases strides with
    | nil => simp [lowReach, highReach]
    | cons s ss =>
      have hrest := ih ss
      rw [lowReach_cons, highReach_cons]
      omega

theorem dvd_dot {n : ℤ} (h : ∀ s ∈ strides, n ∣ s) (idx : List ℕ) : n ∣ dot idx strides := by
  induction strides generalizing idx with
  | nil => simp
  | cons s ss ih =>
    cases idx with
    | nil => simp
    | cons i is =>
      have hs : n ∣ s := h s List.mem_cons_self
      have hss : n ∣ dot is ss := ih (fun t ht => h t (List.mem_cons_of_mem _ ht)) is
      rw [dot_cons]
      exact dvd_add (hs.mul_left _) hss

end reachSum

section window

variable {m : ℕ} {len x y s : ℤ} {shape : List ℕ} {strides : List ℤ}

/-- One step inside a window is the same step in the integers. -/
theorem window_step (hs : len+|s| ≤ m) (hx : 0 ≤ x ∧ x < len) (hy : 0 ≤ y ∧ y < len)
    (h : (y : ZMod m) = ((x+s : ℤ) : ZMod m)) : y = x+s := by
  have hdvd : (m : ℤ) ∣ x+s-y := (ZMod.intCast_eq_intCast_iff_dvd_sub y (x+s) m).mp h
  have hle := le_abs_self s
  have hneg := neg_abs_le s
  have hsmall : |x+s-y| < m := by
    apply abs_lt.mpr
    constructor <;> omega
  have hzero : x+s-y = 0 := Int.eq_zero_of_abs_lt_dvd hdvd hsmall
  omega

/-- If every value falls into the window up to multiples of `m`, it does so as an integer. -/
theorem dot_window (hs : ∀ s ∈ strides, len+|s| ≤ m) (hx : 0 ≤ x ∧ x < len)
    (hall : ∀ idx, InRange shape idx →
      ∃ y : ℤ, (0 ≤ y ∧ y < len) ∧ (y : ZMod m) = ((x+dot idx strides : ℤ) : ZMod m))
    {idx : List ℕ} (h : InRange shape idx) : 0 ≤ x+dot idx strides ∧ x+dot idx strides < len := by
  induction shape generalizing strides idx with
  | nil => simpa [inRange_nil.mp h] using hx
  | cons d ds ih =>
    obtain ⟨i, is, rfl, hi, his⟩ := h.cases_cons
    cases strides with
    | nil => simpa using hx
    | cons s ss =>
      have hstart : 0 ≤ x+dot is ss ∧ x+dot is ss < len := by
        apply ih (fun t ht => hs t (List.mem_cons_of_mem _ ht)) _ his
        intro js hjs
        obtain ⟨y, hy, he⟩ := hall (0 :: js) (inRange_cons.mpr ⟨by omega, hjs⟩)
        rw [dot_cons, Nat.cast_zero, zero_mul, zero_add] at he
        exact ⟨y, hy, he⟩
      clear h
      induction i with
      | zero => simpa using hstart
      | succ i ihi =>
        have hprev := ihi (by omega)
        obtain ⟨y, hy, he⟩ := hall ((i+1) :: is) (inRange_cons.mpr ⟨hi, his⟩)
        have hmove : x+dot ((i+1) :: is) (s :: ss) = x+dot (i :: is) (s :: ss)+s := by
          rw [dot_cons, dot_cons]
          push_cast
          ring
        rw [hmove] at he ⊢
        rw [← window_step (hs s List.mem_cons_self) hprev hy he]
        exact hy

/-- Where every value is in a window, no axis reaches further than the window is long. -/
theorem reach_of_window (hpos : 0 < shape.prod)
    (hall : ∀ idx, InRange shape idx → 0 ≤ x+dot idx strides ∧ x+dot idx strides < len) :
    ∀ p ∈ shape.zip strides, -len < ((p.1:ℤ)-1)*p.2 ∧ ((p.1:ℤ)-1)*p.2 < len := by
  induction shape generalizing strides with
  | nil => simp
  | cons d ds ih =>
    rw [List.prod_cons] at hpos
    have hd : 0 < d := Nat.pos_of_mul_pos_right hpos
    have hds : 0 < ds.prod := Nat.pos_of_mul_pos_left hpos
    cases strides with
    | nil => simp
    | cons s ss =>
      have hzeros := inRange_zeros hds
      have hfirst := hall (0 :: List.replicate ds.length 0) (inRange_cons.mpr ⟨hd, hzeros⟩)
      have hlast := hall ((d-1) :: List.replicate ds.length 0) (inRange_cons.mpr ⟨by omega, hzeros⟩)
      rw [dot_cons, dot_zero_left, Nat.cast_zero, zero_mul, add_zero, add_zero] at hfirst
      rw [dot_cons, dot_zero_left, Nat.cast_pred hd, add_zero] at hlast
      rw [List.zip_cons_cons]
      refine List.forall_mem_cons.mpr ⟨⟨by dsimp only; omega, by dsimp only; omega⟩, ih hds fun is his => ?_⟩
      have hrest := hall (0 :: is) (inRange_cons.mpr ⟨hd, his⟩)
      rwa [dot_cons, Nat.cast_zero, zero_mul, zero_add] at hrest

end window

section signed

variable {ptr bytes item buf : ℕ} {start stop pointer low high below above j k : ℤ}

/-- A box inside the block passes the comparison unless the block alone crosses the sign. -/
theorem signed_inside (haddress : ptr+bytes ≤ 2^64) (hbytes : bytes < 2^63) (hitem : 0 < item)
    (hstart : ptr < 2^63 ∧ start = ptr ∨ 2^63 ≤ ptr ∧ start = ptr-2^64)
    (hstop : ptr+bytes < 2^63 ∧ stop = ptr+bytes ∨ 2^63 ≤ ptr+bytes ∧ stop = ptr+bytes-2^64)
    (hlow : low = buf+below+2^64*j ∧ -(2^63) ≤ low ∧ low < 2^63)
    (hhigh : high = buf+above+item+2^64*k ∧ -(2^63) ≤ high ∧ high < 2^63)
    (hbelow : below ≤ 0) (habove : 0 ≤ above)
    (hin : (ptr:ℤ) ≤ buf+below ∧ (buf:ℤ)+above+item ≤ ptr+bytes) :
    start ≤ low ∧ high ≤ stop ↔
      ¬ ((ptr < 2^63 ∧ 2^63 ≤ ptr+bytes) ∧ (2^63 ≤ (buf:ℤ)+below ∨ (buf:ℤ)+above+item < 2^63)) := by
  omega

/-- A box that is not inside the block fails the comparison while its ends are signed words. -/
theorem signed_outside (haddress : ptr+bytes ≤ 2^64) (hbytes : bytes < 2^63) (hitem : 0 < item) (hbuf : buf < 2^64)
    (hstart : ptr < 2^63 ∧ start = ptr ∨ 2^63 ≤ ptr ∧ start = ptr-2^64)
    (hstop : ptr+bytes < 2^63 ∧ stop = ptr+bytes ∨ 2^63 ≤ ptr+bytes ∧ stop = ptr+bytes-2^64)
    (hpointer : buf < 2^63 ∧ pointer = buf ∨ 2^63 ≤ buf ∧ pointer = buf-2^64)
    (hbelow : below ≤ 0) (habove : 0 ≤ above)
    (hout : ¬ ((ptr:ℤ) ≤ buf+below ∧ (buf:ℤ)+above+item ≤ ptr+bytes)) :
    ¬ (start ≤ pointer+below ∧ pointer+above+item ≤ stop) := by
  omega

end signed

end RowMajor
