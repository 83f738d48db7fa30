import LightArray.Rounding

namespace LightArray
open Rounding

/-- `is_nan`, which is `self != self`. -/
def isNan (x : ℚ) : Bool := x != x

/-- The magnitude of `x` with the sign of `y`. -/
def copysign (x y : ℚ) : ℚ := if y < 0 then -|x| else |x|

/-- NumPy's float `floor_divide`, computed from the truncated remainder. -/
def floatFloorDiv (a b : ℚ) : ℚ :=
  if b = 0 then a/b
  else
    let rem := truncMod a b
    let quotient := (a-rem)/b
    let div := if rem ≠ 0 ∧ ¬ (b < 0 ↔ rem < 0) then quotient-1 else quotient
    if div ≠ 0 then
      let floored : ℚ := ⌊div⌋
      if 1/2 < div-floored then floored+1 else floored
    else copysign 0 (a/b)

/-- Python/NumPy remainder: the result has the sign of the divisor. -/
def floatMod (a b : ℚ) : ℚ :=
  let r := truncMod a b
  if r = 0 then
    -- a zero remainder takes the sign of the divisor
    if isNan b then r else copysign 0 b
  else if ¬ (r < 0 ↔ b < 0) then r+b
  else r

/-- Round half to even. -/
def roundHalfEven (x : ℚ) : ℚ :=
  let r : ℚ := roundAway x
  if |x-trunc x| = 1/2 then 2*(roundAway (x/2) : ℚ) else r

/-- The closure of `rint`. -/
def rint (x : ℚ) : ℚ :=
  let r : ℚ := roundAway x
  if |x-trunc x| = 1/2 then 2*(roundAway (x/2) : ℚ) else r

variable {a b : ℚ}

@[simp] theorem copysign_zero (y : ℚ) : copysign 0 y = 0 := by simp [copysign]

/-- The corrected quotient is the floor already: what follows it changes nothing. -/
theorem floatFloorDiv_eq (hb : b ≠ 0) : floatFloorDiv a b = ⌊a/b⌋ := by
  have hdiv : (if truncMod a b ≠ 0 ∧ ¬ (b < 0 ↔ truncMod a b < 0) then (a-truncMod a b)/b-1 else (a-truncMod a b)/b) =
      ((⌊a/b⌋:ℤ):ℚ) := by
    rw [sub_truncMod_div hb, floor_eq_trunc]
    simp only [truncMod_signs hb]
    split_ifs
    · push_cast
      rfl
    · rfl
  simp only [floatFloorDiv, if_neg hb, hdiv, Int.floor_intCast, sub_self]
  split_ifs with hzero h
  · norm_num at h
  · rfl
  · rw [copysign_zero, not_not.mp hzero]

theorem floatMod_eq (hb : b ≠ 0) : floatMod a b = a-b*⌊a/b⌋ := by
  have hrem : floatMod a b = if truncMod a b ≠ 0 ∧ ¬ (b < 0 ↔ truncMod a b < 0) then truncMod a b+b else truncMod a b := by
    unfold floatMod
    by_cases hr : truncMod a b = 0
    · simp [hr]
    · simp only [hr, if_false, ne_eq, not_false_eq_true, true_and, iff_comm]
  rw [hrem, floor_eq_trunc]
  simp only [truncMod_signs hb]
  split_ifs
  · rw [truncMod]
    push_cast
    ring
  · rw [truncMod]

/-- Floor division and remainder over the rationals: the quotient is the floor, the remainder is
what is left, and it is zero or on the divisor's side of zero and smaller in size. -/
theorem floatDivision_law (a b : ℚ) (hb : b ≠ 0) :
    floatFloorDiv a b = ⌊a/b⌋ ∧ floatMod a b = a-b*⌊a/b⌋ ∧
    a = b*floatFloorDiv a b+floatMod a b ∧
    (floatMod a b = 0 ∨ SignType.sign (floatMod a b) = SignType.sign b) ∧
    |floatMod a b| < |b| := by
  have hdiv := floatFloorDiv_eq (a := a) hb
  have hmod := floatMod_eq (a := a) hb
  obtain ⟨hpos, hneg⟩ := sub_mul_floor_bounds (a := a) hb
  rw [← hmod] at hpos hneg
  refine ⟨hdiv, hmod, ?_, ?_, ?_⟩
  · rw [hdiv, hmod]
    ring
  · by_cases hzero : floatMod a b = 0
    · exact .inl hzero
    right
    obtain hb' | hb' := lt_or_gt_of_ne hb
    · rw [sign_neg hb', sign_neg (lt_of_le_of_ne (hneg hb').2 hzero)]
    · rw [sign_pos hb', sign_pos (lt_of_le_of_ne (hpos hb').1 (Ne.symm hzero))]
  · obtain hb' | hb' := lt_or_gt_of_ne hb
    · rw [abs_of_neg hb', abs_of_nonpos (hneg hb').2]
      exact neg_lt_neg (hneg hb').1
    · rw [abs_of_pos hb', abs_of_nonneg (hpos hb').1]
      exact (hpos hb').2

/-- A negative dividend that is no multiple: -7 by 2. -/
theorem floatDivision_law_negative :
    floatFloorDiv (-7) 2 = ⌊(-7:ℚ)/2⌋ ∧ floatMod (-7) 2 = -7-2*⌊(-7:ℚ)/2⌋ ∧
    (-7:ℚ) = 2*floatFloorDiv (-7) 2+floatMod (-7) 2 ∧
    (floatMod (-7) 2 = 0 ∨ SignType.sign (floatMod (-7) 2) = SignType.sign (2:ℚ)) ∧
    |floatMod (-7) 2| < |(2:ℚ)| :=
  floatDivision_law (-7) 2 (by norm_num)

/-- The two branches together round to nearest with ties to even. -/
theorem roundHalfEven_spec (x : ℚ) : ∃ n : ℤ, roundHalfEven x = n ∧ NearestEven x n := by
  by_cases htie : |x-trunc x| = 1/2
  · refine ⟨2*roundAway (x/2), ?_, ?_⟩
    · rw [roundHalfEven, if_pos htie]
      push_cast
      rfl
    · obtain ⟨m, hm⟩ := abs_sub_trunc_eq_half.mp htie
      have hclose : |(m:ℚ)+1/2-((2*roundAway (x/2):ℤ):ℚ)| < 3/2 := by
        have hhalf := abs_le.mp (abs_sub_roundAway (x/2))
        rw [← hm, abs_lt]
        push_cast
        constructor <;> linarith
      have hdist := abs_sub_of_neighbours (K := ℚ) (neighbours hclose)
      rw [← hm] at hdist
      exact ⟨hdist.le, fun _ => even_two_mul _⟩
  · refine ⟨roundAway x, ?_, abs_sub_roundAway x, fun h => absurd ?_ htie⟩
    · rw [roundHalfEven, if_neg htie]
    · rw [abs_sub_trunc_eq_half]
      exact exists_of_abs_sub_eq_half h

/-- `round_half_even` gives the integer nearest to its argument, and the even one half-way between
two integers; `rint` is the same function; it is odd, monotone and idempotent. -/
theorem roundHalfEven_nearest (x : ℚ) :
    (∃ n : ℤ, roundHalfEven x = n ∧ (∀ k : ℤ, |x-n| ≤ |x-k|) ∧ ∀ m : ℤ, x = m+1/2 → Even n) ∧
    rint x = roundHalfEven x ∧ roundHalfEven (-x) = -roundHalfEven x ∧
    (∀ y, x ≤ y → roundHalfEven x ≤ roundHalfEven y) ∧
    roundHalfEven (roundHalfEven x) = roundHalfEven x := by
  obtain ⟨n, hn, hnear⟩ := roundHalfEven_spec x
  refine ⟨⟨n, hn, hnear.nearest, fun m => hnear.even_of_tie⟩, rfl, ?_, fun y hxy => ?_, ?_⟩
  · obtain ⟨m, hm, hneg⟩ := roundHalfEven_spec (-x)
    rw [hm, hn, hneg.unique hnear.neg, Int.cast_neg]
  · obtain ⟨m, hm, hy⟩ := roundHalfEven_spec y
    rw [hn, hm, Int.cast_le]
    exact hnear.mono hy hxy
  · obtain ⟨m, hm, hround⟩ := roundHalfEven_spec (roundHalfEven x)
    rw [hn] at hround
    rw [hm, hn, hround.unique (.intCast n)]

end LightArray
