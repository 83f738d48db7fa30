import Mathlib.Tactic
import Mathlib.Algebra.Order.Round

namespace Rounding

variable {K : Type*} [Field K] [LinearOrder K] [IsStrictOrderedRing K] [FloorRing K]

/-- The integer part, toward zero. -/
def trunc (x : K) : ℤ := if x < 0 then ⌈x⌉ else ⌊x⌋

/-- The nearest integer, halves away from zero. -/
def roundAway (x : K) : ℤ := if x < 0 then -round (-x) else round x

/-- The remainder of the division truncated toward zero. -/
def truncMod (a b : K) : K := a-b*trunc (a/b)

/-- `n` is an integer nearest to `x`, and an even one if `x` is half-way. -/
structure NearestEven (x : K) (n : ℤ) : Prop where
  near : |x-n| ≤ 1/2
  even : |x-n| = 1/2 → Even n

variable {x y : K} {m n : ℤ}

/-- The floor is one below the integer part of a negative number that is no integer. -/
theorem floor_eq_trunc (x : K) : ⌊x⌋ = if x < trunc x then trunc x-1 else trunc x := by
  by_cases hx : x < 0
  · have htrunc : trunc x = ⌈x⌉ := if_pos hx
    have hceil := Int.le_ceil x
    have hlt := Int.ceil_lt_add_one x
    rw [htrunc]
    split_ifs with h
    · rw [Int.floor_eq_iff]
      push_cast
      constructor <;> linarith
    · have heq : x = ⌈x⌉ := le_antisymm hceil (not_lt.mp h)
      rw [heq, Int.floor_intCast, Int.ceil_intCast]
  · have htrunc : trunc x = ⌊x⌋ := if_neg hx
    rw [htrunc, if_neg (Int.floor_le x).not_gt]

theorem abs_sub_trunc_lt (x : K) : |x-trunc x| < 1 := by
  have hfloor := Int.floor_le x
  have hfloor' := Int.lt_floor_add_one x
  have hceil := Int.le_ceil x
  have hceil' := Int.ceil_lt_add_one x
  unfold trunc
  rw [abs_lt]
  split_ifs
  · constructor <;> linarith
  · constructor <;> linarith

theorem trunc_lt_iff (hn : 0 < n) : trunc x < n ↔ x < n := by
  unfold trunc
  have hn' : (0:K) < n := by exact_mod_cast hn
  split_ifs with hx
  · refine iff_of_true (lt_of_le_of_lt (Int.ceil_le.mpr ?_) hn) (hx.trans hn')
    simpa using hx.le
  · exact Int.floor_lt

theorem le_trunc_iff (hn : n ≤ 0) : n ≤ trunc x ↔ (n:K)-1 < x := by
  unfold trunc
  have hn' : (n:K) ≤ 0 := by exact_mod_cast hn
  split_ifs with hx
  · rw [← Int.sub_one_lt_iff, Int.lt_ceil, Int.cast_sub, Int.cast_one]
  · refine iff_of_true (hn.trans (Int.floor_nonneg.mpr (not_lt.mp hx))) ?_
    linarith

omit [FloorRing K] in
/-- The integers near a half-way number are its two neighbours. -/
theorem neighbours (h : |(m:K)+1/2-n| < 3/2) : m = n ∨ m = n-1 := by
  have hlt := abs_lt.mp h
  have hlo : ((-2:ℤ):K) < ((m-n:ℤ):K) := by
    push_cast
    linarith
  have hhi : ((m-n:ℤ):K) < ((1:ℤ):K) := by
    push_cast
    linarith
  have hlo' := Int.cast_lt.mp hlo
  have hhi' := Int.cast_lt.mp hhi
  omega

omit [FloorRing K] in
/-- Both neighbours are a half away. -/
theorem abs_sub_of_neighbours (h : m = n ∨ m = n-1) : |(m:K)+1/2-n| = 1/2 := by
  obtain rfl | rfl := h
  · rw [add_sub_cancel_left, abs_of_pos (by norm_num)]
  · push_cast
    rw [show (n:K)-1+1/2-n = -(1/2) by ring, abs_neg, abs_of_pos (by norm_num)]

omit [FloorRing K] in
/-- A number a half away from an integer is half-way between two. -/
theorem exists_of_abs_sub_eq_half (h : |x-n| = 1/2) : ∃ m : ℤ, x = m+1/2 := by
  obtain h | h := (abs_eq (by norm_num : (0:K) ≤ 1/2)).mp h
  · exact ⟨n, by linarith⟩
  · refine ⟨n-1, ?_⟩
    push_cast
    linarith

/-- The fractional part is a half exactly half-way between two integers. -/
theorem abs_sub_trunc_eq_half : |x-trunc x| = 1/2 ↔ ∃ m : ℤ, x = m+1/2 := by
  refine ⟨exists_of_abs_sub_eq_half, ?_⟩
  rintro ⟨m, rfl⟩
  have hlt := abs_sub_trunc_lt ((m:K)+1/2)
  exact abs_sub_of_neighbours (neighbours (hlt.trans (by norm_num)))

variable {a b : K}

omit [IsStrictOrderedRing K] in
theorem truncMod_div (hb : b ≠ 0) : truncMod a b/b = a/b-trunc (a/b) := by
  rw [truncMod, sub_div, mul_div_cancel_left₀ _ hb]

omit [IsStrictOrderedRing K] in
theorem sub_truncMod_div (hb : b ≠ 0) : (a-truncMod a b)/b = trunc (a/b) := by
  rw [truncMod, sub_sub_cancel, mul_div_cancel_left₀ _ hb]

/-- The signs of remainder and divisor differ exactly where the quotient is rounded up. -/
theorem truncMod_signs (hb : b ≠ 0) : truncMod a b ≠ 0 ∧ ¬ (b < 0 ↔ truncMod a b < 0) ↔ a/b < trunc (a/b) := by
  have hquotient : a/b < trunc (a/b) ↔ truncMod a b/b < 0 := by rw [truncMod_div hb, sub_neg]
  rw [hquotient, div_neg_iff]
  obtain hneg | hpos := lt_or_gt_of_ne hb
  · simp only [hneg, hneg.not_gt, and_true, and_false, or_false, true_iff, not_lt]
    constructor
    · rintro ⟨hne, hle⟩
      exact lt_of_le_of_ne hle hne.symm
    · intro h
      exact ⟨h.ne', h.le⟩
  · simp only [hpos, hpos.not_gt, and_true, and_false, false_or, false_iff, not_not]
    exact ⟨fun h => h.2, fun h => ⟨h.ne, h⟩⟩

/-- What is left after division by the floor lies between zero and the divisor. -/
theorem sub_mul_floor_bounds (hb : b ≠ 0) :
    (0 < b → 0 ≤ a-b*⌊a/b⌋ ∧ a-b*⌊a/b⌋ < b) ∧ (b < 0 → b < a-b*⌊a/b⌋ ∧ a-b*⌊a/b⌋ ≤ 0) := by
  have hfloor := Int.floor_le (a/b)
  have hfloor' := Int.lt_floor_add_one (a/b)
  have ha : b*(a/b) = a := mul_div_cancel₀ a hb
  constructor
  · intro hpos
    have hlo := mul_le_mul_of_nonneg_left hfloor hpos.le
    have hhi := mul_lt_mul_of_pos_left hfloor' hpos
    rw [ha] at hlo hhi
    constructor <;> linarith
  · intro hneg
    have hlo := mul_le_mul_of_nonpos_left hfloor hneg.le
    have hhi := mul_lt_mul_of_neg_left hfloor' hneg
    rw [ha] at hlo hhi
    constructor <;> linarith

theorem abs_sub_roundAway (x : K) : |x-roundAway x| ≤ 1/2 := by
  unfold roundAway
  split_ifs with hx
  · have h := abs_sub_round (-x)
    rwa [← abs_neg, neg_sub, sub_neg_eq_add, add_comm, ← sub_neg_eq_add, ← Int.cast_neg] at h
  · exact abs_sub_round x

namespace NearestEven

theorem nearest (h : NearestEven x n) (k : ℤ) : |x-n| ≤ |x-k| := by
  by_cases hk : n = k
  · rw [hk]
  have hi : (1:ℤ) ≤ |n-k| := Int.one_le_abs (sub_ne_zero.mpr hk)
  have hr : (1:K) ≤ |(n:K)-k| := by exact_mod_cast hi
  have htriangle : |(n:K)-k| ≤ |x-n|+|x-k| := by
    rw [abs_sub_comm x n]
    exact abs_sub_le (n:K) x k
  have hnear := h.near
  linarith

theorem even_of_tie (h : NearestEven x n) (hx : x = m+1/2) : Even n := by
  have hnear := h.near
  apply h.even
  rw [hx] at hnear ⊢
  exact abs_sub_of_neighbours (neighbours (hnear.trans_lt (by norm_num)))

omit [IsStrictOrderedRing K] [FloorRing K] in
theorem neg (h : NearestEven x n) : NearestEven (-x) (-n) := by
  have hsub : -x-((-n:ℤ):K) = -(x-n) := by
    push_cast
    ring
  refine ⟨?_, ?_⟩
  · rw [hsub, abs_neg]
    exact h.near
  · rw [hsub, abs_neg, even_neg]
    exact h.even

/-- Numbers that would be rounded against their order are one half-way number with two even
neighbours. -/
theorem mono (hx : NearestEven x m) (hy : NearestEven y n) (hxy : x ≤ y) : m ≤ n := by
  by_contra hlt
  have hstep : (n:K)+1 ≤ m := by exact_mod_cast not_le.mp hlt
  have hxm := abs_le.mp hx.near
  have hyn := abs_le.mp hy.near
  have hx' : x = m-1/2 := by linarith
  have hy' : y = n+1/2 := by linarith
  have hmn : (m:K) = ((n+1:ℤ):K) := by
    push_cast
    linarith
  have heven : Even m := hx.even (by rw [hx', sub_sub_cancel_left, abs_neg, abs_of_pos (by norm_num)])
  have heven' : Even n := hy.even (by rw [hy', add_sub_cancel_left, abs_of_pos (by norm_num)])
  rw [Int.cast_inj.mp hmn, Int.even_add_one] at heven
  exact heven heven'

theorem unique (hm : NearestEven x m) (hn : NearestEven x n) : m = n :=
  le_antisymm (hm.mono hn le_rfl) (hn.mono hm le_rfl)

theorem intCast (n : ℤ) : NearestEven (n:K) n := by
  constructor
  · rw [sub_self, abs_zero]
    norm_num
  · rw [sub_self, abs_zero]
    intro h
    norm_num at h

end NearestEven

end Rounding
