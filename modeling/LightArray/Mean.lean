import LightArray.FoldAxis

namespace LightArray
open MachineWord RowMajor

namespace NdArray

/-- `f(a[i])`. -/
def map {t : DType} {T U : Type} (f : T → U) (a : NdArray t T) : NdArray t U := ⟨a.dims, a.data.map f⟩

/-- The operations of the element type that `sum` and `mean` use. -/
structure Arithmetic (F : Type) where
  zero : F
  add : F → F → F
  div : F → F → F
  ofUsize : ℕ → F

variable {F : Type} (ops : Arithmetic F) (axis : ℤ) (a : NdArray .float64 F)

/-- `sum` along an axis. -/
def sumAxis : Except Failure (NdArray .float64 F) := foldAxis ops.add (some ops.zero) axis a

/-- `mean` along an axis. -/
def meanAxis : Except Failure (NdArray .float64 F) :=
  let ndim : ℤ := a.ndim
  if ndim = 0 then .error (.panic "attempt to calculate the remainder with a divisor of zero")
  else
    match a.shape[asUsize ((wrapIsize (axis+ndim)).tmod ndim)]? with
    | none => .error (.panic "index out of bounds")
    | some len => do
      let s ← sumAxis ops axis a
      .ok (s.map fun x => ops.div x (ops.ofUsize len))

/-- `mean` checks its axis like `sum` and divides the sums by the length of the axis. -/
structure MeanFollowsSum : Prop where
  no_panic : ∀ text, meanAxis ops axis a ≠ .error (.panic text)
  fails : (∃ e, meanAxis ops axis a = .error e) ↔ ∃ e, sumAxis ops axis a = .error e
  range : (∃ e, meanAxis ops axis a = .error e) ↔ axis < -a.ndim ∨ a.ndim ≤ axis
  divides : ∀ s, sumAxis ops axis a = .ok s → ∀ k, MeansAxis axis a.ndim k →
    meanAxis ops axis a = .ok (s.map fun x => ops.div x (ops.ofUsize (a.shape.getD k 0)))

variable {ops axis a}

/-- A negative number leaves no negative remainder only when it is a multiple. -/
theorem tmod_nonneg_iff {z n : ℤ} (hz : z < 0) : 0 ≤ z.tmod n ↔ n ∣ z := by
  have hsign := Int.sign_tmod z n
  split_ifs at hsign with hdvd
  · rw [Int.sign_eq_zero_iff_zero] at hsign
    simp [hsign, hdvd]
  · rw [Int.sign_eq_neg_one_of_neg hz, Int.sign_eq_neg_one_iff_neg] at hsign
    simp only [hdvd, iff_false]
    omega

/-- When the remainder is the number of an axis. -/
theorem remainder_nonneg_iff {n : ℕ} (hn : n ≤ maxNdim) (hlo : -(2^63) ≤ axis) (hhi : axis < 2^63) :
    0 ≤ (wrapIsize (axis+n)).tmod n ↔
      (axis < -n → (n : ℤ) ∣ axis) ∧ (2^63 ≤ axis+n → (n : ℤ) ∣ axis-2^64) := by
  have hn8 : (n : ℤ) ≤ 8 := by exact_mod_cast hn
  rcases lt_or_ge (axis+n) (2^63) with hsum | hsum
  · rw [wrapIsize_of_range (by omega) hsum]
    rcases lt_or_ge (axis+n) 0 with hneg | hpos
    · have hout : axis < -n := by omega
      rw [tmod_nonneg_iff hneg, dvd_add_self_right]
      simp only [hout, forall_const, not_le.mpr hsum, false_implies, and_true]
    · have hnonneg := Int.tmod_nonneg (n : ℤ) hpos
      simp only [hnonneg, show ¬ axis < -n by omega, not_le.mpr hsum, false_implies, and_self]
  · -- the sum wraps around to a negative number
    have hshift : wrapIsize (axis+n) = wrapIsize (axis-wordModulus+n) := by
      apply wrapIsize_congr
      push_cast
      rw [ZMod.natCast_self, sub_zero]
    have hwrap : wrapIsize (axis+n) = axis-2^64+n := by
      rw [hshift, wordModulus_eq]
      exact wrapIsize_of_range (by omega) (by omega)
    rw [hwrap, tmod_nonneg_iff (by omega), dvd_add_self_right]
    simp only [hsum, forall_const, show ¬ axis < -n by omega, false_implies, true_and]

theorem meanAxis_panics (hn : a.ndim ≠ 0) (h : ¬ 0 ≤ (wrapIsize (axis+a.ndim)).tmod a.ndim) :
    meanAxis ops axis a = .error (.panic "index out of bounds") := by
  have hle : (a.ndim : ℤ) ≤ 8 := by exact_mod_cast a.ndim_le
  have hlt := Int.lt_tmod_of_pos (wrapIsize (axis+a.ndim)) (b := a.ndim) (by omega)
  have hnone : a.shape[asUsize ((wrapIsize (axis+a.ndim)).tmod a.ndim)]? = none := by
    apply List.getElem?_eq_none
    have hr : asUsize ((wrapIsize (axis+a.ndim)).tmod a.ndim) = ((wrapIsize (axis+a.ndim)).tmod a.ndim+2^64).toNat := by
      rw [asUsize, ← Int.add_emod_right, wordModulus_eq, Int.emod_eq_of_lt (by omega) (by omega)]
      rfl
    have hlen : a.shape.length = a.ndim := rfl
    omega
  have hne : (a.ndim : ℤ) ≠ 0 := by omega
  simp only [meanAxis, if_neg hne, hnone]

variable (ops) in
theorem meanAxis_looksUp (hn : a.ndim ≠ 0) (h : 0 ≤ (wrapIsize (axis+a.ndim)).tmod a.ndim) :
    ∃ len, a.shape[((wrapIsize (axis+a.ndim)).tmod a.ndim).toNat]? = some len ∧
      meanAxis ops axis a = (sumAxis ops axis a).map fun s => s.map fun x => ops.div x (ops.ofUsize len) := by
  have hlt := Int.tmod_lt_of_pos (wrapIsize (axis+a.ndim)) (b := a.ndim) (by omega)
  have hle : (a.ndim : ℤ) ≤ 8 := by exact_mod_cast a.ndim_le
  have hlen : a.shape.length = a.ndim := rfl
  have hr : asUsize ((wrapIsize (axis+a.ndim)).tmod a.ndim) = ((wrapIsize (axis+a.ndim)).tmod a.ndim).toNat :=
    asUsize_of_nonneg h (by rw [wordModulus_eq]; omega)
  have hsome := List.getElem?_eq_getElem (l := a.shape) (i := ((wrapIsize (axis+a.ndim)).tmod a.ndim).toNat) (by omega)
  refine ⟨_, hsome, ?_⟩
  have hne : (a.ndim : ℤ) ≠ 0 := by omega
  simp only [meanAxis, if_neg hne, hr, hsome]
  cases sumAxis ops axis a <;> rfl

theorem remainder_eq {k : ℕ} (h : MeansAxis axis a.ndim k) : (wrapIsize (axis+a.ndim)).tmod a.ndim = k := by
  have hle : (a.ndim : ℤ) ≤ 8 := by exact_mod_cast a.ndim_le
  obtain ⟨hk, haxis⟩ := h
  rw [wrapIsize_of_range (by omega) (by omega), Int.tmod_eq_emod_of_nonneg (by omega)]
  rcases haxis with rfl | rfl
  · rw [Int.add_emod_right, Int.emod_eq_of_lt (by omega) (by omega)]
  · rw [sub_add_cancel, Int.emod_eq_of_lt (by omega) (by omega)]

theorem sums_fit_iff (ops : Arithmetic F) (h : a.Counted) : (∀ k, MeansAxis axis a.ndim k →
      DType.float64.itemsize*(wrapProduct (a.shape.take k)*wrapProduct (a.shape.drop (k+1))) ≤ isizeMax) ↔
    ((∃ k, MeansAxis axis a.ndim k) → ∃ s, sumAxis ops axis a = .ok s) := by
  rcases axis_cases axis a with ⟨-, -, hno⟩ | ⟨s, len, u, hs, hk, -, hmeans⟩
  · simp [hno]
  · have hinit : some ops.zero = none → len ≠ 0 := nofun
    have hiff := exists_foldAxis_iff (f := ops.add) h hs hk hinit
    simp only [hmeans, forall_eq, exists_eq, forall_const, hs, List.take_left, drop_length_succ]
    exact hiff.symm

/-- The length that is divided by is looked up without a panic. -/
theorem MeanFollowsSum.looksUp (h : MeanFollowsSum ops axis a) :
    a.ndim ≠ 0 ∧ 0 ≤ (wrapIsize (axis+a.ndim)).tmod a.ndim := by
  have hn : a.ndim ≠ 0 := by
    intro hzero
    apply h.no_panic "attempt to calculate the remainder with a divisor of zero"
    have hz : (a.ndim : ℤ) = 0 := by omega
    simp only [meanAxis, if_pos hz]
  refine ⟨hn, ?_⟩
  by_contra hneg
  exact h.no_panic _ (meanAxis_panics hn hneg)

/-- `mean` divides the sums whenever it finds a length and the sums of an axis exist. -/
theorem meanFollowsSum_of_looksUp (hn : a.ndim ≠ 0) (hr : 0 ≤ (wrapIsize (axis+a.ndim)).tmod a.ndim)
    (hok : (∃ k, MeansAxis axis a.ndim k) → ∃ s, sumAxis ops axis a = .ok s) : MeanFollowsSum ops axis a := by
  obtain ⟨len, hlen, hmean⟩ := meanAxis_looksUp ops hn hr
  have hfails : (∃ e, meanAxis ops axis a = .error e) ↔ ∃ e, sumAxis ops axis a = .error e := by
    rw [hmean]
    cases sumAxis ops axis a <;> simp [Except.map]
  rcases axis_cases axis a with ⟨⟨e, he⟩, hout, hno⟩ | ⟨s, d, u, hs, hk, hin, hmeans⟩
  · -- the axis is refused by `fold_axis`, with an error that is no panic
    have hsum : sumAxis ops axis a = .error e := foldAxis_axis_error he
    refine ⟨fun text hpanic => ?_, hfails, ?_, fun s hs => ?_⟩
    · rw [hmean, hsum] at hpanic
      obtain rfl : e = .panic text := by injection hpanic
      unfold resolveAxis at he
      split_ifs at he
      cases he
    · rw [hfails]
      exact ⟨fun _ => hout, fun _ => ⟨e, hsum⟩⟩
    · rw [hsum] at hs
      cases hs
  · -- the axis is one of the axes, and the remainder is that axis
    obtain ⟨z, hz⟩ := hok ⟨s.length, (hmeans _).mpr rfl⟩
    refine ⟨fun text hpanic => ?_, hfails, ?_, fun z' hz' k hk' => ?_⟩
    · rw [hmean, hz] at hpanic
      cases hpanic
    · rw [hfails, hz]
      constructor
      · rintro ⟨e, he⟩
        cases he
      · omega
    · rw [remainder_eq hk', Int.toNat_natCast] at hlen
      rw [hmean, hz', List.getD_eq_getElem?_getD, hlen]
      rfl

/-- `mean` follows `sum` exactly for arrays with an axis, unless the axis is out of range without
being a multiple of the number of axes, and as long as the sums can be allocated. -/
theorem meanAxis_follows_iff (ops : Arithmetic F) (axis : ℤ) (a : NdArray .float64 F) (h : a.Counted)
    (hlo : -(2^63) ≤ axis) (hhi : axis < 2^63) :
    MeanFollowsSum ops axis a ↔ a.ndim ≠ 0 ∧
      ((axis < -a.ndim → (a.ndim : ℤ) ∣ axis) ∧ (2^63 ≤ axis+a.ndim → (a.ndim : ℤ) ∣ axis-2^64)) ∧
      ∀ k, MeansAxis axis a.ndim k →
        DType.float64.itemsize*(wrapProduct (a.shape.take k)*wrapProduct (a.shape.drop (k+1))) ≤ isizeMax := by
  rw [← remainder_nonneg_iff (n := a.ndim) a.ndim_le hlo hhi, sums_fit_iff ops h]
  constructor
  · intro hfollows
    obtain ⟨hn, hr⟩ := hfollows.looksUp
    refine ⟨hn, hr, fun ⟨k, hk⟩ => ?_⟩
    cases hsum : sumAxis ops axis a with
    | ok s => exact ⟨s, rfl⟩
    | error e =>
      obtain ⟨hlt, haxis⟩ := hk
      rcases hfollows.range.mp (hfollows.fails.mpr ⟨e, hsum⟩) with hout | hout <;> omega
  · rintro ⟨hn, hr, hok⟩
    exact meanFollowsSum_of_looksUp hn hr hok

/-- Whole numbers with a division. -/
def wholeNumbers : Arithmetic ℤ := ⟨0, (· + ·), (· / ·), Int.ofNat⟩

/-- Without an axis the remainder has no divisor, and beyond the axes it is negative. -/
theorem meanAxis_panics_out_of_range :
    ¬ MeanFollowsSum wholeNumbers 0 ⟨⟨[], _, by decide, rfl⟩, [5]⟩ ∧ ¬ MeanFollowsSum wholeNumbers (-3) square :=
  ⟨fun h => h.no_panic "attempt to calculate the remainder with a divisor of zero" rfl,
    fun h => h.no_panic "index out of bounds" rfl⟩

theorem meanAxis_follows_square : MeanFollowsSum wholeNumbers (-1) square := by
  refine (meanAxis_follows_iff wholeNumbers (-1) square ⟨by decide, by decide⟩ (by decide) (by decide)).mpr
    ⟨by decide, ⟨by decide, by decide⟩, ?_⟩
  rintro k ⟨hk, haxis⟩
  have hndim : square.ndim = 2 := rfl
  obtain rfl : k = 1 := by omega
  decide

end NdArray

end LightArray
