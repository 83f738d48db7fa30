import LightArray.Blocks

namespace LightArray
open MachineWord

/-- `extract::<i64>()` of a Python int. -/
def extractI64 (v : ℤ) : Except Failure ℤ :=
  if v < -(2^63) ∨ 2^63 ≤ v then
    .error (.python .overflowError "Python int too large to convert to C long")
  else .ok v

/-- The number of elements `arange` computes. -/
def arangeCount (a b st : ℤ) : ℕ :=
  if 0 < st ∧ a < b ∨ st < 0 ∧ b < a then divCeil (asUsize (wrapAbs (wrapIsize (b-a)))) st.natAbs
  else 0

/-- `(0..n as i64).map(|i| a + i * st).collect()` in an array of shape `[n]`. -/
def arangeCollect (a st : ℤ) (n : ℕ) : Except Failure (NdArray .int64 ℤ) := do
  withCapacity .int64 (asIsize n).toNat
  NdArray.new .int64 ((List.range (asIsize n).toNat).map fun i : ℕ => wrapIsize (a+wrapIsize (i*st))) [n]

/-- `arange(start, stop=None, step=None)` of Python ints without a dtype. -/
def arange (start : ℤ) (stop step : Option ℤ) : Except Failure (NdArray .int64 ℤ) := do
  let (a,b) ← match stop with
    | some s => do
      let a ← extractI64 start
      let b ← extractI64 s
      .ok (a,b)
    | none => do
      let b ← extractI64 start
      .ok (0,b)
  let st ← match step with
    | some s => extractI64 s
    | none => .ok 1
  if st = 0 then .error (.python .zeroDivisionError "division by zero")
  else arangeCollect a st (arangeCount a b st)

/-- Strictly before `stop` in the direction of `step`. -/
def Before (step x stop : ℤ) : Prop := if 0 < step then x < stop else stop < x

/-- The finite sequence `start, start+step, ...` of the integers before `stop`. -/
structure Progression (start stop step : ℤ) (out : List ℤ) : Prop where
  element : ∀ i (h : i < out.length), out[i] = start+i*step
  length : ∀ i : ℕ, i < out.length ↔ Before step (start+i*step) stop

/-- No multiple of the step lies in the part of the distance that the wrapped
difference loses, and the elements are within one allocation. -/
def ArangeExact (start stop step : ℤ) : Prop :=
  Before step start stop →
    (∀ k : ℕ, ¬ (2^64-(stop-start).natAbs ≤ k*step.natAbs ∧ k*step.natAbs < (stop-start).natAbs)) ∧
      DType.int64.itemsize*divCeil (stop-start).natAbs step.natAbs ≤ isizeMax

theorem extractI64_of_range {v : ℤ} (h : -(2^63) ≤ v ∧ v < 2^63) : extractI64 v = .ok v :=
  if_neg (by omega)

section progression

variable {a b st : ℤ}

/-- The elements before `stop` are those within the distance. -/
theorem before_iff (hst : st ≠ 0) (i : ℕ) :
    Before st (a+i*st) b ↔ Before st a b ∧ i*st.natAbs < (b-a).natAbs := by
  unfold Before
  rcases lt_or_gt_of_ne hst with h | h
  · have hp : ((i*st.natAbs : ℕ) : ℤ) = -(i*st) := by
      push_cast
      rw [abs_of_neg h]
      ring
    rw [if_neg (by omega), if_neg (by omega)]
    omega
  · have hp : ((i*st.natAbs : ℕ) : ℤ) = i*st := by
      push_cast
      rw [abs_of_pos h]
    rw [if_pos h, if_pos h]
    omega

theorem directed_iff (hst : st ≠ 0) : (0 < st ∧ a < b ∨ st < 0 ∧ b < a) ↔ Before st a b := by
  unfold Before
  split <;> omega

theorem lt_arangeCount (ha : -(2^63) ≤ a ∧ a < 2^63) (hb : -(2^63) ≤ b ∧ b < 2^63) (hst : st ≠ 0) (k : ℕ) :
    k < arangeCount a b st ↔
      Before st a b ∧ k*st.natAbs < min (b-a).natAbs (2^64-(b-a).natAbs) := by
  unfold arangeCount
  rw [asUsize_wrapAbs_sub ha hb]
  by_cases hdir : Before st a b
  · rw [if_pos ((directed_iff hst).mpr hdir), lt_divCeil (Int.natAbs_pos.mpr hst)]
    simp [hdir]
  · rw [if_neg ((directed_iff hst).not.mpr hdir)]
    simp [hdir]

/-- An element of the range is an `i64`, whatever its product wraps to. -/
theorem wrapIsize_element (ha : -(2^63) ≤ a ∧ a < 2^63) (hb : -(2^63) ≤ b ∧ b < 2^63) {i : ℕ}
    (h : Before st (a+i*st) b) : wrapIsize (a+wrapIsize (i*st)) = a+i*st := by
  have hcast : wrapIsize (a+wrapIsize (i*st)) = wrapIsize (a+i*st) := by
    apply wrapIsize_congr
    push_cast
    rw [cast_wrapIsize]
    push_cast
    ring
  have hi : (0:ℤ) ≤ i := Int.natCast_nonneg i
  rw [hcast]
  rcases lt_or_ge 0 st with hst | hst
  · have hp : 0 ≤ i*st := mul_nonneg hi hst.le
    rw [Before, if_pos hst] at h
    exact wrapIsize_of_range (by omega) (by omega)
  · have hp : i*st ≤ 0 := mul_nonpos_of_nonneg_of_nonpos hi hst
    rw [Before, if_neg (not_lt.mpr hst)] at h
    exact wrapIsize_of_range (by omega) (by omega)

/-- What collecting `n` elements gives: nothing beyond one allocation. -/
theorem arangeCollect_ok {n : ℕ} {r : NdArray .int64 ℤ} (hn : n < wordModulus) :
    arangeCollect a st n = .ok r ↔
      DType.int64.itemsize*n ≤ isizeMax ∧ r.shape = [n] ∧
        r.data = (List.range n).map fun i : ℕ => wrapIsize (a+wrapIsize (i*st)) := by
  have hwrap : wrapProduct [n] = n := by
    rw [wrapProduct_eq, List.prod_singleton, wrapUsize_of_lt hn]
  constructor
  · intro h
    obtain ⟨⟨⟩, hcap, hnew⟩ := bind_eq_ok.mp h
    obtain ⟨hshape, hdata, hlen⟩ := NdArray.new_ok hnew
    rw [hwrap, List.length_map, List.length_range] at hlen
    rw [← hlen] at hcap hdata
    exact ⟨withCapacity_ok.mp hcap, hshape, hdata⟩
  · rintro ⟨hfits, hshape, hdata⟩
    have hle : n ≤ isizeMax := (Nat.le_mul_of_pos_left n DType.int64.itemsize_pos).trans hfits
    have hn : (asIsize n).toNat = n := by rw [asIsize_of_le hle, Int.toNat_natCast]
    have hcount : wrapProduct [n] = r.data.length := by rw [hwrap, hdata, List.length_map, List.length_range]
    obtain ⟨r', hnew, hshape', hdata'⟩ := NdArray.exists_new (t := .int64) (by simp [maxNdim]) hcount
    have hr : r = r' := NdArray.ext_shape (hshape.trans hshape'.symm) hdata'.symm
    rw [arangeCollect, hn, withCapacity_of_le hfits, ← hdata, hr]
    exact hr ▸ hnew

/-- A progression has as many elements as multiples of the step below the distance. -/
theorem Progression.length_eq {out : List ℤ} (hst : st ≠ 0) (h : Progression a b st out) (hdir : Before st a b) :
    out.length = divCeil (b-a).natAbs st.natAbs := by
  apply Nat.le_antisymm <;> apply le_of_forall_lt <;> intro k hk
  · rw [h.length, before_iff hst] at hk
    exact (lt_divCeil (Int.natAbs_pos.mpr hst)).mpr hk.2
  · rw [h.length, before_iff hst]
    exact ⟨hdir, (lt_divCeil (Int.natAbs_pos.mpr hst)).mp hk⟩

/-- The count is exact when no multiple of the step is lost. -/
theorem arangeCount_eq_iff (ha : -(2^63) ≤ a ∧ a < 2^63) (hb : -(2^63) ≤ b ∧ b < 2^63) (hst : st ≠ 0)
    (hdir : Before st a b) :
    arangeCount a b st = divCeil (b-a).natAbs st.natAbs ↔
      ∀ k : ℕ, ¬ (2^64-(b-a).natAbs ≤ k*st.natAbs ∧ k*st.natAbs < (b-a).natAbs) := by
  rw [arangeCount, if_pos ((directed_iff hst).mpr hdir), asUsize_wrapAbs_sub ha hb,
    divCeil_eq_iff (Int.natAbs_pos.mpr hst) (min_le_left ..)]
  apply forall_congr'
  intro k
  omega

/-- The count fits a word: every index below it is an element. -/
theorem arangeCount_lt (ha : -(2^63) ≤ a ∧ a < 2^63) (hb : -(2^63) ≤ b ∧ b < 2^63) (hst : st ≠ 0) :
    arangeCount a b st < wordModulus := by
  have hcount := lt_arangeCount ha hb hst
  rw [wordModulus_eq]
  by_contra hge
  have hlast := (hcount 18446744073709551615).mp (by omega)
  have hpos := Int.natAbs_pos.mpr hst
  have hle := Nat.le_mul_of_pos_right 18446744073709551615 hpos
  omega

/-- An exact count has the elements before `stop`. -/
theorem ArangeExact.lt_count (h : ArangeExact a b st) (ha : -(2^63) ≤ a ∧ a < 2^63) (hb : -(2^63) ≤ b ∧ b < 2^63)
    (hst : st ≠ 0) (k : ℕ) : k < arangeCount a b st ↔ Before st (a+k*st) b := by
  rw [before_iff hst]
  by_cases hdir : Before st a b
  · rw [(arangeCount_eq_iff ha hb hst hdir).mpr (h hdir).1, lt_divCeil (Int.natAbs_pos.mpr hst)]
    simp [hdir]
  · rw [lt_arangeCount ha hb hst]
    simp [hdir]

theorem ArangeExact.fits (h : ArangeExact a b st) (ha : -(2^63) ≤ a ∧ a < 2^63) (hb : -(2^63) ≤ b ∧ b < 2^63)
    (hst : st ≠ 0) : DType.int64.itemsize*arangeCount a b st ≤ isizeMax := by
  by_cases hdir : Before st a b
  · rw [(arangeCount_eq_iff ha hb hst hdir).mpr (h hdir).1]
    exact (h hdir).2
  · -- nothing is before `stop`
    have hzero : arangeCount a b st = 0 := if_neg ((directed_iff hst).not.mpr hdir)
    rw [hzero]
    exact Nat.zero_le _

/-- `arange` after its arguments are read. -/
theorem arangeCollect_exact_iff (ha : -(2^63) ≤ a ∧ a < 2^63) (hb : -(2^63) ≤ b ∧ b < 2^63) (hst : st ≠ 0) :
    (∃ r, arangeCollect a st (arangeCount a b st) = .ok r ∧ r.shape = [r.data.length] ∧
      Progression a b st r.data) ↔ ArangeExact a b st := by
  have hword := arangeCount_lt ha hb hst
  constructor
  · rintro ⟨r, hr, -, hprog⟩ hdir
    obtain ⟨hfits, -, hdata⟩ := (arangeCollect_ok hword).mp hr
    have hlen := hprog.length_eq hst hdir
    rw [hdata, List.length_map, List.length_range] at hlen
    rw [hlen] at hfits
    exact ⟨(arangeCount_eq_iff ha hb hst hdir).mp hlen, hfits⟩
  · intro hexact
    have hn := hexact.lt_count ha hb hst
    have hsize : wrapProduct [arangeCount a b st] =
        ((List.range (arangeCount a b st)).map fun i : ℕ => wrapIsize (a+wrapIsize (i*st))).length := by
      rw [wrapProduct_eq, List.prod_singleton, wrapUsize_of_lt hword, List.length_map, List.length_range]
    obtain ⟨r, -, hshape, hdata⟩ := NdArray.exists_new (t := .int64) (by simp [maxNdim]) hsize
    have hlen : r.data.length = arangeCount a b st := by rw [hdata, List.length_map, List.length_range]
    refine ⟨r, (arangeCollect_ok hword).mpr ⟨hexact.fits ha hb hst, hshape, hdata⟩, by rw [hshape, hlen], ?_, ?_⟩
    · intro i hi
      rw [List.getElem_of_eq hdata, List.getElem_map, List.getElem_range]
      exact wrapIsize_element ha hb ((hn i).mp (hlen ▸ hi))
    · intro i
      rw [hlen]
      exact hn i

end progression

/-- The native path for `int64` arguments. -/
theorem arange_eq {start stop step : ℤ} (hstart : -(2^63) ≤ start ∧ start < 2^63)
    (hstop : -(2^63) ≤ stop ∧ stop < 2^63) (hstep : -(2^63) ≤ step ∧ step < 2^63) (hne : step ≠ 0) :
    arange start (some stop) (some step) = arangeCollect start step (arangeCount start stop step) := by
  simp only [arange, extractI64_of_range hstart, extractI64_of_range hstop, extractI64_of_range hstep]
  exact if_neg hne

/-- Integer `arange` gives the exact progression just when the wrapped difference
loses none of its elements. -/
theorem arange_exact_iff (start stop step : ℤ) (hstart : -(2^63) ≤ start ∧ start < 2^63)
    (hstop : -(2^63) ≤ stop ∧ stop < 2^63) (hstep : -(2^63) ≤ step ∧ step < 2^63) (hne : step ≠ 0) :
    (∃ r, arange start (some stop) (some step) = .ok r ∧ r.shape = [r.data.length] ∧
      Progression start stop step r.data) ↔ ArangeExact start stop step := by
  rw [arange_eq hstart hstop hstep hne]
  exact arangeCollect_exact_iff hstart hstop hne

/-- `arange(-7, 7, 5)`. -/
theorem arange_exact_iff_short :
    ∃ r, arange (-7) (some 7) (some 5) = .ok r ∧ r.shape = [r.data.length] ∧ Progression (-7) 7 5 r.data := by
  apply (arange_exact_iff (-7) 7 5 (by decide) (by decide) (by decide) (by decide)).mpr
  intro _
  refine ⟨fun k hk => ?_, by decide⟩
  norm_num at hk
  omega

/-- `arange(-2^63, 2^63-1, 2^62)` has four elements; the difference wraps to -1
and one element comes back. -/
theorem arange_long_range :
    ¬ ∀ start stop step : ℤ, (-(2^63) ≤ start ∧ start < 2^63) → (-(2^63) ≤ stop ∧ stop < 2^63) →
      (-(2^63) ≤ step ∧ step < 2^63) → step ≠ 0 →
        ∃ r, arange start (some stop) (some step) = .ok r ∧ r.shape = [r.data.length] ∧
          Progression start stop step r.data := by
  intro h
  obtain ⟨r, hr, -, hprog⟩ := h (-(2^63)) (2^63-1) (2^62) (by decide) (by decide) (by decide) (by decide)
  have hone : arange (-(2^63)) (some (2^63-1)) (some (2^62)) =
      arangeCollect (-(2^63)) (2^62) 1 :=
    arange_eq (by decide) (by decide) (by decide) (by decide)
  rw [hone] at hr
  obtain ⟨-, -, hdata⟩ := (arangeCollect_ok (by decide)).mp hr
  have hsecond := (hprog.length 1).mpr (by unfold Before; norm_num)
  rw [hdata] at hsecond
  simp at hsecond

end LightArray
