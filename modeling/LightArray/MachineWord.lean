import Mathlib.Tactic
import Mathlib.Data.ZMod.Basic
import Mathlib.Data.Int.ModEq
import Mathlib.Algebra.BigOperators.Group.List.Basic

/-! Wrapping 64-bit words as residues. An address computation made of wrapping
steps is compared with the exact one in `ZMod wordModulus`, where every step is
a ring operation, and read back only where both sides are known to fit. -/
namespace MachineWord

/-- The number of `usize` values. -/
def wordModulus : ℕ := 2^64

/-- The largest `isize`. -/
def isizeMax : ℕ := 2^63-1

/-- A `usize` result reduced modulo the word size. -/
def wrapUsize (n : ℕ) : ℕ := n % wordModulus

/-- An `isize` result reduced to the signed range. -/
def wrapIsize (z : ℤ) : ℤ := z.bmod wordModulus

/-- The cast `as isize` of a `usize`. -/
def asIsize (n : ℕ) : ℤ := wrapIsize n

/-- The cast `as usize` of an `isize`. -/
def asUsize (z : ℤ) : ℕ := (z % wordModulus).toNat

/-- `iter().product::<usize>()`, one wrapping multiplication at a time. -/
def wrapProduct (ds : List ℕ) : ℕ := ds.foldl (fun acc d => wrapUsize (acc*d)) 1

/-- Words up to wrapping. -/
abbrev Word := ZMod wordModulus

theorem wordModulus_eq : wordModulus = 18446744073709551616 := by decide

theorem isizeMax_eq : isizeMax = 9223372036854775807 := by decide

instance : NeZero wordModulus := ⟨by decide⟩

theorem wrapUsize_lt (n : ℕ) : wrapUsize n < wordModulus := Nat.mod_lt _ (by decide)

theorem wrapUsize_of_lt {n : ℕ} (h : n < wordModulus) : wrapUsize n = n := Nat.mod_eq_of_lt h

@[simp] theorem cast_wrapUsize (n : ℕ) : ((wrapUsize n : ℕ) : Word) = n :=
  ZMod.natCast_mod n wordModulus

@[simp] theorem cast_wrapIsize (z : ℤ) : ((wrapIsize z : ℤ) : Word) = z := by
  rw [ZMod.intCast_eq_intCast_iff]
  exact Int.bmod_emod

@[simp] theorem cast_asIsize (n : ℕ) : ((asIsize n : ℤ) : Word) = n := by
  rw [asIsize, cast_wrapIsize, Int.cast_natCast]

@[simp] theorem cast_asUsize (z : ℤ) : ((asUsize z : ℕ) : Word) = z := by
  have hn : 0 ≤ z % wordModulus := Int.emod_nonneg _ (by decide)
  rw [asUsize, ← Int.cast_natCast, Int.toNat_of_nonneg hn, ZMod.intCast_mod]

theorem asUsize_lt (z : ℤ) : asUsize z < wordModulus := by
  have hl := Int.emod_nonneg z (show (wordModulus : ℤ) ≠ 0 by decide)
  have hu := Int.emod_lt_of_pos z (show (0:ℤ) < wordModulus by decide)
  unfold asUsize
  omega

theorem wrapIsize_range (z : ℤ) : -(2^63) ≤ wrapIsize z ∧ wrapIsize z < 2^63 := by
  have hl := Int.le_bmod (x := z) (m := wordModulus) (by decide)
  have hu := Int.bmod_lt (x := z) (m := wordModulus) (by decide)
  simp only [wordModulus_eq] at hl hu
  unfold wrapIsize
  simp only [wordModulus_eq]
  omega

theorem wrapIsize_of_range {z : ℤ} (hl : -(2^63) ≤ z) (hu : z < 2^63) : wrapIsize z = z := by
  apply Int.bmod_eq_of_le <;> simp only [wordModulus_eq] <;> omega

theorem asIsize_of_le {n : ℕ} (h : n ≤ isizeMax) : asIsize n = n := by
  rw [isizeMax_eq] at h
  exact wrapIsize_of_range (by omega) (by omega)

theorem asUsize_of_nonneg {z : ℤ} (h0 : 0 ≤ z) (h : z < wordModulus) : asUsize z = z.toNat := by
  rw [asUsize, Int.emod_eq_of_lt h0 h]

theorem eq_of_cast_eq {a b : ℕ} (ha : a < wordModulus) (hb : b < wordModulus)
    (h : (a : Word) = b) : a = b := by
  have hm := (ZMod.natCast_eq_natCast_iff' a b wordModulus).mp h
  rwa [Nat.mod_eq_of_lt ha, Nat.mod_eq_of_lt hb] at hm

/-- A `usize` is the representative of its word. -/
theorem eq_val_of_cast_eq {p : ℕ} {w : Word} (hp : p < wordModulus) (h : (p : Word) = w) : p = w.val := by
  rw [← h, ZMod.val_natCast, Nat.mod_eq_of_lt hp]

theorem wrapIsize_congr {a b : ℤ} (h : (a : Word) = b) : wrapIsize a = wrapIsize b := by
  have hm := (ZMod.intCast_eq_intCast_iff a b wordModulus).mp h
  unfold wrapIsize
  rw [← Int.emod_bmod (x := a), ← Int.emod_bmod (x := b), hm]

/-- A `usize` beyond the signed range turns negative. -/
theorem asIsize_of_gt {n : ℕ} (h : isizeMax < n) (hn : n < wordModulus) :
    asIsize n = n-wordModulus := by
  have hshift : wrapIsize n = wrapIsize (n-wordModulus) := by
    apply wrapIsize_congr
    push_cast
    rw [ZMod.natCast_self, sub_zero]
  rw [isizeMax_eq] at h
  rw [asIsize, hshift]
  rw [wordModulus_eq] at hn ⊢
  exact wrapIsize_of_range (by omega) (by omega)

theorem asIsize_cases {n : ℕ} (hn : n < wordModulus) :
    n < 2^63 ∧ asIsize n = n ∨ 2^63 ≤ n ∧ asIsize n = n-2^64 := by
  have hmod : (wordModulus : ℤ) = 2^64 := by decide
  rcases Nat.lt_or_ge isizeMax n with h | h
  · have he := asIsize_of_gt h hn
    rw [isizeMax_eq] at h
    exact .inr ⟨h, hmod ▸ he⟩
  · have he := asIsize_of_le h
    rw [isizeMax_eq] at h
    exact .inl ⟨by omega, he⟩

/-- Wrapping adds a multiple of the word size. -/
theorem exists_wrapIsize (z : ℤ) : ∃ j : ℤ, wrapIsize z = z+2^64*j := by
  have hm : wrapIsize z ≡ z [ZMOD wordModulus] := Int.bmod_emod
  obtain ⟨j, hj⟩ := hm.symm.dvd
  refine ⟨j, ?_⟩
  rw [wordModulus_eq] at hj
  omega

theorem wrapIsize_eq_of_range {z j : ℤ} (hl : -(2^63) ≤ z+2^64*j) (hu : z+2^64*j < 2^63) :
    wrapIsize z = z+2^64*j := by
  have hmod : ((2^64 : ℤ) : Word) = 0 := by decide
  calc
    wrapIsize z = wrapIsize (z+2^64*j) := by
      apply wrapIsize_congr
      rw [Int.cast_add, Int.cast_mul, hmod, zero_mul, add_zero]
    _ = z+2^64*j := wrapIsize_of_range hl hu

theorem foldl_wrapUsize (ds : List ℕ) (a : ℕ) :
    ds.foldl (fun acc d => wrapUsize (acc*d)) (wrapUsize a) = wrapUsize (a*ds.prod) := by
  induction ds generalizing a with
  | nil => simp
  | cons d ds ih =>
    have hstep : wrapUsize (wrapUsize a*d) = wrapUsize (a*d) := Nat.mod_mul_mod a d wordModulus
    rw [List.foldl_cons, hstep, ih, List.prod_cons, mul_assoc]

/-- The wrapping product is the natural-number product reduced once. -/
theorem wrapProduct_eq (ds : List ℕ) : wrapProduct ds = wrapUsize ds.prod := by
  have h := foldl_wrapUsize ds 1
  rw [one_mul] at h
  exact h

@[simp] theorem cast_wrapProduct (ds : List ℕ) : ((wrapProduct ds : ℕ) : Word) = (ds.prod : ℕ) := by
  rw [wrapProduct_eq, cast_wrapUsize]

theorem wrapProduct_lt (ds : List ℕ) : wrapProduct ds < wordModulus := by
  rw [wrapProduct_eq]
  exact wrapUsize_lt _

theorem wrapProduct_of_lt {ds : List ℕ} (h : ds.prod < wordModulus) : wrapProduct ds = ds.prod := by
  rw [wrapProduct_eq, wrapUsize_of_lt h]

theorem wrapProduct_append (as bs : List ℕ) : wrapProduct (as ++ bs) = wrapUsize (wrapProduct as*wrapProduct bs) := by
  rw [wrapProduct_eq, wrapProduct_eq, wrapProduct_eq, List.prod_append]
  exact Nat.mul_mod ..

/-- Products with a factor between them whose product fits do not wrap, unless they do not matter. -/
theorem wrapProduct_mul_mul {as bs : List ℕ} {n : ℕ} (h : as.prod*(n*bs.prod) < wordModulus) :
    wrapProduct as*(n*wrapProduct bs) = as.prod*(n*bs.prod) := by
  rcases Nat.eq_zero_or_pos as.prod with ha | ha
  · rw [wrapProduct_eq, ha, zero_mul]
    exact zero_mul _
  rcases Nat.eq_zero_or_pos n with rfl | hn
  · simp
  rcases Nat.eq_zero_or_pos bs.prod with hb | hb
  · rw [wrapProduct_eq bs, hb, mul_zero]
    exact mul_zero _
  have hnb : 0 < n*bs.prod := Nat.mul_pos hn hb
  have has : as.prod < wordModulus := by
    calc
      as.prod ≤ as.prod*(n*bs.prod) := Nat.le_mul_of_pos_right _ hnb
      _ < wordModulus := h
  have hbs : bs.prod < wordModulus := by
    calc
      bs.prod ≤ n*bs.prod := Nat.le_mul_of_pos_left _ hn
      _ ≤ as.prod*(n*bs.prod) := Nat.le_mul_of_pos_left _ ha
      _ < wordModulus := h
  rw [wrapProduct_of_lt has, wrapProduct_of_lt hbs]

theorem wrapProduct_mul {as bs : List ℕ} (h : as.prod*bs.prod < wordModulus) :
    wrapProduct as*wrapProduct bs = as.prod*bs.prod := by
  have hone : wrapProduct as*(1*wrapProduct bs) = as.prod*(1*bs.prod) := wrapProduct_mul_mul (by rwa [one_mul])
  rwa [one_mul, one_mul] at hone

theorem wrapProduct_zero {ds : List ℕ} (h : ds.prod = 0) : wrapProduct ds = 0 := by
  rw [wrapProduct_eq, h]
  rfl

/-- A divisor of the word size still divides after wrapping. -/
theorem dvd_wrapIsize_iff {c z : ℤ} (hc : c ∣ (wordModulus : ℤ)) : c ∣ wrapIsize z ↔ c ∣ z := by
  have hm : wrapIsize z ≡ z [ZMOD wordModulus] := Int.bmod_emod
  have hd : c ∣ z-wrapIsize z := hc.trans hm.dvd
  exact (dvd_iff_dvd_of_dvd_sub hd).symm

theorem dvd_wrapIsize {c z : ℤ} (hc : c ∣ (wordModulus : ℤ)) (hz : c ∣ z) : c ∣ wrapIsize z :=
  (dvd_wrapIsize_iff hc).mpr hz

/-- `abs()` of an `isize`: the least one stays negative. -/
def wrapAbs (z : ℤ) : ℤ := wrapIsize |z|

/-- `div_ceil` of unsigned words. -/
def divCeil (n d : ℕ) : ℕ := if 0 < n % d then n/d+1 else n/d

/-- The rounded quotient counts the multiples below the dividend. -/
theorem lt_divCeil {n d k : ℕ} (hd : 0 < d) : k < divCeil n d ↔ k*d < n := by
  have hsplit := Nat.div_add_mod' n d
  have hmod := Nat.mod_lt n hd
  unfold divCeil
  split
  · rename_i hr
    rw [Nat.lt_succ_iff, Nat.le_div_iff_mul_le hd]
    constructor
    · intro hle
      rcases hle.lt_or_eq with h | h
      · exact h
      · rw [← h, Nat.mul_mod_left] at hr
        exact absurd hr (lt_irrefl 0)
    · exact le_of_lt
  · rename_i hr
    have hn : n/d*d = n := by omega
    calc
      k < n/d ↔ k*d < n/d*d := (Nat.mul_lt_mul_right hd).symm
      _ ↔ k*d < n := by rw [hn]

theorem divCeil_mono {m n d : ℕ} (hd : 0 < d) (h : m ≤ n) : divCeil m d ≤ divCeil n d := by
  apply le_of_forall_lt
  intro k hk
  rw [lt_divCeil hd] at hk ⊢
  exact hk.trans_le h

/-- Two dividends round to the same quotient when no multiple lies between them. -/
theorem divCeil_eq_iff {m n d : ℕ} (hd : 0 < d) (h : m ≤ n) :
    divCeil m d = divCeil n d ↔ ∀ k, ¬ (m ≤ k*d ∧ k*d < n) := by
  constructor
  · rintro he k ⟨hm, hn⟩
    rw [← lt_divCeil hd, ← he, lt_divCeil hd] at hn
    omega
  · intro hno
    apply le_antisymm (divCeil_mono hd h)
    apply le_of_forall_lt
    intro k hk
    rw [lt_divCeil hd] at hk ⊢
    by_contra hm
    exact hno k ⟨not_lt.mp hm, hk⟩

theorem asUsize_wrapIsize (z : ℤ) : asUsize (wrapIsize z) = asUsize z := by
  apply eq_of_cast_eq (asUsize_lt _) (asUsize_lt _)
  rw [cast_asUsize, cast_asUsize, cast_wrapIsize]

/-- A difference of two `isize` values wraps at most once. -/
theorem natAbs_wrapIsize_sub {a b : ℤ} (ha : -(2^63) ≤ a ∧ a < 2^63) (hb : -(2^63) ≤ b ∧ b < 2^63) :
    (wrapIsize (b-a)).natAbs = min (b-a).natAbs (2^64-(b-a).natAbs) := by
  have hshift (z : ℤ) : wrapIsize z = wrapIsize (z-wordModulus) ∧ wrapIsize z = wrapIsize (z+wordModulus) := by
    constructor <;> apply wrapIsize_congr <;> push_cast <;> simp
  rcases lt_or_ge (b-a) (-(2^63)) with hlow | hlow
  · have hw : wrapIsize (b-a) = b-a+wordModulus := by
      rw [(hshift (b-a)).2]
      apply wrapIsize_of_range <;> rw [wordModulus_eq] <;> omega
    rw [hw, wordModulus_eq]
    omega
  rcases lt_or_ge (b-a) (2^63) with hhigh | hhigh
  · rw [wrapIsize_of_range hlow hhigh]
    omega
  · have hw : wrapIsize (b-a) = b-a-wordModulus := by
      rw [(hshift (b-a)).1]
      apply wrapIsize_of_range <;> rw [wordModulus_eq] <;> omega
    rw [hw, wordModulus_eq]
    omega

/-- The distance of two `isize` values, computed as `(b - a).abs() as u64`, goes
the short way round the word. -/
theorem asUsize_wrapAbs_sub {a b : ℤ} (ha : -(2^63) ≤ a ∧ a < 2^63) (hb : -(2^63) ≤ b ∧ b < 2^63) :
    asUsize (wrapAbs (wrapIsize (b-a))) = min (b-a).natAbs (2^64-(b-a).natAbs) := by
  have hrange := wrapIsize_range (b-a)
  have habs : |wrapIsize (b-a)| < wordModulus := by
    rw [wordModulus_eq, abs_lt]
    omega
  rw [wrapAbs, asUsize_wrapIsize, asUsize_of_nonneg (abs_nonneg _) habs, ← natAbs_wrapIsize_sub ha hb,
    Int.abs_eq_natAbs, Int.toNat_natCast]

end MachineWord
