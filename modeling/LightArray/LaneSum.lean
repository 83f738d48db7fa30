import LightArray.ChunkedSum
import LightArray.NdArray

namespace LightArray
open ChunkedSum

/-- `LANES`. -/
abbrev lanes : ℕ := 8

namespace NdArray

variable {K : Type}

/-- How the accumulators and the tail are added up. -/
def combine [Add K] (acc : Fin lanes → K) (tail : K) : K :=
  ((acc 0+acc 4)+(acc 1+acc 5))+((acc 2+acc 6)+(acc 3+acc 7))+tail

def sum [Add K] [Zero K] (a : NdArray .float64 K) : K :=
  let acc := accumulate (fun _ => 0) (chunksExact lanes a.data)
  let tail := iterSum (remainder lanes a.data)
  combine acc tail

/-- Inner product of two 1-D arrays of equal length. -/
def dot1d [Add K] [Mul K] [Zero K] (a b : NdArray .float64 K) : Except Failure K :=
  if a.ndim ≠ 1 ∨ b.ndim ≠ 1 then .error (.array (.message "dot1d expects 1-D arrays"))
  else if a.data.length ≠ b.data.length then
    .error (.array (.message s!"shapes ({a.data.length},) and ({b.data.length},) not aligned"))
  else
    let tail := iterSum (List.zipWith (· * ·) (remainder lanes a.data) (remainder lanes b.data))
    let chunks := (chunksExact lanes a.data).zip (chunksExact lanes b.data)
    let acc := chunks.foldl (fun acc c i => acc i+c.1 i*c.2 i) fun _ => 0
    .ok (combine acc tail)

section exact

variable [CommSemiring K] {a b : NdArray .float64 K}

theorem combine_eq (acc : Fin lanes → K) (tail : K) : combine acc tail = ∑ i, acc i+tail := by
  rw [combine, Fin.sum_univ_eight]
  ring

theorem sum_eq (a : NdArray .float64 K) : a.sum = iterSum a.data := by
  calc
    a.sum = ∑ i, accumulate (fun _ => 0) (chunksExact lanes a.data) i+iterSum (remainder lanes a.data) := combine_eq _ _
    _ = a.data.sum := by rw [iterSum_eq, sum_accumulate]
    _ = iterSum a.data := (iterSum_eq _).symm

/-- The loop over pairs of chunks accumulates the chunks of the products. -/
theorem foldl_products {xs ys : List (Fin lanes → K)} (acc : Fin lanes → K) :
    (xs.zip ys).foldl (fun acc c i => acc i+c.1 i*c.2 i) acc =
      accumulate acc (List.zipWith (fun cx cy i => cx i*cy i) xs ys) := by
  rw [accumulate, ← List.map_uncurry_zip_eq_zipWith, List.foldl_map]
  rfl

theorem dot1d_eq (ha : a.ndim = 1) (hb : b.ndim = 1) (hlen : a.data.length = b.data.length) :
    a.dot1d b = .ok (iterSum (List.zipWith (· * ·) a.data b.data)) := by
  have hrank : ¬ (a.ndim ≠ 1 ∨ b.ndim ≠ 1) := by simp [ha, hb]
  have hchunks := chunksExact_zipWith (n := lanes) (f := (· * · : K → K → K)) hlen
  have htail := remainder_zipWith (n := lanes) (f := (· * · : K → K → K)) hlen
  rw [dot1d, if_neg hrank, if_neg (not_not.mpr hlen)]
  simp only [foldl_products, ← hchunks, ← htail, combine_eq, iterSum_eq, sum_accumulate]

theorem dot1d_fails_iff : (∃ e, a.dot1d b = .error e) ↔ a.ndim ≠ 1 ∨ b.ndim ≠ 1 ∨ a.data.length ≠ b.data.length := by
  by_cases hrank : a.ndim ≠ 1 ∨ b.ndim ≠ 1
  · refine iff_of_true ⟨_, if_pos hrank⟩ ?_
    tauto
  by_cases hlen : a.data.length = b.data.length
  · have hranks := not_or.mp hrank
    rw [dot1d_eq (not_not.mp hranks.1) (not_not.mp hranks.2) hlen]
    refine iff_of_false (fun ⟨e, he⟩ => by cases he) ?_
    tauto
  · rw [dot1d, if_neg hrank, if_pos hlen]
    refine iff_of_true ⟨_, rfl⟩ ?_
    tauto

end exact

/-- Over a commutative semiring the lanes lose nothing: `sum` is the sum from left to right,
`dot1d` the sum from left to right of the products, for every length; and `dot1d` fails exactly
when a rank is not 1 or the lengths differ. -/
theorem lanes_exact {K : Type} [CommSemiring K] (a b : NdArray .float64 K) :
    a.sum = iterSum a.data ∧
    (a.ndim = 1 ∧ b.ndim = 1 ∧ a.data.length = b.data.length →
      a.dot1d b = .ok (iterSum (List.zipWith (· * ·) a.data b.data))) ∧
    ((∃ e, a.dot1d b = .error e) ↔ a.ndim ≠ 1 ∨ b.ndim ≠ 1 ∨ a.data.length ≠ b.data.length) :=
  ⟨sum_eq a, fun ⟨ha, hb, hlen⟩ => dot1d_eq ha hb hlen, dot1d_fails_iff⟩

end NdArray

end LightArray
