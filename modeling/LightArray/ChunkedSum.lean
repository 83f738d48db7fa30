import Mathlib.Tactic
import Mathlib.Algebra.BigOperators.Fin

namespace ChunkedSum

variable {α β γ K : Type*} {n : ℕ}

theorem position_lt {len n : ℕ} (k : Fin (len/n)) (i : Fin n) : k*n+i < len := by
  calc
    k*n+i < k*n+n := Nat.add_lt_add_left i.isLt _
    _ = (k+1)*n := by ring
    _ ≤ len/n*n := Nat.mul_le_mul_right n k.isLt
    _ ≤ len := Nat.div_mul_le_self len n

/-- The chunks of `n` elements, as `chunks_exact` yields them. -/
def chunksExact (n : ℕ) (xs : List α) : List (Fin n → α) :=
  (List.finRange (xs.length/n)).map fun (k : Fin (xs.length/n)) i => xs.get ⟨k*n+i, position_lt k i⟩

/-- What is left after the last whole chunk. -/
def remainder (n : ℕ) (xs : List α) : List α := xs.drop (xs.length/n*n)

/-- One accumulator a lane. -/
def accumulate [Add K] (acc : Fin n → K) (chunks : List (Fin n → K)) : Fin n → K :=
  chunks.foldl (fun acc chunk i => acc i+chunk i) acc

/-- The sum from left to right. -/
def iterSum [Add K] [Zero K] (xs : List K) : K := xs.foldl (· + ·) 0

section sums

variable [AddCommMonoid K]

theorem iterSum_eq (xs : List K) : iterSum xs = xs.sum := List.sum_eq_foldl.symm

/-- A lane adds up its position of every chunk. -/
theorem accumulate_apply (acc : Fin n → K) (chunks : List (Fin n → K)) (i : Fin n) :
    accumulate acc chunks i = acc i+(chunks.map (· i)).sum := by
  induction chunks generalizing acc with
  | nil => simp [accumulate]
  | cons chunk rest ih =>
    calc
      accumulate acc (chunk :: rest) i = accumulate (fun i => acc i+chunk i) rest i := rfl
      _ = acc i+chunk i+(rest.map (· i)).sum := ih _
      _ = acc i+((chunk :: rest).map (· i)).sum := by rw [List.map_cons, List.sum_cons, add_assoc]

/-- A prefix summed by position. -/
theorem sum_prefix {xs : List K} {m : ℕ} (hm : m ≤ xs.length) :
    ∑ j : Fin m, xs.get ⟨j, j.isLt.trans_le hm⟩ = (xs.take m).sum := by
  have hlist : List.ofFn (fun j : Fin m => xs.get ⟨j, j.isLt.trans_le hm⟩) = xs.take m := by
    apply List.ext_getElem
    · rw [List.length_ofFn, List.length_take, min_eq_left hm]
    · intro k hk hk'
      rw [List.getElem_ofFn, List.getElem_take, List.get_eq_getElem]
  rw [← hlist, List.sum_ofFn]

/-- Lane by lane, the chunks and the remainder hold every element once. -/
theorem sum_lanes (n : ℕ) (xs : List K) :
    ∑ i, ((chunksExact n xs).map (· i)).sum+(remainder n xs).sum = xs.sum := by
  have hle : xs.length/n*n ≤ xs.length := Nat.div_mul_le_self _ _
  have hlane (i : Fin n) : ((chunksExact n xs).map (· i)).sum = ∑ k : Fin (xs.length/n), xs.get ⟨k*n+i, position_lt k i⟩ := by
    rw [chunksExact, List.map_map, Fin.sum_univ_def]
    rfl
  have hchunks : ∑ i, ((chunksExact n xs).map (· i)).sum = (xs.take (xs.length/n*n)).sum := by
    calc
      ∑ i, ((chunksExact n xs).map (· i)).sum =
          ∑ i : Fin n, ∑ k : Fin (xs.length/n), xs.get ⟨k*n+i, position_lt k i⟩ :=
        Finset.sum_congr rfl fun i _ => hlane i
      _ = ∑ k : Fin (xs.length/n), ∑ i : Fin n, xs.get ⟨k*n+i, position_lt k i⟩ := Finset.sum_comm
      _ = ∑ p : Fin (xs.length/n) × Fin n, xs.get ⟨p.1*n+p.2, position_lt p.1 p.2⟩ :=
        (Fintype.sum_prod_type' _).symm
      _ = ∑ j : Fin (xs.length/n*n), xs.get ⟨j, j.isLt.trans_le hle⟩ := by
        apply Fintype.sum_equiv finProdFinEquiv
        intro p
        congr 2
        rw [finProdFinEquiv_apply_val]
        ring
      _ = (xs.take (xs.length/n*n)).sum := sum_prefix hle
  rw [hchunks, remainder, List.sum_take_add_sum_drop]

/-- Accumulators that start at zero, together with the sum of the remainder. -/
theorem sum_accumulate (n : ℕ) (xs : List K) :
    ∑ i, accumulate (fun _ => 0) (chunksExact n xs) i+(remainder n xs).sum = xs.sum := by
  simp only [accumulate_apply, zero_add]
  exact sum_lanes n xs

end sums

variable {f : α → β → γ} {xs : List α} {ys : List β}

theorem length_chunksExact : (chunksExact n xs).length = xs.length/n := by
  rw [chunksExact, List.length_map, List.length_finRange]

theorem getElem_chunksExact {k : ℕ} (hk : k < (chunksExact n xs).length) (i : Fin n) :
    (chunksExact n xs)[k] i = xs.get ⟨k*n+i, position_lt ⟨k, length_chunksExact ▸ hk⟩ i⟩ := by
  have hlist : chunksExact n xs =
      (List.finRange (xs.length/n)).map fun (k : Fin (xs.length/n)) (i : Fin n) => xs.get ⟨k*n+i, position_lt k i⟩ := rfl
  rw [List.getElem_of_eq hlist hk, List.getElem_map, List.getElem_finRange]
  rfl

theorem chunksExact_zipWith (h : xs.length = ys.length) :
    chunksExact n (List.zipWith f xs ys) =
      List.zipWith (fun cx cy i => f (cx i) (cy i)) (chunksExact n xs) (chunksExact n ys) := by
  apply List.ext_getElem
  · simp only [length_chunksExact, List.length_zipWith, ← h, min_self]
  · intro k hk hk'
    funext i
    rw [getElem_chunksExact, List.get_eq_getElem, List.getElem_zipWith, List.getElem_zipWith, getElem_chunksExact,
      getElem_chunksExact, List.get_eq_getElem, List.get_eq_getElem]

theorem remainder_zipWith (h : xs.length = ys.length) :
    remainder n (List.zipWith f xs ys) = List.zipWith f (remainder n xs) (remainder n ys) := by
  rw [remainder, remainder, remainder, List.drop_zipWith, List.length_zipWith, ← h, min_self]

end ChunkedSum
