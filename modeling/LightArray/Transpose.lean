import LightArray.StridedCopy

namespace LightArray
open MachineWord RowMajor

/-- Dims with the axes reversed. -/
def Dims.reversed {s : ℕ} (d : Dims s) : Dims s where
  shape := d.shape.reverse
  strides := (cStrides s d.shape.reverse).1
  ndim_le := (List.length_reverse).trans_le d.ndim_le
  strides_eq := rfl

namespace NdArray

variable {t : DType} {T : Type}

/-- An axis of an odometer that moves nothing but the multi-index. -/
def indexAxis (d : ℕ) : Axis Unit := ⟨d, id, fun _ => id⟩

/-- The rows of a matrix become columns. -/
def transposePlane (rows cols : ℕ) (a : NdArray t T) : Except Failure (NdArray t T) := do
  let _ ← withCapacity t a.dims.size
  let data ← readEach a.data ((List.range cols).flatMap fun c => (List.range rows).map fun r => wrapUsize (r*cols+c))
  .ok ⟨a.dims.reversed, data⟩

/-- The general permutation: an odometer over the reversed shape, with the strides read in reverse. -/
def permute (a : NdArray t T) : Except Failure (NdArray t T) := do
  let axes := a.shape.reverse.map indexAxis
  let _ ← withCapacity t a.dims.size
  let data ← readEach a.data ((visits axes a.dims.size (List.replicate axes.length 0) ()).map fun p =>
    wrapUsize (dot p.1 a.dims.elemStrides.reverse))
  .ok ⟨a.dims.reversed, data⟩

/-- Reverse the axes. -/
def transpose (a : NdArray t T) : Except Failure (NdArray t T) :=
  match a.shape with
  | [] | [_] => .ok a
  | [rows, cols] => transposePlane rows cols a
  | _ => permute a

/-- The element at a multi-index is the other array's at the reversed one. -/
structure Transposed (a z : NdArray t T) : Prop where
  shape : z.shape = a.shape.reverse
  counted : z.Counted
  elements : ∀ idx, InRange a.shape.reverse idx → z.at? idx = a.at? idx.reverse

variable {a z w : NdArray t T}

theorem Transposed.unique (hz : Transposed a z) (hw : Transposed a w) : z = w := by
  apply ext_at? hz.counted.count hw.counted.count (hz.shape.trans hw.shape.symm)
  intro idx hidx
  rw [hz.shape] at hidx
  rw [hz.elements idx hidx, hw.elements idx hidx]

/-- Reversing twice gives back the same array. -/
theorem Transposed.symm (ha : a.Counted) (h : Transposed a z) : Transposed z a := by
  have hshape : z.shape.reverse = a.shape := by rw [h.shape, List.reverse_reverse]
  refine ⟨hshape.symm, ha, fun idx hidx => ?_⟩
  rw [hshape] at hidx
  rw [h.elements idx.reverse hidx.reverse, List.reverse_reverse]

section reads

variable {shape : List ℕ} {g : List ℕ → ℕ} {data : List T}

theorem readEach_enum (h : ∀ idx, InRange shape idx → g idx < data.length) :
    ∃ out, readEach data ((enum shape).map g) = .ok out ∧
      List.Forall₂ (fun idx v => data[g idx]? = some v) (enum shape) out := by
  have hoffs : ∀ off ∈ (enum shape).map g, off < data.length := by
    intro off hoff
    obtain ⟨idx, hidx, rfl⟩ := List.mem_map.mp hoff
    exact h idx (mem_enum.mp hidx)
  obtain ⟨out, hout, hall⟩ := readEach_ok hoffs
  rw [List.forall₂_map_left_iff] at hall
  exact ⟨out, hout, hall⟩

/-- Reading every position of the reversed index gives the transposed array. -/
theorem transposed_of_reads (ha : a.Counted) :
    ∃ data, readEach a.data ((enum a.shape.reverse).map fun idx => flat a.shape idx.reverse) = .ok data ∧
      Transposed a ⟨a.dims.reversed, data⟩ := by
  have hin (idx : List ℕ) (hidx : InRange a.shape.reverse idx) : flat a.shape idx.reverse < a.data.length := by
    have hrev := hidx.reverse
    rw [List.reverse_reverse] at hrev
    exact ha.flat_lt hrev
  obtain ⟨data, hdata, hall⟩ := readEach_enum hin
  have hlen : data.length = a.shape.reverse.prod := by rw [← hall.length_eq, length_enum]
  refine ⟨data, hdata, rfl, ⟨hlen, ?_⟩, fun idx hidx => ?_⟩
  · rw [hlen, List.prod_reverse]
    exact ha.prod_fits
  · obtain ⟨v, hv, hread⟩ := at?_of_forall₂ (a := ⟨a.dims.reversed, data⟩) hall hidx
    rw [hv, at?, hread]

end reads

theorem Counted.size_eq (h : a.Counted) : a.dims.size = a.shape.prod := wrapProduct_of_lt h.prod_lt

theorem Counted.capacity (h : a.Counted) : withCapacity t a.dims.size = .ok () := by
  rw [h.size_eq]
  exact withCapacity_of_le h.prod_fits

/-- At most one axis reads the same in either direction. -/
theorem transposed_self (ha : a.Counted) (h : a.shape.length ≤ 1) : Transposed a a := by
  have hrev {l : List ℕ} (hl : l.length ≤ 1) : l.reverse = l := by
    match l, hl with
    | [], _ => rfl
    | [_], _ => rfl
  refine ⟨(hrev h).symm, ha, fun idx hidx => ?_⟩
  rw [hrev h] at hidx
  rw [hrev (hidx.length_eq ▸ h)]

theorem transposePlane_transposed {rows cols : ℕ} (ha : a.Counted) (hs : a.shape = [rows,cols]) :
    ∃ z, transposePlane rows cols a = .ok z ∧ Transposed a z := by
  have hprod : rows*cols < wordModulus := by
    have hlt := ha.prod_lt
    rwa [hs, List.prod_pair] at hlt
  have hoffs : ((List.range cols).flatMap fun c => (List.range rows).map fun r => wrapUsize (r*cols+c)) =
      (enum a.shape.reverse).map fun idx => flat a.shape idx.reverse := by
    rw [hs, show [rows,cols].reverse = [cols,rows] from rfl, enum, enum_singleton, List.map_flatMap]
    apply List.flatMap_congr
    intro c hc
    rw [List.map_map, List.map_map]
    apply List.map_congr_left
    intro r hr
    have hle : (r+1)*cols ≤ rows*cols := Nat.mul_le_mul_right _ (List.mem_range.mp hr)
    rw [Nat.succ_mul] at hle
    have hc := List.mem_range.mp hc
    rw [wrapUsize_of_lt (by omega)]
    simp [flat]
  obtain ⟨data, hdata, hz⟩ := transposed_of_reads ha
  refine ⟨_, ?_, hz⟩
  rw [transposePlane, ha.capacity, hoffs]
  show (readEach a.data _ >>= _) = _
  rw [hdata]
  rfl

theorem lens_indexAxes (shape : List ℕ) : lens (shape.map indexAxis) = shape := by
  rw [lens, List.map_map]
  exact List.map_id shape

/-- The general permutation is right for every number of axes. -/
theorem permute_transposed (ha : a.Counted) : ∃ z, permute a = .ok z ∧ Transposed a z := by
  have hoffs : ((visits (a.shape.reverse.map indexAxis) a.dims.size
      (List.replicate (a.shape.reverse.map indexAxis).length 0) ()).map fun p => wrapUsize (dot p.1 a.dims.elemStrides.reverse)) =
      (enum a.shape.reverse).map fun idx => flat a.shape idx.reverse := by
    have hlens := lens_indexAxes a.shape.reverse
    rcases Nat.eq_zero_or_pos a.shape.prod with hzero | hpos
    · have hnil : enum a.shape.reverse = [] :=
        List.length_eq_zero_iff.mp (by rw [length_enum, List.prod_reverse, hzero])
      rw [ha.size_eq, hzero, hnil]
      rfl
    · have hfst := visits_fst (a.shape.reverse.map indexAxis) () (by rwa [hlens, List.prod_reverse])
      rw [hlens, List.prod_reverse, ← ha.size_eq] at hfst
      rw [← hfst, List.map_map]
      apply List.map_congr_left
      intro p hp
      have hidx : InRange a.shape.reverse p.1 := by
        rw [← mem_enum, ← hfst]
        exact List.mem_map_of_mem hp
      have hrev := hidx.reverse
      rw [List.reverse_reverse] at hrev
      have hdot : dot p.1 a.dims.elemStrides.reverse = flat a.shape p.1.reverse := by
        have hstrides : a.dims.elemStrides = unitStrides a.shape :=
          Dims.elemStrides_exact _ t.itemsize_pos hpos.ne' ha.prod_fits
        have h := dot_reverse (i := p.1.reverse) (s := unitStrides a.shape)
          (by rw [hrev.length_eq, length_unitStrides])
        rw [List.reverse_reverse, dot_unitStrides] at h
        rw [hstrides, h]
      rw [hdot, wrapUsize_of_lt ((ha.flat_lt hrev).trans (ha.count ▸ ha.prod_lt))]
      rfl
  obtain ⟨data, hdata, hz⟩ := transposed_of_reads ha
  refine ⟨_, ?_, hz⟩
  rw [permute, ha.capacity, hoffs]
  show (readEach a.data _ >>= _) = _
  rw [hdata]
  rfl

theorem transpose_transposed (ha : a.Counted) : ∃ z, transpose a = .ok z ∧ Transposed a z := by
  unfold transpose
  split
  · exact ⟨a, rfl, transposed_self ha (by simp [*])⟩
  · exact ⟨a, rfl, transposed_self ha (by simp [*])⟩
  · exact transposePlane_transposed ha (by assumption)
  · exact permute_transposed ha

theorem gatherFrom_reversed (ha : a.Counted) {mem : ℕ → T} {ptr : ℕ} (hptr : ptr < wordModulus) (hstored : Stored mem ptr a)
    {cache : NdArray t T} (hshape : cache.shape = a.shape.reverse) (hcount : cache.data.length = cache.shape.prod) :
    ∃ z, gatherFrom mem cache (a.layoutAt ptr).reversed.ptr (a.layoutAt ptr).reversed.strides = .ok z ∧ Transposed a z := by
  have hwf := layoutAt_wf hptr a
  have hprod : cache.shape.prod = a.shape.prod := by rw [hshape, List.prod_reverse]
  refine ⟨_, gatherFrom_layout (reversed_wf hwf) hcount (hprod ▸ ha.prod_lt) hshape.symm, hshape, ⟨?_, ?_⟩,
    fun idx hidx => ?_⟩
  · rw [List.length_map, length_enum]
    rfl
  · rw [List.length_map, length_enum, hprod]
    exact ha.prod_fits
  · rw [at?_of_enum rfl (hshape ▸ hidx), reversed_addr hwf hidx]
    have hrev := hidx.reverse
    rw [List.reverse_reverse] at hrev
    obtain ⟨v, hv⟩ := exists_at? ha.count hrev
    rw [hstored.read hv, hv]

/-- The copying transpose has the reversed shape, shows at a multi-index the element at the
reversed one, and is what is read through the reversed layout; reversing twice gives back the
array. Its branches for at most two axes agree with the general permutation. -/
theorem transpose_reverses (a : NdArray t T) (ha : a.Counted) :
    ∃ z, transpose a = .ok z ∧ z.Counted ∧ z.shape = a.shape.reverse ∧
      (∀ idx, InRange z.shape idx → z.at? idx = a.at? idx.reverse) ∧
      (∀ (mem : ℕ → T) (ptr : ℕ) (cache : NdArray t T), ptr < wordModulus → Stored mem ptr a →
        cache.shape = a.shape.reverse → cache.data.length = cache.shape.prod →
        gatherFrom mem cache (a.layoutAt ptr).reversed.ptr (a.layoutAt ptr).reversed.strides = .ok z) ∧
      transpose z = .ok a ∧ permute a = .ok z := by
  obtain ⟨z, hz, htrans⟩ := transpose_transposed ha
  obtain ⟨w, hw, hwtrans⟩ := transpose_transposed htrans.counted
  obtain ⟨p, hp, hptrans⟩ := permute_transposed ha
  refine ⟨z, hz, htrans.counted, htrans.shape, fun idx hidx => htrans.elements idx (htrans.shape ▸ hidx), ?_, ?_, ?_⟩
  · intro mem ptr cache hptr hstored hshape hcount
    obtain ⟨g, hg, hgtrans⟩ := gatherFrom_reversed ha hptr hstored hshape hcount
    rw [hg, hgtrans.unique htrans]
  · rw [hw, hwtrans.unique (htrans.symm ha)]
  · rw [hp, hptrans.unique htrans]

/-- Two planes of one row of three. -/
def planes : NdArray .float64 ℤ := ⟨⟨[2,1,3], _, by decide, rfl⟩, [1,2,3,4,5,6]⟩

theorem transpose_reverses_planes : ∃ z, transpose planes = .ok z ∧ z.shape = [3,1,2] ∧ transpose z = .ok planes := by
  obtain ⟨z, hz, -, hshape, -, -, hback, -⟩ := transpose_reverses planes ⟨by decide, by decide⟩
  exact ⟨z, hz, hshape, hback⟩

end NdArray

end LightArray
