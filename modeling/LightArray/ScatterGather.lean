import LightArray.Cells
import LightArray.StridedCopy

namespace LightArray
open MachineWord RowMajor Cells

/-- One call for each multi-index, in row-major order, at the exact offset. -/
def exactCalls (shape : List ℕ) (strides : List ℤ) : List (ℕ × ℤ) :=
  (enum shape).zipIdx.map fun p => (p.2,dot p.1 strides)

namespace NdArray

variable {t : DType} {T : Type}

/-- The calls `*(ptr + offset) = data[k]` of one walk. -/
def writeCalls (data : List T) (ptr : ℕ) : List (ℕ × ℤ) → (ℕ → T) → Except Failure (ℕ → T)
  | [], mem => .ok mem
  | (k, offset) :: rest, mem =>
    match data[k]? with
    | some v => writeCalls data ptr rest (Function.update mem (wrappingOffset ptr offset) v)
    | none => .error (.panic "index out of bounds")

/-- The inverse of `gather_from`: write every element to the strided target. -/
def scatterTo (a : NdArray t T) (ptr : ℕ) (strides : List ℤ) (mem : ℕ → T) : Except Failure (ℕ → T) :=
  writeCalls a.data ptr (walkStrided a.shape strides) mem

end NdArray

/-- What a layout is promised: the walk is the enumeration, nothing is called when an axis is
empty, and what is scattered through distinct offsets is gathered back. -/
structure StridedLaw (shape : List ℕ) (strides : List ℤ) : Prop where
  calls : walkStrided shape strides = exactCalls shape strides
  empty : 0 ∈ shape → walkStrided shape strides = []
  roundTrip : ∀ (t : DType) (T : Type) (mem : ℕ → T) (ptr : ℕ) (a z : NdArray t T), a.shape = shape → z.shape = shape →
    a.data.length = shape.prod → z.data.length = shape.prod →
    (∀ i j, InRange shape i → InRange shape j → dot i strides = dot j strides → i = j) →
    ∃ mem', a.scatterTo ptr strides mem = .ok mem' ∧ z.gatherFrom mem' ptr strides = .ok ⟨z.dims, a.data⟩

/-- An `isize` value. -/
def IsIsize (z : ℤ) : Prop := -(2^63) ≤ z ∧ z < 2^63

/-- Every offset is one. -/
def OffsetsFit (shape : List ℕ) (strides : List ℤ) : Prop := ∀ idx, InRange shape idx → IsIsize (dot idx strides)

variable {shape : List ℕ} {strides : List ℤ}

theorem exactCalls_eq : exactCalls shape strides = calls ((enum shape).map fun idx => dot idx strides) := by
  rw [calls, List.zipIdx_map, List.map_map]
  rfl

theorem length_exactCalls : (exactCalls shape strides).length = shape.prod := by
  rw [exactCalls, List.length_map, List.length_zipIdx, length_enum]

theorem getElem?_exactCalls (strides : List ℤ) {idx : List ℕ} (h : InRange shape idx) :
    (exactCalls shape strides)[flat shape idx]? = some (flat shape idx,dot idx strides) := by
  have hk : flat shape idx < (enum shape).length := by
    rw [length_enum]
    exact flat_lt h
  rw [exactCalls_eq, getElem?_calls, List.getElem?_map, List.getElem?_eq_getElem hk, getElem_enum hk, unflat_flat h]
  rfl

theorem isIsize_wrapIsize (z : ℤ) : IsIsize (wrapIsize z) := wrapIsize_range z

theorem isIsize_zero : IsIsize 0 := by norm_num [IsIsize]

/-- The odometer's running offset is one after every step. -/
theorem visits_offset_range {n : ℕ} {idx : List ℕ} {p : List ℕ × ℤ}
    (hp : p ∈ visits (List.zipWith strideAxis shape strides) n idx 0) : IsIsize p.2 := by
  have hmoves : ∀ ax ∈ List.zipWith strideAxis shape strides, ∃ n s, ax = strideAxis n s := by
    intro ax hax
    obtain ⟨k, hk, rfl⟩ := List.mem_iff_getElem.mp hax
    exact ⟨_, _, List.getElem_zipWith⟩
  refine visits_state (P := IsIsize) ?_ ?_ _ _ isIsize_zero _ hp
  · intro ax hax o _
    obtain ⟨n, s, rfl⟩ := hmoves ax hax
    exact isIsize_wrapIsize _
  · intro ax hax i o _
    obtain ⟨n, s, rfl⟩ := hmoves ax hax
    exact isIsize_wrapIsize _

/-- Every offset the walk computes is an `isize`. -/
theorem walkStrided_offset_range (h : strides.length = shape.length) :
    ∀ p ∈ walkStrided shape strides, IsIsize p.2 := by
  intro p hp
  match shape, strides with
  | [], _ =>
    cases List.mem_singleton.mp hp
    exact isIsize_zero
  | [d], [s] =>
    rw [walkStrided, List.mem_map] at hp
    obtain ⟨i, -, ho⟩ := hp
    have hoffset : p.2 = wrapIsize (asIsize i*s) := by rw [← ho]
    rw [hoffset]
    exact isIsize_wrapIsize _
  | [d,e], [s,t] =>
    rw [walkStrided_plane] at hp
    obtain ⟨q, hq, rfl⟩ := List.mem_map.mp hp
    obtain ⟨i, -, hj⟩ := List.mem_flatMap.mp (List.fst_mem_of_mem_zipIdx hq)
    obtain ⟨j, -, ho⟩ := List.mem_map.mp hj
    show IsIsize q.1
    rw [← ho]
    exact isIsize_wrapIsize _
  | d :: e :: f :: shape, strides =>
    rw [walkStrided] at hp
    · dsimp only at hp
      split at hp
      · cases hp
      · obtain ⟨q, hq, rfl⟩ := List.mem_map.mp hp
        exact visits_offset_range (List.fst_mem_of_mem_zipIdx hq)
    all_goals simp

/-- The walk ends before its counter wraps, except over two axes. -/
theorem countFits_of_calls (hdims : ∀ d ∈ shape, d < wordModulus) (h : walkStrided shape strides = exactCalls shape strides)
    (hlen : strides.length = shape.length) : CountFits shape := by
  have hlength := congrArg List.length h
  rw [length_exactCalls] at hlength
  match shape, strides with
  | [], _ => exact .inl (by decide)
  | [d], _ =>
    left
    simpa using hdims d (by simp)
  | [d,e], [s,t] =>
    by_cases hlt : [d,e].prod < wordModulus
    · exact .inl hlt
    refine .inr ⟨rfl, ?_⟩
    by_contra hne
    have hgt : wordModulus < [d,e].prod := lt_of_le_of_ne (not_lt.mp hlt) (Ne.symm hne)
    have hidx := inRange_unflat hgt
    have hcall := getElem?_exactCalls [s,t] hidx
    rw [flat_unflat hgt, ← h, walkStrided_plane, List.getElem?_map] at hcall
    obtain ⟨q, hq, hk⟩ := Option.map_eq_some_iff.mp hcall
    have hwrapped : wrapUsize q.2 = wordModulus := congrArg Prod.fst hk
    exact (wrapUsize_lt q.2).ne hwrapped
  | d :: e :: f :: shape, strides =>
    left
    rw [← hlength, walkStrided]
    · dsimp only
      split
      · decide
      · rw [List.length_map, List.length_zipIdx, length_visits]
        exact wrapProduct_lt _
    all_goals simp

theorem IsIsize.eq_of_word_eq {a b : ℤ} (ha : IsIsize a) (hb : IsIsize b) (h : (a : Word) = b) : a = b := by
  calc
    a = wrapIsize a := (wrapIsize_of_range ha.1 ha.2).symm
    _ = wrapIsize b := wrapIsize_congr h
    _ = b := wrapIsize_of_range hb.1 hb.2

/-- Where nothing can wrap, the walk is exact. -/
theorem walkStrided_exact (hlen : strides.length = shape.length) (hcount : CountFits shape) (hfit : OffsetsFit shape strides) :
    walkStrided shape strides = exactCalls shape strides := by
  obtain ⟨offsets, hwalk, hcast⟩ := walkStrided_fits hlen hcount
  have hrange : ∀ o ∈ offsets, IsIsize o := by
    intro o ho
    obtain ⟨k, hk⟩ := List.mem_iff_getElem?.mp ho
    have hcall : (k,o) ∈ walkStrided shape strides := by
      rw [hwalk]
      apply List.mem_of_getElem? (i := k)
      rw [getElem?_calls, hk]
      rfl
    exact walkStrided_offset_range hlen _ hcall
  have hoffsets : offsets = (enum shape).map fun idx => dot idx strides := by
    apply List.ext_getElem?
    intro k
    have hk := congrArg (fun l : List Word => l[k]?) hcast
    simp only [List.getElem?_map] at hk ⊢
    cases ho : offsets[k]? with
    | none =>
      rw [ho, Option.map_none] at hk
      rw [Option.map_eq_none_iff.mp hk.symm]
      rfl
    | some o =>
      rw [ho, Option.map_some] at hk
      obtain ⟨idx, hidx, hword⟩ := Option.map_eq_some_iff.mp hk.symm
      rw [hidx, Option.map_some]
      have hin : InRange shape idx := mem_enum.mp (List.mem_of_getElem? hidx)
      rw [strideWords, ← dot_map_cast] at hword
      rw [(hrange o (List.mem_of_getElem? ho)).eq_of_word_eq (hfit idx hin) hword.symm]
  rw [hwalk, hoffsets, exactCalls_eq]

namespace NdArray

variable {t : DType} {T : Type} {mem : ℕ → T} {ptr : ℕ} {offsets : List ℤ} {data : List T}

/-- The loop writes the elements one after the other, each at its offset. -/
theorem writeCalls_zipIdx (mem : ℕ → T) (done : List T) (h : data.length = offsets.length) :
    writeCalls (done ++ data) ptr ((offsets.zipIdx done.length).map Prod.swap) mem =
      .ok (storeEach (fun p => wrappingOffset ptr p.2) (fun _ p => p.1) (data.zip offsets) mem) := by
  induction offsets generalizing done data mem with
  | nil =>
    rw [List.length_nil, List.length_eq_zero_iff] at h
    subst h
    rfl
  | cons o offsets ih =>
    cases data with
    | nil => simp at h
    | cons v data =>
      have hget : (done ++ v :: data)[done.length]? = some v := by simp
      have hsplit : done ++ v :: data = (done ++ [v]) ++ data := by simp
      have hrest := ih (Function.update mem (wrappingOffset ptr o) v) (done ++ [v])
        (show data.length = offsets.length by simpa using h)
      rw [List.length_append, List.length_singleton] at hrest
      rw [List.zipIdx_cons, List.map_cons, Prod.swap_prod_mk, writeCalls, hget]
      dsimp only
      rw [hsplit, hrest]
      rfl

/-- What is written to distinct cells is read back. -/
theorem read_written (h : data.length = offsets.length) (hnodup : (offsets.map (wrappingOffset ptr)).Nodup) :
    (offsets.map fun o => storeEach (fun p => wrappingOffset ptr p.2) (fun _ p => p.1) (data.zip offsets) mem (wrappingOffset ptr o)) =
      data := by
  have hoffsets : (data.zip offsets).map Prod.snd = offsets := List.map_snd_zip h.ge
  have hdata : (data.zip offsets).map Prod.fst = data := List.map_fst_zip h.le
  have hcells : ((data.zip offsets).map fun p => wrappingOffset ptr p.2).Nodup := by
    have hmap : ((data.zip offsets).map fun p => wrappingOffset ptr p.2) = offsets.map (wrappingOffset ptr) := by
      rw [← hoffsets, List.map_map, hoffsets]
      rfl
    rwa [hmap]
  calc
    _ = (data.zip offsets).map fun p =>
          storeEach (fun p => wrappingOffset ptr p.2) (fun _ p => p.1) (data.zip offsets) mem (wrappingOffset ptr p.2) := by
        conv_lhs => rw [← hoffsets, List.map_map]
        rw [hoffsets]
        rfl
    _ = (data.zip offsets).map Prod.fst := by
        apply List.map_congr_left
        intro p hp
        exact storeEach_at hcells (readsOwn_of_disjoint fun _ _ _ _ _ => rfl) hp
    _ = data := hdata

/-- Distinct offsets are distinct addresses. -/
theorem nodup_addresses (ptr : ℕ) (hfit : OffsetsFit shape strides)
    (hinj : ∀ i j, InRange shape i → InRange shape j → dot i strides = dot j strides → i = j) :
    (((enum shape).map fun idx => dot idx strides).map (wrappingOffset ptr)).Nodup := by
  rw [List.map_map]
  refine List.Nodup.map_on (fun i hi j hj haddr => ?_) (nodup_enum shape)
  have hin := mem_enum.mp hi
  have hjn := mem_enum.mp hj
  have hword : ((dot i strides : ℤ) : Word) = ((dot j strides : ℤ) : Word) := by
    have hcast := congrArg (Nat.cast : ℕ → Word) haddr
    simp only [Function.comp_apply, cast_wrappingOffset] at hcast
    exact add_left_cancel hcast
  exact hinj i j hin hjn ((hfit i hin).eq_of_word_eq (hfit j hjn) hword)

/-- `gather_from` after `scatter_to` through the same layout. -/
theorem gather_scatter {a z : NdArray t T} (hcalls : walkStrided shape strides = exactCalls shape strides)
    (hfit : OffsetsFit shape strides) (ha : a.shape = shape) (hz : z.shape = shape)
    (hadata : a.data.length = shape.prod) (hzdata : z.data.length = shape.prod)
    (hinj : ∀ i j, InRange shape i → InRange shape j → dot i strides = dot j strides → i = j) :
    ∃ mem', a.scatterTo ptr strides mem = .ok mem' ∧ z.gatherFrom mem' ptr strides = .ok ⟨z.dims, a.data⟩ := by
  have hnodup := nodup_addresses ptr hfit hinj
  have hlen : ((enum shape).map fun idx => dot idx strides).length = shape.prod := by rw [List.length_map, length_enum]
  rw [exactCalls_eq] at hcalls
  generalize ((enum shape).map fun idx => dot idx strides) = offsets at hcalls hnodup hlen
  refine ⟨storeEach (fun p => wrappingOffset ptr p.2) (fun _ p => p.1) (a.data.zip offsets) mem, ?_, ?_⟩
  · rw [scatterTo, ha, hcalls]
    exact writeCalls_zipIdx mem [] (hadata.trans hlen.symm)
  · rw [gatherFrom, hz, hcalls, storeCalls_calls (hlen.trans hzdata.symm), read_written (hadata.trans hlen.symm) hnodup]
    rfl

end NdArray

/-- The walk over a layout is the row-major enumeration with exact offsets, which scattering and
gathering through the layout rest on, exactly when its counter and its offsets do not overflow: the
shape has fewer than 2^64 elements, or 2^64 on two axes, and every offset is an `isize`. -/
theorem stridedLaw_iff (shape : List ℕ) (strides : List ℤ) (hlen : strides.length = shape.length)
    (hdims : ∀ d ∈ shape, d < wordModulus) :
    StridedLaw shape strides ↔ (shape.prod < wordModulus ∨ shape.length = 2 ∧ shape.prod = wordModulus) ∧
      ∀ idx, InRange shape idx → -(2^63) ≤ dot idx strides ∧ dot idx strides < 2^63 := by
  constructor
  · intro h
    refine ⟨countFits_of_calls hdims h.calls hlen, fun idx hidx => ?_⟩
    have hcall := List.mem_of_getElem? (getElem?_exactCalls strides hidx)
    rw [← h.calls] at hcall
    exact walkStrided_offset_range hlen _ hcall
  · rintro ⟨hcount, hfit⟩
    have hcalls := walkStrided_exact hlen hcount hfit
    refine ⟨hcalls, fun hzero => ?_, fun t T mem ptr a z ha hz hadata hzdata hinj => ?_⟩
    · rw [hcalls, ← List.length_eq_zero_iff, length_exactCalls]
      exact List.prod_eq_zero hzero
    · exact NdArray.gather_scatter hcalls hfit ha hz hadata hzdata hinj

theorem stridedLaw_iff_cube : StridedLaw [2,2,2] [32,16,8] ↔
    ([2,2,2].prod < wordModulus ∨ [2,2,2].length = 2 ∧ [2,2,2].prod = wordModulus) ∧
      ∀ idx, InRange [2,2,2] idx → -(2^63) ≤ dot idx [(32:ℤ),16,8] ∧ dot idx [(32:ℤ),16,8] < 2^63 :=
  stridedLaw_iff [2,2,2] [32,16,8] rfl (by decide)

/-- A shape whose wrapped product is 2: two calls for more than 2^64 multi-indices. The layout is
that of `array([1.0, 2.0]).reshape(6, 3074457345618258603, 1).T`. -/
theorem walkStrided_stops_early : (walkStrided [1,3074457345618258603,6] [8,8,6148914691236517208]).length = 2 ∧
    2^64 < [1,3074457345618258603,6].prod ∧ ¬ StridedLaw [1,3074457345618258603,6] [8,8,6148914691236517208] := by
  have hwalk : (walkStrided [1,3074457345618258603,6] [8,8,6148914691236517208]).length = 2 := by decide
  refine ⟨hwalk, by decide, fun h => ?_⟩
  rw [h.calls, length_exactCalls] at hwalk
  revert hwalk
  decide

end LightArray
