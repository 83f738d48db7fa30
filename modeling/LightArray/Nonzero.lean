import LightArray.AnyArray

namespace LightArray
open MachineWord RowMajor

variable {F : Type} {t : DType} {T : Type}

/-- `a[mask]` for a mask over the whole array, flat. -/
def NdArray.compressFlat (a : NdArray t T) (mask : List Bool) : Except Failure (NdArray t T) :=
  if mask.length ≠ a.data.length then
    .error (.array (.message s!"boolean index did not match indexed array; size {a.data.length} but corresponding boolean size is {mask.length}"))
  else
    let data := ((a.data.zip mask).filter fun p => p.2).map fun p => p.1
    NdArray.new t data [data.length]

/-- The element test of `nonzero`; `nonzeroF` is `v != 0.0`. -/
def isNonzero (nonzeroF : F → Bool) : (t : DType) → Elem F t → Bool
  | .float64, v => nonzeroF v
  | .int64, (v : ℤ) => v != 0
  | .bool, (v : Bool) => v

/-- The flat positions that pass the test, from `iter().enumerate()`. -/
def positions (test : T → Bool) (data : List T) : List ℕ :=
  (data.zipIdx.filter fun p => test p.1).map fun p => p.2

/-- The loop over the axes for one flat position: the coordinates pushed and
what is left of the position. -/
def decodeLoop : List ℕ → ℕ → Except Failure (List ℤ × ℕ)
  | [], f => .ok ([],f)
  | d :: ds, f => do
    let (coords,rem) ← decodeLoop ds f
    if d = 0 then .error (.panic "attempt to calculate the remainder with a divisor of zero")
    else .ok (asIsize (rem%d) :: coords,rem/d)

/-- `out[k].push(coords[k])` for every `k`. -/
def pushEach (out : List (List ℤ)) (coords : List ℤ) : List (List ℤ) :=
  List.zipWith (fun column c => column ++ [c]) out coords

/-- The loop over the flat positions. -/
def nonzeroLoop (shape : List ℕ) : List ℕ → List (List ℤ) → Except Failure (List (List ℤ))
  | [], out => .ok out
  | f :: flats, out => do
    let (coords,_) ← decodeLoop shape f
    nonzeroLoop shape flats (pushEach out (if shape.isEmpty then [0] else coords))

namespace AnyArray

/-- `Array::new(v, &[n]).expect("1-d")`. -/
def column (v : List ℤ) : Except Failure (NdArray .int64 ℤ) :=
  match NdArray.new .int64 v [v.length] with
  | .ok a => .ok a
  | .error _ => .error (.panic "1-d")

/-- `AnyArray::nonzero`. -/
def nonzero (nonzeroF : F → Bool) (a : AnyArray F) : Except Failure (List (NdArray .int64 ℤ)) := do
  let flats := positions (isNonzero nonzeroF a.dtype) a.inner.data
  let out ← nonzeroLoop a.shape flats (List.replicate (max a.shape.length 1) [])
  out.mapM column

/-- `AnyArray::compress_flat`. -/
def compressFlat (a : AnyArray F) (mask : List Bool) : Except Failure (AnyArray F) := do
  let r ← a.inner.compressFlat mask
  .ok (ofArray a.dtype r)

end AnyArray

theorem exists_mapM_ok {α β : Type} {f : α → Except Failure β} {R : α → β → Prop} {l : List α}
    (h : ∀ x ∈ l, ∃ y, f x = .ok y ∧ R x y) : ∃ out, l.mapM f = .ok out ∧ List.Forall₂ R l out := by
  induction l with
  | nil => exact ⟨[], rfl, .nil⟩
  | cons x l ih =>
    obtain ⟨y, hy, hR⟩ := h x List.mem_cons_self
    obtain ⟨out, hout, hall⟩ := ih fun z hz => h z (List.mem_cons_of_mem x hz)
    exact ⟨y :: out, by rw [List.mapM_cons, hy, hout]; rfl, .cons hR hall⟩

section positions

variable {test : T → Bool} {data : List T}

theorem pairwise_positions (test : T → Bool) (data : List T) : (positions test data).Pairwise (· < ·) := by
  have hall : (data.zipIdx.map fun p => p.2).Pairwise (· < ·) := by
    rw [List.zipIdx_map_snd]
    exact List.pairwise_lt_range'
  exact hall.sublist (List.filter_sublist.map _)

theorem mem_positions {f : ℕ} : f ∈ positions test data ↔ ∃ v, data[f]? = some v ∧ test v = true := by
  simp only [positions, List.mem_map, List.mem_filter]
  constructor
  · rintro ⟨⟨v, k⟩, ⟨hmem, htest⟩, rfl⟩
    exact ⟨v, List.mem_zipIdx_iff_getElem?.mp hmem, htest⟩
  · rintro ⟨v, hv, htest⟩
    exact ⟨(v,f), ⟨List.mem_zipIdx_iff_getElem?.mpr hv, htest⟩, rfl⟩

theorem positions_of_all (h : ∀ v ∈ data, test v = true) : positions test data = List.range data.length := by
  have hall : (data.zipIdx.filter fun p => test p.1) = data.zipIdx :=
    List.filter_eq_self.mpr fun p hp => h p.1 (List.fst_mem_of_mem_zipIdx hp)
  rw [positions, hall, List.zipIdx_map_snd, List.range_eq_range']

theorem all_of_length_positions (h : (positions test data).length = data.length) : ∀ v ∈ data, test v = true := by
  rw [positions, List.length_map, ← List.length_zipIdx (l := data) (i := 0)] at h
  have hall := List.length_filter_eq_length_iff.mp h
  intro v hv
  obtain ⟨k, hk, rfl⟩ := List.getElem_of_mem hv
  exact hall (data[k],k) (List.mem_zipIdx_iff_getElem?.mpr (List.getElem?_eq_getElem hk))

theorem filter_zip_aux {g : ℕ → Option T} {off : ℕ} {mask : List Bool} (hlen : mask.length = data.length)
    (hg : ∀ k, k < data.length → data[k]? = g (off+k)) :
    ((data.zip mask).filter fun p => p.2).map (fun p => some p.1) =
      ((mask.zipIdx off).filter fun p => p.1).map fun p => g p.2 := by
  induction data generalizing off mask with
  | nil =>
    rw [List.eq_nil_of_length_eq_zero hlen]
    rfl
  | cons v data ih =>
    cases mask with
    | nil => simp at hlen
    | cons m mask =>
      have hhead := hg 0 (by simp)
      have htail : ((data.zip mask).filter fun p => p.2).map (fun p => some p.1) =
          ((mask.zipIdx (off+1)).filter fun p => p.1).map fun p => g p.2 := ih (by simpa using hlen) fun k hk => by
        have h := hg (k+1) (by simpa using hk)
        rwa [List.getElem?_cons_succ, ← Nat.add_assoc, Nat.add_right_comm] at h
      rw [List.getElem?_cons_zero, add_zero] at hhead
      cases m with
      | true => simp [hhead, htail]
      | false => simp [htail]

/-- Filtering by a mask reads the elements at the positions of its true entries. -/
theorem filter_zip_eq {mask : List Bool} (hlen : mask.length = data.length) :
    (((data.zip mask).filter fun p => p.2).map fun p => p.1).map some =
      (positions id mask).map fun k => data[k]? := by
  have haux : ((data.zip mask).filter fun p => p.2).map (fun p => some p.1) =
      ((mask.zipIdx 0).filter fun p => p.1).map fun p => data[p.2]? :=
    filter_zip_aux (g := fun k => data[k]?) hlen fun k _ => by rw [zero_add]
  rw [positions, List.map_map, List.map_map]
  exact haux

end positions

section decode

/-- The position of the leading axis in a block of rows, reduced to its length. -/
theorem unflat_mod {d : ℕ} {ds : List ℕ} (f : ℕ) :
    unflat (d :: ds) (f%(d :: ds).prod) = f/ds.prod%d :: unflat ds (f%ds.prod) := by
  rw [unflat, List.prod_cons, mul_comm d, Nat.mod_mul_right_div_self, Nat.mod_mul_right_mod]

/-- Remainders and quotients from the last axis on give the multi-index. -/
theorem decodeLoop_eq {shape : List ℕ} (h : shape.prod ≠ 0) (f : ℕ) :
    decodeLoop shape f = .ok ((unflat shape (f%shape.prod)).map fun i : ℕ => asIsize i,f/shape.prod) := by
  induction shape with
  | nil => simp [decodeLoop, unflat]
  | cons d ds ih =>
    rw [List.prod_cons] at h
    have hd : d ≠ 0 := left_ne_zero_of_mul h
    rw [decodeLoop, ih (right_ne_zero_of_mul h), unflat_mod]
    simp only [bind, Except.bind, if_neg hd, List.map_cons, List.prod_cons, Nat.div_div_eq_div_mul]
    rw [mul_comm d]

/-- The multi-indices column by column. -/
def columns (ndim : ℕ) (idxs : List (List ℕ)) : List (List ℤ) :=
  (List.range ndim).map fun k => idxs.map fun idx => asIsize (idx.getD k 0)

theorem columns_nil (ndim : ℕ) : columns ndim [] = List.replicate ndim [] := by
  simp [columns, List.map_const']

theorem pushEach_columns {ndim : ℕ} {idxs : List (List ℕ)} {idx : List ℕ} (h : idx.length = ndim) :
    pushEach (columns ndim idxs) (idx.map fun i : ℕ => asIsize i) = columns ndim (idxs ++ [idx]) := by
  apply List.ext_getElem
  · simp [pushEach, columns, h]
  · intro k hk _
    have hk' : k < idx.length := by
      rw [pushEach, List.length_zipWith, List.length_map] at hk
      omega
    simp [pushEach, columns, List.getElem?_eq_getElem hk']

/-- The loop appends the multi-indices of the positions to the columns. -/
theorem nonzeroLoop_eq {shape flats : List ℕ} (hne : shape ≠ []) (hflats : ∀ f ∈ flats, f < shape.prod)
    (idxs : List (List ℕ)) :
    nonzeroLoop shape flats (columns shape.length idxs) =
      .ok (columns shape.length (idxs ++ flats.map (unflat shape))) := by
  induction flats generalizing idxs with
  | nil => simp [nonzeroLoop]
  | cons f flats ih =>
    have hf := hflats f (List.mem_cons_self ..)
    have hdec := decodeLoop_eq (Nat.ne_zero_of_lt hf) f
    rw [Nat.mod_eq_of_lt hf] at hdec
    have hempty : shape.isEmpty = false := by simpa using hne
    rw [nonzeroLoop, hdec]
    simp only [bind, Except.bind, hempty, Bool.false_eq_true, if_false]
    rw [pushEach_columns (inRange_unflat hf).length_eq, ih fun g hg => hflats g (List.mem_cons_of_mem _ hg),
      List.map_cons, List.append_assoc, List.singleton_append]

end decode

/-- `idxs` are the multi-indices of the non-zero elements, each once, in row-major order. -/
structure NonzeroAt (nonzeroF : F → Bool) (a : AnyArray F) (idxs : List (List ℕ)) : Prop where
  ordered : idxs.Pairwise fun i j => flat a.shape i < flat a.shape j
  mem : ∀ idx, idx ∈ idxs ↔
    InRange a.shape idx ∧ ∃ v, a.inner.at? idx = some v ∧ isNonzero nonzeroF a.dtype v = true

/-- One list for every axis, which together list the multi-indices `idxs`. -/
structure Zipped (ndim : ℕ) (idxs : List (List ℕ)) (out : List (NdArray .int64 ℤ)) : Prop where
  length : out.length = ndim
  shape : ∀ column ∈ out, column.shape = [idxs.length]
  data : ∀ k (h : k < out.length), out[k].data = idxs.map fun idx => (idx.getD k 0 : ℤ)

namespace AnyArray

variable {nonzeroF : F → Bool} {a : AnyArray F}

/-- The multi-indices `nonzero` decodes. -/
def nonzeroIndices (nonzeroF : F → Bool) (a : AnyArray F) : List (List ℕ) :=
  (positions (isNonzero nonzeroF a.dtype) a.inner.data).map (unflat a.shape)

theorem lt_of_mem_positions (hwf : a.inner.Counted) {f : ℕ}
    (h : f ∈ positions (isNonzero nonzeroF a.dtype) a.inner.data) : f < a.shape.prod := by
  obtain ⟨v, hv, -⟩ := mem_positions.mp h
  calc
    f < a.inner.data.length := (List.getElem?_eq_some_iff.mp hv).1
    _ = a.shape.prod := hwf.count

theorem nonzeroAt_nonzeroIndices (hwf : a.inner.Counted) : NonzeroAt nonzeroF a (a.nonzeroIndices nonzeroF) := by
  constructor
  · rw [nonzeroIndices, List.pairwise_map]
    refine (pairwise_positions _ _).imp_of_mem fun hi hj hlt => ?_
    rwa [flat_unflat (lt_of_mem_positions hwf hi), flat_unflat (lt_of_mem_positions hwf hj)]
  · intro idx
    rw [nonzeroIndices, List.mem_map]
    constructor
    · rintro ⟨f, hf, rfl⟩
      have hlt := lt_of_mem_positions hwf hf
      obtain ⟨v, hv, htest⟩ := mem_positions.mp hf
      refine ⟨inRange_unflat hlt, v, ?_, htest⟩
      rw [NdArray.at?, show a.inner.shape = a.shape from rfl, flat_unflat hlt, hv]
    · rintro ⟨hidx, v, hv, htest⟩
      exact ⟨flat a.shape idx, mem_positions.mpr ⟨v, hv, htest⟩, unflat_flat hidx⟩

theorem column_ok {v : List ℤ} (h : v.length < wordModulus) :
    ∃ r, column v = .ok r ∧ r.shape = [v.length] ∧ r.data = v := by
  have hcount : wrapProduct [v.length] = v.length := by
    rw [wrapProduct_eq, List.prod_singleton, wrapUsize_of_lt h]
  obtain ⟨r, hr, hshape, hdata⟩ := NdArray.exists_new (t := .int64) (by simp [maxNdim]) hcount
  exact ⟨r, by rw [column, hr], hshape, hdata⟩

/-- The values pushed are the coordinates themselves. -/
theorem columns_eq {ndim : ℕ} {idxs : List (List ℕ)} (h : ∀ idx ∈ idxs, ∀ i ∈ idx, i ≤ isizeMax) :
    columns ndim idxs = (List.range ndim).map fun k => idxs.map fun idx => ((idx.getD k 0 : ℕ) : ℤ) := by
  apply List.map_congr_left
  intro k _
  apply List.map_congr_left
  intro idx hidx
  apply asIsize_of_le
  rw [List.getD_eq_getElem?_getD]
  cases hk : idx[k]? with
  | none => exact Nat.zero_le _
  | some i => exact h idx hidx i (List.mem_of_getElem? hk)

theorem nonzero_ok (nonzeroF : F → Bool) (hwf : a.inner.Counted) (hdim : 0 < a.ndim) :
    ∃ out, a.nonzero nonzeroF = .ok out ∧ Zipped a.ndim (a.nonzeroIndices nonzeroF) out := by
  let idxs := a.nonzeroIndices nonzeroF
  have hne : a.shape ≠ [] := List.ne_nil_of_length_pos hdim
  have hstart : List.replicate (max a.shape.length 1) [] = columns a.shape.length [] := by
    rw [columns_nil, show max a.shape.length 1 = a.shape.length from max_eq_left hdim]
  have hpos : ∀ f ∈ positions (isNonzero nonzeroF a.dtype) a.inner.data, f < a.shape.prod :=
    fun f hf => lt_of_mem_positions hwf hf
  have hloop := nonzeroLoop_eq hne hpos []
  have hsmall : ∀ idx ∈ idxs, ∀ i ∈ idx, i ≤ isizeMax := by
    intro idx hidx i hi
    have hin := (((nonzeroAt_nonzeroIndices hwf).mem idx).mp hidx).1
    calc
      i ≤ a.shape.prod := (hin.lt_prod_of_mem hi).le
      _ ≤ a.dtype.itemsize*a.shape.prod := Nat.le_mul_of_pos_left _ a.dtype.itemsize_pos
      _ ≤ isizeMax := hwf.prod_fits
  have hcount : idxs.length < wordModulus := by
    calc
      idxs.length = (positions (isNonzero nonzeroF a.dtype) a.inner.data).length := List.length_map ..
      _ ≤ a.inner.data.zipIdx.length := by
        rw [positions, List.length_map]
        exact List.length_filter_le ..
      _ = a.inner.data.length := List.length_zipIdx
      _ < wordModulus := lt_wordModulus_of_fits hwf.fits
  obtain ⟨out, hout, hall⟩ := exists_mapM_ok (l := columns a.shape.length idxs) (f := column)
    (R := fun v r => r.shape = [v.length] ∧ r.data = v) fun v hv => by
      obtain ⟨k, -, rfl⟩ := List.mem_map.mp hv
      exact column_ok (by rwa [List.length_map])
  have hlen : out.length = a.ndim := by
    rw [← hall.length_eq, columns, List.length_map, List.length_range]
    rfl
  refine ⟨out, ?_, hlen, ?_, ?_⟩
  · rw [nonzero, hstart, hloop]
    exact hout
  · intro r hr
    obtain ⟨k, hk, rfl⟩ := List.getElem_of_mem hr
    have hshape := ((List.forall₂_iff_get.mp hall).2 k (hall.length_eq ▸ hk) hk).1
    simpa [columns] using hshape
  · intro k hk
    have hdata := ((List.forall₂_iff_get.mp hall).2 k (hall.length_eq ▸ hk) hk).2
    rw [List.get_eq_getElem, List.get_eq_getElem] at hdata
    rw [hdata, List.getElem_of_eq (columns_eq hsmall), List.getElem_map, List.getElem_range]

end AnyArray

namespace NdArray

variable {a : NdArray t T}

theorem compressFlat_ok (hwf : a.Counted) {mask : List Bool} (hlen : mask.length = a.data.length) :
    ∃ r, a.compressFlat mask = .ok r ∧ r.shape = [r.data.length] ∧
      r.data.map some = (positions id mask).map fun k => a.data[k]? := by
  let data := ((a.data.zip mask).filter fun p => p.2).map fun p => p.1
  have hle : data.length < wordModulus := by
    calc
      data.length ≤ (a.data.zip mask).length := by
        rw [List.length_map]
        exact List.length_filter_le ..
      _ ≤ a.data.length := by
        rw [List.length_zip]
        exact min_le_left ..
      _ < wordModulus := lt_wordModulus_of_fits hwf.fits
  have hcount : wrapProduct [data.length] = data.length := by
    rw [wrapProduct_eq, List.prod_singleton, wrapUsize_of_lt hle]
  obtain ⟨r, hr, hshape, hdata⟩ := exists_new (t := t) (by simp [maxNdim]) hcount
  refine ⟨r, ?_, by rw [hshape, hdata], ?_⟩
  · rw [compressFlat, if_neg (not_not.mpr hlen)]
    exact hr
  · rw [hdata]
    exact filter_zip_eq hlen

theorem compressFlat_error {mask : List Bool} (hlen : mask.length ≠ a.data.length) :
    ∃ e, a.compressFlat mask = .error e := ⟨_, if_pos hlen⟩

end NdArray

namespace AnyArray

/-- `nonzero` lists the multi-indices of the non-zero elements by axis, and a mask
of the array's shape selects the elements at the multi-indices `nonzero` gives for
the mask. -/
theorem nonzero_compressFlat (nonzeroF : F → Bool) (a : AnyArray F) (hwf : a.inner.Counted) (hdim : 0 < a.ndim) :
    (∃ out idxs, a.nonzero nonzeroF = .ok out ∧ NonzeroAt nonzeroF a idxs ∧ Zipped a.ndim idxs out) ∧
      (∀ mask : NdArray .bool Bool, mask.Counted → mask.shape = a.shape →
        ∃ out idxs r, (ofArray .bool mask : AnyArray F).nonzero nonzeroF = .ok out ∧
          NonzeroAt nonzeroF (ofArray .bool mask : AnyArray F) idxs ∧ Zipped a.ndim idxs out ∧
          a.compressFlat mask.data = .ok (ofArray a.dtype r) ∧ r.shape = [idxs.length] ∧
          r.data.map some = idxs.map a.inner.at?) ∧
      ∀ mask : List Bool, mask.length ≠ a.inner.data.length → ∃ e, a.compressFlat mask = .error e := by
  refine ⟨?_, fun mask hmask hshape => ?_, fun mask hlen => ?_⟩
  · obtain ⟨out, hout, hzip⟩ := nonzero_ok nonzeroF hwf hdim
    exact ⟨out, _, hout, nonzeroAt_nonzeroIndices hwf, hzip⟩
  · -- the mask is read as an array of its own, and its positions are those of `a`
    let m : AnyArray F := ofArray .bool mask
    have hmwf : m.inner.Counted := hmask
    have hmshape : m.shape = a.shape := hshape
    have hmdim : m.ndim = a.ndim := congrArg List.length hmshape
    obtain ⟨out, hout, hzip⟩ := nonzero_ok nonzeroF hmwf (hmdim ▸ hdim)
    have hlen : mask.data.length = a.inner.data.length := by
      rw [hmask.count, hwf.count, hshape]
      rfl
    obtain ⟨r, hr, hrshape, hrdata⟩ := NdArray.compressFlat_ok hwf hlen
    have hread : r.data.map some = (m.nonzeroIndices nonzeroF).map a.inner.at? := by
      rw [hrdata, nonzeroIndices, List.map_map]
      apply List.map_congr_left
      intro f hf
      have hmem : f ∈ positions (isNonzero nonzeroF m.dtype) m.inner.data := hf
      have hlt := lt_of_mem_positions hmwf hmem
      rw [hmshape] at hlt
      show _ = a.inner.data[flat a.shape (unflat m.shape f)]?
      rw [hmshape, flat_unflat hlt]
    refine ⟨out, m.nonzeroIndices nonzeroF, r, hout, nonzeroAt_nonzeroIndices hmwf, hmdim ▸ hzip,
      by rw [compressFlat, hr]; rfl, ?_, hread⟩
    rw [hrshape, ← List.length_map (f := some), hread, List.length_map]
  · obtain ⟨e, he⟩ := NdArray.compressFlat_error hlen
    exact ⟨e, by rw [compressFlat, he]; rfl⟩

theorem sparse_ndim : [2,2].length ≤ maxNdim := by decide

/-- Two of four elements are non-zero; a mask selects the diagonal. -/
def sparse : AnyArray ℤ := .f64 ⟨[2,2], [16,8], sparse_ndim, by decide⟩ [0,1,2,0]

def diagonalMask : NdArray .bool Bool := ⟨⟨[2,2], [2,1], sparse_ndim, by decide⟩, [true,false,false,true]⟩

theorem nonzero_compressFlat_sparse :
    (∃ out idxs, sparse.nonzero (· != 0) = .ok out ∧ NonzeroAt (· != 0) sparse idxs ∧ Zipped 2 idxs out) ∧
      (∃ r, sparse.compressFlat diagonalMask.data = .ok (ofArray .float64 r)) ∧
      ∃ e, sparse.compressFlat [true] = .error e := by
  have hwf : sparse.inner.Counted := ⟨by decide, by decide⟩
  have hall := nonzero_compressFlat (· != 0) sparse hwf (by decide)
  obtain ⟨-, -, r, -, -, -, hr, -⟩ := hall.2.1 diagonalMask ⟨by decide, by decide⟩ rfl
  exact ⟨hall.1, ⟨r, hr⟩, hall.2.2 [true] (by decide)⟩

end AnyArray

end LightArray
