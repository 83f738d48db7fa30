import LightArray.ShapeAssign
import LightArray.StridedCopy

namespace LightArray
open MachineWord RowMajor Cells

namespace PyArray

variable {T : Type}

/-- What the cache of an array holds before it is reloaded. -/
def Cache (T : Type) (a : PyArray) : Type := {data : List T // data.length = a.len}

/-- A cache of one value throughout. -/
def constantCache (v : T) (a : PyArray) : a.Cache T := ⟨List.replicate a.len v, List.length_replicate⟩

/-- `arr()`: a strided view reloads its cache first. -/
def contents (mem : ℕ → T) (a : PyArray) (cache : a.Cache T) : Except Failure (NdArray a.dtype T) :=
  match a.strided with
  | some v => NdArray.gatherFrom mem ⟨a.dims, cache.1⟩ v.ptr v.strides
  | none => .ok ⟨a.dims, a.data mem⟩

/-- The memory with `data` written to a new buffer at `alloc`. -/
def allocate (alloc : ℕ) (t : DType) (data : List T) (mem : ℕ → T) : ℕ → T :=
  storeEach (fun p : T × ℕ => wrapUsize (alloc+p.2*t.itemsize)) (fun _ p => p.1) data.zipIdx mem

/-- `Array::new` of a copy of the data: the array and the memory it is in. -/
def copied {t : DType} (alloc : ℕ) (mem : ℕ → T) (x : NdArray t T) (shape : List ℕ) :
    Except Failure (PyArray × (ℕ → T)) := do
  let b ← new alloc t x.data.length shape
  .ok (b, allocate alloc t x.data mem)

/-- `arr.reshape(shape)` for a strided view, `arr.reshape_view(shape)` otherwise. -/
def reshaped (alloc : ℕ) (mem : ℕ → T) (a : PyArray) (cache : a.Cache T) (shape : List ℕ) :
    Except Failure (PyArray × (ℕ → T)) := do
  let x ← a.contents mem cache
  if a.strided.isSome then copied alloc mem x shape
  else do
    let b ← a.reshapeView shape
    .ok (b, mem)

variable {a b : PyArray} {mem mem' : ℕ → T} {alloc : ℕ}

/-- The addresses of the elements in C order. -/
def rowOrder (a : PyArray) : List ℕ := (enum a.shape).map a.elementAddress

theorem length_rowOrder (a : PyArray) : a.rowOrder.length = a.shape.prod := by
  rw [rowOrder, List.length_map, length_enum]

theorem length_data (a : PyArray) (mem : ℕ → T) : (a.data mem).length = a.len := by
  rw [data, List.length_map, List.length_range]

/-- Without a strided view the elements follow one another. -/
theorem rowOrder_plain (hs : a.strided = none) (hlen : a.len = a.shape.prod) :
    a.rowOrder = (List.range a.len).map a.elementPtr := by
  rw [hlen, ← map_flat_enum, List.map_map, rowOrder]
  apply List.map_congr_left
  intro idx _
  exact (Sound.elementPtr_flat hs).symm

theorem data_plain (hs : a.strided = none) (hlen : a.len = a.shape.prod) (mem : ℕ → T) :
    a.data mem = a.rowOrder.map mem := by
  rw [data, rowOrder_plain hs hlen, List.map_map]
  rfl

theorem contents_plain (hs : a.strided = none) (mem : ℕ → T) (cache : a.Cache T) :
    a.contents mem cache = .ok ⟨a.dims, a.data mem⟩ := by
  simp only [contents, hs]

/-- The array behind `a` lists its elements in C order, whatever its layout. -/
theorem Sound.contents (h : a.Sound) (mem : ℕ → T) (cache : a.Cache T) :
    a.contents mem cache = .ok ⟨a.dims, a.rowOrder.map mem⟩ := by
  cases hv : a.strided with
  | none => rw [contents_plain hv, data_plain hv h.len]
  | some v =>
    have hl : a.layoutOf = ⟨v.ptr, a.dims.shape, v.strides⟩ := by simp only [layoutOf, hv]
    have hcount : cache.1.length = a.dims.shape.prod := cache.2.trans h.len
    have hprod : a.dims.shape.prod < wordModulus := h.len ▸ h.len_lt
    have haddr : (fun idx => mem (a.layoutOf.addr idx).val) = mem ∘ a.elementAddress := by
      funext idx
      rw [Function.comp_apply, ← element_frame]
      rfl
    have hgather : NdArray.gatherFrom mem (⟨a.dims, cache.1⟩ : NdArray a.dtype T) a.layoutOf.ptr a.layoutOf.strides =
        .ok ⟨a.dims, (enum a.dims.shape).map fun idx => mem (a.layoutOf.addr idx).val⟩ :=
      NdArray.gatherFrom_layout h.wf hcount hprod a.layout_shape
    rw [haddr, hl] at hgather
    simp only [PyArray.contents, hv]
    rw [hgather, rowOrder, List.map_map]
    rfl

section copies

variable {t : DType} {values : List T}

/-- A new buffer that one allocation holds reads back what was written to it. -/
theorem allocate_data (hfits : t.itemsize*values.length ≤ isizeMax) (alloc : ℕ) (mem : ℕ → T) :
    (List.range values.length).map (fun k => allocate alloc t values mem (wrapUsize (alloc+k*t.itemsize))) =
      values := by
  have hpos : 0 < t.itemsize := t.itemsize_pos
  have hcell : ∀ p ∈ values.zipIdx, ∀ q ∈ values.zipIdx,
      wrapUsize (alloc+p.2*t.itemsize) = wrapUsize (alloc+q.2*t.itemsize) → p = q := by
    intro p hp q hq he
    have hbound (r : T × ℕ) (hr : r ∈ values.zipIdx) : r.2*t.itemsize < wordModulus := by
      have hlt : r.2 < values.length := by simpa using List.snd_lt_of_mem_zipIdx hr
      have hle : r.2*t.itemsize ≤ t.itemsize*values.length := by
        rw [mul_comm t.itemsize]
        exact Nat.mul_le_mul_right _ hlt.le
      rw [isizeMax_eq] at hfits
      rw [wordModulus_eq]
      omega
    have hmod : p.2*t.itemsize ≡ q.2*t.itemsize [MOD wordModulus] := Nat.ModEq.add_left_cancel' alloc he
    have heq : p.2*t.itemsize = q.2*t.itemsize := Nat.ModEq.eq_of_lt_of_lt hmod (hbound p hp) (hbound q hq)
    have hidx : p.2 = q.2 := Nat.eq_of_mul_eq_mul_right hpos heq
    have hp' := List.mem_zipIdx_iff_getElem?.mp hp
    have hq' := List.mem_zipIdx_iff_getElem?.mp hq
    rw [hidx, hq'] at hp'
    exact Prod.ext (Option.some.inj hp').symm hidx
  have hnodup : (values.zipIdx.map fun p => wrapUsize (alloc+p.2*t.itemsize)).Nodup := by
    apply List.Nodup.map_on hcell
    exact List.Nodup.of_map Prod.snd (by simpa using List.nodup_range')
  apply List.ext_getElem
  · simp
  · intro k hk hk'
    have hmem : (values[k], k) ∈ values.zipIdx := List.mem_zipIdx_iff_getElem?.mpr (List.getElem?_eq_getElem hk')
    have hreads : ReadsOwn (fun p : T × ℕ => wrapUsize (alloc+p.2*t.itemsize)) (fun _ p => p.1) values.zipIdx :=
      fun _ _ _ _ _ => rfl
    rw [List.getElem_map, List.getElem_range]
    exact storeEach_at hnodup hreads hmem

theorem copied_ok {x : NdArray t T} {shape : List ℕ} (hfits : t.itemsize*x.data.length ≤ isizeMax)
    (h : copied alloc mem x shape = .ok (b,mem')) :
    new alloc t x.data.length shape = .ok b ∧ b.data mem' = x.data := by
  obtain ⟨c, hc, he⟩ := bind_eq_ok.mp h
  cases he
  refine ⟨hc, ?_⟩
  obtain ⟨d, -, hd⟩ := bind_eq_ok.mp hc
  cases hd
  exact allocate_data hfits alloc mem

theorem exists_copied {x : NdArray t T} {shape : List ℕ} (alloc : ℕ) (mem : ℕ → T)
    (hlen : shape.length ≤ maxNdim) (hprod : wrapProduct shape = x.data.length) :
    ∃ r, copied alloc mem x shape = .ok r := by
  obtain ⟨c, hc⟩ := exists_new alloc t hlen hprod
  refine ⟨(c, allocate alloc t x.data mem), ?_⟩
  rw [copied, hc]
  rfl

end copies

namespace Sound

theorem length_contents (h : a.Sound) (mem : ℕ → T) : (a.rowOrder.map mem).length = a.len := by
  rw [List.length_map, length_rowOrder, h.len]

/-- A copy lists the same elements in C order under another shape. -/
theorem copied (h : a.Sound) {shape : List ℕ}
    (hok : copied alloc mem (⟨a.dims, a.rowOrder.map mem⟩ : NdArray a.dtype T) shape = .ok (b,mem')) :
    Reshaped a.dtype a.len shape b ∧ b.strided = none ∧ b.data mem' = a.rowOrder.map mem := by
  have hcount := h.length_contents mem
  have hfits : a.dtype.itemsize*(a.rowOrder.map mem).length ≤ isizeMax := by
    rw [hcount, h.len]
    exact h.fits
  obtain ⟨hnew, hdata⟩ := copied_ok hfits hok
  have hplain : b.strided = none := by
    obtain ⟨d, -, hd⟩ := bind_eq_ok.mp hnew
    cases hd
    rfl
  refine ⟨?_, hplain, hdata⟩
  rw [← hcount]
  exact new_ok hnew

/-- A strided view is reshaped into a new array. -/
theorem reshaped_strided (h : a.Sound) (hs : a.strided.isSome) {cache : a.Cache T} {shape : List ℕ}
    (hok : a.reshaped alloc mem cache shape = .ok (b,mem')) :
    PyArray.copied alloc mem (⟨a.dims, a.rowOrder.map mem⟩ : NdArray a.dtype T) shape = .ok (b,mem') := by
  unfold PyArray.reshaped at hok
  rw [h.contents mem cache] at hok
  change (if a.strided.isSome then PyArray.copied alloc mem _ shape else _) = .ok (b,mem') at hok
  rwa [if_pos hs] at hok

theorem reshaped_plain (h : a.Sound) (hs : a.strided = none) {cache : a.Cache T} {shape : List ℕ}
    (hok : a.reshaped alloc mem cache shape = .ok (b,mem')) : a.reshapeView shape = .ok b ∧ mem' = mem := by
  unfold PyArray.reshaped at hok
  rw [h.contents mem cache] at hok
  change (if a.strided.isSome then PyArray.copied alloc mem _ shape else _) = .ok (b,mem') at hok
  rw [if_neg (by simp [hs])] at hok
  obtain ⟨c, hc, he⟩ := bind_eq_ok.mp hok
  cases he
  exact ⟨hc, rfl⟩

/-- Reshaping lists the same elements in C order under another shape. -/
theorem reshaped (h : a.Sound) {cache : a.Cache T} {shape : List ℕ}
    (hok : a.reshaped alloc mem cache shape = .ok (b,mem')) :
    Reshaped a.dtype a.len shape b ∧ b.strided = none ∧ b.data mem' = a.rowOrder.map mem := by
  cases hs : a.strided with
  | some v => exact h.copied (h.reshaped_strided (by simp [hs]) hok)
  | none =>
    obtain ⟨hview, rfl⟩ := h.reshaped_plain hs hok
    have hsame := reshapeView_sameData hview
    refine ⟨reshapeView_ok hview, hsame.plain, ?_⟩
    rw [hsame.data_eq, data_plain hs h.len]

/-- A reshaping to an exact shape keeps one element for every multi-index. -/
theorem reshaped_sound (h : a.Sound) (halloc : alloc < wordModulus) {cache : a.Cache T} {shape : List ℕ}
    (hu : ∀ d ∈ shape, d < wordModulus) (hprod : shape.prod = a.len)
    (hok : a.reshaped alloc mem cache shape = .ok (b,mem')) : b.Sound := by
  have hb := (h.reshaped hok).1
  have hstored : b.Stored := by
    cases hs : a.strided with
    | some v =>
      obtain ⟨c, hc, he⟩ := bind_eq_ok.mp (h.reshaped_strided (by simp [hs]) hok)
      cases he
      obtain ⟨d, hd, he⟩ := bind_eq_ok.mp hc
      cases he
      exact stored_plain halloc (Dims.checked_ok hd).2.symm
    | none => exact .reshapeView (h.reshaped_plain hs hok).1
  apply hstored.sound
  · rwa [hb.shape_eq]
  · rw [hb.shape_eq, hprod, h.len, itemsize, hb.dtype]
    exact h.fits

theorem exists_reshaped (h : a.Sound) (alloc : ℕ) (mem : ℕ → T) (cache : a.Cache T) {shape : List ℕ}
    (hlen : shape.length ≤ maxNdim) (hprod : shape.prod = a.len) :
    ∃ r, a.reshaped alloc mem cache shape = .ok r := by
  have hwrap : wrapProduct shape = a.len := by
    rw [wrapProduct_of_lt (hprod ▸ h.len_lt), hprod]
  unfold PyArray.reshaped
  rw [h.contents mem cache]
  change ∃ r, (if a.strided.isSome then PyArray.copied alloc mem _ shape else _) = .ok r
  split
  · exact exists_copied alloc mem hlen (hwrap.trans (h.length_contents mem).symm)
  · obtain ⟨c, hc⟩ := exists_reshapeView hlen hwrap
    refine ⟨(c,mem), ?_⟩
    rw [hc]
    rfl

end Sound

end PyArray

end LightArray
