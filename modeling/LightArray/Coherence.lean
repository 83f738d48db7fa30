import LightArray.SharedReference

namespace LightArray
open MachineWord RowMajor Cells

variable {F : Type}

/-- The owner's buffer holds the elements of the reference. -/
def Coherent (o : PyArray) (mem ref : ℕ → F) : Prop := ∀ p < o.len, mem (o.slot p) = ref p

/-- A call replies and leaves the shared memory as the reference does. -/
structure Matches (o : PyArray) (call : (ℕ → F) × Outcome F) (reference : (ℕ → F) × Reply F) : Prop where
  reply : call.2.reply = some reference.2
  memory : Coherent o call.1 reference.1

section kernels

variable {a : PyArray} {mem : ℕ → F} {k : ℕ}

theorem PyArray.arrMut_eq (a : PyArray) (mem : ℕ → F) : a.arrMut mem = a.arr mem := rfl

theorem PyArray.shape_asF64 (ha : a.dtype = .float64) : (a.asF64 (F := F) ha).dims.shape = a.shape := by
  cases a
  cases ha
  rfl

theorem ArrayRef.getElem?_value {x : ArrayRef F} (hk : k < x.len) : (x.value mem).data[k]? = some (x.get mem k) := by
  rw [value, List.getElem?_map, List.getElem?_range hk, Option.map_some]

theorem ArrayRef.length_value (x : ArrayRef F) (mem : ℕ → F) : (x.value mem).data.length = x.len := by
  rw [value, List.length_map, List.length_range]

/-- No two elements of an array are at one address. -/
def PyArray.Separate (a : PyArray) : Prop := ∀ i < a.len, ∀ j < a.len, a.elementPtr i = a.elementPtr j → i = j

/-- Nothing that an operand reads is in the storage of the target. -/
def PyArray.Spares (a : PyArray) (x : ArrayRef F) : Prop :=
  ∀ k < x.len, ∀ m m' : ℕ → F, (∀ q, (∀ j < a.len, a.elementPtr j ≠ q) → m' q = m q) → x.get m' k = x.get m k

theorem PyArray.storeEach_elsewhere {val : (ℕ → F) → ℕ → F} {n q : ℕ} (hq : ∀ j < n, a.elementPtr j ≠ q) :
    storeEach a.elementPtr val (List.range n) mem q = mem q :=
  storeEach_outside fun j hj => hq j (List.mem_range.mp hj)

theorem PyArray.storeEach_elementPtr {val : (ℕ → F) → ℕ → F} (hsep : a.Separate)
    (hown : ReadsOwn a.elementPtr val (List.range a.len)) (hk : k < a.len) :
    storeEach a.elementPtr val (List.range a.len) mem (a.elementPtr k) = val mem k := by
  refine storeEach_at ?_ hown (List.mem_range.mpr hk)
  apply List.Nodup.map_on _ List.nodup_range
  intro i hi j hj he
  exact hsep i (List.mem_range.mp hi) j (List.mem_range.mp hj) he

/-- A loop that replaces each element by a function of its index and itself. -/
theorem PyArray.storeEach_each (f : ℕ → F → F) (hsep : a.Separate) (hk : k < a.len) :
    storeEach a.elementPtr (fun mem k => f k (mem (a.elementPtr k))) (List.range a.len) mem (a.elementPtr k) =
      f k (mem (a.elementPtr k)) :=
  PyArray.storeEach_elementPtr hsep (readsOwn_cell (fun k x _ => f k x) (fun _ _ => ()) fun _ _ _ _ _ => rfl) hk

/-- A run of the in-place kernel in memory ends as a call on values does, and the
storage of the target holds what that call leaves. -/
def PyArray.Realises (a : PyArray) (mem : ℕ → F) (run : Except Failure (ℕ → F))
    (call : NdArray .float64 F × Except Failure Unit) : Prop :=
  ∃ mem', run = call.2.map (fun _ => mem') ∧ (∀ k < a.len, call.1.data[k]? = some (mem' (a.elementPtr k))) ∧
    ∀ q, (∀ j < a.len, a.elementPtr j ≠ q) → mem' q = mem q

section zip

variable {f : F → F → F} {ha : a.dtype = .float64} {other : ArrayRef F}

theorem PyArray.realises_error (e : Failure) :
    a.Realises mem (.error e) ((a.asF64 ha).value mem, .error e) := by
  refine ⟨mem, rfl, fun k hk => ?_, fun _ _ => rfl⟩
  exact ArrayRef.getElem?_value hk

theorem PyArray.realises_zip {d : Dims DType.float64.itemsize} (hsep : a.Separate) (hother : a.Spares other)
    (hlen : a.len = other.len) :
    a.Realises mem
      (.ok (storeEach a.elementPtr (fun mem k => f (mem (a.elementPtr k)) (other.get mem k)) (List.range a.len) mem))
      (⟨d, List.zipWith f ((a.asF64 ha).value mem).data (other.value mem).data ++
        ((a.asF64 ha).value mem).data.drop (other.value mem).data.length⟩, .ok ()) := by
  refine ⟨_, rfl, fun k hk => ?_, fun q hq => PyArray.storeEach_elsewhere hq⟩
  have hx : ((a.asF64 ha).value mem).data[k]? = some (mem (a.elementPtr k)) := ArrayRef.getElem?_value hk
  have hy : (other.value mem).data[k]? = some (other.get mem k) := ArrayRef.getElem?_value (hlen ▸ hk)
  have hz : (List.zipWith f ((a.asF64 ha).value mem).data (other.value mem).data)[k]? =
      some (f (mem (a.elementPtr k)) (other.get mem k)) :=
    List.getElem?_zipWith_eq_some.mpr ⟨_, _, hx, hy, rfl⟩
  have hown : ReadsOwn a.elementPtr (fun mem k => f (mem (a.elementPtr k)) (other.get mem k)) (List.range a.len) := by
    apply readsOwn_cell (fun _ x y => f x y) other.get
    intro i hi m m' hsame
    apply hother i (hlen ▸ List.mem_range.mp hi)
    intro q hq
    exact hsame q fun j hj => hq j (List.mem_range.mp hj)
  rw [PyArray.storeEach_elementPtr hsep hown hk, List.getElem?_append_left (List.getElem?_eq_some_iff.mp hz).1]
  exact hz

theorem PyArray.realises_copy (hsep : a.Separate) {z : NdArray .float64 F} {d : Dims DType.float64.itemsize}
    (hlen : z.data.length = a.len) :
    a.Realises mem
      (.ok (storeEach a.elementPtr (fun mem k => z.data.getD k (mem (a.elementPtr k))) (List.range a.len) mem))
      (⟨d, z.data⟩, .ok ()) := by
  refine ⟨_, rfl, fun k hk => ?_, fun q hq => PyArray.storeEach_elsewhere hq⟩
  have hget : z.data[k]? = some z.data[k] := List.getElem?_eq_getElem (hlen.symm ▸ hk)
  rw [PyArray.storeEach_each (fun k x => z.data.getD k x) hsep hk, List.getD_eq_getElem?_getD, hget]
  rfl

/-- The in-place kernel on an operand outside the target's storage does what it
does on two values. -/
theorem PyArray.realises_zipMapInplace (f : F → F → F) (ha : a.dtype = .float64) (mem : ℕ → F) (hsep : a.Separate)
    (hother : a.Spares other) (hlen : (a.asF64 (F := F) ha).dims = other.dims → a.len = other.len) :
    a.Realises mem (a.zipMapInplace f ha other mem)
      (NdArray.zipMapInplace f ((a.asF64 ha).value mem) (other.value mem)) := by
  unfold PyArray.zipMapInplace NdArray.zipMapInplace
  by_cases hd : (a.asF64 (F := F) ha).dims = other.dims
  · have hdv : ((a.asF64 ha).value mem).dims = (other.value mem).dims := hd
    have hmin : min (a.asF64 (F := F) ha).len other.len = a.len := by
      rw [← hlen hd]
      exact min_self _
    rw [if_pos hdv]
    simp only [if_pos hd, hmin]
    exact PyArray.realises_zip hsep hother (hlen hd)
  · have hdv : ¬ ((a.asF64 ha).value mem).dims = (other.value mem).dims := hd
    rw [if_neg hdv]
    simp only [if_neg hd]
    cases hout : broadcastShape (a.asF64 (F := F) ha).dims.shape other.dims.shape with
    | error e =>
      have hv : broadcastShape ((a.asF64 ha).value mem).shape (other.value mem).shape = .error e := hout
      simp only [hv]
      exact PyArray.realises_error e
    | ok out =>
      have hv : broadcastShape ((a.asF64 ha).value mem).shape (other.value mem).shape = .ok out := hout
      simp only [hv]
      by_cases hne : out ≠ (a.asF64 (F := F) ha).dims.shape
      · have hnev : out ≠ ((a.asF64 ha).value mem).shape := hne
        simp only [if_pos hnev]
        change PyArray.Realises a mem (if _ then _ else _) _
        rw [if_pos hne]
        exact PyArray.realises_error _
      · have hnev : ¬ out ≠ ((a.asF64 ha).value mem).shape := hne
        simp only [if_neg hnev]
        change PyArray.Realises a mem (if _ then _ else _) _
        rw [if_neg hne]
        cases hz : NdArray.zipMap f ((a.asF64 ha).value mem) (other.value mem) with
        | error e => exact PyArray.realises_error e
        | ok z =>
          dsimp only
          rw [ArrayRef.length_value]
          change PyArray.Realises a mem (if _ then _ else _) _
          split_ifs with hcount
          · exact PyArray.realises_error _
          · exact PyArray.realises_copy hsep (not_not.mp hcount)

end zip

end kernels

namespace View

variable {o : PyArray} {v : View o} {idx : List ℕ} {k : ℕ}

theorem flat_lt_len (ho : o.OwnerWf) (h : InRange v.map.shape idx) : flat v.map.shape idx < v.array.len := by
  rw [(v.denotes ho).len]
  exact flat_lt h

theorem dtype_eq (ho : o.OwnerWf) (hf : o.dtype = .float64) : v.array.dtype = .float64 := (v.denotes ho).dtype.trans hf

end View

namespace SharedBuffers

variable {o : PyArray} {views : List (View o)} {v w : View o} {mem mem' ref : ℕ → F} {g : List ℕ → F} {idx : List ℕ}
  {ints : List ℤ}

/-- A refreshed array shows the elements of the reference. -/
theorem loaded_elementPtr (h : SharedBuffers o views) (hl : Loaded v mem) (hc : Coherent o mem ref)
    (hidx : InRange v.map.shape idx) : mem (v.array.elementPtr (flat v.map.shape idx)) = ref (v.position idx) := by
  rw [hl _ (View.flat_lt_len h.owner hidx), View.pos_flat hidx]
  exact hc _ (View.position_lt h.owner hidx)

theorem separate (h : SharedBuffers o views) (hv : v ∈ views) : v.array.Separate :=
  fun _ hi _ hj he => h.elementPtr_injective hv hi hj he

theorem coherent_arr (h : SharedBuffers o views) (hv : v ∈ views) (hc : Coherent o mem ref) :
    Coherent o (v.array.arr mem) ref := by
  intro p hp
  rw [h.arr_slot hv hp]
  exact hc p hp

/-- What a loop stores in the elements of an array is in the owner's buffer after
`commit`, and nothing else in it changes. -/
theorem coherent_commit (h : SharedBuffers o views) (hv : v ∈ views) (hc : Coherent o mem ref)
    (hin : ∀ idx, InRange v.map.shape idx → mem' (v.array.elementPtr (flat v.map.shape idx)) = g idx)
    (hout : ∀ q, (∀ k < v.array.len, v.array.elementPtr k ≠ q) → mem' q = mem q) :
    Coherent o (v.array.commit mem') (v.assign g ref) := by
  intro p hp
  by_cases hex : ∃ k < v.array.len, v.pos k = p
  · obtain ⟨k, hk, rfl⟩ := hex
    have hidx := View.inRange_unflat_of_lt h.owner hk
    have hget := hin _ hidx
    rw [flat_unflat ((v.denotes h.owner).len ▸ hk)] at hget
    rw [h.commit_pos hv hk, hget, View.pos, View.assign_at h.owner hidx]
  · push Not at hex
    rw [h.commit_other hex, hout, hc p hp, View.assign_outside]
    · intro idx hidx
      rw [← View.pos_flat hidx]
      exact hex _ (View.flat_lt_len h.owner hidx)
    · intro k hk he
      cases hs : v.array.strided with
      | some s => exact h.elementPtr_slot hv (by rw [hs]; rfl) hk hp he
      | none =>
        rw [View.elementPtr_plain h.owner hs hk] at he
        exact hex k hk (PyArray.slot_injective he)

/-- A function of each element, in place. -/
theorem coherent_mapInplace (h : SharedBuffers o views) (hv : v ∈ views) (hc : Coherent o mem ref) (f : F → F) :
    Coherent o (v.array.commit (v.array.mapInplace f (v.array.arrMut mem)))
      (v.assign (fun idx => f (ref (v.position idx))) ref) := by
  have hload := h.arr_loaded hv mem
  have hcoh := h.coherent_arr hv hc
  refine h.coherent_commit hv hcoh (fun idx hidx => ?_) (fun q hq => PyArray.storeEach_elsewhere hq)
  rw [← h.loaded_elementPtr hload hcoh hidx]
  exact PyArray.storeEach_each (fun _ => f) (h.separate hv) (View.flat_lt_len h.owner hidx)

section operands

variable {x : ArrayRef F} {f : F → F → F} {hb : w.array.dtype = .float64}

/-- An operand shows the elements of a view. -/
structure OperandShows (x : ArrayRef F) (v : View o) (mem ref : ℕ → F) : Prop where
  shape : x.dims.shape = v.map.shape
  len : x.len = v.array.len
  get : ∀ idx, InRange v.map.shape idx → x.get mem (flat v.map.shape idx) = ref (v.position idx)

theorem OperandShows.counted (h : SharedBuffers o views) (hx : OperandShows x v mem ref) : (x.value mem).Counted := by
  have hprod : (x.value mem).data.length = v.map.shape.prod := by
    rw [ArrayRef.length_value, hx.len, (v.denotes h.owner).len]
  have hfits := (v.sound h.owner).fits
  rw [(v.denotes h.owner).shape, View.itemsize_eq h.owner, PyArray.itemsize, h.float64] at hfits
  refine ⟨?_, hprod ▸ hfits⟩
  rw [hprod, ← hx.shape]
  rfl

theorem OperandShows.at? (h : SharedBuffers o views) (hx : OperandShows x v mem ref) (hidx : InRange v.map.shape idx) :
    (x.value mem).at? idx = some (ref (v.position idx)) := by
  have hk : flat v.map.shape idx < x.len := hx.len ▸ View.flat_lt_len h.owner hidx
  have hget : (x.value mem).data[flat v.map.shape idx]? = some (x.get mem (flat v.map.shape idx)) :=
    ArrayRef.getElem?_value hk
  rw [hx.get idx hidx, ← hx.shape] at hget
  exact hget

theorem operandShows_asF64 (h : SharedBuffers o views) (hl : Loaded w mem) (hc : Coherent o mem ref) :
    OperandShows (w.array.asF64 hb) w mem ref :=
  ⟨(PyArray.shape_asF64 hb).trans (w.denotes h.owner).shape, rfl, fun _ hidx => h.loaded_elementPtr hl hc hidx⟩

theorem operandShows_clone (h : SharedBuffers o views) (hl : Loaded w mem) (hc : Coherent o mem ref) :
    OperandShows (w.array.clone hb mem) w mem ref :=
  ⟨(PyArray.shape_asF64 (F := F) hb).trans (w.denotes h.owner).shape, rfl, fun _ hidx => h.loaded_elementPtr hl hc hidx⟩

/-- The operand that `inplace_op` passes on: a copy where the arrays overlap. -/
theorem operandShows_inplace (h : SharedBuffers o views) (hb : w.array.dtype = .float64) (hv : v ∈ views) (hw : w ∈ views) (hl : Loaded w mem)
    (hc : Coherent o mem ref) : ∃ y : ArrayRef F,
      (if overlaps v.array.span w.array.span then w.array.clone hb mem else w.array.asF64 hb) = y ∧
      OperandShows y w mem ref ∧ v.array.Spares y := by
  by_cases hover : overlaps v.array.span w.array.span
  · -- the copy reads no memory any more
    exact ⟨_, if_pos hover, h.operandShows_clone hl hc, fun _ _ _ _ _ => rfl⟩
  · refine ⟨_, if_neg hover, h.operandShows_asF64 hl hc, fun k hk m m' hsame => ?_⟩
    apply hsame
    intro j hj
    exact h.elementPtr_not_overlaps hv hw hover hj hk

/-- What the kernel leaves in the target where the shapes broadcast. -/
theorem zipMapInplace_shows (h : SharedBuffers o views) {x y : ArrayRef F} (hx : OperandShows x v mem ref)
    (hy : OperandShows y w mem ref) (hto : BroadcastsTo w.map.shape v.map.shape) :
    (NdArray.zipMapInplace f (x.value mem) (y.value mem)).2 = .ok () ∧
      ∀ idx, InRange v.map.shape idx →
        (NdArray.zipMapInplace f (x.value mem) (y.value mem)).1.data[flat v.map.shape idx]? =
          some (f (ref (v.position idx)) (ref (w.position (stretch w.map.shape idx)))) := by
  have hxs : (x.value mem).shape = v.map.shape := hx.shape
  have hys : (y.value mem).shape = w.map.shape := hy.shape
  have hjoin : broadcastShape (x.value mem).shape (y.value mem).shape = .ok (x.value mem).shape := by
    rw [hxs, hys]
    exact broadcastShape_eq_ok.mpr hto
  obtain ⟨hok, hzip⟩ := NdArray.zipMapInplace_ok (f := f) (hx.counted h) (hy.counted h) hjoin
  obtain ⟨z, hz, hzs, hzipped⟩ := NdArray.zipMap_spec (f := f) (hx.counted h) (hy.counted h) hjoin (hx.counted h).prod_fits
  obtain rfl : _ = z := Except.ok.inj (hzip.symm.trans hz)
  refine ⟨hok, fun idx hidx => ?_⟩
  rw [hxs] at hzs
  obtain ⟨u, u', hu, hu', hzi⟩ := hzipped.elements idx (hzs.symm ▸ hidx)
  rw [hxs, stretch_self hidx, hx.at? h hidx] at hu
  rw [hys, hy.at? h (inRange_stretch hto hidx)] at hu'
  cases hu
  cases hu'
  rwa [NdArray.at?, hzs] at hzi

/-- The operator computes on the elements of the reference, whatever the two
arrays share. -/
theorem matches_inplaceArray (h : SharedBuffers o views) (hv : v ∈ views) (hw : w ∈ views) (hc : Coherent o mem ref) :
    Matches o (v.array.inplaceOp f (.array w.array hb) mem) (SharedOp.reference (.inplaceArray f v w hb) ref) := by
  have ha : v.array.dtype = .float64 := View.dtype_eq h.owner h.float64
  have hcoh : Coherent o (v.array.arr (w.array.arr mem)) ref := h.coherent_arr hv (h.coherent_arr hw hc)
  have hlv : Loaded v (v.array.arr (w.array.arr mem)) := h.arr_loaded hv _
  have hlw : Loaded w (v.array.arr (w.array.arr mem)) := (h.arr_loaded hw mem).arr h hv hw
  rw [PyArray.inplaceOp]
  dsimp only
  rw [dif_pos ha, PyArray.arrMut_eq]
  generalize v.array.arr (w.array.arr mem) = mem at hcoh hlv hlw ⊢
  have hx : OperandShows (v.array.asF64 ha) v mem ref := h.operandShows_asF64 hlv hcoh
  obtain ⟨y, hoperand, hy, hspares⟩ := h.operandShows_inplace hb hv hw hlw hcoh
  have hlen : (v.array.asF64 (F := F) ha).dims = y.dims → v.array.len = y.len := by
    intro hd
    rw [hy.len, (v.denotes h.owner).len, (w.denotes h.owner).len, ← hx.shape, hd, hy.shape]
  obtain ⟨mem', hrun, hcells, hout⟩ := PyArray.realises_zipMapInplace f ha mem (h.separate hv) hspares hlen
  rw [hoperand, hrun, SharedOp.reference]
  by_cases hto : BroadcastsTo w.map.shape v.map.shape
  · obtain ⟨hok, hresult⟩ := h.zipMapInplace_shows (f := f) hx hy hto
    rw [if_pos hto, hok]
    refine ⟨rfl, h.coherent_commit hv hcoh (fun idx hidx => ?_) hout⟩
    have hcell := hcells _ (View.flat_lt_len h.owner hidx)
    exact Option.some.inj (hcell.symm.trans (hresult idx hidx))
  · have hjoin : broadcastShape ((v.array.asF64 ha).value mem).shape (y.value mem).shape ≠
        .ok ((v.array.asF64 ha).value mem).shape := by
      have hxs : ((v.array.asF64 ha).value mem).shape = v.map.shape := hx.shape
      have hys : (y.value mem).shape = w.map.shape := hy.shape
      rw [hxs, hys]
      exact fun hok => hto (broadcastShape_eq_ok.mp hok)
    obtain ⟨e, he⟩ := NdArray.zipMapInplace_refused (f := f) hjoin
    rw [if_neg hto, he]
    exact ⟨rfl, hcoh⟩

end operands

section element

theorem coherent_update (hc : Coherent o mem ref) (p : ℕ) (value : F) :
    Coherent o (Function.update mem (o.slot p) value) (Function.update ref p value) := by
  intro q hq
  by_cases he : q = p
  · rw [he, Function.update_self, Function.update_self]
  · rw [Function.update_of_ne he, Function.update_of_ne fun hs => he (PyArray.slot_injective hs)]
    exact hc q hq

theorem fullAddress_eq (h : SharedBuffers o views) (hin : InBounds v.map.shape ints) :
    v.array.fullAddress ints = .ok (o.slot (v.integerPosition ints)) := by
  have hshape := (v.denotes h.owner).shape
  have haddr := (v.sound h.owner).fullAddress_inBounds (hshape ▸ hin)
  rw [haddr, hshape, View.elementAddress_eq h.owner (View.inRange_integers h.owner hin)]
  rfl

theorem reply_raised {e : Failure} (h : e.isPanic = false) : (Outcome.raised e : Outcome F).reply = some .refused := by
  rw [Outcome.reply, h]
  rfl

theorem commit_plain (hs : v.array.strided = none) (mem : ℕ → F) : v.array.commit mem = mem := by
  rw [PyArray.commit, refreshReads_plain hs]
  rfl

/-- An index of the array is assigned to, in the base for a strided view. -/
theorem setItem_inBounds (h : SharedBuffers o views) (hv : v ∈ views) (hc : Coherent o mem ref) {value : F}
    (hin : InBounds v.map.shape ints) :
    Matches o (v.array.setItem ints value mem) (Function.update ref (v.integerPosition ints) value, .done) := by
  have hshape := (v.denotes h.owner).shape
  have full : ints.length = v.array.shape.length := hin.length_eq.trans (congrArg List.length hshape.symm)
  have hndim : ¬ ints.length ≠ v.array.dims.ndim := not_not.mpr full
  have hp := h.fullAddress_eq hin
  rw [PyArray.setItem, if_neg hndim, if_neg ((v.sound h.owner).isize_of_inBounds (hshape ▸ hin))]
  cases hs : v.array.strided with
  | some s =>
    have he : v.array.stridedElement ints = .ok (some (o.slot (v.integerPosition ints))) := by
      rw [PyArray.stridedElement_full (by rw [hs]; rfl) full, hp]
      rfl
    rw [he]
    exact ⟨rfl, coherent_update hc _ value⟩
  | none =>
    have hset : v.array.set ints value (v.array.arr mem) =
        .ok (Function.update (v.array.arr mem) (o.slot (v.integerPosition ints)) value) := by
      rw [PyArray.set_full hs full, hp]
      rfl
    rw [PyArray.stridedElement_plain hs, PyArray.arrMut_eq]
    dsimp only
    rw [hset]
    dsimp only
    rw [commit_plain hs]
    exact ⟨rfl, coherent_update (h.coherent_arr hv hc) _ value⟩

/-- Any other index is refused before anything is written. -/
theorem setItem_outside (h : SharedBuffers o views) (hv : v ∈ views) (hc : Coherent o mem ref) {value : F}
    (full : ints.length = v.array.shape.length) (hout : ¬ InBounds v.map.shape ints) :
    Matches o (v.array.setItem ints value mem) (ref, .refused) := by
  have hshape := (v.denotes h.owner).shape
  have hndim : ¬ ints.length ≠ v.array.dims.ndim := not_not.mpr full
  rw [PyArray.setItem, if_neg hndim]
  by_cases hbeyond : ∃ i ∈ ints, i < -(2^63) ∨ 2^63 ≤ i
  · -- an index that is no `isize` is refused by the conversion
    rw [if_pos hbeyond]
    exact ⟨rfl, hc⟩
  · -- a coordinate out of range stops the walk before anything is written
    obtain ⟨e, he, hpanic⟩ := (v.sound h.owner).fullAddress_outside full hbeyond (hshape ▸ hout)
    rw [if_neg hbeyond]
    cases hs : v.array.strided with
    | some s =>
      have helement : v.array.stridedElement ints = .error e := by
        rw [PyArray.stridedElement_full (by rw [hs]; rfl) full, he]
        rfl
      rw [helement]
      exact ⟨reply_raised hpanic, hc⟩
    | none =>
      have hset : v.array.set ints value (v.array.arr mem) = .error e := by
        rw [PyArray.set_full hs full, he]
        rfl
      rw [PyArray.stridedElement_plain hs, PyArray.arrMut_eq]
      dsimp only
      rw [hset]
      exact ⟨reply_raised hpanic, h.coherent_arr hv hc⟩

theorem matches_setItem (h : SharedBuffers o views) (hv : v ∈ views) (hc : Coherent o mem ref) {value : F}
    (full : ints.length = v.array.shape.length) :
    Matches o (v.array.setItem ints value mem) (SharedOp.reference (.setItem v ints full value) ref) := by
  rw [SharedOp.reference]
  split_ifs with hin
  · exact h.setItem_inBounds hv hc hin
  · exact h.setItem_outside hv hc full hin

theorem matches_element (h : SharedBuffers o views) (hc : Coherent o mem ref) {alloc : ℕ}
    (full : ints.length = v.array.shape.length) :
    Matches o (v.array.element ints alloc mem) (SharedOp.reference (.element v ints full alloc) ref) := by
  have hshape := (v.denotes h.owner).shape
  have hsound := v.sound h.owner
  have hget : v.array.getItem mem alloc (ints.map .int) = (checkKey v.array.dims.ndim 0 (ints.map .int) >>= fun _ =>
      v.array.indexResult mem alloc ints) := by
    rw [PyArray.getItem, onlyInts_ints]
  rw [PyArray.element, hget, checkKey_ints, SharedOp.reference, PyArray.indexResult_address full]
  by_cases hin : InBounds v.map.shape ints
  · rw [if_neg (hsound.isize_of_inBounds (hshape ▸ hin)), if_pos hin, h.fullAddress_eq hin]
    have hlt := View.position_lt h.owner (View.inRange_integers h.owner hin)
    have hread : mem (o.slot (v.integerPosition ints)) = ref (v.integerPosition ints) := hc _ hlt
    refine ⟨?_, hc⟩
    rw [← hread]
    rfl
  · rw [if_neg hin]
    by_cases hbeyond : ∃ i ∈ ints, i < -(2^63) ∨ 2^63 ≤ i
    · rw [if_pos hbeyond]
      exact ⟨rfl, hc⟩
    · obtain ⟨e, he, hpanic⟩ := hsound.fullAddress_outside full hbeyond (hshape ▸ hin)
      rw [if_neg hbeyond, he]
      exact ⟨reply_raised hpanic, hc⟩

theorem matches_read (h : SharedBuffers o views) (hv : v ∈ views) (hc : Coherent o mem ref) :
    Matches o (v.array.read mem) (SharedOp.reference (.read v) ref) := by
  have hcoh := h.coherent_arr hv hc
  refine ⟨?_, hcoh⟩
  have hdata : v.array.data (v.array.arr mem) = (enum v.map.shape).map fun idx => ref (v.position idx) := by
    rw [PyArray.data, (v.denotes h.owner).len, ← map_flat_enum, List.map_map]
    apply List.map_congr_left
    intro idx hidx
    exact h.loaded_elementPtr (h.arr_loaded hv mem) hcoh (mem_enum.mp hidx)
  show some (Reply.data v.array.shape (v.array.data (v.array.arr mem))) = _
  rw [hdata, (v.denotes h.owner).shape]
  rfl

end element

theorem matches_run (h : SharedBuffers o views) (op : SharedOp F o) (hop : ∀ v ∈ op.views, v ∈ views)
    (hc : Coherent o mem ref) : Matches o (op.run mem) (op.reference ref) := by
  cases op with
  | setItem a ints full value => exact h.matches_setItem (hop a (by simp [SharedOp.views])) hc full
  | fill a value =>
    rw [SharedOp.run, PyArray.fill, if_pos (View.dtype_eq h.owner h.float64)]
    exact ⟨rfl, h.coherent_mapInplace (hop a (by simp [SharedOp.views])) hc _⟩
  | inplaceScalar f a value =>
    rw [SharedOp.run, PyArray.inplaceOp, if_pos (View.dtype_eq h.owner h.float64)]
    exact ⟨rfl, h.coherent_mapInplace (hop a (by simp [SharedOp.views])) hc _⟩
  | inplaceArray f a b hb =>
    exact h.matches_inplaceArray (hop a (by simp [SharedOp.views])) (hop b (by simp [SharedOp.views])) hc
  | read a => exact h.matches_read (hop a (by simp [SharedOp.views])) hc
  | element a ints full alloc => exact h.matches_element hc full

/-- A sequence of operations: every reply is the reference's. -/
theorem runAll_matches (h : SharedBuffers o views) (ops : List (SharedOp F o))
    (hops : ∀ op ∈ ops, ∀ v ∈ op.views, v ∈ views) (hc : Coherent o mem ref) :
    (SharedOp.runAll ops mem).2.map Outcome.reply = (SharedOp.referenceAll ops ref).2.map some ∧
      Coherent o (SharedOp.runAll ops mem).1 (SharedOp.referenceAll ops ref).1 := by
  induction ops generalizing mem ref with
  | nil => exact ⟨rfl, hc⟩
  | cons op ops ih =>
    have hstep := h.matches_run op (hops op List.mem_cons_self) hc
    obtain ⟨hreplies, hfinal⟩ := ih (fun op' hop' => hops op' (List.mem_cons_of_mem _ hop')) hstep.memory
    refine ⟨?_, hfinal⟩
    show (op.run mem).2.reply :: (SharedOp.runAll ops (op.run mem).1).2.map Outcome.reply =
      some (op.reference ref).2 :: (SharedOp.referenceAll ops (op.reference ref).1).2.map some
    rw [hstep.reply, hreplies]

end SharedBuffers

/-- For a float64 owner with any arrays over it and any sequence of operations on
them: every reply is the reference's and the owner's buffer ends up with the
reference's elements. An operation changes no element its target does not address,
and one that raises changes none. -/
theorem views_coherent {o : PyArray} (ops : List (SharedOp F o)) (mem : ℕ → F)
    (h : SharedBuffers o (ops.flatMap SharedOp.views)) :
    (SharedOp.runAll ops mem).2.map Outcome.reply =
        (SharedOp.referenceAll ops fun p => mem (o.slot p)).2.map some ∧
      Coherent o (SharedOp.runAll ops mem).1 (SharedOp.referenceAll ops fun p => mem (o.slot p)).1 ∧
      ∀ op ∈ ops, ∀ before : ℕ → F,
        (∀ p < o.len, (∀ idx, InRange op.target.map.shape idx → op.target.position idx ≠ p) →
          (op.run before).1 (o.slot p) = before (o.slot p)) ∧
        ∀ e, (op.run before).2 = .raised e → ∀ p < o.len, (op.run before).1 (o.slot p) = before (o.slot p) := by
  have hviews : ∀ op ∈ ops, ∀ v ∈ op.views, v ∈ ops.flatMap SharedOp.views := fun op hop v hv =>
    List.mem_flatMap.mpr ⟨op, hop, hv⟩
  have hstart : Coherent o mem fun p => mem (o.slot p) := fun _ _ => rfl
  obtain ⟨hreplies, hfinal⟩ := h.runAll_matches ops hviews hstart
  refine ⟨hreplies, hfinal, fun op hop before => ?_⟩
  have hstep : Matches o (op.run before) (op.reference fun p => before (o.slot p)) :=
    h.matches_run op (hviews op hop) fun _ _ => rfl
  refine ⟨fun p hp hout => ?_, fun e he p hp => ?_⟩
  · rw [hstep.memory p hp, SharedOp.reference_outside h.owner hout]
  · have hreply := hstep.reply
    rw [he, Outcome.reply] at hreply
    split_ifs at hreply
    rw [hstep.memory p hp, SharedOp.reference_refused (Option.some.inj hreply).symm]

/-- `grid[:2]` and `grid[1:]` share a row. -/
def gridTop : PyArray := ⟨.float64, ⟨[2,4], [32,8], by decide, by decide⟩, 4096, 8, some ⟨.float64,4096,12⟩, none⟩

def gridBottom : PyArray := ⟨.float64, ⟨[2,4], [32,8], by decide, by decide⟩, 4128, 8, some ⟨.float64,4096,12⟩, none⟩

theorem chain_grid_rows (start stop : ℤ) {a : PyArray} (hres : ResolvedSlice 3 start stop 1)
    (hrun : grid.runStep (fun p => p) 0 (.index [.slice start stop 1]) = .ok (.array a)) :
    Chain (fun p => p) grid [.index [.slice start stop 1]] a :=
  .step .owner (show 0 < wordModulus by decide) ⟨hres, trivial⟩ hrun

def gridTopView : View grid :=
  ⟨_, gridTop, chain_grid_rows 0 2 (by unfold ResolvedSlice; decide) (by decide +kernel)⟩

def gridBottomView : View grid :=
  ⟨_, gridBottom, chain_grid_rows 1 3 (by unfold ResolvedSlice; decide) (by decide +kernel)⟩

def gridTransposedView : View grid := ⟨_, gridTransposed, chain_gridTransposed⟩

/-- A write through the cached view, an addition of overlapping rows, one that does
not broadcast, and a read of the cached view. -/
def gridOps : List (SharedOp ℤ grid) :=
  [.setItem gridTransposedView [0,-1] (by decide) 100,
    .inplaceArray (· + ·) gridBottomView gridTopView (by decide),
    .inplaceArray (· + ·) gridTopView gridTransposedView (by decide),
    .read gridTransposedView]

theorem sharedBuffers_grid : SharedBuffers grid (gridOps.flatMap SharedOp.views) where
  owner := grid_ownerWf
  float64 := rfl
  owner_end := by decide
  cache_end := by decide +kernel
  cache_owner := by decide +kernel
  cache_cache := by decide +kernel

theorem views_coherent_grid : (SharedOp.runAll gridOps fun p => ((p:ℤ)-4096)/8).2.map Outcome.reply =
    [some .done, some .done, some .refused, some (.data [2,3] [14,105,100,18,10,3])] := by
  rw [(views_coherent gridOps _ sharedBuffers_grid).1]
  decide +kernel

end LightArray
