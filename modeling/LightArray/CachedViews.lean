import LightArray.SharedMemory

namespace LightArray
open MachineWord RowMajor Cells

/-- The buffers of two arrays have no byte in common. -/
def PyArray.Apart (a b : PyArray) : Prop :=
  a.ptr+a.itemsize*a.len ≤ b.ptr ∨ b.ptr+b.itemsize*b.len ≤ a.ptr

instance (a b : PyArray) : Decidable (a.Apart b) := inferInstanceAs (Decidable (_ ∨ _))

/-- A float64 owner with arrays over it, and what the allocator promises of the
owner's buffer and of the caches: each ends below the last address, and no two
of them overlap. -/
structure SharedBuffers (o : PyArray) (views : List (View o)) : Prop where
  owner : o.OwnerWf
  float64 : o.dtype = .float64
  owner_end : o.ptr+o.itemsize*o.len < wordModulus
  cache_end : ∀ v ∈ views, v.array.strided.isSome → v.array.ptr+v.array.itemsize*v.array.len < wordModulus
  cache_owner : ∀ v ∈ views, v.array.strided.isSome → v.array.Apart o
  cache_cache : ∀ v ∈ views, ∀ w ∈ views, v.array.strided.isSome → w.array.strided.isSome →
    v.array = w.array ∨ v.array.Apart w.array

theorem PyArray.slot_injective {o : PyArray} {i j : ℕ} (h : o.slot i = o.slot j) : i = j := by
  rw [slot, slot, add_right_inj] at h
  exact Nat.eq_of_mul_eq_mul_left o.dtype.itemsize_pos h

namespace View

variable {o : PyArray}

/-- The index map NumPy composes for the steps. -/
def map (v : View o) : IndexMap := (numpyChain v.steps o.shape).getD (.refl o.shape)

/-- Position in the owner of the element at a multi-index. -/
def position (v : View o) (idx : List ℕ) : ℕ := flat o.shape (v.map.map idx)

/-- Position in the owner of the element at a flat position of the view. -/
def pos (v : View o) (k : ℕ) : ℕ := v.position (unflat v.map.shape k)

theorem denotes (ho : o.OwnerWf) (v : View o) : Denotes o.frame v.map v.array := by
  obtain ⟨m, hm, hd⟩ := v.chain.denotes ho
  rw [map, hm]
  exact hd

section elements

variable {v w : View o} {idx : List ℕ} {k : ℕ}

theorem sound (ho : o.OwnerWf) (v : View o) : v.array.Sound := (v.denotes ho).sound ho.sound.frame_fits

theorem itemsize_eq (ho : o.OwnerWf) (v : View o) : v.array.itemsize = o.itemsize :=
  (v.denotes ho).itemsize_eq

theorem position_lt (ho : o.OwnerWf) (h : InRange v.map.shape idx) : v.position idx < o.len := by
  rw [ho.len_eq]
  exact flat_lt ((v.denotes ho).into.inRange idx h)

theorem elementAddress_eq (ho : o.OwnerWf) (h : InRange v.map.shape idx) :
    v.array.elementAddress idx = o.slot (v.position idx) := by
  rw [(v.denotes ho).elementAddress h]
  exact ho.element ((v.denotes ho).into.inRange idx h)

theorem inRange_unflat_of_lt (ho : o.OwnerWf) (hk : k < v.array.len) :
    InRange v.map.shape (unflat v.map.shape k) := by
  rw [(v.denotes ho).len] at hk
  exact inRange_unflat hk

theorem pos_lt (ho : o.OwnerWf) (hk : k < v.array.len) : v.pos k < o.len :=
  position_lt ho (inRange_unflat_of_lt ho hk)

theorem pos_flat (h : InRange v.map.shape idx) : v.pos (flat v.map.shape idx) = v.position idx := by
  rw [pos, unflat_flat h]

/-- A view shows no element twice. -/
theorem pos_injective (ho : o.OwnerWf) {i j : ℕ} (hi : i < v.array.len) (hj : j < v.array.len)
    (h : v.pos i = v.pos j) : i = j := by
  have hd := v.denotes ho
  have hri := inRange_unflat_of_lt ho hi
  have hrj := inRange_unflat_of_lt ho hj
  have hmap := flat_injective (hd.into.inRange _ hri) (hd.into.inRange _ hrj) h
  have hidx := hd.into.injective _ _ hri hrj hmap
  rw [hd.len] at hi hj
  rw [← flat_unflat hi, hidx, flat_unflat hj]

/-- The array decides where its elements are, whatever steps led to it. -/
theorem pos_congr (ho : o.OwnerWf) (he : v.array = w.array) (hk : k < v.array.len) : v.pos k = w.pos k := by
  have hshape : v.map.shape = w.map.shape := by
    rw [← (v.denotes ho).shape, ← (w.denotes ho).shape, he]
  have hv := elementAddress_eq ho (inRange_unflat_of_lt ho hk)
  have hw := elementAddress_eq ho (inRange_unflat_of_lt ho (he ▸ hk))
  rw [← he, ← hshape] at hw
  have hslot := PyArray.slot_injective (hv.symm.trans hw)
  rw [pos, hslot, pos, hshape]

end elements

section storage

variable {v w : View o} {k : ℕ}

theorem elementPtr_plain (ho : o.OwnerWf) (hs : v.array.strided = none) (hk : k < v.array.len) :
    v.array.elementPtr k = o.slot (v.pos k) := by
  have hidx := inRange_unflat_of_lt ho hk
  have hflat : flat v.array.shape (unflat v.map.shape k) = k := by
    rw [(v.denotes ho).len] at hk
    rw [(v.denotes ho).shape, flat_unflat hk]
  have hptr : v.array.elementPtr (flat v.array.shape (unflat v.map.shape k)) = v.array.elementAddress (unflat v.map.shape k) :=
    PyArray.Sound.elementPtr_flat hs
  rw [hflat] at hptr
  rw [hptr, elementAddress_eq ho hidx, pos]

/-- The elements of a contiguous view are consecutive in the owner. -/
theorem pos_plain (ho : o.OwnerWf) (hs : v.array.strided = none) (hk : k < v.array.len) :
    v.pos k = v.pos 0+k := by
  have h0 := elementPtr_plain ho hs (Nat.zero_lt_of_lt hk)
  have hkk := elementPtr_plain ho hs hk
  have hfits := ho.fits
  rw [isizeMax_eq] at hfits
  have hpos := Nat.mul_le_mul_left o.itemsize (pos_lt ho hk).le
  have hend : o.itemsize*(v.pos 0+k) < wordModulus := by
    have hlen : k ≤ o.len := by
      calc
        k ≤ v.array.len := hk.le
        _ = v.map.shape.prod := (v.denotes ho).len
        _ ≤ o.shape.prod := (v.denotes ho).into.prod_le
        _ = o.len := ho.len_eq.symm
    have h1 := Nat.mul_le_mul_left o.itemsize (pos_lt ho (Nat.zero_lt_of_lt hk)).le
    have h2 := Nat.mul_le_mul_left o.itemsize hlen
    rw [Nat.mul_add, wordModulus_eq]
    omega
  have hword : ((o.itemsize*v.pos k : ℕ) : Word) = (o.itemsize*(v.pos 0+k) : ℕ) := by
    have e0 := congrArg (Nat.cast : ℕ → Word) h0
    have ek := congrArg (Nat.cast : ℕ → Word) hkk
    rw [PyArray.elementPtr, cast_wrapUsize, PyArray.slot, itemsize_eq ho] at e0 ek
    push_cast at e0 ek ⊢
    linear_combination e0-ek
  have hmul := eq_of_cast_eq (by rw [wordModulus_eq]; omega) hend hword
  exact Nat.eq_of_mul_eq_mul_left o.dtype.itemsize_pos hmul

theorem ptr_plain (ho : o.OwnerWf) (hs : v.array.strided = none) (hpos : 0 < v.array.len) :
    v.array.ptr = o.slot (v.pos 0) := by
  have hwf := (v.denotes ho).wf
  rw [PyArray.layout_plain hs] at hwf
  have hptr := elementPtr_plain ho hs hpos
  rwa [PyArray.elementPtr, zero_mul, add_zero, wrapUsize_of_lt hwf.ptr_lt] at hptr

theorem end_plain (ho : o.OwnerWf) (hs : v.array.strided = none) (hpos : 0 < v.array.len) :
    v.array.ptr+v.array.itemsize*v.array.len ≤ o.slot o.len := by
  have hlast : v.array.len-1 < v.array.len := by omega
  have hk := pos_plain ho hs hlast
  have hlt := pos_lt ho hlast
  have hle : v.pos 0+v.array.len ≤ o.len := by omega
  rw [ptr_plain ho hs hpos, itemsize_eq ho, PyArray.slot, PyArray.slot, add_assoc, ← Nat.mul_add]
  have := Nat.mul_le_mul_left o.itemsize hle
  omega

end storage

end View

namespace SharedBuffers

variable {F : Type} {o : PyArray} {views : List (View o)} {v w : View o} {mem : ℕ → F} {k p : ℕ}

theorem end_lt (h : SharedBuffers o views) (hv : v ∈ views) (hpos : 0 < v.array.len) :
    v.array.ptr+v.array.itemsize*v.array.len < wordModulus := by
  cases hs : v.array.strided with
  | some s => exact h.cache_end v hv (by rw [hs]; rfl)
  | none => exact (View.end_plain h.owner hs hpos).trans_lt h.owner_end

theorem elementPtr_eq (h : SharedBuffers o views) (hv : v ∈ views) (hk : k < v.array.len) :
    v.array.elementPtr k = v.array.ptr+v.array.itemsize*k := by
  have hend := h.end_lt hv (Nat.zero_lt_of_lt hk)
  have hle := Nat.mul_le_mul_left v.array.itemsize hk.le
  rw [PyArray.elementPtr, mul_comm k, wrapUsize_of_lt (by omega)]

theorem span_eq (h : SharedBuffers o views) (hv : v ∈ views) (hpos : 0 < v.array.len) :
    v.array.span = (v.array.ptr, v.array.ptr+v.array.itemsize*v.array.len) := by
  have hend := h.end_lt hv hpos
  rw [PyArray.span, mul_comm v.array.len, wrapUsize_of_lt (by omega : v.array.itemsize*v.array.len < _),
    wrapUsize_of_lt hend]

theorem elementPtr_injective (h : SharedBuffers o views) (hv : v ∈ views) {i j : ℕ} (hi : i < v.array.len)
    (hj : j < v.array.len) (he : v.array.elementPtr i = v.array.elementPtr j) : i = j := by
  rw [h.elementPtr_eq hv hi, h.elementPtr_eq hv hj, add_right_inj] at he
  exact Nat.eq_of_mul_eq_mul_left v.array.dtype.itemsize_pos he

theorem elementPtr_end (h : SharedBuffers o views) (hv : v ∈ views) (hk : k < v.array.len) :
    v.array.ptr ≤ v.array.elementPtr k ∧
      v.array.elementPtr k+v.array.itemsize ≤ v.array.ptr+v.array.itemsize*v.array.len := by
  have hle := Nat.mul_le_mul_left v.array.itemsize (Nat.succ_le_of_lt hk)
  rw [h.elementPtr_eq hv hk]
  rw [Nat.mul_succ] at hle
  omega

/-- Arrays in buffers of their own have no element in common. -/
theorem elementPtr_apart (h : SharedBuffers o views) (hv : v ∈ views) (hw : w ∈ views)
    (hapart : v.array.Apart w.array) {i j : ℕ} (hi : i < v.array.len) (hj : j < w.array.len) :
    v.array.elementPtr i ≠ w.array.elementPtr j := by
  have hvi := h.elementPtr_end hv hi
  have hwj := h.elementPtr_end hw hj
  have hsv := v.array.dtype.itemsize_pos
  have hsw := w.array.dtype.itemsize_pos
  unfold PyArray.Apart PyArray.itemsize at hapart
  unfold PyArray.itemsize at hvi hwj
  omega

/-- Arrays that pass the overlap test have no element in common. -/
theorem elementPtr_not_overlaps (h : SharedBuffers o views) (hv : v ∈ views) (hw : w ∈ views)
    (hno : ¬ overlaps v.array.span w.array.span) {i j : ℕ} (hi : i < v.array.len) (hj : j < w.array.len) :
    v.array.elementPtr i ≠ w.array.elementPtr j := by
  rw [h.span_eq hv (Nat.zero_lt_of_lt hi), h.span_eq hw (Nat.zero_lt_of_lt hj), overlaps, Bool.and_eq_true,
    decide_eq_true_eq, decide_eq_true_eq, not_and_or, not_lt, not_lt] at hno
  exact h.elementPtr_apart hv hw hno.symm hi hj

/-- A cache is no part of the owner's buffer. -/
theorem elementPtr_slot (h : SharedBuffers o views) (hv : v ∈ views) (hs : v.array.strided.isSome)
    (hk : k < v.array.len) (hp : p < o.len) : v.array.elementPtr k ≠ o.slot p := by
  have hvk := h.elementPtr_end hv hk
  have hsv := v.array.dtype.itemsize_pos
  have hso := o.dtype.itemsize_pos
  have hle := Nat.mul_le_mul_left o.itemsize (Nat.succ_le_of_lt hp)
  have hapart := h.cache_owner v hv hs
  rw [Nat.mul_succ] at hle
  unfold PyArray.Apart at hapart
  unfold PyArray.slot
  unfold PyArray.itemsize at *
  omega

section cache

theorem refreshReads_eq (h : SharedBuffers o views) (hs : v.array.strided.isSome) :
    v.array.refreshReads = (List.range v.array.len).map fun k => (k, o.slot (v.pos k)) := by
  have hd := v.denotes h.owner
  have hsound := v.sound h.owner
  apply List.ext_getElem?
  intro k
  rcases lt_or_ge k v.array.len with hk | hk
  · -- the k-th element read is the one at the k-th multi-index
    have hidx := View.inRange_unflat_of_lt h.owner hk
    have hread := hsound.refreshReads_getElem? (hd.shape.symm ▸ hidx : InRange v.array.shape _) hs
    have hflat : flat v.map.shape (unflat v.map.shape k) = k := by
      rw [hd.len] at hk
      exact flat_unflat hk
    rw [hd.shape, hflat, View.elementAddress_eq h.owner hidx] at hread
    rw [hread, List.getElem?_map, List.getElem?_range hk]
    rfl
  · -- past the last element both lists have ended
    rw [List.getElem?_eq_none, List.getElem?_eq_none]
    · simpa using hk
    · obtain ⟨s, hv⟩ := Option.isSome_iff_exists.mp hs
      have hlen := hd.wf.strides_length
      rw [v.array.layout_shape] at hlen
      simp only [PyArray.layoutOf, hv] at hlen
      have hprod := Denotes.prod_lt h.owner.sound.frame_fits hd.into
      rw [← hd.shape] at hprod
      have hwalk := length_walkStrided hlen hprod
      rw [← hsound.len] at hwalk
      simp only [PyArray.refreshReads, hv, List.length_map]
      exact hwalk.trans_le hk

theorem refreshReads_plain (hs : v.array.strided = none) : v.array.refreshReads = [] := by
  simp only [PyArray.refreshReads, hs]

/-- The storage of the array holds what its elements are. -/
def Loaded (v : View o) (mem : ℕ → F) : Prop :=
  ∀ k < v.array.len, mem (v.array.elementPtr k) = mem (o.slot (v.pos k))

theorem loaded_plain (ho : o.OwnerWf) (hs : v.array.strided = none) (mem : ℕ → F) : Loaded v mem :=
  fun _ hk => congrArg mem (View.elementPtr_plain ho hs hk)

theorem arr_outside (h : SharedBuffers o views) {q : ℕ}
    (hq : v.array.strided.isSome → ∀ k < v.array.len, v.array.elementPtr k ≠ q) :
    v.array.arr mem q = mem q := by
  unfold PyArray.arr
  split_ifs with hs
  · apply storeEach_outside
    rw [h.refreshReads_eq hs]
    intro e he
    obtain ⟨k, hk, rfl⟩ := List.mem_map.mp he
    exact hq hs k (List.mem_range.mp hk)
  · rfl

theorem arr_slot (h : SharedBuffers o views) (hv : v ∈ views) (hp : p < o.len) :
    v.array.arr mem (o.slot p) = mem (o.slot p) :=
  h.arr_outside fun hs _ hk => h.elementPtr_slot hv hs hk hp

/-- After a read the cache is not stale. -/
theorem arr_loaded (h : SharedBuffers o views) (hv : v ∈ views) (mem : ℕ → F) :
    Loaded v (v.array.arr mem) := by
  cases hs : v.array.strided with
  | none => exact loaded_plain h.owner hs _
  | some s =>
    have hsome : v.array.strided.isSome := by rw [hs]; rfl
    intro k hk
    rw [h.arr_slot hv (View.pos_lt h.owner hk), PyArray.arr, if_pos hsome, PyArray.refresh,
      h.refreshReads_eq hsome]
    refine storeEach_at (i := (k, o.slot (v.pos k))) ?_ ?_ ?_
    · rw [List.map_map]
      apply List.Nodup.map_on _ List.nodup_range
      intro i hi j hj he
      exact h.elementPtr_injective hv (List.mem_range.mp hi) (List.mem_range.mp hj) he
    · -- the elements of the base that are read are no cells of the cache
      apply readsOwn_of_disjoint
      intro e he mem mem' hsame
      obtain ⟨i, hi, rfl⟩ := List.mem_map.mp he
      apply hsame
      intro e' he'
      obtain ⟨j, hj, rfl⟩ := List.mem_map.mp he'
      exact h.elementPtr_slot hv hsome (List.mem_range.mp hj) (View.pos_lt h.owner (List.mem_range.mp hi))
    · exact List.mem_map_of_mem (List.mem_range.mpr hk)

/-- Refreshing one array does not make another one stale. -/
theorem Loaded.arr (h : SharedBuffers o views) (hv : v ∈ views) (hw : w ∈ views) (hl : Loaded w mem) :
    Loaded w (v.array.arr mem) := by
  cases hws : w.array.strided with
  | none => exact loaded_plain h.owner hws _
  | some s =>
    have hwsome : w.array.strided.isSome := by rw [hws]; rfl
    intro k hk
    by_cases he : v.array = w.array
    · have hload := h.arr_loaded hv mem k (he ▸ hk)
      rwa [View.pos_congr h.owner he (he ▸ hk), show v.array.elementPtr k = w.array.elementPtr k by rw [he]]
        at hload
    · rw [h.arr_slot hv (View.pos_lt h.owner hk), ← hl k hk]
      apply h.arr_outside
      intro hvsome j hj
      exact h.elementPtr_apart hv hw ((h.cache_cache v hv w hw hvsome hwsome).resolve_left he) hj hk

/-- `commit` stores the elements of the array into the base. -/
theorem commit_pos (h : SharedBuffers o views) (hv : v ∈ views) (hk : k < v.array.len) :
    v.array.commit mem (o.slot (v.pos k)) = mem (v.array.elementPtr k) := by
  cases hs : v.array.strided with
  | none =>
    rw [PyArray.commit, refreshReads_plain hs, View.elementPtr_plain h.owner hs hk]
    rfl
  | some s =>
    have hsome : v.array.strided.isSome := by rw [hs]; rfl
    rw [PyArray.commit, h.refreshReads_eq hsome]
    show storeEach Prod.snd _ _ mem (Prod.snd (k, o.slot (v.pos k))) = _
    refine storeEach_at (i := (k, o.slot (v.pos k))) ?_ ?_ ?_
    · rw [List.map_map]
      apply List.Nodup.map_on _ List.nodup_range
      intro i hi j hj he
      exact View.pos_injective h.owner (List.mem_range.mp hi) (List.mem_range.mp hj) (PyArray.slot_injective he)
    · apply readsOwn_of_disjoint
      intro e he mem mem' hsame
      obtain ⟨i, hi, rfl⟩ := List.mem_map.mp he
      apply hsame
      intro e' he'
      obtain ⟨j, hj, rfl⟩ := List.mem_map.mp he'
      exact (h.elementPtr_slot hv hsome (List.mem_range.mp hi) (View.pos_lt h.owner (List.mem_range.mp hj))).symm
    · exact List.mem_map_of_mem (List.mem_range.mpr hk)

/-- `commit` writes no other element of the base. -/
theorem commit_other (h : SharedBuffers o views) (hp : ∀ k < v.array.len, v.pos k ≠ p) :
    v.array.commit mem (o.slot p) = mem (o.slot p) := by
  cases hs : v.array.strided with
  | none =>
    rw [PyArray.commit, refreshReads_plain hs]
    rfl
  | some s =>
    rw [PyArray.commit, h.refreshReads_eq (by rw [hs]; rfl)]
    apply storeEach_outside
    intro e he
    obtain ⟨k, hk, rfl⟩ := List.mem_map.mp he
    exact fun hslot => hp k (List.mem_range.mp hk) (PyArray.slot_injective hslot)

end cache

end SharedBuffers

end LightArray
