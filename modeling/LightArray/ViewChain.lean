import LightArray.WindowSpec

namespace LightArray
open MachineWord RowMajor

/-- An array that owns its buffer: one element for every multi-index, inside the
address space, within the allocation limit. -/
structure PyArray.OwnerWf (o : PyArray) : Prop where
  owned : o.base = none
  plain : o.strided = none
  len_eq : o.len = o.shape.prod
  fits : o.itemsize*o.len ≤ isizeMax
  address : o.ptr+o.itemsize*o.len ≤ wordModulus
  ptr_lt : o.ptr < wordModulus
  usize : ∀ d ∈ o.shape, d < wordModulus

/-- Address of the owner's element at a row-major position. -/
def PyArray.slot (o : PyArray) (k : ℕ) : ℕ := o.ptr+o.itemsize*k

/-- A source of elements: a shape with the address of every element. -/
structure Frame where
  dtype : DType
  shape : List ℕ
  addr : List ℕ → Word

/-- Byte address of an element. -/
def Frame.element (f : Frame) (idx : List ℕ) : ℕ := (f.addr idx).val

/-- The elements are no more than one allocation holds. -/
def Frame.Fits (f : Frame) : Prop := f.dtype.itemsize*f.shape.prod ≤ isizeMax

/-- The elements of an array as a source of further views. -/
def PyArray.frame (a : PyArray) : Frame := ⟨a.dtype, a.shape, a.layoutOf.addr⟩

/-- `a` shows the elements of `f` that `m` selects. -/
structure Denotes (f : Frame) (m : IndexMap) (a : PyArray) : Prop where
  dtype : a.dtype = f.dtype
  shape : a.shape = m.shape
  into : m.Into f.shape
  usize : ∀ d ∈ m.shape, d < wordModulus
  wf : a.layoutOf.Wf
  byteStrides : ∀ s ∈ a.layoutOf.strides, ByteStride a.dtype s
  strided : a.strided.isSome → a.layoutOf.shape.prod ≠ 0 ∧ a.layoutOf.isCContiguous a.itemsize = false
  addr : ∀ idx, InRange m.shape idx → a.layoutOf.addr idx = f.addr (m.map idx)
  len : a.len = m.shape.prod

/-- What every array keeps, also when its dimensions overflow: one aligned stride
for each, as many elements as the wrapped product of the shape says, and a
strided view only where there is no contiguous window. -/
structure PyArray.Stored (a : PyArray) : Prop where
  wf : a.layoutOf.Wf
  byteStrides : ∀ s ∈ a.layoutOf.strides, ByteStride a.dtype s
  strided : a.strided.isSome → a.layoutOf.shape.prod ≠ 0 ∧ a.layoutOf.isCContiguous a.itemsize = false
  len : a.len = wrapProduct a.shape

/-- What every array keeps while dimensions do not overflow: they fit a word and
count the elements, which are within one allocation. -/
structure PyArray.Sound (a : PyArray) : Prop where
  usize : ∀ d ∈ a.shape, d < wordModulus
  wf : a.layoutOf.Wf
  byteStrides : ∀ s ∈ a.layoutOf.strides, ByteStride a.dtype s
  strided : a.strided.isSome → a.layoutOf.shape.prod ≠ 0 ∧ a.layoutOf.isCContiguous a.itemsize = false
  len : a.len = a.shape.prod
  fits : a.itemsize*a.shape.prod ≤ isizeMax

/-- A faithful map cannot have more indices than its source. -/
theorem IndexMap.Into.prod_le {m : IndexMap} {source : List ℕ} (h : m.Into source) :
    m.shape.prod ≤ source.prod := by
  have hnodup : ((enum m.shape).map m.map).Nodup := by
    apply (List.nodup_map_iff_inj_on (nodup_enum _)).mpr
    intro i hi j hj he
    exact h.injective i j (mem_enum.mp hi) (mem_enum.mp hj) he
  have hsub : (enum m.shape).map m.map ⊆ enum source := by
    intro x hx
    obtain ⟨idx, hidx, rfl⟩ := List.mem_map.mp hx
    exact mem_enum.mpr (h.inRange idx (mem_enum.mp hidx))
  have hle := (hnodup.subperm hsub).length_le
  simpa [length_enum] using hle

namespace PyArray

variable {a o : PyArray}

theorem layout_plain (hs : a.strided = none) :
    a.layoutOf = ⟨a.ptr, a.dims.shape, a.dims.strides⟩ := by
  simp only [layoutOf, hs]

theorem layout_shape (a : PyArray) : a.layoutOf.shape = a.shape := by
  unfold layoutOf
  split <;> rfl

theorem addr_plain (hs : a.strided = none) (idx : List ℕ) :
    a.layoutOf.addr idx = a.ptr+a.itemsize*(flat a.shape idx : Word) := by
  rw [layout_plain hs, Layout.addr, Dims.dot_strides, itemsize, shape]

/-- Byte address of an element, from the layout's pointer and strides. -/
def elementAddress (a : PyArray) (idx : List ℕ) : ℕ :=
  wrappingOffset a.layoutOf.ptr (dot idx a.layoutOf.strides)

theorem cast_elementAddress (a : PyArray) (idx : List ℕ) :
    (a.elementAddress idx : Word) = a.layoutOf.addr idx := by
  rw [elementAddress, cast_wrappingOffset, dot_map_cast]
  rfl

theorem element_frame (a : PyArray) (idx : List ℕ) : a.frame.element idx = a.elementAddress idx :=
  (eq_val_of_cast_eq (wrappingOffset_lt _ _) (a.cast_elementAddress idx)).symm

/-- An array without a strided view is its contiguous storage. -/
theorem stored_plain {t : DType} {d : Dims t.itemsize} {ptr len : ℕ} {base : Option Owner}
    (hptr : ptr < wordModulus) (hlen : len = d.size) : Stored ⟨t, d, ptr, len, base, none⟩ :=
  ⟨⟨d.length_strides, hptr⟩, d.byteStrides, nofun, hlen⟩

/-- What `view_from_layout` returns keeps the layout's shape and the addresses of
its elements. -/
theorem viewFromLayout_ok {b : PyArray} {l : Layout} {alloc : ℕ} (hwf : l.Wf)
    (hbytes : ∀ s ∈ l.strides, ByteStride a.dtype s) (halloc : alloc < wordModulus)
    (hok : a.viewFromLayout alloc l = .ok b) :
    b.Stored ∧ b.dtype = a.dtype ∧ b.shape = l.shape ∧
      (wrapProduct l.shape ≠ 0 → ∀ idx, InRange l.shape idx → b.layoutOf.addr idx = l.addr idx) := by
  unfold viewFromLayout at hok
  split at hok
  · rename_i hz
    obtain ⟨d, hd, he⟩ := bind_eq_ok.mp hok
    cases he
    exact ⟨stored_plain halloc rfl, rfl, (Dims.allocated_ok hd).1, fun hne => absurd hz hne⟩
  · rename_i hne
    split at hok
    · rename_i hcontig
      obtain ⟨d, hd, he⟩ := bind_eq_ok.mp hok
      cases he
      have hds := Dims.withItemsize_ok hd
      refine ⟨stored_plain hwf.ptr_lt rfl, rfl, hds, fun _ idx hidx => ?_⟩
      rw [addr_plain rfl, isCContiguous_addr hwf hcontig hidx]
      simp only [itemsize, shape, hds]
    · rename_i hstrided
      obtain ⟨cache, hcache, he⟩ := bind_eq_ok.mp hok
      obtain ⟨d, hd, hce⟩ := bind_eq_ok.mp hcache
      cases hce
      cases he
      have hds := (Dims.allocated_ok hd).1
      refine ⟨⟨⟨?_, hwf.ptr_lt⟩, hbytes, fun _ => ⟨?_, ?_⟩, rfl⟩, rfl, hds, fun _ _ _ => rfl⟩
      · exact hwf.strides_length.trans (congrArg List.length hds.symm)
      · intro hz
        apply hne
        exact wrapProduct_zero (hds ▸ hz)
      · show (⟨l.ptr, d.shape, l.strides⟩ : Layout).isCContiguous a.itemsize = false
        rw [hds]
        exact Bool.eq_false_iff.mpr hstrided

theorem Sound.frame_fits (h : a.Sound) : a.frame.Fits := h.fits

/-- An array denotes the identity on its own elements. -/
theorem Sound.denotes (h : a.Sound) : Denotes a.frame (.refl a.shape) a :=
  ⟨rfl, rfl, IndexMap.refl_into _, h.usize, h.wf, h.byteStrides, h.strided, fun _ _ => rfl, h.len⟩

namespace OwnerWf

theorem sound (ho : o.OwnerWf) : o.Sound where
  usize := ho.usize
  wf := by
    rw [layout_plain ho.plain]
    exact ⟨o.dims.length_strides, ho.ptr_lt⟩
  byteStrides := by
    rw [layout_plain ho.plain]
    exact o.dims.byteStrides
  strided := fun hs => by simp [ho.plain] at hs
  len := ho.len_eq
  fits := ho.len_eq ▸ ho.fits

theorem slot_lt (ho : o.OwnerWf) {idx : List ℕ} (h : InRange o.shape idx) :
    o.slot (flat o.shape idx) < wordModulus := by
  have hs : 0 < o.itemsize := o.dtype.itemsize_pos
  have hk : flat o.shape idx+1 ≤ o.len := ho.len_eq ▸ flat_lt h
  have hm := Nat.mul_le_mul_left o.itemsize hk
  have ha := ho.address
  rw [Nat.mul_add, mul_one] at hm
  unfold slot
  omega

theorem frame_addr (ho : o.OwnerWf) (idx : List ℕ) :
    o.frame.addr idx = (o.slot (flat o.shape idx) : Word) := by
  show o.layoutOf.addr idx = _
  rw [addr_plain ho.plain, slot]
  push_cast
  rfl

theorem element (ho : o.OwnerWf) {idx : List ℕ} (h : InRange o.shape idx) :
    o.frame.element idx = o.slot (flat o.shape idx) :=
  (eq_val_of_cast_eq (ho.slot_lt h) (ho.frame_addr idx).symm).symm

end OwnerWf

end PyArray

/-- A C-contiguous array owning 12 elements. -/
def grid : PyArray := ⟨.float64, ⟨[3,4], [32,8], by decide, by decide⟩, 4096, 12, none, none⟩

theorem grid_ownerWf : grid.OwnerWf :=
  ⟨rfl, rfl, rfl, by decide, by decide, by decide, by decide⟩

namespace Denotes

variable {f : Frame} {a b : PyArray} {m n : IndexMap}

theorem elementAddress (h : Denotes f m a) {idx : List ℕ} (hidx : InRange m.shape idx) :
    a.elementAddress idx = f.element (m.map idx) := by
  apply eq_val_of_cast_eq (wrappingOffset_lt _ _)
  exact (a.cast_elementAddress idx).trans (h.addr idx hidx)

theorem itemsize_eq (h : Denotes f m a) : a.itemsize = f.dtype.itemsize := by
  rw [PyArray.itemsize, h.dtype]

theorem fits (hf : f.Fits) (h : Denotes f m a) : a.itemsize*a.shape.prod ≤ isizeMax := by
  rw [h.itemsize_eq, h.shape]
  calc
    f.dtype.itemsize*m.shape.prod ≤ f.dtype.itemsize*f.shape.prod := Nat.mul_le_mul_left _ h.into.prod_le
    _ ≤ isizeMax := hf

theorem sound (hf : f.Fits) (h : Denotes f m a) : a.Sound where
  usize := h.shape ▸ h.usize
  wf := h.wf
  byteStrides := h.byteStrides
  strided := h.strided
  len := by rw [h.len, h.shape]
  fits := h.fits hf

theorem prod_lt (hf : f.Fits) (h : m.Into f.shape) : m.shape.prod < wordModulus := by
  have hle : m.shape.prod ≤ f.dtype.itemsize*f.shape.prod := by
    calc
      m.shape.prod ≤ f.shape.prod := h.prod_le
      _ ≤ f.dtype.itemsize*f.shape.prod := Nat.le_mul_of_pos_left _ f.dtype.itemsize_pos
  have hfit : f.dtype.itemsize*f.shape.prod ≤ isizeMax := hf
  rw [isizeMax_eq] at hfit
  rw [wordModulus_eq]
  omega

/-- Non-empty arrays have exact element strides. -/
theorem elemStrides (hf : f.Fits) (h : Denotes f m a) (hne : m.shape.prod ≠ 0) :
    a.dims.elemStrides = unitStrides m.shape := by
  have hne' : a.shape.prod ≠ 0 := by rwa [h.shape]
  have he := Dims.elemStrides_exact a.dims a.dtype.itemsize_pos hne' (h.fits hf)
  rw [he, ← h.shape, PyArray.shape]

/-- A new empty array denotes every empty selection. -/
theorem of_empty (h : Denotes f m a) (hn : n.Into m.shape) (hu : ∀ d ∈ n.shape, d < wordModulus)
    (hz : n.shape.prod = 0) {t : DType} (ht : t = a.dtype) {d : Dims t.itemsize}
    (hd : d.shape = n.shape) {ptr : ℕ} (hptr : ptr < wordModulus) {base : Option Owner} :
    Denotes f (m.comp n) ⟨t, d, ptr, 0, base, none⟩ where
  dtype := ht.trans h.dtype
  shape := hd
  into := h.into.comp hn
  usize := hu
  wf := ⟨d.length_strides, hptr⟩
  byteStrides := d.byteStrides
  strided := nofun
  addr := by
    intro idx hidx
    have hpos := InRange.prod_pos hidx
    rw [show (m.comp n).shape.prod = n.shape.prod from rfl] at hpos
    omega
  len := hz.symm

/-- What `view_from_layout` returns shows the elements the layout addresses. -/
theorem viewFromLayout (hf : f.Fits) (h : Denotes f m a) (hn : n.Into m.shape)
    (hu : ∀ d ∈ n.shape, d < wordModulus) {l : Layout} (hwf : l.Wf)
    (hbytes : ∀ s ∈ l.strides, ByteStride a.dtype s) (hshape : l.shape = n.shape)
    (haddr : ∀ idx, InRange n.shape idx → l.addr idx = a.layoutOf.addr (n.map idx))
    {alloc : ℕ} (halloc : alloc < wordModulus) (hok : a.viewFromLayout alloc l = .ok b) :
    Denotes f (m.comp n) b := by
  have hlt : (m.comp n).shape.prod < wordModulus := prod_lt hf (h.into.comp hn)
  change n.shape.prod < wordModulus at hlt
  obtain ⟨hb, hdtype, hbshape, hbaddr⟩ := PyArray.viewFromLayout_ok hwf hbytes halloc hok
  have hs : b.shape = n.shape := hbshape.trans hshape
  refine ⟨hdtype.trans h.dtype, hs, h.into.comp hn, hu, hb.wf, hb.byteStrides, hb.strided, ?_, ?_⟩
  · intro idx hidx
    have hne : wrapProduct l.shape ≠ 0 := by
      rw [hshape, wrapProduct_of_lt hlt]
      exact (InRange.prod_pos hidx).ne'
    rw [hbaddr hne idx (hshape ▸ hidx), haddr idx hidx]
    exact h.addr _ (hn.inRange idx hidx)
  · show b.len = n.shape.prod
    rw [hb.len, hs, wrapProduct_of_lt hlt]

/-- A window of a contiguous array shows the block it covers. -/
theorem view (hf : f.Fits) (h : Denotes f m a) (hs : a.strided = none) (hn : n.Into m.shape)
    (hu : ∀ d ∈ n.shape, d < wordModulus) {offset : ℕ} {d : Dims a.dtype.itemsize}
    (hd : d.shape = n.shape)
    (hflat : ∀ idx, InRange n.shape idx →
      (offset : Word)+flat n.shape idx = flat m.shape (n.map idx))
    (hok : a.view offset d = .ok b) : Denotes f (m.comp n) b := by
  have hlt := prod_lt hf (h.into.comp hn)
  have hprod : n.shape.prod < wordModulus := hlt
  unfold PyArray.view at hok
  split at hok
  · cases hok
    refine ⟨h.dtype, hd, h.into.comp hn, hu, ⟨d.length_strides, wrapUsize_lt _⟩, d.byteStrides,
      nofun, ?_, ?_⟩
    · intro idx hidx
      have ha := h.addr _ (hn.inRange idx hidx)
      rw [PyArray.addr_plain hs, h.shape, ← hflat idx hidx] at ha
      rw [PyArray.addr_plain rfl]
      show (a.elementPtr offset : Word)+a.itemsize*(flat d.shape idx : Word) = f.addr (m.map (n.map idx))
      rw [hd, ← ha, PyArray.elementPtr]
      push_cast [cast_wrapUsize]
      ring
    · rw [Dims.size, hd, wrapProduct_of_lt hprod]
      rfl
  · cases hok

end Denotes

end LightArray
