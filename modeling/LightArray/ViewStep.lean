import LightArray.ViewChain

namespace LightArray
open MachineWord RowMajor

section keys

theorem checkKey_ok {ndim axis : ℕ} {key : List Item} (h : checkKey ndim axis key = .ok ()) :
    IsizeSelectors (selectors key) := by
  induction key generalizing axis with
  | nil =>
    intro i hi
    cases hi
  | cons item key ih =>
    cases item with
    | newaxis => exact ih h
    | int i =>
      simp only [checkKey] at h
      split at h
      · cases h
      · rename_i hrange
        intro j hj
        rcases List.mem_cons.mp hj with he | hj
        · cases he
          omega
        · exact ih h j hj
    | slice start stop step =>
      simp only [checkKey] at h
      split at h
      · intro j hj
        rcases List.mem_cons.mp hj with he | hj
        · cases he
        · exact ih h j hj
      · cases h

theorem onlyInts_some {key : List Item} {ints : List ℤ} (h : onlyInts key = some ints) :
    selectors key = ints.map .int ∧ (∀ K : List ℕ, weave 1 key K = K) ∧
      ∀ idx, unweave key idx = idx := by
  induction key generalizing ints with
  | nil =>
    cases h
    exact ⟨rfl, fun _ => rfl, fun _ => rfl⟩
  | cons item key ih =>
    cases item with
    | int i =>
      obtain ⟨is, his, rfl⟩ := Option.map_eq_some_iff.mp h
      obtain ⟨hsel, hweave, hun⟩ := ih his
      exact ⟨by rw [selectors, hsel, List.map_cons], hweave, hun⟩
    | slice start stop step => cases h
    | newaxis => cases h

theorem numpyIndex_of_onlyInts {key : List Item} {ints : List ℤ} (h : onlyInts key = some ints)
    (shape : List ℕ) : numpyIndex key shape = numpySelect (ints.map .int) shape := by
  obtain ⟨hsel, hweave, hun⟩ := onlyInts_some h
  rw [numpyIndex_eq, hsel]
  simp only [hweave, hun]
  cases numpySelect (ints.map .int) shape <;> rfl

theorem weave_of_newAxes_nil {key : List Item} {out : ℕ} (h : newAxes out key = []) (K : List ℕ) :
    weave 1 key K = K := by
  induction key generalizing out K with
  | nil => rfl
  | cons item key ih =>
    cases item with
    | int i => exact ih h K
    | newaxis => cases h
    | slice start stop step =>
      cases K with
      | nil => exact ih h []
      | cons k K => rw [weave, ih h K]

theorem mem_weave {key : List Item} {K : List ℕ} {d : ℕ} (h : d ∈ weave 1 key K) :
    d = 1 ∨ d ∈ K := by
  induction key generalizing K with
  | nil => exact .inr h
  | cons item key ih =>
    cases item with
    | int i => exact ih h
    | newaxis =>
      rcases List.mem_cons.mp h with he | h
      · exact .inl he
      · exact ih h
    | slice start stop step =>
      cases K with
      | nil => exact ih h
      | cons k K =>
        rcases List.mem_cons.mp h with he | h
        · exact .inr (he ▸ List.mem_cons_self)
        · exact (ih h).imp_right (List.mem_cons_of_mem _)

theorem PlanOf.usize {sels : List Selector} {shape : List ℕ} {plan : List PlanAxis} {m : IndexMap}
    (h : PlanOf sels shape plan m) (hu : ∀ d ∈ shape, d < wordModulus) :
    ∀ d ∈ m.shape, d < wordModulus := by
  induction h with
  | rest shape => exact hu
  | int _ _ _ ih => exact ih fun d hd => hu d (List.mem_cons_of_mem _ hd)
  | slice resolved _ ih =>
    intro d hd
    rcases List.mem_cons.mp hd with rfl | hd
    · exact (rangeLength_le resolved).trans_lt (hu _ List.mem_cons_self)
    · exact ih (fun d hd => hu d (List.mem_cons_of_mem _ hd)) d hd

theorem withNewAxes_usize {key : List Item} {m : IndexMap} (hu : ∀ d ∈ m.shape, d < wordModulus) :
    ∀ d ∈ (withNewAxes key m).shape, d < wordModulus := by
  intro d hd
  rcases mem_weave hd with rfl | hd
  · decide
  · exact hu d hd

end keys

section elements

/-- The index normalised as `strided_element_at` does it. -/
def stridedCoordinate (len : ℕ) (i : ℤ) : ℤ := if i < 0 then wrapIsize (i+asIsize len) else i

theorem stridedElementLoop_cons (axis ptr len : ℕ) (shape : List ℕ) (stride i : ℤ)
    (strides ints : List ℤ) :
    PyArray.stridedElementLoop axis ptr (i :: ints) (len :: shape) (stride :: strides) =
      if stridedCoordinate len i < 0 ∨ asIsize len ≤ stridedCoordinate len i then
        .error (.array (.indexOutOfBounds i axis len))
      else PyArray.stridedElementLoop (axis+1)
        (wrappingOffset ptr (wrapIsize (stridedCoordinate len i*stride))) ints shape strides := rfl

theorem stridedCoordinate_of_le {len : ℕ} {i : ℤ} (hlen : len ≤ isizeMax)
    (hi : -(2^63) ≤ i ∧ i < 2^63) :
    stridedCoordinate len i = if i < 0 then i+len else i := by
  have hle := isizeMax_eq ▸ hlen
  unfold stridedCoordinate
  split
  · rw [asIsize_of_le hlen, wrapIsize_of_range (by omega) (by omega)]
  · rfl

/-- The bounds test of `strided_element_at` accepts the indices of the axis only. -/
theorem stridedCoordinate_ok {len : ℕ} {i : ℤ} (hlen : len < wordModulus)
    (hi : -(2^63) ≤ i ∧ i < 2^63)
    (h : ¬ (stridedCoordinate len i < 0 ∨ asIsize len ≤ stridedCoordinate len i)) :
    -(len:ℤ) ≤ i ∧ i < len ∧ stridedCoordinate len i = coordinate len i := by
  rw [not_or, not_lt, not_le] at h
  have hle : len ≤ isizeMax := by
    by_contra hgt
    rw [asIsize_of_gt (not_le.mp hgt) hlen] at h
    omega
  rw [asIsize_of_le hle, stridedCoordinate_of_le hle hi] at h
  rw [stridedCoordinate_of_le hle hi]
  unfold coordinate
  split at h <;> rename_i hneg <;> simp only [hneg, ↓reduceIte] at h ⊢ <;> omega

/-- The walk of `strided_element_at` reads the element the integers select. -/
theorem stridedElementLoop_ok {axis ptr p : ℕ} {shape : List ℕ} {strides ints : List ℤ}
    (hints : ∀ i ∈ ints, -(2^63) ≤ i ∧ i < 2^63) (hdims : ∀ d ∈ shape, d < wordModulus)
    (hlen : ints.length = shape.length)
    (hstr : strides.length = shape.length) (hptr : ptr < wordModulus)
    (h : PyArray.stridedElementLoop axis ptr ints shape strides = .ok p) :
    p < wordModulus ∧ ∃ plan n, PlanOf (ints.map .int) shape plan n ∧ n.shape = [] ∧
      (p : Word) = ptr+dot (n.map []) (strideWords strides) := by
  induction ints generalizing axis ptr shape strides with
  | nil =>
    rw [List.length_nil, eq_comm, List.length_eq_zero_iff] at hlen
    subst hlen
    cases h
    exact ⟨hptr, _, _, .rest [], rfl, by simp [IndexMap.refl]⟩
  | cons i ints ih =>
    cases shape with
    | nil => simp at hlen
    | cons len shape =>
      cases strides with
      | nil => simp at hstr
      | cons stride strides =>
        rw [stridedElementLoop_cons] at h
        split at h
        · cases h
        · rename_i hin
          obtain ⟨hl, hu, hk⟩ :=
            stridedCoordinate_ok (hdims len (by simp)) (hints i (by simp)) hin
          obtain ⟨hp, plan, n, hn, hshape, haddr⟩ := ih
            (fun j hj => hints j (List.mem_cons_of_mem _ hj))
            (fun d hd => hdims d (List.mem_cons_of_mem _ hd))
            (by simpa using hlen) (by simpa using hstr) (wrappingOffset_lt _ _) h
          refine ⟨hp, _, _, .int hl hu hn, hshape, ?_⟩
          rw [haddr, cast_wrappingOffset, cast_wrapIsize, hk]
          simp only [strideWords_cons, dot_cons]
          push_cast
          ring

/-- It succeeds on every in-range full index of a non-empty array. -/
theorem stridedElementLoop_of_planOf {axis ptr : ℕ} {shape : List ℕ} {strides ints : List ℤ}
    {plan : List PlanAxis} {n : IndexMap} (hints : ∀ i ∈ ints, -(2^63) ≤ i ∧ i < 2^63)
    (hdims : ∀ d ∈ shape, d ≤ isizeMax) (h : PlanOf (ints.map .int) shape plan n) :
    ∃ p, PyArray.stridedElementLoop axis ptr ints shape strides = .ok p := by
  induction ints generalizing axis ptr shape strides plan n with
  | nil => exact ⟨ptr, by cases shape <;> cases strides <;> rfl⟩
  | cons i ints ih =>
    cases h with
    | @int sels shape plan m len i lower upper tail =>
      cases strides with
      | nil => exact ⟨ptr, rfl⟩
      | cons stride strides =>
        have hle := hdims len (by simp)
        have hk := stridedCoordinate_of_le hle (hints i (by simp))
        rw [stridedElementLoop_cons, if_neg (by rw [asIsize_of_le hle, hk]; split <;> omega)]
        exact ih (fun j hj => hints j (List.mem_cons_of_mem _ hj))
          (fun d hd => hdims d (List.mem_cons_of_mem _ hd)) tail

theorem normalizeIndex_of_range {len axis : ℕ} {i : ℤ} (hlen : len ≤ isizeMax)
    (hi : -(2^63) ≤ i ∧ i < 2^63) (hl : -(len:ℤ) ≤ i) (hu : i < len) :
    normalizeIndex len i axis = .ok (coordinate len i) := by
  have hk := stridedCoordinate_of_le hlen hi
  have hle := isizeMax_eq ▸ hlen
  have hpos : 0 ≤ (if i < 0 then i+(len:ℤ) else i) := by split <;> omega
  have hlt : (if i < 0 then i+(len:ℤ) else i) < len := by split <;> omega
  have hword : asUsize (if i < 0 then i+(len:ℤ) else i) = coordinate len i :=
    asUsize_of_nonneg hpos (by rw [wordModulus_eq]; omega)
  rw [normalizeIndex, show (if i < 0 then wrapIsize (i+asIsize len) else i) = _ from hk, hword]
  rw [if_neg]
  rw [not_or, not_lt, not_le]
  exact ⟨hpos, coordinate_lt hl hu⟩

theorem locateLoop_of_planOf {axis offset : ℕ} {shape strides : List ℕ} {ints : List ℤ}
    {plan : List PlanAxis} {n : IndexMap} (hints : ∀ i ∈ ints, -(2^63) ≤ i ∧ i < 2^63)
    (hdims : ∀ d ∈ shape, d ≤ isizeMax) (h : PlanOf (ints.map .int) shape plan n) :
    ∃ off, locateLoop axis offset shape strides ints = .ok off := by
  induction ints generalizing axis offset shape strides plan n with
  | nil => exact ⟨offset, by cases shape <;> cases strides <;> rfl⟩
  | cons i ints ih =>
    cases h with
    | @int sels shape plan m len i lower upper tail =>
      cases strides with
      | nil => exact ⟨offset, rfl⟩
      | cons stride strides =>
        have hk : normalizeIndex len i axis = .ok (coordinate len i) :=
          normalizeIndex_of_range (hdims len (by simp)) (hints i (by simp)) lower upper
        obtain ⟨off, hoff⟩ : ∃ off, locateLoop (axis+1)
            (wrapUsize (offset+wrapUsize (coordinate len i*stride))) shape strides ints = .ok off :=
          ih (fun j hj => hints j (List.mem_cons_of_mem _ hj))
            (fun d hd => hdims d (List.mem_cons_of_mem _ hd)) tail
        exact ⟨off, by rw [locateLoop, hk]; exact hoff⟩

end elements

namespace Denotes

variable {T : Type} {f : Frame} {a b : PyArray} {m n : IndexMap} {mem : ℕ → T} {alloc : ℕ}
  {sels : List Selector} {plan : List PlanAxis} {ints : List ℤ} {key : List Item}

/-- Only in-range indices matter. -/
theorem congr {m' : IndexMap} (h : Denotes f m a) (hs : m'.shape = m.shape)
    (hmap : ∀ idx, InRange m'.shape idx → m'.map idx = m.map idx) : Denotes f m' a where
  dtype := h.dtype
  shape := h.shape.trans hs.symm
  into := by
    constructor
    · intro idx hidx
      rw [hmap idx hidx]
      exact h.into.inRange idx (hs ▸ hidx)
    · intro i j hi hj he
      rw [hmap i hi, hmap j hj] at he
      exact h.into.injective i j (hs ▸ hi) (hs ▸ hj) he
  usize := hs ▸ h.usize
  wf := h.wf
  byteStrides := h.byteStrides
  strided := h.strided
  addr := by
    intro idx hidx
    rw [hmap idx hidx]
    exact h.addr idx (hs ▸ hidx)
  len := hs ▸ h.len

theorem usize_shape (h : Denotes f m a) : ∀ d ∈ a.shape, d < wordModulus := h.shape ▸ h.usize

/-- Every axis of a non-empty array fits an `isize`. -/
theorem isize_shape (hf : f.Fits) (h : Denotes f m a) (hne : m.shape.prod ≠ 0) :
    ∀ d ∈ a.shape, d ≤ isizeMax := by
  intro d hd
  have hpos : 0 < a.itemsize := a.dtype.itemsize_pos
  have hprod : 0 < a.shape.prod := by
    rw [h.shape]
    exact Nat.pos_of_ne_zero hne
  calc
    d ≤ a.shape.prod := Nat.le_of_dvd hprod (List.dvd_prod hd)
    _ ≤ a.itemsize*a.shape.prod := Nat.le_mul_of_pos_left _ hpos
    _ ≤ isizeMax := h.fits hf

/-- Inserting the new axes into a window. -/
theorem setShape (h : Denotes f m a) (hs : a.strided = none)
    (hK : sliceAxes key ≤ m.shape.length)
    (hok : a.setShape (PyArray.insertOnes m.shape (newAxes 0 key)) = .ok b) :
    Denotes f (withNewAxes key m) b := by
  have hshape : PyArray.insertOnes m.shape (newAxes 0 key) = weave 1 key m.shape :=
    foldl_insertIdx 1 key [] m.shape hK
  rw [hshape] at hok
  unfold PyArray.setShape at hok
  split at hok
  · cases hok
  · obtain ⟨d, hd, he⟩ := bind_eq_ok.mp hok
    cases he
    have hds := Dims.withItemsize_ok hd
    have hwf : a.layoutOf.Wf := h.wf
    rw [PyArray.layout_plain hs] at hwf
    have hb : (⟨a.dtype, d, a.ptr, a.len, a.base, a.strided⟩ : PyArray).strided = none := hs
    refine ⟨h.dtype, hds, withNewAxes_into hK h.into, withNewAxes_usize h.usize, ?_, ?_,
      fun hsome => by simp [hs] at hsome, ?_, ?_⟩
    · rw [PyArray.layout_plain hb]
      exact ⟨d.length_strides, hwf.ptr_lt⟩
    · rw [PyArray.layout_plain hb]
      exact d.byteStrides
    · intro idx hidx
      have hS : (unitStrides m.shape).length = m.shape.length := length_unitStrides _
      obtain ⟨hin, -, hflat⟩ := weave_spec key m.shape _ hS hK hidx
      have ha := h.addr _ hin
      rw [PyArray.addr_plain hs, h.shape] at ha
      rw [PyArray.addr_plain hb]
      show (a.ptr : Word)+a.itemsize*(flat d.shape idx : Word) = _
      rw [hds, hflat, ha]
      rfl
    · show a.len = (weave 1 key m.shape).prod
      rw [prod_weave]
      exact h.len

/-- Element offset and remaining axes found by `locate`. -/
theorem locate (hf : f.Fits) (h : Denotes f m a)
    (hints : ∀ i ∈ ints, -(2^63) ≤ i ∧ i < 2^63) {off : ℕ} {d : Dims a.dtype.itemsize}
    (hok : a.dims.locate ints = .ok (off,d)) :
    off < wordModulus ∧ ∃ plan n, PlanOf (ints.map .int) m.shape plan n ∧ d.shape = n.shape ∧
      ∀ idx, InRange n.shape idx →
        (off : Word)+flat n.shape idx = flat m.shape (n.map idx) := by
  unfold Dims.locate at hok
  split at hok
  · cases hok
  · rename_i hlen
    obtain ⟨off', hoff, he⟩ := bind_eq_ok.mp hok
    cases he
    have hstr : a.dims.elemStrides.length = a.dims.shape.length := by
      rw [Dims.elemStrides, List.length_map, a.dims.length_strides]
    obtain ⟨hlt, plan, n, hn, hshape, haddr⟩ :=
      locateLoop_ok h.usize_shape hints hstr (not_lt.mp hlen) (by decide) hoff
    rw [h.shape] at hn hshape
    refine ⟨hlt, plan, n, hn, ?_, fun idx hidx => ?_⟩
    · rw [Dims.dropLeading_shape, hshape, ← h.shape, PyArray.shape]
    · have hne : m.shape.prod ≠ 0 := (hn.into.inRange idx hidx).prod_pos.ne'
      have ha := haddr idx
      rw [h.elemStrides hf hne, drop_unitStrides, ← hshape, ← dot_natCast, ← dot_natCast,
        dot_unitStrides, dot_unitStrides, Nat.cast_zero, zero_add] at ha
      exact ha

theorem indexView (hf : f.Fits) (h : Denotes f m a) (hs : a.strided = none)
    (hints : ∀ i ∈ ints, -(2^63) ≤ i ∧ i < 2^63) (hok : a.indexView ints = .ok b) :
    ∃ n, numpySelect (ints.map .int) m.shape = some n ∧ Denotes f (m.comp n) b := by
  obtain ⟨⟨off, d⟩, hloc, hv⟩ := bind_eq_ok.mp hok
  obtain ⟨-, plan, n, hn, hshape, hflat⟩ := h.locate hf hints hloc
  exact ⟨n, hn.numpySelect, h.view hf hs hn.into (hn.usize h.usize) hshape hflat hv⟩

theorem get (hf : f.Fits) (h : Denotes f m a) (hs : a.strided = none)
    (hints : ∀ i ∈ ints, -(2^63) ≤ i ∧ i < 2^63) {v : T} (hok : a.get mem ints = .ok (some v)) :
    ∃ n, numpySelect (ints.map .int) m.shape = some n ∧ n.Into m.shape ∧ n.shape = [] ∧
      v = mem (f.element (m.map (n.map []))) := by
  obtain ⟨⟨off, d⟩, hloc, hv⟩ := bind_eq_ok.mp hok
  obtain ⟨-, plan, n, hn, hshape, hflat⟩ := h.locate hf hints hloc
  dsimp only at hv
  split at hv
  · rename_i hnd
    split at hv
    · cases hv
      have hnil : n.shape = [] := by
        rw [← hshape]
        exact List.length_eq_zero_iff.mp hnd
      have hin : InRange n.shape [] := hnil ▸ .nil
      have ha := h.addr _ (hn.into.inRange [] hin)
      rw [PyArray.addr_plain hs, h.shape, ← hflat [] hin, hnil, show flat [] [] = 0 from rfl, Nat.cast_zero,
        add_zero] at ha
      have hlt : a.elementPtr off < wordModulus := wrapUsize_lt _
      have hp : a.elementPtr off = f.element (m.map (n.map [])) := by
        apply eq_val_of_cast_eq hlt
        rw [← ha, PyArray.elementPtr]
        push_cast [cast_wrapUsize]
        ring
      exact ⟨n, hn.numpySelect, hn.into, hnil, by rw [hp]⟩
    · cases hv
  · cases hv

theorem stridedElement (h : Denotes f m a)
    (hints : ∀ i ∈ ints, -(2^63) ≤ i ∧ i < 2^63) {p : ℕ} (hok : a.stridedElement ints = .ok (some p)) :
    ∃ n, numpySelect (ints.map .int) m.shape = some n ∧ n.Into m.shape ∧ n.shape = [] ∧
      p = f.element (m.map (n.map [])) := by
  unfold PyArray.stridedElement at hok
  split at hok
  · cases hok
  · rename_i v hv
    split at hok
    · cases hok
    · rename_i hlen
      obtain ⟨q, hq, he⟩ := bind_eq_ok.mp hok
      cases he
      have hl : a.layoutOf = ⟨v.ptr, a.dims.shape, v.strides⟩ := by
        simp only [PyArray.layoutOf, hv]
      have hwf := h.wf
      rw [hl] at hwf
      obtain ⟨hp, plan, n, hn, hnil, haddr⟩ := stridedElementLoop_ok hints h.usize_shape
        (not_not.mp hlen) hwf.strides_length hwf.ptr_lt hq
      rw [h.shape] at hn
      have ha := h.addr _ (hn.into.inRange [] (hnil ▸ .nil))
      rw [hl] at ha
      exact ⟨n, hn.numpySelect, hn.into, hnil, eq_val_of_cast_eq hp (haddr.trans ha)⟩

theorem planView (hf : f.Fits) (h : Denotes f m a) (hs : a.strided = none)
    (hn : PlanOf sels m.shape plan n) (halloc : alloc < wordModulus)
    (hok : PyArray.planView alloc a plan n.shape = .ok (some b)) :
    Denotes f (m.comp n) b ∧ b.strided = none := by
  unfold PyArray.planView at hok
  split at hok
  · cases hok
  · rename_i hempty
    obtain ⟨d, hd, he⟩ := bind_eq_ok.mp hok
    cases he
    have hm : a.dims.shape = m.shape := h.shape
    rw [Dims.planOutcome, hm] at hempty
    have hz := hn.planViewLoop_empty hempty
    exact ⟨h.of_empty hn.into (hn.usize h.usize) hz rfl (Dims.checked_ok hd).1 halloc, rfl⟩
  · -- a window keeps the elements where the plan finds them
    rename_i off hwindow
    obtain ⟨d, hd, hrest⟩ := bind_eq_ok.mp hok
    obtain ⟨v, hv, he⟩ := bind_eq_ok.mp hrest
    cases he
    refine ⟨h.view hf hs hn.into (hn.usize h.usize) (Dims.withItemsize_ok hd) ?_ hv, ?_⟩
    · intro idx hidx
      have hne : m.shape.prod ≠ 0 := (hn.into.inRange idx hidx).prod_pos.ne'
      have hm : a.dims.shape = m.shape := h.shape
      rw [Dims.planOutcome, h.elemStrides hf hne, hm] at hwindow
      rw [hn.planViewLoop_window hwindow hidx, Nat.cast_zero, zero_add]
    · unfold PyArray.view at hv
      split at hv <;> cases hv
      rfl

theorem selectStrided (hf : f.Fits) (h : Denotes f m a) (hn : PlanOf sels m.shape plan n)
    (hK : sliceAxes key ≤ n.shape.length) (halloc : alloc < wordModulus)
    (hok : a.selectStrided alloc plan sels (newAxes 0 key) = .ok b) :
    Denotes f (m.comp (withNewAxes key n)) b := by
  obtain ⟨l, hl, hv⟩ := bind_eq_ok.mp hok
  have hshape : a.layoutOf.shape = m.shape := a.layout_shape.trans h.shape
  obtain ⟨hwf, hs, haddr⟩ :=
    hn.selectLoop a.layoutOf.ptr a.layoutOf.strides (hshape ▸ h.wf.strides_length) h.wf.ptr_lt
  obtain ⟨hwf', hs', haddr'⟩ := insertAxes_addr hwf (hs ▸ hK) hl
  rw [hs] at hs'
  have hbytes := insertAxes_byteStrides hwf.strides_length 
    (selectLoop_byteStrides _ _ _ _ h.byteStrides) hl
  refine h.viewFromLayout hf (withNewAxes_into hK hn.into) (withNewAxes_usize (hn.usize h.usize))
    hwf' hbytes hs' ?_ halloc hv
  intro idx hidx
  have hS : (unitStrides n.shape).length = n.shape.length := length_unitStrides _
  have hin := (weave_spec key n.shape _ hS hK hidx).1
  rw [haddr' idx (hs' ▸ hidx)]
  exact haddr _ hin

/-- Basic indexing with slices, on either path. -/
theorem selectResult (hf : f.Fits) (h : Denotes f m a) (hints : IsizeSelectors (selectors key))
    (hres : ResolvedSelectors (selectors key) m.shape) (halloc : alloc < wordModulus)
    (hok : a.selectResult alloc (selectors key) (newAxes 0 key) = .ok b) :
    ∃ n, numpyIndex key m.shape = some n ∧ Denotes f (m.comp n) b := by
  obtain ⟨⟨plan, out⟩, hplan, hrest⟩ := bind_eq_ok.mp hok
  have hm : a.dims.shape = m.shape := h.shape
  rw [← hm] at hres
  obtain ⟨n, hn, rfl⟩ := selectionPlan_planOf h.usize_shape hints hres hplan
  rw [hm] at hn
  have hK := sliceAxes_le hn.numpySelect
  refine ⟨withNewAxes key n, ?_, ?_⟩
  · rw [numpyIndex_eq, hn.numpySelect]
    rfl
  · dsimp only at hrest
    split at hrest
    · rename_i hplain
      have hs : a.strided = none := Option.isNone_iff_eq_none.mp hplain
      obtain ⟨sel, hsel, hlast⟩ := bind_eq_ok.mp hrest
      cases sel with
      | none => exact h.selectStrided hf hn hK halloc hlast
      | some selected =>
        obtain ⟨hd, hplain'⟩ := h.planView hf hs hn halloc hsel
        dsimp only at hlast
        split at hlast
        · rename_i hempty
          cases hlast
          have hw := weave_of_newAxes_nil (List.isEmpty_iff.mp hempty)
          refine hd.congr (hw n.shape) fun idx hidx => ?_
          have hS : (unitStrides n.shape).length = n.shape.length := length_unitStrides _
          obtain ⟨hin, -, hflat⟩ := weave_spec key n.shape _ hS hK hidx
          have hidx' : InRange n.shape idx := hw n.shape ▸ hidx
          rw [hw] at hflat
          show m.map (n.map (unweave key idx)) = m.map (n.map idx)
          rw [← flat_injective hidx' hin hflat]
        · exact hd.setShape hplain' hK hlast
    · exact h.selectStrided hf hn hK halloc hrest

end Denotes

end LightArray
