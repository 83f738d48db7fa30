import LightArray.SelectionSpec

namespace LightArray
open MachineWord RowMajor

/-- Strides as words. -/
def strideWords (ss : List ℤ) : List Word := ss.map Int.cast

@[simp] theorem strideWords_cons (s : ℤ) (ss : List ℤ) :
    strideWords (s :: ss) = (s : Word) :: strideWords ss := rfl

@[simp] theorem strideWords_nil : strideWords [] = [] := rfl

@[simp] theorem length_strideWords (ss : List ℤ) : (strideWords ss).length = ss.length :=
  List.length_map ..

/-- Address of an element of a layout, up to wrapping. -/
def Layout.addr (l : Layout) (idx : List ℕ) : Word := l.ptr+dot idx (strideWords l.strides)

/-- A layout with one stride for each axis and a pointer that is one. -/
structure Layout.Wf (l : Layout) : Prop where
  strides_length : l.strides.length = l.shape.length
  ptr_lt : l.ptr < wordModulus

@[simp] theorem cast_wrappingOffset (ptr : ℕ) (z : ℤ) :
    ((wrappingOffset ptr z : ℕ) : Word) = ptr+z := by
  rw [wrappingOffset, cast_asUsize]
  push_cast
  rfl

theorem wrappingOffset_lt (ptr : ℕ) (z : ℤ) : wrappingOffset ptr z < wordModulus := asUsize_lt _

section select

variable {sels : List Selector} {shape : List ℕ} {plan : List PlanAxis} {m : IndexMap}

theorem selectLoop_rest (ptr : ℕ) (shape : List ℕ) (strides : List ℤ)
    (hlen : strides.length = shape.length) (hptr : ptr < wordModulus) :
    let l := Layout.selectLoop ptr (shape.map fun d => ⟨0,1,d⟩) strides []
    l.Wf ∧ l.shape = shape ∧
      ∀ idx, l.addr idx = ptr+dot idx (strideWords strides) := by
  induction shape generalizing ptr strides with
  | nil =>
    rw [List.length_nil, List.length_eq_zero_iff] at hlen
    subst hlen
    exact ⟨⟨rfl, hptr⟩, rfl, fun _ => rfl⟩
  | cons d ds ih =>
    cases strides with
    | nil => simp at hlen
    | cons stride strides =>
      have hstep : ∀ p : ℕ, p = (if 0 < d then wrappingOffset ptr (wrapIsize (asIsize 0*stride)) else ptr) →
          p < wordModulus ∧ (p : Word) = ptr := by
        rintro p rfl
        split
        · refine ⟨wrappingOffset_lt _ _, ?_⟩
          rw [cast_wrappingOffset, cast_wrapIsize]
          push_cast [cast_asIsize]
          ring
        · exact ⟨hptr, rfl⟩
      obtain ⟨hp, hcast⟩ := hstep _ rfl
      obtain ⟨hwf, hshape, haddr⟩ := ih _ strides (by simpa using hlen) hp
      refine ⟨⟨?_, hwf.ptr_lt⟩, ?_, ?_⟩
      · simpa [Layout.selectLoop] using hwf.strides_length
      · simpa [Layout.selectLoop] using hshape
      · intro idx
        cases idx with
        | nil =>
          have h := haddr []
          simp only [Layout.addr, dot_nil_left, add_zero] at h ⊢
          exact h.trans hcast
        | cons i is =>
          have h := haddr is
          simp only [Layout.addr] at h
          simp only [Layout.addr, List.map_cons, Layout.selectLoop, List.tail_nil, strideWords_cons,
            dot_cons, cast_wrapIsize]
          rw [hcast] at h
          push_cast
          linear_combination h

/-- Selecting composes the address with the index map. -/
theorem PlanOf.selectLoop (h : PlanOf sels shape plan m) (ptr : ℕ) (strides : List ℤ)
    (hlen : strides.length = shape.length) (hptr : ptr < wordModulus) :
    let l := Layout.selectLoop ptr plan strides sels
    l.Wf ∧ l.shape = m.shape ∧
      ∀ idx, InRange m.shape idx → l.addr idx = ptr+dot (m.map idx) (strideWords strides) := by
  induction h generalizing ptr strides with
  | rest shape =>
    obtain ⟨hwf, hshape, haddr⟩ := selectLoop_rest ptr shape strides hlen hptr
    exact ⟨hwf, hshape, fun idx _ => haddr idx⟩
  | @int sels shape plan m len i lower upper _ ih =>
    cases strides with
    | nil => simp at hlen
    | cons stride strides =>
      have hloop : Layout.selectLoop ptr (⟨coordinate len i,1,1⟩ :: plan) (stride :: strides)
          (.int i :: sels) =
          Layout.selectLoop (wrappingOffset ptr (wrapIsize (asIsize (coordinate len i)*stride)))
            plan strides sels := by
        simp only [Layout.selectLoop, Nat.zero_lt_one, ↓reduceIte, List.tail_cons]
      obtain ⟨hwf, hshape, haddr⟩ := ih _ strides (by simpa using hlen) (wrappingOffset_lt ptr _)
      rw [hloop]
      refine ⟨hwf, hshape, fun idx hidx => ?_⟩
      have h := haddr idx hidx
      rw [cast_wrappingOffset, cast_wrapIsize] at h
      push_cast [cast_asIsize] at h
      simp only [strideWords_cons, dot_cons]
      exact h.trans (by ring)
  | @slice sels shape plan m len start stop step resolved _ ih =>
    cases strides with
    | nil => simp at hlen
    | cons stride strides =>
      have hptr' : (if 0 < rangeLength start stop step then
          wrappingOffset ptr (wrapIsize (asIsize (asUsize start)*stride)) else ptr) < wordModulus := by
        split
        · exact wrappingOffset_lt _ _
        · exact hptr
      obtain ⟨hwf, hshape, haddr⟩ := ih _ strides (by simpa using hlen) hptr'
      refine ⟨⟨?_, hwf.ptr_lt⟩, ?_, ?_⟩
      · simpa [Layout.selectLoop] using hwf.strides_length
      · simpa [Layout.selectLoop] using hshape
      · intro idx hidx
        obtain ⟨i, is, rfl, hi, his⟩ := hidx.cases_cons
        have hcoord := slice_coordinate_cast resolved hi
        have h := haddr is his
        rw [if_pos (Nat.zero_lt_of_lt hi), cast_wrappingOffset, cast_wrapIsize] at h
        push_cast [cast_asIsize, cast_asUsize] at h
        simp only [Layout.addr] at h
        simp only [Layout.addr, Layout.selectLoop, List.tail_cons, if_pos (Nat.zero_lt_of_lt hi),
          strideWords_cons, dot_cons, List.headD_cons, hcoord, cast_wrapIsize]
        push_cast
        linear_combination h

end select

section newAxes

theorem insertIdx_prefix {α : Type} (pre K : List α) (x : α) :
    (pre ++ K).insertIdx pre.length x = pre ++ x :: K := by
  induction pre with
  | nil => simp
  | cons a pre ih => simp [ih]

/-- Inserting at the recorded positions one after the other puts every new axis
where its `None` stands. -/
theorem foldl_insertIdx {α : Type} (x : α) (key : List Item) (pre K : List α)
    (hK : sliceAxes key ≤ K.length) :
    (newAxes pre.length key).foldl (fun l pos => l.insertIdx (min pos l.length) x) (pre ++ K) =
      pre ++ weave x key K := by
  induction key generalizing pre K with
  | nil => simp [newAxes, weave]
  | cons item key ih =>
    cases item with
    | int i => exact ih pre K hK
    | slice start stop step =>
      cases K with
      | nil => simp [sliceAxes] at hK
      | cons k K =>
        have h := ih (pre ++ [k]) K (by simpa [sliceAxes] using hK)
        simpa [newAxes, weave] using h
    | newaxis =>
      have hins : (pre ++ K).insertIdx (min pre.length (pre ++ K).length) x = (pre ++ [x]) ++ K := by
        rw [Nat.min_eq_left (by simp), insertIdx_prefix, List.append_assoc]
        rfl
      have h := ih (pre ++ [x]) K hK
      rw [newAxes, List.foldl_cons, hins]
      simpa [weave] using h

theorem insertAxes_ok {l l' : Layout} {ps : List ℕ} (hlen : l.strides.length = l.shape.length)
    (h : l.insertAxes ps = .ok l') :
    l'.ptr = l.ptr ∧
      l'.shape = ps.foldl (fun sh pos => sh.insertIdx (min pos sh.length) 1) l.shape ∧
      l'.strides = ps.foldl (fun ss pos => ss.insertIdx (min pos ss.length) 0) l.strides := by
  induction ps generalizing l with
  | nil =>
    cases h
    exact ⟨rfl, rfl, rfl⟩
  | cons pos ps ih =>
    obtain ⟨l₁, h₁, hrest⟩ := bind_eq_ok.mp h
    unfold Layout.insertAxis at h₁
    split at h₁
    · cases h₁
    · cases h₁
      have hlen₁ : (l.strides.insertIdx (min pos l.shape.length) 0).length =
          (l.shape.insertIdx (min pos l.shape.length) 1).length := by
        simp only [List.length_insertIdx, hlen]
      have hr := ih hlen₁ hrest
      simpa only [List.foldl_cons, hlen] using hr

theorem map_weave {α β : Type} (f : α → β) (x : α) (key : List Item) (K : List α) :
    (weave x key K).map f = weave (f x) key (K.map f) := by
  induction key generalizing K with
  | nil => rfl
  | cons item key ih =>
    cases item with
    | int i => exact ih K
    | newaxis => simp [weave, ih]
    | slice start stop step => cases K <;> simp [weave, ih]

theorem prod_weave (key : List Item) (K : List ℕ) : (weave 1 key K).prod = K.prod := by
  induction key generalizing K with
  | nil => rfl
  | cons item key ih =>
    cases item with
    | int i => exact ih K
    | newaxis => simp [weave, ih]
    | slice start stop step => cases K <;> simp [weave, ih]

theorem length_weave {α β : Type} (x : α) (y : β) (key : List Item) (K : List α) (L : List β)
    (h : K.length = L.length) : (weave x key K).length = (weave y key L).length := by
  induction key generalizing K L with
  | nil => exact h
  | cons item key ih =>
    cases item with
    | int i => exact ih K L h
    | newaxis => simp [weave, ih K L h]
    | slice start stop step =>
      cases K with
      | nil =>
        rw [List.length_nil, eq_comm, List.length_eq_zero_iff] at h
        subst h
        exact ih [] [] rfl
      | cons k K =>
        cases L with
        | nil => simp at h
        | cons l L => simpa [weave] using ih K L (by simpa using h)

/-- The new axes neither move an element nor change its row-major position. -/
theorem weave_spec {R : Type} [CommSemiring R] (key : List Item) (K : List ℕ) (S : List R)
    (hS : S.length = K.length) (hK : sliceAxes key ≤ K.length) {idx : List ℕ}
    (h : InRange (weave 1 key K) idx) :
    InRange K (unweave key idx) ∧ dot idx (weave 0 key S) = dot (unweave key idx) S ∧
      flat (weave 1 key K) idx = flat K (unweave key idx) := by
  induction key generalizing K S idx with
  | nil => exact ⟨h, rfl, rfl⟩
  | cons item key ih =>
    cases item with
    | int i => exact ih K S hS hK h
    | newaxis =>
      obtain ⟨i, is, rfl, hi, his⟩ := InRange.cases_cons h
      obtain ⟨hr, hd, hf⟩ := ih K S hS hK his
      have hi0 : i = 0 := by omega
      subst hi0
      refine ⟨hr, ?_, ?_⟩
      · simpa [weave, unweave] using hd
      · simpa [weave, unweave, flat] using hf
    | slice start stop step =>
      cases K with
      | nil => simp [sliceAxes] at hK
      | cons k K =>
        cases S with
        | nil => simp at hS
        | cons s S =>
          obtain ⟨i, is, rfl, hi, his⟩ := InRange.cases_cons h
          obtain ⟨hr, hd, hf⟩ := ih K S (by simpa using hS) (by simpa [sliceAxes] using hK) his
          refine ⟨inRange_cons.mpr ⟨hi, hr⟩, ?_, ?_⟩
          · simp [weave, unweave, hd]
          · simp [weave, unweave, flat, hf, prod_weave]

theorem unweave_injective (key : List Item) (K : List ℕ) (hK : sliceAxes key ≤ K.length)
    {i j : List ℕ} (hi : InRange (weave 1 key K) i) (hj : InRange (weave 1 key K) j)
    (h : unweave key i = unweave key j) : i = j := by
  have hS : (unitStrides K).length = K.length := length_unitStrides K
  have hfi := (weave_spec key K (unitStrides K) hS hK hi).2.2
  have hfj := (weave_spec key K (unitStrides K) hS hK hj).2.2
  exact flat_injective hi hj (by rw [hfi, hfj, h])

/-- A basic index is its selectors with the `None` axes woven in. -/
theorem numpyIndex_eq (key : List Item) (shape : List ℕ) :
    numpyIndex key shape = (numpySelect (selectors key) shape).map fun m =>
      ⟨weave 1 key m.shape, fun idx => m.map (unweave key idx)⟩ := by
  induction key generalizing shape with
  | nil => rfl
  | cons item key ih =>
    cases item with
    | newaxis =>
      simp only [numpyIndex, selectors, ih, Option.map_map]
      rfl
    | int i =>
      cases shape with
      | nil => rfl
      | cons d ds =>
        simp only [numpyIndex, selectors, numpySelect, ih]
        split
        · simp only [Option.map_map]
          rfl
        · rfl
    | slice start stop step =>
      cases shape with
      | nil => rfl
      | cons d ds =>
        simp only [numpyIndex, selectors, numpySelect, ih, Option.map_map]
        rfl

theorem sliceAxes_le {key : List Item} {shape : List ℕ} {m : IndexMap}
    (h : numpySelect (selectors key) shape = some m) : sliceAxes key ≤ m.shape.length := by
  induction key generalizing shape m with
  | nil => exact Nat.zero_le _
  | cons item key ih =>
    cases item with
    | newaxis => exact ih h
    | int i =>
      cases shape with
      | nil => simp [selectors, numpySelect] at h
      | cons d ds =>
        simp only [selectors, numpySelect] at h
        split at h
        · obtain ⟨n, hn, rfl⟩ := Option.map_eq_some_iff.mp h
          exact (ih hn : sliceAxes key ≤ n.shape.length)
        · cases h
    | slice start stop step =>
      cases shape with
      | nil => simp [selectors, numpySelect] at h
      | cons d ds =>
        obtain ⟨n, hn, rfl⟩ := Option.map_eq_some_iff.mp h
        have hle := ih hn
        simpa [sliceAxes] using hle

/-- The index map of a key from that of its selectors. -/
def withNewAxes (key : List Item) (m : IndexMap) : IndexMap :=
  ⟨weave 1 key m.shape, fun idx => m.map (unweave key idx)⟩

theorem withNewAxes_into {key : List Item} {m : IndexMap} {source : List ℕ}
    (hK : sliceAxes key ≤ m.shape.length) (hm : m.Into source) :
    (withNewAxes key m).Into source := by
  have hS : (unitStrides m.shape).length = m.shape.length := length_unitStrides _
  constructor
  · intro idx h
    exact hm.inRange _ (weave_spec key m.shape (unitStrides m.shape) hS hK h).1
  · intro i j hi hj h
    have hri := (weave_spec key m.shape (unitStrides m.shape) hS hK hi).1
    have hrj := (weave_spec key m.shape (unitStrides m.shape) hS hK hj).1
    exact unweave_injective key m.shape hK hi hj (hm.injective _ _ hri hrj h)

/-- Inserting the new axes into a layout leaves every element where it was. -/
theorem insertAxes_addr {key : List Item} {l l' : Layout} (hwf : l.Wf)
    (hK : sliceAxes key ≤ l.shape.length) (h : l.insertAxes (newAxes 0 key) = .ok l') :
    l'.Wf ∧ l'.shape = weave 1 key l.shape ∧
      ∀ idx, InRange l'.shape idx → l'.addr idx = l.addr (unweave key idx) := by
  obtain ⟨hptr, hshape, hstrides⟩ := insertAxes_ok hwf.strides_length h
  have hs : l'.shape = weave 1 key l.shape :=
    hshape.trans (foldl_insertIdx 1 key [] l.shape hK)
  have ht : l'.strides = weave 0 key l.strides :=
    hstrides.trans (foldl_insertIdx 0 key [] l.strides (hwf.strides_length ▸ hK))
  refine ⟨⟨?_, hptr ▸ hwf.ptr_lt⟩, hs, ?_⟩
  · rw [hs, ht]
    exact length_weave 0 1 key _ _ hwf.strides_length
  · intro idx hidx
    rw [hs] at hidx
    have hw : strideWords l'.strides = weave 0 key (strideWords l.strides) := by
      rw [ht, strideWords, map_weave, Int.cast_zero]
      rfl
    have hd := (weave_spec key l.shape (strideWords l.strides)
      (by simp [hwf.strides_length]) hK hidx).2.1
    rw [Layout.addr, Layout.addr, hptr, hw, hd]

end newAxes

section reversed

theorem reversed_wf {l : Layout} (h : l.Wf) : l.reversed.Wf :=
  ⟨by simp [Layout.reversed, h.strides_length], h.ptr_lt⟩

theorem reversed_addr {l : Layout} (h : l.Wf) {idx : List ℕ} (hidx : InRange l.reversed.shape idx) :
    l.reversed.addr idx = l.addr idx.reverse := by
  have hlen : idx.length = l.strides.length := by
    rw [hidx.length_eq, h.strides_length]
    simp [Layout.reversed]
  have hrev := dot_reverse (i := idx.reverse) (s := strideWords l.strides) (by simp [hlen])
  rw [List.reverse_reverse] at hrev
  simp only [Layout.addr, Layout.reversed, strideWords, List.map_reverse] at hrev ⊢
  rw [hrev]

theorem transpose_into (shape : List ℕ) :
    (⟨shape.reverse, List.reverse⟩ : IndexMap).Into shape := by
  constructor
  · intro idx h
    have hr := InRange.reverse h
    rwa [List.reverse_reverse] at hr
  · intro i j _ _ h
    exact List.reverse_injective h

end reversed

section wf

theorem selectLoop_wf (ptr : ℕ) (plan : List PlanAxis) (strides : List ℤ) (sels : List Selector)
    (hptr : ptr < wordModulus) : (Layout.selectLoop ptr plan strides sels).Wf := by
  induction plan generalizing ptr strides sels with
  | nil => cases strides <;> exact ⟨rfl, hptr⟩
  | cons p plan ih =>
    cases strides with
    | nil => exact ⟨rfl, hptr⟩
    | cons stride strides =>
      have hptr' : (if 0 < p.count then wrappingOffset ptr (wrapIsize (asIsize p.start*stride))
          else ptr) < wordModulus := by
        split
        · exact wrappingOffset_lt _ _
        · exact hptr
      have hrest := ih _ strides sels.tail hptr'
      simp only [Layout.selectLoop]
      split
      · exact hrest
      · exact ⟨congrArg (·+1) hrest.strides_length, hrest.ptr_lt⟩

theorem insertAxes_wf {l l' : Layout} {ps : List ℕ} (h : l.Wf) (hok : l.insertAxes ps = .ok l') :
    l'.Wf := by
  induction ps generalizing l with
  | nil =>
    cases hok
    exact h
  | cons pos ps ih =>
    obtain ⟨m, hm, hrest⟩ := bind_eq_ok.mp hok
    refine ih ?_ hrest
    unfold Layout.insertAxis at hm
    split at hm
    · cases hm
    · cases hm
      refine ⟨?_, h.ptr_lt⟩
      have hlen := h.strides_length
      rw [List.length_insertIdx_of_le_length (min_le_right ..),
        List.length_insertIdx_of_le_length (hlen ▸ min_le_right ..), hlen]

end wf

section byteStrides

variable {t : DType}

theorem selectLoop_byteStrides (ptr : ℕ) (plan : List PlanAxis) (strides : List ℤ)
    (sels : List Selector) (h : ∀ s ∈ strides, ByteStride t s) :
    ∀ s ∈ (Layout.selectLoop ptr plan strides sels).strides, ByteStride t s := by
  induction plan generalizing ptr strides sels with
  | nil => cases strides <;> simp [Layout.selectLoop]
  | cons p plan ih =>
    cases strides with
    | nil => simp [Layout.selectLoop]
    | cons stride strides =>
      obtain ⟨hhead, htail⟩ := List.forall_mem_cons.mp h
      have hstep : ByteStride t (wrapIsize (p.step*stride)) :=
        byteStride_wrapIsize (Dvd.dvd.mul_left hhead.1 _)
      simp only [Layout.selectLoop]
      split
      · exact ih _ _ _ htail
      · exact List.forall_mem_cons.mpr ⟨hstep, ih _ _ _ htail⟩

theorem insertAxes_byteStrides {l l' : Layout} {ps : List ℕ}
    (hlen : l.strides.length = l.shape.length) (h : ∀ s ∈ l.strides, ByteStride t s)
    (hok : l.insertAxes ps = .ok l') : ∀ s ∈ l'.strides, ByteStride t s := by
  rw [(insertAxes_ok hlen hok).2.2]
  have hfold (ss : List ℤ) (h : ∀ s ∈ ss, ByteStride t s) :
      ∀ s ∈ ps.foldl (fun ss pos => ss.insertIdx (min pos ss.length) 0) ss, ByteStride t s := by
    clear hok
    induction ps generalizing ss with
    | nil => exact h
    | cons pos ps ih =>
      apply ih
      intro s hs
      rcases List.eq_or_mem_of_mem_insertIdx hs with rfl | hs
      · exact byteStride_zero t
      · exact h s hs
  exact hfold _ h

end byteStrides

section contiguous

/-- The stride expected of the next axis is the wrapped size of the block so far. -/
theorem contiguousLoop_snd (s : ℕ) {shape : List ℕ} {strides : List ℤ}
    (hlen : strides.length = shape.length) :
    ((Layout.contiguousLoop s shape strides).2 : Word) = s*shape.prod := by
  induction shape generalizing strides with
  | nil => cases strides <;> simp [Layout.contiguousLoop]
  | cons d ds ih =>
    cases strides with
    | nil => simp at hlen
    | cons stride strides =>
      simp only [Layout.contiguousLoop, cast_wrapIsize]
      push_cast [cast_asIsize, List.prod_cons, ih (by simpa using hlen)]
      ring

theorem contiguousLoop_run (s : ℕ) {shape : List ℕ} {strides : List ℤ}
    (hlen : strides.length = shape.length) :
    (Layout.contiguousLoop s shape strides).2 = wrapIsize (s*shape.prod : ℕ) := by
  have hword := contiguousLoop_snd s hlen
  cases shape with
  | nil => cases strides <;> simp [Layout.contiguousLoop, asIsize]
  | cons d ds =>
    cases strides with
    | nil => simp at hlen
    | cons stride strides =>
      simp only [Layout.contiguousLoop, cast_wrapIsize] at hword ⊢
      apply wrapIsize_congr
      rw [hword, Int.cast_natCast, Nat.cast_mul]

/-- A layout that passes the contiguity test addresses its elements in
row-major order, whatever the strides of its length-1 axes. -/
theorem contiguousLoop_dot (s : ℕ) {shape : List ℕ} {strides : List ℤ}
    (hlen : strides.length = shape.length) (h : (Layout.contiguousLoop s shape strides).1 = true)
    {idx : List ℕ} (hidx : InRange shape idx) :
    dot idx (strideWords strides) = s*(flat shape idx : Word) := by
  induction shape generalizing strides idx with
  | nil =>
    rw [inRange_nil.mp hidx]
    simp [flat]
  | cons d ds ih =>
    cases strides with
    | nil => simp at hlen
    | cons stride strides =>
      obtain ⟨i, is, rfl, hi, his⟩ := hidx.cases_cons
      have hlen' : strides.length = ds.length := by simpa using hlen
      simp only [Layout.contiguousLoop, Bool.and_eq_true, Bool.or_eq_true, beq_iff_eq] at h
      have ht := ih hlen' h.1 his
      have hhead : (i:Word)*(stride:Word) = i*(s*ds.prod) := by
        rcases h.2 with rfl | hstride
        · have hi0 : i = 0 := by omega
          simp [hi0]
        · rw [hstride, contiguousLoop_snd s hlen']
      simp only [strideWords_cons, dot_cons, flat, ht, hhead]
      push_cast
      ring

theorem isCContiguous_addr {l : Layout} (hwf : l.Wf) {s : ℕ} (h : l.isCContiguous s = true)
    {idx : List ℕ} (hidx : InRange l.shape idx) :
    l.addr idx = l.ptr+s*(flat l.shape idx : Word) := by
  rw [Layout.addr, contiguousLoop_dot s hwf.strides_length h hidx]

theorem Dims.dot_strides {s : ℕ} (d : Dims s) (idx : List ℕ) :
    dot idx (strideWords d.strides) = s*(flat d.shape idx : Word) := by
  have hmap : strideWords d.strides =
      ((unitStrides d.shape).map (Nat.cast : ℕ → Word)).map ((s : Word)*·) := by
    rw [d.strides_eq_map, strideWords, List.map_map, List.map_map]
    apply List.map_congr_left
    intro p _
    simp
  rw [hmap, dot_map_mul, ← dot_natCast, dot_unitStrides]

end contiguous

end LightArray
