import LightArray.ViewStep

namespace LightArray
open MachineWord RowMajor

/-- A result that shows the elements of `f` that `m` selects. -/
def Shows {T : Type} (f : Frame) (mem : ℕ → T) (m : IndexMap) : Value T → Prop
  | .scalar v => m.shape = [] ∧ m.Into f.shape ∧ v = mem (f.element (m.map []))
  | .array b => Denotes f m b

section plans

theorem resolvedSelectors_ints (ints : List ℤ) (shape : List ℕ) :
    ResolvedSelectors (ints.map .int) shape := by
  induction ints generalizing shape with
  | nil => trivial
  | cons i ints ih =>
    cases shape with
    | nil => trivial
    | cons d ds => exact ih ds

theorem isizeSelectors_ints {ints : List ℤ} :
    IsizeSelectors (ints.map .int) ↔ ∀ i ∈ ints, -(2^63) ≤ i ∧ i < 2^63 := by
  simp [IsizeSelectors]

/-- Integers in range, one for each axis, select one element. -/
theorem planOf_of_forall₂ {ints : List ℤ} {shape : List ℕ}
    (h : List.Forall₂ (fun (i : ℤ) (d : ℕ) => -(d:ℤ) ≤ i ∧ i < d) ints shape) :
    ∃ plan n, PlanOf (ints.map .int) shape plan n ∧ n.shape = [] ∧
      n.map [] = List.zipWith coordinate shape ints := by
  induction h with
  | nil => exact ⟨_, _, .rest [], rfl, rfl⟩
  | @cons i d is ds hi _ ih =>
    obtain ⟨plan, n, hn, hnil, hmap⟩ := ih
    exact ⟨_, _, .int hi.1 hi.2 hn, hnil, congrArg (coordinate d i :: ·) hmap⟩

theorem planOf_full_length {ints : List ℤ} {shape : List ℕ} {plan : List PlanAxis} {n : IndexMap}
    (h : PlanOf (ints.map .int) shape plan n) (hnil : n.shape = []) : ints.length = shape.length := by
  induction ints generalizing shape plan n with
  | nil =>
    cases h
    exact (congrArg List.length hnil).symm
  | cons i ints ih =>
    cases h with
    | int lower upper tail => rw [List.length_cons, List.length_cons, ih tail hnil]

end plans

namespace Denotes

variable {T : Type} {f : Frame} {a b : PyArray} {m n : IndexMap} {mem : ℕ → T} {alloc : ℕ}
  {plan : List PlanAxis} {ints : List ℤ} {key : List Item} {step : Step} {r : Value T}

theorem indexResult (hf : f.Fits) (h : Denotes f m a) (halloc : alloc < wordModulus)
    (hints : ∀ i ∈ ints, -(2^63) ≤ i ∧ i < 2^63) (hok : a.indexResult mem alloc ints = .ok r) :
    ∃ n, numpySelect (ints.map .int) m.shape = some n ∧ Shows f mem (m.comp n) r := by
  obtain ⟨e, he, hrest⟩ := bind_eq_ok.mp hok
  cases e with
  | some p =>
    cases hrest
    obtain ⟨n, hn, hinto, hnil, rfl⟩ := h.stridedElement hints he
    exact ⟨n, hn, hnil, h.into.comp hinto, rfl⟩
  | none =>
    dsimp only at hrest
    split at hrest
    · -- a partial index of a strided view: the layout is selected
      obtain ⟨⟨plan, out⟩, hplan, hview⟩ := bind_eq_ok.mp hrest
      obtain ⟨v, hv, hr⟩ := bind_eq_ok.mp hview
      cases hr
      obtain ⟨n, hn, -⟩ := selectionPlan_planOf h.usize_shape (isizeSelectors_ints.mpr hints)
        (resolvedSelectors_ints ints _) hplan
      have hm : a.dims.shape = m.shape := h.shape
      rw [hm] at hn
      have hshape : a.layoutOf.shape = m.shape := a.layout_shape.trans h.shape
      obtain ⟨hwf, hs, haddr⟩ := hn.selectLoop a.layoutOf.ptr a.layoutOf.strides
        (hshape ▸ h.wf.strides_length) h.wf.ptr_lt
      have hbytes := selectLoop_byteStrides a.layoutOf.ptr plan _
        (ints.map .int) h.byteStrides
      exact ⟨n, hn.numpySelect,
        h.viewFromLayout hf hn.into (hn.usize h.usize) hwf hbytes hs haddr halloc hv⟩
    · rename_i hs
      rw [Bool.not_eq_true, Option.isSome_eq_false_iff, Option.isNone_iff_eq_none] at hs
      obtain ⟨g, hg, hlast⟩ := bind_eq_ok.mp hrest
      cases g with
      | some v =>
        cases hlast
        obtain ⟨n, hn, hinto, hnil, rfl⟩ := h.get hf hs hints hg
        exact ⟨n, hn, hnil, h.into.comp hinto, rfl⟩
      | none =>
        obtain ⟨v, hv, hr⟩ := bind_eq_ok.mp hlast
        cases hr
        exact h.indexView hf hs hints hv

/-- A full index of a strided view finds the element's address. -/
theorem stridedElement_of_planOf (hf : f.Fits) (h : Denotes f m a) (hs : a.strided.isSome)
    (hints : ∀ i ∈ ints, -(2^63) ≤ i ∧ i < 2^63) (hn : PlanOf (ints.map .int) m.shape plan n)
    (hnil : n.shape = []) : a.stridedElement ints = .ok (some (f.element (m.map (n.map [])))) := by
  have hin : InRange m.shape (n.map []) := hn.into.inRange [] (hnil ▸ .nil)
  have hdims := h.isize_shape hf hin.prod_pos.ne'
  have hm : a.dims.shape = m.shape := h.shape
  have hnd : ints.length = a.dims.ndim := by rw [planOf_full_length hn hnil, ← hm, Dims.ndim]
  rw [← hm] at hn
  obtain ⟨v, hv⟩ := Option.isSome_iff_exists.mp hs
  obtain ⟨p, hp⟩ : ∃ p, PyArray.stridedElementLoop 0 v.ptr ints a.dims.shape v.strides = .ok p :=
    stridedElementLoop_of_planOf hints hdims hn
  have he : a.stridedElement ints = .ok (some p) := by
    simp only [PyArray.stridedElement, hv, hnd, ne_eq, not_true_eq_false, ↓reduceIte, hp]
    rfl
  obtain ⟨n', hn', -, -, rfl⟩ := h.stridedElement hints he
  have hnn : n' = n := Option.some.inj (hn'.symm.trans (hm ▸ hn.numpySelect))
  rw [he, hnn]

/-- A full index of a plain array loads the element. -/
theorem get_of_planOf (mem : ℕ → T) (hf : f.Fits) (h : Denotes f m a) (hs : a.strided = none)
    (hints : ∀ i ∈ ints, -(2^63) ≤ i ∧ i < 2^63) (hn : PlanOf (ints.map .int) m.shape plan n)
    (hnil : n.shape = []) : a.get mem ints = .ok (some (mem (f.element (m.map (n.map []))))) := by
  have hin : InRange m.shape (n.map []) := hn.into.inRange [] (hnil ▸ .nil)
  have hdims := h.isize_shape hf hin.prod_pos.ne'
  have hlen := planOf_full_length hn hnil
  have hm : a.dims.shape = m.shape := h.shape
  rw [← hm] at hn
  obtain ⟨off, hoff⟩ : ∃ off, locateLoop 0 0 a.dims.shape a.dims.elemStrides ints = .ok off :=
    locateLoop_of_planOf hints hdims hn
  have hloc : a.dims.locate ints = .ok (off, a.dims.dropLeading ints.length) := by
    rw [Dims.locate, if_neg (by rw [Dims.ndim, hm, hlen]; omega), hoff]
    rfl
  obtain ⟨hlt, plan', n', hn', hshape', hflat⟩ := h.locate hf hints hloc
  have hnn : n' = n := Option.some.inj (hn'.numpySelect.symm.trans (hm ▸ hn.numpySelect))
  subst hnn
  have hword := hflat [] (hnil ▸ .nil)
  rw [hnil, show flat [] [] = 0 from rfl, Nat.cast_zero, add_zero] at hword
  have hprod := flat_lt hin
  have hofflen : off < a.len := by
    rw [eq_of_cast_eq hlt (hprod.trans (prod_lt hf h.into)) hword, h.len]
    exact hprod
  have hnd : (a.dims.dropLeading ints.length).ndim = 0 := by
    rw [Dims.ndim, hshape', hnil, List.length_nil]
  have hg : a.get mem ints = .ok (some (mem (a.elementPtr off))) := by
    rw [PyArray.get, hloc]
    show (if _ then _ else _) = _
    rw [if_pos hnd, if_pos hofflen]
  obtain ⟨n'', hn'', -, -, hv⟩ := h.get hf hs hints hg
  have hnn' : n'' = n' := Option.some.inj (hn''.symm.trans hn'.numpySelect)
  rw [hg, hv, hnn']

/-- A full integer index succeeds and yields the element it names. -/
theorem indexResult_full (hf : f.Fits) (h : Denotes f m a)
    (hints : ∀ i ∈ ints, -(2^63) ≤ i ∧ i < 2^63) (hn : PlanOf (ints.map .int) m.shape plan n)
    (hnil : n.shape = []) :
    a.indexResult mem alloc ints = .ok (.scalar (mem (f.element (m.map (n.map []))))) := by
  cases hs : a.strided with
  | some v =>
    have hsome : a.strided.isSome := by
      rw [hs]
      rfl
    rw [PyArray.indexResult, h.stridedElement_of_planOf hf hsome hints hn hnil]
    rfl
  | none =>
    have he : a.stridedElement ints = .ok none := by simp only [PyArray.stridedElement, hs]
    have hg := h.get_of_planOf mem hf hs hints hn hnil
    rw [PyArray.indexResult, he]
    simp only [hs, Option.isSome_none, Bool.false_eq_true, ↓reduceIte, hg]
    rfl

theorem transposed (hf : f.Fits) (h : Denotes f m a) (halloc : alloc < wordModulus)
    (hok : a.transposed alloc = .ok b) :
    Denotes f (m.comp ⟨m.shape.reverse, List.reverse⟩) b := by
  have hshape : a.layoutOf.shape = m.shape := a.layout_shape.trans h.shape
  have hrev : a.layoutOf.reversed.shape = m.shape.reverse := by
    rw [← hshape, Layout.reversed]
  have hbytes : ∀ s ∈ a.layoutOf.reversed.strides, ByteStride a.dtype s := fun s hs =>
    h.byteStrides s (List.mem_reverse.mp hs)
  refine h.viewFromLayout hf (transpose_into m.shape) ?_ (reversed_wf h.wf) hbytes hrev ?_ halloc hok
  · intro d hd
    exact h.usize d (List.mem_reverse.mp hd)
  · intro idx hidx
    exact reversed_addr h.wf (hrev ▸ hidx)

/-- Every step that succeeds follows NumPy's rule for it. -/
theorem runStep (hf : f.Fits) (h : Denotes f m a) (halloc : alloc < wordModulus)
    (hres : step.Resolved a.shape) (hok : a.runStep mem alloc step = .ok r) :
    ∃ n, numpyStep step m.shape = some n ∧ Shows f mem (m.comp n) r := by
  cases step with
  | index key =>
    obtain ⟨⟨⟩, hcheck, hrest⟩ := bind_eq_ok.mp hok
    have hsel := checkKey_ok hcheck
    split at hrest
    · rename_i ints hints
      rw [numpyStep, numpyIndex_of_onlyInts hints]
      rw [(onlyInts_some hints).1] at hsel
      exact h.indexResult hf halloc (isizeSelectors_ints.mp hsel) hrest
    · obtain ⟨v, hv, hr⟩ := bind_eq_ok.mp hrest
      cases hr
      exact h.selectResult hf hsel (h.shape ▸ hres) halloc hv
  | transpose =>
    obtain ⟨v, hv, hr⟩ := bind_eq_ok.mp hok
    cases hr
    exact ⟨_, rfl, h.transposed hf halloc hv⟩

end Denotes

/-- Integers in range, one for each axis, read the element they name. -/
theorem PyArray.Sound.indexResult_ints {T : Type} {a : PyArray} (h : a.Sound) (mem : ℕ → T)
    (alloc : ℕ) {ints : List ℤ}
    (hints : List.Forall₂ (fun (i : ℤ) (d : ℕ) => -(d:ℤ) ≤ i ∧ i < d) ints a.shape) :
    InRange a.shape (List.zipWith coordinate a.shape ints) ∧
      a.indexResult mem alloc ints =
        .ok (.scalar (mem (a.elementAddress (List.zipWith coordinate a.shape ints)))) := by
  obtain ⟨plan, n, hn, hnil, hmap⟩ := planOf_of_forall₂ hints
  have hin : InRange a.shape (n.map []) := hn.into.inRange [] (hnil ▸ .nil)
  have hdims := h.denotes.isize_shape h.frame_fits hin.prod_pos.ne'
  refine ⟨hmap ▸ hin, ?_⟩
  rw [h.denotes.indexResult_full h.frame_fits ?_ hn hnil, ← hmap, ← a.element_frame]
  · rfl
  intro i hi
  obtain ⟨k, hk, rfl⟩ := List.getElem_of_mem hi
  have hk' : k < a.shape.length := hints.length_eq ▸ hk
  have hr := (List.forall₂_iff_get.mp hints).2 k hk hk'
  have hle := hdims _ (List.getElem_mem hk')
  rw [isizeMax_eq] at hle
  simp only [List.get_eq_getElem] at hr
  omega

/-- The arrays reached from `o` by steps that succeed, each with the address the
allocator gave it for a new buffer. -/
inductive Chain {T : Type} (mem : ℕ → T) (o : PyArray) : List Step → PyArray → Prop
  | owner : Chain mem o [] o
  | step {steps : List Step} {a b : PyArray} {step : Step} {alloc : ℕ} (chain : Chain mem o steps a)
      (address : alloc < wordModulus) (resolved : step.Resolved a.shape)
      (run : a.runStep mem alloc step = .ok (.array b)) : Chain mem o (steps ++ [step]) b

theorem numpyChain_append (steps : List Step) (step : Step) (shape : List ℕ) :
    numpyChain (steps ++ [step]) shape =
      (numpyChain steps shape).bind fun m => (numpyStep step m.shape).map m.comp := by
  induction steps generalizing shape with
  | nil =>
    show _ = (numpyStep step shape).map (IndexMap.refl shape).comp
    cases h : numpyStep step shape <;> simp [numpyChain, h, IndexMap.comp, IndexMap.refl]
  | cons s steps ih =>
    simp only [List.cons_append, numpyChain]
    cases numpyStep s shape with
    | none => rfl
    | some m =>
      simp only [Option.bind_eq_bind, Option.bind_some, ih]
      cases numpyChain steps m.shape with
      | none => rfl
      | some n => cases h : numpyStep step n.shape <;> simp [IndexMap.comp, h]

section chain

variable {T : Type} {mem : ℕ → T} {o a : PyArray} {steps : List Step}

theorem Chain.denotes (ho : o.OwnerWf) (h : Chain mem o steps a) :
    ∃ m, numpyChain steps o.shape = some m ∧ Denotes o.frame m a := by
  have hf := ho.sound.frame_fits
  induction h with
  | owner => exact ⟨.refl o.shape, rfl, ho.sound.denotes⟩
  | step _ address resolved run ih =>
    obtain ⟨m, hm, hd⟩ := ih
    obtain ⟨n, hn, hb⟩ := hd.runStep hf address resolved run
    refine ⟨m.comp n, ?_, hb⟩
    rw [numpyChain_append, hm, Option.bind_some, hn, Option.map_some]

/-- Views denote composed index maps: the array at the end of a chain has NumPy's
shape, its elements are the owner's at the composed index, each inside the
owner's buffer, distinct for distinct indices, and a full integer index of it
yields the element stored there. -/
theorem chain_denotes_composed_map (ho : o.OwnerWf) (h : Chain mem o steps a) :
    ∃ m, numpyChain steps o.shape = some m ∧ a.shape = m.shape ∧
      (∀ idx, InRange a.shape idx →
        InRange o.shape (m.map idx) ∧ flat o.shape (m.map idx) < o.len ∧
          a.elementAddress idx = o.ptr+o.itemsize*flat o.shape (m.map idx)) ∧
      (∀ i j, InRange a.shape i → InRange a.shape j →
        a.elementAddress i = a.elementAddress j → i = j) ∧
      (∀ ints, List.Forall₂ (fun (i : ℤ) (d : ℕ) => -(d:ℤ) ≤ i ∧ i < d) ints a.shape →
        ∀ alloc, a.indexResult mem alloc ints =
          .ok (.scalar (mem (a.elementAddress (List.zipWith coordinate a.shape ints))))) ∧
      ∀ step alloc v, alloc < wordModulus → step.Resolved a.shape →
        a.runStep mem alloc step = .ok (.scalar v) →
          ∃ n, numpyChain (steps ++ [step]) o.shape = some n ∧ n.shape = [] ∧
            v = mem (o.ptr+o.itemsize*flat o.shape (n.map [])) := by
  obtain ⟨m, hm, hd⟩ := h.denotes ho
  have hf := ho.sound.frame_fits
  have haddr {idx : List ℕ} (hidx : InRange m.shape idx) :
      a.elementAddress idx = o.slot (flat o.shape (m.map idx)) := by
    rw [hd.elementAddress hidx]
    exact ho.element (hd.into.inRange idx hidx)
  refine ⟨m, hm, hd.shape, ?_, ?_, ?_, ?_⟩
  · intro idx hidx
    rw [hd.shape] at hidx
    have hin : InRange o.shape (m.map idx) := hd.into.inRange idx hidx
    exact ⟨hin, ho.len_eq ▸ flat_lt hin, haddr hidx⟩
  · intro i j hi hj he
    rw [hd.shape] at hi hj
    rw [haddr hi, haddr hj, PyArray.slot, PyArray.slot, add_right_inj] at he
    have hflat := Nat.eq_of_mul_eq_mul_left o.dtype.itemsize_pos he
    have hmap := flat_injective (hd.into.inRange i hi) (hd.into.inRange j hj) hflat
    exact hd.into.injective i j hi hj hmap
  · intro ints hints alloc
    exact ((hd.sound hf).indexResult_ints mem alloc hints).2
  · intro step alloc v halloc hres hrun
    obtain ⟨n, hn, hnil, hinto, hv⟩ := hd.runStep hf halloc hres hrun
    refine ⟨m.comp n, ?_, hnil, ?_⟩
    · rw [numpyChain_append, hm, Option.bind_some, hn, Option.map_some]
    · have hin : InRange (m.comp n).shape [] := by
        rw [hnil]
        exact .nil
      rw [hv, ho.element (hinto.inRange [] hin)]
      rfl

theorem gridReversed_ndim : [3,2].length ≤ maxNdim := by decide

/-- `grid[::-1, 1:4:2]`. -/
def gridReversed : PyArray :=
  ⟨.float64, ⟨[3,2], [16,8], gridReversed_ndim, by decide⟩, 8192, 6, none,
    some ⟨⟨.float64,4096,12⟩, 4168, [-32,16]⟩⟩

/-- `grid[::-1, 1:4:2].T`. -/
def gridTransposed : PyArray :=
  ⟨.float64, ⟨[2,3], [24,8], by decide, by decide⟩, 9216, 6, none,
    some ⟨⟨.float64,4096,12⟩, 4168, [16,-32]⟩⟩

theorem chain_gridTransposed : Chain (fun p => p) grid
    [.index [.slice 2 (-1) (-1), .slice 1 4 2], .transpose] gridTransposed := by
  have hsel : Chain (fun p => p) grid [.index [.slice 2 (-1) (-1), .slice 1 4 2]] gridReversed := by
    refine .step .owner (show 8192 < wordModulus by decide) ?_ (by decide +kernel)
    exact ⟨by unfold ResolvedSlice; decide, by unfold ResolvedSlice; decide, trivial⟩
  exact .step hsel (show 9216 < wordModulus by decide) trivial (by decide +kernel)

theorem chain_denotes_composed_map_grid :
    gridTransposed.elementAddress [1,0] = 4096+8*11 ∧
      gridTransposed.indexResult (fun p => p) 0 [-1,0] = .ok (.scalar (4096+8*11)) := by
  obtain ⟨m, hm, -, haddr, -, hfull, -⟩ :=
    chain_denotes_composed_map grid_ownerWf chain_gridTransposed
  have hv := hfull [-1,0] (by decide) 0
  cases hm
  have ha := (haddr [1,0] (by decide)).2.2
  have hm : List.zipWith coordinate gridTransposed.shape [-1,0] = [1,0] := by decide
  rw [hm, ha] at hv
  exact ⟨ha, hv⟩

end chain

end LightArray
