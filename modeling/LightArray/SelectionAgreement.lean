import LightArray.Select
import LightArray.ViewStep

namespace LightArray
open MachineWord RowMajor

/-- One of the integers has the property on its axis. -/
def SomeInt (P : ℕ → ℤ → Prop) (shape : List ℕ) (sels : List Selector) : Prop :=
  ∃ i len, (Selector.int i, len) ∈ sels.zip shape ∧ P len i

/-- An integer is no index of its axis. -/
def OutOfRange : List ℕ → List Selector → Prop := SomeInt fun len i => ¬ (-(len:ℤ) ≤ i ∧ i < len)

/-- A negative integer counts back to an element past `isize::MAX`. -/
def CountsPast : List ℕ → List Selector → Prop := SomeInt fun len i => i < 0 ∧ 2^63 ≤ i+(len:ℤ)

section plan

variable {P : ℕ → ℤ → Prop} {sels : List Selector} {shape : List ℕ} {plan : List PlanAxis} {m : IndexMap}

@[simp] theorem not_someInt_nil_left : ¬ SomeInt P [] sels := by simp [SomeInt]

@[simp] theorem not_someInt_nil_right : ¬ SomeInt P shape [] := by simp [SomeInt]

@[simp] theorem someInt_int {len : ℕ} {i : ℤ} : SomeInt P (len :: shape) (.int i :: sels) ↔ P len i ∨ SomeInt P shape sels := by
  simp only [SomeInt, List.zip_cons_cons, List.mem_cons, Prod.mk.injEq, Selector.int.injEq]
  constructor
  · rintro ⟨i', len', ⟨rfl, rfl⟩ | hmem, hP⟩
    · exact .inl hP
    · exact .inr ⟨i', len', hmem, hP⟩
  · rintro (hP | ⟨i', len', hmem, hP⟩)
    · exact ⟨i, len, .inl ⟨rfl, rfl⟩, hP⟩
    · exact ⟨i', len', .inr hmem, hP⟩

@[simp] theorem someInt_slice {len : ℕ} {start stop step : ℤ} :
    SomeInt P (len :: shape) (.slice start stop step :: sels) ↔ SomeInt P shape sels := by
  simp [SomeInt]

theorem exists_normalizeIndex {len axis : ℕ} {i : ℤ} (hlen : len < wordModulus) (hi : -(2^63) ≤ i ∧ i < 2^63) :
    (∃ k, normalizeIndex len i axis = .ok k) ↔ (-(len:ℤ) ≤ i ∧ i < len) ∧ ¬ (i < 0 ∧ 2^63 ≤ i+(len:ℤ)) := by
  simp only [normalizeIndex_iff hlen hi, exists_and_left, exists_eq, and_true, not_and, not_le]

theorem exists_bind_ok {α β γ : Type} {x : Except Failure α} {y : Except Failure β} {f : α → β → γ} :
    (∃ c, (do let a ← x; let b ← y; .ok (f a b) : Except Failure γ) = .ok c) ↔ (∃ a, x = .ok a) ∧ ∃ b, y = .ok b := by
  cases x <;> cases y <;> simp [bind, Except.bind]

/-- A plan is made unless one of the integers fails. -/
theorem exists_planLoop {axis : ℕ} (hdims : ∀ d ∈ shape, d < wordModulus) (hints : IsizeSelectors sels) :
    (∃ r, planLoop axis shape sels = .ok r) ↔ ¬ OutOfRange shape sels ∧ ¬ CountsPast shape sels := by
  induction shape generalizing axis sels with
  | nil => simp [planLoop, OutOfRange, CountsPast]
  | cons len shape ih =>
    have hlen := hdims len List.mem_cons_self
    have hdims' : ∀ d ∈ shape, d < wordModulus := fun d hd => hdims d (List.mem_cons_of_mem _ hd)
    cases sels with
    | nil => simp [planLoop_nil, OutOfRange, CountsPast]
    | cons sel sels =>
      have hints' : IsizeSelectors sels := fun j hj => hints j (List.mem_cons_of_mem _ hj)
      have hrest : (∃ r, planLoop (axis+1) shape sels = .ok r) ↔ _ := ih hdims' hints'
      cases sel with
      | int i =>
        have hnorm : (∃ k, normalizeIndex len i axis = .ok k) ↔ _ := exists_normalizeIndex hlen (hints i List.mem_cons_self)
        rw [planLoop, exists_bind_ok, hnorm, hrest]
        simp only [OutOfRange, CountsPast, someInt_int, not_or, not_not]
        tauto
      | slice start stop step =>
        simp only [OutOfRange, CountsPast, someInt_slice] at hrest ⊢
        rw [← hrest, planLoop]
        cases planLoop (axis+1) shape sels <;> simp [bind, Except.bind]

theorem exists_selectionPlan {s : ℕ} {d : Dims s} (hdims : ∀ n ∈ d.shape, n < wordModulus) (hints : IsizeSelectors sels) :
    (∃ r, d.selectionPlan sels = .ok r) ↔ ¬ d.ndim < sels.length ∧ ¬ OutOfRange d.shape sels ∧ ¬ CountsPast d.shape sels := by
  unfold Dims.selectionPlan
  split
  · rename_i hmany
    exact iff_of_false nofun fun h => h.1 hmany
  · rename_i hfew
    rw [exists_planLoop hdims hints, and_iff_right hfew]

theorem PlanOf.length_plan (h : PlanOf sels shape plan m) : plan.length = shape.length := by
  induction h with
  | rest shape => exact List.length_map _
  | int _ _ _ ih => rw [List.length_cons, List.length_cons, ih]
  | slice _ _ ih => rw [List.length_cons, List.length_cons, ih]

theorem PlanOf.length_shape_le (h : PlanOf sels shape plan m) : m.shape.length ≤ shape.length := by
  induction h with
  | rest shape => exact le_rfl
  | int _ _ _ ih => exact Nat.le_succ_of_le ih
  | slice _ _ ih => exact Nat.succ_le_succ ih

theorem asUsize_lt_of_cast {z : ℤ} {c len : ℕ} (hz : (z : Word) = c) (hc : c < len) (hlen : len < wordModulus) :
    asUsize z < len := by
  have heq : asUsize z = c := by
    apply eq_of_cast_eq (asUsize_lt z) (hc.trans hlen)
    rw [cast_asUsize, hz]
  rwa [heq]

/-- Every position a plan visits is inside its axis. -/
theorem PlanOf.visited (h : PlanOf sels shape plan m) (hdims : ∀ d ∈ shape, d < wordModulus) {p : PlanAxis} {len i : ℕ}
    (hp : (p, len) ∈ plan.zip shape) (hi : i < p.count) : asUsize (asIsize p.start+p.step*i) < len := by
  induction h with
  | rest shape =>
    rw [List.zip_map_left, List.zip_eq_zipWith, List.zipWith_self, List.map_map] at hp
    obtain ⟨d, hd, he⟩ := List.mem_map.mp hp
    cases he
    refine asUsize_lt_of_cast ?_ hi (hdims d hd)
    push_cast [cast_asIsize]
    ring
  | @int sels shape plan m len' k lower upper _ ih =>
    rw [List.zip_cons_cons, List.mem_cons] at hp
    rcases hp with he | hp
    · cases he
      obtain rfl : i = 0 := Nat.lt_one_iff.mp hi
      refine asUsize_lt_of_cast ?_ (coordinate_lt lower upper) (hdims len List.mem_cons_self)
      push_cast [cast_asIsize]
      ring
    · exact ih (fun d hd => hdims d (List.mem_cons_of_mem _ hd)) hp
  | slice resolved _ ih =>
    rw [List.zip_cons_cons, List.mem_cons] at hp
    rcases hp with he | hp
    · cases he
      have hpos := slice_position resolved hi
      exact asUsize_lt_of_cast (slice_position_cast resolved hi) (by omega) (hdims len List.mem_cons_self)
    · exact ih (fun d hd => hdims d (List.mem_cons_of_mem _ hd)) hp

/-- A window is found only if no axis is empty. -/
theorem planViewLoop_count_ne_zero {offset off : ℕ} {started : Bool} {strides : List ℕ} (hplan : plan.length = shape.length)
    (hlen : strides.length = shape.length) (hw : planViewLoop offset started plan shape strides = .window off) :
    ∀ p ∈ plan, p.count ≠ 0 := by
  induction plan generalizing offset started shape strides with
  | nil => exact List.forall_mem_nil _
  | cons p plan ih =>
    match shape, strides with
    | [], _ => simp at hplan
    | _ :: _, [] => simp at hlen
    | len :: shape, stride :: strides =>
      rw [planViewLoop] at hw
      split at hw
      · cases hw
      · rename_i hne
        have hrest : ∃ off' started', planViewLoop off' started' plan shape strides = .window off := by
          split at hw
          · split at hw
            · exact ⟨_, _, hw⟩
            · cases hw
          · split at hw
            · split at hw
              · cases hw
              · exact ⟨_, _, hw⟩
            · exact ⟨_, _, hw⟩
        obtain ⟨_, _, hrest⟩ := hrest
        exact List.forall_mem_cons.mpr ⟨hne, ih (by simpa using hplan) (by simpa using hlen) hrest⟩

theorem planViewLoop_lt {offset off : ℕ} {started : Bool} {strides : List ℕ} (hoff : offset < wordModulus)
    (hw : planViewLoop offset started plan shape strides = .window off) : off < wordModulus := by
  induction plan generalizing offset started shape strides with
  | nil =>
    cases hw
    exact hoff
  | cons p plan ih =>
    match shape, strides with
    | [], _ => cases hw; exact hoff
    | _ :: _, [] => cases hw; exact hoff
    | len :: shape, stride :: strides =>
      rw [planViewLoop] at hw
      split at hw
      · cases hw
      · split at hw
        · split at hw
          · exact ih hoff hw
          · cases hw
        · split at hw
          · split at hw
            · cases hw
            · exact ih (wrapUsize_lt _) hw
          · exact ih (wrapUsize_lt _) hw

theorem PlanOf.prod_ne_zero (h : PlanOf sels shape plan m) (hplan : ∀ p ∈ plan, p.count ≠ 0) : m.shape.prod ≠ 0 := by
  induction h with
  | rest shape =>
    rw [List.forall_mem_map] at hplan
    rw [IndexMap.refl, Ne, List.prod_eq_zero_iff]
    exact fun hmem => hplan 0 hmem rfl
  | int _ _ _ ih => exact ih (List.forall_mem_cons.mp hplan).2
  | slice _ _ ih =>
    obtain ⟨hhead, htail⟩ := List.forall_mem_cons.mp hplan
    exact mul_ne_zero hhead (ih htail)

end plan

namespace NdArray

variable {t : DType} {T : Type} {a z : NdArray t T} {sels : List Selector} {plan : List PlanAxis} {m : IndexMap}

/-- The elements an index map selects, as an array. -/
structure Selected (a : NdArray t T) (m : IndexMap) (z : NdArray t T) : Prop where
  shape : z.shape = m.shape
  count : z.data.length = z.shape.prod
  elements : ∀ idx, InRange m.shape idx → z.at? idx = a.at? (m.map idx)

theorem Selected.unique {w : NdArray t T} (h : Selected a m z) (h' : Selected a m w) : z = w := by
  refine ext_at? h.count h'.count (h.shape.trans h'.shape.symm) fun idx hidx => ?_
  rw [h.shape] at hidx
  rw [h.elements idx hidx, h'.elements idx hidx]

theorem exists_empty (a : NdArray t T) (hlen : m.shape.length ≤ maxNdim) (hzero : m.shape.prod = 0) :
    ∃ z, new t [] m.shape = .ok z ∧ Selected a m z := by
  have hcount : wrapProduct m.shape = ([] : List T).length := wrapProduct_zero hzero
  obtain ⟨z, hz, hshape, hdata⟩ := exists_new (t := t) hlen hcount
  refine ⟨z, hz, hshape, ?_, fun idx hidx => ?_⟩
  · rw [hdata, hshape, hzero]
    rfl
  · exact absurd hzero hidx.prod_pos.ne'

theorem elemStrides_of_pos (ha : a.Counted) (hne : a.shape.prod ≠ 0) : a.dims.elemStrides = unitStrides a.shape :=
  Dims.elemStrides_exact _ t.itemsize_pos hne ha.prod_fits

/-- The copying selection of a plan. -/
theorem gatherPlan_selected (ha : a.Counted) (h : PlanOf sels a.shape plan m) (hdim : a.ndim ≠ 0) :
    ∃ z, a.gatherPlan plan m.shape = .ok z ∧ Selected a m z := by
  have hle := h.into.prod_le
  have hfit : t.itemsize*m.shape.prod ≤ isizeMax := by
    calc
      t.itemsize*m.shape.prod ≤ t.itemsize*a.shape.prod := Nat.mul_le_mul_left _ hle
      _ ≤ isizeMax := ha.prod_fits
  have hlt : m.shape.prod < wordModulus := lt_wordModulus_of_fits hfit
  have hlen : m.shape.length ≤ maxNdim := h.length_shape_le.trans a.ndim_le
  rw [gatherPlan, wrapProduct_of_lt hlt, withCapacity_of_le hfit]
  rcases Nat.eq_zero_or_pos m.shape.prod with hzero | hpos
  · obtain ⟨z, hz, hsel⟩ := exists_empty a hlen hzero
    refine ⟨z, ?_, hsel⟩
    rw [hzero, if_neg (lt_irrefl 0)]
    exact hz
  · have hne : a.shape.prod ≠ 0 := (hpos.trans_le hle).ne'
    have hdata : a.data.length < wordModulus := ha.count ▸ ha.prod_lt
    obtain ⟨out, hout, hall⟩ := h.reads hdata 0 (by rw [ha.count, zero_add])
    have hplan : plan ≠ [] := by
      rintro rfl
      exact hdim h.length_plan.symm
    have hgather : gather a.data plan a.dims.elemStrides 0 = .ok out := by
      rw [elemStrides_of_pos ha hne, ← hout, gatherRest, if_neg (by simpa using hplan)]
    have hcount : m.shape.prod = out.length := by rw [← hall.length_eq, length_enum]
    obtain ⟨z, hz, hshape, hdata⟩ := exists_new (t := t) hlen ((wrapProduct_of_lt hlt).trans hcount)
    refine ⟨z, ?_, hshape, ?_, fun idx hidx => ?_⟩
    · rw [if_pos hpos, hgather]
      exact hz
    · rw [hdata, hshape, hcount]
    · rw [← hshape, ← hdata] at hall
      obtain ⟨v, hv, hsource⟩ := at?_of_forall₂ hall (hshape ▸ hidx)
      rw [zero_add] at hsource
      rw [hv, at?, hsource]

/-- A window starts at the first element selected and runs in row-major order. -/
theorem window_flat (ha : a.Counted) (h : PlanOf sels a.shape plan m) {offset : ℕ} (hw : a.dims.planOutcome plan = .window offset) :
    offset+m.shape.prod ≤ a.data.length ∧ ∀ idx, InRange m.shape idx → offset+flat m.shape idx = flat a.shape (m.map idx) := by
  have hstrides : a.dims.elemStrides.length = a.shape.length := by
    rw [Dims.elemStrides, List.length_map, a.dims.length_strides]
    rfl
  have hmne : m.shape.prod ≠ 0 := h.prod_ne_zero (planViewLoop_count_ne_zero h.length_plan hstrides hw)
  have hle := h.into.prod_le
  have hfit : a.shape.prod ≤ isizeMax := (Nat.le_mul_of_pos_left _ t.itemsize_pos).trans ha.prod_fits
  rw [isizeMax_eq] at hfit
  have hlt : offset < wordModulus := planViewLoop_lt (by decide) hw
  rw [Dims.planOutcome, elemStrides_of_pos ha (by omega)] at hw
  have hword (idx : List ℕ) (hidx : InRange m.shape idx) : (offset : Word)+flat m.shape idx = flat a.shape (m.map idx) := by
    rw [h.planViewLoop_window hw hidx, Nat.cast_zero, zero_add]
  have hin (idx : List ℕ) (hidx : InRange m.shape idx) : flat a.shape (m.map idx) < a.shape.prod := flat_lt (h.into.inRange idx hidx)
  have hfirst : offset < a.shape.prod := by
    have hzeros := inRange_zeros (Nat.pos_of_ne_zero hmne)
    have hz := hword _ hzeros
    rw [flat_zeros, Nat.cast_zero, add_zero] at hz
    have heq : offset = _ := eq_of_cast_eq hlt ((hin _ hzeros).trans ha.prod_lt) hz
    exact heq ▸ hin _ hzeros
  have hflat (idx : List ℕ) (hidx : InRange m.shape idx) : offset+flat m.shape idx = flat a.shape (m.map idx) := by
    have hidxlt := flat_lt hidx
    apply eq_of_cast_eq (by rw [wordModulus_eq]; omega) ((hin idx hidx).trans ha.prod_lt)
    push_cast
    exact hword idx hidx
  refine ⟨?_, hflat⟩
  have hlast : m.shape.prod-1 < m.shape.prod := by omega
  have hend := hflat _ (inRange_unflat hlast)
  rw [flat_unflat hlast] at hend
  have hendlt := hin _ (inRange_unflat hlast)
  rw [ha.count]
  omega

theorem planView_selected (ha : a.Counted) (h : PlanOf sels a.shape plan m) :
    ∃ w, a.planView plan m.shape = .ok w ∧ ∀ z, w = some z → Selected a m z := by
  have hlen : m.shape.length ≤ maxNdim := h.length_shape_le.trans a.ndim_le
  unfold planView
  split
  · rename_i hempty
    obtain ⟨z, hz, hsel⟩ := exists_empty a hlen (h.planViewLoop_empty hempty)
    refine ⟨some z, by rw [hz]; rfl, ?_⟩
    rintro _ ⟨⟩
    exact hsel
  · exact ⟨none, rfl, nofun⟩
  · rename_i offset hwindow
    obtain ⟨hend, hflat⟩ := window_flat ha h hwindow
    obtain ⟨d, hd, hshape⟩ := Dims.withItemsize_of_le t.itemsize hlen
    have hlt : a.data.length < wordModulus := ha.count ▸ ha.prod_lt
    have hsize : d.size = m.shape.prod := by
      rw [Dims.size, hshape]
      exact wrapProduct_of_lt (by omega)
    have hcount : ((a.data.drop offset).take d.size).length = d.shape.prod := by
      rw [List.length_take, List.length_drop, hsize, hshape]
      omega
    refine ⟨some ⟨d, (a.data.drop offset).take d.size⟩, ?_, ?_⟩
    · -- the end of the window is checked against the buffer
      have hfits : ¬ a.data.length < wrapUsize (offset+d.size) := by
        rw [hsize, wrapUsize_of_lt (by omega)]
        omega
      rw [hd]
      exact if_neg hfits
    · rintro _ ⟨⟩
      refine ⟨hshape, hcount, fun idx hidx => ?_⟩
      have hidxlt := flat_lt hidx
      show ((a.data.drop offset).take d.size)[flat d.shape idx]? = _
      rw [hshape, List.getElem?_take_of_lt (by omega), List.getElem?_drop, hflat idx hidx]
      rfl

/-- What is read through the layout of a plan. -/
theorem gatherFrom_selected (ha : a.Counted) (h : PlanOf sels a.shape plan m) {mem : ℕ → T} {ptr : ℕ} (hptr : ptr < wordModulus)
    (hstored : Stored mem ptr a) {cache : NdArray t T} (hshape : cache.shape = ((a.layoutAt ptr).select plan sels).shape)
    (hcount : cache.data.length = cache.shape.prod) :
    ∃ z, gatherFrom mem cache ((a.layoutAt ptr).select plan sels).ptr ((a.layoutAt ptr).select plan sels).strides = .ok z ∧
      Selected a m z := by
  obtain ⟨hwf, hs, haddr⟩ := h.selectLoop ptr a.dims.strides a.dims.length_strides hptr
  have hs' : cache.shape = m.shape := hshape.trans hs
  have hlt : cache.shape.prod < wordModulus := by
    rw [hs']
    exact h.into.prod_le.trans_lt ha.prod_lt
  refine ⟨_, gatherFrom_layout hwf hcount hlt hshape.symm, hs', ?_, fun idx hidx => ?_⟩
  · rw [List.length_map, length_enum]
    rfl
  · obtain ⟨v, hv⟩ := exists_at? ha.count (h.into.inRange idx hidx)
    rw [at?_of_enum rfl (hs' ▸ hidx), hv, ← hstored.read hv]
    exact congrArg (fun w : Word => some (mem w.val)) (haddr idx hidx)

/-- A selection read in three ways: the copy, the window if there is one, and what is read through
the strided layout all are the array of the elements that the index map selects. -/
structure Selects (a : NdArray t T) (sels : List Selector) (plan : List PlanAxis) (outShape : List ℕ) (m : IndexMap)
    (z : NdArray t T) : Prop where
  numpy : numpySelect sels a.shape = some m
  shape : m.shape = outShape
  inRange : ∀ idx, InRange m.shape idx → InRange a.shape (m.map idx)
  selected : Selected a m z
  copied : a.select sels = .ok z
  window : ∃ w, a.planView plan outShape = .ok w ∧ ∀ v, w = some v → v = z
  strided : ∀ (mem : ℕ → T) (ptr : ℕ) (cache : NdArray t T), ptr < wordModulus → Stored mem ptr a →
    cache.shape = ((a.layoutAt ptr).select plan sels).shape → cache.data.length = cache.shape.prod →
    gatherFrom mem cache ((a.layoutAt ptr).select plan sels).ptr ((a.layoutAt ptr).select plan sels).strides = .ok z

/-- Basic selection as it should be: it fails on too many selectors and on integers out of range
only, visits positions of the axes, and reads the same in every way. -/
structure SelectionsAgree (a : NdArray t T) (sels : List Selector) : Prop where
  fails : (∃ e, a.dims.selectionPlan sels = .error e) ↔ a.ndim < sels.length ∨ OutOfRange a.shape sels
  visited : ∀ plan outShape, a.dims.selectionPlan sels = .ok (plan, outShape) →
    ∀ p len, (p, len) ∈ plan.zip a.shape → ∀ i < p.count, asUsize (asIsize p.start+p.step*i) < len
  selects : ∀ plan outShape, a.dims.selectionPlan sels = .ok (plan, outShape) → ∃ m z, Selects a sels plan outShape m z

/-- The three readings of a plan are one array. -/
theorem selects_of_plan (ha : a.Counted) (h : PlanOf sels a.shape plan m) (hdim : a.ndim ≠ 0)
    (hplan : a.dims.selectionPlan sels = .ok (plan, m.shape)) : ∃ z, Selects a sels plan m.shape m z := by
  obtain ⟨z, hz, hsel⟩ := gatherPlan_selected ha h hdim
  obtain ⟨w, hw, hwindow⟩ := planView_selected ha h
  refine ⟨z, h.numpySelect, rfl, h.into.inRange, hsel, ?_, ⟨w, hw, fun v hv => (hwindow v hv).unique hsel⟩, ?_⟩
  · rw [select, hplan]
    exact hz
  · intro mem ptr cache hptr hstored hshape hcount
    obtain ⟨g, hg, hgsel⟩ := gatherFrom_selected ha h hptr hstored hshape hcount
    rw [hg, hgsel.unique hsel]

/-- Nothing selected from an array without dimensions: the recursion has no axis to start with. -/
theorem select_panics (ha : a.Counted) (hdim : a.ndim = 0) : a.select [] = .error (.panic "index out of bounds") := by
  have hshape : a.dims.shape = [] := List.eq_nil_of_length_eq_zero hdim
  have hplan : a.dims.selectionPlan [] = .ok ([], []) := by
    have hfew : ¬ a.dims.ndim < ([] : List Selector).length := Nat.not_lt_zero _
    rw [Dims.selectionPlan, if_neg hfew, hshape]
    rfl
  have hcap : withCapacity t (wrapProduct []) = .ok () := by
    have hfit := ha.prod_fits
    rw [show a.shape = [] from hshape] at hfit
    exact withCapacity_of_le hfit
  rw [select, hplan]
  show a.gatherPlan [] [] = _
  rw [gatherPlan, hcap]
  rfl

/-- The three implementations of basic selection agree unless nothing is selected from an array
without dimensions, which `gather` panics on, or an index in range counts back past `isize::MAX`. -/
theorem selectionsAgree_iff (a : NdArray t T) (sels : List Selector) (ha : a.Counted) (hu : ∀ d ∈ a.shape, d < wordModulus)
    (hints : IsizeSelectors sels) (hres : ResolvedSelectors sels a.shape) :
    SelectionsAgree a sels ↔
      (sels.length ≤ a.ndim → ¬ OutOfRange a.shape sels → a.ndim ≠ 0 ∧ ¬ CountsPast a.shape sels) := by
  have hok : (∃ r, a.dims.selectionPlan sels = .ok r) ↔ _ := exists_selectionPlan hu hints
  have herror : (∃ e, a.dims.selectionPlan sels = .error e) ↔ ¬ ∃ r, a.dims.selectionPlan sels = .ok r := by
    cases a.dims.selectionPlan sels <;> simp
  constructor
  · intro h hfew hin
    have hnot : ¬ (a.ndim < sels.length ∨ OutOfRange a.shape sels) := not_or.mpr ⟨not_lt.mpr hfew, hin⟩
    obtain ⟨⟨plan, outShape⟩, hplan⟩ : ∃ r, a.dims.selectionPlan sels = .ok r := by
      rw [← h.fails, herror, not_not] at hnot
      exact hnot
    refine ⟨fun hdim => ?_, (hok.mp ⟨_, hplan⟩).2.2⟩
    obtain rfl : sels = [] := List.eq_nil_of_length_eq_zero (by omega)
    obtain ⟨m, z, hz⟩ := h.selects plan outShape hplan
    have hpanic := hz.copied
    rw [select_panics ha hdim] at hpanic
    cases hpanic
  · intro h
    have hfails : (∃ e, a.dims.selectionPlan sels = .error e) ↔ a.ndim < sels.length ∨ OutOfRange a.shape sels := by
      rw [herror, hok]
      by_cases hmany : a.ndim < sels.length
      · exact iff_of_true (fun hall => hall.1 hmany) (.inl hmany)
      · by_cases hout : OutOfRange a.shape sels
        · exact iff_of_true (fun hall => hall.2.1 hout) (.inr hout)
        · -- no index in range is refused either
          have hpast := (h (not_lt.mp hmany) hout).2
          exact iff_of_false (fun hall => hall ⟨hmany, hout, hpast⟩) (not_or.mpr ⟨hmany, hout⟩)
    refine ⟨hfails, fun plan outShape hplan => ?_, fun plan outShape hplan => ?_⟩
    · obtain ⟨m, hm, rfl⟩ := selectionPlan_planOf hu hints hres hplan
      exact fun p len hp i hi => hm.visited hu hp hi
    · obtain ⟨m, hm, rfl⟩ := selectionPlan_planOf hu hints hres hplan
      obtain ⟨hmany, hout, -⟩ := hok.mp ⟨_, hplan⟩
      obtain ⟨z, hz⟩ := selects_of_plan ha hm (h (not_lt.mp hmany) hout).1 hplan
      exact ⟨m, z, hz⟩

/-- A single element, without dimensions. -/
def scalarArray : NdArray .float64 ℤ := ⟨⟨[], _, by decide, rfl⟩, [5]⟩

theorem pastIsize_ndim : [0,2^63+1].length ≤ maxNdim := by decide

theorem pastIsize_strides : [8,8] = (cStrides 8 [0,2^63+1]).1 := by decide

/-- `zeros((0, 2**63+1))`. -/
def pastIsize : NdArray .float64 ℤ := ⟨⟨[0,2^63+1], [8,8], pastIsize_ndim, pastIsize_strides⟩, []⟩

/-- `pastIsize[:, -1]` is refused, and nothing can be selected from an array without dimensions. -/
theorem selections_disagree :
    (pastIsize.Counted ∧ ¬ SelectionsAgree pastIsize [.slice 0 0 1, .int (-1)]) ∧
      scalarArray.Counted ∧ ¬ SelectionsAgree scalarArray [] := by
  have hcounted : scalarArray.Counted := ⟨by decide, by decide⟩
  refine ⟨⟨⟨by decide, by decide⟩, fun h => ?_⟩, hcounted, fun h => ?_⟩
  · have hfails : ∃ e, pastIsize.dims.selectionPlan [.slice 0 0 1, .int (-1)] = .error e := ⟨_, rfl⟩
    rcases h.fails.mp hfails with hmany | ⟨i, len, hmem, hout⟩
    · exact absurd hmany (by decide)
    · have hzip : [Selector.slice 0 0 1, .int (-1)].zip pastIsize.shape = [(.slice 0 0 1, 0), (.int (-1), 2^63+1)] := rfl
      rw [hzip] at hmem
      simp only [List.mem_cons, Prod.mk.injEq, reduceCtorEq, false_and, Selector.int.injEq, List.not_mem_nil, or_false,
        false_or] at hmem
      obtain ⟨rfl, rfl⟩ := hmem
      exact hout (by decide)
  · obtain ⟨m, z, hz⟩ := h.selects [] [] rfl
    have hpanic := hz.copied
    rw [select_panics hcounted rfl] at hpanic
    cases hpanic

theorem threeRows_ndim : [3,2].length ≤ maxNdim := by decide

theorem threeRows_strides : [16,8] = (cStrides 8 [3,2]).1 := by decide

/-- Three rows of two. -/
def threeRows : NdArray .float64 ℤ := ⟨⟨[3,2], [16,8], threeRows_ndim, threeRows_strides⟩, [1,2,3,4,5,6]⟩

theorem selectionsAgree_threeRows : SelectionsAgree threeRows [.slice 2 (-1) (-2), .int (-1)] := by
  refine (selectionsAgree_iff threeRows _ ⟨by decide, by decide⟩ (by decide) ?_ ?_).mpr ?_
  · rintro i hi
    simp only [List.mem_cons, Selector.int.injEq, reduceCtorEq, List.not_mem_nil, or_false, false_or] at hi
    subst hi
    decide
  · exact ⟨.inr (by decide), trivial⟩
  · rintro - -
    refine ⟨by decide, ?_⟩
    show ¬ SomeInt _ [3,2] _
    simp [SomeInt]

end NdArray

end LightArray
