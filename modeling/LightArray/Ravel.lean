import LightArray.BufferContract
import LightArray.Contents

namespace LightArray
open MachineWord RowMajor

/-- An argument as the test of the order sees it. -/
inductive OrderArg
  | str (s : String)
  | other
  deriving DecidableEq, Repr

/-- `*args` and `**kwargs` of a call. -/
structure OrderCall where
  args : List OrderArg
  kwargs : Option (List (String × OrderArg))

/-- Does the argument name one of C, A and K? -/
def OrderArg.native : OrderArg → Bool
  | .str o => o == "C" || o == "A" || o == "K" || o == "c" || o == "a" || o == "k"
  | .other => false

/-- Is the call bare, or only `order` in {C, A, K}? -/
def OrderCall.cOrderOnly (c : OrderCall) : Bool :=
  match c.args, c.kwargs with
  | [], none => true
  | [], some [] => true
  | [order], none => order.native
  | [order], some [] => order.native
  | [], some [(name,order)] => if name = "order" then order.native else false
  | _, _ => false

/-- The orders of the native path. -/
inductive Order
  | C
  | A
  | K
  deriving DecidableEq, Repr

def Order.letters : Order → List String
  | .C => ["C", "c"]
  | .A => ["A", "a"]
  | .K => ["K", "k"]

/-- The call asks for this order and nothing else; a bare call asks for C. -/
inductive Requests : OrderCall → Order → Prop
  | bare {kwargs : Option (List (String × OrderArg))} (h : kwargs = none ∨ kwargs = some []) :
      Requests ⟨[], kwargs⟩ .C
  | positional {o : Order} {word : String} {kwargs : Option (List (String × OrderArg))}
      (hw : word ∈ o.letters) (h : kwargs = none ∨ kwargs = some []) :
      Requests ⟨[.str word], kwargs⟩ o
  | keyword {o : Order} {word : String} (hw : word ∈ o.letters) :
      Requests ⟨[], some [("order", .str word)]⟩ o

theorem OrderArg.native_iff {x : OrderArg} :
    x.native = true ↔ ∃ (o : Order) (word : String), x = .str word ∧ word ∈ o.letters := by
  constructor
  · intro h
    cases x with
    | other => cases h
    | str word =>
      have hw : word ∈ Order.letters .C ∨ word ∈ Order.letters .A ∨ word ∈ Order.letters .K := by
        simp only [native, Bool.or_eq_true, beq_iff_eq] at h
        simp only [Order.letters, List.mem_cons, List.not_mem_nil, or_false]
        tauto
      rcases hw with hw | hw | hw
      · exact ⟨.C, word, rfl, hw⟩
      · exact ⟨.A, word, rfl, hw⟩
      · exact ⟨.K, word, rfl, hw⟩
  · rintro ⟨o, word, rfl, hw⟩
    cases o <;> simp only [Order.letters, List.mem_cons, List.not_mem_nil, or_false] at hw <;>
      rcases hw with rfl | rfl <;> decide

/-- The native path takes exactly the calls that ask for C, A or K. -/
theorem cOrderOnly_iff {c : OrderCall} : c.cOrderOnly = true ↔ ∃ o, Requests c o := by
  constructor
  · intro h
    unfold OrderCall.cOrderOnly at h
    obtain ⟨args, kwargs⟩ := c
    dsimp only at h
    split at h
    · exact ⟨.C, .bare (.inl rfl)⟩
    · exact ⟨.C, .bare (.inr rfl)⟩
    · obtain ⟨o, word, rfl, hw⟩ := OrderArg.native_iff.mp h
      exact ⟨o, .positional hw (.inl rfl)⟩
    · obtain ⟨o, word, rfl, hw⟩ := OrderArg.native_iff.mp h
      exact ⟨o, .positional hw (.inr rfl)⟩
    · split at h
      · rename_i hname
        obtain ⟨o, word, rfl, hw⟩ := OrderArg.native_iff.mp h
        exact ⟨o, hname ▸ .keyword hw⟩
      · cases h
    · cases h
  · rintro ⟨o, hc⟩
    cases hc with
    | bare h => rcases h with rfl | rfl <;> rfl
    | positional hw h =>
      have hn := OrderArg.native_iff.mpr ⟨_, _, rfl, hw⟩
      rcases h with rfl | rfl <;> exact hn
    | keyword hw => exact OrderArg.native_iff.mpr ⟨_, _, rfl, hw⟩

namespace PyArray

variable {T : Type} {a b : PyArray} {mem mem' : ℕ → T} {alloc : ℕ}

/-- `a.flatten(…)`: a copy, or none when NumPy is asked. -/
def flatten (alloc : ℕ) (mem : ℕ → T) (a : PyArray) (cache : a.Cache T) (c : OrderCall) :
    Except Failure (Option (PyArray × (ℕ → T))) :=
  if c.cOrderOnly then do
    let arr ← a.contents mem cache
    let r ← copied alloc mem arr [arr.data.length]
    .ok (some r)
  else .ok none

/-- `a.ravel(…)`: a copy of a strided view, a window otherwise. -/
def ravel (alloc : ℕ) (mem : ℕ → T) (a : PyArray) (cache : a.Cache T) (c : OrderCall) :
    Except Failure (Option (PyArray × (ℕ → T))) :=
  if c.cOrderOnly then do
    let r ← a.reshaped alloc mem cache [a.len]
    .ok (some r)
  else .ok none

/-- The two methods that list an array. -/
inductive Listing
  | flatten
  | ravel

def Listing.run (m : Listing) (alloc : ℕ) (mem : ℕ → T) (a : PyArray) (cache : a.Cache T) (c : OrderCall) :
    Except Failure (Option (PyArray × (ℕ → T))) :=
  match m with
  | .flatten => a.flatten alloc mem cache c
  | .ravel => a.ravel alloc mem cache c

/-- The addresses of the elements with the first index running fastest. -/
def columnOrder (a : PyArray) : List ℕ := (enum a.shape.reverse).map fun idx => a.elementAddress idx.reverse

/-- As many addresses as the array has elements, one after the other. -/
def memoryOrder (a : PyArray) : List ℕ :=
  (List.range a.shape.prod).map fun k => wrapUsize (a.layoutOf.ptr+k*a.itemsize)

/-- A layout in which NumPy lists columns first. -/
def ColumnsOnly (a : PyArray) : Prop :=
  a.layoutOf.ColumnMajor a.itemsize ∧ ¬ a.layoutOf.RowMajor a.itemsize

/-- `addresses` lists the elements of `a` in the order asked for. -/
def InOrder (a : PyArray) (addresses : List ℕ) : Order → Prop
  | .C => addresses = a.rowOrder
  | .A => (a.ColumnsOnly → addresses = a.columnOrder) ∧ (¬ a.ColumnsOnly → addresses = a.rowOrder)
  | .K => a.layoutOf.RowMajor a.itemsize ∨ a.layoutOf.ColumnMajor a.itemsize → addresses = a.memoryOrder

/-- Whatever the memory holds, the call returns a one-dimensional array of the
elements at `addresses`. -/
def Returns (a : PyArray) (m : Listing) (c : OrderCall) (addresses : List ℕ) : Prop :=
  ∀ (T : Type) (mem : ℕ → T) (cache : a.Cache T) (alloc : ℕ), ∃ b mem',
    m.run alloc mem a cache c = .ok (some (b,mem')) ∧ b.shape = [a.shape.prod] ∧
      b.strided = none ∧ b.data mem' = addresses.map mem

/-- The call lists the elements in the order it asks for. -/
def RespectsOrder (a : PyArray) (m : Listing) (c : OrderCall) (o : Order) : Prop :=
  ∃ addresses, a.InOrder addresses o ∧ a.Returns m c addresses

theorem elementAddress_eq_iff {idx : List ℕ} {k : ℕ} :
    a.elementAddress idx = wrapUsize (a.layoutOf.ptr+k*a.itemsize) ↔
      a.layoutOf.addr idx = a.layoutOf.ptr+a.itemsize*(k : Word) := by
  rw [← cast_elementAddress, mul_comm (a.itemsize : Word)]
  have hword : ((wrapUsize (a.layoutOf.ptr+k*a.itemsize) : ℕ) : Word) = a.layoutOf.ptr+k*(a.itemsize : Word) := by
    rw [cast_wrapUsize]
    push_cast
    rfl
  rw [← hword]
  constructor
  · exact congrArg _
  · exact eq_of_cast_eq (wrappingOffset_lt _ _) (wrapUsize_lt _)

/-- An array is row-major exactly when C order is memory order. -/
theorem rowMajor_iff_memoryOrder : a.layoutOf.RowMajor a.itemsize ↔ a.rowOrder = a.memoryOrder := by
  have hmem : a.memoryOrder =
      (enum a.shape).map fun idx => wrapUsize (a.layoutOf.ptr+flat a.shape idx*a.itemsize) := by
    rw [memoryOrder, ← map_flat_enum, List.map_map]
    rfl
  rw [hmem, rowOrder, List.map_inj_left, Layout.RowMajor, layout_shape]
  simp only [mem_enum, elementAddress_eq_iff]

theorem columnMajor_iff_memoryOrder :
    a.layoutOf.ColumnMajor a.itemsize ↔ a.columnOrder = a.memoryOrder := by
  have hmem : a.memoryOrder = (enum a.shape.reverse).map fun idx =>
      wrapUsize (a.layoutOf.ptr+flat a.shape.reverse idx*a.itemsize) := by
    rw [memoryOrder, ← List.prod_reverse, ← map_flat_enum, List.map_map]
    rfl
  rw [hmem, columnOrder, List.map_inj_left, Layout.ColumnMajor, layout_shape]
  simp only [mem_enum, elementAddress_eq_iff]
  constructor
  · intro h idx hidx
    have hr := h idx.reverse (by simpa using hidx.reverse)
    rwa [List.reverse_reverse] at hr
  · intro h idx hidx
    have hr := h idx.reverse hidx.reverse
    rwa [List.reverse_reverse] at hr

/-- On a column-major array that is not row-major the two orders differ. -/
theorem ColumnsOnly.columnOrder_ne (h : a.ColumnsOnly) : a.rowOrder ≠ a.columnOrder := by
  intro he
  have hcol := columnMajor_iff_memoryOrder.mp h.1
  exact h.2 (rowMajor_iff_memoryOrder.mpr (he.trans hcol))

/-- C order is the order asked for, but for A and K on such an array. -/
theorem inOrder_rowOrder_iff {o : Order} : a.InOrder a.rowOrder o ↔ o = .C ∨ ¬ a.ColumnsOnly := by
  cases o with
  | C => simp [InOrder]
  | A =>
    constructor
    · intro h
      exact .inr fun hc => hc.columnOrder_ne (h.1 hc)
    · rintro (h | h)
      · cases h
      · exact ⟨fun hc => absurd hc h, fun _ => rfl⟩
  | K =>
    constructor
    · intro h
      refine .inr fun hc => hc.columnOrder_ne ?_
      rw [columnMajor_iff_memoryOrder.mp hc.1]
      exact h (.inr hc.1)
    · rintro (h | h)
      · cases h
      · rintro hcontig
        have hrow : a.layoutOf.RowMajor a.itemsize := by
          by_contra hn
          exact h ⟨hcontig.resolve_left hn, hn⟩
        exact rowMajor_iff_memoryOrder.mp hrow

/-- The native path lists every array in C order. -/
theorem Sound.returns_rowOrder (h : a.Sound) (m : Listing) {c : OrderCall} (hc : c.cOrderOnly = true) :
    a.Returns m c a.rowOrder := by
  intro T mem cache alloc
  have hprod : ([a.len] : List ℕ).prod = a.len := List.prod_singleton
  have hndim : ([a.len] : List ℕ).length ≤ maxNdim := by simp [maxNdim]
  cases m with
  | flatten =>
    have hcount := h.length_contents mem
    have hwrap : wrapProduct [a.len] = (a.rowOrder.map mem).length := by
      rw [wrapProduct_of_lt (by rw [hprod]; exact h.len_lt), hprod, hcount]
    obtain ⟨⟨b, mem'⟩, hr⟩ := exists_copied (x := (⟨a.dims, a.rowOrder.map mem⟩ : NdArray a.dtype T)) alloc mem
      hndim hwrap
    obtain ⟨hb, hplain, hdata⟩ := h.copied hr
    refine ⟨b, mem', ?_, ?_, hplain, hdata⟩
    · show a.flatten alloc mem cache c = _
      rw [flatten, if_pos hc, h.contents mem cache]
      show (PyArray.copied alloc mem _ [(a.rowOrder.map mem).length] >>= _) = _
      rw [hcount, hr]
      rfl
    · rw [hb.shape_eq, h.len]
  | ravel =>
    obtain ⟨⟨b, mem'⟩, hr⟩ := h.exists_reshaped alloc mem cache hndim hprod
    obtain ⟨hb, hplain, hdata⟩ := h.reshaped hr
    refine ⟨b, mem', ?_, ?_, hplain, hdata⟩
    · show a.ravel alloc mem cache c = _
      rw [ravel, if_pos hc, hr]
      rfl
    · rw [hb.shape_eq, h.len]

theorem Sound.respects_iff (h : a.Sound) (m : Listing) {c : OrderCall} {o : Order} (hc : Requests c o) :
    a.RespectsOrder m c o ↔ o = .C ∨ ¬ a.ColumnsOnly := by
  have hrow := h.returns_rowOrder m (cOrderOnly_iff.mpr ⟨o, hc⟩)
  rw [← inOrder_rowOrder_iff]
  constructor
  · rintro ⟨addresses, hin, hret⟩
    obtain ⟨b, mem', hb, -, -, hdata⟩ := hret ℕ id (constantCache 0 a) 0
    obtain ⟨b', mem'', hb', -, -, hdata'⟩ := hrow ℕ id (constantCache 0 a) 0
    cases hb.symm.trans hb'
    have he := hdata.symm.trans hdata'
    rw [List.map_id, List.map_id] at he
    exact he ▸ hin
  · intro hin
    exact ⟨a.rowOrder, hin, hrow⟩

end PyArray

/-- `flatten` and `ravel` respect an order they accept exactly when it is C or the
array is not column-major alone. -/
theorem ravel_respects_order_iff {a : PyArray} (h : Reached (fun a op => op.Exact a) a) (m : PyArray.Listing)
    {c : OrderCall} {o : Order} (hc : Requests c o) :
    a.RespectsOrder m c o ↔ o = .C ∨ ¬ a.ColumnsOnly :=
  h.sound.respects_iff m hc

/-- `grid.T`. -/
def gridColumns : PyArray :=
  ⟨.float64, ⟨[4,3], [24,8], by decide, by decide⟩, 8192, 12, none, some ⟨⟨.float64,4096,12⟩, 4096, [8,32]⟩⟩

theorem gridColumns_reached {allowed : PyArray → ShapeOp → Prop} : Reached allowed gridColumns := by
  have hres : Step.Resolved .transpose grid.shape := trivial
  exact .view (.owner grid_ownerWf) hres (show 8192 < wordModulus by decide) (by decide +kernel)

theorem gridColumns_columnsOnly : gridColumns.ColumnsOnly := by
  have hreached : Reached (fun a op => op.Exact a) gridColumns := gridColumns_reached
  have hstored := hreached.stored
  refine ⟨hstored.columnMajor_iff.mpr (.inr ?_), fun hrow => ?_⟩
  · have hstrides : Layout.columnStrides gridColumns.itemsize gridColumns.shape = [8,32] := by decide
    rw [hstrides]
    exact ⟨fun _ => rfl, fun _ => rfl, trivial⟩
  · have hplain := hstored.rowMajor_iff.mp hrow
    cases hplain

/-- Order C of any view, order K of a contiguous array, and order A of a column-major view. -/
theorem ravel_respects_order_iff_gridTransposed :
    gridTransposed.RespectsOrder .ravel ⟨[], some [("order", .str "C")]⟩ .C ∧
      grid.RespectsOrder .flatten ⟨[.str "K"], none⟩ .K ∧
      ¬ gridColumns.RespectsOrder .ravel ⟨[.str "A"], none⟩ .A := by
  have hreached : Reached (fun a op => op.Exact a) gridTransposed :=
    chain_gridTransposed.reached grid_ownerWf
  have hgrid : Reached (fun a op => op.Exact a) grid := .owner grid_ownerWf
  have hrows : ¬ grid.ColumnsOnly := fun hcols => hcols.2 (hgrid.stored.rowMajor_iff.mpr rfl)
  refine ⟨?_, ?_, ?_⟩
  · exact (ravel_respects_order_iff hreached .ravel (.keyword (by decide))).mpr (.inl rfl)
  · exact (ravel_respects_order_iff hgrid .flatten (.positional (by decide) (.inl rfl))).mpr (.inr hrows)
  · intro hrespects
    rcases (ravel_respects_order_iff gridColumns_reached .ravel (.positional (by decide) (.inl rfl))).mp hrespects with ho | hno
    · cases ho
    · exact hno gridColumns_columnsOnly

/-- `grid.T.ravel("A")` lists rows first, though the view is Fortran-contiguous. -/
theorem ravel_ignores_fortran_layout :
    ¬ ∀ (a : PyArray) (m : PyArray.Listing) (c : OrderCall) (o : Order),
      Reached (fun a op => op.Exact a) a → Requests c o → a.RespectsOrder m c o := by
  intro h
  have hreached : Reached (fun a op => op.Exact a) gridColumns := gridColumns_reached
  have hc : Requests ⟨[.str "A"], none⟩ .A := .positional (by decide) (.inl rfl)
  rcases (hreached.sound.respects_iff .ravel hc).mp (h _ .ravel _ .A hreached hc) with ho | hno
  · cases ho
  · exact hno gridColumns_columnsOnly

end LightArray
