import LightArray.WritableViews

namespace LightArray
open MachineWord RowMajor Cells

variable {F : Type} {o : PyArray} {views : List (View o)} {v w : View o} {mem : ℕ → F} {q : ℕ} {ints : List ℤ}

/-- The owner's elements and the caches of its strided views. -/
def Footprint (o : PyArray) (views : List (View o)) (q : ℕ) : Prop :=
  (∃ p < o.len, o.slot p = q) ∨ ∃ v ∈ views, v.array.strided.isSome ∧ ∃ k < v.array.len, v.array.elementPtr k = q

namespace SharedBuffers

theorem footprint_slot {p : ℕ} (hp : p < o.len) : Footprint o views (o.slot p) := .inl ⟨p, hp, rfl⟩

/-- The storage of an array is its cache, or a part of the owner. -/
theorem footprint_elementPtr (h : SharedBuffers o views) (hv : v ∈ views) {k : ℕ} (hk : k < v.array.len) :
    Footprint o views (v.array.elementPtr k) := by
  cases hs : v.array.strided with
  | some s => exact .inr ⟨v, hv, by rw [hs]; rfl, k, hk, rfl⟩
  | none =>
    rw [View.elementPtr_plain h.owner hs hk]
    exact footprint_slot (View.pos_lt h.owner hk)

theorem arr_writesOnly (h : SharedBuffers o views) (hv : v ∈ views) (mem : ℕ → F) :
    WritesOnly (Footprint o views) mem (v.array.arr mem) := by
  intro q hq
  apply h.arr_outside
  rintro hs k hk rfl
  exact hq (h.footprint_elementPtr hv hk)

theorem commit_writesOnly (h : SharedBuffers o views) (mem : ℕ → F) :
    WritesOnly (Footprint o views) mem (v.array.commit mem) := by
  cases hs : v.array.strided with
  | none =>
    rw [commit_plain hs]
    exact .refl _ _
  | some s =>
    apply WritesOnly.storeEach
    rw [h.refreshReads_eq (by rw [hs]; rfl)]
    intro e he
    obtain ⟨k, hk, rfl⟩ := List.mem_map.mp he
    exact footprint_slot (View.pos_lt h.owner (List.mem_range.mp hk))

theorem storeEach_writesOnly (h : SharedBuffers o views) (hv : v ∈ views) {val : (ℕ → F) → ℕ → F} {n : ℕ}
    (hn : n ≤ v.array.len) (mem : ℕ → F) :
    WritesOnly (Footprint o views) mem (storeEach v.array.elementPtr val (List.range n) mem) :=
  .storeEach (fun _ hk => h.footprint_elementPtr hv ((List.mem_range.mp hk).trans_le hn)) mem

theorem zipMapInplace_writesOnly (h : SharedBuffers o views) (hv : v ∈ views) {f : F → F → F}
    (hf : v.array.dtype = .float64) {other : ArrayRef F} {mem' : ℕ → F}
    (hok : v.array.zipMapInplace f hf other mem = .ok mem') : WritesOnly (Footprint o views) mem mem' := by
  unfold PyArray.zipMapInplace at hok
  dsimp only at hok
  split_ifs at hok with hdims
  · cases hok
    exact h.storeEach_writesOnly hv (min_le_left _ _) mem
  · obtain ⟨out, -, hout⟩ := bind_eq_ok.mp hok
    split_ifs at hout
    obtain ⟨result, -, hres⟩ := bind_eq_ok.mp hout
    split_ifs at hres
    cases hres
    exact h.storeEach_writesOnly hv le_rfl mem

theorem mapInplace_writesOnly (h : SharedBuffers o views) (hv : v ∈ views) (f : F → F) (mem : ℕ → F) :
    WritesOnly (Footprint o views) mem (v.array.mapInplace f mem) :=
  h.storeEach_writesOnly hv le_rfl mem

/-- An index is assigned to in the owner, or nothing but a cache changes. -/
theorem setItem_writesOnly (h : SharedBuffers o views) (hv : v ∈ views) (full : ints.length = v.array.shape.length)
    (value : F) (mem : ℕ → F) : WritesOnly (Footprint o views) mem (v.array.setItem ints value mem).1 := by
  have hshape := (v.denotes h.owner).shape
  have hndim : ¬ ints.length ≠ v.array.dims.ndim := not_not.mpr full
  have harr := h.arr_writesOnly hv mem
  rw [PyArray.setItem, if_neg hndim]
  by_cases hbeyond : ∃ i ∈ ints, i < -(2^63) ∨ 2^63 ≤ i
  · rw [if_pos hbeyond]
    exact .refl _ _
  · rw [if_neg hbeyond]
    by_cases hin : InBounds v.map.shape ints
    · have hp := h.fullAddress_eq hin
      have hslot : Footprint o views (o.slot (v.integerPosition ints)) :=
        footprint_slot (View.position_lt h.owner (View.inRange_integers h.owner hin))
      cases hs : v.array.strided with
      | some s =>
        have he : v.array.stridedElement ints = .ok (some (o.slot (v.integerPosition ints))) := by
          rw [PyArray.stridedElement_full (by rw [hs]; rfl) full, hp]
          rfl
        rw [he]
        exact .update hslot mem value
      | none =>
        have hset : v.array.set ints value (v.array.arr mem) =
            .ok (Function.update (v.array.arr mem) (o.slot (v.integerPosition ints)) value) := by
          rw [PyArray.set_full hs full, hp]
          rfl
        rw [PyArray.stridedElement_plain hs, PyArray.arrMut_eq]
        dsimp only
        rw [hset]
        exact (harr.trans (.update hslot _ value)).trans (h.commit_writesOnly _)
    · obtain ⟨e, he, -⟩ := (v.sound h.owner).fullAddress_outside full hbeyond (hshape ▸ hin)
      cases hs : v.array.strided with
      | some s =>
        have helement : v.array.stridedElement ints = .error e := by
          rw [PyArray.stridedElement_full (by rw [hs]; rfl) full, he]
          rfl
        rw [helement]
        exact .refl _ _
      | none =>
        have hset : v.array.set ints value (v.array.arr mem) = .error e := by
          rw [PyArray.set_full hs full, he]
          rfl
        rw [PyArray.stridedElement_plain hs, PyArray.arrMut_eq]
        dsimp only
        rw [hset]
        exact harr

theorem inplaceArray_writesOnly (h : SharedBuffers o views) (hv : v ∈ views) (hw : w ∈ views) (f : F → F → F)
    (hb : w.array.dtype = .float64) (mem : ℕ → F) :
    WritesOnly (Footprint o views) mem (v.array.inplaceOp f (.array w.array hb) mem).1 := by
  have hload : WritesOnly (Footprint o views) mem (v.array.arrMut (w.array.arr mem)) :=
    (h.arr_writesOnly hw mem).trans (h.arr_writesOnly hv _)
  have ha : v.array.dtype = .float64 := View.dtype_eq h.owner h.float64
  rw [PyArray.inplaceOp]
  dsimp only
  rw [dif_pos ha]
  generalize hrun : v.array.zipMapInplace f ha _ _ = r
  cases r with
  | error e => exact hload
  | ok mem' => exact (hload.trans (h.zipMapInplace_writesOnly hv ha hrun)).trans (h.commit_writesOnly _)

theorem element_memory (idx : List ℤ) (alloc : ℕ) (mem : ℕ → F) : (v.array.element idx alloc mem).1 = mem := by
  rw [PyArray.element]
  cases v.array.getItem mem alloc (idx.map .int) with
  | error e => rfl
  | ok r => cases r <;> rfl

/-- A native operation writes the owner's elements and the caches it uses. -/
theorem run_writesOnly (h : SharedBuffers o views) (op : SharedOp F o) (hop : ∀ v ∈ op.views, v ∈ views) (mem : ℕ → F) :
    WritesOnly (Footprint o views) mem (op.run mem).1 := by
  have hf : ∀ a : View o, a.array.dtype = .float64 := fun a => View.dtype_eq h.owner h.float64
  cases op with
  | setItem a ints full value => exact h.setItem_writesOnly (hop a (by simp [SharedOp.views])) full value mem
  | fill a value =>
    have ha := hop a (by simp [SharedOp.views])
    rw [SharedOp.run, PyArray.fill, if_pos (hf a)]
    exact ((h.arr_writesOnly ha mem).trans (h.mapInplace_writesOnly ha _ _)).trans (h.commit_writesOnly _)
  | inplaceScalar f a value =>
    have ha := hop a (by simp [SharedOp.views])
    rw [SharedOp.run, PyArray.inplaceOp, if_pos (hf a)]
    exact ((h.arr_writesOnly ha mem).trans (h.mapInplace_writesOnly ha _ _)).trans (h.commit_writesOnly _)
  | inplaceArray f a b hb =>
    exact h.inplaceArray_writesOnly (hop a (by simp [SharedOp.views])) (hop b (by simp [SharedOp.views])) f hb mem
  | read a => exact h.arr_writesOnly (hop a (by simp [SharedOp.views])) mem
  | element a ints full alloc =>
    rw [SharedOp.run, element_memory]
    exact .refl _ _

/-- A call of NumPy writes elements of the owner. -/
theorem numpyCall_writesOnly (h : SharedBuffers o views) (c : NumpyCall F o) (mem : ℕ → F) :
    WritesOnly (Footprint o views) mem (c.run mem).1 := by
  have hdst := c.exportedAddresses_key h.owner
  have hsrc := exportedAddresses_eq h.owner c.operands_inRange
  simp only [NumpyCall.run, hdst, hsrc, bind, Except.bind]
  cases c.compute ((c.operands.map fun p => o.slot (p.1.position p.2)).map mem) with
  | error message => exact .refl _ _
  | ok values =>
    apply WritesOnly.storeEach
    intro e he
    have hmem := (List.of_mem_zip he).1
    obtain ⟨p, hp, hpe⟩ := List.mem_map.mp hmem
    obtain ⟨idx, hidx, rfl⟩ := List.mem_map.mp hp
    have hrange := c.key_inRange idx hidx
    rw [(c.target.denotes h.owner).shape] at hrange
    rw [← hpe]
    exact footprint_slot (View.position_lt h.owner hrange)

theorem mixed_writesOnly (h : SharedBuffers o views) (op : MixedOp F o) (hop : ∀ v ∈ op.views, v ∈ views) (mem : ℕ → F) :
    WritesOnly (Footprint o views) mem (op.run mem).1 := by
  cases op with
  | native op => exact h.run_writesOnly op hop mem
  | numpy c => exact h.numpyCall_writesOnly c mem

theorem mixed_matches (h : SharedBuffers o views) (op : MixedOp F o) (hop : ∀ v ∈ op.views, v ∈ views)
    {mem ref : ℕ → F} (hc : Coherent o mem ref) : Matches o (op.run mem) (op.reference ref) := by
  cases op with
  | native op => exact h.matches_run op hop hc
  | numpy c => exact c.matches_run h.owner hc

end SharedBuffers

section heap

variable {ι : Type} {o : ι → PyArray}

/-- An operation on the arrays over one of several owners. -/
abbrev HeapOp (F : Type) (o : ι → PyArray) := Σ i, MixedOp F (o i)

/-- The memory after a sequence of operations, and what each of them gave back to whom. -/
def runHeap : List (HeapOp F o) → (ℕ → F) → (ℕ → F) × List (ι × Outcome F)
  | [], mem => (mem, [])
  | ⟨i, op⟩ :: ops, mem =>
    let (mem', outcome) := op.run mem
    let (final, outcomes) := runHeap ops mem'
    (final, (i, outcome) :: outcomes)

/-- The operations on the arrays over one owner, in their order. -/
def opsOf [DecidableEq ι] (i : ι) : List (HeapOp F o) → List (MixedOp F (o i))
  | [] => []
  | ⟨j, op⟩ :: ops => if h : j = i then h ▸ op :: opsOf i ops else opsOf i ops

/-- The outcomes one owner's operations had. -/
def outcomesOf [DecidableEq ι] (i : ι) (outcomes : List (ι × Outcome F)) : List (Outcome F) :=
  (outcomes.filter fun r => r.1 = i).map Prod.snd

/-- Owners with arrays over them whose buffers the allocator keeps apart: no buffer and no
cache of one owner's arrays has a byte in common with the buffer of another owner. -/
structure SeparateBuffers (o : ι → PyArray) (views : ∀ i, List (View (o i))) : Prop where
  shared : ∀ i, SharedBuffers (o i) (views i)
  owner_owner : ∀ i j, i ≠ j → (o i).Apart (o j)
  cache_owner : ∀ i j, i ≠ j → ∀ v ∈ views i, v.array.strided.isSome → v.array.Apart (o j)

variable {views : ∀ i, List (View (o i))} {i j : ι}

theorem SeparateBuffers.not_footprint (h : SeparateBuffers o views) (hij : i ≠ j) {p : ℕ} (hp : p < (o j).len) :
    ¬ Footprint (o i) (views i) ((o j).slot p) := by
  have hpend := Nat.mul_le_mul_left (o j).itemsize (Nat.succ_le_of_lt hp)
  have hpos := (o j).dtype.itemsize_pos
  rw [Nat.mul_succ] at hpend
  rintro (⟨k, hk, he⟩ | ⟨v, hv, hs, k, hk, he⟩)
  · have hapart := h.owner_owner i j hij
    have hkend := Nat.mul_le_mul_left (o i).itemsize (Nat.succ_le_of_lt hk)
    have hipos := (o i).dtype.itemsize_pos
    rw [Nat.mul_succ] at hkend
    unfold PyArray.Apart at hapart
    unfold PyArray.slot at he
    unfold PyArray.itemsize at *
    omega
  · have hapart := h.cache_owner i j hij v hv hs
    have hkend := (h.shared i).elementPtr_end hv hk
    have hvpos := v.array.dtype.itemsize_pos
    unfold PyArray.Apart at hapart
    rw [he] at hkend
    unfold PyArray.slot at hkend
    unfold PyArray.itemsize at *
    omega

/-- What is done to other owners' arrays is not seen. -/
theorem SeparateBuffers.coherent_other (h : SeparateBuffers o views) (hij : j ≠ i) {op : MixedOp F (o j)}
    (hop : ∀ v ∈ op.views, v ∈ views j) {mem ref : ℕ → F} (hc : Coherent (o i) mem ref) :
    Coherent (o i) (op.run mem).1 ref := by
  intro p hp
  rw [(h.shared j).mixed_writesOnly op hop mem _ (h.not_footprint hij hp)]
  exact hc p hp

/-- A run writes nothing but the owners' buffers and the caches. -/
theorem SeparateBuffers.runHeap_writesOnly (h : SeparateBuffers o views) (ops : List (HeapOp F o))
    (hops : ∀ e ∈ ops, ∀ v ∈ e.2.views, v ∈ views e.1) (mem : ℕ → F) :
    WritesOnly (fun q => ∃ i, Footprint (o i) (views i) q) mem (runHeap ops mem).1 := by
  induction ops generalizing mem with
  | nil => exact .refl _ _
  | cons e ops ih =>
    obtain ⟨hop, hrest⟩ := List.forall_mem_cons.mp hops
    have hstep := (h.shared e.1).mixed_writesOnly e.2 hop mem
    have hwide : WritesOnly (fun q => ∃ i, Footprint (o i) (views i) q) mem (e.2.run mem).1 :=
      fun q hq => hstep q fun hin => hq ⟨e.1, hin⟩
    exact hwide.trans (ih hrest _)

variable [DecidableEq ι]

theorem outcomesOf_self (outcome : Outcome F) (rest : List (ι × Outcome F)) :
    outcomesOf i ((i, outcome) :: rest) = outcome :: outcomesOf i rest := by
  rw [outcomesOf, List.filter_cons_of_pos (by simp), List.map_cons]
  rfl

theorem outcomesOf_other (hji : j ≠ i) (outcome : Outcome F) (rest : List (ι × Outcome F)) :
    outcomesOf i ((j, outcome) :: rest) = outcomesOf i rest := by
  rw [outcomesOf, List.filter_cons_of_neg (by simpa using hji)]
  rfl

/-- Beside a run of one owner's operations alone, from a memory with the same elements. -/
theorem SeparateBuffers.runHeap_alone (h : SeparateBuffers o views) (ops : List (HeapOp F o))
    (hops : ∀ e ∈ ops, ∀ v ∈ e.2.views, v ∈ views e.1) {mem alone ref : ℕ → F} (hc : Coherent (o i) mem ref)
    (hc' : Coherent (o i) alone ref) :
    (outcomesOf i (runHeap ops mem).2).map Outcome.reply = (MixedOp.runAll (opsOf i ops) alone).2.map Outcome.reply ∧
      ∃ final, Coherent (o i) (runHeap ops mem).1 final ∧ Coherent (o i) (MixedOp.runAll (opsOf i ops) alone).1 final := by
  induction ops generalizing mem alone ref with
  | nil => exact ⟨rfl, ref, hc, hc'⟩
  | cons e ops ih =>
    obtain ⟨j, op⟩ := e
    obtain ⟨hop, hrest⟩ := List.forall_mem_cons.mp hops
    by_cases hji : j = i
    · subst hji
      have hstep := (h.shared j).mixed_matches op hop hc
      have hstep' := (h.shared j).mixed_matches op hop hc'
      obtain ⟨hreplies, hfinal⟩ := ih hrest hstep.memory hstep'.memory
      have hself : opsOf j (⟨j, op⟩ :: ops) = op :: opsOf j ops := dif_pos rfl
      have hrun : (runHeap (⟨j, op⟩ :: ops) mem).2 = (j, (op.run mem).2) :: (runHeap ops (op.run mem).1).2 := rfl
      rw [hself, hrun, outcomesOf_self]
      exact ⟨congrArg₂ List.cons (hstep.reply.trans hstep'.reply.symm) hreplies, hfinal⟩
    · have hother := h.coherent_other hji hop hc
      obtain ⟨hreplies, hfinal⟩ := ih hrest hother hc'
      have hskip : opsOf i (⟨j, op⟩ :: ops) = opsOf i ops := dif_neg hji
      have hrun : (runHeap (⟨j, op⟩ :: ops) mem).2 = (j, (op.run mem).2) :: (runHeap ops (op.run mem).1).2 := rfl
      rw [hskip, hrun, outcomesOf_other hji]
      exact ⟨hreplies, hfinal⟩

/-- Operations on the arrays over several owners in separate buffers, in any order: each
owner's arrays reply and end up as if its operations had run alone, and the rest of the
memory is untouched. -/
theorem heap_runs_isolated (h : SeparateBuffers o views) (ops : List (HeapOp F o))
    (hops : ∀ e ∈ ops, ∀ v ∈ e.2.views, v ∈ views e.1) (mem : ℕ → F) :
    (∀ i, (outcomesOf i (runHeap ops mem).2).map Outcome.reply = (MixedOp.runAll (opsOf i ops) mem).2.map Outcome.reply ∧
      ∀ p < (o i).len, (runHeap ops mem).1 ((o i).slot p) = (MixedOp.runAll (opsOf i ops) mem).1 ((o i).slot p)) ∧
    ∀ q, (∀ i, ¬ Footprint (o i) (views i) q) → (runHeap ops mem).1 q = mem q := by
  refine ⟨fun i => ?_, fun q hq => h.runHeap_writesOnly ops hops mem q (not_exists.mpr hq)⟩
  have hstart : Coherent (o i) mem fun p => mem ((o i).slot p) := fun _ _ => rfl
  obtain ⟨hreplies, final, hfinal, halone⟩ := h.runHeap_alone ops hops hstart hstart
  exact ⟨hreplies, fun p hp => (hfinal p hp).trans (halone p hp).symm⟩

end heap

/-- A copy of the grid in a buffer of its own. -/
def gridCopy : PyArray := {grid with ptr := 65536}

theorem gridCopy_ownerWf : gridCopy.OwnerWf :=
  ⟨rfl, rfl, rfl, by decide, by decide, by decide, by decide⟩

def grids : Bool → PyArray
  | false => grid
  | true => gridCopy

def gridCopyView : View gridCopy := ⟨[], gridCopy, .owner⟩

def gridsViews : ∀ b, List (View (grids b))
  | false => [gridTransposedView]
  | true => [gridCopyView]

theorem gridsViews_separate : SeparateBuffers grids gridsViews where
  shared b := by
    cases b with
    | false => exact ⟨grid_ownerWf, rfl, by decide, by decide +kernel, by decide +kernel, by decide +kernel⟩
    | true => exact ⟨gridCopy_ownerWf, rfl, by decide, by decide +kernel, by decide +kernel, by decide +kernel⟩
  owner_owner := by decide
  cache_owner := by decide +kernel

/-- The copy is filled between a write to the grid through its transpose and a read. -/
def gridsOps : List (HeapOp ℤ grids) :=
  [⟨false, .native (.setItem gridTransposedView [0,-1] gridCorner_full 100)⟩, ⟨true, .native (.fill gridCopyView 7)⟩,
    ⟨false, .native (.read gridTransposedView)⟩]

theorem heap_runs_isolated_grids : (outcomesOf false (runHeap gridsOps fun p => ((p:ℤ)-4096)/8).2).map Outcome.reply =
    [some .done, some (.data [2,3] [9,5,100,11,7,3])] := by
  have hops : ∀ e ∈ gridsOps, ∀ v ∈ e.2.views, v ∈ gridsViews e.1 :=
    List.forall_mem_cons.mpr ⟨fun _ hv => hv, List.forall_mem_cons.mpr ⟨fun _ hv => hv,
      List.forall_mem_cons.mpr ⟨fun _ hv => hv, List.forall_mem_nil _⟩⟩⟩
  rw [((heap_runs_isolated gridsViews_separate gridsOps hops _).1 false).1]
  decide +kernel

end LightArray
