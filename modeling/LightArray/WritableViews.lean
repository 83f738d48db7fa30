import LightArray.Coherence
import LightArray.FallbackViews

namespace LightArray
open MachineWord RowMajor Cells

variable {F : Type} {o : PyArray}

/-- A call of NumPy on exported arrays: it reads elements of its operands and then stores
new elements in the target, one for each index of the key; an error is raised before
anything is stored. -/
structure NumpyCall (F : Type) (o : PyArray) where
  target : View o
  key : List (List ℕ)
  operands : List (View o × List ℕ)
  compute : List F → Except String (List F)
  key_inRange : ∀ idx ∈ key, InRange target.array.shape idx
  operands_inRange : ∀ p ∈ operands, InRange p.1.array.shape p.2

/-- Where NumPy finds an element of the exported array. -/
def PyArray.exportedAddress (a : PyArray) (idx : List ℕ) : Except Failure ℕ := do
  let x ← a.asNumpy
  .ok (x.raw.elementAddress idx)

/-- The addresses of several elements. -/
def exportedAddresses : List (View o × List ℕ) → Except Failure (List ℕ)
  | [] => .ok []
  | (v, idx) :: rest => do
    let p ← v.array.exportedAddress idx
    let ps ← exportedAddresses rest
    .ok (p :: ps)

namespace NumpyCall

def run (c : NumpyCall F o) (mem : ℕ → F) : (ℕ → F) × Outcome F :=
  let addresses := do
    let dst ← exportedAddresses (c.key.map fun idx => (c.target, idx))
    let src ← exportedAddresses c.operands
    .ok (dst, src)
  match addresses with
  | .error e => (mem, .raised e)
  | .ok (dst, src) =>
    match c.compute (src.map mem) with
    | .error message => (mem, .raised (.python .valueError message))
    | .ok values => (storeEach Prod.fst (fun _ p => p.2) (dst.zip values) mem, .done)

/-- The call on the elements of the owner. -/
def reference (c : NumpyCall F o) (ref : ℕ → F) : (ℕ → F) × Reply F :=
  match c.compute (c.operands.map fun p => ref (p.1.position p.2)) with
  | .error _ => (ref, .refused)
  | .ok values => (storeEach Prod.fst (fun _ p => p.2) ((c.key.map c.target.position).zip values) ref, .done)

end NumpyCall

/-- An operation of a run: native, or NumPy's on exported arrays. -/
inductive MixedOp (F : Type) (o : PyArray)
  | native (op : SharedOp F o)
  | numpy (c : NumpyCall F o)

namespace MixedOp

def run : MixedOp F o → (ℕ → F) → (ℕ → F) × Outcome F
  | .native op, mem => op.run mem
  | .numpy c, mem => c.run mem

def reference : MixedOp F o → (ℕ → F) → (ℕ → F) × Reply F
  | .native op, ref => op.reference ref
  | .numpy c, ref => c.reference ref

def runAll : List (MixedOp F o) → (ℕ → F) → (ℕ → F) × List (Outcome F)
  | [], mem => (mem, [])
  | op :: ops, mem =>
    let (mem', outcome) := op.run mem
    let (final, outcomes) := runAll ops mem'
    (final, outcome :: outcomes)

def referenceAll : List (MixedOp F o) → (ℕ → F) → (ℕ → F) × List (Reply F)
  | [], ref => (ref, [])
  | op :: ops, ref =>
    let (ref', reply) := op.reference ref
    let (final, replies) := referenceAll ops ref'
    (final, reply :: replies)

/-- The arrays a native operation is about; NumPy's calls use no cache. -/
def views : MixedOp F o → List (View o)
  | .native op => op.views
  | .numpy _ => []

end MixedOp

section numpy

variable {v : View o} {mem ref : ℕ → F} {c : NumpyCall F o}

theorem exportedAddress_eq (ho : o.OwnerWf) {idx : List ℕ} (hidx : InRange v.array.shape idx) :
    v.array.exportedAddress idx = .ok (o.slot (v.position idx)) := by
  have hstored := (v.sound ho).stored
  rw [(v.denotes ho).shape] at hidx
  rw [PyArray.exportedAddress, hstored.asNumpy, ← View.elementAddress_eq ho hidx]
  rfl

theorem exportedAddresses_eq (ho : o.OwnerWf) {entries : List (View o × List ℕ)}
    (h : ∀ p ∈ entries, InRange p.1.array.shape p.2) :
    exportedAddresses entries = .ok (entries.map fun p => o.slot (p.1.position p.2)) := by
  induction entries with
  | nil => rfl
  | cons p rest ih =>
    obtain ⟨hp, hrest⟩ := List.forall_mem_cons.mp h
    rw [exportedAddresses, exportedAddress_eq ho hp, ih hrest]
    rfl

/-- Stores at the addresses of positions are stores at the positions. -/
theorem coherent_storeEach (hc : Coherent o mem ref) (positions : List ℕ) (values : List F) :
    Coherent o (storeEach Prod.fst (fun _ p => p.2) ((positions.map o.slot).zip values) mem)
      (storeEach Prod.fst (fun _ p => p.2) (positions.zip values) ref) := by
  induction positions generalizing values mem ref with
  | nil => exact hc
  | cons p positions ih =>
    cases values with
    | nil => exact hc
    | cons x values => exact ih (SharedBuffers.coherent_update hc p x) values

/-- NumPy finds the elements of the key in the owner. -/
theorem NumpyCall.exportedAddresses_key (ho : o.OwnerWf) (c : NumpyCall F o) :
    exportedAddresses (c.key.map fun idx => (c.target, idx)) = .ok ((c.key.map c.target.position).map o.slot) := by
  rw [exportedAddresses_eq ho, List.map_map, List.map_map]
  · rfl
  · intro p hp
    obtain ⟨idx, hidx, rfl⟩ := List.mem_map.mp hp
    exact c.key_inRange idx hidx

theorem NumpyCall.matches_run (ho : o.OwnerWf) (hc : Coherent o mem ref) : Matches o (c.run mem) (c.reference ref) := by
  have hdst := c.exportedAddresses_key ho
  have hsrc := exportedAddresses_eq ho c.operands_inRange
  have hread : (c.operands.map fun p => o.slot (p.1.position p.2)).map mem = c.operands.map fun p => ref (p.1.position p.2) := by
    rw [List.map_map]
    apply List.map_congr_left
    intro p hp
    have hidx := c.operands_inRange p hp
    rw [(p.1.denotes ho).shape] at hidx
    exact hc _ (View.position_lt ho hidx)
  simp only [NumpyCall.run, NumpyCall.reference, hdst, hsrc, bind, Except.bind, hread]
  cases hvalues : c.compute (c.operands.map fun p => ref (p.1.position p.2)) with
  | error message => exact ⟨rfl, hc⟩
  | ok values => exact ⟨rfl, coherent_storeEach hc _ values⟩

/-- A sequence of native operations and NumPy's: every reply is the reference's. -/
theorem SharedBuffers.runAll_mixed {views : List (View o)} (h : SharedBuffers o views) (ops : List (MixedOp F o))
    (hops : ∀ op ∈ ops, ∀ v ∈ op.views, v ∈ views) (hc : Coherent o mem ref) :
    (MixedOp.runAll ops mem).2.map Outcome.reply = (MixedOp.referenceAll ops ref).2.map some ∧
      Coherent o (MixedOp.runAll ops mem).1 (MixedOp.referenceAll ops ref).1 := by
  induction ops generalizing mem ref with
  | nil => exact ⟨rfl, hc⟩
  | cons op ops ih =>
    have hstep : Matches o (op.run mem) (op.reference ref) := by
      cases op with
      | native op => exact h.matches_run op (hops _ List.mem_cons_self) hc
      | numpy c => exact c.matches_run h.owner hc
    obtain ⟨hreplies, hfinal⟩ := ih (fun op' hop' => hops op' (List.mem_cons_of_mem _ hop')) hstep.memory
    refine ⟨?_, hfinal⟩
    show (op.run mem).2.reply :: (MixedOp.runAll ops (op.run mem).1).2.map Outcome.reply =
      some (op.reference ref).2 :: (MixedOp.referenceAll ops (op.reference ref).1).2.map some
    rw [hstep.reply, hreplies]

end numpy

/-- Native operations on the arrays over a float64 owner and NumPy's writes through the
views it was handed, in any order: every reply is that of one shared memory, and the
owner's buffer ends up with its elements. -/
theorem mixed_run_coherent (ops : List (MixedOp F o)) (mem : ℕ → F) (h : SharedBuffers o (ops.flatMap MixedOp.views)) :
    (MixedOp.runAll ops mem).2.map Outcome.reply = (MixedOp.referenceAll ops fun p => mem (o.slot p)).2.map some ∧
      Coherent o (MixedOp.runAll ops mem).1 (MixedOp.referenceAll ops fun p => mem (o.slot p)).1 := by
  apply h.runAll_mixed ops _ fun _ _ => rfl
  intro op hop v hv
  exact List.mem_flatMap.mpr ⟨op, hop, hv⟩

section delegated

theorem InBounds.inRange {shape : List ℕ} {ints : List ℤ} (h : InBounds shape ints) :
    InRange shape (List.zipWith coordinate shape ints) := by
  induction h with
  | nil => exact .nil
  | cons hi _ ih => exact inRange_cons.mpr ⟨coordinate_lt hi.1 hi.2, ih⟩

theorem forall_enum (shape : List ℕ) : ∀ idx ∈ enum shape, InRange shape idx := fun _ => mem_enum.mp

namespace NumpyCall

/-- Raise before anything is read or stored. -/
def raise (v : View o) (message : String) : NumpyCall F o :=
  ⟨v, [], [], fun _ => .error message, fun _ h => absurd h List.not_mem_nil, fun _ h => absurd h List.not_mem_nil⟩

/-- `setitem(arr, key, value)` with one value for every selected element. -/
def setitem (v : View o) (key : List (List ℕ)) (hkey : ∀ idx ∈ key, InRange v.array.shape idx) (values : List F) :
    NumpyCall F o :=
  ⟨v, key, [], fun _ => .ok values, hkey, fun _ h => absurd h List.not_mem_nil⟩

theorem ownOperands_inRange (v : View o) :
    ∀ p ∈ (enum v.array.shape).map fun idx => (v, idx), InRange p.1.array.shape p.2 := by
  intro p hp
  obtain ⟨idx, hidx, rfl⟩ := List.mem_map.mp hp
  exact mem_enum.mp hidx

theorem pairedOperands_inRange (v w : View o) (hto : BroadcastsTo w.array.shape v.array.shape) :
    ∀ p ∈ ((enum v.array.shape).map fun idx => (v, idx)) ++ (enum v.array.shape).map fun idx => (w, stretch w.array.shape idx),
      InRange p.1.array.shape p.2 := by
  intro p hp
  rcases List.mem_append.mp hp with hp | hp
  · exact ownOperands_inRange v p hp
  · obtain ⟨idx, hidx, rfl⟩ := List.mem_map.mp hp
    exact inRange_stretch hto (mem_enum.mp hidx)

/-- `inplace(arr, name, other)` with a scalar. -/
def inplaceScalar (f : F → F → F) (v : View o) (value : F) : NumpyCall F o :=
  ⟨v, enum v.array.shape, (enum v.array.shape).map fun idx => (v, idx), fun xs => .ok (xs.map fun x => f x value),
    forall_enum _, ownOperands_inRange v⟩

/-- Combine the first `n` elements with the others. -/
def combine (f : F → F → F) (n : ℕ) (xs : List F) : List F := List.zipWith f (xs.take n) (xs.drop n)

/-- `inplace(arr, name, other)` with an array, which NumPy broadcasts. -/
def inplaceArray (f : F → F → F) (v w : View o) : NumpyCall F o :=
  if hto : BroadcastsTo w.array.shape v.array.shape then
    ⟨v, enum v.array.shape,
      ((enum v.array.shape).map fun idx => (v, idx)) ++ (enum v.array.shape).map fun idx => (w, stretch w.array.shape idx),
      fun xs => .ok (combine f (enum v.array.shape).length xs), forall_enum _, pairedOperands_inRange v w hto⟩
  else raise v "operands could not be broadcast together"

end NumpyCall

/-- The NumPy call that does what a native write does; none for a reader. -/
def SharedOp.delegated : SharedOp F o → Option (NumpyCall F o)
  | .setItem v ints _ value =>
    if h : InBounds v.array.shape ints then
      some (.setitem v [List.zipWith coordinate v.array.shape ints] (List.forall_mem_singleton.mpr h.inRange) [value])
    else some (.raise v "index is out of bounds")
  | .fill v value => some (.setitem v (enum v.array.shape) (forall_enum _) (List.replicate (enum v.array.shape).length value))
  | .inplaceScalar f v value => some (.inplaceScalar f v value)
  | .inplaceArray f v w _ => some (.inplaceArray f v w)
  | .read _ | .element .. => none

variable {v w : View o} {ref : ℕ → F}

end delegated

section grid

theorem gridCorner_full : [0,(-1:ℤ)].length = gridTransposedView.array.dims.shape.length := by
  decide

/-- `gridTransposed.fill(7)` between a write NumPy makes to the rows below and a read. -/
def gridFilled : List (MixedOp ℤ grid) :=
  [.native (.read gridTransposedView), .numpy (.inplaceScalar (· * ·) gridBottomView 2), .native (.fill gridTransposedView 7),
    .native (.read gridTransposedView), .numpy (.raise gridTopView "cannot assign")]

theorem sharedBuffers_gridFilled : SharedBuffers grid (gridFilled.flatMap MixedOp.views) where
  owner := grid_ownerWf
  float64 := rfl
  owner_end := by decide
  cache_end := by decide +kernel
  cache_owner := by decide +kernel
  cache_cache := by decide +kernel

theorem mixed_run_coherent_grid : (MixedOp.runAll gridFilled fun p => ((p:ℤ)-4096)/8).2.map Outcome.reply =
    [some (.data [2,3] [9,5,1,11,7,3]), some .done, some .done, some (.data [2,3] [7,7,7,7,7,7]), some .refused] := by
  rw [(mixed_run_coherent gridFilled _ sharedBuffers_gridFilled).1]
  decide +kernel

end grid

end LightArray
