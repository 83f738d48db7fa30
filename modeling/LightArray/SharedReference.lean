import LightArray.FullIndex

namespace LightArray
open MachineWord RowMajor Cells

/-- What a caller sees of a call that ran natively. -/
inductive Reply (F : Type)
  | done
  | data (shape : List ℕ) (values : List F)
  | refused
  deriving DecidableEq

instance (shape target : List ℕ) : Decidable (BroadcastsTo shape target) := inferInstanceAs (Decidable (_ ∧ _))

section reference

variable {F : Type} {o : PyArray}

/-- Store `g idx` at every index. -/
def View.assign (v : View o) (g : List ℕ → F) (ref : ℕ → F) : ℕ → F :=
  storeEach v.position (fun _ => g) (enum v.map.shape) ref

/-- Position in the owner of the element at a full index. -/
def View.integerPosition (v : View o) (ints : List ℤ) : ℕ := v.position (List.zipWith coordinate v.map.shape ints)

/-- The memory holds the elements of the owner at their positions. -/
def SharedOp.reference : SharedOp F o → (ℕ → F) → (ℕ → F) × Reply F
  | .setItem a ints _ value, ref =>
    if InBounds a.map.shape ints then (Function.update ref (a.integerPosition ints) value, .done) else (ref, .refused)
  | .fill a value, ref => (a.assign (fun _ => value) ref, .done)
  | .inplaceScalar f a value, ref => (a.assign (fun idx => f (ref (a.position idx)) value) ref, .done)
  | .inplaceArray f a b _, ref =>
    if BroadcastsTo b.map.shape a.map.shape then
      (a.assign (fun idx => f (ref (a.position idx)) (ref (b.position (stretch b.map.shape idx)))) ref, .done)
    else (ref, .refused)
  | .read a, ref => (ref, .data a.map.shape ((enum a.map.shape).map fun idx => ref (a.position idx)))
  | .element a ints _ _, ref =>
    if InBounds a.map.shape ints then (ref, .data [] [ref (a.integerPosition ints)]) else (ref, .refused)

def SharedOp.referenceAll : List (SharedOp F o) → (ℕ → F) → (ℕ → F) × List (Reply F)
  | [], ref => (ref, [])
  | op :: ops, ref =>
    let (ref', reply) := op.reference ref
    let (final, replies) := referenceAll ops ref'
    (final, reply :: replies)

end reference

/-- None for a panic, and for a call that NumPy makes. -/
def Outcome.reply {F : Type} : Outcome F → Option (Reply F)
  | .done => some .done
  | .data shape values => some (.data shape values)
  | .raised e => if e.isPanic then none else some .refused
  | .view _ => none
  | .delegated => none

namespace View

variable {F : Type} {o : PyArray} {v : View o} {g : List ℕ → F} {ref : ℕ → F} {idx : List ℕ} {p : ℕ} {ints : List ℤ}

theorem position_injective (ho : o.OwnerWf) {i j : List ℕ} (hi : InRange v.map.shape i) (hj : InRange v.map.shape j)
    (h : v.position i = v.position j) : i = j := by
  have hd := v.denotes ho
  have hmap := flat_injective (hd.into.inRange i hi) (hd.into.inRange j hj) h
  exact hd.into.injective i j hi hj hmap

theorem assign_at (ho : o.OwnerWf) (h : InRange v.map.shape idx) : v.assign g ref (v.position idx) = g idx := by
  refine storeEach_at ?_ (fun _ _ _ _ _ => rfl) (mem_enum.mpr h)
  apply List.Nodup.map_on _ (nodup_enum _)
  intro i hi j hj he
  exact position_injective ho (mem_enum.mp hi) (mem_enum.mp hj) he

theorem assign_outside (h : ∀ idx, InRange v.map.shape idx → v.position idx ≠ p) : v.assign g ref p = ref p :=
  storeEach_outside fun idx hidx => h idx (mem_enum.mp hidx)

theorem inRange_integers (ho : o.OwnerWf) (h : InBounds v.map.shape ints) :
    InRange v.map.shape (List.zipWith coordinate v.map.shape ints) := by
  have hshape := (v.denotes ho).shape
  rw [← hshape] at h ⊢
  exact ((v.sound ho).indexResult_ints (fun p => p) 0 h).1

end View

namespace SharedOp

variable {F : Type} {o : PyArray} {op : SharedOp F o} {ref : ℕ → F} {p : ℕ}

/-- Only elements of the target change. -/
theorem reference_outside (ho : o.OwnerWf)
    (h : ∀ idx, InRange op.target.map.shape idx → op.target.position idx ≠ p) : (op.reference ref).1 p = ref p := by
  cases op with
  | setItem a ints full value =>
    rw [reference]
    split_ifs with hin
    · exact Function.update_of_ne (h _ (View.inRange_integers ho hin)).symm _ _
    · rfl
  | fill a value => exact View.assign_outside h
  | inplaceScalar f a value => exact View.assign_outside h
  | inplaceArray f a b hb =>
    rw [reference]
    split_ifs
    · exact View.assign_outside h
    · rfl
  | read a => rfl
  | element a ints full alloc =>
    rw [reference]
    split_ifs <;> rfl

/-- What is refused changes nothing. -/
theorem reference_refused (h : (op.reference ref).2 = .refused) : (op.reference ref).1 = ref := by
  cases op with
  | setItem a ints full value =>
    rw [reference] at h ⊢
    split_ifs at h ⊢
    rfl
  | fill a value => cases h
  | inplaceScalar f a value => cases h
  | inplaceArray f a b hb =>
    rw [reference] at h ⊢
    split_ifs at h ⊢
    rfl
  | read a => rfl
  | element a ints full alloc =>
    rw [reference]
    split_ifs <;> rfl

end SharedOp

end LightArray
