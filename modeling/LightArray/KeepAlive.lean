import LightArray.RefCount

/-! Who keeps an element buffer alive: views refer to its owner, Python references
and buffer exports to an array, and a DLPack export to the array it was made of
until its deleter runs. -/
namespace LightArray
open RefCount

/-- The references an array object holds: `Storage::base` of `inner`, and the base
of its strided view. -/
structure ArrayBody where
  base : Option ℕ
  strided : Option ℕ
  deriving DecidableEq

namespace ArrayBody

/-- What is dropped with the object. -/
def holds (b : ArrayBody) : List ℕ := b.base.toList ++ b.strided.toList

/-- `base_of`: the array owning the buffer. -/
def baseOf (id : ℕ) (b : ArrayBody) : ℕ :=
  match b.strided with
  | some v => v
  | none => b.base.getD id

end ArrayBody

inductive CapsuleKind
  | versioned
  | legacy
  deriving DecidableEq, Repr

/-- The name of a capsule that no consumer has taken. -/
def CapsuleKind.name : CapsuleKind → String
  | .versioned => "dltensor_versioned"
  | .legacy => "dltensor"

/-- The name a consumer gives the capsule it takes. -/
def CapsuleKind.usedName : CapsuleKind → String
  | .versioned => "used_dltensor_versioned"
  | .legacy => "used_dltensor"

/-- A capsule with the export it points to. -/
structure Capsule where
  tensor : ℕ
  kind : CapsuleKind
  name : String
  deriving DecidableEq

/-- The heap box of an export, with the array it holds a strong reference to. -/
structure ExportBox where
  id : ℕ
  owner : ℕ
  deriving DecidableEq

/-- A process: its array objects, the references of the program and of live buffer
exports, export boxes, capsules, and the tensors consumers have yet to delete. The
last two fields record all arrays made and all exports that gave up their array. -/
structure Process where
  heap : Heap ArrayBody
  refs : List ℕ
  buffers : List ℕ
  boxes : List ExportBox
  capsules : List Capsule
  tensors : List ℕ
  nextArray : ℕ
  nextBox : ℕ
  created : List (ℕ × ArrayBody)
  released : List ℕ

/-- Nothing has been made yet. -/
def Process.initial : Process := ⟨⟨[], []⟩, [], [], [], [], [], 0, 0, [], []⟩

inductive LifeOp
  | newOwner
  | newView (a : ℕ) (strided : Bool)
  | newRef (a : ℕ)
  | dropRef (a : ℕ)
  | getBuffer (a : ℕ)
  | releaseBuffer (a : ℕ)
  | dlpack (kind : CapsuleKind) (a : ℕ) (made : Bool)
  | consume (x : ℕ)
  | callDeleter (x : ℕ)
  | destroyCapsule (x : ℕ)

namespace Process

/-- `Py_DECREF`; none when the object has been destroyed already. -/
def decref (p : Process) (a : ℕ) : Option Process := do
  let h ← p.heap.release ArrayBody.holds (p.heap.fuel ArrayBody.holds [a]) [a]
  some {p with heap := h}

def incref (p : Process) (a : ℕ) : Option Process := do
  let h ← p.heap.incref a
  some {p with heap := h}

/-- A new array object, referred to by the program. -/
def make (p : Process) (body : ArrayBody) : Process :=
  {p with
    heap := p.heap.insert p.nextArray body
    refs := p.nextArray :: p.refs
    nextArray := p.nextArray+1
    created := (p.nextArray,body) :: p.created}

/-- A contiguous or strided view of `a`; both refer to `base_of(a)`. -/
def makeView (p : Process) (a : ℕ) (strided : Bool) : Option Process := do
  let c ← p.heap.find? a
  let base := c.body.baseOf a
  let q ← p.incref base
  some (q.make (if strided then ⟨none, some base⟩ else ⟨some base, none⟩))

/-- `deleter`: none when the box is gone already. -/
def deleter (p : Process) (x : ℕ) : Option Process := do
  let b ← p.boxes.find? (·.id = x)
  {p with boxes := p.boxes.filter (·.id ≠ x), released := x :: p.released}.decref b.owner

/-- `legacy_deleter`. -/
def legacyDeleter (p : Process) (x : ℕ) : Option Process := deleter p x

def deleterOf : CapsuleKind → Process → ℕ → Option Process
  | .versioned => deleter
  | .legacy => legacyDeleter

/-- The box of a new export, with a strong reference to `a`. -/
def box (p : Process) (a : ℕ) : Option Process := do
  let q ← p.incref a
  some {q with boxes := ⟨p.nextBox, a⟩ :: q.boxes, nextBox := p.nextBox+1}

/-- Both exports; the deleter is called at once when no capsule could be made. -/
def exportAs (kind : CapsuleKind) (p : Process) (a : ℕ) (made : Bool) : Option Process := do
  let q ← p.box a
  if made then some {q with capsules := ⟨p.nextBox, kind, kind.name⟩ :: q.capsules}
  else deleterOf kind q p.nextBox

/-- `export`. -/
def dlpackExport : Process → ℕ → Bool → Option Process := exportAs .versioned

/-- `export_legacy`. -/
def exportLegacy : Process → ℕ → Bool → Option Process := exportAs .legacy

/-- Both capsule destructors: only a capsule that still has its name owns the tensor. -/
def destructorAs (kind : CapsuleKind) (p : Process) (c : Capsule) : Option Process :=
  if c.name = kind.name then deleterOf kind p c.tensor else some p

/-- `capsule_destructor`. -/
def capsuleDestructor : Process → Capsule → Option Process := destructorAs .versioned

/-- `legacy_capsule_destructor`. -/
def legacyCapsuleDestructor : Process → Capsule → Option Process := destructorAs .legacy

/-- A consumer takes the tensor and renames the capsule. -/
def consume (p : Process) (x : ℕ) : Process :=
  {p with
    capsules := p.capsules.map fun c => if c.tensor = x then {c with name := c.kind.usedName} else c
    tensors := x :: p.tensors}

/-- One operation; none when it reaches something that was freed. -/
def step (p : Process) : LifeOp → Option Process
  | .newOwner => some (p.make ⟨none, none⟩)
  | .newView a strided => p.makeView a strided
  | .newRef a => do
    let q ← p.incref a
    some {q with refs := a :: q.refs}
  | .dropRef a => {p with refs := p.refs.erase a}.decref a
  | .getBuffer a => do
    let q ← p.incref a
    some {q with buffers := a :: q.buffers}
  | .releaseBuffer a => {p with buffers := p.buffers.erase a}.decref a
  | .dlpack .versioned a made => p.dlpackExport a made
  | .dlpack .legacy a made => p.exportLegacy a made
  | .consume x => some (p.consume x)
  | .callDeleter x => {p with tensors := p.tensors.erase x}.deleter x
  | .destroyCapsule x => do
    let c ← p.capsules.find? (·.tensor = x)
    let q := {p with capsules := p.capsules.filter (·.tensor ≠ x)}
    match c.kind with
    | .versioned => q.capsuleDestructor c
    | .legacy => q.legacyCapsuleDestructor c

/-- Capsules whose tensor no consumer has taken. -/
def unconsumed (p : Process) : List ℕ :=
  (p.capsules.filter fun c => c.name = c.kind.name).map Capsule.tensor

/-- What CPython and the DLPack protocol promise: operations are made through a
reference that is held, a buffer is released once, a consumer takes a capsule by its
name and calls the deleter once. -/
def Follows (p : Process) : LifeOp → Prop
  | .newOwner => True
  | .newView a _ => a ∈ p.refs
  | .newRef a => a ∈ p.refs
  | .dropRef a => a ∈ p.refs
  | .getBuffer a => a ∈ p.refs
  | .releaseBuffer a => a ∈ p.buffers
  | .dlpack _ a _ => a ∈ p.refs
  | .consume x => x ∈ p.unconsumed
  | .callDeleter x => x ∈ p.tensors
  | .destroyCapsule x => ∃ c ∈ p.capsules, c.tensor = x

/-- References to an array from outside the heap. -/
def holders (p : Process) (i : ℕ) : ℕ :=
  p.refs.count i+p.buffers.count i+(p.boxes.map ExportBox.owner).count i

end Process

end LightArray
