import LightArray.ShapeRun
import LightArray.SharedMemory

namespace LightArray
open MachineWord RowMajor

/-- A call through `&mut self`. An error does not undo the assignments before it. -/
abbrev InPlace := EStateM Failure PyArray

/-- A part of a call that assigns nothing. -/
def InPlace.lift {T : Type} (x : Except Failure T) : InPlace T :=
  match x with
  | .ok v => pure v
  | .error e => throw e

/-- `AnyArray::set_shape`. -/
def InPlace.setShape (shape : List ℕ) : InPlace Unit := do
  let a ← get
  if wrapProduct shape ≠ a.len then
    throw (.array (.sizeMismatch (wrapProduct shape) a.len))
  else
    let d ← InPlace.lift (Dims.withItemsize shape a.dtype.itemsize)
    set {a with dims := d}

/-- `a.shape = raw`. -/
def InPlace.assignShape (raw : List ℤ) : InPlace Unit := do
  let a ← get
  if a.strided.isSome then
    throw (.python .attributeError
      "Incompatible shape for in-place modification. Use `.reshape()` to make a copy with the desired shape.")
  else
    let shape ← InPlace.lift (resolveShape a.len raw)
    InPlace.setShape shape

namespace InPlace

variable {S T : Type}

/-- Reading the array at the start of a call. -/
theorem run_get_bind (f : PyArray → InPlace T) (a : PyArray) :
    (get >>= f : InPlace T).run a = (f a).run a := rfl

theorem run_throw (e : Failure) (a : PyArray) :
    (throw e : InPlace T).run a = .error e a := rfl

/-- A part that assigns nothing leaves the array to what follows. -/
theorem run_lift_bind (x : Except Failure S) (f : S → InPlace T) (a : PyArray) :
    (lift x >>= f).run a =
      match x with
      | .ok v => (f v).run a
      | .error e => .error e a := by
  cases x <;> rfl

end InPlace

/-- The entries given are kept, and at most one is inferred. -/
def Fills (raw : List ℤ) (shape : List ℕ) : Prop :=
  unknownCount raw ≤ 1 ∧ List.Forall₂ (fun (d : ℤ) (n : ℕ) => 0 ≤ d → n = d) raw shape

theorem Resolves.fills {size : ℕ} {raw : List ℤ} (h : Resolves size raw) (inferred : ℕ) :
    Fills raw (fillIn inferred raw) := by
  refine ⟨?_, ?_⟩
  · rcases h with h | ⟨h, -⟩ <;> omega
  · apply List.forall₂_map_right_iff.mpr
    apply List.forall₂_same.mpr
    intro d _ hd
    rw [if_neg (not_lt.mpr hd), Int.toNat_of_nonneg hd]

namespace PyArray

variable {a b c : PyArray} {raw : List ℤ}

/-- `set_shape` leaves what `setShape` computes, and the array itself when it raises. -/
theorem run_setShape (a : PyArray) (shape : List ℕ) :
    (InPlace.setShape shape).run a =
      match a.setShape shape with
      | .ok b => .ok () b
      | .error e => .error e a := by
  rw [InPlace.setShape, InPlace.run_get_bind, setShape]
  split
  · exact InPlace.run_throw _ a
  · rw [InPlace.run_lift_bind]
    cases Dims.withItemsize shape a.dtype.itemsize <;> rfl

theorem run_assignShape (a : PyArray) (raw : List ℤ) :
    (InPlace.assignShape raw).run a =
      match a.assignShape raw with
      | .ok b => .ok () b
      | .error e => .error e a := by
  rw [InPlace.assignShape, InPlace.run_get_bind, assignShape]
  split
  · exact InPlace.run_throw _ a
  · rw [InPlace.run_lift_bind]
    cases resolveShape a.len raw with
    | error e => rfl
    | ok shape => exact run_setShape a shape

theorem run_assignShape_ok :
    (InPlace.assignShape raw).run a = .ok () b ↔ a.assignShape raw = .ok b := by
  rw [run_assignShape]
  split <;> simp_all

/-- A call that raises leaves the array as it was: the dims are assigned last. -/
theorem run_assignShape_error {e : Failure} (h : (InPlace.assignShape raw).run a = .error e b) :
    b = a := by
  rw [run_assignShape] at h
  split at h
  · cases h
  · cases h
    rfl

/-- The two requests succeed on the same dimensions. -/
theorem assignShape_iff_reshape (hs : a.strided = none) (hlen : raw.length ≤ maxNdim) (alloc : ℕ) :
    (∃ b, a.assignShape raw = .ok b) ↔ ∃ c, a.reshape alloc raw = .ok c := by
  constructor
  · rintro ⟨b, hb⟩
    obtain ⟨-, hres, hshape⟩ := assignShape_ok hb
    exact reshape_of_resolves alloc hlen hres hshape.wrapped
  · rintro ⟨c, hc⟩
    obtain ⟨hres, hshape⟩ := reshape_ok hc
    exact assignShape_of_resolves hs hlen hres hshape.wrapped

/-- The same bytes of the same dtype, read in the same order. -/
structure SameData (a b : PyArray) : Prop where
  dtype : b.dtype = a.dtype
  plain : b.strided = none
  len : b.len = a.len
  elementPtr : ∀ k, b.elementPtr k = a.elementPtr k

theorem SameData.data_eq {T : Type} (h : a.SameData b) (mem : ℕ → T) : b.data mem = a.data mem := by
  unfold data
  rw [h.len]
  exact List.map_congr_left fun k _ => congrArg mem (h.elementPtr k)

theorem assignShape_sameData (h : a.assignShape raw = .ok b) : a.SameData b := by
  have hs := (assignShape_ok h).1
  unfold assignShape at h
  rw [if_neg (by simp [hs])] at h
  obtain ⟨shape, -, hset⟩ := bind_eq_ok.mp h
  unfold setShape at hset
  split at hset
  · cases hset
  · obtain ⟨d, -, he⟩ := bind_eq_ok.mp hset
    cases he
    exact ⟨rfl, hs, rfl, fun k => rfl⟩

theorem elementPtr_zero_add (a : PyArray) (k : ℕ) :
    wrapUsize (a.elementPtr 0+k*a.itemsize) = a.elementPtr k := by
  rw [elementPtr, elementPtr, zero_mul, add_zero]
  exact Nat.mod_add_mod ..

theorem reshapeView_sameData {shape : List ℕ} (h : a.reshapeView shape = .ok b) : a.SameData b := by
  have hlen := (reshapeView_ok h).len_eq
  obtain ⟨d, -, hview⟩ := bind_eq_ok.mp h
  unfold view at hview
  split at hview
  · cases hview
    exact ⟨rfl, rfl, hlen, elementPtr_zero_add a⟩
  · cases hview

theorem reshape_sameData {alloc : ℕ} (hs : a.strided = none) (h : a.reshape alloc raw = .ok c) :
    a.SameData c := by
  obtain ⟨shape, -, hview⟩ := bind_eq_ok.mp h
  rw [if_neg (by simp [hs])] at hview
  exact reshapeView_sameData hview

/-- Shape assignment and `reshape` of a contiguous array: they succeed on the same
dimensions, give the same shape over the same elements, and an assignment that
fails changes nothing. -/
theorem assignShape_agrees (a : PyArray) (raw : List ℤ) (alloc : ℕ) (hs : a.strided = none)
    (hlen : raw.length ≤ maxNdim) :
    ((∃ b, (InPlace.assignShape raw).run a = .ok () b) ↔ ∃ c, a.reshape alloc raw = .ok c) ∧
      (∀ b c, (InPlace.assignShape raw).run a = .ok () b → a.reshape alloc raw = .ok c →
        b.shape = c.shape ∧ Fills raw b.shape ∧ wrapProduct b.shape = a.len ∧
          a.SameData b ∧ a.SameData c ∧
          (∀ idx, b.elementAddress idx = c.elementAddress idx) ∧
          ∀ (T : Type) (mem : ℕ → T), b.data mem = a.data mem ∧ c.data mem = a.data mem) ∧
      ∀ e b, (InPlace.assignShape raw).run a = .error e b → b = a := by
  refine ⟨?_, fun b c hb hc => ?_, fun e b => run_assignShape_error⟩
  · simp only [run_assignShape_ok]
    exact assignShape_iff_reshape hs hlen alloc
  · rw [run_assignShape_ok] at hb
    obtain ⟨-, hres, hshape⟩ := assignShape_ok hb
    have hb' := assignShape_sameData hb
    have hc' := reshape_sameData hs hc
    have heq : b.shape = c.shape := hshape.shape_eq.trans (reshape_ok hc).2.shape_eq.symm
    refine ⟨heq, ?_, ?_, hb', hc', fun idx => ?_, fun T mem => ⟨hb'.data_eq mem, hc'.data_eq mem⟩⟩
    · rw [hshape.shape_eq]
      exact hres.fills _
    · rw [hshape.shape_eq]
      exact hshape.wrapped
    · rw [← Sound.elementPtr_flat hb'.plain, ← Sound.elementPtr_flat hc'.plain, heq, hb'.elementPtr, hc'.elementPtr]

/-- Both requests for an inferred column succeed, and both for an indivisible one fail. -/
theorem assignShape_agrees_pair :
    (∃ b, (InPlace.assignShape [-1,1]).run pair = .ok () b ∧ b.shape = [2,1]) ∧
      (∃ c, pair.reshape 64 [-1,1] = .ok c) ∧
      ∀ e b, (InPlace.assignShape [-1,3]).run pair = .error e b → b = pair := by
  have hfill : fillIn (pair.len/knownSize [-1,1]) [-1,1] = [2,1] := by decide
  have hres : Resolves pair.len [-1,1] := .inr (by decide)
  have hwrap : wrapProduct (fillIn (pair.len/knownSize [-1,1]) [-1,1]) = pair.len := by decide
  obtain ⟨c, hc⟩ := reshape_of_resolves 64 (by decide) hres hwrap
  have hok := assignShape_agrees pair [-1,1] 64 rfl (by decide)
  obtain ⟨b, hb⟩ := hok.1.mpr ⟨c, hc⟩
  refine ⟨⟨b, hb, ?_⟩, ⟨c, hc⟩, (assignShape_agrees pair [-1,3] 64 rfl (by decide)).2.2⟩
  rw [(hok.2.1 b c hb hc).1, (reshape_ok hc).2.shape_eq, hfill]

end PyArray
end LightArray
