import LightArray.StridedCopy
import LightArray.WindowSpec

namespace LightArray
open MachineWord RowMajor

section kernel

variable {t : DType} {T : Type}

/-- The loop of `gather` over one axis; `visit` is what it does at an offset. -/
def gatherAxis (visit : ℕ → Except Failure (List T)) (offset stride : ℕ) (step : ℤ) : ℕ → ℤ → Except Failure (List T)
  | 0, _ => .ok []
  | n+1, pos => do
    let out ← visit (wrapUsize (offset+wrapUsize (asUsize pos*stride)))
    let rest ← gatherAxis visit offset stride step n (wrapIsize (pos+step))
    .ok (out ++ rest)

/-- The elements that a plan selects, pushed axis by axis; the last axis reads. -/
def gather (data : List T) : List PlanAxis → List ℕ → ℕ → Except Failure (List T)
  | [], _, _ => .error (.panic "index out of bounds")
  | p :: plan, strides, offset =>
    gatherAxis (fun off => if plan.isEmpty then readEach data [off] else gather data plan strides.tail off)
      offset (strides.headD 0) p.step p.count (asIsize p.start)

namespace NdArray

def gatherPlan (a : NdArray t T) (plan : List PlanAxis) (outShape : List ℕ) : Except Failure (NdArray t T) := do
  let outSize := wrapProduct outShape
  let _ ← withCapacity t outSize
  let out ← if 0 < outSize then gather a.data plan a.dims.elemStrides 0 else .ok []
  new t out outShape

/-- General basic indexing; the result is a copy. -/
def select (a : NdArray t T) (sels : List Selector) : Except Failure (NdArray t T) := do
  let (plan, outShape) ← a.dims.selectionPlan sels
  a.gatherPlan plan outShape

/-- The window of `plan_view`, as the elements it shows; none for a selection that is no block. -/
def planView (a : NdArray t T) (plan : List PlanAxis) (outShape : List ℕ) : Except Failure (Option (NdArray t T)) :=
  match a.dims.planOutcome plan with
  | .empty => do
    let z ← new t [] outShape
    .ok (some z)
  | .strided => .ok none
  | .window offset => do
    let d ← Dims.withItemsize outShape t.itemsize
    if a.data.length < wrapUsize (offset+d.size) then .error (.panic "view out of bounds")
    else .ok (some ⟨d, (a.data.drop offset).take d.size⟩)

end NdArray

end kernel

section gather

variable {T : Type} {data : List T} {sels : List Selector} {shape : List ℕ} {plan : List PlanAxis} {m : IndexMap}

/-- One axis whose positions `c i` the loop meets in turn. -/
theorem gatherAxis_ok {visit : ℕ → Except Failure (List T)} {offset stride : ℕ} {step : ℤ} {n : ℕ} {pos : ℤ}
    {c : ℕ → ℕ} {out : ℕ → List T} (hpos : ∀ i < n, ((pos+step*i : ℤ) : Word) = c i)
    (hlt : ∀ i < n, offset+c i*stride < wordModulus) (hvisit : ∀ i < n, visit (offset+c i*stride) = .ok (out i)) :
    gatherAxis visit offset stride step n pos = .ok ((List.range n).flatMap out) := by
  induction n generalizing pos c out with
  | zero => rfl
  | succ n ih =>
    have hoff : wrapUsize (offset+wrapUsize (asUsize pos*stride)) = offset+c 0*stride := by
      apply eq_of_cast_eq (wrapUsize_lt _) (hlt 0 n.succ_pos)
      have h0 := hpos 0 n.succ_pos
      push_cast [cast_wrapUsize, cast_asUsize] at h0 ⊢
      rw [← h0]
      ring
    have hnext : ∀ i < n, ((wrapIsize (pos+step)+step*i : ℤ) : Word) = c (i+1) := by
      intro i hi
      have h := hpos (i+1) (Nat.succ_lt_succ hi)
      push_cast [cast_wrapIsize] at h ⊢
      rw [← h]
      ring
    have hvisits : ∀ i < n, visit (offset+c (i+1)*stride) = .ok (out (i+1)) := fun i hi => hvisit (i+1) (Nat.succ_lt_succ hi)
    have hrest := ih hnext (fun i hi => hlt (i+1) (Nat.succ_lt_succ hi)) hvisits
    rw [gatherAxis, hoff, hvisit 0 n.succ_pos, hrest, List.range_succ_eq_map, List.flatMap_cons, List.flatMap_map]
    rfl

theorem forall₂_flatMap {α β γ : Type} {R : β → γ → Prop} {xs : List α} {f : α → List β} {g : α → List γ}
    (h : ∀ x ∈ xs, List.Forall₂ R (f x) (g x)) : List.Forall₂ R (xs.flatMap f) (xs.flatMap g) := by
  induction xs with
  | nil => exact .nil
  | cons x xs ih =>
    obtain ⟨hx, hxs⟩ := List.forall_mem_cons.mp h
    rw [List.flatMap_cons, List.flatMap_cons]
    exact List.rel_append hx (ih hxs)

/-- What the selectors after an axis read from an offset on: the selected elements, in C order. -/
def Reads (data : List T) (shape : List ℕ) (m : IndexMap) (visit : ℕ → Except Failure (List T)) : Prop :=
  ∀ offset, offset+shape.prod ≤ data.length → ∃ out, visit offset = .ok out ∧
    List.Forall₂ (fun idx v => data[offset+flat shape (m.map idx)]? = some v) (enum m.shape) out

theorem reads_axis {visit : ℕ → Except Failure (List T)} {len n : ℕ} {start step : ℤ} {c : ℕ → ℕ}
    (hlen : data.length < wordModulus) (hvisit : Reads data shape m visit)
    (hc : ∀ i < n, c i < len) (hpos : ∀ i < n, ((start+step*i : ℤ) : Word) = c i) :
    Reads data (len :: shape) ⟨n :: m.shape, fun idx => c (idx.headD 0) :: m.map idx.tail⟩
      (fun offset => gatherAxis visit offset shape.prod step n start) := by
  intro offset hend
  rw [List.prod_cons] at hend
  have hstep (i : ℕ) (hi : i < n) : offset+c i*shape.prod+shape.prod ≤ data.length := by
    have hle : (c i+1)*shape.prod ≤ len*shape.prod := Nat.mul_le_mul_right _ (hc i hi)
    rw [Nat.succ_mul] at hle
    omega
  choose! out hout hall using fun i (hi : i < n) => hvisit (offset+c i*shape.prod) (hstep i hi)
  refine ⟨_, gatherAxis_ok hpos (fun i hi => ?_) hout, ?_⟩
  · have hle := hstep i hi
    omega
  · rw [enum]
    apply forall₂_flatMap
    intro i hi
    rw [List.forall₂_map_left_iff]
    refine (hall i (List.mem_range.mp hi)).imp fun idx v hv => ?_
    simpa only [List.headD_cons, List.tail_cons, flat, add_assoc] using hv

theorem reads_int {visit : ℕ → Except Failure (List T)} {len k : ℕ} (hlen : data.length < wordModulus)
    (hvisit : Reads data shape m visit) (hk : k < len) :
    Reads data (len :: shape) ⟨m.shape, fun idx => k :: m.map idx⟩
      (fun offset => gatherAxis visit offset shape.prod 1 1 (asIsize k)) := by
  intro offset hend
  rw [List.prod_cons] at hend
  have hle : (k+1)*shape.prod ≤ len*shape.prod := Nat.mul_le_mul_right _ hk
  rw [Nat.succ_mul] at hle
  obtain ⟨out, hout, hall⟩ := hvisit (offset+k*shape.prod) (by omega)
  refine ⟨out, ?_, ?_⟩
  · have hpos : ∀ i : ℕ, i < 1 → ((asIsize k+1*i : ℤ) : Word) = (fun _ => k) i := by
      intro i hi
      obtain rfl : i = 0 := by omega
      push_cast [cast_asIsize]
      ring
    have hloop : gatherAxis visit offset shape.prod 1 1 (asIsize k) = .ok ((List.range 1).flatMap fun _ => out) :=
      gatherAxis_ok hpos (fun _ _ => by omega) (fun _ _ => hout)
    simpa using hloop
  · refine hall.imp fun idx v hv => ?_
    simpa only [flat, add_assoc] using hv

theorem Reads.congr {m' : IndexMap} {visit : ℕ → Except Failure (List T)} (h : Reads data shape m visit)
    (hs : m'.shape = m.shape) (hm : ∀ idx, InRange m.shape idx → m'.map idx = m.map idx) : Reads data shape m' visit := by
  intro offset hend
  obtain ⟨out, hout, hall⟩ := h offset hend
  refine ⟨out, hout, ?_⟩
  rw [hs, List.forall₂_iff_get] at *
  refine ⟨hall.1, fun i h₁ h₂ => ?_⟩
  have hv := hall.2 i h₁ h₂
  have hidx : InRange m.shape ((enum m.shape).get ⟨i,h₁⟩) := mem_enum.mp (List.get_mem _ _)
  rwa [hm _ hidx]

/-- What `gather` does after an axis, or at the element itself. -/
def gatherRest (data : List T) (plan : List PlanAxis) (strides : List ℕ) (off : ℕ) : Except Failure (List T) :=
  if plan.isEmpty then readEach data [off] else gather data plan strides off

theorem reads_element (data : List T) : Reads data [] (.refl []) (fun off => readEach data [off]) := by
  intro offset hend
  have hlt : offset < data.length := hend
  have hv := List.getElem?_eq_getElem hlt
  refine ⟨[data[offset]], ?_, ?_⟩
  · simp only [readEach, hv]
    rfl
  · exact .cons hv .nil

theorem reads_rest (hlen : data.length < wordModulus) (shape : List ℕ) :
    Reads data shape (.refl shape) (gatherRest data (shape.map fun d => ⟨0,1,d⟩) (unitStrides shape)) := by
  induction shape with
  | nil => exact reads_element data
  | cons d ds ih =>
    have hpos (i : ℕ) (_ : i < d) : ((asIsize 0+1*i : ℤ) : Word) = (i : ℕ) := by
      push_cast [cast_asIsize]
      ring
    have haxis := reads_axis (c := fun i => i) hlen ih (fun _ hi => hi) hpos
    refine haxis.congr rfl fun idx hidx => ?_
    obtain ⟨i, is, rfl, -, -⟩ := hidx.cases_cons
    rfl

/-- The position of a resolved slice, as the word the loop computes. -/
theorem slice_position_cast {len : ℕ} {start stop step : ℤ} (resolved : ResolvedSlice len start stop step) {i : ℕ}
    (hi : i < rangeLength start stop step) : ((asIsize (asUsize start)+step*i : ℤ) : Word) = ((start+step*i).toNat : ℕ) := by
  rw [slice_coordinate_cast resolved hi]
  push_cast [cast_asIsize, cast_asUsize]
  rfl

/-- Every plan reads what its index map selects. -/
theorem PlanOf.reads (h : PlanOf sels shape plan m) (hlen : data.length < wordModulus) :
    Reads data shape m (gatherRest data plan (unitStrides shape)) := by
  induction h with
  | rest shape => exact reads_rest hlen shape
  | int lower upper _ ih => exact reads_int hlen ih (coordinate_lt lower upper)
  | slice resolved _ ih =>
    refine reads_axis hlen ih (fun i hi => ?_) (fun i hi => slice_position_cast resolved hi)
    have hpos := slice_position resolved hi
    omega

end gather

end LightArray
