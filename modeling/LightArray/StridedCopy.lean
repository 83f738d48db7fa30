import LightArray.Blocks
import LightArray.WalkStrided

namespace LightArray
open MachineWord RowMajor

namespace NdArray

variable {t : DType} {T : Type}

/-- The calls `data[k] = *(ptr + offset)` of one walk. -/
def storeCalls (mem : ℕ → T) (ptr : ℕ) : List (ℕ × ℤ) → List T → Except Failure (List T)
  | [], data => .ok data
  | (k, offset) :: rest, data =>
    if k < data.length then storeCalls mem ptr rest (data.set k (mem (wrappingOffset ptr offset)))
    else .error (.panic "index out of bounds")

/-- Fill this array from a strided source. -/
def gatherFrom (mem : ℕ → T) (a : NdArray t T) (ptr : ℕ) (strides : List ℤ) : Except Failure (NdArray t T) := do
  let data ← storeCalls mem ptr (walkStrided a.shape strides) a.data
  .ok ⟨a.dims, data⟩

/-- The memory holds the elements of the array from `ptr` on. -/
def Stored (mem : ℕ → T) (ptr : ℕ) (a : NdArray t T) : Prop :=
  ∀ k v, a.data[k]? = some v → mem (wrapUsize (ptr+k*t.itemsize)) = v

/-- Where the elements of an array stored at `ptr` live. -/
def layoutAt (ptr : ℕ) (a : NdArray t T) : Layout := ⟨ptr, a.shape, a.dims.strides⟩

variable {mem : ℕ → T} {ptr : ℕ} {a z : NdArray t T} {offsets : List ℤ} {data : List T}

/-- Consecutive flat indices overwrite the buffer from the first one on. -/
theorem storeCalls_zipIdx (done : List T) (h : offsets.length ≤ data.length) :
    storeCalls mem ptr ((offsets.zipIdx done.length).map Prod.swap) (done ++ data) =
      .ok (done ++ offsets.map (fun o => mem (wrappingOffset ptr o)) ++ data.drop offsets.length) := by
  induction offsets generalizing done data with
  | nil => simp [storeCalls]
  | cons o offsets ih =>
    cases data with
    | nil => simp at h
    | cons v data =>
      have hlt : done.length < (done ++ v :: data).length := by simp
      have hset : (done ++ v :: data).set done.length (mem (wrappingOffset ptr o)) =
          (done ++ [mem (wrappingOffset ptr o)]) ++ data := by
        simp
      have hlen : offsets.length ≤ data.length := by simpa using h
      have hrest := ih (done ++ [mem (wrappingOffset ptr o)]) hlen
      rw [List.length_append, List.length_singleton] at hrest
      rw [List.zipIdx_cons, List.map_cons, Prod.swap_prod_mk, storeCalls, if_pos hlt, hset, hrest]
      simp

/-- The walk replaces the whole buffer, in C order. -/
theorem storeCalls_calls (h : offsets.length = data.length) :
    storeCalls mem ptr (calls offsets) data = .ok (offsets.map fun o => mem (wrappingOffset ptr o)) := by
  have hall : storeCalls mem ptr ((offsets.zipIdx 0).map Prod.swap) ([] ++ data) = _ := storeCalls_zipIdx [] h.le
  rw [h, List.drop_length, List.append_nil, List.nil_append] at hall
  exact hall

/-- What is read through a layout: the elements in C order, each at its address. -/
theorem gatherFrom_layout {l : Layout} (hl : l.Wf) (hcount : z.data.length = z.shape.prod) (hprod : z.shape.prod < wordModulus)
    (hshape : l.shape = z.shape) :
    gatherFrom mem z l.ptr l.strides = .ok ⟨z.dims, (enum z.shape).map fun idx => mem (l.addr idx).val⟩ := by
  obtain ⟨offsets, hwalk, hoffsets⟩ := walkStrided_spec (hshape ▸ hl.strides_length) hprod
  have hlen : offsets.length = z.data.length := by
    have h := congrArg List.length hoffsets
    rw [List.length_map, List.length_map, length_enum] at h
    rw [h, hcount]
  have hptr (o : ℤ) : wrappingOffset l.ptr o = ((l.ptr : Word)+(o : Word)).val :=
    eq_val_of_cast_eq (wrappingOffset_lt _ _) (cast_wrappingOffset _ _)
  have hdata : offsets.map (fun o => mem (wrappingOffset l.ptr o)) = (enum z.shape).map fun idx => mem (l.addr idx).val := by
    have h := congrArg (List.map fun w : Word => mem ((l.ptr : Word)+w).val) hoffsets
    rw [List.map_map, List.map_map] at h
    simp only [hptr]
    exact h
  rw [gatherFrom, hwalk, storeCalls_calls hlen, hdata]
  rfl

theorem layoutAt_wf (hptr : ptr < wordModulus) (a : NdArray t T) : (a.layoutAt ptr).Wf := ⟨a.dims.length_strides, hptr⟩

theorem Stored.read (h : Stored mem ptr a) {idx : List ℕ} {v : T} (hv : a.at? idx = some v) :
    mem ((a.layoutAt ptr).addr idx).val = v := by
  have hk := h _ v hv
  have haddr : wrapUsize (ptr+flat a.shape idx*t.itemsize) = ((a.layoutAt ptr).addr idx).val := by
    apply eq_val_of_cast_eq (wrapUsize_lt _)
    rw [Layout.addr, layoutAt, Dims.dot_strides, cast_wrapUsize]
    push_cast
    rw [mul_comm]
    rfl
  rwa [haddr] at hk

end NdArray

end LightArray
