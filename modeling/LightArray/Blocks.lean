import LightArray.NdArray

namespace LightArray
open MachineWord RowMajor

section lists

variable {α β ι : Type}

/-- Entry `q` of block `o`, where all blocks have the same length. -/
theorem getElem?_flatten_uniform {bs : List (List α)} {n o q : ℕ} (h : ∀ b ∈ bs, b.length = n) (hq : q < n) :
    bs.flatten[o*n+q]? = bs[o]?.bind (·[q]?) := by
  induction bs generalizing o with
  | nil => simp
  | cons b rest ih =>
    obtain ⟨hb, hrest⟩ := List.forall_mem_cons.mp h
    rw [List.flatten_cons]
    cases o with
    | zero => rw [zero_mul, zero_add, List.getElem?_append_left (by omega), List.getElem?_cons_zero, Option.bind_some]
    | succ o =>
      have hpos : (o+1)*n+q = b.length+(o*n+q) := by
        rw [hb]
        ring
      rw [hpos, List.getElem?_append_right (Nat.le_add_right ..), Nat.add_sub_cancel_left, ih hrest,
        List.getElem?_cons_succ]

theorem length_flatten_uniform {bs : List (List α)} {n : ℕ} (h : ∀ b ∈ bs, b.length = n) :
    bs.flatten.length = bs.length*n := by
  induction bs with
  | nil => simp
  | cons b rest ih =>
    obtain ⟨hb, hrest⟩ := List.forall_mem_cons.mp h
    rw [List.flatten_cons, List.length_append, ih hrest, hb, List.length_cons]
    ring

/-- An entry of the list with the entry that stands at the same place of the other. -/
theorem forall₂_getElem? {R : α → β → Prop} {l₁ : List α} {l₂ : List β} (h : List.Forall₂ R l₁ l₂) {i : ℕ} {x : α}
    (hi : l₁[i]? = some x) : ∃ y, l₂[i]? = some y ∧ R x y := by
  obtain ⟨hlt, rfl⟩ := List.getElem?_eq_some_iff.mp hi
  exact ⟨_, List.getElem?_eq_getElem (h.length_eq ▸ hlt), h.get hlt (h.length_eq ▸ hlt)⟩

theorem exists_forall₂ {R : α → β → Prop} {xs : List α} (h : ∀ x ∈ xs, ∃ y, R x y) : ∃ ys, List.Forall₂ R xs ys := by
  induction xs with
  | nil => exact ⟨[], .nil⟩
  | cons x xs ih =>
    obtain ⟨⟨y, hy⟩, hxs⟩ := List.forall_mem_cons.mp h
    obtain ⟨ys, hys⟩ := ih hxs
    exact ⟨y :: ys, .cons hy hys⟩

end lists

variable {t : DType} {T ι : Type}

/-- The slice `&data[lo..hi]`. -/
def slice (data : List T) (lo hi : ℕ) : Except Failure (List T) :=
  if lo ≤ hi ∧ hi ≤ data.length then .ok ((data.drop lo).take (hi-lo))
  else .error (.panic "slice index out of range")

theorem slice_eq {data : List T} {lo n : ℕ} (h : lo+n ≤ data.length) :
    slice data lo (lo+n) = .ok ((data.drop lo).take n) := by
  rw [slice, if_pos ⟨Nat.le_add_right .., h⟩, Nat.add_sub_cancel_left]

theorem slice_ok {data : List T} {lo n : ℕ} (h : lo+n ≤ data.length) :
    ∃ row, slice data lo (lo+n) = .ok row ∧ row.length = n ∧ ∀ q < n, row[q]? = data[lo+q]? := by
  refine ⟨_, slice_eq h, ?_, fun q hq => ?_⟩
  · rw [List.length_take, List.length_drop]
    omega
  · rw [List.getElem?_take_of_lt hq, List.getElem?_drop]

/-- The loop that pushes `self.data[off]` for every offset. -/
def readEach (data : List T) : List ℕ → Except Failure (List T)
  | [] => .ok []
  | off :: offs =>
    match data[off]? with
    | none => .error (.panic "index out of bounds")
    | some v => do
      let out ← readEach data offs
      .ok (v :: out)

theorem readEach_ok {data : List T} {offs : List ℕ} (h : ∀ off ∈ offs, off < data.length) :
    ∃ out, readEach data offs = .ok out ∧ List.Forall₂ (fun off v => data[off]? = some v) offs out := by
  induction offs with
  | nil => exact ⟨[], rfl, .nil⟩
  | cons off offs ih =>
    obtain ⟨hoff, hoffs⟩ := List.forall_mem_cons.mp h
    obtain ⟨out, hout, hall⟩ := ih hoffs
    have hv := List.getElem?_eq_getElem hoff
    refine ⟨data[off] :: out, ?_, .cons hv hall⟩
    simp only [readEach, hv, hout]
    rfl

/-- A loop that appends a block to the output vector in every iteration; the vector grows
within the limits of an allocation. -/
def appendBlocks (t : DType) (block : ι → Except Failure (List T)) : List ι → List T → Except Failure (List T)
  | [], out => .ok out
  | i :: is, out => do
    let b ← block i
    let _ ← withCapacity t (out.length+b.length)
    appendBlocks t block is (out ++ b)

/-- The vector is the blocks one after another, and it fits. -/
theorem appendBlocks_iff {block : ι → Except Failure (List T)} {is : List ι} {out r : List T}
    (hout : t.itemsize*out.length ≤ isizeMax) : appendBlocks t block is out = .ok r ↔
      ∃ bs, List.Forall₂ (fun i b => block i = .ok b) is bs ∧ r = out ++ bs.flatten ∧ t.itemsize*r.length ≤ isizeMax := by
  induction is generalizing out with
  | nil =>
    simp only [appendBlocks, List.forall₂_nil_left_iff, exists_eq_left, List.flatten_nil, List.append_nil,
      Except.ok.injEq]
    constructor
    · rintro rfl
      exact ⟨rfl, hout⟩
    · rintro ⟨rfl, -⟩
      rfl
  | cons i is ih =>
    rw [appendBlocks, bind_eq_ok]
    constructor
    · rintro ⟨b, hb, h⟩
      obtain ⟨u, hcap, h⟩ := bind_eq_ok.mp h
      rw [withCapacity_ok, ← List.length_append] at hcap
      obtain ⟨bs, hbs, rfl, hfit⟩ := (ih hcap).mp h
      exact ⟨b :: bs, .cons hb hbs, by rw [List.flatten_cons, List.append_assoc], hfit⟩
    · rintro ⟨bs, hbs, rfl, hfit⟩
      cases hbs with
      | @cons _ b _ bs hb hbs =>
        have hcap : t.itemsize*(out.length+b.length) ≤ isizeMax := by
          refine le_trans (Nat.mul_le_mul_left _ ?_) hfit
          rw [List.flatten_cons, List.length_append, List.length_append]
          omega
        have happ : out ++ (b :: bs).flatten = out ++ b ++ bs.flatten := by rw [List.flatten_cons, List.append_assoc]
        refine ⟨b, hb, bind_eq_ok.mpr ⟨(), withCapacity_ok.mpr hcap, ?_⟩⟩
        rw [← List.length_append] at hcap
        exact (ih hcap).mpr ⟨bs, hbs, happ, hfit⟩

theorem appendBlocks_eq {block : ι → Except Failure (List T)} {is : List ι} {g : ι → List T} {r : List T}
    (hg : ∀ i ∈ is, block i = .ok (g i)) : appendBlocks t block is [] = .ok r ↔
      r = is.flatMap g ∧ t.itemsize*r.length ≤ isizeMax := by
  have hall : List.Forall₂ (fun i b => block i = .ok b) is (is.map g) := by
    rw [List.forall₂_map_right_iff, List.forall₂_same]
    exact hg
  rw [appendBlocks_iff (Nat.zero_le _), List.flatMap_def]
  constructor
  · rintro ⟨bs, hbs, rfl, hfit⟩
    obtain rfl : bs = is.map g := List.right_unique_forall₂' (fun _ _ _ h h' => Except.ok.inj (h.symm.trans h')) hbs hall
    exact ⟨List.nil_append _, hfit⟩
  · rintro ⟨rfl, hfit⟩
    exact ⟨_, hall, rfl, hfit⟩

theorem NdArray.Counted.block_end {a : NdArray t T} {s u : List ℕ} {len : ℕ} (h : a.Counted) (hs : a.shape = s ++ len :: u) {o : ℕ} (ho : o < wrapProduct s) :
    (o+1)*len*wrapProduct u ≤ a.data.length := by
  have hlt := h.prod_lt
  rw [h.count, hs, List.prod_append, List.prod_cons]
  rw [hs, List.prod_append, List.prod_cons] at hlt
  calc
    (o+1)*len*wrapProduct u = (o+1)*(len*wrapProduct u) := mul_assoc ..
    _ ≤ wrapProduct s*(len*wrapProduct u) := Nat.mul_le_mul_right _ ho
    _ = s.prod*(len*u.prod) := wrapProduct_mul_mul hlt

/-- The axis an `axis` argument means, counted from the end when negative. -/
def resolveAxis (axis : ℤ) (ndim : ℕ) : Except Failure ℕ :=
  if axis < -ndim ∨ ndim ≤ axis then
    .error (.array (.message ("axis " ++ toString axis ++ " is out of bounds for array of dimension " ++ toString ndim)))
  else if axis < 0 then .ok (axis+ndim).toNat
  else .ok axis.toNat

theorem resolveAxis_ok {axis : ℤ} {ndim k : ℕ} : resolveAxis axis ndim = .ok k ↔
    k < ndim ∧ (axis = k ∨ axis = k-ndim) := by
  unfold resolveAxis
  split_ifs
  · simp only [false_iff]
    omega
  · rw [Except.ok.injEq]
    omega
  · rw [Except.ok.injEq]
    omega

theorem exists_resolveAxis {axis : ℤ} {ndim : ℕ} : (∃ k, resolveAxis axis ndim = .ok k) ↔ -ndim ≤ axis ∧ axis < ndim := by
  unfold resolveAxis
  split_ifs
  · simp only [exists_false, false_iff]
    omega
  · simp only [Except.ok.injEq, exists_eq', true_iff]
    omega
  · simp only [Except.ok.injEq, exists_eq', true_iff]
    omega

/-- The axis an argument means. -/
def MeansAxis (axis : ℤ) (ndim k : ℕ) : Prop := k < ndim ∧ (axis = k ∨ axis = k-ndim)

theorem NdArray.axis_cases (axis : ℤ) (a : NdArray t T) :
    (∃ e, resolveAxis axis a.ndim = .error e) ∧ (axis < -a.ndim ∨ a.ndim ≤ axis) ∧ (∀ k, ¬ MeansAxis axis a.ndim k) ∨
    ∃ s len u, a.shape = s ++ len :: u ∧ resolveAxis axis a.ndim = .ok s.length ∧ (-a.ndim ≤ axis ∧ axis < a.ndim) ∧
      ∀ k, MeansAxis axis a.ndim k ↔ k = s.length := by
  cases hk : resolveAxis axis a.ndim with
  | error e =>
    have hno : ¬ ∃ k, resolveAxis axis a.ndim = .ok k := by
      rintro ⟨k, hk'⟩
      rw [hk] at hk'
      cases hk'
    have hout : ¬ (-(a.ndim : ℤ) ≤ axis ∧ axis < a.ndim) := fun hin => hno (exists_resolveAxis.mpr hin)
    refine .inl ⟨⟨e, rfl⟩, by omega, fun k hmeans => hno ⟨k, resolveAxis_ok.mpr hmeans⟩⟩
  | ok k =>
    have hmeans := resolveAxis_ok.mp hk
    have hlt : k < a.shape.length := hmeans.1
    obtain ⟨s, len, u, hs, rfl⟩ := exists_axis hlt
    refine .inr ⟨s, len, u, hs, rfl, exists_resolveAxis.mp ⟨_, hk⟩, fun k => ⟨fun h => ?_, fun h => h ▸ hmeans⟩⟩
    rw [MeansAxis, ← resolveAxis_ok, hk] at h
    exact (Except.ok.inj h).symm

end LightArray
