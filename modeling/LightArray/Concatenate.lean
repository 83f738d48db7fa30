import LightArray.Blocks
import LightArray.AnyArray

/-! `concatenate` (`array.rs`) and `stack` (`lib.rs`). -/
namespace LightArray
open MachineWord RowMajor

section kernel

variable {t : DType} {T : Type}

/-- The loop over the axes `k`, `k+1`, … of a part and of the first part. -/
def checkAxes (axis : ℕ) : ℕ → List ℕ → List ℕ → Except Failure Unit
  | k, a :: as, b :: bs =>
    if k ≠ axis ∧ a ≠ b then
      .error (.array (.message (
        "all the input array dimensions except for the concatenation axis must match exactly, but along dimension " ++
        toString k ++ ", sizes " ++ toString b ++ " and " ++ toString a ++ " differ")))
    else checkAxes axis (k+1) as bs
  | _, _, _ => .ok ()

namespace NdArray

/-- The length of an axis. -/
def axisLen (k : ℕ) (a : NdArray t T) : ℕ := a.shape.getD k 0

/-- The loop over the parts: each must match the first, and its length is added to the axis. -/
def joinShapes (first : NdArray t T) (axis : ℕ) : List (NdArray t T) → List ℕ → Except Failure (List ℕ)
  | [], out => .ok out
  | p :: ps, out =>
    if p.ndim ≠ first.ndim then
      .error (.array (.message "all the input arrays must have same number of dimensions"))
    else do
      checkAxes axis 0 p.shape first.shape
      joinShapes first axis ps (out.set axis (wrapUsize (out.getD axis 0+p.axisLen axis)))

/-- The block of a part that belongs to one outer index. -/
def partBlock (axis inner : ℕ) : ℕ × NdArray t T → Except Failure (List T)
  | (o, p) =>
    let block := wrapUsize (p.axisLen axis*inner)
    slice p.data (wrapUsize (o*block)) (wrapUsize ((o+1)*block))

/-- Join arrays of equal ndim along an axis. -/
def concatenate (parts : List (NdArray t T)) (axis : ℤ) : Except Failure (NdArray t T) :=
  match parts with
  | [] => .error (.array (.message "need at least one array to concatenate"))
  | first :: rest =>
    if first.ndim = 0 then .error (.array (.message "zero-dimensional arrays cannot be concatenated"))
    else do
      let k ← resolveAxis axis first.ndim
      let out ← joinShapes first k (first :: rest) (first.shape.set k 0)
      let outer := wrapProduct (first.shape.take k)
      let inner := wrapProduct (first.shape.drop (k+1))
      let _ ← withCapacity t (wrapProduct out)
      let data ← appendBlocks t (partBlock k inner)
        ((List.range outer).flatMap fun o => (first :: rest).map fun p => (o, p)) []
      new t data out

/-- The same elements under another shape. -/
def reshape (a : NdArray t T) (shape : List ℕ) : Except Failure (NdArray t T) := new t a.data shape

end NdArray

namespace AnyArray

variable {F : Type}

/-- The arrays of a list whose dtype is `t` throughout. -/
def same (t : DType) : List (AnyArray F) → Option (List (NdArray t (Elem F t)))
  | [] => some []
  | p :: ps => do
    let a ← asArray t p
    let refs ← same t ps
    some (a :: refs)

/-- Concatenate arrays of one dtype; `none` when the dtypes differ. -/
def concatenate (parts : List (AnyArray F)) (axis : ℤ) : Except Failure (Option (AnyArray F)) :=
  match parts with
  | [] => .error (.array (.message "need at least one array to concatenate"))
  | first :: rest =>
    match same first.dtype (first :: rest) with
    | none => .ok none
    | some refs => do
      let joined ← NdArray.concatenate refs axis
      .ok (some (ofArray first.dtype joined))

def reshape (a : AnyArray F) (shape : List ℕ) : Except Failure (AnyArray F) := do
  let b ← a.inner.reshape shape
  .ok (ofArray a.dtype b)

/-- The parts with the new axis, in order. -/
def expand (shape : List ℕ) : List (AnyArray F) → Except Failure (List (AnyArray F))
  | [] => .ok []
  | p :: ps => do
    let q ← p.reshape shape
    let qs ← expand shape ps
    .ok (q :: qs)

/-- `stack`: insert a new axis of length one, then concatenate; `none` when NumPy is asked. -/
def stack (parts : List (AnyArray F)) (axis : ℤ) : Except Failure (Option (AnyArray F)) :=
  match parts with
  | [] => .ok none
  | first :: rest =>
    let ndim : ℤ := first.ndim+1
    if (∀ p ∈ first :: rest, p.shape = first.shape) ∧ -ndim ≤ axis ∧ axis < ndim then do
      let ax := if axis < 0 then (axis+ndim).toNat else axis.toNat
      let expanded ← expand (first.shape.insertIdx ax 1) (first :: rest)
      concatenate expanded ax
    else .ok none

end AnyArray

end kernel

section shapes

variable {t : DType} {T : Type} {first p : NdArray t T} {parts : List (NdArray t T)} {axis k : ℕ}

theorem checkAxes_iff {as bs : List ℕ} (h : as.length = bs.length) :
    checkAxes axis k as bs = .ok () ↔ ∀ j, k+j ≠ axis → as[j]? = bs[j]? := by
  induction as generalizing bs k with
  | nil =>
    rw [List.length_nil, eq_comm, List.length_eq_zero_iff] at h
    subst h
    simp [checkAxes]
  | cons a as ih =>
    cases bs with
    | nil => simp at h
    | cons b bs =>
      have hlen : as.length = bs.length := by simpa using h
      have hrest := ih (k := k+1) hlen
      rw [checkAxes]
      constructor
      · intro hok j hj
        split_ifs at hok with hne
        rw [not_and_or, not_not, not_not] at hne
        cases j with
        | zero =>
          rw [add_zero] at hj
          rw [List.getElem?_cons_zero, List.getElem?_cons_zero, hne.resolve_left hj]
        | succ j =>
          rw [List.getElem?_cons_succ, List.getElem?_cons_succ]
          exact hrest.mp hok j (by omega)
      · intro hall
        have hhead : ¬ (k ≠ axis ∧ a ≠ b) := by
          rintro ⟨hk, hab⟩
          have h0 := hall 0 hk
          simp [hab] at h0
        rw [if_neg hhead]
        refine hrest.mpr fun j hj => ?_
        have hs := hall (j+1) (by omega)
        rwa [List.getElem?_cons_succ, List.getElem?_cons_succ] at hs

/-- Two shapes differ at most in the length of one axis. -/
def Alike (axis : ℕ) (s t : List ℕ) : Prop := s.length = t.length ∧ ∀ j ≠ axis, s[j]? = t[j]?

theorem Alike.eq_append {s u sp : List ℕ} {d : ℕ} (h : Alike s.length sp (s ++ d :: u)) :
    sp = s ++ sp.getD s.length 0 :: u := by
  obtain ⟨hlen, hall⟩ := h
  have hk : s.length < sp.length := by
    rw [hlen]
    simp
  apply List.ext_getElem?
  intro j
  by_cases hj : j = s.length
  · subst hj
    rw [List.getElem?_append_right (le_refl _), Nat.sub_self, List.getElem?_cons_zero,
      List.getD_eq_getElem?_getD, List.getElem?_eq_getElem hk, Option.getD_some]
  · rw [hall j hj]
    rcases Nat.lt_or_gt_of_ne hj with hlt | hgt
    · rw [List.getElem?_append_left hlt, List.getElem?_append_left hlt]
    · obtain ⟨n, rfl⟩ := Nat.exists_eq_add_of_lt hgt
      rw [List.getElem?_append_right (by omega), List.getElem?_append_right (by omega),
        show s.length+n+1-s.length = n+1 by omega, List.getElem?_cons_succ, List.getElem?_cons_succ]

theorem set_length {α : Type} (a b : List α) (x y : α) : (a ++ x :: b).set a.length y = a ++ y :: b := by
  induction a with
  | nil => rfl
  | cons z a ih => rw [List.cons_append, List.length_cons, List.set_cons_succ, ih, List.cons_append]

theorem modify_length {α : Type} (a b : List α) (x : α) (f : α → α) :
    (a ++ x :: b).modify a.length f = a ++ f x :: b := by
  induction a with
  | nil => rfl
  | cons z a ih => rw [List.cons_append, List.length_cons, List.modify_succ_cons, ih, List.cons_append]

namespace NdArray

theorem joinShapes_ok {s u : List ℕ} (h : ∀ p ∈ parts, Alike axis p.shape first.shape) (haxis : axis = s.length) (n : ℕ) :
    joinShapes first axis parts (s ++ wrapUsize n :: u) =
      .ok (s ++ wrapUsize (n+(parts.map (axisLen axis)).sum) :: u) := by
  induction parts generalizing n with
  | nil => rfl
  | cons p ps ih =>
    obtain ⟨hp, hps⟩ := List.forall_mem_cons.mp h
    have hcheck : checkAxes axis 0 p.shape first.shape = .ok () :=
      (checkAxes_iff hp.1).mpr fun j hj => hp.2 j (by omega)
    have hset : (s ++ wrapUsize n :: u).set axis (wrapUsize ((s ++ wrapUsize n :: u).getD axis 0+p.axisLen axis)) =
        s ++ wrapUsize (n+p.axisLen axis) :: u := by
      rw [haxis, getD_length, set_length, wrapUsize, wrapUsize, wrapUsize, Nat.mod_add_mod]
    have hndim : ¬ p.ndim ≠ first.ndim := not_not.mpr hp.1
    rw [joinShapes, if_neg hndim, hcheck]
    show joinShapes first axis ps _ = _
    rw [hset, ih hps, List.map_cons, List.sum_cons, add_assoc]

theorem joinShapes_error {out : List ℕ} (hp : p ∈ parts) (h : ¬ Alike axis p.shape first.shape) :
    ∃ e, joinShapes first axis parts out = .error e := by
  induction parts generalizing out with
  | nil => cases hp
  | cons q ps ih =>
    rw [joinShapes]
    split_ifs with hndim
    · exact ⟨_, rfl⟩
    cases hcheck : checkAxes axis 0 q.shape first.shape with
    | error e => exact ⟨e, rfl⟩
    | ok u =>
      rcases List.mem_cons.mp hp with rfl | hp
      · have hlen : p.shape.length = first.shape.length := not_not.mp hndim
        exact absurd ⟨hlen, fun j hj => (checkAxes_iff hlen).mp hcheck j (by omega)⟩ h
      · exact ih hp

end NdArray

end shapes

namespace NdArray

variable {t : DType} {T : Type} {parts : List (NdArray t T)} {first p z : NdArray t T} {axis : ℤ} {s u : List ℕ} {d : ℕ}

/-- The data of the parts, one outer index after another. -/
def joinedData (axis inner outer : ℕ) (parts : List (NdArray t T)) : List T :=
  (List.range outer).flatMap fun o => parts.flatMap fun p =>
    (p.data.drop (o*(p.axisLen axis*inner))).take (p.axisLen axis*inner)

theorem partBlock_ok (h : p.Counted) (hs : p.shape = s ++ p.axisLen s.length :: u) {o : ℕ} (ho : o < wrapProduct s) :
    partBlock s.length (wrapProduct u) (o, p) =
      .ok ((p.data.drop (o*(p.axisLen s.length*wrapProduct u))).take (p.axisLen s.length*wrapProduct u)) := by
  have hend := h.block_end hs ho
  have hlt := h.count ▸ h.prod_lt
  rw [mul_assoc, Nat.succ_mul] at hend
  rw [partBlock, wrapUsize_of_lt (n := p.axisLen s.length*wrapProduct u) (by omega), Nat.succ_mul, wrapUsize_of_lt (by omega),
    wrapUsize_of_lt (by omega), slice_eq hend]

theorem length_partBlock (h : p.Counted) (hs : p.shape = s ++ p.axisLen s.length :: u) {o : ℕ} (ho : o < wrapProduct s) :
    ((p.data.drop (o*(p.axisLen s.length*wrapProduct u))).take (p.axisLen s.length*wrapProduct u)).length =
      p.axisLen s.length*wrapProduct u := by
  have hend := h.block_end hs ho
  rw [mul_assoc, Nat.succ_mul] at hend
  rw [List.length_take, List.length_drop]
  omega

/-- What the parts contribute to one outer index. -/
theorem length_joinedBlock (h : ∀ p ∈ parts, p.Counted ∧ p.shape = s ++ p.axisLen s.length :: u) {o : ℕ}
    (ho : o < wrapProduct s) :
    (parts.flatMap fun p => (p.data.drop (o*(p.axisLen s.length*wrapProduct u))).take
      (p.axisLen s.length*wrapProduct u)).length = (parts.map (axisLen s.length)).sum*wrapProduct u := by
  induction parts with
  | nil => simp
  | cons p ps ih =>
    obtain ⟨⟨hp, hs⟩, hps⟩ := List.forall_mem_cons.mp h
    rw [List.flatMap_cons, List.length_append, length_partBlock hp hs ho, ih hps, List.map_cons, List.sum_cons]
    ring

theorem length_joinedData (h : ∀ p ∈ parts, p.Counted ∧ p.shape = s ++ p.axisLen s.length :: u) :
    (joinedData s.length (wrapProduct u) (wrapProduct s) parts).length =
      wrapProduct s*((parts.map (axisLen s.length)).sum*wrapProduct u) := by
  rw [joinedData, List.flatMap_def, length_flatten_uniform (n := (parts.map (axisLen s.length)).sum*wrapProduct u),
    List.length_map, List.length_range]
  intro b hb
  obtain ⟨o, ho, rfl⟩ := List.mem_map.mp hb
  exact length_joinedBlock h (List.mem_range.mp ho)

/-- The size of the joined shape is the number of elements copied, as a word. -/
theorem wrapProduct_joined (s u : List ℕ) (n : ℕ) :
    wrapProduct (s ++ wrapUsize n :: u) = wrapUsize (wrapProduct s*(n*wrapProduct u)) := by
  apply eq_of_cast_eq (wrapProduct_lt _) (wrapUsize_lt _)
  simp

/-- The blocks of matching parts, appended one after another. -/
theorem appendBlocks_parts (hparts : ∀ p ∈ parts, p.Counted ∧ p.shape = s ++ p.axisLen s.length :: u) (data : List T) :
    appendBlocks t (partBlock s.length (wrapProduct u))
        ((List.range (wrapProduct s)).flatMap fun o => parts.map fun p => (o, p)) [] = .ok data ↔
      data = joinedData s.length (wrapProduct u) (wrapProduct s) parts ∧ t.itemsize*data.length ≤ isizeMax := by
  rw [appendBlocks_eq (g := fun op : ℕ × NdArray t T => (op.2.data.drop (op.1*(op.2.axisLen s.length*wrapProduct u))).take
    (op.2.axisLen s.length*wrapProduct u)), List.flatMap_assoc]
  · simp only [List.flatMap_map]
    rfl
  · intro op hop
    obtain ⟨o, ho, hop⟩ := List.mem_flatMap.mp hop
    obtain ⟨p, hp, rfl⟩ := List.mem_map.mp hop
    exact partBlock_ok (hparts p hp).1 (hparts p hp).2 (List.mem_range.mp ho)

/-- What the call does with matching parts once the axis is resolved. -/
theorem concatenate_eq (hhead : parts.head? = some first) (hk : resolveAxis axis first.ndim = .ok s.length)
    (hfirst : first.shape = s ++ d :: u) (halike : ∀ p ∈ parts, Alike s.length p.shape first.shape) :
    concatenate parts axis = (do
      let _ ← withCapacity t (wrapProduct (s ++ wrapUsize (parts.map (axisLen s.length)).sum :: u))
      let data ← appendBlocks t (partBlock s.length (wrapProduct u))
        ((List.range (wrapProduct s)).flatMap fun o => parts.map fun p => (o, p)) []
      new t data (s ++ wrapUsize (parts.map (axisLen s.length)).sum :: u)) := by
  obtain ⟨rest, rfl⟩ := List.head?_eq_some_iff.mp hhead
  have hndim : first.ndim ≠ 0 := Nat.ne_zero_of_lt (resolveAxis_ok.mp hk).1
  have hjoin : joinShapes first s.length (first :: rest) (first.shape.set s.length 0) =
      .ok (s ++ wrapUsize ((first :: rest).map (axisLen s.length)).sum :: u) := by
    have h0 := joinShapes_ok (s := s) (u := u) halike rfl 0
    rwa [show wrapUsize 0 = 0 from rfl, zero_add, ← set_length s u d 0, ← hfirst] at h0
  rw [concatenate, if_neg hndim, hk]
  show (joinShapes first s.length (first :: rest) (first.shape.set s.length 0) >>= _) = _
  rw [hjoin, hfirst, List.take_left, drop_length_succ]
  rfl

/-- `concatenate` on parts that match succeeds when the data fits. -/
theorem concatenate_ok_iff (hhead : parts.head? = some first) (hcounted : ∀ p ∈ parts, p.Counted)
    (hk : resolveAxis axis first.ndim = .ok s.length) (hfirst : first.shape = s ++ d :: u)
    (halike : ∀ p ∈ parts, Alike s.length p.shape first.shape) :
    concatenate parts axis = .ok z ↔
      z.shape = s ++ wrapUsize (parts.map (axisLen s.length)).sum :: u ∧
      z.data = joinedData s.length (wrapProduct u) (wrapProduct s) parts ∧ t.itemsize*z.data.length ≤ isizeMax := by
  have hparts : ∀ p ∈ parts, p.Counted ∧ p.shape = s ++ p.axisLen s.length :: u :=
    fun p hp => ⟨hcounted p hp, (hfirst ▸ halike p hp).eq_append⟩
  have happend := appendBlocks_parts hparts
  rw [concatenate_eq hhead hk hfirst halike, bind_eq_ok]
  constructor
  · rintro ⟨_, -, hz⟩
    obtain ⟨data, hdata, hz⟩ := bind_eq_ok.mp hz
    obtain ⟨rfl, hfit⟩ := (happend data).mp hdata
    obtain ⟨hshape, hdata, -⟩ := new_ok hz
    exact ⟨hshape, hdata, hdata ▸ hfit⟩
  · rintro ⟨hshape, hdata, hfit⟩
    rw [hdata] at hfit
    have hwrap : wrapProduct (s ++ wrapUsize (parts.map (axisLen s.length)).sum :: u) =
        (joinedData s.length (wrapProduct u) (wrapProduct s) parts).length := by
      rw [wrapProduct_joined, length_joinedData hparts]
      apply wrapUsize_of_lt
      rw [← length_joinedData hparts]
      exact lt_wordModulus_of_fits hfit
    obtain ⟨z', hz', hshape', hdata'⟩ := exists_new (t := t) (hshape ▸ z.ndim_le) hwrap
    refine ⟨(), by rw [hwrap, withCapacity_of_le hfit], bind_eq_ok.mpr ⟨_, (happend _).mpr ⟨rfl, hfit⟩, ?_⟩⟩
    rw [hz', ext_shape (hshape'.trans hshape.symm) (hdata'.trans hdata.symm)]

/-- The block of a part starts after those of the parts before it. -/
theorem joinedData_getElem? {pre post : List (NdArray t T)}
    (h : ∀ q ∈ pre ++ p :: post, q.Counted ∧ q.shape = s ++ q.axisLen s.length :: u) {o r : ℕ} (ho : o < wrapProduct s)
    (hr : r < p.axisLen s.length*wrapProduct u) :
    (joinedData s.length (wrapProduct u) (wrapProduct s) (pre ++ p :: post))[o*(((pre ++ p :: post).map
      (axisLen s.length)).sum*wrapProduct u)+((pre.map (axisLen s.length)).sum*wrapProduct u+r)]? =
        p.data[o*(p.axisLen s.length*wrapProduct u)+r]? := by
  have hp := h p (by simp)
  have hpre : ∀ q ∈ pre, q.Counted ∧ q.shape = s ++ q.axisLen s.length :: u :=
    fun q hq => h q (List.mem_append_left _ hq)
  have hsum : ((pre ++ p :: post).map (axisLen s.length)).sum =
      (pre.map (axisLen s.length)).sum+(p.axisLen s.length+(post.map (axisLen s.length)).sum) := by simp
  have hlt : (pre.map (axisLen s.length)).sum*wrapProduct u+r <
      ((pre ++ p :: post).map (axisLen s.length)).sum*wrapProduct u := by
    rw [hsum, Nat.add_mul, Nat.add_mul]
    omega
  rw [joinedData, List.flatMap_def, getElem?_flatten_uniform _ hlt, List.getElem?_map, List.getElem?_range ho]
  · show (List.flatMap _ (pre ++ p :: post))[_]? = _
    have hlen := length_joinedBlock hpre ho
    rw [List.flatMap_append, List.getElem?_append_right (by omega), hlen, Nat.add_sub_cancel_left, List.flatMap_cons,
      List.getElem?_append_left (by rw [length_partBlock hp.1 hp.2 ho]; exact hr), List.getElem?_take_of_lt hr,
      List.getElem?_drop]
  · intro b hb
    obtain ⟨o', ho', rfl⟩ := List.mem_map.mp hb
    exact length_joinedBlock h (List.mem_range.mp ho')

/-- Every element of a part is in the result, moved along the axis. -/
theorem joined_at? {pre post : List (NdArray t T)}
    (h : ∀ q ∈ pre ++ p :: post, q.Counted ∧ q.shape = s ++ q.axisLen s.length :: u)
    (hshape : z.shape = s ++ ((pre ++ p :: post).map (axisLen s.length)).sum :: u)
    (hdata : z.data = joinedData s.length (wrapProduct u) (wrapProduct s) (pre ++ p :: post)) {idx : List ℕ}
    (hidx : InRange p.shape idx) :
    z.at? (idx.modify s.length (· + (pre.map (axisLen s.length)).sum)) = p.at? idx := by
  obtain ⟨hp, hs⟩ := h p (by simp)
  have hlt := hp.prod_lt
  rw [hs, List.prod_append, List.prod_cons] at hlt
  rw [hs] at hidx
  obtain ⟨i, j, rfl, hi, hj⟩ := hidx.split
  obtain ⟨l, j, rfl, hl, hj⟩ := hj.cases_cons
  have hmid : 0 < p.axisLen s.length*u.prod := Nat.mul_pos (Nat.zero_lt_of_lt hl) hj.prod_pos
  have houter : wrapProduct s = s.prod := by
    apply wrapProduct_of_lt
    exact (Nat.le_mul_of_pos_right _ hmid).trans_lt hlt
  have hinner : wrapProduct u = u.prod := by
    apply wrapProduct_of_lt
    calc
      u.prod ≤ p.axisLen s.length*u.prod := Nat.le_mul_of_pos_left _ (Nat.zero_lt_of_lt hl)
      _ ≤ s.prod*(p.axisLen s.length*u.prod) := Nat.le_mul_of_pos_left _ hi.prod_pos
      _ < wordModulus := hlt
  have hr : l*u.prod+flat u j < p.axisLen s.length*u.prod := by
    have hle : (l+1)*u.prod ≤ p.axisLen s.length*u.prod := Nat.mul_le_mul_right _ hl
    have hq := flat_lt hj
    rw [Nat.succ_mul] at hle
    omega
  have hget := joinedData_getElem? (u := u) h (o := flat s i) (r := l*u.prod+flat u j) (by rw [houter]; exact flat_lt hi)
    (by rw [hinner]; exact hr)
  rw [hinner, houter] at hget
  rw [← hi.length_eq, modify_length, at?, hshape, hdata, hinner, houter, at?, hs, flat_insert hi.length_eq,
    flat_insert hi.length_eq]
  rw [hi.length_eq]
  have hz : (flat s i*((pre ++ p :: post).map (axisLen s.length)).sum+(l+(pre.map (axisLen s.length)).sum))*u.prod+flat u j =
      flat s i*(((pre ++ p :: post).map (axisLen s.length)).sum*u.prod)+
        ((pre.map (axisLen s.length)).sum*u.prod+(l*u.prod+flat u j)) := by ring
  have hpos : (flat s i*p.axisLen s.length+l)*u.prod+flat u j =
      flat s i*(p.axisLen s.length*u.prod)+(l*u.prod+flat u j) := by ring
  rw [hz, hpos]
  exact hget

/-- Why a list of arrays is not joined: it is empty, its first array has no axis, the axis is out
of range, or the ranks or other lengths of two arrays differ. -/
def Refused (parts : List (NdArray t T)) (axis : ℤ) : Prop :=
  parts = [] ∨ ∃ first, parts.head? = some first ∧ (first.ndim = 0 ∨ axis < -first.ndim ∨ first.ndim ≤ axis ∨
    ∃ k, MeansAxis axis first.ndim k ∧ ∃ p ∈ parts, ¬ Alike k p.shape first.shape)

/-- `concatenate` refuses nothing else, and places every element of every part. -/
structure Joins (parts : List (NdArray t T)) (axis : ℤ) : Prop where
  fails : (∃ e, concatenate parts axis = .error e) ↔ Refused parts axis
  joins : ∀ z first k, concatenate parts axis = .ok z → parts.head? = some first → MeansAxis axis first.ndim k →
    z.shape = first.shape.set k (parts.map (axisLen k)).sum ∧ z.data.length = z.shape.prod ∧
    ∀ pre p post, parts = pre ++ p :: post → ∀ idx, InRange p.shape idx →
      z.at? (idx.modify k (· + (pre.map (axisLen k)).sum)) = p.at? idx

theorem refused_error (h : Refused parts axis) : ∃ e, concatenate parts axis = .error e := by
  rcases h with rfl | ⟨first, hhead, h⟩
  · exact ⟨_, rfl⟩
  obtain ⟨rest, rfl⟩ := List.head?_eq_some_iff.mp hhead
  rw [concatenate]
  split_ifs with hndim
  · exact ⟨_, rfl⟩
  rcases axis_cases axis first with ⟨⟨e, he⟩, -, -⟩ | ⟨s, d, u, hs, hk, hin, hmeans⟩
  · exact ⟨e, by rw [he]; rfl⟩
  · rcases h with h | h | h | ⟨k, hkm, p, hp, hnot⟩
    · exact absurd h hndim
    · omega
    · omega
    · rw [hmeans] at hkm
      subst hkm
      obtain ⟨e, he⟩ : ∃ e, joinShapes first s.length (first :: rest) (first.shape.set s.length 0) = .error e :=
        joinShapes_error hp hnot
      refine ⟨e, ?_⟩
      rw [hk]
      show (joinShapes first s.length (first :: rest) (first.shape.set s.length 0) >>= _) = _
      rw [he]
      rfl

theorem not_refused (h : ¬ Refused parts axis) : ∃ first s d u, parts.head? = some first ∧ first.shape = s ++ d :: u ∧
    resolveAxis axis first.ndim = .ok s.length ∧ (∀ k, MeansAxis axis first.ndim k ↔ k = s.length) ∧
    ∀ p ∈ parts, Alike s.length p.shape first.shape := by
  cases hhead : parts.head? with
  | none => exact absurd (.inl (List.head?_eq_none_iff.mp hhead)) h
  | some first =>
    rcases axis_cases axis first with ⟨-, hout, -⟩ | ⟨s, d, u, hs, hk, hin, hmeans⟩
    · exact absurd (.inr ⟨first, hhead, by omega⟩) h
    · refine ⟨first, s, d, u, rfl, hs, hk, hmeans, fun p hp => ?_⟩
      by_contra hnot
      exact h (.inr ⟨first, hhead, .inr (.inr (.inr ⟨_, (hmeans _).mpr rfl, p, hp, hnot⟩))⟩)

theorem not_refused_of {k : ℕ} (hhead : parts.head? = some first) (hk : MeansAxis axis first.ndim k)
    (halike : ∀ p ∈ parts, Alike k p.shape first.shape) : ¬ Refused parts axis := by
  obtain ⟨hlt, haxis⟩ := hk
  rintro (rfl | ⟨first', hhead', hbad⟩)
  · cases hhead
  · cases hhead.symm.trans hhead'
    rcases hbad with h | h | h | ⟨j, ⟨hj, hjaxis⟩, p, hp, hnot⟩
    · omega
    · omega
    · omega
    · obtain rfl : j = k := by omega
      exact hnot (halike p hp)

/-- The elements of all parts, counted by the lengths on the axis. -/
theorem sum_data_length (h : ∀ p ∈ parts, p.Counted ∧ p.shape = s ++ p.axisLen s.length :: u) :
    (parts.map fun p => p.data.length).sum = s.prod*((parts.map (axisLen s.length)).sum*u.prod) := by
  induction parts with
  | nil => simp
  | cons p ps ih =>
    obtain ⟨⟨hp, hs⟩, hps⟩ := List.forall_mem_cons.mp h
    have hcount := hp.count
    rw [hs, List.prod_append, List.prod_cons] at hcount
    rw [List.map_cons, List.sum_cons, ih hps, hcount, List.map_cons, List.sum_cons]
    ring

section joins

variable (hhead : parts.head? = some first) (hcounted : ∀ p ∈ parts, p.Counted)
  (hk : resolveAxis axis first.ndim = .ok s.length) (hs : first.shape = s ++ d :: u)
  (halike : ∀ p ∈ parts, Alike s.length p.shape first.shape)

include hhead hcounted hk hs halike

/-- A joined array has the lengths of its parts on the axis, and a buffer for them. -/
theorem Joins.fits (h : Joins parts axis) (hmeans : MeansAxis axis first.ndim s.length) :
    (parts.map (axisLen s.length)).sum < wordModulus ∧ t.itemsize*(parts.map fun p => p.data.length).sum ≤ isizeMax := by
  have hparts : ∀ p ∈ parts, p.Counted ∧ p.shape = s ++ p.axisLen s.length :: u :=
    fun p hp => ⟨hcounted p hp, (hs ▸ halike p hp).eq_append⟩
  obtain ⟨z, hz⟩ : ∃ z, concatenate parts axis = .ok z := by
    cases hz : concatenate parts axis with
    | ok z => exact ⟨z, rfl⟩
    | error e => exact absurd (h.fails.mp ⟨e, hz⟩) (not_refused_of hhead hmeans halike)
  obtain ⟨hshape, hcount, -⟩ := h.joins z first _ hz hhead hmeans
  obtain ⟨hshape', -, hfit⟩ := (concatenate_ok_iff hhead hcounted hk hs halike).mp hz
  have hset : first.shape.set s.length (parts.map (axisLen s.length)).sum =
      s ++ (parts.map (axisLen s.length)).sum :: u := by rw [hs, set_length]
  rw [hshape, hset] at hshape'
  have hwrap : (parts.map (axisLen s.length)).sum = wrapUsize (parts.map (axisLen s.length)).sum :=
    (List.cons_eq_cons.mp (List.append_cancel_left hshape')).1
  refine ⟨hwrap ▸ wrapUsize_lt _, ?_⟩
  rw [hcount, hshape, hset, List.prod_append, List.prod_cons, ← sum_data_length hparts] at hfit
  exact hfit

/-- Where the lengths and the elements fit, every element is placed. -/
theorem joins_of_fits (hmeans : ∀ k, MeansAxis axis first.ndim k ↔ k = s.length)
    (hlt : (parts.map (axisLen s.length)).sum < wordModulus)
    (hfit : t.itemsize*(parts.map fun p => p.data.length).sum ≤ isizeMax) : Joins parts axis := by
  have hparts : ∀ p ∈ parts, p.Counted ∧ p.shape = s ++ p.axisLen s.length :: u :=
    fun p hp => ⟨hcounted p hp, (hs ▸ halike p hp).eq_append⟩
  have hsum := sum_data_length hparts
  have hprod : s.prod*((parts.map (axisLen s.length)).sum*u.prod) < wordModulus :=
    hsum ▸ lt_wordModulus_of_fits hfit
  have hcount : (joinedData s.length (wrapProduct u) (wrapProduct s) parts).length =
      (s ++ (parts.map (axisLen s.length)).sum :: u).prod := by
    rw [length_joinedData hparts, wrapProduct_mul_mul hprod, List.prod_append, List.prod_cons]
  have hiff (z : NdArray t T) := concatenate_ok_iff (z := z) hhead hcounted hk hs halike
  refine ⟨⟨fun ⟨e, he⟩ => ?_, refused_error⟩, fun z first' k hz hhead' hkm => ?_⟩
  · -- the array that the parts make up is a result
    have hrank : (s ++ wrapUsize (parts.map (axisLen s.length)).sum :: u).length ≤ maxNdim := by
      have hle := first.ndim_le
      rw [hs] at hle
      simpa using hle
    have hfit' : t.itemsize*(joinedData s.length (wrapProduct u) (wrapProduct s) parts).length ≤ isizeMax := by
      rw [hcount, List.prod_append, List.prod_cons, ← hsum]
      exact hfit
    rw [(hiff ⟨⟨_, _, hrank, rfl⟩, _⟩).mpr ⟨rfl, rfl, hfit'⟩] at he
    cases he
  · cases hhead.symm.trans hhead'
    rw [hmeans] at hkm
    subst hkm
    obtain ⟨hshape, hdata, -⟩ := (hiff z).mp hz
    rw [wrapUsize_of_lt hlt] at hshape
    refine ⟨by rw [hshape, hs, set_length], by rw [hdata, hshape, hcount], ?_⟩
    rintro pre p post rfl idx hidx
    exact joined_at? hparts hshape hdata hidx

end joins

/-- The arrays are joined as they should exactly when the length of the axis is a `usize` and the
elements fit in a buffer. -/
theorem concatenate_joins_iff (h : ∀ p ∈ parts, p.Counted) : Joins parts axis ↔ (¬ Refused parts axis →
    ∀ first k, parts.head? = some first → MeansAxis axis first.ndim k → (parts.map (axisLen k)).sum < wordModulus ∧
      t.itemsize*(parts.map fun p => p.data.length).sum ≤ isizeMax) := by
  by_cases href : Refused parts axis
  · obtain ⟨e, he⟩ := refused_error href
    refine ⟨fun _ hno => absurd href hno, fun _ => ⟨⟨fun _ => href, fun _ => ⟨e, he⟩⟩, fun z first k hz => ?_⟩⟩
    rw [hz] at he
    cases he
  · obtain ⟨first, s, d, u, hhead, hs, hk, hmeans, halike⟩ := not_refused href
    have haxis : MeansAxis axis first.ndim s.length := (hmeans _).mpr rfl
    constructor
    · intro hjoins _ first' k hhead' hkm
      cases hhead.symm.trans hhead'
      rw [hmeans] at hkm
      subst hkm
      exact hjoins.fits hhead h hk hs halike haxis
    · intro hfits
      obtain ⟨hlt, hfit⟩ := hfits href first s.length hhead haxis
      exact joins_of_fits hhead h hk hs halike hmeans hlt hfit

end NdArray

namespace AnyArray

variable {F : Type} {t : DType} {parts : List (NdArray t (Elem F t))} {first p : NdArray t (Elem F t)} {axis : ℤ}
  {shape s u : List ℕ}

theorem same_ofArray (parts : List (NdArray t (Elem F t))) : same t (parts.map (ofArray t)) = some parts := by
  induction parts with
  | nil => rfl
  | cons p ps ih => simp [same, ih]

theorem reshape_ofArray (a : NdArray t (Elem F t)) (shape : List ℕ) :
    (ofArray t a).reshape shape = (a.reshape shape).map (ofArray t) := by
  cases t <;> cases h : a.reshape shape <;> simp only [reshape] <;> exact congrArg (· >>= _) h

/-- The part with the axes of `d`. -/
def withDims (d : Dims t.itemsize) (p : NdArray t (Elem F t)) : NdArray t (Elem F t) := ⟨d, p.data⟩

theorem expand_ofArray {d : Dims t.itemsize} (h : ∀ p ∈ parts, p.data.length = wrapProduct d.shape) :
    expand d.shape (parts.map (ofArray t)) = .ok ((parts.map (withDims d)).map (ofArray t)) := by
  induction parts with
  | nil => rfl
  | cons p ps ih =>
    obtain ⟨hp, hps⟩ := List.forall_mem_cons.mp h
    obtain ⟨q, hq, hshape, hdata⟩ := NdArray.exists_new (t := t) d.ndim_le hp.symm
    have hqd : q = withDims d p := NdArray.ext_shape hshape hdata
    have hreshape : p.reshape d.shape = .ok (withDims d p) := by rw [NdArray.reshape, hq, hqd]
    rw [List.map_cons, expand, reshape_ofArray, hreshape]
    show (expand d.shape (ps.map (ofArray t)) >>= _) = _
    rw [ih hps]
    rfl

theorem concatenate_cons {first : AnyArray F} {rest : List (AnyArray F)} {refs : List (NdArray first.dtype (Elem F first.dtype))}
    (h : same first.dtype (first :: rest) = some refs) : concatenate (first :: rest) axis =
      (NdArray.concatenate refs axis).map fun z => some (ofArray first.dtype z) := by
  rw [concatenate, h]
  cases hjoin : NdArray.concatenate refs axis <;> simp only [hjoin] <;> rfl

theorem concatenate_ofArray (hne : parts ≠ []) :
    concatenate (parts.map (ofArray t)) axis = (NdArray.concatenate parts axis).map fun z => some (ofArray t z) := by
  cases parts with
  | nil => exact absurd rfl hne
  | cons first rest =>
    have hsame := same_ofArray (first :: rest)
    cases t <;> exact concatenate_cons hsame

/-- Indexing the new axis of the stacked array at `i` gives back part `i`. -/
def Stacks (parts : List (NdArray t (Elem F t))) (axis : ℤ) : Prop :=
  ∀ first k, parts.head? = some first → MeansAxis axis (first.ndim+1) k →
    ∃ z, stack (parts.map (ofArray t)) axis = .ok (some (ofArray t z)) ∧
      z.shape = first.shape.insertIdx k parts.length ∧
      ∀ i p, parts[i]? = some p → ∀ idx, InRange p.shape idx → z.at? (idx.insertIdx k i) = p.at? idx

/-- `stack` joins the parts along a new axis of length 1. -/
theorem stack_ofArray (hcounted : ∀ p ∈ parts, p.Counted) (hshapes : ∀ p ∈ parts, p.shape = s ++ u)
    (hhead : parts.head? = some first) (hdim : (s ++ u).length < maxNdim) (hk : MeansAxis axis (first.ndim+1) s.length) :
    ∃ d : Dims t.itemsize, d.shape = s ++ 1 :: u ∧ stack (parts.map (ofArray t)) axis =
      (NdArray.concatenate (parts.map (withDims d)) s.length).map fun z => some (ofArray t z) := by
  have hrank : (s ++ 1 :: u).length ≤ maxNdim := by
    simp only [List.length_append, List.length_cons] at hdim ⊢
    omega
  refine ⟨⟨s ++ 1 :: u, _, hrank, rfl⟩, rfl, ?_⟩
  obtain ⟨rest, rfl⟩ := List.head?_eq_some_iff.mp hhead
  have hfirst := hshapes first List.mem_cons_self
  have hcount : ∀ p ∈ first :: rest, p.data.length = wrapProduct (s ++ 1 :: u) := by
    intro p hp
    have hprod : (s ++ 1 :: u).prod = p.shape.prod := by
      rw [hshapes p hp, List.prod_append, List.prod_append, List.prod_cons, one_mul]
    rw [wrapProduct_of_lt (hprod ▸ (hcounted p hp).prod_lt), hprod, (hcounted p hp).count]
  have hall : ∀ p ∈ (first :: rest).map (ofArray t), p.shape = (ofArray t first).shape := by
    intro p hp
    obtain ⟨q, hq, rfl⟩ := List.mem_map.mp hp
    rw [shape_ofArray, shape_ofArray, hshapes q hq, hfirst]
  obtain ⟨hlt, haxis⟩ := hk
  have hax : (if axis < 0 then (axis+(first.ndim+1 : ℤ)).toNat else axis.toNat) = s.length := by
    split_ifs <;> omega
  have hexpand := expand_ofArray (d := ⟨s ++ 1 :: u, _, hrank, rfl⟩) hcount
  rw [List.map_cons] at hall hexpand ⊢
  rw [stack, ndim_ofArray, if_pos ⟨hall, by omega, by omega⟩, hax, shape_ofArray, hfirst]
  show (expand ((s ++ u).insertIdx s.length 1) _ >>= _) = _
  rw [insertIdx_length, hexpand]
  exact concatenate_ofArray (List.cons_ne_nil _ _)

theorem withDims_counted {d : Dims t.itemsize} (hd : d.shape = s ++ 1 :: u) (hp : p.Counted) (hs : p.shape = s ++ u) :
    (withDims d p).Counted ∧ (withDims d p).shape = s ++ (withDims d p).axisLen s.length :: u := by
  have hprod : (s ++ 1 :: u).prod = p.shape.prod := by
    rw [hs, List.prod_append, List.prod_append, List.prod_cons, one_mul]
  have hshape : (withDims d p).shape = s ++ 1 :: u := hd
  refine ⟨⟨?_, hp.fits⟩, ?_⟩
  · rw [hshape, hprod]
    exact hp.count
  · rw [NdArray.axisLen, hshape, getD_length]

/-- The new axis holds the elements the part has without it. -/
theorem withDims_at? {d : Dims t.itemsize} (hd : d.shape = s ++ 1 :: u) (hs : p.shape = s ++ u) {i j : List ℕ}
    (hi : i.length = s.length) : (withDims d p).at? (i ++ 0 :: j) = p.at? (i ++ j) := by
  have hshape : (withDims d p).shape = s ++ 1 :: u := hd
  rw [NdArray.at?, NdArray.at?, hshape, hs, flat_insert hi, flat_append hi, mul_one, add_zero]
  rfl

theorem sum_axisLen_withDims {d : Dims t.itemsize} (hd : d.shape = s ++ 1 :: u) (parts : List (NdArray t (Elem F t))) :
    ((parts.map (withDims d)).map (NdArray.axisLen s.length)).sum = parts.length := by
  have hone (p : NdArray t (Elem F t)) : (withDims d p).axisLen s.length = 1 := by
    show d.shape.getD s.length 0 = 1
    rw [hd, getD_length]
  induction parts with
  | nil => rfl
  | cons p ps ih =>
    rw [List.map_cons, List.map_cons, List.sum_cons, ih, hone, List.length_cons]
    omega

section newAxis

variable {d : Dims t.itemsize} {shape : List ℕ}

theorem withDims_parts (hd : d.shape = s ++ 1 :: u) (hcounted : ∀ p ∈ parts, p.Counted)
    (hshapes : ∀ p ∈ parts, p.shape = s ++ u) :
    ∀ q ∈ parts.map (withDims d), q.Counted ∧ q.shape = s ++ q.axisLen s.length :: u := by
  intro q hq
  obtain ⟨p, hp, rfl⟩ := List.mem_map.mp hq
  exact withDims_counted hd (hcounted p hp) (hshapes p hp)

theorem withDims_head (hhead : parts.head? = some first) :
    (parts.map (withDims d)).head? = some (withDims d first) := by
  rw [List.head?_map, hhead, Option.map_some]

theorem withDims_alike : ∀ q ∈ parts.map (withDims d), Alike s.length q.shape (withDims d first).shape := by
  intro q hq
  obtain ⟨p, -, rfl⟩ := List.mem_map.mp hq
  exact ⟨rfl, fun _ _ => rfl⟩

theorem withDims_axis (hd : d.shape = s ++ 1 :: u) : MeansAxis s.length (withDims d first).ndim s.length := by
  refine ⟨?_, .inl rfl⟩
  show s.length < d.shape.length
  rw [hd]
  simp

/-- A stacked array is the parts joined along the new axis. -/
theorem stacks_of_joins (hd : d.shape = s ++ 1 :: u) (hshapes : ∀ p ∈ parts, p.shape = s ++ u)
    (hhead : parts.head? = some first) (hjoins : NdArray.Joins (parts.map (withDims d)) s.length)
    (hstack : stack (parts.map (ofArray t)) axis =
      (NdArray.concatenate (parts.map (withDims d)) s.length).map fun z => some (ofArray t z)) :
    ∃ z, stack (parts.map (ofArray t)) axis = .ok (some (ofArray t z)) ∧
      z.shape = first.shape.insertIdx s.length parts.length ∧
      ∀ i p, parts[i]? = some p → ∀ idx, InRange p.shape idx → z.at? (idx.insertIdx s.length i) = p.at? idx := by
  have haxis : MeansAxis s.length (withDims d first).ndim s.length := withDims_axis hd
  obtain ⟨z, hz⟩ : ∃ z, NdArray.concatenate (parts.map (withDims d)) s.length = .ok z := by
    cases hz : NdArray.concatenate (parts.map (withDims d)) s.length with
    | ok z => exact ⟨z, rfl⟩
    | error e =>
      exact absurd (hjoins.fails.mp ⟨e, hz⟩) (NdArray.not_refused_of (withDims_head hhead) haxis withDims_alike)
  obtain ⟨hshape, -, hat⟩ := hjoins.joins z _ _ hz (withDims_head hhead) haxis
  refine ⟨z, by rw [hstack, hz]; rfl, ?_, fun i p hp idx hidx => ?_⟩
  · have hfirst : first.shape = s ++ u := hshapes first (List.mem_of_mem_head? hhead)
    have hdims : (withDims d first).shape = s ++ 1 :: u := hd
    rw [hshape, hdims, set_length, sum_axisLen_withDims hd, hfirst, insertIdx_length]
  · obtain ⟨hi, rfl⟩ := List.getElem?_eq_some_iff.mp hp
    have hs := hshapes _ (List.getElem_mem hi)
    rw [hs] at hidx
    obtain ⟨a, b, rfl, ha, hb⟩ := hidx.split
    have hsplit : parts.map (withDims d) = (parts.take i).map (withDims d) ++ withDims d parts[i] ::
        (parts.drop (i+1)).map (withDims d) := by
      rw [← List.map_cons, ← List.map_append, List.cons_getElem_drop_succ, List.take_append_drop]
    have hin : InRange (withDims d parts[i]).shape (a ++ 0 :: b) := by
      show InRange d.shape _
      rw [hd]
      exact ha.append (inRange_cons.mpr ⟨Nat.one_pos, hb⟩)
    have hmoved := hat _ _ _ hsplit _ hin
    rw [sum_axisLen_withDims hd, List.length_take, min_eq_left hi.le, ← ha.length_eq, modify_length, zero_add,
      withDims_at? hd hs ha.length_eq] at hmoved
    rw [← ha.length_eq, insertIdx_length, hmoved]

theorem withDims_data (parts : List (NdArray t (Elem F t))) :
    ((parts.map (withDims d)).map fun p => p.data.length).sum = (parts.map fun p => p.data.length).sum := by
  rw [List.map_map]
  rfl

/-- The elements of stacked parts, counted as `concatenate` counts them. -/
theorem sum_data_withDims (hd : d.shape = s ++ 1 :: u) (hcounted : ∀ p ∈ parts, p.Counted)
    (hshapes : ∀ p ∈ parts, p.shape = s ++ u) (hprod : s.prod*u.prod < wordModulus) :
    (parts.map fun p => p.data.length).sum = wrapProduct s*(parts.length*wrapProduct u) := by
  rw [← withDims_data (d := d), NdArray.sum_data_length (withDims_parts hd hcounted hshapes), sum_axisLen_withDims hd]
  calc
    s.prod*(parts.length*u.prod) = s.prod*u.prod*parts.length := by ring
    _ = wrapProduct s*wrapProduct u*parts.length := by rw [wrapProduct_mul hprod]
    _ = wrapProduct s*(parts.length*wrapProduct u) := by ring

/-- A stacked array has as many entries on the new axis as there are parts, and a buffer for them. -/
theorem Stacks.fits (hstacks : Stacks parts axis) (hd : d.shape = s ++ 1 :: u) (hcounted : ∀ p ∈ parts, p.Counted)
    (hshapes : ∀ p ∈ parts, p.shape = s ++ u) (hhead : parts.head? = some first)
    (hmeans : MeansAxis axis (first.ndim+1) s.length)
    (hstack : stack (parts.map (ofArray t)) axis =
      (NdArray.concatenate (parts.map (withDims d)) s.length).map fun z => some (ofArray t z)) :
    parts.length < wordModulus ∧ t.itemsize*(parts.map fun p => p.data.length).sum ≤ isizeMax := by
  have hparts := withDims_parts hd hcounted hshapes
  have hmem := List.mem_of_mem_head? hhead
  have hfirst : first.shape = s ++ u := hshapes first hmem
  obtain ⟨z, hz, hshape, -⟩ := hstacks first s.length hhead hmeans
  obtain ⟨z', hjoin, heq⟩ : ∃ z', NdArray.concatenate (parts.map (withDims d)) s.length = .ok z' ∧ z' = z := by
    rw [hstack] at hz
    cases hjoin : NdArray.concatenate (parts.map (withDims d)) s.length with
    | error e =>
      rw [hjoin] at hz
      cases hz
    | ok z' =>
      rw [hjoin] at hz
      exact ⟨z', rfl, ofArray_injective t (Option.some.inj (Except.ok.inj hz))⟩
  have haxis : MeansAxis s.length (withDims d first).ndim s.length := withDims_axis hd
  obtain ⟨hshape', hdata', hfit⟩ := (NdArray.concatenate_ok_iff (withDims_head hhead)
    (fun q hq => (hparts q hq).1) (resolveAxis_ok.mpr haxis) hd withDims_alike).mp hjoin
  rw [heq, hshape, hfirst, insertIdx_length, sum_axisLen_withDims hd] at hshape'
  have hwrap : parts.length = wrapUsize parts.length := (List.cons_eq_cons.mp (List.append_cancel_left hshape')).1
  have hprod : s.prod*u.prod < wordModulus := by
    rw [← List.prod_append, ← hfirst]
    exact (hcounted first hmem).prod_lt
  rw [hdata', NdArray.length_joinedData hparts, sum_axisLen_withDims hd,
    ← sum_data_withDims hd hcounted hshapes hprod] at hfit
  exact ⟨hwrap ▸ wrapUsize_lt _, hfit⟩

/-- Equal shapes are stacked as they should exactly when the number of parts is a `usize` and their
elements fit in a buffer. -/
theorem stacks_iff (hcounted : ∀ p ∈ parts, p.Counted) (hshapes : ∀ p ∈ parts, p.shape = shape)
    (hdim : shape.length < maxNdim) (hne : parts ≠ []) (hlo : -(shape.length+1) ≤ axis) (hhi : axis ≤ shape.length) :
    Stacks parts axis ↔
      parts.length < wordModulus ∧ t.itemsize*(parts.map fun p => p.data.length).sum ≤ isizeMax := by
  obtain ⟨first, hhead⟩ : ∃ first, parts.head? = some first := by
    obtain ⟨first, rest, rfl⟩ := List.exists_cons_of_ne_nil hne
    exact ⟨first, rfl⟩
  have hfirst : first.shape = shape := hshapes first (List.mem_of_mem_head? hhead)
  have hndim : first.ndim = shape.length := congrArg List.length hfirst
  obtain ⟨k, hk⟩ : ∃ k, resolveAxis axis (first.ndim+1) = .ok k := exists_resolveAxis.mpr (by omega)
  have hmeans : MeansAxis axis (first.ndim+1) k := resolveAxis_ok.mp hk
  obtain ⟨s, u, rfl, rfl⟩ : ∃ s u, shape = s ++ u ∧ k = s.length := by
    refine ⟨shape.take k, shape.drop k, (List.take_append_drop ..).symm, ?_⟩
    have hlt := hmeans.1
    rw [List.length_take]
    omega
  obtain ⟨d, hd, hstack⟩ := stack_ofArray hcounted hshapes hhead hdim hmeans
  have hparts := withDims_parts hd hcounted hshapes
  constructor
  · intro hstacks
    exact hstacks.fits hd hcounted hshapes hhead hmeans hstack
  · rintro ⟨hlt, hfit⟩ first' k hhead' hk'
    cases hhead.symm.trans hhead'
    obtain rfl : k = s.length := by
      obtain ⟨hklt, hkaxis⟩ := hk'
      obtain ⟨hslt, hsaxis⟩ := hmeans
      omega
    refine stacks_of_joins hd hshapes hhead ?_ hstack
    rw [NdArray.concatenate_joins_iff fun q hq => (hparts q hq).1]
    intro _ q k hq hqk
    cases (withDims_head hhead).symm.trans hq
    obtain rfl : k = s.length := by
      obtain ⟨hklt, hkaxis⟩ := hqk
      omega
    rw [sum_axisLen_withDims hd, withDims_data]
    exact ⟨hlt, hfit⟩

end newAxis

end AnyArray

/-- `concatenate` joins as it should exactly when the length of the joined axis is a `usize` and
the elements fit in a buffer; `stack` exactly when its number of parts and elements do. -/
theorem concatenate_places_iff {F : Type} {t : DType} (parts : List (NdArray t (Elem F t))) (axis : ℤ)
    (h : ∀ p ∈ parts, p.Counted) :
    (NdArray.Joins parts axis ↔ (¬ NdArray.Refused parts axis → ∀ first k, parts.head? = some first →
      MeansAxis axis first.ndim k → (parts.map (NdArray.axisLen k)).sum < wordModulus ∧
        t.itemsize*(parts.map fun p => p.data.length).sum ≤ isizeMax)) ∧
    ∀ shape, (∀ p ∈ parts, p.shape = shape) → shape.length < maxNdim → parts ≠ [] → -(shape.length+1) ≤ axis →
      axis ≤ shape.length → (AnyArray.Stacks parts axis ↔
        parts.length < wordModulus ∧ t.itemsize*(parts.map fun p => p.data.length).sum ≤ isizeMax) :=
  ⟨NdArray.concatenate_joins_iff h, fun _ => AnyArray.stacks_iff h⟩

/-- No elements, and a length that four of them add up to 2^64. -/
def longEmpty : NdArray .float64 ℤ := ⟨⟨[2^62,0], _, by decide, rfl⟩, []⟩

/-- The length of the joined axis wraps to 0. -/
theorem concatenate_wraps : longEmpty.Counted ∧ ¬ NdArray.Joins [longEmpty, longEmpty, longEmpty, longEmpty] 0 := by
  refine ⟨⟨by decide, by decide⟩, fun ⟨_, hjoins⟩ => ?_⟩
  obtain ⟨hshape, -⟩ := hjoins ⟨⟨[0,0], _, by decide, rfl⟩, []⟩ longEmpty 0 rfl rfl ⟨by decide, .inl rfl⟩
  revert hshape
  decide

theorem twoRows_ndim : [2,2].length ≤ maxNdim := by decide

theorem twoRows_strides : [16,8] = (cStrides 8 [2,2]).1 := by decide

def pairOfRows : List (NdArray .float64 ℤ) :=
  [⟨⟨[1,2], _, by decide, rfl⟩, [1,2]⟩, ⟨⟨[2,2], [16,8], twoRows_ndim, twoRows_strides⟩, [3,4,5,6]⟩]

theorem concatenate_places_rows : NdArray.Joins pairOfRows (-2) := by
  refine (concatenate_places_iff (F := ℤ) pairOfRows (-2) ?_).1.mpr ?_
  · exact List.forall_mem_cons.mpr ⟨⟨rfl, by decide⟩, List.forall_mem_cons.mpr ⟨⟨rfl, by decide⟩, List.forall_mem_nil _⟩⟩
  · rintro - first k hfirst ⟨hk, haxis⟩
    cases Option.some.inj hfirst
    obtain rfl : k = 0 := by
      change k < 2 at hk
      change (-2 : ℤ) = k ∨ (-2 : ℤ) = k-(2 : ℕ) at haxis
      omega
    decide

end LightArray
