import LightArray.Dims
import LightArray.Odometer

namespace LightArray
open MachineWord RowMajor

/-- NumPy-style shape text: `(2, 3)`, `(3,)`, `()`. -/
def shapeStr : List ℕ → String
  | [] => "()"
  | [n] => "(" ++ toString n ++ ",)"
  | shape => "(" ++ String.intercalate ", " (shape.map toString) ++ ")"

/-- Length of axis `k` of a shape right-aligned in `ndim` axes. -/
def alignedDim (shape : List ℕ) (ndim k : ℕ) : ℕ :=
  if ndim ≤ k+shape.length then shape.getD (k+shape.length-ndim) 0 else 1

/-- The loop of `broadcast_shape`; `a` and `b` are for the error text. -/
def broadcastLoop (a b : List ℕ) : List (ℕ × ℕ) → Except Failure (List ℕ)
  | [] => .ok []
  | (x, y) :: rest =>
    if x = y then do
      let out ← broadcastLoop a b rest
      .ok (x :: out)
    else if x = 1 then do
      let out ← broadcastLoop a b rest
      .ok (y :: out)
    else if y = 1 then do
      let out ← broadcastLoop a b rest
      .ok (x :: out)
    else .error (.array (.shapeMismatch a b))

/-- Shape two shapes broadcast to under NumPy's rules. -/
def broadcastShape (a b : List ℕ) : Except Failure (List ℕ) :=
  let ndim := max a.length b.length
  broadcastLoop a b ((List.range ndim).map fun k => (alignedDim a ndim k, alignedDim b ndim k))

/-- The loop of `broadcast_strides` from the last axis, with the running stride. -/
def broadcastStridesLoop : List ℕ → List ℕ × ℕ
  | [] => ([], 1)
  | d :: ds =>
    match broadcastStridesLoop ds with
    | (strides, stride) => ((if d = 1 then 0 else stride) :: strides, wrapUsize (stride*d))

/-- Element strides of `shape` viewed in `out`, right-aligned, zero where the axis
is broadcast. -/
def broadcastStrides (shape out : List ℕ) : List ℕ :=
  List.replicate (out.length-shape.length) 0 ++ (broadcastStridesLoop shape).1

/-- An axis of the odometer of `zip_map_broadcast`; the state is `(ao, bo)`. -/
def broadcastAxis (d sa sb : ℕ) : Axis (ℕ × ℕ) where
  len := d
  inc o := (wrapUsize (o.1+sa), wrapUsize (o.2+sb))
  rewind i o := (asUsize (o.1-wrapUsize (sa*i)), asUsize (o.2-wrapUsize (sb*i)))

def broadcastAxes : List ℕ → List ℕ → List ℕ → List (Axis (ℕ × ℕ))
  | d :: out, sa :: sas, sb :: sbs => broadcastAxis d sa sb :: broadcastAxes out sas sbs
  | _, _, _ => []

/-- The element positions `(ao, bo)` read by `zip_map_broadcast`, in order. -/
def broadcastReads (a b out : List ℕ) : List (ℕ × ℕ) :=
  let size := wrapProduct out
  if 0 < size then
    (visits (broadcastAxes out (broadcastStrides a out) (broadcastStrides b out)) size
      (List.replicate out.length 0) (0,0)).map Prod.snd
  else []

/-- A shape that NumPy would stretch to `target`. -/
def BroadcastsTo (shape target : List ℕ) : Prop :=
  shape.length ≤ target.length ∧
    List.Forall₂ (fun d t => d = t ∨ d = 1) shape (target.drop (target.length-shape.length))

/-- The element of `shape` seen at a multi-index of the stretched shape. -/
def stretch (shape idx : List ℕ) : List ℕ :=
  List.zipWith (fun d i => if d = 1 then 0 else i) shape (idx.drop (idx.length-shape.length))

theorem alignedDim_lead {shape : List ℕ} {ndim k : ℕ} (h : k+shape.length < ndim) :
    alignedDim shape ndim k = 1 := by
  rw [alignedDim, if_neg (by omega)]

theorem alignedDim_trail {shape : List ℕ} {ndim j : ℕ} (hle : shape.length ≤ ndim) (h : j < shape.length) :
    alignedDim shape ndim (ndim-shape.length+j) = shape[j] := by
  have hj : ndim-shape.length+j+shape.length-ndim = j := by omega
  rw [alignedDim, if_pos (by omega), hj, List.getD_eq_getElem?_getD, List.getElem?_eq_getElem h,
    Option.getD_some]

theorem broadcastsTo_self (shape : List ℕ) : BroadcastsTo shape shape := by
  refine ⟨le_refl _, ?_⟩
  rw [Nat.sub_self, List.drop_zero, List.forall₂_same]
  exact fun d _ => .inl rfl

/-- Clipping the axes of length 1 does not move an index that is in range. -/
theorem stretch_self {shape idx : List ℕ} (h : InRange shape idx) : stretch shape idx = idx := by
  rw [stretch, h.length_eq, Nat.sub_self, List.drop_zero]
  induction shape generalizing idx with
  | nil => rw [inRange_nil.mp h, List.zipWith_nil_left]
  | cons d ds ih =>
    obtain ⟨i, is, rfl, hi, his⟩ := h.cases_cons
    rw [List.zipWith_cons_cons, ih his]
    congr 1
    split_ifs <;> omega

/-- Stretching in two steps reads what stretching in one does. -/
theorem stretch_stretch {shape target idx : List ℕ} (h : BroadcastsTo shape target) (hlen : target.length ≤ idx.length) :
    stretch shape (stretch target idx) = stretch shape idx := by
  obtain ⟨hle, hall⟩ := h
  have hlength : (stretch target idx).length = target.length := by
    rw [stretch, List.length_zipWith, List.length_drop]
    omega
  have hdrop : (stretch target idx).drop (target.length-shape.length) =
      List.zipWith (fun d i => if d = 1 then 0 else i) (target.drop (target.length-shape.length))
        (idx.drop (idx.length-shape.length)) := by
    rw [stretch, List.drop_zipWith, List.drop_drop]
    congr 2
    omega
  rw [stretch, hlength, hdrop, stretch]
  clear hle hlength hdrop
  generalize target.drop (target.length-shape.length) = t at hall
  generalize idx.drop (idx.length-shape.length) = is
  induction hall generalizing is with
  | nil => rfl
  | @cons d t ds ts hd _ ih =>
    cases is with
    | nil => rfl
    | cons i is =>
      rw [List.zipWith_cons_cons, List.zipWith_cons_cons, List.zipWith_cons_cons, ih is]
      congr 1
      split_ifs <;> omega

theorem inRange_stretch {shape target idx : List ℕ} (h : BroadcastsTo shape target)
    (hidx : InRange target idx) : InRange shape (stretch shape idx) := by
  have hdrop : InRange (target.drop (target.length-shape.length)) (idx.drop (idx.length-shape.length)) := by
    rw [hidx.length_eq]
    exact List.forall₂_drop _ hidx
  obtain ⟨-, hall⟩ := h
  rw [stretch]
  generalize target.drop (target.length-shape.length) = t at hall hdrop
  generalize idx.drop (idx.length-shape.length) = is at hdrop
  induction hall generalizing is with
  | nil => simp
  | @cons d t ds ts hd _ ih =>
    obtain ⟨i, is, rfl, hi, his⟩ := hdrop.cases_cons
    rw [List.zipWith_cons_cons, inRange_cons]
    refine ⟨?_, ih is his⟩
    split_ifs <;> omega

theorem broadcastStridesLoop_snd (shape : List ℕ) :
    ((broadcastStridesLoop shape).2 : Word) = (shape.prod : Word) := by
  induction shape with
  | nil => rfl
  | cons d ds ih =>
    rw [broadcastStridesLoop, List.prod_cons, cast_wrapUsize, Nat.cast_mul, Nat.cast_mul, ih, mul_comm]

theorem length_broadcastStridesLoop (shape : List ℕ) :
    (broadcastStridesLoop shape).1.length = shape.length := by
  induction shape with
  | nil => rfl
  | cons d ds ih => simp [broadcastStridesLoop, ih]

theorem dot_broadcastStridesLoop {shape is : List ℕ} (h : is.length = shape.length) :
    dot is ((broadcastStridesLoop shape).1.map (Nat.cast : ℕ → Word)) =
      flat shape (List.zipWith (fun d i => if d = 1 then 0 else i) shape is) := by
  induction shape generalizing is with
  | nil =>
    rw [List.length_nil, List.length_eq_zero_iff] at h
    simp [h, flat]
  | cons d ds ih =>
    cases is with
    | nil => simp at h
    | cons i is =>
      have hlen : is.length = ds.length := by simpa using h
      have hrest := ih hlen
      simp only [broadcastStridesLoop, List.map_cons, dot_cons, List.zipWith_cons_cons, flat, hrest]
      rw [Nat.cast_add, Nat.cast_mul]
      by_cases hd : d = 1
      · simp [hd]
      · rw [if_neg hd, if_neg hd, broadcastStridesLoop_snd]

theorem dot_replicate_zero {R : Type*} [CommSemiring R] (n : ℕ) (is : List ℕ) (ss : List R) :
    dot is (List.replicate n 0 ++ ss) = dot (is.drop n) ss := by
  induction n generalizing is with
  | zero => rfl
  | succ n ih =>
    cases is with
    | nil => simp
    | cons i is => simp [List.replicate_succ, ih]

/-- The strides of a stretched operand find the element it shows. -/
theorem dot_broadcastStrides {shape target idx : List ℕ} (h : BroadcastsTo shape target)
    (hidx : InRange target idx) :
    dot idx ((broadcastStrides shape target).map (Nat.cast : ℕ → Word)) = flat shape (stretch shape idx) := by
  have hlen := hidx.length_eq
  rw [broadcastStrides, List.map_append, List.map_replicate, Nat.cast_zero, dot_replicate_zero, stretch,
    hlen, dot_broadcastStridesLoop]
  rw [List.length_drop, hlen]
  have := h.1
  omega

theorem length_broadcastStrides {shape target : List ℕ} (h : BroadcastsTo shape target) :
    (broadcastStrides shape target).length = target.length := by
  have hle := h.1
  rw [broadcastStrides, List.length_append, List.length_replicate, length_broadcastStridesLoop]
  omega

theorem lens_broadcastAxes {out sas sbs : List ℕ} (ha : sas.length = out.length) (hb : sbs.length = out.length) :
    lens (broadcastAxes out sas sbs) = out := by
  induction out generalizing sas sbs with
  | nil => rfl
  | cons d out ih =>
    cases sas with
    | nil => simp at ha
    | cons sa sas =>
      cases sbs with
      | nil => simp at hb
      | cons sb sbs =>
        rw [broadcastAxes, lens_cons, ih (by simpa using ha) (by simpa using hb)]
        rfl

theorem exactAxes_broadcastAxes {out sas sbs : List ℕ} (ha : sas.length = out.length)
    (hb : sbs.length = out.length) :
    List.Forall₂ (ExactAxis fun o : ℕ × ℕ => (o.1 : Word)) (broadcastAxes out sas sbs) (sas.map Nat.cast) ∧
      List.Forall₂ (ExactAxis fun o : ℕ × ℕ => (o.2 : Word)) (broadcastAxes out sas sbs) (sbs.map Nat.cast) := by
  induction out generalizing sas sbs with
  | nil =>
    rw [List.length_nil, List.length_eq_zero_iff] at ha hb
    subst ha hb
    exact ⟨.nil, .nil⟩
  | cons d out ih =>
    cases sas with
    | nil => simp at ha
    | cons sa sas =>
      cases sbs with
      | nil => simp at hb
      | cons sb sbs =>
        have hsas : sas.length = out.length := by simpa using ha
        have hsbs : sbs.length = out.length := by simpa using hb
        obtain ⟨hsa, hsb⟩ := ih hsas hsbs
        have hback (s n : ℕ) : ((asUsize (n-wrapUsize (s*d)) : ℕ) : Word) = n-d*s := by
          rw [cast_asUsize, Int.cast_sub, Int.cast_natCast, Int.cast_natCast, cast_wrapUsize, Nat.cast_mul,
            mul_comm]
        refine ⟨.cons ⟨fun o => ?_, fun o => hback sa o.1⟩ hsa, .cons ⟨fun o => ?_, fun o => hback sb o.2⟩ hsb⟩
        · show ((wrapUsize (o.1+sa) : ℕ) : Word) = _
          rw [cast_wrapUsize, Nat.cast_add]
        · show ((wrapUsize (o.2+sb) : ℕ) : Word) = _
          rw [cast_wrapUsize, Nat.cast_add]

theorem broadcastAxes_word {out sas sbs : List ℕ} {ax : Axis (ℕ × ℕ)} (h : ax ∈ broadcastAxes out sas sbs) :
    (∀ o, (ax.inc o).1 < wordModulus ∧ (ax.inc o).2 < wordModulus) ∧
      ∀ i o, (ax.rewind i o).1 < wordModulus ∧ (ax.rewind i o).2 < wordModulus := by
  induction out generalizing sas sbs with
  | nil => cases h
  | cons d out ih =>
    cases sas with
    | nil => cases h
    | cons sa sas =>
      cases sbs with
      | nil => cases h
      | cons sb sbs =>
        rcases List.mem_cons.mp h with rfl | h
        · exact ⟨fun _ => ⟨wrapUsize_lt _, wrapUsize_lt _⟩, fun _ _ => ⟨asUsize_lt _, asUsize_lt _⟩⟩
        · exact ih h

/-- The loop reads the elements of the result, as many as the wrapped size says, at the positions
its operands show there. -/
theorem broadcastReads_take {a b out : List ℕ} (ha : BroadcastsTo a out) (hb : BroadcastsTo b out)
    (hpa : a.prod < wordModulus) (hpb : b.prod < wordModulus) :
    broadcastReads a b out =
      ((enum out).take (wrapProduct out)).map fun idx => (flat a (stretch a idx), flat b (stretch b idx)) := by
  have hle : wrapProduct out ≤ out.prod := by
    rw [wrapProduct_eq]
    exact Nat.mod_le _ _
  rw [broadcastReads]
  split_ifs with hpos
  · have hsa := length_broadcastStrides ha
    have hsb := length_broadcastStrides hb
    have hlens := lens_broadcastAxes hsa hsb
    have hlen : (broadcastAxes out (broadcastStrides a out) (broadcastStrides b out)).length = out.length := by
      rw [← length_lens, hlens]
    obtain ⟨hea, heb⟩ := exactAxes_broadcastAxes hsa hsb
    obtain ⟨hfst, hao⟩ := visits_take _ hea (0,0) (by rw [hlens]; omega) (n := wrapProduct out) (by rwa [hlens])
    obtain ⟨-, hbo⟩ := visits_take _ heb (0,0) (by rw [hlens]; omega) (n := wrapProduct out) (by rwa [hlens])
    rw [hlens, hlen] at hfst
    rw [hlen] at hao hbo
    have hbound : ∀ p ∈ visits (broadcastAxes out (broadcastStrides a out) (broadcastStrides b out)) (wrapProduct out)
        (List.replicate out.length 0) (0,0), p.2.1 < wordModulus ∧ p.2.2 < wordModulus :=
      visits_state (P := fun o => o.1 < wordModulus ∧ o.2 < wordModulus)
        (fun ax hax o _ => (broadcastAxes_word hax).1 o) (fun ax hax i o _ => (broadcastAxes_word hax).2 i o)
        _ _ ⟨by decide, by decide⟩
    rw [← hfst, List.map_map]
    apply List.map_congr_left
    intro p hp
    have hidx : InRange out p.1 := by
      rw [← mem_enum]
      apply List.mem_of_mem_take (i := wrapProduct out)
      rw [← hfst]
      exact List.mem_map_of_mem hp
    have h1 := hao p hp
    have h2 := hbo p hp
    rw [dot_broadcastStrides ha hidx, Nat.cast_zero, zero_add] at h1
    rw [dot_broadcastStrides hb hidx, Nat.cast_zero, zero_add] at h2
    apply Prod.ext
    · exact eq_of_cast_eq (hbound p hp).1 ((flat_lt (inRange_stretch ha hidx)).trans hpa) h1
    · exact eq_of_cast_eq (hbound p hp).2 ((flat_lt (inRange_stretch hb hidx)).trans hpb) h2
  · -- an empty result: the loop is not entered
    rw [Nat.eq_zero_of_not_pos hpos, List.take_zero, List.map_nil]

/-- All of them when the size does not wrap. -/
theorem broadcastReads_spec {a b out : List ℕ} (ha : BroadcastsTo a out) (hb : BroadcastsTo b out)
    (hout : out.prod < wordModulus) (hpa : a.prod < wordModulus) (hpb : b.prod < wordModulus) :
    broadcastReads a b out =
      (enum out).map fun idx => (flat a (stretch a idx), flat b (stretch b idx)) := by
  rw [broadcastReads_take ha hb hpa hpb, wrapProduct_of_lt hout, List.take_of_length_le (by rw [length_enum])]

end LightArray
