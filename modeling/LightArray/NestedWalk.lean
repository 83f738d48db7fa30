import LightArray.NestedSequence

namespace LightArray
open MachineWord OrderedTree

section fold

variable {F : Type} (ofInt : ℤ → F)

/-- What the walk does at one node. -/
def visit (w : Walk F) (e : ℕ × Node (Scalar F)) : Option (Walk F) :=
  match e.2, e.1 with
  | .seq len, d => w.enter d len
  | .leaf item, d+1 => w.push ofInt d item
  | .leaf _, 0 => none

mutual

theorem walkItem_eq (depth : ℕ) (t : PySequence F) (w : Walk F) :
    walkItem ofInt depth t w = (t.nodes (depth+1)).foldlM (visit ofInt) w := by
  cases t with
  | leaf item => simp [walkItem, Rose.nodes, visit]
  | seq items =>
    rw [walkItem, Rose.nodes, List.foldlM_cons]
    exact congrArg _ (funext fun w => walkItems_eq (depth+1) items w)

theorem walkItems_eq (depth : ℕ) (ts : List (PySequence F)) (w : Walk F) :
    walkItems ofInt depth ts w = (Rose.nodesOf (depth+1) ts).foldlM (visit ofInt) w := by
  cases ts with
  | nil => rfl
  | cons t ts =>
    rw [walkItems, Rose.nodesOf, List.foldlM_append, walkItem_eq depth t w]
    exact congrArg _ (funext fun w => walkItems_eq depth ts w)

end

theorem walk_eq (items : List (PySequence F)) :
    walk ofInt (.seq items) = ((Rose.seq items).nodes 0).foldlM (visit ofInt) Walk.start := by
  rw [walk, Rose.nodes, List.foldlM_cons]
  exact congrArg _ (funext fun w => walkItems_eq ofInt 0 items w)

def leavesSeen (seen : List (ℕ × Node (Scalar F))) : List (Scalar F) := seen.filterMap (·.2.leaf?)

/-- The state after the nodes `seen`. -/
structure WalkInv (seen : List (ℕ × Node (Scalar F))) (w : Walk F) : Prop where
  dims : ∀ d n, w.dims[d]? = some n ↔ (d, .seq n) ∈ seen
  ndim_le : w.dims.length ≤ maxNdim
  floats : w.floats = (leavesSeen seen).map (Scalar.toFloat ofInt)
  sawFloat : w.sawFloat = (leavesSeen seen).any Scalar.isFloat
  sawInt : w.sawInt = (leavesSeen seen).any Scalar.isInt
  sawBool : w.sawBool = (leavesSeen seen).any Scalar.isBool
  ints : w.sawFloat = false → w.ints = (leavesSeen seen).map Scalar.toInt

/-- Once a sequence has appeared on a level, every later node of the level is a
sequence of the same length. -/
def Follows (x y : Node (Scalar F)) : Prop := x.isSeq = true → y = x

/-- What the walk asks of a node by itself. -/
def Admits (e : ℕ × Node (Scalar F)) : Prop :=
  match e.2, e.1 with
  | .seq _, d => d < maxNdim
  | .leaf item, _+1 => item.Native
  | .leaf _, 0 => False

/-- The state with one more leaf. -/
def Walk.add (item : Scalar F) (w : Walk F) : Walk F where
  dims := w.dims
  floats := w.floats ++ [item.toFloat ofInt]
  ints := if w.sawFloat || item.isFloat then w.ints else w.ints ++ [item.toInt]
  sawFloat := w.sawFloat || item.isFloat
  sawInt := w.sawInt || item.isInt
  sawBool := w.sawBool || item.isBool

theorem Walk.push_ok {d : ℕ} {item : Scalar F} {w w' : Walk F} :
    w.push ofInt d item = some w' ↔
      d+1 = w.dims.length ∧ item.Native ∧ w.add ofInt item = w' := by
  by_cases hd : d+1 = w.dims.length
  · cases item with
    | float x =>
      simp [push, add, hd, Scalar.Native, Scalar.toFloat, Scalar.isFloat, Scalar.isInt, Scalar.isBool]
    | bool b =>
      simp [push, add, hd, Scalar.Native, Scalar.toFloat, Scalar.toInt, Scalar.isFloat,
        Scalar.isInt, Scalar.isBool]
    | int i =>
      by_cases hi : i < -(2^63) ∨ 2^63 ≤ i
      · have hn : ¬ (-(2^63) ≤ i ∧ i < 2^63) := by omega
        simp only [push, hd, ne_eq, not_true_eq_false, ↓reduceIte, if_pos hi, Scalar.Native, hn,
          reduceCtorEq, false_and, and_false]
      · have hn : -(2^63) ≤ i ∧ i < 2^63 := by omega
        simp only [push, hd, ne_eq, not_true_eq_false, ↓reduceIte, if_neg hi, Scalar.Native, hn,
          true_and, Option.some.injEq]
        simp [add, Scalar.toFloat, Scalar.toInt, Scalar.isFloat, Scalar.isInt, Scalar.isBool]
    | other => simp [push, Scalar.Native]
  · cases item <;> simp [push, hd]

theorem Walk.enter_ok {d len : ℕ} {w w' : Walk F} :
    w.enter d len = some w' ↔
      d = w.dims.length ∧ d < maxNdim ∧ {w with dims := w.dims ++ [len]} = w' ∨
        d ≠ w.dims.length ∧ w.dims.getD d 0 = len ∧ w = w' := by
  unfold enter
  by_cases hd : d = w.dims.length
  · by_cases hmax : maxNdim < d+1
    · have hn : ¬ d < maxNdim := by omega
      simp [← hd, hmax, hn]
    · have hn : d < maxNdim := by omega
      simp [← hd, hmax, hn]
  · by_cases hlen : w.dims.getD d 0 = len
    · simp only [hlen, ne_eq, not_true_eq_false, ↓reduceIte, Option.some.injEq, hd, false_and,
        not_false_eq_true, true_and, false_or]
    · simp only [ne_eq, hlen, not_false_eq_true, ↓reduceIte, reduceCtorEq, hd, false_and,
        and_false, or_self]

namespace WalkInv

variable {ofInt} {seen : List (ℕ × Node (Scalar F))} {w w' : Walk F}

theorem start : WalkInv ofInt [] Walk.start :=
  ⟨by simp [Walk.start], by simp [Walk.start], rfl, rfl, rfl, rfl, fun _ => rfl⟩

/-- No sequence of the level has been seen exactly when the walk is not below it. -/
theorem leaf_follows (h : WalkInv ofInt seen w) (d : ℕ) (item : Scalar F) :
    (∀ s ∈ seen, s.1 = d → Follows s.2 (.leaf item)) ↔ w.dims.length ≤ d := by
  rw [← List.getElem?_eq_none_iff, Option.eq_none_iff_forall_ne_some]
  constructor
  · intro hs n hn
    have hf := hs _ ((h.dims d n).mp hn) rfl rfl
    cases hf
  · rintro hs ⟨d', x⟩ hx rfl hseq
    obtain ⟨n, rfl⟩ := Node.isSeq_iff.mp hseq
    exact absurd ((h.dims _ n).mpr hx) (hs n)

theorem seq_follows (h : WalkInv ofInt seen w) (d len : ℕ) :
    (∀ s ∈ seen, s.1 = d → Follows s.2 (.seq len)) ↔ ∀ n, w.dims[d]? = some n → n = len := by
  constructor
  · intro hs n hn
    exact (Node.seq.inj (hs _ ((h.dims d n).mp hn) rfl rfl)).symm
  · rintro hs ⟨d', x⟩ hx rfl hseq
    obtain ⟨n, rfl⟩ := Node.isSeq_iff.mp hseq
    rw [hs n ((h.dims _ n).mpr hx)]

theorem depth_le (h : WalkInv ofInt seen w) {d : ℕ}
    (hnest : ∀ k, d = k+1 → ∃ n, (k, .seq n) ∈ seen) : d ≤ w.dims.length := by
  cases d with
  | zero => exact Nat.zero_le _
  | succ k =>
    obtain ⟨n, hn⟩ := hnest k rfl
    exact (List.getElem?_eq_some_iff.mp ((h.dims k n).mpr hn)).1

/-- The walk accepts a node when it is admitted and follows what was seen. -/
theorem visit_iff (h : WalkInv ofInt seen w) {e : ℕ × Node (Scalar F)}
    (hnest : ∀ d, e.1 = d+1 → ∃ n, (d, .seq n) ∈ seen) :
    (∃ w', visit ofInt w e = some w') ↔ Admits e ∧ ∀ s ∈ seen, s.1 = e.1 → Follows s.2 e.2 := by
  have hdepth := h.depth_le hnest
  obtain ⟨d, x⟩ := e
  cases x with
  | leaf item =>
    cases d with
    | zero => simp [visit, Admits]
    | succ d =>
      simp only [visit, Admits, Walk.push_ok]
      rw [h.leaf_follows]
      constructor
      · rintro ⟨w', hlen, hnat, -⟩
        exact ⟨hnat, hlen.ge⟩
      · rintro ⟨hnat, hlen⟩
        exact ⟨_, le_antisymm hdepth hlen, hnat, rfl⟩
  | seq len =>
    simp only [visit, Admits, Walk.enter_ok]
    rw [h.seq_follows]
    by_cases hd : d = w.dims.length
    · have hnone : ∀ n, w.dims[d]? = some n → n = len := by
        rw [List.getElem?_eq_none_iff.mpr hd.ge]
        exact fun n hn => nomatch hn
      constructor
      · rintro ⟨w', ⟨-, hmax, -⟩ | ⟨hne, -⟩⟩
        · exact ⟨hmax, hnone⟩
        · exact absurd hd hne
      · rintro ⟨hmax, -⟩
        exact ⟨_, .inl ⟨hd, hmax, rfl⟩⟩
    · have hlt : d < w.dims.length := lt_of_le_of_ne hdepth hd
      have hmax : d < maxNdim := hlt.trans_le h.ndim_le
      have hsome : w.dims[d]? = some w.dims[d] := List.getElem?_eq_getElem hlt
      simp [hd, hmax, hsome]

theorem add_inv (h : WalkInv ofInt seen w) (d : ℕ) (item : Scalar F) :
    WalkInv ofInt (seen ++ [(d, .leaf item)]) (w.add ofInt item) := by
  have hl : leavesSeen (seen ++ [(d, .leaf item)]) = leavesSeen seen ++ [item] := by
    simp [leavesSeen, Node.leaf?]
  refine ⟨?_, h.ndim_le, ?_, ?_, ?_, ?_, ?_⟩
  · intro k n
    rw [List.mem_append, Walk.add, h.dims]
    simp
  · rw [hl, Walk.add, h.floats, List.map_append, List.map_singleton]
  · rw [hl, Walk.add, h.sawFloat, List.any_append, List.any_cons, List.any_nil, Bool.or_false]
  · rw [hl, Walk.add, h.sawInt, List.any_append, List.any_cons, List.any_nil, Bool.or_false]
  · rw [hl, Walk.add, h.sawBool, List.any_append, List.any_cons, List.any_nil, Bool.or_false]
  · intro hf
    simp only [Walk.add, Bool.or_eq_false_iff] at hf
    simp only [hl, Walk.add, hf.1, hf.2, h.ints hf.1, List.map_append, List.map_singleton,
      Bool.or_self, Bool.false_eq_true, ↓reduceIte]

theorem seq_inv (h : WalkInv ofInt seen w) {d len : ℕ} {dims : List ℕ}
    (hdims : ∀ k n, dims[k]? = some n ↔ (k, .seq n) ∈ seen ++ [(d, .seq len)]) (hmax : dims.length ≤ maxNdim) :
    WalkInv ofInt (seen ++ [(d, .seq len)]) {w with dims := dims} := by
  have hl : leavesSeen (seen ++ [(d, .seq len)]) = leavesSeen seen := by
    simp [leavesSeen, Node.leaf?]
  exact ⟨hdims, hmax, hl ▸ h.floats, hl ▸ h.sawFloat, hl ▸ h.sawInt, hl ▸ h.sawBool, hl ▸ h.ints⟩

theorem dims_append_iff (h : WalkInv ofInt seen w) (len k n : ℕ) :
    (w.dims ++ [len])[k]? = some n ↔ (k, .seq n) ∈ seen ++ [(w.dims.length, .seq len)] := by
  rw [List.mem_append, ← h.dims, List.mem_singleton, Prod.mk.injEq, Node.seq.injEq]
  rcases lt_trichotomy k w.dims.length with hk | rfl | hk
  · rw [List.getElem?_append_left hk]
    simp [hk.ne]
  · simp [eq_comm]
  · have hpos : 0 < k-w.dims.length := by omega
    rw [List.getElem?_append_right hk.le, List.getElem?_eq_none_iff.mpr hk.le,
      List.getElem?_eq_none_iff.mpr (by rw [List.length_singleton]; exact hpos)]
    simp [hk.ne']

theorem visit_inv (h : WalkInv ofInt seen w) {e : ℕ × Node (Scalar F)}
    (hnest : ∀ d, e.1 = d+1 → ∃ n, (d, .seq n) ∈ seen) (hv : visit ofInt w e = some w') :
    WalkInv ofInt (seen ++ [e]) w' := by
  obtain ⟨d, x⟩ := e
  cases x with
  | leaf item =>
    cases d with
    | zero => simp [visit] at hv
    | succ d =>
      obtain ⟨-, -, rfl⟩ := (Walk.push_ok ofInt).mp hv
      exact h.add_inv (d+1) item
  | seq len =>
    rcases Walk.enter_ok.mp hv with ⟨rfl, hmax, rfl⟩ | ⟨hd, hlen, rfl⟩
    · -- a new level
      apply h.seq_inv (h.dims_append_iff len)
      rw [List.length_append, List.length_singleton]
      exact hmax
    · -- the level is known, and the length is the one found first
      apply h.seq_inv _ h.ndim_le
      intro k n
      rw [List.mem_append, ← h.dims, List.mem_singleton, Prod.mk.injEq, Node.seq.injEq]
      refine ⟨.inl, ?_⟩
      rintro (hk | ⟨rfl, rfl⟩)
      · exact hk
      · have hlt : k < w.dims.length := lt_of_le_of_ne (h.depth_le hnest) hd
        rw [List.getD_eq_getElem?_getD, List.getElem?_eq_getElem hlt, Option.getD_some] at hlen
        rw [List.getElem?_eq_getElem hlt, hlen]

theorem foldlM_inv {es : List (ℕ × Node (Scalar F))} (h : WalkInv ofInt seen w)
    (hn : Rose.Nested seen es) (hf : es.foldlM (visit ofInt) w = some w') :
    WalkInv ofInt (seen ++ es) w' := by
  induction es generalizing seen w with
  | nil =>
    cases hf
    rwa [List.append_nil]
  | cons e es ih =>
    obtain ⟨w₁, hv, hrest⟩ := Option.bind_eq_some_iff.mp hf
    have htail := ih (h.visit_inv hn.1 hv) hn.2 hrest
    rwa [List.append_assoc, List.singleton_append] at htail

/-- The walk accepts nodes that are admitted and follow each other. -/
theorem foldlM_iff {es : List (ℕ × Node (Scalar F))} (h : WalkInv ofInt seen w)
    (hn : Rose.Nested seen es) :
    (∃ w', es.foldlM (visit ofInt) w = some w') ↔
      (∀ e ∈ es, Admits e) ∧ (∀ s ∈ seen, ∀ e ∈ es, s.1 = e.1 → Follows s.2 e.2) ∧
        es.Pairwise fun s e => s.1 = e.1 → Follows s.2 e.2 := by
  induction es generalizing seen w with
  | nil => simp
  | cons e es ih =>
    rw [List.foldlM_cons]
    constructor
    · rintro ⟨w', hw'⟩
      obtain ⟨w₁, hv, hrest⟩ := Option.bind_eq_some_iff.mp hw'
      obtain ⟨hadm, hfol⟩ := (h.visit_iff hn.1).mp ⟨w₁, hv⟩
      obtain ⟨hadm', hfol', hpair⟩ := (ih (h.visit_inv hn.1 hv) hn.2).mp ⟨w', hrest⟩
      refine ⟨List.forall_mem_cons.mpr ⟨hadm, hadm'⟩, fun s hs => ?_, ?_⟩
      · exact List.forall_mem_cons.mpr ⟨hfol s hs, hfol' s (List.mem_append_left _ hs)⟩
      · exact List.pairwise_cons.mpr
          ⟨hfol' e (List.mem_append_right _ List.mem_cons_self), hpair⟩
    · rintro ⟨hadm, hfol, hpair⟩
      obtain ⟨hhead, htail⟩ := List.pairwise_cons.mp hpair
      obtain ⟨w₁, hv⟩ := (h.visit_iff hn.1).mpr
        ⟨hadm e List.mem_cons_self, fun s hs => hfol s hs e List.mem_cons_self⟩
      have hrest : ∀ s ∈ seen ++ [e], ∀ e' ∈ es, s.1 = e'.1 → Follows s.2 e'.2 := by
        intro s hs e' he'
        rcases List.mem_append.mp hs with hs | hs
        · exact hfol s hs e' (List.mem_cons_of_mem _ he')
        · rw [List.mem_singleton] at hs
          exact hs ▸ hhead e' he'
      obtain ⟨w', hw'⟩ := (ih (h.visit_inv hn.1 hv) hn.2).mpr
        ⟨fun e' he' => hadm e' (List.mem_cons_of_mem _ he'), hrest, htail⟩
      exact ⟨w', Option.bind_eq_some_iff.mpr ⟨w₁, hv, hw'⟩⟩

end WalkInv

/-- The trees the walk accepts: native leaves, at most 8 levels of sequences,
and on each level nothing after a sequence but sequences of its length. -/
structure Walkable (obj : PySequence F) : Prop where
  native : ∀ x ∈ obj.leaves, x.Native
  levels : ∀ x ∈ Rose.level maxNdim [obj], x.isSeq = false
  follows : ∀ k, (Rose.level k [obj]).Pairwise Follows

/-- Leaves and sequences on one level. -/
def Mixed (obj : PySequence F) : Prop :=
  ∃ k, (∃ x ∈ Rose.level k [obj], x.isSeq = true) ∧ ∃ x ∈ Rose.level k [obj], x.isSeq = false

end fold

end LightArray
