import LightArray.NestedWalk

namespace LightArray
open MachineWord OrderedTree

section accept

variable {F : Type} {ofInt : ℤ → F} {items : List (PySequence F)}

theorem leavesSeen_nodes (t : PySequence F) : leavesSeen (t.nodes 0) = t.leaves :=
  Rose.filterMap_nodes 0 t

theorem admits_iff : (∀ e ∈ (Rose.seq items).nodes 0, Admits e) ↔
    (∀ x ∈ (Rose.seq items).leaves, x.Native) ∧
      ∀ x ∈ Rose.level maxNdim [Rose.seq items], x.isSeq = false := by
  constructor
  · intro h
    constructor
    · intro x hx
      obtain ⟨d, hd⟩ := Rose.mem_leaves.mp hx
      have ha := h _ hd
      cases d with
      | zero => cases ha
      | succ d => exact ha
    · intro x hx
      cases x with
      | leaf a => rfl
      | seq n => exact absurd (h _ (Rose.mem_level.mp hx)) (lt_irrefl maxNdim)
  · rintro ⟨hnat, hlev⟩ ⟨d, x⟩ he
    cases x with
    | leaf a =>
      cases d with
      | zero =>
        rcases List.mem_cons.mp he with hroot | he
        · cases hroot
        · exact absurd (Rose.le_of_mem_nodesOf items _ he) (by simp)
      | succ d => exact hnat a (Rose.mem_leaves.mpr ⟨_, he⟩)
    | seq n =>
      show d < maxNdim
      by_contra hge
      obtain ⟨m, hm⟩ := Rose.exists_seq_of_le he (not_lt.mp hge)
      have hbad := hlev _ (Rose.mem_level.mpr hm)
      cases hbad

/-- The walk finds the shape, the leaves and their kinds. -/
theorem walk_inv {w : Walk F} (h : walk ofInt (.seq items) = some w) :
    WalkInv ofInt ((Rose.seq items).nodes 0) w := by
  rw [walk_eq] at h
  exact WalkInv.start.foldlM_inv (Rose.nested_root (.seq items)) h

theorem walk_iff : (∃ w, walk ofInt (.seq items) = some w) ↔ Walkable (.seq items) := by
  have hpair : ((Rose.seq items).nodes 0).Pairwise (fun s e => s.1 = e.1 → Follows s.2 e.2) ↔
      ∀ k, (Rose.level k [Rose.seq items]).Pairwise Follows := Rose.pairwise_nodes_iff
  rw [walk_eq, WalkInv.start.foldlM_iff (Rose.nested_root _), admits_iff, hpair]
  constructor
  · rintro ⟨⟨hnat, hlev⟩, -, hfol⟩
    exact ⟨hnat, hlev, hfol⟩
  · rintro ⟨hnat, hlev, hfol⟩
    exact ⟨⟨hnat, hlev⟩, by simp, hfol⟩

theorem WalkInv.shapeOf {t : PySequence F} {w : Walk F} (h : WalkInv ofInt (t.nodes 0) w) :
    Rose.ShapeOf [t] w.dims := fun k n => by rw [h.dims, Rose.mem_level]

/-- Native leaves without a float, an integer or a bool are no leaves. -/
theorem inferred_float {ls : List (Scalar F)} (hnat : ∀ x ∈ ls, x.Native) :
    (ls.any Scalar.isFloat || !(ls.any Scalar.isInt || ls.any Scalar.isBool)) =
      (ls.any Scalar.isFloat || ls.isEmpty) := by
  cases ls with
  | nil => rfl
  | cons x ls =>
    have hx := hnat x List.mem_cons_self
    cases x with
    | other => cases hx
    | float v => simp [Scalar.isFloat]
    | bool b => simp [Scalar.isBool]
    | int i => simp [Scalar.isInt]

theorem map_truth {ls : List (Scalar F)} (hnat : ∀ x ∈ ls, x.Native)
    (hf : ls.any Scalar.isFloat = false) (hi : ls.any Scalar.isInt = false) :
    (ls.map Scalar.toInt).map (· != 0) = ls.map Scalar.truth := by
  rw [List.map_map]
  apply List.map_congr_left
  intro x hx
  have hn := hnat x hx
  have hxf : x.isFloat = false := by simpa using List.any_eq_false.mp hf x hx
  have hxi : x.isInt = false := by simpa using List.any_eq_false.mp hi x hx
  cases x with
  | float v => cases hxf
  | int i => cases hxi
  | other => cases hn
  | bool b => cases b <;> rfl

/-- The three buffers of a walk have one length, so the count decides for each of them. -/
theorem WalkInv.exists_dims {seen : List (ℕ × Node (Scalar F))} {w : Walk F} (h : WalkInv ofInt seen w)
    (hcount : w.floats.length = wrapProduct w.dims) {s len : ℕ} (hlen : len = w.floats.length) :
    ∃ d : Dims s, Dims.checked w.dims s len = .ok d ∧ d.shape = w.dims := by
  obtain ⟨d, hd⟩ := Dims.checked_iff.mpr ⟨h.ndim_le, hcount.symm.trans hlen.symm⟩
  exact ⟨d, hd, (Dims.checked_ok hd).1⟩

/-- Without a float the integers were pushed along with every leaf. -/
theorem WalkInv.length_ints {seen : List (ℕ × Node (Scalar F))} {w : Walk F} (h : WalkInv ofInt seen w)
    (hsaw : w.sawFloat = false) : w.ints.length = w.floats.length := by
  rw [h.ints hsaw, h.floats, List.length_map, List.length_map]

/-- An array comes out of a walk whose count matches, and it represents the input. -/
theorem nestedSequence_of_walk {w : Walk F} (hw : walk ofInt (.seq items) = some w)
    (hnat : ∀ x ∈ (Rose.seq items).leaves, x.Native) :
    if w.floats.length = wrapProduct w.dims then
      ∃ arr, nestedSequence ofInt (.seq items) = .ok (some arr) ∧ Represents ofInt (.seq items) arr
    else nestedSequence ofInt (.seq items) = .ok none := by
  have hinv := walk_inv hw
  have hshape := hinv.shapeOf
  have hfloats := hinv.floats
  have hf := hinv.sawFloat
  have hi := hinv.sawInt
  have hb := hinv.sawBool
  have hints := hinv.ints
  rw [leavesSeen_nodes] at hfloats hf hi hb hints
  unfold nestedSequence
  rw [hw]
  dsimp only
  split
  · rename_i hcount
    rw [if_neg (not_not.mpr hcount)]
    have hdtype := inferred_float hnat
    rw [← hf, ← hi, ← hb] at hdtype
    split
    · rename_i hfloat
      obtain ⟨d, hd, hs⟩ := hinv.exists_dims hcount rfl
      refine ⟨.f64 d w.floats, by rw [hd]; rfl, ?_, hs ▸ hshape, hfloats⟩
      rw [hdtype, hf] at hfloat
      rw [inferredDType, if_pos hfloat]
    · rename_i hnofloat
      rw [hdtype] at hnofloat
      have hsaw : w.sawFloat = false := by
        rw [Bool.not_eq_true, Bool.or_eq_false_iff] at hnofloat
        exact hnofloat.1
      have hlen := hinv.length_ints hsaw
      rw [hf] at hnofloat
      split
      · rename_i hint
        obtain ⟨d, hd, hs⟩ := hinv.exists_dims hcount hlen
        refine ⟨.i64 d w.ints, by rw [hd]; rfl, ?_, hs ▸ hshape, hints hsaw⟩
        rw [inferredDType, if_neg hnofloat, if_pos (hi ▸ hint)]
      · rename_i hnoint
        rw [Bool.not_eq_true, hi] at hnoint
        have hdata : w.ints.map (· != 0) = (Rose.seq items).leaves.map Scalar.truth := by
          rw [hints hsaw]
          exact map_truth hnat (hf ▸ hsaw) hnoint
        obtain ⟨d, hd, hs⟩ := hinv.exists_dims hcount ((List.length_map ..).trans hlen)
        refine ⟨.bool d (w.ints.map (· != 0)), by rw [hd]; rfl, ?_, hs ▸ hshape, hdata⟩
        rw [inferredDType, if_neg hnofloat, if_neg (by rw [hnoint]; decide)]
  · rfl

/-- Rectangular trees are the walkable ones that mix no level. -/
theorem rectangular_iff {obj : PySequence F} : Rectangular obj ↔ Walkable obj ∧ ¬ Mixed obj := by
  constructor
  · intro h
    refine ⟨⟨h.native, h.levels, fun k => ?_⟩, ?_⟩
    · rcases h.uniform k with hleaf | ⟨n, hseq⟩
      · refine List.pairwise_of_forall_mem_list fun x hx y _ hs => ?_
        rw [hleaf x hx] at hs
        cases hs
      · exact List.pairwise_of_forall_mem_list fun x hx y hy _ => (hseq y hy).trans (hseq x hx).symm
    · rintro ⟨k, ⟨x, hx, hxs⟩, y, hy, hys⟩
      rcases h.uniform k with hleaf | ⟨n, hseq⟩
      · rw [hleaf x hx] at hxs
        cases hxs
      · rw [hseq y hy] at hys
        cases hys
  · rintro ⟨hw, hmix⟩
    refine ⟨fun k => ?_, hw.native, hw.levels⟩
    by_cases hleaf : ∀ x ∈ Rose.level k [obj], x.isSeq = false
    · exact .inl hleaf
    · right
      have hall : ∀ x ∈ Rose.level k [obj], x.isSeq = true := by
        intro x hx
        by_contra hxs
        rw [Bool.not_eq_true] at hxs
        push Not at hleaf
        obtain ⟨y, hy, hys⟩ := hleaf
        exact hmix ⟨k, ⟨y, hy, by simpa using hys⟩, x, hx, hxs⟩
      have hfol := hw.follows k
      generalize Rose.level k [obj] = l at hall hfol
      cases l with
      | nil => exact ⟨0, by simp⟩
      | cons x l =>
        obtain ⟨n, rfl⟩ := Node.isSeq_iff.mp (hall x List.mem_cons_self)
        refine ⟨n, fun y hy => ?_⟩
        rcases List.mem_cons.mp hy with rfl | hy
        · rfl
        · exact (List.pairwise_cons.mp hfol).1 y hy rfl

/-- `array` accepts what NumPy would make rectangular, with its shape, dtype and data. -/
def AcceptsExactly (ofInt : ℤ → F) (obj : PySequence F) : Prop :=
  ((∃ arr, nestedSequence ofInt obj = .ok (some arr)) ↔ Rectangular obj) ∧
    ∀ arr, nestedSequence ofInt obj = .ok (some arr) → Represents ofInt obj arr

/-- On a walkable tree the wrapped product of the lengths differs from the number
of leaves when a level is mixed, and does not wrap otherwise. -/
def CountTells (obj : PySequence F) : Prop :=
  Walkable obj → ∀ shape, Rose.ShapeOf [obj] shape →
    (Mixed obj → shape.prod%wordModulus ≠ obj.leaves.length) ∧
      (¬ Mixed obj → obj.leaves.length < wordModulus)

section accepts

variable {ofInt : ℤ → F} {items : List (PySequence F)}

theorem walkable_of_accepted {arr : AnyArray F} (h : nestedSequence ofInt (.seq items) = .ok (some arr)) :
    Walkable (.seq items) := by
  cases hw : walk ofInt (.seq items) with
  | none =>
    rw [nestedSequence, hw] at h
    cases h
  | some w => exact walk_iff.mp ⟨w, hw⟩

/-- What is accepted of a walkable sequence: the count of its leaves is the size of the shape found. -/
theorem accepts_iff_of_walk {w : Walk F} (hw : walk ofInt (.seq items) = some w) (hwalk : Walkable (.seq items)) :
    ((∃ arr, nestedSequence ofInt (.seq items) = .ok (some arr)) ↔
      (Rose.seq items).leaves.length = w.dims.prod%wordModulus) ∧
    ∀ arr, nestedSequence ofInt (.seq items) = .ok (some arr) → Represents ofInt (.seq items) arr := by
  have hlen : w.floats.length = (Rose.seq items).leaves.length := by
    rw [(walk_inv hw).floats, List.length_map, leavesSeen_nodes]
  have hrun := nestedSequence_of_walk hw hwalk.native
  rw [hlen, wrapProduct_eq, wrapUsize] at hrun
  split at hrun
  · rename_i hcount
    obtain ⟨arr, harr, hrep⟩ := hrun
    refine ⟨⟨fun _ => hcount, fun _ => ⟨arr, harr⟩⟩, fun arr' harr' => ?_⟩
    cases harr.symm.trans harr'
    exact hrep
  · rename_i hcount
    refine ⟨⟨fun ⟨arr, harr⟩ => ?_, fun h => absurd h hcount⟩, fun arr harr => ?_⟩
    · rw [hrun] at harr
      cases harr
    · rw [hrun] at harr
      cases harr

theorem shapeOf_unique {w : Walk F} (hw : walk ofInt (.seq items) = some w) {shape : List ℕ}
    (hs : Rose.ShapeOf [Rose.seq items] shape) : shape = w.dims := by
  apply List.ext_getElem?
  intro k
  apply Option.ext
  intro n
  rw [hs k n, (walk_inv hw).shapeOf k n]

theorem length_leaves_of_rectangular {w : Walk F} (hw : walk ofInt (.seq items) = some w)
    (h : Rectangular (.seq items)) : w.dims.prod = (Rose.seq items).leaves.length := by
  have hcount := Rose.length_leavesOf h.uniform (walk_inv hw).shapeOf
  rw [Rose.leavesOf, Rose.leavesOf, List.append_nil, List.length_singleton, one_mul] at hcount
  exact hcount.symm

end accepts

/-- A nested sequence is accepted exactly when it is a rectangular array, provided
the count of its leaves tells the two apart. -/
theorem acceptsExactly_iff_countTells (ofInt : ℤ → F) (items : List (PySequence F)) :
    AcceptsExactly ofInt (.seq items) ↔ CountTells (.seq items) := by
  by_cases hwalk : Walkable (.seq items)
  · obtain ⟨w, hw⟩ : ∃ w, walk ofInt (.seq items) = some w := walk_iff.mpr hwalk
    obtain ⟨hacc, hrep⟩ := accepts_iff_of_walk hw hwalk
    have hrect : Rectangular (.seq items) ↔ ¬ Mixed (.seq items) := by
      rw [rectangular_iff, and_iff_right hwalk]
    rw [AcceptsExactly, and_iff_left hrep, hacc, hrect]
    constructor
    · intro h _ shape hs
      rw [shapeOf_unique hw hs]
      refine ⟨fun hmix he => h.mp he.symm hmix, fun hmix => ?_⟩
      rw [h.mpr hmix]
      exact Nat.mod_lt _ (by decide)
    · intro h
      obtain ⟨hmixed, hplain⟩ := h hwalk w.dims (walk_inv hw).shapeOf
      constructor
      · exact fun he hmix => hmixed hmix he.symm
      · intro hmix
        rw [length_leaves_of_rectangular hw (hrect.mpr hmix), Nat.mod_eq_of_lt (hplain hmix)]
  · -- nothing is accepted, and nothing is rectangular
    refine ⟨fun _ hw => absurd hw hwalk, fun _ => ⟨⟨?_, ?_⟩, ?_⟩⟩
    · rintro ⟨arr, harr⟩
      exact absurd (walkable_of_accepted harr) hwalk
    · intro hr
      exact absurd (rectangular_iff.mp hr).1 hwalk
    · intro arr harr
      exact absurd (walkable_of_accepted harr) hwalk

/-- `[1, [2]]`. -/
def mixedPair : PySequence ℤ := .seq [.leaf (.int 1), .seq [.leaf (.int 2)]]

/-- The mixed pair becomes an array of shape `(2, 1)`. -/
theorem nestedSequence_mixedPair : ¬ AcceptsExactly (fun i => i) mixedPair := by
  intro h
  have hok : nestedSequence (fun i => i) mixedPair =
      .ok (some (.i64 ⟨[2,1], [8,8], by decide, by decide⟩ [1,2])) := by decide +kernel
  have hr := h.1.mp ⟨_, hok⟩
  rcases hr.uniform 1 with hleaf | ⟨n, hseq⟩
  · have hbad := hleaf (.seq 1) (by simp [mixedPair, Rose.level, Rose.node, Rose.children])
    cases hbad
  · have hbad := hseq (.leaf (.int 1)) (by simp [mixedPair, Rose.level, Rose.node, Rose.children])
    cases hbad

end accept

end LightArray
