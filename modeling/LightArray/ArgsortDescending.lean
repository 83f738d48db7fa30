import LightArray.Lanes
import LightArray.ShapeHelpers
import LightArray.Sort

/-! `argsort_descending` (`_fallback.py`): NumPy's ascending `argsort` between two
reversals, with the indices reflected. NumPy's functions are parameters; what is
assumed of them is their documentation, lane by lane. -/
namespace LightArray
open RowMajor StableSort

/-- The order of a NumPy sort: a comparison of all values, with no other value after a NaN. -/
structure SortOrder (T : Type) where
  cmp : T → T → Ordering
  isNan : T → Bool
  trans : Std.TransCmp cmp
  nan_last : ∀ x y, isNan x = true → (cmp x y).isLE = true → isNan y = true

/-- The order of the native sort is such an order. -/
def FloatOrder.sortOrder {F : Type} (o : FloatOrder F) : SortOrder F where
  cmp := o.nanLast
  isNan := o.isNan
  trans := inferInstance
  nan_last x y hx hle := by
    rcases o.isLE_nanLast.mp hle with hy | ⟨hx', -, -⟩
    · exact hy
    · rw [hx] at hx'
      cases hx'

/-- An argument of a Python call. -/
inductive PyArg
  | none
  | bool (b : Bool)
  | int (i : ℤ)
  | str (s : String)
  deriving DecidableEq

/-- Python truth. -/
def PyArg.truthy : PyArg → Bool
  | .none => false
  | .bool b => b
  | .int i => i != 0
  | .str s => s != ""

/-- The keyword arguments, each absent or given. -/
structure ArgsortKeywords where
  axis : Option PyArg
  kind : Option PyArg
  order : Option PyArg
  stable : Option PyArg

/-- The functions of NumPy that `argsort_descending` calls: `flip(x, axis=...)`,
`x.ravel()` and `argsort(x, axis, *args, **kwargs)`. -/
structure NumpySort (T : Type) where
  flip : {α : Type} → Dense α → PyArg → Except Failure (Dense α)
  ravel : Dense T → Dense T
  argsort : Dense T → PyArg → List PyArg → ArgsortKeywords → Except Failure (Dense ℤ)

section call

variable {T : Type}

/-- `x.shape[axis]`. -/
def shapeItem (shape : List ℕ) : PyArg → Except Failure ℕ
  | .int i => do
    let k ← pyIndex "tuple index out of range" shape.length i
    .ok (shape.getD k 0)
  | .bool b => do
    let k ← pyIndex "tuple index out of range" shape.length (if b then 1 else 0)
    .ok (shape.getD k 0)
  | _ => .error (.python .typeError "tuple indices must be integers or slices")

/-- A stable sort unless the caller chose one. -/
def stableDefault (args : List PyArg) (kwargs : ArgsortKeywords) : ArgsortKeywords :=
  if args.length < 2 ∧ kwargs.kind = none ∧ ¬ (kwargs.stable.any PyArg.truthy) then
    {kwargs with stable := none, kind := some (.str "stable")}
  else kwargs

/-- `args[0] if args else kwargs.pop("axis", -1)`. -/
def popAxis (args : List PyArg) (kwargs : ArgsortKeywords) : PyArg × ArgsortKeywords :=
  match args with
  | axis :: _ => (axis, kwargs)
  | [] => (kwargs.axis.getD (.int (-1)), {kwargs with axis := none})

/-- `argsort_descending(a, *args, **kwargs)`; the conversions of the argument and of the
result, which keep shape and elements, are left out. -/
def argsortDescending (np : NumpySort T) (a : Dense T) (args : List PyArg) (kwargs : ArgsortKeywords) :
    Except Failure (Dense ℤ) := do
  let (axis, kwargs) := popAxis args (stableDefault args kwargs)
  let (x, axis) := if axis = .none then (np.ravel a, .int (-1)) else (a, axis)
  let flipped ← np.flip x axis
  let sorted ← np.argsort flipped axis args.tail kwargs
  let order ← np.flip sorted axis
  let n ← shapeItem x.shape axis
  .ok (order.map fun i => (n : ℤ)-1-i)

/-- `argsort(a, *args, descending=..., **kwargs)` (`lib.rs`), with `ascending` for the
call without the keyword. -/
def argsort (np : NumpySort T) (ascending : Dense T → List PyArg → ArgsortKeywords → Except Failure (Dense ℤ))
    (a : Dense T) (args : List PyArg) (descending : Option PyArg) (kwargs : ArgsortKeywords) : Except Failure (Dense ℤ) :=
  match descending with
  | none => ascending a args kwargs
  | some d => if d.truthy then argsortDescending np a args kwargs else ascending a args kwargs

end call

section spec

variable {T : Type}

/-- What a stable ascending sort returns for one lane. -/
def AscendingOrder (o : SortOrder T) (lane : List T) (order : List ℤ) : Prop :=
  ∃ p : List ℕ, order = p.map Nat.cast ∧ StablyOrders (fun x y => (o.cmp x y).isLE) lane p

/-- What a stable descending sort returns for one lane: each position once, NaN first
and the other elements never smaller than a later one, and elements that compare equal
in their original order. -/
structure DescendingOrder (o : SortOrder T) (lane : List T) (order : List ℤ) : Prop where
  perm : order.Perm ((List.range lane.length).map Nat.cast)
  sorted : order.Pairwise fun i j => ∃ x y, lane[i.toNat]? = some x ∧ lane[j.toNat]? = some y ∧
    (o.cmp y x).isLE ∧ (o.cmp x y = .eq → i < j) ∧ (o.isNan y = true → o.isNan x = true)

/-- The keywords ask NumPy for a stable sort, along the axis given before them. -/
structure ArgsortKeywords.Stable (kwargs : ArgsortKeywords) : Prop where
  axis : kwargs.axis = none
  order : kwargs.order = none ∨ kwargs.order = some .none
  stable : kwargs.kind = some (.str "stable") ∧ kwargs.stable = none ∨
    kwargs.kind = none ∧ ∃ v, kwargs.stable = some v ∧ v.truthy = true

/-- NumPy's documentation of the three functions. -/
structure NumpySort.Documented (np : NumpySort T) (o : SortOrder T) : Prop where
  flip : ∀ {α : Type} (x : Dense α) {axis : ℤ} {s u : List ℕ} {d : ℕ}, x.shape = s ++ d :: u →
    MeansAxis axis x.shape.length s.length → ∃ y, np.flip x (.int axis) = .ok y ∧ y.shape = x.shape ∧
      ∀ i j, InRange s i → InRange u j → y.lane i j = (x.lane i j).reverse
  ravel : ∀ x, (np.ravel x).shape = [x.data.length] ∧ (np.ravel x).data = x.data
  argsort : ∀ (x : Dense T) {axis : ℤ} {s u : List ℕ} {d : ℕ} {kwargs : ArgsortKeywords}, x.shape = s ++ d :: u →
    MeansAxis axis x.shape.length s.length → kwargs.Stable →
      ∃ y, np.argsort x (.int axis) [] kwargs = .ok y ∧ y.shape = x.shape ∧
        ∀ i j, InRange s i → InRange u j → AscendingOrder o (x.lane i j) (y.lane i j)

/-- The keywords leave the kind of sort open and, as for every array without fields, give no `order`. -/
structure KindOpen (kwargs : ArgsortKeywords) : Prop where
  kind : kwargs.kind = none
  order : kwargs.order = none ∨ kwargs.order = some .none

/-- The ways to give `argsort(a, axis=-1)` its axis and no kind. -/
inductive GivesAxis (kwargs : ArgsortKeywords) : List PyArg → PyArg → Prop
  | position (axis : PyArg) (h : kwargs.axis = none) : GivesAxis kwargs [axis] axis
  | keyword (axis : PyArg) (h : kwargs.axis = some axis) : GivesAxis kwargs [] axis
  | default (h : kwargs.axis = none) : GivesAxis kwargs [] (.int (-1))

/-- Every lane of `r` along the axis after `s` is the stable descending order of that of `x`. -/
def Descends (o : SortOrder T) (x : Dense T) (k : ℕ) (r : Dense ℤ) : Prop :=
  r.shape = x.shape ∧ ∀ s d u, x.shape = s ++ d :: u → s.length = k → ∀ i j, InRange s i → InRange u j →
    DescendingOrder o (x.lane i j) (r.lane i j)

end spec

section reference

variable {α β T : Type}

/-- A length-preserving function of every lane along an axis. -/
def alongAxis (f : List α → List β) (hf : ∀ l, (f l).length = l.length) (x : Dense α) (axis : ℤ) : Except Failure (Dense β) := do
  let k ← pyIndex "axis is out of bounds" x.shape.length axis
  if hk : k < x.shape.length then .ok (x.mapLanes f hf k hk)
  else .error (.python .axisError "axis is out of bounds")

theorem alongAxis_ok {f : List α → List β} (hf : ∀ l, (f l).length = l.length) (x : Dense α) {axis : ℤ} {s u : List ℕ} {d : ℕ}
    (hs : x.shape = s ++ d :: u) (hk : MeansAxis axis x.shape.length s.length) :
    ∃ y, alongAxis f hf x axis = .ok y ∧ y.shape = x.shape ∧
      ∀ i j, InRange s i → InRange u j → y.lane i j = f (x.lane i j) := by
  refine ⟨x.mapLanes f hf s.length hk.1, ?_, rfl, fun i j hi hj => x.lane_mapLanes f hf hs hk.1 hi hj⟩
  rw [alongAxis, pyIndex_ok.mpr hk]
  exact dif_pos hk.1

/-- The stable ascending order of one lane. -/
def SortOrder.argsorted (o : SortOrder T) (l : List T) : List ℤ :=
  (sortedPositions o.cmp l).map fun k : Fin l.length => ((k : ℕ) : ℤ)

theorem SortOrder.length_argsorted (o : SortOrder T) (l : List T) : (o.argsorted l).length = l.length := by
  rw [argsorted, List.length_map, length_sortedPositions]

theorem SortOrder.ascending_argsorted (o : SortOrder T) (l : List T) : AscendingOrder o l (o.argsorted l) := by
  have htrans := o.trans
  refine ⟨(sortedPositions o.cmp l).map Fin.val, ?_, stablyOrders_sorted _⟩
  rw [List.map_map]
  rfl

/-- The three functions by their documentation, for axes that are integers. -/
def NumpySort.reference (o : SortOrder T) : NumpySort T where
  flip x axis := match axis with
    | .int i => alongAxis List.reverse (fun _ => List.length_reverse) x i
    | _ => .error (.python .typeError "an integer is required for the axis")
  ravel x := ⟨[x.data.length], x.data, List.prod_singleton.symm⟩
  argsort x axis _ _ := match axis with
    | .int i => alongAxis o.argsorted o.length_argsorted x i
    | _ => .error (.python .typeError "an integer is required for the axis")

theorem NumpySort.reference_documented (o : SortOrder T) : (NumpySort.reference o).Documented o where
  flip x _ _ _ _ hs hk := alongAxis_ok _ x hs hk
  ravel _ := ⟨rfl, rfl⟩
  argsort x _ _ _ _ _ hs hk _ := by
    obtain ⟨y, hy, hshape, hlanes⟩ := alongAxis_ok o.length_argsorted x hs hk
    refine ⟨y, hy, hshape, fun i j hi hj => ?_⟩
    rw [hlanes i j hi hj]
    exact o.ascending_argsorted _

end reference

section lane

variable {T : Type} {o : SortOrder T} {lane : List T} {order : List ℤ}

/-- The ascending order of the reversed lane, reversed and reflected. -/
theorem AscendingOrder.reflect (h : AscendingOrder o lane.reverse order) :
    DescendingOrder o lane (order.reverse.map fun i => (lane.length : ℤ)-1-i) := by
  obtain ⟨p, rfl, hp⟩ := h
  have hreflect := hp.reflect
  have hbound : ∀ i ∈ p, i < lane.length := by
    intro i hi
    have hi' := List.mem_range.mp (hp.perm.mem_iff.mp hi)
    rwa [List.length_reverse] at hi'
  have hcast : ((p.map Nat.cast).reverse.map fun i : ℤ => (lane.length : ℤ)-1-i) =
      (p.reverse.map fun i => lane.length-1-i).map Nat.cast := by
    rw [← List.map_reverse, List.map_map, List.map_map]
    apply List.map_congr_left
    intro i hi
    have hlt := hbound i (List.mem_reverse.mp hi)
    show (lane.length : ℤ)-1-i = ((lane.length-1-i : ℕ) : ℤ)
    omega
  rw [hcast]
  refine ⟨hreflect.perm.map _, ?_⟩
  rw [List.pairwise_map]
  refine hreflect.sorted.imp fun {i j} hij => ?_
  obtain ⟨x, y, hx, hy, hle, hties⟩ := hij
  refine ⟨x, y, hx, hy, hle, fun heq => ?_, fun hnan => o.nan_last y x hnan hle⟩
  have hlt : i < j := by
    apply hties
    rw [heq]
    rfl
  exact Int.ofNat_lt.mpr hlt

end lane

section call

variable {T : Type} {np : NumpySort T} {o : SortOrder T} {args : List PyArg} {kwargs : ArgsortKeywords}

/-- The axis taken is the one given, and no keyword of that name is left. -/
theorem GivesAxis.popAxis_eq {axis : PyArg} (h : GivesAxis kwargs args axis) {kw : ArgsortKeywords}
    (hkw : kw.axis = kwargs.axis) : popAxis args kw = (axis, {kw with axis := none}) := by
  cases h with
  | position axis h =>
    obtain ⟨_, _, _, _⟩ := kw
    cases hkw.trans h
    rfl
  | keyword axis h => rw [popAxis, hkw, h, Option.getD_some]
  | default h => rw [popAxis, hkw, h, Option.getD_none]

theorem GivesAxis.length_lt {axis : PyArg} (h : GivesAxis kwargs args axis) : args.length < 2 := by
  cases h with
  | position axis h => exact Nat.one_lt_two
  | keyword axis h => exact Nat.two_pos
  | default h => exact Nat.two_pos

theorem GivesAxis.tail_eq_nil {axis : PyArg} (h : GivesAxis kwargs args axis) : args.tail = [] := by
  cases h with
  | position axis h => rfl
  | keyword axis h => rfl
  | default h => rfl

/-- NumPy is asked for a stable sort along the axis given. -/
theorem KindOpen.stable {axis : PyArg} (h : KindOpen kwargs) (haxis : GivesAxis kwargs args axis) :
    ∃ kw, popAxis args (stableDefault args kwargs) = (axis, kw) ∧ kw.Stable := by
  obtain ⟨hkind, horder⟩ := h
  unfold stableDefault
  by_cases htruthy : kwargs.stable.any PyArg.truthy = true
  · obtain ⟨v, hv, ht⟩ := (Option.any_eq_true _ _).mp htruthy
    rw [if_neg (by simp [htruthy]), haxis.popAxis_eq rfl]
    exact ⟨_, rfl, rfl, horder, .inr ⟨hkind, v, hv, ht⟩⟩
  · rw [if_pos ⟨haxis.length_lt, hkind, htruthy⟩]
    refine ⟨_, haxis.popAxis_eq rfl, rfl, horder, ?_⟩
    exact .inl ⟨rfl, rfl⟩

/-- Between two reversals the ascending order becomes the descending one, in every lane. -/
theorem reversed_argsort (hnp : np.Documented o) (x : Dense T) {axis : ℤ} {k : ℕ} (hk : MeansAxis axis x.shape.length k)
    (hkw : kwargs.Stable) : ∃ r, (do
      let flipped ← np.flip x (.int axis)
      let sorted ← np.argsort flipped (.int axis) [] kwargs
      let order ← np.flip sorted (.int axis)
      let n ← shapeItem x.shape (.int axis)
      .ok (order.map fun i => (n : ℤ)-1-i)) = Except.ok r ∧ Descends o x k r := by
  obtain ⟨s, d, u, hs, rfl⟩ := exists_axis hk.1
  obtain ⟨flipped, hflip, hfshape, hflipped⟩ := hnp.flip x hs hk
  obtain ⟨sorted, hsort, hsshape, hsorted⟩ := hnp.argsort flipped (hfshape.trans hs) (hfshape.symm ▸ hk) hkw
  obtain ⟨order, horder, hoshape, hordered⟩ :=
    hnp.flip sorted (hsshape.trans (hfshape.trans hs)) (by rw [hsshape, hfshape]; exact hk)
  have hitem : shapeItem x.shape (.int axis) = .ok d := by
    rw [shapeItem, pyIndex_ok.mpr hk]
    show Except.ok (x.shape.getD s.length 0) = _
    rw [hs, getD_length]
  refine ⟨order.map fun i => (d : ℤ)-1-i, ?_, ?_⟩
  · rw [hflip]
    show (np.argsort flipped (.int axis) [] kwargs >>= _) = _
    rw [hsort]
    show (np.flip sorted (.int axis) >>= _) = _
    rw [horder]
    show (shapeItem x.shape (.int axis) >>= _) = _
    rw [hitem]
    rfl
  · refine ⟨hoshape.trans (hsshape.trans hfshape), ?_⟩
    intro s' d' u' hs' hlen i j hi hj
    obtain ⟨rfl, htail⟩ := List.append_inj (hs'.symm.trans hs) hlen
    obtain ⟨rfl, rfl⟩ := List.cons.inj htail
    have hascending := hsorted i j hi hj
    rw [hflipped i j hi hj] at hascending
    have hreflect := hascending.reflect
    rw [Dense.lane_map, hordered i j hi hj]
    rwa [x.length_lane hs hi hj] at hreflect

theorem argsortDescending_axis (hnp : np.Documented o) (a : Dense T) (h : KindOpen kwargs) {axis : ℤ} {k : ℕ}
    (haxis : GivesAxis kwargs args (.int axis)) (hk : MeansAxis axis a.shape.length k) :
    ∃ r, argsortDescending np a args kwargs = .ok r ∧ Descends o a k r := by
  obtain ⟨kw, hpop, hkw⟩ := h.stable haxis
  obtain ⟨r, hr, hdesc⟩ := reversed_argsort hnp a hk hkw
  refine ⟨r, ?_, hdesc⟩
  unfold argsortDescending
  simp only [hpop, haxis.tail_eq_nil, reduceCtorEq, if_false]
  exact hr

/-- Without an axis the array is sorted as one lane. -/
theorem argsortDescending_flat (hnp : np.Documented o) (a : Dense T) (h : KindOpen kwargs)
    (haxis : GivesAxis kwargs args .none) :
    ∃ r, argsortDescending np a args kwargs = .ok r ∧ r.shape = [a.data.length] ∧ DescendingOrder o a.data r.data := by
  obtain ⟨kw, hpop, hkw⟩ := h.stable haxis
  obtain ⟨hshape, hdata⟩ := hnp.ravel a
  have hk : MeansAxis (-1) (np.ravel a).shape.length 0 := by
    rw [hshape]
    exact ⟨Nat.one_pos, .inr rfl⟩
  obtain ⟨r, hr, hrshape, hlanes⟩ := reversed_argsort hnp (np.ravel a) hk hkw
  refine ⟨r, ?_, hrshape.trans hshape, ?_⟩
  · unfold argsortDescending
    simp only [hpop, haxis.tail_eq_nil, if_true]
    exact hr
  · have hlane := hlanes [] a.data.length [] hshape rfl [] [] (inRange_nil.mpr rfl) (inRange_nil.mpr rfl)
    have hflat : (np.ravel a).shape = [(np.ravel a).data.length] := by rw [hshape, hdata]
    have hrflat : r.shape = [r.data.length] := by
      have hcount := r.count
      rw [hrshape, hshape, List.prod_singleton] at hcount
      rw [hrshape, hshape, hcount]
    rwa [Dense.lane_flat _ hflat, Dense.lane_flat _ hrflat, hdata] at hlane

end call

/-- `argsort(descending=True)` sorts every lane stably in descending order: along the axis given by
position or by keyword, along the last one when none is given, and flattened for None. -/
theorem argsort_descending_stable {T : Type} {np : NumpySort T} {o : SortOrder T} (hnp : np.Documented o) (a : Dense T)
    {args : List PyArg} {kwargs : ArgsortKeywords} (h : KindOpen kwargs) :
    (∀ axis k, GivesAxis kwargs args (.int axis) → MeansAxis axis a.shape.length k →
      ∃ r, argsortDescending np a args kwargs = .ok r ∧ Descends o a k r) ∧
    (GivesAxis kwargs args .none →
      ∃ r, argsortDescending np a args kwargs = .ok r ∧ r.shape = [a.data.length] ∧ DescendingOrder o a.data r.data) ∧
    ∀ ascending d, d.truthy = true →
      argsort np ascending a args (some d) kwargs = argsortDescending np a args kwargs := by
  refine ⟨?_, ?_, ?_⟩
  · intro axis k haxis hk
    exact argsortDescending_axis hnp a h haxis hk
  · exact argsortDescending_flat hnp a h
  · intro ascending d hd
    exact if_pos hd

/-- Two lanes with ties, one with NaN. -/
def tiedLanes : Dense (Option ℤ) := ⟨[2,3], [some 3,some 1,some 3,none,some 2,none], rfl⟩

/-- The first axis, by position and by keyword. -/
theorem tiedLanes_first : MeansAxis 0 tiedLanes.shape.length 0 ∧ MeansAxis (-2) tiedLanes.shape.length 0 := by
  unfold MeansAxis
  decide

theorem tiedLanes_last : MeansAxis (-1) tiedLanes.shape.length 1 := by
  unfold MeansAxis
  decide

theorem argsort_descending_stable_tiedLanes :
    (∃ r, argsortDescending (NumpySort.reference nanInts.sortOrder) tiedLanes [.int 0] ⟨none,none,none,none⟩ = .ok r ∧
      Descends nanInts.sortOrder tiedLanes 0 r) ∧
    (∃ r, argsortDescending (NumpySort.reference nanInts.sortOrder) tiedLanes [] ⟨some (.int (-2)),none,none,none⟩ = .ok r ∧
      Descends nanInts.sortOrder tiedLanes 0 r) ∧
    (∃ r, argsortDescending (NumpySort.reference nanInts.sortOrder) tiedLanes [] ⟨none,none,none,none⟩ = .ok r ∧
      Descends nanInts.sortOrder tiedLanes 1 r) ∧
    (∃ r, argsortDescending (NumpySort.reference nanInts.sortOrder) tiedLanes [.none] ⟨none,none,none,none⟩ = .ok r ∧
      r.shape = [6] ∧ DescendingOrder nanInts.sortOrder tiedLanes.data r.data) ∧
    ∃ r, argsortDescending (NumpySort.reference nanInts.sortOrder) tiedLanes [] ⟨some .none,none,none,none⟩ = .ok r ∧
      r.shape = [6] ∧ DescendingOrder nanInts.sortOrder tiedLanes.data r.data := by
  have hnp := NumpySort.reference_documented nanInts.sortOrder
  refine ⟨?_, ?_, ?_, ?_, ?_⟩
  · exact (argsort_descending_stable hnp tiedLanes ⟨rfl, .inl rfl⟩).1 0 0 (.position _ rfl) tiedLanes_first.1
  · exact (argsort_descending_stable hnp tiedLanes ⟨rfl, .inl rfl⟩).1 (-2) 0 (.keyword _ rfl) tiedLanes_first.2
  · exact (argsort_descending_stable hnp tiedLanes ⟨rfl, .inl rfl⟩).1 (-1) 1 (.default rfl) tiedLanes_last
  · exact (argsort_descending_stable hnp tiedLanes ⟨rfl, .inl rfl⟩).2.1 (.position _ rfl)
  · exact (argsort_descending_stable hnp tiedLanes ⟨rfl, .inl rfl⟩).2.1 (.keyword _ rfl)

end LightArray
