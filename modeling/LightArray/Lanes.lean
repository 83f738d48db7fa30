import LightArray.RowMajor

namespace RowMajor

/-- An array: a shape with one element for each multi-index. -/
structure Dense (T : Type*) where
  shape : List ℕ
  data : List T
  count : data.length = shape.prod

section total

variable {α β : Type*} {f : α → Option β} {l : List α}

/-- A partial function that is defined on a list maps it. -/
theorem map_some_filterMap (h : ∀ a ∈ l, (f a).isSome) : (l.filterMap f).map some = l.map f := by
  rw [List.map_filterMap_some_eq_filter_map_isSome, List.filter_eq_self]
  intro b hb
  obtain ⟨a, ha, rfl⟩ := List.mem_map.mp hb
  exact h a ha

theorem getElem?_filterMap (h : ∀ a ∈ l, (f a).isSome) {n : ℕ} {a : α} (ha : l[n]? = some a) :
    (l.filterMap f)[n]? = f a := by
  have hmap := congrArg (fun m : List (Option β) => m[n]?) (map_some_filterMap h)
  simp only [List.getElem?_map, ha, Option.map_some] at hmap
  cases hb : (l.filterMap f)[n]? with
  | none =>
    rw [hb] at hmap
    cases hmap
  | some b =>
    rw [hb] at hmap
    exact Option.some.inj hmap

theorem filterMap_getElem?_range (l : List α) : (List.range l.length).filterMap (fun x => l[x]?) = l := by
  have hsome : ∀ x ∈ List.range l.length, (l[x]?).isSome := by
    intro x hx
    rw [List.getElem?_eq_getElem (List.mem_range.mp hx)]
    rfl
  apply List.ext_getElem?
  intro n
  rcases lt_or_ge n l.length with hn | hn
  · exact getElem?_filterMap hsome (List.getElem?_range hn)
  · have hlen : ((List.range l.length).filterMap fun x => l[x]?).length = l.length := by
      rw [List.filterMap_length_eq_length.mpr hsome, List.length_range]
    rw [List.getElem?_eq_none (by omega), List.getElem?_eq_none hn]

end total

/-- A multi-index stands at its own position. -/
theorem getElem?_enum {shape idx : List ℕ} (h : InRange shape idx) : (enum shape)[flat shape idx]? = some idx := by
  rw [enum_eq_map_unflat, List.getElem?_map, List.getElem?_range (flat_lt h), Option.map_some, unflat_flat h]

namespace Dense

variable {T U : Type*} {s u i j : List ℕ} {d : ℕ}

/-- The elements along the axis between the outer indices `i` and the inner ones `j`. -/
def lane (a : Dense T) (i j : List ℕ) : List T :=
  (List.range (a.shape.getD i.length 0)).filterMap fun x => a.data[flat a.shape (i ++ x :: j)]?

/-- An elementwise operation. -/
def map (f : T → U) (a : Dense T) : Dense U := ⟨a.shape, a.data.map f, by rw [List.length_map, a.count]⟩

theorem isSome_element (a : Dense T) {idx : List ℕ} (h : InRange a.shape idx) : (a.data[flat a.shape idx]?).isSome := by
  rw [List.getElem?_eq_getElem (a.count ▸ flat_lt h)]
  rfl

theorem lane_eq (a : Dense T) (hs : a.shape = s ++ d :: u) (hi : InRange s i) (j : List ℕ) :
    a.lane i j = (List.range d).filterMap fun x => a.data[flat a.shape (i ++ x :: j)]? := by
  have hlen : a.shape.getD i.length 0 = d := by
    rw [hs, hi.length_eq, getD_length]
  rw [lane, hlen]

theorem isSome_lane (a : Dense T) (hs : a.shape = s ++ d :: u) (hi : InRange s i) (hj : InRange u j) :
    ∀ x ∈ List.range d, (a.data[flat a.shape (i ++ x :: j)]?).isSome := by
  intro x hx
  apply a.isSome_element
  rw [hs]
  exact hi.append (inRange_cons.mpr ⟨List.mem_range.mp hx, hj⟩)

theorem length_lane (a : Dense T) (hs : a.shape = s ++ d :: u) (hi : InRange s i) (hj : InRange u j) :
    (a.lane i j).length = d := by
  rw [a.lane_eq hs hi, List.filterMap_length_eq_length.mpr (a.isSome_lane hs hi hj), List.length_range]

theorem lane_map (f : T → U) (a : Dense T) (i j : List ℕ) : (a.map f).lane i j = (a.lane i j).map f := by
  rw [lane, lane, List.map_filterMap]
  apply List.filterMap_congr
  intro x _
  exact List.getElem?_map

/-- The only lane of a one-dimensional array. -/
theorem lane_flat (a : Dense T) (h : a.shape = [a.data.length]) : a.lane [] [] = a.data := by
  have hpos (x : ℕ) : flat a.shape ([] ++ [x]) = x := by
    rw [h]
    simp [flat]
  have hlen : a.shape.getD ([] : List ℕ).length 0 = a.data.length := by rw [h]; rfl
  simp only [lane, hlen, hpos]
  exact filterMap_getElem?_range a.data

section mapLanes

variable (f : List T → List U) (hf : ∀ l, (f l).length = l.length)

/-- The element of a processed lane at a multi-index. -/
def laneElement (f : List T → List U) (a : Dense T) (k : ℕ) (idx : List ℕ) : Option U :=
  (f (a.lane (idx.take k) (idx.drop (k+1))))[idx.getD k 0]?

theorem laneElement_eq (a : Dense T) (hi : i.length = s.length) (x : ℕ) (j : List ℕ) :
    a.laneElement f s.length (i ++ x :: j) = (f (a.lane i j))[x]? := by
  rw [laneElement, ← hi, List.take_left, drop_length_succ, getD_length]

include hf in
theorem isSome_laneElement (a : Dense T) (k : ℕ) (hk : k < a.shape.length) :
    ∀ idx ∈ enum a.shape, (a.laneElement f k idx).isSome := by
  intro idx hidx
  obtain ⟨s, d, u, hs, rfl⟩ := exists_axis hk
  have hin : InRange (s ++ d :: u) idx := hs ▸ mem_enum.mp hidx
  obtain ⟨i, is, rfl, hi, his⟩ := hin.split
  obtain ⟨x, j, rfl, hx, hj⟩ := his.cases_cons
  have hlen : (f (a.lane i j)).length = d := by rw [hf, a.length_lane hs hi hj]
  rw [a.laneElement_eq f hi.length_eq, List.getElem?_eq_getElem (by omega)]
  rfl

/-- Every lane along one axis processed by a function that keeps lengths. -/
def mapLanes (a : Dense T) (k : ℕ) (hk : k < a.shape.length) : Dense U where
  shape := a.shape
  data := (enum a.shape).filterMap (a.laneElement f k)
  count := by
    rw [List.filterMap_length_eq_length.mpr (a.isSome_laneElement f hf k hk), length_enum]

theorem lane_mapLanes (a : Dense T) (hs : a.shape = s ++ d :: u) (hk : s.length < a.shape.length) (hi : InRange s i)
    (hj : InRange u j) : (a.mapLanes f hf s.length hk).lane i j = f (a.lane i j) := by
  have hlen : (f (a.lane i j)).length = d := by rw [hf, a.length_lane hs hi hj]
  calc
    (a.mapLanes f hf s.length hk).lane i j =
        (List.range d).filterMap fun x => (a.mapLanes f hf s.length hk).data[flat a.shape (i ++ x :: j)]? :=
      (a.mapLanes f hf s.length hk).lane_eq hs hi j
    _ = (List.range d).filterMap fun x => (f (a.lane i j))[x]? := by
      apply List.filterMap_congr
      intro x hx
      have hin : InRange a.shape (i ++ x :: j) := by
        rw [hs]
        exact hi.append (inRange_cons.mpr ⟨List.mem_range.mp hx, hj⟩)
      have hflat : (enum a.shape)[flat a.shape (i ++ x :: j)]? = some (i ++ x :: j) := getElem?_enum hin
      rw [mapLanes, getElem?_filterMap (a.isSome_laneElement f hf _ hk) hflat, a.laneElement_eq f hi.length_eq]
    _ = f (a.lane i j) := by
      rw [← hlen]
      exact filterMap_getElem?_range _

end mapLanes

end Dense

end RowMajor
