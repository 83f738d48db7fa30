import LightArray.OrderedTree
import LightArray.RowMajor

namespace OrderedTree.Rose
open RowMajor

variable {α : Type*} {shape path idx s u : List ℕ} {t r : Rose α} {x : α}

/-- The tree reached by these child positions. -/
def subtree? (t : Rose α) : List ℕ → Option (Rose α)
  | [] => some t
  | i :: path => t.children[i]?.bind fun c => c.subtree? path

/-- Sequences of these lengths, level by level, and leaves below the last. -/
def Fills : List ℕ → Rose α → Prop
  | [], t => ∃ x, t = .leaf x
  | n :: shape, t => ∃ items, t = .seq items ∧ items.length = n ∧ ∀ c ∈ items, Fills shape c

/-- The tree that fills a box with the values of `f`. -/
def tabulate : List ℕ → (List ℕ → α) → Rose α
  | [], f => .leaf (f [])
  | n :: shape, f => .seq ((List.range n).map fun i => tabulate shape fun idx => f (i :: idx))

theorem subtree?_append (t : Rose α) (p q : List ℕ) : t.subtree? (p ++ q) = (t.subtree? p).bind (·.subtree? q) := by
  induction p generalizing t with
  | nil => rfl
  | cons i p ih =>
    rw [List.cons_append, subtree?, subtree?]
    cases t.children[i]? with
    | none => rfl
    | some c => exact ih c

/-- A path stays inside the box, and what it reaches fills the axes that are left. -/
theorem Fills.subtree (h : Fills shape t) (hr : t.subtree? path = some r) :
    InRange (shape.take path.length) path ∧ path.length ≤ shape.length ∧ Fills (shape.drop path.length) r := by
  induction path generalizing shape t with
  | nil =>
    cases hr
    exact ⟨.nil, Nat.zero_le _, h⟩
  | cons i path ih =>
    cases shape with
    | nil =>
      obtain ⟨x, rfl⟩ := h
      cases hr
    | cons n shape =>
      obtain ⟨items, rfl, rfl, hitems⟩ := h
      obtain ⟨c, hc, hr⟩ := Option.bind_eq_some_iff.mp hr
      have hi : i < items.length := (List.getElem?_eq_some_iff.mp hc).1
      obtain ⟨hin, hlen, hfill⟩ := ih (hitems c (List.mem_of_getElem? hc)) hr
      exact ⟨.cons hi hin, Nat.succ_le_succ hlen, hfill⟩

theorem Fills.exists_subtree (h : Fills shape t) (hlen : path.length ≤ shape.length)
    (hin : InRange (shape.take path.length) path) : ∃ r, t.subtree? path = some r := by
  induction path generalizing shape t with
  | nil => exact ⟨t, rfl⟩
  | cons i path ih =>
    cases shape with
    | nil => exact absurd hlen (Nat.not_succ_le_zero _)
    | cons n shape =>
      obtain ⟨items, rfl, rfl, hitems⟩ := h
      cases hin with
      | cons hi hin =>
        obtain ⟨r, hr⟩ := ih (hitems _ (List.getElem_mem hi)) (Nat.le_of_succ_le_succ hlen) hin
        refine ⟨r, ?_⟩
        rw [subtree?, children, List.getElem?_eq_getElem hi]
        exact hr

theorem Fills.exists_seq (h : Fills shape t) (hne : shape ≠ []) : ∃ items, t = .seq items := by
  obtain ⟨n, rest, rfl⟩ := List.exists_cons_of_ne_nil hne
  obtain ⟨items, hitems, -⟩ := h
  exact ⟨items, hitems⟩

/-- An index of the box ends at a leaf. -/
theorem Fills.exists_leaf (h : Fills shape t) (hin : InRange shape idx) : ∃ x, t.subtree? idx = some (.leaf x) := by
  have hlen := hin.length_eq
  have htake : shape.take idx.length = shape := List.take_of_length_le hlen.ge
  obtain ⟨r, hr⟩ := h.exists_subtree hlen.le (htake.symm ▸ hin)
  have hfill := (h.subtree hr).2.2
  rw [hlen, List.drop_length] at hfill
  obtain ⟨x, rfl⟩ := hfill
  exact ⟨x, hr⟩

theorem Fills.inRange (h : Fills shape t) (hx : t.subtree? idx = some (.leaf x)) : InRange shape idx := by
  obtain ⟨hin, hlen, hfill⟩ := h.subtree hx
  have hdrop : shape.drop idx.length = [] := by
    by_contra hne
    obtain ⟨items, hitems⟩ := hfill.exists_seq hne
    cases hitems
  have hle : shape.length ≤ idx.length := List.drop_eq_nil_iff.mp hdrop
  rwa [List.take_of_length_le hle] at hin

theorem getElem?_flatMap_of_length {β : Type*} {g : α → List β} {l : List α} {p i k : ℕ}
    (hg : ∀ x ∈ l, (g x).length = p) (hk : k < p) : (l.flatMap g)[i*p+k]? = l[i]?.bind fun x => (g x)[k]? := by
  induction l generalizing i with
  | nil => rfl
  | cons a l ih =>
    have ha := hg a List.mem_cons_self
    have hl : ∀ x ∈ l, (g x).length = p := fun x hx => hg x (List.mem_cons_of_mem a hx)
    rw [List.flatMap_cons]
    cases i with
    | zero =>
      rw [Nat.zero_mul, zero_add, List.getElem?_append_left (ha.symm ▸ hk)]
      rfl
    | succ i =>
      have hge : (g a).length ≤ (i+1)*p+k := by
        rw [ha, Nat.succ_mul]
        omega
      have hsub : (i+1)*p+k-(g a).length = i*p+k := by
        rw [ha, Nat.succ_mul]
        omega
      rw [List.getElem?_append_right hge, hsub, ih hl]
      rfl

theorem Fills.length_leaves (h : Fills shape t) : t.leaves.length = shape.prod := by
  induction shape generalizing t with
  | nil =>
    obtain ⟨x, rfl⟩ := h
    rfl
  | cons n shape ih =>
    obtain ⟨items, rfl, rfl, hitems⟩ := h
    have hlen : items.map (fun c => c.leaves.length) = items.map fun _ => shape.prod :=
      List.map_congr_left fun c hc => ih (hitems c hc)
    rw [leaves, leavesOf_eq, List.length_flatMap, hlen, List.map_const', List.sum_replicate, smul_eq_mul, List.prod_cons]

/-- The leaf at an index is the leaf at its row-major position. -/
theorem Fills.getElem?_leaves (h : Fills shape t) (hx : t.subtree? idx = some (.leaf x)) :
    t.leaves[flat shape idx]? = some x := by
  have hin := h.inRange hx
  induction shape generalizing t idx with
  | nil =>
    obtain ⟨y, rfl⟩ := h
    obtain rfl := inRange_nil.mp hin
    cases hx
    rfl
  | cons n shape ih =>
    obtain ⟨items, rfl, rfl, hitems⟩ := h
    obtain ⟨i, rest, rfl, hi, hrest⟩ := hin.cases_cons
    obtain ⟨c, hc, hx⟩ := Option.bind_eq_some_iff.mp hx
    have hci : items[i]? = some c := hc
    have hlen : ∀ d ∈ items, d.leaves.length = shape.prod := fun d hd => (hitems d hd).length_leaves
    rw [leaves, leavesOf_eq, flat, getElem?_flatMap_of_length hlen (flat_lt hrest), hci, Option.bind_some]
    exact ih (hitems c (List.mem_of_getElem? hci)) hx hrest

section tabulate

variable {f : List ℕ → α}

theorem tabulate_fills (shape : List ℕ) (f : List ℕ → α) : Fills shape (tabulate shape f) := by
  induction shape generalizing f with
  | nil => exact ⟨f [], rfl⟩
  | cons n shape ih =>
    refine ⟨_, rfl, by rw [List.length_map, List.length_range], fun c hc => ?_⟩
    obtain ⟨i, -, rfl⟩ := List.mem_map.mp hc
    exact ih _

theorem leaves_tabulate (shape : List ℕ) (f : List ℕ → α) : (tabulate shape f).leaves = (enum shape).map f := by
  induction shape generalizing f with
  | nil => rfl
  | cons n shape ih =>
    rw [tabulate, leaves, leavesOf_eq, enum, List.map_flatMap, List.flatMap_map]
    apply List.flatMap_congr
    intro i _
    rw [ih, List.map_map]
    rfl

/-- A tree that fills a box is the table of its leaves. -/
theorem Fills.eq_tabulate (h : Fills shape t) (hf : ∀ idx x, t.subtree? idx = some (.leaf x) → x = f idx) :
    t = tabulate shape f := by
  induction shape generalizing t f with
  | nil =>
    obtain ⟨x, rfl⟩ := h
    exact congrArg Rose.leaf (hf [] x rfl)
  | cons n shape ih =>
    obtain ⟨items, rfl, rfl, hitems⟩ := h
    have hmap : items = (List.range items.length).map fun i => tabulate shape fun idx => f (i :: idx) := by
      apply List.ext_getElem
      · rw [List.length_map, List.length_range]
      · intro i hi _
        rw [List.getElem_map, List.getElem_range]
        apply ih (hitems _ (List.getElem_mem hi))
        intro idx x hx
        apply hf (i :: idx) x
        rw [subtree?, children, List.getElem?_eq_getElem hi]
        exact hx
    exact congrArg Rose.seq hmap

end tabulate

section levels

variable {ts : List (Rose α)}

/-- A uniform tree fills the box of its lengths. -/
theorem fills_of_shapeOf (hu : Uniform ts) (hs : ShapeOf ts shape) : ∀ t ∈ ts, Fills shape t := by
  induction shape generalizing ts with
  | nil =>
    intro t ht
    cases t with
    | leaf x => exact ⟨x, rfl⟩
    | seq items =>
      have hmem : Node.seq items.length ∈ level 0 ts := List.mem_map_of_mem ht
      have hnone := (hs 0 items.length).mpr hmem
      simp at hnone
  | cons n shape ih =>
    have hmem : .seq n ∈ level 0 ts := (hs 0 n).mp rfl
    have hchildren := ih (fun k => hu (k+1)) (fun k m => hs (k+1) m)
    intro t ht
    have hnode : t.node = .seq n := by
      rcases hu 0 with hleaf | ⟨n', hseq⟩
      · exact absurd (hleaf _ hmem) Bool.noConfusion
      · rw [hseq _ hmem]
        exact hseq _ (List.mem_map_of_mem ht)
    cases t with
    | leaf x => cases hnode
    | seq items =>
      exact ⟨items, rfl, Node.seq.inj hnode, fun c hc => hchildren c (List.mem_flatMap.mpr ⟨_, ht, hc⟩)⟩

/-- On each level of trees that fill a box stands the length of that axis. -/
theorem mem_level_fills (h : ∀ t ∈ ts, Fills shape t) {k : ℕ} {y : Node α} (hy : y ∈ level k ts) :
    (∃ n, shape[k]? = some n ∧ y = .seq n) ∨ shape[k]? = none ∧ y.isSeq = false := by
  induction k generalizing ts shape with
  | zero =>
    obtain ⟨t, ht, rfl⟩ := List.mem_map.mp hy
    have hfill := h t ht
    cases shape with
    | nil =>
      obtain ⟨x, rfl⟩ := hfill
      exact .inr ⟨rfl, rfl⟩
    | cons n shape =>
      obtain ⟨items, rfl, hn, -⟩ := hfill
      exact .inl ⟨n, rfl, congrArg Node.seq hn⟩
  | succ k ih =>
    have hchild : ∀ c ∈ ts.flatMap children, Fills shape.tail c ∧ shape ≠ [] := by
      intro c hc
      obtain ⟨t, ht, hc⟩ := List.mem_flatMap.mp hc
      have hfill := h t ht
      cases shape with
      | nil =>
        obtain ⟨x, rfl⟩ := hfill
        cases hc
      | cons n shape =>
        obtain ⟨items, rfl, -, hitems⟩ := hfill
        exact ⟨hitems c hc, List.cons_ne_nil n shape⟩
    have htail : shape[k+1]? = shape.tail[k]? := List.getElem?_tail.symm
    rw [htail]
    exact ih (fun c hc => (hchild c hc).1) hy

theorem uniform_of_fills (h : ∀ t ∈ ts, Fills shape t) : Uniform ts := by
  intro k
  cases hk : shape[k]? with
  | none =>
    refine .inl fun y hy => ?_
    rcases mem_level_fills h hy with ⟨n, hn, -⟩ | ⟨-, hleaf⟩
    · rw [hk] at hn
      cases hn
    · exact hleaf
  | some n =>
    refine .inr ⟨n, fun y hy => ?_⟩
    rcases mem_level_fills h hy with ⟨n', hn, hy⟩ | ⟨hnone, -⟩
    · rw [hk] at hn
      cases hn
      exact hy
    · rw [hk] at hnone
      cases hnone

/-- Below empty sequences there is nothing. -/
theorem level_succ_of_empty {k : ℕ} (h : ∀ y ∈ level k ts, y = .seq 0) : level (k+1) ts = [] := by
  induction k generalizing ts with
  | zero =>
    have hnone : ts.flatMap children = [] := by
      apply List.flatMap_eq_nil_iff.mpr
      intro t ht
      have hnode := h t.node (List.mem_map_of_mem ht)
      cases t with
      | leaf x => rfl
      | seq items => exact List.length_eq_zero_iff.mp (Node.seq.inj hnode)
    rw [level, hnone]
    rfl
  | succ k ih => exact ih h

/-- The lengths can be read off the levels when only the last axis may be empty. -/
theorem shapeOf_of_fills (h : ∀ t ∈ ts, Fills shape t) (hts : ts ≠ []) (hpos : 0 ∉ shape.dropLast) : ShapeOf ts shape := by
  intro k n
  constructor
  · intro hk
    induction k generalizing ts shape with
    | zero =>
      obtain ⟨t, ht⟩ := List.exists_mem_of_ne_nil ts hts
      have hfill := h t ht
      cases shape with
      | nil => cases hk
      | cons m shape =>
        cases hk
        obtain ⟨items, rfl, rfl, -⟩ := hfill
        exact List.mem_map_of_mem ht
    | succ k ih =>
      cases shape with
      | nil => cases hk
      | cons m shape =>
        have hne : shape ≠ [] := by
          intro he
          subst he
          cases hk
        rw [List.dropLast_cons_of_ne_nil hne, List.mem_cons, not_or] at hpos
        have hchildren : ∀ c ∈ ts.flatMap children, Fills shape c := by
          intro c hc
          obtain ⟨t, ht, hc⟩ := List.mem_flatMap.mp hc
          obtain ⟨items, rfl, -, hitems⟩ := h t ht
          exact hitems c hc
        have hmore : ts.flatMap children ≠ [] := by
          obtain ⟨t, ht⟩ := List.exists_mem_of_ne_nil ts hts
          obtain ⟨items, rfl, hlen, -⟩ := h t ht
          have hitems : items ≠ [] := fun he => hpos.1 (by rw [← hlen, he, List.length_nil])
          obtain ⟨c, hc⟩ := List.exists_mem_of_ne_nil items hitems
          exact List.ne_nil_of_mem (List.mem_flatMap.mpr ⟨_, ht, hc⟩)
        exact ih hchildren hmore hpos.2 hk
  · intro hy
    rcases mem_level_fills h hy with ⟨n', hn, he⟩ | ⟨-, hleaf⟩
    · cases he
      exact hn
    · cases hleaf

end levels

end OrderedTree.Rose
