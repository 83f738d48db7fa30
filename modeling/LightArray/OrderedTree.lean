import Mathlib.Tactic
import Mathlib.Data.List.Basic
import Mathlib.Algebra.BigOperators.Group.List.Basic

namespace OrderedTree

/-- A leaf or a sequence of trees. -/
inductive Rose (α : Type*)
  | leaf (a : α)
  | seq (items : List (Rose α))

/-- A node without what is below it: a value or the length of a sequence. -/
inductive Node (α : Type*)
  | leaf (a : α)
  | seq (len : ℕ)
  deriving DecidableEq

variable {α : Type*}

namespace Node

def isSeq : Node α → Bool
  | .leaf _ => false
  | .seq _ => true

def leaf? : Node α → Option α
  | .leaf a => some a
  | .seq _ => none

theorem isSeq_iff {x : Node α} : x.isSeq = true ↔ ∃ n, x = .seq n := by
  cases x <;> simp [isSeq]

end Node

namespace Rose

def node : Rose α → Node α
  | .leaf a => .leaf a
  | .seq items => .seq items.length

def children : Rose α → List (Rose α)
  | .leaf _ => []
  | .seq items => items

mutual

/-- The nodes in left-to-right preorder, each with its depth, counting from `d`. -/
def nodes (d : ℕ) : Rose α → List (ℕ × Node α)
  | .leaf a => [(d, .leaf a)]
  | .seq items => (d, .seq items.length) :: nodesOf (d+1) items

def nodesOf (d : ℕ) : List (Rose α) → List (ℕ × Node α)
  | [] => []
  | t :: ts => nodes d t ++ nodesOf d ts

end

mutual

/-- The leaves from left to right. -/
def leaves : Rose α → List α
  | .leaf a => [a]
  | .seq items => leavesOf items

def leavesOf : List (Rose α) → List α
  | [] => []
  | t :: ts => leaves t ++ leavesOf ts

end

/-- The nodes at depth `k` below a list of trees, from left to right. -/
def level : ℕ → List (Rose α) → List (Node α)
  | 0, ts => ts.map node
  | k+1, ts => level k (ts.flatMap children)

theorem nodesOf_eq (d : ℕ) (ts : List (Rose α)) : nodesOf d ts = ts.flatMap (nodes d) := by
  induction ts with
  | nil => rfl
  | cons t ts ih => rw [nodesOf, ih, List.flatMap_cons]

theorem leavesOf_eq (ts : List (Rose α)) : leavesOf ts = ts.flatMap leaves := by
  induction ts with
  | nil => rfl
  | cons t ts ih => rw [leavesOf, ih, List.flatMap_cons]

mutual

theorem filterMap_nodes (d : ℕ) (t : Rose α) : (nodes d t).filterMap (·.2.leaf?) = leaves t := by
  cases t with
  | leaf a => rfl
  | seq items =>
    rw [nodes, leaves, List.filterMap_cons_none (by rfl)]
    exact filterMap_nodesOf (d+1) items

theorem filterMap_nodesOf (d : ℕ) (ts : List (Rose α)) :
    (nodesOf d ts).filterMap (·.2.leaf?) = leavesOf ts := by
  cases ts with
  | nil => rfl
  | cons t ts => rw [nodesOf, leavesOf, List.filterMap_append, filterMap_nodes d t, filterMap_nodesOf d ts]

end

mutual

theorem le_of_mem_nodes {d : ℕ} (t : Rose α) : ∀ e ∈ nodes d t, d ≤ e.1 := by
  cases t with
  | leaf a => simp [nodes]
  | seq items =>
    intro e he
    rcases List.mem_cons.mp he with rfl | he
    · exact le_rfl
    · exact (Nat.le_succ d).trans (le_of_mem_nodesOf items e he)

theorem le_of_mem_nodesOf {d : ℕ} (ts : List (Rose α)) : ∀ e ∈ nodesOf d ts, d ≤ e.1 := by
  cases ts with
  | nil => simp [nodesOf]
  | cons t ts =>
    intro e he
    rcases List.mem_append.mp he with he | he
    · exact le_of_mem_nodes t e he
    · exact le_of_mem_nodesOf ts e he

end

/-- The nodes below the root of a tree are those of its children. -/
theorem nodes_eq (d : ℕ) (t : Rose α) : nodes d t = (d, t.node) :: nodesOf (d+1) t.children := by
  cases t <;> rfl

/-- Traversing in preorder and keeping one depth gives the level at that depth. -/
theorem filter_nodesOf (k d : ℕ) (ts : List (Rose α)) :
    ((nodesOf d ts).filter (·.1 = d+k)).map Prod.snd = level k ts := by
  induction k generalizing d ts with
  | zero =>
    have hbelow (t : Rose α) : (nodesOf (d+1) t.children).filter (·.1 = d) = [] := by
      apply List.filter_eq_nil_iff.mpr
      intro e he
      have hle := le_of_mem_nodesOf t.children e he
      simp only [decide_eq_true_eq]
      omega
    rw [level, add_zero]
    induction ts with
    | nil => rfl
    | cons t ts ih => simp [nodesOf, nodes_eq, hbelow, ih]
  | succ k ih =>
    have hone (t : Rose α) : (nodes d t).filter (·.1 = d+(k+1)) =
        (t.children.flatMap (nodes (d+1))).filter (·.1 = d+1+k) := by
      have hhead : ¬ d = d+1+k := by omega
      rw [show d+(k+1) = d+1+k by ring, nodes_eq, nodesOf_eq,
        List.filter_cons_of_neg (by simpa using hhead)]
    have hskip : (nodesOf d ts).filter (·.1 = d+(k+1)) =
        (nodesOf (d+1) (ts.flatMap children)).filter (·.1 = d+1+k) := by
      rw [nodesOf_eq, nodesOf_eq, List.flatMap_assoc, List.filter_flatMap, List.filter_flatMap]
      exact List.flatMap_congr fun t _ => hone t
    rw [hskip, ih (d+1), level]

theorem mem_level {k : ℕ} {t : Rose α} {x : Node α} : x ∈ level k [t] ↔ (k,x) ∈ nodes 0 t := by
  have h := filter_nodesOf k 0 [t]
  rw [nodesOf, nodesOf, List.append_nil, zero_add] at h
  rw [← h]
  simp

/-- A relation on nodes of one depth is a relation along every level. -/
theorem pairwise_nodes_iff {P : Node α → Node α → Prop} {t : Rose α} :
    (nodes 0 t).Pairwise (fun e e' => e.1 = e'.1 → P e.2 e'.2) ↔ ∀ k, (level k [t]).Pairwise P := by
  have hlist (l : List (ℕ × Node α)) : l.Pairwise (fun e e' => e.1 = e'.1 → P e.2 e'.2) ↔
      ∀ k, ((l.filter (·.1 = k)).map Prod.snd).Pairwise P := by
    induction l with
    | nil => simp
    | cons e l ih =>
      rw [List.pairwise_cons, ih]
      constructor
      · rintro ⟨hhead, htail⟩ k
        by_cases hk : e.1 = k
        · rw [List.filter_cons_of_pos (by simpa using hk), List.map_cons, List.pairwise_cons]
          refine ⟨fun x hx => ?_, htail k⟩
          obtain ⟨e', he', rfl⟩ := List.mem_map.mp hx
          obtain ⟨hmem, hdepth⟩ := List.mem_filter.mp he'
          have hk' : e'.1 = k := by simpa using hdepth
          exact hhead e' hmem (hk.trans hk'.symm)
        · rw [List.filter_cons_of_neg (by simpa using hk)]
          exact htail k
      · intro h
        refine ⟨fun e' he' hdepth => ?_, fun k => ?_⟩
        · have hk := h e.1
          rw [List.filter_cons_of_pos (by simp), List.map_cons, List.pairwise_cons] at hk
          exact hk.1 _ (List.mem_map_of_mem (List.mem_filter.mpr ⟨he', by simpa using hdepth.symm⟩))
        · have hk := h k
          by_cases he : e.1 = k
          · rw [List.filter_cons_of_pos (by simpa using he), List.map_cons, List.pairwise_cons] at hk
            exact hk.2
          · rwa [List.filter_cons_of_neg (by simpa using he)] at hk
  have hlevel (k : ℕ) : ((nodes 0 t).filter (·.1 = k)).map Prod.snd = level k [t] := by
    have h := filter_nodesOf k 0 [t]
    rwa [nodesOf, nodesOf, List.append_nil, zero_add] at h
  rw [hlist]
  simp only [hlevel]

section traversal

/-- Every node below the root comes after a sequence one level up. -/
def Nested : List (ℕ × Node α) → List (ℕ × Node α) → Prop
  | _, [] => True
  | seen, e :: es => (∀ d, e.1 = d+1 → ∃ n, (d, .seq n) ∈ seen) ∧ Nested (seen ++ [e]) es

theorem nested_append {seen a b : List (ℕ × Node α)} :
    Nested seen (a ++ b) ↔ Nested seen a ∧ Nested (seen ++ a) b := by
  induction a generalizing seen with
  | nil => simp [Nested]
  | cons e a ih => simp [Nested, ih, and_assoc]

mutual

theorem nested_nodes {d : ℕ} (t : Rose α) {seen : List (ℕ × Node α)}
    (h : ∀ k, d = k+1 → ∃ n, (k, .seq n) ∈ seen) : Nested seen (nodes d t) := by
  cases t with
  | leaf a => exact ⟨h, trivial⟩
  | seq items =>
    refine ⟨h, nested_nodesOf items fun k hk => ⟨items.length, ?_⟩⟩
    cases hk
    exact List.mem_append_right _ List.mem_cons_self

theorem nested_nodesOf {d : ℕ} (ts : List (Rose α)) {seen : List (ℕ × Node α)}
    (h : ∀ k, d = k+1 → ∃ n, (k, .seq n) ∈ seen) : Nested seen (nodesOf d ts) := by
  cases ts with
  | nil => trivial
  | cons t ts =>
    refine nested_append.mpr ⟨nested_nodes t h, nested_nodesOf ts fun k hk => ?_⟩
    obtain ⟨n, hn⟩ := h k hk
    exact ⟨n, List.mem_append_left _ hn⟩

end

theorem nested_root (t : Rose α) : Nested [] (nodes 0 t) :=
  nested_nodes t fun _ hk => absurd hk (Nat.succ_ne_zero _).symm

theorem exists_seq_above {t : Rose α} {e : ℕ × Node α} (he : e ∈ nodes 0 t) {d : ℕ}
    (hd : e.1 = d+1) : ∃ n, (d, .seq n) ∈ nodes 0 t := by
  have hmem (seen es : List (ℕ × Node α)) (hn : Nested seen es) (he : e ∈ es) :
      ∃ n, (d, .seq n) ∈ seen ++ es := by
    induction es generalizing seen with
    | nil => cases he
    | cons a es ih =>
      rcases List.mem_cons.mp he with rfl | he
      · obtain ⟨n, h⟩ := hn.1 d hd
        exact ⟨n, List.mem_append_left _ h⟩
      · obtain ⟨n, h⟩ := ih _ hn.2 he
        rw [List.append_assoc, List.singleton_append] at h
        exact ⟨n, h⟩
  exact hmem [] _ (nested_root t) he

/-- A sequence on a level implies one on every level above. -/
theorem exists_seq_of_le {t : Rose α} {d k n : ℕ} (h : (d, .seq n) ∈ nodes 0 t) (hk : k ≤ d) :
    ∃ n, (k, .seq n) ∈ nodes 0 t := by
  induction d generalizing n with
  | zero =>
    obtain rfl : k = 0 := by omega
    exact ⟨n, h⟩
  | succ d ih =>
    rcases Nat.lt_or_ge d k with hlt | hge
    · obtain rfl : k = d+1 := by omega
      exact ⟨n, h⟩
    · obtain ⟨m, hm⟩ := exists_seq_above h rfl
      exact ih hm hge

theorem mem_leaves {t : Rose α} {x : α} : x ∈ t.leaves ↔ ∃ d, (d, .leaf x) ∈ nodes 0 t := by
  rw [← filterMap_nodes 0, List.mem_filterMap]
  constructor
  · rintro ⟨⟨d, y⟩, hy, hx⟩
    cases y with
    | leaf a =>
      cases hx
      exact ⟨d, hy⟩
    | seq n => cases hx
  · rintro ⟨d, hd⟩
    exact ⟨_, hd, rfl⟩

end traversal

section uniform

/-- On each level there are leaves only, or sequences of one length only. -/
def Uniform (ts : List (Rose α)) : Prop :=
  ∀ k, (∀ x ∈ level k ts, x.isSeq = false) ∨ ∃ n, ∀ x ∈ level k ts, x = .seq n

/-- The lengths of the sequences, level by level. -/
def ShapeOf (ts : List (Rose α)) (shape : List ℕ) : Prop :=
  ∀ k n, shape[k]? = some n ↔ .seq n ∈ level k ts

/-- A uniform tree has as many leaves as the product of its lengths. -/
theorem length_leavesOf {ts : List (Rose α)} {shape : List ℕ} (hu : Uniform ts)
    (hs : ShapeOf ts shape) : (leavesOf ts).length = ts.length*shape.prod := by
  induction shape generalizing ts with
  | nil =>
    have hleaf : ∀ t ∈ ts, (leaves t).length = 1 := by
      intro t ht
      cases t with
      | leaf a => rfl
      | seq items =>
        have hmem : Node.seq items.length ∈ level 0 ts := List.mem_map_of_mem ht
        have hnone := (hs 0 items.length).mpr hmem
        simp at hnone
    rw [leavesOf_eq, List.length_flatMap, List.map_congr_left hleaf]
    simp
  | cons n shape ih =>
    have hmem : .seq n ∈ level 0 ts := (hs 0 n).mp rfl
    have hall : ∀ t ∈ ts, t.node = .seq n := by
      rcases hu 0 with hleaf | ⟨n', hseq⟩
      · exact absurd (hleaf _ hmem) (by simp [Node.isSeq])
      · intro t ht
        rw [hseq _ hmem]
        exact hseq _ (List.mem_map_of_mem ht)
    have hleaves : leavesOf ts = leavesOf (ts.flatMap children) := by
      rw [leavesOf_eq, leavesOf_eq, List.flatMap_assoc]
      apply List.flatMap_congr
      intro t ht
      cases t with
      | leaf a => cases hall _ ht
      | seq items => rw [leaves, leavesOf_eq, children]
    have hlen : (ts.flatMap children).length = ts.length*n := by
      have hc : ∀ t ∈ ts, (children t).length = n := by
        intro t ht
        cases t with
        | leaf a => cases hall _ ht
        | seq items => exact Node.seq.inj (hall _ ht)
      rw [List.length_flatMap, List.map_congr_left hc]
      simp
    have hchildren := ih (fun k => hu (k+1)) (fun k m => hs (k+1) m)
    rw [hleaves, hchildren, hlen, List.prod_cons, mul_assoc]

end uniform

end Rose

end OrderedTree
