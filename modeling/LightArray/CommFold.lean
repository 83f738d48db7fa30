import LightArray.Lanes
import Mathlib.Data.List.Perm.Basic

namespace CommFold

variable {α β : Type*} {op : α → α → α} [Std.Associative op] [Std.Commutative op] {e : α}

/-- A fold may start from an identity and meet its first value last. -/
theorem foldl_start (he : ∀ x, op e x = x) (a : α) (xs : List α) : xs.foldl op a = op a (xs.foldl op e) := by
  have hright : op a e = a := (Std.Commutative.comm a e).trans (he a)
  calc xs.foldl op a
      = xs.foldl op (op a e) := by rw [hright]
    _ = op a (xs.foldl op e) := List.foldl_assoc

theorem foldl_flatMap_fold (he : ∀ x, op e x = x) (g : β → List α) (l : List β) :
    (l.flatMap g).foldl op e = (l.map fun b => (g b).foldl op e).foldl op e := by
  rw [List.foldl_flatMap, List.foldl_map]
  congr 1
  funext acc b
  exact foldl_start he acc (g b)

/-- The fold of a list by its first element, or by an initial value. -/
def reduce (op : α → α → α) : Option α → List α → Option α
  | some v, xs => some (xs.foldl op v)
  | none, x :: xs => some (xs.foldl op x)
  | none, [] => none

omit [Std.Associative op] [Std.Commutative op] in
/-- A fold without an initial value is one of partial values, which start undefined. -/
theorem reduce_none (xs : List α) : reduce op none xs = (xs.map some).foldl (Option.merge op) none := by
  have hfrom (a : α) (ys : List α) : (ys.map some).foldl (Option.merge op) (some a) = some (ys.foldl op a) := by
    induction ys generalizing a with
    | nil => rfl
    | cons y ys ih => exact ih (op a y)
  cases xs with
  | nil => rfl
  | cons x xs => exact (hfrom x xs).symm

theorem reduce_perm {init : Option α} {xs ys : List α} (h : xs.Perm ys) : reduce op init xs = reduce op init ys := by
  cases init with
  | some v => exact congrArg some (h.foldl_eq v)
  | none =>
    rw [reduce_none, reduce_none]
    exact (h.map some).foldl_eq none

/-- The folds of parts fold to the fold of the whole. -/
theorem reduce_flatMap {init : Option α} (hinit : ∀ v, init = some v → ∀ x, op v x = x) {l : List β} {g : β → List α}
    {outs : List α} (h : List.Forall₂ (fun b v => reduce op init (g b) = some v) l outs) :
    reduce op init (l.flatMap g) = reduce op init outs := by
  have houts : outs.map some = l.map fun b => reduce op init (g b) := by
    induction h with
    | nil => rfl
    | cons hb _ ih => rw [List.map_cons, List.map_cons, ih, hb]
  cases init with
  | some v =>
    have hparts : outs = l.map fun b => (g b).foldl op v := by
      apply List.map_injective_iff.mpr (Option.some_injective α)
      rw [houts, List.map_map]
      rfl
    rw [hparts]
    exact congrArg some (foldl_flatMap_fold (hinit v rfl) g l)
  | none =>
    simp only [reduce_none] at houts ⊢
    have hid (x : Option α) : Option.merge op none x = x := by cases x <;> rfl
    calc ((l.flatMap g).map some).foldl (Option.merge op) none
        = (l.flatMap fun b => (g b).map some).foldl (Option.merge op) none := by rw [List.map_flatMap]
      _ = (l.map fun b => ((g b).map some).foldl (Option.merge op) none).foldl (Option.merge op) none :=
        foldl_flatMap_fold hid _ l
      _ = (outs.map some).foldl (Option.merge op) none := by rw [houts]

end CommFold

namespace RowMajor

/-- The multi-indices of an array, one lane of an axis after another. -/
theorem enum_perm_lanes (s u : List ℕ) (d : ℕ) : (enum (s ++ d :: u)).Perm
    ((enum (s ++ u)).flatMap fun idx => (List.range d).map fun x => idx.insertIdx s.length x) := by
  have herase (idx : List ℕ) (x : ℕ) : (idx.insertIdx s.length x).eraseIdx s.length = idx :=
    List.eraseIdx_insertIdx_self x
  have hnodup : ((enum (s ++ u)).flatMap fun idx => (List.range d).map fun x => idx.insertIdx s.length x).Nodup := by
    rw [List.nodup_flatMap]
    constructor
    · intro idx hidx
      apply List.Nodup.map_on _ List.nodup_range
      intro x _ y _ hxy
      obtain ⟨i, j, rfl, hi, -⟩ := (mem_enum.mp hidx).split
      rw [← hi.length_eq, insertIdx_length, insertIdx_length] at hxy
      exact (List.cons.inj (List.append_cancel_left hxy)).1
    · refine (nodup_enum (s ++ u)).imp_of_mem ?_
      intro idx idx' _ _ hne l hl hl'
      obtain ⟨x, -, rfl⟩ := List.mem_map.mp hl
      obtain ⟨y, -, hy⟩ := List.mem_map.mp hl'
      have heq := congrArg (·.eraseIdx s.length) hy
      simp only [herase] at heq
      exact hne heq.symm
  rw [List.perm_ext_iff_of_nodup (nodup_enum _) hnodup]
  intro idx
  rw [mem_enum, List.mem_flatMap]
  constructor
  · intro hidx
    obtain ⟨i, is, rfl, hi, his⟩ := hidx.split
    obtain ⟨x, j, rfl, hx, hj⟩ := his.cases_cons
    refine ⟨i ++ j, mem_enum.mpr (hi.append hj), List.mem_map.mpr ⟨x, List.mem_range.mpr hx, ?_⟩⟩
    rw [← hi.length_eq, insertIdx_length]
  · rintro ⟨idx', hidx', hmem⟩
    obtain ⟨x, hx, rfl⟩ := List.mem_map.mp hmem
    obtain ⟨i, j, rfl, hi, hj⟩ := (mem_enum.mp hidx').split
    rw [← hi.length_eq, insertIdx_length]
    exact hi.append (inRange_cons.mpr ⟨List.mem_range.mp hx, hj⟩)

end RowMajor
