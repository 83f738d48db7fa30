import Mathlib.Data.List.Basic

namespace MaskSelect

variable {α : Type*}

/-- The elements a mask holds at. -/
def selected (data : List α) (mask : List Bool) : List α := ((data.zip mask).filter fun p => p.2).map fun p => p.1

/-- Elements of `xs` where the mask holds, of `ys` elsewhere. -/
def merge (mask : List Bool) (xs ys : List α) : List α :=
  List.zipWith (fun p y => if p.1 then p.2 else y) (mask.zip xs) ys

variable {x y : α} {data xs ys zs : List α} {mask m n : List Bool}

@[simp] theorem selected_nil : selected ([] : List α) mask = [] := rfl

@[simp] theorem selected_true : selected (x :: data) (true :: mask) = x :: selected data mask := rfl

@[simp] theorem selected_false : selected (x :: data) (false :: mask) = selected data mask := rfl

@[simp] theorem merge_true : merge (true :: mask) (x :: xs) (y :: ys) = x :: merge mask xs ys := rfl

@[simp] theorem merge_false : merge (false :: mask) (x :: xs) (y :: ys) = y :: merge mask xs ys := rfl

/-- A mask and two lists of its length. -/
inductive Aligned : List Bool → List α → List α → Prop
  | nil : Aligned [] [] []
  | cons (b : Bool) (x y : α) {mask : List Bool} {xs ys : List α} (h : Aligned mask xs ys) :
      Aligned (b :: mask) (x :: xs) (y :: ys)

theorem aligned (hx : xs.length = mask.length) (hy : ys.length = mask.length) : Aligned mask xs ys := by
  induction mask generalizing xs ys with
  | nil =>
    rw [List.eq_nil_of_length_eq_zero hx, List.eq_nil_of_length_eq_zero hy]
    exact .nil
  | cons b mask ih =>
    obtain ⟨x, xs, rfl⟩ := List.exists_cons_of_length_eq_add_one hx
    obtain ⟨y, ys, rfl⟩ := List.exists_cons_of_length_eq_add_one hy
    exact .cons b x y (ih (Nat.succ.inj hx) (Nat.succ.inj hy))

theorem length_merge (hx : xs.length = mask.length) (hy : ys.length = mask.length) :
    (merge mask xs ys).length = mask.length := by
  rw [merge, List.length_zipWith, List.length_zip, hx, hy, Nat.min_self, Nat.min_self]

theorem selected_merge (h : Aligned mask xs ys) :
    selected (merge mask xs ys) mask = selected xs mask := by
  induction h with
  | nil => rfl
  | cons b x y _ ih =>
    cases b with
    | true => rw [merge_true, selected_true, selected_true, ih]
    | false => rw [merge_false, selected_false, selected_false, ih]

theorem selected_merge_not (h : Aligned mask xs ys) :
    selected (merge mask xs ys) (mask.map not) = selected ys (mask.map not) := by
  induction h with
  | nil => rfl
  | cons b x y _ ih =>
    rw [List.map_cons]
    cases b with
    | true => rw [merge_true, Bool.not_true, selected_false, selected_false, ih]
    | false => rw [merge_false, Bool.not_false, selected_true, selected_true, ih]

/-- A list is what it selects by a mask and by the complement, merged. -/
theorem merge_unique (h : Aligned mask xs ys) (hz : zs.length = mask.length)
    (hsel : selected zs mask = selected xs mask) (hnot : selected zs (mask.map not) = selected ys (mask.map not)) :
    zs = merge mask xs ys := by
  induction h generalizing zs with
  | nil => exact List.eq_nil_of_length_eq_zero hz
  | cons b x y _ ih =>
    obtain ⟨z, zs, rfl⟩ := List.exists_cons_of_length_eq_add_one hz
    have hlen := Nat.succ.inj hz
    rw [List.map_cons] at hnot
    cases b with
    | true =>
      rw [selected_true, selected_true, List.cons.injEq] at hsel
      rw [merge_true, hsel.1, ih hlen hsel.2 hnot]
    | false =>
      rw [Bool.not_false, selected_true, selected_true, List.cons.injEq] at hnot
      rw [merge_false, hnot.1, ih hlen hsel hnot.2]

/-- Selecting by both masks is selecting by one and then by what it selects of the other. -/
theorem selected_and (hm : m.length = data.length) (hn : n.length = data.length) :
    selected data (List.zipWith and m n) = selected (selected data m) (selected n m) := by
  induction data generalizing m n with
  | nil => rfl
  | cons x data ih =>
    obtain ⟨b, m, rfl⟩ := List.exists_cons_of_length_eq_add_one hm
    obtain ⟨c, n, rfl⟩ := List.exists_cons_of_length_eq_add_one hn
    have hrest := ih (Nat.succ.inj hm) (Nat.succ.inj hn)
    rw [List.zipWith_cons_cons]
    cases b with
    | true =>
      cases c with
      | true => rw [Bool.and_self, selected_true, selected_true, selected_true, selected_true, hrest]
      | false => rw [Bool.and_false, selected_false, selected_true, selected_true, selected_false, hrest]
    | false => rw [Bool.false_and, selected_false, selected_false, selected_false, hrest]

theorem length_selected (h : mask.length = data.length) : (selected data mask).length = mask.count true := by
  induction data generalizing mask with
  | nil =>
    rw [List.eq_nil_of_length_eq_zero h]
    rfl
  | cons x data ih =>
    obtain ⟨b, mask, rfl⟩ := List.exists_cons_of_length_eq_add_one h
    have hrest := ih (Nat.succ.inj h)
    cases b with
    | true => rw [selected_true, List.length_cons, hrest, List.count_cons_self]
    | false => rw [selected_false, hrest, List.count_cons_of_ne Bool.false_ne_true]

end MaskSelect
