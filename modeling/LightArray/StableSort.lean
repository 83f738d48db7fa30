import Mathlib.Tactic
import Mathlib.Data.List.Nodup

namespace StableSort

variable {α β : Type*} {cmp : α → α → Ordering}

/-- A stable sort by a comparison. -/
def sortBy (cmp : α → α → Ordering) (l : List α) : List α := l.mergeSort fun a b => (cmp a b).isLE

theorem sortBy_perm (cmp : α → α → Ordering) (l : List α) : (sortBy cmp l).Perm l := List.mergeSort_perm l _

theorem length_sortBy (cmp : α → α → Ordering) (l : List α) : (sortBy cmp l).length = l.length :=
  (sortBy_perm cmp l).length_eq

/-- A comparison of images is one of the elements. -/
theorem transCmp_comap (f : β → α) [Std.TransCmp cmp] : Std.TransCmp fun a b => cmp (f a) (f b) where
  eq_swap := Std.OrientedCmp.eq_swap
  isLE_trans := Std.TransCmp.isLE_trans

/-- Sorting elements by their images is sorting the images. -/
theorem map_sortBy (f : β → α) (l : List β) :
    (sortBy (fun a b => cmp (f a) (f b)) l).map f = sortBy cmp (l.map f) :=
  List.map_mergeSort fun _ _ _ _ => rfl

section trans

variable [Std.TransCmp cmp]

theorem isLE_total (a b : α) : ((cmp a b).isLE || (cmp b a).isLE) = true := by
  have hswap : cmp a b = (cmp b a).swap := Std.OrientedCmp.eq_swap
  rw [hswap]
  cases cmp b a <;> rfl

theorem pairwise_sortBy (l : List α) : (sortBy cmp l).Pairwise fun a b => (cmp a b).isLE :=
  List.pairwise_mergeSort (fun _ _ _ => Std.TransCmp.isLE_trans) isLE_total l

/-- Two elements of a list stand in one order or the other. -/
theorem pair_sublist {l : List α} {a b : α} (ha : a ∈ l) (hb : b ∈ l) (hne : a ≠ b) :
    [a,b].Sublist l ∨ [b,a].Sublist l := by
  have hsymm : Std.Symm fun x y : α => [x,y].Sublist l ∨ [y,x].Sublist l := ⟨fun _ _ => Or.symm⟩
  have hall : l.Pairwise fun x y => [x,y].Sublist l ∨ [y,x].Sublist l :=
    List.pairwise_iff_forall_sublist.mpr fun h => .inl h
  exact hall.forall ha hb hne

/-- and in one only when the list repeats nothing. -/
theorem not_pair_sublist {l : List α} {a b : α} (hnd : l.Nodup) (h : [a,b].Sublist l) : ¬ [b,a].Sublist l := by
  classical
  intro h'
  have hidx : l.Pairwise fun x y => l.idxOf x < l.idxOf y := by
    rw [List.pairwise_iff_getElem]
    intro i j hi hj hij
    rwa [hnd.idxOf_getElem i hi, hnd.idxOf_getElem j hj]
  have hab := List.pairwise_iff_forall_sublist.mp hidx h
  have hba := List.pairwise_iff_forall_sublist.mp hidx h'
  omega

/-- Elements that compare equal keep the order they had. -/
theorem sortBy_stable {r : α → α → Prop} {l : List α} (hnd : l.Nodup) (hr : l.Pairwise r) :
    (sortBy cmp l).Pairwise fun a b => (cmp a b).isLE ∧ (cmp a b = .eq → r a b) := by
  have hsorted : (sortBy cmp l).Pairwise fun a b => (cmp a b).isLE := pairwise_sortBy l
  have hnd' : (sortBy cmp l).Nodup := (sortBy_perm cmp l).nodup_iff.mpr hnd
  apply List.pairwise_iff_forall_sublist.mpr
  intro a b hab
  refine ⟨List.pairwise_iff_forall_sublist.mp hsorted hab, fun heq => ?_⟩
  have hmem (x : α) (hx : x ∈ [a,b]) : x ∈ l := (sortBy_perm cmp l).mem_iff.mp (hab.subset hx)
  have hne : a ≠ b := by
    rintro rfl
    exact not_pair_sublist hnd' hab hab
  rcases pair_sublist (hmem a (by simp)) (hmem b (by simp)) hne with h | h
  · exact List.pairwise_iff_forall_sublist.mp hr h
  · -- the sort would have kept the other order
    have hle : (cmp b a).isLE = true := by
      rw [Std.OrientedCmp.eq_symm heq]
      rfl
    have hba : [b,a].Sublist (sortBy cmp l) :=
      List.pair_sublist_mergeSort (fun _ _ _ => Std.TransCmp.isLE_trans) isLE_total hle h
    exact absurd hba (not_pair_sublist hnd' hab)

/-- The positions of a list in the order of its elements. -/
def sortedPositions (cmp : α → α → Ordering) (l : List α) : List (Fin l.length) :=
  sortBy (fun i j => cmp l[i] l[j]) (List.finRange l.length)

omit [Std.TransCmp cmp] in
theorem length_sortedPositions (cmp : α → α → Ordering) (l : List α) : (sortedPositions cmp l).length = l.length := by
  rw [sortedPositions, length_sortBy, List.length_finRange]

omit [Std.TransCmp cmp] in
theorem sortedPositions_perm (cmp : α → α → Ordering) (l : List α) :
    ((sortedPositions cmp l).map Fin.val).Perm (List.range l.length) := by
  rw [← List.map_coe_finRange_eq_range]
  exact (sortBy_perm _ _).map _

/-- Positions of elements that compare equal increase. -/
theorem sortedPositions_pairwise (l : List α) :
    (sortedPositions cmp l).Pairwise fun i j => (cmp l[i] l[j]).isLE ∧ (cmp l[i] l[j] = .eq → i < j) := by
  have htrans : Std.TransCmp fun i j : Fin l.length => cmp l[i] l[j] := transCmp_comap fun i : Fin l.length => l[i]
  exact sortBy_stable (List.nodup_finRange _) (List.pairwise_lt_finRange _)

end trans

section positions

variable {le : α → α → Prop} {l : List α} {p : List ℕ}

/-- `p` lists the positions of `l` in the order of their elements, and those of
equivalent elements in increasing order. -/
structure StablyOrders (le : α → α → Prop) (l : List α) (p : List ℕ) : Prop where
  perm : p.Perm (List.range l.length)
  sorted : p.Pairwise fun i j => ∃ x y, l[i]? = some x ∧ l[j]? = some y ∧ le x y ∧ (le y x → i < j)

theorem stablyOrders_sorted [Std.TransCmp cmp] (l : List α) :
    StablyOrders (fun x y => (cmp x y).isLE) l ((sortedPositions cmp l).map Fin.val) where
  perm := sortedPositions_perm cmp l
  sorted := by
    rw [List.pairwise_map]
    refine (sortedPositions_pairwise l).imp fun {i j} h => ⟨l[i], l[j], by simp, by simp, h.1, fun hge => ?_⟩
    exact h.2 (Std.OrientedCmp.isLE_antisymm h.1 hge)

theorem map_reflect_range (n : ℕ) : (List.range n).map (fun i => n-1-i) = (List.range n).reverse := by
  rw [List.range_eq_range', List.reverse_range', ← List.range_eq_range', Nat.zero_add]

/-- The stable order of the reversed list, reversed and reflected, is the stable order
by the opposite relation: both reversals turn ties around. -/
theorem StablyOrders.reflect (h : StablyOrders le l.reverse p) :
    StablyOrders (fun x y => le y x) l (p.reverse.map fun i => l.length-1-i) := by
  have hperm : p.Perm (List.range l.length) := by
    rw [← List.length_reverse]
    exact h.perm
  refine ⟨?_, ?_⟩
  · calc
      (p.reverse.map fun i => l.length-1-i).Perm ((List.range l.length).map fun i => l.length-1-i) :=
        ((List.reverse_perm p).trans hperm).map _
      _ = (List.range l.length).reverse := map_reflect_range _
      List.Perm _ (List.range l.length) := List.reverse_perm _
  · -- reversing the list of positions swaps the pair, reflecting it swaps the positions
    rw [List.pairwise_map, List.pairwise_reverse]
    refine h.sorted.imp_of_mem fun {i j} hi hj hij => ?_
    obtain ⟨x, y, hx, hy, hle, hties⟩ := hij
    have hil : i < l.length := List.mem_range.mp (hperm.mem_iff.mp hi)
    have hjl : j < l.length := List.mem_range.mp (hperm.mem_iff.mp hj)
    rw [List.getElem?_reverse hil] at hx
    rw [List.getElem?_reverse hjl] at hy
    refine ⟨y, x, hy, hx, hle, fun hge => ?_⟩
    have hlt := hties hge
    omega

end positions

end StableSort
