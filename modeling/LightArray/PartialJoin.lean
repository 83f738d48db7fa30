import Mathlib.Order.Bounds.Basic

/-- `join` computes least upper bounds, and misses none of a bounded pair. -/
structure PartialJoin {α : Type*} [PartialOrder α] (join : α → α → Option α) : Prop where
  isLUB : ∀ {a b r}, join a b = some r → IsLUB {a, b} r
  bounded : ∀ {a b u}, a ≤ u → b ≤ u → ∃ r, join a b = some r

namespace PartialJoin

variable {α : Type*} [PartialOrder α] {join : α → α → Option α} {a b c r : α}

theorem eq_some_iff (h : PartialJoin join) : join a b = some r ↔ IsLUB {a, b} r := by
  refine ⟨h.isLUB, fun hr => ?_⟩
  obtain ⟨s, hs⟩ := h.bounded (hr.1 (.inl rfl)) (hr.1 (.inr rfl))
  rw [hs, (h.isLUB hs).unique hr]

theorem left_le (h : PartialJoin join) (hr : join a b = some r) : a ≤ r := (h.isLUB hr).1 (.inl rfl)

theorem right_le (h : PartialJoin join) (hr : join a b = some r) : b ≤ r := (h.isLUB hr).1 (.inr rfl)

theorem comm (h : PartialJoin join) (a b : α) : join a b = join b a := by
  apply Option.ext
  intro r
  rw [h.eq_some_iff, h.eq_some_iff, Set.pair_comm]

/-- The smaller of two comparable elements is absorbed. -/
theorem of_le (h : PartialJoin join) (hab : a ≤ b) : join a b = some b := by
  rw [h.eq_some_iff]
  constructor
  · rintro x (rfl | rfl)
    · exact hab
    · exact le_rfl
  · exact fun u hu => hu (.inr rfl)

theorem self (h : PartialJoin join) (a : α) : join a a = some a := h.of_le le_rfl

theorem absorb_left (h : PartialJoin join) (hr : join a b = some r) : join a r = some r :=
  h.of_le (h.left_le hr)

theorem absorb_right (h : PartialJoin join) (hr : join a b = some r) : join b r = some r :=
  h.of_le (h.right_le hr)

/-- Joining a third element gives the least upper bound of the three. -/
theorem bind_eq_some_iff (h : PartialJoin join) :
    (join a b).bind (join · c) = some r ↔ IsLUB {a, b, c} r := by
  have hthree {s : α} (hs : IsLUB {a, b} s) : upperBounds {s, c} = upperBounds {a, b, c} := by
    have hsplit : ({a, b, c} : Set α) = {a, b} ∪ {c} := by
      ext x
      simp only [Set.mem_insert_iff, Set.mem_singleton_iff, Set.mem_union, or_assoc]
    rw [hsplit, Set.insert_eq, upperBounds_union, upperBounds_union, hs.upperBounds_eq, upperBounds_singleton]
  constructor
  · intro hr
    obtain ⟨s, hs, hsc⟩ := Option.bind_eq_some_iff.mp hr
    have hlub := h.isLUB hsc
    rwa [IsLUB, hthree (h.isLUB hs)] at hlub
  · intro hr
    obtain ⟨s, hs⟩ := h.bounded (hr.1 (.inl rfl)) (hr.1 (.inr (.inl rfl)))
    rw [hs, Option.bind_some, h.eq_some_iff, IsLUB, hthree (h.isLUB hs)]
    exact hr

theorem assoc (h : PartialJoin join) (a b c : α) :
    (join a b).bind (join · c) = (join b c).bind (join a ·) := by
  apply Option.ext
  intro r
  have hrotate : ({a, b, c} : Set α) = {b, c, a} := by
    ext x
    simp only [Set.mem_insert_iff, Set.mem_singleton_iff]
    tauto
  simp only [h.comm a]
  rw [h.comm b a, h.bind_eq_some_iff, h.bind_eq_some_iff, hrotate]

variable {S T : Set α}

theorem isLUB_union (h : PartialJoin join) (ha : IsLUB S a) (hb : IsLUB T b) (hr : join a b = some r) : IsLUB (S ∪ T) r := by
  have hlub := h.isLUB hr
  have hbounds : upperBounds (S ∪ T) = upperBounds {a, b} := by
    rw [upperBounds_union, ha.upperBounds_eq, hb.upperBounds_eq, Set.insert_eq, upperBounds_union, upperBounds_singleton,
      upperBounds_singleton]
  rwa [IsLUB, hbounds]

/-- A common bound of the sets is one of their least upper bounds. -/
theorem exists_of_bounded (h : PartialJoin join) (ha : IsLUB S a) (hb : IsLUB T b) (hu : c ∈ upperBounds (S ∪ T)) :
    ∃ r, join a b = some r := by
  rw [upperBounds_union] at hu
  exact h.bounded (ha.2 hu.1) (hb.2 hu.2)

end PartialJoin
