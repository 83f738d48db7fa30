import Mathlib.Logic.Function.Basic
import Mathlib.Data.List.Nodup
import Mathlib.Tactic.Common

namespace Cells

variable {ι α β : Type*}

/-- No value depends on the cell of another entry. -/
def ReadsOwn (dst : ι → α) (val : (α → β) → ι → β) (entries : List ι) : Prop :=
  ∀ i ∈ entries, ∀ mem mem' : α → β,
    (∀ p, (∀ j ∈ entries, dst j = p → dst i = p) → mem' p = mem p) → val mem' i = val mem i

variable {dst : ι → α} {val : (α → β) → ι → β} {entries : List ι} {mem : α → β}

theorem ReadsOwn.tail {i : ι} {rest : List ι} (h : ReadsOwn dst val (i :: rest)) : ReadsOwn dst val rest := by
  intro j hj mem mem' hsame
  apply h j (List.mem_cons_of_mem _ hj)
  intro p hp
  exact hsame p fun k hk => hp k (List.mem_cons_of_mem _ hk)

/-- A value made of the cell of the entry and of what is read outside the loop's cells. -/
theorem readsOwn_cell {γ : Type*} (f : ι → β → γ → β) (read : (α → β) → ι → γ)
    (h : ∀ i ∈ entries, ∀ mem mem' : α → β,
      (∀ p, (∀ j ∈ entries, dst j ≠ p) → mem' p = mem p) → read mem' i = read mem i) :
    ReadsOwn dst (fun mem i => f i (mem (dst i)) (read mem i)) entries := by
  intro i hi mem mem' hsame
  have hcell : mem' (dst i) = mem (dst i) := hsame _ fun _ _ he => he.symm ▸ rfl
  have hread : read mem' i = read mem i := by
    apply h i hi
    intro p hp
    exact hsame p fun j hj he => absurd he (hp j hj)
  show f i (mem' (dst i)) (read mem' i) = f i (mem (dst i)) (read mem i)
  rw [hcell, hread]

/-- A loop whose values do not read its cells. -/
theorem readsOwn_of_disjoint (h : ∀ i ∈ entries, ∀ mem mem' : α → β,
    (∀ p, (∀ j ∈ entries, dst j ≠ p) → mem' p = mem p) → val mem' i = val mem i) :
    ReadsOwn dst val entries :=
  readsOwn_cell (fun _ _ v => v) val h

/-- A change of memory inside an area only. -/
def WritesOnly (area : α → Prop) (before after : α → β) : Prop := ∀ p, ¬ area p → after p = before p

theorem WritesOnly.refl (area : α → Prop) (m : α → β) : WritesOnly area m m := fun _ _ => rfl

theorem WritesOnly.trans {area : α → Prop} {m₁ m₂ m₃ : α → β} (h : WritesOnly area m₁ m₂) (h' : WritesOnly area m₂ m₃) :
    WritesOnly area m₁ m₃ :=
  fun p hp => (h' p hp).trans (h p hp)

variable [DecidableEq α]

/-- Write the value of every entry to its cell, in order; values are read from the
memory as it is at that moment. -/
def storeEach (dst : ι → α) (val : (α → β) → ι → β) (entries : List ι) (mem : α → β) : α → β :=
  entries.foldl (fun mem i => Function.update mem (dst i) (val mem i)) mem

theorem storeEach_outside {p : α} (hp : ∀ i ∈ entries, dst i ≠ p) : storeEach dst val entries mem p = mem p := by
  induction entries generalizing mem with
  | nil => rfl
  | cons i rest ih =>
    rw [storeEach, List.foldl_cons]
    refine (ih fun j hj => hp j (List.mem_cons_of_mem _ hj)).trans ?_
    exact Function.update_of_ne (hp i List.mem_cons_self).symm _ _

/-- Every cell of the loop holds the value its entry had before the loop. -/
theorem storeEach_at (hnodup : (entries.map dst).Nodup) (h : ReadsOwn dst val entries) {i : ι}
    (hi : i ∈ entries) : storeEach dst val entries mem (dst i) = val mem i := by
  induction entries generalizing mem with
  | nil => cases hi
  | cons k rest ih =>
    obtain ⟨hfresh, hrest⟩ := List.nodup_cons.mp hnodup
    rw [storeEach, List.foldl_cons]
    rcases List.mem_cons.mp hi with rfl | hi
    · refine (storeEach_outside fun j hj he => hfresh ?_).trans (Function.update_self ..)
      exact he ▸ List.mem_map_of_mem hj
    · refine (ih hrest h.tail hi).trans ?_
      apply h i (List.mem_cons_of_mem _ hi)
      intro p hp
      apply Function.update_of_ne
      rintro rfl
      exact hfresh (hp k List.mem_cons_self rfl ▸ List.mem_map_of_mem hi)

theorem WritesOnly.update {area : α → Prop} {q : α} (hq : area q) (m : α → β) (value : β) :
    WritesOnly area m (Function.update m q value) := by
  intro p hp
  apply Function.update_of_ne
  rintro rfl
  exact hp hq

theorem WritesOnly.storeEach {area : α → Prop} (h : ∀ i ∈ entries, area (dst i)) (m : α → β) :
    WritesOnly area m (Cells.storeEach dst val entries m) := by
  intro p hp
  apply storeEach_outside
  rintro i hi rfl
  exact hp (h i hi)

end Cells
