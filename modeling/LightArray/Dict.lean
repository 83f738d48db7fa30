import Mathlib.Data.List.Basic
import Mathlib.Data.List.Nodup

/-- Entries in insertion order; no key occurs twice. -/
structure Dict (κ α : Type*) where
  entries : List (κ × α)
  nodup : (entries.map Prod.fst).Nodup

namespace Dict

variable {κ α : Type*}

def empty : Dict κ α := ⟨[], List.nodup_nil⟩

def keys (d : Dict κ α) : List κ := d.entries.map Prod.fst

variable [DecidableEq κ]

instance [DecidableEq α] : DecidableEq (Dict κ α) := fun d e =>
  decidable_of_iff (d.entries = e.entries) ⟨fun h => by cases d; cases e; simp_all, fun h => h ▸ rfl⟩

def get? (d : Dict κ α) (k : κ) : Option α := (d.entries.find? (·.1 = k)).map Prod.snd

/-- Replace the value of a key. -/
def replace (d : Dict κ α) (k : κ) (a : α) : Dict κ α where
  entries := d.entries.map fun e => if e.1 = k then (k,a) else e
  nodup := by
    have hkeys : (d.entries.map fun e => if e.1 = k then (k,a) else e).map Prod.fst =
        d.entries.map Prod.fst := by
      rw [List.map_map]
      apply List.map_congr_left
      intro e _
      by_cases he : e.1 = k <;> simp [he]
    rw [hkeys]
    exact d.nodup

/-- Append an entry for a new key. -/
def append (d : Dict κ α) (k : κ) (a : α) (h : k ∉ d.keys) : Dict κ α where
  entries := d.entries ++ [(k,a)]
  nodup := by
    rw [List.map_append, List.map_singleton]
    refine List.nodup_append.mpr ⟨d.nodup, List.nodup_singleton k, fun x hx y hy he => h ?_⟩
    have hxk : x = k := he.trans (List.mem_singleton.mp hy)
    exact hxk ▸ hx

/-- `d[k] = a`. -/
def set (d : Dict κ α) (k : κ) (a : α) : Dict κ α :=
  if h : k ∈ d.keys then d.replace k a else d.append k a h

/-- `d.setdefault(k, a)`. -/
def setDefault (d : Dict κ α) (k : κ) (a : α) : Dict κ α :=
  if h : k ∈ d.keys then d else d.append k a h

/-- `d` without the key. -/
def erase (d : Dict κ α) (k : κ) : Dict κ α where
  entries := d.entries.filter (·.1 ≠ k)
  nodup := d.nodup.sublist (List.filter_sublist.map _)

variable {d : Dict κ α} {k j : κ} {a b : α}

theorem get?_eq_some : d.get? k = some a ↔ (k,a) ∈ d.entries := by
  rw [get?, Option.map_eq_some_iff]
  constructor
  · rintro ⟨⟨i, b⟩, hfind, rfl⟩
    have hk : i = k := by simpa using List.find?_some hfind
    exact hk ▸ List.mem_of_find?_eq_some hfind
  · intro h
    obtain ⟨e, he⟩ : ∃ e, d.entries.find? (·.1 = k) = some e := by
      rw [← Option.isSome_iff_exists, List.find?_isSome]
      exact ⟨(k,a), h, by simp⟩
    have hk : e.1 = k := by simpa using List.find?_some he
    have heq := List.inj_on_of_nodup_map d.nodup (List.mem_of_find?_eq_some he) h hk
    exact ⟨e, he, by rw [heq]⟩

theorem get?_eq_none : d.get? k = none ↔ k ∉ d.keys := by
  rw [← not_iff_not, not_not, ← ne_eq, Option.ne_none_iff_exists', keys, List.mem_map]
  constructor
  · rintro ⟨a, h⟩
    exact ⟨(k,a), get?_eq_some.mp h, rfl⟩
  · rintro ⟨⟨i, a⟩, h, rfl⟩
    exact ⟨a, get?_eq_some.mpr h⟩

theorem mem_keys : k ∈ d.keys ↔ ∃ a, d.get? k = some a := by
  rw [← Option.ne_none_iff_exists', ne_eq, get?_eq_none, not_not]

@[simp] theorem get?_empty (k : κ) : (empty : Dict κ α).get? k = none := rfl

theorem keys_replace : (d.replace k a).keys = d.keys := by
  rw [keys, replace, List.map_map]
  apply List.map_congr_left
  intro e _
  by_cases he : e.1 = k <;> simp [he]

theorem mem_replace {i : κ} : (i,b) ∈ (d.replace k a).entries ↔
    (i = k ∧ b = a ∧ k ∈ d.keys) ∨ i ≠ k ∧ (i,b) ∈ d.entries := by
  rw [replace, List.mem_map]
  constructor
  · rintro ⟨e, he, heq⟩
    split_ifs at heq with hk
    · cases heq
      exact .inl ⟨rfl, rfl, hk ▸ List.mem_map_of_mem he⟩
    · cases heq
      exact .inr ⟨hk, he⟩
  · rintro (⟨rfl, rfl, hkey⟩ | ⟨hne, hmem⟩)
    · obtain ⟨e, he, rfl⟩ := List.mem_map.mp hkey
      exact ⟨e, he, if_pos rfl⟩
    · exact ⟨_, hmem, if_neg hne⟩

/-- The three updates are compared by the entries they leave. -/
theorem get?_congr {x : Option α} (h : ∀ b, (j,b) ∈ d.entries ↔ x = some b) : d.get? j = x := by
  ext b
  rw [get?_eq_some, h]

theorem get?_replace : (d.replace k a).get? j = if j = k ∧ k ∈ d.keys then some a else d.get? j := by
  apply get?_congr
  intro b
  rw [mem_replace]
  by_cases hj : j = k
  · subst hj
    by_cases hk : j ∈ d.keys
    · simp [hk, eq_comm]
    · simp [hk, get?_eq_none.mpr hk]
  · simp [hj, get?_eq_some]

theorem get?_append (h : k ∉ d.keys) : (d.append k a h).get? j = if j = k then some a else d.get? j := by
  apply get?_congr
  intro b
  rw [append, List.mem_append, List.mem_singleton, ← get?_eq_some]
  by_cases hj : j = k
  · subst hj
    simp [get?_eq_none.mpr h, eq_comm]
  · simp [hj]

theorem get?_set : (d.set k a).get? j = if j = k then some a else d.get? j := by
  unfold set
  split_ifs with hk hj hj
  · rw [get?_replace, if_pos ⟨hj, hk⟩]
  · rw [get?_replace, if_neg fun h => hj h.1]
  · rw [get?_append, if_pos hj]
  · rw [get?_append, if_neg hj]

/-- The last assignment to a key counts. -/
theorem get?_foldl_set (assignments : List (κ × α)) :
    (assignments.foldl (fun d e => d.set e.1 e.2) d).get? k =
      ((assignments.reverse.find? (·.1 = k)).map Prod.snd).or (d.get? k) := by
  induction assignments generalizing d with
  | nil => rfl
  | cons e rest ih =>
    rw [List.foldl_cons, ih, get?_set, List.reverse_cons, List.find?_append, List.find?_singleton]
    by_cases hk : k = e.1
    · cases hfind : rest.reverse.find? (·.1 = k) <;> simp [hk]
    · cases hfind : rest.reverse.find? (·.1 = k) <;> simp [hk, Ne.symm hk]

/-- Assignments to new keys append their entries. -/
theorem entries_foldl_set (l : List (κ × α)) (h : (d.keys ++ l.map Prod.fst).Nodup) :
    (l.foldl (fun d e => d.set e.1 e.2) d).entries = d.entries ++ l := by
  induction l generalizing d with
  | nil => rw [List.foldl_nil, List.append_nil]
  | cons e rest ih =>
    have hnew : e.1 ∉ d.keys := fun hk => (List.nodup_append.mp h).2.2 _ hk _ List.mem_cons_self rfl
    have hset : (d.set e.1 e.2).entries = d.entries ++ [e] := by
      rw [set, dif_neg hnew]
      rfl
    have hkeys : (d.set e.1 e.2).keys = d.keys ++ [e.1] := by
      rw [keys, hset, List.map_append]
      rfl
    rw [List.foldl_cons, ih (by rwa [hkeys, List.append_assoc]), hset, List.append_assoc, List.singleton_append]

theorem foldl_set_entries (d : Dict κ α) : d.entries.foldl (fun d e => d.set e.1 e.2) empty = d := by
  have hentries : (d.entries.foldl (fun d e => d.set e.1 e.2) empty).entries = d.entries :=
    entries_foldl_set (d := empty) d.entries d.nodup
  cases d
  exact mk.injEq _ _ _ _ ▸ hentries

theorem keys_set (h : k ∈ d.keys) : (d.set k a).keys = d.keys := by
  rw [set, dif_pos h, keys_replace]

/-- Which keys an assignment leaves does not depend on the values. -/
theorem keys_set_congr {e : Dict κ α} (h : d.keys = e.keys) : (d.set k a).keys = (e.set k b).keys := by
  by_cases hk : k ∈ d.keys
  · rw [keys_set hk, keys_set (h ▸ hk), h]
  · have hke : k ∉ e.keys := h ▸ hk
    rw [set, dif_neg hk, set, dif_neg hke]
    simp only [keys, append, List.map_append, List.map_singleton]
    exact congrArg (· ++ [k]) h

theorem keys_erase : (d.erase k).keys = d.keys.filter (· ≠ k) := by
  rw [keys, keys, erase, List.filter_map]
  rfl

theorem get?_setDefault :
    (d.setDefault k a).get? j = if j = k then some ((d.get? k).getD a) else d.get? j := by
  unfold setDefault
  split_ifs with hk hj hj
  · obtain ⟨b, hb⟩ := mem_keys.mp hk
    rw [hj, hb, Option.getD_some]
  · rfl
  · rw [get?_append, if_pos hj, get?_eq_none.mpr hk, Option.getD_none]
  · rw [get?_append, if_neg hj]

theorem length_setDefault (h : k ∉ d.keys) : (d.setDefault k a).entries.length = d.entries.length+1 := by
  rw [setDefault, dif_neg h, append, List.length_append, List.length_singleton]

theorem get?_erase : (d.erase k).get? j = if j = k then none else d.get? j := by
  apply get?_congr
  intro b
  rw [erase, List.mem_filter, ← get?_eq_some]
  by_cases hj : j = k <;> simp [hj]

/-- A dictionary is its keys in order and what they map to. -/
theorem ext_get? {e : Dict κ α} (hkeys : d.keys = e.keys) (hget : ∀ k, d.get? k = e.get? k) : d = e := by
  have hentries {d : Dict κ α} : d.entries = d.keys.filterMap fun k => (d.get? k).map fun a => (k,a) := by
    rw [keys, List.filterMap_map]
    symm
    apply (List.filterMap_congr fun x hx => ?_).trans List.filterMap_some
    rw [Function.comp_apply, get?_eq_some.mpr hx]
    rfl
  have heq : d.entries = e.entries := by
    rw [hentries, hentries (d := e), hkeys]
    simp only [hget]
  cases d
  cases e
  cases heq
  rfl

/-- The same keys with other values. -/
def map {β : Type*} (f : α → β) (d : Dict κ α) : Dict κ β where
  entries := d.entries.map fun e => (e.1, f e.2)
  nodup := by
    rw [List.map_map]
    exact d.nodup

end Dict
