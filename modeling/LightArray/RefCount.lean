import Mathlib.Data.List.Perm.Basic
import Mathlib.Data.List.Count
import Mathlib.Data.List.Nodup
import Mathlib.Tactic.Ring
import Mathlib.Tactic.Linarith

namespace RefCount

/-- An object with its reference count. -/
structure Cell (β : Type*) where
  id : ℕ
  rc : ℕ
  body : β

/-- Live cells, and what has been destroyed so far. -/
structure Heap (β : Type*) where
  cells : List (Cell β)
  destroyed : List (ℕ × β)

variable {β : Type*}

/-- An object apart from its count. -/
def Cell.key (c : Cell β) : ℕ × β := (c.id,c.body)

namespace Heap

def find? (h : Heap β) (i : ℕ) : Option (Cell β) := h.cells.find? (·.id = i)

def setCount (h : Heap β) (i n : ℕ) : Heap β :=
  {h with cells := h.cells.map fun c => if c.id = i then {c with rc := n} else c}

/-- Take one more reference; none when the object is gone. -/
def incref (h : Heap β) (i : ℕ) : Option (Heap β) := do
  let c ← h.find? i
  some (h.setCount i (c.rc+1))

/-- A new object with one reference. -/
def insert (h : Heap β) (i : ℕ) (body : β) : Heap β := {h with cells := ⟨i,1,body⟩ :: h.cells}

def destroy (h : Heap β) (c : Cell β) : Heap β :=
  ⟨h.cells.filter (·.id ≠ c.id), h.destroyed ++ [c.key]⟩

/-- Give up the references `pending`, and those of the objects this destroys. None
when an object is gone already. -/
def release (out : β → List ℕ) : ℕ → List ℕ → Heap β → Option (Heap β)
  | _, [], h => some h
  | 0, _ :: _, _ => none
  | n+1, i :: pending, h => do
    let c ← h.find? i
    if c.rc = 1 then release out n (out c.body ++ pending) (h.destroy c)
    else release out n pending (h.setCount i (c.rc-1))

/-- References that live objects hold to `i`. -/
def inner (out : β → List ℕ) (h : Heap β) (i : ℕ) : ℕ := (h.cells.flatMap fun c => out c.body).count i

/-- Enough steps for `release`: each one settles a reference. -/
def fuel (out : β → List ℕ) (h : Heap β) (pending : List ℕ) : ℕ :=
  pending.length+(h.cells.flatMap fun c => out c.body).length

end Heap

/-- Counts are the numbers of references, `ext i` of them held from outside; what
is referred to is alive, and nothing is kept without a reference. -/
structure Exact (out : β → List ℕ) (h : Heap β) (ext : ℕ → ℕ) : Prop where
  nodup : (h.cells.map Cell.id).Nodup
  count : ∀ c ∈ h.cells, c.rc = ext c.id+h.inner out c.id
  pos : ∀ c ∈ h.cells, 0 < c.rc
  alive : ∀ i, 0 < ext i+h.inner out i → ∃ c ∈ h.cells, c.id = i

section counting

theorem count_cons_if (a : ℕ) (l : List ℕ) (i : ℕ) :
    (a :: l).count i = l.count i+if i = a then 1 else 0 := by
  by_cases hi : i = a
  · rw [hi, List.count_cons_self, if_pos rfl]
  · rw [List.count_cons_of_ne (Ne.symm hi), if_neg hi, add_zero]

end counting

section keys

variable {α κ : Type*} [DecidableEq κ] (f : α → κ) {l : List α} {x : α}

theorem find?_key (hl : (l.map f).Nodup) (hx : x ∈ l) : l.find? (f · = f x) = some x := by
  obtain ⟨y, hy⟩ : ∃ y, l.find? (f · = f x) = some y := by
    rw [← Option.isSome_iff_exists, List.find?_isSome]
    exact ⟨x, hx, by simp⟩
  have hkey : f y = f x := by simpa using List.find?_some hy
  rw [hy, List.inj_on_of_nodup_map hl (List.mem_of_find?_eq_some hy) hx hkey]

/-- The element with a key that no other has, taken out of a list. -/
theorem perm_filter_key (hl : (l.map f).Nodup) (hx : x ∈ l) : l.Perm (x :: l.filter fun y => f y ≠ f x) := by
  induction l with
  | nil => cases hx
  | cons y l ih =>
    obtain ⟨hy, htail⟩ := List.nodup_cons.mp hl
    rcases List.mem_cons.mp hx with rfl | hx
    · have hself : (l.filter fun y => f y ≠ f x) = l := by
        apply List.filter_eq_self.mpr
        intro z hz
        have hne : f z ≠ f x := fun h => hy (h ▸ List.mem_map_of_mem hz)
        simpa using hne
      rw [List.filter_cons_of_neg (by simp), hself]
    · have hne : f y ≠ f x := fun h => hy (h ▸ List.mem_map_of_mem hx)
      rw [List.filter_cons_of_pos (by simpa using hne)]
      exact ((ih htail hx).cons y).trans (.swap x y _)

end keys

section heap

variable {out : β → List ℕ} {h h' : Heap β} {ext ext' : ℕ → ℕ} {c : Cell β}

theorem Exact.find?_eq (he : Exact out h ext) (hc : c ∈ h.cells) : h.find? c.id = some c :=
  find?_key Cell.id he.nodup hc

theorem map_key_setCount (h : Heap β) (i n : ℕ) :
    (h.setCount i n).cells.map Cell.key = h.cells.map Cell.key := by
  rw [Heap.setCount, List.map_map]
  apply List.map_congr_left
  intro c _
  by_cases hi : c.id = i <;> simp [Cell.key, hi]

theorem map_id_eq (h : Heap β) : h.cells.map Cell.id = (h.cells.map Cell.key).map Prod.fst := by
  rw [List.map_map]
  rfl

theorem flatMap_out_eq (h : Heap β) :
    (h.cells.flatMap fun c => out c.body) = (h.cells.map Cell.key).flatMap fun p => out p.2 := by
  rw [List.flatMap_map]
  rfl

theorem inner_setCount (h : Heap β) (i n j : ℕ) : (h.setCount i n).inner out j = h.inner out j := by
  rw [Heap.inner, Heap.inner, flatMap_out_eq, flatMap_out_eq, map_key_setCount]

theorem mem_setCount {i n : ℕ} {d : Cell β} :
    d ∈ (h.setCount i n).cells ↔ ∃ c ∈ h.cells, d = if c.id = i then {c with rc := n} else c := by
  simp only [Heap.setCount, List.mem_map, eq_comm]

theorem Exact.setCount (he : Exact out h ext) {i n : ℕ} (hext : ∀ j, j ≠ i → ext' j = ext j)
    (hn : n = ext' i+h.inner out i) (hpos : 0 < n) (hc : ∃ c ∈ h.cells, c.id = i) :
    Exact out (h.setCount i n) ext' where
  nodup := by
    rw [map_id_eq, map_key_setCount, ← map_id_eq]
    exact he.nodup
  count := by
    intro d hd
    obtain ⟨c, hc, rfl⟩ := mem_setCount.mp hd
    rw [inner_setCount]
    by_cases hi : c.id = i
    · simp only [hi, ↓reduceIte, hn]
    · simp only [hi, ↓reduceIte, he.count c hc, hext c.id hi]
  pos := by
    intro d hd
    obtain ⟨c, hc, rfl⟩ := mem_setCount.mp hd
    by_cases hi : c.id = i
    · simpa only [hi, ↓reduceIte] using hpos
    · simpa only [hi, ↓reduceIte] using he.pos c hc
  alive := by
    intro j hj
    rw [inner_setCount] at hj
    have hold : ∃ c ∈ h.cells, c.id = j := by
      by_cases hi : j = i
      · rwa [hi]
      · exact he.alive j (hext j hi ▸ hj)
    obtain ⟨c, hc, rfl⟩ := hold
    refine ⟨_, mem_setCount.mpr ⟨c, hc, rfl⟩, ?_⟩
    split <;> rfl

theorem Exact.incref (he : Exact out h ext) {i : ℕ} (hi : ∃ c ∈ h.cells, c.id = i)
    (hext : ∀ j, ext' j = ext j+if j = i then 1 else 0) :
    ∃ h', h.incref i = some h' ∧ Exact out h' ext' ∧
      h'.cells.map Cell.key = h.cells.map Cell.key ∧ h'.destroyed = h.destroyed := by
  obtain ⟨c, hc, rfl⟩ := hi
  refine ⟨h.setCount c.id (c.rc+1), ?_, ?_, map_key_setCount .., rfl⟩
  · rw [Heap.incref, he.find?_eq hc]
    rfl
  · refine he.setCount (fun j hj => by rw [hext, if_neg hj, add_zero]) ?_ (Nat.succ_pos _) ⟨c, hc, rfl⟩
    rw [hext, if_pos rfl, he.count c hc]
    ring

theorem inner_destroy (he : Exact out h ext) (hc : c ∈ h.cells) (i : ℕ) :
    h.inner out i = (out c.body).count i+(h.destroy c).inner out i := by
  have hperm := (perm_filter_key Cell.id he.nodup hc).flatMap_right fun c => out c.body
  rw [Heap.inner, hperm.count_eq, List.flatMap_cons, List.count_append]
  rfl

/-- Destroying an object whose last reference is given up turns the references it
holds into references to give up. -/
theorem Exact.destroy (he : Exact out h ext) (hc : c ∈ h.cells) (hrc : c.rc = 1)
    (hlast : 0 < ext c.id)
    (hext : ∀ j, ext' j+(if j = c.id then 1 else 0) = ext j+(out c.body).count j) :
    Exact out (h.destroy c) ext' := by
  have hcount := he.count c hc
  have hinner := fun i => inner_destroy he hc i
  have hmem {d : Cell β} : d ∈ (h.destroy c).cells ↔ d ∈ h.cells ∧ d.id ≠ c.id := by
    simp [Heap.destroy]
  refine ⟨he.nodup.sublist (List.filter_sublist.map _), fun d hd => ?_, fun d hd => ?_, fun i hi => ?_⟩
  · obtain ⟨hd, hne⟩ := hmem.mp hd
    have h1 := hext d.id
    have h2 := hinner d.id
    rw [if_neg hne] at h1
    rw [he.count d hd]
    omega
  · exact he.pos d (hmem.mp hd).1
  · have h1 := hext i
    have h2 := hinner i
    have hne : i ≠ c.id := by
      rintro rfl
      rw [if_pos rfl] at h1
      omega
    rw [if_neg hne] at h1
    obtain ⟨d, hd, rfl⟩ := he.alive i (by omega)
    exact ⟨d, hmem.mpr ⟨hd, hne⟩, rfl⟩

/-- Live objects and destroyed ones together are what they were. -/
def SameObjects (h h' : Heap β) : Prop :=
  (h'.cells.map Cell.key ++ h'.destroyed).Perm (h.cells.map Cell.key ++ h.destroyed)

theorem sameObjects_destroy (he : Exact out h ext) (hc : c ∈ h.cells) :
    SameObjects h (h.destroy c) := by
  have hperm := (perm_filter_key Cell.id he.nodup hc).map Cell.key
  calc ((h.destroy c).cells.map Cell.key ++ (h.destroy c).destroyed).Perm
        ((h.cells.filter (·.id ≠ c.id)).map Cell.key ++ (h.destroyed ++ [c.key])) := .refl _
    _ |>.Perm (c.key :: ((h.cells.filter (·.id ≠ c.id)).map Cell.key ++ h.destroyed)) := by
        rw [← List.append_assoc]
        exact List.perm_append_singleton ..
    _ |>.Perm (h.cells.map Cell.key ++ h.destroyed) := (hperm.symm.append_right _)

theorem release_cons {n i : ℕ} {pending : List ℕ} (hc : h.find? i = some c) :
    h.release out (n+1) (i :: pending) =
      if c.rc = 1 then (h.destroy c).release out n (out c.body ++ pending)
      else (h.setCount i (c.rc-1)).release out n pending := by
  rw [Heap.release, hc]
  rfl

theorem fuel_setCount (h : Heap β) (i n : ℕ) (pending : List ℕ) :
    (h.setCount i n).fuel out pending = h.fuel out pending := by
  rw [Heap.fuel, Heap.fuel, flatMap_out_eq, flatMap_out_eq, map_key_setCount]

theorem fuel_destroy (he : Exact out h ext) (hc : c ∈ h.cells) (pending : List ℕ) :
    (h.destroy c).fuel out (out c.body ++ pending) = h.fuel out pending := by
  have hlen := ((perm_filter_key Cell.id he.nodup hc).flatMap_right fun c => out c.body).length_eq
  rw [List.flatMap_cons, List.length_append] at hlen
  rw [Heap.fuel, Heap.fuel, hlen, List.length_append, Heap.destroy]
  ring

/-- Giving up references never reaches a destroyed object, and leaves exact counts. -/
theorem Exact.release (n : ℕ) (pending : List ℕ) (h : Heap β) (ext : ℕ → ℕ)
    (hn : h.fuel out pending ≤ n) (he : Exact out h fun i => ext i+pending.count i) :
    ∃ h', h.release out n pending = some h' ∧ Exact out h' ext ∧ SameObjects h h' := by
  induction n generalizing pending h with
  | zero =>
    have hp : pending = [] := by
      unfold Heap.fuel at hn
      exact List.length_eq_zero_iff.mp (by omega)
    subst hp
    exact ⟨h, rfl, by simpa using he, .refl _⟩
  | succ n ih =>
    cases pending with
    | nil => exact ⟨h, rfl, by simpa using he, .refl _⟩
    | cons i pending =>
      obtain ⟨c, hc, rfl⟩ := he.alive i (by simp)
      have hcount := count_cons_if c.id pending
      have hn' : h.fuel out pending ≤ n := by
        unfold Heap.fuel at hn ⊢
        rw [List.length_cons] at hn
        omega
      rw [release_cons (he.find?_eq hc)]
      by_cases hrc : c.rc = 1
      · -- the last reference: the object gives up its own
        rw [if_pos hrc]
        have hd : Exact out (h.destroy c) fun j => ext j+(out c.body ++ pending).count j := by
          apply he.destroy hc hrc (by simp)
          intro j
          simp only [hcount, List.count_append]
          ring
        have hfuel : (h.destroy c).fuel out (out c.body ++ pending) ≤ n := by
          rwa [fuel_destroy he hc]
        obtain ⟨h', hok, hexact, hsame⟩ := ih _ _ hfuel hd
        exact ⟨h', hok, hexact, hsame.trans (sameObjects_destroy he hc)⟩
      · rw [if_neg hrc]
        have hpos := he.pos c hc
        have hnow := he.count c hc
        simp only [hcount, if_pos] at hnow
        have hs : Exact out (h.setCount c.id (c.rc-1)) fun j => ext j+pending.count j := by
          refine he.setCount (fun j hj => ?_) (by omega) (by omega) ⟨c, hc, rfl⟩
          simp only [hcount, if_neg hj, add_zero]
        obtain ⟨h', hok, hexact, hsame⟩ := ih pending _ (by rwa [fuel_setCount]) hs
        refine ⟨h', hok, hexact, hsame.trans ?_⟩
        rw [map_key_setCount]
        exact .refl _

theorem Exact.insert (he : Exact out h ext) {i : ℕ} {body : β} (hfresh : ∀ c ∈ h.cells, c.id ≠ i)
    (hext : ∀ j, ext' j+(out body).count j = ext j+if j = i then 1 else 0) :
    Exact out (h.insert i body) ext' := by
  have hinner (j : ℕ) : (h.insert i body).inner out j = (out body).count j+h.inner out j := by
    rw [Heap.inner, Heap.insert, List.flatMap_cons, List.count_append]
    rfl
  have hnone : ext i+h.inner out i = 0 := by
    by_contra hne
    obtain ⟨c, hc, hid⟩ := he.alive i (Nat.pos_of_ne_zero hne)
    exact hfresh c hc hid
  refine ⟨?_, fun c hc => ?_, fun c hc => ?_, fun j hj => ?_⟩
  · rw [Heap.insert, List.map_cons, List.nodup_cons]
    refine ⟨fun hmem => ?_, he.nodup⟩
    obtain ⟨c, hc, hid⟩ := List.mem_map.mp hmem
    exact hfresh c hc hid
  · have h1 := hext c.id
    rw [hinner]
    rcases List.mem_cons.mp hc with rfl | hc
    · rw [if_pos rfl] at h1
      dsimp only at h1 ⊢
      omega
    · rw [if_neg (hfresh c hc)] at h1
      rw [he.count c hc]
      omega
  · rcases List.mem_cons.mp hc with rfl | hc
    · exact Nat.one_pos
    · exact he.pos c hc
  · by_cases hji : j = i
    · exact ⟨_, List.mem_cons_self, hji.symm⟩
    · have h1 := hext j
      rw [hinner] at hj
      rw [if_neg hji] at h1
      obtain ⟨c, hc, hid⟩ := he.alive j (by omega)
      exact ⟨c, List.mem_cons_of_mem _ hc, hid⟩

end heap

end RefCount
