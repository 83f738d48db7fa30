import LightArray.TakeLeading
import LightArray.Nonzero

namespace LightArray
open MachineWord RowMajor

/-- An item of a list key. -/
inductive ListItem
  | bool (b : Bool)
  | int (i : ℤ)
  | other
  deriving DecidableEq, Repr

namespace ListItem

/-- `is_instance_of::<PyInt>()`. -/
def isInt : ListItem → Bool
  | .bool _ => true
  | .int _ => true
  | .other => false

def isBool : ListItem → Bool
  | .bool _ => true
  | _ => false

/-- The item as an integer. -/
def value : ListItem → ℤ
  | .bool b => if b then 1 else 0
  | .int i => i
  | .other => 0

/-- `_index` leaves bools and numbers as they are. -/
def index : ListItem → ListItem
  | .bool b => .bool b
  | .int i => .int i
  | .other => .other

end ListItem

/-- `extract::<isize>()` of a Python int. -/
def extractIsize (i : ℤ) : Except Failure ℤ :=
  if i < -(2^63) ∨ 2^63 ≤ i then
    .error (.python .overflowError "Python int too large to convert to C long")
  else .ok i

/-- The loop over the items; none when the key goes to NumPy. -/
def listIndices : List ListItem → Except Failure (Option (List ℤ))
  | [] => .ok (some [])
  | item :: key =>
    if item.isInt then do
      let i ← extractIsize item.value
      let rest ← listIndices key
      .ok (rest.map (i :: ·))
    else .ok none

/-- `a[key]` for a list. -/
def NdArray.getItemList {t : DType} {T : Type} (a : NdArray t T) (key : List ListItem) :
    Except Failure (Option (NdArray t T)) := do
  match ← listIndices key with
  | some idx =>
    let r ← a.takeLeading idx
    .ok (some r)
  | none => .ok none

/-- A non-empty list of bools is a mask. -/
def IsMask (key : List ListItem) : Prop := key ≠ [] ∧ ∀ item ∈ key, item.isBool = true

instance (key : List ListItem) : Decidable (IsMask key) := inferInstanceAs (Decidable (_ ∧ _))

/-- The rows a list key means in NumPy; none is an index error. -/
def numpyRows (len : ℕ) (key : List ListItem) : Option (List ℕ) :=
  if IsMask key then
    if key.length = len then some (positions (fun item => item == .bool true) key) else none
  else if ∀ item ∈ key, -(len:ℤ) ≤ item.value ∧ item.value < len then
    some (key.map fun item => coordinate len item.value)
  else none

/-- The rows `a[key] = v` writes: NumPy's own assignment gets the key through `_index`. -/
def rowsWritten (len : ℕ) (key : List ListItem) : Option (List ℕ) := numpyRows len (key.map ListItem.index)

namespace NdArray

variable {t : DType} {T : Type}

/-- `a[key]` reads these rows, or raises an index error for none. -/
def ReadsAs (a : NdArray t T) (len : ℕ) (rest : List ℕ) (key : List ListItem) : Option (List ℕ) → Prop
  | some rows => ∃ r, a.getItemList key = .ok (some r) ∧ ShowsRows a len rest rows r
  | none => ∃ e, a.getItemList key = .error e ∧ e.IsIndexError

/-- The lists that the indices read for: masks for which the rows 0 and 1 happen to be right,
and integers that are indices of NumPy and of the code alike. -/
def ListKeyExact (a : NdArray t T) (len : ℕ) (rest : List ℕ) (key : List ListItem) : Prop :=
  RowsFit t len rest (key.map ListItem.value) ∧
    if IsMask key then
      key.length ≠ len ∧ (∃ item ∈ key, (len:ℤ) ≤ item.value) ∨
        key.length = len ∧ 2 ≤ len ∧ (∀ item ∈ key, item.value = 1) ∧
          ∀ k < len, ∀ idx, InRange rest idx → a.at? (k :: idx) = a.at? (1 :: idx)
    else
      (∀ item ∈ key, -(2^63) ≤ item.value ∧ item.value < 2^63) ∧
        ((∃ item ∈ key, ¬ (-(len:ℤ) ≤ item.value ∧ item.value < len)) ∨
          ∀ item ∈ key, item.value < 0 → item.value+len < 2^63)

end NdArray

section key

variable {key : List ListItem} {len : ℕ}

theorem map_index (key : List ListItem) : key.map ListItem.index = key := by
  have hid : ListItem.index = id := by
    funext item
    cases item <;> rfl
  rw [hid, List.map_id]

/-- Assignment follows NumPy's rule. -/
theorem rowsWritten_eq (len : ℕ) (key : List ListItem) : rowsWritten len key = numpyRows len key := by
  rw [rowsWritten, map_index]

/-- Every item is extracted, or one is beyond `isize`. -/
theorem listIndices_ok (hkey : ∀ item ∈ key, item.isInt = true)
    (hi : ∀ item ∈ key, -(2^63) ≤ item.value ∧ item.value < 2^63) :
    listIndices key = .ok (some (key.map ListItem.value)) := by
  induction key with
  | nil => rfl
  | cons item key ih =>
    obtain ⟨hint, hkey⟩ := List.forall_mem_cons.mp hkey
    obtain ⟨hrange, hi⟩ := List.forall_mem_cons.mp hi
    have hextract : extractIsize item.value = .ok item.value := if_neg (by omega)
    rw [listIndices, if_pos hint, hextract, ih hkey hi]
    rfl

theorem listIndices_overflow (hkey : ∀ item ∈ key, item.isInt = true)
    (hi : ¬ ∀ item ∈ key, -(2^63) ≤ item.value ∧ item.value < 2^63) :
    ∃ e, listIndices key = .error e ∧ ¬ e.IsIndexError := by
  induction key with
  | nil => exact absurd nofun hi
  | cons item key ih =>
    obtain ⟨hint, hkey⟩ := List.forall_mem_cons.mp hkey
    rw [listIndices, if_pos hint]
    by_cases hrange : -(2^63) ≤ item.value ∧ item.value < 2^63
    · have hextract : extractIsize item.value = .ok item.value := if_neg (by omega)
      obtain ⟨e, he, hindex⟩ := ih hkey fun h => hi (List.forall_mem_cons.mpr ⟨hrange, h⟩)
      rw [hextract, he]
      exact ⟨e, rfl, hindex⟩
    · rw [extractIsize, if_pos (by omega)]
      exact ⟨_, rfl, nofun⟩

theorem value_of_isMask (h : IsMask key) : ∀ item ∈ key, item.value = 0 ∨ item.value = 1 ∧ item = .bool true := by
  intro item hmem
  have hb := h.2 item hmem
  cases item with
  | bool b => cases b <;> simp [ListItem.value]
  | int i => simp [ListItem.isBool] at hb
  | other => simp [ListItem.isBool] at hb

end key

/-- Every item fits the index type of the loop. -/
def IsizeItems (key : List ListItem) : Prop := ∀ item ∈ key, -(2^63) ≤ item.value ∧ item.value < 2^63

namespace NdArray

variable {t : DType} {T : Type} {a r : NdArray t T} {len : ℕ} {rest ks rows : List ℕ} {key : List ListItem}

/-- The same number of rows, with the same elements. -/
def SameRows (a : NdArray t T) (rest ks rows : List ℕ) : Prop :=
  ks.length = rows.length ∧ ∀ i (h : i < ks.length) (h' : i < rows.length) idx, InRange rest idx →
    a.at? (ks[i] :: idx) = a.at? (rows[i] :: idx)

theorem showsRows_iff_sameRows (h : ShowsRows a len rest ks r) :
    ShowsRows a len rest rows r ↔ SameRows a rest ks rows := by
  constructor
  · intro h'
    have hlen : ks.length = rows.length := by
      have hshape := h.shape.symm.trans h'.shape
      exact (List.cons.inj hshape).1
    exact ⟨hlen, fun i hi hi' idx hidx => (h.elements i hi idx hidx).symm.trans (h'.elements i hi' idx hidx)⟩
  · rintro ⟨hlen, heq⟩
    exact ⟨hlen ▸ h.shape, h.count, fun i hi idx hidx =>
      (h.elements i (hlen ▸ hi) idx hidx).trans (heq i (hlen ▸ hi) hi idx hidx)⟩

theorem sameRows_refl (a : NdArray t T) (rest ks : List ℕ) : SameRows a rest ks ks := ⟨rfl, fun _ _ _ _ _ => rfl⟩

section reads

variable (ha : a.Counted) (hs : a.shape = len :: rest) (hlen : len < wordModulus)
  (hkey : ∀ item ∈ key, item.isInt = true)

include ha hs hlen hkey

theorem readsAs_some : a.ReadsAs len rest key (some rows) ↔
    IsizeItems key ∧ RowsFit t len rest (key.map ListItem.value) ∧
      (∀ item ∈ key, Accepted len item.value) ∧
      SameRows a rest (key.map fun item => coordinate len item.value) rows := by
  have hmap : (key.map ListItem.value).map (coordinate len) = key.map fun item => coordinate len item.value :=
    List.map_map
  by_cases hi : IsizeItems key
  · have hi' : ∀ i ∈ key.map ListItem.value, -(2^63) ≤ i ∧ i < 2^63 := List.forall_mem_map.mpr hi
    have hget : a.getItemList key = (do
        let r ← a.takeLeading (key.map ListItem.value)
        .ok (some r)) := by
      rw [getItemList, listIndices_ok hkey hi]
      rfl
    rw [ReadsAs, hget, and_iff_right hi]
    constructor
    · rintro ⟨r, hr, hrows⟩
      obtain ⟨r', htake, he⟩ := bind_eq_ok.mp hr
      cases he
      obtain ⟨hfit, hacc, hshows⟩ := takeLeading_ok ha hs hlen hi' htake
      rw [hmap] at hshows
      exact ⟨hfit, List.forall_mem_map.mp hacc, (showsRows_iff_sameRows hshows).mp hrows⟩
    · rintro ⟨hfit, hacc, hsame⟩
      obtain ⟨r, htake, hshows⟩ := takeLeading_shows ha hs hlen hi' hfit (List.forall_mem_map.mpr hacc)
      rw [hmap] at hshows
      exact ⟨r, bind_eq_ok.mpr ⟨r, htake, rfl⟩, (showsRows_iff_sameRows hshows).mpr hsame⟩
  · -- an item beyond `isize` stops the extraction
    obtain ⟨e, he, -⟩ := listIndices_overflow hkey hi
    refine iff_of_false ?_ fun h => hi h.1
    rintro ⟨r, hr, -⟩
    rw [getItemList, he] at hr
    cases hr

theorem readsAs_none : a.ReadsAs len rest key none ↔
    IsizeItems key ∧ RowsFit t len rest (key.map ListItem.value) ∧ ∃ item ∈ key, ¬ Accepted len item.value := by
  by_cases hi : IsizeItems key
  · have hi' : ∀ i ∈ key.map ListItem.value, -(2^63) ≤ i ∧ i < 2^63 := List.forall_mem_map.mpr hi
    have hrefused := takeLeading_refused ha hs hlen hi'
    have hitems : (∃ i ∈ key.map ListItem.value, ¬ Accepted len i) ↔ ∃ item ∈ key, ¬ Accepted len item.value := by simp
    rw [hitems] at hrefused
    rw [and_iff_right hi, ← hrefused, ReadsAs, getItemList, listIndices_ok hkey hi]
    show (∃ e, (a.takeLeading (key.map ListItem.value) >>= _) = _ ∧ _) ↔ _
    cases a.takeLeading (key.map ListItem.value) with
    | error e => constructor <;> exact fun ⟨_, he, hindex⟩ => ⟨e, rfl, Except.error.inj he ▸ hindex⟩
    | ok r => exact iff_of_false nofun nofun
  · obtain ⟨e, he, hindex⟩ := listIndices_overflow hkey hi
    refine iff_of_false ?_ fun h => hi h.1
    rintro ⟨e', he', hindex'⟩
    rw [getItemList, he] at he'
    exact hindex (Except.error.inj he' ▸ hindex')

/-- Integers follow the rule while they are indices of the code too. -/
theorem readsAs_ints (hmask : ¬ IsMask key) : a.ReadsAs len rest key (numpyRows len key) ↔ a.ListKeyExact len rest key := by
  rw [ListKeyExact, if_neg hmask, numpyRows, if_neg hmask]
  split
  · rename_i hin
    rw [readsAs_some ha hs hlen hkey, and_iff_left (sameRows_refl ..)]
    have hacc : (∀ item ∈ key, Accepted len item.value) ↔ ∀ item ∈ key, item.value < 0 → item.value+len < 2^63 :=
      forall₂_congr fun item hmem => and_iff_right (hin item hmem)
    have hno : ¬ ∃ item ∈ key, ¬ (-(len:ℤ) ≤ item.value ∧ item.value < len) :=
      fun ⟨item, hmem, hout⟩ => hout (hin item hmem)
    rw [hacc, or_iff_right hno, ← and_assoc, and_comm (a := IsizeItems key), and_assoc]
    rfl
  · rename_i hout
    rw [readsAs_none ha hs hlen hkey]
    push Not at hout
    obtain ⟨item, hmem, hrange⟩ := hout
    have hbad : ¬ (-(len:ℤ) ≤ item.value ∧ item.value < len) := fun h => absurd h.2 (not_lt.mpr (hrange h.1))
    have hrefused : ∃ item ∈ key, ¬ Accepted len item.value := ⟨item, hmem, fun h => hbad h.1⟩
    have hleft : (∃ item ∈ key, ¬ (-(len:ℤ) ≤ item.value ∧ item.value < len)) ∨
        ∀ item ∈ key, item.value < 0 → item.value+len < 2^63 := .inl ⟨item, hmem, hbad⟩
    rw [and_iff_left hrefused, and_iff_left hleft, and_comm]
    rfl

omit ha hs hlen hkey in
theorem accepted_of_isMask (hmask : IsMask key) {item : ListItem} (hmem : item ∈ key) :
    Accepted len item.value ↔ item.value < len := by
  have hv := value_of_isMask hmask item hmem
  constructor
  · exact fun h => h.1.2
  · intro hlt
    refine ⟨⟨?_, hlt⟩, ?_⟩ <;> rcases hv with hv | ⟨hv, -⟩ <;> omega

omit ha hs hlen hkey in
/-- Reading row 1 for every item is right for a mask without `False` over equal rows. -/
theorem sameRows_mask (hmask : IsMask key) (heq : key.length = len) :
    ((∀ item ∈ key, Accepted len item.value) ∧
      SameRows a rest (key.map fun item => coordinate len item.value) (positions (fun item => item == .bool true) key)) ↔
      2 ≤ len ∧ (∀ item ∈ key, item.value = 1) ∧
        ∀ k < len, ∀ idx, InRange rest idx → a.at? (k :: idx) = a.at? (1 :: idx) := by
  have hone : coordinate len 1 = 1 := by simp [coordinate]
  constructor
  · rintro ⟨hacc, hcount, hread⟩
    have htrue : ∀ item ∈ key, (item == .bool true) = true :=
      all_of_length_positions (by rw [← hcount, List.length_map])
    have hvalue : ∀ item ∈ key, item.value = 1 := by
      intro item hmem
      rw [eq_of_beq (htrue item hmem)]
      rfl
    refine ⟨?_, hvalue, fun k hk idx hidx => ?_⟩
    · obtain ⟨item, hmem⟩ := List.exists_mem_of_ne_nil key hmask.1
      have hlt := (hacc item hmem).1.2
      rw [hvalue item hmem] at hlt
      omega
    · have hk' : k < key.length := heq ▸ hk
      have h := hread k (by simpa using hk') (by simpa [positions_of_all htrue] using hk') idx hidx
      simp only [positions_of_all htrue, List.getElem_map, List.getElem_range, hvalue _ (List.getElem_mem hk'), hone] at h
      exact h.symm
  · rintro ⟨htwo, hvalue, hrows⟩
    have htrue : ∀ item ∈ key, (item == .bool true) = true := by
      intro item hmem
      rcases value_of_isMask hmask item hmem with hv | ⟨-, rfl⟩
      · rw [hvalue item hmem] at hv
        cases hv
      · rfl
    refine ⟨fun item hmem => ?_, ?_, fun i hi hi' idx hidx => ?_⟩
    · rw [accepted_of_isMask hmask hmem, hvalue item hmem]
      omega
    · rw [positions_of_all htrue, List.length_map, List.length_range]
    · have hk : i < key.length := by simpa using hi
      simp only [positions_of_all htrue, List.getElem_map, List.getElem_range, hvalue _ (List.getElem_mem hk), hone]
      exact (hrows i (heq ▸ hk) idx hidx).symm

/-- A mask is read as the rows 0 and 1. -/
theorem readsAs_mask (hmask : IsMask key) : a.ReadsAs len rest key (numpyRows len key) ↔ a.ListKeyExact len rest key := by
  have hisize : IsizeItems key := by
    intro item hmem
    rcases value_of_isMask hmask item hmem with hv | ⟨hv, -⟩ <;> omega
  rw [ListKeyExact, if_pos hmask, numpyRows, if_pos hmask]
  by_cases heq : key.length = len
  · rw [if_pos heq, readsAs_some ha hs hlen hkey, and_iff_right hisize]
    apply and_congr_right
    intro _
    have hno : ¬ (key.length ≠ len ∧ ∃ item ∈ key, (len:ℤ) ≤ item.value) := fun h => h.1 heq
    rw [or_iff_right hno, and_iff_right heq]
    exact sameRows_mask hmask heq
  · rw [if_neg heq, readsAs_none ha hs hlen hkey, and_iff_right hisize]
    have hno : ¬ (key.length = len ∧ 2 ≤ len ∧ (∀ item ∈ key, item.value = 1) ∧
        ∀ k < len, ∀ idx, InRange rest idx → a.at? (k :: idx) = a.at? (1 :: idx)) := fun h => heq h.1
    rw [or_iff_left hno, and_iff_right heq]
    apply and_congr_right
    intro _
    apply exists_congr
    intro item
    apply and_congr_right
    intro hmem
    rw [accepted_of_isMask hmask hmem, not_lt]

end reads

/-- A list key reads the rows that it means in NumPy, which assignment writes, exactly when it is no
mask and its integers are indices in both, or a mask for which the rows 0 and 1 happen to be right. -/
theorem getItemList_iff (a : NdArray t T) (len : ℕ) (rest : List ℕ) (key : List ListItem) (ha : a.Counted)
    (hs : a.shape = len :: rest) (hlen : len < wordModulus) (hkey : ∀ item ∈ key, item.isInt = true) :
    rowsWritten len key = numpyRows len key ∧
      (a.ReadsAs len rest key (rowsWritten len key) ↔ a.ListKeyExact len rest key) := by
  refine ⟨rowsWritten_eq len key, ?_⟩
  rw [rowsWritten_eq]
  by_cases hmask : IsMask key
  · exact readsAs_mask ha hs hlen hkey hmask
  · exact readsAs_ints ha hs hlen hkey hmask

/-- Three rows of two elements. -/
def ladder : NdArray .float64 ℤ := ⟨⟨[3,2], _, by decide, rfl⟩, [1,2,3,4,5,6]⟩

/-- A list of integers with one bool in it. -/
theorem getItemList_iff_ladder :
    ladder.ReadsAs 3 [2] [.int (-1),.bool true,.int 2] (some [2,1,2]) := by
  have hiff := getItemList_iff ladder 3 [2] [.int (-1),.bool true,.int 2] ⟨by decide, by decide⟩ rfl (by decide) (by decide)
  apply hiff.2.mpr
  refine ⟨by unfold RowsFit; decide, ?_⟩
  rw [if_neg (by decide)]
  exact ⟨by decide, .inr (by decide)⟩

/-- `[True, False, True]` selects the rows 0 and 2, and is read as the rows 1, 0 and 1. -/
theorem mask_read_as_indices :
    ¬ ∀ (a : NdArray .float64 ℤ) (len : ℕ) (rest : List ℕ) (key : List ListItem), a.Counted → a.shape = len :: rest →
      len < wordModulus → (∀ item ∈ key, item.isInt = true) → a.ReadsAs len rest key (numpyRows len key) := by
  intro h
  obtain ⟨r, hr, hrows⟩ := h ladder 3 [2] [.bool true,.bool false,.bool true] ⟨by decide, by decide⟩ rfl
    (by decide) (by decide)
  have hidx : listIndices [.bool true,.bool false,.bool true] = .ok (some [1,0,1]) := rfl
  rw [getItemList, hidx] at hr
  obtain ⟨idx, ⟨⟩, hr⟩ := bind_eq_ok.mp hr
  obtain ⟨r', htake, ⟨⟩⟩ := bind_eq_ok.mp hr
  obtain ⟨-, -, hshows⟩ := takeLeading_ok (a := ladder) ⟨by decide, by decide⟩ rfl (by decide) (by decide) htake
  have hshape := hshows.shape.symm.trans hrows.shape
  exact absurd hshape (by decide)

end NdArray

end LightArray
