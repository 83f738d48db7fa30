import LightArray.Blocks
import LightArray.SelectionSpec
import Mathlib.Data.List.TakeWhile

namespace LightArray
open MachineWord RowMajor

section lists

variable {α β γ : Type} {P : α → β → Prop} {l : List α} {m : List β}

theorem forall₂_mem_right (h : List.Forall₂ P l m) {y : β} (hy : y ∈ m) : ∃ x ∈ l, P x y := by
  induction h with
  | nil => cases hy
  | cons hxy _ ih =>
    rcases List.mem_cons.mp hy with rfl | hy
    · exact ⟨_, List.mem_cons_self, hxy⟩
    · obtain ⟨x, hx, hP⟩ := ih hy
      exact ⟨x, List.mem_cons_of_mem _ hx, hP⟩

theorem forall₂_imp_mem {Q : α → β → Prop} (h : List.Forall₂ P l m) (himp : ∀ x ∈ l, ∀ y, P x y → Q x y) :
    List.Forall₂ Q l m := by
  induction h with
  | nil => exact .nil
  | cons hxy _ ih =>
    exact .cons (himp _ List.mem_cons_self _ hxy) (ih fun x hx => himp x (List.mem_cons_of_mem _ hx))

/-- Entries that each come through a middle value. -/
theorem exists_between {g : β → γ} {Q : α → γ → Prop} {n : List γ} (h : List.Forall₂ Q l n)
    (hmid : ∀ x ∈ l, ∀ z, Q x z → ∃ y, P x y ∧ z = g y) : ∃ m, List.Forall₂ P l m ∧ m.map g = n := by
  induction h with
  | nil => exact ⟨[], .nil, rfl⟩
  | cons hxz _ ih =>
    obtain ⟨y, hP, rfl⟩ := hmid _ List.mem_cons_self _ hxz
    obtain ⟨m, hm, rfl⟩ := ih fun x hx => hmid x (List.mem_cons_of_mem _ hx)
    exact ⟨y :: m, .cons hP hm, rfl⟩

end lists

namespace NdArray

variable {t : DType} {T : Type}

/-- One iteration of `take_leading`: the row at an index. -/
def takeRow (a : NdArray t T) (row : ℕ) (i : ℤ) : Except Failure (List T) := do
  let k ← normalizeIndex (a.shape.headD 0) i 0
  slice a.data (wrapUsize (k*row)) (wrapUsize (wrapUsize (k+1)*row))

/-- `take_leading`. -/
def takeLeading (a : NdArray t T) (indices : List ℤ) : Except Failure (NdArray t T) :=
  if a.ndim = 0 then .error (.array (.tooManyIndices 1 0))
  else do
    let row := (a.dims.dropLeading 1).size
    let _ ← withCapacity t (wrapUsize (indices.length*row))
    let data ← appendBlocks t (a.takeRow row) indices []
    new t data (indices.length :: a.shape.tail)

/-- The row at a position of the leading axis. -/
def rowAt (a : NdArray t T) (k : ℕ) : List T := (a.data.drop (k*a.shape.tail.prod)).take a.shape.tail.prod

variable {a r : NdArray t T} {len : ℕ} {rest : List ℕ} {indices : List ℤ} {ks : List ℕ}

section rows

variable (ha : a.Counted) (hs : a.shape = len :: rest)

include ha hs

theorem Counted.leading_fits : t.itemsize*(len*rest.prod) ≤ isizeMax := by
  have h := ha.prod_fits
  rwa [hs, List.prod_cons] at h

theorem Counted.leading_end {k : ℕ} (hk : k < len) : k*rest.prod+rest.prod ≤ a.data.length := by
  calc
    k*rest.prod+rest.prod = (k+1)*rest.prod := by ring
    _ ≤ len*rest.prod := Nat.mul_le_mul_right _ hk
    _ = a.data.length := by rw [ha.count, hs, List.prod_cons]

theorem length_rowAt {k : ℕ} (hk : k < len) : (a.rowAt k).length = rest.prod := by
  have hend := ha.leading_end hs hk
  rw [rowAt, hs, List.tail_cons, List.length_take, List.length_drop]
  omega

omit ha in
theorem getElem?_rowAt {k q : ℕ} (hq : q < rest.prod) : (a.rowAt k)[q]? = a.data[k*rest.prod+q]? := by
  rw [rowAt, hs, List.tail_cons, List.getElem?_take_of_lt hq, List.getElem?_drop]

/-- A row that exists is not cut by wrapping. -/
theorem row_size {k : ℕ} (hk : k < len) : wrapProduct rest = rest.prod := by
  apply wrapProduct_of_lt
  apply lt_wordModulus_of_fits (t := t)
  calc
    t.itemsize*rest.prod ≤ t.itemsize*(len*rest.prod) :=
      Nat.mul_le_mul_left _ (Nat.le_mul_of_pos_left _ (by omega))
    _ ≤ isizeMax := ha.leading_fits hs

theorem takeRow_iff (hlen : len < wordModulus) {i : ℤ} (hi : -(2^63) ≤ i ∧ i < 2^63) {b : List T} :
    a.takeRow (wrapProduct rest) i = .ok b ↔ ∃ k, normalizeIndex len i 0 = .ok k ∧ b = a.rowAt k := by
  have hrow {k : ℕ} (hk : k < len) :
      slice a.data (wrapUsize (k*wrapProduct rest)) (wrapUsize (wrapUsize (k+1)*wrapProduct rest)) = .ok (a.rowAt k) := by
    have hend := ha.leading_end hs hk
    have hlt : k*rest.prod+rest.prod < wordModulus := hend.trans_lt (lt_wordModulus_of_fits ha.fits)
    have hstart : wrapUsize (k*rest.prod) = k*rest.prod := wrapUsize_of_lt (by omega)
    have hstop : wrapUsize (wrapUsize (k+1)*rest.prod) = k*rest.prod+rest.prod := by
      rw [wrapUsize_of_lt (show k+1 < wordModulus by omega), add_one_mul, wrapUsize_of_lt hlt]
    rw [row_size ha hs hk, hstart, hstop, slice_eq hend, rowAt, hs, List.tail_cons]
  rw [takeRow, hs, List.headD_cons, bind_eq_ok]
  constructor
  · rintro ⟨k, hk, hb⟩
    obtain ⟨hl, hu, rfl⟩ := normalizeIndex_ok hlen hi hk
    rw [hrow (coordinate_lt hl hu)] at hb
    exact ⟨_, hk, (Except.ok.inj hb).symm⟩
  · rintro ⟨k, hk, rfl⟩
    obtain ⟨hl, hu, rfl⟩ := normalizeIndex_ok hlen hi hk
    exact ⟨_, hk, hrow (coordinate_lt hl hu)⟩

theorem length_rows (hk : ∀ k ∈ ks, k < len) : (ks.flatMap a.rowAt).length = ks.length*rest.prod := by
  rw [List.flatMap_def]
  have huniform : ∀ b ∈ ks.map a.rowAt, b.length = rest.prod := by
    intro b hb
    obtain ⟨k, hmem, rfl⟩ := List.mem_map.mp hb
    exact length_rowAt ha hs (hk k hmem)
  rw [length_flatten_uniform huniform, List.length_map]

theorem appendRows_iff (hlen : len < wordModulus) (hi : ∀ i ∈ indices, -(2^63) ≤ i ∧ i < 2^63) {data : List T} :
    appendBlocks t (a.takeRow (wrapProduct rest)) indices [] = .ok data ↔
      ∃ ks, List.Forall₂ (fun i k => normalizeIndex len i 0 = .ok k) indices ks ∧ data = ks.flatMap a.rowAt ∧
        t.itemsize*data.length ≤ isizeMax := by
  rw [appendBlocks_iff (Nat.zero_le _)]
  constructor
  · rintro ⟨bs, hbs, rfl, hfit⟩
    obtain ⟨ks, hks, hrows⟩ := exists_between hbs fun i him b hb => (takeRow_iff ha hs hlen (hi i him)).mp hb
    rw [List.nil_append] at hfit ⊢
    rw [← hrows, ← List.flatMap_def] at hfit ⊢
    exact ⟨ks, hks, rfl, hfit⟩
  · rintro ⟨ks, hks, rfl, hfit⟩
    refine ⟨ks.map a.rowAt, ?_, by rw [List.nil_append, List.flatMap_def], hfit⟩
    rw [List.forall₂_map_right_iff]
    refine forall₂_imp_mem hks fun i him k hk => ?_
    exact (takeRow_iff ha hs hlen (hi i him)).mpr ⟨k, hk, rfl⟩

omit ha hs in
/-- Normalized indices are positions of the axis. -/
theorem lt_of_normalized (hlen : len < wordModulus) (hi : ∀ i ∈ indices, -(2^63) ≤ i ∧ i < 2^63) {ks : List ℕ}
    (hks : List.Forall₂ (fun i k => normalizeIndex len i 0 = .ok k) indices ks) : ∀ k ∈ ks, k < len := by
  intro k hk
  obtain ⟨i, him, hik⟩ := forall₂_mem_right hks hk
  obtain ⟨hl, hu, rfl⟩ := normalizeIndex_ok hlen (hi i him) hik
  exact coordinate_lt hl hu

omit ha in
/-- `take_leading` of an array with an axis, in its three steps. -/
theorem takeLeading_eq : a.takeLeading indices =
    withCapacity t (wrapUsize (indices.length*wrapProduct rest)) >>= fun _ =>
      appendBlocks t (a.takeRow (wrapProduct rest)) indices [] >>= fun data => new t data (indices.length :: rest) := by
  have hdim : a.ndim ≠ 0 := by
    show a.shape.length ≠ 0
    simp [hs]
  have hrow : (a.dims.dropLeading 1).size = wrapProduct rest := by
    show wrapProduct (a.shape.drop 1) = _
    rw [hs, List.drop_one, List.tail_cons]
  rw [takeLeading, if_neg hdim, hrow, hs, List.tail_cons]

theorem exists_takeLeading (hlen : len < wordModulus) (hi : ∀ i ∈ indices, -(2^63) ≤ i ∧ i < 2^63) {ks : List ℕ}
    (hks : List.Forall₂ (fun i k => normalizeIndex len i 0 = .ok k) indices ks)
    (hfit : t.itemsize*(ks.length*rest.prod) ≤ isizeMax) :
    ∃ r, a.takeLeading indices = .ok r ∧ r.shape = ks.length :: rest ∧ r.data = ks.flatMap a.rowAt := by
  have hin := lt_of_normalized hlen hi hks
  have hcount := length_rows ha hs hin
  have hlt : ks.length*rest.prod < wordModulus := lt_wordModulus_of_fits hfit
  have hrank : (indices.length :: rest).length ≤ maxNdim := by
    have h := a.ndim_le
    rwa [hs] at h
  have hcap : withCapacity t (wrapUsize (indices.length*wrapProduct rest)) = .ok () := by
    rw [hks.length_eq]
    cases ks with
    | nil =>
      rw [List.length_nil, zero_mul]
      exact withCapacity_of_le (Nat.zero_le _)
    | cons k ks =>
      rw [row_size ha hs (hin k List.mem_cons_self), wrapUsize_of_lt hlt]
      exact withCapacity_of_le hfit
  have happ : appendBlocks t (a.takeRow (wrapProduct rest)) indices [] = .ok (ks.flatMap a.rowAt) :=
    (appendRows_iff ha hs hlen hi).mpr ⟨ks, hks, rfl, by rwa [hcount]⟩
  have hprod : wrapProduct (indices.length :: rest) = (ks.flatMap a.rowAt).length := by
    rw [hcount, hks.length_eq, wrapProduct_of_lt (by rwa [List.prod_cons]), List.prod_cons]
  obtain ⟨r, hnew, hshape, hdata⟩ := exists_new (t := t) hrank hprod
  refine ⟨r, ?_, by rw [hshape, hks.length_eq], hdata⟩
  rw [takeLeading_eq hs]
  exact bind_eq_ok.mpr ⟨(), hcap, bind_eq_ok.mpr ⟨_, happ, hnew⟩⟩

/-- `take_leading` gives the rows at the indices, when they all are in the axis
and the result is within one allocation. -/
theorem takeLeading_iff (hlen : len < wordModulus) (hi : ∀ i ∈ indices, -(2^63) ≤ i ∧ i < 2^63) :
    a.takeLeading indices = .ok r ↔
      ∃ ks, List.Forall₂ (fun i k => normalizeIndex len i 0 = .ok k) indices ks ∧
        r.shape = ks.length :: rest ∧ r.data = ks.flatMap a.rowAt ∧ t.itemsize*(ks.length*rest.prod) ≤ isizeMax := by
  constructor
  · intro h
    rw [takeLeading_eq hs] at h
    obtain ⟨-, -, h⟩ := bind_eq_ok.mp h
    obtain ⟨data, hdata, hnew⟩ := bind_eq_ok.mp h
    obtain ⟨ks, hks, rfl, hfit⟩ := (appendRows_iff ha hs hlen hi).mp hdata
    obtain ⟨hshape, hdata, -⟩ := new_ok hnew
    rw [length_rows ha hs (lt_of_normalized hlen hi hks)] at hfit
    exact ⟨ks, hks, by rw [hshape, hks.length_eq], hdata, hfit⟩
  · rintro ⟨ks, hks, hshape, hdata, hfit⟩
    obtain ⟨r', hr', hshape', hdata'⟩ := exists_takeLeading ha hs hlen hi hks hfit
    have hr : r = r' := ext_shape (hshape.trans hshape'.symm) (hdata.trans hdata'.symm)
    rw [hr]
    exact hr'

end rows

end NdArray

/-- The exceptions that are an `IndexError` in Python. -/
def Failure.IsIndexError : Failure → Prop
  | .array e => e.exception = .indexError
  | .python kind _ => kind = .indexError
  | .panic _ => False

theorem panic_not_indexError {α : Type} {text : String} :
    ¬ ∃ e, (Except.error (.panic text) : Except Failure α) = .error e ∧ e.IsIndexError := by
  rintro ⟨e, he, hindex⟩
  cases he
  exact hindex

/-- An index that `normalize_index` accepts. -/
def Accepted (len : ℕ) (i : ℤ) : Prop := (-(len:ℤ) ≤ i ∧ i < len) ∧ (i < 0 → i+len < 2^63)

instance (len : ℕ) (i : ℤ) : Decidable (Accepted len i) := inferInstanceAs (Decidable (_ ∧ _))

theorem normalizeIndex_accepted {len axis : ℕ} {i : ℤ} (hlen : len < wordModulus) (hi : -(2^63) ≤ i ∧ i < 2^63)
    (h : Accepted len i) : normalizeIndex len i axis = .ok (coordinate len i) :=
  (normalizeIndex_iff hlen hi).mpr ⟨h.1, h.2, rfl⟩

theorem normalizeIndex_refused {len axis : ℕ} {i : ℤ} (hlen : len < wordModulus) (hi : -(2^63) ≤ i ∧ i < 2^63)
    (h : ¬ Accepted len i) : normalizeIndex len i axis = .error (.array (.indexOutOfBounds i axis len)) := by
  cases hk : normalizeIndex len i axis with
  | ok k =>
    obtain ⟨hin, hpast, -⟩ := (normalizeIndex_iff hlen hi).mp hk
    exact absurd ⟨hin, hpast⟩ h
  | error e =>
    dsimp only [normalizeIndex] at hk
    generalize (if i < 0 then wrapIsize (i+asIsize len) else i) = j at hk
    split at hk
    · cases hk
      rfl
    · cases hk

theorem coordinates_lt {len : ℕ} {indices : List ℤ} (h : ∀ i ∈ indices, Accepted len i) :
    ∀ k ∈ indices.map (coordinate len), k < len := by
  intro k hk
  obtain ⟨i, hmem, rfl⟩ := List.mem_map.mp hk
  exact coordinate_lt (h i hmem).1.1 (h i hmem).1.2

theorem takeWhile_accepted {len : ℕ} {indices : List ℤ} (h : ∀ i ∈ indices, Accepted len i) :
    (indices.takeWhile fun i => Accepted len i) = indices :=
  List.takeWhile_eq_self_iff.mpr fun i hmem => decide_eq_true (h i hmem)

namespace NdArray

variable {t : DType} {T : Type} {a r : NdArray t T} {len : ℕ} {rest ks : List ℕ} {indices : List ℤ}

theorem new_not_indexError {data : List T} {shape : List ℕ} {e : Failure} (h : new t data shape = .error e) :
    ¬ e.IsIndexError := by
  unfold new Dims.checked Dims.withItemsize at h
  split at h
  · simp only [bind, Except.bind] at h
    split at h
    · rename_i hsize
      split at hsize
      · cases hsize
        cases h
        intro hindex
        cases hindex
      · cases hsize
    · cases h
  · cases h
    intro hindex
    cases hindex

/-- The rows before the first index refused are within one allocation, and so is
the capacity asked for. -/
def RowsFit (t : DType) (len : ℕ) (rest : List ℕ) (indices : List ℤ) : Prop :=
  t.itemsize*wrapUsize (indices.length*wrapProduct rest) ≤ isizeMax ∧
    t.itemsize*((indices.takeWhile fun i => Accepted len i).length*rest.prod) ≤ isizeMax

section outcome

variable (ha : a.Counted) (hs : a.shape = len :: rest)

include ha hs

theorem appendRows_refused (hlen : len < wordModulus) (hi : ∀ i ∈ indices, -(2^63) ≤ i ∧ i < 2^63) {out : List T}
    (hout : t.itemsize*out.length ≤ isizeMax) :
    (∃ e, appendBlocks t (a.takeRow (wrapProduct rest)) indices out = .error e ∧ e.IsIndexError) ↔
      t.itemsize*(out.length+(indices.takeWhile fun i => Accepted len i).length*rest.prod) ≤ isizeMax ∧
        ∃ i ∈ indices, ¬ Accepted len i := by
  induction indices generalizing out with
  | nil => simp [appendBlocks]
  | cons i indices ih =>
    obtain ⟨hihead, hitail⟩ := List.forall_mem_cons.mp hi
    rw [appendBlocks]
    by_cases hacc : Accepted len i
    · have hk : normalizeIndex len i 0 = .ok (coordinate len i) := normalizeIndex_accepted hlen hihead hacc
      have hrow := (takeRow_iff ha hs hlen hihead).mpr ⟨_, hk, rfl⟩
      have hrowlen := length_rowAt ha hs (coordinate_lt hacc.1.1 hacc.1.2)
      rw [hrow, List.takeWhile_cons_of_pos (by simpa using hacc), List.length_cons]
      show (∃ e, (withCapacity t _ >>= _) = _ ∧ _) ↔ _
      have hsplit : out.length+((indices.takeWhile fun i => Accepted len i).length+1)*rest.prod =
          out.length+rest.prod+(indices.takeWhile fun i => Accepted len i).length*rest.prod := by ring
      rw [hrowlen, hsplit]
      by_cases hfit : t.itemsize*(out.length+rest.prod) ≤ isizeMax
      · have hnext : t.itemsize*(out ++ a.rowAt (coordinate len i)).length ≤ isizeMax := by
          rwa [List.length_append, hrowlen]
        have hrec := ih hitail hnext
        rw [List.length_append, hrowlen] at hrec
        rw [withCapacity_of_le hfit]
        simp only [List.mem_cons, exists_eq_or_imp, hacc, not_true, false_or]
        exact hrec
      · -- the vector cannot grow: no later index is looked at
        have hmore : ¬ t.itemsize*(out.length+rest.prod+(indices.takeWhile fun i => Accepted len i).length*rest.prod) ≤
            isizeMax := fun h => hfit ((Nat.mul_le_mul_left _ (Nat.le_add_right ..)).trans h)
        rw [withCapacity_panics hfit]
        exact iff_of_false panic_not_indexError fun h => hmore h.1
    · have hk : normalizeIndex len i 0 = .error (.array (.indexOutOfBounds i 0 len)) :=
        normalizeIndex_refused hlen hihead hacc
      have hrow : a.takeRow (wrapProduct rest) i = .error (.array (.indexOutOfBounds i 0 len)) := by
        rw [takeRow, hs, List.headD_cons, hk]
        rfl
      rw [hrow, List.takeWhile_cons_of_neg (by simpa using hacc), List.length_nil, zero_mul, add_zero]
      exact iff_of_true ⟨_, rfl, rfl⟩ ⟨hout, i, List.mem_cons_self, hacc⟩

/-- `take_leading` raises an `IndexError` when it meets an index out of range. -/
theorem takeLeading_refused (hlen : len < wordModulus) (hi : ∀ i ∈ indices, -(2^63) ≤ i ∧ i < 2^63) :
    (∃ e, a.takeLeading indices = .error e ∧ e.IsIndexError) ↔
      RowsFit t len rest indices ∧ ∃ i ∈ indices, ¬ Accepted len i := by
  have happ := appendRows_refused ha hs hlen hi (show t.itemsize*([] : List T).length ≤ isizeMax from Nat.zero_le _)
  rw [List.length_nil, zero_add] at happ
  rw [takeLeading_eq hs]
  by_cases hcap : t.itemsize*wrapUsize (indices.length*wrapProduct rest) ≤ isizeMax
  · rw [withCapacity_of_le hcap, RowsFit, and_iff_right hcap, ← happ]
    show (∃ e, (appendBlocks t (a.takeRow (wrapProduct rest)) indices [] >>= _) = _ ∧ _) ↔ _
    cases hblocks : appendBlocks t (a.takeRow (wrapProduct rest)) indices [] with
    | error e => constructor <;> exact fun ⟨_, he, hindex⟩ => ⟨e, rfl, Except.error.inj he ▸ hindex⟩
    | ok data =>
      refine iff_of_false ?_ nofun
      rintro ⟨e, he, hindex⟩
      exact new_not_indexError he hindex
  · rw [withCapacity_panics hcap]
    exact iff_of_false panic_not_indexError fun h => hcap h.1.1

/-- The array of the rows at the positions `ks`. -/
structure ShowsRows (a : NdArray t T) (len : ℕ) (rest ks : List ℕ) (r : NdArray t T) : Prop where
  shape : r.shape = ks.length :: rest
  count : r.data.length = r.shape.prod
  elements : ∀ i (h : i < ks.length) idx, InRange rest idx → r.at? (i :: idx) = a.at? (ks[i] :: idx)

theorem showsRows_of_data (hk : ∀ k ∈ ks, k < len) (hshape : r.shape = ks.length :: rest)
    (hdata : r.data = ks.flatMap a.rowAt) : ShowsRows a len rest ks r := by
  refine ⟨hshape, ?_, fun i hi idx hidx => ?_⟩
  · rw [hshape, List.prod_cons, hdata, length_rows ha hs hk]
  · have huniform : ∀ b ∈ ks.map a.rowAt, b.length = rest.prod := by
      intro b hb
      obtain ⟨k, hmem, rfl⟩ := List.mem_map.mp hb
      exact length_rowAt ha hs (hk k hmem)
    rw [at?, at?, hshape, hs, hdata, flat, flat, List.flatMap_def, getElem?_flatten_uniform huniform (flat_lt hidx),
      List.getElem?_map, List.getElem?_eq_getElem hi, Option.map_some, Option.bind_some, getElem?_rowAt hs (flat_lt hidx)]

/-- Otherwise it shows the rows, when they fit. -/
theorem takeLeading_shows (hlen : len < wordModulus) (hi : ∀ i ∈ indices, -(2^63) ≤ i ∧ i < 2^63)
    (hfit : RowsFit t len rest indices) (hacc : ∀ i ∈ indices, Accepted len i) :
    ∃ r, a.takeLeading indices = .ok r ∧ ShowsRows a len rest (indices.map (coordinate len)) r := by
  have hk := coordinates_lt hacc
  have htake := takeWhile_accepted hacc
  have hsize : t.itemsize*((indices.map (coordinate len)).length*rest.prod) ≤ isizeMax := by
    have h := hfit.2
    rwa [htake, ← List.length_map (coordinate len)] at h
  have hcount := length_rows ha hs hk
  have hrank : ((indices.map (coordinate len)).length :: rest).length ≤ maxNdim := by
    have h := a.ndim_le
    rwa [hs] at h
  have hprod : wrapProduct ((indices.map (coordinate len)).length :: rest) =
      ((indices.map (coordinate len)).flatMap a.rowAt).length := by
    rw [hcount, wrapProduct_of_lt, List.prod_cons]
    rw [List.prod_cons]
    exact lt_wordModulus_of_fits hsize
  obtain ⟨r, -, hshape, hdata⟩ := exists_new (t := t) hrank hprod
  refine ⟨r, (takeLeading_iff ha hs hlen hi).mpr ⟨_, ?_, hshape, hdata, hsize⟩, showsRows_of_data ha hs hk hshape hdata⟩
  rw [List.forall₂_map_right_iff, List.forall₂_same]
  exact fun i hmem => normalizeIndex_accepted hlen (hi i hmem) (hacc i hmem)

theorem takeLeading_ok (hlen : len < wordModulus) (hi : ∀ i ∈ indices, -(2^63) ≤ i ∧ i < 2^63)
    (h : a.takeLeading indices = .ok r) :
    RowsFit t len rest indices ∧ (∀ i ∈ indices, Accepted len i) ∧
      ShowsRows a len rest (indices.map (coordinate len)) r := by
  obtain ⟨ks, hks, hshape, hdata, hsize⟩ := (takeLeading_iff ha hs hlen hi).mp h
  have hacc : ∀ i ∈ indices, Accepted len i := by
    intro i hmem
    by_contra hno
    obtain ⟨k, hk⟩ : ∃ k, normalizeIndex len i 0 = .ok k := by
      obtain ⟨n, hn, rfl⟩ := List.getElem_of_mem hmem
      exact ⟨_, hks.get hn (hks.length_eq ▸ hn)⟩
    rw [normalizeIndex_refused hlen (hi i hmem) hno] at hk
    cases hk
  have heq : ks = indices.map (coordinate len) := by
    apply List.right_unique_forall₂' (R := fun i k => normalizeIndex len i 0 = .ok k) ?_ hks ?_
    · exact fun _ _ _ h h' => Except.ok.inj (h.symm.trans h')
    · rw [List.forall₂_map_right_iff, List.forall₂_same]
      exact fun i hmem => normalizeIndex_accepted hlen (hi i hmem) (hacc i hmem)
  have hk : ∀ k ∈ ks, k < len := heq ▸ coordinates_lt hacc
  have htake := takeWhile_accepted hacc
  refine ⟨⟨?_, ?_⟩, hacc, heq ▸ showsRows_of_data ha hs hk hshape hdata⟩
  · rw [hks.length_eq]
    cases ks with
    | nil =>
      rw [List.length_nil, zero_mul]
      exact Nat.zero_le _
    | cons k ks =>
      rw [row_size ha hs (hk k List.mem_cons_self), wrapUsize_of_lt (lt_wordModulus_of_fits hsize)]
      exact hsize
  · rw [htake, hks.length_eq]
    exact hsize

end outcome

end NdArray

end LightArray
