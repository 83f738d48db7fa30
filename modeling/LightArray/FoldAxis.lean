import LightArray.Blocks

/-! Folds along one axis (`array.rs`) and the mean built on them (`python.rs`). -/
namespace LightArray
open MachineWord RowMajor

section kernel

variable {T : Type}

/-- `for (a, &x) in acc.iter_mut().zip(row)`: the loop stops with the shorter. -/
def zipInto (f : T → T → T) (acc row : List T) : List T := List.zipWith f acc row ++ acc.drop row.length

/-- The accumulator of a run, with `row[0]` as its seed when there is no other. -/
def foldSeeded (f : T → T → T) : Option T → List T → Except Failure T
  | some v, row => .ok (row.foldl f v)
  | none, x :: rest => .ok (rest.foldl f x)
  | none, [] => .error (.panic "index out of bounds")

/-- An output of the branch for the last axis: one contiguous run. -/
def foldRun (f : T → T → T) (init : Option T) (data : List T) (len o : ℕ) : Except Failure (List T) := do
  let row ← slice data (wrapUsize (o*len)) (wrapUsize ((o+1)*len))
  let acc ← foldSeeded f init row
  .ok [acc]

/-- The loop over the rows `j` of one outer index. -/
def accumulateRows (f : T → T → T) (data : List T) (base inner : ℕ) : List ℕ → List T → Except Failure (List T)
  | [], acc => .ok acc
  | j :: js, acc => do
    let row ← slice data (wrapUsize (base+j*inner)) (wrapUsize (base+(j+1)*inner))
    accumulateRows f data base inner js (zipInto f acc row)

/-- The outputs of the branch for an earlier axis: a whole inner row at a time. -/
def foldRows (f : T → T → T) (init : Option T) (data : List T) (len inner o : ℕ) : Except Failure (List T) :=
  let base := wrapUsize (o*len*inner)
  match init with
  | some v => accumulateRows f data base inner (List.range len) (List.replicate inner v)
  | none => do
    let first ← slice data base (wrapUsize (base+inner))
    accumulateRows f data base inner (List.range' 1 (len-1)) first

/-- What one iteration of the outer loop appends. -/
def foldBlock (f : T → T → T) (init : Option T) (data : List T) (len inner o : ℕ) : Except Failure (List T) :=
  if inner = 1 then foldRun f init data len o else foldRows f init data len inner o

namespace NdArray

/-- Fold along one axis. -/
def foldAxis (f : T → T → T) (init : Option T) (axis : ℤ) (a : NdArray .float64 T) :
    Except Failure (NdArray .float64 T) := do
  let k ← resolveAxis axis a.ndim
  let len := a.shape.getD k 0
  let outer := wrapProduct (a.shape.take k)
  let inner := wrapProduct (a.shape.drop (k+1))
  if init.isNone ∧ len = 0 then
    .error (.array (.message "zero-size array to reduction operation which has no identity"))
  else
    let _ ← withCapacity .float64 (wrapUsize (outer*inner))
    let out ← appendBlocks .float64 (foldBlock f init a.data len inner) (List.range outer) []
    new .float64 out (a.shape.take k ++ a.shape.drop (k+1))

end NdArray

end kernel

/-- The left fold of a lane, seeded by its first element when there is no initial value. -/
def foldLane {T : Type} (f : T → T → T) : Option T → List T → Option T
  | some v, xs => some (xs.foldl f v)
  | none, x :: xs => some (xs.foldl f x)
  | none, [] => none

/-- The elements `xs` at position `q` of the rows of one outer index. -/
def Lane {T : Type} (data : List T) (inner len o q : ℕ) (xs : List T) : Prop :=
  List.Forall₂ (fun l x => data[(o*len+l)*inner+q]? = some x) (List.range len) xs

section blocks

variable {T : Type} {f : T → T → T} {init : Option T} {data : List T} {len inner o base : ℕ}

theorem foldRun_ok (hend : (o+1)*len ≤ data.length) (hfit : data.length < wordModulus)
    (hinit : init = none → len ≠ 0) :
    ∃ xs v, Lane data 1 len o 0 xs ∧ foldLane f init xs = some v ∧ foldRun f init data len o = .ok [v] := by
  have hsplit : (o+1)*len = o*len+len := by ring
  rw [hsplit] at hend
  obtain ⟨row, hrow, hlen, hget⟩ := slice_ok hend
  have hlane : Lane data 1 len o 0 row := by
    rw [Lane, List.forall₂_iff_get]
    refine ⟨by rw [List.length_range, hlen], fun l h₁ h₂ => ?_⟩
    rw [List.length_range] at h₁
    rw [List.get_eq_getElem, List.getElem_range, mul_one, add_zero, ← hget l h₁, List.get_eq_getElem]
    exact List.getElem?_eq_getElem h₂
  have hseed : ∃ v, foldLane f init row = some v ∧ foldSeeded f init row = .ok v := by
    cases init with
    | some v => exact ⟨_, rfl, rfl⟩
    | none =>
      cases row with
      | nil => exact absurd hlen.symm (hinit rfl)
      | cons x rest => exact ⟨_, rfl, rfl⟩
  obtain ⟨v, hv, hok⟩ := hseed
  refine ⟨row, v, hlane, hv, ?_⟩
  rw [foldRun, hsplit, wrapUsize_of_lt (by omega), wrapUsize_of_lt (by omega), hrow]
  show (foldSeeded f init row >>= _) = _
  rw [hok]
  rfl

theorem zipInto_getElem? {acc row : List T} {q : ℕ} {u v : T} (hu : acc[q]? = some u) (hv : row[q]? = some v) :
    (zipInto f acc row)[q]? = some (f u v) := by
  have hlt := (List.getElem?_eq_some_iff.mp hu).1
  have hlt' := (List.getElem?_eq_some_iff.mp hv).1
  rw [zipInto, List.getElem?_append_left (by rw [List.length_zipWith]; omega)]
  exact List.getElem?_zipWith_eq_some.mpr ⟨u, v, hu, hv, rfl⟩

theorem length_zipInto {acc row : List T} (h : row.length = acc.length) : (zipInto f acc row).length = acc.length := by
  rw [zipInto, List.drop_eq_nil_of_le h.ge, List.append_nil, List.length_zipWith, h, min_self]

theorem accumulateRows_ok {js : List ℕ} {acc : List T} (hacc : acc.length = inner)
    (hend : ∀ j ∈ js, base+(j+1)*inner ≤ data.length) (hfit : data.length < wordModulus) :
    ∃ r, accumulateRows f data base inner js acc = .ok r ∧ r.length = inner ∧ ∀ q u, acc[q]? = some u →
      ∃ xs, List.Forall₂ (fun j x => data[base+j*inner+q]? = some x) js xs ∧ r[q]? = some (xs.foldl f u) := by
  induction js generalizing acc with
  | nil => exact ⟨acc, rfl, hacc, fun q u hu => ⟨[], .nil, hu⟩⟩
  | cons j js ih =>
    obtain ⟨hj, hjs⟩ := List.forall_mem_cons.mp hend
    have hsplit : base+(j+1)*inner = base+j*inner+inner := by ring
    rw [hsplit] at hj
    obtain ⟨row, hrow, hlen, hget⟩ := slice_ok hj
    have hnext : (zipInto f acc row).length = inner := by rw [length_zipInto (by omega), hacc]
    obtain ⟨r, hr, hrlen, hrget⟩ := ih hnext hjs
    refine ⟨r, ?_, hrlen, fun q u hu => ?_⟩
    · rw [accumulateRows, hsplit, wrapUsize_of_lt (by omega), wrapUsize_of_lt (by omega), hrow]
      exact hr
    · have hq : q < inner := hacc ▸ (List.getElem?_eq_some_iff.mp hu).1
      have hx : row[q]? = some row[q] := List.getElem?_eq_getElem (by omega)
      obtain ⟨xs, hxs, hfold⟩ := hrget q _ (zipInto_getElem? hu hx)
      exact ⟨row[q] :: xs, .cons (by rw [← hget q hq, hx]) hxs, hfold⟩

theorem foldRows_ok (hend : (o+1)*len*inner ≤ data.length) (hfit : data.length < wordModulus)
    (hinit : init = none → len ≠ 0) :
    ∃ b, foldRows f init data len inner o = .ok b ∧ b.length = inner ∧
      ∀ q < inner, ∃ xs v, Lane data inner len o q xs ∧ foldLane f init xs = some v ∧ b[q]? = some v := by
  have hrow (j : ℕ) (hj : j < len) : o*len*inner+(j+1)*inner ≤ data.length := by
    have hle : (o*len+(j+1))*inner ≤ (o+1)*len*inner := Nat.mul_le_mul_right _ (by rw [Nat.succ_mul]; omega)
    rw [Nat.add_mul] at hle
    omega
  have hbase : o*len*inner ≤ data.length := le_trans (by rw [Nat.succ_mul, Nat.add_mul]; omega) hend
  have hpos (l q : ℕ) : (o*len+l)*inner+q = o*len*inner+l*inner+q := by ring
  simp only [Lane, hpos]
  cases init with
  | some v =>
    have hstart : (List.replicate inner v).length = inner := List.length_replicate
    have hrows : ∀ j ∈ List.range len, o*len*inner+(j+1)*inner ≤ data.length := fun j hj => hrow j (List.mem_range.mp hj)
    obtain ⟨b, hb, hlen, hget⟩ := accumulateRows_ok (f := f) hstart hrows hfit
    refine ⟨b, ?_, hlen, fun q hq => ?_⟩
    · simp only [foldRows]
      rw [wrapUsize_of_lt (by omega), hb]
    · obtain ⟨xs, hxs, hv⟩ := hget q v (List.getElem?_replicate_of_lt hq)
      exact ⟨xs, _, hxs, rfl, hv⟩
  | none =>
    obtain ⟨n, rfl⟩ := Nat.exists_eq_succ_of_ne_zero (hinit rfl)
    have hfirst := hrow 0 (Nat.succ_pos n)
    rw [zero_add, one_mul] at hfirst
    obtain ⟨first, hslice, hflen, hfget⟩ := slice_ok hfirst
    have hrows : ∀ j ∈ List.range' 1 n, o*n.succ*inner+(j+1)*inner ≤ data.length := by
      intro j hj
      rw [List.mem_range'_1] at hj
      exact hrow j (by omega)
    obtain ⟨b, hb, hlen, hget⟩ := accumulateRows_ok (f := f) hflen hrows hfit
    refine ⟨b, ?_, hlen, fun q hq => ?_⟩
    · have hlt : o*n.succ*inner+inner < wordModulus := lt_of_le_of_lt hfirst hfit
      simp only [foldRows, Nat.succ_eq_add_one, Nat.add_sub_cancel]
      rw [wrapUsize_of_lt (lt_of_le_of_lt hbase hfit), wrapUsize_of_lt hlt, hslice]
      exact hb
    · have hx : first[q]? = some first[q] := List.getElem?_eq_getElem (by omega)
      obtain ⟨xs, hxs, hv⟩ := hget q _ hx
      refine ⟨first[q] :: xs, _, ?_, rfl, hv⟩
      rw [List.range_eq_range', List.range'_succ]
      exact .cons (by rw [zero_mul, add_zero, ← hfget q hq, hx]) hxs

/-- Either branch folds every lane of its outer index. -/
theorem foldBlock_ok (hend : (o+1)*len*inner ≤ data.length) (hfit : data.length < wordModulus)
    (hinit : init = none → len ≠ 0) :
    ∃ b, foldBlock f init data len inner o = .ok b ∧ b.length = inner ∧
      ∀ q < inner, ∃ xs v, Lane data inner len o q xs ∧ foldLane f init xs = some v ∧ b[q]? = some v := by
  by_cases h : inner = 1
  · subst h
    rw [mul_one] at hend
    obtain ⟨xs, v, hxs, hv, hrun⟩ := foldRun_ok (f := f) hend hfit hinit
    refine ⟨[v], by rw [foldBlock, if_pos rfl, hrun], rfl, fun q hq => ?_⟩
    obtain rfl : q = 0 := by omega
    exact ⟨xs, v, hxs, hv, rfl⟩
  · obtain ⟨b, hb, hspec⟩ := foldRows_ok (f := f) hend hfit hinit
    exact ⟨b, by rw [foldBlock, if_neg h, hb], hspec⟩

end blocks

namespace NdArray

section spec

variable {T : Type} {f : T → T → T} {init : Option T} {axis : ℤ} {a z : NdArray .float64 T} {s u idx : List ℕ} {len : ℕ}

/-- One block for each outer index, each holding the folds of its lanes. -/
theorem exists_foldBlocks (h : a.Counted) (hs : a.shape = s ++ len :: u) (hinit : init = none → len ≠ 0) :
    ∃ bs : List (List T), List.Forall₂ (fun o b => foldBlock f init a.data len (wrapProduct u) o = .ok b)
        (List.range (wrapProduct s)) bs ∧
      (∀ b ∈ bs, b.length = wrapProduct u) ∧
      ∀ o < wrapProduct s, ∀ q < wrapProduct u, ∃ xs v, Lane a.data (wrapProduct u) len o q xs ∧
        foldLane f init xs = some v ∧ bs[o]?.bind (·[q]?) = some v := by
  have hblock (o : ℕ) (ho : o < wrapProduct s) := foldBlock_ok (f := f) (h.block_end hs ho)
    (h.count ▸ h.prod_lt) hinit
  obtain ⟨bs, hbs⟩ : ∃ bs, List.Forall₂ (fun o b => foldBlock f init a.data len (wrapProduct u) o = .ok b)
      (List.range (wrapProduct s)) bs := by
    apply exists_forall₂
    intro o ho
    obtain ⟨b, hb, -⟩ := hblock o (List.mem_range.mp ho)
    exact ⟨b, hb⟩
  have hat (o : ℕ) (ho : o < wrapProduct s) : ∃ b, bs[o]? = some b ∧ b.length = wrapProduct u ∧
      ∀ q < wrapProduct u, ∃ xs v, Lane a.data (wrapProduct u) len o q xs ∧ foldLane f init xs = some v ∧
        b[q]? = some v := by
    obtain ⟨b, hb, hok⟩ := forall₂_getElem? hbs (List.getElem?_range ho)
    obtain ⟨b', hok', hlen, hspec⟩ := hblock o ho
    rw [hok] at hok'
    cases hok'
    exact ⟨b, hb, hlen, hspec⟩
  refine ⟨bs, hbs, fun b hb => ?_, fun o ho q hq => ?_⟩
  · obtain ⟨o, ho, rfl⟩ := List.getElem_of_mem hb
    have hrange : o < wrapProduct s := by rwa [← hbs.length_eq, List.length_range] at ho
    obtain ⟨b, hb, hlen, -⟩ := hat o hrange
    rw [List.getElem?_eq_getElem ho] at hb
    cases hb
    exact hlen
  · obtain ⟨b, hb, -, hspec⟩ := hat o ho
    obtain ⟨xs, v, hxs, hv, hget⟩ := hspec q hq
    exact ⟨xs, v, hxs, hv, by rw [hb]; exact hget⟩

/-- What the call does once the axis is resolved and the lanes have a seed. -/
theorem foldAxis_eq (hs : a.shape = s ++ len :: u) (hk : resolveAxis axis a.ndim = .ok s.length)
    (hinit : init = none → len ≠ 0) :
    foldAxis f init axis a = (do
      let _ ← withCapacity .float64 (wrapUsize (wrapProduct s*wrapProduct u))
      let out ← appendBlocks .float64 (foldBlock f init a.data len (wrapProduct u)) (List.range (wrapProduct s)) []
      new .float64 out (s ++ u)) := by
  have hguard : ¬ (init.isNone ∧ len = 0) := by
    rintro ⟨hnone, rfl⟩
    exact hinit (Option.isNone_iff_eq_none.mp hnone) rfl
  rw [foldAxis, hk]
  show (if init.isNone ∧ a.shape.getD s.length 0 = 0 then _ else _) = _
  rw [hs, getD_length, List.take_left, drop_length_succ, if_neg hguard]

/-- The outputs one block after another; the call succeeds when they fit. -/
theorem foldAxis_blocks (h : a.Counted) (hs : a.shape = s ++ len :: u) (hk : resolveAxis axis a.ndim = .ok s.length)
    (hinit : init = none → len ≠ 0) :
    ∃ bs : List (List T), bs.length = wrapProduct s ∧ (∀ b ∈ bs, b.length = wrapProduct u) ∧
      (∀ o < wrapProduct s, ∀ q < wrapProduct u, ∃ xs v, Lane a.data (wrapProduct u) len o q xs ∧
        foldLane f init xs = some v ∧ bs[o]?.bind (·[q]?) = some v) ∧
      ∀ z, foldAxis f init axis a = .ok z ↔
        DType.float64.itemsize*(wrapProduct s*wrapProduct u) ≤ isizeMax ∧ z.shape = s ++ u ∧ z.data = bs.flatten := by
  obtain ⟨bs, hbs, hlens, hspec⟩ := exists_foldBlocks (f := f) h hs hinit
  have hcount : bs.length = wrapProduct s := by rw [← hbs.length_eq, List.length_range]
  have hflat : bs.flatten.length = wrapProduct s*wrapProduct u := by rw [length_flatten_uniform hlens, hcount]
  have happend (out : List T) : appendBlocks .float64 (foldBlock f init a.data len (wrapProduct u))
      (List.range (wrapProduct s)) [] = .ok out ↔
        DType.float64.itemsize*(wrapProduct s*wrapProduct u) ≤ isizeMax ∧ out = bs.flatten := by
    rw [appendBlocks_iff (Nat.zero_le _)]
    constructor
    · rintro ⟨bs', hbs', rfl, hfit⟩
      have heq : bs' = bs := List.right_unique_forall₂' (fun _ _ _ h h' => Except.ok.inj (h.symm.trans h')) hbs' hbs
      rw [heq, List.nil_append] at hfit ⊢
      exact ⟨hflat ▸ hfit, rfl⟩
    · rintro ⟨hfit, rfl⟩
      exact ⟨bs, hbs, rfl, by rw [hflat]; exact hfit⟩
  refine ⟨bs, hcount, hlens, hspec, fun z => ?_⟩
  rw [foldAxis_eq hs hk hinit, bind_eq_ok]
  constructor
  · rintro ⟨_, -, hz⟩
    obtain ⟨out, hout, hz⟩ := bind_eq_ok.mp hz
    obtain ⟨hfit, rfl⟩ := (happend out).mp hout
    obtain ⟨hshape, hdata, -⟩ := new_ok hz
    exact ⟨hfit, hshape, hdata⟩
  · rintro ⟨hfit, hshape, hdata⟩
    have hwrap : wrapUsize (wrapProduct s*wrapProduct u) = wrapProduct s*wrapProduct u := by
      apply wrapUsize_of_lt
      exact lt_wordModulus_of_fits hfit
    have hrank : (s ++ u).length ≤ maxNdim := hshape ▸ z.ndim_le
    have hsize : wrapProduct (s ++ u) = bs.flatten.length := by rw [wrapProduct_append, hwrap, hflat]
    obtain ⟨z', hz', hshape', hdata'⟩ := exists_new (t := .float64) hrank hsize
    refine ⟨(), by rw [hwrap, withCapacity_of_le hfit], bind_eq_ok.mpr ⟨_, (happend _).mpr ⟨hfit, rfl⟩, ?_⟩⟩
    rw [hz', ext_shape (hshape'.trans hshape.symm) (hdata'.trans hdata.symm)]

theorem foldAxis_axis_error {e : Failure} (h : resolveAxis axis a.ndim = .error e) : foldAxis f init axis a = .error e := by
  rw [foldAxis, h]
  rfl

theorem foldAxis_no_identity {k : ℕ} (hk : resolveAxis axis a.ndim = .ok k) (hinit : init = none) (hlen : a.shape.getD k 0 = 0) :
    ∃ e, foldAxis f init axis a = .error e := by
  refine ⟨.array (.message "zero-size array to reduction operation which has no identity"), ?_⟩
  rw [foldAxis, hk]
  show (if init.isNone ∧ a.shape.getD k 0 = 0 then _ else _) = _
  rw [if_pos ⟨by rw [hinit]; rfl, hlen⟩]

theorem exists_foldAxis_iff (h : a.Counted) (hs : a.shape = s ++ len :: u)
    (hk : resolveAxis axis a.ndim = .ok s.length) (hinit : init = none → len ≠ 0) :
    (∃ z, foldAxis f init axis a = .ok z) ↔ DType.float64.itemsize*(wrapProduct s*wrapProduct u) ≤ isizeMax := by
  obtain ⟨bs, -, -, -, hiff⟩ := foldAxis_blocks (f := f) h hs hk hinit
  have hrank : (s ++ u).length ≤ maxNdim := by
    have hle := a.ndim_le
    rw [hs] at hle
    simp only [List.length_append, List.length_cons] at hle ⊢
    omega
  exact ⟨fun ⟨z, hz⟩ => ((hiff z).mp hz).1,
    fun hfit => ⟨⟨⟨s ++ u, _, hrank, rfl⟩, bs.flatten⟩, (hiff _).mpr ⟨hfit, rfl, rfl⟩⟩⟩

theorem foldAxis_elements (h : a.Counted) (hs : a.shape = s ++ len :: u) (hk : resolveAxis axis a.ndim = .ok s.length)
    (hinit : init = none → len ≠ 0) (hz : foldAxis f init axis a = .ok z)
    (hfit : DType.float64.itemsize*(s ++ u).prod ≤ isizeMax) :
    z.shape = s ++ u ∧ ∀ idx, InRange (s ++ u) idx → ∃ xs v,
      List.Forall₂ (fun l x => a.at? (idx.insertIdx s.length l) = some x) (List.range len) xs ∧
      foldLane f init xs = some v ∧ z.at? idx = some v := by
  obtain ⟨bs, -, hlens, hspec, hiff⟩ := foldAxis_blocks (f := f) h hs hk hinit
  obtain ⟨-, hshape, hdata⟩ := (hiff z).mp hz
  refine ⟨hshape, fun idx hidx => ?_⟩
  obtain ⟨i, j, rfl, hi, hj⟩ := hidx.split
  have hlt := lt_wordModulus_of_fits hfit
  rw [List.prod_append] at hlt
  have houter : wrapProduct s = s.prod := by
    apply wrapProduct_of_lt
    exact (Nat.le_mul_of_pos_right _ hj.prod_pos).trans_lt hlt
  have hinner : wrapProduct u = u.prod := by
    apply wrapProduct_of_lt
    exact (Nat.le_mul_of_pos_left _ hi.prod_pos).trans_lt hlt
  rw [houter, hinner] at hspec
  rw [hinner] at hlens
  obtain ⟨xs, v, hxs, hv, hget⟩ := hspec (flat s i) (flat_lt hi) (flat u j) (flat_lt hj)
  refine ⟨xs, v, ?_, hv, ?_⟩
  · refine hxs.imp fun l x hx => ?_
    rw [← hi.length_eq, insertIdx_length, at?, hs, flat_insert hi.length_eq]
    exact hx
  · rw [at?, hshape, hdata, flat_append hi.length_eq, getElem?_flatten_uniform hlens (flat_lt hj), hget]

theorem foldAxis_fits (h : a.Counted) (hs : a.shape = s ++ len :: u) (hk : resolveAxis axis a.ndim = .ok s.length)
    (hinit : init = none → len ≠ 0) (hz : foldAxis f init axis a = .ok z)
    (hall : ∀ idx, InRange (s ++ u) idx → ∃ v, z.at? idx = some v) :
    DType.float64.itemsize*(s ++ u).prod ≤ isizeMax := by
  obtain ⟨bs, hcount, hlens, -, hiff⟩ := foldAxis_blocks (f := f) h hs hk hinit
  obtain ⟨hfit, hshape, hdata⟩ := (hiff z).mp hz
  rcases Nat.eq_zero_or_pos (s ++ u).prod with hzero | hpos
  · rw [hzero]
    exact Nat.zero_le _
  · -- the buffer reaches as far as the last element
    have hlast := Nat.sub_one_lt hpos.ne'
    obtain ⟨v, hv⟩ := hall _ (inRange_unflat hlast)
    rw [at?, hshape, flat_unflat hlast] at hv
    have hlt := (List.getElem?_eq_some_iff.mp hv).1
    rw [hdata, length_flatten_uniform hlens, hcount] at hlt
    calc
      DType.float64.itemsize*(s ++ u).prod ≤ DType.float64.itemsize*(wrapProduct s*wrapProduct u) := by
        apply Nat.mul_le_mul_left
        omega
      _ ≤ isizeMax := hfit

end spec

section folds

variable {T : Type}

/-- A fold along an axis fails only for a bad axis or an empty lane without a seed, and is
otherwise the left fold of every lane. -/
structure FoldsAxis (f : T → T → T) (init : Option T) (axis : ℤ) (a : NdArray .float64 T) : Prop where
  fails : (∃ e, foldAxis f init axis a = .error e) ↔ axis < -a.ndim ∨ a.ndim ≤ axis ∨
    init = none ∧ ∃ k, MeansAxis axis a.ndim k ∧ a.shape.getD k 0 = 0
  folds : ∀ z, foldAxis f init axis a = .ok z → ∀ k, MeansAxis axis a.ndim k →
    z.shape = a.shape.eraseIdx k ∧ ∀ idx, InRange (a.shape.eraseIdx k) idx → ∃ xs v,
      List.Forall₂ (fun l x => a.at? (idx.insertIdx k l) = some x) (List.range (a.shape.getD k 0)) xs ∧
      foldLane f init xs = some v ∧ z.at? idx = some v

variable {f : T → T → T} {init : Option T} {axis : ℤ} {a z : NdArray .float64 T} {k : ℕ}

section axis

variable {s u : List ℕ} {len : ℕ}

/-- A fold with an initial value that meets its specification has a buffer for its shape. -/
theorem FoldsAxis.fits (h : FoldsAxis f init axis a) (ha : a.Counted) (hs : a.shape = s ++ len :: u)
    (hk : resolveAxis axis a.ndim = .ok s.length) (hmeans : MeansAxis axis a.ndim s.length) (hinit : init ≠ none) :
    DType.float64.itemsize*(s ++ u).prod ≤ isizeMax := by
  obtain ⟨z, hz⟩ : ∃ z, foldAxis f init axis a = .ok z := by
    cases hz : foldAxis f init axis a with
    | ok z => exact ⟨z, rfl⟩
    | error e =>
      obtain ⟨hlt, hax⟩ := hmeans
      rcases h.fails.mp ⟨e, hz⟩ with hlo | hhi | ⟨hnone, -⟩
      · omega
      · omega
      · exact absurd hnone hinit
  obtain ⟨-, helements⟩ := h.folds z hz s.length hmeans
  rw [hs, eraseIdx_length] at helements
  apply foldAxis_fits ha hs hk (fun hnone => absurd hnone hinit) hz
  intro idx hidx
  obtain ⟨-, v, -, -, hv⟩ := helements idx hidx
  exact ⟨v, hv⟩

/-- Without a seed a lane has elements, so the result is no larger than the array. -/
theorem fold_result_fits (ha : a.Counted) (hs : a.shape = s ++ len :: u) (hinit : init = none → len ≠ 0)
    (hfit : init ≠ none → len = 0 → DType.float64.itemsize*(s ++ u).prod ≤ isizeMax) :
    DType.float64.itemsize*(s ++ u).prod ≤ isizeMax := by
  rcases Nat.eq_zero_or_pos len with hzero | hpos
  · exact hfit (fun hnone => hinit hnone hzero) hzero
  · have hle : (s ++ u).prod ≤ a.shape.prod := by
      rw [hs, List.prod_append, List.prod_append, List.prod_cons]
      apply Nat.mul_le_mul_left
      exact Nat.le_mul_of_pos_left _ hpos
    calc
      DType.float64.itemsize*(s ++ u).prod ≤ DType.float64.itemsize*a.shape.prod := Nat.mul_le_mul_left _ hle
      _ ≤ isizeMax := ha.prod_fits

theorem foldAxis_fails_iff (ha : a.Counted) (hs : a.shape = s ++ len :: u)
    (hk : resolveAxis axis a.ndim = .ok s.length)
    (hfit : init ≠ none → len = 0 → DType.float64.itemsize*(s ++ u).prod ≤ isizeMax) :
    (∃ e, foldAxis f init axis a = .error e) ↔ init = none ∧ len = 0 := by
  constructor
  · rintro ⟨e, he⟩
    by_contra hno
    have hinit (hnone : init = none) : len ≠ 0 := fun hzero => hno ⟨hnone, hzero⟩
    have hfits := fold_result_fits ha hs hinit hfit
    have hprods : wrapProduct s*wrapProduct u = (s ++ u).prod := by
      rw [List.prod_append]
      apply wrapProduct_mul
      rw [← List.prod_append]
      exact lt_wordModulus_of_fits hfits
    obtain ⟨z, hz⟩ := (exists_foldAxis_iff (f := f) ha hs hk hinit).mpr (hprods ▸ hfits)
    rw [hz] at he
    cases he
  · rintro ⟨hnone, hzero⟩
    apply foldAxis_no_identity hk hnone
    rw [hs, getD_length, hzero]

end axis

/-- A fold meets its specification exactly when a result that no lane supplies fits. -/
theorem foldAxis_folds_iff (f : T → T → T) (init : Option T) (axis : ℤ) (a : NdArray .float64 T) (h : a.Counted) :
    FoldsAxis f init axis a ↔ ∀ k, MeansAxis axis a.ndim k → init ≠ none → a.shape.getD k 0 = 0 →
      DType.float64.itemsize*(a.shape.eraseIdx k).prod ≤ isizeMax := by
  rcases axis_cases axis a with ⟨⟨e, he⟩, hout, hno⟩ | ⟨s, len, u, hs, hk, hin, hmeans⟩
  · -- no axis: the call fails, and must
    have herr : foldAxis f init axis a = .error e := foldAxis_axis_error he
    refine ⟨fun _ k hk => absurd hk (hno k), fun _ => ⟨⟨fun _ => ?_, fun _ => ⟨e, herr⟩⟩, fun z hz => ?_⟩⟩
    · exact hout.imp_right .inl
    · rw [herr] at hz
      cases hz
  · -- the axis splits the shape into what comes before and after it
    have haxis : MeansAxis axis a.ndim s.length := (hmeans _).mpr rfl
    simp only [hmeans, forall_eq, hs, eraseIdx_length, getD_length]
    constructor
    · intro hfolds hinit _
      exact hfolds.fits h hs hk haxis hinit
    · intro hfit
      have hfails := foldAxis_fails_iff (f := f) h hs hk hfit
      constructor
      · simp only [hmeans, exists_eq_left, hs, getD_length]
        rw [hfails]
        refine ⟨fun hempty => .inr (.inr hempty), ?_⟩
        rintro (hlo | hhi | hempty)
        · omega
        · omega
        · exact hempty
      · intro z hz
        simp only [hmeans, forall_eq, hs, eraseIdx_length, getD_length]
        have hinit (hnone : init = none) : len ≠ 0 := by
          intro hzero
          obtain ⟨e, he⟩ := hfails.mpr ⟨hnone, hzero⟩
          rw [hz] at he
          cases he
        exact foldAxis_elements h hs hk hinit hz (fold_result_fits h hs hinit hfit)

/-- An array with an empty axis and two whose product does not fit. -/
def wideEmpty : NdArray .float64 ℤ := ⟨⟨[2^62,4,0], _, by decide, rfl⟩, []⟩

/-- The product of the two lengths wraps to 0: the result has their shape and no elements. -/
theorem foldAxis_wraps : wideEmpty.Counted ∧ ¬ FoldsAxis (· + ·) (some 0) 2 wideEmpty := by
  refine ⟨⟨by decide, by decide⟩, fun ⟨_, hfolds⟩ => ?_⟩
  have hz : foldAxis (· + ·) (some 0) 2 wideEmpty = .ok ⟨⟨[2^62,4], _, by decide, rfl⟩, []⟩ := rfl
  obtain ⟨-, helements⟩ := hfolds _ hz 2 ⟨by decide, .inl rfl⟩
  obtain ⟨-, v, -, -, hv⟩ := helements [0,0] (by decide)
  cases hv

/-- Two rows of two. -/
def square : NdArray .float64 ℤ := ⟨⟨[2,2], _, by decide, rfl⟩, [7,5,1,2]⟩

theorem foldAxis_folds_square : FoldsAxis (· - ·) none (-2) square :=
  (foldAxis_folds_iff (· - ·) none (-2) square ⟨by decide, by decide⟩).mpr fun _ _ hinit => absurd rfl hinit

end folds

end NdArray

end LightArray
