import LightArray.Concatenate
import LightArray.FoldAxis
import LightArray.Reshape
import LightArray.Transpose

namespace LightArray
open MachineWord RowMajor

section lists

variable {α β : Type}

/-- Every position below a sum of lengths lies in one of the parts. -/
theorem exists_part {parts : List α} (f : α → ℕ) {v : ℕ} (h : v < (parts.map f).sum) :
    ∃ pre p post, parts = pre ++ p :: post ∧ ∃ r < f p, v = r+(pre.map f).sum := by
  induction parts generalizing v with
  | nil => exact absurd h (Nat.not_lt_zero v)
  | cons p ps ih =>
    rw [List.map_cons, List.sum_cons] at h
    rcases lt_or_ge v (f p) with hv | hv
    · exact ⟨[], p, ps, rfl, v, hv, rfl⟩
    · obtain ⟨pre, q, post, rfl, r, hr, hpos⟩ := ih (v := v-f p) (by omega)
      refine ⟨p :: pre, q, post, rfl, r, hr, ?_⟩
      rw [List.map_cons, List.sum_cons]
      omega

theorem forall₂_split {R : α → β → Prop} {pre post : List α} {p : α} {l : List β} (h : List.Forall₂ R (pre ++ p :: post) l) :
    ∃ pre' q post', l = pre' ++ q :: post' ∧ List.Forall₂ R pre pre' ∧ R p q := by
  induction pre generalizing l with
  | nil =>
    cases h with
    | cons hq _ => exact ⟨[], _, _, rfl, .nil, hq⟩
  | cons a pre ih =>
    cases h with
    | cons ha hrest =>
      obtain ⟨pre', q, post', rfl, hpre, hq⟩ := ih hrest
      exact ⟨_ :: pre', q, post', rfl, .cons ha hpre, hq⟩

end lists

namespace NdArray

variable {t : DType} {T : Type} {parts parts' : List (NdArray t T)} {p q first z : NdArray t T} {axis : ℤ} {s u : List ℕ}

theorem transposed_of_ok (hp : p.Counted) (h : transpose p = .ok q) : Transposed p q := by
  obtain ⟨q', hq', ht⟩ := transpose_transposed hp
  exact Except.ok.inj (hq'.symm.trans h) ▸ ht

theorem alike_append (s u : List ℕ) (d e : ℕ) : Alike s.length (s ++ d :: u) (s ++ e :: u) := by
  refine ⟨by simp, fun j hj => ?_⟩
  rcases lt_or_gt_of_ne hj with hlt | hgt
  · rw [List.getElem?_append_left hlt, List.getElem?_append_left hlt]
  · obtain ⟨n, rfl⟩ := Nat.exists_eq_add_of_lt hgt
    rw [List.getElem?_append_right (by omega), List.getElem?_append_right (by omega)]
    have hpos : s.length+n+1-s.length = n+1 := by omega
    rw [hpos, List.getElem?_cons_succ, List.getElem?_cons_succ]

theorem ndim_split {d : ℕ} (hs : p.shape = s ++ d :: u) : p.ndim = s.length+1+u.length := by
  change p.shape.length = _
  rw [hs, List.length_append, List.length_cons]
  omega

theorem meansAxis_mirror {n k m : ℕ} (hk : MeansAxis axis n k) (hn : n = k+1+m) : MeansAxis (-1-axis) n m := by
  obtain ⟨hlt, haxis⟩ := hk
  exact ⟨by omega, by omega⟩

/-- The same arrays, each with its axes reversed. -/
abbrev AllTransposed (parts parts' : List (NdArray t T)) : Prop := List.Forall₂ Transposed parts parts'

theorem AllTransposed.symm (hcounted : ∀ p ∈ parts, p.Counted) (h : AllTransposed parts parts') : AllTransposed parts' parts := by
  induction h with
  | nil => exact .nil
  | cons hp _ ih =>
    obtain ⟨hc, hcs⟩ := List.forall_mem_cons.mp hcounted
    exact .cons (hp.symm hc) (ih hcs)

theorem AllTransposed.counted (h : AllTransposed parts parts') : ∀ q ∈ parts', q.Counted := by
  induction h with
  | nil => exact fun _ hq => absurd hq List.not_mem_nil
  | cons hp _ ih => exact List.forall_mem_cons.mpr ⟨hp.counted, ih⟩

theorem Transposed.axisLen_eq (h : Transposed p q) (hs : p.shape = s ++ p.axisLen s.length :: u) :
    q.shape = u.reverse ++ p.axisLen s.length :: s.reverse ∧ q.axisLen u.length = p.axisLen s.length := by
  have hshape : q.shape = u.reverse ++ p.axisLen s.length :: s.reverse := by
    rw [h.shape, hs, List.reverse_append, List.reverse_cons, List.append_assoc, List.singleton_append]
  have hu : u.length = u.reverse.length := List.length_reverse.symm
  exact ⟨hshape, by rw [axisLen, hshape, hu, getD_length]⟩

theorem Transposed.length_data (hp : p.Counted) (h : Transposed p q) : q.data.length = p.data.length := by
  rw [h.counted.count, h.shape, List.prod_reverse, hp.count]

section split

variable (h : AllTransposed parts parts') (hs : ∀ p ∈ parts, p.shape = s ++ p.axisLen s.length :: u)

include h hs

theorem AllTransposed.axisLens : parts'.map (axisLen u.length) = parts.map (axisLen s.length) := by
  induction h with
  | nil => rfl
  | cons hp _ ih =>
    obtain ⟨hps, hrest⟩ := List.forall_mem_cons.mp hs
    rw [List.map_cons, List.map_cons, ih hrest, (hp.axisLen_eq hps).2]

theorem AllTransposed.shapes : ∀ q ∈ parts', q.shape = u.reverse ++ q.axisLen u.length :: s.reverse := by
  induction h with
  | nil => exact fun _ hq => absurd hq List.not_mem_nil
  | cons hp _ ih =>
    obtain ⟨hps, hrest⟩ := List.forall_mem_cons.mp hs
    obtain ⟨hshape, hlen⟩ := hp.axisLen_eq hps
    exact List.forall_mem_cons.mpr ⟨by rw [hlen, hshape], ih hrest⟩

end split

theorem AllTransposed.lengths (hcounted : ∀ p ∈ parts, p.Counted) (h : AllTransposed parts parts') :
    (parts'.map fun q => q.data.length) = parts.map fun p => p.data.length := by
  induction h with
  | nil => rfl
  | cons hp _ ih =>
    obtain ⟨hc, hcs⟩ := List.forall_mem_cons.mp hcounted
    rw [List.map_cons, List.map_cons, ih hcs, hp.length_data hc]

/-- What is joined along an axis can be joined transposed along the mirrored one. -/
theorem AllTransposed.not_refused (h : AllTransposed parts parts') (hno : ¬ Refused parts axis) :
    ¬ Refused parts' (-1-axis) := by
  obtain ⟨first, s, d, u, hhead, hs, hk, hmeans, halike⟩ := NdArray.not_refused hno
  have hshapes : ∀ p ∈ parts, p.shape = s ++ p.axisLen s.length :: u := fun p hp => (hs ▸ halike p hp).eq_append
  obtain ⟨rest, rfl⟩ := List.head?_eq_some_iff.mp hhead
  have hqs := h.shapes hshapes
  cases h with
  | @cons _ q _ rest' hq hrest =>
    have hndim : q.ndim = first.ndim := by
      change q.shape.length = first.shape.length
      rw [hq.shape, List.length_reverse]
    have hmeans' : MeansAxis (-1-axis) q.ndim u.length :=
      hndim ▸ meansAxis_mirror ((hmeans _).mpr rfl) (ndim_split hs)
    refine not_refused_of rfl hmeans' fun q' hq' => ?_
    have hulen : u.reverse.length = u.length := List.length_reverse
    rw [hqs q' hq', hqs q List.mem_cons_self, ← hulen]
    exact alike_append _ _ _ _

/-- The lengths along an axis add up to a `usize`, and the elements fit in a buffer. -/
def JoinFits (parts : List (NdArray t T)) (axis : ℤ) : Prop :=
  ∀ first k, parts.head? = some first → MeansAxis axis first.ndim k →
    (parts.map (axisLen k)).sum < wordModulus ∧ t.itemsize*(parts.map fun p => p.data.length).sum ≤ isizeMax

/-- The elements of two joins, one of the arrays and one of the transposed arrays. -/
theorem Joins.transposed {z' : NdArray t T} (hcounted : ∀ p ∈ parts, p.Counted) (h : AllTransposed parts parts')
    (hno : ¬ Refused parts axis) (hjoins : Joins parts axis) (hjoins' : Joins parts' (-1-axis))
    (hz : concatenate parts axis = .ok z) (hz' : concatenate parts' (-1-axis) = .ok z')
    (hfits : t.itemsize*(parts.map fun p => p.data.length).sum ≤ isizeMax) : z.Counted ∧ Transposed z z' := by
  obtain ⟨first, s, d, u, hhead, hs, -, hmeans, halike⟩ := NdArray.not_refused hno
  obtain ⟨first', s', d', u', hhead', hs', -, hmeans', -⟩ := NdArray.not_refused (h.not_refused hno)
  have hshapes : ∀ p ∈ parts, p.shape = s ++ p.axisLen s.length :: u := fun p hp => (hs ▸ halike p hp).eq_append
  have hshapes' := h.shapes hshapes
  have hlens := h.axisLens hshapes
  have hus : u.length = u.reverse.length := List.length_reverse.symm
  have hfirst' : first'.shape = u.reverse ++ first'.axisLen u.length :: s.reverse :=
    hshapes' first' (List.mem_of_head? hhead')
  have hmean : MeansAxis axis first.ndim s.length := (hmeans _).mpr rfl
  have hndim : first'.ndim = first.ndim := by
    rw [ndim_split hs, ndim_split hfirst', List.length_reverse, List.length_reverse]
    omega
  have hmean' : MeansAxis (-1-axis) first'.ndim u.length := hndim ▸ meansAxis_mirror hmean (ndim_split hs)
  obtain ⟨hzshape, hzlen, hzel⟩ := hjoins.joins z first s.length hz hhead hmean
  obtain ⟨hzshape', hzlen', hzel'⟩ := hjoins'.joins z' first' u.length hz' hhead' hmean'
  rw [hs, set_length] at hzshape
  rw [hfirst', hus, set_length, ← hus, hlens] at hzshape'
  have hrev : z'.shape = z.shape.reverse := by
    rw [hzshape', hzshape, List.reverse_append, List.reverse_cons, List.append_assoc, List.singleton_append]
  have hsize : z.data.length = (parts.map fun p => p.data.length).sum := by
    rw [hzlen, hzshape, List.prod_append, List.prod_cons,
      sum_data_length fun p hp => ⟨hcounted p hp, hshapes p hp⟩]
  have hzc : z.Counted := ⟨hzlen, by rw [hsize]; exact hfits⟩
  have hzc' : z'.Counted := by
    have hlen : z'.data.length = z.data.length := by rw [hzlen', hrev, List.prod_reverse, hzlen]
    exact ⟨hzlen', by rw [hlen]; exact hzc.fits⟩
  refine ⟨hzc, hrev, hzc', fun idx hidx => ?_⟩
  rw [← hrev, hzshape'] at hidx
  obtain ⟨j, vs, rfl, hj, hvs⟩ := hidx.split
  obtain ⟨v, i, rfl, hv, hi⟩ := hvs.cases_cons
  obtain ⟨pre, p, post, rfl, r, hr, rfl⟩ := exists_part (axisLen s.length) hv
  obtain ⟨pre', q, post', rfl, hpre, hq⟩ := forall₂_split h
  have hp : p ∈ pre ++ p :: post := by simp
  have hqlen := (hq.axisLen_eq (hshapes p hp)).2
  have hpreLens : pre'.map (axisLen u.length) = pre.map (axisLen s.length) :=
    AllTransposed.axisLens hpre fun x hx => hshapes x (List.mem_append_left _ hx)
  have hqin : InRange q.shape (j ++ r :: i) := by
    rw [hshapes' q (by simp), hqlen]
    exact hj.append (inRange_cons.mpr ⟨hr, hi⟩)
  have hpin : InRange p.shape (i.reverse ++ r :: j.reverse) := by
    have hback := hqin.reverse
    rwa [hq.shape, List.reverse_reverse, List.reverse_append, List.reverse_cons, List.append_assoc,
      List.singleton_append] at hback
  have hjlen : j.length = u.length := hj.length_eq.trans List.length_reverse
  have hilen : i.reverse.length = s.length := List.length_reverse.trans (hi.length_eq.trans List.length_reverse)
  have hread := hzel pre p post rfl _ hpin
  have hread' := hzel' pre' q post' rfl _ hqin
  rw [← hilen, modify_length, hilen] at hread
  rw [← hjlen, modify_length, hjlen, hpreLens] at hread'
  have hmirror : (j ++ r :: i).reverse = i.reverse ++ r :: j.reverse := by
    rw [List.reverse_append, List.reverse_cons, List.append_assoc, List.singleton_append]
  calc z'.at? (j ++ (r+(pre.map (axisLen s.length)).sum) :: i)
      = q.at? (j ++ r :: i) := hread'
    _ = p.at? (j ++ r :: i).reverse := hq.elements _ (hq.shape ▸ hqin)
    _ = z.at? (i.reverse ++ (r+(pre.map (axisLen s.length)).sum) :: j.reverse) := by rw [hmirror, hread]
    _ = z.at? (j ++ (r+(pre.map (axisLen s.length)).sum) :: i).reverse := by
      rw [List.reverse_append, List.reverse_cons, List.append_assoc, List.singleton_append]

/-- Joining transposed arrays along the mirrored axis gives the transposed join, and one of
the two calls fails exactly when the other does. -/
theorem concatenate_transpose (axis : ℤ) (hcounted : ∀ p ∈ parts, p.Counted)
    (hparts : List.Forall₂ (fun p q => transpose p = .ok q) parts parts') (hfits : JoinFits parts axis) :
    (∀ z, concatenate parts axis = .ok z → ∃ y, transpose z = .ok y ∧ concatenate parts' (-1-axis) = .ok y) ∧
      ∀ e, concatenate parts axis = .error e → ∃ e', concatenate parts' (-1-axis) = .error e' := by
  have h : AllTransposed parts parts' := by
    clear hfits
    induction hparts with
    | nil => exact .nil
    | cons hp _ ih =>
      obtain ⟨hc, hcs⟩ := List.forall_mem_cons.mp hcounted
      exact .cons (transposed_of_ok hc hp) (ih hcs)
  by_cases href : Refused parts axis
  · obtain ⟨e, he⟩ := refused_error href
    have href' : Refused parts' (-1-axis) := by
      by_contra hno
      have hback := (h.symm hcounted).not_refused hno
      rw [show -1-(-1-axis) = axis by ring] at hback
      exact hback href
    refine ⟨fun z hz => ?_, fun _ _ => refused_error href'⟩
    rw [he] at hz
    cases hz
  · obtain ⟨first, s, d, u, hhead, hs, -, hmeans, halike⟩ := NdArray.not_refused href
    have hshapes : ∀ p ∈ parts, p.shape = s ++ p.axisLen s.length :: u := fun p hp => (hs ▸ halike p hp).eq_append
    obtain ⟨hsum, hsize⟩ := hfits first s.length hhead ((hmeans _).mpr rfl)
    have hjoins : Joins parts axis := (concatenate_joins_iff hcounted).mpr fun _ first k hf hk => hfits first k hf hk
    have hjoins' : Joins parts' (-1-axis) := by
      refine (concatenate_joins_iff h.counted).mpr fun hno first' k hhead' hk => ?_
      have hfirst' := h.shapes hshapes first' (List.mem_of_head? hhead')
      have hk' : k = u.length := by
        have hrank := ndim_split hs
        have hrank' := ndim_split hfirst'
        rw [List.length_reverse, List.length_reverse] at hrank'
        obtain ⟨hlt, haxis⟩ := (hmeans _).mpr rfl
        obtain ⟨hlt', haxis'⟩ := hk
        omega
      rw [hk', h.axisLens hshapes, h.lengths hcounted]
      exact ⟨hsum, hsize⟩
    have hok (x : List (NdArray t T)) (ax : ℤ) (hj : Joins x ax) (hno : ¬ Refused x ax) : ∃ z, concatenate x ax = .ok z := by
      cases hz : concatenate x ax with
      | ok z => exact ⟨z, rfl⟩
      | error e => exact absurd (hj.fails.mp ⟨e, hz⟩) hno
    constructor
    · intro z hz
      obtain ⟨z', hz'⟩ := hok parts' _ hjoins' (h.not_refused href)
      obtain ⟨hzc, ht⟩ := hjoins.transposed hcounted h href hjoins' hz hz' hsize
      obtain ⟨y, hy, hyt⟩ := transpose_transposed hzc
      exact ⟨y, hy, by rw [hyt.unique ht, hz']⟩
    · intro e he
      exact absurd (hjoins.fails.mp ⟨e, he⟩) href

theorem concatenate_transpose_planes : ∃ y z, transpose planes = .ok z ∧ concatenate [z, z] (-2) = .ok y := by
  obtain ⟨z, hz, -⟩ := transpose_transposed (a := planes) ⟨by decide, by decide⟩
  obtain ⟨w, hw⟩ : ∃ w, concatenate [planes, planes] 1 = .ok w := ⟨_, rfl⟩
  have hcounted : ∀ p ∈ [planes, planes], p.Counted :=
    List.forall_mem_cons.mpr ⟨⟨by decide, by decide⟩, List.forall_mem_singleton.mpr ⟨by decide, by decide⟩⟩
  have hfits : JoinFits [planes, planes] 1 := by
    rintro first k hhead ⟨hlt, haxis⟩
    obtain rfl : planes = first := Option.some.inj hhead
    have hrank : planes.ndim = 3 := rfl
    obtain rfl : k = 1 := by omega
    exact ⟨by decide, by decide⟩
  obtain ⟨y, -, hy⟩ := (concatenate_transpose 1 hcounted (.cons hz (.cons hz .nil)) hfits).1 w hw
  exact ⟨y, z, hz, hy⟩

end NdArray

namespace AnyArray

variable {F : Type}

/-- `a.reshape(...)` as a value. -/
def reshapeArgs (a : AnyArray F) (raw : List ℤ) : Except Failure (AnyArray F) := do
  let shape ← extractShapeArgs a.inner.data.length raw
  a.reshape shape

/-- `atleast_1d` of one array. -/
def atleast1d (a : AnyArray F) : Except Failure (AnyArray F) := if 1 ≤ a.ndim then .ok a else a.reshapeArgs [1]

/-- `atleast_2d` of one array. -/
def atleast2d (a : AnyArray F) : Except Failure (AnyArray F) :=
  if a.ndim = 0 then a.reshapeArgs [1,1] else if a.ndim = 1 then a.reshapeArgs [1,-1] else .ok a

/-- The array `column_stack` appends for `a`. -/
def asColumn (a : AnyArray F) : Except Failure (AnyArray F) := if a.ndim < 2 then a.reshapeArgs [-1,1] else .ok a

/-- `[f(a) for a in tup]`. -/
def eachPart (f : AnyArray F → Except Failure (AnyArray F)) : List (AnyArray F) → Except Failure (List (AnyArray F))
  | [] => .ok []
  | a :: tup => do
    let b ← f a
    let rest ← eachPart f tup
    .ok (b :: rest)

/-- `concatenate(arrays, axis)` of `lib.rs`; none is left to NumPy. -/
def joinArrays (arrays : List (AnyArray F)) (axis : ℤ) : Except Failure (Option (AnyArray F)) :=
  if arrays = [] then .ok none else concatenate arrays axis

def hstack (tup : List (AnyArray F)) : Except Failure (Option (AnyArray F)) := do
  let arrs ← eachPart atleast1d tup
  joinArrays arrs (if arrs.head?.map ndim = some 1 then 0 else 1)

def vstack (tup : List (AnyArray F)) : Except Failure (Option (AnyArray F)) := do
  let arrs ← eachPart atleast2d tup
  joinArrays arrs 0

def columnStack (tup : List (AnyArray F)) : Except Failure (Option (AnyArray F)) := do
  let arrs ← eachPart asColumn tup
  joinArrays arrs 1

variable {t : DType} {p q : NdArray t (Elem F t)} {parts parts' arrs arrs' : List (NdArray t (Elem F t))}

theorem reshapeArgs_ok {raw : List ℤ} {shape : List ℕ} (hp : p.Counted) (hraw : extractShapeArgs p.data.length raw = .ok shape)
    (hlen : shape.length ≤ maxNdim) (hprod : shape.prod = p.data.length) :
    ∃ r : NdArray t (Elem F t), (ofArray t p).reshapeArgs raw = .ok (ofArray t r) ∧ r.shape = shape ∧ r.data = p.data ∧
      r.Counted := by
  have hlt : shape.prod < wordModulus := hprod ▸ lt_wordModulus_of_fits hp.fits
  obtain ⟨r, hr, hshape, hdata⟩ := NdArray.exists_new (t := t) hlen ((wrapProduct_of_lt hlt).trans hprod)
  have hsize : (ofArray t p).inner.data.length = p.data.length := by cases t <;> rfl
  refine ⟨r, ?_, hshape, hdata, ⟨by rw [hdata, hshape, hprod], by rw [hdata]; exact hp.fits⟩⟩
  have hreshape : p.reshape shape = .ok r := hr
  rw [reshapeArgs, hsize, hraw]
  change (ofArray t p).reshape shape = _
  rw [reshape_ofArray, hreshape]
  rfl

theorem joinArrays_ofArray (hne : arrs ≠ []) (axis : ℤ) :
    joinArrays (arrs.map (ofArray t)) axis = (NdArray.concatenate arrs axis).map fun z => some (ofArray t z) := by
  have hmap : arrs.map (ofArray t) ≠ [] := fun hnil => hne (List.map_eq_nil_iff.mp hnil)
  rw [joinArrays, if_neg hmap, concatenate_ofArray hne]

/-- A single column is the transposed single row. -/
theorem transposed_row {r c : NdArray t (Elem F t)} {n : ℕ} (hr : r.shape = [1,n]) (hc : c.shape = [n,1])
    (hdata : c.data = r.data) (hcounted : c.Counted) : NdArray.Transposed r c := by
  refine ⟨by rw [hr, hc]; rfl, hcounted, fun idx hidx => ?_⟩
  rw [hr] at hidx
  obtain ⟨i, is, rfl, hi, his⟩ := hidx.cases_cons
  obtain ⟨j, js, rfl, hj, hjs⟩ := his.cases_cons
  obtain rfl := inRange_nil.mp hjs
  obtain rfl : j = 0 := by omega
  rw [NdArray.at?, NdArray.at?, hr, hc, hdata]
  simp [flat]

theorem transpose_of_ndim (h : p.ndim < 2) : NdArray.transpose p = .ok p := by
  have hlen : p.shape.length < 2 := h
  cases hs : p.shape with
  | nil => simp only [NdArray.transpose, hs]
  | cons d ds =>
    cases ds with
    | nil => simp only [NdArray.transpose, hs]
    | cons e es =>
      rw [hs] at hlen
      simp only [List.length_cons] at hlen
      omega

theorem atleast2d_ok (hp : p.Counted) (hlow : p.ndim < 2) : ∃ r : NdArray t (Elem F t),
    atleast2d (ofArray t p) = .ok (ofArray t r) ∧ r.shape = [1,p.data.length] ∧ r.data = p.data ∧ r.Counted := by
  rw [atleast2d, ndim_ofArray]
  split_ifs with h0 h1
  · have hone : p.data.length = 1 := by
      have hnil : p.shape = [] := List.length_eq_zero_iff.mp h0
      rw [hp.count, hnil, List.prod_nil]
    have hargs : extractShapeArgs p.data.length [1,1] = .ok [1,p.data.length] := by
      rw [extractShapeArgs_ok, hone]
      exact ⟨.inl rfl, rfl⟩
    exact reshapeArgs_ok hp hargs (by simp [maxNdim]) (by simp)
  · have hargs : extractShapeArgs p.data.length [1,-1] = .ok [1,p.data.length] := by
      rw [extractShapeArgs_ok]
      have hknown : knownSize [1,-1] = 1 := by decide
      exact ⟨.inr ⟨rfl, by rw [hknown]; exact one_ne_zero, by rw [hknown]; exact one_dvd _⟩, by simp [fillIn, hknown]⟩
    exact reshapeArgs_ok hp hargs (by simp [maxNdim]) (by simp)
  · omega

theorem asColumn_ok (hp : p.Counted) (hlow : p.ndim < 2) : ∃ c : NdArray t (Elem F t),
    asColumn (ofArray t p) = .ok (ofArray t c) ∧ c.shape = [p.data.length,1] ∧ c.data = p.data ∧ c.Counted := by
  rw [asColumn, ndim_ofArray, if_pos hlow]
  have hargs : extractShapeArgs p.data.length [-1,1] = .ok [p.data.length,1] := by
    rw [extractShapeArgs_ok]
    have hknown : knownSize [-1,1] = 1 := by decide
    exact ⟨.inr ⟨rfl, by rw [hknown]; exact one_ne_zero, by rw [hknown]; exact one_dvd _⟩, by simp [fillIn, hknown]⟩
  exact reshapeArgs_ok hp hargs (by simp [maxNdim]) (by simp)

/-- The row `vstack` takes from a transposed array is the transposed column of the array. -/
theorem exists_row_column (hp : p.Counted) (hdim : p.ndim ≤ 2) (hq : NdArray.transpose p = .ok q) :
    ∃ r c : NdArray t (Elem F t), atleast2d (ofArray t q) = .ok (ofArray t r) ∧ asColumn (ofArray t p) = .ok (ofArray t c) ∧
      r.Counted ∧ NdArray.transpose r = .ok c ∧ c.ndim = 2 ∧ r.data.length = p.data.length ∧
      r.axisLen 0 = if p.ndim < 2 then 1 else p.axisLen 1 := by
  by_cases hlow : p.ndim < 2
  · obtain rfl : p = q := Except.ok.inj ((transpose_of_ndim hlow).symm.trans hq)
    obtain ⟨r, hr, hrshape, hrdata, hrc⟩ := atleast2d_ok hp hlow
    obtain ⟨c, hc, hcshape, hcdata, hcc⟩ := asColumn_ok hp hlow
    obtain ⟨w, hw, hwt⟩ := NdArray.transpose_transposed hrc
    have ht := transposed_row hrshape hcshape (hcdata.trans hrdata.symm) hcc
    refine ⟨r, c, hr, hc, hrc, by rw [hw, hwt.unique ht], congrArg List.length hcshape, by rw [hrdata], ?_⟩
    rw [if_pos hlow, NdArray.axisLen, hrshape]
    rfl
  · have htwo : p.shape.length = 2 := le_antisymm hdim (not_lt.mp hlow)
    have ht := NdArray.transposed_of_ok hp hq
    have hqdim : ¬ q.ndim < 2 ∧ q.ndim ≠ 0 ∧ q.ndim ≠ 1 := by
      have hlen : q.ndim = 2 := by
        change q.shape.length = 2
        rw [ht.shape, List.length_reverse, htwo]
      omega
    obtain ⟨w, hw, hwt⟩ := NdArray.transpose_transposed ht.counted
    refine ⟨q, p, ?_, ?_, ht.counted, by rw [hw, hwt.unique (ht.symm hp)], htwo, ht.length_data hp, ?_⟩
    · rw [atleast2d, ndim_ofArray, if_neg hqdim.2.1, if_neg hqdim.2.2]
    · rw [asColumn, ndim_ofArray, if_neg hlow]
    · obtain ⟨d, e, hs⟩ := List.length_eq_two.mp htwo
      rw [if_neg hlow, NdArray.axisLen, NdArray.axisLen, ht.shape, hs]
      rfl

/-- Rows and columns of a whole list of arrays. -/
theorem exists_rows_columns (hcounted : ∀ p ∈ parts, p.Counted) (hdim : ∀ p ∈ parts, p.ndim ≤ 2)
    (hparts : List.Forall₂ (fun p q => NdArray.transpose p = .ok q) parts parts') :
    ∃ rows cols : List (NdArray t (Elem F t)), eachPart atleast2d (parts'.map (ofArray t)) = .ok (rows.map (ofArray t)) ∧
      eachPart asColumn (parts.map (ofArray t)) = .ok (cols.map (ofArray t)) ∧ (∀ r ∈ rows, r.Counted) ∧
      List.Forall₂ (fun r c => NdArray.transpose r = .ok c) rows cols ∧ (∀ c ∈ cols, c.ndim = 2) ∧
      (rows.map fun r => r.data.length) = (parts.map fun p => p.data.length) ∧
      rows.map (NdArray.axisLen 0) = parts.map fun p => if p.ndim < 2 then 1 else p.axisLen 1 := by
  induction hparts with
  | nil => exact ⟨[], [], rfl, rfl, by simp, .nil, by simp, rfl, rfl⟩
  | @cons p q parts parts' hq _ ih =>
    obtain ⟨hp, hps⟩ := List.forall_mem_cons.mp hcounted
    obtain ⟨hd, hds⟩ := List.forall_mem_cons.mp hdim
    obtain ⟨rows, cols, hrows, hcols, hrc, ht, hcdim, hlens, haxes⟩ := ih hps hds
    obtain ⟨r, c, hr, hc, hrcounted, hrt, hcd, hrlen, hraxis⟩ := exists_row_column hp hd hq
    refine ⟨r :: rows, c :: cols, ?_, ?_, List.forall_mem_cons.mpr ⟨hrcounted, hrc⟩, .cons hrt ht,
      List.forall_mem_cons.mpr ⟨hcd, hcdim⟩, ?_, ?_⟩
    · rw [List.map_cons, eachPart, hr]
      change (eachPart atleast2d _ >>= _) = _
      rw [hrows]
      rfl
    · rw [List.map_cons, eachPart, hc]
      change (eachPart asColumn _ >>= _) = _
      rw [hcols]
      rfl
    · rw [List.map_cons, List.map_cons, hrlen, hlens]
    · rw [List.map_cons, List.map_cons, hraxis, haxes]

theorem concatenate_last {cols : List (NdArray t (Elem F t))} (hdim : ∀ c ∈ cols, c.ndim = 2) :
    NdArray.concatenate cols 1 = NdArray.concatenate cols (-1) := by
  cases cols with
  | nil => rfl
  | cons c rest =>
    have hc := hdim c List.mem_cons_self
    have haxis : resolveAxis 1 c.ndim = resolveAxis (-1) c.ndim := by rw [hc]; rfl
    rw [NdArray.concatenate, NdArray.concatenate, haxis]

theorem eachPart_same {f : AnyArray F → Except Failure (AnyArray F)} {tup : List (AnyArray F)} (h : ∀ a ∈ tup, f a = .ok a) :
    eachPart f tup = .ok tup := by
  induction tup with
  | nil => rfl
  | cons a tup ih =>
    obtain ⟨ha, hrest⟩ := List.forall_mem_cons.mp h
    rw [eachPart, ha]
    change (eachPart f tup >>= _) = _
    rw [ih hrest]
    rfl

/-- Matrices are stacked side by side by either helper. -/
theorem hstack_eq_columnStack {tup : List (AnyArray F)} (h : ∀ a ∈ tup, a.ndim = 2) : hstack tup = columnStack tup := by
  have hrow : eachPart atleast1d tup = .ok tup := eachPart_same fun a ha => if_pos (by rw [h a ha]; decide)
  have hcol : eachPart asColumn tup = .ok tup := eachPart_same fun a ha => if_neg (by rw [h a ha]; decide)
  have haxis : (if tup.head?.map ndim = some 1 then (0 : ℤ) else 1) = 1 := by
    apply if_neg
    intro hone
    obtain ⟨a, ha, hdim⟩ := Option.map_eq_some_iff.mp hone
    rw [h a (List.mem_of_head? ha)] at hdim
    cases hdim
  rw [hstack, columnStack, hrow, hcol]
  change joinArrays tup _ = joinArrays tup 1
  rw [haxis]

/-- Stacking arrays of at most two dimensions as columns is stacking the transposed arrays as
rows and transposing the result; one fails exactly when the other does. -/
theorem columnStack_transpose (hne : parts ≠ []) (hcounted : ∀ p ∈ parts, p.Counted) (hdim : ∀ p ∈ parts, p.ndim ≤ 2)
    (hparts : List.Forall₂ (fun p q => NdArray.transpose p = .ok q) parts parts')
    (hwidth : (parts.map fun p => if p.ndim < 2 then 1 else p.axisLen 1).sum < wordModulus)
    (hsize : t.itemsize*(parts.map fun p => p.data.length).sum ≤ isizeMax) :
    (∀ z, vstack (parts'.map (ofArray t)) = .ok (some (ofArray t z)) →
      ∃ y, NdArray.transpose z = .ok y ∧ columnStack (parts.map (ofArray t)) = .ok (some (ofArray t y))) ∧
    (∀ e, vstack (parts'.map (ofArray t)) = .error e → ∃ e', columnStack (parts.map (ofArray t)) = .error e') ∧
      ((∀ p ∈ parts, p.ndim = 2) → hstack (parts.map (ofArray t)) = columnStack (parts.map (ofArray t))) := by
  obtain ⟨rows, cols, hrows, hcols, hrc, ht, hcdim, hlens, haxes⟩ := exists_rows_columns hcounted hdim hparts
  have hrowsLen : rows.length = parts.length := by
    have hlen := congrArg List.length hlens
    rwa [List.length_map, List.length_map] at hlen
  have hrowsNe : rows ≠ [] := fun hnil => hne (List.length_eq_zero_iff.mp (by rw [← hrowsLen, hnil]; rfl))
  have hcolsNe : cols ≠ [] := by
    intro hnil
    rw [hnil] at ht
    exact hrowsNe (List.forall₂_nil_right_iff.mp ht)
  have hv : vstack (parts'.map (ofArray t)) = (NdArray.concatenate rows 0).map fun z => some (ofArray t z) := by
    rw [vstack, hrows]
    exact joinArrays_ofArray hrowsNe 0
  have hc : columnStack (parts.map (ofArray t)) = (NdArray.concatenate cols (-1)).map fun z => some (ofArray t z) := by
    rw [columnStack, hcols, ← concatenate_last hcdim]
    exact joinArrays_ofArray hcolsNe 1
  have hfits : NdArray.JoinFits rows 0 := by
    rintro first k - ⟨hlt, haxis⟩
    obtain rfl : k = 0 := by omega
    rw [hlens, haxes]
    exact ⟨hwidth, hsize⟩
  obtain ⟨hok, herror⟩ := NdArray.concatenate_transpose 0 hrc ht hfits
  refine ⟨fun z hz => ?_, fun e he => ?_, fun htwo => hstack_eq_columnStack fun a ha => ?_⟩
  · rw [hv] at hz
    rw [hc]
    cases hjoin : NdArray.concatenate rows 0 with
    | error e =>
      rw [hjoin] at hz
      cases hz
    | ok z' =>
      rw [hjoin] at hz
      obtain rfl : z' = z := ofArray_injective t (Option.some.inj (Except.ok.inj hz))
      obtain ⟨y, hy, hcy⟩ := hok z' hjoin
      exact ⟨y, hy, by rw [show (-1 : ℤ) = -1-0 by rfl, hcy]; rfl⟩
  · rw [hv] at he
    rw [hc]
    cases hjoin : NdArray.concatenate rows 0 with
    | error e' =>
      obtain ⟨e'', he''⟩ := herror e' hjoin
      exact ⟨e'', by rw [show (-1 : ℤ) = -1-0 by rfl, he'']; rfl⟩
    | ok z' =>
      rw [hjoin] at he
      cases he
  · obtain ⟨p, hp, rfl⟩ := List.mem_map.mp ha
    rw [ndim_ofArray, htwo p hp]

/-- A vector beside a matrix. -/
def besideSquare : NdArray .float64 ℤ := ⟨NdArray.square.dims.dropLeading 1, [8,9]⟩

def squareTransposed : NdArray .float64 ℤ := ⟨NdArray.square.dims, [7,1,5,2]⟩

theorem columnStack_transpose_square : ∃ y z, NdArray.transpose z = .ok y ∧
    columnStack ([besideSquare, NdArray.square].map (ofArray (F := ℤ) .float64)) = .ok (some (ofArray .float64 y)) := by
  have hparts : List.Forall₂ (fun p q : NdArray .float64 (Elem ℤ .float64) => NdArray.transpose p = .ok q)
      [besideSquare, NdArray.square] [besideSquare, squareTransposed] :=
    .cons rfl (.cons rfl .nil)
  obtain ⟨z, hz⟩ : ∃ z, vstack ([besideSquare, squareTransposed].map (ofArray (F := ℤ) .float64)) =
      .ok (some (ofArray .float64 z)) := ⟨_, rfl⟩
  have hcounted : ∀ p ∈ ([besideSquare, NdArray.square] : List (NdArray .float64 (Elem ℤ .float64))), p.Counted :=
    List.forall_mem_cons.mpr ⟨⟨by decide, by decide⟩, List.forall_mem_singleton.mpr ⟨by decide, by decide⟩⟩
  obtain ⟨y, hy, hcol⟩ := (columnStack_transpose (F := ℤ) (t := .float64) (List.cons_ne_nil _ _) hcounted (by decide) hparts
    (by decide) (by decide)).1 z hz
  exact ⟨y, z, hy, hcol⟩

end AnyArray

end LightArray
