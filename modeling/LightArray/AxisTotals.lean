import LightArray.CommFold
import LightArray.FoldAxis
import LightArray.LaneSum
import LightArray.Transpose

namespace LightArray
open MachineWord RowMajor CommFold

namespace NdArray

variable {T : Type} {f : T → T → T} {init : Option T} {axis : ℤ} {a z : NdArray .float64 T} {s u idx : List ℕ} {len : ℕ}

theorem foldLane_eq_reduce (f : T → T → T) (init : Option T) (xs : List T) : foldLane f init xs = reduce f init xs := by
  cases init with
  | some v => rfl
  | none => cases xs <;> rfl

/-- The buffer read by multi-index. -/
theorem data_eq_filterMap (h : a.data.length = a.shape.prod) : a.data = (enum a.shape).filterMap a.at? := by
  have hread : (enum a.shape).filterMap a.at? = ((enum a.shape).map (flat a.shape)).filterMap fun x => a.data[x]? := by
    rw [List.filterMap_map]
    rfl
  rw [hread, map_flat_enum, ← h]
  exact (filterMap_getElem?_range a.data).symm

/-- The lane at `idx` along axis `k`. -/
def laneAt (a : NdArray .float64 T) (k : ℕ) (idx : List ℕ) : List T :=
  (List.range (a.shape.getD k 0)).filterMap fun l => a.at? (idx.insertIdx k l)

theorem laneAt_eq {xs : List T} (hs : a.shape = s ++ len :: u)
    (h : List.Forall₂ (fun l x => a.at? (idx.insertIdx s.length l) = some x) (List.range len) xs) :
    a.laneAt s.length idx = xs := by
  have hlen : a.shape.getD s.length 0 = len := by rw [hs, getD_length]
  rw [laneAt, hlen]
  generalize List.range len = positions at h
  induction h with
  | nil => rfl
  | cons hx _ ih => simp only [List.filterMap_cons, hx, ih]

/-- The elements rearranged lane by lane. -/
theorem data_perm_lanes (h : a.data.length = a.shape.prod) (hs : a.shape = s ++ len :: u) :
    a.data.Perm ((enum (s ++ u)).flatMap (a.laneAt s.length)) := by
  have hlen : a.shape.getD s.length 0 = len := by rw [hs, getD_length]
  have hlanes : ((enum (s ++ u)).flatMap fun idx => (List.range len).map fun x => idx.insertIdx s.length x).filterMap a.at? =
      (enum (s ++ u)).flatMap (a.laneAt s.length) := by
    rw [List.filterMap_flatMap]
    congr 1
    funext idx
    rw [List.filterMap_map, laneAt, hlen]
    rfl
  have hdata := data_eq_filterMap h
  rw [hs] at hdata
  rw [hdata, ← hlanes]
  exact (enum_perm_lanes s u len).filterMap a.at?

/-- What the result of a fold along an axis needs: as large a buffer as its shape counts. -/
theorem foldAxis_counted (h : a.Counted) (hs : a.shape = s ++ len :: u) (hk : resolveAxis axis a.ndim = .ok s.length)
    (hinit : init = none → len ≠ 0) (hz : foldAxis f init axis a = .ok z)
    (hfit : DType.float64.itemsize*(s ++ u).prod ≤ isizeMax) : z.Counted := by
  obtain ⟨bs, hcount, hlens, -, hiff⟩ := foldAxis_blocks (f := f) h hs hk hinit
  obtain ⟨-, hshape, hdata⟩ := (hiff z).mp hz
  have hprods : wrapProduct s*wrapProduct u = (s ++ u).prod := by
    rw [List.prod_append]
    apply wrapProduct_mul
    rw [← List.prod_append]
    exact lt_wordModulus_of_fits hfit
  have hlen : z.data.length = (s ++ u).prod := by
    rw [hdata, length_flatten_uniform hlens, hcount, hprods]
  exact ⟨by rw [hlen, hshape], by rw [hlen]; exact hfit⟩

/-- Every output is the fold of its lane, in the order of the multi-indices. -/
theorem foldAxis_lanes (h : a.Counted) (hs : a.shape = s ++ len :: u) (hk : resolveAxis axis a.ndim = .ok s.length)
    (hinit : init = none → len ≠ 0) (hz : foldAxis f init axis a = .ok z)
    (hfit : DType.float64.itemsize*(s ++ u).prod ≤ isizeMax) :
    List.Forall₂ (fun idx v => foldLane f init (a.laneAt s.length idx) = some v) (enum (s ++ u)) z.data := by
  have hcounted := foldAxis_counted h hs hk hinit hz hfit
  obtain ⟨hshape, helements⟩ := foldAxis_elements h hs hk hinit hz hfit
  rw [List.forall₂_iff_get]
  refine ⟨by rw [length_enum, hcounted.count, hshape], fun n h₁ h₂ => ?_⟩
  have hn : n < (s ++ u).prod := length_enum (s ++ u) ▸ h₁
  obtain ⟨xs, v, hxs, hv, hat⟩ := helements _ (inRange_unflat hn)
  rw [at?, hshape, flat_unflat hn, List.getElem?_eq_getElem h₂] at hat
  rw [List.get_eq_getElem, List.get_eq_getElem, getElem_enum h₁, laneAt_eq hs hxs, hv, hat]

section transposed

variable {b : NdArray .float64 T}

theorem resolveAxis_reverse {n k : ℕ} (h : resolveAxis axis n = .ok k) : resolveAxis (-1-axis) n = .ok (n-1-k) := by
  rw [resolveAxis_ok] at h ⊢
  omega

theorem resolveAxis_reverse_error {n : ℕ} {e : Failure} (h : resolveAxis axis n = .error e) :
    ∃ e, resolveAxis (-1-axis) n = .error e := by
  cases hr : resolveAxis (-1-axis) n with
  | error e' => exact ⟨e', rfl⟩
  | ok k =>
    have hback := resolveAxis_reverse hr
    rw [show -1-(-1-axis) = axis by ring, h] at hback
    cases hback

theorem Transposed.shape_split (ht : Transposed a b) (hs : a.shape = s ++ len :: u) :
    b.shape = u.reverse ++ len :: s.reverse := by
  rw [ht.shape, hs, List.reverse_append, List.reverse_cons, List.append_assoc, List.singleton_append]

/-- A lane of the transposed array is the lane of the array at the reversed index. -/
theorem Transposed.laneAt (ht : Transposed a b) (hs : a.shape = s ++ len :: u) (hidx : InRange (u.reverse ++ s.reverse) idx) :
    b.laneAt u.length idx = a.laneAt s.length idx.reverse := by
  obtain ⟨j, i, rfl, hj, hi⟩ := hidx.split
  have hbs := ht.shape_split hs
  have hjlen : j.length = u.length := hj.length_eq.trans List.length_reverse
  have hilen : i.reverse.length = s.length := List.length_reverse.trans (hi.length_eq.trans List.length_reverse)
  have hlen : a.shape.getD s.length 0 = len := by rw [hs, getD_length]
  have hblen : b.shape.getD u.length 0 = len := by
    rw [hbs, ← List.length_reverse, getD_length]
  rw [NdArray.laneAt, NdArray.laneAt, hlen, hblen]
  apply List.filterMap_congr
  intro x hx
  have hin : InRange a.shape.reverse (j ++ x :: i) := by
    rw [← ht.shape, hbs]
    exact hj.append (inRange_cons.mpr ⟨List.mem_range.mp hx, hi⟩)
  have hrev : (j ++ x :: i).reverse = (i.reverse ++ j.reverse).insertIdx s.length x := by
    rw [← hilen, insertIdx_length, List.reverse_append, List.reverse_cons, List.append_assoc, List.singleton_append]
  rw [← hjlen, insertIdx_length, ht.elements _ hin, hrev, List.reverse_append]

/-- Folding the transposed array along the mirrored axis gives the transposed fold, and one
of the two calls fails exactly when the other does: the loop over contiguous runs and the
loop over whole rows compute the same folds. -/
theorem foldAxis_transpose (f : T → T → T) (init : Option T) (axis : ℤ) (ha : a.Counted) (hb : transpose a = .ok b)
    (hfit : ∀ k, MeansAxis axis a.ndim k → init ≠ none → a.shape.getD k 0 = 0 →
      DType.float64.itemsize*(a.shape.eraseIdx k).prod ≤ isizeMax) :
    (∀ z, foldAxis f init axis a = .ok z → ∃ y, transpose z = .ok y ∧ foldAxis f init (-1-axis) b = .ok y) ∧
      ∀ e, foldAxis f init axis a = .error e → ∃ e', foldAxis f init (-1-axis) b = .error e' := by
  obtain ⟨b', hb', ht⟩ := transpose_transposed ha
  obtain rfl : b' = b := Except.ok.inj (hb'.symm.trans hb)
  have hndim : b'.ndim = a.ndim := by
    change b'.shape.length = a.shape.length
    rw [ht.shape, List.length_reverse]
  rcases axis_cases axis a with ⟨⟨e, he⟩, -, -⟩ | ⟨s, len, u, hs, hk, -, hmeans⟩
  · obtain ⟨e', he'⟩ := resolveAxis_reverse_error he
    have herr : foldAxis f init axis a = .error e := foldAxis_axis_error he
    refine ⟨fun z hz => ?_, fun _ _ => ⟨e', foldAxis_axis_error (hndim ▸ he')⟩⟩
    rw [herr] at hz
    cases hz
  have hbs := ht.shape_split hs
  have hkb : resolveAxis (-1-axis) b'.ndim = .ok u.reverse.length := by
    have hrank : a.ndim-1-s.length = u.length := by
      change a.shape.length-1-s.length = u.length
      rw [hs, List.length_append, List.length_cons]
      omega
    rw [hndim, resolveAxis_reverse hk, hrank, List.length_reverse]
  have hfits (hinit : init = none → len ≠ 0) : DType.float64.itemsize*(s ++ u).prod ≤ isizeMax := by
    apply fold_result_fits ha hs hinit
    intro hsome hzero
    have hfit' := hfit s.length ((hmeans _).mpr rfl) hsome (by rw [hs, getD_length, hzero])
    rwa [hs, eraseIdx_length] at hfit'
  have hprod : (u.reverse ++ s.reverse).prod = (s ++ u).prod := by
    rw [← List.reverse_append, List.prod_reverse]
  constructor
  · intro z hz
    have hinit : init = none → len ≠ 0 := by
      intro hnone hzero
      obtain ⟨e, he⟩ := foldAxis_no_identity (f := f) hk hnone (by rw [hs, getD_length, hzero])
      rw [he] at hz
      cases hz
    have hfit' := hfits hinit
    have hwrap : wrapProduct u.reverse*wrapProduct s.reverse = (s ++ u).prod := by
      rw [← hprod, List.prod_append]
      apply wrapProduct_mul
      rw [← List.prod_append, hprod]
      exact lt_wordModulus_of_fits hfit'
    obtain ⟨y, hy⟩ := (exists_foldAxis_iff (f := f) ht.counted hbs hkb hinit).mpr (hwrap ▸ hfit')
    have hzc := foldAxis_counted ha hs hk hinit hz hfit'
    have hyc := foldAxis_counted ht.counted hbs hkb hinit hy (hprod ▸ hfit')
    obtain ⟨hzshape, hzel⟩ := foldAxis_elements ha hs hk hinit hz hfit'
    obtain ⟨hyshape, hyel⟩ := foldAxis_elements ht.counted hbs hkb hinit hy (hprod ▸ hfit')
    obtain ⟨w, hw, hwt⟩ := transpose_transposed hzc
    have hyt : Transposed z y := by
      refine ⟨by rw [hyshape, hzshape, List.reverse_append], hyc, fun idx hidx => ?_⟩
      rw [hzshape, List.reverse_append] at hidx
      have hrev : InRange (s ++ u) idx.reverse := by
        have h := hidx.reverse
        rwa [List.reverse_append, List.reverse_reverse, List.reverse_reverse] at h
      obtain ⟨xs, v, hxs, hv, hyv⟩ := hyel idx hidx
      obtain ⟨xs', v', hxs', hv', hzv⟩ := hzel idx.reverse hrev
      have hlane := ht.laneAt hs hidx
      have hulen : u.reverse.length = u.length := List.length_reverse
      rw [← hulen, laneAt_eq hbs hxs, laneAt_eq hs hxs'] at hlane
      rw [hlane, hv'] at hv
      rw [hyv, hzv, hv]
    exact ⟨w, hw, by rw [hwt.unique hyt, hy]⟩
  · intro e he
    by_cases hempty : init = none ∧ len = 0
    · exact foldAxis_no_identity hkb hempty.1 (by rw [hbs, getD_length, hempty.2])
    · have hfails := (foldAxis_fails_iff (f := f) ha hs hk fun hsome hzero =>
        hfits fun hnone => absurd hnone hsome).mp ⟨e, he⟩
      exact absurd hfails hempty

theorem foldAxis_transpose_planes : ∃ y z, transpose planes = .ok z ∧ foldAxis (· - ·) (some 0) (-1) z = .ok y := by
  obtain ⟨z, hz, -⟩ := transpose_reverses planes ⟨by decide, by decide⟩
  obtain ⟨w, hw⟩ : ∃ w, foldAxis (· - ·) (some 0) 0 planes = .ok w := ⟨_, rfl⟩
  have hfit : ∀ k, MeansAxis 0 planes.ndim k → some (0:ℤ) ≠ none → planes.shape.getD k 0 = 0 →
      DType.float64.itemsize*(planes.shape.eraseIdx k).prod ≤ isizeMax := by
    rintro k ⟨hk, hax⟩ - hzero
    have hrank : planes.ndim = 3 := rfl
    obtain rfl : k = 0 := by omega
    cases hzero
  obtain ⟨hok, -⟩ := foldAxis_transpose (· - ·) (some 0) 0 ⟨by decide, by decide⟩ hz hfit
  obtain ⟨y, -, hy⟩ := hok w hw
  exact ⟨y, z, hz, hy⟩

end transposed

section total

variable [Std.Associative f] [Std.Commutative f]

/-- Folding the result of a fold along an axis folds the array. -/
theorem foldLane_foldAxis (hunit : ∀ v, init = some v → ∀ x, f v x = x) (h : a.Counted) (hs : a.shape = s ++ len :: u)
    (hk : resolveAxis axis a.ndim = .ok s.length) (hinit : init = none → len ≠ 0) (hz : foldAxis f init axis a = .ok z)
    (hfit : DType.float64.itemsize*(s ++ u).prod ≤ isizeMax) : foldLane f init z.data = foldLane f init a.data := by
  have hlanes := foldAxis_lanes h hs hk hinit hz hfit
  simp only [foldLane_eq_reduce] at hlanes ⊢
  calc reduce f init z.data
      = reduce f init ((enum (s ++ u)).flatMap (a.laneAt s.length)) := (reduce_flatMap hunit hlanes).symm
    _ = reduce f init a.data := (reduce_perm (data_perm_lanes h.count hs)).symm

/-- `a.fold(axis=axes[0]).fold(axis=axes[1])...`. -/
def foldAxes (f : T → T → T) (init : Option T) : List ℤ → NdArray .float64 T → Except Failure (NdArray .float64 T)
  | [], a => .ok a
  | axis :: axes, a => do
    let z ← foldAxis f init axis a
    foldAxes f init axes z

/-- One call on an array that is not empty. -/
theorem foldAxis_step (hunit : ∀ v, init = some v → ∀ x, f v x = x) (h : a.Counted) (hne : a.data ≠ [])
    (hz : foldAxis f init axis a = .ok z) :
    z.Counted ∧ z.data ≠ [] ∧ z.shape.length+1 = a.shape.length ∧ foldLane f init z.data = foldLane f init a.data := by
  rcases axis_cases axis a with ⟨⟨e, he⟩, -, -⟩ | ⟨s, len, u, hs, hk, -, -⟩
  · rw [foldAxis_axis_error he] at hz
    cases hz
  · -- no axis is empty
    have hprod : a.shape.prod ≠ 0 := h.count ▸ (List.length_pos_iff.mpr hne).ne'
    rw [hs, List.prod_append, List.prod_cons] at hprod
    have hs0 : s.prod ≠ 0 := left_ne_zero_of_mul hprod
    have hlen : len ≠ 0 := left_ne_zero_of_mul (right_ne_zero_of_mul hprod)
    have hu0 : u.prod ≠ 0 := right_ne_zero_of_mul (right_ne_zero_of_mul hprod)
    have hfit := fold_result_fits h hs (fun _ => hlen) fun (_ : init ≠ none) hzero => absurd hzero hlen
    have hcounted := foldAxis_counted h hs hk (fun _ => hlen) hz hfit
    obtain ⟨hshape, -⟩ := foldAxis_elements h hs hk (fun _ => hlen) hz hfit
    refine ⟨hcounted, ?_, ?_, foldLane_foldAxis hunit h hs hk (fun _ => hlen) hz hfit⟩
    · have hpos : z.data.length ≠ 0 := by
        rw [hcounted.count, hshape, List.prod_append]
        exact mul_ne_zero hs0 hu0
      exact fun hnil => hpos (List.length_eq_zero_iff.mpr hnil)
    · rw [hshape, hs]
      simp only [List.length_append, List.length_cons]
      omega

theorem foldAxes_run (hunit : ∀ v, init = some v → ∀ x, f v x = x) (axes : List ℤ) (h : a.Counted) (hne : a.data ≠ [])
    (hz : foldAxes f init axes a = .ok z) :
    z.Counted ∧ z.data ≠ [] ∧ z.shape.length+axes.length = a.shape.length ∧
      foldLane f init z.data = foldLane f init a.data := by
  induction axes generalizing a with
  | nil =>
    cases hz
    exact ⟨h, hne, rfl, rfl⟩
  | cons axis axes ih =>
    obtain ⟨b, hb, hrest⟩ := bind_eq_ok.mp hz
    obtain ⟨hcounted, hbne, hrank, htotal⟩ := foldAxis_step hunit h hne hb
    obtain ⟨hzc, hzne, hzrank, hztotal⟩ := ih hcounted hbne hrest
    refine ⟨hzc, hzne, ?_, hztotal.trans htotal⟩
    rw [List.length_cons]
    omega

/-- Folding one axis after another, in any order, until none is left gives the fold of the
whole buffer. -/
theorem foldAxes_total (hunit : ∀ v, init = some v → ∀ x, f v x = x) (axes : List ℤ) (h : a.Counted) (hne : a.data ≠ [])
    (hz : foldAxes f init axes a = .ok z) :
    foldLane f init z.data = foldLane f init a.data ∧
      (axes.length = a.ndim → ∃ total, foldLane f init a.data = some total ∧ z.shape = [] ∧ z.data = [total]) := by
  obtain ⟨hcounted, -, hrank, htotal⟩ := foldAxes_run hunit axes h hne hz
  refine ⟨htotal, fun hall => ?_⟩
  have hall' : axes.length = a.shape.length := hall
  have hshape : z.shape = [] := List.length_eq_zero_iff.mp (by omega)
  have hone : z.data.length = 1 := by rw [hcounted.count, hshape, List.prod_nil]
  obtain ⟨total, hdata⟩ := List.length_eq_one_iff.mp hone
  refine ⟨total, ?_, hshape, hdata⟩
  rw [← htotal, hdata]
  cases init with
  | some v => exact congrArg some (hunit v rfl total)
  | none => rfl

theorem foldAxes_total_planes : foldLane (· + ·) (some 0) planes.data = some 21 ∧
    ∃ z, foldAxes (· + ·) (some 0) [-1,0,0] planes = .ok z ∧ z.data = [21] := by
  obtain ⟨z, hz⟩ : ∃ z, foldAxes (· + ·) (some 0) [-1,0,0] planes = .ok z := ⟨_, rfl⟩
  have hunit : ∀ v, some (0:ℤ) = some v → ∀ x, v+x = x := by
    rintro v ⟨rfl⟩ x
    exact zero_add x
  obtain ⟨-, hall⟩ := foldAxes_total hunit [-1,0,0] ⟨by decide, by decide⟩ (by decide) hz
  obtain ⟨total, htotal, -, hdata⟩ := hall rfl
  have hsum : foldLane (· + ·) (some 0) planes.data = some 21 := rfl
  obtain rfl : total = 21 := Option.some.inj (htotal.symm.trans hsum)
  exact ⟨hsum, z, hz, hdata⟩

end total

end NdArray

end LightArray
