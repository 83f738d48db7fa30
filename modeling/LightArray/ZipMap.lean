import LightArray.BroadcastOffsets
import LightArray.NdArray

namespace LightArray
open MachineWord RowMajor

namespace NdArray

variable {T : Type}

/-- The loop of `zip_map_broadcast` over the positions visited: `f(self.data[ao], other.data[bo])`
is pushed for each. -/
def pushAll (f : T → T → T) (xs ys : List T) : List (ℕ × ℕ) → Except Failure (List T)
  | [] => .ok []
  | (ao, bo) :: rest =>
    match xs[ao]?, ys[bo]? with
    | some x, some y => do
      let out ← pushAll f xs ys rest
      .ok (f x y :: out)
    | _, _ => .error (.panic "index out of bounds")

def zipMapBroadcast (f : T → T → T) (x y : NdArray .float64 T) : Except Failure (NdArray .float64 T) := do
  let out ← broadcastShape x.shape y.shape
  let _ ← withCapacity .float64 (wrapProduct out)
  let data ← pushAll f x.data y.data (broadcastReads x.shape y.shape out)
  new .float64 data out

/-- `f(a[i], b[i])` with NumPy broadcasting. -/
def zipMap (f : T → T → T) (x y : NdArray .float64 T) : Except Failure (NdArray .float64 T) :=
  if x.dims = y.dims then .ok ⟨x.dims, List.zipWith f x.data y.data⟩ else zipMapBroadcast f x y

/-- `self = f(self, other)` element-wise in place: the target as the call leaves it, and how
the call ends. -/
def zipMapInplace (f : T → T → T) (a b : NdArray .float64 T) : NdArray .float64 T × Except Failure Unit :=
  if a.dims = b.dims then
    -- the loop stops with the shorter of the two buffers
    (⟨a.dims, List.zipWith f a.data b.data ++ a.data.drop b.data.length⟩, .ok ())
  else
    match broadcastShape a.shape b.shape with
    | .error e => (a, .error e)
    | .ok out =>
      if out ≠ a.shape then
        (a, .error (.array (.message ("non-broadcastable output operand with shape " ++ shapeStr a.shape ++
          " doesn't match the broadcast shape " ++ shapeStr out))))
      else
        match zipMap f a b with
        | .error e => (a, .error e)
        | .ok result =>
          if result.data.length ≠ a.data.length then
            (a, .error (.panic "copy_from_slice: source slice length does not match destination slice length"))
          else (⟨a.dims, result.data⟩, .ok ())

/-- Element by element the broadcast of `f`. -/
structure Zipped (f : T → T → T) (x y z : NdArray .float64 T) : Prop where
  shape : broadcastShape x.shape y.shape = .ok z.shape
  counted : z.Counted
  elements : ∀ idx, InRange z.shape idx → ∃ u v, x.at? (stretch x.shape idx) = some u ∧
    y.at? (stretch y.shape idx) = some v ∧ z.at? idx = some (f u v)

variable {f : T → T → T} {x y z w a b : NdArray .float64 T} {out idx : List ℕ}

theorem dims_eq_iff : x.dims = y.dims ↔ x.shape = y.shape := ⟨congrArg Dims.shape, Dims.ext_shape⟩

/-- The broadcast decides every element. -/
theorem Zipped.unique (hz : Zipped f x y z) (hw : Zipped f x y w) : z = w := by
  have hs : z.shape = w.shape := Except.ok.inj (hz.shape.symm.trans hw.shape)
  apply ext_at? hz.counted.count hw.counted.count hs
  intro idx hidx
  obtain ⟨u, v, hu, hv, hzi⟩ := hz.elements idx hidx
  obtain ⟨u', v', hu', hv', hwi⟩ := hw.elements idx (hs ▸ hidx)
  rw [hu] at hu'
  rw [hv] at hv'
  cases hu'
  cases hv'
  rw [hzi, hwi]

theorem pushAll_ok {xs ys : List T} {ps : List (ℕ × ℕ)} (h : ∀ p ∈ ps, p.1 < xs.length ∧ p.2 < ys.length) :
    ∃ zs, pushAll f xs ys ps = .ok zs ∧
      List.Forall₂ (fun p z => ∃ u v, xs[p.1]? = some u ∧ ys[p.2]? = some v ∧ z = f u v) ps zs := by
  induction ps with
  | nil => exact ⟨[], rfl, .nil⟩
  | cons p rest ih =>
    obtain ⟨hp, hrest⟩ := List.forall_mem_cons.mp h
    obtain ⟨zs, hzs, hall⟩ := ih hrest
    have hu := List.getElem?_eq_getElem hp.1
    have hv := List.getElem?_eq_getElem hp.2
    refine ⟨f xs[p.1] ys[p.2] :: zs, ?_, .cons ⟨_, _, hu, hv, rfl⟩ hall⟩
    obtain ⟨ao, bo⟩ := p
    simp only [pushAll, hu, hv, hzs]
    rfl

/-- The odometer runs for the wrapped size and computes that many elements of the broadcast. -/
theorem zipMapBroadcast_runs (hx : x.Counted) (hy : y.Counted) (hout : broadcastShape x.shape y.shape = .ok out)
    (hfit : DType.float64.itemsize*wrapProduct out ≤ isizeMax) :
    ∃ z, zipMapBroadcast f x y = .ok z ∧ z.shape = out ∧
      List.Forall₂ (fun idx v => ∃ u w, x.at? (stretch x.shape idx) = some u ∧ y.at? (stretch y.shape idx) = some w ∧ v = f u w)
        ((enum out).take (wrapProduct out)) z.data := by
  obtain ⟨hxout, hyout⟩ := broadcastsTo_of_broadcastShape hout
  have hreads := broadcastReads_take hxout hyout hx.prod_lt hy.prod_lt
  have hbounds : ∀ p ∈ broadcastReads x.shape y.shape out, p.1 < x.data.length ∧ p.2 < y.data.length := by
    rw [hreads]
    intro p hp
    obtain ⟨idx, hidx, rfl⟩ := List.mem_map.mp hp
    have hin := mem_enum.mp (List.mem_of_mem_take hidx)
    exact ⟨hx.flat_lt (inRange_stretch hxout hin), hy.flat_lt (inRange_stretch hyout hin)⟩
  obtain ⟨zs, hzs, hall⟩ := pushAll_ok (f := f) hbounds
  have hlen : zs.length = wrapProduct out := by
    have hle : wrapProduct out ≤ out.prod := by
      rw [wrapProduct_eq]
      exact Nat.mod_le _ _
    rw [← hall.length_eq, hreads, List.length_map, List.length_take, length_enum, min_eq_left hle]
  have hrank : out.length ≤ maxNdim := by
    rw [(broadcastShape_iff.mp hout).1]
    exact max_le x.ndim_le y.ndim_le
  obtain ⟨z, hz, rfl, rfl⟩ := exists_new (t := .float64) hrank hlen.symm
  refine ⟨z, ?_, rfl, ?_⟩
  · rw [zipMapBroadcast, hout]
    show (withCapacity .float64 (wrapProduct z.shape) >>= _) = _
    rw [withCapacity_of_le hfit]
    show (pushAll f x.data y.data _ >>= _) = _
    rw [hzs]
    exact hz
  · rw [hreads, List.forall₂_map_left_iff] at hall
    exact hall

/-- Of a size that does not wrap, the whole broadcast. -/
theorem zipMapBroadcast_spec (hx : x.Counted) (hy : y.Counted) (hout : broadcastShape x.shape y.shape = .ok out)
    (hfit : DType.float64.itemsize*out.prod ≤ isizeMax) :
    ∃ z, zipMapBroadcast f x y = .ok z ∧ z.shape = out ∧ Zipped f x y z := by
  have hwrap := wrapProduct_of_lt (lt_wordModulus_of_fits hfit)
  obtain ⟨z, hz, rfl, hall⟩ := zipMapBroadcast_runs (f := f) hx hy hout (by rwa [hwrap])
  rw [hwrap, List.take_of_length_le (by rw [length_enum])] at hall
  have hlen : z.data.length = z.shape.prod := by rw [← hall.length_eq, length_enum]
  refine ⟨z, hz, rfl, hout, ⟨hlen, by rw [hlen]; exact hfit⟩, fun idx hidx => ?_⟩
  obtain ⟨v, hv, u, w, hu, hw, rfl⟩ := at?_of_forall₂ hall hidx
  exact ⟨u, w, hu, hw, hv⟩

/-- So does the straight loop over equal shapes. -/
theorem zipped_of_shape_eq (hx : x.Counted) (hy : y.Counted) (hs : x.shape = y.shape) :
    Zipped f x y ⟨x.dims, List.zipWith f x.data y.data⟩ := by
  have hlen : x.data.length = y.data.length := by rw [hx.count, hy.count, hs]
  have hzlen : (List.zipWith f x.data y.data).length = x.data.length := by rw [List.length_zipWith, ← hlen, min_self]
  refine ⟨?_, ⟨hzlen.trans hx.count, by rw [hzlen]; exact hx.fits⟩, fun idx (hidx : InRange x.shape idx) => ?_⟩
  · rw [← hs]
    exact broadcastShape_eq_ok.mpr (broadcastsTo_self _)
  · obtain ⟨u, hu⟩ := exists_at? hx.count hidx
    obtain ⟨v, hv⟩ := exists_at? hy.count (hs ▸ hidx : InRange y.shape idx)
    refine ⟨u, v, ?_, ?_, ?_⟩
    · rwa [stretch_self hidx]
    · rwa [stretch_self (hs ▸ hidx)]
    · rw [at?, ← hs] at hv
      exact List.getElem?_zipWith_eq_some.mpr ⟨u, v, hu, hv, rfl⟩

theorem zipMapBroadcast_eq_zipMap (hx : x.Counted) (hy : y.Counted) (hs : x.shape = y.shape) :
    zipMapBroadcast f x y = zipMap f x y := by
  have hfast := zipped_of_shape_eq (f := f) hx hy hs
  obtain ⟨z, hz, -, hslow⟩ := zipMapBroadcast_spec (f := f) hx hy hfast.shape hx.prod_fits
  rw [hz, zipMap, if_pos (dims_eq_iff.mpr hs), hslow.unique hfast]

theorem zipMap_spec (hx : x.Counted) (hy : y.Counted) (hout : broadcastShape x.shape y.shape = .ok out)
    (hfit : DType.float64.itemsize*out.prod ≤ isizeMax) :
    ∃ z, zipMap f x y = .ok z ∧ z.shape = out ∧ Zipped f x y z := by
  obtain ⟨z, hz, hshape, hzip⟩ := zipMapBroadcast_spec (f := f) hx hy hout hfit
  refine ⟨z, ?_, hshape, hzip⟩
  by_cases hd : x.dims = y.dims
  · rw [← zipMapBroadcast_eq_zipMap hx hy (dims_eq_iff.mp hd), hz]
  · rw [zipMap, if_neg hd, hz]

theorem zipMap_error {e : Failure} (h : broadcastShape x.shape y.shape = .error e) : zipMap f x y = .error e := by
  have hd : ¬ x.dims = y.dims := by
    intro hd
    rw [dims_eq_iff.mp hd, broadcastShape_eq_ok.mpr (broadcastsTo_self _)] at h
    cases h
  rw [zipMap, if_neg hd, zipMapBroadcast, h]
  rfl

/-- A result was allocated. -/
theorem zipMap_allocated (hx : x.Counted) (hout : broadcastShape x.shape y.shape = .ok out) (hz : zipMap f x y = .ok z) :
    DType.float64.itemsize*wrapProduct out ≤ isizeMax := by
  by_cases hd : x.dims = y.dims
  · have hself : broadcastShape x.shape y.shape = .ok x.shape := by
      rw [← dims_eq_iff.mp hd]
      exact broadcastShape_eq_ok.mpr (broadcastsTo_self _)
    cases hout.symm.trans hself
    rw [wrapProduct_of_lt hx.prod_lt]
    exact hx.prod_fits
  · rw [zipMap, if_neg hd, zipMapBroadcast, hout] at hz
    obtain ⟨u, hu, -⟩ := bind_eq_ok.mp (show (withCapacity .float64 (wrapProduct out) >>= _) = _ from hz)
    exact withCapacity_ok.mp hu

/-- Where the size does not wrap, a result is the broadcast. -/
theorem zipped_of_zipMap (hx : x.Counted) (hy : y.Counted) (hz : zipMap f x y = .ok z)
    (hprod : ∀ out, broadcastShape x.shape y.shape = .ok out → DType.float64.itemsize*wrapProduct out ≤ isizeMax →
      out.prod < wordModulus) : Zipped f x y z := by
  cases hout : broadcastShape x.shape y.shape with
  | error e =>
    rw [zipMap_error hout] at hz
    cases hz
  | ok out =>
    have halloc := zipMap_allocated hx hout hz
    rw [wrapProduct_of_lt (hprod out hout halloc)] at halloc
    obtain ⟨z', hz', -, hzip⟩ := zipMap_spec (f := f) hx hy hout halloc
    cases hz.symm.trans hz'
    exact hzip

theorem Counted.offsets_fit (h : x.Counted) : 2*x.shape.prod < wordModulus := by
  have hfit := h.prod_fits
  rw [isizeMax_eq, show DType.float64.itemsize = 8 from rfl] at hfit
  rw [wordModulus_eq]
  omega

section outcomes

variable (hx : x.Counted) (hy : y.Counted)
  (hfit : ∀ out, broadcastShape x.shape y.shape = .ok out → DType.float64.itemsize*out.prod ≤ isizeMax)

include hx hy hfit

/-- Only aligned axes of different lengths, neither of which is 1, make `zip_map` fail. -/
theorem zipMap_fails_iff : (∃ e, zipMap f x y = .error e) ↔ ∃ k, trailingAxis x.shape k ≠ trailingAxis y.shape k ∧
    trailingAxis x.shape k ≠ 1 ∧ trailingAxis y.shape k ≠ 1 := by
  have haxes : (∃ r, broadcastShape x.shape y.shape = .ok r) ↔ ¬ ∃ k, trailingAxis x.shape k ≠ trailingAxis y.shape k ∧
      trailingAxis x.shape k ≠ 1 ∧ trailingAxis y.shape k ≠ 1 := by
    rw [exists_broadcastShape_iff]
    push Not
    apply forall_congr'
    intro k
    tauto
  cases hout : broadcastShape x.shape y.shape with
  | ok out =>
    obtain ⟨z, hz, -⟩ := zipMap_spec (f := f) hx hy hout (hfit out hout)
    refine iff_of_false ?_ (haxes.mp ⟨out, hout⟩)
    rintro ⟨e, he⟩
    rw [hz] at he
    cases he
  | error e =>
    refine iff_of_true ⟨e, zipMap_error hout⟩ ?_
    by_contra hno
    obtain ⟨r, hr⟩ := haxes.mpr hno
    rw [hout] at hr
    cases hr

theorem zipMap_ok (hz : zipMap f x y = .ok z) : Zipped f x y z := by
  cases hout : broadcastShape x.shape y.shape with
  | ok out =>
    obtain ⟨z', hz', -, hzip⟩ := zipMap_spec (f := f) hx hy hout (hfit out hout)
    cases hz.symm.trans hz'
    exact hzip
  | error e =>
    rw [zipMap_error hout] at hz
    cases hz

end outcomes

/-- For arrays whose broadcast, when there is one, takes at most `isize::MAX` bytes: `zip_map`
fails exactly when two aligned axes have different lengths neither of which is 1, and otherwise
gives the broadcast of `f`, of the shape that has at each axis the length the two operands
broadcast to. On equal shapes the odometer gives what the straight loop gives. Run with checked
arithmetic, also past the last element, the odometer never fails; its offsets are inside the
buffers, and they are the positions the loop reads. Equal dims are equal shapes. -/
theorem zipMap_broadcasts (f : T → T → T) (x y : NdArray .float64 T) (hx : x.Counted) (hy : y.Counted)
    (hfit : ∀ out, broadcastShape x.shape y.shape = .ok out → DType.float64.itemsize*out.prod ≤ isizeMax) :
    ((∃ e, zipMap f x y = .error e) ↔ ∃ k, trailingAxis x.shape k ≠ trailingAxis y.shape k ∧
      trailingAxis x.shape k ≠ 1 ∧ trailingAxis y.shape k ≠ 1) ∧
    (∀ z, zipMap f x y = .ok z → z.Counted ∧ z.shape.length = max x.shape.length y.shape.length ∧
      (∀ k, axisJoin (trailingAxis x.shape k) (trailingAxis y.shape k) = some (trailingAxis z.shape k)) ∧
      ∀ idx, InRange z.shape idx → ∃ u v, x.at? (stretch x.shape idx) = some u ∧
        y.at? (stretch y.shape idx) = some v ∧ z.at? idx = some (f u v)) ∧
    (x.shape = y.shape → zipMapBroadcast f x y = zipMap f x y) ∧
    (∀ out, broadcastShape x.shape y.shape = .ok out → 0 < out.prod →
      (∀ n, (∀ o ∈ checkedOffsets x.shape out n, ∃ k < x.data.length, o = some k) ∧
        ∀ o ∈ checkedOffsets y.shape out n, ∃ k < y.data.length, o = some k) ∧
      checkedOffsets x.shape out out.prod = (broadcastReads x.shape y.shape out).map (fun o => some o.1) ∧
      checkedOffsets y.shape out out.prod = (broadcastReads x.shape y.shape out).map (fun o => some o.2)) ∧
    (x.dims = y.dims ↔ x.shape = y.shape) := by
  refine ⟨zipMap_fails_iff hx hy hfit, ?_, zipMapBroadcast_eq_zipMap hx hy, ?_, dims_eq_iff⟩
  · intro z hz
    have hzip := zipMap_ok hx hy hfit hz
    obtain ⟨hlen, haxes⟩ := broadcastShape_iff.mp hzip.shape
    exact ⟨hzip.counted, hlen, haxes, hzip.elements⟩
  · intro out hout hpos
    obtain ⟨hxout, hyout⟩ := broadcastsTo_of_broadcastShape hout
    refine ⟨fun n => ⟨?_, ?_⟩, ?_⟩
    · rw [hx.count]
      exact checkedOffsets_in hxout hpos hx.offsets_fit n
    · rw [hy.count]
      exact checkedOffsets_in hyout hpos hy.offsets_fit n
    · apply checkedOffsets_eq_reads hxout hyout hpos
      · exact lt_wordModulus_of_fits (hfit out hout)
      · exact hx.offsets_fit
      · exact hy.offsets_fit

/-- A row of three over a column of two. -/
def rowOfThree : NdArray .float64 ℤ := ⟨⟨[1,3], _, by decide, rfl⟩, [1,2,3]⟩

def columnOfTwo : NdArray .float64 ℤ := ⟨⟨[2,1], _, by decide, rfl⟩, [10,20]⟩

theorem zipMap_broadcasts_outer :
    (∃ e, zipMap (· + ·) rowOfThree columnOfTwo = .error e) ↔ ∃ k,
      trailingAxis [1,3] k ≠ trailingAxis [2,1] k ∧ trailingAxis [1,3] k ≠ 1 ∧ trailingAxis [2,1] k ≠ 1 :=
  (zipMap_broadcasts (· + ·) rowOfThree columnOfTwo ⟨by decide, by decide⟩ ⟨by decide, by decide⟩ (by
    intro out hout
    have h : broadcastShape [1,3] [2,1] = .ok [2,3] := by decide
    cases h.symm.trans hout
    decide)).1

/-- Operands that fit in memory and whose broadcast does not, although its size is a `usize`. -/
def longColumn : NdArray .float64 ℤ := ⟨⟨[2^30,1], _, by decide, rfl⟩, List.replicate (2^30) 0⟩

def longRow : NdArray .float64 ℤ := ⟨⟨[1,2^30], _, by decide, rfl⟩, List.replicate (2^30) 0⟩

theorem zipMap_capacity_overflow : longColumn.Counted ∧ longRow.Counted ∧
    broadcastShape longColumn.shape longRow.shape = .ok [2^30,2^30] ∧ [2^30,2^30].prod < wordModulus ∧
    zipMap (· + ·) longColumn longRow = .error (.panic "capacity overflow") := by
  have hout : broadcastShape longColumn.shape longRow.shape = .ok [2^30,2^30] := by decide
  refine ⟨counted_replicate rfl (by decide) (by decide), counted_replicate rfl (by decide) (by decide), hout, by decide, ?_⟩
  have hne : ¬ longColumn.dims = longRow.dims := by
    rw [dims_eq_iff]
    decide
  rw [zipMap, if_neg hne, zipMapBroadcast, hout]
  rfl

/-- Whatever stops the call, the target is as it was. -/
theorem zipMapInplace_error {e : Failure} (h : (zipMapInplace f a b).2 = .error e) : (zipMapInplace f a b).1 = a := by
  unfold zipMapInplace at h ⊢
  split_ifs with hd
  · rw [if_pos hd] at h
    cases h
  · rw [if_neg hd] at h
    cases hout : broadcastShape a.shape b.shape with
    | error e => rfl
    | ok out =>
      simp only [hout] at h ⊢
      split_ifs at h ⊢ with hshape
      · rfl
      · cases hz : zipMap f a b with
        | error e => rfl
        | ok z =>
          simp only [hz] at h ⊢
          split_ifs at h ⊢
          rfl

/-- When the broadcast is the target's shape, the target becomes the result of `zip_map`. -/
theorem zipMapInplace_ok (ha : a.Counted) (hb : b.Counted) (h : broadcastShape a.shape b.shape = .ok a.shape) :
    (zipMapInplace f a b).2 = .ok () ∧ zipMap f a b = .ok (zipMapInplace f a b).1 := by
  by_cases hd : a.dims = b.dims
  · have hlen : a.data.length = b.data.length := by rw [ha.count, hb.count, dims_eq_iff.mp hd]
    have hdrop : a.data.drop b.data.length = [] := List.drop_eq_nil_of_le hlen.le
    rw [zipMapInplace, if_pos hd, zipMap, if_pos hd, hdrop, List.append_nil]
    exact ⟨rfl, rfl⟩
  · obtain ⟨z, hz, hshape, hzip⟩ := zipMap_spec (f := f) ha hb h ha.prod_fits
    have hlen : z.data.length = a.data.length := by rw [hzip.counted.count, hshape, ha.count]
    have hza : (⟨a.dims, z.data⟩ : NdArray .float64 T) = z := ext_shape hshape.symm rfl
    simp only [zipMapInplace, if_neg hd, h, ne_eq, not_true_eq_false, if_false, hz, hlen, hza, and_self]

/-- Otherwise the call is refused by an error of the core. -/
theorem zipMapInplace_refused (h : broadcastShape a.shape b.shape ≠ .ok a.shape) :
    ∃ e, (zipMapInplace f a b).2 = .error (.array e) := by
  have hd : ¬ a.dims = b.dims := by
    intro hd
    apply h
    rw [← dims_eq_iff.mp hd]
    exact broadcastShape_eq_ok.mpr (broadcastsTo_self _)
  cases hout : broadcastShape a.shape b.shape with
  | error e =>
    obtain rfl := broadcastShape_error hout
    exact ⟨_, by simp only [zipMapInplace, if_neg hd, hout]; rfl⟩
  | ok out =>
    have hne : out ≠ a.shape := fun he => h (by rw [hout, he])
    exact ⟨_, by simp only [zipMapInplace, if_neg hd, hout, if_pos hne]; rfl⟩

/-- The in-place kernel succeeds exactly when the broadcast of the shapes exists and is the
target's shape; then the target is the result of `zip_map` on the old contents, of the same shape,
and otherwise it is left as it was. -/
theorem zipMapInplace_atomic (f : T → T → T) (a b : NdArray .float64 T) (ha : a.Counted) (hb : b.Counted) :
    ((zipMapInplace f a b).2 = .ok () ↔ broadcastShape a.shape b.shape = .ok a.shape) ∧
    ((zipMapInplace f a b).2 = .ok () →
      zipMap f a b = .ok (zipMapInplace f a b).1 ∧ (zipMapInplace f a b).1.shape = a.shape) ∧
    ((zipMapInplace f a b).2 ≠ .ok () → (zipMapInplace f a b).1 = a) := by
  have hiff : (zipMapInplace f a b).2 = .ok () ↔ broadcastShape a.shape b.shape = .ok a.shape := by
    refine ⟨fun h => ?_, fun h => (zipMapInplace_ok ha hb h).1⟩
    by_contra hno
    obtain ⟨e, he⟩ := zipMapInplace_refused (f := f) hno
    rw [h] at he
    cases he
  refine ⟨hiff, fun h => ?_, fun h => ?_⟩
  · have hz := (zipMapInplace_ok (f := f) ha hb (hiff.mp h)).2
    obtain ⟨z, hz', hshape, -⟩ := zipMap_spec (f := f) ha hb (hiff.mp h) ha.prod_fits
    rw [hz] at hz'
    cases hz'
    exact ⟨hz, hshape⟩
  · cases he : (zipMapInplace f a b).2 with
    | error e => exact zipMapInplace_error he
    | ok u => exact absurd he h

theorem zipMapInplace_atomic_row :
    ((zipMapInplace (· + ·) rowOfThree columnOfTwo).2 ≠ .ok () →
      (zipMapInplace (· + ·) rowOfThree columnOfTwo).1 = rowOfThree) ∧
    broadcastShape rowOfThree.shape columnOfTwo.shape ≠ .ok rowOfThree.shape :=
  ⟨(zipMapInplace_atomic (· + ·) rowOfThree columnOfTwo ⟨by decide, by decide⟩ ⟨by decide, by decide⟩).2.2, by decide⟩

end NdArray

end LightArray
