import LightArray.AccessPaths
import LightArray.AxisSlices
import LightArray.FullIndex
import LightArray.StrideBox

namespace LightArray
open MachineWord RowMajor

namespace RawBuffer

/-- Address of the element that a multi-index of the description names. -/
def elementAddress (raw : RawBuffer) (idx : List ℕ) : ℕ := wrappingOffset raw.buf (dot idx raw.strides)

/-- From the pointer down to the lowest element. -/
def below (raw : RawBuffer) : ℤ := lowReach raw.shape raw.strides

/-- From the pointer up to the highest element. -/
def above (raw : RawBuffer) : ℤ := highReach raw.shape raw.strides

/-- No product `(shape[k]-1)*strides[k]` overflows. -/
def ReachesFit (raw : RawBuffer) : Prop :=
  ∀ p ∈ raw.shape.zip raw.strides, -(2^63) ≤ ((p.1:ℤ)-1)*p.2 ∧ ((p.1:ℤ)-1)*p.2 < 2^63

end RawBuffer

namespace PyArray

/-- An array with a buffer of its own: one allocation, inside the address space. -/
structure OwnsBuffer (o : PyArray) : Prop where
  owned : o.base = none
  plain : o.strided = none
  fits : o.itemsize*o.len ≤ isizeMax
  address : o.ptr+o.itemsize*o.len ≤ wordModulus
  ptr_lt : o.ptr < wordModulus

/-- An element at `p` lies wholly inside the buffer, at a multiple of the element
size from its start. -/
def InBuffer (o : PyArray) (p : ℕ) : Prop :=
  o.ptr ≤ p ∧ p+o.itemsize ≤ o.ptr+o.itemsize*o.len ∧ o.itemsize ∣ p-o.ptr

/-- A non-empty writable description of the array's format. -/
structure Describable (o : PyArray) (raw : RawBuffer) : Prop where
  buffer : raw.Wf
  writable : raw.readonly = false
  size : raw.itemsize = o.itemsize
  format : raw.format = o.dtype.format
  ndim : raw.shape.length ≤ maxNdim
  nonempty : 0 < raw.shape.prod
  strides : ∀ s ∈ raw.strides, (o.itemsize : ℤ) ∣ s
  reaches : raw.ReachesFit

/-- The description is adopted exactly when its elements are in the buffer, and
the view made of it has them as its elements. -/
structure AdoptsExactly (alloc : ℕ) (o : PyArray) (raw : RawBuffer) : Prop where
  accepts : (∃ v, o.viewOfNumpy alloc raw = .ok (some v)) ↔
    ∀ idx, InRange raw.shape idx → o.InBuffer (raw.elementAddress idx)
  shares : ∀ v, o.viewOfNumpy alloc raw = .ok (some v) →
    v.dtype = o.dtype ∧ v.shape = raw.shape ∧ v.baseOf = ⟨o.dtype, o.ptr, o.len⟩
  elements : ∀ v, o.viewOfNumpy alloc raw = .ok (some v) → ∀ idx, InRange raw.shape idx →
    v.elementAddress idx = raw.elementAddress idx ∧ o.InBuffer (raw.elementAddress idx)
  paths : ∀ v, o.viewOfNumpy alloc raw = .ok (some v) → ∀ ints, InBounds raw.shape ints →
    v.AccessedAt ints (raw.elementAddress (List.zipWith coordinate raw.shape ints))

/-- The pointer is a multiple of the element size away from the buffer's start. -/
def Aligned (o : PyArray) (raw : RawBuffer) : Prop := (o.itemsize : ℤ) ∣ (raw.buf : ℤ)-o.ptr

/-- From the lowest to the highest element everything is in the buffer. -/
def Encloses (o : PyArray) (raw : RawBuffer) : Prop :=
  (o.ptr : ℤ) ≤ raw.buf+raw.below ∧
    (raw.buf : ℤ)+raw.above+o.itemsize ≤ o.ptr+o.itemsize*o.len

/-- The lowest address and the end of the highest element are not both in the range
of an `isize`, but land between the ends of the buffer when wrapped into it. -/
def WrapsInto (o : PyArray) (raw : RawBuffer) : Prop :=
  ∃ j k : ℤ, ¬ (j = 0 ∧ k = 0) ∧
    (asIsize o.ptr ≤ asIsize raw.buf+raw.below+2^64*j ∧ asIsize raw.buf+raw.below+2^64*j < 2^63) ∧
    (-(2^63) ≤ asIsize raw.buf+raw.above+o.itemsize+2^64*k ∧
      asIsize raw.buf+raw.above+o.itemsize+2^64*k ≤ asIsize o.span.2)

/-- The buffer reaches from the non-negative addresses of an `isize` to the negative
ones, and the elements do not. -/
def SplitsAt (o : PyArray) (raw : RawBuffer) : Prop :=
  (o.ptr < 2^63 ∧ 2^63 ≤ o.ptr+o.itemsize*o.len) ∧
    (2^63 ≤ (raw.buf : ℤ)+raw.below ∨ (raw.buf : ℤ)+raw.above+o.itemsize < 2^63)

/-- What the bounds test gets wrong. -/
def Misjudges (o : PyArray) (raw : RawBuffer) : Prop :=
  o.Aligned raw ∧ (o.WrapsInto raw ∧ ¬ o.Encloses raw ∨ o.Encloses raw ∧ o.SplitsAt raw)

variable {o : PyArray} {raw : RawBuffer} {alloc : ℕ}

end PyArray

section reachLoop

variable {itemsize : ℕ} {shape : List ℕ} {strides : List ℤ}

/-- Without an overflowing product the loop is the two exact sums, wrapped once. -/
theorem reachLoop_eq (hdims : ∀ d ∈ shape, d ≤ isizeMax) (hpos : 0 < shape.prod)
    (hdvd : ∀ s ∈ strides, (itemsize : ℤ) ∣ s)
    (hfit : ∀ p ∈ shape.zip strides, -(2^63) ≤ ((p.1:ℤ)-1)*p.2 ∧ ((p.1:ℤ)-1)*p.2 < 2^63) (lo hi : ℤ) :
    reachLoop itemsize (wrapIsize lo) (wrapIsize hi) shape strides =
      some (wrapIsize (lo+lowReach shape strides), wrapIsize (hi+highReach shape strides)) := by
  induction shape generalizing strides lo hi with
  | nil => simp [reachLoop, lowReach, highReach]
  | cons d ds ih =>
    cases strides with
    | nil => simp [reachLoop, lowReach, highReach]
    | cons s ss =>
      rw [List.prod_cons] at hpos
      have hd : 0 < d := Nat.pos_of_mul_pos_right hpos
      have hds : 0 < ds.prod := Nat.pos_of_mul_pos_left hpos
      have hrest := fun l h => ih (fun e he => hdims e (List.mem_cons_of_mem _ he)) hds
        (fun t ht => hdvd t (List.mem_cons_of_mem _ ht)) (fun p hp => hfit p (List.mem_cons_of_mem _ hp)) l h
      have hle : d ≤ isizeMax := hdims d List.mem_cons_self
      have hreach : wrapIsize (wrapIsize (asIsize d-1)*s) = ((d:ℤ)-1)*s := by
        obtain ⟨hlow, hhigh⟩ := hfit (d,s) List.mem_cons_self
        rw [asIsize_of_le hle]
        rw [isizeMax_eq] at hle
        rw [wrapIsize_of_range (show -(2^63) ≤ (d:ℤ)-1 by omega) (by omega)]
        exact wrapIsize_of_range hlow hhigh
      have hmod : s.tmod itemsize = 0 := Int.tmod_eq_zero_of_dvd (hdvd s List.mem_cons_self)
      have hadd (z r : ℤ) : wrapIsize (wrapIsize z+r) = wrapIsize (z+r) := by
        apply wrapIsize_congr
        push_cast [cast_wrapIsize]
        rfl
      rw [reachLoop, hreach, if_neg (not_not.mpr hmod), lowReach_cons, highReach_cons]
      split
      · rename_i hneg
        rw [hadd, hrest, min_eq_right hneg.le, max_eq_left hneg.le, zero_add, add_assoc]
      · rename_i hneg
        have h0 : 0 ≤ ((d:ℤ)-1)*s := not_lt.mp hneg
        rw [hadd, hrest, min_eq_left h0, max_eq_right h0, zero_add, add_assoc]

end reachLoop

namespace PyArray

variable {o : PyArray} {raw : RawBuffer} {alloc : ℕ}

namespace Describable

theorem wrapProduct_eq (hd : o.Describable raw) : wrapProduct raw.shape = raw.shape.prod := by
  apply wrapProduct_of_lt
  have hge : raw.shape.prod ≤ o.itemsize*raw.shape.prod := Nat.le_mul_of_pos_left _ o.dtype.itemsize_pos
  have hle : o.itemsize*raw.shape.prod ≤ isizeMax := hd.size ▸ hd.buffer.len_le
  rw [isizeMax_eq] at hle
  rw [wordModulus_eq]
  omega

theorem wrapProduct_ne (hd : o.Describable raw) : wrapProduct raw.shape ≠ 0 := by
  rw [hd.wrapProduct_eq]
  exact hd.nonempty.ne'

end Describable

/-- Aligning the lowest address aligns the pointer, wrapped or not. -/
theorem aligned_iff (hd : o.Describable raw) :
    (wrapIsize (wrapIsize (raw.buf+raw.below)-asIsize o.ptr)).tmod o.itemsize = 0 ↔ o.Aligned raw := by
  have hcongr : wrapIsize (wrapIsize (raw.buf+raw.below)-asIsize o.ptr) = wrapIsize (raw.buf+raw.below-o.ptr) := by
    apply wrapIsize_congr
    push_cast [cast_wrapIsize, cast_asIsize]
    rfl
  obtain ⟨idx, -, hlow⟩ := exists_dot_lowReach hd.nonempty raw.strides
  have hbelow : (o.itemsize : ℤ) ∣ raw.below := by
    rw [RawBuffer.below, ← hlow]
    exact dvd_dot hd.strides idx
  have hword : (o.itemsize : ℤ) ∣ (wordModulus : ℤ) := o.dtype.itemsize_dvd
  have hmove : (raw.buf : ℤ)+raw.below-o.ptr = raw.buf-o.ptr+raw.below := by ring
  rw [hcongr, ← Int.dvd_iff_tmod_eq_zero, dvd_wrapIsize_iff hword, hmove, Aligned]
  exact dvd_add_left hbelow

/-- The bounds test: two wrapped sums against the ends of the buffer. -/
theorem viewOfNumpy_iff (hd : o.Describable raw) (alloc : ℕ) :
    (∃ v, o.viewOfNumpy alloc raw = .ok (some v)) ↔
      o.Aligned raw ∧ asIsize o.ptr ≤ wrapIsize (raw.buf+raw.below) ∧
        wrapIsize (raw.buf+raw.above+o.itemsize) ≤ asIsize o.span.2 := by
  have hloop : reachLoop o.itemsize (asIsize raw.buf) (asIsize raw.buf) raw.shape raw.strides =
      some (wrapIsize (raw.buf+raw.below), wrapIsize (raw.buf+raw.above)) :=
    reachLoop_eq hd.buffer.isize_shape hd.nonempty hd.strides hd.reaches raw.buf raw.buf
  have hsame : ¬ (raw.readonly ∨ raw.itemsize ≠ o.itemsize ∨ raw.format ≠ o.dtype.format ∨
      maxNdim < raw.shape.length) := by
    simp [hd.writable, hd.size, hd.format, hd.ndim]
  have hend : wrapIsize (wrapIsize (raw.buf+raw.above)+o.itemsize) = wrapIsize (raw.buf+raw.above+o.itemsize) := by
    apply wrapIsize_congr
    push_cast [cast_wrapIsize]
    rfl
  have hprod := hd.wrapProduct_eq
  have hle : o.itemsize*raw.shape.prod ≤ isizeMax := hd.size ▸ hd.buffer.len_le
  obtain ⟨v, hv⟩ := exists_viewFromLayout o alloc (l := ⟨raw.buf, raw.shape, raw.strides⟩) hd.ndim
    (by rw [hprod, mul_comm]; exact hle)
  unfold viewOfNumpy
  rw [if_neg hsame, if_neg hd.wrapProduct_ne]
  simp only [hloop, hend]
  split
  · rename_i hout
    refine iff_of_false nofun ?_
    rintro ⟨haligned, hstart, hstop⟩
    rcases hout with hout | hout | hout
    · exact absurd hstart (not_le.mpr hout)
    · exact absurd hstop (not_le.mpr hout)
    · exact hout ((aligned_iff hd).mpr haligned)
  · rename_i hin
    push Not at hin
    refine iff_of_true ⟨v, ?_⟩ ⟨(aligned_iff hd).mp hin.2.2, hin.1, hin.2.1⟩
    rw [hv]
    rfl

/-- Where the sum does not leave the address space it is the address. -/
theorem elementAddress_of_range {idx : List ℕ} (h0 : 0 ≤ (raw.buf : ℤ)+dot idx raw.strides)
    (h1 : (raw.buf : ℤ)+dot idx raw.strides < wordModulus) :
    (raw.elementAddress idx : ℤ) = raw.buf+dot idx raw.strides := by
  rw [RawBuffer.elementAddress, wrappingOffset, asUsize_of_nonneg h0 h1]
  exact Int.toNat_of_nonneg h0

/-- The element at index 0 is the one the pointer names. -/
theorem elementAddress_zeros (hd : o.Describable raw) :
    raw.elementAddress (List.replicate raw.shape.length 0) = raw.buf := by
  have hlt : (raw.buf : ℤ) < wordModulus := by exact_mod_cast hd.buffer.buf_lt
  have hdot : (raw.buf : ℤ)+dot (List.replicate raw.shape.length 0) raw.strides = raw.buf := by
    rw [dot_zero_left, add_zero]
  have he : (raw.elementAddress (List.replicate raw.shape.length 0) : ℤ) = raw.buf := by
    rw [elementAddress_of_range, hdot]
    · rw [hdot]
      exact Int.natCast_nonneg _
    · rw [hdot]
      exact hlt
  exact_mod_cast he

section inside

variable (ho : o.OwnsBuffer) (hd : o.Describable raw)
  (h : ∀ idx, InRange raw.shape idx → o.InBuffer (raw.elementAddress idx))
include ho hd h

/-- Elements that are all in the buffer are at their exact distances from the pointer. -/
theorem offset_of_inBuffer {idx : List ℕ} (hidx : InRange raw.shape idx) :
    0 ≤ (raw.buf : ℤ)-o.ptr+dot idx raw.strides ∧
      (raw.buf : ℤ)-o.ptr+dot idx raw.strides < (o.itemsize*o.len : ℕ)-o.itemsize+1 := by
  have hpos : 0 < o.itemsize := o.dtype.itemsize_pos
  have hfits := ho.fits
  rw [isizeMax_eq] at hfits
  obtain ⟨hstart, hstop, -⟩ := elementAddress_zeros hd ▸ h _ (inRange_zeros hd.nonempty)
  have hwindow : ∀ s ∈ raw.strides, (o.itemsize*o.len : ℕ)-(o.itemsize : ℤ)+1+|s| ≤ wordModulus := by
    intro s hs
    obtain ⟨hlow, hhigh⟩ := hd.buffer.isize_strides s hs
    have habs : |s| ≤ 2^63 := abs_le.mpr ⟨hlow, hhigh.le⟩
    rw [wordModulus_eq]
    push_cast
    omega
  apply dot_window hwindow ⟨by omega, by omega⟩ _ hidx
  intro i hi
  obtain ⟨hfirst, hlast, -⟩ := h i hi
  refine ⟨(raw.elementAddress i : ℤ)-o.ptr, ⟨by omega, by omega⟩, ?_⟩
  rw [RawBuffer.elementAddress]
  push_cast [cast_wrappingOffset]
  ring

theorem encloses_of_inBuffer : o.Encloses raw := by
  obtain ⟨low, hlow, helow⟩ := exists_dot_lowReach hd.nonempty raw.strides
  obtain ⟨high, hhigh, hehigh⟩ := exists_dot_highReach hd.nonempty raw.strides
  have hbelow := offset_of_inBuffer ho hd h hlow
  have habove := offset_of_inBuffer ho hd h hhigh
  rw [helow] at hbelow
  rw [hehigh] at habove
  constructor
  · rw [RawBuffer.below]
    omega
  · rw [RawBuffer.above]
    omega

end inside

/-- Between the lowest and the highest element every other one is in the buffer. -/
theorem inBuffer_of_encloses (ho : o.OwnsBuffer) (hd : o.Describable raw) (hin : o.Encloses raw)
    (haligned : o.Aligned raw) {idx : List ℕ} (hidx : InRange raw.shape idx) :
    o.InBuffer (raw.elementAddress idx) := by
  have hpos : 0 < o.itemsize := o.dtype.itemsize_pos
  have haddress := ho.address
  rw [wordModulus_eq] at haddress
  obtain ⟨hlow, hhigh⟩ := hin
  obtain ⟨hbelow, habove⟩ := dot_between hidx raw.strides
  rw [RawBuffer.below] at hlow
  rw [RawBuffer.above] at hhigh
  have hrange : 0 ≤ (raw.buf : ℤ)+dot idx raw.strides ∧ (raw.buf : ℤ)+dot idx raw.strides < wordModulus := by
    rw [wordModulus_eq]
    omega
  have he := elementAddress_of_range hrange.1 hrange.2
  have hstart : o.ptr ≤ raw.elementAddress idx := by omega
  refine ⟨hstart, by omega, ?_⟩
  have hdvd : (o.itemsize : ℤ) ∣ (raw.elementAddress idx : ℤ)-o.ptr := by
    have hsum : (raw.elementAddress idx : ℤ)-o.ptr = raw.buf-o.ptr+dot idx raw.strides := by
      rw [he]
      ring
    rw [hsum]
    exact dvd_add haligned (dvd_dot hd.strides idx)
  rw [← Nat.cast_sub hstart] at hdvd
  exact_mod_cast hdvd

/-- The elements are in the buffer as soon as the lowest and the highest are, and
the pointer is aligned. -/
theorem forall_inBuffer_iff (ho : o.OwnsBuffer) (hd : o.Describable raw) :
    (∀ idx, InRange raw.shape idx → o.InBuffer (raw.elementAddress idx)) ↔ o.Encloses raw ∧ o.Aligned raw := by
  constructor
  · intro h
    refine ⟨encloses_of_inBuffer ho hd h, ?_⟩
    obtain ⟨hstart, -, haligned⟩ := elementAddress_zeros hd ▸ h _ (inRange_zeros hd.nonempty)
    rw [Aligned, ← Nat.cast_sub hstart]
    exact_mod_cast haligned
  · rintro ⟨hin, haligned⟩ idx hidx
    exact inBuffer_of_encloses ho hd hin haligned hidx

/-- The end of the buffer as an `isize`. -/
theorem asIsize_span (ho : o.OwnsBuffer) :
    o.ptr+o.itemsize*o.len < 2^63 ∧ asIsize o.span.2 = o.ptr+o.itemsize*o.len ∨
      2^63 ≤ o.ptr+o.itemsize*o.len ∧ asIsize o.span.2 = o.ptr+o.itemsize*o.len-2^64 := by
  have hfits := ho.fits
  have haddress := ho.address
  rw [isizeMax_eq] at hfits
  rw [wordModulus_eq] at haddress
  have hbytes : wrapUsize (o.len*o.itemsize) = o.itemsize*o.len := by
    rw [mul_comm]
    apply wrapUsize_of_lt
    rw [wordModulus_eq]
    omega
  have hend : o.span.2 = wrapUsize (o.ptr+o.itemsize*o.len) := by
    rw [span, hbytes]
  rcases haddress.lt_or_eq with hlt | htop
  · have hcases := asIsize_cases (n := o.ptr+o.itemsize*o.len) (by rw [wordModulus_eq]; exact hlt)
    rw [hend, wrapUsize_of_lt (by rw [wordModulus_eq]; exact hlt)]
    push_cast at hcases ⊢
    exact hcases
  · -- the last byte of the address space belongs to the buffer
    rw [hend, htop]
    right
    have h0 : asIsize (wrapUsize 18446744073709551616) = 0 := by decide
    rw [h0]
    omega

/-- A description inside the buffer is accepted unless the buffer alone is split by
the sign of the addresses. -/
theorem test_of_encloses (ho : o.OwnsBuffer) (h : o.Encloses raw) :
    asIsize o.ptr ≤ wrapIsize (raw.buf+raw.below) ∧
      wrapIsize (raw.buf+raw.above+o.itemsize) ≤ asIsize o.span.2 ↔ ¬ o.SplitsAt raw := by
  obtain ⟨j, hj⟩ := exists_wrapIsize (raw.buf+raw.below)
  obtain ⟨k, hk⟩ := exists_wrapIsize (raw.buf+raw.above+o.itemsize)
  have haddress : o.ptr+o.itemsize*o.len ≤ 2^64 := ho.address
  have hfits : o.itemsize*o.len < 2^63 := Nat.lt_of_le_pred (by decide) ho.fits
  exact signed_inside haddress hfits o.dtype.itemsize_pos (asIsize_cases ho.ptr_lt) (asIsize_span ho)
    ⟨hj, wrapIsize_range _⟩ ⟨hk, wrapIsize_range _⟩ (zero_between _ _).1 (zero_between _ _).2 h

/-- Any other description is accepted when its ends wrap. -/
theorem test_of_not_encloses (ho : o.OwnsBuffer) (hd : o.Describable raw) (h : ¬ o.Encloses raw) :
    asIsize o.ptr ≤ wrapIsize (raw.buf+raw.below) ∧
      wrapIsize (raw.buf+raw.above+o.itemsize) ≤ asIsize o.span.2 ↔ o.WrapsInto raw := by
  have haddress : o.ptr+o.itemsize*o.len ≤ 2^64 := ho.address
  have hfits : o.itemsize*o.len < 2^63 := Nat.lt_of_le_pred (by decide) ho.fits
  have hexact := signed_outside haddress hfits o.dtype.itemsize_pos hd.buffer.buf_lt (asIsize_cases ho.ptr_lt)
    (asIsize_span ho) (asIsize_cases hd.buffer.buf_lt) (zero_between _ _).1 (zero_between _ _).2 h
  have hpointer (z : ℤ) : wrapIsize (raw.buf+z) = wrapIsize (asIsize raw.buf+z) := by
    apply wrapIsize_congr
    push_cast [cast_asIsize]
    rfl
  rw [add_assoc, hpointer, hpointer, ← add_assoc]
  unfold WrapsInto
  constructor
  · rintro ⟨hstart, hstop⟩
    obtain ⟨j, hj⟩ := exists_wrapIsize (asIsize raw.buf+raw.below)
    obtain ⟨k, hk⟩ := exists_wrapIsize (asIsize raw.buf+raw.above+o.itemsize)
    have hlow := wrapIsize_range (asIsize raw.buf+raw.below)
    have hhigh := wrapIsize_range (asIsize raw.buf+raw.above+o.itemsize)
    rw [hj] at hstart hlow
    rw [hk] at hstop hhigh
    refine ⟨j, k, ?_, ⟨hstart, hlow.2⟩, ⟨hhigh.1, hstop⟩⟩
    rintro ⟨rfl, rfl⟩
    rw [mul_zero, add_zero] at hstart hstop
    exact hexact ⟨hstart, hstop⟩
  · rintro ⟨j, k, -, ⟨hstart, hlow⟩, ⟨hhigh, hstop⟩⟩
    have hbottom : -(2^63) ≤ asIsize raw.buf+raw.below+2^64*j := (wrapIsize_range o.ptr).1.trans hstart
    have htop : asIsize raw.buf+raw.above+o.itemsize+2^64*k < 2^63 := hstop.trans_lt (wrapIsize_range _).2
    rw [wrapIsize_eq_of_range hbottom hlow, wrapIsize_eq_of_range hhigh htop]
    exact ⟨hstart, hstop⟩

/-- A view of a non-empty layout, window or strided, keeps the owner alive. -/
theorem viewFromLayout_baseOf {a b : PyArray} {l : Layout} (hne : wrapProduct l.shape ≠ 0)
    (hok : a.viewFromLayout alloc l = .ok b) : b.baseOf = a.baseOf := by
  unfold viewFromLayout at hok
  rw [if_neg hne] at hok
  split at hok
  · obtain ⟨d, -, he⟩ := bind_eq_ok.mp hok
    cases he
    rfl
  · obtain ⟨cache, -, he⟩ := bind_eq_ok.mp hok
    cases he
    rfl

/-- What an accepted description becomes, a window or a strided view: an array of the
owner's with the description's shape and element addresses. -/
theorem viewOfNumpy_shares (ho : o.OwnsBuffer) (hd : o.Describable raw) (halloc : alloc < wordModulus) {v : PyArray}
    (hv : o.viewOfNumpy alloc raw = .ok (some v)) :
    (v.dtype = o.dtype ∧ v.shape = raw.shape ∧ v.baseOf = ⟨o.dtype, o.ptr, o.len⟩) ∧
      ∀ idx, InRange raw.shape idx → v.elementAddress idx = raw.elementAddress idx := by
  have hne : wrapProduct raw.shape ≠ 0 := hd.wrapProduct_ne
  obtain ⟨-, hbytes, hview⟩ := viewOfNumpy_ok hd.buffer hv
  obtain ⟨-, hdtype, hshape, haddr⟩ :=
    viewFromLayout_ok ⟨hd.buffer.strides_length, hd.buffer.buf_lt⟩ hbytes halloc hview
  refine ⟨⟨hdtype, hshape, ?_⟩, ?_⟩
  · rw [viewFromLayout_baseOf hne hview, baseOf, ho.plain, ho.owned]
    rfl
  · intro idx hidx
    symm
    apply eq_elementAddress (wrappingOffset_lt _ _)
    rw [cast_wrappingOffset, haddr hne idx hidx, dot_map_cast]
    rfl

/-- The bounds test is exact except where a wrapped sum comes back into the buffer or
the buffer changes sign below the description. -/
theorem adopts_exactly_iff (ho : o.OwnsBuffer) (hd : o.Describable raw) (halloc : alloc < wordModulus) :
    AdoptsExactly alloc o raw ↔ ¬ o.Misjudges raw := by
  have htest := viewOfNumpy_iff hd alloc
  have hinside := forall_inBuffer_iff ho hd
  constructor
  · -- either kind of misjudged description decides the test the wrong way
    rintro ⟨haccepts, -, -, -⟩ ⟨haligned, hwrong⟩
    rw [htest, hinside] at haccepts
    rcases hwrong with ⟨hwraps, hout⟩ | ⟨hin, hsplit⟩
    · exact hout (haccepts.mp ⟨haligned, (test_of_not_encloses ho hd hout).mpr hwraps⟩).1
    · exact (test_of_encloses ho hin).mp (haccepts.mpr ⟨hin, haligned⟩).2 hsplit
  · intro hright
    have haccepts : (∃ v, o.viewOfNumpy alloc raw = .ok (some v)) ↔
        ∀ idx, InRange raw.shape idx → o.InBuffer (raw.elementAddress idx) := by
      rw [htest, hinside]
      constructor
      · rintro ⟨haligned, hpass⟩
        refine ⟨?_, haligned⟩
        by_contra hout
        exact hright ⟨haligned, .inl ⟨(test_of_not_encloses ho hd hout).mp hpass, hout⟩⟩
      · rintro ⟨hin, haligned⟩
        refine ⟨haligned, (test_of_encloses ho hin).mpr ?_⟩
        intro hsplit
        exact hright ⟨haligned, .inr ⟨hin, hsplit⟩⟩
    refine ⟨haccepts, fun v hv => (viewOfNumpy_shares ho hd halloc hv).1, fun v hv idx hidx => ?_, fun v hv ints hints => ?_⟩
    · exact ⟨(viewOfNumpy_shares ho hd halloc hv).2 idx hidx, haccepts.mp ⟨v, hv⟩ idx hidx⟩
    · obtain ⟨⟨-, hshape, -⟩, helements⟩ := viewOfNumpy_shares ho hd halloc hv
      have hsound : v.Sound := .viewOfNumpy hd.buffer halloc hv
      rw [← hshape] at hints ⊢
      have hidx := (hsound.indexResult_ints (fun q => q) 0 hints).1
      rw [← helements _ (hshape ▸ hidx)]
      exact hsound.accessedAt hints

/-- Every second row of `grid` with its columns reversed. -/
def reversedRows : RawBuffer := ⟨4120, false, 8, "d", [2,4], [64,-8]⟩

theorem grid_ownsBuffer : grid.OwnsBuffer :=
  ⟨rfl, rfl, by decide, by decide, by decide⟩

theorem grid_describable_reversedRows : grid.Describable reversedRows :=
  ⟨⟨by decide, by decide, by decide, by decide, by decide⟩, rfl, rfl, rfl, by decide, by decide, by decide,
    by unfold RawBuffer.ReachesFit; decide⟩

theorem adopts_exactly_iff_reversedRows : AdoptsExactly 8192 grid reversedRows := by
  apply (adopts_exactly_iff grid_ownsBuffer grid_describable_reversedRows (by decide)).mpr
  rintro ⟨-, ⟨-, hout⟩ | ⟨-, ⟨⟨-, hsplit⟩, -⟩⟩⟩
  · apply hout
    unfold Encloses
    decide
  · exact absurd hsplit (by decide)

/-- Two elements in each direction, `2^62` bytes apart. -/
def farApart : RawBuffer := ⟨4096, false, 8, "d", [2,2], [2^62,2^62]⟩

/-- The two reaches wrap to a negative end, and the description is adopted. -/
theorem viewOfNumpy_adopts_foreign :
    ¬ ∀ (alloc : ℕ) (o : PyArray) (raw : RawBuffer), alloc < wordModulus → o.OwnsBuffer → o.Describable raw →
      AdoptsExactly alloc o raw := by
  intro h
  have hd : grid.Describable farApart :=
    ⟨⟨by decide, by decide, by decide, by decide, by decide⟩, rfl, rfl, rfl, by decide, by decide, by decide,
      by unfold RawBuffer.ReachesFit; decide⟩
  have hadopted : ∃ v, grid.viewOfNumpy 8192 farApart = .ok (some v) := by
    apply (viewOfNumpy_iff hd 8192).mpr
    refine ⟨?_, by decide, by decide⟩
    unfold Aligned
    decide
  obtain ⟨-, hstop, -⟩ := (h 8192 grid farApart (by decide) grid_ownsBuffer hd).accepts.mp hadopted [1,0] (by decide)
  exact absurd hstop (by decide)

end PyArray

end LightArray
