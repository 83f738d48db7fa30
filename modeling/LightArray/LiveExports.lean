import LightArray.AccessPaths

namespace LightArray
open MachineWord RowMajor

/-- What a consumer holds. -/
inductive Handle
  | buffer (b : PyBuffer)
  | tensor (t : DlTensor)
  deriving DecidableEq

/-- What a consumer reads through its handle: the number of dimensions, that many
shape and stride entries, and the data pointer. -/
structure Reading where
  ndim : ℕ
  shape : List ℤ
  strides : List ℤ
  data : ℕ
  deriving DecidableEq

/-- The pointers of a buffer are followed at the time of reading. -/
def Handle.read (a : PyArray) : Handle → Reading
  | .buffer b => ⟨b.ndim, (a.bufferShape b).map asIsize, a.bufferStrides b, b.buf⟩
  | .tensor t => ⟨t.ndim, t.shape.take t.ndim, t.strides.take t.ndim, t.data⟩

/-- A handle with what its consumer read when it was exported. -/
structure LiveExport where
  id : ℕ
  handle : Handle
  atExport : Reading
  deriving DecidableEq

/-- One array with its live exports. -/
structure Exports where
  array : PyArray
  live : List LiveExport
  nextId : ℕ
  deriving DecidableEq

inductive ExportOp
  | getBuffer (flags : BufferFlags)
  | dlpack
  | assignShape (raw : List ℤ)
  | release (id : ℕ)

namespace Exports

/-- Hand out a handle. -/
def handOut (s : Exports) (handle : Handle) : Exports :=
  {s with
    live := s.live ++ [⟨s.nextId, handle, handle.read s.array⟩]
    nextId := s.nextId+1}

def step (s : Exports) : ExportOp → Except Failure Exports
  | .getBuffer flags => do
    let b ← s.array.getBuffer flags
    .ok (s.handOut (.buffer b))
  | .dlpack => .ok (s.handOut (.tensor s.array.exportTensor))
  | .assignShape raw => do
    let a ← s.array.assignShape raw
    .ok {s with array := a}
  | .release id => .ok {s with live := s.live.filter (·.id ≠ id)}

/-- Every consumer still reads what it read at export time. -/
def Stable (s : Exports) : Prop := ∀ e ∈ s.live, e.handle.read s.array = e.atExport

instance (s : Exports) : Decidable s.Stable :=
  inferInstanceAs (Decidable (∀ e ∈ s.live, e.handle.read s.array = e.atExport))

/-- The bytes behind the first `n` axes, as a word. -/
def bytesBehind (itemsize n : ℕ) (shape : List ℕ) : ℕ := wrapUsize (itemsize*(shape.drop n).prod)

/-- A shape is assigned only if it begins with the `ndim` dimensions that every live buffer shows, and those
behind them take as many bytes as before. -/
def Keeps (s : Exports) : ExportOp → Prop
  | .assignShape raw =>
    ∀ e ∈ s.live, ∀ b, e.handle = .buffer b →
      (fillIn (s.array.len/knownSize raw) raw).take b.ndim = s.array.shape.take b.ndim ∧
        (0 < b.ndim → bytesBehind s.array.dtype.itemsize b.ndim (fillIn (s.array.len/knownSize raw) raw) =
          bytesBehind s.array.dtype.itemsize b.ndim s.array.shape)
  | _ => True

end Exports

/-- Buffers are requested with shape and strides; dimensions are `isize` values. -/
def ExportOp.Valid : ExportOp → Prop
  | .getBuffer flags => flags.includes pyBufStrides
  | .assignShape raw => ∀ d ∈ raw, -(2^63) ≤ d ∧ d < 2^63
  | _ => True

/-- The interleavings of exports, assignments and releases that `permitted` allows. -/
inductive ExportRun (permitted : Exports → ExportOp → Prop) (a : PyArray) : Exports → Prop
  | start : ExportRun permitted a ⟨a, [], 0⟩
  | step {s s' : Exports} {op : ExportOp} (run : ExportRun permitted a s) (valid : op.Valid)
      (allowed : permitted s op) (ok : s.step op = .ok s') : ExportRun permitted a s'

section inline

variable {a a' : PyArray} {b : PyBuffer}

/-- A buffer of a contiguous array: scalars export neither shape nor strides. -/
def PyBuffer.Inline (b : PyBuffer) : Prop := b.ndim = 0 ∨ b.shape = .dims ∧ b.strides = .dims

theorem fillBuffer_inline {flags : BufferFlags} (hs : a.strided = none)
    (hf : flags.includes pyBufStrides) : (a.fillBuffer flags).Inline := by
  have hnd : flags.includes pyBufNd = true := PyArray.includes_of_subset (by decide) hf
  by_cases hz : 0 < a.dims.ndim
  · right
    simp [PyArray.fillBuffer, hs, hf, hnd, hz]
  · left
    simp only [PyArray.fillBuffer, hnd, ↓reduceIte]
    exact Nat.le_zero.mp (not_lt.mp hz)

theorem PyBuffer.Inline.read_eq (h : b.Inline) (a : PyArray) : (Handle.buffer b).read a =
    ⟨b.ndim, (a.dims.shapeCells.take b.ndim).map asIsize, a.dims.strideCells.take b.ndim, b.buf⟩ := by
  rcases h with hz | ⟨hshape, hstrides⟩
  · have hnone : a.bufferShape b = [] := by
      rw [PyArray.bufferShape, hz, List.take_zero, ite_self]
    have hnone' : a.bufferStrides b = [] := by
      unfold PyArray.bufferStrides
      split <;> simp [hz]
    simp only [Handle.read, hnone, hnone', hz, List.take_zero, List.map_nil]
  · simp only [Handle.read, PyArray.bufferShape, PyArray.bufferStrides, hshape, hstrides,
      reduceCtorEq, ↓reduceIte]

theorem map_asIsize_injective {l l' : List ℕ} (hl : ∀ n ∈ l, n < wordModulus)
    (hl' : ∀ n ∈ l', n < wordModulus) (h : l.map asIsize = l'.map asIsize) : l = l' := by
  have hback (l : List ℕ) (hl : ∀ n ∈ l, n < wordModulus) : (l.map asIsize).map asUsize = l := by
    rw [List.map_map]
    conv_rhs => rw [← List.map_id l]
    apply List.map_congr_left
    intro n hn
    rw [Function.comp_apply, id]
    exact eq_of_cast_eq (asUsize_lt _) (hl n hn) ((cast_asUsize _).trans (cast_asIsize n))
  rw [← hback l hl, h, hback l' hl']

theorem shapeCells_lt {s : ℕ} {d : Dims s} (h : ∀ n ∈ d.shape, n < wordModulus) :
    ∀ n ∈ d.shapeCells, n < wordModulus := by
  intro n hn
  rcases List.mem_append.mp hn with hn | hn
  · exact h n hn
  · rw [List.eq_of_mem_replicate hn]
    decide

/-- The readings of a buffer before and after are equal exactly when its cells are. -/
theorem PyBuffer.Inline.read_eq_iff (h : b.Inline) (ha : ∀ n ∈ a.shape, n < wordModulus)
    (ha' : ∀ n ∈ a'.shape, n < wordModulus) :
    (Handle.buffer b).read a' = (Handle.buffer b).read a ↔
      a'.dims.shapeCells.take b.ndim = a.dims.shapeCells.take b.ndim ∧
        a'.dims.strideCells.take b.ndim = a.dims.strideCells.take b.ndim := by
  rw [h.read_eq, h.read_eq]
  constructor
  · intro he
    injection he with _ hshape hstrides _
    refine ⟨map_asIsize_injective ?_ ?_ hshape, hstrides⟩
    · exact fun n hn => shapeCells_lt ha' n (List.mem_of_mem_take hn)
    · exact fun n hn => shapeCells_lt ha n (List.mem_of_mem_take hn)
  · rintro ⟨hshape, hstrides⟩
    rw [hshape, hstrides]

end inline

section cells

variable {s n : ℕ} {l l' : List ℕ}

theorem wrapIsize_eq_iff {a b : ℕ} : wrapIsize a = wrapIsize b ↔ wrapUsize a = wrapUsize b := by
  have hword : wrapIsize a = wrapIsize b ↔ (a : Word) = b := by
    refine ⟨fun h => ?_, fun h => wrapIsize_congr (by exact_mod_cast h)⟩
    have hcast := congrArg (fun z : ℤ => (z : Word)) h
    simpa using hcast
  rw [hword]
  exact ZMod.natCast_eq_natCast_iff' a b wordModulus

/-- Behind equal leading dimensions the strides differ only by what lies behind them all. -/
theorem strides_take_iff (hl : n ≤ l.length) (h : l'.take n = l.take n) :
    ((unitStrides l').take n).map (fun p => wrapIsize (s*p : ℕ)) = ((unitStrides l).take n).map (fun p => wrapIsize (s*p : ℕ)) ↔
      (0 < n → Exports.bytesBehind s n l' = Exports.bytesBehind s n l) := by
  induction n generalizing l l' with
  | zero => simp
  | succ n ih =>
    obtain ⟨a, l, rfl⟩ := List.exists_cons_of_length_pos (Nat.zero_lt_of_lt hl)
    cases l' with
    | nil => cases h
    | cons b l' =>
      rw [List.take_succ_cons, List.take_succ_cons] at h
      obtain ⟨rfl, htake⟩ := List.cons.inj h
      have hih := ih (Nat.le_of_succ_le_succ hl) htake
      have hbehind (m : List ℕ) : Exports.bytesBehind s (n+1) (b :: m) = Exports.bytesBehind s n m := rfl
      rw [unitStrides, unitStrides, List.take_succ_cons, List.take_succ_cons, List.map_cons, List.map_cons, List.cons.injEq,
        hih, hbehind, hbehind, forall_prop_of_true (Nat.succ_pos n)]
      have hprod (m : List ℕ) : m.prod = (m.take n).prod*(m.drop n).prod := by
        rw [← List.prod_append, List.take_append_drop]
      have hhead (hb : Exports.bytesBehind s n l' = Exports.bytesBehind s n l) :
          wrapIsize (s*l'.prod : ℕ) = wrapIsize (s*l.prod : ℕ) := by
        have hword : ((s*(l'.drop n).prod : ℕ) : Word) = (s*(l.drop n).prod : ℕ) :=
          (ZMod.natCast_eq_natCast_iff' _ _ _).mpr hb
        apply wrapIsize_congr
        rw [Int.cast_natCast, Int.cast_natCast, hprod l', hprod l, htake, Nat.mul_left_comm, Nat.cast_mul, hword, ← Nat.cast_mul,
          Nat.mul_left_comm]
      constructor
      · rintro ⟨hfirst, htail⟩
        cases n with
        | zero => exact wrapIsize_eq_iff.mp hfirst
        | succ n => exact htail (Nat.succ_pos n)
      · intro hb
        exact ⟨hhead hb, fun _ => hb⟩

/-- Where the dims have `n` axes the first cells are the dimensions, and the strides their byte counts. -/
theorem cells_take {d : Dims s} (hn : n ≤ d.shape.length) : d.shapeCells.take n = d.shape.take n ∧
    d.strideCells.take n = ((unitStrides d.shape).take n).map fun p => wrapIsize (s*p : ℕ) := by
  have hstrides : n ≤ d.strides.length := d.length_strides ▸ hn
  rw [Dims.shapeCells, Dims.strideCells, List.take_append_of_le_length hn, List.take_append_of_le_length hstrides,
    d.strides_eq_map, List.map_take]
  exact ⟨rfl, rfl⟩

/-- A stride that is not zero belongs to an axis. -/
theorem lt_of_strideCells {d : Dims s} {z : ℤ} (hz : z ≠ 0) (h : d.strideCells[n]? = some z) : n < d.shape.length := by
  by_contra hn
  have hle : d.strides.length ≤ n := d.length_strides ▸ not_lt.mp hn
  rw [Dims.strideCells, List.getElem?_append_right hle] at h
  exact hz (List.eq_of_mem_replicate (List.mem_of_getElem? h))

/-- The cells that a buffer shows stay as they are exactly when its dimensions and the bytes behind them do. -/
theorem cells_eq_iff {d d' : Dims s} (hlast : 0 < n → ∃ z, z ≠ 0 ∧ d.strideCells[n-1]? = some z) :
    d'.shapeCells.take n = d.shapeCells.take n ∧ d'.strideCells.take n = d.strideCells.take n ↔
      d'.shape.take n = d.shape.take n ∧
        (0 < n → Exports.bytesBehind s n d'.shape = Exports.bytesBehind s n d.shape) := by
  rcases Nat.eq_zero_or_pos n with rfl | hpos
  · simp
  obtain ⟨z, hz, hcell⟩ := hlast hpos
  have hn : n ≤ d.shape.length := Nat.le_of_pred_lt (lt_of_strideCells hz hcell)
  have hboth (hn' : n ≤ d'.shape.length) : d'.shapeCells.take n = d.shapeCells.take n ∧
      d'.strideCells.take n = d.strideCells.take n ↔ d'.shape.take n = d.shape.take n ∧
        (0 < n → Exports.bytesBehind s n d'.shape = Exports.bytesBehind s n d.shape) := by
    rw [(cells_take hn).1, (cells_take hn).2, (cells_take hn').1, (cells_take hn').2]
    exact and_congr_right fun h => strides_take_iff hn h
  constructor
  · intro h
    have hcell' : d'.strideCells[n-1]? = some z := by
      rw [← hcell, ← List.getElem?_take_of_lt (Nat.sub_one_lt_of_lt hpos), h.2, List.getElem?_take_of_lt (Nat.sub_one_lt_of_lt hpos)]
    exact (hboth (Nat.le_of_pred_lt (lt_of_strideCells hz hcell'))).mp h
  · intro h
    have hlen := congrArg List.length h.1
    rw [List.length_take, List.length_take, min_eq_left hn] at hlen
    exact (hboth (hlen ▸ min_le_right _ _)).mpr h

end cells

namespace Exports

variable {s s' : Exports} {op : ExportOp} {a : PyArray} {permitted : Exports → ExportOp → Prop}

/-- A contiguous array with a word-sized length, and buffers that point into it. -/
structure Inv (s : Exports) : Prop where
  plain : s.array.strided = none
  len_lt : s.array.len < wordModulus
  usize : ∀ d ∈ s.array.shape, d < wordModulus
  inline : ∀ e ∈ s.live, ∀ b, e.handle = .buffer b → b.Inline
  last : ∀ e ∈ s.live, ∀ b, e.handle = .buffer b → 0 < b.ndim →
    e.atExport.strides[b.ndim-1]? = some (s.array.dtype.itemsize : ℤ)

theorem inv_handOut (h : s.Inv) {handle : Handle} (hb : ∀ b, handle = .buffer b → b.Inline)
    (hlast : ∀ b, handle = .buffer b → 0 < b.ndim →
      (handle.read s.array).strides[b.ndim-1]? = some (s.array.dtype.itemsize : ℤ)) :
    (s.handOut handle).Inv := by
  refine ⟨h.plain, h.len_lt, h.usize, fun e he => ?_, fun e he => ?_⟩
  · rcases List.mem_append.mp he with he | he
    · exact h.inline e he
    · obtain rfl := List.mem_singleton.mp he
      exact hb
  · rcases List.mem_append.mp he with he | he
    · exact h.last e he
    · obtain rfl := List.mem_singleton.mp he
      exact hlast

/-- The last stride of a new buffer is the size of an element. -/
theorem last_fillBuffer {flags : BufferFlags} {a : PyArray} (hs : a.strided = none) (hf : flags.includes pyBufStrides)
    (hpos : 0 < (a.fillBuffer flags).ndim) :
    ((Handle.buffer (a.fillBuffer flags)).read a).strides[(a.fillBuffer flags).ndim-1]? = some (a.dtype.itemsize : ℤ) := by
  have hnd : flags.includes pyBufNd = true := PyArray.includes_of_subset (by decide) hf
  have hndim : (a.fillBuffer flags).ndim = a.shape.length := by
    simp only [PyArray.fillBuffer, hnd, ↓reduceIte]
    rfl
  rw [(fillBuffer_inline hs hf).read_eq]
  rw [hndim] at hpos ⊢
  show (a.dims.strideCells.take a.dims.shape.length)[a.shape.length-1]? = _
  rw [(cells_take le_rfl).2]
  have hlen : (unitStrides a.dims.shape).length ≤ a.dims.shape.length := (length_unitStrides _).le
  have hone : (unitStrides a.dims.shape)[a.shape.length-1]? = some 1 := getElem?_unitStrides_last hpos
  rw [List.take_of_length_le hlen, List.getElem?_map, hone, Option.map_some, mul_one]
  have hsize : a.dtype.itemsize ≤ isizeMax := by
    cases a.dtype <;> decide
  exact congrArg some (asIsize_of_le hsize)

/-- A new handle reads now what it reads at export time. -/
theorem stable_handOut (hs : s.Stable) (handle : Handle) : (s.handOut handle).Stable := by
  intro e he
  rcases List.mem_append.mp he with he | he
  · exact hs e he
  · rw [List.mem_singleton] at he
    subst he
    rfl

theorem assign_ok {raw : List ℤ} (h : s.step (.assignShape raw) = .ok s') :
    ∃ d : Dims s.array.dtype.itemsize, d.shape = fillIn (s.array.len/knownSize raw) raw ∧
      s' = {s with array := {s.array with dims := d}} := by
  obtain ⟨a, ha, he⟩ := bind_eq_ok.mp h
  cases he
  have hshape := (PyArray.assignShape_ok ha).2.2.shape_eq
  unfold PyArray.assignShape at ha
  split at ha
  · cases ha
  · obtain ⟨shape, -, hset⟩ := bind_eq_ok.mp ha
    unfold PyArray.setShape at hset
    split at hset
    · cases hset
    · obtain ⟨d, hd, he⟩ := bind_eq_ok.mp hset
      cases he
      exact ⟨d, hshape, rfl⟩

theorem inv_step (h : s.Inv) (hv : op.Valid) (hok : s.step op = .ok s') : s'.Inv := by
  cases op with
  | getBuffer flags =>
    obtain ⟨b, hb, he⟩ := bind_eq_ok.mp hok
    cases he
    have hfill := PyArray.getBuffer_ok hb
    subst hfill
    refine inv_handOut h (fun b' hb' => ?_) fun b' hb' hpos => ?_
    · cases hb'
      exact fillBuffer_inline h.plain hv
    · cases hb'
      exact last_fillBuffer h.plain hv hpos
  | dlpack =>
    cases hok
    exact inv_handOut h nofun nofun
  | assignShape raw =>
    obtain ⟨d, hd, rfl⟩ := assign_ok hok
    refine ⟨h.plain, h.len_lt, ?_, h.inline, h.last⟩
    show ∀ n ∈ d.shape, n < wordModulus
    rw [hd]
    exact fillIn_usize h.len_lt hv
  | release id =>
    cases hok
    exact ⟨h.plain, h.len_lt, h.usize, fun e he => h.inline e (List.mem_of_mem_filter he),
      fun e he => h.last e (List.mem_of_mem_filter he)⟩

/-- While a buffer reads what it read at export time, its last stride is that of an axis. -/
theorem last_of_stable (h : s.Inv) (hs : s.Stable) {e : LiveExport} (he : e ∈ s.live) {b : PyBuffer} (hb : e.handle = .buffer b)
    (hpos : 0 < b.ndim) : ∃ z : ℤ, z ≠ 0 ∧ s.array.dims.strideCells[b.ndim-1]? = some z := by
  refine ⟨s.array.dtype.itemsize, Int.natCast_ne_zero.mpr s.array.dtype.itemsize_pos.ne', ?_⟩
  have hlast := h.last e he b hb hpos
  rw [← hs e he, hb, (h.inline e he b hb).read_eq] at hlast
  exact (List.getElem?_take_of_lt (Nat.sub_one_lt_of_lt hpos)).symm.trans hlast

/-- One step keeps all readings exactly when it keeps what live buffers show. -/
theorem stable_step (h : s.Inv) (hs : s.Stable) (hv : op.Valid) (hok : s.step op = .ok s') :
    s'.Stable ↔ s.Keeps op := by
  cases op with
  | getBuffer flags =>
    obtain ⟨b, hb, he⟩ := bind_eq_ok.mp hok
    cases he
    exact iff_of_true (stable_handOut hs _) trivial
  | dlpack =>
    cases hok
    exact iff_of_true (stable_handOut hs _) trivial
  | assignShape raw =>
    have hinv := inv_step h hv hok
    obtain ⟨d, hd, rfl⟩ := assign_ok hok
    have hread {e : LiveExport} (he : e ∈ s.live) {b : PyBuffer} (hb : e.handle = .buffer b) :
        e.handle.read {s.array with dims := d} = e.handle.read s.array ↔
          d.shape.take b.ndim = s.array.shape.take b.ndim ∧
            (0 < b.ndim → bytesBehind s.array.dtype.itemsize b.ndim d.shape =
              bytesBehind s.array.dtype.itemsize b.ndim s.array.shape) := by
      rw [hb]
      exact ((h.inline e he b hb).read_eq_iff h.usize hinv.usize).trans (cells_eq_iff (last_of_stable h hs he hb))
    constructor
    · intro hstable e he b hb
      rw [← hd]
      exact (hread he hb).mp ((hstable e he).trans (hs e he).symm)
    · intro hkeep e he
      cases hb : e.handle with
      | tensor t =>
        have hthen := hs e he
        rw [hb] at hthen
        exact hthen
      | buffer b =>
        have hkeep' := hkeep e he b hb
        rw [← hd] at hkeep'
        have hnow := (hread he hb).mpr hkeep'
        rw [hb] at hnow
        exact hnow.trans (hb ▸ hs e he)
  | release id =>
    cases hok
    exact iff_of_true (fun e he => hs e (List.mem_of_mem_filter he)) trivial

theorem run_inv (hs : a.strided = none) (hlen : a.len < wordModulus)
    (hu : ∀ d ∈ a.shape, d < wordModulus) (h : ExportRun permitted a s) : s.Inv := by
  induction h with
  | start => exact ⟨hs, hlen, hu, nofun, nofun⟩
  | step _ valid _ ok ih => exact inv_step ih valid ok

theorem run_stable (hs : a.strided = none) (hlen : a.len < wordModulus)
    (hu : ∀ d ∈ a.shape, d < wordModulus) (h : ExportRun Keeps a s) : s.Stable := by
  induction h with
  | start => exact nofun
  | step run valid allowed ok ih => exact (stable_step (run_inv hs hlen hu run) ih valid ok).mpr allowed

end Exports

/-- Live exports are stable along every run whose assignments keep what live buffers show, and the first
assignment that does not breaks one. -/
theorem live_exports_stable_iff_keeps {allowed : PyArray → ShapeOp → Prop} {a : PyArray}
    (h : Reached allowed a) (hs : a.strided = none) (hu : ∀ d ∈ a.shape, d < wordModulus) :
    (∀ s, ExportRun Exports.Keeps a s → s.Stable) ∧
      ∀ s s' op, ExportRun Exports.Keeps a s → op.Valid → s.step op = .ok s' →
        (s'.Stable ↔ s.Keeps op) := by
  have hlen : a.len < wordModulus := by
    rw [h.stored.len, wrapProduct_eq]
    exact wrapUsize_lt _
  refine ⟨fun s hrun => Exports.run_stable hs hlen hu hrun, fun s s' op hrun hv hok => ?_⟩
  exact Exports.stable_step (Exports.run_inv hs hlen hu hrun) (Exports.run_stable hs hlen hu hrun) hv hok

/-- `grid` with a live buffer. -/
def gridExported : Exports :=
  (⟨grid, [], 0⟩ : Exports).handOut (.buffer (grid.fillBuffer pyBufStrides))

theorem exportRun_gridExported {permitted : Exports → ExportOp → Prop}
    (h : permitted ⟨grid, [], 0⟩ (.getBuffer pyBufStrides)) :
    ExportRun permitted grid gridExported := by
  have hvalid : ExportOp.Valid (.getBuffer pyBufStrides) := by
    unfold ExportOp.Valid
    decide
  have hstep : (⟨grid, [], 0⟩ : Exports).step (.getBuffer pyBufStrides) = .ok gridExported := by
    decide +kernel
  exact .step .start hvalid h hstep

/-- `gridExported` after `grid.shape = (3, 4, 1)`. -/
def gridExtended : Exports := ⟨{grid with dims := ⟨[3,4,1], [32,8,8], by decide, by decide⟩}, gridExported.live, 1⟩

/-- The new axis is one that the consumer does not read. -/
theorem live_exports_stable_iff_keeps_grid : gridExtended.Stable := by
  have hgrid : Reached (fun _ _ => True) grid := .owner grid_ownerWf
  have hvalid : ExportOp.Valid (.assignShape [3,4,1]) := by
    unfold ExportOp.Valid
    decide
  have hkeeps : gridExported.Keeps (.assignShape [3,4,1]) := by
    intro e he b hb
    obtain rfl := List.mem_singleton.mp he
    cases hb
    decide +kernel
  have hok : gridExported.step (.assignShape [3,4,1]) = .ok gridExtended := by
    decide +kernel
  exact (live_exports_stable_iff_keeps hgrid rfl (by decide)).1 _
    (.step (exportRun_gridExported trivial) hvalid hkeeps hok)

/-- `grid.shape = (4, 3)` changes what the consumer of a live buffer reads. -/
theorem assignShape_changes_live_buffer :
    ¬ ∀ (a : PyArray) (s : Exports), Reached (fun _ _ => True) a → a.strided = none →
      (∀ d ∈ a.shape, d < wordModulus) → ExportRun (fun _ _ => True) a s → s.Stable := by
  intro h
  have hgrid : Reached (fun _ _ => True) grid := .owner grid_ownerWf
  have hvalid : ExportOp.Valid (.assignShape [4,3]) := by
    unfold ExportOp.Valid
    decide
  have hok : gridExported.step (.assignShape [4,3]) = .ok
      ⟨{grid with dims := ⟨[4,3], [24,8], by decide, by decide⟩}, gridExported.live, 1⟩ := by
    decide +kernel
  have hrun : ExportRun (fun _ _ => True) grid gridExported := exportRun_gridExported trivial
  have hstable := h grid _ hgrid rfl (by decide) (.step hrun hvalid trivial hok)
  exact absurd hstable (by decide +kernel)

end LightArray
