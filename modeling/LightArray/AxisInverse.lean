import LightArray.ShapeHelpers

namespace LightArray
open MachineWord RowMajor

section shapes

variable {shape out : List ℕ} {axes axes' : List ℤ} {k m : ℕ}

theorem dropAxes_congr (h : ∀ ax, ax ∈ axes ↔ ax ∈ axes') (shape : List ℕ) : dropAxes axes shape = dropAxes axes' shape := by
  simp only [dropAxes, h]

/-- The new axes have length 1, and the others are the shape as far as it was read. -/
theorem spread_spec (h : spread axes (List.range' k m) shape = .ok out) : out.length = m ∧
    (∀ i < m, ((k+i : ℕ) : ℤ) ∈ axes → out[i]? = some 1) ∧
      ∃ rest, shape = ((out.zipIdx k).filter fun p => (p.2 : ℤ) ∉ axes).map Prod.fst ++ rest := by
  induction m generalizing k shape out with
  | zero =>
    cases h
    exact ⟨rfl, fun i hi => absurd hi (Nat.not_lt_zero i), shape, rfl⟩
  | succ m ih =>
    rw [List.range'_succ] at h
    unfold spread at h
    split_ifs at h with hk
    · obtain ⟨tail, htail, he⟩ := bind_eq_ok.mp h
      cases he
      obtain ⟨hlen, hones, rest, hrest⟩ := ih htail
      refine ⟨by rw [List.length_cons, hlen], fun i hi hmem => ?_, rest, ?_⟩
      · cases i with
        | zero => rfl
        | succ i => exact hones i (by omega) (by rwa [show k+1+i = k+(i+1) by omega])
      · rw [List.zipIdx_cons, List.filter_cons_of_neg (by simpa using hk)]
        exact hrest
    · cases shape with
      | nil => cases h
      | cons d shape =>
        obtain ⟨tail, htail, he⟩ := bind_eq_ok.mp h
        cases he
        obtain ⟨hlen, hones, rest, hrest⟩ := ih htail
        refine ⟨by rw [List.length_cons, hlen], fun i hi hmem => ?_, rest, ?_⟩
        · cases i with
          | zero => exact absurd hmem hk
          | succ i => exact hones i (by omega) (by rwa [show k+1+i = k+(i+1) by omega])
        · rw [List.zipIdx_cons, List.filter_cons_of_pos (by simpa using hk), List.map_cons, List.cons_append]
          exact congrArg (d :: ·) hrest

/-- What `squeeze` asks for after `expand_dims` is the shape before it. -/
theorem squeezedShape_expandedShape (h : expandedShape shape axes = .ok out) :
    squeezedShape out (.tuple axes) = .ok shape ∧ out.length = shape.length+axes.length := by
  obtain ⟨_, hcheck, h⟩ := bind_eq_ok.mp h
  have hrange := checkNewAxes_ok.mp hcheck
  have hperm := List.mergeSort_perm (axes.map (fromEnd (shape.length+axes.length))) (fun a b => decide (a ≤ b))
  dsimp only at h
  split_ifs at h with hdup
  have hnodup : (axes.map (fromEnd (shape.length+axes.length))).mergeSort.Nodup := dedup_length_iff.mp (not_not.mp hdup)
  have hnormal : ∀ ax ∈ (axes.map (fromEnd (shape.length+axes.length))).mergeSort,
      0 ≤ ax ∧ ax < (shape.length+axes.length : ℕ) := by
    intro ax hax
    obtain ⟨ax', hax', rfl⟩ := List.mem_map.mp (hperm.mem_iff.mp hax)
    have hin := hrange ax' hax'
    unfold fromEnd
    split <;> omega
  have hcount : (axes.map (fromEnd (shape.length+axes.length))).mergeSort.length = axes.length := by
    rw [hperm.length_eq, List.length_map]
  have hothers := length_filter_notMem hnodup hnormal hcount
  have hmem (ax : ℤ) : ax ∈ axes.map (fromEnd (shape.length+axes.length)) ↔
      ax ∈ (axes.map (fromEnd (shape.length+axes.length))).mergeSort := hperm.mem_iff.symm
  generalize (axes.map (fromEnd (shape.length+axes.length))).mergeSort = sorted at *
  rw [List.range_eq_range'] at h hothers
  obtain ⟨hlen, hones, rest, hrest⟩ := spread_spec h
  have hkept : (((out.zipIdx 0).filter fun p => (p.2 : ℤ) ∉ sorted).map Prod.fst).length = shape.length := by
    have hindices := congrArg List.length (List.filter_map (p := fun i : ℕ => decide ((i : ℤ) ∉ sorted)) (f := Prod.snd) (l := out.zipIdx 0))
    rw [List.zipIdx_map_snd, hlen, hothers, List.length_map] at hindices
    rw [List.length_map]
    exact hindices.symm
  have hnil : rest = [] := by
    have hlens := congrArg List.length hrest
    rw [List.length_append, hkept] at hlens
    exact List.length_eq_zero_iff.mp (by omega)
  rw [hnil, List.append_nil] at hrest
  rw [← hlen] at hmem
  have hunit : checkUnit out (axes.map (fromEnd out.length)) = .ok () := by
    rw [checkUnit_ok]
    intro ax hax
    have hax' := (hmem ax).mp hax
    obtain ⟨hlo, hhi⟩ := hnormal ax hax'
    refine ⟨ax.toNat, ⟨by omega, .inl (by omega)⟩, hones ax.toNat (by omega) ?_⟩
    rwa [Nat.zero_add, Int.toNat_of_nonneg hlo]
  refine ⟨?_, hlen⟩
  change (checkUnit out (axes.map (fromEnd out.length)) >>= fun _ => _) = _
  rw [hunit]
  exact congrArg Except.ok ((dropAxes_congr hmem out).trans hrest.symm)

end shapes

namespace PyArray

variable {T : Type} {a : PyArray} {alloc : ℕ}

/-- Reshaping a plain array keeps its memory and the addresses of its elements. -/
theorem Sound.reshaped_addresses (h : a.Sound) (hs : a.strided = none) {mem mem' : ℕ → T} {cache : a.Cache T} {b : PyArray}
    {shape : List ℕ} (hprod : shape.prod = a.len) (hok : a.reshaped alloc mem cache shape = .ok (b,mem')) :
    mem' = mem ∧ b.rowOrder = a.rowOrder := by
  have hb := (h.reshaped hok).1
  obtain ⟨hview, rfl⟩ := h.reshaped_plain hs hok
  have hlen : b.len = b.shape.prod := by rw [hb.len_eq, hb.shape_eq, hprod]
  exact ⟨rfl, rowOrder_eq_of_sameData (reshapeView_sameData hview) hs h.len hlen⟩

/-- Squeezing the axes `expand_dims` inserted gives back an array of the same shape and
elements, and of the same memory when the array was no strided view. -/
theorem squeeze_expandDims (h : a.Sound) (hdim : ∀ d ∈ a.shape, d ≤ isizeMax) {axes : List ℤ}
    (hv : (HelperCall.expandDims (.tuple axes)).Valid a.shape) (halloc : alloc < wordModulus) (alloc' : ℕ)
    (mem : ℕ → T) (cache : a.Cache T) :
    ∃ b mem', a.expandDims alloc mem cache (.tuple axes) = .ok (some (b,mem')) ∧ b.shape.length = a.shape.length+axes.length ∧
      ∀ cacheB : b.Cache T, ∃ c, b.squeeze alloc' mem' cacheB (.tuple axes) = .ok (some (c,mem')) ∧
        c.shape = a.shape ∧ c.data mem' = a.rowOrder.map mem ∧
          (a.strided = none → mem' = mem ∧ c.rowOrder = a.rowOrder) := by
  obtain ⟨axes', haxes, hndim, hrange, hnodup⟩ := hv
  cases haxes
  obtain ⟨out, hout, hlen, hprod, hmem⟩ := expandedShape_valid hrange hnodup
  obtain ⟨hback, -⟩ := squeezedShape_expandedShape hout
  have hisize : ∀ d ∈ out, d ≤ isizeMax := by
    intro d hd
    rcases hmem d hd with rfl | hd
    · decide
    · exact hdim d hd
  have hword {s : List ℕ} (hs : ∀ d ∈ s, d ≤ isizeMax) : ∀ d ∈ s, d < wordModulus := by
    intro d hd
    have hle := hs d hd
    rw [isizeMax_eq] at hle
    rw [wordModulus_eq]
    omega
  have hcount : out.prod = a.len := hprod.trans h.len.symm
  obtain ⟨b, mem', hcall, hreshape⟩ := h.reshapeList alloc mem cache hisize (hlen ▸ hndim) hcount
  obtain ⟨hb, hplain, hdata⟩ := h.reshaped hreshape
  have hbs := h.reshaped_sound halloc (hword hisize) hcount hreshape
  have hexpand : a.expandDims alloc mem cache (.tuple axes) = .ok (some (b,mem')) := by
    change (expandedShape a.shape axes >>= fun shape => _) = _
    rw [hout]
    exact hcall
  refine ⟨b, mem', hexpand, by rw [hb.shape_eq, hlen], fun cacheB => ?_⟩
  have hcountB : a.shape.prod = b.len := by rw [hb.len_eq, h.len]
  obtain ⟨c, mem'', hcallC, hreshapeC⟩ := hbs.reshapeList alloc' mem' cacheB hdim a.dims.ndim_le hcountB
  obtain ⟨hc, -, hdataC⟩ := hbs.reshaped hreshapeC
  obtain ⟨rfl, haddr⟩ := hbs.reshaped_addresses hplain hcountB hreshapeC
  refine ⟨c, ?_, hc.shape_eq, ?_, fun hs => ?_⟩
  · rw [squeeze, hb.shape_eq, hback]
    exact hcallC
  · rw [hdataC, ← data_plain hplain hbs.len, hdata]
  · obtain ⟨hsame, haddrB⟩ := h.reshaped_addresses hs hcount hreshape
    exact ⟨hsame, haddr.trans haddrB⟩

/-- Two axes of `grid.T`, the second counted from the end. -/
theorem squeeze_expandDims_grid : ∃ b mem',
    gridColumns.expandDims 16384 (fun p => p) ⟨List.replicate 12 0, rfl⟩ (.tuple [0,-2]) = .ok (some (b,mem')) ∧
      b.shape.length = gridColumns.shape.length+2 := by
  have hv : HelperCall.Valid gridColumns.shape (.expandDims (.tuple [0,-2])) :=
    ⟨[0,-2], rfl, by decide, by decide, by decide⟩
  have halloc : 16384 < wordModulus := by decide
  obtain ⟨b, mem', hb, hlen, -⟩ := squeeze_expandDims gridColumns_reached.sound (by decide) hv halloc 32768
    (fun p => p) ⟨List.replicate 12 0, rfl⟩
  exact ⟨b, mem', hb, hlen⟩

end PyArray

end LightArray
