import LightArray.RowMajor

namespace RowMajor

/-- One axis of an odometer. `rewind` receives the exhausted coordinate. -/
structure Axis (σ : Type*) where
  len : ℕ
  inc : σ → σ
  rewind : ℕ → σ → σ

variable {σ : Type*}

/-- One step, from the innermost axis outwards. The flag reports that every
axis was exhausted and rewound. -/
def advance : List (Axis σ) → List ℕ → σ → Bool × List ℕ × σ
  | ax :: axes, i :: is, o =>
    match advance axes is o with
    | (false, is', o') => (false, i :: is', o')
    | (true, is', o') =>
      if i+1 < ax.len then (false, (i+1) :: is', ax.inc o')
      else (true, 0 :: is', ax.rewind (i+1) (ax.inc o'))
  | _, _, o => (true, [], o)

/-- The first `n` positions visited, each with the state it is visited in. -/
def visits (axes : List (Axis σ)) : ℕ → List ℕ → σ → List (List ℕ × σ)
  | 0, _, _ => []
  | n+1, idx, o =>
    (idx,o) :: visits axes n (advance axes idx o).2.1 (advance axes idx o).2.2

/-- The axis lengths of an odometer. -/
def lens (axes : List (Axis σ)) : List ℕ := axes.map Axis.len

@[simp] theorem lens_nil : lens ([] : List (Axis σ)) = [] := rfl

@[simp] theorem lens_cons (ax : Axis σ) (axes : List (Axis σ)) :
    lens (ax :: axes) = ax.len :: lens axes := rfl

@[simp] theorem length_lens (axes : List (Axis σ)) : (lens axes).length = axes.length :=
  List.length_map ..

@[simp] theorem length_visits (axes : List (Axis σ)) (n : ℕ) (idx : List ℕ) (o : σ) : (visits axes n idx o).length = n := by
  induction n generalizing idx o with
  | zero => rfl
  | succ n ih => rw [visits, List.length_cons, ih]

section exact

variable {R : Type*} [CommRing R] (cast : σ → R)

/-- A step adds the weight and a rewind of the whole axis takes it all back. -/
def ExactAxis (ax : Axis σ) (w : R) : Prop :=
  (∀ o, cast (ax.inc o) = cast o+w) ∧
    ∀ o, cast (ax.rewind ax.len o) = cast o-ax.len*w

/-- One step moves the state by the difference of the linear forms. -/
theorem advance_cast {axes : List (Axis σ)} {ws : List R}
    (hw : List.Forall₂ (ExactAxis cast) axes ws) (idx : List ℕ) (o : σ)
    (h : InRange (lens axes) idx) :
    cast (advance axes idx o).2.2 = cast o+dot (advance axes idx o).2.1 ws-dot idx ws := by
  induction hw generalizing idx o with
  | nil => simp [advance]
  | @cons ax w axes ws hx _ ih =>
    obtain ⟨i, is, rfl, hi, his⟩ := h.cases_cons
    have ht := ih is o his
    rcases hadv : advance axes is o with ⟨carry, is', o'⟩
    rw [hadv] at ht
    cases carry with
    | false =>
      simp only [advance, hadv, dot_cons]
      rw [ht]
      ring
    | true =>
      by_cases hlt : i+1 < ax.len
      · simp only [advance, hadv, if_pos hlt, dot_cons, hx.1]
        rw [ht]
        push_cast
        ring
      · -- the axis is at its end: it goes back to 0 and passes the carry on
        have hlen : i+1 = ax.len := by omega
        have hlenR : (ax.len : R) = i+1 := by rw [← hlen]; push_cast; ring
        simp only [advance, hadv, if_neg hlt, dot_cons]
        rw [hlen, hx.2, hx.1, ht, hlenR]
        push_cast
        ring

end exact

/-- One step visits the next row-major position, or starts over after the last. -/
theorem advance_position (axes : List (Axis σ)) (idx : List ℕ) (o : σ)
    (h : InRange (lens axes) idx) :
    (advance axes idx o).1 = false ∧ InRange (lens axes) (advance axes idx o).2.1 ∧
        flat (lens axes) (advance axes idx o).2.1 = flat (lens axes) idx+1 ∨
    (advance axes idx o).1 = true ∧ (advance axes idx o).2.1 = List.replicate axes.length 0 ∧
        flat (lens axes) idx+1 = (lens axes).prod := by
  induction axes generalizing idx o with
  | nil =>
    rw [lens_nil, inRange_nil] at h
    subst h
    exact Or.inr ⟨rfl, rfl, rfl⟩
  | cons ax axes ih =>
    obtain ⟨i, is, rfl, hi, his⟩ := h.cases_cons
    rcases ih is o his with ⟨hc, hr, hf⟩ | ⟨hc, hz, hf⟩
    · left
      have hadv : advance axes is o = (false, (advance axes is o).2) := by rw [← hc]
      rw [advance, hadv]
      refine ⟨rfl, inRange_cons.mpr ⟨hi, hr⟩, ?_⟩
      rw [lens_cons, flat, flat, hf, add_assoc]
    · have hadv : advance axes is o = (true, (advance axes is o).2) := by rw [← hc]
      have hzero : InRange (lens axes) (List.replicate (lens axes).length 0) :=
        inRange_zeros his.prod_pos
      have hflat0 := flat_zeros (lens axes)
      rw [length_lens] at hzero hflat0
      rw [advance, hadv]
      by_cases hlt : i+1 < ax.len
      · left
        simp only [if_pos hlt]
        refine ⟨trivial, inRange_cons.mpr ⟨hlt, hz ▸ hzero⟩, ?_⟩
        rw [lens_cons, hz, flat, flat, hflat0, ← hf]
        ring
      · -- every digit was at its last value
        right
        have hlen : i+1 = ax.len := by omega
        simp only [if_neg hlt]
        refine ⟨trivial, by rw [hz]; rfl, ?_⟩
        rw [lens_cons, List.prod_cons, flat, ← hlen, ← hf]
        ring

theorem advance_state {P : σ → Prop} {axes : List (Axis σ)} (hinc : ∀ ax ∈ axes, ∀ o, P o → P (ax.inc o))
    (hrewind : ∀ ax ∈ axes, ∀ i o, P o → P (ax.rewind i o)) (idx : List ℕ) {o : σ} (ho : P o) :
    P (advance axes idx o).2.2 := by
  induction axes generalizing idx with
  | nil => exact ho
  | cons ax axes ih =>
    cases idx with
    | nil => exact ho
    | cons i is =>
      have hinner := ih (fun a ha => hinc a (List.mem_cons_of_mem _ ha))
        (fun a ha => hrewind a (List.mem_cons_of_mem _ ha)) is
      rcases hadv : advance axes is o with ⟨carry, is', o'⟩
      rw [hadv] at hinner
      have hstep := hinc ax List.mem_cons_self o' hinner
      cases carry with
      | false => simpa only [advance, hadv] using hinner
      | true =>
        simp only [advance, hadv]
        split_ifs
        · exact hstep
        · exact hrewind ax List.mem_cons_self _ _ hstep

/-- The visits follow row-major order and each state stands for the linear form
of its multi-index. -/
theorem visits_spec {R : Type*} [CommRing R] (cast : σ → R) {axes : List (Axis σ)} {ws : List R}
    (hw : List.Forall₂ (ExactAxis cast) axes ws) (n : ℕ) (idx : List ℕ) (o : σ)
    (h : InRange (lens axes) idx) (hn : flat (lens axes) idx+n ≤ (lens axes).prod) :
    (visits axes n idx o).map Prod.fst =
        (List.range' (flat (lens axes) idx) n).map (unflat (lens axes)) ∧
      ∀ p ∈ visits axes n idx o, cast p.2 = cast o+dot p.1 ws-dot idx ws := by
  induction n generalizing idx o with
  | zero => simp [visits]
  | succ n ih =>
    have hcast := advance_cast cast hw idx o h
    have hrest : (visits axes n (advance axes idx o).2.1 (advance axes idx o).2.2).map Prod.fst =
          (List.range' (flat (lens axes) idx+1) n).map (unflat (lens axes)) ∧
        ∀ p ∈ visits axes n (advance axes idx o).2.1 (advance axes idx o).2.2,
          cast p.2 = cast (advance axes idx o).2.2+dot p.1 ws-dot (advance axes idx o).2.1 ws := by
      rcases advance_position axes idx o h with ⟨-, hr, hf⟩ | ⟨-, -, hf⟩
      · rw [← hf]
        exact ih _ _ hr (by omega)
      · -- the last element: nothing is left to visit
        have hz : n = 0 := by omega
        subst hz
        simp [visits]
    refine ⟨?_, ?_⟩
    · rw [visits, List.map_cons, hrest.1, List.range'_succ, List.map_cons, unflat_flat h]
    · intro p hp
      rcases List.mem_cons.mp hp with rfl | hp
      · ring
      · rw [hrest.2 p hp, hcast]
        ring

/-- What holds of the first state and survives every move of an axis holds of all states. -/
theorem visits_state {P : σ → Prop} {axes : List (Axis σ)} (hinc : ∀ ax ∈ axes, ∀ o, P o → P (ax.inc o))
    (hrewind : ∀ ax ∈ axes, ∀ i o, P o → P (ax.rewind i o)) (n : ℕ) (idx : List ℕ) {o : σ} (ho : P o) :
    ∀ p ∈ visits axes n idx o, P p.2 := by
  induction n generalizing idx o with
  | zero => simp [visits]
  | succ n ih =>
    intro p hp
    rcases List.mem_cons.mp hp with rfl | hp
    · exact ho
    · exact ih _ (advance_state hinc hrewind idx ho) p hp

section bounded

variable {val : ℕ → σ} {bound : ℕ}

/-- Moves that are exact on numbers up to `bound`. -/
structure BoundedAxis (bound : ℕ) (val : ℕ → σ) (ax : Axis σ) (w : ℕ) : Prop where
  inc : ∀ n, n+w ≤ bound → ax.inc (val n) = val (n+w)
  rewind : ∀ n, n+ax.len*w ≤ bound → ax.rewind ax.len (val (n+ax.len*w)) = val n

/-- What an axis adds is there to be taken back when it is exhausted. -/
theorem advance_val {axes : List (Axis σ)} {ws : List ℕ} (hw : List.Forall₂ (BoundedAxis bound val) axes ws)
    {idx : List ℕ} (h : InRange (lens axes) idx) {base : ℕ} (hb : base+dot (lens axes) ws ≤ bound) :
    (advance axes idx (val (base+dot idx ws))).2.2 = val (base+dot (advance axes idx (val (base+dot idx ws))).2.1 ws) := by
  induction hw generalizing idx base with
  | nil =>
    rw [lens_nil, inRange_nil] at h
    subst h
    rfl
  | @cons ax w axes ws hx _ ih =>
    obtain ⟨i, is, rfl, hi, his⟩ := h.cases_cons
    rw [lens_cons, dot_cons] at hb
    have hstep : (i+1)*w ≤ ax.len*w := Nat.mul_le_mul_right w hi
    rw [Nat.succ_mul] at hstep
    simp only [Nat.cast_id] at hb ⊢
    have hbase : base+i*w+dot (lens axes) ws ≤ bound := by omega
    have hinner := ih his hbase
    have hpos := advance_position axes is (val (base+i*w+dot is ws)) his
    rw [dot_cons, Nat.cast_id, ← add_assoc]
    rcases hadv : advance axes is (val (base+i*w+dot is ws)) with ⟨carry, is', o'⟩
    rw [hadv] at hinner hpos
    dsimp only at hinner hpos
    cases carry with
    | false =>
      simp only [advance, hadv, dot_cons, Nat.cast_id]
      rw [hinner, add_assoc]
    | true =>
      obtain ⟨hc, -, -⟩ | ⟨-, hzero, -⟩ := hpos
      · cases hc
      rw [hzero, dot_zero_left, add_zero] at hinner
      simp only [advance, hadv, hinner]
      rw [hx.inc (base+i*w) (by omega)]
      split_ifs with hlt
      · simp only [dot_cons, Nat.cast_id, hzero, dot_zero_left, add_zero]
        congr 1
        ring
      · have hlen : i+1 = ax.len := by omega
        have hall : base+i*w+w = base+ax.len*w := by
          rw [← hlen]
          ring
        simp only [dot_cons, hzero, dot_zero_left, hlen, hall]
        rw [hx.rewind base (by omega)]
        simp

/-- The states stay exact, also after the last multi-index. -/
theorem visits_val {axes : List (Axis σ)} {ws : List ℕ} (hw : List.Forall₂ (BoundedAxis bound val) axes ws)
    (hb : dot (lens axes) ws ≤ bound) (n : ℕ) {idx : List ℕ} (h : InRange (lens axes) idx) :
    ∀ p ∈ visits axes n idx (val (dot idx ws)), p.2 = val (dot p.1 ws) := by
  induction n generalizing idx with
  | zero => simp [visits]
  | succ n ih =>
    have hbase : 0+dot (lens axes) ws ≤ bound := by omega
    have hval := advance_val hw h hbase
    simp only [zero_add] at hval
    have hnext : InRange (lens axes) (advance axes idx (val (dot idx ws))).2.1 := by
      rcases advance_position axes idx (val (dot idx ws)) h with ⟨-, hr, -⟩ | ⟨-, hzero, -⟩
      · exact hr
      · rw [hzero, ← length_lens]
        exact inRange_zeros h.prod_pos
    intro p hp
    rw [visits, hval] at hp
    rcases List.mem_cons.mp hp with rfl | hp
    · rfl
    · exact ih hnext p hp

end bounded

/-- From the first multi-index the visits enumerate the shape. -/
theorem visits_take {R : Type*} [CommRing R] (cast : σ → R) {axes : List (Axis σ)} {ws : List R}
    (hw : List.Forall₂ (ExactAxis cast) axes ws) (o : σ) (hpos : 0 < (lens axes).prod) {n : ℕ} (hn : n ≤ (lens axes).prod) :
    (visits axes n (List.replicate axes.length 0) o).map Prod.fst = (enum (lens axes)).take n ∧
      ∀ p ∈ visits axes n (List.replicate axes.length 0) o, cast p.2 = cast o+dot p.1 ws := by
  have hzero := inRange_zeros hpos
  have hflat0 := flat_zeros (lens axes)
  rw [length_lens] at hzero hflat0
  have hs := visits_spec cast hw n _ o hzero (by omega)
  rw [hflat0] at hs
  refine ⟨?_, ?_⟩
  · rw [hs.1, enum_eq_map_unflat, ← List.map_take, List.take_range, min_eq_left hn, List.range_eq_range']
  · intro p hp
    rw [hs.2 p hp, dot_zero_left, sub_zero]

/-- A full turn enumerates all of it. -/
theorem visits_full {R : Type*} [CommRing R] (cast : σ → R) {axes : List (Axis σ)} {ws : List R}
    (hw : List.Forall₂ (ExactAxis cast) axes ws) (o : σ) (hpos : 0 < (lens axes).prod) :
    (visits axes (lens axes).prod (List.replicate axes.length 0) o).map Prod.fst = enum (lens axes) ∧
      ∀ p ∈ visits axes (lens axes).prod (List.replicate axes.length 0) o,
        cast p.2 = cast o+dot p.1 ws := by
  obtain ⟨hfst, hstate⟩ := visits_take cast hw o hpos le_rfl
  rw [List.take_of_length_le (by rw [length_enum])] at hfst
  exact ⟨hfst, hstate⟩

/-- The order of the multi-indices does not depend on the state. -/
theorem visits_fst (axes : List (Axis σ)) (o : σ) (hpos : 0 < (lens axes).prod) :
    (visits axes (lens axes).prod (List.replicate axes.length 0) o).map Prod.fst = enum (lens axes) := by
  have hnone : List.Forall₂ (ExactAxis fun _ : σ => (0:ℤ)) axes (axes.map fun _ => 0) := by
    rw [List.forall₂_map_right_iff, List.forall₂_same]
    exact fun ax _ => ⟨fun _ => by simp, fun _ => by simp⟩
  exact (visits_full _ hnone o hpos).1

theorem visits_inRange {axes : List (Axis σ)} (n : ℕ) {idx : List ℕ} (o : σ) (h : InRange (lens axes) idx) :
    ∀ p ∈ visits axes n idx o, InRange (lens axes) p.1 := by
  induction n generalizing idx o with
  | zero => simp [visits]
  | succ n ih =>
    intro p hp
    rcases List.mem_cons.mp hp with rfl | hp
    · exact h
    · rcases advance_position axes idx o h with ⟨-, hr, -⟩ | ⟨-, hzero, -⟩
      · exact ih _ hr p hp
      · rw [hzero, ← length_lens] at hp
        exact ih _ (inRange_zeros h.prod_pos) p hp

end RowMajor
