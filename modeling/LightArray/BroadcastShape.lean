import LightArray.Broadcast
import LightArray.PartialJoin
import Mathlib.Data.List.GetD

namespace LightArray
open RowMajor

/-- Length of the `k`-th axis from the last; axes before the first count as 1. -/
def trailingAxis (shape : List ℕ) (k : ℕ) : ℕ := shape.reverse.getD k 1

/-- The length two axes broadcast to. -/
def axisJoin (x y : ℕ) : Option ℕ :=
  if x = y then some x else if x = 1 then some y else if y = 1 then some x else none

section axes

variable {a b s t r : List ℕ} {k ndim : ℕ}

theorem trailingAxis_of_lt (h : k < s.length) : trailingAxis s k = s[s.length-1-k] := by
  rw [trailingAxis, List.getD_eq_getElem _ _ (by rwa [List.length_reverse]), List.getElem_reverse]

theorem trailingAxis_of_le (h : s.length ≤ k) : trailingAxis s k = 1 :=
  List.getD_eq_default _ _ (by rwa [List.length_reverse])

/-- The axes of shapes with equally many of them decide the shape. -/
theorem eq_of_trailingAxis (hlen : s.length = t.length) (h : ∀ k, trailingAxis s k = trailingAxis t k) : s = t := by
  apply List.ext_getElem hlen
  intro i hi hi'
  have hk := h (s.length-1-i)
  rw [trailingAxis_of_lt (by omega), trailingAxis_of_lt (by omega)] at hk
  simp only [← hlen] at hk
  simpa only [show s.length-1-(s.length-1-i) = i by omega] using hk

theorem alignedDim_eq (hle : s.length ≤ ndim) (hk : k < ndim) :
    alignedDim s ndim k = trailingAxis s (ndim-1-k) := by
  rcases lt_or_ge (k+s.length) ndim with hlead | htrail
  · rw [alignedDim_lead hlead, trailingAxis_of_le (by omega)]
  · obtain ⟨j, rfl⟩ : ∃ j, k = ndim-s.length+j := ⟨k-(ndim-s.length), by omega⟩
    rw [alignedDim_trail hle (by omega), trailingAxis_of_lt (by omega)]
    congr 1
    omega

theorem broadcastsTo_iff : BroadcastsTo s t ↔
    s.length ≤ t.length ∧ ∀ k, trailingAxis s k = trailingAxis t k ∨ trailingAxis s k = 1 := by
  rw [BroadcastsTo]
  apply and_congr_right
  intro hle
  rw [List.forall₂_iff_get]
  constructor
  · rintro ⟨-, h⟩ k
    rcases lt_or_ge k s.length with hk | hk
    · have haxis := h (s.length-1-k) (by omega) (by rw [List.length_drop]; omega)
      rw [trailingAxis_of_lt hk, trailingAxis_of_lt (by omega)]
      rw [List.get_eq_getElem, List.get_eq_getElem, List.getElem_drop] at haxis
      simpa only [show t.length-s.length+(s.length-1-k) = t.length-1-k by omega] using haxis
    · exact .inr (trailingAxis_of_le hk)
  · intro h
    refine ⟨by rw [List.length_drop]; omega, fun i hi _ => ?_⟩
    have haxis := h (s.length-1-i)
    rw [trailingAxis_of_lt (by omega), trailingAxis_of_lt (by omega)] at haxis
    rw [List.get_eq_getElem, List.get_eq_getElem, List.getElem_drop]
    simpa only [show s.length-1-(s.length-1-i) = i by omega,
      show t.length-1-(s.length-1-i) = t.length-s.length+i by omega] using haxis

end axes

section join

variable {a b r u : List ℕ}

theorem broadcastLoop_eq_ok {pairs : List (ℕ × ℕ)} :
    broadcastLoop a b pairs = .ok r ↔ List.Forall₂ (fun p d => axisJoin p.1 p.2 = some d) pairs r := by
  induction pairs generalizing r with
  | nil => simp [broadcastLoop, eq_comm]
  | cons p rest ih =>
    obtain ⟨x, y⟩ := p
    have hstep (z : ℕ) : (do let out ← broadcastLoop a b rest; .ok (z :: out) : Except Failure (List ℕ)) = .ok r ↔
        ∃ out, List.Forall₂ (fun p d => axisJoin p.1 p.2 = some d) rest out ∧ r = z :: out := by
      rw [bind_eq_ok]
      simp only [ih, Except.ok.injEq, eq_comm]
    rw [List.forall₂_cons_left_iff, broadcastLoop]
    split_ifs with hxy hx hy
    · have hjoin : axisJoin x y = some x := if_pos hxy
      simp [hstep, hjoin]
    · have hjoin : axisJoin x y = some y := (if_neg hxy).trans (if_pos hx)
      simp [hstep, hjoin]
    · have hjoin : axisJoin x y = some x := (if_neg hxy).trans ((if_neg hx).trans (if_pos hy))
      simp [hstep, hjoin]
    · have hjoin : axisJoin x y = none := (if_neg hxy).trans ((if_neg hx).trans (if_neg hy))
      simp [hjoin]

theorem axisJoin_one : axisJoin 1 1 = some 1 := rfl

/-- Broadcasting is the join of every pair of aligned axes. -/
theorem broadcastShape_iff : broadcastShape a b = .ok r ↔ r.length = max a.length b.length ∧
    ∀ k, axisJoin (trailingAxis a k) (trailingAxis b k) = some (trailingAxis r k) := by
  have ha : a.length ≤ max a.length b.length := le_max_left ..
  have hb : b.length ≤ max a.length b.length := le_max_right ..
  rw [broadcastShape, broadcastLoop_eq_ok, List.forall₂_map_left_iff, List.forall₂_iff_get]
  simp only [List.get_eq_getElem, List.getElem_range, List.length_range]
  rw [eq_comm]
  apply and_congr_right
  intro hlen
  rw [← hlen] at ha hb ⊢
  constructor
  · intro h k
    rcases lt_or_ge k r.length with hk | hk
    · have haxis := h (r.length-1-k) (by omega) (by omega)
      rw [alignedDim_eq ha (by omega), alignedDim_eq hb (by omega)] at haxis
      rwa [show r.length-1-(r.length-1-k) = k by omega, ← trailingAxis_of_lt hk] at haxis
    · rw [trailingAxis_of_le (by omega), trailingAxis_of_le (by omega), trailingAxis_of_le hk, axisJoin_one]
  · intro h i hi hi'
    have haxis := h (r.length-1-i)
    rw [alignedDim_eq ha hi, alignedDim_eq hb hi, haxis, trailingAxis_of_lt (by omega)]
    simp only [show r.length-1-(r.length-1-i) = i by omega]

theorem axisJoin_spec {x y z : ℕ} (h : axisJoin x y = some z) : (x = z ∨ x = 1) ∧ (y = z ∨ y = 1) ∧ (z = x ∨ z = y) := by
  unfold axisJoin at h
  split_ifs at h <;> cases h <;> simp [*]

theorem exists_axisJoin {x y z : ℕ} (hx : x = z ∨ x = 1) (hy : y = z ∨ y = 1) : ∃ w, axisJoin x y = some w := by
  unfold axisJoin
  split_ifs
  all_goals first | exact ⟨_, rfl⟩ | omega

theorem BroadcastsTo.refl (s : List ℕ) : BroadcastsTo s s := broadcastsTo_self s

theorem BroadcastsTo.trans {s t : List ℕ} (h : BroadcastsTo s t) (g : BroadcastsTo t u) : BroadcastsTo s u := by
  rw [broadcastsTo_iff] at *
  refine ⟨h.1.trans g.1, fun k => ?_⟩
  have hk := h.2 k
  have gk := g.2 k
  omega

theorem BroadcastsTo.antisymm {s t : List ℕ} (h : BroadcastsTo s t) (g : BroadcastsTo t s) : s = t := by
  rw [broadcastsTo_iff] at *
  apply eq_of_trailingAxis (le_antisymm h.1 g.1)
  intro k
  have hk := h.2 k
  have gk := g.2 k
  omega

/-- Both operands stretch to their broadcast. -/
theorem broadcastsTo_of_broadcastShape (h : broadcastShape a b = .ok r) : BroadcastsTo a r ∧ BroadcastsTo b r := by
  obtain ⟨hlen, haxes⟩ := broadcastShape_iff.mp h
  rw [broadcastsTo_iff, broadcastsTo_iff]
  refine ⟨⟨by omega, fun k => ?_⟩, by omega, fun k => ?_⟩
  · exact (axisJoin_spec (haxes k)).1
  · exact (axisJoin_spec (haxes k)).2.1

/-- The broadcast stretches to everything both operands stretch to. -/
theorem broadcastsTo_of_bounds (h : broadcastShape a b = .ok r) (ha : BroadcastsTo a u) (hb : BroadcastsTo b u) :
    BroadcastsTo r u := by
  obtain ⟨hlen, haxes⟩ := broadcastShape_iff.mp h
  rw [broadcastsTo_iff] at *
  refine ⟨by omega, fun k => ?_⟩
  have hak := ha.2 k
  have hbk := hb.2 k
  have hjoin := (axisJoin_spec (haxes k)).2.2
  omega

theorem exists_broadcastShape_of_axes (h : ∀ k, ∃ w, axisJoin (trailingAxis a k) (trailingAxis b k) = some w) :
    ∃ r, broadcastShape a b = .ok r := by
  choose f hf using h
  have hlen : ((List.range (max a.length b.length)).map f).reverse.length = max a.length b.length := by simp
  refine ⟨((List.range (max a.length b.length)).map f).reverse, broadcastShape_iff.mpr ⟨hlen, fun k => ?_⟩⟩
  rw [hf k]
  rcases lt_or_ge k (max a.length b.length) with hk | hk
  · rw [trailingAxis, List.reverse_reverse, List.getD_eq_getElem _ _ (by simpa using hk), List.getElem_map,
      List.getElem_range]
  · have hone := hf k
    rw [trailingAxis_of_le (by omega), trailingAxis_of_le (by omega), axisJoin_one] at hone
    rw [trailingAxis_of_le (by omega)]
    exact hone.symm

/-- Shapes that stretch to a common shape have a broadcast. -/
theorem exists_broadcastShape (ha : BroadcastsTo a u) (hb : BroadcastsTo b u) : ∃ r, broadcastShape a b = .ok r := by
  rw [broadcastsTo_iff] at ha hb
  exact exists_broadcastShape_of_axes fun k => exists_axisJoin (ha.2 k) (hb.2 k)

/-- Two aligned axes broadcast unless they have different lengths and neither is 1. -/
theorem exists_axisJoin_iff {x y : ℕ} : (∃ w, axisJoin x y = some w) ↔ x = y ∨ x = 1 ∨ y = 1 := by
  unfold axisJoin
  split_ifs <;> simp [*]

theorem exists_broadcastShape_iff : (∃ r, broadcastShape a b = .ok r) ↔
    ∀ k, trailingAxis a k = trailingAxis b k ∨ trailingAxis a k = 1 ∨ trailingAxis b k = 1 := by
  simp only [← exists_axisJoin_iff]
  exact ⟨fun ⟨_, hr⟩ k => ⟨_, (broadcastShape_iff.mp hr).2 k⟩, exists_broadcastShape_of_axes⟩

/-- A property of aligned axes, of shapes with equally many. -/
theorem forall_trailingAxis {P : ℕ → ℕ → Prop} (hlen : a.length = b.length) (hone : P 1 1) :
    (∀ k, P (trailingAxis a k) (trailingAxis b k)) ↔ ∀ (i x y : ℕ), a[i]? = some x → b[i]? = some y → P x y := by
  constructor
  · intro h i x y hx hy
    obtain ⟨hi, rfl⟩ := List.getElem?_eq_some_iff.mp hx
    obtain ⟨hi', rfl⟩ := List.getElem?_eq_some_iff.mp hy
    have hk := h (a.length-1-i)
    rw [trailingAxis_of_lt (by omega), trailingAxis_of_lt (by omega)] at hk
    simp only [← hlen] at hk
    simpa only [show a.length-1-(a.length-1-i) = i by omega] using hk
  · intro h k
    rcases lt_or_ge k a.length with hk | hk
    · rw [trailingAxis_of_lt hk, trailingAxis_of_lt (by omega)]
      apply h (a.length-1-k)
      · exact List.getElem?_eq_getElem _
      · simp only [hlen]
        exact List.getElem?_eq_getElem _
    · rwa [trailingAxis_of_le hk, trailingAxis_of_le (by omega)]

/-- A broadcast has no axis longer than those of its operands. -/
theorem broadcastShape_le {n : ℕ} (hn : 1 ≤ n) (h : broadcastShape a b = .ok r) (ha : ∀ d ∈ a, d ≤ n) (hb : ∀ d ∈ b, d ≤ n) :
    ∀ d ∈ r, d ≤ n := by
  have htrail (s : List ℕ) (hs : ∀ d ∈ s, d ≤ n) (k : ℕ) : trailingAxis s k ≤ n := by
    rcases lt_or_ge k s.length with hk | hk
    · rw [trailingAxis_of_lt hk]
      exact hs _ (List.getElem_mem _)
    · rwa [trailingAxis_of_le hk]
  intro d hd
  obtain ⟨i, hi, rfl⟩ := List.mem_iff_getElem.mp hd
  have hjoin := (axisJoin_spec ((broadcastShape_iff.mp h).2 (r.length-1-i))).2.2
  rw [trailingAxis_of_lt (by omega)] at hjoin
  simp only [show r.length-1-(r.length-1-i) = i by omega] at hjoin
  have hak := htrail a ha (r.length-1-i)
  have hbk := htrail b hb (r.length-1-i)
  omega

theorem broadcastShape_error {e : Failure} (h : broadcastShape a b = .error e) : e = .array (.shapeMismatch a b) := by
  have hloop (pairs : List (ℕ × ℕ)) (hp : broadcastLoop a b pairs = .error e) : e = .array (.shapeMismatch a b) := by
    induction pairs with
    | nil => cases hp
    | cons p rest ih =>
      obtain ⟨x, y⟩ := p
      have hrest (z : ℕ) (hz : (do let out ← broadcastLoop a b rest; .ok (z :: out)) = Except.error e) :
          e = .array (.shapeMismatch a b) := by
        cases hr : broadcastLoop a b rest with
        | ok out => rw [hr] at hz; cases hz
        | error e' =>
          rw [hr] at hz
          cases hz
          exact ih hr
      rw [broadcastLoop] at hp
      split_ifs at hp
      · exact hrest _ hp
      · exact hrest _ hp
      · exact hrest _ hp
      · cases hp
        rfl
  exact hloop _ h

end join

/-- Shapes ordered by stretching. -/
def StretchOrder : Type := List ℕ

instance : PartialOrder StretchOrder where
  le := BroadcastsTo
  le_refl := BroadcastsTo.refl
  le_trans _ _ _ := BroadcastsTo.trans
  le_antisymm _ _ := BroadcastsTo.antisymm

theorem toOption_eq_some {α : Type} {x : Except Failure α} {r : α} : x.toOption = some r ↔ x = .ok r := by
  cases x <;> simp [Except.toOption]

theorem toOption_bind_eq_some {α β : Type} {x : Except Failure α} {f : α → Except Failure β} {r : β} :
    (x.toOption.bind fun a => (f a).toOption) = some r ↔ ∃ a, x = .ok a ∧ f a = .ok r := by
  simp only [Option.bind_eq_some_iff, toOption_eq_some]

theorem partialJoin_broadcastShape :
    PartialJoin fun a b : StretchOrder => ((broadcastShape a b).toOption : Option StretchOrder) where
  isLUB {a b r} h := by
    have hr := toOption_eq_some.mp h
    obtain ⟨ha, hb⟩ := broadcastsTo_of_broadcastShape hr
    refine ⟨?_, fun u hu => ?_⟩
    · rintro x (rfl | rfl)
      · exact ha
      · exact hb
    · exact broadcastsTo_of_bounds hr (hu (.inl rfl)) (hu (.inr rfl))
  bounded {a b u} ha hb := by
    obtain ⟨r, hr⟩ := exists_broadcastShape ha hb
    exact ⟨r, toOption_eq_some.mpr hr⟩

/-- The broadcast is the first shape exactly when the second one stretches to it. -/
theorem broadcastShape_eq_ok {a b : List ℕ} : broadcastShape a b = .ok a ↔ BroadcastsTo b a := by
  refine ⟨fun h => (broadcastsTo_of_broadcastShape h).2, fun h => ?_⟩
  have hswap := partialJoin_broadcastShape.comm (show StretchOrder from a) b
  exact toOption_eq_some.mp (hswap.trans (partialJoin_broadcastShape.of_le h))

/-- A scalar broadcasts with every shape. -/
theorem broadcastShape_nil (a : List ℕ) : broadcastShape [] a = .ok a ∧ broadcastShape a [] = .ok a := by
  have h := partialJoin_broadcastShape
  have hbot : BroadcastsTo [] a := broadcastsTo_iff.mpr ⟨Nat.zero_le _, fun _ => .inr rfl⟩
  exact ⟨toOption_eq_some.mp (h.of_le hbot), toOption_eq_some.mp ((h.comm a _).trans (h.of_le hbot))⟩

/-- Broadcasting is commutative and associative where it succeeds and where it fails, the empty
shape is neutral, a shape broadcasts with itself to itself, and the broadcast absorbs both
operands. -/
theorem broadcastShape_semilattice (a b c : List ℕ) :
    (∀ r, broadcastShape a b = .ok r ↔ broadcastShape b a = .ok r) ∧
    (∀ r, (∃ ab, broadcastShape a b = .ok ab ∧ broadcastShape ab c = .ok r) ↔
      ∃ bc, broadcastShape b c = .ok bc ∧ broadcastShape a bc = .ok r) ∧
    broadcastShape [] a = .ok a ∧ broadcastShape a [] = .ok a ∧ broadcastShape a a = .ok a ∧
    ∀ r, broadcastShape a b = .ok r → broadcastShape a r = .ok r ∧ broadcastShape b r = .ok r := by
  have h := partialJoin_broadcastShape
  refine ⟨fun r => ?_, fun r => ?_, (broadcastShape_nil a).1, (broadcastShape_nil a).2, ?_, fun r hr => ⟨?_, ?_⟩⟩
  · rw [← toOption_eq_some, ← toOption_eq_some]
    exact iff_of_eq (congrArg (· = some r) (h.comm a b))
  · rw [← toOption_bind_eq_some, ← toOption_bind_eq_some (f := broadcastShape a)]
    exact iff_of_eq (congrArg (· = some r) (h.assoc a b c))
  · exact toOption_eq_some.mp (h.self a)
  · exact toOption_eq_some.mp (h.absorb_left (toOption_eq_some.mpr hr))
  · exact toOption_eq_some.mp (h.absorb_right (toOption_eq_some.mpr hr))

theorem broadcastShape_semilattice_ranks :
    broadcastShape [2,1,0] [2,3,0] = .ok [2,3,0] ∧ broadcastShape [3,1] [2,3,0] = .ok [2,3,0] :=
  (broadcastShape_semilattice [2,1,0] [3,1] []).2.2.2.2.2 [2,3,0] (by decide)

end LightArray
