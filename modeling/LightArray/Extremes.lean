import LightArray.Sort

namespace LightArray
open MachineWord StableSort

variable {F : Type}

/-- The loop of `arg_extreme` from position `i` on. -/
def argExtremeFrom (isNan : F → Bool) (better : F → F → Bool) : ℕ → ℕ → F → List F → ℕ
  | _, bestI, _, [] => bestI
  | i, bestI, best, x :: rest =>
    if isNan x then i
    else if better x best then argExtremeFrom isNan better (i+1) i x rest
    else argExtremeFrom isNan better (i+1) bestI best rest

/-- `arg_extreme`. -/
def argExtreme (isNan : F → Bool) (better : F → F → Bool) : List F → Option ℕ
  | [] => none
  | best :: rest => if isNan best then some 0 else some (argExtremeFrom isNan better 1 0 best rest)

/-- What `max` and `min` use of `f64`: the two choose one of their arguments. -/
structure FloatExtremes (F : Type) extends FloatOrder F where
  nan : F
  fmax : F → F → F
  fmin : F → F → F
  isNan_nan : isNan nan = true
  max_choice : ∀ a b, isNan a = false → isNan b = false → fmax a b = a ∧ le b a = true ∨ fmax a b = b ∧ le a b = true
  min_choice : ∀ a b, isNan a = false → isNan b = false → fmin a b = a ∧ le a b = true ∨ fmin a b = b ∧ le b a = true

namespace FloatExtremes

variable (e : FloatExtremes F)

/-- `nan_max`. -/
def nanMax (a b : F) : F := if e.isNan a || e.isNan b then e.nan else e.fmax a b

/-- `nan_min`. -/
def nanMin (a b : F) : F := if e.isNan a || e.isNan b then e.nan else e.fmin a b

end FloatExtremes

namespace NdArray

def argmax (o : FloatOrder F) (a : NdArray .float64 F) : Option ℕ :=
  argExtreme o.isNan (fun x best => o.partialCmp x best = some .gt) a.data

def argmin (o : FloatOrder F) (a : NdArray .float64 F) : Option ℕ :=
  argExtreme o.isNan (fun x best => o.partialCmp x best = some .lt) a.data

/-- `Iterator::reduce`. -/
def reduceIter (f : F → F → F) : List F → Option F
  | [] => none
  | x :: xs => some (xs.foldl f x)

protected def max (e : FloatExtremes F) (a : NdArray .float64 F) : Option F := reduceIter e.nanMax a.data

protected def min (e : FloatExtremes F) (a : NdArray .float64 F) : Option F := reduceIter e.nanMin a.data

end NdArray

namespace FloatOrder

/-- The opposite order of the values other than NaN. -/
def reversed (o : FloatOrder F) : FloatOrder F where
  isNan := o.isNan
  le a b := o.le b a
  total a b ha hb := (o.total a b ha hb).symm
  trans a b c ha hb hc hab hbc := o.trans c b a hc hb ha hbc hab

variable {o : FloatOrder F} {a b : F} {data pre rest : List F} {m x : F} {i r : ℕ}

theorem partialCmp_eq (ha : o.isNan a = false) (hb : o.isNan b = false) : o.partialCmp a b = some (o.nanLast a b) := by
  rw [nanLast_eq, partialCmp, ha, hb]
  cases o.le a b <;> cases o.le b a <;> rfl

theorem nanLast_reversed (ha : o.isNan a = false) (hb : o.isNan b = false) : o.reversed.nanLast a b = o.nanLast b a := by
  rw [nanLast_eq, nanLast_eq]
  simp only [reversed, ha, hb]
  rfl

theorem nanLast_self (o : FloatOrder F) (a : F) : o.nanLast a a = .eq := Std.ReflCmp.compare_self

theorem partialCmp_reversed (ha : o.isNan a = false) (hb : o.isNan b = false) :
    o.reversed.partialCmp a b = some .gt ↔ o.partialCmp a b = some .lt := by
  have hra : o.reversed.isNan a = false := ha
  have hrb : o.reversed.isNan b = false := hb
  have hswap : o.nanLast b a = (o.nanLast a b).swap := Std.OrientedCmp.eq_swap
  rw [partialCmp_eq hra hrb, partialCmp_eq ha hb, nanLast_reversed ha hb, hswap]
  cases o.nanLast a b <;> simp

/-- `m` compares equal to an element no other exceeds. -/
structure Greatest (o : FloatOrder F) (data : List F) (m : F) : Prop where
  upper : ∀ x ∈ data, (o.nanLast x m).isLE
  attained : ∃ x ∈ data, o.nanLast m x = .eq

theorem Greatest.unique (h : o.Greatest data a) (h' : o.Greatest data b) : o.nanLast a b = .eq := by
  obtain ⟨x, hx, hax⟩ := h.attained
  obtain ⟨y, hy, hby⟩ := h'.attained
  have hab : (o.nanLast a b).isLE := Std.TransCmp.isLE_trans (hax ▸ rfl) (h'.upper x hx)
  have hba : (o.nanLast b a).isLE := Std.TransCmp.isLE_trans (hby ▸ rfl) (h.upper y hy)
  have hswap : o.nanLast b a = (o.nanLast a b).swap := Std.OrientedCmp.eq_swap
  rw [hswap] at hba
  cases hcmp : o.nanLast a b with
  | eq => rfl
  | lt => exact absurd hba (by rw [hcmp]; decide)
  | gt => exact absurd hab (by rw [hcmp]; decide)

/-- Position `r` is the first of a greatest element. -/
structure FirstGreatest (o : FloatOrder F) (data : List F) (r : ℕ) (m : F) : Prop where
  read : data[r]? = some m
  upper : ∀ x ∈ data, (o.nanLast x m).isLE
  first : ∀ j < r, ∀ x, data[j]? = some x → o.nanLast x m = .lt

theorem FirstGreatest.greatest (h : o.FirstGreatest data r m) : o.Greatest data m :=
  ⟨h.upper, m, List.mem_of_getElem? h.read, nanLast_self o m⟩

theorem FirstGreatest.unique {r' : ℕ} {m' : F} (h : o.FirstGreatest data r m) (h' : o.FirstGreatest data r' m') : r = r' := by
  have heq := h.greatest.unique h'.greatest
  have hswap : o.nanLast m' m = (o.nanLast m m').swap := Std.OrientedCmp.eq_swap
  rcases lt_trichotomy r r' with hlt | he | hlt
  · rw [h'.first r hlt m h.read] at heq
    cases heq
  · exact he
  · rw [h.first r' hlt m' h'.read, heq] at hswap
    cases hswap

/-- The first NaN is the first of the greatest. -/
theorem firstGreatest_nan (hpre : ∀ y ∈ pre, o.isNan y = false) (hx : o.isNan x = true) :
    o.FirstGreatest (pre ++ x :: rest) pre.length x := by
  refine ⟨by simp, fun y _ => o.isLE_nanLast.mpr (.inl hx), fun j hj y hy => ?_⟩
  rw [List.getElem?_append_left hj] at hy
  have hny := hpre y (List.mem_of_getElem? hy)
  rw [nanLast_eq, hny, hx]

theorem firstGreatest_better (h : o.FirstGreatest pre i m) (hlt : o.nanLast m x = .lt) :
    o.FirstGreatest (pre ++ [x]) pre.length x := by
  have hstep {y : F} (hy : y ∈ pre) : o.nanLast y x = .lt := Std.TransCmp.lt_of_isLE_of_lt (h.upper y hy) hlt
  refine ⟨by simp, fun y hy => ?_, fun j hj y hy => ?_⟩
  · rcases List.mem_append.mp hy with hy | hy
    · rw [hstep hy]
      rfl
    · rw [List.mem_singleton.mp hy, nanLast_self]
      rfl
  · rw [List.getElem?_append_left hj] at hy
    exact hstep (List.mem_of_getElem? hy)

theorem firstGreatest_kept (h : o.FirstGreatest pre i m) (hle : (o.nanLast x m).isLE) :
    o.FirstGreatest (pre ++ [x]) i m := by
  have hi : i < pre.length := (List.getElem?_eq_some_iff.mp h.read).1
  refine ⟨by rw [List.getElem?_append_left hi, h.read], fun y hy => ?_, fun j hj y hy => ?_⟩
  · rcases List.mem_append.mp hy with hy | hy
    · exact h.upper y hy
    · rwa [List.mem_singleton.mp hy]
  · rw [List.getElem?_append_left (hj.trans hi)] at hy
    exact h.first j hj y hy

/-- The loop keeps the first greatest element of what it has read, and stops at a NaN. -/
theorem argExtremeFrom_first {better : F → F → Bool}
    (hbetter : ∀ x y, o.isNan x = false → o.isNan y = false → (better x y = true ↔ o.partialCmp x y = some .gt))
    (hpre : ∀ y ∈ pre, o.isNan y = false) (h : o.FirstGreatest pre r m) :
    ∃ m', o.FirstGreatest (pre ++ rest) (argExtremeFrom o.isNan better pre.length r m rest) m' := by
  induction rest generalizing pre r m with
  | nil => exact ⟨m, by rwa [List.append_nil]⟩
  | cons x rest ih =>
    have hm := hpre m (List.mem_of_getElem? h.read)
    have hsplit : pre ++ x :: rest = pre ++ [x] ++ rest := by rw [List.append_assoc, List.singleton_append]
    have hlen : (pre ++ [x]).length = pre.length+1 := List.length_append
    unfold argExtremeFrom
    cases hx : o.isNan x with
    | true => exact ⟨x, firstGreatest_nan hpre hx⟩
    | false =>
      have hpre' : ∀ y ∈ pre ++ [x], o.isNan y = false := by
        intro y hy
        rcases List.mem_append.mp hy with hy | hy
        · exact hpre y hy
        · rwa [List.mem_singleton.mp hy]
      have hcmp := partialCmp_eq hx hm
      have hswap : o.nanLast m x = (o.nanLast x m).swap := Std.OrientedCmp.eq_swap
      rw [if_neg Bool.false_ne_true]
      split_ifs with hb
      · have hgt : o.nanLast x m = .gt := Option.some.inj (hcmp.symm.trans ((hbetter x m hx hm).mp hb))
        rw [hsplit, ← hlen]
        exact ih hpre' (firstGreatest_better h (by rw [hswap, hgt]; rfl))
      · have hle : (o.nanLast x m).isLE := by
          cases hord : o.nanLast x m with
          | lt => rfl
          | eq => rfl
          | gt =>
            rw [hord] at hcmp
            exact absurd ((hbetter x m hx hm).mpr hcmp) hb
        rw [hsplit, ← hlen]
        exact ih hpre' (firstGreatest_kept h hle)

theorem argExtreme_first {better : F → F → Bool}
    (hbetter : ∀ x y, o.isNan x = false → o.isNan y = false → (better x y = true ↔ o.partialCmp x y = some .gt))
    (hne : data ≠ []) : ∃ r m, argExtreme o.isNan better data = some r ∧ o.FirstGreatest data r m := by
  cases data with
  | nil => exact absurd rfl hne
  | cons x rest =>
    cases hx : o.isNan x with
    | true =>
      have hnil : ∀ y ∈ ([] : List F), o.isNan y = false := fun _ hy => absurd hy List.not_mem_nil
      exact ⟨0, x, if_pos hx, firstGreatest_nan hnil hx⟩
    | false =>
      have hone : o.FirstGreatest [x] 0 x := by
        refine ⟨rfl, fun y hy => ?_, fun j hj => absurd hj (Nat.not_lt_zero j)⟩
        rw [List.mem_singleton.mp hy, nanLast_self]
        rfl
      have hpre : ∀ y ∈ [x], o.isNan y = false := by
        intro y hy
        rwa [List.mem_singleton.mp hy]
      have hnot : ¬ o.isNan x = true := by rw [hx]; exact Bool.false_ne_true
      obtain ⟨m, hm⟩ := argExtremeFrom_first hbetter hpre hone
      exact ⟨_, m, if_neg hnot, hm⟩

/-- A reduction that keeps the greater of two values, NaN above all, ends with the greatest. -/
theorem reduceIter_greatest {f : F → F → F}
    (hf : ∀ x y, (o.nanLast x (f x y)).isLE ∧ (o.nanLast y (f x y)).isLE ∧ (o.nanLast (f x y) x = .eq ∨ o.nanLast (f x y) y = .eq))
    (hne : data ≠ []) : ∃ m, NdArray.reduceIter f data = some m ∧ o.Greatest data m := by
  have hfold (rest : List F) : ∀ {pre : List F} {m : F}, o.Greatest pre m → o.Greatest (pre ++ rest) (rest.foldl f m) := by
    induction rest with
    | nil =>
      intro pre m h
      rwa [List.append_nil]
    | cons x rest ih =>
      intro pre m h
      obtain ⟨hm, hx, hchoice⟩ := hf m x
      have hnext : o.Greatest (pre ++ [x]) (f m x) := by
        refine ⟨fun y hy => ?_, ?_⟩
        · rcases List.mem_append.mp hy with hy | hy
          · exact Std.TransCmp.isLE_trans (h.upper y hy) hm
          · rwa [List.mem_singleton.mp hy]
        · rcases hchoice with heq | heq
          · obtain ⟨y, hy, hmy⟩ := h.attained
            exact ⟨y, List.mem_append_left _ hy, Std.TransCmp.eq_trans heq hmy⟩
          · exact ⟨x, List.mem_append_right _ (List.mem_singleton_self x), heq⟩
      have hsplit : pre ++ x :: rest = pre ++ [x] ++ rest := by rw [List.append_assoc, List.singleton_append]
      rw [hsplit, List.foldl_cons]
      exact ih hnext
  cases data with
  | nil => exact absurd rfl hne
  | cons x rest =>
    have hone : o.Greatest [x] x := by
      refine ⟨fun y hy => ?_, x, List.mem_singleton_self x, nanLast_self o x⟩
      rw [List.mem_singleton.mp hy, nanLast_self]
      rfl
    exact ⟨_, rfl, hfold rest hone⟩

end FloatOrder

namespace FloatExtremes

variable {e : FloatExtremes F}

/-- `nan_max` keeps the greater value, and any NaN. -/
theorem nanMax_keeps (x y : F) : (e.nanLast x (e.nanMax x y)).isLE ∧ (e.nanLast y (e.nanMax x y)).isLE ∧
    (e.nanLast (e.nanMax x y) x = .eq ∨ e.nanLast (e.nanMax x y) y = .eq) := by
  unfold nanMax
  simp only [FloatOrder.isLE_nanLast, FloatOrder.nanLast_eq_eq]
  cases hx : e.isNan x <;> cases hy : e.isNan y
  · rcases e.max_choice x y hx hy with ⟨heq, hle⟩ | ⟨heq, hle⟩
    · have hself := (e.total x x hx hx).elim id id
      simp [heq, hx, hle, hself]
    · have hself := (e.total y y hy hy).elim id id
      simp [heq, hy, hle, hself]
  all_goals simp [e.isNan_nan]

/-- `nan_min` keeps the lesser value, and any NaN. -/
theorem nanMin_keeps (x y : F) : (e.reversed.nanLast x (e.nanMin x y)).isLE ∧ (e.reversed.nanLast y (e.nanMin x y)).isLE ∧
    (e.reversed.nanLast (e.nanMin x y) x = .eq ∨ e.reversed.nanLast (e.nanMin x y) y = .eq) := by
  unfold nanMin
  simp only [FloatOrder.isLE_nanLast, FloatOrder.nanLast_eq_eq, FloatOrder.reversed]
  cases hx : e.isNan x <;> cases hy : e.isNan y
  · rcases e.min_choice x y hx hy with ⟨heq, hle⟩ | ⟨heq, hle⟩
    · have hself := (e.total x x hx hx).elim id id
      simp [heq, hx, hle, hself]
    · have hself := (e.total y y hy hy).elim id id
      simp [heq, hy, hle, hself]
  all_goals simp [e.isNan_nan]

end FloatExtremes

section sorted

variable {e : FloatExtremes F} {a s : NdArray .float64 F} {order : NdArray .int64 ℤ}

theorem data_sorted1d (hs : sorted1d e.toFloatOrder a = .ok s) : s.data = sortBy e.nanLast a.data := by
  unfold sorted1d at hs
  split_ifs at hs
  cases hs
  rfl

theorem data_argsort1d (h : argsort1d e.toFloatOrder a = .ok (some order)) :
    order.data = (sortedIndices e.toFloatOrder a.data).map fun i : Fin a.data.length => ((i : ℕ) : ℤ) := by
  unfold argsort1d at h
  split_ifs at h with hdim
  · cases h
  · obtain ⟨c, hc, he⟩ := bind_eq_ok.mp h
    cases he
    unfold AnyArray.column at hc
    split at hc
    · rename_i r hr
      cases hc
      exact (NdArray.new_ok hr).2.1
    · cases hc

theorem exists_argsort1d (o : FloatOrder F) (ha : a.Counted) (hdim : a.ndim = 1) :
    ∃ order, argsort1d o a = .ok (some order) := by
  have hlen : ((sortedIndices o a.data).map fun i : Fin a.data.length => ((i : ℕ) : ℤ)).length = a.data.length := by
    rw [List.length_map, sortedIndices, length_sortBy, List.length_finRange]
  have hfits : a.data.length < wordModulus := lt_of_lt_of_le (data_lt ha) (by decide)
  obtain ⟨order, horder, -⟩ := AnyArray.column_ok (by rw [hlen]; exact hfits)
  exact ⟨order, by rw [argsort1d, if_neg (not_not.mpr hdim), horder]; rfl⟩

/-- The last sorted value is a greatest one. -/
theorem greatest_getLast {o : FloatOrder F} {data : List F} (hne : data ≠ []) :
    ∃ last, (sortBy o.nanLast data).getLast? = some last ∧ o.Greatest data last := by
  have hperm := sortBy_perm o.nanLast data
  have hsorted : sortBy o.nanLast data ≠ [] := fun hnil => hne (List.Perm.eq_nil (hnil ▸ hperm.symm))
  have hmem (x : F) : x ∈ sortBy o.nanLast data ↔ x ∈ data := hperm.mem_iff
  refine ⟨_, List.getLast?_eq_some_getLast hsorted, fun x hx => ?_, _, (hmem _).mp (List.getLast_mem hsorted), FloatOrder.nanLast_self o _⟩
  have hpairwise : (sortBy o.nanLast data).Pairwise fun a b => (o.nanLast a b).isLE := pairwise_sortBy data
  rw [← hmem, ← List.dropLast_append_getLast hsorted, List.mem_append, List.mem_singleton] at hx
  rcases hx with hx | rfl
  · rw [← List.dropLast_append_getLast hsorted, List.pairwise_append] at hpairwise
    exact hpairwise.2.2 x hx _ (List.mem_singleton_self _)
  · rw [FloatOrder.nanLast_self]
    rfl

/-- Without a NaN the first sorted value is a least one, and it stands where the first least
value stood. -/
theorem firstGreatest_head {o : FloatOrder F} {data : List F} (hne : data ≠ []) (hnan : ∀ v ∈ data, o.isNan v = false) :
    ∃ first, ∃ k : Fin data.length, (sortBy o.nanLast data).head? = some first ∧ (sortedIndices o data).head? = some k ∧
      o.reversed.FirstGreatest data k first := by
  have hstable : (sortedIndices o data).Pairwise fun i j =>
      (o.nanLast data[i] data[j]).isLE ∧ (o.nanLast data[i] data[j] = .eq → i < j) := sortedPositions_pairwise data
  have hperm : (sortedIndices o data).Perm (List.finRange data.length) := sortBy_perm _ _
  have hvalues := map_sortedIndices o data
  cases hindices : sortedIndices o data with
  | nil =>
    rw [hindices] at hperm
    have hlen := hperm.length_eq
    rw [List.length_finRange] at hlen
    exact absurd (List.length_eq_zero_iff.mp hlen.symm) hne
  | cons k rest =>
    rw [hindices] at hstable hperm hvalues
    rw [← hvalues]
    have hrest := (List.pairwise_cons.mp hstable).1
    have hother (j : Fin data.length) : j = k ∨ j ∈ rest :=
      List.mem_cons.mp (hperm.mem_iff.mpr (List.mem_finRange j))
    have hreverse (j : Fin data.length) : o.reversed.nanLast data[j] data[k] = o.nanLast data[k] data[j] :=
      FloatOrder.nanLast_reversed (hnan _ (List.getElem_mem j.2)) (hnan _ (List.getElem_mem k.2))
    refine ⟨data[k], k, rfl, rfl, List.getElem?_eq_getElem k.2, fun x hx => ?_, fun j hj x hx => ?_⟩
    · obtain ⟨j, hj, rfl⟩ := List.getElem_of_mem hx
      have hkj := hreverse ⟨j, hj⟩
      simp only [Fin.getElem_fin] at hkj ⊢
      rw [hkj]
      rcases hother ⟨j, hj⟩ with he | hmem
      · rw [← he, FloatOrder.nanLast_self]
        rfl
      · exact (hrest _ hmem).1
    · obtain ⟨hlt, rfl⟩ := List.getElem?_eq_some_iff.mp hx
      have hkj := hreverse ⟨j, hlt⟩
      simp only [Fin.getElem_fin] at hkj ⊢
      rw [hkj]
      rcases hother ⟨j, hlt⟩ with he | hmem
      · have hval : j = k := congrArg Fin.val he
        omega
      · obtain ⟨hle, htie⟩ := hrest _ hmem
        simp only [Fin.getElem_fin] at hle htie
        cases hcmp : o.nanLast data[(k : ℕ)] data[j] with
        | lt => rfl
        | eq =>
          have hkj' : (k : ℕ) < j := htie hcmp
          omega
        | gt =>
          rw [hcmp] at hle
          cases hle

/-- `argmax` is the position of the first value no other exceeds, NaN above all; `max` and the
last sorted value compare equal to it. `argmin` and `min` are the same for the opposite order,
and without a NaN they are where and what both sorts put first. -/
theorem NdArray.extremes_agree (hs : sorted1d e.toFloatOrder a = .ok s)
    (horder : argsort1d e.toFloatOrder a = .ok (some order)) (hne : a.data ≠ []) :
    (∃ i x mx last, a.argmax e.toFloatOrder = some i ∧ e.FirstGreatest a.data i x ∧ a.max e = some mx ∧
      e.nanLast mx x = .eq ∧ s.data.getLast? = some last ∧ e.nanLast last x = .eq) ∧
    ∃ j y mn, a.argmin e.toFloatOrder = some j ∧ e.reversed.FirstGreatest a.data j y ∧ a.min e = some mn ∧
      e.reversed.nanLast mn y = .eq ∧ ((∀ v ∈ a.data, e.isNan v = false) →
        s.data.head? = some y ∧ order.data.head? = some (j : ℤ)) := by
  have hsorted := data_sorted1d hs
  have hindices := data_argsort1d horder
  constructor
  · have hbetter : ∀ x y, e.isNan x = false → e.isNan y = false →
        (decide (e.partialCmp x y = some .gt) = true ↔ e.partialCmp x y = some .gt) := fun _ _ _ _ => decide_eq_true_iff
    obtain ⟨i, x, hi, hfirst⟩ := FloatOrder.argExtreme_first hbetter hne
    obtain ⟨mx, hmx, hgreatest⟩ := FloatOrder.reduceIter_greatest FloatExtremes.nanMax_keeps hne
    obtain ⟨last, hlast, hlastGreatest⟩ := greatest_getLast (o := e.toFloatOrder) hne
    exact ⟨i, x, mx, last, hi, hfirst, hmx, hgreatest.unique hfirst.greatest, hsorted ▸ hlast,
      hlastGreatest.unique hfirst.greatest⟩
  · have hbetter : ∀ x y, e.reversed.isNan x = false → e.reversed.isNan y = false →
        (decide (e.partialCmp x y = some .lt) = true ↔ e.reversed.partialCmp x y = some .gt) := fun x y hx hy =>
      decide_eq_true_iff.trans (FloatOrder.partialCmp_reversed (o := e.toFloatOrder) hx hy).symm
    obtain ⟨j, y, hj, hfirst⟩ := FloatOrder.argExtreme_first hbetter hne
    obtain ⟨mn, hmn, hgreatest⟩ := FloatOrder.reduceIter_greatest FloatExtremes.nanMin_keeps hne
    refine ⟨j, y, mn, hj, hfirst, hmn, hgreatest.unique hfirst.greatest, fun hnan => ?_⟩
    obtain ⟨first, k, hhead, hk, hfirst'⟩ := firstGreatest_head (o := e.toFloatOrder) hne hnan
    obtain rfl := hfirst.unique hfirst'
    have hy : y = first := Option.some.inj (hfirst.read.symm.trans hfirst'.read)
    refine ⟨by rw [hsorted, hhead, hy], ?_⟩
    rw [hindices, List.head?_map, hk]
    rfl

/-- Integers with one NaN, as `max` and `min` use them. -/
def nanIntExtremes : FloatExtremes (Option ℤ) where
  toFloatOrder := nanInts
  nan := none
  fmax a b := if nanInts.le b a then a else b
  fmin a b := if nanInts.le a b then a else b
  isNan_nan := rfl
  max_choice a b ha hb := by
    cases h : nanInts.le b a with
    | true => exact .inl ⟨if_pos rfl, rfl⟩
    | false => exact .inr ⟨if_neg Bool.false_ne_true, (nanInts.total a b ha hb).resolve_right (by rw [h]; exact Bool.false_ne_true)⟩
  min_choice a b ha hb := by
    cases h : nanInts.le a b with
    | true => exact .inl ⟨if_pos rfl, rfl⟩
    | false => exact .inr ⟨if_neg Bool.false_ne_true, (nanInts.total a b ha hb).resolve_left (by rw [h]; exact Bool.false_ne_true)⟩

theorem extremes_agree_tied : ∃ i x, tied.argmax nanInts = some i ∧ nanInts.FirstGreatest tied.data i x ∧ i = 1 := by
  obtain ⟨s, hs⟩ : ∃ s, sorted1d nanInts tied = .ok s := ⟨_, rfl⟩
  obtain ⟨order, horder⟩ := exists_argsort1d nanInts (a := tied) ⟨by decide, by decide⟩ rfl
  obtain ⟨⟨i, x, _, _, hi, hfirst, -⟩, -⟩ := NdArray.extremes_agree (e := nanIntExtremes) hs horder (by decide)
  have hone : tied.argmax nanInts = some 1 := by decide
  exact ⟨i, x, hi, hfirst, Option.some.inj (hi.symm.trans hone)⟩

end sorted

end LightArray
