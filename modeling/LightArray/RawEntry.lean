import LightArray.Signature

namespace LightArray

/-- The count of `nargs` without its flag: `PyVectorcall_NARGS`. -/
def vectorNargs (nargsf : ℕ) : ℕ := nargsf &&& (2^64-1-2^63)

/-- The dictionary the raw entry points build from the names and the values behind the
positional arguments. -/
def keywordDict {W : Type} (v : VectorCall W) (names : List String) : Dict String W :=
  (names.zip (v.cells.drop (vectorNargs v.nargsf))).foldl (fun kw e => kw.set e.1 e.2) .empty

variable {W R : Type}

/-- How CPython lays out `f(*args, **kwargs)`. -/
def layoutCall (c : PyCall W) : VectorCall W where
  cells := c.args ++ c.kwargs.entries.map Prod.snd
  nargsf := c.args.length
  kwnames := if c.kwargs.entries.isEmpty then none else some c.kwargs.keys

/-- `elementwise_entry`: `native` on exactly `arity` positional arguments, and `_fallback.call` for every
other form of call. -/
def elementwiseEntry (arity : ℕ) (v : VectorCall W) (native : List W → R) (call : PyCall W → R) : R :=
  let nargs := vectorNargs v.nargsf
  if nargs = arity ∧ v.kwnames = none then native (v.cells.take arity)
  else call ⟨v.cells.take nargs, (v.kwnames.map (keywordDict v)).getD .empty⟩

variable {v : VectorCall W} {c : PyCall W}

theorem layoutCall_passes (h : c.args.length < 2^63) : (layoutCall c).Passes c where
  cells := rfl
  count := .inl rfl
  length_lt := h
  names := by
    unfold layoutCall
    split_ifs with hempty
    · exact .inr ⟨congrArg (List.map Prod.fst) (List.isEmpty_iff.mp hempty), rfl⟩
    · exact .inl rfl

theorem vectorNargs_passes (h : v.Passes c) : vectorNargs v.nargsf = c.args.length := by
  have hmask : vectorNargs v.nargsf = v.nargsf%2^63 := Nat.and_two_pow_sub_one_eq_mod v.nargsf 63
  rw [hmask]
  rcases h.count with hplain | hflag
  · rw [hplain, Nat.mod_eq_of_lt h.length_lt]
  · rw [hflag, Nat.add_mod_left, Nat.mod_eq_of_lt h.length_lt]

theorem take_cells (h : v.Passes c) : v.cells.take (vectorNargs v.nargsf) = c.args := by
  rw [vectorNargs_passes h, h.cells, List.take_left']
  rfl

/-- The dictionary built from the names is the caller's. -/
theorem keywordDict_passes (h : v.Passes c) : keywordDict v c.kwargs.keys = c.kwargs := by
  have hdrop : v.cells.drop (vectorNargs v.nargsf) = c.kwargs.entries.map Prod.snd := by
    rw [vectorNargs_passes h, h.cells, List.drop_left']
    rfl
  have hzip : c.kwargs.keys.zip (c.kwargs.entries.map Prod.snd) = c.kwargs.entries := by
    rw [Dict.keys, List.zip_map', List.map_id'']
    exact fun _ => rfl
  rw [keywordDict, hdrop, hzip, Dict.foldl_set_entries]

theorem kwnames_passes (h : v.Passes c) (f : Dict String W → Dict String W) (hf : f .empty = .empty) :
    ((v.kwnames.map (keywordDict v)).map f).filter (fun kw => !kw.entries.isEmpty) =
      (some (f c.kwargs)).filter fun kw => !kw.entries.isEmpty := by
  rcases h.names with hnames | ⟨hkeys, hnames⟩
  · rw [hnames, Option.map_some, Option.map_some, keywordDict_passes h]
  · rw [hnames, PyCall.kwargs_empty hkeys, hf]
    rfl

/-- The entry does what a function that receives `*args` and `**kwargs` does with the call, unless an empty
tuple of names hides that there are no keywords. -/
theorem elementwiseEntry_passes (h : v.Passes c) (arity : ℕ) (native : List W → R) (call : PyCall W → R) :
    elementwiseEntry arity v native call = if c.args.length = arity ∧ v.kwnames = none then native c.args else call c := by
  have hkw : (v.kwnames.map (keywordDict v)).getD .empty = c.kwargs := by
    rcases h.names with hnames | ⟨hkeys, hnames⟩
    · rw [hnames, Option.map_some, Option.getD_some, keywordDict_passes h]
    · rw [hnames, PyCall.kwargs_empty hkeys]
      rfl
  unfold elementwiseEntry
  simp only [vectorNargs_passes h, hkw]
  split_ifs with hfast
  · rw [← hfast.1, ← vectorNargs_passes h, take_cells h]
  · rw [← vectorNargs_passes h, take_cells h]

theorem elementwiseEntry_layout (h : c.args.length < 2^63) (arity : ℕ) (native : List W → R) (call : PyCall W → R) :
    elementwiseEntry arity (layoutCall c) native call =
      if c.args.length = arity ∧ c.kwargs.entries.isEmpty then native c.args else call c := by
  have hnames : (layoutCall c).kwnames = none ↔ c.kwargs.entries.isEmpty := by
    unfold layoutCall
    split_ifs with hempty <;> simp [hempty]
  rw [elementwiseEntry_passes (layoutCall_passes h)]
  simp only [hnames]

end LightArray
