import Mathlib.Algebra.Group.Nat.Defs
import LightArray.Dict

/-- `f(*args, **kwargs)`. -/
structure PyCall (V : Type*) where
  args : List V
  kwargs : Dict String V

/-- Parameters reached by position or keyword, and parameters only a keyword reaches. -/
structure Signature where
  positional : List String
  keywordOnly : List String
  nodup : (positional ++ keywordOnly).Nodup

/-- The signature without its first parameter. -/
def Signature.tail (s : Signature) : Signature where
  positional := s.positional.tail
  keywordOnly := s.keywordOnly
  nodup := s.nodup.sublist ((List.tail_sublist _).append (List.Sublist.refl _))

namespace PyCall

variable {V : Type*}

/-- The argument in the place of a parameter. -/
def placed (params : List String) (args : List V) (p : String) : Option V :=
  ((params.zip args).find? (·.1 = p)).map Prod.snd

/-- The argument of a parameter. -/
def value (s : Signature) (c : PyCall V) (p : String) : Option V :=
  (placed s.positional c.args p).or (c.kwargs.get? p)

/-- Every argument has a parameter of its own. -/
structure Accepted (s : Signature) (c : PyCall V) : Prop where
  length_le : c.args.length ≤ s.positional.length
  known : ∀ k ∈ c.kwargs.keys, k ∈ s.positional.drop c.args.length ++ s.keywordOnly

/-- The argument of the first parameter, of that name. -/
def first (p : String) (c : PyCall V) : Option V :=
  match c.args with
  | x :: _ => some x
  | [] => c.kwargs.get? p

/-- The call without the argument of the first parameter. -/
def rest (p : String) (c : PyCall V) : PyCall V :=
  match c.args with
  | _ :: args => ⟨args, c.kwargs⟩
  | [] => ⟨[], c.kwargs.erase p⟩

/-- The keywords as `**kwargs` receives them: nothing when there are none. -/
def keywords (c : PyCall V) : Option (Dict String V) := (some c.kwargs).filter fun kw => !kw.entries.isEmpty

variable {s : Signature} {c : PyCall V} {p q : String} {ps : List String} {args : List V} {x : V}

theorem kwargs_empty (h : c.kwargs.keys = []) : c.kwargs = .empty := by
  apply Dict.ext_get? h
  intro k
  rw [Dict.get?_empty, Dict.get?_eq_none, h]
  exact List.not_mem_nil

theorem keywords_empty (h : c.kwargs.keys = []) : c.keywords = none := by
  rw [keywords, kwargs_empty h]
  rfl

theorem keywords_of_mem {k : String} (h : k ∈ c.kwargs.keys) : c.keywords = some c.kwargs := by
  have hne : c.kwargs.entries ≠ [] := by
    intro hnil
    rw [Dict.keys, hnil] at h
    cases h
  have hfilled : (!c.kwargs.entries.isEmpty) = true := by simpa using hne
  rw [keywords, Option.filter_some, if_pos hfilled]

theorem placed_nil : placed ps ([] : List V) q = none := by
  rw [placed, List.zip_nil_right]
  rfl

theorem placed_self : placed (p :: ps) (x :: args) p = some x := by
  rw [placed, List.zip_cons_cons, List.find?_cons_of_pos (by exact decide_eq_true rfl), Option.map_some]

theorem placed_of_ne (hq : q ≠ p) : placed (p :: ps) (x :: args) q = placed ps args q := by
  have hskip : ¬ decide (p = q) = true := by simpa using hq.symm
  rw [placed, List.zip_cons_cons, List.find?_cons_of_neg (by exact hskip), placed]

theorem rest_nil (h : c.args = []) : c.rest p = ⟨[], c.kwargs.erase p⟩ := by rw [rest, h]

theorem rest_cons (h : c.args = x :: args) : c.rest p = ⟨args, c.kwargs⟩ := by rw [rest, h]

theorem positional_tail (hs : s.positional = p :: ps) : s.tail.positional = ps := congrArg List.tail hs

theorem first_not_mem_tail (hs : s.positional = p :: ps) : p ∉ s.tail.positional ++ s.tail.keywordOnly := by
  have hnodup := s.nodup
  rw [hs, List.cons_append, List.nodup_cons] at hnodup
  rw [positional_tail hs]
  exact hnodup.1

/-- An accepted call gives nothing to a name that is no parameter. -/
theorem value_of_not_mem (h : c.Accepted s) (hp : p ∉ s.positional ++ s.keywordOnly) : c.value s p = none := by
  rw [List.mem_append, not_or] at hp
  have hplaced : placed s.positional c.args p = none := by
    rw [placed, Option.map_eq_none_iff, List.find?_eq_none]
    intro e he
    have hmem := (List.of_mem_zip he).1
    have hne : e.1 ≠ p := fun heq => hp.1 (heq ▸ hmem)
    simpa using hne
  have hget : c.kwargs.get? p = none := by
    rw [Dict.get?_eq_none]
    intro hk
    rcases List.mem_append.mp (h.known p hk) with hpos | hkw
    · exact hp.1 (List.drop_subset _ _ hpos)
    · exact hp.2 hkw
  rw [value, hplaced, hget]
  rfl

/-- The other parameters are given the same arguments by the rest of the call. -/
theorem value_rest (hs : s.positional = p :: ps) (hq : q ≠ p) : (c.rest p).value s.tail q = c.value s q := by
  cases hargs : c.args with
  | nil => rw [rest_nil hargs, value, value, hargs, placed_nil, placed_nil, Dict.get?_erase, if_neg hq]
  | cons y args => rw [rest_cons hargs, value, value, hargs, hs, placed_of_ne hq, positional_tail hs]

/-- And the rest is accepted without the first parameter exactly when the call is with it. -/
theorem accepted_rest (hs : s.positional = p :: ps) :
    (c.rest p).Accepted s.tail ↔ c.Accepted s := by
  cases hargs : c.args with
  | nil =>
    rw [rest_nil hargs]
    constructor
    · intro hacc
      refine ⟨by rw [hargs]; exact Nat.zero_le _, fun k hk => ?_⟩
      rw [hargs, hs]
      by_cases hkp : k = p
      · exact hkp ▸ List.mem_append_left _ List.mem_cons_self
      · have hmem := hacc.known k (by rw [Dict.keys_erase]; exact List.mem_filter.mpr ⟨hk, decide_eq_true hkp⟩)
        rw [positional_tail hs] at hmem
        exact List.mem_cons_of_mem p hmem
    · intro hacc
      refine ⟨Nat.zero_le _, fun k hk => ?_⟩
      rw [Dict.keys_erase, List.mem_filter, decide_eq_true_eq] at hk
      have hmem := hacc.known k hk.1
      rw [hargs, hs] at hmem
      rw [positional_tail hs]
      exact (List.mem_cons.mp hmem).resolve_left hk.2
  | cons y args =>
    rw [rest_cons hargs]
    constructor
    · intro hacc
      have hle := hacc.length_le
      have hknown := hacc.known
      rw [positional_tail hs] at hle hknown
      refine ⟨?_, fun k hk => ?_⟩
      · rw [hargs, hs]
        exact Nat.succ_le_succ hle
      · rw [hargs, hs]
        exact hknown k hk
    · intro hacc
      have hle := hacc.length_le
      have hknown := hacc.known
      rw [hargs, hs] at hle hknown
      refine ⟨?_, fun k hk => ?_⟩
      · rw [positional_tail hs]
        exact Nat.le_of_succ_le_succ hle
      · rw [positional_tail hs]
        exact hknown k hk

/-- What is not given to the other parameters is not given by the rest. -/
theorem none_given_rest (hs : s.positional = p :: ps) (P : String → Prop) :
    (c.Accepted s ∧ ∀ q, q ≠ p → P q → c.value s q = none) ↔
      (c.rest p).Accepted s.tail ∧ ∀ q, P q → (c.rest p).value s.tail q = none := by
  have haccepted := accepted_rest (c := c) hs
  constructor
  · rintro ⟨hacc, hnone⟩
    refine ⟨haccepted.mpr hacc, fun q hq => ?_⟩
    by_cases hqp : q = p
    · rw [hqp]
      exact value_of_not_mem (haccepted.mpr hacc) (first_not_mem_tail hs)
    · rw [value_rest hs hqp]
      exact hnone q hqp hq
  · rintro ⟨hacc, hnone⟩
    refine ⟨haccepted.mp hacc, fun q hqp hq => ?_⟩
    rw [← value_rest hs hqp]
    exact hnone q hq

/-- The call that gives no argument to any parameter. -/
theorem none_given_iff : (c.Accepted s ∧ ∀ q, c.value s q = none) ↔ c.args = [] ∧ c.kwargs.keys = [] := by
  constructor
  · rintro ⟨hacc, hnone⟩
    constructor
    · cases hargs : c.args with
      | nil => rfl
      | cons y args =>
        have hle := hacc.length_le
        rw [hargs] at hle
        cases hparams : s.positional with
        | nil =>
          rw [hparams] at hle
          exact absurd hle (Nat.not_succ_le_zero _)
        | cons r rs =>
          have hvalue := hnone r
          rw [value, hparams, hargs, placed_self] at hvalue
          cases hvalue
    · apply List.eq_nil_iff_forall_not_mem.mpr
      intro k hk
      obtain ⟨v, hv⟩ := Dict.mem_keys.mp hk
      have hvalue := hnone k
      rw [value, Option.or_eq_none_iff, hv] at hvalue
      cases hvalue.2
  · rintro ⟨hargs, hkeys⟩
    refine ⟨⟨by rw [hargs]; exact Nat.zero_le _, fun k hk => ?_⟩, fun q => ?_⟩
    · rw [hkeys] at hk
      cases hk
    · rw [value, hargs, placed_nil, kwargs_empty hkeys]
      rfl

/-- The calls that give an argument to the first parameter at most. -/
theorem only_first_iff (hs : s.positional = p :: ps) :
    (c.Accepted s ∧ ∀ q, q ≠ p → c.value s q = none) ↔
      c.args.length+c.kwargs.keys.length ≤ 1 ∧ ∀ k ∈ c.kwargs.keys, k = p := by
  have hnodup := s.nodup
  rw [hs, List.cons_append, List.nodup_cons] at hnodup
  constructor
  · rintro ⟨hacc, hnone⟩
    have hkeys : ∀ k ∈ c.kwargs.keys, k = p := by
      intro k hk
      by_contra hkp
      obtain ⟨v, hv⟩ := Dict.mem_keys.mp hk
      have hvalue := hnone k hkp
      rw [value, Option.or_eq_none_iff, hv] at hvalue
      cases hvalue.2
    refine ⟨?_, hkeys⟩
    have hone : c.kwargs.keys.length ≤ 1 := by
      have hrep : c.kwargs.keys = List.replicate c.kwargs.keys.length p := List.eq_replicate_of_mem hkeys
      have hkeysNodup : c.kwargs.keys.Nodup := c.kwargs.nodup
      rw [hrep] at hkeysNodup
      exact List.nodup_replicate.mp hkeysNodup
    cases hargs : c.args with
    | nil => simpa using hone
    | cons y args =>
      have hnil : c.kwargs.keys = [] := by
        apply List.eq_nil_iff_forall_not_mem.mpr
        intro k hk
        have hmem := hacc.known k hk
        rw [hargs, hs, hkeys k hk, List.length_cons, List.drop_succ_cons] at hmem
        exact hnodup.1 (((List.drop_sublist _ ps).append (List.Sublist.refl _)).subset hmem)
      cases args with
      | nil =>
        rw [hnil]
        exact Nat.le_refl 1
      | cons z args =>
        have hle := hacc.length_le
        rw [hargs, hs] at hle
        obtain ⟨r, rs, rfl⟩ := List.exists_cons_of_ne_nil (List.length_pos_iff.mp (by simp at hle; omega) : ps ≠ [])
        have hrp : r ≠ p := fun h => hnodup.1 (h ▸ List.mem_cons_self)
        have hvalue := hnone r hrp
        rw [value, hs, hargs, placed_of_ne hrp, placed_self] at hvalue
        cases hvalue
  · rintro ⟨hone, hkeys⟩
    have hget (q : String) (hq : q ≠ p) : c.kwargs.get? q = none := Dict.get?_eq_none.mpr fun hk => hq (hkeys q hk)
    cases hargs : c.args with
    | nil =>
      refine ⟨⟨by rw [hargs]; exact Nat.zero_le _, fun k hk => ?_⟩, fun q hq => ?_⟩
      · rw [hargs, hs, hkeys k hk]
        exact List.mem_append_left _ List.mem_cons_self
      · rw [value, hargs, placed_nil, hget q hq]
        rfl
    | cons y args =>
      rw [hargs, List.length_cons] at hone
      have hargs' : args = [] := List.eq_nil_of_length_eq_zero (by omega)
      have hnil : c.kwargs.keys = [] := List.eq_nil_of_length_eq_zero (by omega)
      subst hargs'
      refine ⟨⟨by rw [hargs, hs]; exact Nat.succ_le_succ (Nat.zero_le _), fun k hk => ?_⟩, fun q hq => ?_⟩
      · rw [hnil] at hk
        cases hk
      · rw [value, hargs, hs, placed_of_ne hq, placed_nil, hget q hq]
        rfl

end PyCall

/-- What a vectorcall passes: the values, positional ones first, a count whose top bit is a
flag, and the names of the keywords. -/
structure VectorCall (V : Type*) where
  cells : List V
  nargsf : ℕ
  kwnames : Option (List String)

/-- A layout of a call. Without keywords the names may be missing or an empty tuple. -/
structure VectorCall.Passes {V : Type*} (v : VectorCall V) (c : PyCall V) : Prop where
  cells : v.cells = c.args ++ c.kwargs.entries.map Prod.snd
  count : v.nargsf = c.args.length ∨ v.nargsf = 2^63+c.args.length
  length_lt : c.args.length < 2^63
  names : v.kwnames = some c.kwargs.keys ∨ c.kwargs.keys = [] ∧ v.kwnames = none
