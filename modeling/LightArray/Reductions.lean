import LightArray.BinaryOp
import LightArray.Extremes
import LightArray.LaneSum
import LightArray.ListKeys
import LightArray.RawEntry

/-! The reductions as methods and as functions of the module (`python.rs`, `lib.rs`): how a
call reaches native code, and what is handed to NumPy. -/
namespace LightArray
open MachineWord ChunkedSum

/-- What the reductions use of `f64`. -/
structure FloatKernels (F : Type) extends FloatExtremes F, NdArray.Arithmetic F where
  one : F
  sub : F → F → F
  mul : F → F → F
  sqrt : F → F
  nonzero : F → Bool
  ofInt : ℤ → F

namespace NdArray

variable {F : Type} (k : FloatKernels F) (a : NdArray .float64 F)

def total : F := @sum F ⟨k.add⟩ ⟨k.zero⟩ a

protected def prod : F := a.data.foldl k.mul k.one

protected def mean : F := if a.data.isEmpty then k.nan else k.div (total k a) (k.ofUsize a.data.length)

/-- Population variance, in two passes. -/
protected def var : F :=
  if a.data.isEmpty then k.nan
  else
    let mean := a.mean k
    k.div (@iterSum F ⟨k.add⟩ ⟨k.zero⟩ (a.data.map fun x => k.mul (k.sub x mean) (k.sub x mean))) (k.ofUsize a.data.length)

protected def any : Bool := a.data.any k.nonzero

protected def all : Bool := a.data.all k.nonzero

end NdArray

/-- An argument as the native code tells arguments apart: an `ndarray`, an instance of a
subclass, None, an int, or anything else. -/
inductive CallArg (F V : Type)
  | array (a : AnyArray F)
  | derived (v : V)
  | none
  | int (i : ℤ)
  | other (v : V)

/-- What a call comes to: a value computed natively, a method looked up by name, or a call
of `_fallback`. -/
inductive CallOutcome (F V : Type)
  | float (x : F)
  | int (i : ℤ)
  | bool (b : Bool)
  | array (a : AnyArray F)
  | method (receiver : CallArg F V) (name : String) (args : List (CallArg F V)) (kwargs : Option (Dict String (CallArg F V)))
  | callMethod (a : AnyArray F) (name : String) (args : List (CallArg F V)) (kwargs : Option (Dict String (CallArg F V)))
  | call (name : String) (args : List (CallArg F V)) (kwargs : Option (Dict String (CallArg F V)))

/-- How a reduction was called. -/
inductive Axis
  | none
  | int (axis : ℤ)
  | other

section routing

variable {F V : Type}

/-- The last tests of `parse_axis`. -/
def axisOf : CallArg F V → Except Failure Axis
  | .none => .ok .none
  | .int i => do
    let axis ← extractIsize i
    .ok (.int axis)
  | _ => .ok .other

def parseAxis (args : List (CallArg F V)) (kwargs : Option (Dict String (CallArg F V))) : Except Failure Axis :=
  match args, kwargs with
  | [], none => .ok .none
  | [axis], none => axisOf axis
  | [], some kw =>
    if kw.entries.length = 0 then .ok .none
    else if kw.entries.length = 1 then
      match kw.get? "axis" with
      | some axis => axisOf axis
      | none => .ok .other
    else .ok .other
  | [axis], some kw => if kw.entries.length = 0 then axisOf axis else .ok .other
  | _, _ => .ok .other

/-- `no_identity`. -/
def noIdentity (name : String) : Failure :=
  .python .valueError s!"zero-size array to reduction operation {name} which has no identity"

/-- A method of `reduce`: its name, the reduction of a whole array and the one along an axis. -/
structure Reduction (F : Type) where
  name : String
  native : NdArray .float64 F → Except Failure F
  alongAxis : NdArray .float64 F → ℤ → Except Failure (NdArray .float64 F)

namespace Reduction

variable (k : FloatKernels F)

protected def sum : Reduction F where
  name := "sum"
  native a := .ok (a.total k)
  alongAxis a ax := NdArray.foldAxis k.add (some k.zero) ax a

protected def prod : Reduction F where
  name := "prod"
  native a := .ok (a.prod k)
  alongAxis a ax := NdArray.foldAxis k.mul (some k.one) ax a

protected def mean : Reduction F where
  name := "mean"
  native a := .ok (a.mean k)
  alongAxis a ax := NdArray.meanAxis k.toArithmetic ax a

protected def max : Reduction F where
  name := "max"
  native a := (a.max k.toFloatExtremes).elim (.error (noIdentity "maximum")) .ok
  alongAxis a ax := NdArray.foldAxis k.nanMax none ax a

protected def min : Reduction F where
  name := "min"
  native a := (a.min k.toFloatExtremes).elim (.error (noIdentity "minimum")) .ok
  alongAxis a ax := NdArray.foldAxis k.nanMin none ax a

end Reduction

variable (k : FloatKernels F)

/-- The native reductions of whole int64 and bool arrays. -/
def altWhole (name : String) (a : AnyArray F) : Option (Except Failure (CallOutcome F V)) :=
  match a, name with
  | .i64 _ data, "sum" => some (.ok (.int (data.foldl wrappingAdd 0)))
  | .bool _ data, "sum" => some (.ok (.int (asIsize (data.countP id))))
  | .i64 _ data, "max" => some ((NdArray.reduceIter max data).elim (.error (noIdentity "maximum")) fun v => .ok (.int v))
  | .i64 _ data, "min" => some ((NdArray.reduceIter min data).elim (.error (noIdentity "minimum")) fun v => .ok (.int v))
  | a, "mean" =>
    if 0 < a.inner.data.length then
      some do
        let x ← a.toArrayF64 k.ofInt
        .ok (.float (x.mean k))
    else none
  | _, _ => none

def altReduce (name : String) (a : AnyArray F) (args : List (CallArg F V)) (kwargs : Option (Dict String (CallArg F V))) :
    Except Failure (CallOutcome F V) := do
  match ← parseAxis args kwargs with
  | .none =>
    match altWhole k name a with
    | some out => out
    | none => .ok (.callMethod a name args kwargs)
  | _ => .ok (.callMethod a name args kwargs)

def reduce (r : Reduction F) (a : AnyArray F) (args : List (CallArg F V)) (kwargs : Option (Dict String (CallArg F V))) :
    Except Failure (CallOutcome F V) :=
  match a with
  | .f64 dims data => do
    match ← parseAxis args kwargs with
    | .none =>
      let x ← r.native ⟨dims, data⟩
      .ok (.float x)
    | .int axis =>
      let y ← r.alongAxis ⟨dims, data⟩ axis
      .ok (.array (.f64 y.dims y.data))
    | .other => .ok (.callMethod a r.name args kwargs)
  | _ => altReduce k r.name a args kwargs

/-- A method that is native when called bare; `fold` is what `any` and `all` of the module make of a
NumPy bool array. -/
structure BareMethod (F V : Type) where
  name : String
  native : NdArray .float64 F → Except Failure (CallOutcome F V)
  fold : Option (List Bool → Bool)

namespace BareMethod

protected def var : BareMethod F V := ⟨"var", fun a => .ok (.float (a.var k)), none⟩

protected def std : BareMethod F V := ⟨"std", fun a => .ok (.float (k.sqrt (a.var k))), none⟩

protected def argmax : BareMethod F V where
  name := "argmax"
  native a := (a.argmax k.toFloatOrder).elim (.error (.python .valueError "attempt to get argmax of an empty sequence"))
    fun i => .ok (.int i)
  fold := none

protected def argmin : BareMethod F V where
  name := "argmin"
  native a := (a.argmin k.toFloatOrder).elim (.error (.python .valueError "attempt to get argmin of an empty sequence"))
    fun i => .ok (.int i)
  fold := none

protected def any : BareMethod F V := ⟨"any", fun a => .ok (.bool (a.any k)), some fun m => m.any id⟩

protected def all : BareMethod F V := ⟨"all", fun a => .ok (.bool (a.all k)), some fun m => m.all id⟩

end BareMethod

/-- What a bare call computes for each dtype. -/
def bareWhole (m : BareMethod F V) (a : AnyArray F) : Option (Except Failure (CallOutcome F V)) :=
  match a, m.name with
  | .f64 dims data, _ => some (m.native ⟨dims, data⟩)
  | .bool _ data, "any" => some (.ok (.bool (data.any id)))
  | .bool _ data, "all" => some (.ok (.bool (data.all id)))
  | .i64 _ data, "any" => some (.ok (.bool (data.any (· ≠ 0))))
  | .i64 _ data, "all" => some (.ok (.bool (data.all (· ≠ 0))))
  | _, _ => none

def bareOrFallback (m : BareMethod F V) (a : AnyArray F) (args : List (CallArg F V))
    (kwargs : Option (Dict String (CallArg F V))) : Except Failure (CallOutcome F V) :=
  let bare := args.isEmpty && (kwargs.all fun kw => kw.entries.isEmpty)
  match if bare then bareWhole m a else none with
  | some out => out
  | none => .ok (.callMethod a m.name args kwargs)

/-- `method_entry`: the array may be passed by keyword. -/
def methodEntry {R : Type} (name : String) (v : VectorCall (CallArg F V))
    (body : CallArg F V → List (CallArg F V) → Option (Dict String (CallArg F V)) → Except Failure R) : Except Failure R :=
  let nargs := vectorNargs v.nargsf
  let kwargs := v.kwnames.map (keywordDict v)
  match v.cells.take nargs with
  | a :: rest => body a rest (kwargs.filter fun kw => !kw.entries.isEmpty)
  | [] =>
    match kwargs.bind (·.get? "a") with
    | some a => body a [] ((kwargs.map (·.erase "a")).filter fun kw => !kw.entries.isEmpty)
    | none => .error (.python .typeError (name ++ "() missing 1 required positional argument: 'a'"))

/-- `call_native_method` for the methods that take any arguments, and a function of the module of that name. -/
def methodFunction (name : String)
    (method : AnyArray F → List (CallArg F V) → Option (Dict String (CallArg F V)) → Except Failure (CallOutcome F V))
    (a : CallArg F V) (args : List (CallArg F V)) (kwargs : Option (Dict String (CallArg F V))) : Except Failure (CallOutcome F V) :=
  match a with
  | .array x => method x args kwargs
  | .derived v => .ok (.method (.derived v) name args kwargs)
  | a => .ok (.call name (a :: args) kwargs)

/-- `sum(a, ...)` and its siblings, as CPython calls them. -/
def reductionFunction (r : Reduction F) (v : VectorCall (CallArg F V)) : Except Failure (CallOutcome F V) :=
  methodEntry r.name v (methodFunction r.name (reduce k r))

/-- The body of `any` and `all`, which fold the elements of a NumPy bool array themselves; `boolMask` is
`numpy_bool_buffer`. -/
def boolReduction (boolMask : V → Option (List Bool)) (m : BareMethod F V) (fold : List Bool → Bool) (a : CallArg F V)
    (args : List (CallArg F V)) (kwargs : Option (Dict String (CallArg F V))) : Except Failure (CallOutcome F V) :=
  let mask := match a with
    | .other x => if args.isEmpty && (kwargs.all fun kw => kw.entries.isEmpty) then boolMask x else none
    | _ => none
  match mask with
  | some mask => .ok (.bool (fold mask))
  | none => methodFunction m.name (bareOrFallback m) a args kwargs

/-- `var(a, ...)`, `any(a, ...)` and the others. -/
def bareFunction (boolMask : V → Option (List Bool)) (m : BareMethod F V) (v : VectorCall (CallArg F V)) :
    Except Failure (CallOutcome F V) :=
  match m.fold with
  | some fold => methodEntry m.name v (boolReduction boolMask m fold)
  | none => methodEntry m.name v (methodFunction m.name (bareOrFallback m))

variable {v : VectorCall (CallArg F V)} {c : PyCall (CallArg F V)}

/-- `method_entry` passes on the first parameter's argument and the rest of the call. -/
theorem methodEntry_passes {R : Type} (h : v.Passes c) (name : String)
    (body : CallArg F V → List (CallArg F V) → Option (Dict String (CallArg F V)) → Except Failure R) :
    methodEntry name v body = (c.first "a").elim
      (.error (.python .typeError (name ++ "() missing 1 required positional argument: 'a'")))
      fun a => body a (c.rest "a").args (c.rest "a").keywords := by
  unfold methodEntry
  simp only [take_cells h]
  cases hargs : c.args with
  | cons a rest =>
    have hkw := kwnames_passes h id rfl
    rw [Option.map_id] at hkw
    rw [PyCall.first, hargs, PyCall.rest_cons hargs]
    exact congrArg (body a rest) hkw
  | nil =>
    have hget : (v.kwnames.map (keywordDict v)).bind (·.get? "a") = c.kwargs.get? "a" := by
      rcases h.names with hnames | ⟨hkeys, hnames⟩
      · rw [hnames, Option.map_some, Option.bind_some, keywordDict_passes h]
      · rw [hnames, PyCall.kwargs_empty hkeys]
        rfl
    rw [PyCall.first, hargs, PyCall.rest_nil hargs, PyCall.keywords, kwnames_passes h (·.erase "a") rfl]
    simp only [hget]
    cases c.kwargs.get? "a" <;> rfl

/-- An argument for the axis at most. -/
def OnlyAxis (s : Signature) (c : PyCall (CallArg F V)) : Prop :=
  c.Accepted s ∧ ∀ p, p ≠ "axis" → c.value s p = none

variable {s : Signature} {ps : List String}

theorem parseAxis_onlyAxis (hs : s.positional = "axis" :: ps) (h : OnlyAxis s c) :
    parseAxis c.args c.keywords = axisOf ((c.value s "axis").getD .none) := by
  obtain ⟨hlen, hkeys⟩ := (PyCall.only_first_iff hs).mp h
  cases hargs : c.args with
  | cons x args =>
    rw [hargs, List.length_cons] at hlen
    have hnil : args = [] := List.eq_nil_of_length_eq_zero (by omega)
    have hnone : c.kwargs.keys = [] := List.eq_nil_of_length_eq_zero (by omega)
    subst hnil
    rw [PyCall.keywords_empty hnone, PyCall.value, hargs, hs, PyCall.placed_self]
    rfl
  | nil =>
    rw [PyCall.value, hargs, PyCall.placed_nil, Option.none_or]
    cases hnames : c.kwargs.keys with
    | nil =>
      rw [PyCall.keywords_empty hnames, PyCall.kwargs_empty hnames]
      rfl
    | cons k names =>
      have hk : k ∈ c.kwargs.keys := hnames ▸ List.mem_cons_self
      have hone : c.kwargs.entries.length = 1 := by
        rw [hargs, hnames, List.length_nil, List.length_cons] at hlen
        have hentries : c.kwargs.keys.length = c.kwargs.entries.length := List.length_map _
        rw [← hentries, hnames, List.length_cons]
        omega
      obtain ⟨x, hx⟩ := Dict.mem_keys.mp (hkeys k hk ▸ hk)
      rw [PyCall.keywords_of_mem hk, hx, parseAxis, if_neg (by omega), if_pos hone, hx]
      rfl

theorem parseAxis_other (hs : s.positional = "axis" :: ps) (h : ¬ OnlyAxis s c) :
    parseAxis c.args c.keywords = .ok .other := by
  rw [OnlyAxis, PyCall.only_first_iff hs] at h
  have hentries : c.kwargs.keys.length = c.kwargs.entries.length := List.length_map _
  cases hnames : c.kwargs.keys with
  | nil =>
    rw [PyCall.keywords_empty hnames]
    have hkeys : ∀ j ∈ c.kwargs.keys, j = "axis" := by
      rw [hnames]
      exact List.forall_mem_nil _
    rcases hargs : c.args with _ | ⟨x, _ | ⟨y, args⟩⟩
    · exact absurd ⟨by rw [hargs, hnames]; exact Nat.zero_le 1, hkeys⟩ h
    · exact absurd ⟨by rw [hargs, hnames]; exact Nat.le_refl 1, hkeys⟩ h
    · rfl
  | cons k names =>
    have hk : k ∈ c.kwargs.keys := hnames ▸ List.mem_cons_self
    have hpos : c.kwargs.entries.length ≠ 0 := by
      rw [← hentries, hnames, List.length_cons]
      exact Nat.succ_ne_zero _
    rw [PyCall.keywords_of_mem hk]
    rcases hargs : c.args with _ | ⟨x, _ | ⟨y, args⟩⟩
    · rw [parseAxis, if_neg hpos]
      split_ifs with hone
      · -- a single keyword of another name
        have hget : c.kwargs.get? "axis" = none := by
          rw [Dict.get?_eq_none]
          intro haxis
          apply h
          refine ⟨by rw [hargs, hentries, hone]; exact Nat.le_refl 1, fun j hj => ?_⟩
          obtain ⟨n, hn⟩ := List.length_eq_one_iff.mp (hentries.trans hone)
          rw [hn, List.mem_singleton] at hj haxis
          rw [hj, haxis]
        rw [hget]
      · rfl
    · rw [parseAxis, if_neg hpos]
    · rfl

/-- What native code computes for an axis, if it computes anything. -/
def computed (r : Reduction F) (a : AnyArray F) (axis : Axis) : Option (Except Failure (CallOutcome F V)) :=
  match a, axis with
  | .f64 dims data, .none => some ((r.native ⟨dims, data⟩).map .float)
  | .f64 dims data, .int axis => some ((r.alongAxis ⟨dims, data⟩ axis).map fun y => .array (.f64 y.dims y.data))
  | a, .none => altWhole k r.name a
  | _, _ => none

theorem reduce_eq (r : Reduction F) (a : AnyArray F) (args : List (CallArg F V)) (kwargs : Option (Dict String (CallArg F V))) :
    reduce k r a args kwargs =
      parseAxis args kwargs >>= fun axis => (computed k r a axis).getD (.ok (.callMethod a r.name args kwargs)) := by
  unfold reduce altReduce
  cases hparse : parseAxis args kwargs with
  | error e => cases a <;> rfl
  | ok axis =>
    cases a with
    | f64 dims data =>
      cases axis with
      | none =>
        cases hnative : r.native ⟨dims, data⟩ <;> simp [bind, Except.bind, computed, hnative, Except.map]
      | int axis =>
        cases halong : r.alongAxis ⟨dims, data⟩ axis <;> simp [bind, Except.bind, computed, halong, Except.map]
      | other => rfl
    | i64 dims data =>
      cases axis with
      | none => cases halt : altWhole k r.name (.i64 dims data) <;> simp [bind, Except.bind, computed, halt]
      | int axis => rfl
      | other => rfl
    | bool dims data =>
      cases axis with
      | none => cases halt : altWhole k r.name (.bool dims data) <;> simp [bind, Except.bind, computed, halt]
      | int axis => rfl
      | other => rfl

/-- A reduction called as a function does what the array's method does with the rest of the
call, which binds the other parameters to the same arguments. Native code computes it only
when nothing but the axis is given, and for that axis; everything else is NumPy's, also the
calls the signature does not accept. -/
theorem reduction_call (r : Reduction F) {a : AnyArray F} (hs : s.positional = "a" :: "axis" :: ps) (h : v.Passes c)
    (ha : c.first "a" = some (.array a)) :
    (((c.rest "a").Accepted s.tail ↔ c.Accepted s) ∧ ∀ p, p ≠ "a" → (c.rest "a").value s.tail p = c.value s p) ∧
      reductionFunction k r v = reduce k r a (c.rest "a").args (c.rest "a").keywords ∧
      ((c.Accepted s ∧ ∀ p, p ≠ "a" → p ≠ "axis" → c.value s p = none) →
        reductionFunction k r v = axisOf ((c.value s "axis").getD .none) >>= fun axis =>
          (computed k r a axis).getD (.ok (.callMethod a r.name (c.rest "a").args (c.rest "a").keywords))) ∧
      (¬ (c.Accepted s ∧ ∀ p, p ≠ "a" → p ≠ "axis" → c.value s p = none) →
        reductionFunction k r v = .ok (.callMethod a r.name (c.rest "a").args (c.rest "a").keywords)) := by
  have htail : s.tail.positional = "axis" :: ps := PyCall.positional_tail hs
  have haccepted := PyCall.accepted_rest (c := c) hs
  have hvalue : ∀ p, p ≠ "a" → (c.rest "a").value s.tail p = c.value s p := fun p hp => PyCall.value_rest hs hp
  have hfunction : reductionFunction k r v = reduce k r a (c.rest "a").args (c.rest "a").keywords := by
    rw [reductionFunction, methodEntry_passes h, ha]
    rfl
  have honly : (c.Accepted s ∧ ∀ p, p ≠ "a" → p ≠ "axis" → c.value s p = none) ↔ OnlyAxis s.tail (c.rest "a") :=
    PyCall.none_given_rest hs (· ≠ "axis")
  refine ⟨⟨haccepted, hvalue⟩, hfunction, fun hc => ?_, fun hc => ?_⟩
  · rw [hfunction, reduce_eq, parseAxis_onlyAxis htail (honly.mp hc), hvalue "axis" (by decide)]
  · rw [hfunction, reduce_eq, parseAxis_other htail (fun ho => hc (honly.mpr ho))]
    cases a <;> rfl

/-- The same of the methods that are native only when called bare. -/
theorem bare_call (boolMask : V → Option (List Bool)) (m : BareMethod F V) {a : AnyArray F} (hs : s.positional = "a" :: ps) (h : v.Passes c)
    (ha : c.first "a" = some (.array a)) :
    (((c.rest "a").Accepted s.tail ↔ c.Accepted s) ∧ ∀ p, p ≠ "a" → (c.rest "a").value s.tail p = c.value s p) ∧
      bareFunction boolMask m v = bareOrFallback m a (c.rest "a").args (c.rest "a").keywords ∧
      ((c.Accepted s ∧ ∀ p, p ≠ "a" → c.value s p = none) → bareFunction boolMask m v = (bareWhole m a).getD
        (.ok (.callMethod a m.name (c.rest "a").args (c.rest "a").keywords))) ∧
      (¬ (c.Accepted s ∧ ∀ p, p ≠ "a" → c.value s p = none) →
        bareFunction boolMask m v = .ok (.callMethod a m.name (c.rest "a").args (c.rest "a").keywords)) := by
  have haccepted := PyCall.accepted_rest (c := c) hs
  have hvalue : ∀ p, p ≠ "a" → (c.rest "a").value s.tail p = c.value s p := fun p hp => PyCall.value_rest hs hp
  have hfunction : bareFunction boolMask m v = bareOrFallback m a (c.rest "a").args (c.rest "a").keywords := by
    unfold bareFunction
    cases m.fold with
    | none =>
      rw [methodEntry_passes h, ha]
      rfl
    | some fold =>
      show methodEntry m.name v (boolReduction boolMask m fold) = _
      rw [methodEntry_passes h, ha]
      rfl
  have hbare : (c.Accepted s ∧ ∀ p, p ≠ "a" → c.value s p = none) ↔
      (c.rest "a").args = [] ∧ (c.rest "a").kwargs.keys = [] := by
    have hrest := PyCall.none_given_rest (c := c) hs fun _ => True
    simp only [forall_const] at hrest
    rw [hrest, PyCall.none_given_iff]
  refine ⟨⟨haccepted, hvalue⟩, hfunction, fun hc => ?_, fun hc => ?_⟩
  · obtain ⟨hargs, hkeys⟩ := hbare.mp hc
    rw [hfunction, hargs, PyCall.keywords_empty hkeys, bareOrFallback]
    cases bareWhole m a <;> simp
  · have hfilled : ((c.rest "a").args.isEmpty && ((c.rest "a").keywords.all fun kw => kw.entries.isEmpty)) = false := by
      rw [hbare, not_and_or] at hc
      rcases hc with hargs | hkeys
      · rw [List.isEmpty_eq_false_iff.mpr hargs, Bool.false_and]
      · obtain ⟨k, hk⟩ := List.exists_mem_of_ne_nil _ hkeys
        have hentries : (c.rest "a").kwargs.entries ≠ [] := fun hnil => hkeys (congrArg (List.map Prod.fst) hnil)
        rw [PyCall.keywords_of_mem hk, Option.all_some, List.isEmpty_eq_false_iff.mpr hentries, Bool.and_false]
    rw [hfunction, bareOrFallback, hfilled]
    rfl

end routing

/-- Integers with one NaN, as the reductions use them. -/
def nanIntKernels : FloatKernels (Option ℤ) where
  toFloatExtremes := nanIntExtremes
  zero := some 0
  add := Option.map₂ (· + ·)
  div := Option.map₂ (· / ·)
  ofUsize n := some n
  one := some 1
  sub := Option.map₂ (· - ·)
  mul := Option.map₂ (· * ·)
  sqrt x := x.map fun n => (Nat.sqrt n.toNat : ℤ)
  nonzero x := x ≠ some 0
  ofInt n := some n

/-- The parameters of `sum`. -/
def sumSignature : Signature := ⟨["a", "axis", "dtype", "out", "keepdims", "initial", "where"], [], by decide⟩

/-- `sum(axis=0, a=tied)`, from a caller that leaves room for an argument. -/
def sumByName : VectorCall (CallArg (Option ℤ) Unit) := ⟨[.int 0, .array (.f64 tied.dims tied.data)], 2^63, some ["axis", "a"]⟩

theorem reduction_call_tied : reductionFunction nanIntKernels (.sum nanIntKernels) sumByName =
    ((NdArray.foldAxis nanIntKernels.add (some (some 0)) 0 tied).map fun y => .array (.f64 y.dims y.data)) := by
  let c : PyCall (CallArg (Option ℤ) Unit) :=
    ⟨[], (Dict.empty.set "axis" (.int 0)).set "a" (.array (.f64 tied.dims tied.data))⟩
  have hpasses : sumByName.Passes c := ⟨rfl, .inr (Nat.add_zero _).symm, Nat.two_pow_pos 63, .inl rfl⟩
  have hgiven : c.Accepted sumSignature ∧ ∀ p, p ≠ "a" → p ≠ "axis" → c.value sumSignature p = none := by
    refine ⟨⟨by decide, by decide⟩, fun p ha haxis => ?_⟩
    have hkeys : p ∉ c.kwargs.keys := by
      change p ∉ ["axis", "a"]
      simp [ha, haxis]
    rw [PyCall.value, PyCall.placed_nil, Dict.get?_eq_none.mpr hkeys]
    rfl
  exact (reduction_call nanIntKernels (.sum nanIntKernels) rfl hpasses rfl).2.2.1 hgiven

/-- `any(tied, axis=0)`. -/
def anyAlong : VectorCall (CallArg (Option ℤ) Unit) := ⟨[.array (.f64 tied.dims tied.data), .int 0], 1, some ["axis"]⟩

theorem bare_call_tied : bareFunction (fun _ => none) (.any nanIntKernels) anyAlong =
    .ok (.callMethod (.f64 tied.dims tied.data) "any" [] (some (Dict.empty.set "axis" (.int 0)))) := by
  let s : Signature := ⟨["a", "axis", "out", "keepdims"], ["where"], by decide⟩
  let c : PyCall (CallArg (Option ℤ) Unit) := ⟨[.array (.f64 tied.dims tied.data)], Dict.empty.set "axis" (.int 0)⟩
  have hpasses : anyAlong.Passes c := ⟨rfl, .inl rfl, Nat.one_lt_two_pow (by decide), .inl rfl⟩
  have hgiven : ¬ (c.Accepted s ∧ ∀ p, p ≠ "a" → c.value s p = none) := by
    rintro ⟨-, hnone⟩
    have haxis : c.value s "axis" = some (.int 0) := rfl
    rw [hnone "axis" (by decide)] at haxis
    cases haxis
  exact (bare_call (s := s) (fun _ => none) (.any nanIntKernels) rfl hpasses rfl).2.2.2 hgiven

end LightArray
