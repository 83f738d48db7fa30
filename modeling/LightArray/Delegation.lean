import LightArray.Dims
import LightArray.RawEntry

/-! Delegation to NumPy (`_fallback.py`): arguments are converted, NumPy is called, and its results
are converted back. NumPy in turn passes a call that it finds a lightarray array in to the
protocols of the array. -/
namespace LightArray

/-- Python objects as the delegation takes them apart: arrays of either library, exact lists and
tuples, `None`, and everything else, which is passed on as it is. -/
inductive PyObj (A N V : Type)
  | light (a : A)
  | ndarray (n : N)
  | list (items : List (PyObj A N V))
  | tuple (items : List (PyObj A N V))
  | none
  | other (v : V)

/-- NumPy's functions: ufuncs with `nin` inputs and one output, and functions that lightarray has no
version of and wraps. -/
inductive NumpyFunction
  | ufunc (name : String) (nin : ℕ)
  | function (name : String)

variable {A N V : Type}

namespace PyObj

mutual

/-- `to_numpy`. -/
def toNumpy (asarray : A → N) : PyObj A N V → PyObj A N V
  | .light a => .ndarray (asarray a)
  | .ndarray n => .ndarray n
  | .list items => .list (toNumpyAll asarray items)
  | .tuple items => .tuple (toNumpyAll asarray items)
  | .none => .none
  | .other v => .other v

def toNumpyAll (asarray : A → N) : List (PyObj A N V) → List (PyObj A N V)
  | [] => []
  | x :: xs => x.toNumpy asarray :: toNumpyAll asarray xs

end

mutual

/-- `from_numpy`; `adopt` is the array that an `ndarray` becomes, if it becomes one. -/
def fromNumpy (adopt : N → Except Failure (Option A)) : PyObj A N V → Except Failure (PyObj A N V)
  | .ndarray n => do
    let a ← adopt n
    .ok (a.elim (.ndarray n) .light)
  | .tuple items => do
    let items ← fromNumpyAll adopt items
    .ok (.tuple items)
  | .list items => do
    let items ← fromNumpyAll adopt items
    .ok (.list items)
  | .light a => .ok (.light a)
  | .none => .ok .none
  | .other v => .ok (.other v)

def fromNumpyAll (adopt : N → Except Failure (Option A)) : List (PyObj A N V) → Except Failure (List (PyObj A N V))
  | [] => .ok []
  | x :: xs => do
    let y ← x.fromNumpy adopt
    let ys ← fromNumpyAll adopt xs
    .ok (y :: ys)

end

mutual

/-- The lightarray arrays found through lists and tuples. -/
def lights : PyObj A N V → List A
  | .light a => [a]
  | .list items => lightsAll items
  | .tuple items => lightsAll items
  | _ => []

def lightsAll : List (PyObj A N V) → List A
  | [] => []
  | x :: xs => x.lights ++ lightsAll xs

end

def isNone : PyObj A N V → Bool
  | .none => true
  | _ => false

/-- What a call with this `out` returns. -/
def unwrapped : PyObj A N V → PyObj A N V
  | .tuple [x] => x
  | out => out

/-- The tuple of outputs that `out` stands for. -/
def asTuple : PyObj A N V → PyObj A N V
  | .tuple items => .tuple items
  | out => .tuple [out]

mutual

theorem lights_toNumpy (asarray : A → N) : ∀ x : PyObj A N V, (x.toNumpy asarray).lights = []
  | .light _ => rfl
  | .ndarray _ => rfl
  | .list items => lightsAll_toNumpy asarray items
  | .tuple items => lightsAll_toNumpy asarray items
  | .none => rfl
  | .other _ => rfl

theorem lightsAll_toNumpy (asarray : A → N) : ∀ xs : List (PyObj A N V), lightsAll (toNumpyAll asarray xs) = []
  | [] => rfl
  | x :: xs => List.append_eq_nil_iff.mpr ⟨lights_toNumpy asarray x, lightsAll_toNumpy asarray xs⟩

end

end PyObj

/-- A call of Python objects. -/
abbrev ObjCall (A N V : Type) : Type := PyCall (PyObj A N V)

namespace ObjCall

/-- `_args_to_numpy` and `_kwargs_to_numpy`. -/
def argsToNumpy (asarray : A → N) (args : List (PyObj A N V)) : List (PyObj A N V) :=
  args.map fun x =>
    match x with
    | .light a => .ndarray (asarray a)
    | .list items => PyObj.toNumpy asarray (.list items)
    | .tuple items => PyObj.toNumpy asarray (.tuple items)
    | x => x

def toNumpy (asarray : A → N) (c : ObjCall A N V) : ObjCall A N V :=
  ⟨argsToNumpy asarray c.args, c.kwargs.map (PyObj.toNumpy asarray)⟩

/-- The lightarray arrays of a call. -/
def lights (c : ObjCall A N V) : List A :=
  c.args.flatMap PyObj.lights ++ c.kwargs.entries.flatMap fun e => e.2.lights

end ObjCall

/-- What a call comes to: its result, what NumPy's implementations were called with, and how far
`_fallback.calls` went up. -/
structure Delegated (A N V : Type) where
  result : Except Failure (PyObj A N V)
  seen : List (NumpyFunction × ObjCall A N V)
  calls : ℕ

/-- NumPy, the bodies of the element-wise functions, and the conversions of an array. `impl` is what a
function of NumPy computes; `override` is the call that NumPy passes to the protocol of a lightarray array,
if it asks one; `native` is the body of an element-wise function of the core, which answers a call or ends in
`fallback(py, "call", (name, inputs))`. -/
structure NumpyLibrary (A N V : Type) where
  asarray : A → N
  adopt : N → Except Failure (Option A)
  impl : NumpyFunction → ObjCall A N V → Except Failure (PyObj A N V)
  override : NumpyFunction → ObjCall A N V → Option (ObjCall A N V)
  native : String → ℕ → Option (List (PyObj A N V) → Except Failure (Option (PyObj A N V)))

namespace NumpyLibrary

variable (w : NumpyLibrary A N V)

/-- The end of `invoke`: the caller's own `out`, or the result of NumPy. `outs` are the positional
arguments behind the inputs when `func` is a ufunc. -/
def returned (outs : List (PyObj A N V)) (c : ObjCall A N V) (result : PyObj A N V) : Except Failure (PyObj A N V) :=
  if c.kwargs.entries.isEmpty then
    if outs ≠ [] ∧ outs.all (!·.isNone) then
      match outs with
      | [x] => .ok x
      | _ => .ok (.tuple outs)
    else result.fromNumpy w.adopt
  else
    match c.kwargs.get? "out" with
    | some out => if out.isNone then result.fromNumpy w.adopt else .ok out.unwrapped
    | none => result.fromNumpy w.adopt

/-- `invoke`; `np` is the NumPy function. -/
def invoke (np : ObjCall A N V → Delegated A N V) (outs : List (PyObj A N V)) (c : ObjCall A N V) : Delegated A N V :=
  let o := np (c.toNumpy w.asarray)
  { result := do
      let r ← o.result
      w.returned outs c r
    seen := o.seen
    calls := o.calls+1 }

/-- `call(name, ...)`, and the wrapper that `wrap_function` makes. -/
def call (np : NumpyFunction → ObjCall A N V → Delegated A N V) (f : NumpyFunction) (c : ObjCall A N V) : Delegated A N V :=
  match f with
  | .ufunc _ nin => w.invoke (np f) (c.args.drop nin) c
  | .function _ => w.invoke (np f) [] c

/-- The body of an element-wise function: its answer, or `call` with its inputs. -/
def runNative (np : NumpyFunction → ObjCall A N V → Delegated A N V) (f : NumpyFunction)
    (body : List (PyObj A N V) → Except Failure (Option (PyObj A N V))) (inputs : List (PyObj A N V)) : Delegated A N V :=
  match body inputs with
  | .ok (some r) => ⟨.ok r, [], 0⟩
  | .ok none => w.call np f ⟨inputs, .empty⟩
  | .error e => ⟨.error e, [], 0⟩

/-- The function of the lightarray namespace: an element-wise function behind its fast entry, or a wrapper. -/
def lightarrayCall (np : NumpyFunction → ObjCall A N V → Delegated A N V) (f : NumpyFunction) (c : ObjCall A N V) :
    Delegated A N V :=
  match f with
  | .ufunc name nin =>
    match w.native name nin with
    | some body => elementwiseEntry nin (layoutCall c) (w.runNative np f body) (w.call np f)
    | none => w.call np f c
  | .function _ => w.call np f c

/-- `abs(x, *args, **kwargs)`, which has no fast entry; `body` is that of `absolute`. -/
def abs (np : NumpyFunction → ObjCall A N V → Delegated A N V)
    (body : List (PyObj A N V) → Except Failure (Option (PyObj A N V))) (x : PyObj A N V) (args : List (PyObj A N V))
    (kwargs : Dict String (PyObj A N V)) : Delegated A N V :=
  if args.isEmpty ∧ kwargs.entries.isEmpty then w.runNative np (.ufunc "absolute" 1) body [x]
  else w.call np (.ufunc "absolute" 1) ⟨[x], kwargs⟩

/-- The implementation of a NumPy function. -/
def implementation (f : NumpyFunction) (c : ObjCall A N V) : Delegated A N V := ⟨w.impl f c, [(f,c)], 0⟩

/-- `_array_ufunc` for `__call__`. -/
def arrayUfunc (np : NumpyFunction → ObjCall A N V → Delegated A N V) (name : String) (nin : ℕ) (c : ObjCall A N V) :
    Delegated A N V :=
  match c.kwargs.get? "out" with
  | some out =>
    if out.isNone then w.invoke (np (.ufunc name nin)) [] c
    else
      let o := np (.ufunc name nin) (c.toNumpy w.asarray)
      { result := do
          let _ ← o.result
          .ok out.unwrapped
        seen := o.seen
        calls := o.calls }
  | none =>
    if (w.native name nin).isSome ∧ c.kwargs.entries.isEmpty then w.lightarrayCall np (.ufunc name nin) ⟨c.args, .empty⟩
    else w.invoke (np (.ufunc name nin)) [] c

/-- `_array_function` for a function without a native version: the undispatched implementation is called. -/
def arrayFunction (name : String) (c : ObjCall A N V) : Delegated A N V := w.invoke (w.implementation (.function name)) [] c

/-- The protocol of a lightarray array. -/
def protocol (np : NumpyFunction → ObjCall A N V → Delegated A N V) (f : NumpyFunction) (c : ObjCall A N V) : Delegated A N V :=
  match f with
  | .ufunc name nin => w.arrayUfunc np name nin c
  | .function name => w.arrayFunction name c

/-- What NumPy documents. `numpy d` are its functions as Python calls them, with room for `d` calls of a
protocol: a call that only NumPy has a say in is computed, and one that a lightarray array among the
arguments overrides is passed to the protocol. A ufunc has its inputs and an output that is given once; it
passes on the inputs by position and the output as a tuple under `out`. -/
structure Documented (numpy : ℕ → NumpyFunction → ObjCall A N V → Delegated A N V) : Prop where
  computes : ∀ d f c, w.override f c = none → numpy d f c = w.implementation f c
  asks : ∀ d f c c', w.override f c = some c' → numpy (d+1) f c = w.protocol (numpy d) f c'
  overridden : ∀ f c c', w.override f c = some c' → ObjCall.lights c ≠ []
  arity : ∀ name nin c c', w.override (.ufunc name nin) c = some c' →
    c.args.length = nin ∨ c.args.length = nin+1 ∧ c.kwargs.get? "out" = none
  inputs : ∀ name nin c c', w.override (.ufunc name nin) c = some c' → c'.args = c.args.take nin
  positional : ∀ name nin c c' x, w.override (.ufunc name nin) c = some c' → c.args.drop nin = [x] → x.isNone = false →
    c'.kwargs = c.kwargs.set "out" (.tuple [x])
  keyword : ∀ name nin c c' x, w.override (.ufunc name nin) c = some c' → c.kwargs.get? "out" = some x →
    x.isNone = false → x ≠ .tuple [.none] → c'.kwargs = c.kwargs.set "out" x.asTuple
  noOutput : ∀ name nin c c', w.override (.ufunc name nin) c = some c' → c.args.length = nin →
    c.kwargs.get? "out" = none → c'.kwargs = c.kwargs
  function : ∀ name c c', w.override (.function name) c = some c' → c' = c
  output : ∀ name nin c c', w.override (.ufunc name nin) c = some c' →
    w.impl (.ufunc name nin) (c'.toNumpy w.asarray) = w.impl (.ufunc name nin) (c.toNumpy w.asarray)

end NumpyLibrary

variable {w : NumpyLibrary A N V} {numpy : ℕ → NumpyFunction → ObjCall A N V → Delegated A N V} {f : NumpyFunction}
  {c c' : ObjCall A N V} {name : String} {nin : ℕ}

namespace NumpyLibrary

theorem lightarrayCall_wrapped (np : NumpyFunction → ObjCall A N V → Delegated A N V) (h : w.native name nin = none) :
    w.lightarrayCall np (.ufunc name nin) c = w.call np (.ufunc name nin) c := by
  simp only [lightarrayCall, h]

theorem lightarrayCall_native (np : NumpyFunction → ObjCall A N V → Delegated A N V)
    {body : List (PyObj A N V) → Except Failure (Option (PyObj A N V))} (h : w.native name nin = some body) :
    w.lightarrayCall np (.ufunc name nin) c =
      elementwiseEntry nin (layoutCall c) (w.runNative np (.ufunc name nin) body) (w.call np (.ufunc name nin)) := by
  simp only [lightarrayCall, h]

/-- NumPy's implementation ran once, on converted arguments, or not at all. -/
def Settled (w : NumpyLibrary A N V) (f : NumpyFunction) (o : Delegated A N V) : Prop :=
  o.seen = [] ∧ o.calls = 0 ∨ ∃ c : ObjCall A N V, o.seen = [(f, c.toNumpy w.asarray)] ∧ o.calls = 1

theorem Settled.seen {o : Delegated A N V} (h : w.Settled f o) :
    o.seen = [] ∨ ∃ c' : ObjCall A N V, o.seen = [(f, c'.toNumpy w.asarray)] := by
  rcases h with ⟨hseen, -⟩ | ⟨c', hseen, -⟩
  · exact .inl hseen
  · exact .inr ⟨c', hseen⟩

section output

variable {x : PyObj A N V}

/-- Any call but one of exactly the inputs goes to NumPy. -/
theorem lightarrayCall_of_keywords (np : NumpyFunction → ObjCall A N V → Delegated A N V) (hlen : c.args.length < 2^63)
    (h : ¬ (c.args.length = nin ∧ c.kwargs.entries.isEmpty = true)) :
    w.lightarrayCall np (.ufunc name nin) c = w.invoke (np (.ufunc name nin)) (c.args.drop nin) c := by
  cases hbody : w.native name nin with
  | none => exact lightarrayCall_wrapped np hbody
  | some body =>
    rw [lightarrayCall_native np hbody, elementwiseEntry_layout hlen, if_neg h]
    rfl

/-- And with a positional output. -/
theorem lightarrayCall_positional (np : NumpyFunction → ObjCall A N V → Delegated A N V) (hlen : c.args.length < 2^63)
    (hx : c.args.drop nin = [x]) (hnone : x.isNone = false) (halone : c.kwargs.entries = []) :
    (w.lightarrayCall np (.ufunc name nin) c).result = (do
      let _ ← (np (.ufunc name nin) (c.toNumpy w.asarray)).result
      .ok x) := by
  have hlonger : ¬ c.args.length = nin := by
    intro hexact
    rw [List.drop_eq_nil_of_le hexact.le] at hx
    cases hx
  have hempty : c.kwargs.entries.isEmpty = true := List.isEmpty_iff.mpr halone
  have hall : [x] ≠ [] ∧ [x].all (!·.isNone) = true := ⟨List.cons_ne_nil _ _, by simp [hnone]⟩
  have hreturned (r : PyObj A N V) : w.returned [x] c r = .ok x := by
    unfold returned
    rw [if_pos hempty, if_pos hall]
  rw [lightarrayCall_of_keywords np hlen fun h => hlonger h.1, invoke, hx]
  simp only [hreturned]

/-- `abs` is `absolute` unless it is given an output by position, which it drops: NumPy is called with the
first argument only, where `absolute` returns the output. -/
theorem abs_eq (np : NumpyFunction → ObjCall A N V → Delegated A N V)
    {body : List (PyObj A N V) → Except Failure (Option (PyObj A N V))} (hbody : w.native "absolute" 1 = some body)
    (kwargs : Dict String (PyObj A N V)) :
    w.abs np body x [] kwargs = w.lightarrayCall np (.ufunc "absolute" 1) ⟨[x], kwargs⟩ ∧
      ∀ out : PyObj A N V, out.isNone = false → w.abs np body x [out] .empty = w.call np (.ufunc "absolute" 1) ⟨[x], .empty⟩ ∧
        (w.lightarrayCall np (.ufunc "absolute" 1) ⟨[x,out], .empty⟩).result = (do
          let _ ← (np (.ufunc "absolute" 1) (ObjCall.toNumpy w.asarray ⟨[x,out], .empty⟩)).result
          .ok out) := by
  refine ⟨?_, fun out hnone => ⟨rfl, ?_⟩⟩
  · have hlen : (⟨[x], kwargs⟩ : ObjCall A N V).args.length < 2^63 := Nat.one_lt_two_pow (by decide)
    rw [lightarrayCall_native np hbody, elementwiseEntry_layout hlen]
    by_cases hempty : kwargs.entries.isEmpty = true
    · rw [abs, if_pos ⟨rfl, hempty⟩, if_pos ⟨rfl, hempty⟩]
    · rw [abs, if_neg fun h => hempty h.2, if_neg fun h => hempty h.2]
  · exact lightarrayCall_positional np (show 2 < 2^63 by decide) rfl hnone rfl

end output

section result

variable (hw : w.Documented numpy) (h : w.override (.ufunc name nin) c = some c') (hlen : c.args.length < 2^63)
include hw h hlen

end result

end NumpyLibrary

end LightArray
