import LightArray.Dict
import Mathlib.Logic.Function.Basic
import Mathlib.Tactic.Common

namespace LightArray

/-- The `conversions` argument. -/
inductive Conversions where
  | lightarray
  | numpy
  deriving DecidableEq

/-- `s.startswith(start)`. -/
def startsWith (s start : String) : Bool := start.toList.isPrefixOf s.toList

/-- `"." in s`. -/
def hasDot (s : String) : Bool := s.toList.contains '.'

/-- `s.split(".")[1]`, when there is one. -/
def secondPart (s : String) : Option String :=
  match s.toList.dropWhile (· ≠ '.') with
  | [] => none
  | _ :: rest => some (String.ofList (rest.takeWhile (· ≠ '.')))

/-- `_CONVERSION_NAMES`. -/
def conversionNames : List String :=
  ["asarray", "asanyarray", "ascontiguousarray", "asfortranarray", "array", "require", "atleast_1d",
    "atleast_2d", "atleast_3d", "asarray_chkfinite", "frombuffer", "fromiter"]

/-- What `patch_module` asks of Python objects `V`, of NumPy and of lightarray's own namespace. -/
structure NumpyEnv (V : Type*) where
  pyNone : V
  np : V
  ndarray : V
  callable : V → Bool
  isType : V → Bool
  isUfunc : V → Bool
  /-- `value.__name__` of a `types.ModuleType`. -/
  moduleName : V → Option String
  /-- `str(getattr(value, "__module__", ""))`. -/
  dunderModule : V → String
  /-- `getattr(value, "__name__", "")`. -/
  dunderName : V → String
  npAttr : String → Option V
  /-- Attributes of the `lightarray` module. -/
  thisAttr : String → Option V
  /-- Attributes of a `_fallback.ModuleProxy`. -/
  proxyAttr : V → Option (String → Option V)
  namespaceForPackages : V
  conversionsToNumpy : V
  anyNdarray : V
  dispatch : V → V → V
  typePreservingUfunc : V → V → V
  ufuncProxy : V → V → V

namespace NumpyEnv

variable {V : Type*} [DecidableEq V] (env : NumpyEnv V)

def notNone (value : V) : Option V := if value = env.pyNone then none else some value

/-- `module_stand_in`. -/
def moduleStandIn : Conversions → V
  | .lightarray => env.namespaceForPackages
  | .numpy => env.conversionsToNumpy

/-- `_ConversionsToNumpy.__getattr__`; the error is the `AttributeError`'s text. -/
def conversionsAttr (name : String) : Except String V :=
  if name = "ndarray" then .ok env.anyNdarray
  else if name ∈ conversionNames then
    match env.npAttr name with
    | some value => .ok value
    | none => .error ("module 'numpy' has no attribute '" ++ name ++ "'")
  else
    match env.thisAttr name with
    | none => .error ("module 'lightarray' has no attribute '" ++ name ++ "'")
    | some laObj =>
      match env.npAttr name with
      | none => .ok laObj
      | some npObj =>
        if env.callable laObj && env.callable npObj && !env.isType npObj &&
            (env.moduleName laObj).isNone then
          -- a ufunc keeps its `reduce`, `outer`, ... through the wrapper
          if env.isUfunc npObj then .ok (env.typePreservingUfunc (env.dispatch laObj npObj) npObj)
          else .ok (env.dispatch laObj npObj)
        else .ok laObj

/-- `_lightarray_equivalent`. -/
def lightarrayEquivalent (value : V) : Option V :=
  let name := env.dunderName value
  if name = "" then none
  else
    -- a private submodule such as `numpy._core` has no proxy
    let sub := (secondPart (env.dunderModule value)).bind fun part =>
      if startsWith part "_" then none
      else ((env.thisAttr part).bind env.proxyAttr).bind (· name)
    (sub.or (env.thisAttr name)).bind env.notNone

/-- What `patch_module` binds `name` to in place of `value`: nothing, an object, or an
`AttributeError` that leaves the call. -/
def replacement (conversions : Conversions) (name : String) (value : V) : Except String (Option V) :=
  if value = env.np then .ok (env.notNone (env.moduleStandIn conversions))
  else if value = env.ndarray ∧ conversions ≠ .numpy then .ok (env.notNone env.anyNdarray)
  else if conversions = .numpy ∧ env.callable value ∧ ¬env.isType value then
    -- only top-level NumPy functions under their own name get the dispatcher
    if name ∈ conversionNames ∨ hasDot (env.dunderModule value) ∧ (env.npAttr name).isNone then .ok none
    else if env.npAttr name = some value then (env.conversionsAttr name).map env.notNone
    else .ok none
  else
    match (env.moduleName value).filter (startsWith · "numpy.") with
    | some modName =>
      let sub := String.ofList (modName.toList.drop "numpy.".length)
      .ok (if hasDot sub then none else (env.thisAttr sub).bind env.notNone)
    | none =>
      if env.isUfunc value ∨ env.callable value ∧ ¬env.isType value ∧
          startsWith (env.dunderModule value) "numpy" then
        match env.lightarrayEquivalent value with
        | some candidate =>
          if candidate = value then .ok none
          else .ok (env.notNone (if env.isUfunc value then env.ufuncProxy candidate value else candidate))
        | none => .ok none
      else .ok none

end NumpyEnv

/-- The modules of the running interpreter. -/
structure Interp (M : Type*) where
  /-- `__name__`. -/
  name : M → Option String
  /-- `__file__`. -/
  file : M → Option String
  /-- `sys.modules`. -/
  loaded : Dict String (Option M)
  /-- `_sibling_module_names`, with the file each was installed as. -/
  siblings : String → List (String × String)

namespace Interp

variable {M : Type*} [DecidableEq M] (interp : Interp M)

def roots (top : String) : List String :=
  top :: if hasDot top then [] else
    ((interp.siblings top).filter fun (name, file) =>
      ((interp.loaded.get? name).join.bind interp.file) = some file).map Prod.fst

/-- `_package_modules`. -/
def packageModules (module : M) (recursive : Bool) : List M :=
  module :: match recursive, interp.name module with
    | true, some top => (interp.roots top).flatMap fun root =>
        interp.loaded.entries.filterMap fun (name, m) => m.filter fun m =>
          m ≠ module ∧ (name = root ∨ startsWith name (root ++ "."))
    | _, _ => []

/-- The `__name__` test of `is_patched`. -/
def ownedBy (module m : M) : Bool :=
  startsWith ((interp.name m).getD "") ((interp.name module).getD "" ++ ".")

end Interp

/-- Module bindings, `_patched`, and the two activity flags. -/
structure PatchState (M V : Type*) where
  vars : M → Dict String V
  patched : Dict M (Dict String V)
  patchActive : Bool
  numpyConversionsActive : Bool

namespace PatchState

variable {M V : Type*} [DecidableEq M] [DecidableEq V] (s : PatchState M V)

/-- Nothing patched yet. -/
def fresh (vars : M → Dict String V) : PatchState M V := ⟨vars, .empty, false, false⟩

/-- `setattr(mod, name, value)`. -/
def setattr (mod : M) (name : String) (value : V) : PatchState M V :=
  {s with vars := Function.update s.vars mod ((s.vars mod).set name value)}

/-- `_patched.get(mod, {})`. -/
def originals (mod : M) : Dict String V := (s.patched.get? mod).getD .empty

/-- `_patched.setdefault(mod, {}).setdefault(name, value)`. -/
def remember (mod : M) (name : String) (value : V) : PatchState M V :=
  {s with patched := s.patched.set mod ((s.originals mod).setDefault name value)}

/-- `_patched.pop(mod, {})`. -/
def forget (mod : M) : PatchState M V := {s with patched := s.patched.erase mod}

/-- The inner loop of `patch_module`, over a copy of the module's names. What NumPy and
lightarray answer may depend on the bindings in force. -/
def patchNames (env : (M → Dict String V) → NumpyEnv V) (conversions : Conversions) (mod : M) :
    List (String × V) → PatchState M V → ℕ → PatchState M V × Except String ℕ
  | [], s, count => (s, .ok count)
  | (name, value) :: rest, s, count =>
    match (env s.vars).replacement conversions name value with
    | .error e => (s, .error e)
    | .ok none => patchNames env conversions mod rest s count
    | .ok (some r) =>
      patchNames env conversions mod rest ((s.remember mod name value).setattr mod name r) (count+1)

/-- The outer loop of `patch_module`. -/
def patchModules (env : (M → Dict String V) → NumpyEnv V) (conversions : Conversions) :
    List M → PatchState M V → ℕ → PatchState M V × Except String ℕ
  | [], s, count => (s, .ok count)
  | mod :: mods, s, count =>
    match patchNames env conversions mod (s.vars mod).entries s count with
    | (t, .error e) => (t, .error e)
    | (t, .ok n) => patchModules env conversions mods t n

variable (interp : Interp M) (env : (M → Dict String V) → NumpyEnv V)

def patchModule (module : M) (recursive : Bool) (conversions : Conversions) :
    PatchState M V × Except String ℕ :=
  match patchModules env conversions (interp.packageModules module recursive) s 0 with
  | (t, .error e) => (t, .error e)
  | (t, .ok count) =>
    ({t with
      patchActive := t.patchActive || !t.patched.entries.isEmpty
      numpyConversionsActive := t.numpyConversionsActive || conversions = .numpy && count ≠ 0},
      .ok count)

/-- The inner loop of `unpatch_module`. -/
def restoreNames (mod : M) : List (String × V) → PatchState M V → PatchState M V
  | [], s => s
  | (name, original) :: rest, s => restoreNames mod rest (s.setattr mod name original)

/-- The outer loop of `unpatch_module`. -/
def unpatchModules : List M → PatchState M V → ℕ → PatchState M V × ℕ
  | [], s, count => (s, count)
  | mod :: mods, s, count =>
    unpatchModules mods (restoreNames mod (s.originals mod).entries (s.forget mod))
      (count + (s.originals mod).entries.length)

def unpatchModule (module : M) (recursive : Bool) : PatchState M V × ℕ :=
  match unpatchModules (interp.packageModules module recursive) s 0 with
  | (t, count) =>
    ({t with
      patchActive := t.patchActive && !t.patched.entries.isEmpty
      numpyConversionsActive := t.numpyConversionsActive && !t.patched.entries.isEmpty}, count)

def isPatched (module : M) : Bool :=
  module ∈ s.patched.keys || s.patched.keys.any (interp.ownedBy module)

def setPatched (module : M) (enabled recursive : Bool) (conversions : Conversions) :
    PatchState M V × Except String Bool :=
  if enabled then
    match s.patchModule interp env module recursive conversions with
    | (t, .error e) => (t, .error e)
    | (t, .ok _) => (t, .ok (t.isPatched interp module))
  else if s.isPatched interp module then
    let t := (s.unpatchModule interp module recursive).1
    (t, .ok (t.isPatched interp module))
  else (s, .ok false)

end PatchState

/-- The public calls that change a patching state. -/
inductive PatchCall (M : Type*) where
  | patchModule (module : M) (recursive : Bool) (conversions : Conversions)
  | unpatchModule (module : M) (recursive : Bool)
  | setPatched (module : M) (enabled recursive : Bool) (conversions : Conversions)

namespace PatchState

variable {M V : Type*} [DecidableEq M] [DecidableEq V]
variable (interp : Interp M) (env : (M → Dict String V) → NumpyEnv V) (s : PatchState M V)

/-- The state a call leaves, also when it raises. -/
def call : PatchCall M → PatchState M V
  | .patchModule m recursive conversions => (s.patchModule interp env m recursive conversions).1
  | .unpatchModule m recursive => (s.unpatchModule interp m recursive).1
  | .setPatched m enabled recursive conversions =>
    (s.setPatched interp env m enabled recursive conversions).1

/-- The state after a sequence of calls. -/
def run (s : PatchState M V) (calls : List (PatchCall M)) : PatchState M V :=
  calls.foldl (·.call interp env) s

/-- `patched.__enter__`; the value is `self._was`. -/
def enter (module : M) (recursive : Bool) (conversions : Conversions) : PatchState M V × Except String Bool :=
  match s.setPatched interp env module true recursive conversions with
  | (t, .error e) => (t, .error e)
  | (t, .ok _) => (t, .ok (s.isPatched interp module))

/-- `patched.__exit__`: `set_patched` with the default conversions. -/
def exit (module : M) (recursive was : Bool) : PatchState M V × Except String Bool :=
  s.setPatched interp env module was recursive .lightarray

end PatchState

end LightArray
