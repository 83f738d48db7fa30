import LightArray.Patching
import Mathlib.Algebra.BigOperators.Group.Finset.Basic

namespace LightArray

open scoped BigOperators

namespace NumpyEnv

variable {V : Type*} (env : NumpyEnv V)

/-- The objects `patch_module` looks for. -/
def NumpyKind (value : V) : Prop :=
  value = env.np ∨ value = env.ndarray ∨ env.isUfunc value ∨
    (∃ modName, env.moduleName value = some modName ∧ startsWith modName "numpy.") ∨
    env.callable value ∧ ¬env.isType value ∧
      (startsWith (env.dunderModule value) "numpy" ∨ ∃ name, env.npAttr name = some value)

variable {env} {value : V}

variable (env) in
/-- The objects lightarray supplies. -/
inductive StandIn : V → Prop
  | module (conversions : Conversions) : StandIn (env.moduleStandIn conversions)
  | anyNdarray : StandIn env.anyNdarray
  | attr {name : String} {r : V} (h : env.thisAttr name = some r) : StandIn r
  | proxied {proxy r : V} {attrs : String → Option V} {name : String} (h : env.proxyAttr proxy = some attrs)
      (hr : attrs name = some r) : StandIn r
  | dispatch (laObj npObj : V) : StandIn (env.dispatch laObj npObj)
  | typePreservingUfunc (dispatch npObj : V) : StandIn (env.typePreservingUfunc dispatch npObj)
  | ufuncProxy (candidate ufunc : V) : StandIn (env.ufuncProxy candidate ufunc)

theorem standIn_conversionsAttr {name : String} {r : V} (hname : name ∉ conversionNames)
    (h : env.conversionsAttr name = .ok r) : env.StandIn r := by
  unfold conversionsAttr at h
  split_ifs at h
  · cases h
    exact .anyNdarray
  · cases hla : env.thisAttr name with
    | none =>
      rw [hla] at h
      cases h
    | some laObj =>
      rw [hla] at h
      cases hnp : env.npAttr name with
      | none =>
        rw [hnp] at h
        cases h
        exact .attr hla
      | some npObj =>
        simp only [hnp] at h
        split_ifs at h <;> cases h
        · exact .typePreservingUfunc _ _
        · exact .dispatch _ _
        · exact .attr hla

variable [DecidableEq V]

theorem replacement_of_not_kind (h : ¬env.NumpyKind value) (conversions : Conversions) (name : String) :
    env.replacement conversions name value = .ok none := by
  simp only [NumpyKind, not_or, not_exists, not_and] at h
  obtain ⟨hnp, hndarray, hufunc, hmodule, hcallable⟩ := h
  have hfilter : (env.moduleName value).filter (startsWith · "numpy.") = none := by
    rw [Option.filter_eq_none_iff]
    exact fun modName hname => hmodule modName hname
  unfold replacement
  rw [if_neg hnp, if_neg fun h => hndarray h.1, hfilter]
  by_cases hc : conversions = .numpy ∧ env.callable value ∧ ¬env.isType value
  · -- the numpy mode asks whether `value` is NumPy's attribute of this very name
    rw [if_pos hc, if_neg ((hcallable hc.2.1 hc.2.2).2 name), ite_self]
  · rw [if_neg hc]
    refine if_neg ?_
    rintro (hu | ⟨hcall, htype, hstart⟩)
    · exact hufunc hu
    · exact (hcallable hcall htype).1 hstart

theorem notNone_eq_some {r : V} (h : env.notNone value = some r) : value = r := by
  unfold notNone at h
  split_ifs at h
  exact Option.some.inj h

theorem standIn_lightarrayEquivalent {r : V} (h : env.lightarrayEquivalent value = some r) :
    env.StandIn r := by
  simp only [lightarrayEquivalent] at h
  split_ifs at h
  obtain ⟨c, hc, hr⟩ := Option.bind_eq_some_iff.mp h
  obtain rfl := notNone_eq_some hr
  rcases Option.or_eq_some_iff.mp hc with hsub | ⟨-, hattr⟩
  · obtain ⟨part, -, hpart⟩ := Option.bind_eq_some_iff.mp hsub
    split_ifs at hpart
    obtain ⟨attrs, hattrs, hname⟩ := Option.bind_eq_some_iff.mp hpart
    obtain ⟨proxy, -, hproxy⟩ := Option.bind_eq_some_iff.mp hattrs
    exact .proxied hproxy hname
  · exact .attr hattr

/-- A name is only ever rebound to one of lightarray's own objects. -/
theorem standIn_replacement {conversions : Conversions} {name : String} {r : V}
    (h : env.replacement conversions name value = .ok (some r)) : env.StandIn r := by
  have hok {o : Option V} {a : V} (ho : (Except.ok o : Except String (Option V)) = .ok (some a)) : o = some a :=
    Except.ok.inj ho
  unfold replacement at h
  split at h
  · obtain rfl := notNone_eq_some (hok h)
    exact .module _
  split at h
  · obtain rfl := notNone_eq_some (hok h)
    exact .anyNdarray
  split at h
  · -- numpy mode: a dispatcher for a top-level function, under its own name
    split at h
    · cases h
    rename_i hname
    split at h
    · cases hattr : env.conversionsAttr name with
      | error e =>
        rw [hattr] at h
        cases h
      | ok a =>
        rw [hattr] at h
        obtain rfl := notNone_eq_some (hok h)
        exact standIn_conversionsAttr (fun hmem => hname (.inl hmem)) hattr
    · cases h
  split at h
  · have hsub := hok h
    split_ifs at hsub
    obtain ⟨a, ha, hr⟩ := Option.bind_eq_some_iff.mp hsub
    obtain rfl := notNone_eq_some hr
    exact .attr ha
  split at h
  · split at h
    · rename_i candidate hcandidate
      have hstand := standIn_lightarrayEquivalent hcandidate
      split at h
      · cases h
      have hr := notNone_eq_some (hok h)
      split at hr
      · exact hr ▸ .ufuncProxy _ _
      · exact hr ▸ hstand
    · cases h
  · cases h

end NumpyEnv

namespace PatchState

variable {M V : Type*} {s t : PatchState M V} {m mod : M} {name : String} {value : V}

/-- The entries a loop over one module's names still has to visit. -/
def Unvisited (s : PatchState M V) (mod : M) (entries : List (String × V)) : Prop :=
  (entries.map Prod.fst).Nodup ∧ ∀ e ∈ entries, (s.vars mod).get? e.1 = some e.2

theorem unvisited_entries : s.Unvisited mod (s.vars mod).entries :=
  ⟨(s.vars mod).nodup, fun _ he => Dict.get?_eq_some.mpr he⟩

theorem Unvisited.tail {e : String × V} {rest : List (String × V)} (h : s.Unvisited mod (e :: rest)) :
    s.Unvisited mod rest :=
  ⟨(List.nodup_cons.mp h.1).2, fun f hf => h.2 f (List.mem_cons_of_mem _ hf)⟩

section

variable [DecidableEq V] {env : (M → Dict String V) → NumpyEnv V} {conversions : Conversions}

/-- Replacement objects are of no kind `patch_module` looks for, and rebinding names changes
neither which names it rebinds nor where it raises. -/
structure Inert (env : (M → Dict String V) → NumpyEnv V) : Prop where
  kinds : ∀ b b' conversions name value r,
    (env b).replacement conversions name value = .ok (some r) → ¬(env b').NumpyKind r
  steady : ∀ b b' conversions name value,
    ((env b).replacement conversions name value).map Option.isSome =
      ((env b').replacement conversions name value).map Option.isSome

theorem Inert.keeps (h : Inert env) {b : M → Dict String V} (b' : M → Dict String V)
    (hb : (env b).replacement conversions name value = .ok none) :
    (env b').replacement conversions name value = .ok none := by
  have hs := h.steady b b' conversions name value
  rw [hb] at hs
  cases hr : (env b').replacement conversions name value with
  | error e =>
    rw [hr] at hs
    cases hs
  | ok o =>
    rw [hr] at hs
    cases o with
    | none => rfl
    | some r => cases hs

theorem kind_of_replacement {b : M → Dict String V} {r : V}
    (hr : (env b).replacement conversions name value = .ok (some r)) : (env b).NumpyKind value := by
  by_contra hkind
  rw [NumpyEnv.replacement_of_not_kind hkind] at hr
  cases hr

end

variable [DecidableEq M]

@[simp] theorem vars_remember : (s.remember m name value).vars = s.vars := rfl

@[simp] theorem originals_setattr : (s.setattr m name value).originals mod = s.originals mod := rfl

@[simp] theorem vars_forget : (s.forget m).vars = s.vars := rfl

theorem originals_remember : (s.remember m name value).originals mod =
    if mod = m then (s.originals m).setDefault name value else s.originals mod := by
  unfold originals remember
  rw [Dict.get?_set]
  split_ifs <;> rfl

theorem originals_forget : (s.forget m).originals mod = if mod = m then .empty else s.originals mod := by
  unfold originals forget
  rw [Dict.get?_erase]
  split_ifs <;> rfl

theorem vars_setattr : (s.setattr m name value).vars mod =
    if mod = m then (s.vars m).set name value else s.vars mod := by
  simp only [setattr, Function.update_apply]

theorem get?_setattr {j : String} : ((s.setattr m name value).vars mod).get? j =
    if mod = m ∧ j = name then some value else (s.vars mod).get? j := by
  rw [vars_setattr]
  by_cases hm : mod = m
  · subst hm
    rw [if_pos rfl, Dict.get?_set]
    simp
  · simp [hm]

theorem keys_setattr (h : name ∈ (s.vars m).keys) :
    ((s.setattr m name value).vars mod).keys = (s.vars mod).keys := by
  rw [vars_setattr]
  split_ifs with hm
  · rw [Dict.keys_set h, hm]
  · rfl

/-- One rebinding of `patch_module`. -/
def rebind (s : PatchState M V) (m : M) (name : String) (value r : V) : PatchState M V :=
  (s.remember m name value).setattr m name r

/-- Rebinding the name just visited leaves the others as they were copied. -/
theorem Unvisited.rebind {rest : List (String × V)} {r : V} (h : s.Unvisited mod ((name, value) :: rest)) :
    (s.rebind mod name value r).Unvisited mod rest := by
  refine ⟨h.tail.1, fun f hf => ?_⟩
  have hne : f.1 ≠ name := fun he => (List.nodup_cons.mp h.1).1 (he ▸ List.mem_map.mpr ⟨f, hf, rfl⟩)
  rw [PatchState.rebind, get?_setattr, if_neg fun hc => hne hc.2]
  exact h.tail.2 f hf

theorem originals_rebind {r : V} : (s.rebind m name value r).originals mod =
    if mod = m then (s.originals m).setDefault name value else s.originals mod :=
  originals_remember

theorem get?_rebind {r : V} {j : String} : ((s.rebind m name value r).vars mod).get? j =
    if mod = m ∧ j = name then some r else (s.vars mod).get? j :=
  get?_setattr

/-- `_patched` and the bindings together still hold the bindings `original`. -/
structure Remembers (original : M → Dict String V) (s : PatchState M V) : Prop where
  keys : ∀ mod, (s.vars mod).keys = (original mod).keys
  unrecorded : ∀ mod name, (s.originals mod).get? name = none →
    (s.vars mod).get? name = (original mod).get? name
  recorded : ∀ mod name value, (s.originals mod).get? name = some value →
    (original mod).get? name = some value

variable {original : M → Dict String V} {mods : List M}

/-- A rebinding records the binding it replaces, unless an earlier one is recorded. -/
theorem Remembers.rebind (h : s.Remembers original) (hvalue : (s.vars m).get? name = some value) (r : V) :
    (s.rebind m name value r).Remembers original := by
  have hget {mod j} : ((s.rebind m name value r).originals mod).get? j =
      if mod = m ∧ j = name then some (((s.originals m).get? name).getD value)
      else (s.originals mod).get? j := by
    rw [originals_rebind]
    by_cases hm : mod = m
    · subst hm
      simp [Dict.get?_setDefault]
    · simp [hm]
  have hname : name ∈ ((s.remember m name value).vars m).keys := Dict.mem_keys.mpr ⟨value, hvalue⟩
  refine ⟨fun mod => (keys_setattr hname).trans (h.keys mod), ?_, ?_⟩
  · intro mod j hj
    rw [hget] at hj
    split_ifs at hj with hc
    rw [get?_rebind, if_neg hc]
    exact h.unrecorded mod j hj
  · intro mod j v hj
    rw [hget] at hj
    split_ifs at hj with hc
    · obtain ⟨rfl, rfl⟩ := hc
      cases hrec : (s.originals mod).get? j with
      | none =>
        rw [hrec] at hj
        rw [← h.unrecorded mod j hrec, hvalue]
        exact hj
      | some w =>
        rw [hrec] at hj
        exact h.recorded mod j v (hrec.trans hj)
    · exact h.recorded mod j v hj

theorem originals_restoreNames {entries : List (String × V)} :
    (restoreNames m entries s).originals mod = s.originals mod := by
  induction entries generalizing s with
  | nil => rfl
  | cons e rest ih => exact ih

theorem get?_restoreNames {entries : List (String × V)} (hnodup : (entries.map Prod.fst).Nodup) {j : String} :
    ((restoreNames m entries s).vars mod).get? j =
      if mod = m then ((entries.find? (·.1 = j)).map Prod.snd).or ((s.vars mod).get? j)
      else (s.vars mod).get? j := by
  induction entries generalizing s with
  | nil => simp [restoreNames]
  | cons e rest ih =>
    obtain ⟨hfresh, hrest⟩ := List.nodup_cons.mp hnodup
    rw [restoreNames, ih hrest, get?_setattr]
    by_cases hm : mod = m
    · subst hm
      by_cases hj : e.1 = j
      · -- no later entry has this name
        have hnone : rest.find? (·.1 = j) = none := by
          rw [List.find?_eq_none]
          intro f hf
          rw [decide_eq_true_eq]
          exact fun he => hfresh (hj ▸ he ▸ List.mem_map_of_mem hf)
        simp [hj, hnone]
      · simp [hj, Ne.symm hj]
    · simp [hm]

theorem keys_restoreNames {entries : List (String × V)}
    (hkeys : ∀ e ∈ entries, e.1 ∈ (s.vars m).keys) :
    ((restoreNames m entries s).vars mod).keys = (s.vars mod).keys := by
  induction entries generalizing s with
  | nil => rfl
  | cons e rest ih =>
    have he := hkeys e List.mem_cons_self
    rw [restoreNames, ih, keys_setattr he]
    intro f hf
    rw [keys_setattr he]
    exact hkeys f (List.mem_cons_of_mem _ hf)

/-- One module's turn in `unpatch_module`. -/
def restore (s : PatchState M V) (m : M) : PatchState M V :=
  restoreNames m (s.originals m).entries (s.forget m)

theorem originals_restore : (s.restore m).originals mod = if mod = m then .empty else s.originals mod :=
  originals_restoreNames.trans originals_forget

theorem get?_restore {j : String} : ((s.restore m).vars mod).get? j =
    if mod = m then ((s.originals m).get? j).or ((s.vars mod).get? j) else (s.vars mod).get? j :=
  get?_restoreNames (s.originals m).nodup

theorem Remembers.mem_keys (h : s.Remembers original) (hrec : (s.originals m).get? name = some value) :
    name ∈ (s.vars m).keys := by
  rw [h.keys]
  exact Dict.mem_keys.mpr ⟨value, h.recorded m name value hrec⟩

theorem Remembers.restore (h : s.Remembers original) (m : M) : (s.restore m).Remembers original := by
  refine ⟨fun mod => ?_, ?_, ?_⟩
  · refine (keys_restoreNames (s := s.forget m) fun e he => ?_).trans (h.keys mod)
    exact h.mem_keys (Dict.get?_eq_some.mpr he)
  · intro mod j hj
    rw [originals_restore] at hj
    rw [get?_restore]
    split_ifs at hj ⊢ with hm
    · subst hm
      cases hrec : (s.originals mod).get? j with
      | none => exact h.unrecorded mod j hrec
      | some v => exact (h.recorded mod j v hrec).symm
    · exact h.unrecorded mod j hj
  · intro mod j v hj
    rw [originals_restore] at hj
    split_ifs at hj with hm
    · rw [Dict.get?_empty] at hj
      cases hj
    · exact h.recorded mod j v hj

theorem Remembers.vars_eq (h : s.Remembers original) (hm : s.originals m = .empty) : s.vars m = original m := by
  apply Dict.ext_get? (h.keys m)
  intro name
  apply h.unrecorded
  rw [hm, Dict.get?_empty]

theorem Remembers.unpatchModules (h : s.Remembers original) (mods : List M) (count : ℕ) :
    (unpatchModules mods s count).1.Remembers original := by
  induction mods generalizing s count with
  | nil => exact h
  | cons mod rest ih => exact ih (h.restore mod) _

theorem originals_unpatchModules {count : ℕ} : (unpatchModules mods s count).1.originals m =
    if m ∈ mods then .empty else s.originals m := by
  induction mods generalizing s count with
  | nil => rfl
  | cons mod rest ih =>
    refine (ih (s := s.restore mod)).trans ?_
    rw [originals_restore]
    by_cases hm : m = mod <;> simp [hm]

theorem vars_restoreNames {entries : List (String × V)} (hm : mod ≠ m) :
    (restoreNames m entries s).vars mod = s.vars mod := by
  induction entries generalizing s with
  | nil => rfl
  | cons e rest ih => rw [restoreNames, ih, vars_setattr, if_neg hm]

theorem vars_unpatchModules {count : ℕ} (hm : m ∉ mods) :
    (unpatchModules mods s count).1.vars m = s.vars m := by
  induction mods generalizing s count with
  | nil => rfl
  | cons mod rest ih =>
    obtain ⟨hne, hrest⟩ := not_or.mp (mt List.mem_cons.mpr hm)
    exact (ih (s := s.restore mod) hrest).trans (vars_restoreNames hne)

theorem vars_unpatchModule {interp : Interp M} {module : M} {recursive : Bool}
    (hm : m ∉ interp.packageModules module recursive) :
    (s.unpatchModule interp module recursive).1.vars m = s.vars m :=
  vars_unpatchModules hm

theorem Remembers.unpatchModule (h : s.Remembers original) (interp : Interp M) (module : M) (recursive : Bool) :
    (s.unpatchModule interp module recursive).1.Remembers original := by
  have ht := h.unpatchModules (interp.packageModules module recursive) 0
  exact ⟨ht.keys, ht.unrecorded, ht.recorded⟩

/-- Every module of the package is back at its original bindings. -/
theorem Remembers.vars_unpatchModule (h : s.Remembers original) {interp : Interp M} {module : M}
    {recursive : Bool} (hm : m ∈ interp.packageModules module recursive) :
    (s.unpatchModule interp module recursive).1.vars m = original m :=
  (h.unpatchModules _ 0).vars_eq (originals_unpatchModules.trans (if_pos hm))

variable {env : (M → Dict String V) → NumpyEnv V}

/-- A recorded name is bound to a replacement object, its original is one of NumPy's. -/
def Marked (env : (M → Dict String V) → NumpyEnv V) (s : PatchState M V) : Prop :=
  ∀ mod name value, (s.originals mod).get? name = some value →
    (∃ b, (env b).NumpyKind value) ∧
      ∃ r, (s.vars mod).get? name = some r ∧ ∀ b, ¬(env b).NumpyKind r

theorem Marked.restore (h : s.Marked env) (m : M) : (s.restore m).Marked env := by
  intro mod j v hj
  rw [originals_restore] at hj
  split_ifs at hj with hm
  · rw [Dict.get?_empty] at hj
    cases hj
  · rw [get?_restore, if_neg hm]
    exact h mod j v hj

theorem Marked.unpatchModules (h : s.Marked env) (mods : List M) (count : ℕ) :
    (unpatchModules mods s count).1.Marked env := by
  induction mods generalizing s count with
  | nil => exact h
  | cons mod rest ih => exact ih (h.restore mod) _

theorem Marked.unpatchModule (h : s.Marked env) (interp : Interp M) (module : M) (recursive : Bool) :
    (s.unpatchModule interp module recursive).1.Marked env :=
  h.unpatchModules (interp.packageModules module recursive) 0

/-- The names recorded for a module. -/
def recordSize (s : PatchState M V) (m : M) : ℕ := (s.originals m).entries.length

/-- A module listed twice is restored, and counted, once. -/
theorem count_unpatchModules (mods : List M) (count : ℕ) :
    (unpatchModules mods s count).2 = count+∑ m ∈ mods.toFinset, s.recordSize m := by
  induction mods generalizing s count with
  | nil => rfl
  | cons mod rest ih =>
    have hsize (m : M) : (s.restore mod).recordSize m = if m = mod then 0 else s.recordSize m := by
      unfold recordSize
      rw [originals_restore]
      split_ifs <;> rfl
    have hself : (s.restore mod).recordSize mod = 0 := (hsize mod).trans (if_pos rfl)
    have hrest : ∑ m ∈ rest.toFinset, (s.restore mod).recordSize m =
        ∑ m ∈ rest.toFinset.erase mod, s.recordSize m := by
      rw [← Finset.sum_erase _ hself]
      apply Finset.sum_congr rfl
      intro m hm
      rw [hsize, if_neg (Finset.ne_of_mem_erase hm)]
    calc (LightArray.PatchState.unpatchModules (mod :: rest) s count).2
      _ = count+s.recordSize mod+∑ m ∈ rest.toFinset, (s.restore mod).recordSize m := ih _
      _ = count+(s.recordSize mod+∑ m ∈ (insert mod rest.toFinset).erase mod, s.recordSize m) := by
        rw [hrest, Finset.erase_insert_eq_erase, add_assoc]
      _ = count+∑ m ∈ (mod :: rest).toFinset, s.recordSize m := by
        rw [Finset.add_sum_erase _ _ (Finset.mem_insert_self _ _), List.toFinset_cons]

theorem count_unpatchModule (interp : Interp M) (module : M) (recursive : Bool) :
    (s.unpatchModule interp module recursive).2 =
      ∑ m ∈ (interp.packageModules module recursive).toFinset, s.recordSize m := by
  have hcount := count_unpatchModules (s := s) (interp.packageModules module recursive) 0
  rw [zero_add] at hcount
  exact hcount

end PatchState

end LightArray
