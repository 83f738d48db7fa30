import LightArray.PatchRun

namespace LightArray

namespace NumpyEnv

variable {V : Type*} [DecidableEq V] {env : NumpyEnv V}

/-- Only the numpy mode looks a name up on a stand-in, which may raise. -/
theorem replacement_lightarray (name : String) (value : V) :
    ∃ o, env.replacement .lightarray name value = .ok o := by
  unfold replacement
  rw [if_neg (c := Conversions.lightarray = .numpy ∧ _) fun h => Conversions.noConfusion h.1]
  repeat' split
  all_goals exact ⟨_, rfl⟩

end NumpyEnv

namespace PatchState

variable {M V : Type*} [DecidableEq M] {s t u : PatchState M V} {m mod : M} {name : String} {value : V}
variable {mods : List M}

/-- A module gets an entry of `_patched` with its first rebinding only. -/
def NoEmptyRecord (s : PatchState M V) : Prop :=
  ∀ mod ∈ s.patched.keys, ∃ name value, (s.originals mod).get? name = some value

theorem mem_keys_rebind {r : V} : mod ∈ (s.rebind m name value r).patched.keys ↔
    mod = m ∨ mod ∈ s.patched.keys := by
  show mod ∈ (s.patched.set m _).keys ↔ _
  rw [Dict.mem_keys, Dict.mem_keys]
  simp only [Dict.get?_set]
  by_cases hm : mod = m <;> simp [hm]

theorem NoEmptyRecord.rebind (h : s.NoEmptyRecord) (m : M) (name : String) (value r : V) :
    (s.rebind m name value r).NoEmptyRecord := by
  intro mod hmod
  rw [originals_rebind]
  split_ifs with hm
  · exact ⟨name, _, Dict.get?_setDefault.trans (if_pos rfl)⟩
  · exact h mod ((mem_keys_rebind.mp hmod).resolve_left hm)

theorem patched_restoreNames {entries : List (String × V)} :
    (restoreNames m entries s).patched = s.patched := by
  induction entries generalizing s with
  | nil => rfl
  | cons e rest ih => exact ih

theorem NoEmptyRecord.restore (h : s.NoEmptyRecord) (m : M) : (s.restore m).NoEmptyRecord := by
  intro mod hmod
  rw [PatchState.restore, patched_restoreNames] at hmod
  obtain ⟨record, hrecord⟩ := Dict.mem_keys.mp hmod
  have hm : mod ≠ m := by
    rintro rfl
    rw [forget, Dict.get?_erase, if_pos rfl] at hrecord
    cases hrecord
  rw [originals_restore, if_neg hm]
  rw [forget, Dict.get?_erase, if_neg hm] at hrecord
  exact h mod (Dict.mem_keys.mpr ⟨record, hrecord⟩)

theorem NoEmptyRecord.unpatchModules (h : s.NoEmptyRecord) (mods : List M) (count : ℕ) :
    (unpatchModules mods s count).1.NoEmptyRecord := by
  induction mods generalizing s count with
  | nil => exact h
  | cons mod rest ih => exact ih (h.restore mod) _

theorem isPatched_iff {interp : Interp M} {module : M} : s.isPatched interp module ↔
    ∃ m ∈ s.patched.keys, m = module ∨ interp.ownedBy module m := by
  rw [isPatched, Bool.or_eq_true, decide_eq_true_eq, List.any_eq_true]
  constructor
  · rintro (h | ⟨m, hm, howned⟩)
    · exact ⟨module, h, .inl rfl⟩
    · exact ⟨m, hm, .inr howned⟩
  · rintro ⟨m, hm, rfl | howned⟩
    · exact .inl hm
    · exact .inr ⟨m, hm, howned⟩

variable [DecidableEq V] {env : (M → Dict String V) → NumpyEnv V} {conversions : Conversions} {n : ℕ}

theorem Rebinds.noEmptyRecord (h : Rebinds env conversions mods s t n) (hs : s.NoEmptyRecord) :
    t.NoEmptyRecord := by
  induction h with
  | refl s => exact hs
  | step _ _ _ _ ih => exact ih (hs.rebind _ _ _ _)

theorem Rebinds.keys_subset (h : Rebinds env conversions mods s t n) (hm : m ∈ s.patched.keys) :
    m ∈ t.patched.keys := by
  induction h with
  | refl s => exact hm
  | step _ _ _ _ ih => exact ih (mem_keys_rebind.mpr (.inr hm))

/-- Modules without a record are untouched. -/
theorem Rebinds.vars_eq (h : Rebinds env conversions mods s t n) (hm : m ∉ t.patched.keys) :
    t.vars m = s.vars m := by
  induction h with
  | refl s => rfl
  | @step s t mod name value r n _ _ _ hrest ih =>
    have hne : m ≠ mod := fun hc => hm (hrest.keys_subset (mem_keys_rebind.mpr (.inl hc)))
    rw [ih hm, PatchState.rebind, vars_setattr, if_neg hne]
    rfl

theorem Rebinds.vars_eq_of_not_mem (h : Rebinds env conversions mods s t n) (hm : m ∉ mods) :
    t.vars m = s.vars m := by
  induction h with
  | refl s => rfl
  | @step s t mod name value r n hmod _ _ _ ih =>
    have hne : m ≠ mod := fun hc => hm (hc ▸ hmod)
    rw [ih, PatchState.rebind, vars_setattr, if_neg hne]
    rfl

/-- The modules a call records anew are those it found something to rebind in. -/
theorem Rebinds.mem_keys (h : Rebinds env conversions mods s t n) (hi : Inert env) (hm : m ∈ t.patched.keys) :
    m ∈ s.patched.keys ∨ m ∈ mods ∧ ¬s.Settled env conversions m := by
  induction h with
  | refl s => exact .inl hm
  | @step s t mod name value r n hmod hvalue hr _ ih =>
    rcases ih hm with hkey | ⟨hmem, hpending⟩
    · rcases mem_keys_rebind.mp hkey with rfl | hkey
      · refine .inr ⟨hmod, fun hsettled => ?_⟩
        rw [hsettled name value hvalue] at hr
        cases hr
      · exact .inl hkey
    · exact .inr ⟨hmem, fun hsettled => hpending (hsettled.rebind hi hr)⟩

/-- What is not of NumPy's kinds stays. -/
theorem Rebinds.get?_eq (h : Rebinds env conversions mods s t n) (hvalue : (s.vars m).get? name = some value)
    (hkind : ∀ b, ¬(env b).NumpyKind value) : (t.vars m).get? name = some value := by
  induction h with
  | refl s => exact hvalue
  | @step s t mod name' value' r n _ hvalue' hr _ ih =>
    apply ih
    rw [get?_rebind]
    split_ifs with hc
    · obtain ⟨rfl, rfl⟩ := hc
      cases hvalue.symm.trans hvalue'
      exact absurd (kind_of_replacement hr) (hkind _)
    · exact hvalue

/-- A rebinding shows in the bindings of every later state that keeps stand-ins. -/
theorem Rebinds.eq_of_vars (h : Rebinds env conversions mods s t n) (hi : Inert env)
    (hkeep : ∀ m name value, (t.vars m).get? name = some value → (∀ b, ¬(env b).NumpyKind value) →
      (u.vars m).get? name = some value)
    (hu : ∀ m, u.vars m = s.vars m) : t = s := by
  cases h with
  | refl s => rfl
  | @step _ _ mod name value r n hmod hvalue hr hrest =>
    have hinert (b : M → Dict String V) : ¬(env b).NumpyKind r := hi.kinds _ b _ _ _ _ hr
    have hself : ((s.rebind mod name value r).vars mod).get? name = some r :=
      get?_rebind.trans (if_pos ⟨rfl, rfl⟩)
    have hlater := hkeep mod name r (hrest.get?_eq hself hinert) hinert
    rw [hu, hvalue] at hlater
    cases hlater
    exact absurd (kind_of_replacement hr) (hinert _)

omit [DecidableEq M] in
theorem Settled.of_vars (h : t.Settled env conversions m) (hi : Inert env) (hvars : t.vars m = s.vars m) :
    s.Settled env conversions m :=
  fun name value hvalue => hi.keeps _ (h name value (hvars ▸ hvalue))

variable (env) in
theorem patchNames_lightarray (mod : M) (entries : List (String × V)) (s : PatchState M V) (count : ℕ) :
    ∃ k, (patchNames env .lightarray mod entries s count).2 = .ok k := by
  induction entries generalizing s count with
  | nil => exact ⟨count, rfl⟩
  | cons e rest ih =>
    obtain ⟨o, ho⟩ := (env s.vars).replacement_lightarray e.1 e.2
    cases o with
    | none =>
      rw [patchNames_keep ho]
      exact ih s count
    | some r =>
      rw [patchNames_rebind ho]
      exact ih _ _

variable (env) in
theorem patchModules_lightarray (mods : List M) (s : PatchState M V) (count : ℕ) :
    ∃ k, (patchModules env .lightarray mods s count).2 = .ok k := by
  induction mods generalizing s count with
  | nil => exact ⟨count, rfl⟩
  | cons mod rest ih =>
    obtain ⟨k, hk⟩ := patchNames_lightarray env mod (s.vars mod).entries s count
    rw [patchModules]
    split
    · rename_i t e he
      rw [he] at hk
      cases hk
    · exact ih _ _

variable (interp : Interp M) {module : M} {recursive was : Bool}

theorem run_noEmptyRecord (vars : M → Dict String V) (calls : List (PatchCall M)) :
    ((fresh vars).run interp env calls).NoEmptyRecord := by
  apply call_induction interp (·.NoEmptyRecord)
  · intro s module recursive conversions h
    obtain ⟨t, n, _, _, hrun, -, heq, -⟩ := patchModule_spec env interp s module recursive conversions
    rw [heq]
    exact hrun.noEmptyRecord h
  · intro s module recursive h
    exact h.unpatchModules (interp.packageModules module recursive) 0
  · nofun

theorem enter_ok (h : s.enter interp env module recursive conversions = (t, .ok was)) :
    was = s.isPatched interp module ∧
      ∃ k, s.patchModule interp env module recursive conversions = (t, .ok k) := by
  rw [enter, setPatched, if_pos rfl] at h
  cases hp : s.patchModule interp env module recursive conversions with
  | mk u res =>
    rw [hp] at h
    cases res with
    | error e => cases h
    | ok k =>
      cases h
      exact ⟨rfl, k, rfl⟩

theorem exit_true : (t.exit interp env module recursive true).1 =
    (t.patchModule interp env module recursive .lightarray).1 := by
  rw [exit, setPatched, if_pos rfl]
  split <;> rename_i heq <;> rw [heq]

theorem exit_false : (t.exit interp env module recursive false).1 =
    if t.isPatched interp module then (t.unpatchModule interp module recursive).1 else t := by
  rw [exit, setPatched, if_neg Bool.false_ne_true]
  split_ifs <;> rfl

/-- When leaving the block gives back the bindings at entry: the package was patched and neither
mode finds a name to rebind, or it was not and nothing of it was recorded, or there is nothing to do. -/
def RestoresAt (env : (M → Dict String V) → NumpyEnv V) (s : PatchState M V) (module : M) (recursive : Bool)
    (conversions : Conversions) : Prop :=
  let package := interp.packageModules module recursive
  if s.isPatched interp module then
    ∀ m ∈ package, s.Settled env conversions m ∧ s.Settled env .lightarray m
  else
    (∀ m ∈ package, s.Settled env conversions m) ∨
    (∃ m ∈ package, (m = module ∨ interp.ownedBy module m) ∧ ¬s.Settled env conversions m) ∧
      ∀ m ∈ package, m ∉ s.patched.keys

variable (env) in
theorem patchModule_lightarray (s : PatchState M V) (module : M) (recursive : Bool) :
    ∃ k, (s.patchModule interp env module recursive .lightarray).2 = .ok k := by
  obtain ⟨t, _, _, _, -, hloop, -, -⟩ := patchModule_spec env interp s module recursive .lightarray
  obtain ⟨k, hk⟩ := patchModules_lightarray env (interp.packageModules module recursive) s 0
  rw [hloop] at hk
  exact ⟨k, hk⟩

/-- The outcome when the package counted as patched: a second call, in lightarray mode. -/
theorem restores_patched (hi : Inert env) (h : s.patchModule interp env module recursive conversions = (t, .ok n)) :
    (∀ m, (t.patchModule interp env module recursive .lightarray).1.vars m = s.vars m) ↔
      ∀ m ∈ interp.packageModules module recursive,
        s.Settled env conversions m ∧ s.Settled env .lightarray m := by
  constructor
  · intro hvars m hm
    obtain ⟨t₁, _, _, _, hrun₁, -, heq₁, -⟩ := patchModule_spec env interp s module recursive conversions
    obtain ⟨t₂, _, _, _, hrun₂, -, heq₂, -⟩ := patchModule_spec env interp t module recursive .lightarray
    have hsettled : t.Settled env conversions m := by
      have hok := settled_of_patchModule interp hi (congrArg Prod.snd h) hm
      rwa [h] at hok
    rw [h] at heq₁
    change t = _ at heq₁
    subst heq₁
    have hback : ∀ m, t₂.vars m = s.vars m := fun m => by
      rw [← hvars m, heq₂]
    have hfirst : t₁ = s := hrun₁.eq_of_vars hi (fun _ _ _ hv hkind => hrun₂.get?_eq hv hkind) hback
    obtain ⟨k, hk⟩ := patchModule_lightarray env interp _ module recursive
    refine ⟨hsettled.of_vars hi (by rw [hfirst]), ?_⟩
    exact (settled_of_patchModule interp hi hk hm).of_vars hi (hvars m)
  · intro hsettled m
    have hfirst := patchModule_of_settled interp fun m hm => (hsettled m hm).1
    rw [h] at hfirst
    have hvars (m : M) : s.vars m = t.vars m := by rw [(Prod.mk.inj hfirst).1]
    have hsecond := patchModule_of_settled (s := t) interp
      fun m hm => (hsettled m hm).2.of_vars hi (hvars m)
    rw [hsecond]
    exact (hvars m).symm

/-- Whether the package counts as patched inside the block. -/
theorem isPatched_after (hi : Inert env) (hs : ¬s.isPatched interp module)
    (h : s.patchModule interp env module recursive conversions = (t, .ok n)) :
    t.isPatched interp module ↔ ∃ m ∈ interp.packageModules module recursive,
      (m = module ∨ interp.ownedBy module m) ∧ ¬s.Settled env conversions m := by
  obtain ⟨t₁, _, _, _, hrun, -, heq, -⟩ := patchModule_spec env interp s module recursive conversions
  rw [h] at heq
  change t = _ at heq
  rw [isPatched_iff] at hs ⊢
  constructor
  · rintro ⟨m, hm, howned⟩
    rw [heq] at hm
    rcases hrun.mem_keys hi hm with hkey | ⟨hmem, hpending⟩
    · exact absurd ⟨m, hkey, howned⟩ hs
    · exact ⟨m, hmem, howned, hpending⟩
  · rintro ⟨m, hm, howned, hpending⟩
    refine ⟨m, ?_, howned⟩
    by_contra hkey
    rw [heq] at hkey
    have hsettled := settled_of_patchModule interp hi (congrArg Prod.snd h) hm
    rw [h, heq] at hsettled
    exact hpending (hsettled.of_vars hi (hrun.vars_eq hkey))

/-- The outcome when it did not count as patched, and does inside the block. -/
theorem restores_unpatched {original : M → Dict String V} (hmarked : s.Marked env) (hempty : s.NoEmptyRecord)
    (hs : s.Remembers original) (h : s.patchModule interp env module recursive conversions = (t, .ok n)) :
    (∀ m, (t.unpatchModule interp module recursive).1.vars m = s.vars m) ↔
      ∀ m ∈ interp.packageModules module recursive, m ∉ s.patched.keys := by
  have ht : t.Remembers original := by
    have hp := patchModule_remembers env interp hs module recursive conversions
    rwa [h] at hp
  constructor
  · intro hvars m hm hkey
    obtain ⟨name, value, hrec⟩ := hempty m hkey
    obtain ⟨⟨b, hkind⟩, r, hr, hinert⟩ := hmarked m name value hrec
    have horiginal := hs.recorded m name value hrec
    rw [← ht.vars_unpatchModule hm, hvars m, hr] at horiginal
    cases horiginal
    exact hinert b hkind
  · intro hfresh m
    by_cases hm : m ∈ interp.packageModules module recursive
    · rw [ht.vars_unpatchModule hm]
      apply (hs.vars_eq _).symm
      rw [originals, Dict.get?_eq_none.mpr (hfresh m hm)]
      rfl
    · obtain ⟨t₁, _, _, _, hrun, -, heq, -⟩ := patchModule_spec env interp s module recursive conversions
      rw [h] at heq
      change t = _ at heq
      rw [vars_unpatchModule hm, heq]
      exact hrun.vars_eq_of_not_mem hm

theorem restores_iff (hi : Inert env) {original : M → Dict String V} (hmarked : s.Marked env)
    (hempty : s.NoEmptyRecord) (hs : s.Remembers original)
    (h : s.enter interp env module recursive conversions = (t, .ok was)) :
    (∀ m, (t.exit interp env module recursive was).1.vars m = s.vars m) ↔
      s.RestoresAt interp env module recursive conversions := by
  obtain ⟨hwas, n, hp⟩ := enter_ok interp h
  unfold RestoresAt
  cases was with
  | true =>
    rw [exit_true, if_pos hwas.symm]
    exact restores_patched interp hi hp
  | false =>
    have hnot : ¬s.isPatched interp module := by simp [← hwas]
    have hafter := isPatched_after interp hi hnot hp
    rw [exit_false, if_neg hnot]
    by_cases ht : t.isPatched interp module
    · obtain ⟨m, hm, howned, hpending⟩ := hafter.mp ht
      rw [if_pos ht, restores_unpatched interp hmarked hempty hs hp]
      constructor
      · exact fun hfresh => .inr ⟨⟨m, hm, howned, hpending⟩, hfresh⟩
      · rintro (hsettled | ⟨-, hfresh⟩)
        · exact absurd (hsettled m hm) hpending
        · exact hfresh
    · -- nothing is recorded for the package, so leaving does nothing
      rw [if_neg ht]
      constructor
      · intro hvars
        left
        intro m hm
        have hsettled := settled_of_patchModule interp hi (congrArg Prod.snd hp) hm
        rw [hp] at hsettled
        exact hsettled.of_vars hi (hvars m)
      · rintro (hsettled | ⟨hshows, -⟩)
        · intro m
          rw [patchModule_of_settled interp hsettled] at hp
          rw [← (Prod.mk.inj hp).1]
        · exact absurd (hafter.mpr hshows) ht

end PatchState

open PatchState

/-- The context manager gives back the bindings at entry exactly when one boolean says enough:
at entry the package is patched all through in both modes, or nothing of it is recorded, or
there is nothing in it to rebind. -/
theorem patched_restores_iff {M V : Type*} [DecidableEq M] [DecidableEq V] (interp : Interp M)
    (env : (M → Dict String V) → NumpyEnv V) (hi : Inert env) (vars : M → Dict String V)
    (calls : List (PatchCall M)) (module : M) (recursive : Bool) (conversions : Conversions) :
    let s := (fresh vars).run interp env calls
    ∀ t was, s.enter interp env module recursive conversions = (t, .ok was) →
      ((∀ m, (t.exit interp env module recursive was).1.vars m = s.vars m) ↔
        s.RestoresAt interp env module recursive conversions) := by
  intro s t was h
  exact restores_iff interp hi (run_marked interp hi vars calls) (run_noEmptyRecord interp vars calls)
    (run_remembers interp vars calls) h

/-- Nothing of `pkg` is patched: the block leaves no trace, in either of its modules. -/
theorem patched_restores_iff_pkg : ∃ t : PatchState DemoModule DemoObject,
    (fresh demoVars).enter demoInterp (fun _ => demoEnv) .pkg true .numpy = (t, .ok false) ∧
      t.vars .pkg ≠ demoVars .pkg ∧
      (t.exit demoInterp (fun _ => demoEnv) .pkg true false).1.vars .pkg = demoVars .pkg ∧
      (t.exit demoInterp (fun _ => demoEnv) .pkg true false).1.vars .sub = demoVars .sub := by
  have hentry : ((fresh demoVars).enter demoInterp (fun _ => demoEnv) .pkg true .numpy).2 = .ok false := by
    decide
  have hchanged : ((fresh demoVars).enter demoInterp (fun _ => demoEnv) .pkg true .numpy).1.vars .pkg ≠
      demoVars .pkg := by
    decide
  obtain ⟨t, ht⟩ : ∃ t, (fresh demoVars).enter demoInterp (fun _ => demoEnv) .pkg true .numpy = (t, .ok false) :=
    ⟨_, Prod.ext rfl hentry⟩
  rw [ht] at hchanged
  have hiff := patched_restores_iff demoInterp (fun _ => demoEnv) demoEnv_inert demoVars [] .pkg true .numpy
    t false ht
  have hrestores := hiff.mpr (.inr ⟨⟨.pkg, by decide, .inl rfl, fun hsettled => ?_⟩, fun m _ => List.not_mem_nil⟩)
  · exact ⟨t, ht, hchanged, hrestores .pkg, hrestores .sub⟩
  · have hnp := hsettled "np" .numpy (by decide)
    exact absurd hnp (by decide)

/-- A package whose submodule was patched on its own stays patched after the block. -/
theorem patched_leaves_package_patched :
    let s := (fresh demoVars).run demoInterp (fun _ => demoEnv) [.patchModule .sub true .lightarray]
    let inside := s.enter demoInterp (fun _ => demoEnv) .pkg true .lightarray
    inside.2 = .ok true ∧
      (s.vars .pkg).get? "np" = some .numpy ∧
      ((inside.1.exit demoInterp (fun _ => demoEnv) .pkg true true).1.vars .pkg).get? "np" = some .namespace := by
  decide

end LightArray
