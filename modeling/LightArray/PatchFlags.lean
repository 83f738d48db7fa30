import LightArray.PatchedContext

namespace LightArray

namespace PatchState

variable {M V : Type*} [DecidableEq M]

section loops

variable [DecidableEq V] (env : (M → Dict String V) → NumpyEnv V) (conversions : Conversions)

/-- The rebindings of the inner loop of `patch_module`, each with the mode of the call. -/
def nameRebindings (mod : M) : List (String × V) → PatchState M V → List (M × String × Conversions)
  | [], _ => []
  | (name, value) :: rest, s =>
    match (env s.vars).replacement conversions name value with
    | .error _ => []
    | .ok none => nameRebindings mod rest s
    | .ok (some r) => (mod, name, conversions) :: nameRebindings mod rest (s.rebind mod name value r)

/-- The rebindings of the outer loop. -/
def rebindings : List M → PatchState M V → ℕ → List (M × String × Conversions)
  | [], _, _ => []
  | mod :: mods, s, count =>
    nameRebindings env conversions mod (s.vars mod).entries s ++
      match patchNames env conversions mod (s.vars mod).entries s count with
      | (_, .error _) => []
      | (t, .ok n) => rebindings mods t n

end loops

/-- A name with a recorded original. -/
def Recorded (s : PatchState M V) (m : M) (name : String) : Prop := ∃ value, (s.originals m).get? name = some value

variable {s t : PatchState M V} {m mod : M} {name j : String} {value r : V} {mods : List M}

theorem recorded_rebind : (s.rebind mod name value r).Recorded m j ↔ m = mod ∧ j = name ∨ s.Recorded m j := by
  unfold Recorded
  rw [originals_rebind]
  by_cases hm : m = mod
  · subst hm
    by_cases hj : j = name <;> simp [Dict.get?_setDefault, hj]
  · simp [hm]

theorem recorded_unpatchModules {count : ℕ} :
    (unpatchModules mods s count).1.Recorded m name ↔ m ∉ mods ∧ s.Recorded m name := by
  unfold Recorded
  rw [originals_unpatchModules]
  by_cases hm : m ∈ mods <;> simp [hm]

theorem flags_restoreNames {entries : List (String × V)} :
    (restoreNames m entries s).patchActive = s.patchActive ∧
      (restoreNames m entries s).numpyConversionsActive = s.numpyConversionsActive := by
  induction entries generalizing s with
  | nil => exact ⟨rfl, rfl⟩
  | cons e rest ih => exact ih

theorem flags_unpatchModules {count : ℕ} :
    (unpatchModules mods s count).1.patchActive = s.patchActive ∧
      (unpatchModules mods s count).1.numpyConversionsActive = s.numpyConversionsActive := by
  induction mods generalizing s count with
  | nil => exact ⟨rfl, rfl⟩
  | cons mod rest ih =>
    obtain ⟨hactive, hnumpy⟩ : (s.restore mod).patchActive = s.patchActive ∧
        (s.restore mod).numpyConversionsActive = s.numpyConversionsActive := flags_restoreNames
    rw [← hactive, ← hnumpy]
    exact ih (s := s.restore mod)

/-- `_patched` is empty when no name is recorded. -/
theorem NoEmptyRecord.isEmpty_iff (h : s.NoEmptyRecord) : s.patched.entries.isEmpty = false ↔ ∃ m name, s.Recorded m name := by
  rw [List.isEmpty_eq_false_iff_exists_mem]
  constructor
  · rintro ⟨⟨m, record⟩, hm⟩
    obtain ⟨name, value, hv⟩ := h m (List.mem_map_of_mem hm)
    exact ⟨m, name, value, hv⟩
  · rintro ⟨m, name, value, hv⟩
    cases hm : s.patched.get? m with
    | none =>
      rw [originals, hm] at hv
      cases hv
    | some record => exact ⟨(m, record), Dict.get?_eq_some.mp hm⟩

/-- What a loop of `patch_module` did, given its rebindings. -/
structure Logged (s t : PatchState M V) (log : List (M × String × Conversions)) : Prop where
  recorded : ∀ m name, t.Recorded m name ↔ (∃ c, (m, name, c) ∈ log) ∨ s.Recorded m name
  active : t.patchActive = s.patchActive
  numpy : t.numpyConversionsActive = s.numpyConversionsActive

theorem Logged.refl (s : PatchState M V) : Logged s s [] := ⟨by simp, rfl, rfl⟩

theorem Logged.trans {u : PatchState M V} {log log' : List (M × String × Conversions)} (h : Logged s t log) (h' : Logged t u log') :
    Logged s u (log ++ log') := by
  refine ⟨fun m name => ?_, h'.active.trans h.active, h'.numpy.trans h.numpy⟩
  rw [h'.recorded, h.recorded]
  simp only [List.mem_append, exists_or]
  tauto

theorem logged_rebind {c : Conversions} : Logged s (s.rebind mod name value r) [(mod, name, c)] := by
  refine ⟨fun m j => ?_, rfl, rfl⟩
  rw [recorded_rebind]
  simp

variable [DecidableEq V] {env : (M → Dict String V) → NumpyEnv V} {conversions : Conversions}

variable (env conversions) in
theorem patchNames_logged (mod : M) (entries : List (String × V)) (s : PatchState M V) (count : ℕ) :
    Logged s (patchNames env conversions mod entries s count).1 (nameRebindings env conversions mod entries s) ∧
      ∀ k, (patchNames env conversions mod entries s count).2 = .ok k →
        k = count+(nameRebindings env conversions mod entries s).length := by
  induction entries generalizing s count with
  | nil => exact ⟨.refl s, fun k hk => (Except.ok.inj hk).symm⟩
  | cons e rest ih =>
    obtain ⟨name, value⟩ := e
    cases hr : (env s.vars).replacement conversions name value with
    | error e =>
      rw [patchNames_raise hr, nameRebindings, hr]
      exact ⟨.refl s, nofun⟩
    | ok o =>
      cases o with
      | none =>
        rw [patchNames_keep hr, nameRebindings, hr]
        exact ih s count
      | some r =>
        rw [patchNames_rebind hr, nameRebindings, hr]
        obtain ⟨hlog, hcount⟩ := ih (s.rebind mod name value r) (count+1)
        refine ⟨logged_rebind.trans hlog, fun k hk => ?_⟩
        rw [hcount k hk, List.length_cons]
        omega

variable (env conversions) in
theorem patchModules_logged (mods : List M) (s : PatchState M V) (count : ℕ) :
    Logged s (patchModules env conversions mods s count).1 (rebindings env conversions mods s count) ∧
      ∀ k, (patchModules env conversions mods s count).2 = .ok k →
        k = count+(rebindings env conversions mods s count).length := by
  induction mods generalizing s count with
  | nil => exact ⟨.refl s, fun k hk => (Except.ok.inj hk).symm⟩
  | cons mod rest ih =>
    obtain ⟨hlog, hcount⟩ := patchNames_logged env conversions mod (s.vars mod).entries s count
    rw [patchModules, rebindings]
    cases hvisit : patchNames env conversions mod (s.vars mod).entries s count with
    | mk t res =>
      rw [hvisit] at hlog hcount
      cases res with
      | error e =>
        rw [List.append_nil]
        refine ⟨hlog, fun k hk => ?_⟩
        cases hk
      | ok n =>
        obtain ⟨hrest, hrestCount⟩ := ih t n
        refine ⟨hlog.trans hrest, fun k hk => ?_⟩
        obtain rfl := hcount n rfl
        rw [hrestCount k hk, List.length_append, add_assoc]

/-- Every rebinding of a call has the mode of the call. -/
theorem mode_nameRebindings {entries : List (String × V)} {e : M × String × Conversions}
    (he : e ∈ nameRebindings env conversions mod entries s) : e.2.2 = conversions := by
  induction entries generalizing s with
  | nil => cases he
  | cons f rest ih =>
    rw [nameRebindings] at he
    split at he
    · cases he
    · exact ih he
    · rcases List.mem_cons.mp he with rfl | he
      · rfl
      · exact ih he

theorem mode_rebindings {count : ℕ} {e : M × String × Conversions} (he : e ∈ rebindings env conversions mods s count) :
    e.2.2 = conversions := by
  induction mods generalizing s count with
  | nil => cases he
  | cons mod rest ih =>
    rw [rebindings, List.mem_append] at he
    rcases he with he | he
    · exact mode_nameRebindings he
    · split at he
      · cases he
      · exact ih he

end PatchState

open PatchState

/-- A patching state together with the names rebound and not restored since, each with the mode of
the call that rebound it. -/
structure TracedState (M V : Type*) where
  state : PatchState M V
  rebound : List (M × String × Conversions)

namespace TracedState

variable {M V : Type*} [DecidableEq M] [DecidableEq V]
variable (interp : Interp M) (env : (M → Dict String V) → NumpyEnv V)

def fresh (vars : M → Dict String V) : TracedState M V := ⟨.fresh vars, []⟩

def patch (module : M) (recursive : Bool) (conversions : Conversions) (t : TracedState M V) : List (M × String × Conversions) :=
  t.rebound ++ rebindings env conversions (interp.packageModules module recursive) t.state 0

def unpatch (module : M) (recursive : Bool) (t : TracedState M V) : List (M × String × Conversions) :=
  t.rebound.filter fun e => e.1 ∉ interp.packageModules module recursive

/-- A call, with what it rebinds and restores. -/
def call (t : TracedState M V) (c : PatchCall M) : TracedState M V where
  state := t.state.call interp env c
  rebound := match c with
    | .patchModule m recursive conversions => t.patch interp env m recursive conversions
    | .unpatchModule m recursive => t.unpatch interp m recursive
    | .setPatched m enabled recursive conversions =>
      if enabled then t.patch interp env m recursive conversions
      else if t.state.isPatched interp m then t.unpatch interp m recursive
      else t.rebound

def run (t : TracedState M V) (calls : List (PatchCall M)) : TracedState M V := calls.foldl (·.call interp env) t

/-- The flags say what is rebound: anything at all, and anything by the numpy mode. -/
def FlagsDescribe (t : TracedState M V) : Prop :=
  (t.state.patchActive = true ↔ ∃ e, e ∈ t.rebound) ∧
    (t.state.numpyConversionsActive = true ↔ ∃ e ∈ t.rebound, e.2.2 = .numpy)

/-- A call of `patch_module` that returns, or raises before it rebinds anything, or finds both
flags up as they would be. -/
def PatchKeeps (t : TracedState M V) (module : M) (recursive : Bool) (conversions : Conversions) : Prop :=
  (∃ e, (patchModules env conversions (interp.packageModules module recursive) t.state 0).2 = .error e) →
    (∃ e, e ∈ rebindings env conversions (interp.packageModules module recursive) t.state 0) →
      (∃ e, e ∈ t.rebound) ∧ (conversions = .numpy → ∃ e ∈ t.rebound, e.2.2 = .numpy)

/-- A call of `unpatch_module` that restores everything, or leaves a numpy-mode name if there is one. -/
def UnpatchKeeps (t : TracedState M V) (module : M) (recursive : Bool) : Prop :=
  (∃ e ∈ t.rebound, e.2.2 = .numpy) → (∃ e ∈ t.rebound, e.1 ∉ interp.packageModules module recursive) →
    ∃ e ∈ t.rebound, e.2.2 = .numpy ∧ e.1 ∉ interp.packageModules module recursive

def Keeps (t : TracedState M V) : PatchCall M → Prop
  | .patchModule m recursive conversions => t.PatchKeeps interp env m recursive conversions
  | .unpatchModule m recursive => t.UnpatchKeeps interp m recursive
  | .setPatched m enabled recursive conversions =>
    if enabled then t.PatchKeeps interp env m recursive conversions
    else t.state.isPatched interp m → t.UnpatchKeeps interp m recursive

variable {interp env} {t : TracedState M V} {module : M} {recursive : Bool} {conversions : Conversions}

/-- The trace agrees with the record. -/
structure Faithful (t : TracedState M V) : Prop where
  recorded : ∀ m name, t.state.Recorded m name ↔ ∃ c, (m, name, c) ∈ t.rebound
  noEmpty : t.state.NoEmptyRecord

omit [DecidableEq V] in
theorem Faithful.isEmpty_iff (h : t.Faithful) : t.state.patched.entries.isEmpty = false ↔ ∃ e, e ∈ t.rebound := by
  rw [h.noEmpty.isEmpty_iff]
  simp only [h.recorded]
  exact ⟨fun ⟨m, name, c, hmem⟩ => ⟨_, hmem⟩, fun ⟨⟨m, name, c⟩, hmem⟩ => ⟨m, name, c, hmem⟩⟩

variable (interp env) in
/-- The state of `patch_module` before it updates the flags. -/
theorem patch_faithful (h : t.Faithful) (module : M) (recursive : Bool) (conversions : Conversions) :
    (TracedState.mk (patchModules env conversions (interp.packageModules module recursive) t.state 0).1
      (t.patch interp env module recursive conversions)).Faithful := by
  obtain ⟨hlog, -⟩ := patchModules_logged env conversions (interp.packageModules module recursive) t.state 0
  obtain ⟨n, hrun, -⟩ := patchModules_rebinds env conversions t.state (List.Subset.refl (interp.packageModules module recursive)) 0
  refine ⟨fun m name => ?_, hrun.noEmptyRecord h.noEmpty⟩
  rw [hlog.recorded, h.recorded]
  simp only [patch, List.mem_append, exists_or]
  tauto

omit [DecidableEq V] in
variable (interp) in
theorem unpatch_faithful (h : t.Faithful) (module : M) (recursive : Bool) :
    (TracedState.mk (unpatchModules (interp.packageModules module recursive) t.state 0).1
      (t.unpatch interp module recursive)).Faithful := by
  refine ⟨fun m name => ?_, h.noEmpty.unpatchModules _ _⟩
  rw [recorded_unpatchModules, h.recorded]
  simp only [unpatch, List.mem_filter, decide_eq_true_eq]
  tauto

omit [DecidableEq V] in
/-- The flags are no part of the record. -/
theorem Faithful.of_record {u : PatchState M V} (h : t.Faithful) (hu : u.patched = t.state.patched) :
    (TracedState.mk u t.rebound).Faithful := by
  have horiginals (m : M) : u.originals m = t.state.originals m := by rw [originals, hu, originals]
  refine ⟨fun m name => ?_, fun m hm => ?_⟩
  · rw [Recorded, horiginals]
    exact h.recorded m name
  · rw [horiginals]
    exact h.noEmpty m (hu ▸ hm)

theorem patchModule_patched : (t.state.patchModule interp env module recursive conversions).1.patched =
    (patchModules env conversions (interp.packageModules module recursive) t.state 0).1.patched := by
  rw [patchModule]
  split <;> rename_i heq <;> rw [heq]

theorem call_patch_faithful (h : t.Faithful) (module : M) (recursive : Bool) (conversions : Conversions) :
    (TracedState.mk (t.state.patchModule interp env module recursive conversions).1
      (t.patch interp env module recursive conversions)).Faithful :=
  (patch_faithful interp env h module recursive conversions).of_record patchModule_patched

omit [DecidableEq V] in
theorem call_unpatch_faithful (h : t.Faithful) (module : M) (recursive : Bool) :
    (TracedState.mk (t.state.unpatchModule interp module recursive).1 (t.unpatch interp module recursive)).Faithful :=
  (unpatch_faithful interp h module recursive).of_record rfl

theorem setPatched_true : (t.state.setPatched interp env module true recursive conversions).1 =
    (t.state.patchModule interp env module recursive conversions).1 := by
  rw [setPatched, if_pos rfl]
  split <;> rename_i heq <;> rw [heq]

theorem setPatched_false : (t.state.setPatched interp env module false recursive conversions).1 =
    if t.state.isPatched interp module then (t.state.unpatchModule interp module recursive).1 else t.state := by
  rw [setPatched, if_neg Bool.false_ne_true]
  split_ifs <;> rfl

variable (interp env) in
theorem call_cases (t : TracedState M V) (c : PatchCall M) :
    (∃ module recursive conversions, (t.Keeps interp env c ↔ t.PatchKeeps interp env module recursive conversions) ∧
      t.call interp env c = ⟨(t.state.patchModule interp env module recursive conversions).1,
        t.patch interp env module recursive conversions⟩) ∨
    (∃ module recursive, (t.Keeps interp env c ↔ t.UnpatchKeeps interp module recursive) ∧
      t.call interp env c = ⟨(t.state.unpatchModule interp module recursive).1, t.unpatch interp module recursive⟩) ∨
    t.Keeps interp env c ∧ t.call interp env c = t := by
  cases c with
  | patchModule m recursive conversions => exact .inl ⟨m, recursive, conversions, .rfl, rfl⟩
  | unpatchModule m recursive => exact .inr (.inl ⟨m, recursive, .rfl, rfl⟩)
  | setPatched m enabled recursive conversions =>
    cases enabled with
    | true =>
      refine .inl ⟨m, recursive, conversions, by simp [Keeps], ?_⟩
      simp [TracedState.call, PatchState.call, setPatched_true]
    | false =>
      by_cases hp : t.state.isPatched interp m = true
      · refine .inr (.inl ⟨m, recursive, by simp [Keeps, hp], ?_⟩)
        simp [TracedState.call, PatchState.call, setPatched_false, hp]
      · refine .inr (.inr ⟨by simp [Keeps, hp], ?_⟩)
        simp [TracedState.call, PatchState.call, setPatched_false, hp]

theorem Faithful.call (h : t.Faithful) (c : PatchCall M) : (t.call interp env c).Faithful := by
  rcases call_cases interp env t c with ⟨m, r, conv, -, hc⟩ | ⟨m, r, -, hc⟩ | ⟨-, hc⟩
  · rw [hc]
    exact call_patch_faithful h m r conv
  · rw [hc]
    exact call_unpatch_faithful h m r
  · rwa [hc]

/-- Flags that stay as they were describe the state after new rebindings when they were up. -/
theorem unchanged_iff {rebound now numpyMode reboundNumpy : Prop} :
    ((rebound ↔ rebound ∨ now) ∧ (reboundNumpy ↔ reboundNumpy ∨ numpyMode ∧ now)) ↔
      (now → rebound ∧ (numpyMode → reboundNumpy)) := by
  tauto

variable (interp env t module recursive conversions) in
theorem exists_mem_patch : (∃ e, e ∈ t.patch interp env module recursive conversions) ↔ (∃ e, e ∈ t.rebound) ∨
    ∃ e, e ∈ rebindings env conversions (interp.packageModules module recursive) t.state 0 := by
  simp only [patch, List.mem_append, exists_or]

variable (interp env t module recursive conversions) in
/-- The names of the numpy mode after a patch: the ones before, and in that mode the new ones. -/
theorem exists_numpy_patch : (∃ e ∈ t.patch interp env module recursive conversions, e.2.2 = .numpy) ↔
    (∃ e ∈ t.rebound, e.2.2 = .numpy) ∨
      conversions = .numpy ∧ ∃ e, e ∈ rebindings env conversions (interp.packageModules module recursive) t.state 0 := by
  rw [patch]
  constructor
  · rintro ⟨e, he, hm⟩
    rcases List.mem_append.mp he with he | he
    · exact .inl ⟨e, he, hm⟩
    · exact .inr ⟨(mode_rebindings he).symm.trans hm, e, he⟩
  · rintro (⟨e, he, hm⟩ | ⟨hc, e, he⟩)
    · exact ⟨e, List.mem_append_left _ he, hm⟩
    · exact ⟨e, List.mem_append_right _ he, (mode_rebindings he).trans hc⟩

/-- One call of `patch_module` from flags that describe the state. -/
theorem patch_flagsDescribe_iff (h : t.Faithful) (hflags : t.FlagsDescribe) :
    (TracedState.mk (t.state.patchModule interp env module recursive conversions).1
      (t.patch interp env module recursive conversions)).FlagsDescribe ↔ t.PatchKeeps interp env module recursive conversions := by
  obtain ⟨hactive, hnumpy⟩ := hflags
  have hany := exists_mem_patch interp env t module recursive conversions
  have hrecord := (patch_faithful interp env h module recursive conversions).isEmpty_iff.trans hany
  obtain ⟨hlog, hcount⟩ := patchModules_logged env conversions (interp.packageModules module recursive) t.state 0
  have hnumpyNames := exists_numpy_patch interp env t module recursive conversions
  rw [FlagsDescribe, PatchKeeps, patchModule, hany, hnumpyNames]
  generalize rebindings env conversions (interp.packageModules module recursive) t.state 0 = now at *
  cases hres : patchModules env conversions (interp.packageModules module recursive) t.state 0 with
  | mk u res =>
    rw [hres] at hrecord hlog hcount
    dsimp only at hrecord hlog hcount
    have hactive' : u.patchActive = true ↔ ∃ e, e ∈ t.rebound := by rw [← hactive, hlog.active]
    have hnumpy' : u.numpyConversionsActive = true ↔ ∃ e ∈ t.rebound, e.2.2 = .numpy := by rw [← hnumpy, hlog.numpy]
    cases res with
    | error e =>
      have hraises : ∃ e', (Except.error e : Except String ℕ) = .error e' := ⟨e, rfl⟩
      rw [forall_prop_of_true hraises]
      show (u.patchActive = true ↔ _) ∧ (u.numpyConversionsActive = true ↔ _) ↔ _
      rw [hactive', hnumpy']
      exact unchanged_iff
    | ok n =>
      have hsome : n ≠ 0 ↔ ∃ e, e ∈ now := by
        have hn := hcount n rfl
        rw [zero_add] at hn
        rw [hn, Ne, List.length_eq_zero_iff]
        refine ⟨List.exists_mem_of_ne_nil now, fun hmem => ?_⟩
        obtain ⟨e, he⟩ := hmem
        exact List.ne_nil_of_mem he
      have hreturns : ¬ ∃ e', (Except.ok n : Except String ℕ) = .error e' := by
        rintro ⟨e, he⟩
        cases he
      refine iff_of_true ⟨?_, ?_⟩ fun hraises => absurd hraises hreturns
      · show (u.patchActive || !u.patched.entries.isEmpty) = true ↔ _
        rw [Bool.or_eq_true, Bool.not_eq_true', hactive', hrecord, ← or_assoc, or_self]
      · show (u.numpyConversionsActive || decide (conversions = .numpy) && decide (n ≠ 0)) = true ↔ _
        rw [Bool.or_eq_true, Bool.and_eq_true, decide_eq_true_eq, decide_eq_true_eq, hnumpy', hsome]

omit [DecidableEq V] in
theorem unpatch_flagsDescribe_iff (h : t.Faithful) (hflags : t.FlagsDescribe) :
    (TracedState.mk (t.state.unpatchModule interp module recursive).1 (t.unpatch interp module recursive)).FlagsDescribe ↔
      t.UnpatchKeeps interp module recursive := by
  obtain ⟨hactive, hnumpy⟩ := hflags
  have hafter := (unpatch_faithful interp h module recursive).isEmpty_iff
  obtain ⟨hactive', hnumpy'⟩ : (unpatchModules (interp.packageModules module recursive) t.state 0).1.patchActive = _ ∧
      (unpatchModules (interp.packageModules module recursive) t.state 0).1.numpyConversionsActive = _ := flags_unpatchModules
  have hany : (∃ e, e ∈ t.unpatch interp module recursive) ↔ ∃ e ∈ t.rebound, e.1 ∉ interp.packageModules module recursive := by
    simp only [unpatch, List.mem_filter, decide_eq_true_eq]
  have hleft : (∃ e ∈ t.unpatch interp module recursive, e.2.2 = .numpy) ↔
      ∃ e ∈ t.rebound, e.2.2 = .numpy ∧ e.1 ∉ interp.packageModules module recursive := by
    simp only [unpatch, List.mem_filter, decide_eq_true_eq]
    exact exists_congr fun e => by tauto
  rw [FlagsDescribe, UnpatchKeeps, unpatchModule]
  generalize unpatchModules (interp.packageModules module recursive) t.state 0 = res at *
  obtain ⟨u, count⟩ := res
  show ((u.patchActive && !u.patched.entries.isEmpty) = true ↔ _) ∧
    ((u.numpyConversionsActive && !u.patched.entries.isEmpty) = true ↔ _) ↔ _
  rw [Bool.and_eq_true, Bool.and_eq_true, Bool.not_eq_true', hafter, hactive', hnumpy', hactive, hnumpy]
  show (_ ∧ (∃ e, e ∈ t.unpatch interp module recursive) ↔ ∃ e, e ∈ t.unpatch interp module recursive) ∧
    (_ ∧ (∃ e, e ∈ t.unpatch interp module recursive) ↔ ∃ e ∈ t.unpatch interp module recursive, e.2.2 = .numpy) ↔ _
  rw [hany, hleft]
  have hsub : (∃ e ∈ t.rebound, e.1 ∉ interp.packageModules module recursive) → ∃ e, e ∈ t.rebound := fun ⟨e, he, _⟩ => ⟨e, he⟩
  have hnumpySub : (∃ e ∈ t.rebound, e.2.2 = .numpy ∧ e.1 ∉ interp.packageModules module recursive) →
      (∃ e ∈ t.rebound, e.2.2 = .numpy) ∧ ∃ e ∈ t.rebound, e.1 ∉ interp.packageModules module recursive :=
    fun ⟨e, he, hm, hout⟩ => ⟨⟨e, he, hm⟩, e, he, hout⟩
  exact ⟨fun hall hn ho => hall.2.mp ⟨hn, ho⟩, fun hkeep => ⟨⟨And.right, fun ho => ⟨hsub ho, ho⟩⟩, ⟨fun h => hkeep h.1 h.2, hnumpySub⟩⟩⟩

/-- One call keeps flags that describe the state exactly when the condition holds. -/
theorem call_flagsDescribe_iff (h : t.Faithful) (hflags : t.FlagsDescribe) (c : PatchCall M) :
    (t.call interp env c).FlagsDescribe ↔ t.Keeps interp env c := by
  rcases call_cases interp env t c with ⟨m, r, conv, hk, hc⟩ | ⟨m, r, hk, hc⟩ | ⟨hk, hc⟩
  · rw [hc, hk]
    exact patch_flagsDescribe_iff h hflags
  · rw [hc, hk]
    exact unpatch_flagsDescribe_iff h hflags
  · rw [hc]
    exact iff_of_true hflags hk

theorem run_flagsDescribe_iff (h : t.Faithful) (hflags : t.FlagsDescribe) (calls : List (PatchCall M)) :
    (∀ before after, calls = before ++ after → (t.run interp env before).FlagsDescribe) ↔
      ∀ before c after, calls = before ++ c :: after → (t.run interp env before).Keeps interp env c := by
  induction calls generalizing t with
  | nil =>
    refine iff_of_true (fun before after he => ?_) (fun before c after he => ?_)
    · obtain ⟨rfl, -⟩ := List.append_eq_nil_iff.mp he.symm
      exact hflags
    · cases (List.append_eq_nil_iff.mp he.symm).2
  | cons c rest ih =>
    constructor
    · intro hall
      have hcall : (t.call interp env c).FlagsDescribe := hall [c] rest rfl
      have hrest := (ih (h.call c) hcall).mp fun before after he => hall (c :: before) after (congrArg (c :: ·) he)
      intro before d after he
      rcases List.cons_eq_append_iff.mp he with ⟨rfl, hd⟩ | ⟨before, rfl, hd⟩
      · obtain ⟨rfl, -⟩ := List.cons.inj hd
        exact (call_flagsDescribe_iff h hflags d).mp hcall
      · exact hrest before d after hd
    · intro hall
      have hcall := (call_flagsDescribe_iff h hflags c).mpr (hall [] c rest rfl)
      have hrest := (ih (h.call c) hcall).mpr fun before d after he => hall (c :: before) d after (congrArg (c :: ·) he)
      intro before after he
      rcases List.cons_eq_append_iff.mp he with ⟨rfl, -⟩ | ⟨before, rfl, hd⟩
      · exact hflags
      · exact hrest before after hd

variable (interp env) in
theorem state_run (t : TracedState M V) (calls : List (PatchCall M)) : (t.run interp env calls).state = t.state.run interp env calls := by
  induction calls generalizing t with
  | nil => rfl
  | cons c rest ih => exact ih (t.call interp env c)

variable (interp env) in
/-- From a fresh start the flags describe every state reached exactly when every call meets its
condition: a patch that raises rebinds nothing that the flags do not say yet, and an unpatch does
not take away the last numpy-mode name while another name stays rebound. -/
theorem flags_describe_iff (vars : M → Dict String V) (calls : List (PatchCall M)) :
    (∀ before after, calls = before ++ after → ((fresh vars).run interp env before).FlagsDescribe) ↔
      ∀ before c after, calls = before ++ c :: after → ((fresh vars).run interp env before).Keeps interp env c := by
  apply run_flagsDescribe_iff
  · exact ⟨fun m name => iff_of_false nofun nofun, nofun⟩
  · exact ⟨iff_of_false nofun nofun, iff_of_false nofun nofun⟩

end TracedState

/-- The submodule is patched in the numpy mode and unpatched again while the package is patched. -/
theorem flags_stale_after_unpatch :
    let t := (TracedState.fresh demoVars).run demoInterp (fun _ => demoEnv)
      [.patchModule .sub true .numpy, .patchModule .pkg false .lightarray, .unpatchModule .sub true]
    t.state.numpyConversionsActive = true ∧ ¬t.FlagsDescribe := by
  intro t
  have hflag : t.state.numpyConversionsActive = true := by decide
  have hmodes : ∀ e ∈ t.rebound, e.2.2 ≠ .numpy := by decide
  refine ⟨hflag, fun ⟨_, hnumpy⟩ => ?_⟩
  obtain ⟨e, he, hm⟩ := hnumpy.mp hflag
  exact hmodes e he hm

end LightArray
