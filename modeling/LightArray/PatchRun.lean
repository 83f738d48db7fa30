import LightArray.PatchRecord

namespace LightArray

open scoped BigOperators

namespace PatchState

variable {M V : Type*} [DecidableEq M] [DecidableEq V] {s t : PatchState M V} {m mod : M} {name : String}
variable {value : V} {mods : List M} {original : M → Dict String V}
variable {env : (M → Dict String V) → NumpyEnv V}

/-- The rebindings one call of `patch_module` makes in `mods`, and their number. -/
inductive Rebinds (env : (M → Dict String V) → NumpyEnv V) (conversions : Conversions) (mods : List M) :
    PatchState M V → PatchState M V → ℕ → Prop
  | refl (s : PatchState M V) : Rebinds env conversions mods s s 0
  | step {s t : PatchState M V} {mod : M} {name : String} {value r : V} {n : ℕ} (hmod : mod ∈ mods)
      (hvalue : (s.vars mod).get? name = some value)
      (hr : (env s.vars).replacement conversions name value = .ok (some r))
      (hrest : Rebinds env conversions mods (s.rebind mod name value r) t n) :
      Rebinds env conversions mods s t (n+1)

variable {conversions : Conversions}

theorem Rebinds.trans {u : PatchState M V} {n k : ℕ} (h : Rebinds env conversions mods s t n)
    (g : Rebinds env conversions mods t u k) : Rebinds env conversions mods s u (n+k) := by
  induction h with
  | refl s => rwa [Nat.zero_add]
  | step hmod hvalue hr _ ih =>
    rw [Nat.succ_add]
    exact .step hmod hvalue hr (ih g)

section

variable {rest : List (String × V)} {count : ℕ}

theorem patchNames_raise {e : String} (hr : (env s.vars).replacement conversions name value = .error e) :
    patchNames env conversions mod ((name, value) :: rest) s count = (s, .error e) := by
  rw [patchNames, hr]

theorem patchNames_keep (hr : (env s.vars).replacement conversions name value = .ok none) :
    patchNames env conversions mod ((name, value) :: rest) s count =
      patchNames env conversions mod rest s count := by
  rw [patchNames, hr]

theorem patchNames_rebind {r : V} (hr : (env s.vars).replacement conversions name value = .ok (some r)) :
    patchNames env conversions mod ((name, value) :: rest) s count =
      patchNames env conversions mod rest (s.rebind mod name value r) (count+1) := by
  rw [patchNames, hr, rebind]

end

variable (env conversions) in
theorem patchNames_rebinds (hmod : mod ∈ mods) {entries : List (String × V)}
    (h : s.Unvisited mod entries) (count : ℕ) :
    ∃ n, Rebinds env conversions mods s (patchNames env conversions mod entries s count).1 n ∧
      ∀ k, (patchNames env conversions mod entries s count).2 = .ok k → k = count+n := by
  induction entries generalizing s count with
  | nil => exact ⟨0, .refl s, fun k hk => (Except.ok.inj hk).symm⟩
  | cons e rest ih =>
    obtain ⟨name, value⟩ := e
    rw [patchNames]
    split
    · exact ⟨0, .refl s, nofun⟩
    · exact ih h.tail count
    · obtain ⟨n, hn, hcount⟩ := ih h.rebind (count+1)
      refine ⟨n+1, .step hmod (h.2 _ List.mem_cons_self) ‹_› hn, fun k hk => ?_⟩
      have := hcount k hk
      omega

variable (env conversions) in
theorem patchModules_rebinds (s : PatchState M V) {visit : List M} (hsub : visit ⊆ mods) (count : ℕ) :
    ∃ n, Rebinds env conversions mods s (patchModules env conversions visit s count).1 n ∧
      ∀ k, (patchModules env conversions visit s count).2 = .ok k → k = count+n := by
  induction visit generalizing s count with
  | nil => exact ⟨0, .refl s, fun k hk => (Except.ok.inj hk).symm⟩
  | cons mod rest ih =>
    obtain ⟨n, hn, hcount⟩ := patchNames_rebinds env conversions (hsub List.mem_cons_self)
      (unvisited_entries (s := s)) count
    rw [patchModules]
    split
    · rename_i u e he
      rw [he] at hn
      exact ⟨n, hn, nofun⟩
    · rename_i u k hk
      rw [hk] at hn hcount
      obtain ⟨j, hj, hj'⟩ := ih u (fun _ h => hsub (List.mem_cons_of_mem _ h)) k
      refine ⟨n+j, hn.trans hj, fun i hi => ?_⟩
      have := hcount k rfl
      have := hj' i hi
      omega

theorem Rebinds.remembers {n : ℕ} (h : Rebinds env conversions mods s t n) (hs : s.Remembers original) :
    t.Remembers original := by
  induction h with
  | refl s => exact hs
  | step _ hvalue _ _ ih => exact ih (hs.rebind hvalue _)

/-- Only names that are not recorded yet are rebound. -/
theorem Marked.fresh (h : s.Marked env) {r : V} (hvalue : (s.vars m).get? name = some value)
    (hr : (env s.vars).replacement conversions name value = .ok (some r)) :
    (s.originals m).get? name = none := by
  rw [Option.eq_none_iff_forall_ne_some]
  intro v hv
  obtain ⟨-, w, hw, hkind⟩ := h m name v hv
  cases hw.symm.trans hvalue
  exact hkind _ (kind_of_replacement hr)

theorem Marked.rebind (h : s.Marked env) (hi : Inert env) {r : V} (hvalue : (s.vars m).get? name = some value)
    (hr : (env s.vars).replacement conversions name value = .ok (some r)) :
    (s.rebind m name value r).Marked env := by
  intro mod j v hj
  rw [get?_rebind]
  by_cases hc : mod = m ∧ j = name
  · obtain ⟨rfl, rfl⟩ := hc
    rw [originals_rebind, if_pos rfl, Dict.get?_setDefault, if_pos rfl, h.fresh hvalue hr] at hj
    cases hj
    exact ⟨⟨_, kind_of_replacement hr⟩, r, if_pos ⟨rfl, rfl⟩, fun b => hi.kinds _ b _ _ _ _ hr⟩
  · rw [if_neg hc]
    apply h mod j v
    rw [originals_rebind] at hj
    split_ifs at hj with hm
    · subst hm
      rwa [Dict.get?_setDefault, if_neg fun hj => hc ⟨rfl, hj⟩] at hj
    · exact hj

theorem Rebinds.marked {n : ℕ} (h : Rebinds env conversions mods s t n) (hi : Inert env) (hs : s.Marked env) :
    t.Marked env := by
  induction h with
  | refl s => exact hs
  | step _ hvalue hr _ ih => exact ih (hs.rebind hi hvalue hr)

/-- Each rebinding adds one record to one of the visited modules. -/
theorem Rebinds.recordSize {n : ℕ} (h : Rebinds env conversions mods s t n) (hi : Inert env) (hs : s.Marked env) :
    ∑ m ∈ mods.toFinset, t.recordSize m = ∑ m ∈ mods.toFinset, s.recordSize m+n := by
  induction h with
  | refl s => rfl
  | @step s t mod name value r n hmod hvalue hr _ ih =>
    rw [ih (hs.rebind hi hvalue hr)]
    have hself : (s.rebind mod name value r).recordSize mod = s.recordSize mod+1 := by
      unfold PatchState.recordSize
      rw [originals_rebind, if_pos rfl]
      exact Dict.length_setDefault (Dict.get?_eq_none.mp (hs.fresh hvalue hr))
    have hother : ∑ m ∈ mods.toFinset.erase mod, (s.rebind mod name value r).recordSize m =
        ∑ m ∈ mods.toFinset.erase mod, s.recordSize m := by
      apply Finset.sum_congr rfl
      intro m hm
      unfold PatchState.recordSize
      rw [originals_rebind, if_neg (Finset.ne_of_mem_erase hm)]
    have hmem : mod ∈ mods.toFinset := List.mem_toFinset.mpr hmod
    rw [← Finset.add_sum_erase _ _ hmem, hself, hother, ← Finset.add_sum_erase _ s.recordSize hmem]
    omega

/-- No name of the module is left to rebind. -/
def Settled (env : (M → Dict String V) → NumpyEnv V) (conversions : Conversions) (s : PatchState M V) (mod : M) :
    Prop :=
  ∀ name value, (s.vars mod).get? name = some value →
    (env s.vars).replacement conversions name value = .ok none

theorem Settled.rebind (h : s.Settled env conversions mod) (hi : Inert env) {r : V} {c : Conversions}
    (hr : (env s.vars).replacement c name value = .ok (some r)) :
    (s.rebind m name value r).Settled env conversions mod := by
  intro j v hj
  rw [get?_rebind] at hj
  split_ifs at hj with hc
  · cases hj
    exact NumpyEnv.replacement_of_not_kind (hi.kinds _ _ _ _ _ _ hr) conversions j
  · exact hi.keeps _ (h j v hj)

theorem Rebinds.settled {n : ℕ} (h : Rebinds env conversions mods s t n) (hi : Inert env) {c : Conversions}
    (hs : s.Settled env c mod) : t.Settled env c mod := by
  induction h with
  | refl s => exact hs
  | step _ _ hr _ ih => exact ih (hs.rebind hi hr)

theorem Rebinds.keys {n : ℕ} (h : Rebinds env conversions mods s t n) : (t.vars m).keys = (s.vars m).keys := by
  induction h with
  | refl s => rfl
  | @step s t mod name value r n _ hvalue _ _ ih =>
    exact ih.trans (keys_setattr (s := s.remember mod name value) (Dict.mem_keys.mpr ⟨value, hvalue⟩))

/-- The loop touches the names it visits only. -/
theorem get?_patchNames {entries : List (String × V)} {count : ℕ} (hname : name ∉ entries.map Prod.fst) :
    ((patchNames env conversions mod entries s count).1.vars mod).get? name = (s.vars mod).get? name := by
  induction entries generalizing s count with
  | nil => rfl
  | cons e rest ih =>
    obtain ⟨hne, hrest⟩ := not_or.mp (mt List.mem_cons.mpr hname)
    rw [patchNames]
    split
    · rfl
    · exact ih hrest
    · exact (ih hrest).trans (get?_rebind.trans (if_neg fun hc => hne hc.2))

theorem patchNames_of_settled {entries : List (String × V)} {count : ℕ} (h : s.Settled env conversions mod)
    (hu : s.Unvisited mod entries) : patchNames env conversions mod entries s count = (s, .ok count) := by
  induction entries with
  | nil => rfl
  | cons e rest ih => rw [patchNames_keep (h e.1 e.2 (hu.2 e List.mem_cons_self)), ih hu.tail]

/-- A second pass over the names rebinds nothing, and stops where the first did. -/
theorem patchNames_again (hi : Inert env) {entries again : List (String × V)} {count : ℕ}
    (hu : s.Unvisited mod entries) (hkeys : again.map Prod.fst = entries.map Prod.fst)
    (hagain : (patchNames env conversions mod entries s count).1.Unvisited mod again) (k : ℕ) :
    patchNames env conversions mod again (patchNames env conversions mod entries s count).1 k =
      ((patchNames env conversions mod entries s count).1,
        (patchNames env conversions mod entries s count).2.map fun _ => k) := by
  induction entries generalizing again s count with
  | nil =>
    rw [List.map_nil, List.map_eq_nil_iff] at hkeys
    subst hkeys
    rfl
  | cons e rest ih =>
    obtain ⟨name, value⟩ := e
    obtain ⟨⟨j, now⟩, again, rfl⟩ : ∃ f gs, again = f :: gs := by
      cases again with
      | nil => cases hkeys
      | cons f gs => exact ⟨f, gs, rfl⟩
    obtain ⟨hj, htail⟩ := List.cons.inj hkeys
    change j = name at hj
    subst hj
    have hname : j ∉ rest.map Prod.fst := (List.nodup_cons.mp hu.1).1
    have hvalue : (s.vars mod).get? j = some value := hu.2 _ List.mem_cons_self
    have hnow := hagain.2 _ List.mem_cons_self
    cases hr : (env s.vars).replacement conversions j value with
    | error e =>
      rw [patchNames_raise hr] at hnow ⊢
      cases hvalue.symm.trans hnow
      exact patchNames_raise hr
    | ok o =>
      cases o with
      | none =>
        rw [patchNames_keep hr] at hnow hagain ⊢
        rw [get?_patchNames hname, hvalue] at hnow
        cases hnow
        rw [patchNames_keep (hi.keeps _ hr)]
        exact ih hu.tail htail hagain.tail
      | some r =>
        have hself : ((s.rebind mod j value r).vars mod).get? j = some r :=
          get?_rebind.trans (if_pos ⟨rfl, rfl⟩)
        rw [patchNames_rebind hr] at hnow hagain ⊢
        rw [get?_patchNames hname, hself] at hnow
        cases hnow
        rw [patchNames_keep (NumpyEnv.replacement_of_not_kind (hi.kinds _ _ _ _ _ _ hr) _ _)]
        exact ih hu.rebind htail hagain.tail

/-- A pass that adds nothing to the count finds nothing to rebind. -/
theorem replacement_of_patchNames {entries : List (String × V)} {count : ℕ} (hu : s.Unvisited mod entries)
    (h : (patchNames env conversions mod entries s count).2 = .ok count) {e : String × V} (he : e ∈ entries) :
    (env s.vars).replacement conversions e.1 e.2 = .ok none := by
  induction entries with
  | nil => cases he
  | cons f rest ih =>
    cases hr : (env s.vars).replacement conversions f.1 f.2 with
    | error e =>
      rw [patchNames_raise hr] at h
      cases h
    | ok o =>
      cases o with
      | none =>
        rw [patchNames_keep hr] at h
        rcases List.mem_cons.mp he with rfl | he
        · exact hr
        · exact ih hu.tail h he
      | some r =>
        rw [patchNames_rebind hr] at h
        obtain ⟨n, -, hn⟩ := patchNames_rebinds env conversions (List.mem_singleton_self mod)
          (hu.rebind (r := r)) (count+1)
        have := hn _ h
        omega

theorem settled_of_patchNames {count n : ℕ} (hi : Inert env)
    (h : patchNames env conversions mod (s.vars mod).entries s count = (t, .ok n)) :
    t.Settled env conversions mod := by
  obtain ⟨_, hrun, -⟩ := patchNames_rebinds env conversions (List.mem_singleton_self mod)
    (unvisited_entries (s := s)) count
  rw [h] at hrun
  have hcopy : (patchNames env conversions mod (s.vars mod).entries s count).1.Unvisited mod
      (t.vars mod).entries := by
    rw [h]
    exact unvisited_entries
  have hagain := patchNames_again hi unvisited_entries hrun.keys hcopy 0
  rw [h] at hagain
  intro name value hvalue
  exact replacement_of_patchNames unvisited_entries (congrArg Prod.snd hagain) (Dict.get?_eq_some.mp hvalue)

theorem patchModules_of_settled {count : ℕ} (h : ∀ mod ∈ mods, s.Settled env conversions mod) :
    patchModules env conversions mods s count = (s, .ok count) := by
  induction mods with
  | nil => rfl
  | cons mod rest ih =>
    rw [patchModules, patchNames_of_settled (h mod List.mem_cons_self) unvisited_entries]
    exact ih fun m hm => h m (List.mem_cons_of_mem _ hm)

theorem settled_of_patchModules {count n : ℕ} (hi : Inert env)
    (h : patchModules env conversions mods s count = (t, .ok n)) {m : M} (hm : m ∈ mods) :
    t.Settled env conversions m := by
  induction mods generalizing s count with
  | nil => cases hm
  | cons mod rest ih =>
    rw [patchModules] at h
    split at h
    · cases h
    · rename_i u k hk
      rcases List.mem_cons.mp hm with rfl | hm
      · -- settled by its own visit, and left so by the visits that follow
        obtain ⟨_, hrun, -⟩ := patchModules_rebinds env conversions u (List.Subset.refl rest) k
        rw [h] at hrun
        exact hrun.settled hi (settled_of_patchNames hi hk)
      · exact ih h hm

/-- A second call over the same modules rebinds nothing, and raises where the first did. -/
theorem patchModules_again (hi : Inert env) (conversions : Conversions) (mods : List M) (s : PatchState M V)
    (count k : ℕ) :
    patchModules env conversions mods (patchModules env conversions mods s count).1 k =
      ((patchModules env conversions mods s count).1,
        (patchModules env conversions mods s count).2.map fun _ => k) := by
  induction mods generalizing s count with
  | nil => rfl
  | cons mod rest ih =>
    obtain ⟨_, hrun, -⟩ := patchNames_rebinds env conversions (List.mem_singleton_self mod)
      (unvisited_entries (s := s)) count
    cases hfirst : patchNames env conversions mod (s.vars mod).entries s count with
    | mk u res =>
      rw [hfirst] at hrun
      cases res with
      | error e =>
        have hvisit : patchModules env conversions (mod :: rest) s count = (u, .error e) := by
          rw [patchModules, hfirst]
        have hcopy : (patchNames env conversions mod (s.vars mod).entries s count).1.Unvisited mod
            (u.vars mod).entries := by
          rw [hfirst]
          exact unvisited_entries
        have hagain := patchNames_again hi unvisited_entries hrun.keys hcopy k
        rw [hfirst] at hagain
        rw [hvisit, patchModules, hagain]
        rfl
      | ok n =>
        have hvisit : patchModules env conversions (mod :: rest) s count =
            patchModules env conversions rest u n := by
          rw [patchModules, hfirst]
        obtain ⟨_, hrest, -⟩ := patchModules_rebinds env conversions u (List.Subset.refl rest) n
        have hsettled := hrest.settled hi (settled_of_patchNames hi hfirst)
        rw [hvisit, patchModules, patchNames_of_settled hsettled unvisited_entries]
        exact ih u n

variable (interp : Interp M)

variable (env) in
/-- What `patch_module` does to bindings and record. -/
theorem patchModule_spec (s : PatchState M V) (module : M) (recursive : Bool) (conversions : Conversions) :
    ∃ t n active numpyActive, Rebinds env conversions (interp.packageModules module recursive) s t n ∧
      patchModules env conversions (interp.packageModules module recursive) s 0 =
        (t, (s.patchModule interp env module recursive conversions).2) ∧
      (s.patchModule interp env module recursive conversions).1 =
        {t with patchActive := active, numpyConversionsActive := numpyActive} ∧
      ∀ k, (s.patchModule interp env module recursive conversions).2 = .ok k → k = n := by
  obtain ⟨n, hrun, hn⟩ := patchModules_rebinds env conversions s
    (List.Subset.refl (interp.packageModules module recursive)) 0
  unfold patchModule
  split
  · rename_i t e he
    rw [he] at hrun
    exact ⟨t, n, _, _, hrun, he, rfl, nofun⟩
  · rename_i t k hk
    rw [hk] at hrun hn
    refine ⟨t, n, _, _, hrun, hk, rfl, fun j hj => ?_⟩
    have := hn k rfl
    cases hj
    omega

variable (env) in
theorem patchModule_remembers (h : s.Remembers original) (module : M) (recursive : Bool)
    (conversions : Conversions) :
    (s.patchModule interp env module recursive conversions).1.Remembers original := by
  obtain ⟨t, n, _, _, hrun, -, heq, -⟩ := patchModule_spec env interp s module recursive conversions
  have ht := hrun.remembers h
  rw [heq]
  exact ⟨ht.keys, ht.unrecorded, ht.recorded⟩

theorem patchModule_marked (hi : Inert env) (h : s.Marked env) (module : M) (recursive : Bool)
    (conversions : Conversions) : (s.patchModule interp env module recursive conversions).1.Marked env := by
  obtain ⟨t, n, _, _, hrun, -, heq, -⟩ := patchModule_spec env interp s module recursive conversions
  rw [heq]
  exact hrun.marked hi h

/-- A rule for all calls: what both loops keep, every call keeps. -/
theorem call_induction (P : PatchState M V → Prop)
    (hpatch : ∀ s module recursive conversions, P s →
      P (s.patchModule interp env module recursive conversions).1)
    (hunpatch : ∀ s module recursive, P s → P (s.unpatchModule interp module recursive).1)
    (calls : List (PatchCall M)) (h : P s) : P (s.run interp env calls) := by
  induction calls generalizing s with
  | nil => exact h
  | cons c rest ih =>
    apply ih
    cases c with
    | patchModule m recursive conversions => exact hpatch s m recursive conversions h
    | unpatchModule m recursive => exact hunpatch s m recursive h
    | setPatched m enabled recursive conversions =>
      change P (s.setPatched interp env m enabled recursive conversions).1
      rw [setPatched]
      split_ifs
      · have hp := hpatch s m recursive conversions h
        split <;> rename_i heq <;> rwa [heq] at hp
      · exact hunpatch s m recursive h
      · exact h

theorem run_remembers (vars : M → Dict String V) (calls : List (PatchCall M)) :
    ((fresh vars).run interp env calls).Remembers vars :=
  call_induction interp (·.Remembers vars) (fun _ m r c h => patchModule_remembers env interp h m r c)
    (fun _ m r h => h.unpatchModule interp m r) calls ⟨fun _ => rfl, fun _ _ _ => rfl, nofun⟩

theorem run_marked (hi : Inert env) (vars : M → Dict String V) (calls : List (PatchCall M)) :
    ((fresh vars).run interp env calls).Marked env :=
  call_induction interp (·.Marked env) (fun _ m r c h => patchModule_marked interp hi h m r c)
    (fun _ m r h => h.unpatchModule interp m r) calls nofun

theorem patchModule_of_settled {module : M} {recursive : Bool}
    (h : ∀ mod ∈ interp.packageModules module recursive, s.Settled env conversions mod) :
    s.patchModule interp env module recursive conversions =
      ({s with patchActive := s.patchActive || !s.patched.entries.isEmpty}, .ok 0) := by
  rw [patchModule, patchModules_of_settled h]
  simp

/-- After a call that returns, no name of the package is left to rebind. -/
theorem settled_of_patchModule (hi : Inert env) {module : M} {recursive : Bool} {n : ℕ}
    (h : (s.patchModule interp env module recursive conversions).2 = .ok n)
    (hm : m ∈ interp.packageModules module recursive) :
    (s.patchModule interp env module recursive conversions).1.Settled env conversions m := by
  obtain ⟨t, _, _, _, -, hloop, heq, -⟩ := patchModule_spec env interp s module recursive conversions
  rw [h] at hloop
  rw [heq]
  exact settled_of_patchModules hi hloop hm

theorem patchModule_raise {module : M} {recursive : Bool} {e : String}
    (h : patchModules env conversions (interp.packageModules module recursive) s 0 = (t, .error e)) :
    s.patchModule interp env module recursive conversions = (t, .error e) := by
  rw [patchModule, h]

theorem patchModule_again (hi : Inert env) (s : PatchState M V) (module : M) (recursive : Bool)
    (conversions : Conversions) :
    (s.patchModule interp env module recursive conversions).1.patchModule interp env module recursive conversions =
      ((s.patchModule interp env module recursive conversions).1,
        (s.patchModule interp env module recursive conversions).2.map fun _ => 0) := by
  cases hres : (s.patchModule interp env module recursive conversions).2 with
  | ok n =>
    rw [patchModule_of_settled interp fun mod hm => settled_of_patchModule interp hi hres hm]
    refine Prod.ext ?_ rfl
    rw [patchModule] at hres ⊢
    split at hres
    · cases hres
    · simp
  | error e =>
    obtain ⟨t, _, _, _, -, hloop, -, -⟩ := patchModule_spec env interp s module recursive conversions
    rw [hres] at hloop
    have hagain := patchModules_again hi conversions (interp.packageModules module recursive) s 0 0
    rw [hloop] at hagain
    rw [patchModule_raise interp hloop]
    exact patchModule_raise interp hagain

/-- Patching a package with nothing recorded, and unpatching it, count the same names. -/
theorem unpatchModule_count (hi : Inert env) (hs : s.Marked env) {module : M} {recursive : Bool} {n : ℕ}
    (hfresh : ∀ mod ∈ interp.packageModules module recursive, mod ∉ s.patched.keys)
    (h : (s.patchModule interp env module recursive conversions).2 = .ok n) :
    ((s.patchModule interp env module recursive conversions).1.unpatchModule interp module recursive).2 = n := by
  obtain ⟨t, k, _, _, hrun, -, heq, hk⟩ := patchModule_spec env interp s module recursive conversions
  have hempty : ∑ m ∈ (interp.packageModules module recursive).toFinset, s.recordSize m = 0 := by
    apply Finset.sum_eq_zero
    intro m hm
    rw [PatchState.recordSize, originals, Dict.get?_eq_none.mpr (hfresh m (List.mem_toFinset.mp hm))]
    rfl
  have hcount := hrun.recordSize hi hs
  rw [hempty, zero_add] at hcount
  rw [heq, hk n h, ← hcount, count_unpatchModule]
  rfl

end PatchState

open PatchState

/-- After any calls, what is not recorded has its original binding and what is recorded is the
original. So unpatching gives a package its own bindings back, and, replacement objects being
inert, patching again rebinds nothing and unpatching counts what patching counted. -/
theorem patch_remembers_originals {M V : Type*} [DecidableEq M] [DecidableEq V] (interp : Interp M)
    (env : (M → Dict String V) → NumpyEnv V) (vars : M → Dict String V) (calls : List (PatchCall M)) :
    let s := (fresh vars).run interp env calls
    (∀ m name, (s.originals m).get? name = none → (s.vars m).get? name = (vars m).get? name) ∧
    (∀ m name value, (s.originals m).get? name = some value → (vars m).get? name = some value) ∧
    (∀ module recursive, ∀ m ∈ interp.packageModules module recursive,
      (s.unpatchModule interp module recursive).1.vars m = vars m) ∧
    (Inert env → ∀ module recursive conversions,
      let once := s.patchModule interp env module recursive conversions
      (once.1.patchModule interp env module recursive conversions = (once.1, once.2.map fun _ => 0)) ∧
      ((∀ m ∈ interp.packageModules module recursive, m ∉ s.patched.keys) →
        ∀ n, once.2 = .ok n → (once.1.unpatchModule interp module recursive).2 = n)) := by
  intro s
  have hs : s.Remembers vars := run_remembers interp vars calls
  refine ⟨hs.unrecorded, hs.recorded, fun module recursive m hm => hs.vars_unpatchModule hm, ?_⟩
  intro hi module recursive conversions
  have hmarked : s.Marked env := run_marked interp hi vars calls
  exact ⟨patchModule_again interp hi s module recursive conversions,
    fun hfresh n hn => unpatchModule_count interp hi hmarked hfresh hn⟩

inductive DemoObject where
  | pyNone | numpy | ndarray | add | asarray | namespace | toNumpy | anyNdarray | laAdd | laAsarray
  | addProxy | addDispatch
  deriving DecidableEq

inductive DemoModule where
  | pkg | sub
  deriving DecidableEq

def demoEnv : NumpyEnv DemoObject where
  pyNone := .pyNone
  np := .numpy
  ndarray := .ndarray
  callable v := v ∈ [.ndarray, .add, .asarray, .anyNdarray, .laAdd, .laAsarray, .addProxy, .addDispatch]
  isType v := v ∈ [.ndarray, .anyNdarray]
  isUfunc v := v = .add
  moduleName
    | .numpy => some "numpy"
    | .namespace | .toNumpy => some "lightarray"
    | _ => none
  dunderModule
    | .ndarray | .add | .asarray => "numpy"
    | _ => "lightarray"
  dunderName
    | .ndarray | .anyNdarray => "ndarray"
    | .add | .laAdd | .addProxy | .addDispatch => "add"
    | .asarray | .laAsarray => "asarray"
    | _ => ""
  npAttr name :=
    if name = "add" then some .add
    else if name = "asarray" then some .asarray
    else if name = "ndarray" then some .ndarray
    else none
  thisAttr name :=
    if name = "add" then some .laAdd else if name = "asarray" then some .laAsarray else none
  proxyAttr _ := none
  namespaceForPackages := .namespace
  conversionsToNumpy := .toNumpy
  anyNdarray := .anyNdarray
  dispatch _ _ := .addDispatch
  typePreservingUfunc _ _ := .addDispatch
  ufuncProxy _ _ := .addProxy

def demoInterp : Interp DemoModule where
  name
    | .pkg => some "pkg"
    | .sub => some "pkg.sub"
  file _ := none
  loaded := ⟨[("pkg", some .pkg), ("pkg.sub", some .sub)], by decide⟩
  siblings _ := []

def demoVars : DemoModule → Dict String DemoObject
  | .pkg => ⟨[("np", .numpy), ("add", .add), ("asarray", .asarray)], by decide⟩
  | .sub => ⟨[("np", .numpy), ("ndarray", .ndarray)], by decide⟩

/-- No object of the demonstration but NumPy's own is of a kind that is replaced. -/
theorem demoEnv_kind {v : DemoObject} (h : demoEnv.NumpyKind v) :
    v ∈ [DemoObject.numpy, .ndarray, .add, .asarray] := by
  have hattr {name : String} (hname : demoEnv.npAttr name = some v) :
      v ∈ [DemoObject.numpy, .ndarray, .add, .asarray] := by
    simp only [demoEnv] at hname
    split_ifs at hname <;> cases hname <;> decide
  obtain rfl | rfl | hufunc | ⟨modName, hname, hstart⟩ | ⟨-, -, hmod | ⟨name, hname⟩⟩ := h
  · decide
  · decide
  · cases v <;> first | decide | cases hufunc
  · cases v <;> cases hname <;> cases hstart
  · cases v <;> first | decide | cases hmod
  · exact hattr hname

theorem demoEnv_standIn {v : DemoObject} (h : demoEnv.StandIn v) :
    v ∉ [DemoObject.numpy, .ndarray, .add, .asarray] := by
  cases h with
  | module conversions => cases conversions <;> decide
  | attr h =>
    simp only [demoEnv] at h
    split_ifs at h <;> cases h <;> decide
  | proxied h => cases h
  | anyNdarray => decide
  | dispatch =>
    show DemoObject.addDispatch ∉ _
    decide
  | typePreservingUfunc =>
    show DemoObject.addDispatch ∉ _
    decide
  | ufuncProxy =>
    show DemoObject.addProxy ∉ _
    decide

theorem demoEnv_inert : Inert (M := DemoModule) fun _ => demoEnv where
  kinds _ _ _ _ _ _ hr hkind := demoEnv_standIn (NumpyEnv.standIn_replacement hr) (demoEnv_kind hkind)
  steady _ _ _ _ _ := rfl

/-- `pkg` around a submodule that is patched already. -/
theorem patch_remembers_originals_pkg :
    let s := (fresh demoVars).run demoInterp (fun _ => demoEnv) [.setPatched .sub true true .lightarray]
    let once := s.patchModule demoInterp (fun _ => demoEnv) .pkg true .numpy
    let shallow := s.patchModule demoInterp (fun _ => demoEnv) .pkg false .numpy
    s.vars .sub ≠ demoVars .sub ∧ (s.unpatchModule demoInterp .pkg true).1.vars .sub = demoVars .sub ∧
      once.2 = .ok 2 ∧ (once.1.patchModule demoInterp (fun _ => demoEnv) .pkg true .numpy).2 = .ok 0 ∧
      (shallow.1.unpatchModule demoInterp .pkg false).2 = 2 := by
  intro s once shallow
  obtain ⟨-, -, hunpatch, hinert⟩ := patch_remembers_originals demoInterp (fun _ => demoEnv) demoVars
    [.setPatched .sub true true .lightarray]
  have honce : once.2 = .ok 2 := by decide
  obtain ⟨hagain, -⟩ := hinert demoEnv_inert .pkg true .numpy
  obtain ⟨-, hcount⟩ := hinert demoEnv_inert .pkg false .numpy
  refine ⟨by decide, hunpatch .pkg true .sub (by decide), honce, ?_, hcount (by decide) 2 (by decide)⟩
  exact (congrArg Prod.snd hagain).trans (by rw [honce]; rfl)

end LightArray
