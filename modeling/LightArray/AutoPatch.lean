import LightArray.PatchRun
import Mathlib.Data.List.DropRight

namespace LightArray

/-- The characters `str.strip` removes. -/
def isSpace (c : Char) : Bool :=
  let n := c.toNat
  9 ≤ n && n ≤ 13 || 28 ≤ n && n ≤ 32 || n = 0x85 || n = 0xa0 || n = 0x1680 || 0x2000 ≤ n && n ≤ 0x200a ||
    n = 0x2028 || n = 0x2029 || n = 0x202f || n = 0x205f || n = 0x3000

/-- `s.strip()`. -/
def strip (s : List Char) : List Char := (s.dropWhile isSpace).rdropWhile isSpace

/-- `entry.partition(":")`, the name and the mode stripped; nothing for a blank entry. -/
def autoEntry (entry : List Char) : Option (String × String) :=
  let entry := strip entry
  if entry = [] then none
  else
    let name := strip (entry.takeWhile (· ≠ ':'))
    let mode := strip (entry.dropWhile (· ≠ ':')).tail
    some (String.ofList name, if mode = [] then "lightarray" else String.ofList mode)

/-- `modes` of `_auto_patch_from_environment`. -/
def autoModes (setting : String) : Dict String String :=
  ((setting.toList.splitOn ',').filterMap autoEntry).foldl (fun modes entry => modes.set entry.1 entry.2) .empty

/-- `patch_module` compares its `conversions` with `"numpy"` only. -/
def conversionsOf (mode : String) : Conversions := if mode = "numpy" then .numpy else .lightarray

/-- Text without separators that stripping leaves alone. -/
def Plain (s : List Char) : Prop := strip s = s ∧ ',' ∉ s ∧ ':' ∉ s

instance (s : List Char) : Decidable (Plain s) := inferInstanceAs (Decidable (_ ∧ _ ∧ _))

/-- The ways to write one entry. -/
inductive Written : List Char → Option (String × String) → Prop
  | blank {s : List Char} (h : ∀ c ∈ s, isSpace c) : Written s none
  | package {left name right : List Char} (hl : ∀ c ∈ left, isSpace c) (hr : ∀ c ∈ right, isSpace c)
      (hname : Plain name) (hne : name ≠ []) :
      Written (left ++ name ++ right) (some (String.ofList name, "lightarray"))
  | mode {left name right left' mode right' : List Char} (hl : ∀ c ∈ left, isSpace c) (hr : ∀ c ∈ right, isSpace c)
      (hl' : ∀ c ∈ left', isSpace c) (hr' : ∀ c ∈ right', isSpace c) (hname : Plain name) (hmode : Plain mode)
      (hne : mode ≠ []) :
      Written (left ++ name ++ right ++ ':' :: (left' ++ mode ++ right')) (some (String.ofList name, String.ofList mode))

section setting

variable {s left right name mode : List Char}

theorem comma_not_space (h : ∀ c ∈ s, isSpace c) : ',' ∉ s := fun hc => absurd (h ',' hc) (by decide)

theorem colon_not_space (h : ∀ c ∈ s, isSpace c) : ':' ∉ s := fun hc => absurd (h ':' hc) (by decide)

theorem strip_blank (h : ∀ c ∈ s, isSpace c) : strip s = [] := by
  rw [strip, List.dropWhile_eq_nil_iff.mpr h, List.rdropWhile_nil]

theorem rdropWhile_blank (h : ∀ c ∈ right, isSpace c) : (s ++ right).rdropWhile isSpace = s.rdropWhile isSpace := by
  induction right using List.reverseRecOn with
  | nil => rw [List.append_nil]
  | append_singleton right c ih =>
    have hright : ∀ c ∈ right, isSpace c := fun d hd => h d (List.mem_append_left _ hd)
    have hc : isSpace c := h c (List.mem_append_right _ (List.mem_singleton_self c))
    rw [← List.append_assoc, List.rdropWhile_concat_pos _ _ _ hc, ih hright]

theorem dropWhile_blank (h : ∀ c ∈ left, isSpace c) : (left ++ s).dropWhile isSpace = s.dropWhile isSpace := by
  rw [List.dropWhile_append, List.dropWhile_eq_nil_iff.mpr h]
  rfl

theorem strip_pad_left (h : ∀ c ∈ left, isSpace c) : strip (left ++ s) = strip s := by
  rw [strip, dropWhile_blank h, strip]

theorem strip_pad_right (h : ∀ c ∈ right, isSpace c) : strip (s ++ right) = strip s := by
  rw [strip, strip, List.dropWhile_append]
  split_ifs with hs
  · have hblank : s.dropWhile isSpace = [] := List.isEmpty_iff.mp hs
    rw [hblank, List.dropWhile_eq_nil_iff.mpr h]
  · exact rdropWhile_blank h

theorem strip_pad (hl : ∀ c ∈ left, isSpace c) (hr : ∀ c ∈ right, isSpace c) : strip (left ++ s ++ right) = strip s := by
  rw [List.append_assoc, strip_pad_left hl, strip_pad_right hr]

theorem strip_dropWhile (s : List Char) : strip (s.dropWhile isSpace) = strip s := by
  rw [strip, strip, List.dropWhile_idempotent]

theorem strip_rdropWhile (s : List Char) : strip (s.rdropWhile isSpace) = strip s := by
  have hsplit : s.rdropWhile isSpace ++ s.rtakeWhile isSpace = s := List.rdropWhile_append_rtakeWhile
  have hblank : ∀ c ∈ s.rtakeWhile isSpace, isSpace c := fun _ hc => List.mem_rtakeWhile_imp hc
  calc strip (s.rdropWhile isSpace)
      = strip (s.rdropWhile isSpace ++ s.rtakeWhile isSpace) := (strip_pad_right hblank).symm
    _ = strip s := by rw [hsplit]

/-- Stripping stops at a character that is no space on both sides. -/
theorem strip_append_cons {c : Char} (hc : isSpace c = false) (a b : List Char) :
    strip (a ++ c :: b) = a.dropWhile isSpace ++ c :: b.rdropWhile isSpace := by
  have hright (x : List Char) : (x ++ c :: b).rdropWhile isSpace = x ++ c :: b.rdropWhile isSpace := by
    induction b using List.reverseRecOn with
    | nil => rw [List.rdropWhile_concat_neg _ _ _ (by simp [hc]), List.rdropWhile_nil]
    | append_singleton b d ih =>
      rw [← List.cons_append, ← List.append_assoc, List.rdropWhile_concat, List.rdropWhile_concat, ih]
      by_cases hd : isSpace d
      · rw [if_pos hd, if_pos hd]
      · rw [if_neg hd, if_neg hd, List.append_assoc, List.cons_append]
  have hleft : (a ++ c :: b).dropWhile isSpace = a.dropWhile isSpace ++ c :: b := by
    rw [List.dropWhile_append, List.dropWhile_cons_of_neg (by simp [hc])]
    split_ifs with ha
    · rw [List.isEmpty_iff.mp ha, List.nil_append]
    · rfl
  rw [strip, hleft, hright]

theorem takeWhile_colon (h : ':' ∉ s) (t : List Char) : (s ++ ':' :: t).takeWhile (· ≠ ':') = s := by
  have hs : ∀ c ∈ s, (decide (c ≠ ':')) = true := fun c hc => decide_eq_true fun he => h (he ▸ hc)
  rw [List.takeWhile_append_of_pos hs]
  simp

theorem dropWhile_colon (h : ':' ∉ s) (t : List Char) : (s ++ ':' :: t).dropWhile (· ≠ ':') = ':' :: t := by
  have hs : ∀ c ∈ s, (decide (c ≠ ':')) = true := fun c hc => decide_eq_true fun he => h (he ▸ hc)
  rw [List.dropWhile_append_of_pos hs]
  simp

theorem takeWhile_plain (h : ':' ∉ s) : s.takeWhile (· ≠ ':') = s := by
  rw [List.takeWhile_eq_self_iff]
  exact fun c hc => decide_eq_true fun he => h (he ▸ hc)

theorem dropWhile_plain (h : ':' ∉ s) : s.dropWhile (· ≠ ':') = [] := by
  rw [List.dropWhile_eq_nil_iff]
  exact fun c hc => decide_eq_true fun he => h (he ▸ hc)

theorem Written.comma_not_mem {entry : Option (String × String)} (h : Written s entry) : ',' ∉ s := by
  cases h with
  | blank h => exact comma_not_space h
  | package hl hr hname =>
    simp only [List.mem_append, not_or]
    exact ⟨⟨comma_not_space hl, hname.2.1⟩, comma_not_space hr⟩
  | mode hl hr hl' hr' hname hmode =>
    simp only [List.mem_append, List.mem_cons, not_or]
    exact ⟨⟨⟨comma_not_space hl, hname.2.1⟩, comma_not_space hr⟩, by decide,
      ⟨comma_not_space hl', hmode.2.1⟩, comma_not_space hr'⟩

/-- An entry is read as it was written. -/
theorem Written.autoEntry {entry : Option (String × String)} (h : Written s entry) : autoEntry s = entry := by
  cases h with
  | blank h => rw [LightArray.autoEntry, strip_blank h, if_pos rfl]
  | @package left name right hl hr hname hne =>
    have hstrip : strip (left ++ name ++ right) = name := (strip_pad hl hr).trans hname.1
    simp only [LightArray.autoEntry, hstrip, if_neg hne, takeWhile_plain hname.2.2, dropWhile_plain hname.2.2, hname.1]
    rfl
  | @mode left name right left' mode right' hl hr hl' hr' hname hmode hne =>
    have hcolon : ':' ∉ (left ++ name ++ right).dropWhile isSpace := by
      intro hc
      have hmem := List.dropWhile_subset _ hc
      simp only [List.mem_append] at hmem
      rcases hmem with (hmem | hmem) | hmem
      · exact colon_not_space hl hmem
      · exact hname.2.2 hmem
      · exact colon_not_space hr hmem
    have hstrip : strip (left ++ name ++ right ++ ':' :: (left' ++ mode ++ right')) =
        (left ++ name ++ right).dropWhile isSpace ++ ':' :: (left' ++ mode ++ right').rdropWhile isSpace :=
      strip_append_cons (by decide) _ _
    have hread : strip ((left ++ name ++ right).dropWhile isSpace) = name := by
      rw [strip_dropWhile, strip_pad hl hr, hname.1]
    have hreadMode : strip ((left' ++ mode ++ right').rdropWhile isSpace) = mode := by
      rw [strip_rdropWhile, strip_pad hl' hr', hmode.1]
    simp only [LightArray.autoEntry, hstrip, takeWhile_colon hcolon, dropWhile_colon hcolon, List.tail_cons, hread,
      hreadMode, if_neg hne, List.append_eq_nil_iff, reduceCtorEq, and_false, if_false]

end setting

/-- However a setting is written, blank entries and all, each package gets the mode of the
last entry that names it. -/
theorem autoModes_written {items : List (List Char × Option (String × String))} (hne : items ≠ [])
    (h : ∀ item ∈ items, Written item.1 item.2) (name : String) :
    (autoModes (String.ofList ([','].intercalate (items.map Prod.fst)))).get? name =
      ((items.filterMap Prod.snd).reverse.find? (·.1 = name)).map Prod.snd := by
  have hcomma : ∀ s ∈ items.map Prod.fst, ',' ∉ s := by
    intro s hs
    obtain ⟨item, hitem, rfl⟩ := List.mem_map.mp hs
    exact (h item hitem).comma_not_mem
  have hsplit : ([','].intercalate (items.map Prod.fst)).splitOn ',' = items.map Prod.fst :=
    List.splitOn_intercalate ',' hcomma (fun hnil => hne (List.map_eq_nil_iff.mp hnil))
  have hentries : (items.map Prod.fst).filterMap autoEntry = items.filterMap Prod.snd := by
    rw [List.filterMap_map]
    exact List.filterMap_congr fun item hitem => (h item hitem).autoEntry
  rw [autoModes, String.toList_ofList, hsplit, hentries, Dict.get?_foldl_set, Dict.get?_empty, Option.or_none]

/-- `" lmfit ,,scipy: numpy,lmfit:numpy"`, entry by entry. -/
def repeatedSetting : List (List Char × Option (String × String)) :=
  [(" lmfit ".toList, some ("lmfit", "lightarray")), ([], none), ("scipy: numpy".toList, some ("scipy", "numpy")),
    ("lmfit:numpy".toList, some ("lmfit", "numpy"))]

theorem autoModes_written_repeated :
    (autoModes (String.ofList ([','].intercalate (repeatedSetting.map Prod.fst)))).get? "lmfit" = some "numpy" := by
  have hnone : ∀ c ∈ ([] : List Char), isSpace c := List.forall_mem_nil _
  have hspace : ∀ c ∈ [' '], isSpace c := List.forall_mem_singleton.mpr rfl
  have hlmfit : Written " lmfit ".toList (some ("lmfit", "lightarray")) :=
    @Written.package [' '] "lmfit".toList [' '] hspace hspace (by decide) (by decide)
  have hscipy : Written "scipy: numpy".toList (some ("scipy", "numpy")) :=
    @Written.mode [] "scipy".toList [] [' '] "numpy".toList [] hnone hnone hspace hnone (by decide) (by decide) (by decide)
  have hagain : Written "lmfit:numpy".toList (some ("lmfit", "numpy")) :=
    @Written.mode [] "lmfit".toList [] [] "numpy".toList [] hnone hnone hnone hnone (by decide) (by decide) (by decide)
  have hwritten : ∀ item ∈ repeatedSetting, Written item.1 item.2 := by
    simp only [repeatedSetting, List.forall_mem_cons, List.not_mem_nil, false_implies, implies_true, and_true]
    exact ⟨hlmfit, .blank hnone, hscipy, hagain⟩
  exact autoModes_written (List.cons_ne_nil _ _) hwritten "lmfit"

/-- `name.partition(".")[0]`. -/
def rootName (name : String) : String := String.ofList (name.toList.takeWhile (· ≠ '.'))

/-- The interpreter's modules and what patching did to them. -/
structure Session (M V : Type*) where
  interp : Interp M
  patch : PatchState M V

/-- What a running program does: `sys.modules` and module attributes change, and import
statements complete, nested ones first. -/
inductive ProgramEvent (M V : Type*) where
  | register (name : String) (module : Option M)
  | unregister (name : String)
  | bind (module : M) (name : String) (value : V)
  | unbind (module : M) (name : String)
  | imported (name importer : String)

namespace ProgramEvent

variable {M V : Type*}

/-- The event binds a name of the module. -/
def Binds (mod : M) : ProgramEvent M V → Prop
  | .bind module _ _ => module = mod
  | _ => False

variable [DecidableEq M]

/-- The bindings of a program nobody patches. -/
def own (vars : M → Dict String V) : ProgramEvent M V → M → Dict String V
  | .bind module name value => Function.update vars module ((vars module).set name value)
  | .unbind module name => Function.update vars module ((vars module).erase name)
  | _ => vars

/-- What the program binds in one module depends on that module only. -/
theorem own_congr {vars vars' : M → Dict String V} {mod : M} (h : vars mod = vars' mod) (event : ProgramEvent M V) :
    event.own vars mod = event.own vars' mod := by
  cases event with
  | bind module name value =>
    simp only [own, Function.update_apply]
    split_ifs with hm
    · rw [← hm, h]
    · exact h
  | unbind module name =>
    simp only [own, Function.update_apply]
    split_ifs with hm
    · rw [← hm, h]
    · exact h
  | register name module => exact h
  | unregister name => exact h
  | imported name importer => exact h

def ownAll (vars : M → Dict String V) (events : List (ProgramEvent M V)) : M → Dict String V := events.foldl own vars

end ProgramEvent

namespace Interp

variable {M V : Type*} (interp : Interp M)

/-- `sys.modules.get(root)`. -/
def package (root : String) : Option M := (interp.loaded.get? root).join

def step : ProgramEvent M V → Interp M
  | .register name module => {interp with loaded := interp.loaded.set name module}
  | .unregister name => {interp with loaded := interp.loaded.erase name}
  | _ => interp

def stepAll (events : List (ProgramEvent M V)) : Interp M := events.foldl step interp

variable [DecidableEq M]

/-- The modules `_patch_now(root)` visits. -/
def visited (root : String) : List M := ((interp.package root).map (interp.packageModules · true)).getD []

end Interp

/-- The test of `_import`. -/
def Triggers (modes : Dict String String) (name importer : String) : Prop :=
  rootName name ∈ modes.keys ∧ rootName importer ≠ rootName name

instance (modes : Dict String String) (name importer : String) : Decidable (Triggers modes name importer) :=
  inferInstanceAs (Decidable (_ ∧ _))

/-- The mode `_patch_now(root)` asks for. -/
def modeOf (modes : Dict String String) (root : String) : Conversions :=
  conversionsOf ((modes.get? root).getD "lightarray")

namespace Session

variable {M V : Type*} [DecidableEq M] [DecidableEq V]
variable (env : (M → Dict String V) → NumpyEnv V) (modes : Dict String String)

/-- `_patch_now`. -/
def patchNow (s : Session M V) (root : String) : Session M V × Except String Unit :=
  match s.interp.package root with
  | none => (s, .ok ())
  | some mod =>
    match s.patch.patchModule s.interp env mod true (modeOf modes root) with
    | (t, result) => ({s with patch := t}, result.map fun _ => ())

/-- What `_import` does once the original import has returned. -/
def afterImport (s : Session M V) (name importer : String) : Session M V × Except String Unit :=
  if Triggers modes name importer then s.patchNow env modes (rootName name) else (s, .ok ())

/-- The state an event leaves, also when the hook raises out of the import statement. -/
def step (s : Session M V) : ProgramEvent M V → Session M V
  | .imported name importer => (s.afterImport env modes name importer).1
  | event => ⟨s.interp.step event, {s.patch with vars := event.own s.patch.vars}⟩

def run (s : Session M V) (events : List (ProgramEvent M V)) : Session M V := events.foldl (step env modes) s

/-- The loop over the names that are loaded already. -/
def patchLoaded : List String → Session M V → Session M V × Except String Unit
  | [], s => (s, .ok ())
  | root :: rest, s =>
    match s.patchNow env modes root with
    | (t, .error e) => (t, .error e)
    | (t, .ok _) => patchLoaded rest t

/-- `_auto_patch_from_environment`; the value is the `modes` of the hook it installs. -/
def autoPatch (s : Session M V) (setting : String) : Session M V × Except String (Dict String String) :=
  let modes := autoModes setting
  match patchLoaded env modes modes.keys s with
  | (t, result) => (t, result.map fun _ => modes)

end Session

namespace PatchState

variable {M V : Type*} [DecidableEq M] [DecidableEq V] {env : (M → Dict String V) → NumpyEnv V}
variable {s t : PatchState M V} {mods : List M} {m mod : M} {conversions : Conversions} {n : ℕ} {own : M → Dict String V}

theorem Rebinds.vars_of_not_mem (h : Rebinds env conversions mods s t n) (hm : m ∉ mods) : t.vars m = s.vars m := by
  induction h with
  | refl s => rfl
  | @step s t mod name value r n hmod _ _ _ ih =>
    have hne : m ≠ mod := fun he => hm (he ▸ hmod)
    exact ih.trans ((vars_setattr (s := s.remember mod name value)).trans (if_neg hne))

/-- Every module has the names the program gave it, each bound to the program's own object or
to a replacement of that object. -/
structure Tracks (env : (M → Dict String V) → NumpyEnv V) (own : M → Dict String V) (s : PatchState M V) : Prop where
  keys : ∀ mod, (s.vars mod).keys = (own mod).keys
  binding : ∀ mod name value, (own mod).get? name = some value → (s.vars mod).get? name = some value ∨
    ∃ b conversions r, (env b).replacement conversions name value = .ok (some r) ∧ (s.vars mod).get? name = some r

omit [DecidableEq M] in
theorem tracks_vars (env : (M → Dict String V) → NumpyEnv V) (s : PatchState M V) : s.Tracks env s.vars :=
  ⟨fun _ => rfl, fun _ _ _ h => .inl h⟩

theorem Tracks.rebind (h : s.Tracks env own) (hi : Inert env) {name : String} {value r : V}
    (hvalue : (s.vars m).get? name = some value)
    (hr : (env s.vars).replacement conversions name value = .ok (some r)) : (s.rebind m name value r).Tracks env own := by
  have hkey : name ∈ ((s.remember m name value).vars m).keys := Dict.mem_keys.mpr ⟨value, hvalue⟩
  refine ⟨fun mod => (keys_setattr hkey).trans (h.keys mod), fun mod j v hj => ?_⟩
  rw [get?_rebind]
  split_ifs with hc
  · obtain ⟨rfl, rfl⟩ := hc
    rcases h.binding mod j v hj with hsame | ⟨b, c, r', hr', hrepl⟩
    · obtain rfl : v = value := Option.some.inj (hsame.symm.trans hvalue)
      exact .inr ⟨s.vars, conversions, r, hr, rfl⟩
    · -- a replacement is of no kind that is replaced again
      obtain rfl : r' = value := Option.some.inj (hrepl.symm.trans hvalue)
      exact absurd (kind_of_replacement hr) (hi.kinds _ _ _ _ _ _ hr')
  · exact h.binding mod j v hj

theorem Rebinds.tracks (h : Rebinds env conversions mods s t n) (hi : Inert env) (hs : s.Tracks env own) :
    t.Tracks env own := by
  induction h with
  | refl s => exact hs
  | step _ hvalue hr _ ih => exact ih (hs.rebind hi hvalue hr)

theorem Tracks.program (h : s.Tracks env own) (event : ProgramEvent M V) :
    ({s with vars := event.own s.vars} : PatchState M V).Tracks env (event.own own) := by
  cases event with
  | bind module name value =>
    refine ⟨fun mod => ?_, fun mod j v hj => ?_⟩
    · simp only [ProgramEvent.own, Function.update_apply]
      split_ifs
      · exact Dict.keys_set_congr (h.keys module)
      · exact h.keys mod
    · simp only [ProgramEvent.own, Function.update_apply] at hj ⊢
      split_ifs at hj ⊢ with hm
      · rw [Dict.get?_set] at hj ⊢
        split_ifs at hj ⊢ with hj'
        · exact .inl hj
        · exact h.binding module j v hj
      · exact h.binding mod j v hj
  | unbind module name =>
    refine ⟨fun mod => ?_, fun mod j v hj => ?_⟩
    · simp only [ProgramEvent.own, Function.update_apply]
      split_ifs
      · rw [Dict.keys_erase, Dict.keys_erase, h.keys module]
      · exact h.keys mod
    · simp only [ProgramEvent.own, Function.update_apply] at hj ⊢
      split_ifs at hj ⊢ with hm
      · rw [Dict.get?_erase] at hj ⊢
        split_ifs at hj ⊢ with hj'
        exact h.binding module j v hj
      · exact h.binding mod j v hj
  | register name module => exact h
  | unregister name => exact h
  | imported name importer => exact h

/-- A module stays settled while the program binds nothing in it. -/
theorem Settled.program (h : s.Settled env conversions mod) (hi : Inert env) {event : ProgramEvent M V}
    (hevent : ¬event.Binds mod) : ({s with vars := event.own s.vars} : PatchState M V).Settled env conversions mod := by
  intro name value hvalue
  have hbefore : (s.vars mod).get? name = some value := by
    cases event with
    | bind module j v =>
      have hne : mod ≠ module := fun he => hevent he.symm
      simp only [ProgramEvent.own, Function.update_apply, if_neg hne] at hvalue
      exact hvalue
    | unbind module j =>
      simp only [ProgramEvent.own, Function.update_apply] at hvalue
      split_ifs at hvalue with hm
      · rw [Dict.get?_erase] at hvalue
        split_ifs at hvalue
        exact hm ▸ hvalue
      · exact hvalue
    | register name module => exact hvalue
    | unregister name => exact hvalue
    | imported name importer => exact hvalue
  exact hi.keeps _ (h name value hbefore)

end PatchState

namespace Session

variable {M V : Type*} [DecidableEq M] [DecidableEq V] {env : (M → Dict String V) → NumpyEnv V}
variable {modes : Dict String String} {s t : Session M V} {mod : M} {conversions : Conversions} {own : M → Dict String V}

variable (env modes) in
/-- What `_patch_now` does: rebindings in the modules it visits, no other. -/
theorem patchNow_spec (s : Session M V) (root : String) :
    ∃ t n active numpyActive, PatchState.Rebinds env (modeOf modes root) (s.interp.visited root) s.patch t n ∧
      (s.patchNow env modes root).1 =
        ⟨s.interp, {t with patchActive := active, numpyConversionsActive := numpyActive}⟩ := by
  unfold patchNow Interp.visited
  cases s.interp.package root with
  | none => exact ⟨s.patch, 0, _, _, .refl _, rfl⟩
  | some module =>
    obtain ⟨t, n, active, numpyActive, hrun, -, heq, -⟩ :=
      PatchState.patchModule_spec env s.interp s.patch module true (modeOf modes root)
    exact ⟨t, n, active, numpyActive, hrun, congrArg (Session.mk s.interp) heq⟩

theorem interp_patchNow (root : String) : (s.patchNow env modes root).1.interp = s.interp := by
  obtain ⟨t, n, _, _, -, heq⟩ := patchNow_spec env modes s root
  rw [heq]

theorem interp_step (event : ProgramEvent M V) : (s.step env modes event).interp = s.interp.step event := by
  cases event with
  | imported name importer =>
    change (s.afterImport env modes name importer).1.interp = s.interp
    unfold afterImport
    split_ifs
    · exact interp_patchNow _
    · rfl
  | register name module => rfl
  | unregister name => rfl
  | bind module name value => rfl
  | unbind module name => rfl

theorem interp_run (events : List (ProgramEvent M V)) : (s.run env modes events).interp = s.interp.stepAll events := by
  induction events generalizing s with
  | nil => rfl
  | cons event rest ih =>
    change ((s.step env modes event).run env modes rest).interp = (s.interp.step event).stepAll rest
    rw [ih, interp_step]

theorem settled_patchNow (hi : PatchState.Inert env) (h : s.patch.Settled env conversions mod) (root : String) :
    (s.patchNow env modes root).1.patch.Settled env conversions mod := by
  obtain ⟨t, n, _, _, hrun, heq⟩ := patchNow_spec env modes s root
  rw [heq]
  exact hrun.settled hi h

/-- After a `_patch_now` that returns, the package is settled. -/
theorem patchNow_settles (hi : PatchState.Inert env) {root : String} (hok : (s.patchNow env modes root).2 = .ok ())
    (hmod : mod ∈ s.interp.visited root) :
    (s.patchNow env modes root).1.patch.Settled env (modeOf modes root) mod := by
  unfold patchNow Interp.visited at *
  cases hpackage : s.interp.package root with
  | none =>
    rw [hpackage] at hmod
    cases hmod
  | some module =>
    rw [hpackage] at hok hmod
    cases hn : (s.patch.patchModule s.interp env module true (modeOf modes root)).2 with
    | error e =>
      simp only [hn] at hok
      cases hok
    | ok n => exact PatchState.settled_of_patchModule s.interp hi hn hmod

theorem settled_step (hi : PatchState.Inert env) (h : s.patch.Settled env conversions mod) {event : ProgramEvent M V}
    (hevent : ¬event.Binds mod) : (s.step env modes event).patch.Settled env conversions mod := by
  have hprogram := h.program hi hevent
  cases event with
  | imported name importer =>
    change (s.afterImport env modes name importer).1.patch.Settled env conversions mod
    unfold afterImport
    split_ifs
    · exact settled_patchNow hi h _
    · exact h
  | register name module => exact hprogram
  | unregister name => exact hprogram
  | bind module name value => exact hprogram
  | unbind module name => exact hprogram

theorem settled_run (hi : PatchState.Inert env) {events : List (ProgramEvent M V)}
    (h : s.patch.Settled env conversions mod) (hevents : ∀ event ∈ events, ¬event.Binds mod) :
    (s.run env modes events).patch.Settled env conversions mod := by
  induction events generalizing s with
  | nil => exact h
  | cons event rest ih =>
    obtain ⟨hevent, hrest⟩ := List.forall_mem_cons.mp hevents
    exact ih (settled_step hi h hevent) hrest

theorem run_append (before after : List (ProgramEvent M V)) :
    s.run env modes (before ++ after) = (s.run env modes before).run env modes after := List.foldl_append

/-- Once an import statement outside a listed package has completed without an error, no
module of the package is left with a NumPy name, and none gets one until the program itself
binds a name there: not by loading, unloading or patching anything else. -/
theorem autoPatch_settles (hi : PatchState.Inert env) (modes : Dict String String) (s : Session M V)
    (before after : List (ProgramEvent M V)) {name importer : String} (htrigger : Triggers modes name importer)
    (hok : ((s.run env modes before).afterImport env modes name importer).2 = .ok ())
    (hmod : mod ∈ (s.interp.stepAll before).visited (rootName name)) (hafter : ∀ event ∈ after, ¬event.Binds mod) :
    (s.run env modes (before ++ .imported name importer :: after)).patch.Settled env (modeOf modes (rootName name)) mod := by
  have hpatch : (s.run env modes before).afterImport env modes name importer =
      (s.run env modes before).patchNow env modes (rootName name) := if_pos htrigger
  have hsettled : ((s.run env modes before).afterImport env modes name importer).1.patch.Settled env
      (modeOf modes (rootName name)) mod := by
    rw [hpatch] at hok ⊢
    exact patchNow_settles hi hok ((interp_run before).symm ▸ hmod)
  have hrun : s.run env modes (before ++ .imported name importer :: after) =
      ((s.run env modes before).afterImport env modes name importer).1.run env modes after := run_append before _
  rw [hrun]
  exact settled_run hi hsettled hafter

theorem tracks_patchNow (hi : PatchState.Inert env) (h : s.patch.Tracks env own) (root : String) :
    (s.patchNow env modes root).1.patch.Tracks env own := by
  obtain ⟨t, n, _, _, hrun, heq⟩ := patchNow_spec env modes s root
  have ht := hrun.tracks hi h
  rw [heq]
  exact ⟨ht.keys, ht.binding⟩

theorem tracks_step (hi : PatchState.Inert env) (h : s.patch.Tracks env own) (event : ProgramEvent M V) :
    (s.step env modes event).patch.Tracks env (event.own own) := by
  cases event with
  | imported name importer =>
    change (s.afterImport env modes name importer).1.patch.Tracks env own
    unfold afterImport
    split_ifs
    · exact tracks_patchNow hi h _
    · exact h
  | register name module => exact h.program (.register name module)
  | unregister name => exact h.program (.unregister name)
  | bind module name value => exact h.program (.bind module name value)
  | unbind module name => exact h.program (.unbind module name)

theorem tracks_run (hi : PatchState.Inert env) (events : List (ProgramEvent M V)) (h : s.patch.Tracks env own) :
    (s.run env modes events).patch.Tracks env (ProgramEvent.ownAll own events) := by
  induction events generalizing s own with
  | nil => exact h
  | cons event rest ih => exact ih (tracks_step hi h event)

theorem tracks_patchLoaded (hi : PatchState.Inert env) (names : List String) (h : s.patch.Tracks env own) :
    (patchLoaded env modes names s).1.patch.Tracks env own := by
  induction names generalizing s with
  | nil => exact h
  | cons root rest ih =>
    have hnow : (s.patchNow env modes root).1.patch.Tracks env own := tracks_patchNow hi h root
    unfold patchLoaded
    split
    · rename_i t e heq
      rwa [heq] at hnow
    · rename_i t _ heq
      rw [heq] at hnow
      exact ih hnow

theorem vars_patchNow {root : String} (hmod : mod ∉ s.interp.visited root) :
    (s.patchNow env modes root).1.patch.vars mod = s.patch.vars mod := by
  obtain ⟨t, n, _, _, hrun, heq⟩ := patchNow_spec env modes s root
  rw [heq]
  exact hrun.vars_of_not_mem hmod

theorem vars_patchLoaded {names : List String} (hmod : ∀ root ∈ names, mod ∉ s.interp.visited root) :
    (patchLoaded env modes names s).1.patch.vars mod = s.patch.vars mod ∧
      (patchLoaded env modes names s).1.interp = s.interp := by
  induction names generalizing s with
  | nil => exact ⟨rfl, rfl⟩
  | cons root rest ih =>
    obtain ⟨hroot, hrest⟩ := List.forall_mem_cons.mp hmod
    have hvars : (s.patchNow env modes root).1.patch.vars mod = s.patch.vars mod := vars_patchNow hroot
    have hinterp : (s.patchNow env modes root).1.interp = s.interp := interp_patchNow root
    unfold patchLoaded
    split
    · rename_i t e heq
      rw [heq] at hvars hinterp
      exact ⟨hvars, hinterp⟩
    · rename_i t _ heq
      rw [heq] at hvars hinterp
      obtain ⟨hvars', hinterp'⟩ := ih (s := t) (hinterp ▸ hrest)
      exact ⟨hvars'.trans hvars, hinterp'.trans hinterp⟩

variable (modes) in
/-- No import statement of the run patches the module. -/
def Spared (mod : M) : Interp M → List (ProgramEvent M V) → Prop
  | _, [] => True
  | interp, event :: rest =>
    (∀ name importer, event = .imported name importer → Triggers modes name importer →
      mod ∉ interp.visited (rootName name)) ∧ Spared mod (interp.step event) rest

theorem vars_step {event : ProgramEvent M V} (h : ∀ name importer, event = .imported name importer →
      Triggers modes name importer → mod ∉ s.interp.visited (rootName name)) (hvars : s.patch.vars mod = own mod) :
    (s.step env modes event).patch.vars mod = event.own own mod := by
  have hprogram := ProgramEvent.own_congr hvars event
  cases event with
  | imported name importer =>
    change (s.afterImport env modes name importer).1.patch.vars mod = own mod
    unfold afterImport
    split_ifs with htrigger
    · exact (vars_patchNow (h name importer rfl htrigger)).trans hvars
    · exact hvars
  | register name module => exact hprogram
  | unregister name => exact hprogram
  | bind module name value => exact hprogram
  | unbind module name => exact hprogram

theorem vars_run {events : List (ProgramEvent M V)} (h : Spared modes mod s.interp events)
    (hvars : s.patch.vars mod = own mod) :
    (s.run env modes events).patch.vars mod = ProgramEvent.ownAll own events mod := by
  induction events generalizing s own with
  | nil => exact hvars
  | cons event rest ih =>
    have hinterp : (s.step env modes event).interp = s.interp.step event := interp_step event
    have hrest : Spared modes mod (s.step env modes event).interp rest := hinterp ▸ h.2
    exact ih hrest (vars_step h.1 hvars)

/-- In every run under the environment variable, each module has the names the program gave
it, bound to the program's own objects or their replacements; and a module no outside import
of its package has completed for is as the program left it. -/
theorem autoPatch_only_rebinds (hi : PatchState.Inert env) {setting : String}
    (h : s.autoPatch env setting = (t, .ok modes)) (events : List (ProgramEvent M V)) :
    (t.run env modes events).patch.Tracks env (ProgramEvent.ownAll s.patch.vars events) ∧
      ∀ mod, (∀ root ∈ modes.keys, mod ∉ s.interp.visited root) → Spared modes mod s.interp events →
        (t.run env modes events).patch.vars mod = ProgramEvent.ownAll s.patch.vars events mod := by
  have hloaded : t = (patchLoaded env (autoModes setting) (autoModes setting).keys s).1 := (congrArg Prod.fst h).symm
  have hmodes : autoModes setting = modes := by
    have hresult : (s.autoPatch env setting).2 = .ok modes := congrArg Prod.snd h
    unfold autoPatch at hresult
    cases hloop : (patchLoaded env (autoModes setting) (autoModes setting).keys s).2 with
    | error e =>
      simp only [hloop] at hresult
      cases hresult
    | ok u =>
      simp only [hloop] at hresult
      cases hresult
      rfl
  subst hmodes
  have htracks : t.patch.Tracks env s.patch.vars :=
    hloaded ▸ tracks_patchLoaded hi _ (PatchState.tracks_vars env s.patch)
  refine ⟨tracks_run hi events htracks, fun mod hmod hspared => ?_⟩
  have hafter : t.patch.vars mod = s.patch.vars mod ∧ t.interp = s.interp := hloaded ▸ vars_patchLoaded hmod
  obtain ⟨hvars, hinterp⟩ := hafter
  exact vars_run (hinterp ▸ hspared) hvars

/-- Nothing is loaded yet. -/
def demoSession : Session DemoModule DemoObject where
  interp := {demoInterp with loaded := .empty}
  patch := .fresh fun _ => .empty

/-- `import pkg` up to its completion: `pkg` imports its submodule. -/
def importingPkg : List (ProgramEvent DemoModule DemoObject) :=
  [.register "pkg" (some .pkg), .bind .pkg "np" .numpy, .register "pkg.sub" (some .sub), .bind .sub "np" .numpy,
    .bind .sub "add" .add, .imported "pkg.sub" "pkg"]

theorem autoPatch_settles_pkg :
    (demoSession.run (fun _ => demoEnv) (autoModes "pkg") (importingPkg ++ .imported "pkg" "__main__" ::
      [.bind .pkg "add" .add, .register "other" none])).patch.Settled (fun _ => demoEnv) .lightarray .sub :=
  autoPatch_settles demoEnv_inert (autoModes "pkg") demoSession importingPkg _ (by decide) (by decide) (by decide)
    (by simp [ProgramEvent.Binds])

theorem autoPatch_only_rebinds_pkg :
    (demoSession.run (fun _ => demoEnv) (autoModes "pkg") importingPkg).patch.vars .sub =
      ProgramEvent.ownAll demoSession.patch.vars importingPkg .sub := by
  have hstart : demoSession.autoPatch (fun _ => demoEnv) "pkg" = (demoSession, .ok (autoModes "pkg")) := by rfl
  have hinside : ¬Triggers (autoModes "pkg") "pkg.sub" "pkg" := by decide
  have hspared : Spared (autoModes "pkg") DemoModule.sub demoSession.interp importingPkg := by
    simp only [importingPkg, Spared, reduceCtorEq, false_implies, implies_true, true_and, ProgramEvent.imported.injEq,
      and_true]
    rintro _ _ ⟨rfl, rfl⟩ htrigger
    exact absurd htrigger hinside
  exact (autoPatch_only_rebinds demoEnv_inert hstart importingPkg).2 .sub (by decide) hspared

end Session

end LightArray
