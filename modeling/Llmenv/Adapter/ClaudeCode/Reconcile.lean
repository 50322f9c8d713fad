/-
# `Llmenv.Adapter.ClaudeCode.Reconcile` — writing `settings.json`

The settings of a manifest meet the file in the folder, which Claude Code and
its plugins write too.  llmenv replaces the keys it owns and leaves the others;
of the hooks it takes back what it wrote before, which two sidecar files record;
`modelSettings` is merged entry by entry against a companion file.

Reading a file gives back what was written, and the sidecar files, whose errors
only print a warning, are written.
-/
import Llmenv.Adapter.ClaudeCode.Fresh
import Llmenv.Adapter.ModelSettings

namespace Llmenv.Adapter.ClaudeCode

open Llmenv.Lib Llmenv.Manifest

/-! ## The files -/

/-- The file `settings.json`.  It is unreadable when the read fails, and when it
is not JSON and cannot be moved aside. -/
inductive SettingsFile where
  | absent
  | unreadable (error : String)
  | invalid
  | doc (d : Doc)

/-- The file `settings.json.llmenv-owned-model-settings`. -/
inductive OwnedModelSettings where
  | absent
  | unreadable (error : String)
  | invalid
  | entries (entries : List (String × Json))

/-- The files of the folder that a render of the settings reads and writes.  A
sidecar that is missing or not JSON counts as none. -/
structure SettingsFolder where
  settings : SettingsFile
  hooksSidecar : Option Json
  pluginPathsSidecar : Option Json
  ownedModelSettings : OwnedModelSettings

def SettingsFolder.empty : SettingsFolder := ⟨.absent, none, none, .absent⟩

/-- The value in the file.  A file that is not JSON is moved aside. -/
def existingSettings : SettingsFile → Except String (Option Json)
  | .absent => .ok none
  | .unreadable error => .error error
  | .invalid => .ok none
  | .doc d => .ok (some d.value)

def readOwned : OwnedModelSettings → Except String (List (String × Json))
  | .absent => .ok []
  | .unreadable error => .error s!"cannot read settings.json.llmenv-owned-model-settings: {error}; check its permissions, or remove it and check modelSettings in settings.json by hand"
  | .invalid => .ok []
  | .entries entries => .ok entries

/-- The entries of the companion file, which counts only beside a settings file. -/
def previousEntries (out : SettingsFolder) : Except String (List (String × Json)) :=
  match out.settings with
  | .absent => .ok []
  | _ => readOwned out.ownedModelSettings

/-- The folders of the plugins that have one. -/
def pluginInstallPaths (plugins : List ResolvedPlugin) : List (String × Json) :=
  Fields.ofList (plugins.filterMap
    (fun p => p.installPath.map (fun path => (pluginId p, .str path))))

def pluginInstallPathsJson (plugins : List ResolvedPlugin) : Json :=
  .obj (pluginInstallPaths plugins)

/-! ## Old hooks -/

def normalizedHook (entry : Json) : Json := stripJsonNulls entry

/-- The list of an event, or none. -/
def entriesAt (hooks : Json) (event : String) : List Json :=
  ((hooks.get? event).bind Json.asArray?).getD []

/-- The entries that the last render wrote for an event and this one does not. -/
def staleEntries (fresh : Json) (event : String) (prevArr : List Json) : List Json :=
  let freshNorm := (entriesAt fresh event).map normalizedHook
  (prevArr.map normalizedHook).filter (fun e => e ∉ freshNorm)

def purgeEvent (fresh : Json) (existing : List (String × Json)) (event : String)
    (prevEntries : Json) : List (String × Json) :=
  match prevEntries, Fields.get event existing with
  | .arr prevArr, some (.arr entries) =>
      let stale := staleEntries fresh event prevArr
      Fields.insert event (.arr (entries.filter (fun e => normalizedHook e ∉ stale))) existing
  | _, _ => existing

/-- Take out the entries that llmenv rendered last time and does not render now. -/
def purgeStaleOwnedHooks (existing : Json) (prevOwned : Option Json) (fresh : Json) : Json :=
  match prevOwned, existing with
  | some (.obj prev), .obj fields =>
      .obj (prev.foldl (fun acc e => purgeEvent fresh acc e.1 e.2) fields)
  | _, _ => existing

/-- The parts of a path. -/
def pathParts (path : String) : List (List Char) :=
  (Text.split (· = '/') path.toList).filter (fun part => !part.isEmpty)

/-- A word of the command is the path of a file under the folder. -/
def commandPointsUnder (host : Host) (command root : String) : Bool :=
  (Text.splitWhitespace command.toList).any (fun token => token.contains '/' &&
    (host.canonicalize (String.ofList token)).any (fun p =>
      (pathParts root).isPrefixOf (pathParts p)))

/-- The folders of the plugins that were enabled and no longer are. -/
def disabledRoots (host : Host) (prevPaths : List (String × Json)) (enabled : Option Json) :
    List String :=
  let enabledSet := ((enabled.bind Json.asObject?).map Fields.keys).getD []
  (prevPaths.filter (fun p => p.1 ∉ enabledSet)).filterMap
    (fun p => p.2.asStr?.bind host.canonicalize)

/-- The handler runs a file of one of the folders. -/
def traced (host : Host) (roots : List String) (hook : Json) : Bool :=
  ((hook.get? "command").bind Json.asStr?).any
    (fun cmd => roots.any (commandPointsUnder host cmd))

/-- What is left of an entry without the handlers of the folders. -/
def purgeEntry (host : Host) (roots : List String) (entry : Json) : Option Json :=
  match entry, entry.get? "hooks" with
  | .obj fields, some (.arr hooks) =>
      let kept := hooks.filter (fun hook => !traced host roots hook)
      if kept.isEmpty then none else some (.obj (Fields.insert "hooks" (.arr kept) fields))
  | _, _ => some entry

def purgeEntries (host : Host) (roots : List String) : Json → Json
  | .arr entries => .arr (entries.filterMap (purgeEntry host roots))
  | value => value

/-- Take out the hooks that a plugin registered which is no longer enabled. -/
def purgeHooksFromDisabledPlugins (host : Host) (existing : Json)
    (prevPaths : Option Json) (enabled : Option Json) : Json :=
  match prevPaths, existing with
  | some (.obj paths), .obj fields =>
      let roots := disabledRoots host paths enabled
      if roots.isEmpty then existing
      else .obj (Fields.mapValues (purgeEntries host roots) fields)
  | _, _ => existing

/-! ## The settings that are there -/

def llmenvOwnedSettingsKeys : List String :=
  ["permissions", "enabledPlugins", "extraKnownMarketplaces", "autoMemoryEnabled",
   "syncClaudeAiSkills", "syncClaudeAiPlugins", "effortLevel", "advisorModel", "outputStyle",
   "hooks", "bypassPermissions", "dangerouslySkipPermissions"]

/-- The old hooks without what is no longer there, and the new ones merged in. -/
def reconcileHooks (host : Host) (out : SettingsFolder) (enabled : Option Json)
    (old fresh : Json) : Json :=
  dedupHooksDoc (mergeJson (purgeHooksFromDisabledPlugins host
    (purgeStaleOwnedHooks old out.hooksSidecar fresh) out.pluginPathsSidecar enabled) fresh)

/-- One round of the loop over the owned keys. -/
def reconcileKey (host : Host) (out : SettingsFolder) (fresh merged : List (String × Json))
    (key : String) : List (String × Json) :=
  match Fields.get key fresh with
  | some freshVal =>
      if key = "hooks" then
        match Fields.get key merged with
        | some old => Fields.insert key
            (reconcileHooks host out (Fields.get "enabledPlugins" fresh) old freshVal) merged
        | none => Fields.insert key freshVal merged
      else Fields.insert key freshVal merged
  | none => Fields.erase key merged

/-- The fresh settings over the ones of the file.  Without an object on both sides
the fresh ones are all there is. -/
def reconcileSettings (host : Host) (out : SettingsFolder) (existing : Option Json)
    (fresh : Json) : Json :=
  match existing, fresh with
  | some (.obj merged), .obj freshObj =>
      let owned := llmenvOwnedSettingsKeys.foldl (reconcileKey host out freshObj) merged
      -- Rendered once, and not read by Claude Code.
      let cleared := Fields.erase "advisorSize" owned
      .obj (freshObj.foldl (fun acc f =>
        if f.1 ∈ llmenvOwnedSettingsKeys then acc else Fields.insert f.1 f.2 acc) cleared)
  | _, _ => fresh

/-! ## The call -/

/-- The fresh settings without the key that is merged apart. -/
def withoutModelSettings : Json → Json
  | .obj fields => .obj (Fields.erase "modelSettings" fields)
  | value => value

/-- The text of `settings.json`, as a value. -/
def settingsDoc (host : Host) (m : MergedManifest) (out : SettingsFolder) (fresh : Json) :
    Except String Json := do
  let prev ← previousEntries out
  let existing ← existingSettings out.settings
  applyModelSettings (managedEntries m.capabilities) prev (fresh.get? "modelSettings")
    (reconcileSettings host out existing (withoutModelSettings fresh))

def ownedModelSettings (managed : List (String × Json)) : OwnedModelSettings :=
  if managed.isEmpty then .absent else .entries managed

/-! ## Keys in order -/

section

variable {host : Host} {out : SettingsFolder}

theorem wf_purgeEvent {fresh : Json} {existing : List (String × Json)}
    (h : Json.WfFields existing) (event : String) (prevEntries : Json) :
    Json.WfFields (purgeEvent fresh existing event prevEntries) := by
  unfold purgeEvent
  split
  · rename_i prevArr entries hget
    refine h.insert (.arr fun j hj => ?_)
    exact Json.wf_arr.mp (h.get hget) j (List.mem_of_mem_filter hj)
  · exact h

theorem wf_purgeStaleOwnedHooks {existing : Json} (h : existing.Wf) (prevOwned : Option Json)
    (fresh : Json) : (purgeStaleOwnedHooks existing prevOwned fresh).Wf := by
  unfold purgeStaleOwnedHooks
  split
  · rename_i prev fields
    exact Json.wf_obj.mpr (List.foldlRecOn prev _ (Json.wf_obj.mp h)
      fun _ hacc e _ => wf_purgeEvent hacc e.1 e.2)
  · exact h

theorem wf_purgeEntry {roots : List String} {entry left : Json} (h : entry.Wf)
    (hleft : purgeEntry host roots entry = some left) : left.Wf := by
  unfold purgeEntry at hleft
  split at hleft
  · rename_i fields hooks hhooks
    simp only at hleft
    split at hleft
    · exact absurd hleft (by simp)
    · have hfields := Json.wf_obj.mp h
      refine Option.some.inj hleft ▸ Json.wf_obj.mpr (hfields.insert (.arr fun j hj => ?_))
      exact Json.wf_arr.mp (hfields.get hhooks) j (List.mem_of_mem_filter hj)
  · exact Option.some.inj hleft ▸ h

theorem wf_purgeHooksFromDisabledPlugins {existing : Json} (h : existing.Wf)
    (prevPaths enabled : Option Json) :
    (purgeHooksFromDisabledPlugins host existing prevPaths enabled).Wf := by
  unfold purgeHooksFromDisabledPlugins
  split
  · simp only
    split
    · exact h
    · have hfields := Json.wf_obj.mp h
      refine .obj (Fields.sorted_mapValues hfields.sorted) fun f hf => ?_
      obtain ⟨g, hg, rfl⟩ := List.mem_map.mp hf
      have hv := hfields.values g hg
      unfold purgeEntries
      split
      · rename_i entries hentries
        refine .arr fun j hj => ?_
        obtain ⟨e, he, hleft⟩ := List.mem_filterMap.mp hj
        exact wf_purgeEntry (Json.wf_arr.mp (hentries ▸ hv) e he) hleft
      · exact hv
  · exact h

theorem wf_reconcileHooks {enabled : Option Json} {old fresh : Json} (hold : old.Wf)
    (hfresh : fresh.Wf) : (reconcileHooks host out enabled old fresh).Wf :=
  wf_dedupHooksDoc (wf_mergeJson (wf_purgeHooksFromDisabledPlugins
    (wf_purgeStaleOwnedHooks hold _ _) _ _) hfresh)

theorem wf_reconcileKey {fresh merged : List (String × Json)} (hfresh : Json.WfFields fresh)
    (h : Json.WfFields merged) (key : String) :
    Json.WfFields (reconcileKey host out fresh merged key) := by
  unfold reconcileKey
  split
  · rename_i freshVal hget
    have hval := hfresh.get hget
    split
    · split
      · rename_i old hold
        exact h.insert (wf_reconcileHooks (h.get hold) hval)
      · exact h.insert hval
    · exact h.insert hval
  · exact h.erase key

theorem wf_reconcileSettings {existing : Option Json} {fresh : Json}
    (hexisting : ∀ e, existing = some e → e.Wf) (hfresh : fresh.Wf) :
    (reconcileSettings host out existing fresh).Wf := by
  unfold reconcileSettings
  split
  · rename_i merged freshObj
    have hobj := Json.wf_obj.mp hfresh
    have hmerged := Json.wf_obj.mp (hexisting _ rfl)
    have howned : Json.WfFields
        (llmenvOwnedSettingsKeys.foldl (reconcileKey host out freshObj) merged) :=
      List.foldlRecOn _ _ hmerged fun _ hacc key _ => wf_reconcileKey hobj hacc key
    refine Json.wf_obj.mpr (List.foldlRecOn freshObj _ (howned.erase _) fun acc hacc f hf => ?_)
    split
    · exact hacc
    · exact hacc.insert (hobj.values f hf)
  · exact hfresh

end

theorem wf_withoutModelSettings {fresh : Json} (h : fresh.Wf) :
    (withoutModelSettings fresh).Wf := by
  cases fresh with
  | obj fields => exact Json.wf_obj.mpr ((Json.wf_obj.mp h).erase _)
  | _ => exact h

theorem wf_settingsDoc {host : Host} {m : MergedManifest} {out : SettingsFolder} {fresh doc : Json}
    (hfresh : fresh.Wf) (h : settingsDoc host m out fresh = .ok doc) : doc.Wf := by
  obtain ⟨prev, -, h⟩ := bind_eq_ok.mp h
  obtain ⟨existing, hexisting, h⟩ := bind_eq_ok.mp h
  refine wf_applyModelSettings (wf_managedEntries _) (fun n hn => wf_get? hfresh hn) ?_ h
  refine wf_reconcileSettings (fun e he => ?_) (wf_withoutModelSettings hfresh)
  subst he
  unfold existingSettings at hexisting
  split at hexisting
  · exact absurd hexisting (by simp)
  · exact absurd hexisting (by simp)
  · exact absurd hexisting (by simp)
  · rename_i d _
    exact Option.some.inj (Except.ok.inj hexisting) ▸ d.wf

/-! ## The whole call -/

/-- Render the settings of a manifest into the folder. -/
def generateSettingsJson (host : Host) (m : MergedManifest) (out : SettingsFolder) :
    Except String SettingsFolder :=
  match hfresh : freshSettings host m with
  | .error e => .error e
  | .ok fresh =>
      match hdoc : settingsDoc host m out fresh with
      | .error e => .error e
      | .ok doc => .ok
          { settings := .doc ⟨doc, wf_settingsDoc (wf_freshSettings hfresh) hdoc⟩
            ownedModelSettings := ownedModelSettings (managedEntries m.capabilities)
            -- Without hooks the record of the last ones stays.
            hooksSidecar := (fresh.get? "hooks").or out.hooksSidecar
            pluginPathsSidecar := some (pluginInstallPathsJson m.plugins) }

/-- What a call does, when it succeeds.  Then the fresh settings are an object. -/
structure Generated (host : Host) (m : MergedManifest) (out out' : SettingsFolder)
    (fresh doc prev : List (String × Json)) (existing : Option Json) : Prop where
  rendered : freshSettings host m = .ok (.obj fresh)
  companion : previousEntries out = .ok prev
  read : existingSettings out.settings = .ok existing
  applied : applyModelSettings (managedEntries m.capabilities) prev
    (Fields.get "modelSettings" fresh) (reconcileSettings host out existing
      (.obj (Fields.erase "modelSettings" fresh))) = .ok (.obj doc)
  settings : ∃ d, out'.settings = .doc d ∧ d.value = .obj doc
  hooksSidecar : out'.hooksSidecar = (Fields.get "hooks" fresh).or out.hooksSidecar
  pluginPaths : out'.pluginPathsSidecar = some (pluginInstallPathsJson m.plugins)
  owned : out'.ownedModelSettings = ownedModelSettings (managedEntries m.capabilities)

theorem generateSettingsJson_ok {host : Host} {m : MergedManifest} {out out' : SettingsFolder}
    (h : generateSettingsJson host m out = .ok out') :
    ∃ fresh doc prev existing, Generated host m out out' fresh doc prev existing := by
  unfold generateSettingsJson at h
  split at h
  · exact absurd h (by simp)
  · rename_i freshJson hfresh
    split at h
    · exact absurd h (by simp)
    · rename_i docJson hdoc
      obtain rfl := Except.ok.inj h
      have hparts := hdoc
      obtain ⟨prev, hprev, hparts⟩ := bind_eq_ok.mp hparts
      obtain ⟨existing, hexisting, hparts⟩ := bind_eq_ok.mp hparts
      -- Settings that are no object fail in the last step.
      obtain ⟨fresh, rfl⟩ : ∃ fresh, freshJson = .obj fresh := by
        cases freshJson with
        | obj fresh => exact ⟨fresh, rfl⟩
        | _ =>
            cases existing with
            | none => exact absurd hparts (by
                simp [withoutModelSettings, reconcileSettings, applyModelSettings])
            | some e => exact absurd hparts (by
                simp [withoutModelSettings, reconcileSettings, applyModelSettings])
      obtain ⟨doc, rfl⟩ : ∃ doc, docJson = .obj doc := by
        unfold applyModelSettings at hparts
        split at hparts
        · simp only at hparts
          split at hparts
          · exact ⟨_, (Except.ok.inj hparts).symm⟩
          · exact ⟨_, (Except.ok.inj hparts).symm⟩
        · exact absurd hparts (by simp)
      exact ⟨fresh, doc, prev, existing, hfresh, hprev, hexisting, hparts, ⟨_, rfl, rfl⟩, rfl, rfl,
        rfl⟩

/-! ## What is written, key by key -/

section

variable {host : Host} {out : SettingsFolder} {fresh merged : List (String × Json)}

/-- What an owned key has after its round of the loop. -/
def ownedValue (host : Host) (out : SettingsFolder) (fresh : List (String × Json)) (key : String)
    (old : Option Json) : Option Json :=
  (Fields.get key fresh).map (fun freshVal =>
    if key = "hooks" then
      old.elim freshVal
        (fun old => reconcileHooks host out (Fields.get "enabledPlugins" fresh) old freshVal)
    else freshVal)

theorem get_reconcileKey (key k : String) :
    Fields.get k (reconcileKey host out fresh merged key) =
      if key = k then ownedValue host out fresh k (Fields.get k merged)
      else Fields.get k merged := by
  unfold reconcileKey ownedValue
  by_cases hk : key = k
  · subst hk
    cases hfresh : Fields.get key fresh with
    | none => simp [Fields.get_erase]
    | some freshVal =>
        by_cases hhooks : key = "hooks"
        · subst hhooks
          cases hold : Fields.get "hooks" merged with
          | none => simp [Fields.get_insert]
          | some old => simp [Fields.get_insert]
        · simp [hhooks, Fields.get_insert]
  · cases hfresh : Fields.get key fresh with
    | none => simp [Fields.get_erase, hk]
    | some freshVal =>
        by_cases hhooks : key = "hooks"
        · subst hhooks
          cases hold : Fields.get "hooks" merged with
          | none => simp [Fields.get_insert, hk]
          | some old => simp [Fields.get_insert, hk]
        · simp [hhooks, Fields.get_insert, hk]

theorem get_ownedLoop {keys : List String} (hkeys : keys.Nodup) (k : String) :
    Fields.get k (keys.foldl (reconcileKey host out fresh) merged) =
      if k ∈ keys then ownedValue host out fresh k (Fields.get k merged)
      else Fields.get k merged := by
  induction keys generalizing merged with
  | nil => simp
  | cons key keys ih =>
      obtain ⟨hnot, hrest⟩ := List.nodup_cons.mp hkeys
      rw [List.foldl_cons, ih hrest, get_reconcileKey]
      by_cases hk : key = k
      · subst hk
        simp [hnot]
      · have hk' : k ≠ key := fun h => hk h.symm
        simp [hk, hk']

theorem get_throughLoop (hfresh : Fields.Sorted fresh) (k : String) :
    Fields.get k (fresh.foldl (fun acc f =>
        if f.1 ∈ llmenvOwnedSettingsKeys then acc else Fields.insert f.1 f.2 acc) merged) =
      if k ∈ llmenvOwnedSettingsKeys then Fields.get k merged
      else (Fields.get k fresh).or (Fields.get k merged) := by
  induction fresh generalizing merged with
  | nil => simp
  | cons f fresh ih =>
      obtain ⟨hlt, hrest⟩ := Fields.sorted_cons.mp hfresh
      obtain ⟨j, v⟩ := f
      have hnone : Fields.get j fresh = none := Fields.get_eq_none.mpr fun e he => (hlt e he).ne'
      rw [List.foldl_cons, ih hrest, Fields.get_cons]
      by_cases hj : j ∈ llmenvOwnedSettingsKeys
      · rw [if_pos hj]
        by_cases hk : k ∈ llmenvOwnedSettingsKeys
        · simp [hk]
        · have hjk : j ≠ k := fun h => hk (h ▸ hj)
          simp [hk, hjk]
      · rw [if_neg hj, Fields.get_insert]
        by_cases hjk : j = k
        · subst hjk
          simp [hj, hnone]
        · simp [hjk]

/-- What a file that is an object has after the fresh settings are written into
it. -/
theorem get_reconcileSettings (host : Host) (out : SettingsFolder)
    (merged : List (String × Json)) (hfresh : Fields.Sorted fresh) :
    ∃ doc, reconcileSettings host out (some (.obj merged)) (.obj fresh) = .obj doc ∧
      ∀ k, Fields.get k doc =
        if k ∈ llmenvOwnedSettingsKeys then ownedValue host out fresh k (Fields.get k merged)
        else (Fields.get k fresh).or
          (if k = "advisorSize" then none else Fields.get k merged) := by
  refine ⟨_, rfl, fun k => ?_⟩
  rw [get_throughLoop hfresh, Fields.get_erase, get_ownedLoop (by decide)]
  by_cases hk : k ∈ llmenvOwnedSettingsKeys
  · have hne : "advisorSize" ≠ k := fun h => absurd (h ▸ hk) (by decide)
    simp [hk, hne]
  · simp [hk, eq_comm]

variable {m : MergedManifest} {out' : SettingsFolder} {doc prev : List (String × Json)}
  {existing : Option Json}

theorem Generated.sorted (h : Generated host m out out' fresh doc prev existing) :
    Fields.Sorted fresh := (Json.wf_obj.mp (wf_freshSettings h.rendered)).sorted

/-- Without an object in the file the settings are the fresh ones. -/
theorem Generated.get_alone (h : Generated host m out out' fresh doc prev existing)
    (hexisting : existing.bind Json.asObject? = none) (k : String) :
    Fields.get k doc =
      if k = "modelSettings" then
        modelValue (managedEntries m.capabilities) prev (Fields.get "modelSettings" fresh) none
      else Fields.get k fresh := by
  have hreconciled : reconcileSettings host out existing
      (.obj (Fields.erase "modelSettings" fresh)) =
      .obj (Fields.erase "modelSettings" fresh) := by
    cases existing with
    | none => rfl
    | some e =>
        cases e with
        | obj merged => exact absurd hexisting (by simp [Json.asObject?])
        | _ => rfl
  have happlied := h.applied
  rw [hreconciled] at happlied
  rw [get_applyModelSettings happlied, Fields.get_erase, Fields.get_erase]
  by_cases hk : k = "modelSettings"
  · simp [hk]
  · have hk' : "modelSettings" ≠ k := fun h => hk h.symm
    simp [hk, hk']

/-- Into an object the fresh settings are written key by key. -/
theorem Generated.get_reconciled (h : Generated host m out out' fresh doc prev existing)
    (hexisting : existing = some (.obj merged)) (k : String) :
    Fields.get k doc =
      if k = "modelSettings" then
        modelValue (managedEntries m.capabilities) prev (Fields.get "modelSettings" fresh)
          (Fields.get "modelSettings" merged)
      else if k ∈ llmenvOwnedSettingsKeys then
        ownedValue host out fresh k (Fields.get k merged)
      else (Fields.get k fresh).or
        (if k = "advisorSize" then none else Fields.get k merged) := by
  subst hexisting
  have hsorted := Fields.sorted_erase (k := "modelSettings") h.sorted
  have hkeep : ∀ {j : String}, j ≠ "modelSettings" →
      Fields.get j (Fields.erase "modelSettings" fresh) = Fields.get j fresh := by
    intro j hj
    rw [Fields.get_erase, if_neg fun h => hj h.symm]
  obtain ⟨reconciled, hreconciled, hget⟩ := get_reconcileSettings host out merged hsorted
  have happlied := h.applied
  rw [hreconciled] at happlied
  rw [get_applyModelSettings happlied, hget, hget]
  by_cases hk : k = "modelSettings"
  · simp [hk, Fields.get_erase, (by decide : "modelSettings" ∉ llmenvOwnedSettingsKeys)]
  · simp only [if_neg hk, ownedValue, hkeep hk, hkeep (j := "enabledPlugins") (by decide)]

end

end Llmenv.Adapter.ClaudeCode
