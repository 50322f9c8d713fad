/-
# `Llmenv.Adapter.ClaudeCode.Fresh` — the settings that a manifest gives

The part of `generate_settings_json` that does not look at the folder: hooks,
permissions and the keys of single capabilities, then the fragments
`native_plugins.claude_code` and `native.claude_code` merged over them, and the
nulls removed.

Key by key (`Layers.setting`) a setting is what llmenv renders there with the two
fragments merged over it.  Two keys stand apart: the fragments cannot have
`hooks`, and the rules of `permissions` are appended.
-/
import Llmenv.Adapter.ClaudeCode.Hooks
import Llmenv.Adapter.ClaudeCode.Permissions

namespace Llmenv.Adapter.ClaudeCode

open Llmenv.Lib Llmenv.Manifest

/-! ## Plugins -/

def reservedOfficialMarketplaces : List String :=
  ["claude-plugins-official", "claude-code-plugins", "claude-code-marketplace",
   "anthropic-marketplace", "anthropic-plugins"]

/-- The owner and the name of a repository on GitHub, from its URL. -/
def githubOwnerRepo (source : String) : Option (String × String) := do
  let strip (pre : String) := Text.stripPrefix pre.toList source.toList
  let rest ← (strip "https://github.com/").or ((strip "http://github.com/").or
    ((strip "ssh://git@github.com/").or ((strip "git://github.com/").or
      (strip "git@github.com:"))))
  let path := (rest.reverse.dropWhile (· = '/')).reverse
  match Text.split (· = '/') path with
  | owner :: repo :: _ =>
      let repo := match Text.stripPrefix ".git".toList.reverse repo.reverse with
        | some stem => stem.reverse
        | none => repo
      if owner.isEmpty ∨ repo.isEmpty then none
      else some (String.ofList owner, String.ofList repo)
  | _ => none

/-- An official marketplace is named by its repository, any other one by the
folder of its clone. -/
def renderMarketplaceSource (mk : ResolvedMarketplace) : Option Json :=
  if mk.name ∈ reservedOfficialMarketplaces then
    (githubOwnerRepo mk.source).map (fun r => Json.object [("source",
      Json.object [("source", .str "github"), ("repo", .str (r.1 ++ "/" ++ r.2))])])
  else
    mk.installLocation.map (fun path => Json.object [("source",
      Json.object [("source", .str "directory"), ("path", .str path)])])

def pluginId (p : ResolvedPlugin) : String := p.plugin ++ "@" ++ p.marketplace

def knownMarketplaces (m : MergedManifest) : List (String × Json) :=
  m.marketplaces.foldl (fun acc mk => insertSome mk.name (renderMarketplaceSource mk) acc) []

def enabledPlugins (m : MergedManifest) : List (String × Json) :=
  Fields.ofList (m.plugins.map (fun p => (pluginId p, .bool true)))

/-- Marketplaces and plugins, each when there is one. -/
def renderPlugins (m : MergedManifest) (settings : List (String × Json)) : List (String × Json) :=
  insertSome "enabledPlugins" (nonEmptyObject (.obj (enabledPlugins m)))
    (insertSome "extraKnownMarketplaces" (nonEmptyObject (.obj (knownMarketplaces m))) settings)

/-! ## Rendered keys -/

/-- With llmenv's own memory running, the one of Claude Code is off. -/
def autoMemory (m : MergedManifest) : Option Json :=
  match m.capabilities.autoMemoryEnabled with
  | some configured => some (.bool configured)
  | none => if icmActive m then some (.bool false) else none

/-- The output style, when there is exactly one to choose. -/
def selectedStyle (m : MergedManifest) : Option Json :=
  match m.capabilities.outputStyles.filter (fun o => !o.forceForPlugin) with
  | [o] => some (.str o.name)
  | _ => none

def renderedSettings (m : MergedManifest) (hooks : Json) : List (String × Json) :=
  renderPlugins m
    (insertSome "outputStyle" (selectedStyle m)
      (insertSome "advisorModel" (m.capabilities.advisorModel.map .str)
        (insertSome "effortLevel" (m.capabilities.effortLevel.map .str)
          (Fields.insert "syncClaudeAiPlugins" (.bool false)
            (Fields.insert "syncClaudeAiSkills" (.bool false)
              (insertSome "autoMemoryEnabled" (autoMemory m)
                (insertSome "permissions" ((permissionsObject m).map .obj)
                  [("hooks", hooks)])))))))

/-! ## The fragments -/

def modeledSettingsKeys : List String := ["hooks"]

def rejectModeledKeysInCatchAll (frag : Yaml) : Except String Unit :=
  match modeledSettingsKeys.find? (fun key => (frag.get? key).isSome) with
  | some key => .error s!"top-level `native.claude_code` carries the modeled-feature key `{key}`, which would silently clobber the rendered `{key}`. Move it to the `native_{key}` sibling instead, which merges in the safe direction."
  | none => .ok ()

def rejectPermissions (plugins : Yaml) : Except String Unit :=
  if (plugins.get? "permissions").isSome then
    .error "`native_plugins.claude_code` carries a `permissions` key, which would overwrite the rendered permissions rather than layering additively. Put it under `native.claude_code.permissions` (additive) or `native_permissions.claude_code` instead."
  else .ok ()

def checkNativePlugins : Option Yaml → Except String Unit
  | none => .ok ()
  | some plugins =>
      if plugins.asMapping?.isNone then
        .error "`native_plugins.claude_code` must be a mapping of settings keys, not a scalar or sequence"
      else do
        rejectModeledKeysInCatchAll plugins
        rejectPermissions plugins

def checkNative : Option Yaml → Except String Unit
  | none => .ok ()
  | some native => rejectModeledKeysInCatchAll native

/-- Merge the permissions of the fragment, when the settings are an object. -/
def mergePermissions (settings : Json) (frag : Option Yaml) :
    Except String (Json × Option Yaml) :=
  match settings with
  | .obj fields => (mergeNativePermissions fields frag).map (fun r => (.obj r.1, r.2))
  | _ => .ok (settings, frag)

/-- The settings of the manifest. -/
def freshSettings (host : Host) (m : MergedManifest) : Except String Json := do
  let hooks ← hooksValue host m
  checkNativePlugins (fragment "claude_code" m.capabilities.nativePlugins)
  let settings ← overlayNative (.obj (renderedSettings m hooks))
    (fragment "claude_code" m.capabilities.nativePlugins)
  checkNative (fragment "claude_code" m.native)
  let merged ← mergePermissions settings (fragment "claude_code" m.native)
  let settings ← overlayNative merged.1 merged.2
  .ok (stripJsonNulls settings)

/-! ## What a fragment puts under a key -/

/-- The fields of a fragment, none when it is no object. -/
def fragFields (frag : Option Yaml) : List (String × Json) :=
  match frag.map Yaml.toJson with
  | some (.ok (.obj fields)) => fields
  | _ => []

/-- The catch-all fragment without its permissions. -/
def restOf (frag : Option Yaml) : Option Yaml :=
  match frag with
  | none => none
  | some y =>
      if (y.get? "permissions").isSome then
        some (.map (Yaml.removeKey "permissions" (y.asMapping?.getD [])))
      else some y

/-- Remove nulls from a setting, and the setting when it is null. -/
def stripSetting (v : Option Json) : Option Json :=
  v.bind (fun v => if v = .null then none else some (stripJsonNullsDepth v 1))

/-- A rendered setting with the two fragments merged over it. -/
def overlaid (m : MergedManifest) (rendered : Option Json) (k : String) : Option Json :=
  stripSetting (mergeOption (mergeOption rendered
    (Fields.get k (fragFields (fragment "claude_code" m.capabilities.nativePlugins))))
    (Fields.get k (fragFields (restOf (fragment "claude_code" m.native)))))

theorem sorted_fragFields (frag : Option Yaml) : Fields.Sorted (fragFields frag) := by
  unfold fragFields
  split
  · rename_i fields h
    obtain ⟨y, -, hy⟩ := Option.map_eq_some_iff.mp h
    exact (Json.wf_obj.mp (Yaml.wf_toJson hy)).sorted
  · exact Fields.sorted_nil

theorem fragFields_eq {frag : Option Yaml} {fields : List (String × Json)}
    (h : frag = none ∧ fields = [] ∨ ∃ y, frag = some y ∧ y.toJson = .ok (.obj fields)) :
    fragFields frag = fields := by
  rcases h with ⟨rfl, rfl⟩ | ⟨y, rfl, hy⟩
  · rfl
  · simp [fragFields, hy]

theorem fragFields_eq_nil {y : Yaml} {j : Json} (hy : y.toJson = .ok j) (hj : j.asObject? = none) :
    fragFields (some y) = [] := by
  cases j with
  | obj fields => exact absurd hj (by simp [Json.asObject?])
  | _ => simp [fragFields, hy]

/-- An overlay on an object, when it leaves an object. -/
theorem overlayNative_obj {dst fields : List (String × Json)} {frag : Option Yaml}
    (h : overlayNative (.obj dst) frag = .ok (.obj fields)) :
    fields = mergeFields dst (fragFields frag) := by
  generalize hdoc : Json.obj fields = doc at h
  cases overlayNative_ok h with
  | merged _ hfrag =>
      rw [fragFields_eq hfrag]
      exact Json.obj.inj hdoc
  | replaced _ _ hobj =>
      have hnot := congrArg Json.asObject? hdoc
      rw [mergeJson_not_obj hobj] at hnot
      exact absurd hnot (by simp [Json.asObject?])

theorem rejectModeledKeysInCatchAll_ok {frag : Yaml}
    (h : rejectModeledKeysInCatchAll frag = .ok ()) : frag.get? "hooks" = none := by
  unfold rejectModeledKeysInCatchAll at h
  split at h
  · exact absurd h (by simp)
  · rename_i hnone
    simpa using List.find?_eq_none.mp hnone "hooks" (by simp [modeledSettingsKeys])

/-- A fragment for plugins is a mapping, without `hooks` and `permissions`. -/
theorem checkNativePlugins_ok {plugins : Yaml} (h : checkNativePlugins (some plugins) = .ok ()) :
    plugins.asMapping?.isSome ∧ plugins.get? "hooks" = none ∧
      plugins.get? "permissions" = none := by
  simp only [checkNativePlugins] at h
  split at h
  · exact absurd h (by simp)
  · rename_i hmap
    obtain ⟨hhooks, hperms⟩ := bind_unit_eq_ok h
    refine ⟨by simpa [Option.isSome_iff_ne_none] using hmap,
      rejectModeledKeysInCatchAll_ok hhooks, ?_⟩
    unfold rejectPermissions at hperms
    split at hperms
    · exact absurd hperms (by simp)
    · rename_i hnone
      simpa using hnone

theorem get_fragFields_eq_none {k : String} (hk : PlainName k) {frag : Option Yaml}
    (h : frag.bind (Yaml.get? k) = none) : Fields.get k (fragFields frag) = none := by
  unfold fragFields
  split
  · rename_i fields hfields
    obtain ⟨y, rfl, hy⟩ := Option.map_eq_some_iff.mp hfields
    exact get_toJson_eq_none hk hy h
  · rfl

/-- The rest of the catch-all has no permissions, and no hooks when it has none
before. -/
theorem get?_restOf {k : String} {frag : Option Yaml}
    (h : k = "permissions" ∨ frag.bind (Yaml.get? k) = none) :
    (restOf frag).bind (Yaml.get? k) = none := by
  unfold restOf
  cases frag with
  | none => rfl
  | some y =>
      simp only
      split
      · rename_i hperms
        have hmap : (Yaml.map (Yaml.removeKey "permissions" (y.asMapping?.getD []))).get? k =
            if k = "permissions" then none else Yaml.getKey k (y.asMapping?.getD []) :=
          Yaml.getKey_removeKey
        rw [Option.bind_some, hmap]
        rcases h with rfl | h
        · rfl
        · split
          · rfl
          · rw [Option.bind_some, Yaml.get?] at h
            cases hentries : y.asMapping? with
            | none => rfl
            | some entries =>
                rw [hentries] at h
                exact h
      · rename_i hperms
        rcases h with rfl | h
        · simpa using hperms
        · exact h

/-! ## The settings, key by key -/

theorem sorted_renderedSettings (m : MergedManifest) (hooks : Json) :
    Fields.Sorted (renderedSettings m hooks) := by
  refine sorted_insertSome (sorted_insertSome (sorted_insertSome (sorted_insertSome
    (sorted_insertSome (Fields.sorted_insert (Fields.sorted_insert (sorted_insertSome
      (sorted_insertSome ?_))))))))
  exact List.pairwise_singleton _ _

theorem get_renderedSettings_hooks (m : MergedManifest) (hooks : Json) :
    Fields.get "hooks" (renderedSettings m hooks) = some hooks := by
  simp [renderedSettings, renderPlugins, get_insertSome, Fields.get_insert, Fields.get_cons]

theorem get_renderedSettings_permissions (m : MergedManifest) (hooks : Json) :
    Fields.get "permissions" (renderedSettings m hooks) = (permissionsObject m).map .obj := by
  simp [renderedSettings, renderPlugins, get_insertSome, Fields.get_insert, Fields.get_cons]

/-- A fragment that is a mapping leaves an object. -/
theorem overlayNative_mapping {dst : List (String × Json)} {frag : Option Yaml} {doc : Json}
    (hfrag : ∀ y, frag = some y → y.asMapping?.isSome)
    (h : overlayNative (.obj dst) frag = .ok doc) : ∃ fields, doc = .obj fields := by
  cases overlayNative_ok h with
  | merged _ _ => exact ⟨_, rfl⟩
  | @replaced y j hy hjson hobj =>
      have hkind : (∃ entries, y = .map entries) ∨ ∃ tag v, y = .tagged tag v := by
        have hmap := hfrag y hy
        cases y with
        | map entries => exact Or.inl ⟨entries, rfl⟩
        | tagged tag v => exact Or.inr ⟨tag, v, rfl⟩
        | _ => exact absurd hmap (by simp [Yaml.asMapping?, Yaml.untag])
      obtain ⟨src, rfl⟩ := (toJson_obj_iff hjson).mpr hkind
      exact absurd hobj (by simp [Json.asObject?])

theorem permissionsOf_stripFields {fields : List (String × Json)} (h : Fields.Sorted fields) :
    permissionsOf (stripFields fields 1) = stripFields (permissionsOf fields) 2 := by
  unfold permissionsOf
  rw [get_stripFields h]
  cases hget : Fields.get "permissions" fields with
  | none => rfl
  | some v =>
      cases v with
      | obj perms => simp [Json.asObject?, stripJsonNullsDepth]
      | arr items => simp [Json.asObject?, stripJsonNullsDepth, stripFields]
      | _ => rfl

/-- What the settings of a manifest are made of. -/
structure FreshParts (m : MergedManifest) (hooks : Json) (fresh : List (String × Json)) : Prop where
  sorted : Fields.Sorted fresh
  setting : ∀ k, k ≠ "permissions" →
    Fields.get k fresh = overlaid m (Fields.get k (renderedSettings m hooks)) k
  hooks : Fields.get "hooks" fresh = stripSetting (some hooks)
  permissions : ∃ settings settings' rest,
    permissionsOf settings = (permissionsObject m).getD [] ∧
    mergeNativePermissions settings (fragment "claude_code" m.native) = .ok (settings', rest) ∧
    permissionsOf fresh = stripFields (permissionsOf settings') 2

theorem mergeNativePermissions_rest {settings settings' : List (String × Json)}
    {frag rest : Option Yaml} (h : mergeNativePermissions settings frag = .ok (settings', rest)) :
    rest = restOf frag := by
  rcases mergeNativePermissions_ok h with ⟨hnone, -, rfl⟩ | ⟨y, p, json, rfl, hp, -, -, -, rfl⟩
  · cases rest with
    | none => rfl
    | some y =>
        have hnone : y.get? "permissions" = none := hnone
        simp [restOf, hnone]
  · simp [restOf, hp]

theorem get_mergeNativePermissions {settings settings' : List (String × Json)}
    {frag rest : Option Yaml} (h : mergeNativePermissions settings frag = .ok (settings', rest))
    {k : String} (hk : k ≠ "permissions") : Fields.get k settings' = Fields.get k settings := by
  rcases mergeNativePermissions_ok h with ⟨-, rfl, -⟩ | ⟨y, p, json, -, -, -, -, rfl, -⟩
  · rfl
  · rw [Fields.get_insert, if_neg fun h => hk h.symm]

theorem sorted_mergeNativePermissions {settings settings' : List (String × Json)}
    {frag rest : Option Yaml} (h : mergeNativePermissions settings frag = .ok (settings', rest))
    (hs : Fields.Sorted settings) : Fields.Sorted settings' := by
  rcases mergeNativePermissions_ok h with ⟨-, rfl, -⟩ | ⟨y, p, json, -, -, -, -, rfl, -⟩
  · exact hs
  · exact Fields.sorted_insert hs

theorem checkNative_ok {native : Option Yaml} (h : checkNative native = .ok ()) :
    native.bind (Yaml.get? "hooks") = none := by
  cases native with
  | none => rfl
  | some y => exact rejectModeledKeysInCatchAll_ok h

/-- The layers of the settings: what is rendered, the plugin fragment, the
permissions of the catch-all, and its rest. -/
structure Layers (m : MergedManifest) (hooks : Json)
    (settings settings' fresh : List (String × Json)) : Prop where
  plugins : checkNativePlugins (fragment "claude_code" m.capabilities.nativePlugins) = .ok ()
  catchAll : checkNative (fragment "claude_code" m.native) = .ok ()
  settings_eq : settings = mergeFields (renderedSettings m hooks)
    (fragFields (fragment "claude_code" m.capabilities.nativePlugins))
  permissions : mergeNativePermissions settings (fragment "claude_code" m.native) =
    .ok (settings', restOf (fragment "claude_code" m.native))
  fresh_eq : fresh = stripFields (mergeFields settings'
    (fragFields (restOf (fragment "claude_code" m.native)))) 1

theorem freshSettings_layers {host : Host} {m : MergedManifest} {fresh : List (String × Json)}
    (h : freshSettings host m = .ok (.obj fresh)) :
    ∃ hooks settings settings', hooksValue host m = .ok hooks ∧
      Layers m hooks settings settings' fresh := by
  obtain ⟨hooks, hhooks, h⟩ := bind_eq_ok.mp h
  obtain ⟨hcheck, h⟩ := bind_unit_eq_ok h
  obtain ⟨overlay, hplugins, h⟩ := bind_eq_ok.mp h
  obtain ⟨hnative, h⟩ := bind_unit_eq_ok h
  obtain ⟨merged, hmerged, h⟩ := bind_eq_ok.mp h
  obtain ⟨doc, hrest, h⟩ := bind_eq_ok.mp h
  -- The plugin fragment is a mapping, so there is an object to merge into.
  obtain ⟨settings, rfl⟩ := overlayNative_mapping
    (fun y hy => (checkNativePlugins_ok (hy ▸ hcheck)).1) hplugins
  obtain ⟨⟨settings', rest⟩, hperms, rfl⟩ := map_eq_ok.mp hmerged
  obtain rfl := mergeNativePermissions_rest hperms
  obtain ⟨fields, rfl⟩ : ∃ fields, doc = .obj fields := by
    cases doc with
    | obj fields => exact ⟨fields, rfl⟩
    | arr items => exact absurd (Except.ok.inj h) (by simp [stripJsonNulls, stripJsonNullsDepth])
    | _ => exact absurd (Except.ok.inj h) (by simp [stripJsonNulls, stripJsonNullsDepth])
  have hfresh := Except.ok.inj h
  rw [stripJsonNulls_obj, overlayNative_obj hrest] at hfresh
  exact ⟨hooks, settings, settings', hhooks, hcheck, hnative, overlayNative_obj hplugins, hperms,
    (Json.obj.inj hfresh).symm⟩

section

variable {m : MergedManifest} {hooks : Json} {settings settings' fresh : List (String × Json)}

theorem Layers.sorted_settings (h : Layers m hooks settings settings' fresh) :
    Fields.Sorted settings :=
  h.settings_eq ▸ sorted_mergeFields (sorted_renderedSettings m hooks)

theorem Layers.sorted_merged (h : Layers m hooks settings settings' fresh) :
    Fields.Sorted (mergeFields settings'
      (fragFields (restOf (fragment "claude_code" m.native)))) :=
  sorted_mergeFields (sorted_mergeNativePermissions h.permissions h.sorted_settings)

theorem Layers.setting (h : Layers m hooks settings settings' fresh) {k : String}
    (hk : k ≠ "permissions") :
    Fields.get k fresh = overlaid m (Fields.get k (renderedSettings m hooks)) k := by
  rw [h.fresh_eq, get_stripFields h.sorted_merged, get_mergeFields (sorted_fragFields _),
    get_mergeNativePermissions h.permissions hk, h.settings_eq,
    get_mergeFields (sorted_fragFields _)]
  rfl

/-- The plugin fragment has neither hooks nor permissions. -/
theorem Layers.plugin_keys (h : Layers m hooks settings settings' fresh) {k : String}
    (hk : k = "hooks" ∨ k = "permissions") :
    Fields.get k (fragFields (fragment "claude_code" m.capabilities.nativePlugins)) = none := by
  have hnone : (fragment "claude_code" m.capabilities.nativePlugins).bind (Yaml.get? k) = none := by
    cases hfrag : fragment "claude_code" m.capabilities.nativePlugins with
    | none => rfl
    | some y =>
        obtain ⟨-, hhooks, hperms⟩ := checkNativePlugins_ok (hfrag ▸ h.plugins)
        rcases hk with rfl | rfl
        · exact hhooks
        · exact hperms
  rcases hk with rfl | rfl
  · exact get_fragFields_eq_none (by decide) hnone
  · exact get_fragFields_eq_none (by decide) hnone

theorem Layers.parts (h : Layers m hooks settings settings' fresh) : FreshParts m hooks fresh := by
  have hrest : ∀ {k : String}, PlainName k →
      k = "permissions" ∨ (fragment "claude_code" m.native).bind (Yaml.get? k) = none →
      Fields.get k (fragFields (restOf (fragment "claude_code" m.native))) = none :=
    fun hplain hk => get_fragFields_eq_none hplain (get?_restOf hk)
  refine ⟨?_, fun k hk => h.setting hk, ?_, settings, settings', _, ?_, h.permissions, ?_⟩
  · rw [h.fresh_eq, stripFields_eq]
    exact Fields.sorted_mapValues (Fields.sorted_filter h.sorted_merged)
  · rw [h.setting (k := "hooks") (by decide), overlaid, get_renderedSettings_hooks,
      h.plugin_keys (Or.inl rfl), hrest (by decide) (Or.inr (checkNative_ok h.catchAll))]
    rfl
  · rw [permissionsOf, h.settings_eq, get_mergeFields (sorted_fragFields _),
      h.plugin_keys (Or.inr rfl), mergeOption_none, get_renderedSettings_permissions]
    cases permissionsObject m with
    | none => rfl
    | some perms => rfl
  · rw [h.fresh_eq, permissionsOf_stripFields h.sorted_merged, permissionsOf, permissionsOf,
      get_mergeFields (sorted_fragFields _), hrest (by decide) (Or.inl rfl), mergeOption_none]

end

theorem freshSettings_ok {host : Host} {m : MergedManifest} {fresh : List (String × Json)}
    (h : freshSettings host m = .ok (.obj fresh)) :
    ∃ hooks, hooksValue host m = .ok hooks ∧ FreshParts m hooks fresh := by
  obtain ⟨hooks, settings, settings', hhooks, hlayers⟩ := freshSettings_layers h
  exact ⟨hooks, hhooks, hlayers.parts⟩

/-- The hooks are in the settings as they are rendered. -/
theorem FreshParts.get_hooks {host : Host} {m : MergedManifest} {hooks : Json}
    {fresh : List (String × Json)} (h : FreshParts m hooks fresh)
    (hhooks : hooksValue host m = .ok hooks) :
    Fields.get "hooks" fresh = if hooks = .null then none else some hooks := by
  rw [h.hooks]
  simp [stripSetting, stripJsonNullsDepth_of_normal (normal_hooksValue hhooks)]

/-! ## Keys in order -/

theorem wf_object {fields : List (String × Json)} (h : ∀ f ∈ fields, f.2.Wf) :
    (Json.object fields).Wf := Json.wf_obj.mpr (.ofList h)

theorem wf_nonEmptyObject {j w : Json} (hj : j.Wf) (h : nonEmptyObject j = some w) : w.Wf := by
  unfold nonEmptyObject at h
  split at h
  · exact Option.some.inj h ▸ hj
  · exact absurd h (by simp)

theorem wf_renderMarketplaceSource {mk : ResolvedMarketplace} {w : Json}
    (h : renderMarketplaceSource mk = some w) : w.Wf := by
  have hsource : ∀ kind key value, (Json.object [("source",
      Json.object [("source", .str kind), (key, .str value)])]).Wf := by
    intro kind key value
    refine wf_object fun f hf => ?_
    obtain rfl := List.mem_singleton.mp hf
    exact wf_object (by simpa using ⟨Json.Wf.str kind, Json.Wf.str value⟩)
  unfold renderMarketplaceSource at h
  split at h
  · obtain ⟨r, -, rfl⟩ := Option.map_eq_some_iff.mp h
    exact hsource _ _ _
  · obtain ⟨path, -, rfl⟩ := Option.map_eq_some_iff.mp h
    exact hsource _ _ _

theorem wf_knownMarketplaces (m : MergedManifest) : Json.WfFields (knownMarketplaces m) := by
  have hloop : ∀ (l : List ResolvedMarketplace) {acc : List (String × Json)}, Json.WfFields acc →
      Json.WfFields (l.foldl
        (fun acc mk => insertSome mk.name (renderMarketplaceSource mk) acc) acc) := by
    intro l
    induction l with
    | nil => exact fun h => h
    | cons mk l ih => exact fun h => ih (wf_insertSome h fun w => wf_renderMarketplaceSource)
  exact hloop m.marketplaces .nil

theorem wf_permissionsObject {m : MergedManifest} {w : Json}
    (h : (permissionsObject m).map Json.obj = some w) : w.Wf := by
  obtain ⟨perms, hperms, rfl⟩ := Option.map_eq_some_iff.mp h
  unfold permissionsObject at hperms
  simp only at hperms
  split at hperms
  · exact absurd hperms (by simp)
  · obtain rfl := Option.some.inj hperms
    refine Json.wf_obj.mpr (wf_insertSome (.ofList ?_) fun w hw => ?_)
    · simpa using ⟨wf_strings _, wf_strings _, wf_strings _⟩
    · obtain ⟨mode, -, rfl⟩ := Option.map_eq_some_iff.mp hw
      exact .str _

theorem wf_renderedSettings (m : MergedManifest) {hooks : Json} (h : hooks.Wf) :
    Json.WfFields (renderedSettings m hooks) := by
  have henabled : Json.WfFields (enabledPlugins m) := by
    refine .ofList fun f hf => ?_
    obtain ⟨p, -, rfl⟩ := List.mem_map.mp hf
    exact .bool true
  have hauto : ∀ w, autoMemory m = some w → w.Wf := by
    intro w hw
    unfold autoMemory at hw
    split at hw
    · exact Option.some.inj hw ▸ .bool _
    · split at hw
      · exact Option.some.inj hw ▸ .bool _
      · exact absurd hw (by simp)
  have hstyle : ∀ w, selectedStyle m = some w → w.Wf := by
    intro w hw
    unfold selectedStyle at hw
    split at hw
    · exact Option.some.inj hw ▸ .str _
    · exact absurd hw (by simp)
  refine wf_insertSome (wf_insertSome (wf_insertSome (wf_insertStr (wf_insertStr
    ((((wf_insertSome (wf_insertSome (wf_singleton h) fun w => wf_permissionsObject)
      hauto).insert (.bool false)).insert (.bool false))))) hstyle) fun w => ?_) fun w => ?_
  · exact wf_nonEmptyObject (Json.wf_obj.mpr (wf_knownMarketplaces m))
  · exact wf_nonEmptyObject (Json.wf_obj.mpr henabled)

theorem wf_retain {key : String} {drop : List String} {fields : List (String × Json)}
    (h : Json.WfFields fields) : Json.WfFields (retain key drop fields) := by
  unfold retain
  split
  · rename_i items hget
    refine h.insert (.arr fun j hj => ?_)
    exact Json.wf_arr.mp (h.get hget) j (List.mem_of_mem_filter hj)
  · exact h

theorem wf_mergeNativeKeys {native rendered : List (String × Json)} (hnative : ∀ f ∈ native, f.2.Wf)
    (h : Json.WfFields rendered) : Json.WfFields (mergeNativeKeys native rendered) := by
  unfold mergeNativeKeys
  induction native generalizing rendered with
  | nil => exact h
  | cons f native ih =>
      obtain ⟨hf, hrest⟩ := List.forall_mem_cons.mp hnative
      rw [List.foldl_cons, mergeNativeKey_eq]
      refine ih hrest (h.insert ?_)
      unfold nativeValue
      split
      · exact wf_strings _
      · exact hf

theorem wf_mergeNativePermissions {settings settings' : List (String × Json)}
    {frag rest : Option Yaml} (hs : Json.WfFields settings)
    (h : mergeNativePermissions settings frag = .ok (settings', rest)) :
    Json.WfFields settings' := by
  rcases mergeNativePermissions_ok h with ⟨-, rfl, -⟩ | ⟨y, p, json, -, -, hjson, -, rfl, -⟩
  · exact hs
  · have hperms : Json.WfFields (permissionsOf settings) := hs.objectAt _
    have hnative : ∀ f ∈ json.asObject?.getD [], f.2.Wf := by
      cases json with
      | obj fields => exact (Json.wf_obj.mp (Yaml.wf_toJson hjson)).values
      | _ => exact fun f hf => absurd hf List.not_mem_nil
    exact hs.insert (Json.wf_obj.mpr
      (wf_retain (wf_retain (wf_retain (wf_mergeNativeKeys hnative hperms)))))

theorem wf_freshSettings {host : Host} {m : MergedManifest} {fresh : Json}
    (h : freshSettings host m = .ok fresh) : fresh.Wf := by
  obtain ⟨hooks, hhooks, h⟩ := bind_eq_ok.mp h
  obtain ⟨-, h⟩ := bind_unit_eq_ok h
  obtain ⟨overlay, hplugins, h⟩ := bind_eq_ok.mp h
  obtain ⟨-, h⟩ := bind_unit_eq_ok h
  obtain ⟨merged, hmerged, h⟩ := bind_eq_ok.mp h
  obtain ⟨doc, hrest, h⟩ := bind_eq_ok.mp h
  have hrendered := wf_renderedSettings m (wf_hooksValue hhooks)
  have hoverlay : overlay.Wf := wf_overlayNative (Json.wf_obj.mpr hrendered) hplugins
  refine Except.ok.inj h ▸ wf_stripJsonNullsDepth (wf_overlayNative ?_ hrest) 0
  cases overlay with
  | obj fields =>
      obtain ⟨⟨settings', rest⟩, hperms, rfl⟩ := map_eq_ok.mp hmerged
      exact Json.wf_obj.mpr (wf_mergeNativePermissions (Json.wf_obj.mp hoverlay) hperms)
  | _ => exact Except.ok.inj hmerged ▸ hoverlay

end Llmenv.Adapter.ClaudeCode
