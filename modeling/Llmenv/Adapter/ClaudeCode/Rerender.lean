/-
# `Llmenv.Adapter.ClaudeCode.Rerender` — does an old folder end up like a fresh one?

A folder lives on while the configuration changes, and each render reconciles the
new settings with those of the last one.  What a render leaves behind is compared
with what the same render writes into an empty folder.

Owned keys are replaced, and the sidecars and the companion file take back hooks
and entries of `modelSettings`.  Nothing takes back any other key, nor what a
fragment puts into `modelSettings` or in the place of a list of hooks; so the two
agree (`rerender_like_fresh`) as long as the next manifest writes over these.
-/
import Llmenv.Adapter.ClaudeCode.HookHistory

namespace Llmenv.Adapter.ClaudeCode

open Llmenv.Lib Llmenv.Manifest

/-- Equal settings, up to the order of the entries of an event and events without
entries. -/
inductive SameSettings : Json → Json → Prop
  | keys {a b : List (String × Json)} :
      (∀ k, k ≠ "hooks" → Fields.get k a = Fields.get k b) →
      Option.Rel SameHooks (Fields.get "hooks" a) (Fields.get "hooks" b) →
      SameSettings (.obj a) (.obj b)

theorem SameSettings.get?_eq {a b : Json} (h : SameSettings a b) {k : String} (hk : k ≠ "hooks") :
    a.get? k = b.get? k := by
  cases h with
  | keys hkeys _ => exact hkeys k hk

/-- Render one manifest after the other into a folder. -/
def renderAll (out : SettingsFolder) :
    List (Host × MergedManifest) → Except String SettingsFolder
  | [] => .ok out
  | (host, m) :: steps => do
      let out ← generateSettingsJson host m out
      renderAll out steps

/-- The setting `enabledPlugins`. -/
def enabledSetting (m : MergedManifest) : Option Json :=
  overlaid m (nonEmptyObject (.obj (enabledPlugins m))) "enabledPlugins"

/-- What the next manifest has to write over.  A key that is not owned, from a
fragment, is written again; the `modelSettings` of a fragment are absorbed; and so
are the hooks that no sidecar takes back. -/
structure Carries (host : Host) (m : MergedManifest) (host' : Host) (m' : MergedManifest) :
    Prop where
  keys : ∀ k, k ∉ llmenvOwnedSettingsKeys → k ≠ "advisorSize" → k ≠ "modelSettings" →
    overlaid m none k ≠ none → overlaid m' none k ≠ none
  models : ∀ v, overlaid m none "modelSettings" = some v →
    ∃ w, overlaid m' none "modelSettings" = some w ∧ Absorbs v w
  hooks : ∀ hooks hooks', hooksValue host m = .ok hooks → hooksValue host' m' = .ok hooks' →
    HooksCarried host' (disabledRoots host' (pluginInstallPaths m.plugins) (enabledSetting m'))
      hooks hooks'

/-! ## The settings of one manifest -/

theorem get_renderedSettings_not_owned (m : MergedManifest) (hooks : Json) {k : String}
    (hk : k ∉ llmenvOwnedSettingsKeys) : Fields.get k (renderedSettings m hooks) = none := by
  simp only [llmenvOwnedSettingsKeys, List.mem_cons, not_or] at hk
  simp [renderedSettings, renderPlugins, get_insertSome, Fields.get_insert, Fields.get_cons,
    eq_comm, hk]

theorem get_renderedSettings_enabledPlugins (m : MergedManifest) (hooks : Json) :
    Fields.get "enabledPlugins" (renderedSettings m hooks) =
      nonEmptyObject (.obj (enabledPlugins m)) := by
  simp [renderedSettings, renderPlugins, get_insertSome, Fields.get_insert, Fields.get_cons]

section

variable {host host' : Host} {m m' : MergedManifest} {out out' : SettingsFolder}
  {fresh fresh' : List (String × Json)}

/-- A key that is not owned is what the fragments give. -/
theorem get_fresh_not_owned (h : freshSettings host m = .ok (.obj fresh)) {k : String}
    (hk : k ∉ llmenvOwnedSettingsKeys) : Fields.get k fresh = overlaid m none k := by
  obtain ⟨hooks, -, hparts⟩ := freshSettings_ok h
  have hperms : k ≠ "permissions" := by
    rintro rfl
    exact hk (by decide)
  rw [hparts.setting k hperms, get_renderedSettings_not_owned m hooks hk]

theorem get_fresh_enabledPlugins (h : freshSettings host m = .ok (.obj fresh)) :
    Fields.get "enabledPlugins" fresh = enabledSetting m := by
  obtain ⟨hooks, -, hparts⟩ := freshSettings_ok h
  rw [hparts.setting _ (by decide), get_renderedSettings_enabledPlugins, enabledSetting]

theorem get_fresh_modelSettings (h : freshSettings host m = .ok (.obj fresh)) :
    Fields.get "modelSettings" fresh = overlaid m none "modelSettings" :=
  get_fresh_not_owned h (by decide)

theorem clean_modelSettings (h : freshSettings host m = .ok (.obj fresh)) {v : Json}
    (hv : Fields.get "modelSettings" fresh = some v) : CleanSettings v := by
  have hwf := (Json.wf_obj.mp (wf_freshSettings h)).get hv
  rw [get_fresh_modelSettings h, overlaid, stripSetting] at hv
  obtain ⟨x, -, hx⟩ := Option.bind_eq_some_iff.mp hv
  split at hx
  · exact absurd hx (by simp)
  · rename_i hnull
    obtain rfl := Option.some.inj hx
    exact cleanSettings_strip hwf hnull

/-- The hooks of the settings: none, or the rendered ones. -/
theorem get_fresh_hooks (h : freshSettings host m = .ok (.obj fresh)) {hooks : Json}
    (hget : Fields.get "hooks" fresh = some hooks) : hooksValue host m = .ok hooks := by
  obtain ⟨hooks', hhooks', hparts⟩ := freshSettings_ok h
  rw [hparts.get_hooks hhooks'] at hget
  split at hget
  · exact absurd hget (by simp)
  · exact Option.some.inj hget ▸ hhooks'

/-! ## One render after another -/

/-- The folder after a render: the file is the one of that manifest alone, and the
other files record what llmenv wrote. -/
structure Settled (m : MergedManifest) (fresh doc : List (String × Json)) (out : SettingsFolder) :
    Prop where
  file : ∃ d, out.settings = .doc d ∧ d.value = .obj doc
  keys : ∀ k, k ≠ "hooks" → k ≠ "modelSettings" → Fields.get k doc = Fields.get k fresh
  models : Fields.get "modelSettings" doc =
    modelValue (managedEntries m.capabilities) [] (Fields.get "modelSettings" fresh) none
  hooks : Option.Rel SameHooks (Fields.get "hooks" doc) (Fields.get "hooks" fresh)
  hooksSidecar : ∀ hooks, Fields.get "hooks" fresh = some hooks → out.hooksSidecar = some hooks
  pluginPaths : out.pluginPathsSidecar = some (pluginInstallPathsJson m.plugins)
  owned : out.ownedModelSettings = ownedModelSettings (managedEntries m.capabilities)

/-- A render into an empty folder reads nothing. -/
theorem generated_empty (h : generateSettingsJson host m .empty = .ok out) :
    ∃ fresh doc, Generated host m .empty out fresh doc [] none := by
  obtain ⟨fresh, doc, prev, existing, hgen⟩ := generateSettingsJson_ok h
  obtain rfl : none = existing := Except.ok.inj hgen.read
  obtain rfl : [] = prev := Except.ok.inj hgen.companion
  exact ⟨fresh, doc, hgen⟩

theorem settled_first (h : generateSettingsJson host m .empty = .ok out) :
    ∃ fresh doc, freshSettings host m = .ok (.obj fresh) ∧ Settled m fresh doc out := by
  obtain ⟨fresh, doc, hgen⟩ := generated_empty h
  have hget := hgen.get_alone rfl
  have hhooks : Fields.get "hooks" doc = Fields.get "hooks" fresh := hget "hooks"
  refine ⟨fresh, doc, hgen.rendered, hgen.settings, fun k hhooks hmodels => ?_,
    hget "modelSettings", ?_, fun hooks hhooks => ?_, hgen.pluginPaths, hgen.owned⟩
  · rw [hget, if_neg hmodels]
  · rw [hhooks]
    cases Fields.get "hooks" fresh with
    | none => exact .none
    | some hooks => exact .some (.same hooks)
  · rw [hgen.hooksSidecar, hhooks, Option.some_or]

/-- The companion file has the entries of the last render. -/
theorem Settled.previousEntries_eq {doc : List (String × Json)} (h : Settled m fresh doc out) :
    previousEntries out = .ok (managedEntries m.capabilities) := by
  obtain ⟨d, hd, -⟩ := h.file
  rw [previousEntries, hd]
  simp only [h.owned, ownedModelSettings]
  cases managedEntries m.capabilities with
  | nil => rfl
  | cons e entries => rfl

/-- The hooks of the file after the next render are those of the next manifest. -/
theorem Settled.hooks_next {doc : List (String × Json)}
    (hfresh : freshSettings host m = .ok (.obj fresh)) (h : Settled m fresh doc out)
    (hcarries : Carries host m host' m')
    (hfresh' : freshSettings host' m' = .ok (.obj fresh')) :
    Option.Rel SameHooks (ownedValue host' out fresh' "hooks" (Fields.get "hooks" doc))
      (Fields.get "hooks" fresh') := by
  unfold ownedValue
  cases hnew : Fields.get "hooks" fresh' with
  | none => exact .none
  | some hooks' =>
      refine .some ?_
      simp only [if_true]
      have hsame := h.hooks
      cases hold : Fields.get "hooks" doc with
      | none => exact .same hooks'
      | some old =>
          rw [hold] at hsame
          cases hlast : Fields.get "hooks" fresh with
          | none => exact absurd (hlast ▸ hsame) (fun h => nomatch h)
          | some hooks =>
              rw [hlast] at hsame
              cases hsame with
              | some hsame =>
                  obtain ⟨d, -, hvalue⟩ := h.file
                  have holdWf : old.Wf := (Json.wf_obj.mp (hvalue ▸ d.wf)).get hold
                  have hhooks := get_fresh_hooks hfresh hlast
                  have hhooks' := get_fresh_hooks hfresh' hnew
                  refine sameHooks_reconciled holdWf hsame (wf_hooksValue hhooks)
                    (normal_hooksValue hhooks) (wf_hooksValue hhooks') (normal_hooksValue hhooks')
                    (h.hooksSidecar hooks hlast) h.pluginPaths ?_
                  rw [get_fresh_enabledPlugins hfresh']
                  exact hcarries.hooks hooks hooks' hhooks hhooks'

/-- What one more render preserves. -/
theorem Settled.next {doc : List (String × Json)}
    (hfresh : freshSettings host m = .ok (.obj fresh)) (h : Settled m fresh doc out)
    (hcarries : Carries host m host' m')
    (hrender : generateSettingsJson host' m' out = .ok out') :
    ∃ fresh' doc', freshSettings host' m' = .ok (.obj fresh') ∧ Settled m' fresh' doc' out' := by
  obtain ⟨fresh', doc', prev, existing, hgen⟩ := generateSettingsJson_ok hrender
  have hfresh' := hgen.rendered
  obtain ⟨d, hd, hvalue⟩ := h.file
  obtain rfl : managedEntries m.capabilities = prev :=
    Except.ok.inj (h.previousEntries_eq.symm.trans hgen.companion)
  have hexisting : existing = some (.obj doc) := by
    have hread := hgen.read
    rw [hd, existingSettings, hvalue] at hread
    exact (Except.ok.inj hread).symm
  have hget := hgen.get_reconciled hexisting
  refine ⟨fresh', doc', hfresh', hgen.settings, fun k hhooks hmodels => ?_, ?_, ?_,
    fun hooks hhooks => ?_, hgen.pluginPaths, hgen.owned⟩
  · rw [hget, if_neg hmodels]
    by_cases hk : k ∈ llmenvOwnedSettingsKeys
    · rw [if_pos hk, ownedValue]
      simp only [if_neg hhooks, Option.map_id']
    · rw [if_neg hk]
      by_cases hadvisor : k = "advisorSize"
      · rw [if_pos hadvisor, Option.or_none]
      · -- A key that the last render had is written over.
        rw [if_neg hadvisor, h.keys k hhooks hmodels]
        cases hnew : Fields.get k fresh' with
        | some v => rfl
        | none =>
            rw [Option.none_or, get_fresh_not_owned hfresh hk]
            rw [get_fresh_not_owned hfresh' hk] at hnew
            by_contra hne
            exact hcarries.keys k hk hadvisor hmodels hne hnew
  · rw [hget, if_pos rfl, h.models]
    refine modelValue_again (managedEntries_ok _) (managedEntries_ok _) fun v hv => ?_
    have hv' := hv
    rw [get_fresh_modelSettings hfresh] at hv'
    obtain ⟨w, hw, habsorbs⟩ := hcarries.models v hv'
    rw [← get_fresh_modelSettings hfresh'] at hw
    exact ⟨clean_modelSettings hfresh hv, w, hw, clean_modelSettings hfresh' hw, habsorbs⟩
  · rw [hget, if_neg (by decide), if_pos (by decide)]
    exact h.hooks_next hfresh hcarries hfresh'
  · rw [hgen.hooksSidecar, hhooks, Option.some_or]

/-- What a run preserves. -/
theorem Settled.run {last : Host × MergedManifest} {steps : List (Host × MergedManifest)}
    {doc : List (String × Json)} (hfresh : freshSettings host m = .ok (.obj fresh))
    (h : Settled m fresh doc out)
    (hchain : ((host, m) :: steps).IsChain (fun a b => Carries a.1 a.2 b.1 b.2))
    (hlast : ((host, m) :: steps).getLast? = some last) (hrun : renderAll out steps = .ok out') :
    ∃ fresh' doc', freshSettings last.1 last.2 = .ok (.obj fresh') ∧
      Settled last.2 fresh' doc' out' := by
  induction steps generalizing host m fresh doc out with
  | nil =>
      obtain rfl := Option.some.inj hlast
      obtain rfl := Except.ok.inj hrun
      exact ⟨fresh, doc, hfresh, h⟩
  | cons step steps ih =>
      obtain ⟨host', m'⟩ := step
      obtain ⟨hcarries, hchain⟩ := List.isChain_cons_cons.mp hchain
      obtain ⟨next, hnext, hrun⟩ := bind_eq_ok.mp hrun
      obtain ⟨fresh', doc', hfresh', h'⟩ := h.next hfresh hcarries hnext
      exact ih hfresh' h' hchain (List.getLast?_cons_cons ▸ hlast) hrun

/-! ## The result -/

/-- A manifest that renders into some folder renders into an empty one. -/
theorem generateSettingsJson_empty (h : freshSettings host m = .ok (.obj fresh)) :
    ∃ alone, generateSettingsJson host m .empty = .ok alone := by
  cases halone : generateSettingsJson host m .empty with
  | ok alone => exact ⟨alone, rfl⟩
  | error e =>
      have hdoc : ∃ doc, settingsDoc host m .empty (.obj fresh) = .ok doc := by
        have heq : settingsDoc host m .empty (.obj fresh) =
            applyModelSettings (managedEntries m.capabilities) [] (Fields.get "modelSettings" fresh)
              (.obj (Fields.erase "modelSettings" fresh)) := rfl
        rw [heq]
        simp only [applyModelSettings]
        cases Fields.get "modelSettings" fresh with
        | none => exact ⟨_, rfl⟩
        | some v => exact ⟨_, rfl⟩
      unfold generateSettingsJson at halone
      split at halone
      · rename_i hfail
        exact absurd (h.symm.trans hfail) (by simp)
      · rename_i hok
        obtain rfl := Except.ok.inj (h.symm.trans hok)
        obtain ⟨doc, hdoc⟩ := hdoc
        split at halone
        · rename_i hfail
          exact absurd (hdoc.symm.trans hfail) (by simp)
        · exact absurd halone (by simp)

/-- For every run over manifests of which each carries over what the one before it
leaves: the file is the one that the last manifest alone gives. -/
theorem rerender_like_fresh {steps : List (Host × MergedManifest)}
    (hchain : steps.IsChain (fun a b => Carries a.1 a.2 b.1 b.2))
    (hlast : steps.getLast? = some (host, m)) (hrun : renderAll .empty steps = .ok out) :
    ∃ alone d d', generateSettingsJson host m .empty = .ok alone ∧ out.settings = .doc d ∧
      alone.settings = .doc d' ∧ SameSettings d.value d'.value := by
  obtain ⟨fresh, doc, hfresh, hsettled⟩ :
      ∃ fresh doc, freshSettings host m = .ok (.obj fresh) ∧ Settled m fresh doc out := by
    cases steps with
    | nil => exact absurd hlast (by simp)
    | cons step steps =>
        obtain ⟨first, hfirst, hrun⟩ := bind_eq_ok.mp hrun
        obtain ⟨fresh, doc, hfresh, hsettled⟩ := settled_first hfirst
        exact hsettled.run hfresh hchain hlast hrun
  obtain ⟨alone, halone⟩ := generateSettingsJson_empty hfresh
  obtain ⟨fresh', doc', hgen⟩ := generated_empty halone
  obtain rfl := Json.obj.inj (Except.ok.inj (hfresh.symm.trans hgen.rendered))
  have hget := hgen.get_alone rfl
  obtain ⟨d, hd, hvalue⟩ := hsettled.file
  obtain ⟨d', hd', hvalue'⟩ := hgen.settings
  refine ⟨alone, d, d', halone, hd, hd', ?_⟩
  rw [hvalue, hvalue']
  refine .keys (fun k hk => ?_) ?_
  · by_cases hmodels : k = "modelSettings"
    · rw [hmodels, hsettled.models, hget, if_pos rfl]
    · rw [hsettled.keys k hk hmodels, hget, if_neg hmodels]
  · rw [hget "hooks", if_neg (by decide)]
    exact hsettled.hooks

/-- Without folders an entry loses nothing. -/
theorem purgeEntry_no_roots {entry left : Json} (hwf : entry.Wf)
    (h : purgeEntry host [] entry = some left) : left = entry := by
  unfold purgeEntry at h
  split at h
  · rename_i fields hooks hhooks
    have hall : hooks.filter (fun hook => !traced host [] hook) = hooks :=
      List.filter_eq_self.mpr fun hook _ => by simp [traced]
    simp only [hall] at h
    split at h
    · exact absurd h (by simp)
    · have hsorted := (Json.wf_obj.mp hwf).sorted
      have hsame : Fields.insert "hooks" (.arr hooks) fields = fields :=
        Fields.eq_of_get (Fields.sorted_insert hsorted) hsorted fun k => by
          rw [Fields.get_insert]
          split
          · rename_i hk
            exact hk ▸ hhooks.symm
          · rfl
      rw [← Option.some.inj h, hsame]
  · exact (Option.some.inj h).symm

/-- A manifest without fragments, whose plugins have no folders, leaves nothing that
the next one would have to write over. -/
theorem carries_of_no_fragments (hnative : fragment "claude_code" m.native = none)
    (hplugins : fragment "claude_code" m.capabilities.nativePlugins = none)
    (hhooks : fragment "claude_code" m.capabilities.nativeHooks = none)
    (hpaths : pluginInstallPaths m.plugins = []) : Carries host m host' m' := by
  have hnone : ∀ k, overlaid m none k = none := by
    intro k
    simp [overlaid, hnative, hplugins, restOf, fragFields, stripSetting]
  refine ⟨fun k _ _ _ h => absurd (hnone k) h, fun v hv => absurd (hnone _ ▸ hv) (by simp), ?_⟩
  intro hooks hooks' hrender hrender'
  rw [hpaths]
  have hwf := wf_hooksValue hrender
  obtain ⟨hooksByEvent, -, hdoc⟩ := hooksValue_ok hrender
  cases hdoc with
  | replaced hy _ _ => exact absurd (hhooks ▸ hy) (by simp)
  | @merged frag events hfrag _ hget =>
      obtain rfl : frag = [] := by
        rcases hfrag with ⟨-, hnil⟩ | ⟨y, hy, -⟩
        · exact hnil
        · exact absurd (hhooks ▸ hy) (by simp)
      refine ⟨fun l _ h => absurd h (by simp), fun _ event v _ hv hno => ?_,
        fun event prev new entry left hprev _ hentry hnew hleft => ?_⟩
      · -- A rendered event has a list.
        rw [Json.get?_obj, hget] at hv
        cases hes : Fields.get event hooksByEvent with
        | none => exact absurd (hes ▸ hv) (by simp [eventValue])
        | some es =>
            rw [hes] at hv
            obtain rfl := Option.some.inj hv
            exact absurd hno (by simp [Json.asArray?])
      · have hentryWf : entry.Wf :=
          Json.wf_arr.mp ((Json.wf_obj.mp hwf).get hprev) entry hentry
        rw [purgeEntry_no_roots hentryWf hleft]
        exact hnew

end

/-- A rule that is denied, and a level for the models. -/
def guardedManifest : MergedManifest :=
  { MergedManifest.empty with
    capabilities := { Capabilities.empty with
      permissions := ⟨[], [], [⟨"Write", none, []⟩]⟩
      effortLevel := some "high" } }

/-- Rule and level are dropped, and the file has neither. -/
theorem rerender_like_fresh_dropped :
    ∃ out alone d d',
      renderAll .empty [(bareHost, guardedManifest), (bareHost, MergedManifest.empty)] = .ok out ∧
      generateSettingsJson bareHost MergedManifest.empty .empty = .ok alone ∧
      out.settings = .doc d ∧ alone.settings = .doc d' ∧ SameSettings d.value d'.value := by
  have hrun : renderAll .empty [(bareHost, guardedManifest), (bareHost, MergedManifest.empty)] =
      .ok _ := rfl
  have hcarries : Carries bareHost guardedManifest bareHost MergedManifest.empty :=
    carries_of_no_fragments rfl rfl rfl rfl
  obtain ⟨alone, d, d', halone, hd, hd', hsame⟩ := rerender_like_fresh
    (List.isChain_cons_cons.mpr ⟨hcarries, List.IsChain.singleton _⟩) rfl hrun
  exact ⟨_, alone, d, d', hrun, halone, hd, hd', hsame⟩

/-- `native.claude_code` sets a key. -/
def thinkingManifest : MergedManifest :=
  { MergedManifest.empty with
    native := SortedMap.empty.insert "claude_code"
      (.map [(.str "alwaysThinkingEnabled", .bool true)]) }

/-- The key is dropped from the configuration and stays in the file. -/
theorem dropped_native_key_stays :
    ∃ out alone d d',
      renderAll .empty [(bareHost, thinkingManifest), (bareHost, MergedManifest.empty)] = .ok out ∧
      generateSettingsJson bareHost MergedManifest.empty .empty = .ok alone ∧
      out.settings = .doc d ∧ alone.settings = .doc d' ∧
      d.value.get? "alwaysThinkingEnabled" = some (.bool true) ∧
      d'.value.get? "alwaysThinkingEnabled" = none ∧ ¬ SameSettings d.value d'.value := by
  refine ⟨_, _, _, _, rfl, rfl, rfl, rfl, rfl, rfl, fun hsame => ?_⟩
  exact absurd (hsame.get?_eq (k := "alwaysThinkingEnabled") (by decide)) (by decide)

end Llmenv.Adapter.ClaudeCode
