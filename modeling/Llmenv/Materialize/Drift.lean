/-
# `Llmenv.Materialize.Drift` — does the hash see what Crush is given?

The content hash and the Crush adapter walk the same manifest.  The hash leaves
out the permissions, the hooks, the environment, the LSP servers, the model
providers and default models, the headers, timeout and hidden tools of an MCP
server, the skills and the features.  So every manifest has a neighbour with the
same hash and another `crush.json` (`envFlipped`), and a session with the old
one counts as fresh.  Two manifests with the same hash that agree on what is
left out, as far as Crush reads it, give the same file.
-/
import Llmenv.Materialize.Hash
import Llmenv.Adapter.Crush.DenyList

namespace Llmenv.Materialize

open Llmenv.Lib Llmenv.Lib.Encode Llmenv.Manifest Llmenv.Adapter Llmenv.Adapter.Crush

/-! ## What Crush reads and the hash does not -/

/-- What Crush reads of a hook. -/
def hookView (hook : Hook) : String × Option String × Option String × Option String :=
  (hook.event, hook.matcher, hook.handler.command, hook.bundleOrigin)

/-- What Crush reads of a server, its name and kind aside. -/
def serverView (mcp : ResolvedMcp) : List (String × String) × Option UInt32 × List String :=
  (mcp.headers.items, mcp.timeout, mcp.disabledTools)

/-- Two manifests agree on the inputs of `crush.json` that are not hashed. -/
structure SameUnhashed (m m' : MergedManifest) : Prop where
  permissions : permissionLists m = permissionLists m'
  hooks : (m.capabilities.hooks.filter engineCanRunHook).map hookView =
    (m'.capabilities.hooks.filter engineCanRunHook).map hookView
  servers : m.mcps.map serverView = m'.mcps.map serverView
  lsp : m.capabilities.lsp.filter (fun srv => !srv.disabled) =
    m'.capabilities.lsp.filter (fun srv => !srv.disabled)
  modelProviders : m.capabilities.modelProviders.filter (fun p => !p.disabled) =
    m'.capabilities.modelProviders.filter (fun p => !p.disabled)
  defaultModels : m.capabilities.defaultModels.items = m'.capabilities.defaultModels.items
  nativeDefaultModels : fragment "crush" m.capabilities.nativeDefaultModels =
    fragment "crush" m'.capabilities.nativeDefaultModels
  env : m.capabilities.env.items = m'.capabilities.env.items
  skills : m.capabilities.skills.isEmpty = m'.capabilities.skills.isEmpty
  installPaths : m.plugins.map ResolvedPlugin.installPath =
    m'.plugins.map ResolvedPlugin.installPath
  llmenvSkill : (llmenvSkillRefs m).isEmpty = (llmenvSkillRefs m').isEmpty

/-! ## The skills -/

theorem writeFirstClassSkills_isEmpty {host : Host} {skills : List SkillSource}
    {paths : List String} (h : writeFirstClassSkills host skills = .ok paths) :
    paths.isEmpty = skills.isEmpty := by
  cases skills with
  | nil => exact Except.ok.inj h ▸ rfl
  | cons skill skills =>
      simp only [writeFirstClassSkills] at h
      split at h
      · exact absurd h (by simp)
      · obtain ⟨written, -, h⟩ := bind_eq_ok.mp h
        obtain ⟨rest, -, h⟩ := bind_eq_ok.mp h
        exact Except.ok.inj h ▸ by simp

theorem materializeLlmenvSkill_isEmpty (m : MergedManifest) :
    (materializeLlmenvSkill m).isEmpty = (llmenvSkillRefs m).isEmpty := by
  unfold materializeLlmenvSkill
  cases llmenvSkillRefs m <;> rfl

/-- The marketplaces of a name, in two lists with the same hash. -/
theorem find?_sameMarketplace {l l' : List ResolvedMarketplace} (name : String)
    (h : List.Forall₂ SameMarketplace l l') :
    (l.find? (fun mk => mk.name = name) = none ∧ l'.find? (fun mk => mk.name = name) = none) ∨
      ∃ mk mk', l.find? (fun mk => mk.name = name) = some mk ∧
        l'.find? (fun mk => mk.name = name) = some mk' ∧ SameMarketplace mk mk' := by
  induction h with
  | nil => exact Or.inl ⟨rfl, rfl⟩
  | @cons mk mk' l l' hmk hrest ih =>
      by_cases hname : mk.name = name
      · have hname' : mk'.name = name := hmk.1 ▸ hname
        exact Or.inr ⟨mk, mk', by simp [hname], by simp [hname'], hmk⟩
      · have hname' : mk'.name ≠ name := hmk.1 ▸ hname
        simpa [hname, hname'] using ih

/-- Where both folders are found, they are the same: a marketplace without a
location is an error. -/
theorem resolvePluginPayload_same {p p' : ResolvedPlugin} {l l' : List ResolvedMarketplace}
    {path path' : String} (hp : SamePlugin p p') (hinstall : p.installPath = p'.installPath)
    (hl : List.Forall₂ SameMarketplace l l') (h : resolvePluginPayload p l = .ok path)
    (h' : resolvePluginPayload p' l' = .ok path') : path = path' := by
  obtain ⟨hmarket, hplugin, -⟩ := hp
  simp only [resolvePluginPayload, ← hmarket, ← hplugin, ← hinstall] at h h'
  split at h
  · exact absurd h (by simp)
  · rename_i hvalid
    rw [if_neg hvalid] at h'
    cases hpath : p.installPath with
    | some installed =>
        simp only [hpath] at h h'
        exact (Except.ok.inj h).symm.trans (Except.ok.inj h')
    | none =>
        simp only [hpath] at h h'
        rcases find?_sameMarketplace p.marketplace hl with ⟨hfind, -⟩ | ⟨mk, mk', hfind, hfind', hmk⟩
        · exact absurd h (by simp [hfind])
        · simp only [hfind, hfind'] at h h'
          cases hloc : mk.installLocation with
          | none => exact absurd h (by simp [hloc])
          | some location =>
              cases hloc' : mk'.installLocation with
              | none => exact absurd h' (by simp [hloc'])
              | some location' =>
                  have hsame : location = location' := by
                    simpa [hloc, hloc'] using hmk.2.2.2
                  simp only [hloc] at h
                  simp only [hloc'] at h'
                  rw [← Except.ok.inj h, ← Except.ok.inj h', hsame]

theorem projectPlugins_same {host : Host} {marketplaces marketplaces' : List ResolvedMarketplace}
    (hm : List.Forall₂ SameMarketplace marketplaces marketplaces')
    {l l' : List ResolvedPlugin} (hl : List.Forall₂ SamePlugin l l')
    (hinstall : l.map ResolvedPlugin.installPath = l'.map ResolvedPlugin.installPath) :
    ∀ {out out' : List String × List (String × String)},
      projectPlugins host marketplaces l = .ok out →
      projectPlugins host marketplaces' l' = .ok out' → out.1 = out'.1 := by
  induction hl with
  | nil =>
      intro out out' h h'
      rw [← Except.ok.inj h, ← Except.ok.inj h']
  | @cons p p' l l' hp hrest ih =>
      intro out out' h h'
      obtain ⟨hinstall, hinstallRest⟩ := List.cons.inj hinstall
      obtain ⟨payload, hpayload, h⟩ := bind_eq_ok.mp h
      obtain ⟨payload', hpayload', h'⟩ := bind_eq_ok.mp h'
      obtain rfl := resolvePluginPayload_same hp hinstall hm hpayload hpayload'
      obtain ⟨bad, hbad, h⟩ := bind_eq_ok.mp h
      obtain ⟨bad', hbad', h'⟩ := bind_eq_ok.mp h'
      obtain rfl := Except.ok.inj (hbad.symm.trans hbad')
      cases bad with
      | some dir => exact ih hinstallRest h h'
      | none =>
          obtain ⟨skills, hskills, h⟩ := bind_eq_ok.mp h
          obtain ⟨skills', hskills', h'⟩ := bind_eq_ok.mp h'
          obtain rfl := Except.ok.inj (hskills.symm.trans hskills')
          obtain ⟨paths, hpaths, h⟩ := bind_eq_ok.mp h
          obtain ⟨paths', hpaths', h'⟩ := bind_eq_ok.mp h'
          obtain rfl := Except.ok.inj (hpaths.symm.trans hpaths')
          obtain ⟨rest, hrest', h⟩ := bind_eq_ok.mp h
          obtain ⟨rest', hrest'', h'⟩ := bind_eq_ok.mp h'
          rw [← Except.ok.inj h, ← Except.ok.inj h', ih hinstallRest hrest' hrest'']

theorem hasSkills_same {host : Host} {m m' : MergedManifest} {files files' : Files}
    (hhash : SameHashed m m') (hrest : SameUnhashed m m') (h : writeFiles host m = .ok files)
    (h' : writeFiles host m' = .ok files') : files.hasSkills = files'.hasSkills := by
  obtain ⟨skills, hskills, h⟩ := bind_eq_ok.mp h
  obtain ⟨_, -, h⟩ := bind_eq_ok.mp h
  obtain ⟨plugin, hplugin, h⟩ := bind_eq_ok.mp h
  obtain ⟨_, -, h⟩ := bind_eq_ok.mp h
  obtain ⟨styles, -, h⟩ := bind_eq_ok.mp h
  obtain ⟨_, -, h⟩ := bind_eq_ok.mp h
  obtain ⟨skills', hskills', h'⟩ := bind_eq_ok.mp h'
  obtain ⟨_, -, h'⟩ := bind_eq_ok.mp h'
  obtain ⟨plugin', hplugin', h'⟩ := bind_eq_ok.mp h'
  obtain ⟨_, -, h'⟩ := bind_eq_ok.mp h'
  obtain ⟨styles', -, h'⟩ := bind_eq_ok.mp h'
  obtain ⟨_, -, h'⟩ := bind_eq_ok.mp h'
  obtain rfl := Except.ok.inj h
  obtain rfl := Except.ok.inj h'
  have hprojected :=
    projectPlugins_same hhash.marketplaces hhash.plugins hrest.installPaths hplugin hplugin'
  have hfirst : skills.isEmpty = skills'.isEmpty := by
    rw [writeFirstClassSkills_isEmpty hskills, writeFirstClassSkills_isEmpty hskills',
      hrest.skills]
  simp only [hfirst, hprojected, materializeLlmenvSkill_isEmpty, hrest.llmenvSkill]

/-! ## The sections -/

theorem renderHookEntries_view (host : Host) (hooks : List Hook) :
    renderHookEntries host hooks = (hooks.map hookView).foldl (fun acc v =>
      pushEntry v.1 (.obj (insertSome "command" ((v.2.2.1.map (fun cmd =>
        match v.2.2.2 with
        | some bundle => (host.resolveBundleRelativePaths cmd bundle).getD cmd
        | none => cmd)).map .str) (insertSome "matcher" (v.2.1.map .str) []))) acc) [] := by
  rw [List.foldl_map]
  rfl

theorem hooksSection_same {host : Host} {m m' : MergedManifest} (hhash : SameHashed m m')
    (hrest : SameUnhashed m m') : hooksSection host m = hooksSection host m' := by
  have hnative : fragment "crush" m.capabilities.nativeHooks =
      fragment "crush" m'.capabilities.nativeHooks := by rw [fragment, fragment, hhash.nativeHooks]
  have hentries : renderHookEntries host (m.capabilities.hooks.filter engineCanRunHook) =
      renderHookEntries host (m'.capabilities.hooks.filter engineCanRunHook) := by
    rw [renderHookEntries_view, renderHookEntries_view, hrest.hooks]
  simp only [hooksSection, hnative, hentries]

/-- A server that agrees in what is hashed and in the rest is rendered the same. -/
theorem renderMcpEntry_same {l l' : List ResolvedMcp} (hl : List.Forall₂ SameServer l l')
    (hview : l.map serverView = l'.map serverView) :
    l.map (fun mcp => (mcp.name, renderMcpEntry mcp)) =
      l'.map (fun mcp => (mcp.name, renderMcpEntry mcp)) := by
  induction hl with
  | nil => rfl
  | @cons a b l l' hab _ ih =>
      obtain ⟨hab', hview⟩ := List.cons.inj hview
      obtain ⟨hname, hkind⟩ := hab
      simp only [serverView, Prod.mk.injEq] at hab'
      obtain ⟨hheaders, htimeout, hdisabled⟩ := hab'
      have hentry : renderMcpEntry a = renderMcpEntry b := by
        simp only [renderMcpEntry, hkind, htimeout, hdisabled, sortedMap_ext hheaders]
      rw [List.map_cons, List.map_cons, hname, hentry, ih hview]

theorem renderMcp_same {m m' : MergedManifest} (hhash : SameHashed m m')
    (hrest : SameUnhashed m m') : renderMcp m = renderMcp m' := by
  have hnative : fragment "crush" m.capabilities.nativeMcp =
      fragment "crush" m'.capabilities.nativeMcp := by rw [fragment, fragment, hhash.nativeMcp]
  have hservers : m.mcps.foldl (fun acc mcp => Fields.insert mcp.name (renderMcpEntry mcp) acc) [] =
      m'.mcps.foldl (fun acc mcp => Fields.insert mcp.name (renderMcpEntry mcp) acc) [] := by
    have hmap := congrArg (List.foldl (fun acc (e : String × Json) => Fields.insert e.1 e.2 acc) [])
      (renderMcpEntry_same hhash.mcps hrest.servers)
    rwa [List.foldl_map, List.foldl_map] at hmap
  simp only [renderMcp, hnative, hservers]

/-- Servers that are disabled make no difference. -/
theorem renderLspFrom_filter (servers : List LspServer) (acc : List (String × Json)) :
    renderLspFrom (servers.filter (fun srv => !srv.disabled)) acc = renderLspFrom servers acc := by
  induction servers generalizing acc with
  | nil => rfl
  | cons srv servers ih =>
      cases hdisabled : srv.disabled with
      | true =>
          rw [List.filter_cons_of_neg (by simp [hdisabled]), renderLspFrom, if_pos hdisabled, ih]
      | false =>
          rw [List.filter_cons_of_pos (by simp [hdisabled]), renderLspFrom, renderLspFrom]
          simp only [hdisabled, ih]

theorem renderSections_same {host : Host} {m m' : MergedManifest} (hhash : SameHashed m m')
    (hrest : SameUnhashed m m') (hasSkills : Bool) :
    renderSections host m hasSkills = renderSections host m' hasSkills := by
  have hlsp : renderLsp m.capabilities.lsp = renderLsp m'.capabilities.lsp := by
    rw [renderLsp, renderLsp, ← renderLspFrom_filter, hrest.lsp, renderLspFrom_filter]
  have hproviders : fragment "crush" m.capabilities.nativeModelProviders =
      fragment "crush" m'.capabilities.nativeModelProviders := by
    rw [fragment, fragment, hhash.nativeModelProviders]
  simp only [renderSections, hooksSection_same hhash hrest, renderMcp_same hhash hrest,
    hrest.permissions, hlsp, renderModelProviders, hrest.modelProviders, hproviders,
    sortedMap_ext hrest.defaultModels, hrest.nativeDefaultModels, sortedMap_ext hrest.env]

/-- The two parts of the manifest make the file. -/
theorem crushJson_same {host : Host} {m m' : MergedManifest} {out out' : Output}
    (hhash : SameHashed m m') (hrest : SameUnhashed m m') (h : materialize host m = .ok out)
    (h' : materialize host m' = .ok out') : out.crushJson = out'.crushJson := by
  obtain ⟨files, s, hfiles, hs, hdoc⟩ := materialize_ok h
  obtain ⟨files', s', hfiles', hs', hdoc'⟩ := materialize_ok h'
  rw [← hasSkills_same hhash hrest hfiles hfiles', ← renderSections_same hhash hrest, hs] at hs'
  have hnative : fragment "crush" m.native = fragment "crush" m'.native := by
    rw [fragment, fragment, hhash.native]
  rw [← hnative, ← Except.ok.inj hs', hdoc] at hdoc'
  exact Except.ok.inj hdoc'

/-! ## The neighbour with the same hash -/

/-- The manifest with one variable in the environment when it has none, and with
none when it has some. -/
def envFlipped (m : MergedManifest) : MergedManifest :=
  { m with
    capabilities := { m.capabilities with
      env := if m.capabilities.env.items.isEmpty then SortedMap.empty.insert "LLMENV" ""
        else .empty } }

/-- The fragment is accepted whatever the sections are. -/
theorem overlayNativeCrush_any {native : Option Yaml} {s : Sections} {doc : Json}
    (h : overlayNativeCrush native s = .ok doc) (s' : Sections) :
    ∃ doc', overlayNativeCrush native s' = .ok doc' := by
  obtain ⟨_, hdisabled, h⟩ := bind_eq_ok.mp h
  obtain ⟨_, hmodeled, h⟩ := bind_eq_ok.mp h
  obtain ⟨merged, hmerged, -⟩ := bind_eq_ok.mp h
  have hmerged' : ∃ merged', overlayNativeJson (.obj s'.fields) native "native.crush" =
      .ok merged' := by
    cases native with
    | none => exact ⟨_, rfl⟩
    | some y =>
        simp only [overlayNativeJson] at hmerged ⊢
        split at hmerged
        · exact absurd hmerged (by simp)
        · rename_i hmap
          rw [if_neg hmap]
          split at hmerged
          · exact ⟨_, rfl⟩
          · exact absurd hmerged (by simp)
  obtain ⟨merged', hmerged'⟩ := hmerged'
  exact ⟨stripJsonNulls merged', by simp [overlayNativeCrush, hdisabled, hmodeled, hmerged', bind,
    Except.bind]⟩

/-- `env` is in the file when the section is there: no fragment can set it. -/
theorem get?_env {native : Option Yaml} {s : Sections} {doc : Json}
    (h : overlayNativeCrush native s = .ok doc) (hnull : s.env ≠ some .null) :
    (doc.get? "env").isSome = s.env.isSome := by
  obtain ⟨frag, hfrag, rfl⟩ := overlayNativeCrush_ok h
  have hsection : Fields.get "env" s.fields = s.env := by
    simp [Sections.fields, get_insertSome]
  rw [Json.get?_obj, get_doc hfrag.sorted, hsection,
    hfrag.unmodeled "env" (by decide) (by decide), mergeOption_none]
  cases henv : s.env with
  | none => rfl
  | some v =>
      have hv : v ≠ .null := fun hv => hnull (hv ▸ henv)
      simp [hv]

theorem renderEnv_section (env : SortedMap String String) :
    (nonEmptyObject (renderEnv env)).isSome = !env.items.isEmpty ∧
      nonEmptyObject (renderEnv env) ≠ some .null := by
  cases h : env.items with
  | nil => simp [renderEnv, h, Fields.mapValues, nonEmptyObject]
  | cons e items => simp [renderEnv, h, Fields.mapValues, nonEmptyObject]

/-- Only the section `env` is another one. -/
theorem renderSections_envFlipped {host : Host} {m : MergedManifest} {hasSkills : Bool}
    {s : Sections} (h : renderSections host m hasSkills = .ok s) :
    s.env = nonEmptyObject (renderEnv m.capabilities.env) ∧
      renderSections host (envFlipped m) hasSkills =
        .ok { s with env := nonEmptyObject (renderEnv (envFlipped m).capabilities.env) } := by
  obtain ⟨hooks, hhooks, h⟩ := bind_eq_ok.mp h
  obtain ⟨mcp, hmcp, h⟩ := bind_eq_ok.mp h
  obtain ⟨lsp, hlsp, h⟩ := bind_eq_ok.mp h
  obtain ⟨providers, hproviders, h⟩ := bind_eq_ok.mp h
  obtain ⟨models, hmodels, h⟩ := bind_eq_ok.mp h
  obtain ⟨options, hoptions, h⟩ := bind_eq_ok.mp h
  obtain rfl := Except.ok.inj h
  have hhooks' : hooksSection host (envFlipped m) = .ok hooks := hhooks
  have hmcp' : renderMcp (envFlipped m) = .ok mcp := hmcp
  have hlsp' : renderLsp (envFlipped m).capabilities.lsp = .ok lsp := hlsp
  have hproviders' : overlayNativeJson
      (renderModelProviders (envFlipped m).capabilities.modelProviders)
      (fragment "crush" (envFlipped m).capabilities.nativeModelProviders)
      "native_model_providers.crush" = .ok providers := hproviders
  have hmodels' : overlayNativeJson (renderDefaultModels (envFlipped m).capabilities.defaultModels)
      (fragment "crush" (envFlipped m).capabilities.nativeDefaultModels)
      "native_default_models.crush" = .ok models := hmodels
  have hoptions' : renderOptions host hasSkills (permissionLists (envFlipped m)).2 =
      .ok options := hoptions
  refine ⟨rfl, ?_⟩
  simp only [renderSections, hhooks', hmcp', hlsp', hproviders', hmodels', hoptions', bind,
    Except.bind]
  rfl

theorem crushJson_envFlipped {host : Host} {m : MergedManifest} {out : Output}
    (h : materialize host m = .ok out) :
    ∃ out', materialize host (envFlipped m) = .ok out' ∧ out'.crushJson ≠ out.crushJson := by
  obtain ⟨files, s, hfiles, hs, hdoc⟩ := materialize_ok h
  obtain ⟨henv, hs'⟩ := renderSections_envFlipped hs
  obtain ⟨doc', hdoc'⟩ := overlayNativeCrush_any hdoc
    { s with env := nonEmptyObject (renderEnv (envFlipped m).capabilities.env) }
  have hfiles' : writeFiles host (envFlipped m) = .ok files := hfiles
  refine ⟨⟨files.owned, files.crushMd, doc'⟩, ?_, fun heq => ?_⟩
  · have hnative : overlayNativeCrush (fragment "crush" (envFlipped m).native) _ = .ok doc' := hdoc'
    simp only [materialize, hfiles', hs', hnative, bind, Except.bind]
  · -- One of the two files has the key and the other has not.
    obtain ⟨hold, hnull⟩ := renderEnv_section m.capabilities.env
    obtain ⟨hnew, hnull'⟩ := renderEnv_section (envFlipped m).capabilities.env
    have hkey := get?_env hdoc (henv ▸ hnull)
    have hkey' := get?_env hdoc' hnull'
    have heq : doc' = out.crushJson := heq
    rw [← heq, hkey', hnew, henv, hold] at hkey
    cases hempty : m.capabilities.env.items.isEmpty with
    | true => simp [envFlipped, hempty, SortedMap.insert, SortedMap.insertList, SortedMap.empty] at hkey
    | false => simp [envFlipped, hempty, SortedMap.empty] at hkey

/-! ## The result -/

/-- Every manifest has another one with the same hash, for which a running agent
counts as fresh, and with another `crush.json`.  Manifests that agree on what is
left out of the hash give the same file. -/
theorem content_hash_coverage (host : Host) (h : Hasher) :
    (∀ m out hash, materialize host m = .ok out → hashManifest h m = .ok hash →
      ∃ m' out' hash', materialize host m' = .ok out' ∧ hashManifest h m' = .ok hash' ∧
        preImage h m' = preImage h m ∧ staleStatus (some hash) hash' = .fresh ∧
        out'.crushJson ≠ out.crushJson) ∧
    (h.YamlInjective → ∀ m m' out out' bytes, materialize host m = .ok out →
      materialize host m' = .ok out' → preImage h m = .ok bytes → preImage h m' = .ok bytes →
      SameUnhashed m m' → out.crushJson = out'.crushJson) := by
  constructor
  · intro m out hash hout hhash
    obtain ⟨out', hout', hne⟩ := crushJson_envFlipped hout
    have hsame : preImage h (envFlipped m) = preImage h m := rfl
    have hhash' : hashManifest h (envFlipped m) = .ok hash := by
      rw [hashManifest, hsame]
      exact hhash
    exact ⟨envFlipped m, out', hash, hout', hhash', hsame, by simp [staleStatus], hne⟩
  · intro hyaml m m' out out' bytes hout hout' hbytes hbytes' hrest
    exact crushJson_same ((reads_preImage hyaml).eq hbytes hbytes') hrest hout hout'

/-- The texts of the values that the examples below have, and the digest of
their one pre-image. -/
def smallHasher : Hasher where
  asset := fun path => .error ("no such file: " ++ path)
  yamlToString
    | .null => .ok "null\n"
    | .bool true => .ok "true\n"
    | .bool false => .ok "false\n"
    | .map [] => .ok "\x7b\x7d\n"
    | _ => .error "not a small value"
  sha256Hex := fun _ => "d6e7931af97de6b818d0bca45bb3cc24df21b057292fbacade972b7344be3501"

theorem smallHasher_yamlInjective : smallHasher.YamlInjective := by
  intro y y' s hy hy'
  simp only [smallHasher] at hy hy'
  split at hy <;> split at hy' <;> simp_all
  all_goals
    subst hy
    exact absurd hy' (by decide)

/-- A manifest with the rules `permissions` and an empty `native.crush`. -/
def withRules (permissions : Permissions) : MergedManifest :=
  { MergedManifest.empty with
    capabilities := { Capabilities.empty with permissions }
    native := SortedMap.empty.insert "crush" (.map []) }

/-- A scoped rule, which Crush cannot express, is neither hashed nor rendered. -/
theorem content_hash_coverage_scoped_rule :
    (∃ m' out' hash', materialize bareHost m' = .ok out' ∧ hashManifest smallHasher m' = .ok hash' ∧
        preImage smallHasher m' = preImage smallHasher (withRules ⟨[], [], []⟩) ∧
        staleStatus (some (smallHasher.sha256Hex [])) hash' = .fresh ∧
        some out'.crushJson ≠
          ((materialize bareHost (withRules ⟨[], [], []⟩)).toOption.map Output.crushJson)) ∧
      ∃ out out', materialize bareHost (withRules ⟨[], [], []⟩) = .ok out ∧
        materialize bareHost (withRules ⟨[⟨"Bash", some "git *", []⟩], [], []⟩) = .ok out' ∧
        out.crushJson = out'.crushJson := by
  obtain ⟨hnever, hpairs⟩ := content_hash_coverage bareHost smallHasher
  constructor
  · obtain ⟨m', out', hash', hout', hhash', hsame, hfresh, hne⟩ :=
      hnever (withRules ⟨[], [], []⟩) _ _ rfl rfl
    exact ⟨m', out', hash', hout', hhash', hsame, hfresh, fun heq => hne (Option.some.inj heq)⟩
  · refine ⟨_, _, rfl, rfl, ?_⟩
    refine hpairs smallHasher_yamlInjective (withRules ⟨[], [], []⟩) (withRules ⟨[⟨"Bash", some "git *", []⟩], [], []⟩)
      _ _ _ rfl rfl rfl rfl ?_
    exact ⟨by decide, rfl, rfl, rfl, rfl, rfl, rfl, rfl, rfl, rfl, rfl⟩

/-- A deny rule that is dropped changes `crush.json` and not the hash. -/
theorem dropped_deny_rule_is_fresh :
    ∃ out out' hash hash', materialize bareHost (withRules ⟨[], [], [⟨"Bash", none, []⟩]⟩) = .ok out ∧
      materialize bareHost (withRules ⟨[], [], []⟩) = .ok out' ∧
      hashManifest smallHasher (withRules ⟨[], [], [⟨"Bash", none, []⟩]⟩) = .ok hash ∧
      hashManifest smallHasher (withRules ⟨[], [], []⟩) = .ok hash' ∧
      preImage smallHasher (withRules ⟨[], [], [⟨"Bash", none, []⟩]⟩) =
        preImage smallHasher (withRules ⟨[], [], []⟩) ∧
      staleStatus (some hash) hash' = .fresh ∧ out.crushJson ≠ out'.crushJson := by
  refine ⟨_, _, _, _, rfl, rfl, rfl, rfl, rfl, ?_, ?_⟩
  · simp [staleStatus, smallHasher]
  · decide

end Llmenv.Materialize
