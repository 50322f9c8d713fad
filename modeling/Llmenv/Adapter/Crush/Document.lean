/-
# `Llmenv.Adapter.Crush.Document` — the file `crush.json`

`CrushAdapter::materialize` with the sections of `src/adapter/crush/render.rs`
and `mcp.rs`.  Each capability gives one section.  The fragment `native.crush`
is merged over all of them, and last the null-valued keys go.

What the call reads from the machine is a `Host`: the path of the binary, the
skill and plugin folders, and the functions that rewrite or check a text.
Nothing below depends on what they return.
-/
import Llmenv.Adapter.Crush
import Llmenv.Adapter.Render

namespace Llmenv.Adapter.Crush

open Llmenv.Lib Llmenv.Manifest

/-- The machine, as the adapter sees it. -/
structure Host where
  /-- The shell-quoted path of the running binary. -/
  llmenvProgram : Except String String
  /-- The folder `skills` of the output, which has to be valid UTF-8. -/
  skillsOut : Except String String
  resolveBundleRelativePaths : String → String → Option String
  rejectHardcodedConfigPath : String → String → Except String Unit
  /-- Copies a folder and gives the files that were written. -/
  copySkillDir : SkillSource → Except String (List String)
  unsupportedPluginDir : String → Except String (Option String)
  discoverPluginSkills : String → Except String (List SkillSource)
  toLowercase : String → String
  writeOutputStyleAsSkill : OutputStyle → Except String (List String)
  validateSkills : List String → Except String Unit

section

variable (host : Host)

/-! ## Skills -/

/-- The files of first-class skills, and the folder of each one. -/
def writeFirstClassSkills : List SkillSource → Except String (List String)
  | [] => .ok []
  | skill :: skills =>
      let name := skill.name
      if !isValidShortName name then
        .error s!"unsafe skill name '{name}': not a valid skill name"
      else do
        let written ← host.copySkillDir skill
        let rest ← writeFirstClassSkills skills
        .ok (written ++ ["skills/" ++ name] ++ rest)

/-- Where the files of a plugin are. -/
def resolvePluginPayload (p : ResolvedPlugin) (marketplaces : List ResolvedMarketplace) :
    Except String String :=
  let plugin := p.plugin
  let marketplace := p.marketplace
  if !isValidShortName plugin then .error s!"plugin name '{plugin}' is not a valid name"
  else
    match p.installPath with
    | some path => .ok path
    | none =>
        match marketplaces.find? (fun m => m.name = marketplace) with
        | none => .error s!"plugin '{plugin}': marketplace '{marketplace}' not found in resolved marketplaces"
        | some mkt =>
            match mkt.installLocation with
            | some location => .ok (location ++ "/" ++ plugin)
            | none => .error s!"plugin '{plugin}': marketplace '{marketplace}' has no install_location (not yet synced?)"

/-- The files and the names of the skills that come from plugins, each name with
its plugin.  A plugin with content that Crush cannot express is skipped. -/
def projectPlugins (marketplaces : List ResolvedMarketplace) :
    List ResolvedPlugin → Except String (List String × List (String × String))
  | [] => .ok ([], [])
  | p :: plugins => do
      let payload ← resolvePluginPayload p marketplaces
      let bad ← host.unsupportedPluginDir payload
      match bad with
      | some _ => projectPlugins marketplaces plugins
      | none => do
          let skills ← host.discoverPluginSkills payload
          let paths ← writeFirstClassSkills host skills
          let rest ← projectPlugins marketplaces plugins
          .ok (paths ++ rest.1, skills.map (fun s => (s.name, p.plugin)) ++ rest.2)

/-- The reference files of the built-in skill: one for each feature that is on. -/
def llmenvSkillRefs (m : MergedManifest) : List String :=
  let runs (name : String) := m.mcps.any (fun mcp => mcp.name = name)
  match m.capabilities.features with
  | none => []
  | some features =>
      (if features.taskTracker.any TaskTracker.enabled then ["task-tracker.md"] else []) ++
      (if !features.memory.isEmpty && runs memoryMcpName then ["memory.md"] else []) ++
      (if features.contextMode.any ContextMode.enabled then ["context-mode.md"] else []) ++
      (if !features.codebaseMemory.isEmpty && runs codebaseMemoryMcpName then
        ["codebase-memory.md"] else [])

def materializeLlmenvSkill (m : MergedManifest) : List String :=
  match llmenvSkillRefs m with
  | [] => []
  | refs => "skills/llmenv/SKILL.md" :: refs.map (fun name => "skills/llmenv/references/" ++ name)

/-- Two names that differ only in case are one folder on some file systems. -/
def rejectPluginSkillCollisions (styles : List OutputStyle)
    (pluginSkills : List (String × String)) : Except String Unit :=
  let taken (style : OutputStyle) :=
    pluginSkills.find? (fun s => host.toLowercase s.1 = host.toLowercase style.name)
  match styles.find? (fun style => (taken style).isSome) with
  | none => .ok ()
  | some style =>
      let name := style.name
      let plugin := ((taken style).map Prod.snd).getD ""
      .error s!"output style '{name}' collides (case-insensitive) with a skill projected from plugin '{plugin}'; rename the style to avoid silently overwriting or being shadowed by that skill on adapters with no native output-style concept (Crush, opencode)"

def writeOutputStyles : List OutputStyle → Except String (List String)
  | [] => .ok []
  | style :: styles => do
      let written ← host.writeOutputStyleAsSkill style
      let rest ← writeOutputStyles styles
      .ok (written ++ rest)

/-- The files that a call writes besides `crush.json`. -/
structure Files where
  owned : List String
  crushMd : Option String
  hasSkills : Bool

/-- The first half of the call. -/
def writeFiles (m : MergedManifest) : Except String Files := do
  let skillPaths ← writeFirstClassSkills host m.capabilities.skills
  let _ ← host.rejectHardcodedConfigPath m.agentsMd "CRUSH.md"
  let crushMd := if (Text.trim m.agentsMd.toList).isEmpty then none else some m.agentsMd
  let (pluginSkillPaths, pluginSkills) ← projectPlugins host m.marketplaces m.plugins
  let llmenvSkillPaths := materializeLlmenvSkill m
  let _ ← rejectPluginSkillCollisions host m.capabilities.outputStyles pluginSkills
  let stylePaths ← writeOutputStyles host m.capabilities.outputStyles
  let owned := ["crush.json"] ++ skillPaths ++ (if crushMd.isSome then ["CRUSH.md"] else []) ++
    pluginSkillPaths ++ llmenvSkillPaths ++ stylePaths
  let _ ← host.validateSkills owned
  .ok ⟨owned, crushMd,
    !skillPaths.isEmpty || !pluginSkillPaths.isEmpty || !llmenvSkillPaths.isEmpty⟩

/-! ## Hooks -/

def supportedHookEvents : List String := ["PreToolUse"]

/-- Crush skips a hook on another event, and one that calls an MCP tool. -/
def engineCanRunHook (hook : Hook) : Bool :=
  decide (hook.event ∈ supportedHookEvents) && decide (hook.handler.kind ≠ .mcpTool)

def renderHookEntry (hook : Hook) : Json :=
  let resolved := hook.handler.command.map (fun cmd =>
    match hook.bundleOrigin with
    | some bundle => (host.resolveBundleRelativePaths cmd bundle).getD cmd
    | none => cmd)
  .obj (insertSome "command" (resolved.map .str) (insertSome "matcher" (hook.matcher.map .str) []))

def renderHookEntries (hooks : List Hook) : List (String × List Json) :=
  hooks.foldl (fun acc hook => pushEntry hook.event (renderHookEntry host hook) acc) []

/-- An event of the hooks that Crush does not have. -/
def unsupportedEvent (hooks : Json) : Option String :=
  (hooks.asObject?.getD []).map Prod.fst |>.find? (fun event => event ∉ supportedHookEvents)

/-- The section `hooks`. -/
def hooksSection (m : MergedManifest) : Except String (Option Json) := do
  let program ← host.llmenvProgram
  let guard := .obj [("command", .str (program ++ " hook-run --engine crush pre_tool_use"))]
  let entries := pushEntry "PreToolUse" guard
    (renderHookEntries host (m.capabilities.hooks.filter engineCanRunHook))
  let hooks ← overlayNativeJson (hooksObject entries)
    (fragment "crush" m.capabilities.nativeHooks) "native_hooks.crush"
  match unsupportedEvent hooks with
  | some event =>
      let supported := Text.joinStr ", " supportedHookEvents
      .error s!"native_hooks.crush contains unsupported hook event '{event}'. Supported events: {supported}. Remove or move this hook."
  | none => .ok (nonEmptyObject hooks)

end

/-! ## Servers and models -/

def renderMcpEntry (mcp : ResolvedMcp) : Json :=
  let entry := match mcp.kind with
    | .stdio command args env =>
        insertSome "env" (nonEmptyMap env)
          (Fields.ofList [("type", .str "stdio"), ("command", .str command),
            ("args", strings args)])
    | .remote url transport =>
        Fields.ofList [("type", .str (remoteTransportTypeStr transport)), ("url", .str url)]
  .obj (insertSome "disabled_tools" (nonEmptyStrings mcp.disabledTools)
    (insertSome "timeout" (mcp.timeout.map (fun secs => .num (.int secs.toNat)))
      (insertSome "headers" (nonEmptyMap mcp.headers) entry)))

/-- The section `mcp`. -/
def renderMcp (m : MergedManifest) : Except String (Option Json) := do
  let servers := m.mcps.foldl (fun acc mcp => Fields.insert mcp.name (renderMcpEntry mcp) acc) []
  let mcp ← overlayNativeJson (.obj servers) (fragment "crush" m.capabilities.nativeMcp)
    "native_mcp.crush"
  .ok (nonEmptyObject mcp)

def renderLspEntry (srv : LspServer) : Except String Json := do
  let entry := insertSome "timeout" (srv.timeout.map (fun secs => .num (.int secs.toNat)))
    (insertSome "root_markers" (nonEmptyStrings srv.rootMarkers)
      (insertSome "filetypes" (nonEmptyStrings srv.filetypes)
        (insertSome "env" (nonEmptyMap srv.env)
          (insertSome "args" (nonEmptyStrings srv.args)
            [("command", .str srv.command)]))))
  match srv.initOptions with
  | none => .ok (.obj entry)
  | some opts =>
      match opts.toJson with
      | .ok json => .ok (.obj (Fields.insert "init_options" json entry))
      | .error e =>
          let name := srv.name
          .error s!"LSP server '{name}': failed to convert init_options to JSON: {e}"

/-- The loop of `render_lsp`: a server that is disabled is skipped. -/
def renderLspFrom : List LspServer → List (String × Json) → Except String Json
  | [], acc => .ok (.obj acc)
  | srv :: servers, acc =>
      if srv.disabled then renderLspFrom servers acc
      else do
        let entry ← renderLspEntry srv
        renderLspFrom servers (Fields.insert srv.name entry acc)

def renderLsp (servers : List LspServer) : Except String Json := renderLspFrom servers []

/-- A number that is not finite is null in JSON. -/
def costJson : YamlNumber → Json
  | .finite n => .num n
  | .nonFinite _ => .null

def renderModelSource (m : ModelSource) : Json :=
  let entry := insertSome "default_max_tokens" (m.maxTokens.map (fun n => .num (.int n.toNat)))
    (insertSome "context_window" (m.contextWindow.map (fun n => .num (.int n.toNat)))
      (insertSome "can_reason" (if m.reasoning then some (.bool true) else none)
        (insertSome "name" (m.name.map .str) [("id", .str m.id)])))
  match m.cost with
  | none => .obj entry
  | some cost =>
      .obj (insertSome "cost_per_1m_out_cached" (cost.cacheWrite.map costJson)
        (insertSome "cost_per_1m_in_cached" (cost.cacheRead.map costJson)
          (Fields.insert "cost_per_1m_out" (costJson cost.output)
            (Fields.insert "cost_per_1m_in" (costJson cost.input) entry))))

def renderModelProvider (p : ModelProvider) : Json :=
  .obj (insertSome "models"
      (if p.models.isEmpty then none else some (.arr (p.models.map renderModelSource)))
    (insertSome "default_headers" (nonEmptyMap p.headers)
      (insertSome "api_key" (p.apiKey.map .str)
        (insertSome "type" (p.apiType.map .str)
          (insertSome "api_endpoint" (p.baseUrl.map .str)
            (insertSome "name" (p.name.map .str) [("id", .str p.id)]))))))

def renderModelProviders (providers : List ModelProvider) : Json :=
  .obj ((providers.filter (fun p => !p.disabled)).foldl
    (fun acc p => Fields.insert p.id (renderModelProvider p) acc) [])

def renderDefaultModels (models : SortedMap String ModelRef) : Json :=
  .obj (Fields.mapValues (fun ref => Json.object [("provider", .str ref.provider),
    ("model", .str ref.model)]) models.items)

/-! ## Options and environment -/

/-- The folder of the skills, when there are any. -/
def skillsPaths (host : Host) (hasSkills : Bool) : Except String (Option Json) :=
  if hasSkills then host.skillsOut.map (fun out => some (strings [out])) else .ok none

def renderOptions (host : Host) (hasSkills : Bool) (disabledTools : List String) :
    Except String (Option Json) := do
  let skillsPaths ← skillsPaths host hasSkills
  .ok (nonEmptyObject (.obj (insertSome "disabled_tools" (nonEmptyStrings disabledTools)
    (insertSome "skills_paths" skillsPaths []))))

/-- `str::replace` of one character. -/
def replaceChar (c : Char) (escaped : List Char) (cs : List Char) : List Char :=
  cs.flatMap (fun x => if x = c then escaped else [x])

def escapeForCrushExpansion (value : String) : String :=
  String.ofList (replaceChar '`' ['\\', '`'] (replaceChar '$' ['\\', '$']
    (replaceChar '\\' ['\\', '\\'] value.toList)))

def renderEnv (env : SortedMap String String) : Json :=
  .obj (Fields.mapValues (fun value => .str (escapeForCrushExpansion value)) env.items)

/-! ## The call -/

/-- The lists of `render_permission_lists` for the rules of a manifest. -/
def permissionLists (m : MergedManifest) : List String × List String :=
  renderPermissionLists m.capabilities.permissions
    (Fields.get "crush" m.capabilities.nativePermissions.items)

/-- The sections, before `native.crush` is merged over them. -/
structure Sections where
  hooks : Option Json
  allowedTools : List String
  mcp : Option Json
  lsp : Option Json
  providers : Option Json
  models : Option Json
  options : Option Json
  env : Option Json

def renderSections (host : Host) (m : MergedManifest) (hasSkills : Bool) :
    Except String Sections := do
  let caps := m.capabilities
  let hooks ← hooksSection host m
  let lists := permissionLists m
  let mcp ← renderMcp m
  let lsp ← renderLsp caps.lsp
  let providers ← overlayNativeJson (renderModelProviders caps.modelProviders)
    (fragment "crush" caps.nativeModelProviders) "native_model_providers.crush"
  let models ← overlayNativeJson (renderDefaultModels caps.defaultModels)
    (fragment "crush" caps.nativeDefaultModels) "native_default_models.crush"
  let options ← renderOptions host hasSkills lists.2
  .ok
    { hooks
      allowedTools := lists.1
      mcp
      lsp := nonEmptyObject lsp
      providers := nonEmptyObject providers
      models := nonEmptyObject models
      options
      env := nonEmptyObject (renderEnv caps.env) }

/-- The section `permissions`: its only key is `allowed_tools`. -/
def permissionsSection (allowedTools : List String) : Option Json :=
  (nonEmptyStrings allowedTools).map (fun tools => .obj [("allowed_tools", tools)])

def Sections.fields (s : Sections) : List (String × Json) :=
  insertSome "env" s.env (insertSome "options" s.options (insertSome "models" s.models
    (insertSome "providers" s.providers (insertSome "lsp" s.lsp (insertSome "mcp" s.mcp
      (insertSome "permissions" (permissionsSection s.allowedTools)
        (insertSome "hooks" s.hooks [])))))))

/-- The keys that `native.crush` may not have. -/
def crushModeledKeys : List String :=
  ["permissions", "hooks", "mcp", "lsp", "providers", "models", "env"]

/-- The fragment may not set the key with the rendered deny rules. -/
def rejectNativeDisabledTools (native : Option Yaml) : Except String Unit :=
  if ((native.bind (Yaml.get? "options")).bind (Yaml.get? "disabled_tools")).isSome then
    .error "native.crush sets options.disabled_tools, which llmenv renders from the deny rules. Remove that key from native.crush. Write the deny in permissions.deny, or in native_permissions.crush.deny."
  else .ok ()

def rejectModeledKeys : Option Yaml → Except String Unit
  | some frag => rejectModeledNativeKeys frag crushModeledKeys "crush"
  | none => .ok ()

/-- The document from its sections. -/
def overlayNativeCrush (native : Option Yaml) (s : Sections) : Except String Json := do
  let _ ← rejectNativeDisabledTools native
  let _ ← rejectModeledKeys native
  let doc ← overlayNativeJson (.obj s.fields) native "native.crush"
  .ok (stripJsonNulls doc)

structure Output where
  owned : List String
  crushMd : Option String
  crushJson : Json

def materialize (host : Host) (m : MergedManifest) : Except String Output := do
  let files ← writeFiles host m
  let sections ← renderSections host m files.hasSkills
  let doc ← overlayNativeCrush (fragment "crush" m.native) sections
  .ok ⟨files.owned, files.crushMd, doc⟩

/-- The steps of a call that succeeds. -/
theorem materialize_ok {host : Host} {m : MergedManifest} {out : Output}
    (h : materialize host m = .ok out) :
    ∃ files s, writeFiles host m = .ok files ∧ renderSections host m files.hasSkills = .ok s ∧
      overlayNativeCrush (fragment "crush" m.native) s = .ok out.crushJson := by
  obtain ⟨files, hfiles, h⟩ := bind_eq_ok.mp h
  obtain ⟨s, hs, h⟩ := bind_eq_ok.mp h
  obtain ⟨doc, hdoc, h⟩ := bind_eq_ok.mp h
  exact ⟨files, s, hfiles, hs, Except.ok.inj h ▸ hdoc⟩

end Llmenv.Adapter.Crush
