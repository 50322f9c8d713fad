/-
# `Llmenv.Adapter.ClaudeCode.Permissions` — the rules in `settings.json`

The rules of the configuration, the native rules for Claude Code and the tiers
of the built-in MCP tools go into three lists.  Deny is above ask and ask is
above allow: a rule in a higher list is taken out of the lower ones.  Then the
rules of `native.claude_code.permissions` are appended to the lists, and the
order of authority is applied again.

`PermLists` says that the fields of an object have the three lists; each step is
an operation on them.
-/
import Llmenv.Adapter.Render

namespace Llmenv.Adapter.ClaudeCode

open Llmenv.Lib Llmenv.Manifest

/-! ## Rules -/

/-- The tool `Write` is called `Edit` now. -/
def normalizeDeprecatedTool (rule : String) : String :=
  match Text.stripPrefix "Write".toList rule.toList with
  | some rest =>
      if rest.isEmpty ∨ rest.head? = some '(' then String.ofList ("Edit".toList ++ rest) else rule
  | none => rule

def renderPermissionRule (rule : PermissionRule) : List String :=
  let tool := normalizeDeprecatedTool rule.tool
  match rule.pattern with
  | some pattern => [tool ++ "(" ++ pattern ++ ")"]
  | none =>
      if rule.paths.isEmpty then [tool] else rule.paths.map (fun p => tool ++ "(" ++ p ++ ")")

/-- A name that is replaced is none that would be replaced again. -/
theorem normalizeDeprecatedTool_append (tool : String) {suffix : List Char}
    (hsuffix : suffix = [] ∨ ∃ rest, suffix = '(' :: rest) :
    normalizeDeprecatedTool (normalizeDeprecatedTool tool ++ String.ofList suffix) =
      normalizeDeprecatedTool tool ++ String.ofList suffix := by
  have hkeep : ∀ s : String, Text.stripPrefix "Write".toList s.toList = none →
      normalizeDeprecatedTool s = s := by
    intro s hs
    rw [normalizeDeprecatedTool, hs]
  have hlist : ∀ s : String, (s ++ String.ofList suffix).toList = s.toList ++ suffix := by
    intro s
    rw [String.toList_append, String.toList_ofList]
  cases hstrip : Text.stripPrefix "Write".toList tool.toList with
  | none =>
      rw [hkeep tool hstrip]
      refine hkeep _ ?_
      rw [hlist]
      rcases hsuffix with rfl | ⟨rest, rfl⟩
      · rwa [List.append_nil]
      · exact Text.stripPrefix_append_eq_none (c := '(') (by decide) hstrip rest
  | some rest =>
      by_cases hrest : rest.isEmpty ∨ rest.head? = some '('
      · have htool : normalizeDeprecatedTool tool = String.ofList ("Edit".toList ++ rest) := by
          simp only [normalizeDeprecatedTool, hstrip, if_pos hrest]
        rw [htool]
        refine hkeep _ ?_
        rw [hlist, (String.toList_ofList :
          (String.ofList ("Edit".toList ++ rest)).toList = "Edit".toList ++ rest)]
        rfl
      · have htool : normalizeDeprecatedTool tool = tool := by
          simp only [normalizeDeprecatedTool, hstrip, if_neg hrest]
        have happend : Text.stripPrefix "Write".toList (tool ++ String.ofList suffix).toList =
            some (rest ++ suffix) := by
          rw [hlist, Text.eq_append_of_stripPrefix hstrip, List.append_assoc,
            Text.stripPrefix_append]
        have hlonger : ¬ ((rest ++ suffix).isEmpty ∨ (rest ++ suffix).head? = some '(') := by
          cases rest with
          | nil => exact absurd (Or.inl rfl) hrest
          | cons c rest => simpa using hrest
        rw [htool]
        simp only [normalizeDeprecatedTool, happend, if_neg hlonger]

theorem normalizeDeprecatedTool_of_rendered {rule : PermissionRule} {s : String}
    (h : s ∈ renderPermissionRule rule) : normalizeDeprecatedTool s = s := by
  have hparen : ∀ x : String, normalizeDeprecatedTool
      (normalizeDeprecatedTool rule.tool ++ "(" ++ x ++ ")") =
      normalizeDeprecatedTool rule.tool ++ "(" ++ x ++ ")" := by
    intro x
    have heq : normalizeDeprecatedTool rule.tool ++ "(" ++ x ++ ")" =
        normalizeDeprecatedTool rule.tool ++ String.ofList ('(' :: (x.toList ++ [')'])) := by
      apply String.toList_injective
      simp
    rw [heq]
    exact normalizeDeprecatedTool_append _ (Or.inr ⟨_, rfl⟩)
  simp only [renderPermissionRule] at h
  split at h
  · exact List.mem_singleton.mp h ▸ hparen _
  · split at h
    · have hbare : normalizeDeprecatedTool (normalizeDeprecatedTool rule.tool ++ String.ofList []) =
          normalizeDeprecatedTool rule.tool ++ String.ofList [] :=
        normalizeDeprecatedTool_append rule.tool (Or.inl rfl)
      exact List.mem_singleton.mp h ▸ by simpa using hbare
    · obtain ⟨p, -, rfl⟩ := List.mem_map.mp h
      exact hparen p

def permissionModeStr : PermissionMode → String
  | .acceptEdits => "acceptEdits"
  | .plan => "plan"
  | .default => "default"
  | .bypassPermissions => "bypassPermissions"
  | .auto => "auto"
  | .dontAsk => "dontAsk"
  | .manual => "manual"

/-- The native rules that outrank others. -/
structure NativeCover where
  deny : List String
  ask : List String

/-- A rule of the action that a native rule of a higher one covers. -/
def NativeCover.outranks (cover : NativeCover) (s : String) : McpPermissionAction → Bool
  | .allow => decide (s ∈ cover.deny) || decide (s ∈ cover.ask)
  | .ask => decide (s ∈ cover.deny)
  | .deny => false

/-- The neutral rules of an action that are not outranked, then its native ones. -/
def renderAction (neutral : List PermissionRule) (nativeRules : List String)
    (action : McpPermissionAction) (cover : NativeCover) : List String :=
  dedup ((neutral.flatMap renderPermissionRule).filter
    (fun s => !cover.outranks s action || decide (s ∈ nativeRules)) ++ nativeRules)

/-- The three lists. -/
structure PermBuckets where
  allow : List String
  ask : List String
  deny : List String

def PermBuckets.push (b : PermBuckets) (rules : List String) : McpPermissionAction → PermBuckets
  | .allow => { b with allow := b.allow ++ rules }
  | .ask => { b with ask := b.ask ++ rules }
  | .deny => { b with deny := b.deny ++ rules }

/-! ## Tiers of MCP tools -/

inductive McpTier where
  | readOnly
  | mutation
  | destructive

def tierAction (tier : McpTier) (overrides : Option McpPermissions) : McpPermissionAction :=
  let configured := overrides.bind (fun o => match tier with
    | .readOnly => o.readOnly
    | .mutation => o.mutation
    | .destructive => o.destructive)
  configured.getD (match tier with
    | .readOnly => .allow
    | .mutation => .allow
    | .destructive => .ask)

/-- The tools of a server, each in the list of its tier. -/
def applyMcpTierPermissions (b : PermBuckets) (toolsOf : String)
    (tiers : List (List String × McpTier)) (overrides : Option McpPermissions)
    (cover : NativeCover) : PermBuckets :=
  tiers.foldl (fun b t =>
    let action := tierAction t.2 overrides
    b.push ((t.1.map (fun tool => toolsOf ++ tool)).filter (fun s => !cover.outranks s action))
      action) b

def icmTiers : List (List String × McpTier) :=
  [(["icm_wake_up", "icm_memory_recall", "icm_memory_related", "icm_memory_stats",
      "icm_memory_health", "icm_memory_list_topics", "icm_feedback_stats", "icm_feedback_search",
      "icm_transcript_search", "icm_transcript_stats", "icm_transcript_show",
      "icm_memoir_search", "icm_memoir_search_all", "icm_memoir_show", "icm_memoir_inspect",
      "icm_memoir_export", "icm_memoir_list"], .readOnly),
   (["icm_memory_store", "icm_memory_update", "icm_memory_consolidate", "icm_memory_embed_all",
      "icm_memory_extract_patterns", "icm_learn", "icm_transcript_start_session",
      "icm_transcript_record", "icm_feedback_record", "icm_memoir_create",
      "icm_memoir_add_concept", "icm_memoir_refine", "icm_memoir_link"], .mutation),
   (["icm_memory_forget", "icm_memory_forget_topic"], .destructive)]

def ctxTiers : List (List String × McpTier) :=
  [(["ctx_search", "ctx_stats", "ctx_doctor", "ctx_insight"], .readOnly),
   (["ctx_index", "ctx_execute", "ctx_execute_file", "ctx_fetch_and_index",
      "ctx_batch_execute"], .mutation),
   (["ctx_purge", "ctx_upgrade"], .destructive)]

def cbmTiers : List (List String × McpTier) :=
  [(["search_graph", "query_graph", "trace_path", "get_code_snippet", "get_file_outline",
      "get_graph_schema", "compare_graphs", "get_architecture", "search_code", "list_projects",
      "index_status", "check_index_coverage", "detect_changes"], .readOnly),
   (["index_repository", "ingest_traces"], .mutation),
   (["delete_project", "manage_adr"], .destructive)]

/-- The tiers of the context-mode plugin, when it is selected. -/
def applyContextMode (m : MergedManifest) (cover : NativeCover) (b : PermBuckets) : PermBuckets :=
  if m.plugins.any (fun p => p.marketplace = "context-mode" && p.plugin = "context-mode") then
    applyMcpTierPermissions b "mcp__plugin_context-mode_context-mode__" ctxTiers
      ((m.capabilities.features.bind Features.contextMode).bind ContextMode.mcpPermissions) cover
  else b

/-- The tiers of a server, when it runs. -/
def applyServer (m : MergedManifest) (cover : NativeCover) (name toolsOf : String)
    (tiers : List (List String × McpTier)) (b : PermBuckets) : PermBuckets :=
  match m.mcps.find? (fun mcp => mcp.name = name) with
  | some mcp => applyMcpTierPermissions b toolsOf tiers mcp.mcpPermissions cover
  | none => b

/-! ## The three lists -/

/-- The native rules of the manifest, with deprecated names replaced. -/
def nativeRules (m : MergedManifest) : PermBuckets :=
  match Fields.get "claude_code" m.capabilities.nativePermissions.items with
  | some n => ⟨n.allow.map normalizeDeprecatedTool, n.ask.map normalizeDeprecatedTool,
      n.deny.map normalizeDeprecatedTool⟩
  | none => ⟨[], [], []⟩

/-- The lists before one is checked against the other. -/
def renderBuckets (m : MergedManifest) : PermBuckets :=
  let perms := m.capabilities.permissions
  let native := nativeRules m
  let cover : NativeCover := ⟨native.deny, native.ask⟩
  applyServer m cover codebaseMemoryMcpName "mcp__codebase-memory-mcp__" cbmTiers
    (applyServer m cover memoryMcpName "mcp__icm__" icmTiers
      (applyContextMode m cover
        ⟨renderAction perms.allow native.allow .allow cover,
         renderAction perms.ask native.ask .ask cover,
         renderAction perms.deny native.deny .deny cover⟩))

/-- Deny is above ask, and ask is above allow. -/
def PermBuckets.authority (b : PermBuckets) : PermBuckets :=
  let ask := b.ask.filter (fun s => s ∉ b.deny)
  ⟨(b.allow.filter (fun s => s ∉ b.deny)).filter (fun s => s ∉ ask), ask, b.deny⟩

def permissionBuckets (m : MergedManifest) : PermBuckets :=
  let b := renderBuckets m
  PermBuckets.authority ⟨dedup b.allow, dedup b.ask, dedup b.deny⟩

/-- The value of `permissions`, when there is something to write. -/
def permissionsObject (m : MergedManifest) : Option (List (String × Json)) :=
  let b := permissionBuckets m
  if b.allow.isEmpty ∧ b.ask.isEmpty ∧ b.deny.isEmpty ∧ m.capabilities.defaultMode.isNone then none
  else some (insertSome "defaultMode"
    (m.capabilities.defaultMode.map (fun mode => .str (permissionModeStr mode)))
    (Fields.ofList [("allow", strings b.allow), ("ask", strings b.ask), ("deny", strings b.deny)]))

/-! ## The catch-all fragment -/

/-- The texts of a list. -/
def stringsOf (v : Option Json) : List String :=
  ((v.bind Json.asArray?).getD []).filterMap Json.asStr?

/-- Take the texts out of a list. -/
def retain (key : String) (drop : List String) (fields : List (String × Json)) :
    List (String × Json) :=
  match Fields.get key fields with
  | some (.arr items) =>
      Fields.insert key (.arr (items.filter (fun v => v.asStr?.all (fun s => s ∉ drop)))) fields
  | _ => fields

def applyPermissionAuthority (perms : List (String × Json)) : List (String × Json) :=
  let deny := stringsOf (Fields.get "deny" perms)
  let perms := retain "allow" deny (retain "ask" deny perms)
  retain "allow" (stringsOf (Fields.get "ask" perms)) perms

/-- One key of the fragment: rules are appended, other values overwrite. -/
def mergeNativeKey (rendered : List (String × Json)) (key : String) (value : Json) :
    List (String × Json) :=
  if key = "allow" ∨ key = "ask" ∨ key = "deny" then
    Fields.insert key (strings (dedup (stringsOf (Fields.get key rendered) ++
      (stringsOf (some value)).map normalizeDeprecatedTool))) rendered
  else Fields.insert key value rendered

/-- Merge `permissions` of the fragment into the settings.  The second result is
the fragment without the key. -/
def mergeNativePermissions (settings : List (String × Json)) (frag : Option Yaml) :
    Except String (List (String × Json) × Option Yaml) :=
  match frag with
  | none => .ok (settings, none)
  | some y =>
      match y.get? "permissions" with
      | none => .ok (settings, some y)
      | some nativePerms =>
          match nativePerms.toJson with
          | .error e => .error s!"converting native.claude_code.permissions to JSON: {e}"
          | .ok json =>
              let nativeObj := json.asObject?.getD []
              let rendered := ((Fields.get "permissions" settings).bind Json.asObject?).getD []
              if (Fields.get "defaultMode" nativeObj).isSome then
                .error "`native.claude_code.permissions.defaultMode` is not accepted: `defaultMode` is a modeled key, and setting it here would override the rendered permission mode (including to `bypassPermissions`, which disables the permission system). Use `capabilities.permissions.default_mode` instead."
              else
                let merged := nativeObj.foldl (fun acc f => mergeNativeKey acc f.1 f.2) rendered
                .ok (Fields.insert "permissions" (.obj (applyPermissionAuthority merged)) settings,
                  some (.map (Yaml.removeKey "permissions" (y.asMapping?.getD []))))

/-! ## The order of authority -/

/-- No rule is there twice, in one list or in two. -/
structure Ranked (b : PermBuckets) : Prop where
  allow : b.allow.Nodup
  ask : b.ask.Nodup
  deny : b.deny.Nodup
  allowAsk : b.allow.Disjoint b.ask
  allowDeny : b.allow.Disjoint b.deny
  askDeny : b.ask.Disjoint b.deny

theorem mem_filter_notMem {s : String} {l drop : List String} :
    s ∈ l.filter (fun s => s ∉ drop) ↔ s ∈ l ∧ s ∉ drop := by
  simp [List.mem_filter]

theorem ranked_authority {b : PermBuckets} (hallow : b.allow.Nodup) (hask : b.ask.Nodup)
    (hdeny : b.deny.Nodup) : Ranked b.authority where
  allow := (hallow.filter _).filter _
  ask := hask.filter _
  deny := hdeny
  allowAsk := fun _ ha hk => (mem_filter_notMem.mp ha).2 hk
  allowDeny := fun _ ha hd => (mem_filter_notMem.mp (mem_filter_notMem.mp ha).1).2 hd
  askDeny := fun _ hk hd => (mem_filter_notMem.mp hk).2 hd

/-- Every one of the first rules is denied, every one of the second is asked for
or denied. -/
structure Guards (denied asked : List String) (b : PermBuckets) : Prop where
  deny : ∀ s ∈ denied, s ∈ b.deny
  ask : ∀ s ∈ asked, s ∈ b.ask ∨ s ∈ b.deny

section

variable {denied asked : List String} {b b' : PermBuckets}

theorem Guards.mono (h : Guards denied asked b) (hask : ∀ s ∈ b.ask, s ∈ b'.ask)
    (hdeny : ∀ s ∈ b.deny, s ∈ b'.deny) : Guards denied asked b' where
  deny s hs := hdeny s (h.deny s hs)
  ask s hs := (h.ask s hs).imp (hask s) (hdeny s)

theorem Guards.authority (h : Guards denied asked b) : Guards denied asked b.authority where
  deny := h.deny
  ask s hs := by
    by_cases hd : s ∈ b.deny
    · exact Or.inr hd
    · exact Or.inl (mem_filter_notMem.mpr ⟨(h.ask s hs).resolve_right hd, hd⟩)

theorem Guards.push (h : Guards denied asked b) (rules : List String)
    (action : McpPermissionAction) : Guards denied asked (b.push rules action) := by
  cases action with
  | allow => exact h.mono (fun _ hs => hs) (fun _ hs => hs)
  | ask => exact h.mono (fun _ hs => List.mem_append_left _ hs) (fun _ hs => hs)
  | deny => exact h.mono (fun _ hs => hs) (fun _ hs => List.mem_append_left _ hs)

theorem Guards.tiers (h : Guards denied asked b) (toolsOf : String)
    (tiers : List (List String × McpTier)) (overrides : Option McpPermissions)
    (cover : NativeCover) :
    Guards denied asked (applyMcpTierPermissions b toolsOf tiers overrides cover) := by
  unfold applyMcpTierPermissions
  induction tiers generalizing b with
  | nil => exact h
  | cons t tiers ih => exact ih (h.push _ _)

theorem Guards.contextMode (h : Guards denied asked b) (m : MergedManifest) (cover : NativeCover) :
    Guards denied asked (applyContextMode m cover b) := by
  unfold applyContextMode
  split
  · exact h.tiers _ _ _ _
  · exact h

theorem Guards.server (h : Guards denied asked b) (m : MergedManifest) (cover : NativeCover)
    (name toolsOf : String) (tiers : List (List String × McpTier)) :
    Guards denied asked (applyServer m cover name toolsOf tiers b) := by
  unfold applyServer
  split
  · exact h.tiers _ _ _ _
  · exact h

end

/-- The rules that the configuration denies. -/
def denySources (m : MergedManifest) : List String :=
  m.capabilities.permissions.deny.flatMap renderPermissionRule ++ (nativeRules m).deny

/-- The rules that the configuration asks for. -/
def askSources (m : MergedManifest) : List String :=
  m.capabilities.permissions.ask.flatMap renderPermissionRule ++ (nativeRules m).ask

theorem mem_renderAction {s : String} {neutral : List PermissionRule} {native : List String}
    {action : McpPermissionAction} {cover : NativeCover} :
    s ∈ renderAction neutral native action cover ↔
      s ∈ neutral.flatMap renderPermissionRule ∧ cover.outranks s action = false ∨ s ∈ native := by
  rw [renderAction, mem_dedup, List.mem_append, List.mem_filter]
  by_cases hs : s ∈ native
  · simp [hs]
  · simp [hs]

theorem guards_permissionBuckets (m : MergedManifest) :
    Guards (denySources m) (askSources m) (permissionBuckets m) := by
  unfold permissionBuckets
  refine Guards.authority (Guards.mono (b := renderBuckets m) ?_ (fun s => mem_dedup.mpr)
    (fun s => mem_dedup.mpr))
  refine (((Guards.contextMode ?_ m _).server m _ _ _ _).server m _ _ _ _)
  constructor
  · intro s hs
    refine mem_renderAction.mpr ?_
    exact (List.mem_append.mp hs).imp_left fun h => ⟨h, rfl⟩
  · intro s hs
    -- A neutral rule that is left out is covered by a native deny rule.
    by_cases hd : s ∈ (nativeRules m).deny
    · exact Or.inr (mem_renderAction.mpr (Or.inr hd))
    · refine Or.inl (mem_renderAction.mpr ?_)
      exact (List.mem_append.mp hs).imp_left fun h => ⟨h, by simp [NativeCover.outranks, hd]⟩

theorem ranked_permissionBuckets (m : MergedManifest) : Ranked (permissionBuckets m) :=
  ranked_authority (nodup_dedup _) (nodup_dedup _) (nodup_dedup _)

/-! ## The lists of an object -/

/-- Under the key is the list, or nothing when the list is empty. -/
def HasList (key : String) (l : List String) (fields : List (String × Json)) : Prop :=
  Fields.get key fields = some (strings l) ∨ Fields.get key fields = none ∧ l = []

/-- The fields have the three lists. -/
structure PermLists (fields : List (String × Json)) (b : PermBuckets) : Prop where
  sorted : Fields.Sorted fields
  allow : HasList "allow" b.allow fields
  ask : HasList "ask" b.ask fields
  deny : HasList "deny" b.deny fields

section

variable {key k : String} {l drop : List String} {fields : List (String × Json)} {b : PermBuckets}

theorem stringsOf_strings (l : List String) : stringsOf (some (strings l)) = l := by
  simp [stringsOf, strings, Json.asArray?, List.filterMap_map, Function.comp_def, Json.asStr?]

theorem HasList.stringsOf (h : HasList key l fields) :
    stringsOf (Fields.get key fields) = l := by
  rcases h with h | ⟨h, rfl⟩
  · rw [h, stringsOf_strings]
  · rw [h]
    rfl

theorem HasList.of_get {fields' : List (String × Json)} (h : HasList key l fields)
    (hget : Fields.get key fields' = Fields.get key fields) : HasList key l fields' := by
  unfold HasList
  rwa [hget]

theorem get_retain_of_ne (hne : key ≠ k) :
    Fields.get k (retain key drop fields) = Fields.get k fields := by
  unfold retain
  split
  · rw [Fields.get_insert, if_neg hne]
  · rfl

theorem HasList.retain (h : HasList key l fields) :
    HasList key (l.filter (fun s => s ∉ drop)) (retain key drop fields) := by
  rcases h with h | ⟨h, rfl⟩
  · have hfilter : (l.map Json.str).filter (fun v => v.asStr?.all (fun s => s ∉ drop)) =
        (l.filter (fun s => s ∉ drop)).map Json.str := by
      rw [List.filter_map]
      rfl
    refine Or.inl ?_
    rw [ClaudeCode.retain, h]
    simp only [strings]
    rw [Fields.get_insert, if_pos rfl, hfilter]
  · refine Or.inr ⟨?_, by simp⟩
    rw [ClaudeCode.retain, h]
    exact h

theorem sorted_retain (h : Fields.Sorted fields) : Fields.Sorted (retain key drop fields) := by
  unfold retain
  split
  · exact Fields.sorted_insert h
  · exact h

/-- On the lists of an object the order of authority is the one of the renderer. -/
theorem PermLists.authority (h : PermLists fields b) :
    PermLists (applyPermissionAuthority fields) b.authority := by
  have hask : HasList "ask" (b.ask.filter (fun s => s ∉ b.deny))
      (ClaudeCode.retain "allow" b.deny (ClaudeCode.retain "ask" b.deny fields)) :=
    h.ask.retain.of_get (get_retain_of_ne (by decide))
  unfold applyPermissionAuthority
  simp only [h.deny.stringsOf, hask.stringsOf]
  refine ⟨sorted_retain (sorted_retain (sorted_retain h.sorted)), ?_, ?_, ?_⟩
  · exact (HasList.retain (h.allow.of_get (get_retain_of_ne (by decide)))).retain
  · exact hask.of_get (get_retain_of_ne (by decide))
  · refine h.deny.of_get ?_
    rw [get_retain_of_ne (by decide), get_retain_of_ne (by decide), get_retain_of_ne (by decide)]

theorem get_applyPermissionAuthority (hallow : "allow" ≠ k) (hask : "ask" ≠ k) :
    Fields.get k (applyPermissionAuthority fields) = Fields.get k fields := by
  unfold applyPermissionAuthority
  simp only
  rw [get_retain_of_ne hallow, get_retain_of_ne hallow, get_retain_of_ne hask]

end

/-! ## The fragment, list by list -/

/-- The list with the rules of the fragment after it. -/
def appended (native : Option Json) (l : List String) : List String :=
  match native with
  | some v => dedup (l ++ (stringsOf (some v)).map normalizeDeprecatedTool)
  | none => l

theorem mem_appended {s : String} {native : Option Json} {l : List String} :
    s ∈ appended native l ↔ s ∈ l ∨ s ∈ (stringsOf native).map normalizeDeprecatedTool := by
  cases native with
  | none => simp [appended, stringsOf]
  | some v => rw [appended, mem_dedup, List.mem_append]

theorem nodup_appended {native : Option Json} {l : List String} (h : l.Nodup) :
    (appended native l).Nodup := by
  cases native with
  | none => exact h
  | some v => exact nodup_dedup _

/-- The value that the fragment leaves under a key. -/
def nativeValue (key : String) (old : Option Json) (value : Json) : Json :=
  if key = "allow" ∨ key = "ask" ∨ key = "deny" then
    strings (dedup (stringsOf old ++ (stringsOf (some value)).map normalizeDeprecatedTool))
  else value

theorem mergeNativeKey_eq (rendered : List (String × Json)) (key : String) (value : Json) :
    mergeNativeKey rendered key value =
      Fields.insert key (nativeValue key (Fields.get key rendered) value) rendered := by
  unfold mergeNativeKey nativeValue
  split
  · rfl
  · rfl

def mergeNativeKeys (native rendered : List (String × Json)) : List (String × Json) :=
  native.foldl (fun acc f => mergeNativeKey acc f.1 f.2) rendered

section

variable {native rendered : List (String × Json)} {b : PermBuckets}

theorem get_mergeNativeKeys (hnative : Fields.Sorted native) (k : String) :
    Fields.get k (mergeNativeKeys native rendered) =
      match Fields.get k native with
      | some v => some (nativeValue k (Fields.get k rendered) v)
      | none => Fields.get k rendered := by
  simp only [mergeNativeKeys, mergeNativeKey_eq]
  rw [Fields.get_foldl_insert (f := nativeValue) hnative]
  cases Fields.get k native with
  | none => rfl
  | some v => rfl

theorem sorted_mergeNativeKeys (h : Fields.Sorted rendered) :
    Fields.Sorted (mergeNativeKeys native rendered) := by
  unfold mergeNativeKeys
  induction native generalizing rendered with
  | nil => exact h
  | cons f native ih =>
      rw [List.foldl_cons, mergeNativeKey_eq]
      exact ih (Fields.sorted_insert h)

theorem HasList.merge {key : String} {l : List String}
    (hkey : key = "allow" ∨ key = "ask" ∨ key = "deny") (h : HasList key l rendered)
    (hnative : Fields.Sorted native) :
    HasList key (appended (Fields.get key native) l) (mergeNativeKeys native rendered) := by
  unfold HasList
  rw [get_mergeNativeKeys hnative]
  cases hv : Fields.get key native with
  | none => exact h
  | some v =>
      refine Or.inl ?_
      simp only [nativeValue, if_pos hkey, appended, h.stringsOf]

/-- The lists with the rules of the fragment after them. -/
def PermBuckets.append (b : PermBuckets) (native : List (String × Json)) : PermBuckets :=
  ⟨appended (Fields.get "allow" native) b.allow, appended (Fields.get "ask" native) b.ask,
    appended (Fields.get "deny" native) b.deny⟩

theorem PermLists.append (h : PermLists rendered b) (hnative : Fields.Sorted native) :
    PermLists (mergeNativeKeys native rendered) (b.append native) :=
  ⟨sorted_mergeNativeKeys h.sorted, h.allow.merge (by simp) hnative,
    h.ask.merge (by simp) hnative, h.deny.merge (by simp) hnative⟩

theorem ranked_append_authority (h : Ranked b) : Ranked (b.append native).authority :=
  ranked_authority (nodup_appended h.allow) (nodup_appended h.ask) (nodup_appended h.deny)

theorem Guards.append {denied asked : List String} (h : Guards denied asked b) :
    Guards (denied ++ (stringsOf (Fields.get "deny" native)).map normalizeDeprecatedTool)
      (asked ++ (stringsOf (Fields.get "ask" native)).map normalizeDeprecatedTool)
      (b.append native) where
  deny s hs := mem_appended.mpr ((List.mem_append.mp hs).imp_left (h.deny s))
  ask s hs := by
    rcases List.mem_append.mp hs with hs | hs
    · exact (h.ask s hs).imp (fun h => mem_appended.mpr (Or.inl h))
        (fun h => mem_appended.mpr (Or.inl h))
    · exact Or.inl (mem_appended.mpr (Or.inr hs))

end

/-! ## What is written -/

/-- The fields of `permissions`, of none when there is no such object. -/
def permissionsOf (settings : List (String × Json)) : List (String × Json) :=
  ((Fields.get "permissions" settings).bind Json.asObject?).getD []

def modeValue (m : MergedManifest) : Option Json :=
  m.capabilities.defaultMode.map (fun mode => .str (permissionModeStr mode))

/-- The fields have three lists without a rule in two places; they keep what is
denied and asked for, and the default mode is the given one. -/
structure Guarded (denied asked : List String) (mode : Option Json)
    (fields : List (String × Json)) (b : PermBuckets) : Prop where
  lists : PermLists fields b
  ranked : Ranked b
  guards : Guards denied asked b
  defaultMode : Fields.get "defaultMode" fields = mode

theorem guarded_permissionsObject (m : MergedManifest) :
    Guarded (denySources m) (askSources m) (modeValue m) ((permissionsObject m).getD [])
      (permissionBuckets m) := by
  refine ⟨?_, ranked_permissionBuckets m, guards_permissionBuckets m, ?_⟩
  · unfold permissionsObject
    simp only
    split
    · rename_i hempty
      simp only [List.isEmpty_iff] at hempty
      obtain ⟨hallow, hask, hdeny, -⟩ := hempty
      exact ⟨Fields.sorted_nil, Or.inr ⟨rfl, hallow⟩, Or.inr ⟨rfl, hask⟩, Or.inr ⟨rfl, hdeny⟩⟩
    · refine ⟨sorted_insertSome (Fields.sorted_ofList _), Or.inl ?_, Or.inl ?_, Or.inl ?_⟩
      all_goals
        simp [get_insertSome, Fields.ofList, Fields.get_insert]
  · unfold permissionsObject modeValue
    simp only
    split
    · rename_i hempty
      rw [Option.isNone_iff_eq_none.mp hempty.2.2.2]
      rfl
    · simp [get_insertSome, Fields.ofList, Fields.get_insert]

/-- How the fragment is taken apart. -/
theorem mergeNativePermissions_ok {settings settings' : List (String × Json)}
    {frag rest : Option Yaml}
    (h : mergeNativePermissions settings frag = .ok (settings', rest)) :
    (frag.bind (Yaml.get? "permissions") = none ∧ settings' = settings ∧ rest = frag) ∨
      ∃ y p json, frag = some y ∧ y.get? "permissions" = some p ∧ p.toJson = .ok json ∧
        Fields.get "defaultMode" (json.asObject?.getD []) = none ∧
        settings' = Fields.insert "permissions" (.obj (applyPermissionAuthority
          (mergeNativeKeys (json.asObject?.getD []) (permissionsOf settings)))) settings ∧
        rest = some (.map (Yaml.removeKey "permissions" (y.asMapping?.getD []))) := by
  unfold mergeNativePermissions at h
  split at h
  · obtain ⟨rfl, rfl⟩ := Prod.mk.inj (Except.ok.inj h)
    exact Or.inl ⟨rfl, rfl, rfl⟩
  · rename_i y
    split at h
    · rename_i hnone
      obtain ⟨rfl, rfl⟩ := Prod.mk.inj (Except.ok.inj h)
      exact Or.inl ⟨hnone, rfl, rfl⟩
    · rename_i p hp
      split at h
      · exact absurd h (by simp)
      · rename_i json hjson
        simp only at h
        split at h
        · exact absurd h (by simp)
        · rename_i hmode
          obtain ⟨rfl, rfl⟩ := Prod.mk.inj (Except.ok.inj h)
          exact Or.inr ⟨y, p, json, rfl, hp, hjson, by simpa using hmode, rfl, rfl⟩

/-- The fields of `permissions` in the fragment. -/
def catchAllPermissions (frag : Option Yaml) : List (String × Json) :=
  match (frag.bind (Yaml.get? "permissions")).map Yaml.toJson with
  | some (.ok json) => json.asObject?.getD []
  | _ => []

theorem Guarded.merge {denied asked : List String} {mode : Option Json}
    {settings settings' : List (String × Json)} {frag rest : Option Yaml} {b : PermBuckets}
    (hb : Guarded denied asked mode (permissionsOf settings) b)
    (h : mergeNativePermissions settings frag = .ok (settings', rest)) :
    ∃ b', Guarded
      (denied ++ (stringsOf (Fields.get "deny" (catchAllPermissions frag))).map
        normalizeDeprecatedTool)
      (asked ++ (stringsOf (Fields.get "ask" (catchAllPermissions frag))).map
        normalizeDeprecatedTool) mode (permissionsOf settings') b' := by
  rcases mergeNativePermissions_ok h with ⟨hnone, rfl, -⟩ | ⟨y, p, json, rfl, hp, hjson, hmode,
    rfl, -⟩
  · refine ⟨b, ?_⟩
    simp only [catchAllPermissions, hnone, Option.map_none, Fields.get_nil, stringsOf,
      Option.bind_none, Option.getD_none, List.filterMap_nil, List.map_nil, List.append_nil]
    exact hb
  · have hfrag : catchAllPermissions (some y) = json.asObject?.getD [] := by
      simp [catchAllPermissions, hp, hjson]
    have hsorted : Fields.Sorted (json.asObject?.getD []) := by
      cases json with
      | obj fields => exact (Json.wf_obj.mp (Yaml.wf_toJson hjson)).sorted
      | _ => exact Fields.sorted_nil
    refine ⟨(b.append (json.asObject?.getD [])).authority, ?_⟩
    have hget : ∀ fields, permissionsOf (Fields.insert "permissions" (.obj fields) settings) =
        fields := by
      intro fields
      simp [permissionsOf, Fields.get_insert, Json.asObject?]
    rw [hget, hfrag]
    refine ⟨(hb.lists.append hsorted).authority, ranked_append_authority hb.ranked,
      hb.guards.append.authority, ?_⟩
    rw [get_applyPermissionAuthority (by decide) (by decide), get_mergeNativeKeys hsorted, hmode]
    exact hb.defaultMode

/-- The lists are texts, so there is no null to remove. -/
theorem Guarded.strip {denied asked : List String} {mode : Option Json}
    {fields : List (String × Json)} {b : PermBuckets} (h : Guarded denied asked mode fields b)
    (hmode : ∀ v, mode = some v → NoNulls v ∧ v ≠ .null) (depth : Nat) :
    Guarded denied asked mode (stripFields fields depth) b := by
  have hkeep : ∀ {key : String} {v : Json}, NoNulls v → v ≠ .null →
      Fields.get key fields = some v → Fields.get key (stripFields fields depth) = some v := by
    intro key v hv hnull hget
    rw [get_stripFields h.lists.sorted, hget]
    simp [hnull, stripJsonNullsDepth_of_noNulls hv]
  have hnone : ∀ {key : String}, Fields.get key fields = none →
      Fields.get key (stripFields fields depth) = none := by
    intro key hget
    rw [get_stripFields h.lists.sorted, hget]
    rfl
  have hlist : ∀ {key : String} {l : List String}, HasList key l fields →
      HasList key l (stripFields fields depth) := by
    rintro key l (hget | ⟨hget, hl⟩)
    · exact Or.inl (hkeep (noNulls_strings l) (by simp [strings]) hget)
    · exact Or.inr ⟨hnone hget, hl⟩
  refine ⟨⟨?_, hlist h.lists.allow, hlist h.lists.ask, hlist h.lists.deny⟩, h.ranked, h.guards, ?_⟩
  · rw [stripFields_eq]
    exact Fields.sorted_mapValues (Fields.sorted_filter h.lists.sorted)
  · have hget := h.defaultMode
    cases mode with
    | none => exact hnone hget
    | some v => exact hkeep (hmode v rfl).1 (hmode v rfl).2 hget

end Llmenv.Adapter.ClaudeCode
