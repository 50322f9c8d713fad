/-
# `Llmenv.Adapter.ClaudeCode.Hooks` — the hooks of `settings.json`

The first part of `generate_settings_json`: the hooks of the manifest, then the
ones llmenv registers for itself, each an entry in the list of its event.  The
fragment `native_hooks.claude_code` is merged over the lists, and an entry that
is there twice is kept once (`dedup_hooks_doc`).

A rendered entry is in normal form, so merging leaves it as it is.
-/
import Llmenv.Adapter.ClaudeCode.Servers

namespace Llmenv.Adapter.ClaudeCode

open Llmenv.Lib Llmenv.Manifest

/-- The machine, as the adapter sees it. -/
structure Host where
  /-- The shell-quoted path of the running binary. -/
  llmenvProgram : Except String String
  /-- Whether the installed Claude Code reads `onFailure`, when its version is
  known. -/
  supportsOnFailure : Option Bool
  /-- The paths of a command, moved to the output folder: the command, the bundle
  it comes from and the files of the manifest. -/
  resolveHookCommand : String → Option String → List (String × String) → Except String String
  /-- The path without links and dots, of a file that exists. -/
  canonicalize : String → Option String

/-- A machine without plugins. -/
def bareHost : Host where
  llmenvProgram := .ok "llmenv"
  supportsOnFailure := none
  resolveHookCommand := fun cmd _ _ => .ok cmd
  canonicalize := fun _ => none

/-! ## The hooks of the manifest -/

def onFailureAllowed (host : Host) (hooks : List Hook) : Bool :=
  hooks.any (fun hook => hook.handler.onFailure.isSome) && host.supportsOnFailure != some false

def hookHandlerValue (hook : Hook) (resolvedCommand : Option String) (writeOnFailure : Bool) :
    Json :=
  let blocks := hook.handler.onFailure = some .block ∧ hook.handler.kind = .command
  let kind := match hook.handler.kind with
    | .command => "command"
    | .mcpTool => "mcp_tool"
  let onFailure := if writeOnFailure ∧ blocks then some "block" else none
  .obj (insertSome "onFailure" (onFailure.map .str)
    (insertSome "tool" (hook.handler.tool.map .str)
      (insertSome "command" (resolvedCommand.map .str) [("type", .str kind)])))

/-- An entry: a matcher and one handler. -/
def hookEntry (matcher : Option String) (handler : Json) : Json :=
  .obj (insertSome "matcher" (matcher.map .str) [("hooks", .arr [handler])])

/-- The command of a hook, resolved. -/
def resolvedCommand (host : Host) (files : List (String × String)) (hook : Hook) :
    Except String (Option String) :=
  match hook.handler.command with
  | none => .ok none
  | some cmd => (host.resolveHookCommand cmd hook.bundleOrigin files).map some

/-- The event and the entry of each hook. -/
def manifestHooks (host : Host) (files : List (String × String)) (writeOnFailure : Bool) :
    List Hook → Except String (List (String × Json))
  | [] => .ok []
  | hook :: hooks => do
      let command ← resolvedCommand host files hook
      let rest ← manifestHooks host files writeOnFailure hooks
      .ok ((hook.event, hookEntry hook.matcher (hookHandlerValue hook command writeOnFailure)) ::
        rest)

/-! ## The hooks of llmenv -/

/-- An entry that runs a command. -/
def commandEntry (matcher : Option String) (command : String) : Json :=
  hookEntry matcher (.obj [("command", .str command), ("type", .str "command")])

def hookRun (program event : String) : String :=
  program ++ " hook-run --engine claude_code " ++ event

def baselineHookEvents : List (String × String) :=
  [("session_start", "SessionStart"), ("session_end", "SessionEnd"),
   ("post_model_switch", "PostModelSwitch")]

def adaptiveRecallHookEvents : List (String × String) :=
  [("post_tool_batch", "PostToolBatch"), ("post_tool_use_failure", "PostToolUseFailure"),
   ("subagent_start", "SubagentStart")]

def sessionLogHookEvents : List (String × String) :=
  [("user_prompt_submit", "UserPromptSubmit"), ("pre_tool_use", "PreToolUse"),
   ("post_tool_use", "PostToolUse"), ("notification", "Notification"), ("stop", "Stop"),
   ("subagent_stop", "SubagentStop"), ("pre_compact", "PreCompact")]

def shellTools : List String := ["Bash", "Monitor"]

section

variable (m : MergedManifest)

def slippage : Option SlippageControl := m.capabilities.features.bind Features.slippage

def taskTracker : Option TaskTracker := m.capabilities.features.bind Features.taskTracker

/-- A layer of slippage control that is on. -/
def slippageLayer (layer : SlippageControl → Bool) : Bool :=
  (slippage m).any (fun s => s.enabled && layer s)

def icmActive : Bool := m.mcps.any (fun mcp => mcp.name = memoryMcpName)

def lifecycleHookRegistrations : List (String × Bool) :=
  [("session_start", true), ("session_end", true), ("turn_start", icmActive m),
   ("stop", m.sessionLog.anySinkEnabled || (taskTracker m).any TaskTracker.enabled ||
     slippageLayer m SlippageControl.selfCritique)]

def lifecycleEventRegistered (event : String) : Bool :=
  (lifecycleHookRegistrations m).any (fun r => r.1 = event && r.2)

def adaptiveRecallOn : Bool :=
  m.mcps.any (fun mcp => mcp.name = memoryMcpName &&
    mcp.memoryHook.all MemoryHookSettings.adaptiveRecall)

/-- The tools whose calls have to reach `hook-run pre_tool_use`. -/
def preToolUseMatchers : List String :=
  ["^Read$"] ++
  (if slippageLayer m (fun s => s.answerBeforeAct || s.explainBeforeAct) then
    ["^(" ++ Text.joinStr "|" shellTools ++ ")$"] else []) ++
  (if slippageLayer m SlippageControl.readBeforeEdit then ["^Write$"] else []) ++
  (if m.mcps.any (fun mcp => mcp.name = codebaseMemoryMcpName) then
    ["^mcp__codebase-memory-mcp__index_repository$"] else []) ++
  (if (taskTracker m).any (fun t => t.enabled && t.blockEngineTaskTools) then
    ["^(TaskCreate|TaskList|TaskUpdate)$"] else [])

/-- The entries of llmenv, without those that depend on what is there already. -/
def builtinHooks (program : String) : List (String × Json) :=
  let run (event : String) := hookRun program event
  let sink := m.sessionLog.anySinkEnabled
  [("SessionStart", commandEntry none (program ++ " config-context --engine claude_code")),
   ("PreToolUse", commandEntry (some "^(Write|Edit|MultiEdit)$")
      (program ++ " config-guard --engine claude_code"))] ++
  (if slippageLayer m SlippageControl.metrics && !sink then
    [("PostToolUse", commandEntry none (run "post_tool_use"))] else []) ++
  -- With a session log there is an entry for every tool already.
  (if sink then [] else (preToolUseMatchers m).map (fun matcher =>
    ("PreToolUse", commandEntry (some matcher) (run "pre_tool_use")))) ++
  (if m.throttle.isSome then
    [("PreToolUse", commandEntry none (program ++ " throttle pre-tool")),
     ("UserPromptSubmit", commandEntry none (program ++ " throttle prompt"))] else []) ++
  baselineHookEvents.map (fun e => (e.2, commandEntry none (run e.1))) ++
  (if slippageLayer m SlippageControl.ruleReinjection && !sink &&
      !lifecycleEventRegistered m "turn_start" then
    [("UserPromptSubmit", commandEntry none (run "user_prompt_submit"))] else []) ++
  (if lifecycleEventRegistered m "turn_start" then
    [("UserPromptSubmit", commandEntry none (run "turn_start"))] else []) ++
  (if adaptiveRecallOn m then
    adaptiveRecallHookEvents.map (fun e => (e.2, commandEntry none (run e.1))) ++
      [("PreToolUse", commandEntry (some "^Agent$") (run "subagent_task"))] else []) ++
  (if sink then sessionLogHookEvents.map (fun e => (e.2, commandEntry none (run e.1)))
    else if lifecycleEventRegistered m "stop" then
      [("Stop", commandEntry none (run "stop"))] else [])

end

/-- The entry runs the command for the tool. -/
def routes (command tool : String) (entry : Json) : Bool :=
  ((entry.get? "hooks").bind Json.asArray?).any
      (fun hooks => hooks.any (fun h => (h.get? "command").bind Json.asStr? = some command)) &&
    match (entry.get? "matcher").bind Json.asStr? with
    | none => true
    | some matcher => matcher = "^" ++ tool ++ "$"

def unroutedTools (entries : Option (List Json)) (command : String) (tools : List String) :
    List String :=
  tools.filter (fun tool => !(entries.getD []).any (routes command tool))

def toolsMatcher : List String → String
  | [one] => "^" ++ one ++ "$"
  | many => "^(" ++ Text.joinStr "|" many ++ ")$"

/-- An entry for the tools that no other one sends to the command. -/
def unroutedEntry (event command : String) (tools : List String) (wanted : Bool)
    (hooksByEvent : List (String × List Json)) : List (String × List Json) :=
  let unrouted := unroutedTools (Fields.get event hooksByEvent) command tools
  if wanted && !unrouted.isEmpty then
    pushEntry event (commandEntry (some (toolsMatcher unrouted)) command) hooksByEvent
  else hooksByEvent

/-- The nudges of the task tracker, after all other entries. -/
def trackerHooks (m : MergedManifest) (program : String)
    (hooksByEvent : List (String × List Json)) : List (String × List Json) :=
  match taskTracker m with
  | none => hooksByEvent
  | some tracker =>
      if tracker.enabled then
        unroutedEntry "PreToolUse" (hookRun program "pre_tool_use") shellTools
          tracker.enforceCommit
          (unroutedEntry "PostToolUse" (hookRun program "post_tool_use")
            (["Skill", "Edit", "Write", "MultiEdit", "AskUserQuestion"] ++ shellTools)
            tracker.nudges hooksByEvent)
      else hooksByEvent

def pushAll (entries : List (String × Json)) (hooksByEvent : List (String × List Json)) :
    List (String × List Json) :=
  entries.foldl (fun acc e => pushEntry e.1 e.2 acc) hooksByEvent

/-- The rendered entries of each event. -/
def renderHooks (host : Host) (m : MergedManifest) : Except String (List (String × List Json)) := do
  let declared ← manifestHooks host m.files (onFailureAllowed host m.capabilities.hooks)
    m.capabilities.hooks
  let program ← host.llmenvProgram
  .ok (trackerHooks m program (pushAll (declared ++ builtinHooks m program) []))

/-! ## The document -/

def dedupEntries : Json → Json
  | .arr entries => .arr (dedup entries)
  | value => value

/-- Remove nulls, and of equal entries of an event all but the first. -/
def dedupHooksDoc (hooks : Json) : Json :=
  match stripJsonNulls hooks with
  | .obj fields => .obj (Fields.mapValues dedupEntries fields)
  | value => value

/-- The value of `hooks`. -/
def hooksValue (host : Host) (m : MergedManifest) : Except String Json := do
  let hooksByEvent ← renderHooks host m
  let hooks ← overlayNative (hooksObject hooksByEvent)
    (fragment "claude_code" m.capabilities.nativeHooks)
  .ok (dedupHooksDoc hooks)

/-! ## Rendered entries -/

theorem normal_insertSome {k : String} {v : Option String} {fields : List (String × Json)}
    (h : Normal (.obj fields)) : Normal (.obj (insertSome k (v.map .str) fields)) := by
  cases v with
  | none => exact h
  | some s =>
      cases h with
      | obj hnull hvalues =>
          refine .obj (fun f hf => ?_) (fun f hf => ?_)
          · rcases Fields.mem_of_mem_insert hf with rfl | hf
            · simp
            · exact hnull f hf
          · rcases Fields.mem_of_mem_insert hf with rfl | hf
            · exact .str s
            · exact hvalues f hf

theorem normal_singleton {k : String} {v : Json} (hnull : v ≠ .null) (hv : Normal v) :
    Normal (.obj [(k, v)]) :=
  .obj (by simpa using hnull) (by simpa using hv)

theorem normal_hookHandlerValue (hook : Hook) (command : Option String) (write : Bool) :
    Normal (hookHandlerValue hook command write) :=
  normal_insertSome (normal_insertSome (normal_insertSome
    (normal_singleton (by simp) (.str _))))

theorem wf_hookHandlerValue (hook : Hook) (command : Option String) (write : Bool) :
    (hookHandlerValue hook command write).Wf :=
  Json.wf_obj.mpr (wf_insertStr (wf_insertStr (wf_insertStr (wf_singleton (.str _)))))

/-- Entries as llmenv writes them: objects in normal form. -/
structure RenderedEntry (entry : Json) : Prop where
  normal : Normal entry
  wf : entry.Wf
  notNull : entry ≠ .null

theorem rendered_hookEntry (matcher : Option String) {handler : Json} (h : Normal handler)
    (hwf : handler.Wf) : RenderedEntry (hookEntry matcher handler) where
  normal := normal_insertSome (normal_singleton (by simp) (.arr (by simp) (by simpa using h)))
  wf := Json.wf_obj.mpr (wf_insertStr (wf_singleton (.arr (by simpa using hwf))))
  notNull := by simp [hookEntry]

theorem rendered_commandEntry (matcher : Option String) (command : String) :
    RenderedEntry (commandEntry matcher command) := by
  refine rendered_hookEntry matcher (.obj (by simp) (by simpa using ⟨Normal.str _, Normal.str _⟩))
    (.obj ?_ (by simpa using ⟨Json.Wf.str _, Json.Wf.str _⟩))
  simpa [Fields.Sorted] using (by decide : "command" < "type")

theorem rendered_manifestHooks {host : Host} {files : List (String × String)} {write : Bool}
    {hooks : List Hook} : ∀ {entries : List (String × Json)},
      manifestHooks host files write hooks = .ok entries → ∀ e ∈ entries, RenderedEntry e.2 := by
  induction hooks with
  | nil =>
      intro entries h
      exact Except.ok.inj h ▸ by simp
  | cons hook hooks ih =>
      intro entries h
      obtain ⟨command, -, h⟩ := bind_eq_ok.mp h
      obtain ⟨rest, hrest, h⟩ := bind_eq_ok.mp h
      obtain rfl := Except.ok.inj h
      exact List.forall_mem_cons.mpr
        ⟨rendered_hookEntry _ (normal_hookHandlerValue hook command write)
          (wf_hookHandlerValue hook command write), ih hrest⟩

theorem rendered_builtinHooks (m : MergedManifest) (program : String) :
    ∀ e ∈ builtinHooks m program, RenderedEntry e.2 := by
  intro e he
  have hcommand : ∃ matcher command, e.2 = commandEntry matcher command := by
    simp only [builtinHooks, List.mem_append, List.mem_cons, List.not_mem_nil, or_false,
      List.mem_map, apply_ite (fun l : List (String × Json) => e ∈ l)] at he
    -- Every group of entries is made of `commandEntry`.
    aesop
  obtain ⟨matcher, command, heq⟩ := hcommand
  exact heq ▸ rendered_commandEntry matcher command

/-- Lists of rendered entries, none of them empty, by event. -/
structure RenderedHooks (hooksByEvent : List (String × List Json)) : Prop where
  sorted : Fields.Sorted hooksByEvent
  entries : ∀ e ∈ hooksByEvent, ∀ entry ∈ e.2, RenderedEntry entry

theorem RenderedHooks.push {hooksByEvent : List (String × List Json)}
    (h : RenderedHooks hooksByEvent) (event : String) {entry : Json} (hentry : RenderedEntry entry) :
    RenderedHooks (pushEntry event entry hooksByEvent) := by
  refine ⟨Fields.sorted_insert h.sorted, fun e he => ?_⟩
  rcases Fields.mem_of_mem_insert he with rfl | he
  · intro j hj
    rcases List.mem_append.mp hj with hj | hj
    · cases hget : Fields.get event hooksByEvent with
      | none => exact absurd hj (by simp [hget])
      | some old =>
          rw [hget, Option.getD_some] at hj
          exact h.entries _ (Fields.mem_of_get hget) j hj
    · exact List.mem_singleton.mp hj ▸ hentry
  · exact h.entries e he

theorem RenderedHooks.pushAll {entries : List (String × Json)}
    (hentries : ∀ e ∈ entries, RenderedEntry e.2) {hooksByEvent : List (String × List Json)}
    (h : RenderedHooks hooksByEvent) : RenderedHooks (pushAll entries hooksByEvent) := by
  unfold ClaudeCode.pushAll
  induction entries generalizing hooksByEvent with
  | nil => exact h
  | cons e entries ih =>
      obtain ⟨he, hrest⟩ := List.forall_mem_cons.mp hentries
      exact ih hrest (h.push e.1 he)

theorem RenderedHooks.unroutedEntry {hooksByEvent : List (String × List Json)}
    (h : RenderedHooks hooksByEvent) (event command : String) (tools : List String)
    (wanted : Bool) : RenderedHooks (unroutedEntry event command tools wanted hooksByEvent) := by
  unfold ClaudeCode.unroutedEntry
  simp only
  split
  · exact h.push event (rendered_commandEntry _ _)
  · exact h

/-- An event keeps its entries when others are pushed. -/
theorem mem_pushEntry {event event' : String} {entry entry' : Json}
    {hooksByEvent : List (String × List Json)}
    (h : ∃ es, Fields.get event hooksByEvent = some es ∧ entry ∈ es) :
    ∃ es, Fields.get event (pushEntry event' entry' hooksByEvent) = some es ∧ entry ∈ es := by
  obtain ⟨es, hget, hmem⟩ := h
  rw [pushEntry, Fields.get_insert]
  by_cases heq : event' = event
  · subst heq
    exact ⟨es ++ [entry'], by simp [hget], List.mem_append_left _ hmem⟩
  · exact ⟨es, by simp [heq, hget], hmem⟩

theorem mem_pushAll {event : String} {entry : Json} {entries : List (String × Json)} :
    ∀ {hooksByEvent : List (String × List Json)}, ((event, entry) ∈ entries ∨
      ∃ es, Fields.get event hooksByEvent = some es ∧ entry ∈ es) →
    ∃ es, Fields.get event (pushAll entries hooksByEvent) = some es ∧ entry ∈ es := by
  unfold pushAll
  induction entries with
  | nil =>
      intro hooksByEvent h
      exact h.resolve_left List.not_mem_nil
  | cons e entries ih =>
      intro hooksByEvent h
      refine ih ?_
      rcases h with h | h
      · rcases List.mem_cons.mp h with rfl | h
        · refine Or.inr ⟨(Fields.get event hooksByEvent).getD [] ++ [entry], ?_, by simp⟩
          simp [pushEntry, Fields.get_insert]
        · exact Or.inl h
      · exact Or.inr (mem_pushEntry h)

theorem mem_unroutedEntry {event event' command : String} {entry : Json} {tools : List String}
    {wanted : Bool} {hooksByEvent : List (String × List Json)}
    (h : ∃ es, Fields.get event hooksByEvent = some es ∧ entry ∈ es) :
    ∃ es, Fields.get event (unroutedEntry event' command tools wanted hooksByEvent) = some es ∧
      entry ∈ es := by
  unfold unroutedEntry
  simp only
  split
  · exact mem_pushEntry h
  · exact h

theorem trackerHooks_cases {P : List (String × List Json) → Prop} {m : MergedManifest}
    {program : String} {hooksByEvent : List (String × List Json)} (h : P hooksByEvent)
    (hstep : ∀ {event command tools wanted hooksByEvent}, P hooksByEvent →
      P (unroutedEntry event command tools wanted hooksByEvent)) :
    P (trackerHooks m program hooksByEvent) := by
  unfold trackerHooks
  split
  · exact h
  · split
    · exact hstep (hstep h)
    · exact h

/-- What a render of the hooks gives: normal entries, and the one that tells the
agent where its configuration is. -/
theorem renderHooks_ok {host : Host} {m : MergedManifest} {hooksByEvent : List (String × List Json)}
    (h : renderHooks host m = .ok hooksByEvent) :
    RenderedHooks hooksByEvent ∧
      ∃ es entry, Fields.get "SessionStart" hooksByEvent = some es ∧ entry ∈ es := by
  obtain ⟨declared, hdeclared, h⟩ := bind_eq_ok.mp h
  obtain ⟨program, -, h⟩ := bind_eq_ok.mp h
  obtain rfl := Except.ok.inj h
  constructor
  · refine trackerHooks_cases (P := RenderedHooks) ?_ fun h => h.unroutedEntry _ _ _ _
    refine RenderedHooks.pushAll (fun e he => ?_) ⟨Fields.sorted_nil, by simp⟩
    rcases List.mem_append.mp he with he | he
    · exact rendered_manifestHooks hdeclared e he
    · exact rendered_builtinHooks m program e he
  · have hmem : ∃ es, Fields.get "SessionStart" (trackerHooks m program
        (pushAll (declared ++ builtinHooks m program) [])) = some es ∧
        commandEntry none (program ++ " config-context --engine claude_code") ∈ es := by
      refine trackerHooks_cases (P := fun l => ∃ es, Fields.get "SessionStart" l = some es ∧
        commandEntry none (program ++ " config-context --engine claude_code") ∈ es) ?_
        mem_unroutedEntry
      exact mem_pushAll (Or.inl (List.mem_append_right _ (by simp [builtinHooks])))
    obtain ⟨es, hget, hentry⟩ := hmem
    exact ⟨es, _, hget, hentry⟩

/-! ## The document, event by event -/

/-- What the document has for an event: the rendered entries with the value of the
fragment merged over them. -/
def eventValue : Option (List Json) → Option Json → Option Json
  | none, none => none
  | some entries, none => some (.arr (dedup entries))
  | none, some v => if v = .null then none else some (normalizeJson v)
  | some entries, some v => if v = .null then none else some (mergeJson (.arr entries) v)

theorem normal_mergeJson_arr (entries : List Json) (v : Json) :
    Normal (mergeJson (.arr entries) v) := by
  cases v with
  | arr items =>
      rw [mergeJson, ← normalizeJson]
      exact normal_normalizeJson _
  | _ =>
      rw [mergeJson]
      · exact normal_normalizeJson _
      all_goals simp

theorem mergeJson_arr_eq_null {entries : List Json} {v : Json} :
    mergeJson (.arr entries) v = .null ↔ v = .null := by
  cases v with
  | arr items => simp [mergeJson]
  | _ =>
      rw [mergeJson]
      · simp
      all_goals simp

theorem dedupEntries_of_normal {j : Json} (h : Normal j) : dedupEntries j = j := by
  cases h with
  | arr hnodup _ => rw [dedupEntries, dedup_of_nodup hnodup]
  | _ => rfl

theorem normal_arr_dedup {entries : List Json} (h : ∀ j ∈ entries, Normal j) :
    Normal (.arr (dedup entries)) :=
  .arr (nodup_dedup _) fun j hj => h j (mem_dedup.mp hj)

/-- A value of the document is in normal form and is not null. -/
theorem eventValue_normal {entries : Option (List Json)} {native : Option Json} {v : Json}
    (hentries : ∀ es, entries = some es → ∀ j ∈ es, Normal j)
    (h : eventValue entries native = some v) : Normal v ∧ v ≠ .null := by
  cases entries with
  | none =>
      cases native with
      | none => exact absurd h (by simp [eventValue])
      | some w =>
          by_cases hw : w = .null
          · exact absurd h (by simp [eventValue, hw])
          · simp only [eventValue, if_neg hw, Option.some.injEq] at h
            exact h ▸ ⟨normal_normalizeJson w, by simpa using hw⟩
  | some es =>
      cases native with
      | none =>
          simp only [eventValue, Option.some.injEq] at h
          exact h ▸ ⟨normal_arr_dedup (hentries es rfl), by simp⟩
      | some w =>
          by_cases hw : w = .null
          · exact absurd h (by simp [eventValue, hw])
          · simp only [eventValue, if_neg hw, Option.some.injEq] at h
            exact h ▸ ⟨normal_mergeJson_arr es w, by simpa [mergeJson_arr_eq_null] using hw⟩

theorem get_dedupHooksDoc {hooksByEvent : List (String × List Json)}
    (hrendered : RenderedHooks hooksByEvent) {frag : List (String × Json)}
    (hfrag : Fields.Sorted frag) :
    ∃ fields, dedupHooksDoc (mergeJson (hooksObject hooksByEvent) (.obj frag)) = .obj fields ∧
      Fields.Sorted fields ∧
      ∀ event, Fields.get event fields =
        eventValue (Fields.get event hooksByEvent) (Fields.get event frag) := by
  have hobject : Fields.Sorted (Fields.mapValues Json.arr hooksByEvent) :=
    Fields.sorted_mapValues hrendered.sorted
  have hmerged : Fields.Sorted (mergeFields (Fields.mapValues Json.arr hooksByEvent) frag) :=
    sorted_mergeFields hobject
  refine ⟨Fields.mapValues dedupEntries
    (stripFields (mergeFields (Fields.mapValues Json.arr hooksByEvent) frag) 1), ?_, ?_,
    fun event => ?_⟩
  · rw [dedupHooksDoc, hooksObject, mergeJson_obj, stripJsonNulls_obj]
  · rw [stripFields_eq]
    exact Fields.sorted_mapValues (Fields.sorted_mapValues (Fields.sorted_filter hmerged))
  · rw [Fields.get_mapValues, get_stripFields hmerged, get_mergeFields hfrag, Fields.get_mapValues]
    have hnormal : ∀ es, Fields.get event hooksByEvent = some es → ∀ j ∈ es, Normal j :=
      fun es hes j hj => (hrendered.entries _ (Fields.mem_of_get hes) j hj).normal
    cases hes : Fields.get event hooksByEvent with
    | none =>
        cases hv : Fields.get event frag with
        | none => rfl
        | some v =>
            by_cases hnull : v = .null
            · simp [mergeValue, eventValue, hnull]
            · have hstrip := stripJsonNullsDepth_of_normal (normal_normalizeJson v) 1
              simp [mergeValue, eventValue, hnull, hstrip,
                dedupEntries_of_normal (normal_normalizeJson v)]
    | some es =>
        cases hv : Fields.get event frag with
        | none =>
            have hstrip : stripJsonNullsDepth (.arr es) 1 = .arr es :=
              stripJsonNullsDepth_of_noNulls
                (.arr fun j hj => (hnormal es hes j hj).noNulls) 1
            simp [eventValue, hstrip, dedupEntries]
        | some v =>
            by_cases hnull : v = .null
            · simp [mergeValue, eventValue, hnull, mergeJson_arr_eq_null]
            · have hnormal := normal_mergeJson_arr es v
              have hne : mergeJson (.arr es) v ≠ .null := mt mergeJson_arr_eq_null.mp hnull
              simp [mergeValue, eventValue, hnull, hne, stripJsonNullsDepth_of_normal hnormal,
                dedupEntries_of_normal hnormal]

/-- A fragment that is no object takes the place of all hooks. -/
theorem dedupHooksDoc_not_obj {hooksByEvent : List (String × List Json)} {j : Json}
    (hj : j.asObject? = none) :
    dedupHooksDoc (mergeJson (hooksObject hooksByEvent) j) = normalizeJson j := by
  have hmerge : mergeJson (hooksObject hooksByEvent) j = normalizeJson j := by
    cases j with
    | obj fields => exact absurd hj (by simp [Json.asObject?])
    | _ =>
        rw [hooksObject, mergeJson]
        all_goals simp
  have hnot : (normalizeJson j).asObject? = none := by
    cases j with
    | obj fields => exact absurd hj (by simp [Json.asObject?])
    | _ => rfl
  rw [dedupHooksDoc, hmerge, stripJsonNulls,
    stripJsonNullsDepth_of_normal (normal_normalizeJson j)]
  cases h : normalizeJson j with
  | obj fields => exact absurd hnot (by simp [h, Json.asObject?])
  | _ => rfl

/-- The value of `hooks`: an object with a value for each event, or the fragment. -/
inductive HooksDoc (native : Option Yaml) (hooksByEvent : List (String × List Json)) : Json → Prop
  | merged {frag fields : List (String × Json)} :
      (native = none ∧ frag = [] ∨ ∃ y, native = some y ∧ y.toJson = .ok (.obj frag)) →
      Fields.Sorted fields →
      (∀ event, Fields.get event fields =
        eventValue (Fields.get event hooksByEvent) (Fields.get event frag)) →
      HooksDoc native hooksByEvent (.obj fields)
  | replaced {y : Yaml} {j : Json} : native = some y → y.toJson = .ok j → j.asObject? = none →
      HooksDoc native hooksByEvent (normalizeJson j)

theorem hooksValue_ok {host : Host} {m : MergedManifest} {hooks : Json}
    (h : hooksValue host m = .ok hooks) :
    ∃ hooksByEvent, renderHooks host m = .ok hooksByEvent ∧
      HooksDoc (fragment "claude_code" m.capabilities.nativeHooks) hooksByEvent hooks := by
  obtain ⟨hooksByEvent, hrender, h⟩ := bind_eq_ok.mp h
  obtain ⟨merged, hmerged, h⟩ := bind_eq_ok.mp h
  obtain rfl := Except.ok.inj h
  obtain ⟨hrendered, -⟩ := renderHooks_ok hrender
  refine ⟨hooksByEvent, hrender, ?_⟩
  cases overlayNative_ok hmerged with
  | @merged frag hwf hfrag =>
      obtain ⟨fields, heq, hsorted, hget⟩ := get_dedupHooksDoc hrendered hwf.sorted
      rw [hooksObject, mergeJson_obj] at heq
      exact heq ▸ .merged hfrag hsorted hget
  | replaced hy hjson hobj => exact dedupHooksDoc_not_obj hobj ▸ .replaced hy hjson hobj

/-- The hooks are in normal form. -/
theorem HooksDoc.normal {native : Option Yaml} {hooksByEvent : List (String × List Json)}
    {hooks : Json} (h : HooksDoc native hooksByEvent hooks)
    (hrendered : RenderedHooks hooksByEvent) : Normal hooks := by
  cases h with
  | replaced _ _ _ => exact normal_normalizeJson _
  | @merged frag fields _ hsorted hget =>
      have hvalue : ∀ f ∈ fields, Normal f.2 ∧ f.2 ≠ .null := by
        intro f hf
        refine eventValue_normal (fun es hes j hj => ?_)
          ((hget f.1).symm.trans (Fields.get_of_mem hsorted hf))
        exact (hrendered.entries _ (Fields.mem_of_get hes) j hj).normal
      exact .obj (fun f hf => (hvalue f hf).2) (fun f hf => (hvalue f hf).1)

theorem normal_hooksValue {host : Host} {m : MergedManifest} {hooks : Json}
    (h : hooksValue host m = .ok hooks) : Normal hooks := by
  obtain ⟨hooksByEvent, hrender, hdoc⟩ := hooksValue_ok h
  exact hdoc.normal (renderHooks_ok hrender).1

theorem wf_dedupHooksDoc {hooks : Json} (h : hooks.Wf) : (dedupHooksDoc hooks).Wf := by
  have hstrip : (stripJsonNulls hooks).Wf := wf_stripJsonNullsDepth h 0
  unfold dedupHooksDoc
  split
  · rename_i fields hfields
    have hwf := Json.wf_obj.mp (hfields ▸ hstrip)
    refine .obj (Fields.sorted_mapValues hwf.sorted) fun f hf => ?_
    obtain ⟨g, hg, rfl⟩ := List.mem_map.mp hf
    have hv := hwf.values g hg
    unfold dedupEntries
    split
    · rename_i entries hentries
      exact .arr fun j hj => Json.wf_arr.mp (hentries ▸ hv) j (mem_dedup.mp hj)
    · exact hv
  · exact hstrip

theorem wf_hooksValue {host : Host} {m : MergedManifest} {hooks : Json}
    (h : hooksValue host m = .ok hooks) : hooks.Wf := by
  obtain ⟨hooksByEvent, hrender, h⟩ := bind_eq_ok.mp h
  obtain ⟨merged, hmerged, h⟩ := bind_eq_ok.mp h
  obtain rfl := Except.ok.inj h
  obtain ⟨hrendered, -⟩ := renderHooks_ok hrender
  refine wf_dedupHooksDoc (wf_overlayNative ?_ hmerged)
  refine .obj (Fields.sorted_mapValues hrendered.sorted) fun f hf => ?_
  obtain ⟨e, he, rfl⟩ := List.mem_map.mp hf
  exact .arr fun j hj => (hrendered.entries e he j hj).wf

end Llmenv.Adapter.ClaudeCode
