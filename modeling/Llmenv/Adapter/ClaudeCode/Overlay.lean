/-
# `Llmenv.Adapter.ClaudeCode.Overlay` — does a native fragment leave the rest?

`native_hooks.claude_code` and `native_mcp.claude_code` are YAML of any kind,
merged over what llmenv renders.  A merge of two objects keeps the rest; a
fragment that is no object takes the place of all of it.  So the rendered hooks
and servers are kept exactly when the fragments are mappings where the rendered
values are objects, or when the servers are in the file already.

`overlay_native_json`, which the other adapters use, refuses such a fragment.
-/
import Llmenv.Adapter.ClaudeCode.Ownership
import Llmenv.Adapter.ClaudeCode.Reconcile

namespace Llmenv.Adapter.ClaudeCode

open Llmenv.Lib Llmenv.Manifest

/-- A fragment that is not there, or that becomes an object. -/
def mergeable : Option Yaml → Bool
  | none => true
  | some (.map _) => true
  | some (.tagged _ _) => true
  | some _ => false

theorem mergeable_iff {y : Yaml} {j : Json} (h : y.toJson = .ok j) :
    mergeable (some y) = true ↔ ∃ fields, j = .obj fields := by
  rw [toJson_obj_iff h]
  cases y <;> simp [mergeable]

/-! ## Hooks -/

/-- The `hooks` of the settings file. -/
def SettingsFolder.hooks (out : SettingsFolder) : Option Json :=
  match out.settings with
  | .doc d => d.value.get? "hooks"
  | _ => none

/-- Every rendered entry of an event that the fragment does not name, or names
with an array, is in the file. -/
def HooksKept (host : Host) (m : MergedManifest) (out : SettingsFolder) : Prop :=
  ∀ hooksByEvent, renderHooks host m = .ok hooksByEvent →
    ∀ event entries entry, Fields.get event hooksByEvent = some entries → entry ∈ entries →
      (∀ v, Fields.get event (fragFields (fragment "claude_code" m.capabilities.nativeHooks)) =
        some v → ∃ items, v = .arr items) →
      ∃ items item, out.hooks.bind (Json.get? event) = some (.arr items) ∧ item ∈ items ∧
        normalizeJson item = normalizeJson entry

/-- Into an empty folder the hooks are written as they are rendered. -/
theorem hooks_of_generate {host : Host} {m : MergedManifest} {out : SettingsFolder}
    (h : generateSettingsJson host m .empty = .ok out) :
    ∃ hooks hooksByEvent, renderHooks host m = .ok hooksByEvent ∧
      HooksDoc (fragment "claude_code" m.capabilities.nativeHooks) hooksByEvent hooks ∧
      out.hooks = if hooks = .null then none else some hooks := by
  obtain ⟨fresh, doc, prev, existing, hgen⟩ := generateSettingsJson_ok h
  obtain ⟨d, hd, hvalue⟩ := hgen.settings
  obtain ⟨hooks, hhooks, hparts⟩ := freshSettings_ok hgen.rendered
  obtain ⟨hooksByEvent, hrender, hdoc⟩ := hooksValue_ok hhooks
  obtain rfl : none = existing := Except.ok.inj hgen.read
  refine ⟨hooks, hooksByEvent, hrender, hdoc, ?_⟩
  rw [SettingsFolder.hooks, hd]
  simp only [hvalue, Json.get?_obj]
  rw [hgen.get_alone rfl, if_neg (by decide), hparts.get_hooks hhooks]

theorem mem_eventValue {entries : List Json} {native : Option Json} {entry : Json}
    (hentry : entry ∈ entries) (hnative : ∀ v, native = some v → ∃ items, v = .arr items) :
    ∃ items item, eventValue (some entries) native = some (.arr items) ∧ item ∈ items ∧
      normalizeJson item = normalizeJson entry := by
  cases native with
  | none => exact ⟨dedup entries, entry, rfl, mem_dedup.mpr hentry, rfl⟩
  | some v =>
      obtain ⟨items, rfl⟩ := hnative v rfl
      refine ⟨dedup (normalizeItems (entries ++ items)), normalizeJson entry, ?_, ?_, ?_⟩
      · simp [eventValue, mergeJson]
      · rw [mem_dedup, normalizeItems_eq_map]
        exact List.mem_map_of_mem (List.mem_append_left _ hentry)
      · exact normalizeJson_of_normal (normal_normalizeJson entry)

theorem hooks_kept_iff {host : Host} {m : MergedManifest} {out : SettingsFolder}
    (h : generateSettingsJson host m .empty = .ok out) :
    HooksKept host m out ↔
      mergeable (fragment "claude_code" m.capabilities.nativeHooks) = true := by
  obtain ⟨hooks, hooksByEvent, hrender, hdoc, hout⟩ := hooks_of_generate h
  cases hdoc with
  | @merged frag fields hfrag _ hget =>
      have hfields := fragFields_eq hfrag
      have hmergeable :
          mergeable (fragment "claude_code" m.capabilities.nativeHooks) = true := by
        rcases hfrag with ⟨hnone, -⟩ | ⟨y, hy, hjson⟩
        · rw [hnone]
          rfl
        · rw [hy]
          exact (mergeable_iff hjson).mpr ⟨frag, rfl⟩
      refine ⟨fun _ => hmergeable, fun _ hooksByEvent' hrender' event entries entry hentries hentry
        hnative => ?_⟩
      obtain rfl := Except.ok.inj (hrender.symm.trans hrender')
      rw [hout, if_neg (by simp), Option.bind_some, Json.get?_obj, hget, hentries, ← hfields]
      exact mem_eventValue hentry hnative
  | @replaced y j hy hjson hobj =>
      have hnot : ¬ mergeable (fragment "claude_code" m.capabilities.nativeHooks) = true := by
        rw [hy, mergeable_iff hjson]
        rintro ⟨fields, rfl⟩
        exact absurd hobj (by simp [Json.asObject?])
      refine ⟨fun hkept => ?_, fun hmergeable => absurd hmergeable hnot⟩
      -- There is always an entry for the start of a session.
      obtain ⟨-, es, entry, hes, hentry⟩ := renderHooks_ok hrender
      have hnone : ∀ event, Fields.get event
          (fragFields (fragment "claude_code" m.capabilities.nativeHooks)) = none := by
        intro event
        rw [hy, fragFields_eq_nil hjson hobj]
        rfl
      obtain ⟨items, item, hget, -, -⟩ := hkept hooksByEvent hrender "SessionStart" es entry hes
        hentry (fun v hv => absurd (hnone _ ▸ hv) (by simp))
      have hno : (normalizeJson j).get? "SessionStart" = none := by
        cases j with
        | obj fields => exact absurd hobj (by simp [Json.asObject?])
        | _ => rfl
      rw [hout] at hget
      split at hget
      · exact absurd hget (by simp)
      · rw [Option.bind_some, hno] at hget
        exact absurd hget (by simp)

/-! ## Servers -/

/-- The servers that the fragment names. -/
def fragServers (native : Option Yaml) : List (String × Json) :=
  serversOf (.obj (fragFields native))

/-- An entry with every rendered key of the server. -/
def HasRendered (mcp : ResolvedMcp) (servers : List (String × Json)) : Prop :=
  ∃ entry, Fields.get mcp.name servers = some (.obj entry) ∧
    ∀ k v, Fields.get k (renderEntry mcp) = some v → v ≠ .null → Fields.get k entry = some v

/-- Every resolved server that the fragment does not name is in the file. -/
def ServersKept (mcps : List ResolvedMcp) (native : Option Yaml) (out : Folder) : Prop :=
  ∀ mcp ∈ mcps, Fields.get mcp.name (fragServers native) = none → HasRendered mcp out.servers

/-- The fragment is a mapping, and what it has for the servers is one. -/
def keepsServers : Option Yaml → Bool
  | some (.map entries) => mergeable (Yaml.getKey "mcpServers" entries)
  | native => mergeable native

/-- The servers are in the file, and none of them is one that llmenv wrote. -/
def AlreadyThere (mcps : List ResolvedMcp) (out : Folder) : Prop :=
  ∀ mcp ∈ mcps, mcp.name ∉ readOwnedServers out.owned ∧ HasRendered mcp out.servers

theorem noNulls_renderEntry (mcp : ResolvedMcp) : NoNulls (.obj (renderEntry mcp)) := by
  have hmap : ∀ {m : SortedMap String String} {w : Json}, nonEmptyMap m = some w → NoNulls w := by
    intro m w hw
    unfold nonEmptyMap at hw
    split at hw
    · exact absurd hw (by simp)
    · refine Option.some.inj hw ▸ .obj (fun f hf => ?_) (fun f hf => ?_)
      · obtain ⟨e, -, rfl⟩ := List.mem_map.mp hf
        simp
      · obtain ⟨e, -, rfl⟩ := List.mem_map.mp hf
        exact .str e.2
  have hvalue : ∀ k v, Fields.get k (renderEntry mcp) = some v → NoNulls v := by
    intro k v h
    unfold renderEntry at h
    rcases get_insertSome_cases h with ⟨-, hv⟩ | h
    · obtain ⟨b, -, rfl⟩ := Option.map_eq_some_iff.mp hv
      exact .bool b
    · split at h
      · rcases get_insertSome_cases h with ⟨-, hv⟩ | h
        · exact hmap hv
        · simp only [Fields.ofList, List.foldl_cons, List.foldl_nil, Fields.get_insert,
            Fields.get_nil] at h
          split at h
          · exact Option.some.inj h ▸ noNulls_strings _
          · split at h
            · exact Option.some.inj h ▸ .str _
            · exact absurd h (by simp)
      · rcases get_insertSome_cases h with ⟨-, hv⟩ | h
        · obtain ⟨secs, -, rfl⟩ := Option.map_eq_some_iff.mp hv
          exact .num _
        · rcases get_insertSome_cases h with ⟨-, hv⟩ | h
          · exact hmap hv
          · simp only [Fields.ofList, List.foldl_cons, List.foldl_nil, Fields.get_insert,
              Fields.get_nil] at h
            split at h
            · exact Option.some.inj h ▸ .str _
            · split at h
              · exact Option.some.inj h ▸ .str _
              · exact absurd h (by simp)
  have hsorted := (wf_renderEntry mcp).sorted
  exact .obj (fun f hf => (get_renderEntry (Fields.get_of_mem hsorted hf)).2)
    (fun f hf => hvalue f.1 f.2 (Fields.get_of_mem hsorted hf))

/-- The servers of a document, with the nulls removed. -/
theorem get_serversOf_strip {doc : Json} (h : doc.Wf) {name : String} {entry : Json}
    (hentry : Fields.get name (serversOf doc) = some entry) (hnull : NoNulls entry)
    (hne : entry ≠ .null) : Fields.get name (serversOf (stripJsonNulls doc)) = some entry := by
  cases doc with
  | obj fields =>
      have hfields := Json.wf_obj.mp h
      simp only [serversOf, Json.get?_obj] at hentry
      cases hget : Fields.get "mcpServers" fields with
      | none => exact absurd hentry (by simp [hget])
      | some v =>
          cases v with
          | obj servers =>
              simp only [hget, Option.bind_some, Json.asObject?, Option.getD_some] at hentry
              have hservers := Json.wf_obj.mp (hfields.get hget)
              rw [stripJsonNulls_obj, serversOf, Json.get?_obj, get_stripFields hfields.sorted, hget]
              simp only [Option.bind_some, reduceCtorEq, if_false, stripJsonNullsDepth,
                Nat.reduceLT, Json.asObject?, Option.getD_some]
              rw [get_stripFields hservers.sorted, hentry]
              simp [hne, stripJsonNullsDepth_of_noNulls hnull]
          | _ => exact absurd hentry (by simp [hget, Json.asObject?])
  | _ => exact absurd hentry (by simp [serversOf, Json.get?])

theorem serversOf_strip_eq_nil {doc : Json} (h : doc.Wf)
    (hdoc : ∀ fields servers, doc = .obj fields →
      Fields.get "mcpServers" fields ≠ some (.obj servers)) :
    serversOf (stripJsonNulls doc) = [] := by
  cases doc with
  | obj fields =>
      rw [stripJsonNulls_obj, serversOf, Json.get?_obj, get_stripFields (Json.wf_obj.mp h).sorted]
      cases hget : Fields.get "mcpServers" fields with
      | none => rfl
      | some v =>
          cases v with
          | obj servers => exact absurd hget (hdoc fields servers rfl)
          | arr items => simp [stripJsonNullsDepth, Json.asObject?]
          | _ => rfl
  | arr items => simp [serversOf, stripJsonNulls, stripJsonNullsDepth, Json.get?]
  | _ => rfl

/-- The same of the values that the fragment becomes. -/
theorem keepsServers_iff {y : Yaml} {j : Json} (h : y.toJson = .ok j) :
    keepsServers (some y) = true ↔ ∃ fields, j = .obj fields ∧
      ∀ v, Fields.get "mcpServers" fields = some v → ∃ fs, v = .obj fs := by
  have hplain : PlainName "mcpServers" := by decide
  by_cases hmap : ∃ entries, y = .map entries
  · obtain ⟨entries, rfl⟩ := hmap
    obtain ⟨fields, rfl, -⟩ := Yaml.toJson_map h
    have hkeeps : keepsServers (some (.map entries)) =
        mergeable (Yaml.getKey "mcpServers" entries) := rfl
    rw [hkeeps]
    rcases get_toJson hplain h with ⟨hnone, hkey⟩ | ⟨entries', v, j, heq, hv, hj, hget⟩
    · rw [hkey entries rfl]
      simp [mergeable, hnone]
    · obtain rfl := Yaml.map.inj heq
      rw [hv, mergeable_iff hj]
      constructor
      · rintro ⟨fs, rfl⟩
        exact ⟨fields, rfl, fun v hv => ⟨fs, (Option.some.inj (hget.symm.trans hv)).symm⟩⟩
      · rintro ⟨fields', heq, hall⟩
        obtain rfl := Json.obj.inj heq
        exact hall j hget
  · have hkeeps : keepsServers (some y) = mergeable (some y) := by
      cases y with
      | map entries => exact absurd ⟨entries, rfl⟩ hmap
      | _ => rfl
    rw [hkeeps, mergeable_iff h]
    constructor
    · rintro ⟨fields, rfl⟩
      refine ⟨fields, rfl, fun v hv => ?_⟩
      rcases get_toJson hplain h with ⟨hnone, -⟩ | ⟨entries, -, -, heq, -, -, -⟩
      · exact absurd (hnone ▸ hv) (by simp)
      · exact absurd ⟨entries, heq⟩ hmap
    · rintro ⟨fields, rfl, -⟩
      exact ⟨fields, rfl⟩

/-- A fragment that is an object keeps the servers when it has none, or an object,
for them. -/
theorem keepsServers_merged {native : Option Yaml} {frag : List (String × Json)}
    (hfrag : native = none ∧ frag = [] ∨ ∃ y, native = some y ∧ y.toJson = .ok (.obj frag)) :
    keepsServers native = true ↔
      ∀ v, Fields.get "mcpServers" frag = some v → ∃ fs, v = .obj fs := by
  rcases hfrag with ⟨rfl, rfl⟩ | ⟨y, rfl, hy⟩
  · simp [keepsServers, mergeable]
  · rw [keepsServers_iff hy]
    constructor
    · rintro ⟨fields, heq, hall⟩
      exact Json.obj.inj heq ▸ hall
    · intro hall
      exact ⟨frag, rfl, hall⟩

/-- A rendered server that the fragment does not name is in the merged document. -/
theorem get_serversOf_merged {servers frag : List (String × Json)} {name : String} {entry : Json}
    (hfrag : Json.WfFields frag)
    (hall : ∀ v, Fields.get "mcpServers" frag = some v → ∃ fs, v = .obj fs)
    (hnamed : Fields.get name (serversOf (.obj frag)) = none)
    (hentry : Fields.get name servers = some entry) :
    Fields.get name (serversOf (.obj (mergeFields [("mcpServers", .obj servers)] frag))) =
      some entry := by
  rw [serversOf, Json.get?_obj, get_mcpServers_merged servers hfrag]
  cases hv : Fields.get "mcpServers" frag with
  | none => exact hentry
  | some v =>
      obtain ⟨fs, rfl⟩ := hall v hv
      have hfs := (Json.wf_obj.mp (hfrag.get hv)).sorted
      have hnamed : Fields.get name fs = none := by
        simpa [serversOf, hv, Json.asObject?] using hnamed
      simp only [mergeOption_some, mergeValue, mergeJson_obj, Option.bind_some, Json.asObject?,
        Option.getD_some]
      rw [get_mergeFields hfs, hnamed, mergeOption_none, hentry]

/-- What the merged document has for the servers: the rendered ones with those of
the fragment over them, or nothing. -/
theorem serversDoc_servers {mcps : List ResolvedMcp} {native : Option Yaml} {doc : Json}
    (h : serversDoc mcps native = .ok doc) :
    (keepsServers native = true ∧ ∀ mcp ∈ mcps, Fields.get mcp.name (fragServers native) = none →
      Fields.get mcp.name (serversOf doc) = some (.obj (renderEntry mcp))) ∨
    (keepsServers native = false ∧ fragServers native = [] ∧ ∀ fields servers, doc = .obj fields →
      Fields.get "mcpServers" fields ≠ some (.obj servers)) := by
  obtain ⟨servers, hbuild, hdoc⟩ := bind_eq_ok.mp h
  obtain ⟨hmem, -⟩ := get_buildMcpServers hbuild
  cases overlayNative_ok hdoc with
  | @merged frag hwf hfrag =>
      rw [fragServers, fragFields_eq hfrag]
      by_cases hall : ∀ v, Fields.get "mcpServers" frag = some v → ∃ fs, v = .obj fs
      · refine Or.inl ⟨(keepsServers_merged hfrag).mpr hall, ?_⟩
        intro mcp hmcp hnamed
        exact get_serversOf_merged hwf hall hnamed (hmem mcp hmcp)
      · have hkeeps : keepsServers native = false :=
          Bool.eq_false_iff.mpr fun htrue => hall ((keepsServers_merged hfrag).mp htrue)
        obtain ⟨v, hv, hno⟩ : ∃ v, Fields.get "mcpServers" frag = some v ∧ v.asObject? = none := by
          by_contra hnone
          refine hall fun v hv => ?_
          cases hobj : v.asObject? with
          | none => exact absurd ⟨v, hv, hobj⟩ hnone
          | some fs => exact ⟨fs, Json.asObject?_eq_some.mp hobj⟩
        refine Or.inr ⟨hkeeps, by simp [serversOf, hv, hno], ?_⟩
        rintro fields servers' heq hservers
        obtain rfl := Json.obj.inj heq
        rw [get_mcpServers_merged servers hwf, hv] at hservers
        have hobj : (mergeJson (.obj servers) v).asObject? = none := mergeJson_not_obj hno
        rw [Option.some.inj hservers] at hobj
        exact absurd hobj (by simp [Json.asObject?])
  | @replaced y j hy hjson hobj =>
      have hkeeps : keepsServers native = false := by
        rw [Bool.eq_false_iff, hy, ne_eq, keepsServers_iff hjson]
        rintro ⟨fields, rfl, -⟩
        exact absurd hobj (by simp [Json.asObject?])
      refine Or.inr ⟨hkeeps, ?_, ?_⟩
      · rw [fragServers, hy, fragFields_eq_nil hjson hobj]
        rfl
      · intro fields servers' heq
        have hno := congrArg Json.asObject? heq
        rw [mergeJson_not_obj hobj] at hno
        exact absurd hno (by simp [Json.asObject?])

theorem servers_kept_iff {out out' : Folder} {mcps : List ResolvedMcp} {native : Option Yaml}
    (h : mergeMcpIntoClaudeJson out mcps native = .ok out') :
    ServersKept mcps native out' ↔ keepsServers native = true ∨ AlreadyThere mcps out := by
  obtain ⟨set, hset, hmerged⟩ := mergeMcp_merged h
  obtain ⟨doc, hdoc, hservers, -⟩ := llmenvServers_ok hset
  have hwf := wf_serversDoc hdoc
  rcases serversDoc_servers hdoc with ⟨hkeeps, hrendered⟩ | ⟨hkeeps, hfrag, hnone⟩
  · refine ⟨fun _ => Or.inl hkeeps, fun _ mcp hmcp hnamed => ?_⟩
    have hentry := get_serversOf_strip hwf (hrendered mcp hmcp hnamed) (noNulls_renderEntry mcp)
      (by simp)
    rw [← hservers] at hentry
    unfold HasRendered
    rw [hmerged.servers, hentry]
    simp only [upsertEntry]
    split
    · rename_i old new hold hnew
      obtain rfl := Json.obj.inj hnew
      refine ⟨_, rfl, fun k v hv _ => ?_⟩
      have hsorted := (Json.wf_obj.mp ((wf_folder_servers out).get hold)).sorted
      rw [get_carryRuntimeKeys hsorted, hv]
      rfl
    · exact ⟨renderEntry mcp, rfl, fun k v hv _ => hv⟩
  · -- Nothing is written: the servers are those of the file that llmenv does not own.
    have hget : ∀ name, Fields.get name out'.servers =
        if name ∈ readOwnedServers out.owned then none else Fields.get name out.servers := by
      intro name
      rw [hmerged.servers, hservers, serversOf_strip_eq_nil hwf hnone]
      rfl
    constructor
    · intro hkept
      refine Or.inr fun mcp hmcp => ?_
      obtain ⟨entry, hentry, hkeys⟩ := hkept mcp hmcp (by rw [hfrag]; rfl)
      rw [hget] at hentry
      split at hentry
      · exact absurd hentry (by simp)
      · rename_i hnot
        exact ⟨hnot, entry, hentry, hkeys⟩
    · rintro (htrue | hthere)
      · exact absurd (hkeeps.symm.trans htrue) (by simp)
      · intro mcp hmcp _
        obtain ⟨hnot, entry, hentry, hkeys⟩ := hthere mcp hmcp
        exact ⟨entry, by rw [hget, if_neg hnot, hentry], hkeys⟩

/-! ## The result -/

/-- For every manifest, every fragment and every `.claude.json`: the two calls keep
what the fragments do not name exactly when these merge, or when the servers need
not be written. -/
theorem overlay_keeps_rest_iff {host : Host} {m : MergedManifest} {out : SettingsFolder}
    {claude claude' : Folder} (hsettings : generateSettingsJson host m .empty = .ok out)
    (hservers : mergeMcpIntoClaudeJson claude m.mcps
      (fragment "claude_code" m.capabilities.nativeMcp) = .ok claude') :
    (HooksKept host m out ∧
      ServersKept m.mcps (fragment "claude_code" m.capabilities.nativeMcp) claude') ↔
    (mergeable (fragment "claude_code" m.capabilities.nativeHooks) = true ∧
      (keepsServers (fragment "claude_code" m.capabilities.nativeMcp) = true ∨
        AlreadyThere m.mcps claude)) := by
  rw [hooks_kept_iff hsettings, servers_kept_iff hservers]

/-- One server, and `native_hooks.claude_code`. -/
def oneServerAndHooks (value : Yaml) : MergedManifest :=
  { MergedManifest.empty with
    mcps := [localServer "a"]
    capabilities :=
      { Capabilities.empty with nativeHooks := SortedMap.empty.insert "claude_code" value } }

/-- A fragment with a list for an event keeps the rest. -/
theorem overlay_keeps_rest_of_mapping :
    ∃ out claude', generateSettingsJson bareHost
        (oneServerAndHooks (.map [(.str "SessionStart", .seq [.str "x"])])) .empty = .ok out ∧
      mergeMcpIntoClaudeJson ⟨.absent, .absent⟩ [localServer "a"] none = .ok claude' ∧
      HooksKept bareHost
        (oneServerAndHooks (.map [(.str "SessionStart", .seq [.str "x"])])) out ∧
      ServersKept [localServer "a"] none claude' := by
  have hsettings : generateSettingsJson bareHost
      (oneServerAndHooks (.map [(.str "SessionStart", .seq [.str "x"])])) .empty = .ok _ := rfl
  have hservers : mergeMcpIntoClaudeJson ⟨.absent, .absent⟩ [localServer "a"] none = .ok _ := rfl
  exact ⟨_, _, hsettings, hservers,
    (overlay_keeps_rest_iff hsettings hservers).mpr ⟨rfl, Or.inl rfl⟩⟩

/-- With the key `native_hooks.claude_code` and no value under it, `settings.json`
has no hooks at all. -/
theorem null_fragment_drops_hooks :
    ∃ out claude', generateSettingsJson bareHost (oneServerAndHooks .null) .empty = .ok out ∧
      mergeMcpIntoClaudeJson ⟨.absent, .absent⟩ [localServer "a"] none = .ok claude' ∧
      out.hooks = none ∧
      ¬ (HooksKept bareHost (oneServerAndHooks .null) out ∧
        ServersKept [localServer "a"] none claude') := by
  have hsettings : generateSettingsJson bareHost (oneServerAndHooks .null) .empty = .ok _ := rfl
  refine ⟨_, _, hsettings, rfl, by decide, fun hkept => ?_⟩
  exact absurd ((hooks_kept_iff hsettings).mp hkept.1) (by decide)

end Llmenv.Adapter.ClaudeCode
