/-
# `Llmenv.Adapter.ClaudeCode.Servers` — the MCP servers in `.claude.json`

`merge_mcp_into_claude_json`: the resolved servers are rendered, the fragment
`native_mcp.claude_code` is merged over them, and what is left under
`mcpServers` is put into the `.claude.json` of the folder.  That file belongs
to Claude Code, so a second file records the names that were written, and the
next call removes those it does not write again.

The files are values: reading gives back what was written.
-/
import Llmenv.Adapter.Render

namespace Llmenv.Adapter.ClaudeCode

open Llmenv.Lib Llmenv.Manifest

/-! ## Rendering the servers -/

/-- The entry of one server. -/
def renderEntry (m : ResolvedMcp) : List (String × Json) :=
  let entry := match m.kind with
    | .stdio command args env =>
        insertSome "env" (nonEmptyMap env)
          (Fields.ofList [("command", .str command), ("args", strings args)])
    | .remote url transport =>
        insertSome "timeout" (m.timeout.map (fun secs => .num (.int secs.toNat)))
          (insertSome "headers" (nonEmptyMap m.headers)
            (Fields.ofList [("type", .str (remoteTransportTypeStr transport)), ("url", .str url)]))
  insertSome "alwaysLoad" (m.alwaysLoad.map .bool) entry

/-- The loop of `build_mcp_servers`: `sources` has the last entry number of each
name. -/
def buildFrom : List ResolvedMcp → Nat → List (String × Json) → List (String × Nat) →
    Except String (List (String × Json))
  | [], _, servers, _ => .ok servers
  | m :: mcps, idx, servers, sources =>
      let entry := .obj (renderEntry m)
      let next := buildFrom mcps (idx + 1) (Fields.insert m.name entry servers)
        (Fields.insert m.name idx sources)
      match Fields.get m.name sources, Fields.get m.name servers with
      | some prevIdx, some existing =>
          if existing ≠ entry then
            let name := m.name
            .error s!"true semantic conflict: MCP server '{name}' defined twice with different content. First definition (entry #{prevIdx}) differs from second definition (entry #{idx}). Resolve by removing or renaming one server definition."
          else next
      | _, _ => next

def buildMcpServers (mcps : List ResolvedMcp) : Except String (List (String × Json)) :=
  buildFrom mcps 0 [] []

/-- Deep-merge a fragment into a rendered config. -/
def overlayNative (dst : Json) : Option Yaml → Except String Json
  | none => .ok dst
  | some frag =>
      match frag.toJson with
      | .ok json => .ok (mergeJson dst json)
      | .error e => .error s!"converting native fragment to JSON: {e}"

/-- The servers with the fragment merged over them, nulls still in. -/
def serversDoc (mcps : List ResolvedMcp) (native : Option Yaml) : Except String Json := do
  let servers ← buildMcpServers mcps
  overlayNative (.obj [("mcpServers", .obj servers)]) native

/-- The keys that the fragment set to null, of the server `name`. -/
def nulledKeys (doc : Json) (name : String) : List String :=
  match ((doc.get? "mcpServers").bind (Json.get? name)).bind Json.asObject? with
  | some entry => Fields.keys (entry.filter (fun f => f.2 = .null))
  | none => []

/-- What a document has under `mcpServers`. -/
def serversOf (doc : Json) : List (String × Json) :=
  ((doc.get? "mcpServers").bind Json.asObject?).getD []

/-! ## The files -/

/-- The file `.claude.json`. -/
inductive ClaudeJson where
  | absent
  | invalid
  | doc (d : Doc)

/-- The file `.claude.json.llmenv-owned`. -/
inductive OwnedFile where
  | absent
  | unreadable
  | names (names : List String)

structure Folder where
  claude : ClaudeJson
  owned : OwnedFile

/-- Without a readable file nothing is owned. -/
def readOwnedServers : OwnedFile → List String
  | .names names => names
  | _ => []

def readClaudeJson : ClaudeJson → Except String Doc
  | .absent => .ok ⟨.obj [], .obj Fields.sorted_nil (by simp)⟩
  | .invalid => .error "existing .claude.json is not valid JSON; refusing to overwrite (would destroy Claude state). Fix or remove the file and re-run."
  | .doc d => .ok d

/-! ## Merging them in -/

/-- The entry keys that `build_mcp_servers` renders. -/
def renderedEntryKeys : List String :=
  ["type", "command", "args", "env", "url", "headers", "timeout", "alwaysLoad"]

/-- Copy the keys of an existing entry that Claude Code added. -/
def carryRuntimeKeys (existing newObj : List (String × Json)) (nulled : List String) :
    List (String × Json) :=
  existing.foldl (fun acc f =>
    if Fields.get f.1 acc = none ∧ f.1 ∉ nulled ∧ f.1 ∉ renderedEntryKeys then
      Fields.insert f.1 f.2 acc
    else acc) newObj

/-- The entry to write over what is there. -/
def upsertEntry (existing : Option Json) (entry : Json) (nulled : List String) : Json :=
  match existing, entry with
  | some (.obj old), .obj new => .obj (carryRuntimeKeys old new nulled)
  | _, _ => entry

/-- Remove the stale servers and upsert the current ones. -/
def mergeServers (old current : List (String × Json)) (previouslyOwned : List String)
    (nulled : String → List String) : List (String × Json) :=
  let pruned := previouslyOwned.foldl (fun acc stale =>
    if stale ∈ Fields.keys current then acc else Fields.erase stale acc) old
  current.foldl (fun acc f =>
    Fields.insert f.1 (upsertEntry (Fields.get f.1 acc) f.2 (nulled f.1)) acc) pruned

section

variable {old new current : List (String × Json)} {nulled : List String}

/-- What `carry_runtime_keys` leaves under a key. -/
theorem get_carryRuntimeKeys (hold : Fields.Sorted old) (k : String) :
    Fields.get k (carryRuntimeKeys old new nulled) =
      (Fields.get k new).or
        (if k ∈ nulled ∨ k ∈ renderedEntryKeys then none else Fields.get k old) := by
  unfold carryRuntimeKeys
  induction old generalizing new with
  | nil => simp
  | cons f old ih =>
      obtain ⟨hlt, hrest⟩ := Fields.sorted_cons.mp hold
      obtain ⟨j, v⟩ := f
      rw [List.foldl_cons, ih hrest, Fields.get_cons]
      by_cases hj : j = k
      · subst hj
        have hnone : Fields.get j old = none :=
          Fields.get_eq_none.mpr fun e he => (hlt e he).ne'
        by_cases hown : j ∈ nulled ∨ j ∈ renderedEntryKeys
        · have hskip : ¬ (Fields.get j new = none ∧ j ∉ nulled ∧ j ∉ renderedEntryKeys) :=
            fun h => hown.elim h.2.1 h.2.2
          simp [hskip, hown]
        · obtain ⟨hnulled, hrendered⟩ := not_or.mp hown
          cases hnew : Fields.get j new with
          | none => simp [hnulled, hrendered, hnone, Fields.get_insert]
          | some w => simp [hnew, hnulled, hrendered, hnone]
      · have hkeep : ∀ w, Fields.get k (Fields.insert j w new) = Fields.get k new := by
          intro w
          rw [Fields.get_insert, if_neg hj]
        split
        · simp [hkeep]
        · simp

theorem wf_carryRuntimeKeys (hold : Json.WfFields old) (hnew : Json.WfFields new) :
    Json.WfFields (carryRuntimeKeys old new nulled) := by
  unfold carryRuntimeKeys
  induction old generalizing new with
  | nil => exact hnew
  | cons f old ih =>
      rw [List.foldl_cons]
      refine ih hold.tail ?_
      split
      · exact hnew.insert (hold.values f List.mem_cons_self)
      · exact hnew

theorem wf_upsertEntry {existing : Option Json} {entry : Json}
    (hexisting : ∀ e, existing = some e → e.Wf) (hentry : entry.Wf) :
    (upsertEntry existing entry nulled).Wf := by
  unfold upsertEntry
  split
  · exact Json.wf_obj.mpr (wf_carryRuntimeKeys (Json.wf_obj.mp (hexisting _ rfl))
      (Json.wf_obj.mp hentry))
  · exact hentry

variable {previouslyOwned : List String} {nulledOf : String → List String}

/-- What is left of the old servers under a name. -/
theorem get_pruned (name : String) (servers : List (String × Json)) :
    Fields.get name (previouslyOwned.foldl (fun acc stale =>
        if stale ∈ Fields.keys current then acc else Fields.erase stale acc) servers) =
      if name ∈ previouslyOwned ∧ name ∉ Fields.keys current then none
      else Fields.get name servers := by
  induction previouslyOwned generalizing servers with
  | nil => simp
  | cons stale rest ih =>
      rw [List.foldl_cons, ih]
      by_cases hstale : stale ∈ Fields.keys current
      · rw [if_pos hstale]
        by_cases hname : name = stale
        · simp [hname, hstale]
        · simp [hname]
      · rw [if_neg hstale, Fields.get_erase]
        by_cases hname : stale = name
        · simp [hname, hname ▸ hstale]
        · have hname' : name ≠ stale := fun h => hname h.symm
          simp [hname, hname']

/-- What is written under a server name. -/
theorem get_mergeServers (hcurrent : Fields.Sorted current) (name : String) :
    Fields.get name (mergeServers old current previouslyOwned nulledOf) =
      match Fields.get name current with
      | some entry => some (upsertEntry (Fields.get name old) entry (nulledOf name))
      | none => if name ∈ previouslyOwned then none else Fields.get name old := by
  rw [mergeServers, Fields.get_foldl_insert
    (f := fun name old entry => upsertEntry old entry (nulledOf name)) hcurrent, get_pruned]
  cases hget : Fields.get name current with
  | some entry =>
      have hmem : name ∈ Fields.keys current := Fields.mem_keys.mpr (by simp [hget])
      simp [hmem]
  | none =>
      have hmem : name ∉ Fields.keys current := fun h => Fields.mem_keys.mp h hget
      simp [hmem]

theorem wf_mergeServers (hold : Json.WfFields old) (hcurrent : Json.WfFields current) :
    Json.WfFields (mergeServers old current previouslyOwned nulledOf) := by
  have hpruned : ∀ {servers : List (String × Json)}, Json.WfFields servers →
      Json.WfFields (previouslyOwned.foldl (fun acc stale =>
        if stale ∈ Fields.keys current then acc else Fields.erase stale acc) servers) := by
    induction previouslyOwned with
    | nil => exact fun h => h
    | cons stale rest ih =>
        intro servers h
        rw [List.foldl_cons]
        refine ih ?_
        split
        · exact h
        · exact h.erase stale
  have hupserts : ∀ {l servers : List (String × Json)}, (∀ f ∈ l, f.2.Wf) →
      Json.WfFields servers → Json.WfFields (l.foldl (fun acc f =>
        Fields.insert f.1 (upsertEntry (Fields.get f.1 acc) f.2 (nulledOf f.1)) acc) servers) := by
    intro l
    induction l with
    | nil => exact fun _ h => h
    | cons f l ih =>
        intro servers hl h
        obtain ⟨hf, hrest⟩ := List.forall_mem_cons.mp hl
        exact ih hrest (h.insert (wf_upsertEntry (fun e he => h.get he) hf))
  exact hupserts hcurrent.values (hpruned hold)

end

/-! ## The fields of a rendered entry -/

theorem wf_renderEntry (m : ResolvedMcp) : Json.WfFields (renderEntry m) := by
  have hload : ∀ w, m.alwaysLoad.map Json.bool = some w → w.Wf := by
    intro w hw
    obtain ⟨b, -, rfl⟩ := Option.map_eq_some_iff.mp hw
    exact .bool b
  unfold renderEntry
  cases m.kind with
  | stdio command args env =>
      refine wf_insertSome (wf_insertSome (.ofList ?_) fun w => wf_nonEmptyMap) hload
      simpa using ⟨Json.Wf.str command, wf_strings args⟩
  | remote url transport =>
      refine wf_insertSome (wf_insertSome (wf_insertSome (.ofList ?_) fun w => wf_nonEmptyMap)
        fun w hw => ?_) hload
      · simpa using ⟨Json.Wf.str _, Json.Wf.str url⟩
      · obtain ⟨secs, -, rfl⟩ := Option.map_eq_some_iff.mp hw
        exact .num _

theorem wf_buildFrom {mcps : List ResolvedMcp} :
    ∀ {idx : Nat} {servers out : List (String × Json)} {sources : List (String × Nat)},
      Json.WfFields servers → buildFrom mcps idx servers sources = .ok out → Json.WfFields out := by
  induction mcps with
  | nil =>
      intro idx servers out sources hs h
      exact Except.ok.inj h ▸ hs
  | cons m mcps ih =>
      intro idx servers out sources hs h
      have hnext := hs.insert (k := m.name) (Json.wf_obj.mpr (wf_renderEntry m))
      simp only [buildFrom] at h
      split at h
      · split at h
        · exact absurd h (by simp)
        · exact ih hnext h
      · exact ih hnext h

theorem wf_overlayNative {dst doc : Json} {native : Option Yaml} (hdst : dst.Wf)
    (h : overlayNative dst native = .ok doc) : doc.Wf := by
  cases native with
  | none => exact Except.ok.inj h ▸ hdst
  | some frag =>
      simp only [overlayNative] at h
      split at h
      · rename_i json hjson
        exact Except.ok.inj h ▸ wf_mergeJson hdst (Yaml.wf_toJson hjson)
      · exact absurd h (by simp)

/-- What an overlay on an object leaves: the object with the fields of the fragment
merged over it, or what a fragment that is no object makes of it. -/
inductive NativeOverlay (dst : List (String × Json)) (native : Option Yaml) : Json → Prop
  | merged {frag : List (String × Json)} : Json.WfFields frag →
      (native = none ∧ frag = [] ∨ ∃ y, native = some y ∧ y.toJson = .ok (.obj frag)) →
      NativeOverlay dst native (.obj (mergeFields dst frag))
  | replaced {y : Yaml} {j : Json} : native = some y → y.toJson = .ok j → j.asObject? = none →
      NativeOverlay dst native (mergeJson (.obj dst) j)

theorem overlayNative_ok {dst : List (String × Json)} {native : Option Yaml} {doc : Json}
    (h : overlayNative (.obj dst) native = .ok doc) : NativeOverlay dst native doc := by
  cases native with
  | none =>
      obtain rfl := Except.ok.inj h
      exact NativeOverlay.merged .nil (Or.inl ⟨rfl, rfl⟩)
  | some y =>
      simp only [overlayNative] at h
      split at h
      · rename_i j hj
        obtain rfl := Except.ok.inj h
        cases hobj : j.asObject? with
        | none => exact .replaced rfl hj hobj
        | some frag =>
            obtain rfl := Json.asObject?_eq_some.mp hobj
            rw [mergeJson_obj]
            exact .merged (Json.wf_obj.mp (Yaml.wf_toJson hj)) (Or.inr ⟨y, rfl, hj⟩)
      · exact absurd h (by simp)

theorem get_mcpServers_merged (servers : List (String × Json)) {frag : List (String × Json)}
    (h : Json.WfFields frag) :
    Fields.get "mcpServers" (mergeFields [("mcpServers", .obj servers)] frag) =
      mergeOption (some (.obj servers)) (Fields.get "mcpServers" frag) := by
  rw [get_mergeFields h.sorted, Fields.get_cons, if_pos rfl]

theorem wf_serversDoc {mcps : List ResolvedMcp} {native : Option Yaml} {doc : Json}
    (h : serversDoc mcps native = .ok doc) : doc.Wf := by
  obtain ⟨servers, hservers, h⟩ := bind_eq_ok.mp h
  have hs : Json.WfFields servers := wf_buildFrom .nil hservers
  refine wf_overlayNative (.obj (List.pairwise_singleton _ _) fun f hf => ?_) h
  exact List.mem_singleton.mp hf ▸ Json.wf_obj.mpr hs

theorem wf_get? {doc v : Json} {k : String} (h : doc.Wf) (hv : doc.get? k = some v) : v.Wf := by
  cases doc with
  | obj fields => exact (Json.wf_obj.mp h).get hv
  | _ => exact absurd hv (by simp [Json.get?])

theorem wf_serversOf {doc : Json} (h : doc.Wf) : Json.WfFields (serversOf doc) := by
  unfold serversOf
  cases hget : doc.get? "mcpServers" with
  | none => exact .nil
  | some v =>
      have hv := wf_get? h hget
      cases v with
      | obj fields => exact Json.wf_obj.mp hv
      | _ => exact .nil

/-! ## The call -/

/-- The servers that a call writes, and the keys that the fragment nulled. -/
structure ServerSet where
  servers : List (String × Json)
  wf : Json.WfFields servers
  nulled : String → List String

def ServerSet.names (set : ServerSet) : List String := Fields.keys set.servers

/-- The first half of the call, up to the servers it writes. -/
def llmenvServers (mcps : List ResolvedMcp) (native : Option Yaml) : Except String ServerSet :=
  match h : serversDoc mcps native with
  | .error e => .error e
  | .ok doc => .ok ⟨serversOf (stripJsonNulls doc),
      wf_serversOf (wf_stripJsonNullsDepth (wf_serversDoc h) 0), nulledKeys doc⟩

/-- The fields of a document that is an object. -/
def fields? (d : Doc) : Option { fields : List (String × Json) // Json.WfFields fields } :=
  match d with
  | ⟨.obj fields, h⟩ => some ⟨fields, Json.wf_obj.mp h⟩
  | _ => none

/-- The new value of `mcpServers`.  A value that is no object is replaced. -/
def newServers (fields : List (String × Json)) (set : ServerSet) (previouslyOwned : List String) :
    List (String × Json) :=
  match Fields.get "mcpServers" fields with
  | some (.obj old) => mergeServers old set.servers previouslyOwned set.nulled
  | none => mergeServers [] set.servers previouslyOwned set.nulled
  | some _ => set.servers

theorem wf_newServers {fields : List (String × Json)} (h : Json.WfFields fields) (set : ServerSet)
    (previouslyOwned : List String) : Json.WfFields (newServers fields set previouslyOwned) := by
  unfold newServers
  split
  · rename_i old hold
    exact wf_mergeServers (Json.wf_obj.mp (h.get hold)) set.wf
  · exact wf_mergeServers .nil set.wf
  · exact set.wf

/-- The companion file after a call: none when no server is owned. -/
def ownedFile (names : List String) : OwnedFile :=
  if names.isEmpty then .absent else .names names

def mergeMcpIntoClaudeJson (out : Folder) (mcps : List ResolvedMcp) (native : Option Yaml) :
    Except String Folder := do
  let set ← llmenvServers mcps native
  let previouslyOwned := readOwnedServers out.owned
  if set.servers.isEmpty && previouslyOwned.isEmpty then .ok out
  else do
    let claude ← readClaudeJson out.claude
    match fields? claude with
    | some ⟨fields, h⟩ =>
        .ok
          { claude := .doc ⟨.obj (Fields.insert "mcpServers"
              (.obj (newServers fields set previouslyOwned)) fields),
              Json.wf_obj.mpr (h.insert (Json.wf_obj.mpr (wf_newServers h set previouslyOwned)))⟩
            owned := ownedFile set.names }
    | none => .error "existing .claude.json is not a JSON object; refusing to overwrite (would destroy Claude state). Fix or remove the file and re-run."

end Llmenv.Adapter.ClaudeCode
