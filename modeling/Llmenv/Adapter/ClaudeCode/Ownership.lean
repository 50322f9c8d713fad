/-
# `Llmenv.Adapter.ClaudeCode.Ownership` — whose servers are in `.claude.json`?

Claude Code and its user write the same file.  A call may change the servers
that it writes and those that the previous call wrote, and nothing else, over
any interleaving of calls and foreign edits.  What one call does is said once
(`Merged`); the companion file has the names of the previous call in every
state of a run (`run_owned`).

Two limits are by design.  A new entry that is no object replaces the old one
with all its keys, and arrays of a fragment lose repeated elements, since every
merge removes them.
-/
import Llmenv.Lib.Runs
import Llmenv.Adapter.ClaudeCode.Servers

namespace Llmenv.Adapter.ClaudeCode

open Llmenv.Lib Llmenv.Manifest

/-! ## One call -/

/-- The document in the file; without a file it is the empty object. -/
def ClaudeJson.value : ClaudeJson → Json
  | .absent => .obj []
  | .invalid => .null
  | .doc d => d.value

/-- The servers in the file. -/
def Folder.servers (out : Folder) : List (String × Json) := serversOf out.claude.value

theorem get_newServers (fields : List (String × Json)) (set : ServerSet)
    (previouslyOwned : List String) (name : String) :
    Fields.get name (newServers fields set previouslyOwned) =
      match Fields.get name set.servers with
      | some entry =>
          some (upsertEntry (Fields.get name (serversOf (.obj fields))) entry (set.nulled name))
      | none =>
          if name ∈ previouslyOwned then none else Fields.get name (serversOf (.obj fields)) := by
  unfold newServers serversOf
  simp only [Json.get?_obj]
  split
  · rename_i old hold
    simp only [hold, Option.bind_some, Json.asObject?, Option.getD_some]
    exact get_mergeServers set.wf.sorted name
  · rename_i hnone
    simp only [hnone, Option.bind_none, Option.getD_none]
    exact get_mergeServers set.wf.sorted name
  · rename_i v hv hobj
    have hno : v.asObject? = none := by
      cases v with
      | obj old => exact absurd rfl (hv old)
      | _ => rfl
    simp only [hobj, Option.bind_some, hno, Option.getD_none, Fields.get_nil]
    cases Fields.get name set.servers with
    | none => simp
    | some entry => simp [upsertEntry]

/-- What a call that writes `set` does to the folder. -/
structure Merged (out out' : Folder) (set : ServerSet) : Prop where
  others : ∀ k, k ≠ "mcpServers" → out'.claude.value.get? k = out.claude.value.get? k
  servers : ∀ name, Fields.get name out'.servers =
    match Fields.get name set.servers with
    | some entry => some (upsertEntry (Fields.get name out.servers) entry (set.nulled name))
    | none => if name ∈ readOwnedServers out.owned then none else Fields.get name out.servers
  owned : readOwnedServers out'.owned = set.names

theorem readOwnedServers_ownedFile (names : List String) :
    readOwnedServers (ownedFile names) = names := by
  cases names <;> rfl

/-- How a call succeeds: with nothing to do, or with a new document. -/
theorem mergeMcp_ok {out out' : Folder} {mcps : List ResolvedMcp} {native : Option Yaml}
    (h : mergeMcpIntoClaudeJson out mcps native = .ok out') :
    ∃ set, llmenvServers mcps native = .ok set ∧
      ((set.servers = [] ∧ readOwnedServers out.owned = [] ∧ out' = out) ∨
        ∃ fields hwf, out.claude.value = .obj fields ∧ Json.WfFields fields ∧
          out' = ⟨.doc ⟨.obj (Fields.insert "mcpServers"
            (.obj (newServers fields set (readOwnedServers out.owned))) fields), hwf⟩,
            ownedFile set.names⟩) := by
  obtain ⟨set, hset, h⟩ := bind_eq_ok.mp h
  refine ⟨set, hset, ?_⟩
  dsimp only at h
  split at h
  · rename_i hempty
    simp only [Bool.and_eq_true, List.isEmpty_iff] at hempty
    exact Or.inl ⟨hempty.1, hempty.2, (Except.ok.inj h).symm⟩
  · obtain ⟨claude, hclaude, h⟩ := bind_eq_ok.mp h
    have hvalue : out.claude.value = claude.value := by
      cases hfile : out.claude with
      | absent => exact congrArg Doc.value (Except.ok.inj (hfile ▸ hclaude))
      | invalid => exact absurd (hfile ▸ hclaude) (by simp [readClaudeJson])
      | doc d => exact congrArg Doc.value (Except.ok.inj (hfile ▸ hclaude))
    split at h
    · rename_i fields hwf hfields
      obtain ⟨value, hv⟩ := claude
      cases value with
      | obj fields' =>
          obtain rfl : fields' = fields := congrArg Subtype.val (Option.some.inj hfields)
          exact Or.inr ⟨_, _, hvalue, hwf, (Except.ok.inj h).symm⟩
      | _ => exact absurd hfields (by simp [fields?])
    · exact absurd h (by simp)

theorem mergeMcp_merged {out out' : Folder} {mcps : List ResolvedMcp} {native : Option Yaml}
    (h : mergeMcpIntoClaudeJson out mcps native = .ok out') :
    ∃ set, llmenvServers mcps native = .ok set ∧ Merged out out' set := by
  obtain ⟨set, hset, hcase⟩ := mergeMcp_ok h
  refine ⟨set, hset, ?_⟩
  rcases hcase with ⟨hnil, howned, rfl⟩ | ⟨fields, hwf, hvalue, -, rfl⟩
  · exact ⟨fun _ _ => rfl, by simp [hnil, howned], by simp [howned, ServerSet.names, hnil, Fields.keys]⟩
  · refine ⟨fun k hk => ?_, fun name => ?_, readOwnedServers_ownedFile _⟩
    · rw [hvalue]
      simp only [ClaudeJson.value, Json.get?_obj, Fields.get_insert]
      rw [if_neg (Ne.symm hk)]
    · have hnew : Folder.servers ⟨.doc ⟨_, hwf⟩, ownedFile set.names⟩ =
          newServers fields set (readOwnedServers out.owned) := by
        simp [Folder.servers, serversOf, ClaudeJson.value, Fields.get_insert, Json.asObject?]
      rw [hnew, get_newServers, Folder.servers, hvalue]

/-! ## A second call -/

theorem upsertEntry_idem (existing : Option Json) {entry : Json} (nulled : List String)
    (hexisting : ∀ e, existing = some e → e.Wf) (hentry : entry.Wf) :
    upsertEntry (some (upsertEntry existing entry nulled)) entry nulled =
      upsertEntry existing entry nulled := by
  cases entry with
  | obj new =>
      have hnew := Json.wf_obj.mp hentry
      -- What is carried over a first time is carried over again.
      have hagain : ∀ {old : List (String × Json)}, Json.WfFields old →
          (∀ k, Fields.get k old = (Fields.get k new).or
            (if k ∈ nulled ∨ k ∈ renderedEntryKeys then none else Fields.get k old)) →
          carryRuntimeKeys old new nulled = old := by
        intro old hold hget
        refine Fields.eq_of_get (wf_carryRuntimeKeys hold hnew).sorted hold.sorted fun k => ?_
        rw [get_carryRuntimeKeys hold.sorted, ← hget k]
      have hself : carryRuntimeKeys new new nulled = new := by
        refine hagain hnew fun k => ?_
        cases Fields.get k new <;> simp
      cases existing with
      | none => simp [upsertEntry, hself]
      | some e =>
          cases e with
          | obj old =>
              have hold := Json.wf_obj.mp (hexisting _ rfl)
              have hcarried : Json.WfFields (carryRuntimeKeys old new nulled) :=
                wf_carryRuntimeKeys hold hnew
              simp only [upsertEntry]
              rw [hagain hcarried fun k => ?_]
              rw [get_carryRuntimeKeys hold.sorted]
              cases Fields.get k new with
              | some v => simp
              | none => by_cases hown : k ∈ nulled ∨ k ∈ renderedEntryKeys <;> simp [hown]
          | _ => simp [upsertEntry, hself]
  | _ => simp [upsertEntry]

/-- The servers that a call wrote are what the next call would write. -/
theorem newServers_again {fields : List (String × Json)} (hfields : Json.WfFields fields)
    (set : ServerSet) (previouslyOwned : List String) :
    newServers (Fields.insert "mcpServers" (.obj (newServers fields set previouslyOwned)) fields)
      set set.names = newServers fields set previouslyOwned := by
  have hwf := wf_newServers hfields set previouslyOwned
  have hagain := hfields.insert (k := "mcpServers") (Json.wf_obj.mpr hwf)
  have hold : Json.WfFields (serversOf (.obj fields)) := wf_serversOf (Json.wf_obj.mpr hfields)
  refine Fields.eq_of_get (wf_newServers hagain set set.names).sorted hwf.sorted fun name => ?_
  have hservers : serversOf (.obj (Fields.insert "mcpServers"
      (.obj (newServers fields set previouslyOwned)) fields)) =
        newServers fields set previouslyOwned := by
    simp [serversOf, Fields.get_insert, Json.asObject?]
  rw [get_newServers, hservers]
  cases hget : Fields.get name set.servers with
  | some entry =>
      rw [get_newServers, hget]
      simp only [Option.some.injEq]
      exact upsertEntry_idem _ _ (fun e he => hold.get he) (set.wf.get hget)
  | none =>
      have hname : name ∉ set.names := fun h => Fields.mem_keys.mp h hget
      simp [hname]

/-- Calling again with the same input and no edit between changes nothing. -/
theorem mergeMcp_again {out out' : Folder} {mcps : List ResolvedMcp} {native : Option Yaml}
    (h : mergeMcpIntoClaudeJson out mcps native = .ok out') :
    mergeMcpIntoClaudeJson out' mcps native = .ok out' := by
  obtain ⟨set, hset, hcase⟩ := mergeMcp_ok h
  rcases hcase with ⟨-, -, rfl⟩ | ⟨fields, hwf, hvalue, hfields, rfl⟩
  · exact h
  · simp only [mergeMcpIntoClaudeJson, hset, readOwnedServers_ownedFile]
    by_cases hnil : set.servers = []
    · simp [bind, Except.bind, hnil, ServerSet.names, Fields.keys]
    · have hbusy : (set.servers.isEmpty && set.names.isEmpty) = false := by simp [hnil]
      have hsame : Fields.insert "mcpServers"
          (.obj (newServers fields set (readOwnedServers out.owned)))
          (Fields.insert "mcpServers"
            (.obj (newServers fields set (readOwnedServers out.owned))) fields) =
          Fields.insert "mcpServers"
            (.obj (newServers fields set (readOwnedServers out.owned))) fields := by
        have hinner := (Json.wf_obj.mp hwf).sorted
        refine Fields.eq_of_get (Fields.sorted_insert hinner) hinner fun k => ?_
        rw [Fields.get_insert, Fields.get_insert]
        split <;> rfl
      simp only [bind, Except.bind, hbusy, Bool.false_eq_true, if_false, readClaudeJson, fields?,
        newServers_again hfields, hsame]

/-! ## The keys that a fragment nulls -/

theorem get_insertSome_cases {j k : String} {v : Option Json} {fields : List (String × Json)}
    {w : Json} (h : Fields.get k (insertSome j v fields) = some w) :
    (k = j ∧ v = some w) ∨ Fields.get k fields = some w := by
  rw [get_insertSome] at h
  split at h
  · rename_i hj
    rcases Option.or_eq_some_iff.mp h with hv | ⟨-, hget⟩
    · exact Or.inl ⟨hj.symm, hv⟩
    · exact Or.inr hget
  · exact Or.inr h

/-- A rendered entry has the rendered keys, and no null. -/
theorem get_renderEntry {m : ResolvedMcp} {k : String} {v : Json}
    (h : Fields.get k (renderEntry m) = some v) : k ∈ renderedEntryKeys ∧ v ≠ .null := by
  have hmap : ∀ {m : SortedMap String String}, nonEmptyMap m = some v → v ≠ .null := by
    intro m hm
    unfold nonEmptyMap at hm
    split at hm
    · exact absurd hm (by simp)
    · exact Option.some.inj hm ▸ by simp [stringMap]
  have hpair : ∀ {a b : String} {x y : Json}, a ∈ renderedEntryKeys → b ∈ renderedEntryKeys →
      x ≠ .null → y ≠ .null → Fields.get k (Fields.ofList [(a, x), (b, y)]) = some v →
      k ∈ renderedEntryKeys ∧ v ≠ .null := by
    intro a b x y ha hb hx hy hget
    simp only [Fields.ofList, List.foldl_cons, List.foldl_nil, Fields.get_insert,
      Fields.get_nil] at hget
    split at hget
    · rename_i hk
      exact ⟨hk ▸ hb, Option.some.inj hget ▸ hy⟩
    · split at hget
      · rename_i hk
        exact ⟨hk ▸ ha, Option.some.inj hget ▸ hx⟩
      · exact absurd hget (by simp)
  unfold renderEntry at h
  rcases get_insertSome_cases h with ⟨rfl, hv⟩ | h
  · obtain ⟨b, -, rfl⟩ := Option.map_eq_some_iff.mp hv
    exact ⟨by decide, by simp⟩
  · split at h
    · rcases get_insertSome_cases h with ⟨rfl, hv⟩ | h
      · exact ⟨by decide, hmap hv⟩
      · exact hpair (by decide) (by decide) (by simp) (by simp [strings]) h
    · rcases get_insertSome_cases h with ⟨rfl, hv⟩ | h
      · obtain ⟨secs, -, rfl⟩ := Option.map_eq_some_iff.mp hv
        exact ⟨by decide, by simp⟩
      · rcases get_insertSome_cases h with ⟨rfl, hv⟩ | h
        · exact ⟨by decide, hmap hv⟩
        · exact hpair (by decide) (by decide) (by simp) (by simp) h

/-- The servers that were built are the rendered entries, also where a name is
defined twice. -/
theorem get_buildFrom {mcps : List ResolvedMcp} :
    ∀ {idx : Nat} {servers out : List (String × Json)} {sources : List (String × Nat)},
      (∀ name, Fields.get name servers ≠ none → Fields.get name sources ≠ none) →
      buildFrom mcps idx servers sources = .ok out →
      (∀ name e, Fields.get name servers = some e → Fields.get name out = some e) ∧
        (∀ m ∈ mcps, Fields.get m.name out = some (.obj (renderEntry m))) ∧
        (∀ name e, Fields.get name out = some e → Fields.get name servers = some e ∨
          ∃ m ∈ mcps, m.name = name ∧ e = .obj (renderEntry m)) := by
  induction mcps with
  | nil =>
      intro idx servers out sources _ h
      obtain rfl := Except.ok.inj h
      exact ⟨fun _ _ h => h, by simp, fun _ _ h => Or.inl h⟩
  | cons m mcps ih =>
      intro idx servers out sources hsources h
      -- A name that is there already has the same entry, or the call fails.
      have hnext : buildFrom mcps (idx + 1) (Fields.insert m.name (.obj (renderEntry m)) servers)
            (Fields.insert m.name idx sources) = .ok out ∧
          ∀ e, Fields.get m.name servers = some e → e = .obj (renderEntry m) := by
        simp only [buildFrom] at h
        split at h
        · rename_i prevIdx existing hprev hexisting
          split at h
          · exact absurd h (by simp)
          · rename_i hsame
            refine ⟨h, fun e he => ?_⟩
            rw [hexisting] at he
            exact Option.some.inj he ▸ not_not.mp hsame
        · rename_i hno
          refine ⟨h, fun e he => ?_⟩
          cases hsource : Fields.get m.name sources with
          | none => exact absurd hsource (hsources m.name (by simp [he]))
          | some i => exact absurd he (hno i e hsource)
      obtain ⟨hbuild, hsame⟩ := hnext
      have hsources' : ∀ name, Fields.get name (Fields.insert m.name (.obj (renderEntry m)) servers) ≠
          none → Fields.get name (Fields.insert m.name idx sources) ≠ none := by
        intro name hname
        rw [Fields.get_insert] at hname ⊢
        split
        · simp
        · rename_i hne
          rw [if_neg hne] at hname
          exact hsources name hname
      obtain ⟨hkeep, hmem, hfrom⟩ := ih hsources' hbuild
      refine ⟨fun name e he => hkeep name e ?_, ?_, fun name e he => ?_⟩
      · rw [Fields.get_insert]
        split
        · rename_i heq
          rw [hsame e (heq ▸ he)]
        · exact he
      · refine List.forall_mem_cons.mpr ⟨hkeep _ _ ?_, hmem⟩
        rw [Fields.get_insert, if_pos rfl]
      · rcases hfrom name e he with hold | ⟨m', hm', hname, rfl⟩
        · rw [Fields.get_insert] at hold
          split at hold
          · rename_i heq
            exact Or.inr ⟨m, List.mem_cons_self, heq, (Option.some.inj hold).symm⟩
          · exact Or.inl hold
        · exact Or.inr ⟨m', List.mem_cons_of_mem _ hm', hname, rfl⟩

theorem get_buildMcpServers {mcps : List ResolvedMcp} {servers : List (String × Json)}
    (h : buildMcpServers mcps = .ok servers) :
    (∀ m ∈ mcps, Fields.get m.name servers = some (.obj (renderEntry m))) ∧
      ∀ name e, Fields.get name servers = some e →
        ∃ m ∈ mcps, m.name = name ∧ e = .obj (renderEntry m) := by
  obtain ⟨-, hmem, hfrom⟩ := get_buildFrom (by simp) h
  refine ⟨hmem, fun name e he => (hfrom name e he).resolve_left (by simp)⟩

/-- Where an entry of the merged servers comes from: from the fragment alone, or
it is a rendered one with or without something merged over it. -/
inductive EntryFrom (mcps : List ResolvedMcp) (name : String) : Json → Prop
  | native {e : Json} : Normal e → EntryFrom mcps name e
  | rendered {m : ResolvedMcp} : m ∈ mcps → m.name = name →
      EntryFrom mcps name (.obj (renderEntry m))
  | merged {m : ResolvedMcp} {v : Json} : m ∈ mcps → m.name = name → v.Wf →
      EntryFrom mcps name (mergeJson (.obj (renderEntry m)) v)

/-- An entry of the servers that two objects are merged to. -/
theorem entryFrom_merge {mcps : List ResolvedMcp} {servers fs : List (String × Json)}
    {name : String} {e : Json} (hfs : Json.WfFields fs)
    (hfrom : ∀ name e, Fields.get name servers = some e →
      ∃ m ∈ mcps, m.name = name ∧ e = .obj (renderEntry m))
    (he : mergeOption (Fields.get name servers) (Fields.get name fs) = some e) :
    EntryFrom mcps name e := by
  cases hentry : Fields.get name fs with
  | none =>
      simp only [hentry, mergeOption_none] at he
      obtain ⟨m, hm, hname, rfl⟩ := hfrom name e he
      exact .rendered hm hname
  | some w =>
      simp only [hentry, mergeOption_some] at he
      cases hold : Fields.get name servers with
      | none =>
          simp only [hold, mergeValue] at he
          split at he
          · exact absurd he (by simp)
          · exact .native (Option.some.inj he ▸ normal_normalizeJson w)
      | some e0 =>
          obtain ⟨m, hm, hname, rfl⟩ := hfrom name e0 hold
          simp only [hold, mergeValue, Option.some.injEq] at he
          exact he ▸ .merged hm hname (hfs.get hentry)

theorem entryFrom_serversDoc {mcps : List ResolvedMcp} {native : Option Yaml} {doc e : Json}
    {name : String} (h : serversDoc mcps native = .ok doc)
    (he : (doc.get? "mcpServers").bind (Json.get? name) = some e) : EntryFrom mcps name e := by
  obtain ⟨servers, hbuild, h⟩ := bind_eq_ok.mp h
  obtain ⟨-, hfrom⟩ := get_buildMcpServers hbuild
  have hrendered : Fields.get name servers = some e → EntryFrom mcps name e := by
    intro hget
    obtain ⟨m, hm, hname, rfl⟩ := hfrom name e hget
    exact .rendered hm hname
  cases overlayNative_ok h with
  | replaced _ _ hobj =>
      rw [Json.get?_eq_none_of_not_obj (mergeJson_not_obj hobj)] at he
      exact absurd he (by simp)
  | @merged fields hfields hfrag =>
      rw [Json.get?_obj, get_mcpServers_merged servers hfields] at he
      cases hmcp : Fields.get "mcpServers" fields with
      | none =>
          simp only [hmcp, mergeOption_none, Option.bind_some, Json.get?_obj] at he
          exact hrendered he
      | some v =>
          simp only [hmcp, mergeOption_some, mergeValue, Option.bind_some] at he
          cases v with
          | obj fs =>
              have hfs := Json.wf_obj.mp (hfields.get hmcp)
              rw [get?_mergeJson_obj hfs.sorted] at he
              exact entryFrom_merge hfs hfrom he
          | _ =>
              rw [Json.get?_eq_none_of_not_obj (mergeJson_not_obj rfl)] at he
              exact absurd he (by simp)

/-- A null in a merged entry is over a rendered key: a new key is not added with a
null. -/
theorem rendered_of_merged_null {m : ResolvedMcp} {fs : List (String × Json)} {k : String}
    (hfs : Json.WfFields fs) (h : Fields.get k (mergeFields (renderEntry m) fs) = some .null) :
    k ∈ renderedEntryKeys := by
  rw [get_mergeFields hfs.sorted] at h
  cases hold : Fields.get k (renderEntry m) with
  | some x => exact (get_renderEntry hold).1
  | none =>
      rw [hold] at h
      cases hnew : Fields.get k fs with
      | none => exact absurd (hnew ▸ h) (by simp)
      | some w =>
          rw [hnew] at h
          simp only [mergeOption_some, mergeValue] at h
          split at h
          · exact absurd h (by simp)
          · rename_i hw
            exact absurd (Option.some.inj h) (by simpa using hw)

/-- A fragment nulls keys that are rendered, no others. -/
theorem nulledKeys_rendered {mcps : List ResolvedMcp} {native : Option Yaml} {doc : Json}
    {name k : String} (h : serversDoc mcps native = .ok doc) (hk : k ∈ nulledKeys doc name) :
    k ∈ renderedEntryKeys := by
  unfold nulledKeys at hk
  cases he : (doc.get? "mcpServers").bind (Json.get? name) with
  | none => exact absurd hk (by simp [he])
  | some e =>
      cases e with
      | obj entry =>
          simp only [he, Option.bind_some, Json.asObject?] at hk
          obtain ⟨f, hf, rfl⟩ := List.mem_map.mp hk
          obtain ⟨hf, hnull⟩ := List.mem_filter.mp hf
          obtain ⟨k, v⟩ := f
          obtain rfl : v = .null := by simpa using hnull
          have hentry := entryFrom_serversDoc h he
          generalize hj : Json.obj entry = j at hentry
          cases hentry with
          | native hnormal =>
              subst hj
              cases hnormal with
              | obj hno _ => exact absurd rfl (hno _ hf)
          | @rendered m hm hname =>
              obtain rfl := Json.obj.inj hj
              exact absurd rfl
                (get_renderEntry (Fields.get_of_mem (wf_renderEntry m).sorted hf)).2
          | @merged m v hm hname hv =>
              cases v with
              | obj fs =>
                  rw [mergeJson_obj] at hj
                  obtain rfl := Json.obj.inj hj
                  have hwf := Json.wf_obj.mp (mergeJson_obj _ _ ▸
                    wf_mergeJson (Json.wf_obj.mpr (wf_renderEntry m)) hv)
                  exact rendered_of_merged_null (Json.wf_obj.mp hv)
                    (Fields.get_of_mem hwf.sorted hf)
              | _ =>
                  have hno := congrArg Json.asObject? hj
                  rw [mergeJson_not_obj rfl] at hno
                  exact absurd hno (by simp [Json.asObject?])
      | _ => exact absurd hk (by simp [he, Json.asObject?])

theorem llmenvServers_ok {mcps : List ResolvedMcp} {native : Option Yaml} {set : ServerSet}
    (h : llmenvServers mcps native = .ok set) :
    ∃ doc, serversDoc mcps native = .ok doc ∧ set.servers = serversOf (stripJsonNulls doc) ∧
      set.nulled = nulledKeys doc := by
  unfold llmenvServers at h
  split at h
  · exact absurd h (by simp)
  · rename_i doc hdoc
    obtain rfl := Except.ok.inj h
    exact ⟨doc, hdoc, rfl, rfl⟩

/-! ## Any run of calls and edits -/

/-- A call, or a foreign edit of `.claude.json`. -/
inductive Step where
  | call (mcps : List ResolvedMcp) (native : Option Yaml)
  | edit (claude : ClaudeJson)

/-- The folder, and the names that the previous call wrote. -/
structure Tracked where
  folder : Folder
  wrote : List String

/-- A failed call changes nothing. -/
def step (t : Tracked) : Step → Tracked
  | .call mcps native =>
      match mergeMcpIntoClaudeJson t.folder mcps native, llmenvServers mcps native with
      | .ok out, .ok set => ⟨out, set.names⟩
      | _, _ => t
  | .edit claude => ⟨{ t.folder with claude := claude }, t.wrote⟩

/-- A folder with what its companion file says. -/
def Folder.tracked (out : Folder) : Tracked := ⟨out, readOwnedServers out.owned⟩

/-- In every state of a run the companion file has what the previous call wrote. -/
theorem run_owned (out : Folder) (steps : List Step) :
    readOwnedServers (runFrom step out.tracked steps).folder.owned =
      (runFrom step out.tracked steps).wrote := by
  refine inv_of_run (fun t : Tracked => readOwnedServers t.folder.owned = t.wrote) (fun t i ht => ?_) rfl steps
  cases i with
  | edit claude => exact ht
  | call mcps native =>
      simp only [step]
      split
      · rename_i out' set hcall hset
        obtain ⟨set', hset', hmerged⟩ := mergeMcp_merged hcall
        obtain rfl : set' = set := Except.ok.inj (hset'.symm.trans hset)
        exact hmerged.owned
      · exact ht

theorem wf_folder_servers (out : Folder) : Json.WfFields out.servers := by
  refine wf_serversOf ?_
  cases out.claude with
  | absent => exact Json.wf_obj.mpr .nil
  | invalid => exact .null
  | doc d => exact d.wf

/-- Over any run of calls and foreign edits, a call that succeeds and writes
`set` keeps to its own servers. -/
theorem servers_ownership (out : Folder) (steps : List Step) (mcps : List ResolvedMcp)
    (native : Option Yaml) {out' : Folder}
    (h : mergeMcpIntoClaudeJson (runFrom step out.tracked steps).folder mcps native = .ok out') :
    ∃ set, llmenvServers mcps native = .ok set ∧
      (∀ k, k ≠ "mcpServers" → out'.claude.value.get? k =
        (runFrom step out.tracked steps).folder.claude.value.get? k) ∧
      (∀ name, name ∉ set.names → name ∉ (runFrom step out.tracked steps).wrote →
        Fields.get name out'.servers =
          Fields.get name (runFrom step out.tracked steps).folder.servers) ∧
      (∀ name ∈ set.names, Fields.get name out'.servers ≠ none) ∧
      (∀ name ∈ (runFrom step out.tracked steps).wrote, name ∉ set.names →
        Fields.get name out'.servers = none) ∧
      (∀ name old new k v, Fields.get name set.servers = some (.obj new) →
        Fields.get name (runFrom step out.tracked steps).folder.servers = some (.obj old) →
        k ∉ renderedEntryKeys → Fields.get k new = none → Fields.get k old = some v →
        ∃ entry, Fields.get name out'.servers = some (.obj entry) ∧
          Fields.get k entry = some v) ∧
      mergeMcpIntoClaudeJson out' mcps native = .ok out' := by
  obtain ⟨set, hset, hmerged⟩ := mergeMcp_merged h
  have howned := run_owned out steps
  refine ⟨set, hset, hmerged.others, fun name hname hwrote => ?_, fun name hname => ?_,
    fun name hwrote hname => ?_, fun name old new k v hnew hold hk hkey hv => ?_,
    mergeMcp_again h⟩
  · have hget : Fields.get name set.servers = none := not_not.mp (Fields.mem_keys.not.mp hname)
    rw [hmerged.servers, hget, howned]
    simp [hwrote]
  · rw [hmerged.servers]
    cases hget : Fields.get name set.servers with
    | none => exact absurd hget (Fields.mem_keys.mp hname)
    | some entry => simp
  · have hget : Fields.get name set.servers = none := not_not.mp (Fields.mem_keys.not.mp hname)
    rw [hmerged.servers, hget, howned]
    simp [hwrote]
  · obtain ⟨doc, hdoc, -, hnulled⟩ := llmenvServers_ok hset
    have hnot : k ∉ set.nulled name := by
      rw [hnulled]
      exact fun hmem => hk (nulledKeys_rendered hdoc hmem)
    have hsorted : Fields.Sorted old :=
      (Json.wf_obj.mp ((wf_folder_servers _).get hold)).sorted
    refine ⟨_, by rw [hmerged.servers, hnew, hold]; rfl, ?_⟩
    rw [get_carryRuntimeKeys hsorted, hkey]
    simp [hnot, hk, hv]

/-- A local server that runs a command of its own name. -/
def localServer (name : String) : ResolvedMcp :=
  ⟨name, .stdio name [] .empty, .empty, none, [], none, none, none⟩

/-- `.claude.json` with a counter, and a server of the user with a token. -/
def userFile : Folder :=
  ⟨.doc (.object [("numStartups", .int 3),
    ("mcpServers", .object [("mine", .object [("command", .str "m"), ("auth", .str "token")])])]),
   .absent⟩

/-- A second render drops `a` and leaves the server of the user alone. -/
theorem servers_ownership_second_render :
    ∃ out', mergeMcpIntoClaudeJson
        (runFrom step userFile.tracked [.call [localServer "a"] none]).folder
        [localServer "b"] none = .ok out' ∧
      Fields.get "a" out'.servers = none ∧
      Fields.get "mine" out'.servers =
        some (.obj [("auth", .str "token"), ("command", .str "m")]) := by
  refine ⟨_, rfl, ?_⟩
  obtain ⟨set, hset, -, hforeign, -, hpruned, -⟩ :=
    servers_ownership userFile [.call [localServer "a"] none] [localServer "b"] none rfl
  obtain rfl := Except.ok.inj hset
  exact ⟨hpruned "a" (by decide) (by decide), hforeign "mine" (by decide) (by decide)⟩

/-- `native_mcp.claude_code` that gives one server the value `value`. -/
def oneServer (name : String) (value : Yaml) : Yaml :=
  .map [(.str "mcpServers", .map [(.str name, value)])]

/-- A fragment with a text for a server replaces the entry, its `auth` too. -/
theorem runtime_key_lost :
    Fields.get "mine" userFile.servers =
        some (.obj [("auth", .str "token"), ("command", .str "m")]) ∧
      "auth" ∉ renderedEntryKeys ∧
      ∃ out', mergeMcpIntoClaudeJson userFile [] (some (oneServer "mine" (.str "off"))) = .ok out' ∧
        Fields.get "mine" out'.servers = some (.str "off") :=
  ⟨rfl, by decide, _, rfl, rfl⟩

/-! ## A server of the fragment alone -/

/-- What is written under a name: the fragment merged over what was built, nulls
removed. -/
theorem get_llmenvServers {mcps : List ResolvedMcp} {frag : Yaml} {set : ServerSet}
    (hset : llmenvServers mcps (some frag) = .ok set) {fields fs : List (String × Json)}
    (hjson : frag.toJson = .ok (.obj fields))
    (hservers : Fields.get "mcpServers" fields = some (.obj fs)) :
    ∃ servers, buildMcpServers mcps = .ok servers ∧ ∀ name,
      Fields.get name set.servers =
        (mergeOption (Fields.get name servers) (Fields.get name fs)).bind
          (fun v => if v = .null then none else some (stripJsonNullsDepth v 2)) := by
  obtain ⟨doc, hdoc, hset, -⟩ := llmenvServers_ok hset
  have hwf := wf_serversDoc hdoc
  obtain ⟨servers, hbuild, hdoc⟩ := bind_eq_ok.mp hdoc
  refine ⟨servers, hbuild, fun name => ?_⟩
  simp only [overlayNative, hjson] at hdoc
  obtain rfl := Except.ok.inj hdoc
  have hfields := Json.wf_obj.mp (Yaml.wf_toJson hjson)
  have hfs := Json.wf_obj.mp (hfields.get hservers)
  have hmcp : Fields.get "mcpServers" (mergeFields [("mcpServers", .obj servers)] fields) =
      some (.obj (mergeFields servers fs)) := by
    rw [get_mcpServers_merged servers hfields, hservers, mergeOption_some, mergeValue,
      mergeJson_obj]
  rw [mergeJson_obj] at hwf hset
  have hsorted := (Json.wf_obj.mp hwf)
  have hinner := (Json.wf_obj.mp (hsorted.get hmcp)).sorted
  rw [hset, stripJsonNulls_obj, serversOf, Json.get?_obj, get_stripFields hsorted.sorted, hmcp]
  simp only [Option.bind_some, reduceCtorEq, if_false, stripJsonNullsDepth]
  simp only [Nat.reduceLT, if_false, Json.asObject?, Option.getD_some]
  rw [get_stripFields hinner, get_mergeFields hfs.sorted]

/-- What the merged servers have under a name that no resolved server has. -/
theorem get_llmenvServers_native {mcps : List ResolvedMcp} {frag : Yaml} {set : ServerSet}
    (hset : llmenvServers mcps (some frag) = .ok set) {fields fs : List (String × Json)}
    (hjson : frag.toJson = .ok (.obj fields))
    (hservers : Fields.get "mcpServers" fields = some (.obj fs)) {name : String} {entry : Json}
    (hentry : Fields.get name fs = some entry) (hnull : entry ≠ .null)
    (hnew : ∀ m ∈ mcps, m.name ≠ name) :
    Fields.get name set.servers = some (normalizeJson entry) := by
  obtain ⟨servers, hbuild, hget⟩ := get_llmenvServers hset hjson hservers
  have hnone : Fields.get name servers = none := by
    by_contra hsome
    obtain ⟨e, he⟩ := Option.ne_none_iff_exists'.mp hsome
    obtain ⟨m, hm, hname, -⟩ := (get_buildMcpServers hbuild).2 name e he
    exact hnew m hm hname
  rw [hget, hentry, hnone, mergeOption_some, mergeValue, if_neg hnull, Option.bind_some,
    if_neg (normalizeJson_eq_null.not.mpr hnull),
    stripJsonNullsDepth_of_normal (normal_normalizeJson entry)]

theorem normalizeJson_strings (items : List String) :
    normalizeJson (strings items) = strings (dedup items) := by
  have hitems : normalizeItems (items.map .str) = items.map .str := by
    rw [normalizeItems_eq_map, List.map_map]
    rfl
  rw [strings, normalizeJson, hitems, dedup_map (fun a b => Json.str.inj)]
  rfl

/-- A server that only the fragment defines, in a file without it, is written as
the fragment gives it, without null-valued keys and with the first of equal
elements of an array.  Its arguments are the given ones in order, each once. -/
theorem native_only_server (out : Folder) (mcps : List ResolvedMcp) (entries : List (Yaml × Yaml))
    {out' : Folder} (h : mergeMcpIntoClaudeJson out mcps (some (.map entries)) = .ok out')
    {fields fs : List (String × Json)} (hjson : (Yaml.map entries).toJson = .ok (.obj fields))
    (hservers : Fields.get "mcpServers" fields = some (.obj fs)) {name : String} {entry : Json}
    (hentry : Fields.get name fs = some entry) (hnull : entry ≠ .null)
    (hnew : ∀ m ∈ mcps, m.name ≠ name) (habsent : Fields.get name out.servers = none) :
    Fields.get name out'.servers = some (normalizeJson entry) ∧
      (Normal entry → Fields.get name out'.servers = some entry) ∧
      ∀ e args, entry = .obj e → Fields.get "args" e = some (strings args) →
        ∃ w, Fields.get name out'.servers = some (.obj w) ∧
          Fields.get "args" w = some (strings (dedup args)) := by
  obtain ⟨set, hset, hmerged⟩ := mergeMcp_merged h
  have hget := get_llmenvServers_native hset hjson hservers hentry hnull hnew
  have hwritten : Fields.get name out'.servers = some (normalizeJson entry) := by
    rw [hmerged.servers, hget, habsent]
    simp [upsertEntry]
  refine ⟨hwritten, fun hnormal => ?_, fun e args he hargs => ?_⟩
  · rw [hwritten, normalizeJson_of_normal hnormal]
  · subst he
    have hfields := Json.wf_obj.mp (Yaml.wf_toJson hjson)
    have hwf := (Json.wf_obj.mp (hfields.get hservers)).get hentry
    refine ⟨normalizeFields e, hwritten, ?_⟩
    rw [get_normalizeFields (Json.wf_obj.mp hwf).sorted, hargs, Option.bind_some,
      if_neg (by simp [strings]), normalizeJson_strings]

/-- A server that runs a command with arguments. -/
def nativeServer (args : List String) : Yaml :=
  .map [(.str "command", .str "c"), (.str "args", .seq (args.map .str)), (.str "cwd", .null)]

theorem native_only_server_plain :
    ∃ out', mergeMcpIntoClaudeJson userFile [localServer "a"]
        (some (oneServer "x" (nativeServer ["-v", "-q"]))) = .ok out' ∧
      ∃ w, Fields.get "x" out'.servers = some (.obj w) ∧
        Fields.get "args" w = some (strings ["-v", "-q"]) := by
  refine ⟨_, rfl, ?_⟩
  have hjson : (oneServer "x" (nativeServer ["-v", "-q"])).toJson =
      .ok (.obj [("mcpServers", .obj [("x", .obj [("args", strings ["-v", "-q"]),
        ("command", .str "c"), ("cwd", .null)])])]) := rfl
  have hentry : Fields.get "x" [("x", Json.obj [("args", strings ["-v", "-q"]),
      ("command", .str "c"), ("cwd", .null)])] = some (.obj [("args", strings ["-v", "-q"]),
        ("command", .str "c"), ("cwd", .null)]) := rfl
  obtain ⟨-, -, hargs⟩ := native_only_server userFile [localServer "a"] _ rfl hjson rfl hentry
    (by simp) (by decide) rfl
  exact hargs _ _ rfl rfl

/-- Of a repeated argument the second is lost. -/
theorem repeated_argument_lost :
    ∃ out', mergeMcpIntoClaudeJson userFile [localServer "a"]
        (some (oneServer "x" (nativeServer ["-v", "-v"]))) = .ok out' ∧
      Fields.get "x" out'.servers =
        some (.obj [("args", strings ["-v"]), ("command", .str "c")]) :=
  ⟨_, rfl, rfl⟩

end Llmenv.Adapter.ClaudeCode
