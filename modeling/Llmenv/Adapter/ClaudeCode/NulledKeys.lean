/-
# `Llmenv.Adapter.ClaudeCode.NulledKeys` — does a null in the fragment delete a key?

A null under `mcpServers.<server>.<key>` is to remove the key from the entry
that is in `.claude.json` after a call.  Three passes have to agree on it: the
merge of the fragment, the record of the keys it nulled, and the copy of the
keys that Claude Code added to the entry.

They do for the keys that llmenv renders.  The merge leaves out a null on a key
that the entry does not have, so the record never has a key that only the file
has, and the copy puts it back.
-/
import Llmenv.Adapter.ClaudeCode.Ownership

namespace Llmenv.Adapter.ClaudeCode

open Llmenv.Lib Llmenv.Manifest

/-- What a document has under `mcpServers.<name>.<k>`. -/
def serverKey (doc : Json) (name k : String) : Option Json :=
  ((doc.get? "mcpServers").bind (Json.get? name)).bind (Json.get? k)

theorem serverKey_eq (doc : Json) (name k : String) :
    serverKey doc name k = (Fields.get name (serversOf doc)).bind (Json.get? k) := by
  unfold serverKey serversOf
  cases doc.get? "mcpServers" with
  | none => rfl
  | some v => cases v <;> rfl

/-- A key that is set is set in an object under an object. -/
theorem serverKey_eq_some {doc v : Json} {name k : String} (h : serverKey doc name k = some v) :
    ∃ fields servers entry, doc = .obj fields ∧
      Fields.get "mcpServers" fields = some (.obj servers) ∧
      Fields.get name servers = some (.obj entry) ∧ Fields.get k entry = some v := by
  have hobj : ∀ {j w : Json} {key : String}, j.get? key = some w →
      ∃ fields, j = .obj fields ∧ Fields.get key fields = some w := by
    intro j w key hget
    cases j with
    | obj fields => exact ⟨fields, rfl, hget⟩
    | _ => exact absurd hget (by simp [Json.get?])
  obtain ⟨e, he, hk⟩ := Option.bind_eq_some_iff.mp h
  obtain ⟨s, hs, hname⟩ := Option.bind_eq_some_iff.mp he
  obtain ⟨fields, rfl, hfields⟩ := hobj hs
  obtain ⟨servers, rfl, hservers⟩ := hobj hname
  obtain ⟨entry, rfl, hentry⟩ := hobj hk
  exact ⟨fields, servers, entry, rfl, hfields, hservers, hentry⟩

/-! ## The three passes -/

/-- The merge and the removal of nulls: an entry that the fragment merges into has
no key that the fragment nulled. -/
theorem get_written_of_null {m : ResolvedMcp} {fs : List (String × Json)} {k : String}
    (hfs : Json.WfFields fs) (hnull : Fields.get k fs = some .null) (depth : Nat) :
    Fields.get k (stripFields (mergeFields (renderEntry m) fs) depth) = none := by
  rw [get_stripFields (sorted_mergeFields (wf_renderEntry m).sorted), get_mergeFields hfs.sorted,
    hnull, mergeOption_some]
  cases Fields.get k (renderEntry m) with
  | none => rfl
  | some existing =>
      have hover : mergeJson existing .null = .null := by
        rw [mergeJson_replace (Or.inr rfl) (Or.inr rfl)]
        rfl
      simp [mergeValue, hover]

/-- The entry that a call writes for a resolved server. -/
theorem get_llmenvServers_resolved {mcps : List ResolvedMcp} {frag : Yaml} {set : ServerSet}
    (hset : llmenvServers mcps (some frag) = .ok set) {fields servers fs : List (String × Json)}
    (hjson : frag.toJson = .ok (.obj fields))
    (hservers : Fields.get "mcpServers" fields = some (.obj servers)) {m : ResolvedMcp}
    (hm : m ∈ mcps) (hentry : Fields.get m.name servers = some (.obj fs)) :
    Fields.get m.name set.servers =
      some (.obj (stripFields (mergeFields (renderEntry m) fs) 3)) := by
  obtain ⟨built, hbuild, hget⟩ := get_llmenvServers hset hjson hservers
  rw [hget, (get_buildMcpServers hbuild).1 m hm, hentry, mergeOption_some, mergeValue,
    mergeJson_obj, Option.bind_some, if_neg (by simp), stripJsonNullsDepth, if_neg (by decide)]

/-- The copy of the keys of the old entry: it takes what is neither rendered nor in
the record, and the record has rendered keys only. -/
theorem get_upsertEntry_of_none {existing : Option Json} {new : List (String × Json)}
    {nulled : List String} {k : String} (hexisting : ∀ e, existing = some e → e.Wf)
    (hnulled : ∀ j ∈ nulled, j ∈ renderedEntryKeys) (hnone : Fields.get k new = none) :
    (upsertEntry existing (.obj new) nulled).get? k =
      if k ∈ renderedEntryKeys then none else existing.bind (Json.get? k) := by
  have hown : (k ∈ nulled ∨ k ∈ renderedEntryKeys) ↔ k ∈ renderedEntryKeys :=
    ⟨fun h => h.elim (hnulled k) id, Or.inr⟩
  cases existing with
  | none => simp [upsertEntry, hnone]
  | some e =>
      cases e with
      | obj old =>
          have hold := Json.wf_obj.mp (hexisting _ rfl)
          simp only [upsertEntry, Json.get?_obj, Option.bind_some]
          rw [get_carryRuntimeKeys hold.sorted, hnone]
          simp [hown]
      | _ => simp [upsertEntry, hnone, Json.get?]

/-! ## The call -/

/-- A key that the fragment nulls is gone after a call, if it is a rendered one or
the entry in the file did not have it. -/
theorem nulled_key_gone_iff (out : Folder) (mcps : List ResolvedMcp) (entries : List (Yaml × Yaml))
    {out' : Folder} (h : mergeMcpIntoClaudeJson out mcps (some (.map entries)) = .ok out')
    {m : ResolvedMcp} (hm : m ∈ mcps) {frag : Json} (hjson : (Yaml.map entries).toJson = .ok frag)
    {k : String} (hnull : serverKey frag m.name k = some .null) :
    serverKey out'.claude.value m.name k = none ↔
      k ∈ renderedEntryKeys ∨ serverKey out.claude.value m.name k = none := by
  obtain ⟨fields, servers, fs, rfl, hfields, hservers, hfs⟩ := serverKey_eq_some hnull
  obtain ⟨set, hset, hmerged⟩ := mergeMcp_merged h
  obtain ⟨doc, hdoc, -, hnulled⟩ := llmenvServers_ok hset
  have hwf : Json.WfFields fs := by
    have hwf := Json.wf_obj.mp (Yaml.wf_toJson hjson)
    exact Json.wf_obj.mp ((Json.wf_obj.mp (hwf.get hfields)).get hservers)
  have hwritten : serverKey out'.claude.value m.name k =
      if k ∈ renderedEntryKeys then none else serverKey out.claude.value m.name k := by
    have hentry := get_llmenvServers_resolved hset hjson hfields hm hservers
    have hservers' := hmerged.servers m.name
    rw [hentry] at hservers'
    rw [serverKey_eq, serverKey_eq, ← Folder.servers, ← Folder.servers, hservers',
      Option.bind_some]
    refine get_upsertEntry_of_none (fun e he => (wf_folder_servers out).get he) (fun j hj => ?_)
      (get_written_of_null hwf hfs 3)
    rw [hnulled] at hj
    exact nulledKeys_rendered hdoc hj
  rw [hwritten]
  by_cases hk : k ∈ renderedEntryKeys <;> simp [hk]

/-- `.claude.json` with an entry `icm` that Claude Code gave an `auth` block. -/
def signedIn : Folder :=
  ⟨.doc (.object [("mcpServers", .object [("icm", .object [("auth", .str "token"),
    ("command", .str "icm"), ("env", .str "old")])])]), .absent⟩

/-- `mcpServers.icm.<k>: null`. -/
def nullOf (k : String) : List (Yaml × Yaml) :=
  [(.str "mcpServers", .map [(.str "icm", .map [(.str k, .null)])])]

/-- A null on a rendered key removes it from the file. -/
theorem nulled_key_gone_iff_env :
    ∃ out', mergeMcpIntoClaudeJson signedIn [localServer "icm"] (some (.map (nullOf "env"))) =
        .ok out' ∧
      serverKey signedIn.claude.value "icm" "env" = some (.str "old") ∧
      serverKey out'.claude.value "icm" "env" = none := by
  refine ⟨_, rfl, rfl, ?_⟩
  have hm : localServer "icm" ∈ [localServer "icm"] := List.mem_singleton.mpr rfl
  exact (nulled_key_gone_iff signedIn [localServer "icm"] (nullOf "env") rfl hm rfl rfl).mpr
    (Or.inl (by decide))

/-- A null on the `auth` block leaves the block in the file. -/
theorem auth_survives_null :
    ∃ out' frag, mergeMcpIntoClaudeJson signedIn [localServer "icm"]
        (some (.map (nullOf "auth"))) = .ok out' ∧
      (Yaml.map (nullOf "auth")).toJson = .ok frag ∧
      serverKey frag "icm" "auth" = some .null ∧
      serverKey out'.claude.value "icm" "auth" = some (.str "token") :=
  ⟨_, _, rfl, rfl, rfl, rfl⟩

end Llmenv.Adapter.ClaudeCode
