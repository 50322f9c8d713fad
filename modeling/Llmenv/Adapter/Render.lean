/-
# `Llmenv.Adapter.Render` — what the adapters share

The helpers of `src/adapter/mod.rs` that more than one adapter renders with:
the JSON of texts and maps, and the overlay of a native fragment.  Unlike
`overlay_native` of the Claude Code adapter, `overlay_native_json` takes a
mapping only.
-/
import Llmenv.Lib.Yaml
import Llmenv.Lib.Text
import Llmenv.Adapter.MergeJson
import Llmenv.Manifest.Data

namespace Llmenv.Adapter

open Llmenv.Lib Llmenv.Manifest

/-! ## Texts and maps -/

def strings (items : List String) : Json := .arr (items.map .str)

/-- A map of strings as an object. -/
def stringMap (m : SortedMap String String) : Json := .obj (Fields.mapValues .str m.items)

/-- A field that is written only when there is a value. -/
def insertSome (k : String) (v : Option Json) (fields : List (String × Json)) :
    List (String × Json) :=
  match v with
  | some v => Fields.insert k v fields
  | none => fields

def nonEmptyMap (m : SortedMap String String) : Option Json :=
  if m.items.isEmpty then none else some (stringMap m)

def nonEmptyStrings (items : List String) : Option Json :=
  if items.isEmpty then none else some (strings items)

/-- A section is written when it is an object with a field. -/
def nonEmptyObject : Json → Option Json
  | .obj (f :: fields) => some (.obj (f :: fields))
  | _ => none

def remoteTransportTypeStr : RemoteTransport → String
  | .sse => "sse"
  | .http => "http"

/-- Add an entry to the list of an event. -/
def pushEntry (event : String) (entry : Json) (hooksByEvent : List (String × List Json)) :
    List (String × List Json) :=
  Fields.insert event ((Fields.get event hooksByEvent).getD [] ++ [entry]) hooksByEvent

/-- The entries of each event as an object. -/
def hooksObject (hooksByEvent : List (String × List Json)) : Json :=
  .obj (Fields.mapValues .arr hooksByEvent)

theorem sorted_insertSome {k : String} {v : Option Json} {fields : List (String × Json)}
    (h : Fields.Sorted fields) : Fields.Sorted (insertSome k v fields) := by
  cases v with
  | none => exact h
  | some w => exact Fields.sorted_insert h

theorem get_insertSome (k j : String) (v : Option Json) (fields : List (String × Json)) :
    Fields.get j (insertSome k v fields) = if k = j then v.or (Fields.get j fields)
      else Fields.get j fields := by
  cases v with
  | none => simp [insertSome]
  | some w => simp [insertSome, Fields.get_insert]

theorem noNulls_strings (items : List String) : NoNulls (strings items) := by
  refine .arr fun j hj => ?_
  obtain ⟨s, -, rfl⟩ := List.mem_map.mp hj
  exact .str s

theorem wf_strings (items : List String) : (strings items).Wf := by
  refine Json.wf_arr.mpr fun j hj => ?_
  obtain ⟨s, -, rfl⟩ := List.mem_map.mp hj
  exact .str s

theorem wf_stringMap (m : SortedMap String String) : (stringMap m).Wf := by
  refine Json.wf_obj.mpr ⟨Fields.sorted_mapValues m.sorted, fun f hf => ?_⟩
  obtain ⟨e, -, rfl⟩ := List.mem_map.mp hf
  exact .str e.2

theorem wf_insertSome {k : String} {v : Option Json} {fields : List (String × Json)}
    (h : Json.WfFields fields) (hv : ∀ w, v = some w → w.Wf) :
    Json.WfFields (insertSome k v fields) := by
  cases v with
  | none => exact h
  | some w => exact h.insert (hv w rfl)

theorem wf_insertStr {k : String} {v : Option String} {fields : List (String × Json)}
    (h : Json.WfFields fields) : Json.WfFields (insertSome k (v.map .str) fields) := by
  refine wf_insertSome h fun w hw => ?_
  obtain ⟨s, -, rfl⟩ := Option.map_eq_some_iff.mp hw
  exact .str s

theorem wf_singleton {k : String} {v : Json} (hv : v.Wf) : Json.WfFields [(k, v)] :=
  ⟨List.pairwise_singleton _ _, by simpa using hv⟩

theorem wf_nonEmptyMap {m : SortedMap String String} {w : Json} (h : nonEmptyMap m = some w) :
    w.Wf := by
  unfold nonEmptyMap at h
  split at h
  · exact absurd h (by simp)
  · exact Option.some.inj h ▸ wf_stringMap m

/-! ## Native fragments -/

def yamlValueKindName : Yaml → String
  | .null => "null"
  | .bool _ => "a bool"
  | .num _ => "a number"
  | .str _ => "a string"
  | .seq _ => "a sequence"
  | .map _ => "a mapping"
  | .tagged _ _ => "a tagged value"

/-- Deep-merge a fragment into a rendered config.  A fragment that is no mapping
would replace the config, so it is refused. -/
def overlayNativeJson (dst : Json) (frag : Option Yaml) (label : String) : Except String Json :=
  match frag with
  | none => .ok dst
  | some frag =>
      if frag.asMapping?.isNone then
        let kind := yamlValueKindName frag
        .error s!"`{label}` must be a mapping of keys to merge, got {kind}. A non-mapping value would replace the rendered block instead of merging into it — check the indentation of the entries under `{label}`."
      else
        match frag.toJson with
        | .ok json => .ok (mergeJson dst json)
        | .error e => .error s!"converting {label} fragment to JSON: {e}"

def noHatch (key engine neutral : String) : String :=
  s!"There is no `native_*.{engine}` escape hatch for `{key}` — declare it through `capabilities.{neutral}` instead."

/-- Where a refused key belongs. -/
def modeledKeyRedirect (key engine : String) : String :=
  let hatch (name : String) :=
    s!"Use `{name}.{engine}` instead, which merges in the safe direction."
  if key = "permission" ∨ key = "permissions" then hatch "native_permissions"
  else if key = "hooks" then hatch "native_hooks"
  else if key = "mcp" then hatch "native_mcp"
  else if key = "provider" ∨ key = "providers" then hatch "native_model_providers"
  else if key = "model" ∨ key = "models" ∨ key = "small_model" then
    noHatch key engine "default_models"
  else if key = "instructions" ∨ key = "model_instructions_file" then noHatch key engine "rules"
  else noHatch key engine key

/-- Refuse a fragment with a key that the adapter renders itself. -/
def rejectModeledNativeKeys (frag : Yaml) (modeledKeys : List String) (engine : String) :
    Except String Unit :=
  match modeledKeys.find? (fun key => (frag.get? key).isSome) with
  | some key =>
      let redirect := modeledKeyRedirect key engine
      .error s!"top-level `native.{engine}` carries the modeled-feature key `{key}`, which would silently clobber the rendered `{key}`. {redirect}"
  | none => .ok ()

/-- The name of a skill or a plugin. -/
def isValidShortName (name : String) : Bool :=
  !(name.isEmpty || name == "." || name == ".." || name.toList.head? == some '-') &&
    name.toList.all (fun c => c.isAlphanum || c == '.' || c == '_' || c == '-')

/-! ## What is under a key of a fragment -/

/-- A key that is neither the text of a number or a boolean nor a tag. -/
structure PlainName (k : String) : Prop where
  plain : Yaml.PlainKey k
  notTag : k.toList.head? ≠ some '!'

instance (k : String) : Decidable (PlainName k) :=
  decidable_of_iff (Yaml.PlainKey k ∧ k.toList.head? ≠ some '!')
    ⟨fun ⟨h, ht⟩ => ⟨h, ht⟩, fun ⟨h, ht⟩ => ⟨h, ht⟩⟩

/-- The object of a fragment has a plain key when the fragment is a mapping with
that key, and from its value. -/
theorem get_toJson {k : String} (hk : PlainName k) {y : Yaml} {fields : List (String × Json)}
    (h : y.toJson = .ok (.obj fields)) :
    (Fields.get k fields = none ∧ ∀ entries, y = .map entries → Yaml.getKey k entries = none) ∨
      ∃ entries v j, y = .map entries ∧ Yaml.getKey k entries = some v ∧ v.toJson = .ok j ∧
        Fields.get k fields = some j := by
  cases y with
  | map entries =>
      obtain ⟨_, hobj, hentries⟩ := Yaml.toJson_map h
      obtain rfl := Json.obj.inj hobj
      rcases Yaml.get_entriesToJson hk.plain hentries with ⟨hnone, hget⟩ | ⟨v, j, hv, hj, hget⟩
      · refine Or.inl ⟨hget, fun entries' heq => ?_⟩
        obtain rfl := Yaml.map.inj heq
        exact hnone
      · exact Or.inr ⟨entries, v, j, rfl, hv, hj, hget⟩
  | tagged tag value =>
      rw [Yaml.toJson] at h
      obtain ⟨v, -, h⟩ := bind_eq_ok.mp h
      obtain rfl := Json.obj.inj (Except.ok.inj h)
      refine Or.inl ⟨?_, fun entries heq => absurd heq (by simp)⟩
      have hne : "!" ++ tag ≠ k := by
        rintro rfl
        exact hk.notTag (by simp [String.toList_append])
      simp [Fields.get_cons, hne]
  | null => exact absurd h (by simp [Yaml.toJson])
  | bool b => exact absurd h (by simp [Yaml.toJson])
  | num n =>
      cases n with
      | finite n => exact absurd h (by simp [Yaml.toJson])
      | nonFinite x => exact absurd h (by simp [Yaml.toJson])
  | str s => exact absurd h (by simp [Yaml.toJson])
  | seq items =>
      rw [Yaml.toJson] at h
      obtain ⟨js, -, h⟩ := bind_eq_ok.mp h
      exact absurd (Except.ok.inj h) (by simp)

/-- The value of a fragment is an object when the fragment is a mapping or has a
tag. -/
theorem toJson_obj_iff {y : Yaml} {j : Json} (h : y.toJson = .ok j) :
    (∃ fields, j = .obj fields) ↔ (∃ entries, y = .map entries) ∨ ∃ tag v, y = .tagged tag v := by
  cases y with
  | map entries =>
      obtain ⟨fields, rfl, -⟩ := Yaml.toJson_map h
      simp
  | tagged tag value =>
      rw [Yaml.toJson] at h
      obtain ⟨v, -, h⟩ := bind_eq_ok.mp h
      exact Except.ok.inj h ▸ by simp
  | seq items =>
      rw [Yaml.toJson] at h
      obtain ⟨js, -, h⟩ := bind_eq_ok.mp h
      exact Except.ok.inj h ▸ by simp
  | num n => cases n <;> exact Except.ok.inj h ▸ by simp
  | _ => exact Except.ok.inj h ▸ by simp

/-- What an accepted fragment does. -/
theorem overlayNativeJson_ok {dst doc : Json} {frag : Option Yaml} {label : String}
    (h : overlayNativeJson dst frag label = .ok doc) :
    (frag = none ∧ doc = dst) ∨ ∃ y fields, frag = some y ∧ y.toJson = .ok (.obj fields) ∧
      doc = mergeJson dst (.obj fields) := by
  cases frag with
  | none => exact Or.inl ⟨rfl, (Except.ok.inj h).symm⟩
  | some y =>
      simp only [overlayNativeJson] at h
      split at h
      · exact absurd h (by simp)
      · rename_i hmap
        split at h
        · rename_i json hjson
          -- A value with entries is a mapping or has a tag, and so becomes an object.
          have hkind : (∃ entries, y = .map entries) ∨ ∃ tag v, y = .tagged tag v := by
            cases y with
            | map entries => exact Or.inl ⟨entries, rfl⟩
            | tagged tag v => exact Or.inr ⟨tag, v, rfl⟩
            | _ => exact absurd rfl hmap
          obtain ⟨fields, rfl⟩ := (toJson_obj_iff hjson).mpr hkind
          exact Or.inr ⟨y, fields, rfl, hjson, (Except.ok.inj h).symm⟩
        · exact absurd h (by simp)

theorem rejectModeledNativeKeys_ok {frag : Yaml} {modeledKeys : List String} {engine : String}
    (h : rejectModeledNativeKeys frag modeledKeys engine = .ok ()) {key : String}
    (hkey : key ∈ modeledKeys) : frag.get? key = none := by
  unfold rejectModeledNativeKeys at h
  split at h
  · exact absurd h (by simp)
  · rename_i hnone
    simpa using List.find?_eq_none.mp hnone key hkey

/-- Without a key in the fragment there is none in its object. -/
theorem get_toJson_eq_none {k : String} (hk : PlainName k) {y : Yaml}
    {fields : List (String × Json)} (h : y.toJson = .ok (.obj fields)) (hnone : y.get? k = none) :
    Fields.get k fields = none := by
  rcases get_toJson hk h with ⟨hget, -⟩ | ⟨entries, v, j, rfl, hv, -, -⟩
  · exact hget
  · exact absurd (hv ▸ hnone : some v = none) (by simp)

end Llmenv.Adapter
