/-
# `Llmenv.Adapter.ClaudeCode.DenyKept` — is a denied rule still denied?

The rules that deny and those that ask come from three places: the neutral
rules, `native_permissions.claude_code` and `native.claude_code.permissions`.
Whatever else the manifest has, and whatever is in the folder, they are in the
`settings.json` that is written.
-/
import Llmenv.Adapter.ClaudeCode.Reconcile

namespace Llmenv.Adapter.ClaudeCode

open Llmenv.Lib Llmenv.Manifest

/-! ## Where the rules come from -/

/-- The texts of a sequence. -/
def yamlStrings : Yaml → List String
  | .seq items => items.filterMap (fun item => match item with
      | .str s => some s
      | _ => none)
  | _ => []

/-- The rules of a list in `native.claude_code.permissions`. -/
def catchAllRules (m : MergedManifest) (key : String) : List String :=
  match (fragment "claude_code" m.native).bind (Yaml.get? "permissions") with
  | some (.map entries) => ((Yaml.getKey key entries).map yamlStrings).getD []
  | _ => []

/-- The native rules, as they are written in the configuration. -/
def nativePermissionRules (m : MergedManifest) : NativePermissionRules :=
  (Fields.get "claude_code" m.capabilities.nativePermissions.items).getD ⟨[], [], []⟩

def denyRules (m : MergedManifest) : List String :=
  m.capabilities.permissions.deny.flatMap renderPermissionRule ++
    (nativePermissionRules m).deny ++ catchAllRules m "deny"

def askRules (m : MergedManifest) : List String :=
  m.capabilities.permissions.ask.flatMap renderPermissionRule ++
    (nativePermissionRules m).ask ++ catchAllRules m "ask"

theorem str_mem_itemsToJson {s : String} {items : List Yaml} :
    ∀ {js : List Json}, Yaml.itemsToJson items = .ok js → Yaml.str s ∈ items → Json.str s ∈ js := by
  induction items with
  | nil => exact fun _ h => absurd h List.not_mem_nil
  | cons item items ih =>
      intro js h hs
      rw [Yaml.itemsToJson] at h
      obtain ⟨j, hj, h⟩ := bind_eq_ok.mp h
      obtain ⟨rest, hrest, h⟩ := bind_eq_ok.mp h
      obtain rfl := Except.ok.inj h
      rcases List.mem_cons.mp hs with rfl | hs
      · rw [Yaml.toJson] at hj
        exact Except.ok.inj hj ▸ List.mem_cons_self
      · exact List.mem_cons_of_mem _ (ih hrest hs)

theorem mem_stringsOf_of_yamlStrings {s : String} {y : Yaml} {j : Json} (hj : y.toJson = .ok j)
    (h : s ∈ yamlStrings y) : s ∈ stringsOf (some j) := by
  cases y with
  | seq items =>
      obtain ⟨item, hitem, hs⟩ := List.mem_filterMap.mp h
      obtain rfl : item = .str s := by
        cases item with
        | str t => rw [Option.some.inj hs]
        | _ => exact absurd hs (by simp)
      rw [Yaml.toJson] at hj
      obtain ⟨js, hjs, hj⟩ := bind_eq_ok.mp hj
      obtain rfl := Except.ok.inj hj
      exact List.mem_filterMap.mpr ⟨.str s, str_mem_itemsToJson hjs hitem, rfl⟩
  | _ => exact absurd h List.not_mem_nil

/-- The rules of the fragment are those that the merge appends. -/
theorem mem_stringsOf_catchAll {m : MergedManifest} {settings settings' : List (String × Json)}
    {rest : Option Yaml} {key s : String} (hkey : PlainName key)
    (hmerge : mergeNativePermissions settings (fragment "claude_code" m.native) =
      .ok (settings', rest)) (h : s ∈ catchAllRules m key) :
    s ∈ stringsOf (Fields.get key (catchAllPermissions (fragment "claude_code" m.native))) := by
  rcases mergeNativePermissions_ok hmerge with ⟨hnone, -, -⟩ | ⟨y, p, json, hy, hp, hjson, -, -, -⟩
  · rw [catchAllRules, hnone] at h
    exact absurd h List.not_mem_nil
  · rw [catchAllRules, hy, Option.bind_some, hp] at h
    cases p with
    | map entries =>
        obtain ⟨fields, rfl, hfields⟩ := Yaml.toJson_map hjson
        have hcatch : catchAllPermissions (some y) = fields := by
          simp [catchAllPermissions, hp, hjson, Json.asObject?]
        have h : s ∈ ((Yaml.getKey key entries).map yamlStrings).getD [] := h
        rw [hy, hcatch]
        rcases Yaml.get_entriesToJson hkey.plain hfields with ⟨hnone, -⟩ | ⟨v, j, hv, hj, hget⟩
        · rw [hnone] at h
          exact absurd h List.not_mem_nil
        · rw [hv] at h
          exact hget ▸ mem_stringsOf_of_yamlStrings hj h
    | _ => exact absurd h List.not_mem_nil

/-! ## The result -/

theorem Guards.of_mem {denied denied' asked asked' : List String} {b : PermBuckets}
    (h : Guards denied asked b) (hdeny : ∀ s ∈ denied', s ∈ denied)
    (hask : ∀ s ∈ asked', s ∈ asked) : Guards denied' asked' b where
  deny s hs := h.deny s (hdeny s hs)
  ask s hs := h.ask s (hask s hs)

/-- A rule after the deprecated names are replaced is one that the render or the
merge has. -/
theorem mem_sources {neutral : List PermissionRule} {rules catchAll appended : List String}
    (hcatch : ∀ s ∈ catchAll, s ∈ appended) :
    ∀ s ∈ (neutral.flatMap renderPermissionRule ++ rules ++ catchAll).map normalizeDeprecatedTool,
      s ∈ (neutral.flatMap renderPermissionRule ++ rules.map normalizeDeprecatedTool) ++
        appended.map normalizeDeprecatedTool := by
  intro s hs
  obtain ⟨t, ht, rfl⟩ := List.mem_map.mp hs
  rcases List.mem_append.mp ht with ht | ht
  · refine List.mem_append_left _ ?_
    rcases List.mem_append.mp ht with ht | ht
    · obtain ⟨rule, -, hrule⟩ := List.mem_flatMap.mp ht
      rw [normalizeDeprecatedTool_of_rendered hrule]
      exact List.mem_append_left _ ht
    · exact List.mem_append_right _ (List.mem_map_of_mem ht)
  · exact List.mem_append_right _ (List.mem_map_of_mem (hcatch t ht))

theorem nativeRules_eq (m : MergedManifest) :
    (nativeRules m).deny = (nativePermissionRules m).deny.map normalizeDeprecatedTool ∧
      (nativeRules m).ask = (nativePermissionRules m).ask.map normalizeDeprecatedTool := by
  unfold nativeRules nativePermissionRules
  cases Fields.get "claude_code" m.capabilities.nativePermissions.items with
  | none => exact ⟨rfl, rfl⟩
  | some n => exact ⟨rfl, rfl⟩

/-- The permissions that a call writes are those of the manifest. -/
theorem Generated.permissions {host : Host} {m : MergedManifest} {out out' : SettingsFolder}
    {fresh doc prev : List (String × Json)} {existing : Option Json}
    (h : Generated host m out out' fresh doc prev existing) :
    permissionsOf doc = permissionsOf fresh := by
  have hget : Fields.get "permissions" doc = Fields.get "permissions" fresh := by
    cases hexisting : existing.bind Json.asObject? with
    | none => exact h.get_alone hexisting "permissions"
    | some merged =>
        obtain ⟨e, rfl, he⟩ := Option.bind_eq_some_iff.mp hexisting
        obtain rfl := Json.asObject?_eq_some.mp he
        rw [h.get_reconciled rfl, if_neg (by decide), if_pos (by decide), ownedValue]
        cases Fields.get "permissions" fresh with
        | none => rfl
        | some v => rfl
  rw [permissionsOf, permissionsOf, hget]

/-- For every manifest and every folder: the written permissions have every deny
rule of the configuration in `deny`, every ask rule in `ask` or `deny`, no rule
in two places, and the default mode of the configuration. -/
theorem deny_never_weakened {host : Host} {m : MergedManifest} {out out' : SettingsFolder}
    (h : generateSettingsJson host m out = .ok out') :
    ∃ d doc b, out'.settings = .doc d ∧ d.value = .obj doc ∧
      Guarded ((denyRules m).map normalizeDeprecatedTool)
        ((askRules m).map normalizeDeprecatedTool) (modeValue m) (permissionsOf doc) b := by
  obtain ⟨fresh, doc, prev, existing, hgen⟩ := generateSettingsJson_ok h
  obtain ⟨d, hd, hvalue⟩ := hgen.settings
  obtain ⟨hooks, -, hparts⟩ := freshSettings_ok hgen.rendered
  obtain ⟨settings, settings', rest, hrendered, hmerge, hfresh⟩ := hparts.permissions
  have hbase := guarded_permissionsObject m
  rw [← hrendered] at hbase
  obtain ⟨b, hb⟩ := hbase.merge hmerge
  have hmode : ∀ v, modeValue m = some v → NoNulls v ∧ v ≠ .null := by
    intro v hv
    obtain ⟨mode, -, rfl⟩ := Option.map_eq_some_iff.mp hv
    exact ⟨.str _, by simp⟩
  have hstrip := hb.strip hmode 2
  rw [← hfresh, ← hgen.permissions] at hstrip
  refine ⟨d, doc, b, hd, hvalue, hstrip.lists, hstrip.ranked, hstrip.guards.of_mem ?_ ?_,
    hstrip.defaultMode⟩
  · rw [denySources, (nativeRules_eq m).1]
    exact mem_sources fun s hs => mem_stringsOf_catchAll (by decide) hmerge hs
  · rw [askSources, (nativeRules_eq m).2]
    exact mem_sources fun s hs => mem_stringsOf_catchAll (by decide) hmerge hs

/-- `Write` is denied, and the catch-all allows it. -/
def deniedWrite : MergedManifest :=
  { MergedManifest.empty with
    capabilities := { Capabilities.empty with permissions := ⟨[], [], [⟨"Write", none, []⟩]⟩ }
    native := SortedMap.empty.insert "claude_code"
      (.map [(.str "permissions", .map [(.str "allow", .seq [.str "Edit"])])]) }

theorem deny_never_weakened_write :
    ∃ out' d doc b, generateSettingsJson bareHost deniedWrite .empty = .ok out' ∧
      out'.settings = .doc d ∧ d.value = .obj doc ∧
      Guarded ["Edit"] [] none (permissionsOf doc) b := by
  have h : generateSettingsJson bareHost deniedWrite .empty = .ok _ := rfl
  obtain ⟨d, doc, b, hd, hvalue, hguarded⟩ := deny_never_weakened h
  exact ⟨_, d, doc, b, h, hd, hvalue, hguarded⟩

end Llmenv.Adapter.ClaudeCode
