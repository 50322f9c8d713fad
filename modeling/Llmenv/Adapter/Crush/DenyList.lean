/-
# `Llmenv.Adapter.Crush.DenyList` — does the deny list reach Crush?

`options.disabled_tools` has the rendered deny rules, and `native.crush` is
merged over it.  Two guards stand before the merge: no key of the fragment may
be a modeled one, and `options.disabled_tools` may not be set.  A merge keeps an
object only under an object, though: with `options: null` or `options: 3` the
rendered options are replaced as a whole, and the second guard finds no key to
refuse.  `deny_list_kept_iff` says that nothing else takes the list away.
-/
import Llmenv.Adapter.Crush.Document

namespace Llmenv.Adapter.Crush

open Llmenv.Lib Llmenv.Manifest

/-- The lists of the permission rules are in the document: the deny list when it
is not empty, the allow list when it is not empty and no key otherwise. -/
structure KeepsPermissions (m : MergedManifest) (doc : Json) : Prop where
  disabled : (permissionLists m).2 ≠ [] →
    (doc.get? "options").bind (Json.get? "disabled_tools") = some (strings (permissionLists m).2)
  allowed : (doc.get? "permissions").bind (Json.get? "allowed_tools") =
    nonEmptyStrings (permissionLists m).1

/-- The fragment has `options` with a value that is neither a mapping nor
tagged. -/
def replacesOptions : Option Yaml → Bool
  | some (.map entries) =>
      match Yaml.getKey "options" entries with
      | none => false
      | some (.map _) => false
      | some (.tagged _ _) => false
      | some _ => true
  | _ => false

/-! ## The document, key by key -/

theorem Sections.sorted_fields (s : Sections) : Fields.Sorted s.fields := by
  unfold Sections.fields
  repeat refine sorted_insertSome ?_
  exact Fields.sorted_nil

/-- What the fragment gives to the merge: its fields, and what the guards found
missing. -/
structure Overlay (native : Option Yaml) (frag : List (String × Json)) : Prop where
  sorted : Fields.Sorted frag
  source : native = none ∧ frag = [] ∨ ∃ y, native = some y ∧ y.toJson = .ok (.obj frag)
  unmodeled : ∀ key ∈ crushModeledKeys, PlainName key → Fields.get key frag = none
  noDisabled : ∀ y, native = some y →
    (y.get? "options").bind (Yaml.get? "disabled_tools") = none

theorem rejectNativeDisabledTools_ok {native : Option Yaml}
    (h : rejectNativeDisabledTools native = .ok ()) {y : Yaml} (hy : native = some y) :
    (y.get? "options").bind (Yaml.get? "disabled_tools") = none := by
  subst hy
  unfold rejectNativeDisabledTools at h
  split at h
  · exact absurd h (by simp)
  · rename_i hnone
    simpa using hnone

theorem overlayNativeCrush_ok {native : Option Yaml} {s : Sections} {doc : Json}
    (h : overlayNativeCrush native s = .ok doc) :
    ∃ frag, Overlay native frag ∧ doc = .obj (stripFields (mergeFields s.fields frag) 1) := by
  obtain ⟨_, hdisabled, h⟩ := bind_eq_ok.mp h
  obtain ⟨_, hmodeled, h⟩ := bind_eq_ok.mp h
  obtain ⟨merged, hmerged, h⟩ := bind_eq_ok.mp h
  obtain rfl := Except.ok.inj h
  have hnoDisabled := fun y => rejectNativeDisabledTools_ok hdisabled (y := y)
  rcases overlayNativeJson_ok hmerged with ⟨rfl, rfl⟩ | ⟨y, frag, rfl, hjson, rfl⟩
  · refine ⟨[], ⟨Fields.sorted_nil, Or.inl ⟨rfl, rfl⟩, by simp, hnoDisabled⟩, ?_⟩
    rw [stripJsonNulls_obj, mergeFields]
  · refine ⟨frag, ⟨(Json.wf_obj.mp (Yaml.wf_toJson hjson)).sorted, Or.inr ⟨y, rfl, hjson⟩,
      fun key hkey hplain => ?_, hnoDisabled⟩, ?_⟩
    · exact get_toJson_eq_none hplain hjson (rejectModeledNativeKeys_ok hmodeled hkey)
    · rw [mergeJson_obj, stripJsonNulls_obj]

theorem get_doc {s : Sections} {frag : List (String × Json)} (hfrag : Fields.Sorted frag)
    (k : String) :
    Fields.get k (stripFields (mergeFields s.fields frag) 1) =
      (mergeOption (Fields.get k s.fields) (Fields.get k frag)).bind
        (fun v => if v = .null then none else some (stripJsonNullsDepth v 1)) := by
  rw [get_stripFields (sorted_mergeFields s.sorted_fields), get_mergeFields hfrag]

/-! ## The sections with the lists -/

theorem renderSections_ok {host : Host} {m : MergedManifest} {hasSkills : Bool} {s : Sections}
    (h : renderSections host m hasSkills = .ok s) :
    s.allowedTools = (permissionLists m).1 ∧
      renderOptions host hasSkills (permissionLists m).2 = .ok s.options := by
  obtain ⟨hooks, -, h⟩ := bind_eq_ok.mp h
  obtain ⟨mcp, -, h⟩ := bind_eq_ok.mp h
  obtain ⟨lsp, -, h⟩ := bind_eq_ok.mp h
  obtain ⟨providers, -, h⟩ := bind_eq_ok.mp h
  obtain ⟨models, -, h⟩ := bind_eq_ok.mp h
  obtain ⟨options, hoptions, h⟩ := bind_eq_ok.mp h
  obtain rfl := Except.ok.inj h
  exact ⟨rfl, hoptions⟩

/-- Where there is a deny list, the rendered options are an object with it. -/
theorem renderOptions_disabled {host : Host} {hasSkills : Bool} {disabled : List String}
    {options : Option Json} (h : renderOptions host hasSkills disabled = .ok options)
    (hne : disabled ≠ []) :
    ∃ fields, options = some (.obj fields) ∧ Fields.Sorted fields ∧
      Fields.get "disabled_tools" fields = some (strings disabled) := by
  obtain ⟨skillsPaths, -, h⟩ := bind_eq_ok.mp h
  obtain rfl := Except.ok.inj h
  have hget : Fields.get "disabled_tools" (insertSome "disabled_tools" (nonEmptyStrings disabled)
      (insertSome "skills_paths" skillsPaths [])) = some (strings disabled) := by
    simp [get_insertSome, nonEmptyStrings, hne]
  have hsorted : Fields.Sorted (insertSome "disabled_tools" (nonEmptyStrings disabled)
      (insertSome "skills_paths" skillsPaths [])) :=
    sorted_insertSome (sorted_insertSome Fields.sorted_nil)
  generalize insertSome "disabled_tools" _ _ = fields at hget hsorted
  cases fields with
  | nil => exact absurd hget (by simp)
  | cons f fields => exact ⟨f :: fields, rfl, hsorted, hget⟩

/-- Null-valued keys aside, an object of the document has the values of the
object before. -/
theorem get?_stripObj {fields : List (String × Json)} {v : Json} {k : String}
    (hsorted : Fields.Sorted fields) (hget : Fields.get k fields = some v) (hnull : v ≠ .null)
    (hv : NoNulls v) : (stripJsonNullsDepth (.obj fields) 1).get? k = some v := by
  rw [stripJsonNullsDepth, if_neg (by decide), Json.get?_obj, get_stripFields hsorted, hget]
  simp [hnull, stripJsonNullsDepth_of_noNulls hv]

theorem stripJsonNullsDepth_not_obj {j : Json} (h : j.asObject? = none) (depth : Nat) :
    (stripJsonNullsDepth j depth).asObject? = none := by
  cases j with
  | obj fields => exact absurd h (by simp [Json.asObject?])
  | arr items =>
      rw [stripJsonNullsDepth]
      split <;> rfl
  | _ => simp [stripJsonNullsDepth, Json.asObject?]

theorem permissions_kept {m : MergedManifest} {s : Sections} {frag : List (String × Json)}
    {native : Option Yaml} (hfrag : Overlay native frag)
    (hallowed : s.allowedTools = (permissionLists m).1) :
    (Fields.get "permissions" (stripFields (mergeFields s.fields frag) 1)).bind
      (Json.get? "allowed_tools") = nonEmptyStrings (permissionLists m).1 := by
  have hsection : Fields.get "permissions" s.fields =
      permissionsSection (permissionLists m).1 := by
    simp [Sections.fields, get_insertSome, hallowed]
  rw [get_doc hfrag.sorted, hsection,
    hfrag.unmodeled "permissions" (by decide) (by decide), mergeOption_none]
  by_cases hempty : (permissionLists m).1 = []
  · simp [permissionsSection, nonEmptyStrings, hempty]
  · have hget : Fields.get "allowed_tools" [("allowed_tools", strings (permissionLists m).1)] =
        some (strings (permissionLists m).1) := rfl
    simpa [permissionsSection, nonEmptyStrings, hempty] using
      get?_stripObj (List.pairwise_singleton _ _) hget (by simp [strings]) (noNulls_strings _)

/-! ## The fragment's options -/

/-- What the fragment may have under `options`: nothing, an object without the
deny list, or a value that replaces the options. -/
theorem options_cases {native : Option Yaml} {frag : List (String × Json)}
    (hfrag : Overlay native frag) :
    (replacesOptions native = false ∧ Fields.get "options" frag = none) ∨
      (replacesOptions native = false ∧ ∃ src, Fields.get "options" frag = some (.obj src) ∧
        Fields.Sorted src ∧ Fields.get "disabled_tools" src = none) ∨
      (replacesOptions native = true ∧ ∃ j, Fields.get "options" frag = some j ∧
        j.asObject? = none) := by
  rcases hfrag.source with ⟨rfl, rfl⟩ | ⟨y, rfl, hjson⟩
  · exact Or.inl ⟨rfl, rfl⟩
  · rcases get_toJson (k := "options") (by decide) hjson with
      ⟨hnone, hno⟩ | ⟨entries, v, j, rfl, hv, hj, hget⟩
    · refine Or.inl ⟨?_, hnone⟩
      cases y with
      | map entries => simp [replacesOptions, hno entries rfl]
      | _ => rfl
    · have hguard : v.get? "disabled_tools" = none := by
        have hguard := hfrag.noDisabled _ rfl
        rwa [show Yaml.get? "options" (.map entries) = some v from hv, Option.bind_some] at hguard
      cases hobj : j.asObject? with
      | some src =>
          obtain rfl := Json.asObject?_eq_some.mp hobj
          refine Or.inr (Or.inl ⟨?_, src, hget, (Json.wf_obj.mp (Yaml.wf_toJson hj)).sorted,
            get_toJson_eq_none (by decide) hj hguard⟩)
          rcases (toJson_obj_iff hj).mp ⟨src, rfl⟩ with ⟨es, rfl⟩ | ⟨tag, w, rfl⟩
          · simp [replacesOptions, hv]
          · simp [replacesOptions, hv]
      | none =>
          refine Or.inr (Or.inr ⟨?_, j, hget, hobj⟩)
          have hkind := mt (toJson_obj_iff hj).mpr
            (by rintro ⟨fields, rfl⟩; exact absurd hobj (by simp [Json.asObject?]))
          cases v with
          | map es => exact absurd (Or.inl ⟨es, rfl⟩) hkind
          | tagged tag w => exact absurd (Or.inr ⟨tag, w, rfl⟩) hkind
          | _ => simp [replacesOptions, hv]

theorem disabled_kept_iff {s : Sections} {frag options : List (String × Json)}
    {native : Option Yaml} {disabled : List String} (hfrag : Overlay native frag)
    (hoptions : s.options = some (.obj options)) (hsorted : Fields.Sorted options)
    (hdisabled : Fields.get "disabled_tools" options = some (strings disabled)) :
    (Fields.get "options" (stripFields (mergeFields s.fields frag) 1)).bind
        (Json.get? "disabled_tools") = some (strings disabled) ↔
      replacesOptions native = false := by
  have hsection : Fields.get "options" s.fields = some (.obj options) := by
    simp [Sections.fields, get_insertSome, hoptions]
  rw [get_doc hfrag.sorted, hsection]
  rcases options_cases hfrag with ⟨hkeep, hnone⟩ | ⟨hkeep, src, hsrc, hsrcSorted, hno⟩ |
    ⟨hreplace, j, hj, hobj⟩
  · rw [hnone, mergeOption_none]
    simpa [hkeep] using
      get?_stripObj hsorted hdisabled (by simp [strings]) (noNulls_strings _)
  · have hmerged : Fields.get "disabled_tools" (mergeFields options src) =
        some (strings disabled) := by
      rw [get_mergeFields hsrcSorted, hno, mergeOption_none, hdisabled]
    simpa [hkeep, hsrc, mergeValue, mergeJson_obj] using
      get?_stripObj (sorted_mergeFields hsorted) hmerged (by simp [strings]) (noNulls_strings _)
  · -- What is left of the options has no keys.
    have hgone : (stripJsonNullsDepth (mergeJson (.obj options) j) 1).get? "disabled_tools" =
        none :=
      Json.get?_eq_none_of_not_obj (stripJsonNullsDepth_not_obj (mergeJson_not_obj hobj) 1) _
    rw [hj, mergeOption_some, mergeValue, Option.bind_some]
    split
    · simp [hreplace]
    · simp [hreplace, hgone]

/-! ## The result -/

/-- Whatever `native.crush` has, the rules of an accepted manifest are in the
document, unless there is a deny list and the fragment replaces `options`. -/
theorem deny_list_kept_iff {host : Host} {m : MergedManifest} {out : Output}
    (h : materialize host m = .ok out) :
    KeepsPermissions m out.crushJson ↔
      (permissionLists m).2 = [] ∨ replacesOptions (fragment "crush" m.native) = false := by
  obtain ⟨files, s, -, hs, hdoc⟩ := materialize_ok h
  obtain ⟨frag, hfrag, hdoc⟩ := overlayNativeCrush_ok hdoc
  rw [hdoc]
  obtain ⟨hallowed, hoptions⟩ := renderSections_ok hs
  have hperms := permissions_kept hfrag hallowed
  by_cases hempty : (permissionLists m).2 = []
  · exact ⟨fun _ => Or.inl hempty, fun _ => ⟨fun hne => absurd hempty hne, hperms⟩⟩
  · obtain ⟨options, hsome, hsorted, hdisabled⟩ := renderOptions_disabled hoptions hempty
    have hiff := disabled_kept_iff hfrag hsome hsorted hdisabled
    constructor
    · exact fun hkeeps => Or.inr (hiff.mp (hkeeps.disabled hempty))
    · rintro (hnil | hkeep)
      · exact absurd hnil hempty
      · exact ⟨fun _ => hiff.mpr hkeep, hperms⟩

/-- A machine without skill folders. -/
def bareHost : Host where
  llmenvProgram := .ok "llmenv"
  skillsOut := .ok "/out/skills"
  resolveBundleRelativePaths := fun _ _ => none
  rejectHardcodedConfigPath := fun _ _ => .ok ()
  copySkillDir := fun _ => .ok []
  unsupportedPluginDir := fun _ => .ok none
  discoverPluginSkills := fun _ => .ok []
  toLowercase := id
  writeOutputStyleAsSkill := fun _ => .ok []
  validateSkills := fun _ => .ok ()

/-- A rule that denies `Bash`, and `native.crush` with `options`. -/
def denyBash (options : Yaml) : MergedManifest :=
  { MergedManifest.empty with
    capabilities := { Capabilities.empty with permissions := ⟨[], [], [⟨"Bash", none, []⟩]⟩ }
    native := SortedMap.empty.insert "crush" (.map [(.str "options", options)]) }

/-- Options with another key keep the list. -/
theorem deny_list_kept_beside_debug :
    ∃ out, materialize bareHost (denyBash (.map [(.str "debug", .bool true)])) = .ok out ∧
      KeepsPermissions (denyBash (.map [(.str "debug", .bool true)])) out.crushJson := by
  have h : materialize bareHost (denyBash (.map [(.str "debug", .bool true)])) = .ok _ := rfl
  exact ⟨_, h, (deny_list_kept_iff h).mpr (Or.inr rfl)⟩

/-- Null options are accepted, and `bash` is not disabled. -/
theorem null_options_lose_deny_list :
    ∃ out, materialize bareHost (denyBash .null) = .ok out ∧
      (permissionLists (denyBash .null)).2 = ["bash"] ∧
      out.crushJson.get? "options" = none ∧
      ¬ KeepsPermissions (denyBash .null) out.crushJson := by
  refine ⟨_, rfl, by decide, by decide, fun hkeeps => ?_⟩
  exact absurd (hkeeps.disabled (by decide)) (by decide)

end Llmenv.Adapter.Crush
