/-
# `Llmenv.Adapter.ClaudeCode.EffortEdits` — does a level from `/effort` survive?

Renders and the command `/effort` of Claude Code write the same `modelSettings`,
in any order.  Over a run the companion file has the managed entries of the last
render that could record them (`recordKept_run`); so a value that the
configuration does not give is removed only when it is the recorded one.

The record has the managed entries and not what a fragment made of them.  Where a
fragment was merged over a field, the recorded value is not the one in the file,
and a user who picks it later loses it (`effort_lost_after_fragment`).
-/
import Llmenv.Lib.Runs
import Llmenv.Adapter.ModelFields
import Llmenv.Adapter.ClaudeCode.Rerender

namespace Llmenv.Adapter.ClaudeCode

open Llmenv.Lib Llmenv.Manifest

/-! ## Runs -/

/-- The document in the file. -/
def SettingsFile.value : SettingsFile → Json
  | .doc d => d.value
  | _ => .null

/-- What the fragments of a manifest have for `modelSettings`. -/
def nativeSettings (m : MergedManifest) : Option Json := overlaid m none "modelSettings"

/-- A fragment does not give the field, nor takes the place of its model. -/
def LeavesField (native : Option Json) (id field : String) : Prop :=
  ∀ v, native = some v → ∃ models, v = .obj models ∧
    ∀ e, Fields.get id models = some e → ∃ fields, e = .obj fields ∧ Fields.get field fields = none

/-- The last render that recorded its managed entries, and the settings it wrote. -/
structure Written where
  m : MergedManifest
  doc : Json

structure EffortState where
  folder : SettingsFolder
  last : Option Written

/-- A folder without a companion file. -/
def EffortState.start (out : SettingsFolder) : EffortState :=
  ⟨{ out with ownedModelSettings := .absent }, none⟩

inductive EffortStep where
  /-- A render; it can fail to record the managed entries. -/
  | render (host : Host) (m : MergedManifest) (recorded : Bool)
  /-- `/effort`, or any other edit of the file. -/
  | edit (settings : SettingsFile)

/-- A render that fails changes nothing, but for one that fails after the settings
are written: it does not get to the companion file and the sidecars. -/
def effortStep (s : EffortState) : EffortStep → EffortState
  | .render host m recorded =>
      match generateSettingsJson host m s.folder with
      | .error _ => s
      | .ok out =>
          if recorded then ⟨out, some ⟨m, out.settings.value⟩⟩
          else { s with folder := { s.folder with settings := out.settings } }
  | .edit settings => { s with folder := { s.folder with settings := settings } }

/-! ## One render -/

/-- A fragment that leaves a field alone is merged over the others. -/
theorem get_mergeJson_leaves {target : Json} {models : List (String × Json)}
    (hmodels : Json.WfFields models) {id field : String}
    (h : ∀ e, Fields.get id models = some e →
      ∃ fields, e = .obj fields ∧ Fields.get field fields = none) :
    ((mergeJson target (.obj models)).get? id).bind (Json.get? field) =
      (target.get? id).bind (Json.get? field) := by
  have hmerge : mergeJson target (.obj models) =
      .obj (mergeFields (fieldsOr (some target)) models) :=
    Option.some.inj (mergeValue_obj hmodels.sorted (some target))
  have htarget : target.get? id = Fields.get id (fieldsOr (some target)) :=
    bind_get?_eq (some target) id
  rw [hmerge, Json.get?_obj, get_mergeFields hmodels.sorted, htarget]
  cases hentry : Fields.get id models with
  | none => rfl
  | some e =>
      obtain ⟨fields, rfl, hnone⟩ := h e hentry
      have hfields := (Json.wf_obj.mp (hmodels.get hentry)).sorted
      rw [mergeOption_some, mergeValue_obj hfields, Option.bind_some, Json.get?_obj,
        get_mergeFields hfields, hnone, mergeOption_none, bind_get?_eq]

section

variable {host : Host} {m : MergedManifest} {out out' : SettingsFolder}
  {fresh doc prev : List (String × Json)} {existing : Option Json}

/-- The settings in the file before a render, without any other value. -/
theorem Generated.settings_before (h : Generated host m out out' fresh doc prev existing) :
    ∃ disk, Json.WfFields disk ∧
      (∀ id field, modelField out.settings.value id field = modelField (.obj disk) id field) ∧
      Fields.get "modelSettings" doc = modelValue (managedEntries m.capabilities) prev
        (nativeSettings m) (Fields.get "modelSettings" disk) := by
  have hnative : Fields.get "modelSettings" fresh = nativeSettings m :=
    get_fresh_modelSettings h.rendered
  have halone : existing.bind Json.asObject? = none →
      Fields.get "modelSettings" doc = modelValue (managedEntries m.capabilities) prev
        (nativeSettings m) none := by
    intro hno
    rw [h.get_alone hno, if_pos rfl, hnative]
  have hread := h.read
  cases hfile : out.settings with
  | doc d =>
      rw [hfile] at hread
      obtain rfl := Except.ok.inj hread
      obtain ⟨value, hwf⟩ := d
      cases value with
      | obj disk =>
          refine ⟨disk, Json.wf_obj.mp hwf, fun id field => rfl, ?_⟩
          rw [h.get_reconciled rfl, if_pos rfl, hnative]
      | _ => exact ⟨[], .nil, fun id field => rfl, halone rfl⟩
  | unreadable error => exact absurd (hfile ▸ hread) (by simp [existingSettings])
  | absent =>
      rw [hfile] at hread
      obtain rfl := Except.ok.inj hread
      exact ⟨[], .nil, fun id field => rfl, halone rfl⟩
  | invalid =>
      rw [hfile] at hread
      obtain rfl := Except.ok.inj hread
      exact ⟨[], .nil, fun id field => rfl, halone rfl⟩

/-- A render merges the managed entries into the file, in every field that its
fragment leaves alone. -/
theorem Generated.modelField_eq (h : Generated host m out out' fresh doc prev existing)
    (hprev : Json.WfFields prev) {id field : String} (hleaves : LeavesField (nativeSettings m) id field) :
    modelField out'.settings.value id field =
      (fieldOf (managedEntries m.capabilities) id field).or
        (if fieldOf prev id field ≠ none ∧
            modelField out.settings.value id field = fieldOf prev id field then none
          else modelField out.settings.value id field) := by
  obtain ⟨disk, hdisk, hbefore, hvalue⟩ := h.settings_before
  obtain ⟨d, hd, hdoc⟩ := h.settings
  have hafter : modelField out'.settings.value id field =
      modelField (.obj (mergeModelSettings disk (managedEntries m.capabilities) prev)) id field := by
    have hmerged : modelField (.obj (mergeModelSettings disk (managedEntries m.capabilities) prev))
        id field = ((modelValue (managedEntries m.capabilities) prev none
          (Fields.get "modelSettings" disk)).bind (Json.get? id)).bind (Json.get? field) := by
      rw [modelField, modelAt, Json.get?_obj, get_mergeModelSettings, if_pos rfl]
    rw [hmerged, hd, SettingsFile.value, hdoc, modelField, modelAt, Json.get?_obj, hvalue]
    cases hnative : nativeSettings m with
    | none => rfl
    | some v =>
        obtain ⟨models, rfl, hmodels⟩ := hleaves v hnative
        have hwf : Json.WfFields models := by
          have hget : Fields.get "modelSettings" fresh = some (.obj models) :=
            (get_fresh_modelSettings h.rendered).trans hnative
          exact Json.wf_obj.mp ((Json.wf_obj.mp (wf_freshSettings h.rendered)).get hget)
        simp only [modelValue, Option.bind_some]
        rw [get_mergeJson_leaves hwf hmodels]
        cases (if (managedEntries m.capabilities).isEmpty && prev.isEmpty then
            Fields.get "modelSettings" disk
          else nonEmptyObject (.obj (modelEntries (managedEntries m.capabilities) prev
            (fieldsOr (Fields.get "modelSettings" disk))))) with
        | none => rfl
        | some target => rfl
  rw [hafter, hbefore, get_modelField hdisk (wf_managedEntries _) hprev]

end

/-! ## The record -/

/-- The entries that the last recording render managed. -/
def recordedEntries (last : Option Written) : List (String × Json) :=
  (last.map fun w => managedEntries w.m.capabilities).getD []

theorem wf_recordedEntries (last : Option Written) : Json.WfFields (recordedEntries last) := by
  cases last with
  | none => exact .nil
  | some w => exact wf_managedEntries _

/-- The companion file has the managed entries of the last recording render, and that
render put them into the file where its fragment left them alone. -/
structure RecordKept (s : EffortState) : Prop where
  entries : readOwned s.folder.ownedModelSettings = .ok (recordedEntries s.last)
  landed : ∀ w, s.last = some w → ∀ id field v,
    fieldOf (managedEntries w.m.capabilities) id field = some v →
    LeavesField (nativeSettings w.m) id field → modelField w.doc id field = some v

theorem readOwned_ownedModelSettings (managed : List (String × Json)) :
    readOwned (ownedModelSettings managed) = .ok managed := by
  cases managed <;> rfl

/-- A render reads the record, or nothing when there is no file. -/
theorem RecordKept.previous {s : EffortState} (h : RecordKept s) {prev : List (String × Json)}
    (hprev : previousEntries s.folder = .ok prev) : prev = [] ∨ prev = recordedEntries s.last := by
  unfold previousEntries at hprev
  split at hprev
  · exact Or.inl (Except.ok.inj hprev).symm
  · exact Or.inr (Except.ok.inj (hprev.symm.trans h.entries))

theorem RecordKept.wf_previous {s : EffortState} (h : RecordKept s) {prev : List (String × Json)}
    (hprev : previousEntries s.folder = .ok prev) : Json.WfFields prev := by
  rcases h.previous hprev with rfl | rfl
  · exact .nil
  · exact wf_recordedEntries _

theorem recordKept_step {s : EffortState} (h : RecordKept s) (i : EffortStep) :
    RecordKept (effortStep s i) := by
  cases i with
  | edit settings => exact ⟨h.entries, h.landed⟩
  | render host m recorded =>
      simp only [effortStep]
      split
      · exact h
      · rename_i out hout
        cases recorded with
        | false => exact ⟨h.entries, h.landed⟩
        | true =>
            obtain ⟨fresh, doc, prev, existing, hgen⟩ := generateSettingsJson_ok hout
            refine ⟨?_, ?_⟩
            · show readOwned out.ownedModelSettings = .ok (managedEntries m.capabilities)
              rw [hgen.owned, readOwned_ownedModelSettings]
            · intro w hw id field v hv hleaves
              obtain rfl := Option.some.inj hw
              rw [hgen.modelField_eq (h.wf_previous hgen.companion) hleaves, hv, Option.some_or]

theorem recordKept_run (out : SettingsFolder) (steps : List EffortStep) :
    RecordKept (runFrom effortStep (EffortState.start out) steps) := by
  refine inv_of_run RecordKept (fun s i h => recordKept_step h i) ⟨rfl, ?_⟩ steps
  intro w hw
  exact absurd hw (by simp [EffortState.start])

/-! ## The whole merge -/

/-- The merge decides each field by what is managed, what was written before and what
is on disk.  Over any run of renders and edits, a value that the configuration does
not give stays, or it is the recorded one and is removed; that one was written to the
file, where the fragment left it alone. -/
theorem effort_merge_fieldwise :
    (∀ settings managed prev, Json.WfFields settings → Json.WfFields managed →
      ObjectEntries managed → Json.WfFields prev →
      ObjectEntries (fieldsOr (Fields.get "modelSettings" settings)) →
      FieldwiseMerge managed prev settings (mergeModelSettings settings managed prev)) ∧
    ∀ (start : SettingsFolder) (steps : List EffortStep) (host : Host) (m : MergedManifest)
      (out' : SettingsFolder),
      generateSettingsJson host m (runFrom effortStep (EffortState.start start) steps).folder =
        .ok out' →
      ∀ id field v,
        modelField (runFrom effortStep (EffortState.start start) steps).folder.settings.value id
          field = some v →
        fieldOf (managedEntries m.capabilities) id field = none →
        LeavesField (nativeSettings m) id field →
        modelField out'.settings.value id field = some v ∨
          modelField out'.settings.value id field = none ∧
            ∃ w, (runFrom effortStep (EffortState.start start) steps).last = some w ∧
              fieldOf (managedEntries w.m.capabilities) id field = some v ∧
              (LeavesField (nativeSettings w.m) id field → modelField w.doc id field = some v) := by
  refine ⟨fun settings managed prev hsettings hmanaged hobjects hprev hmodels =>
    fieldwiseMerge hsettings hmanaged hobjects hprev hmodels, ?_⟩
  intro start steps host m out' hout id field v hv hmanaged hleaves
  have hrecord := recordKept_run start steps
  obtain ⟨fresh, doc, prev, existing, hgen⟩ := generateSettingsJson_ok hout
  rw [hgen.modelField_eq (hrecord.wf_previous hgen.companion) hleaves, hmanaged, Option.none_or, hv]
  by_cases hsame : fieldOf prev id field = some v
  · rw [hsame]
    refine Or.inr ⟨by simp, ?_⟩
    -- A render that removes something has read the record.
    obtain rfl : prev = recordedEntries _ := by
      refine (hrecord.previous hgen.companion).resolve_left ?_
      rintro rfl
      exact absurd hsame (by simp [fieldOf])
    cases hlast : (runFrom effortStep (EffortState.start start) steps).last with
    | none => exact absurd hsame (by simp [hlast, recordedEntries, fieldOf])
    | some w =>
        rw [hlast] at hsame
        exact ⟨w, rfl, hsame, hrecord.landed w hlast id field v hsame⟩
  · refine Or.inl (if_neg ?_)
    rintro ⟨-, heq⟩
    exact hsame heq.symm

/-- A file with one level, as `/effort` saves it. -/
def savedLevel (level : String) : SettingsFile :=
  .doc (.object [("modelSettings",
    .object [("claude-opus-5-5", .object [("effortLevel", .str level)])])])

/-- A manifest with a level for the models. -/
def levelManifest : MergedManifest :=
  { MergedManifest.empty with
    capabilities := { Capabilities.empty with effortLevel := some "high" } }

/-- The user saves another level, the level is dropped from the configuration, and the
user's stays.  Where it is the one that llmenv wrote, it goes. -/
theorem effort_merge_fieldwise_saved :
    (∃ out', generateSettingsJson bareHost MergedManifest.empty
        (runFrom effortStep (EffortState.start .empty)
          [.render bareHost levelManifest true, .edit (savedLevel "low")]).folder = .ok out' ∧
      modelField out'.settings.value "claude-opus-5-5" "effortLevel" = some (.str "low")) ∧
    mergeModelSettings
        [("modelSettings", .obj [("claude-opus-5-5", .obj [("effortLevel", .str "high")])])] []
        (managedEntries levelManifest.capabilities) = [] ∧
      FieldwiseMerge [] (managedEntries levelManifest.capabilities)
        [("modelSettings", .obj [("claude-opus-5-5", .obj [("effortLevel", .str "high")])])] [] := by
  have hnative : nativeSettings MergedManifest.empty = none := rfl
  refine ⟨⟨_, rfl, ?_⟩, rfl, ?_⟩
  · rcases effort_merge_fieldwise.2 .empty
      [.render bareHost levelManifest true, .edit (savedLevel "low")] bareHost MergedManifest.empty _
      rfl "claude-opus-5-5" "effortLevel" (.str "low") rfl rfl
      (fun v hv => absurd (hnative.symm.trans hv) (by simp)) with hkept | ⟨-, w, hw, hrecorded, -⟩
    · exact hkept
    · obtain rfl := Option.some.inj hw
      exact absurd hrecorded (by decide)
  · have hentry : Json.Wf (.obj [("effortLevel", .str "high")]) :=
      Json.wf_obj.mpr (wf_singleton (.str "high"))
    have hmodels : Json.Wf (.obj [("claude-opus-5-5", .obj [("effortLevel", .str "high")])]) :=
      Json.wf_obj.mpr (wf_singleton hentry)
    refine effort_merge_fieldwise.1 _ _ _ (wf_singleton hmodels) .nil (fun e he => ?_)
      (wf_managedEntries _) (fun e he => ?_)
    · exact absurd he List.not_mem_nil
    · exact List.mem_singleton.mp he ▸ ⟨_, rfl⟩

/-- The level, with another one for a model from a fragment. -/
def loweredManifest : MergedManifest :=
  { levelManifest with
    native := SortedMap.empty.insert "claude_code" (.map [(.str "modelSettings",
      .map [(.str "claude-opus-5-5", .map [(.str "effortLevel", .str "low")])])]) }

/-- llmenv writes `low` from the fragment and records `high`.  The user saves `high`, the
configuration drops both, and the level of the user is removed. -/
theorem effort_lost_after_fragment :
    ∃ w out', (runFrom effortStep (EffortState.start .empty)
        [.render bareHost loweredManifest true, .edit (savedLevel "high")]).last = some w ∧
      modelField w.doc "claude-opus-5-5" "effortLevel" = some (.str "low") ∧
      modelField (savedLevel "high").value "claude-opus-5-5" "effortLevel" = some (.str "high") ∧
      managedEntries MergedManifest.empty.capabilities = [] ∧
      nativeSettings MergedManifest.empty = none ∧
      generateSettingsJson bareHost MergedManifest.empty
        (runFrom effortStep (EffortState.start .empty)
          [.render bareHost loweredManifest true, .edit (savedLevel "high")]).folder = .ok out' ∧
      modelField out'.settings.value "claude-opus-5-5" "effortLevel" = none :=
  ⟨_, _, rfl, rfl, rfl, rfl, rfl, rfl, rfl⟩

end Llmenv.Adapter.ClaudeCode
