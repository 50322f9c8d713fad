/-
# `Llmenv.Adapter.ModelSettings` — the effort level of each model

`modelSettings` of `settings.json` is shared with the command `/effort` of
Claude Code.  llmenv writes its entries into what is there, and removes the
fields that it wrote before and no longer writes, where they still have the
value it wrote; a companion file records them.  A fragment goes on top.

What is under the key of a model depends on that key alone (`get_modelEntries`),
and of a field on that field alone (`get_modelEntry`).
-/
import Llmenv.Adapter.Render

namespace Llmenv.Adapter

open Llmenv.Lib Llmenv.Manifest

/-! ## The code -/

def perModelEffortModels : List String := ["claude-opus-5-5", "claude-haiku-5-5"]

def modelEffortEntry (effort : ModelEffort) : Json :=
  .obj (insertSome "maxEffortLevel" (effort.maxEffortLevel.map .str)
    (insertSome "effortLevel" (effort.effortLevel.map .str) []))

def managedEntries (caps : Capabilities) : List (String × Json) :=
  let perModel := match caps.effortLevel with
    | some level =>
        perModelEffortModels.map (fun id => (id, Json.obj [("effortLevel", .str level)]))
    | none => []
  Fields.ofList (perModel ++ caps.modelEffort.items.map (fun e => (e.1, modelEffortEntry e.2)))

/-- A field that was written before is removed when it is not written now and has
still the value. -/
def pruneField (now entry : List (String × Json)) (field : String) (prevValue : Json) :
    List (String × Json) :=
  if Fields.get field now = none ∧ Fields.get field entry = some prevValue then
    Fields.erase field entry
  else entry

def pruneFields (now prevFields entry : List (String × Json)) : List (String × Json) :=
  prevFields.foldl (fun entry f => pruneField now entry f.1 f.2) entry

def pruneEntry (managed current : List (String × Json)) (id : String) (prevEntry : Json) :
    List (String × Json) :=
  match prevEntry, Fields.get id current with
  | .obj prevFields, some (.obj entry) =>
      let now := fieldsOr (Fields.get id managed)
      Fields.insert id (.obj (pruneFields now prevFields entry)) current
  | _, _ => current

/-- Write the fields of an entry over those that are there. -/
def writeEntry (current : List (String × Json)) (id : String) (fields : Json) :
    List (String × Json) :=
  match fields with
  | .obj fields =>
      let entry := fieldsOr (Fields.get id current)
      Fields.insert id (.obj (fields.foldl (fun acc f => Fields.insert f.1 f.2 acc) entry)) current
  | _ => current

/-- The entries for all models after a render. -/
def modelEntries (managed prev current : List (String × Json)) : List (String × Json) :=
  let pruned := prev.foldl (fun acc e => pruneEntry managed acc e.1 e.2) current
  let written := managed.foldl (fun acc e => writeEntry acc e.1 e.2) pruned
  written.filter (fun e =>
    !((e.1 ∈ Fields.keys prev || e.1 ∈ Fields.keys managed) && e.2 = .obj []))

def mergeModelSettings (settings managed prev : List (String × Json)) : List (String × Json) :=
  if managed.isEmpty && prev.isEmpty then settings
  else
    let current := fieldsOr (Fields.get "modelSettings" settings)
    let entries := modelEntries managed prev current
    let settings := Fields.erase "modelSettings" settings
    if entries.isEmpty then settings else Fields.insert "modelSettings" (.obj entries) settings

/-- The managed entries, and those of the fragment over them. -/
def applyModelSettings (managed prev : List (String × Json)) (native : Option Json)
    (reconciled : Json) : Except String Json :=
  match reconciled with
  | .obj settings =>
      let settings := mergeModelSettings settings managed prev
      match native with
      | some native => .ok (.obj (Fields.insert "modelSettings"
          (mergeJson ((Fields.get "modelSettings" settings).getD (.obj [])) native) settings))
      | none => .ok (.obj settings)
  | _ => .error "rendered settings.json is not a JSON object; cannot merge modelSettings"

/-! ## Keys in order -/

section

variable {managed prev current : List (String × Json)}

theorem wf_managedEntries (caps : Capabilities) : Json.WfFields (managedEntries caps) := by
  refine .ofList fun f hf => ?_
  rcases List.mem_append.mp hf with hf | hf
  · split at hf
    · obtain ⟨id, -, rfl⟩ := List.mem_map.mp hf
      exact Json.wf_obj.mpr (wf_singleton (.str _))
    · exact absurd hf List.not_mem_nil
  · obtain ⟨e, -, rfl⟩ := List.mem_map.mp hf
    exact Json.wf_obj.mpr (wf_insertStr (wf_insertStr .nil))

theorem wf_pruneFields {now prevFields entry : List (String × Json)} (h : Json.WfFields entry) :
    Json.WfFields (pruneFields now prevFields entry) := by
  refine List.foldlRecOn prevFields _ h fun acc hacc f _ => ?_
  unfold pruneField
  split
  · exact hacc.erase _
  · exact hacc

theorem wf_pruneEntry (h : Json.WfFields current) (id : String) (prevEntry : Json) :
    Json.WfFields (pruneEntry managed current id prevEntry) := by
  unfold pruneEntry
  split
  · rename_i prevFields entry hget
    exact h.insert (Json.wf_obj.mpr (wf_pruneFields (Json.wf_obj.mp (h.get hget))))
  · exact h

theorem wf_writeEntry (h : Json.WfFields current) (id : String) {fields : Json}
    (hfields : fields.Wf) : Json.WfFields (writeEntry current id fields) := by
  unfold writeEntry
  split
  · rename_i fields
    exact h.insert (Json.wf_obj.mpr
      ((h.objectAt id).foldl_insert (Json.wf_obj.mp hfields).values))
  · exact h

theorem wf_modelEntries (hmanaged : Json.WfFields managed) (h : Json.WfFields current) :
    Json.WfFields (modelEntries managed prev current) := by
  have hpruned : Json.WfFields (prev.foldl (fun acc e => pruneEntry managed acc e.1 e.2) current) :=
    List.foldlRecOn prev _ h fun _ hacc e _ => wf_pruneEntry hacc e.1 e.2
  exact (List.foldlRecOn managed _ hpruned
    fun _ hacc e he => wf_writeEntry hacc e.1 (hmanaged.values e he)).filter _

theorem wf_mergeModelSettings {settings : List (String × Json)} (hsettings : Json.WfFields settings)
    (hmanaged : Json.WfFields managed) :
    Json.WfFields (mergeModelSettings settings managed prev) := by
  unfold mergeModelSettings
  split
  · exact hsettings
  · simp only
    split
    · exact hsettings.erase _
    · exact (hsettings.erase _).insert
        (Json.wf_obj.mpr (wf_modelEntries hmanaged (hsettings.objectAt _)))

theorem wf_applyModelSettings (hmanaged : Json.WfFields managed) {native : Option Json}
    (hnative : ∀ n, native = some n → n.Wf) {reconciled doc : Json} (hreconciled : reconciled.Wf)
    (h : applyModelSettings managed prev native reconciled = .ok doc) : doc.Wf := by
  unfold applyModelSettings at h
  split at h
  · rename_i settings
    have hmerged : Json.WfFields (mergeModelSettings settings managed prev) :=
      wf_mergeModelSettings (Json.wf_obj.mp hreconciled) hmanaged
    simp only at h
    split at h
    · rename_i n
      have htarget : ((Fields.get "modelSettings"
          (mergeModelSettings settings managed prev)).getD (.obj [])).Wf := by
        cases hget : Fields.get "modelSettings" (mergeModelSettings settings managed prev) with
        | none => exact Json.wf_obj.mpr .nil
        | some v => exact hmerged.get hget
      exact Except.ok.inj h ▸
        Json.wf_obj.mpr (hmerged.insert (wf_mergeJson htarget (hnative _ rfl)))
    · exact Except.ok.inj h ▸ Json.wf_obj.mpr hmerged
  · exact absurd h (by simp)

end

/-! ## The key of the settings -/

/-- The value of `modelSettings`, from the one that is there. -/
def modelValue (managed prev : List (String × Json)) (native old : Option Json) : Option Json :=
  let merged := if managed.isEmpty && prev.isEmpty then old
    else nonEmptyObject (.obj (modelEntries managed prev (fieldsOr old)))
  match native with
  | some native => some (mergeJson (merged.getD (.obj [])) native)
  | none => merged

theorem get_mergeModelSettings (settings managed prev : List (String × Json)) (k : String) :
    Fields.get k (mergeModelSettings settings managed prev) =
      if k = "modelSettings" then
        modelValue managed prev none (Fields.get "modelSettings" settings)
      else Fields.get k settings := by
  unfold mergeModelSettings modelValue
  simp only
  by_cases hk : k = "modelSettings"
  · subst hk
    split
    · simp
    · cases hentries : modelEntries managed prev
          (fieldsOr (Fields.get "modelSettings" settings)) with
      | nil => simp [Fields.get_erase, nonEmptyObject]
      | cons e entries => simp [Fields.get_insert, nonEmptyObject]
  · have hk' : "modelSettings" ≠ k := fun h => hk h.symm
    split
    · simp
    · split
      · simp [Fields.get_erase, hk']
      · simp [Fields.get_insert, Fields.get_erase, hk']

theorem get_applyModelSettings {managed prev settings doc : List (String × Json)}
    {native : Option Json}
    (h : applyModelSettings managed prev native (.obj settings) = .ok (.obj doc)) (k : String) :
    Fields.get k doc =
      if k = "modelSettings" then
        modelValue managed prev native (Fields.get "modelSettings" settings)
      else Fields.get k settings := by
  simp only [applyModelSettings] at h
  cases native with
  | none =>
      obtain rfl := Json.obj.inj (Except.ok.inj h)
      exact get_mergeModelSettings settings managed prev k
  | some n =>
      obtain rfl := Json.obj.inj (Except.ok.inj h)
      rw [Fields.get_insert, get_mergeModelSettings, get_mergeModelSettings]
      by_cases hk : k = "modelSettings"
      · subst hk
        rfl
      · have hk' : "modelSettings" ≠ k := fun h => hk h.symm
        simp [hk, hk']

/-! ## One model, one field -/

/-- An entry without the fields that were written before and are not now. -/
def prunedValue (now prev current : Option Json) : Option Json :=
  match prev, current with
  | some (.obj prevFields), some (.obj entry) =>
      some (.obj (pruneFields (fieldsOr now) prevFields entry))
  | _, current => current

/-- An entry with the managed fields written over it. -/
def writtenValue (now current : Option Json) : Option Json :=
  match now with
  | some (.obj fields) =>
      some (.obj (fields.foldl (fun acc f => Fields.insert f.1 f.2 acc) (fieldsOr current)))
  | _ => current

/-- The entry of a model: what is managed now, what was before, what is there. -/
def modelEntry (now prev current : Option Json) : Option Json :=
  (writtenValue now (prunedValue now prev current)).filter
    (fun v => !((prev.isSome || now.isSome) && v = .obj []))

section

variable {managed prev current : List (String × Json)}

theorem get_prunedLoop (hprev : Fields.Sorted prev) (id : String) :
    Fields.get id (prev.foldl (fun acc e => pruneEntry managed acc e.1 e.2) current) =
      prunedValue (Fields.get id managed) (Fields.get id prev) (Fields.get id current) := by
  have hstep : ∀ acc j v k, Fields.get k (pruneEntry managed acc j v) =
      if j = k then prunedValue (Fields.get j managed) (some v) (Fields.get j acc)
      else Fields.get k acc := by
    intro acc j v k
    unfold pruneEntry prunedValue
    split
    · rename_i prevFields entry hentry
      simp [hentry, Fields.get_insert]
    · rename_i hno
      split
      · rename_i hjk
        subst hjk
        split
        · rename_i prevFields entry hv hentry
          exact absurd hentry (hno _ _ (Option.some.inj hv))
        · rfl
      · rfl
  rw [Fields.get_foldl_step hstep hprev]
  cases Fields.get id prev with
  | some v => rfl
  | none => rfl

theorem get_writtenLoop (hmanaged : Fields.Sorted managed) (id : String) :
    Fields.get id (managed.foldl (fun acc e => writeEntry acc e.1 e.2) current) =
      writtenValue (Fields.get id managed) (Fields.get id current) := by
  have hstep : ∀ acc j v k, Fields.get k (writeEntry acc j v) =
      if j = k then writtenValue (some v) (Fields.get j acc) else Fields.get k acc := by
    intro acc j v k
    unfold writeEntry writtenValue
    cases v with
    | obj fields => simp [Fields.get_insert]
    | _ =>
        by_cases hjk : j = k
        · simp [hjk]
        · simp [hjk]
  rw [Fields.get_foldl_step hstep hmanaged]
  cases Fields.get id managed with
  | some v => rfl
  | none => rfl

/-- What a render leaves under the key of a model. -/
theorem get_modelEntries (hmanaged : Json.WfFields managed) (hprev : Fields.Sorted prev)
    (hcurrent : Json.WfFields current) (id : String) :
    Fields.get id (modelEntries managed prev current) =
      modelEntry (Fields.get id managed) (Fields.get id prev) (Fields.get id current) := by
  have hpruned : Json.WfFields (prev.foldl (fun acc e => pruneEntry managed acc e.1 e.2) current) :=
    List.foldlRecOn prev _ hcurrent fun _ hacc e _ => wf_pruneEntry hacc e.1 e.2
  have hwritten := List.foldlRecOn (motive := Json.WfFields) managed
    (fun acc e => writeEntry acc e.1 e.2) hpruned
    fun _ hacc e he => wf_writeEntry hacc e.1 (hmanaged.values e he)
  have hkeys : ∀ {l : List (String × Json)}, decide (id ∈ Fields.keys l) =
      (Fields.get id l).isSome := by
    intro l
    cases hget : Fields.get id l with
    | none => simpa using fun h => Fields.mem_keys.mp h hget
    | some v => simpa using Fields.mem_keys.mpr (by simp [hget])
  unfold modelEntries modelEntry
  rw [Fields.get_filter hwritten.sorted, get_writtenLoop hmanaged.sorted, get_prunedLoop hprev]
  simp only [hkeys]

end

section

variable {now prev current : Option Json}

theorem fieldsOr_modelEntry : fieldsOr (modelEntry now prev current) =
    fieldsOr (writtenValue now (prunedValue now prev current)) := by
  unfold modelEntry
  cases hv : writtenValue now (prunedValue now prev current) with
  | none => rfl
  | some v =>
      by_cases hempty : v = .obj []
      · subst hempty
        simp only [Option.filter]
        split
        · rfl
        · rfl
      · simp [Option.filter, hempty]

theorem get_pruneFields {nowFields prevFields entry : List (String × Json)}
    (hprev : Fields.Sorted prevFields) (field : String) :
    Fields.get field (pruneFields nowFields prevFields entry) =
      if Fields.get field nowFields = none ∧ Fields.get field prevFields ≠ none ∧
        Fields.get field entry = Fields.get field prevFields then none
      else Fields.get field entry := by
  have hstep : ∀ acc j v k, Fields.get k (pruneField nowFields acc j v) =
      if j = k then
        if Fields.get j nowFields = none ∧ Fields.get j acc = some v then none
        else Fields.get j acc
      else Fields.get k acc := by
    intro acc j v k
    unfold pruneField
    by_cases hjk : j = k
    · subst hjk
      split
      · simp [Fields.get_erase]
      · simp
    · split
      · simp [Fields.get_erase, hjk]
      · simp
  rw [pruneFields, Fields.get_foldl_step (g := fun j v old =>
    if Fields.get j nowFields = none ∧ old = some v then none else old) hstep hprev]
  cases Fields.get field prevFields with
  | none => simp
  | some v => simp

theorem get_prunedValue (hprev : Fields.Sorted (fieldsOr prev)) (field : String) :
    Fields.get field (fieldsOr (prunedValue now prev current)) =
      if Fields.get field (fieldsOr now) = none ∧ Fields.get field (fieldsOr prev) ≠ none ∧
        Fields.get field (fieldsOr current) = Fields.get field (fieldsOr prev) then none
      else Fields.get field (fieldsOr current) := by
  unfold prunedValue
  split
  · exact get_pruneFields hprev field
  · rename_i hno
    -- One of the two has no fields.
    have hnone : Fields.get field (fieldsOr prev) = none ∨
        Fields.get field (fieldsOr current) = none := by
      cases hp : prev.bind Json.asObject? with
      | none => exact Or.inl (by simp [fieldsOr, hp])
      | some prevFields =>
          cases hc : current.bind Json.asObject? with
          | none => exact Or.inr (by simp [fieldsOr, hc])
          | some entry =>
              obtain ⟨p, rfl, hp⟩ := Option.bind_eq_some_iff.mp hp
              obtain ⟨c, rfl, hc⟩ := Option.bind_eq_some_iff.mp hc
              obtain rfl := Json.asObject?_eq_some.mp hp
              obtain rfl := Json.asObject?_eq_some.mp hc
              exact absurd rfl (hno _ _ rfl)
    rcases hnone with hnone | hnone
    · simp [hnone]
    · simp [hnone]

theorem get_writtenValue (hnow : Fields.Sorted (fieldsOr now)) (field : String) :
    Fields.get field (fieldsOr (writtenValue now current)) =
      (Fields.get field (fieldsOr now)).or (Fields.get field (fieldsOr current)) := by
  unfold writtenValue
  split
  · rename_i fields
    have hget := Fields.get_foldl_insert (f := fun _ _ v => v) (l := fields) hnow field
      (fieldsOr current)
    refine hget.trans ?_
    have hfields : fieldsOr (some (.obj fields)) = fields := rfl
    rw [hfields]
    cases Fields.get field fields with
    | none => rfl
    | some v => rfl
  · rename_i hno
    have hnil : fieldsOr now = [] := by
      cases now with
      | none => rfl
      | some v =>
          cases v with
          | obj fields => exact absurd rfl (hno fields)
          | _ => rfl
    rw [hnil]
    rfl

/-- What a render leaves under a field of the entry of a model. -/
theorem get_modelEntry (hnow : Fields.Sorted (fieldsOr now))
    (hprev : Fields.Sorted (fieldsOr prev)) (field : String) :
    Fields.get field (fieldsOr (modelEntry now prev current)) =
      (Fields.get field (fieldsOr now)).or
        (if Fields.get field (fieldsOr prev) ≠ none ∧
            Fields.get field (fieldsOr current) = Fields.get field (fieldsOr prev) then none
          else Fields.get field (fieldsOr current)) := by
  rw [fieldsOr_modelEntry, get_writtenValue hnow, get_prunedValue hprev]
  cases Fields.get field (fieldsOr now) with
  | none => simp
  | some v => rfl

/-- What is managed for a model: nothing, or texts. -/
inductive ManagedEntry : Option Json → Prop
  | none : ManagedEntry none
  | texts {fields : List (String × Json)} : Fields.Sorted fields →
      (∀ field v, Fields.get field fields = some v → ∃ s, v = .str s) →
      ManagedEntry (some (.obj fields))

theorem ManagedEntry.sorted (h : ManagedEntry now) : Fields.Sorted (fieldsOr now) := by
  cases h with
  | none => exact Fields.sorted_nil
  | texts hs _ => exact hs

theorem ManagedEntry.text (h : ManagedEntry now) {field : String} {v : Json}
    (hv : Fields.get field (fieldsOr now) = some v) : ∃ s, v = .str s := by
  cases h with
  | none => exact absurd hv (by simp [fieldsOr])
  | texts _ ht => exact ht field v hv

theorem sorted_modelEntry (hcurrent : Fields.Sorted (fieldsOr current)) :
    Fields.Sorted (fieldsOr (modelEntry now prev current)) := by
  have hpruned : Fields.Sorted (fieldsOr (prunedValue now prev current)) := by
    unfold prunedValue
    split
    · rename_i prevFields entry
      refine List.foldlRecOn prevFields _ hcurrent fun acc hacc f _ => ?_
      unfold pruneField
      split
      · exact Fields.sorted_erase hacc
      · exact hacc
    · exact hcurrent
  rw [fieldsOr_modelEntry]
  unfold writtenValue
  split
  · exact Fields.sorted_foldl_insert _ hpruned
  · exact hpruned

/-- No value that is there and is no object. -/
def ObjectOrNone (v : Option Json) : Prop := ∀ j, v = some j → ∃ fields, j = .obj fields

theorem objectOrNone_modelEntry (hcurrent : ObjectOrNone current) :
    ObjectOrNone (modelEntry now prev current) := by
  have hpruned : ObjectOrNone (prunedValue now prev current) := by
    unfold prunedValue
    split
    · exact fun j hj => ⟨_, (Option.some.inj hj).symm⟩
    · exact hcurrent
  intro j hj
  have hwritten := Option.eq_some_of_filter_eq_some hj
  unfold writtenValue at hwritten
  split at hwritten
  · exact ⟨_, (Option.some.inj hwritten).symm⟩
  · exact hpruned j hwritten

/-- An entry that llmenv has touched is there when it has a field. -/
theorem modelEntry_eq (hcurrent : ObjectOrNone current)
    (htouched : (prev.isSome ∨ now.isSome) ∨ current = none) :
    modelEntry now prev current =
      nonEmptyObject (.obj (fieldsOr (modelEntry now prev current))) := by
  cases hentry : modelEntry now prev current with
  | none => rfl
  | some v =>
      obtain ⟨fields, rfl⟩ := objectOrNone_modelEntry hcurrent v hentry
      cases fields with
      | cons f fields => rfl
      | nil =>
          obtain ⟨hwritten, hkeep⟩ := Option.filter_eq_some_iff.mp hentry
          simp only [decide_true, Bool.and_true, Bool.not_eq_eq_eq_not, Bool.not_true,
            Bool.or_eq_false_iff] at hkeep
          obtain rfl := Option.not_isSome_iff_eq_none.mp (by simp [hkeep.1] : ¬ prev.isSome = true)
          obtain rfl := Option.not_isSome_iff_eq_none.mp (by simp [hkeep.2] : ¬ now.isSome = true)
          obtain rfl := htouched.resolve_left (by simp)
          exact absurd hwritten (by simp [writtenValue, prunedValue])

theorem objectOrNone_none : ObjectOrNone none := fun j hj => absurd hj (by simp)

/-- A first render writes what is managed. -/
theorem get_modelEntry_first (hnow : ManagedEntry now) (field : String) :
    Fields.get field (fieldsOr (modelEntry now none none)) = Fields.get field (fieldsOr now) := by
  rw [get_modelEntry hnow.sorted ManagedEntry.none.sorted]
  have hnone : Fields.get field (fieldsOr none) = none := rfl
  simp [hnone]

/-- Over the entry of the previous render, or over nothing, it is the entry of a
first render. -/
theorem modelEntry_again (hnow : ManagedEntry now) (hprev : ManagedEntry prev)
    (hcurrent : current = none ∨ current = modelEntry prev none none) :
    modelEntry now prev current = modelEntry now none none := by
  have hobject : ObjectOrNone current := by
    rcases hcurrent with rfl | rfl
    · exact objectOrNone_none
    · exact objectOrNone_modelEntry objectOrNone_none
  have htouched : (prev.isSome ∨ now.isSome) ∨ current = none := by
    cases prev with
    | none =>
        rcases hcurrent with rfl | rfl
        · exact Or.inr rfl
        · exact Or.inr rfl
    | some v => exact Or.inl (Or.inl rfl)
  have hsorted : Fields.Sorted (fieldsOr current) := by
    rcases hcurrent with rfl | rfl
    · exact Fields.sorted_nil
    · exact sorted_modelEntry Fields.sorted_nil
  rw [modelEntry_eq hobject htouched, modelEntry_eq objectOrNone_none (Or.inr rfl)]
  congr 2
  refine Fields.eq_of_get (sorted_modelEntry hsorted) (sorted_modelEntry Fields.sorted_nil)
    fun field => ?_
  rw [get_modelEntry hnow.sorted hprev.sorted, get_modelEntry_first hnow]
  rcases hcurrent with rfl | rfl
  · have hnone : Fields.get field (fieldsOr none) = none := rfl
    simp [hnone]
  · rw [get_modelEntry_first hprev]
    cases Fields.get field (fieldsOr prev) with
    | none => simp
    | some v => simp

/-- No null under a field. -/
def CleanEntry (v : Json) : Prop :=
  v ≠ .null ∧ ∀ fields, v = .obj fields → Fields.Sorted fields ∧
    ∀ field w, Fields.get field fields = some w → w ≠ .null

/-- A text is overwritten. -/
theorem mergeValue_text {old : Option Json} (h : ∀ v, old = some v → ∃ s, v = .str s) {v : Json}
    (hv : v ≠ .null) : mergeValue old v = some (normalizeJson v) := by
  cases old with
  | none => simp [mergeValue, hv]
  | some w =>
      obtain ⟨s, rfl⟩ := h w rfl
      rw [mergeValue, mergeJson]
      all_goals simp

/-- A value that is no object takes the place of an entry. -/
theorem mergeValue_not_obj {old : Option Json} (hold : ObjectOrNone old) {v : Json}
    (hv : v.asObject? = none) (hnull : v ≠ .null) : mergeValue old v = some (normalizeJson v) := by
  cases old with
  | none => simp [mergeValue, hnull]
  | some w =>
      obtain ⟨fields, rfl⟩ := hold w rfl
      rw [mergeValue, mergeJson_obj_left hv]

/-- An entry that is no object stays, or gives way to the managed one. -/
theorem modelEntry_not_obj (hnow : ManagedEntry now) {v : Json} (hv : v.asObject? = none) :
    ObjectOrNone (modelEntry now prev (some v)) ∨ modelEntry now prev (some v) = some v := by
  have hpruned : prunedValue now prev (some v) = some v := by
    unfold prunedValue
    split
    · rename_i hentry
      exact absurd hv (by simp [Option.some.inj hentry, Json.asObject?])
    · rfl
  cases hnow with
  | none =>
      have hne : v ≠ .obj [] := by
        rintro rfl
        exact absurd hv (by simp [Json.asObject?])
      exact Or.inr (by simp [modelEntry, writtenValue, hpruned, Option.filter, hne])
  | texts _ _ =>
      refine Or.inl fun j hj => ?_
      exact ⟨_, (Option.some.inj (Option.eq_some_of_filter_eq_some hj)).symm⟩

/-- A field of the old entry is not there any more, or it is one of the old
fragment, which the new one absorbs. -/
theorem get_leftover (hprev : ManagedEntry prev) {v : Json} {new : List (String × Json)}
    (hv : CleanEntry v) (hnew : Fields.Sorted new) (h : Absorbs v (.obj new)) (field : String) :
    mergeOption (if Fields.get field (fieldsOr prev) ≠ none ∧
        Fields.get field (fieldsOr (mergeValue (modelEntry prev none none) v)) =
          Fields.get field (fieldsOr prev) then none
      else Fields.get field (fieldsOr (mergeValue (modelEntry prev none none) v)))
      (Fields.get field new) = mergeOption none (Fields.get field new) := by
  cases hobj : v.asObject? with
  | none =>
      have hnone : Fields.get field (fieldsOr (mergeValue (modelEntry prev none none) v)) =
          none := by
        rw [mergeValue_not_obj (objectOrNone_modelEntry objectOrNone_none) hobj hv.1]
        cases v with
        | obj fields => exact absurd hobj (by simp [Json.asObject?])
        | _ => rfl
      simp [hnone]
  | some old =>
      obtain rfl := Json.asObject?_eq_some.mp hobj
      obtain ⟨hold, hclean⟩ := hv.2 old rfl
      have hget : Fields.get field (fieldsOr (mergeValue (modelEntry prev none none) (.obj old))) =
          mergeOption (Fields.get field (fieldsOr prev)) (Fields.get field old) := by
        rw [mergeValue_obj hold, ← get_modelEntry_first hprev]
        exact get_mergeFields hold field _
      rw [hget]
      cases hx : Fields.get field old with
      | none =>
          cases Fields.get field (fieldsOr prev) with
          | none => rfl
          | some p => simp
      | some x =>
          have hnull := hclean field x hx
          obtain ⟨w, hw, hwnull, habsorbs⟩ := h.obj hold hnew hx hnull
          rw [mergeOption_some, mergeValue_text (fun p hp => hprev.text hp) hnull, hw]
          split
          · rfl
          · simp only [mergeOption_some, mergeValue, if_neg hwnull]
            rw [habsorbs]

/-- With a fragment over both, the entry of the previous render and its fragment
leave nothing, when the new fragment absorbs the old one. -/
theorem mergeValue_modelEntry (hnow : ManagedEntry now) (hprev : ManagedEntry prev) {v w : Json}
    (hv : CleanEntry v) (hw : CleanEntry w) (h : Absorbs v w) :
    mergeValue (modelEntry now prev (mergeValue (modelEntry prev none none) v)) w =
      mergeValue (modelEntry now none none) w := by
  have hfirst : ∀ {now : Option Json}, ObjectOrNone (modelEntry now none none) :=
    objectOrNone_modelEntry objectOrNone_none
  cases hobj : w.asObject? with
  | some new =>
      obtain rfl := Json.asObject?_eq_some.mp hobj
      obtain ⟨hnew, -⟩ := hw.2 new rfl
      have hcurrent : Fields.Sorted
          (fieldsOr (mergeValue (modelEntry prev none none) v)) := by
        cases hv' : v.asObject? with
        | none =>
            rw [mergeValue_not_obj hfirst hv' hv.1]
            cases v with
            | obj fields => exact absurd hv' (by simp [Json.asObject?])
            | _ => exact Fields.sorted_nil
        | some old =>
            obtain rfl := Json.asObject?_eq_some.mp hv'
            rw [mergeValue_obj (hv.2 old rfl).1]
            exact sorted_mergeFields (sorted_modelEntry Fields.sorted_nil)
      rw [mergeValue_obj hnew, mergeValue_obj hnew]
      congr 2
      refine Fields.eq_of_get (sorted_mergeFields (sorted_modelEntry hcurrent))
        (sorted_mergeFields (sorted_modelEntry Fields.sorted_nil)) fun field => ?_
      rw [get_mergeFields hnew, get_mergeFields hnew, get_modelEntry hnow.sorted hprev.sorted,
        get_modelEntry_first hnow]
      cases Fields.get field (fieldsOr now) with
      | some s => rfl
      | none => exact get_leftover hprev hv hnew h field
  | none =>
      rw [mergeValue_not_obj hfirst hobj hw.1]
      cases hv' : v.asObject? with
      | some old =>
          obtain rfl := Json.asObject?_eq_some.mp hv'
          refine mergeValue_not_obj (objectOrNone_modelEntry fun j hj => ?_) hobj hw.1
          rw [mergeValue_obj (hv.2 old rfl).1] at hj
          exact ⟨_, (Option.some.inj hj).symm⟩
      | none =>
          rw [mergeValue_not_obj hfirst hv' hv.1]
          have hnot : (normalizeJson v).asObject? = none := by
            cases v with
            | obj fields => exact absurd hv' (by simp [Json.asObject?])
            | _ => rfl
          rcases modelEntry_not_obj hnow hnot with hentry | hentry
          · exact mergeValue_not_obj hentry hobj hw.1
          · rw [hentry, mergeValue, h]

end

/-! ## A second render -/

/-- Managed entries for all models. -/
structure ManagedEntries (managed : List (String × Json)) : Prop where
  wf : Json.WfFields managed
  entry : ∀ id, ManagedEntry (Fields.get id managed)

/-- A fragment without a null under a model or a field. -/
def CleanSettings (v : Json) : Prop :=
  v ≠ .null ∧ ∀ fields, v = .obj fields → Json.WfFields fields ∧
    ∀ id w, Fields.get id fields = some w → CleanEntry w

theorem mem_of_mem_ofList {l : List (String × Json)} {f : String × Json}
    (h : f ∈ Fields.ofList l) : f ∈ l := by
  have hloop : ∀ g ∈ Fields.ofList l, g ∈ l := by
    refine List.foldlRecOn (motive := fun acc => ∀ g ∈ acc, g ∈ l) l _ (by simp)
      fun acc hacc e he g hg => ?_
    rcases Fields.mem_of_mem_insert hg with rfl | hg
    · exact he
    · exact hacc g hg
  exact hloop f h

theorem managedEntries_ok (caps : Capabilities) : ManagedEntries (managedEntries caps) := by
  refine ⟨wf_managedEntries caps, fun id => ?_⟩
  cases hget : Fields.get id (managedEntries caps) with
  | none => exact .none
  | some v =>
      have hmem := mem_of_mem_ofList (Fields.mem_of_get hget)
      rcases List.mem_append.mp hmem with hmem | hmem
      · split at hmem
        · rename_i level hlevel
          obtain ⟨_, -, heq⟩ := List.mem_map.mp hmem
          obtain rfl := (Prod.mk.inj heq).2
          refine .texts (List.pairwise_singleton _ _) fun field w hw => ?_
          obtain ⟨-, rfl⟩ := Prod.mk.inj (List.mem_singleton.mp (Fields.mem_of_get hw))
          exact ⟨level, rfl⟩
        · exact absurd hmem List.not_mem_nil
      · obtain ⟨e, -, heq⟩ := List.mem_map.mp hmem
        obtain rfl := (Prod.mk.inj heq).2
        refine .texts (sorted_insertSome (sorted_insertSome Fields.sorted_nil)) fun field w hw => ?_
        rw [get_insertSome, get_insertSome] at hw
        have htext : ∀ {o : Option String} {w : Json}, o.map Json.str = some w →
            ∃ s, w = .str s := by
          intro o w h
          obtain ⟨s, -, rfl⟩ := Option.map_eq_some_iff.mp h
          exact ⟨s, rfl⟩
        split at hw
        · rcases Option.or_eq_some_iff.mp hw with hw | ⟨-, hw⟩
          · exact htext hw
          · split at hw
            · exact htext ((Option.or_eq_some_iff.mp hw).resolve_right (by simp))
            · exact absurd hw (by simp)
        · split at hw
          · exact htext ((Option.or_eq_some_iff.mp hw).resolve_right (by simp))
          · exact absurd hw (by simp)

/-- Values of an object after the nulls are removed. -/
theorem stripFields_get {fields : List (String × Json)} {depth : Nat} {k : String} {v : Json}
    (h : Fields.get k (stripFields fields depth) = some v) :
    ∃ x, x ≠ .null ∧ v = stripJsonNullsDepth x depth := by
  have hmem := Fields.mem_of_get h
  rw [stripFields_eq] at hmem
  obtain ⟨f, hf, heq⟩ := List.mem_map.mp hmem
  obtain ⟨-, rfl⟩ := Prod.mk.inj heq
  exact ⟨f.2, by simpa using (List.mem_filter.mp hf).2, rfl⟩

theorem stripJsonNullsDepth_obj {x : Json} {depth : Nat} {fields : List (String × Json)}
    (hdepth : depth ≤ 64) (h : stripJsonNullsDepth x depth = .obj fields) :
    ∃ inner, fields = stripFields inner (depth + 1) := by
  cases x with
  | obj inner =>
      rw [stripJsonNullsDepth, if_neg (by omega)] at h
      exact ⟨inner, (Json.obj.inj h).symm⟩
  | arr items =>
      rw [stripJsonNullsDepth, if_neg (by omega)] at h
      exact absurd h (by simp)
  | _ => exact absurd h (by simp [stripJsonNullsDepth])

/-- A setting without nulls is a clean fragment. -/
theorem cleanSettings_strip {x : Json} (hwf : (stripJsonNullsDepth x 1).Wf) (hx : x ≠ .null) :
    CleanSettings (stripJsonNullsDepth x 1) := by
  refine ⟨by simpa using hx, fun fields hfields => ?_⟩
  obtain ⟨inner, rfl⟩ := stripJsonNullsDepth_obj (by decide) hfields
  rw [hfields] at hwf
  refine ⟨Json.wf_obj.mp hwf, fun id w hw => ?_⟩
  have hwWf := (Json.wf_obj.mp hwf).get hw
  obtain ⟨y, hy, rfl⟩ := stripFields_get hw
  refine ⟨by simpa using hy, fun entry hentry => ?_⟩
  obtain ⟨inner, rfl⟩ := stripJsonNullsDepth_obj (by decide) hentry
  rw [hentry] at hwWf
  refine ⟨(Json.wf_obj.mp hwWf).sorted, fun field z hz => ?_⟩
  obtain ⟨z', hz', rfl⟩ := stripFields_get hz
  simpa using hz'

section

variable {managed managed' : List (String × Json)}

theorem get_modelEntries_first (h : ManagedEntries managed) (id : String) :
    Fields.get id (modelEntries managed [] []) = modelEntry (Fields.get id managed) none none :=
  get_modelEntries h.wf Fields.sorted_nil .nil id

theorem fieldsOr_nonEmptyObject (entries : List (String × Json)) :
    fieldsOr (nonEmptyObject (.obj entries)) = entries := by
  cases entries with
  | nil => rfl
  | cons e entries => rfl

theorem getD_nonEmptyObject (entries : List (String × Json)) :
    (nonEmptyObject (.obj entries)).getD (.obj []) = .obj entries := by
  cases entries with
  | nil => rfl
  | cons e entries => rfl

/-- The value that a first render writes. -/
theorem modelValue_first (managed : List (String × Json)) (native : Option Json) :
    modelValue managed [] native none =
      match native with
      | some v => some (mergeJson (.obj (modelEntries managed [] [])) v)
      | none => nonEmptyObject (.obj (modelEntries managed [] [])) := by
  have hmerged : (if managed.isEmpty && ([] : List (String × Json)).isEmpty then none
      else nonEmptyObject (.obj (modelEntries managed [] (fieldsOr none)))) =
      nonEmptyObject (.obj (modelEntries managed [] [])) := by
    cases managed with
    | nil => rfl
    | cons e managed => rfl
  unfold modelValue
  simp only [hmerged]
  cases native with
  | none => rfl
  | some v => rw [getD_nonEmptyObject]

/-- Over the entries of the previous render the managed ones are those of a first
render. -/
theorem modelEntries_again (h : ManagedEntries managed) (h' : ManagedEntries managed') :
    modelEntries managed' managed (modelEntries managed [] []) = modelEntries managed' [] [] := by
  have hfirst : Json.WfFields (modelEntries managed [] []) := wf_modelEntries h.wf .nil
  refine Fields.eq_of_get (wf_modelEntries h'.wf hfirst).sorted
    (wf_modelEntries h'.wf .nil).sorted fun id => ?_
  rw [get_modelEntries h'.wf h.wf.sorted hfirst, get_modelEntries_first h',
    get_modelEntries_first h]
  exact modelEntry_again (h'.entry id) (h.entry id) (Or.inr rfl)

/-- The same with a fragment over both, when the new one absorbs the old one. -/
theorem mergeFields_modelEntries (h : ManagedEntries managed) (h' : ManagedEntries managed')
    {v : Json} (hv : CleanSettings v) {new : List (String × Json)} (hnew : CleanSettings (.obj new))
    (habsorbs : Absorbs v (.obj new)) :
    mergeFields (modelEntries managed' managed
        (fieldsOr (some (mergeJson (.obj (modelEntries managed [] [])) v)))) new =
      mergeFields (modelEntries managed' [] []) new := by
  have hfirst : Json.WfFields (modelEntries managed [] []) := wf_modelEntries h.wf .nil
  obtain ⟨hnewWf, hnewClean⟩ := hnew.2 new rfl
  -- What the folder has for a model.
  have hcurrent : Json.WfFields
      (fieldsOr (some (mergeJson (.obj (modelEntries managed [] [])) v))) ∧
      ∀ id, Fields.get id (fieldsOr (some (mergeJson (.obj (modelEntries managed [] [])) v))) =
        none ∨ ∃ old, v = .obj old ∧
          Fields.get id (fieldsOr (some (mergeJson (.obj (modelEntries managed [] [])) v))) =
            mergeOption (modelEntry (Fields.get id managed) none none) (Fields.get id old) := by
    cases hobj : v.asObject? with
    | none =>
        have hnil : fieldsOr (some (mergeJson (.obj (modelEntries managed [] [])) v)) = [] := by
          simp [fieldsOr, mergeJson_not_obj hobj]
        rw [hnil]
        exact ⟨.nil, fun id => Or.inl rfl⟩
    | some old =>
        obtain rfl := Json.asObject?_eq_some.mp hobj
        obtain ⟨holdWf, -⟩ := hv.2 old rfl
        have hwf := wf_mergeJson (Json.wf_obj.mpr hfirst) (Json.wf_obj.mpr holdWf)
        rw [mergeJson_obj] at hwf ⊢
        refine ⟨Json.wf_obj.mp hwf, fun id => Or.inr ⟨old, rfl, ?_⟩⟩
        rw [← get_modelEntries_first h]
        exact get_mergeFields holdWf.sorted id _
  obtain ⟨hcurrentWf, hget⟩ := hcurrent
  refine Fields.eq_of_get (sorted_mergeFields (wf_modelEntries h'.wf hcurrentWf).sorted)
    (sorted_mergeFields (wf_modelEntries h'.wf .nil).sorted) fun id => ?_
  rw [get_mergeFields hnewWf.sorted, get_mergeFields hnewWf.sorted,
    get_modelEntries h'.wf h.wf.sorted hcurrentWf, get_modelEntries_first h']
  rcases hget id with hnone | ⟨old, rfl, hold⟩
  · rw [hnone, modelEntry_again (h'.entry id) (h.entry id) (Or.inl rfl)]
  · obtain ⟨holdWf, holdClean⟩ := hv.2 old rfl
    rw [hold]
    cases hx : Fields.get id old with
    | none =>
        rw [mergeOption_none, modelEntry_again (h'.entry id) (h.entry id) (Or.inr rfl)]
    | some x =>
        have hclean := holdClean id x hx
        obtain ⟨w, hw, -, hxw⟩ := habsorbs.obj holdWf.sorted hnewWf.sorted hx hclean.1
        rw [hw]
        exact mergeValue_modelEntry (h'.entry id) (h.entry id) hclean (hnewClean id w hw) hxw

theorem mergeJson_nil {v : Json} (hv : CleanSettings v) :
    mergeJson (.obj []) v = normalizeJson v := by
  cases hobj : v.asObject? with
  | none => exact mergeJson_obj_left hobj
  | some fields =>
      obtain rfl := Json.asObject?_eq_some.mp hobj
      rw [mergeJson_obj, mergeFields_nil_left (hv.2 fields rfl).1.sorted, normalizeJson]

/-- A second render writes the value that it would write alone, when the fragment
of the first one is not there or is absorbed. -/
theorem modelValue_again (h : ManagedEntries managed) (h' : ManagedEntries managed')
    {native native' : Option Json}
    (hnative : ∀ v, native = some v → CleanSettings v ∧
      ∃ w, native' = some w ∧ CleanSettings w ∧ Absorbs v w) :
    modelValue managed' managed native' (modelValue managed [] native none) =
      modelValue managed' [] native' none := by
  rw [modelValue_first, modelValue_first]
  cases native with
  | none =>
      -- The entries that are there are those of the previous render.
      have hmerged : (if managed'.isEmpty && managed.isEmpty then
            nonEmptyObject (.obj (modelEntries managed [] []))
          else nonEmptyObject (.obj (modelEntries managed' managed
            (fieldsOr (nonEmptyObject (.obj (modelEntries managed [] []))))))) =
          nonEmptyObject (.obj (modelEntries managed' [] [])) := by
        rw [fieldsOr_nonEmptyObject, modelEntries_again h h']
        split
        · rename_i hempty
          simp only [Bool.and_eq_true, List.isEmpty_iff] at hempty
          rw [hempty.1, hempty.2]
        · rfl
      simp only [modelValue, hmerged]
      cases native' with
      | none => rfl
      | some w => rw [getD_nonEmptyObject]
  | some v =>
      obtain ⟨hv, w, rfl, hw, habsorbs⟩ := hnative v rfl
      simp only [modelValue]
      split
      · rename_i hempty
        simp only [Bool.and_eq_true, List.isEmpty_iff] at hempty
        obtain ⟨rfl, rfl⟩ := hempty
        have hnil : modelEntries [] [] [] = [] := rfl
        rw [hnil, mergeJson_nil hv, mergeJson_nil hw, Option.getD_some, habsorbs]
      · rw [getD_nonEmptyObject]
        cases hobj : w.asObject? with
        | none => rw [mergeJson_obj_left hobj, mergeJson_obj_left hobj]
        | some new =>
            obtain rfl := Json.asObject?_eq_some.mp hobj
            rw [mergeJson_obj, mergeJson_obj, mergeFields_modelEntries h h' hv hw habsorbs]

end

end Llmenv.Adapter
