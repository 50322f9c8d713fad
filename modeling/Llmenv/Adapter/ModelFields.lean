/-
# `Llmenv.Adapter.ModelFields` — whose is a field of `modelSettings`?

Three maps meet: what llmenv manages now, what it wrote before, and what is on
disk.  Each field is decided by its own three values (`get_modelField`): the
managed value wins, a value that llmenv wrote and no one changed goes, any other
stays.  A model without a field is removed when llmenv had a hand in it.

Merging the same managed entries again, as what was written before, changes
nothing (`mergeModelSettings_again`).
-/
import Llmenv.Adapter.ModelSettings

namespace Llmenv.Adapter

open Llmenv.Lib

/-- What a map of entries has under a field of a model. -/
def fieldOf (entries : List (String × Json)) (id field : String) : Option Json :=
  (Fields.get id entries).bind (Json.get? field)

/-- What settings have for a model. -/
def modelAt (settings : Json) (id : String) : Option Json :=
  (settings.get? "modelSettings").bind (Json.get? id)

def modelField (settings : Json) (id field : String) : Option Json :=
  (modelAt settings id).bind (Json.get? field)

/-- Every entry is an object. -/
def ObjectEntries (entries : List (String × Json)) : Prop :=
  ∀ e ∈ entries, ∃ fields, e.2 = .obj fields

/-! ## One model -/

section

variable {now prev current : Option Json}

theorem bind_get?_eq (v : Option Json) (k : String) :
    v.bind (Json.get? k) = Fields.get k (fieldsOr v) := by
  cases v with
  | none => rfl
  | some v => cases v <;> rfl

/-- Without a hand in it llmenv leaves a model alone. -/
theorem modelEntry_untouched (current : Option Json) : modelEntry none none current = current := by
  cases current <;> rfl

theorem modelEntry_idem (hnow : ObjectOrNone now) (hnowSorted : Fields.Sorted (fieldsOr now))
    (hprev : Fields.Sorted (fieldsOr prev)) (hcurrent : ObjectOrNone current)
    (hcurrentSorted : Fields.Sorted (fieldsOr current)) :
    modelEntry now now (modelEntry now prev current) = modelEntry now prev current := by
  cases now with
  | none => exact modelEntry_untouched _
  | some v =>
      have hfirst : ObjectOrNone (modelEntry (some v) prev current) :=
        objectOrNone_modelEntry hcurrent
      have hsorted : Fields.Sorted (fieldsOr (modelEntry (some v) prev current)) :=
        sorted_modelEntry hcurrentSorted
      have htouched : ((some v).isSome ∨ (some v).isSome) ∨
          modelEntry (some v) prev current = none := Or.inl (Or.inl rfl)
      rw [modelEntry_eq hfirst htouched]
      conv_rhs => rw [modelEntry_eq hcurrent (Or.inl (Or.inr rfl))]
      congr 2
      refine Fields.eq_of_get (sorted_modelEntry hsorted) hsorted fun field => ?_
      rw [get_modelEntry hnowSorted hnowSorted, get_modelEntry hnowSorted hprev]
      cases Fields.get field (fieldsOr (some v)) with
      | some w => rfl
      | none => simp

end

/-! ## All models -/

section

variable {settings managed prev : List (String × Json)}

theorem objectOrNone_get {entries : List (String × Json)} (h : ObjectEntries entries) (id : String) :
    ObjectOrNone (Fields.get id entries) :=
  fun _ hj => h _ (Fields.mem_of_get hj)

/-- What a merge leaves of a model. -/
theorem get_modelAt (hsettings : Json.WfFields settings) (hmanaged : Json.WfFields managed)
    (hprev : Json.WfFields prev) (id : String) :
    modelAt (.obj (mergeModelSettings settings managed prev)) id =
      modelEntry (Fields.get id managed) (Fields.get id prev) (modelAt (.obj settings) id) := by
  have hcurrent : Json.WfFields (fieldsOr (Fields.get "modelSettings" settings)) :=
    hsettings.objectAt _
  have hnonEmpty : ∀ entries : List (String × Json),
      (nonEmptyObject (.obj entries)).bind (Json.get? id) = Fields.get id entries := by
    intro entries
    rw [bind_get?_eq, fieldsOr_nonEmptyObject]
  unfold modelAt
  rw [Json.get?_obj, Json.get?_obj, get_mergeModelSettings, if_pos rfl,
    bind_get?_eq (Fields.get "modelSettings" settings)]
  simp only [modelValue]
  split
  · rename_i hempty
    simp only [Bool.and_eq_true, List.isEmpty_iff] at hempty
    rw [hempty.1, hempty.2, bind_get?_eq]
    exact (modelEntry_untouched _).symm
  · rw [hnonEmpty, get_modelEntries hmanaged hprev.sorted hcurrent]

/-- What a merge makes of `settings`, field by field. -/
structure FieldwiseMerge (managed prev settings settings' : List (String × Json)) : Prop where
  lands : ∀ id field v, fieldOf managed id field = some v →
    modelField (.obj settings') id field = some v
  /-- A value that llmenv wrote before and that is still there goes. -/
  dropped : ∀ id field v, fieldOf managed id field = none → fieldOf prev id field = some v →
    modelField (.obj settings) id field = some v → modelField (.obj settings') id field = none
  kept : ∀ id field, fieldOf managed id field = none →
    (∀ v, fieldOf prev id field = some v → modelField (.obj settings) id field ≠ some v) →
    modelField (.obj settings') id field = modelField (.obj settings) id field
  emptied : ∀ id, id ∈ Fields.keys prev ∨ id ∈ Fields.keys managed →
    (∀ field, modelField (.obj settings') id field = none) → modelAt (.obj settings') id = none
  others : ∀ id, id ∉ Fields.keys prev → id ∉ Fields.keys managed →
    modelAt (.obj settings') id = modelAt (.obj settings) id
  again : mergeModelSettings settings' managed managed = settings'

/-- What a merge leaves of a field. -/
theorem get_modelField (hsettings : Json.WfFields settings) (hmanaged : Json.WfFields managed)
    (hprev : Json.WfFields prev) (id field : String) :
    modelField (.obj (mergeModelSettings settings managed prev)) id field =
      (fieldOf managed id field).or
        (if fieldOf prev id field ≠ none ∧
            modelField (.obj settings) id field = fieldOf prev id field then none
          else modelField (.obj settings) id field) := by
  unfold modelField fieldOf
  rw [get_modelAt hsettings hmanaged hprev]
  simp only [bind_get?_eq]
  exact get_modelEntry (hmanaged.objectAt id).sorted (hprev.objectAt id).sorted field

/-- The managed entries merged once more, over what a merge has left. -/
theorem modelEntries_idem {current : List (String × Json)} (hmanaged : Json.WfFields managed)
    (hmanagedObjects : ObjectEntries managed) (hprev : Json.WfFields prev)
    (hcurrent : Json.WfFields current) (hcurrentObjects : ObjectEntries current) :
    modelEntries managed managed (modelEntries managed prev current) =
      modelEntries managed prev current := by
  have hfirst : Json.WfFields (modelEntries managed prev current) :=
    wf_modelEntries hmanaged hcurrent
  refine Fields.eq_of_get (wf_modelEntries hmanaged hfirst).sorted hfirst.sorted fun id => ?_
  rw [get_modelEntries hmanaged hmanaged.sorted hfirst,
    get_modelEntries hmanaged hprev.sorted hcurrent]
  exact modelEntry_idem (objectOrNone_get hmanagedObjects id) (hmanaged.objectAt id).sorted
    (hprev.objectAt id).sorted (objectOrNone_get hcurrentObjects id) (hcurrent.objectAt id).sorted

theorem mergeModelSettings_again (hsettings : Json.WfFields settings)
    (hmanaged : Json.WfFields managed) (hmanagedObjects : ObjectEntries managed)
    (hprev : Json.WfFields prev)
    (hobjects : ObjectEntries (fieldsOr (Fields.get "modelSettings" settings))) :
    mergeModelSettings (mergeModelSettings settings managed prev) managed managed =
      mergeModelSettings settings managed prev := by
  have hfirst : Json.WfFields (mergeModelSettings settings managed prev) :=
    wf_mergeModelSettings hsettings hmanaged
  have hcurrent : Json.WfFields (fieldsOr (Fields.get "modelSettings" settings)) :=
    hsettings.objectAt _
  refine Fields.eq_of_get (wf_mergeModelSettings hfirst hmanaged).sorted hfirst.sorted fun k => ?_
  rw [get_mergeModelSettings]
  split
  · rename_i hk
    subst hk
    rw [get_mergeModelSettings, if_pos rfl]
    simp only [modelValue]
    cases managed with
    | nil => rfl
    | cons e rest =>
        simp only [List.isEmpty_cons, Bool.false_and, Bool.false_eq_true, if_false]
        rw [fieldsOr_nonEmptyObject,
          modelEntries_idem hmanaged hmanagedObjects hprev hcurrent hobjects]
  · rfl

theorem fieldwiseMerge (hsettings : Json.WfFields settings) (hmanaged : Json.WfFields managed)
    (hmanagedObjects : ObjectEntries managed) (hprev : Json.WfFields prev)
    (hobjects : ObjectEntries (fieldsOr (Fields.get "modelSettings" settings))) :
    FieldwiseMerge managed prev settings (mergeModelSettings settings managed prev) := by
  have hfield := get_modelField hsettings hmanaged hprev
  have hmodel := get_modelAt hsettings hmanaged hprev
  refine ⟨fun id field v hv => ?_, fun id field v hnow hv hdisk => ?_,
    fun id field hnow hchanged => ?_, fun id htouched hempty => ?_, fun id hnot hnot' => ?_,
    mergeModelSettings_again hsettings hmanaged hmanagedObjects hprev hobjects⟩
  · rw [hfield, hv, Option.some_or]
  · rw [hfield, hnow, hv, hdisk]
    simp
  · rw [hfield, hnow, Option.none_or, if_neg]
    rintro ⟨hwrote, hsame⟩
    obtain ⟨v, hv⟩ := Option.ne_none_iff_exists'.mp hwrote
    exact hchanged v hv (hsame.trans hv)
  · have hcurrent : ObjectOrNone (modelAt (.obj settings) id) := by
      rw [modelAt, Json.get?_obj, bind_get?_eq]
      exact objectOrNone_get hobjects id
    have hsome : (Fields.get id prev).isSome ∨ (Fields.get id managed).isSome := by
      simpa only [Fields.mem_keys, Option.isSome_iff_ne_none] using htouched
    have hnil : fieldsOr (modelAt (.obj (mergeModelSettings settings managed prev)) id) = [] := by
      refine List.eq_nil_iff_forall_not_mem.mpr fun f hf => ?_
      have hnone := hempty f.1
      rw [modelField, bind_get?_eq] at hnone
      exact Fields.get_eq_none.mp hnone f hf rfl
    rw [hmodel] at hnil ⊢
    rw [modelEntry_eq hcurrent (Or.inl hsome), hnil]
    rfl
  · rw [hmodel, not_not.mp (Fields.mem_keys.not.mp hnot), not_not.mp (Fields.mem_keys.not.mp hnot'),
      modelEntry_untouched]

end

end Llmenv.Adapter
