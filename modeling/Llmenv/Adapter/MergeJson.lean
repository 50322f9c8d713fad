/-
# `Llmenv.Adapter.MergeJson` — the deep merge of engine configs

`merge_json` and `normalize_json` of the `llmenv-util` crate, and
`strip_json_nulls`.  Every overlay of a `native` fragment on a rendered config
is a `merge_json`, and every file is written after a `strip_json_nulls`.

What a merge does to an object is said once, key by key (`get_mergeFields`):
a key of one side keeps its value, a shared key recurses, and a null never
makes a new key.
-/
import Llmenv.Lib.Json
import Llmenv.Adapter.Tools

namespace Llmenv.Adapter

open Llmenv.Lib

/-! ## The code -/

mutual
/-- Drop equal elements of every array and null-valued keys of every object. -/
def normalizeJson : Json → Json
  | .arr items => .arr (dedup (normalizeItems items))
  | .obj fields => .obj (normalizeFields fields)
  | value => value

def normalizeItems : List Json → List Json
  | [] => []
  | item :: items => normalizeJson item :: normalizeItems items

def normalizeFields : List (String × Json) → List (String × Json)
  | [] => []
  | (k, v) :: fields =>
      if v = .null then normalizeFields fields else (k, normalizeJson v) :: normalizeFields fields
end

mutual
/-- Deep-merge `src` into `dst`: objects key by key, arrays one after the other,
anything else is overwritten. -/
def mergeJson : Json → Json → Json
  | .obj dst, .obj src => .obj (mergeFields dst src)
  | .arr dst, .arr src => .arr (dedup (normalizeItems (dst ++ src)))
  | _, src => normalizeJson src

/-- The loop of `merge_json` over the fields of `src`. -/
def mergeFields (dst : List (String × Json)) : List (String × Json) → List (String × Json)
  | [] => dst
  | (k, v) :: src =>
      match Fields.get k dst with
      | some existing => mergeFields (Fields.insert k (mergeJson existing v) dst) src
      | none =>
          if normalizeJson v = .null then mergeFields dst src
          else mergeFields (Fields.insert k (normalizeJson v) dst) src
end

mutual
/-- Remove the null-valued keys of every object down to 64 levels. -/
def stripJsonNullsDepth : Json → Nat → Json
  | .arr items, depth => if 64 < depth then .arr items else .arr (stripItems items (depth + 1))
  | .obj fields, depth => if 64 < depth then .obj fields else .obj (stripFields fields (depth + 1))
  | value, _ => value

def stripItems : List Json → Nat → List Json
  | [], _ => []
  | item :: items, depth => stripJsonNullsDepth item depth :: stripItems items depth

def stripFields : List (String × Json) → Nat → List (String × Json)
  | [], _ => []
  | (k, v) :: fields, depth =>
      if v = .null then stripFields fields depth
      else (k, stripJsonNullsDepth v depth) :: stripFields fields depth
end

def stripJsonNulls (value : Json) : Json := stripJsonNullsDepth value 0

example : mergeJson (.obj [("a", .arr [.num (.int 1)]), ("b", .str "x")])
    (.obj [("a", .arr [.num (.int 1), .num (.int 2)]), ("b", .null), ("c", .null)]) =
    .obj [("a", .arr [.num (.int 1), .num (.int 2)]), ("b", .null)] := by decide

/-! ## Normal forms -/

theorem normalizeItems_eq_map (items : List Json) :
    normalizeItems items = items.map normalizeJson := by
  induction items with
  | nil => rfl
  | cons item items ih => rw [normalizeItems, ih, List.map_cons]

theorem normalizeFields_eq (fields : List (String × Json)) :
    normalizeFields fields =
      Fields.mapValues normalizeJson (fields.filter (fun f => f.2 ≠ .null)) := by
  induction fields with
  | nil => rfl
  | cons f fields ih =>
      obtain ⟨k, v⟩ := f
      rw [normalizeFields, ih]
      by_cases hv : v = .null
      · simp [hv]
      · simp [hv, Fields.mapValues]

@[simp] theorem normalizeJson_eq_null {j : Json} : normalizeJson j = .null ↔ j = .null := by
  cases j <;> simp [normalizeJson]

theorem get_normalizeFields {fields : List (String × Json)} (h : Fields.Sorted fields)
    (k : String) :
    Fields.get k (normalizeFields fields) =
      (Fields.get k fields).bind (fun v => if v = .null then none else some (normalizeJson v)) := by
  rw [normalizeFields_eq, Fields.get_mapValues, Fields.get_filter h]
  cases Fields.get k fields with
  | none => rfl
  | some v => by_cases hv : v = .null <;> simp [hv, Option.filter]

/-- No array has an element twice, and no object has a null-valued key. -/
inductive Normal : Json → Prop
  | null : Normal .null
  | bool (b : Bool) : Normal (.bool b)
  | num (n : Number) : Normal (.num n)
  | str (s : String) : Normal (.str s)
  | arr {items : List Json} : items.Nodup → (∀ j ∈ items, Normal j) → Normal (.arr items)
  | obj {fields : List (String × Json)} : (∀ f ∈ fields, f.2 ≠ .null) →
      (∀ f ∈ fields, Normal f.2) → Normal (.obj fields)

theorem normal_normalizeJson (j : Json) : Normal (normalizeJson j) := by
  induction j using Json.induct with
  | null => exact .null
  | bool b => exact .bool b
  | num n => exact .num n
  | str s => exact .str s
  | arr items ih =>
      refine .arr (nodup_dedup _) fun j hj => ?_
      rw [mem_dedup, normalizeItems_eq_map] at hj
      obtain ⟨i, hi, rfl⟩ := List.mem_map.mp hj
      exact ih i hi
  | obj fields ih =>
      have hmem : ∀ f ∈ normalizeFields fields,
          ∃ g ∈ fields, g.2 ≠ .null ∧ f = (g.1, normalizeJson g.2) := by
        intro f hf
        rw [normalizeFields_eq] at hf
        obtain ⟨g, hg, rfl⟩ := List.mem_map.mp hf
        obtain ⟨hg, hnull⟩ := List.mem_filter.mp hg
        exact ⟨g, hg, by simpa using hnull, rfl⟩
      refine .obj (fun f hf => ?_) (fun f hf => ?_)
      · obtain ⟨g, -, hnull, rfl⟩ := hmem f hf
        simpa using hnull
      · obtain ⟨g, hg, -, rfl⟩ := hmem f hf
        exact ih g hg

theorem normalizeJson_of_normal {j : Json} (h : Normal j) : normalizeJson j = j := by
  induction j using Json.induct with
  | arr items ih =>
      cases h with
      | arr hnodup hitems =>
          have hmap : normalizeItems items = items := by
            rw [normalizeItems_eq_map]
            exact (List.map_congr_left fun i hi => ih i hi (hitems i hi)).trans (List.map_id items)
          rw [normalizeJson, hmap, dedup_of_nodup hnodup]
  | obj fields ih =>
      cases h with
      | obj hnull hvalues =>
          have hfields : normalizeFields fields = fields := by
            rw [normalizeFields_eq, List.filter_eq_self.mpr fun f hf => by simpa using hnull f hf]
            refine (List.map_congr_left fun f hf => ?_).trans (List.map_id fields)
            exact Prod.ext rfl (ih f hf (hvalues f hf))
          rw [normalizeJson, hfields]
  | _ => rfl

theorem map_normalizeJson_of_normal {items : List Json} (h : ∀ j ∈ items, Normal j) :
    items.map normalizeJson = items :=
  (List.map_congr_left fun j hj => normalizeJson_of_normal (h j hj)).trans (List.map_id items)

theorem wf_normalizeJson {j : Json} (h : j.Wf) : (normalizeJson j).Wf := by
  induction j using Json.induct with
  | arr items ih =>
      rw [normalizeJson, Json.wf_arr, normalizeItems_eq_map]
      intro i hi
      rw [mem_dedup] at hi
      obtain ⟨x, hx, rfl⟩ := List.mem_map.mp hi
      exact ih x hx (Json.wf_arr.mp h x hx)
  | obj fields ih =>
      have hfields := Json.wf_obj.mp h
      rw [normalizeJson, Json.wf_obj, normalizeFields_eq]
      refine ⟨Fields.sorted_mapValues (Fields.sorted_filter hfields.sorted), fun f hf => ?_⟩
      obtain ⟨g, hg, rfl⟩ := List.mem_map.mp hf
      have hg := List.mem_of_mem_filter hg
      exact ih g hg (hfields.values g hg)
  | _ => exact h

/-! ## Merging, key by key -/

/-- What a merge leaves under a key: `v` is the value of the source. -/
def mergeValue : Option Json → Json → Option Json
  | some existing, v => some (mergeJson existing v)
  | none, v => if v = .null then none else some (normalizeJson v)

/-- The same where the source may have nothing. -/
def mergeOption (old : Option Json) : Option Json → Option Json
  | none => old
  | some v => mergeValue old v

@[simp] theorem mergeOption_none (old : Option Json) : mergeOption old none = old := rfl

@[simp] theorem mergeOption_some (old : Option Json) (v : Json) :
    mergeOption old (some v) = mergeValue old v := rfl

/-- One round of the loop over the fields of the source. -/
theorem mergeFields_cons (dst : List (String × Json)) (k : String) (v : Json)
    (src : List (String × Json)) :
    ∃ next, mergeFields dst ((k, v) :: src) = mergeFields next src ∧
      (∀ j, Fields.get j next =
        if k = j then mergeValue (Fields.get k dst) v else Fields.get j dst) ∧
      (next = dst ∨ ∃ w, (w = normalizeJson v ∨ ∃ e, Fields.get k dst = some e ∧ w = mergeJson e v) ∧
        next = Fields.insert k w dst) := by
  simp only [mergeFields]
  cases hget : Fields.get k dst with
  | some existing =>
      refine ⟨_, rfl, fun j => ?_, Or.inr ⟨_, Or.inr ⟨existing, rfl, rfl⟩, rfl⟩⟩
      rw [Fields.get_insert]
      rfl
  | none =>
      simp only [normalizeJson_eq_null]
      by_cases hv : v = .null
      · refine ⟨dst, by simp [hv], fun j => ?_, Or.inl rfl⟩
        by_cases hj : k = j
        · simp [hj ▸ hget, hj, mergeValue, hv]
        · simp [hj]
      · refine ⟨Fields.insert k (normalizeJson v) dst, by simp [hv], fun j => ?_,
          Or.inr ⟨_, Or.inl rfl, rfl⟩⟩
        simp [Fields.get_insert, mergeValue, hv]

/-- What a merge does to an object. -/
theorem get_mergeFields {src : List (String × Json)} (hsrc : Fields.Sorted src) (k : String) :
    ∀ dst, Fields.get k (mergeFields dst src) =
      mergeOption (Fields.get k dst) (Fields.get k src) := by
  induction src with
  | nil =>
      intro dst
      rw [mergeFields]
      rfl
  | cons f src ih =>
      intro dst
      obtain ⟨hlt, hrest⟩ := Fields.sorted_cons.mp hsrc
      obtain ⟨j, v⟩ := f
      obtain ⟨next, hnext, hget, -⟩ := mergeFields_cons dst j v src
      rw [hnext, ih hrest, Fields.get_cons, hget k]
      by_cases hj : j = k
      · -- The keys of the source are all different.
        have hnone : Fields.get k src = none :=
          Fields.get_eq_none.mpr fun e he => hj ▸ (hlt e he).ne'
        simp [hj, hnone]
      · simp [hj]

theorem sorted_mergeFields {src : List (String × Json)} :
    ∀ {dst : List (String × Json)}, Fields.Sorted dst → Fields.Sorted (mergeFields dst src) := by
  induction src with
  | nil =>
      intro dst hdst
      rwa [mergeFields]
  | cons f src ih =>
      intro dst hdst
      obtain ⟨k, v⟩ := f
      obtain ⟨next, hnext, -, rfl | ⟨w, -, rfl⟩⟩ := mergeFields_cons dst k v src
      · rw [hnext]
        exact ih hdst
      · rw [hnext]
        exact ih (Fields.sorted_insert hdst)

theorem mergeJson_obj (dst src : List (String × Json)) :
    mergeJson (.obj dst) (.obj src) = .obj (mergeFields dst src) := by
  rw [mergeJson]

theorem get?_mergeJson_obj {dst src : List (String × Json)} (hsrc : Fields.Sorted src)
    (k : String) :
    (mergeJson (.obj dst) (.obj src)).get? k =
      mergeOption (Fields.get k dst) (Fields.get k src) := by
  rw [mergeJson_obj, Json.get?_obj, get_mergeFields hsrc]

/-- A source that is no object replaces what was there, and leaves no object. -/
theorem mergeJson_not_obj {dst src : Json} (h : src.asObject? = none) :
    (mergeJson dst src).asObject? = none := by
  cases src with
  | obj fields => exact absurd h (by simp [Json.asObject?])
  | arr items =>
      cases dst with
      | arr old =>
          rw [mergeJson]
          rfl
      | _ =>
          rw [mergeJson]
          · rfl
          all_goals simp
  | _ =>
      rw [mergeJson]
      · rfl
      all_goals simp

theorem wf_mergeFields {src : List (String × Json)}
    (ih : ∀ f ∈ src, ∀ e : Json, e.Wf → f.2.Wf → (mergeJson e f.2).Wf)
    (hsrc : Json.WfFields src) :
    ∀ {dst : List (String × Json)}, Json.WfFields dst → Json.WfFields (mergeFields dst src) := by
  induction src with
  | nil =>
      intro dst hdst
      rwa [mergeFields]
  | cons f src ihsrc =>
      intro dst hdst
      obtain ⟨hf, hrest⟩ := List.forall_mem_cons.mp ih
      obtain ⟨k, v⟩ := f
      have hv : v.Wf := hsrc.values _ List.mem_cons_self
      obtain ⟨next, hnext, -, hshape⟩ := mergeFields_cons dst k v src
      rw [hnext]
      refine ihsrc hrest hsrc.tail ?_
      rcases hshape with rfl | ⟨w, hw, rfl⟩
      · exact hdst
      · refine hdst.insert ?_
        rcases hw with rfl | ⟨e, he, rfl⟩
        · exact wf_normalizeJson hv
        · exact hf e (hdst.get he) hv

theorem wf_mergeJson {dst src : Json} (hdst : dst.Wf) (hsrc : src.Wf) : (mergeJson dst src).Wf := by
  induction src using Json.induct generalizing dst with
  | arr items ih =>
      cases dst with
      | arr old =>
          rw [mergeJson, ← normalizeJson]
          refine wf_normalizeJson (Json.wf_arr.mpr fun j hj => ?_)
          rcases List.mem_append.mp hj with hj | hj
          · exact Json.wf_arr.mp hdst j hj
          · exact Json.wf_arr.mp hsrc j hj
      | _ =>
          rw [mergeJson]
          · exact wf_normalizeJson hsrc
          all_goals simp
  | obj fields ih =>
      cases dst with
      | obj old =>
          rw [mergeJson_obj, Json.wf_obj]
          exact wf_mergeFields (fun f hf e he hv => ih f hf he hv) (Json.wf_obj.mp hsrc)
            (Json.wf_obj.mp hdst)
      | _ =>
          rw [mergeJson]
          · exact wf_normalizeJson hsrc
          all_goals simp
  | _ =>
      rw [mergeJson]
      · exact wf_normalizeJson hsrc
      all_goals simp

/-! ## What a later merge hides -/

/-- Merging `new` over `old` leaves what `new` alone does. -/
def Absorbs (old new : Json) : Prop := mergeJson (normalizeJson old) new = normalizeJson new

instance (old new : Json) : Decidable (Absorbs old new) := inferInstanceAs (Decidable (_ = _))

/-- The fields of an object, none of another value. -/
def fieldsOr (v : Option Json) : List (String × Json) := (v.bind Json.asObject?).getD []

theorem sorted_normalizeFields {fields : List (String × Json)} (h : Fields.Sorted fields) :
    Fields.Sorted (normalizeFields fields) := by
  rw [normalizeFields_eq]
  exact Fields.sorted_mapValues (Fields.sorted_filter h)

theorem mergeFields_nil_left {src : List (String × Json)} (h : Fields.Sorted src) :
    mergeFields [] src = normalizeFields src := by
  refine Fields.eq_of_get (sorted_mergeFields Fields.sorted_nil) (sorted_normalizeFields h)
    fun k => ?_
  rw [get_mergeFields h, get_normalizeFields h]
  cases Fields.get k src with
  | none => rfl
  | some v => rfl

/-- An object is merged into the fields that are there. -/
theorem mergeValue_obj {src : List (String × Json)} (h : Fields.Sorted src) (old : Option Json) :
    mergeValue old (.obj src) = some (.obj (mergeFields (fieldsOr old) src)) := by
  have hnew : normalizeJson (.obj src) = .obj (mergeFields [] src) := by
    rw [normalizeJson, mergeFields_nil_left h]
  cases old with
  | none => simp [mergeValue, fieldsOr, hnew]
  | some v =>
      cases v with
      | obj dst => simp [mergeValue, mergeJson_obj, fieldsOr, Json.asObject?]
      | _ =>
          rw [mergeValue, mergeJson, hnew]
          · rfl
          all_goals simp

/-- Unless both sides are objects or both are arrays, the source takes the place of
what was there. -/
theorem mergeJson_replace {dst src : Json} (hobj : dst.asObject? = none ∨ src.asObject? = none)
    (harr : dst.asArray? = none ∨ src.asArray? = none) : mergeJson dst src = normalizeJson src := by
  rw [mergeJson]
  · rintro dst' src' rfl rfl
    exact absurd hobj (by simp [Json.asObject?])
  · rintro dst' src' rfl rfl
    exact absurd harr (by simp [Json.asArray?])

theorem mergeJson_obj_left {dst : List (String × Json)} {src : Json} (h : src.asObject? = none) :
    mergeJson (.obj dst) src = normalizeJson src := mergeJson_replace (Or.inr h) (Or.inl rfl)

theorem Absorbs.obj {old new : List (String × Json)} (h : Absorbs (.obj old) (.obj new))
    (hold : Fields.Sorted old) (hnew : Fields.Sorted new) {k : String} {v : Json}
    (hv : Fields.get k old = some v) (hnull : v ≠ .null) :
    ∃ w, Fields.get k new = some w ∧ w ≠ .null ∧ Absorbs v w := by
  simp only [Absorbs, normalizeJson, mergeJson_obj, Json.obj.injEq] at h
  have hget := congrArg (Fields.get k) h
  rw [get_mergeFields hnew, get_normalizeFields hold, get_normalizeFields hnew, hv,
    Option.bind_some, if_neg hnull] at hget
  cases hw : Fields.get k new with
  | none => exact absurd (hw ▸ hget) (by simp)
  | some w =>
      rw [hw] at hget
      by_cases hwnull : w = .null
      · exact absurd hget (by simp [mergeValue, hwnull])
      · simp only [mergeOption_some, mergeValue, Option.bind_some, if_neg hwnull,
          Option.some.injEq] at hget
        exact ⟨w, rfl, hwnull, hget⟩

/-! ## Removing nulls -/

theorem stripItems_eq_map (items : List Json) (depth : Nat) :
    stripItems items depth = items.map (fun i => stripJsonNullsDepth i depth) := by
  induction items with
  | nil => rfl
  | cons item items ih => rw [stripItems, ih, List.map_cons]

theorem stripFields_eq (fields : List (String × Json)) (depth : Nat) :
    stripFields fields depth =
      Fields.mapValues (fun v => stripJsonNullsDepth v depth)
        (fields.filter (fun f => f.2 ≠ .null)) := by
  induction fields with
  | nil => rfl
  | cons f fields ih =>
      obtain ⟨k, v⟩ := f
      rw [stripFields, ih]
      by_cases hv : v = .null
      · simp [hv]
      · simp [hv, Fields.mapValues]

theorem get_stripFields {fields : List (String × Json)} (h : Fields.Sorted fields) (k : String)
    (depth : Nat) :
    Fields.get k (stripFields fields depth) =
      (Fields.get k fields).bind
        (fun v => if v = .null then none else some (stripJsonNullsDepth v depth)) := by
  rw [stripFields_eq, Fields.get_mapValues, Fields.get_filter h]
  cases Fields.get k fields with
  | none => rfl
  | some v => by_cases hv : v = .null <;> simp [hv, Option.filter]

theorem stripJsonNulls_obj (fields : List (String × Json)) :
    stripJsonNulls (.obj fields) = .obj (stripFields fields 1) := by
  simp [stripJsonNulls, stripJsonNullsDepth]

@[simp] theorem stripJsonNullsDepth_eq_null {j : Json} {depth : Nat} :
    stripJsonNullsDepth j depth = .null ↔ j = .null := by
  cases j with
  | arr items =>
      rw [stripJsonNullsDepth]
      split <;> simp
  | obj fields =>
      rw [stripJsonNullsDepth]
      split <;> simp
  | _ => simp [stripJsonNullsDepth]

/-- A second walk over the fields meets the values that the removal left. -/
theorem mapValues_stripFields {g k : Json → Json} {fields : List (String × Json)} {depth : Nat}
    (hg : ∀ f ∈ fields, g (stripJsonNullsDepth f.2 depth) = k f.2) :
    Fields.mapValues g ((stripFields fields depth).filter (fun f => f.2 ≠ .null)) =
      Fields.mapValues k (fields.filter (fun f => f.2 ≠ .null)) := by
  have hnulls : ∀ f ∈ stripFields fields depth, decide (f.2 ≠ .null) = true := by
    intro f hf
    rw [stripFields_eq] at hf
    obtain ⟨x, hx, rfl⟩ := List.mem_map.mp hf
    simpa using (List.mem_filter.mp hx).2
  rw [List.filter_eq_self.mpr hnulls, stripFields_eq, Fields.mapValues, Fields.mapValues,
    List.map_map]
  refine List.map_congr_left fun f hf => ?_
  exact Prod.ext rfl (hg f (List.mem_of_mem_filter hf))

/-- No object has a null-valued key, at any depth. -/
inductive NoNulls : Json → Prop
  | null : NoNulls .null
  | bool (b : Bool) : NoNulls (.bool b)
  | num (n : Number) : NoNulls (.num n)
  | str (s : String) : NoNulls (.str s)
  | arr {items : List Json} : (∀ j ∈ items, NoNulls j) → NoNulls (.arr items)
  | obj {fields : List (String × Json)} : (∀ f ∈ fields, f.2 ≠ .null) →
      (∀ f ∈ fields, NoNulls f.2) → NoNulls (.obj fields)

theorem Normal.noNulls {j : Json} (h : Normal j) : NoNulls j := by
  induction h with
  | null => exact .null
  | bool b => exact .bool b
  | num n => exact .num n
  | str s => exact .str s
  | arr _ _ ih => exact .arr ih
  | obj hnull _ ih => exact .obj hnull ih

/-- There is nothing to remove. -/
theorem stripJsonNullsDepth_of_noNulls {j : Json} (h : NoNulls j) (depth : Nat) :
    stripJsonNullsDepth j depth = j := by
  induction j using Json.induct generalizing depth with
  | arr items ih =>
      cases h with
      | arr hitems =>
          rw [stripJsonNullsDepth, stripItems_eq_map,
            (List.map_congr_left fun i hi => ih i hi (hitems i hi) _).trans (List.map_id items)]
          split <;> rfl
  | obj fields ih =>
      cases h with
      | obj hnull hvalues =>
          have hfields : stripFields fields (depth + 1) = fields := by
            rw [stripFields_eq, List.filter_eq_self.mpr fun f hf => by simpa using hnull f hf]
            refine (List.map_congr_left fun f hf => ?_).trans (List.map_id fields)
            exact Prod.ext rfl (ih f hf (hvalues f hf) _)
          rw [stripJsonNullsDepth, hfields]
          split <;> rfl
  | _ => simp [stripJsonNullsDepth]

theorem stripJsonNullsDepth_of_normal {j : Json} (h : Normal j) (depth : Nat) :
    stripJsonNullsDepth j depth = j := stripJsonNullsDepth_of_noNulls h.noNulls depth

/-- Removing nulls twice is removing them once. -/
theorem stripJsonNullsDepth_again (j : Json) (depth : Nat) :
    stripJsonNullsDepth (stripJsonNullsDepth j depth) depth = stripJsonNullsDepth j depth := by
  induction j using Json.induct generalizing depth with
  | arr items ih =>
      rw [stripJsonNullsDepth]
      split
      · rename_i hdepth
        rw [stripJsonNullsDepth, if_pos hdepth]
      · rename_i hdepth
        rw [stripJsonNullsDepth, if_neg hdepth, stripItems_eq_map, stripItems_eq_map, List.map_map]
        exact congrArg Json.arr (List.map_congr_left fun i hi => ih i hi _)
  | obj fields ih =>
      have hfields : ∀ d, stripFields (stripFields fields d) d = stripFields fields d := by
        intro d
        have hvalues := mapValues_stripFields (g := fun v => stripJsonNullsDepth v d)
          (k := fun v => stripJsonNullsDepth v d) fun f hf => ih f hf d
        rw [stripFields_eq (stripFields fields d), hvalues, ← stripFields_eq]
      rw [stripJsonNullsDepth]
      split
      · rename_i hdepth
        rw [stripJsonNullsDepth, if_pos hdepth]
      · rename_i hdepth
        rw [stripJsonNullsDepth, if_neg hdepth, hfields]
  | _ => simp [stripJsonNullsDepth]

/-- A normal form does not depend on the nulls that were removed before. -/
theorem normalizeJson_strip (j : Json) (depth : Nat) :
    normalizeJson (stripJsonNullsDepth j depth) = normalizeJson j := by
  induction j using Json.induct generalizing depth with
  | arr items ih =>
      rw [stripJsonNullsDepth]
      split
      · rfl
      · rw [normalizeJson, normalizeJson, normalizeItems_eq_map, normalizeItems_eq_map,
          stripItems_eq_map, List.map_map]
        exact congrArg (fun l => Json.arr (dedup l)) (List.map_congr_left fun i hi => ih i hi _)
  | obj fields ih =>
      have hfields : ∀ d, normalizeFields (stripFields fields d) = normalizeFields fields := by
        intro d
        rw [normalizeFields_eq, mapValues_stripFields fun f hf => ih f hf d, ← normalizeFields_eq]
      rw [stripJsonNullsDepth]
      split
      · rfl
      · rw [normalizeJson, normalizeJson, hfields]
  | _ => simp [stripJsonNullsDepth]

theorem normalizeJson_again (j : Json) : normalizeJson (normalizeJson j) = normalizeJson j :=
  normalizeJson_of_normal (normal_normalizeJson j)

theorem wf_stripJsonNullsDepth {j : Json} (h : j.Wf) (depth : Nat) :
    (stripJsonNullsDepth j depth).Wf := by
  induction j using Json.induct generalizing depth with
  | arr items ih =>
      rw [stripJsonNullsDepth, stripItems_eq_map]
      split
      · exact h
      · rw [Json.wf_arr]
        intro i hi
        obtain ⟨x, hx, rfl⟩ := List.mem_map.mp hi
        exact ih x hx (Json.wf_arr.mp h x hx) _
  | obj fields ih =>
      have hfields := Json.wf_obj.mp h
      rw [stripJsonNullsDepth, stripFields_eq]
      split
      · exact h
      · rw [Json.wf_obj]
        refine ⟨Fields.sorted_mapValues (Fields.sorted_filter hfields.sorted), fun f hf => ?_⟩
        obtain ⟨g, hg, rfl⟩ := List.mem_map.mp hf
        have hg := List.mem_of_mem_filter hg
        exact ih g hg (hfields.values g hg) _
  | _ => simpa [stripJsonNullsDepth] using h

end Llmenv.Adapter
