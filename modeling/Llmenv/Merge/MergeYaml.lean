/-
# `Llmenv.Merge.MergeYaml` — the deep merge of YAML values

`merge_yaml` and `normalize_yaml` of the `llmenv-util` crate, the copies of
`merge_json` and `normalize_json` for the fragments as they are written.  A YAML
mapping keeps its entries in the order of their insertion, its keys can be of
any kind, and two mappings are equal whatever their order.

On the values that JSON can represent the two copies are one function: the
conversion of a merge is the merge of the conversions (`mergeYaml_toJson`).
Nothing else has to be proved for it than that the conversion keeps equality
(`eqv_iff`), since both sides drop repeated elements and null values alike.
-/
import Mathlib.Data.List.Perm.Subperm
import Llmenv.Adapter.MergeJson
import Llmenv.Lib.Yaml

namespace Llmenv.Merge

open Llmenv.Lib Llmenv.Adapter

/-! ## The code -/

/-- The entries of a mapping, in the order of their insertion. -/
abbrev Entries := List (Yaml × Yaml)

mutual
/-- `PartialEq` of values: mappings are equal when they have equal values under equal keys. -/
def eqv : Yaml → Yaml → Bool
  | .null, .null => true
  | .bool a, .bool b => a == b
  | .num a, .num b => a == b
  | .str a, .str b => a == b
  | .seq as, .seq bs => eqvItems as bs
  | .map as, .map bs => as.length == bs.length && subEntries as bs
  | .tagged s a, .tagged t b => s == t && eqv a b
  | _, _ => false

def eqvItems : List Yaml → List Yaml → Bool
  | [], [] => true
  | a :: as, b :: bs => eqv a b && eqvItems as bs
  | _, _ => false

def subEntries : List (Yaml × Yaml) → List (Yaml × Yaml) → Bool
  | [], _ => true
  | (k, v) :: as, bs => bs.any (fun e => eqv k e.1 && eqv v e.2) && subEntries as bs
end

/-- `dedup`: an element that equals an earlier one goes. -/
def dedupYamlFrom (kept : List Yaml) : List Yaml → List Yaml
  | [] => kept
  | y :: ys =>
      if kept.any (eqv y) then dedupYamlFrom kept ys else dedupYamlFrom (kept ++ [y]) ys

def dedupYaml (items : List Yaml) : List Yaml := dedupYamlFrom [] items

def isNull : Yaml → Bool
  | .null => true
  | _ => false

/-- `Mapping::get_mut`. -/
def getEntry (k : Yaml) : Entries → Option Yaml
  | [] => none
  | (j, v) :: rest => if eqv k j then some v else getEntry k rest

/-- Change the value under a key that is there. -/
def setEntry (k v : Yaml) : Entries → Entries
  | [] => []
  | (j, old) :: rest => if eqv k j then (j, v) :: rest else (j, old) :: setEntry k v rest

mutual
/-- Drop equal elements of every sequence and null-valued keys of every mapping. -/
def normalizeYaml : Yaml → Yaml
  | .seq items => .seq (dedupYaml (normalizeYamlItems items))
  | .map entries => .map (normalizeEntries entries)
  | value => value

def normalizeYamlItems : List Yaml → List Yaml
  | [] => []
  | item :: items => normalizeYaml item :: normalizeYamlItems items

def normalizeEntries : List (Yaml × Yaml) → List (Yaml × Yaml)
  | [] => []
  | (k, v) :: entries =>
      if isNull v then normalizeEntries entries
      else (k, normalizeYaml v) :: normalizeEntries entries
end

mutual
/-- Deep-merge `src` into `dst`: mappings key by key, sequences one after the other, anything
else is overwritten. -/
def mergeYaml : Yaml → Yaml → Yaml
  | .map dst, .map src => .map (mergeEntries dst src)
  | .seq dst, .seq src => .seq (dedupYaml (normalizeYamlItems (dst ++ src)))
  | _, src => normalizeYaml src

/-- The loop of `merge_yaml` over the entries of `src`. -/
def mergeEntries (dst : List (Yaml × Yaml)) : List (Yaml × Yaml) → List (Yaml × Yaml)
  | [] => dst
  | (k, v) :: src =>
      match getEntry k dst with
      | some existing => mergeEntries (setEntry k (mergeYaml existing v) dst) src
      | none =>
          if isNull (normalizeYaml v) then mergeEntries dst src
          else mergeEntries (dst ++ [(k, normalizeYaml v)]) src
end

example : mergeYaml
    (.map [(.str "b", .seq [.bool true]), (.str "a", .str "x")])
    (.map [(.str "c", .null), (.str "b", .seq [.null, .bool true])]) =
    .map [(.str "b", .seq [.bool true, .null]), (.str "a", .str "x")] := by rfl

/-! ## Values that JSON can represent -/

/-- The entries with string keys. -/
def stringEntries (fields : List (String × Yaml)) : Entries := fields.map fun f => (.str f.1, f.2)

@[simp] theorem stringEntries_nil : stringEntries [] = [] := rfl

@[simp] theorem stringEntries_cons (k : String) (v : Yaml) (fields : List (String × Yaml)) :
    stringEntries ((k, v) :: fields) = (.str k, v) :: stringEntries fields := rfl

/-- String keys, each of them once, finite numbers and no tags. -/
inductive Representable : Yaml → Prop
  | null : Representable .null
  | bool (b : Bool) : Representable (.bool b)
  | num (n : Number) : Representable (.num (.finite n))
  | str (s : String) : Representable (.str s)
  | seq {items : List Yaml} : (∀ y ∈ items, Representable y) → Representable (.seq items)
  | map {fields : List (String × Yaml)} : (Fields.keys fields).Nodup →
      (∀ f ∈ fields, Representable f.2) → Representable (.map (stringEntries fields))

/-- What the conversion gives, where it gives something. -/
def asJson (y : Yaml) : Json := (y.toJson.toOption).getD .null

/-- The fields of the converted mapping. -/
def asFields (fields : List (String × Yaml)) : List (String × Json) :=
  Fields.ofList (Fields.mapValues asJson fields)

theorem itemsToJson_of_ok {items : List Yaml} (h : ∀ y ∈ items, y.toJson = .ok (asJson y)) :
    Yaml.itemsToJson items = .ok (items.map asJson) := by
  induction items with
  | nil => rfl
  | cons y items ih =>
      obtain ⟨hy, hrest⟩ := List.forall_mem_cons.mp h
      rw [Yaml.itemsToJson, hy, ih hrest]
      rfl

theorem entriesToJson_of_ok {fields : List (String × Yaml)}
    (h : ∀ f ∈ fields, f.2.toJson = .ok (asJson f.2)) (acc : List (String × Json)) :
    Yaml.entriesToJson (stringEntries fields) acc =
      .ok ((Fields.mapValues asJson fields).foldl (fun acc e => Fields.insert e.1 e.2 acc) acc) := by
  induction fields generalizing acc with
  | nil => rfl
  | cons f fields ih =>
      obtain ⟨k, v⟩ := f
      obtain ⟨hv, hrest⟩ := List.forall_mem_cons.mp h
      have hv : v.toJson = .ok (asJson v) := hv
      rw [stringEntries_cons, Yaml.entriesToJson, hv]
      show Yaml.entriesToJson (stringEntries fields) (Fields.insert k (asJson v) acc) = _
      rw [ih hrest]
      rfl

theorem toJson_asJson {y : Yaml} {j : Json} (h : y.toJson = .ok j) : y.toJson = .ok (asJson y) := by
  rw [asJson, h]
  rfl

/-- A representable value is converted. -/
theorem toJson_of_representable {y : Yaml} (h : Representable y) : y.toJson = .ok (asJson y) := by
  induction h with
  | null => rfl
  | bool b => rfl
  | num n => rfl
  | str s => rfl
  | @seq items hitems ih =>
      apply toJson_asJson (j := .arr (items.map asJson))
      rw [Yaml.toJson, itemsToJson_of_ok ih]
      rfl
  | @map fields hkeys hvalues ih =>
      apply toJson_asJson (j := .obj (asFields fields))
      rw [Yaml.toJson, entriesToJson_of_ok ih]
      rfl

theorem asJson_seq {items : List Yaml} (h : ∀ y ∈ items, Representable y) :
    asJson (.seq items) = .arr (items.map asJson) := by
  rw [asJson, Yaml.toJson, itemsToJson_of_ok fun y hy => toJson_of_representable (h y hy)]
  rfl

theorem asJson_map {fields : List (String × Yaml)} (h : ∀ f ∈ fields, Representable f.2) :
    asJson (.map (stringEntries fields)) = .obj (asFields fields) := by
  rw [asJson, Yaml.toJson, entriesToJson_of_ok fun f hf => toJson_of_representable (h f hf)]
  rfl

/-- What the converted mapping has under a key. -/
theorem get_asFields {fields : List (String × Yaml)} (h : (Fields.keys fields).Nodup) (k : String) :
    Fields.get k (asFields fields) = (Fields.get k fields).map asJson := by
  rw [asFields, Fields.get_ofList (by rwa [Fields.keys_mapValues]), Fields.get_mapValues]

theorem sorted_asFields (fields : List (String × Yaml)) : Fields.Sorted (asFields fields) :=
  Fields.sorted_ofList _

/-! ## The conversion keeps equality -/

theorem eqvItems_iff {as : List Yaml}
    (ih : ∀ a ∈ as, ∀ b, Representable b → (eqv a b = true ↔ asJson a = asJson b)) :
    ∀ {bs : List Yaml}, (∀ b ∈ bs, Representable b) →
      (eqvItems as bs = true ↔ as.map asJson = bs.map asJson) := by
  induction as with
  | nil =>
      intro bs _
      cases bs <;> simp [eqvItems]
  | cons a as iha =>
      intro bs hbs
      obtain ⟨ha, has⟩ := List.forall_mem_cons.mp ih
      cases bs with
      | nil => simp [eqvItems]
      | cons b bs =>
          obtain ⟨hb, hbs⟩ := List.forall_mem_cons.mp hbs
          simp [eqvItems, ha b hb, iha has hbs]

/-- An entry with the key `k` is the one that a look-up finds. -/
theorem any_stringEntries {bs : List (String × Yaml)} (hb : (Fields.keys bs).Nodup) (k : String)
    (p : Yaml → Bool) :
    (stringEntries bs).any (fun e => eqv (.str k) e.1 && p e.2) = true ↔
      ∃ b, Fields.get k bs = some b ∧ p b = true := by
  constructor
  · intro h
    obtain ⟨e, he, heq⟩ := List.any_eq_true.mp h
    obtain ⟨f, hf, rfl⟩ := List.mem_map.mp he
    obtain ⟨hk, hp⟩ := Bool.and_eq_true_iff.mp heq
    have hk : k = f.1 := by simpa [eqv] using hk
    subst hk
    exact ⟨f.2, Fields.get_of_mem_nodup hb hf, hp⟩
  · rintro ⟨b, hget, hp⟩
    refine List.any_eq_true.mpr ⟨(.str k, b), ?_, by simpa [eqv] using hp⟩
    exact List.mem_map.mpr ⟨(k, b), Fields.mem_of_get hget, rfl⟩

/-- Every entry has its equal on the other side. -/
theorem subEntries_iff {as bs : List (String × Yaml)}
    (ih : ∀ f ∈ as, ∀ b, Representable b → (eqv f.2 b = true ↔ asJson f.2 = asJson b))
    (hb : (Fields.keys bs).Nodup) (hbs : ∀ f ∈ bs, Representable f.2) :
    subEntries (stringEntries as) (stringEntries bs) = true ↔
      ∀ f ∈ as, Fields.get f.1 (asFields bs) = some (asJson f.2) := by
  induction as with
  | nil => simp [subEntries]
  | cons f as iha =>
      obtain ⟨k, v⟩ := f
      obtain ⟨hv, has⟩ := List.forall_mem_cons.mp ih
      rw [stringEntries_cons, subEntries, Bool.and_eq_true, iha has, List.forall_mem_cons,
        any_stringEntries hb, get_asFields hb, Option.map_eq_some_iff]
      refine and_congr_left fun _ => exists_congr fun b => and_congr_right fun hget => ?_
      rw [hv b (hbs _ (Fields.mem_of_get hget))]
      exact eq_comm

/-- As many entries on both sides, and each of the one on the other: the same object. -/
theorem asFields_eq_iff {as bs : List (String × Yaml)} (ha : (Fields.keys as).Nodup)
    (hb : (Fields.keys bs).Nodup) :
    asFields as = asFields bs ↔ as.length = bs.length ∧
      ∀ f ∈ as, Fields.get f.1 (asFields bs) = some (asJson f.2) := by
  have hown : ∀ f ∈ as, Fields.get f.1 (asFields as) = some (asJson f.2) := by
    intro f hf
    rw [get_asFields ha, Fields.get_of_mem_nodup ha hf]
    rfl
  have hkeys : ∀ {l : List (String × Yaml)}, (Fields.keys l).Nodup → ∀ k,
      k ∈ Fields.keys l ↔ Fields.get k (asFields l) ≠ none := by
    intro l hl k
    rw [get_asFields hl, Fields.mem_keys]
    simp
  have hlength : ∀ l : List (String × Yaml), (Fields.keys l).length = l.length := by
    intro l
    simp [Fields.keys]
  constructor
  · intro heq
    have hperm : (Fields.keys as).Perm (Fields.keys bs) := by
      refine (List.perm_ext_iff_of_nodup ha hb).mpr fun k => ?_
      rw [hkeys ha, hkeys hb, heq]
    refine ⟨?_, fun f hf => heq ▸ hown f hf⟩
    rw [← hlength as, ← hlength bs]
    exact hperm.length_eq
  · rintro ⟨hlen, hsub⟩
    have hsubset : Fields.keys as ⊆ Fields.keys bs := by
      intro k hk
      obtain ⟨f, hf, rfl⟩ := List.mem_map.mp hk
      rw [hkeys hb, hsub f hf]
      simp
    have hperm : (Fields.keys as).Perm (Fields.keys bs) := by
      refine (List.subperm_of_subset ha hsubset).perm_of_length_le ?_
      rw [hlength, hlength, hlen]
    refine Fields.eq_of_get (sorted_asFields as) (sorted_asFields bs) fun k => ?_
    by_cases hk : k ∈ Fields.keys as
    · obtain ⟨f, hf, rfl⟩ := List.mem_map.mp hk
      rw [hown f hf, hsub f hf]
    · have hnone : Fields.get k (asFields as) = none := by
        by_contra hne
        exact hk ((hkeys ha k).mpr hne)
      rw [hnone]
      by_contra hne
      exact hk (hperm.mem_iff.mpr ((hkeys hb k).mpr (Ne.symm hne)))

@[simp] theorem asJson_null : asJson .null = .null := rfl
@[simp] theorem asJson_bool (b : Bool) : asJson (.bool b) = .bool b := rfl
@[simp] theorem asJson_num (n : Number) : asJson (.num (.finite n)) = .num n := rfl
@[simp] theorem asJson_str (s : String) : asJson (.str s) = .str s := rfl

/-- Two representable values are equal exactly when their conversions are. -/
theorem eqv_iff {a b : Yaml} (ha : Representable a) (hb : Representable b) :
    eqv a b = true ↔ asJson a = asJson b := by
  induction ha generalizing b with
  | @seq items hitems ih =>
      rw [asJson_seq hitems]
      cases hb with
      | seq hb =>
          rw [asJson_seq hb, eqv, eqvItems_iff (fun a ha b hb => ih a ha hb) hb]
          simp
      | map _ hb => simp [eqv, asJson_map hb]
      | _ => simp [eqv]
  | @map fields hkeys hvalues ih =>
      rw [asJson_map hvalues]
      cases hb with
      | seq hb => simp [eqv, asJson_seq hb]
      | map hb hbs =>
          rw [asJson_map hbs, eqv, Bool.and_eq_true,
            subEntries_iff (fun f hf b hb => ih f hf hb) hb hbs, Json.obj.injEq,
            asFields_eq_iff hkeys hb]
          simp [stringEntries]
      | _ => simp [eqv]
  | _ =>
      cases hb with
      | seq hb => simp [eqv, asJson_seq hb]
      | map _ hb => simp [eqv, asJson_map hb]
      | _ => simp [eqv]

theorem dedupYamlFrom_asJson {items : List Yaml} (hitems : ∀ y ∈ items, Representable y)
    {kept : List Yaml} (hkept : ∀ y ∈ kept, Representable y) :
    (dedupYamlFrom kept items).map asJson = dedupFrom (kept.map asJson) (items.map asJson) ∧
      ∀ y ∈ dedupYamlFrom kept items, Representable y := by
  induction items generalizing kept with
  | nil => exact ⟨rfl, hkept⟩
  | cons y items ih =>
      obtain ⟨hy, hrest⟩ := List.forall_mem_cons.mp hitems
      have hmem : kept.any (eqv y) = true ↔ asJson y ∈ kept.map asJson := by
        rw [List.any_eq_true, List.mem_map]
        refine exists_congr fun z => and_congr_right fun hz => ?_
        rw [eqv_iff hy (hkept z hz)]
        exact eq_comm
      rw [dedupYamlFrom, List.map_cons, dedupFrom]
      by_cases hin : kept.any (eqv y) = true
      · rw [if_pos hin, if_pos (hmem.mp hin)]
        exact ih hrest hkept
      · rw [if_neg hin, if_neg fun h => hin (hmem.mpr h)]
        have hkept' : ∀ z ∈ kept ++ [y], Representable z := by
          intro z hz
          rcases List.mem_append.mp hz with hz | hz
          · exact hkept z hz
          · exact List.mem_singleton.mp hz ▸ hy
        have hih := ih hrest hkept'
        rw [List.map_append] at hih
        exact hih

/-! ## Normalising -/

theorem normalizeYamlItems_eq_map (items : List Yaml) :
    normalizeYamlItems items = items.map normalizeYaml := by
  induction items with
  | nil => rfl
  | cons item items ih => rw [normalizeYamlItems, ih, List.map_cons]

theorem normalizeEntries_eq (entries : Entries) :
    normalizeEntries entries =
      (entries.filter fun e => !isNull e.2).map fun e => (e.1, normalizeYaml e.2) := by
  induction entries with
  | nil => rfl
  | cons e entries ih =>
      obtain ⟨k, v⟩ := e
      rw [normalizeEntries, ih]
      cases hv : isNull v with
      | true => simp [hv]
      | false => simp [hv]

theorem normalizeEntries_stringEntries (fields : List (String × Yaml)) :
    normalizeEntries (stringEntries fields) =
      stringEntries (Fields.mapValues normalizeYaml (fields.filter fun f => !isNull f.2)) := by
  simp [normalizeEntries_eq, stringEntries, Fields.mapValues, List.filter_map, Function.comp_def]

theorem isNull_iff {y : Yaml} (h : Representable y) : isNull y = true ↔ asJson y = .null := by
  cases h with
  | seq h => simp [isNull, asJson_seq h]
  | map _ h => simp [isNull, asJson_map h]
  | _ => simp [isNull]

theorem dedupYaml_asJson {items : List Yaml} (h : ∀ y ∈ items, Representable y) :
    (dedupYaml items).map asJson = dedup (items.map asJson) ∧
      ∀ y ∈ dedupYaml items, Representable y := dedupYamlFrom_asJson h (by simp)

/-- Sequences are normalised alike when their elements are. -/
theorem normalizeItems_asJson {items : List Yaml}
    (h : ∀ y ∈ items, Representable (normalizeYaml y) ∧
      asJson (normalizeYaml y) = normalizeJson (asJson y)) :
    Representable (.seq (dedupYaml (normalizeYamlItems items))) ∧
      asJson (.seq (dedupYaml (normalizeYamlItems items))) =
        .arr (dedup (normalizeItems (items.map asJson))) := by
  have hitems : ∀ y ∈ items.map normalizeYaml, Representable y := by
    intro y hy
    obtain ⟨x, hx, rfl⟩ := List.mem_map.mp hy
    exact (h x hx).1
  have hmap : (items.map normalizeYaml).map asJson = (items.map asJson).map normalizeJson := by
    rw [List.map_map, List.map_map]
    exact List.map_congr_left fun y hy => (h y hy).2
  obtain ⟨hdedup, hrep⟩ := dedupYaml_asJson hitems
  rw [normalizeYamlItems_eq_map, normalizeItems_eq_map]
  refine ⟨.seq hrep, ?_⟩
  rw [asJson_seq hrep, hdedup, hmap]

/-- The two copies of the normalisation are one function. -/
theorem normalizeYaml_asJson {y : Yaml} (h : Representable y) :
    Representable (normalizeYaml y) ∧ asJson (normalizeYaml y) = normalizeJson (asJson y) := by
  induction h with
  | null => exact ⟨.null, rfl⟩
  | bool b => exact ⟨.bool b, rfl⟩
  | num n => exact ⟨.num n, rfl⟩
  | str s => exact ⟨.str s, rfl⟩
  | @seq items hitems ih =>
      rw [normalizeYaml, asJson_seq hitems, normalizeJson]
      exact normalizeItems_asJson ih
  | @map fields hkeys hvalues ih =>
      have hrest : (Fields.keys (Fields.mapValues normalizeYaml
          (fields.filter fun f => !isNull f.2))).Nodup := by
        rw [Fields.keys_mapValues]
        exact hkeys.sublist (List.filter_sublist.map Prod.fst)
      have hrep : ∀ f ∈ Fields.mapValues normalizeYaml (fields.filter fun f => !isNull f.2),
          Representable f.2 := by
        intro f hf
        obtain ⟨g, hg, rfl⟩ := List.mem_map.mp hf
        exact (ih g (List.mem_of_mem_filter hg)).1
      rw [normalizeYaml, normalizeEntries_stringEntries]
      refine ⟨.map hrest hrep, ?_⟩
      rw [asJson_map hrep, asJson_map hvalues, normalizeJson, Json.obj.injEq]
      refine Fields.eq_of_get (sorted_asFields _) (sorted_normalizeFields (sorted_asFields _))
        fun k => ?_
      rw [get_asFields hrest, Fields.get_mapValues, Fields.get_filter_nodup hkeys,
        get_normalizeFields (sorted_asFields _), get_asFields hkeys]
      cases hv : Fields.get k fields with
      | none => rfl
      | some v =>
          have hmem := Fields.mem_of_get hv
          by_cases hnull : isNull v = true
          · simp [hnull, Option.filter, (isNull_iff (hvalues _ hmem)).mp hnull]
          · have hne : asJson v ≠ .null := fun h => hnull ((isNull_iff (hvalues _ hmem)).mpr h)
            simp [hnull, Option.filter, hne, (ih _ hmem).2]

/-! ## Merging -/

theorem getEntry_stringEntries (k : String) (fields : List (String × Yaml)) :
    getEntry (.str k) (stringEntries fields) = Fields.get k fields := by
  induction fields with
  | nil => rfl
  | cons f fields ih =>
      obtain ⟨j, v⟩ := f
      rw [stringEntries_cons, getEntry, ih, Fields.get_cons]
      by_cases hj : j = k
      · simp [hj, eqv]
      · have hkj : k ≠ j := fun h => hj h.symm
        simp [hj, hkj, eqv]

/-- A change of the value under one key, of which there is no second entry. -/
theorem setEntry_stringEntries (k : String) (w : Yaml) {fields : List (String × Yaml)}
    (h : (Fields.keys fields).Nodup) :
    ∃ next, setEntry (.str k) w (stringEntries fields) = stringEntries next ∧
      Fields.keys next = Fields.keys fields ∧ (∀ f ∈ next, f = (k, w) ∨ f ∈ fields) ∧
      ∀ j, Fields.get j next =
        if k = j then (Fields.get k fields).map (fun _ => w) else Fields.get j fields := by
  induction fields with
  | nil => exact ⟨[], rfl, rfl, by simp, by simp⟩
  | cons f fields ih =>
      obtain ⟨i, v⟩ := f
      obtain ⟨hi, hrest⟩ := List.nodup_cons.mp h
      by_cases hik : k = i
      · subst hik
        refine ⟨(k, w) :: fields, by simp [setEntry, eqv], rfl, ?_, ?_⟩
        · intro f hf
          exact (List.mem_cons.mp hf).imp_right (List.mem_cons_of_mem _)
        · intro j
          rw [Fields.get_cons, Fields.get_cons, Fields.get_cons]
          by_cases hkj : k = j
          · simp [hkj]
          · simp [hkj]
      · obtain ⟨next, heq, hkeys, hmem, hget⟩ := ih hrest
        refine ⟨(i, v) :: next, ?_, ?_, ?_, ?_⟩
        · simp [setEntry, eqv, hik, heq]
        · exact congrArg (i :: ·) hkeys
        · intro f hf
          rcases List.mem_cons.mp hf with rfl | hf
          · exact Or.inr List.mem_cons_self
          · exact (hmem f hf).imp_right (List.mem_cons_of_mem _)
        · intro j
          have hne : i ≠ k := fun h => hik h.symm
          rw [Fields.get_cons, Fields.get_cons, Fields.get_cons, hget, if_neg hne]
          by_cases hkj : k = j
          · simp [hkj ▸ hne, hkj]
          · simp [hkj]

/-- The entries that a loop of `merge_yaml` works on. -/
structure Entered (entries : Entries) (fields : List (String × Yaml)) : Prop where
  eq : entries = stringEntries fields
  nodup : (Fields.keys fields).Nodup
  values : ∀ f ∈ fields, Representable f.2

/-- One round of the loop over the entries of the source. -/
theorem mergeEntries_cons {dst : List (String × Yaml)} (k : String) {v : Yaml} (src : Entries)
    (hdst : Entered (stringEntries dst) dst) (hv : Representable v)
    (hmerge : ∀ e, Representable e → Representable (mergeYaml e v) ∧
      asJson (mergeYaml e v) = mergeJson (asJson e) (asJson v)) :
    ∃ next, mergeEntries (stringEntries dst) ((.str k, v) :: src) =
        mergeEntries (stringEntries next) src ∧ Entered (stringEntries next) next ∧
      ∀ j, Fields.get j (asFields next) =
        if k = j then mergeValue (Fields.get k (asFields dst)) (asJson v)
        else Fields.get j (asFields dst) := by
  obtain ⟨hnew, hnewJson⟩ := normalizeYaml_asJson hv
  rw [mergeEntries, getEntry_stringEntries, get_asFields hdst.nodup]
  cases hget : Fields.get k dst with
  | some existing =>
      obtain ⟨hw, hwJson⟩ := hmerge existing (hdst.values _ (Fields.mem_of_get hget))
      obtain ⟨next, heq, hkeys, hmem, hgetNext⟩ :=
        setEntry_stringEntries k (mergeYaml existing v) hdst.nodup
      have hnodup : (Fields.keys next).Nodup := hkeys ▸ hdst.nodup
      refine ⟨next, congrArg (mergeEntries · src) heq, ⟨rfl, hnodup, fun f hf => ?_⟩, fun j => ?_⟩
      · rcases hmem f hf with rfl | hf
        · exact hw
        · exact hdst.values f hf
      · rw [get_asFields hnodup, hgetNext, hget, get_asFields hdst.nodup]
        by_cases hkj : k = j
        · simp [hkj, mergeValue, hwJson]
        · simp [hkj]
  | none =>
      have hnull : isNull (normalizeYaml v) = true ↔ asJson v = .null := by
        rw [isNull_iff hnew, hnewJson, normalizeJson_eq_null]
      by_cases hnullv : asJson v = .null
      · refine ⟨dst, ?_, hdst, fun j => ?_⟩
        · simp [hnull.mpr hnullv]
        · rw [get_asFields hdst.nodup]
          by_cases hkj : k = j
          · simp [← hkj, hget, mergeValue, hnullv]
          · simp [hkj]
      · have hk : k ∉ Fields.keys dst := by
          rw [Fields.mem_keys, hget]
          simp
        have hnodup : (Fields.keys (dst ++ [(k, normalizeYaml v)])).Nodup := by
          simp only [Fields.keys, List.map_append, List.map_cons, List.map_nil]
          refine List.nodup_append.mpr ⟨hdst.nodup, by simp, fun i hi j hj heq => ?_⟩
          obtain rfl := List.mem_singleton.mp hj
          exact hk (heq ▸ hi)
        have hnot : isNull (normalizeYaml v) = false := by
          simpa [hnullv] using hnull
        refine ⟨dst ++ [(k, normalizeYaml v)], ?_, ⟨rfl, hnodup, fun f hf => ?_⟩, fun j => ?_⟩
        · simp [hnot, stringEntries]
        · rcases List.mem_append.mp hf with hf | hf
          · exact hdst.values f hf
          · exact List.mem_singleton.mp hf ▸ hnew
        · rw [get_asFields hnodup, get_asFields hdst.nodup, Fields.get_append]
          by_cases hkj : k = j
          · simp [← hkj, hget, mergeValue, hnullv, hnewJson, Fields.get_cons]
          · simp [hkj, Fields.get_cons]

/-- What a merge of mappings has under each key. -/
theorem get_mergeEntries {src : List (String × Yaml)}
    (ih : ∀ f ∈ src, ∀ e, Representable e → Representable (mergeYaml e f.2) ∧
      asJson (mergeYaml e f.2) = mergeJson (asJson e) (asJson f.2))
    (hsrc : Entered (stringEntries src) src) :
    ∀ {dst : List (String × Yaml)}, Entered (stringEntries dst) dst →
      ∃ m, Entered (mergeEntries (stringEntries dst) (stringEntries src)) m ∧
        ∀ j, Fields.get j (asFields m) =
          mergeOption (Fields.get j (asFields dst)) ((Fields.get j src).map asJson) := by
  induction src with
  | nil =>
      intro dst hdst
      exact ⟨dst, ⟨rfl, hdst.nodup, hdst.values⟩, fun j => rfl⟩
  | cons f src ihsrc =>
      intro dst hdst
      obtain ⟨k, v⟩ := f
      obtain ⟨hf, hrest⟩ := List.forall_mem_cons.mp ih
      obtain ⟨hv, hvalues⟩ := List.forall_mem_cons.mp hsrc.values
      obtain ⟨hk, hnodup⟩ := List.nodup_cons.mp hsrc.nodup
      obtain ⟨next, hnext, hentered, hget⟩ :=
        mergeEntries_cons k (stringEntries src) hdst hv hf
      obtain ⟨m, hm, hgetm⟩ := ihsrc hrest ⟨rfl, hnodup, hvalues⟩ hentered
      rw [stringEntries_cons, hnext]
      refine ⟨m, hm, fun j => ?_⟩
      rw [hgetm, hget, Fields.get_cons]
      by_cases hkj : k = j
      · -- The keys of the source are all different.
        have hnone : Fields.get k src = none := by
          by_contra hne
          exact hk (Fields.mem_keys.mpr hne)
        simp [← hkj, hnone]
      · simp [hkj]

/-! ## The two copies are one function -/

/-- The two copies of the merge are one function. -/
theorem mergeYaml_asJson {d s : Yaml} (hd : Representable d) (hs : Representable s) :
    Representable (mergeYaml d s) ∧ asJson (mergeYaml d s) = mergeJson (asJson d) (asJson s) := by
  induction hs generalizing d with
  | @seq items hitems ih =>
      cases hd with
      | @seq old hold =>
          have hboth : ∀ y ∈ old ++ items, Representable y := by
            intro y hy
            rcases List.mem_append.mp hy with hy | hy
            · exact hold y hy
            · exact hitems y hy
          rw [mergeYaml, asJson_seq hold, asJson_seq hitems, mergeJson, ← List.map_append]
          exact normalizeItems_asJson fun y hy => normalizeYaml_asJson (hboth y hy)
      | map _ hvalues =>
          rw [mergeYaml, asJson_map hvalues, asJson_seq hitems, mergeJson, ← asJson_seq hitems]
          · exact normalizeYaml_asJson (.seq hitems)
          all_goals simp
      | _ =>
          rw [mergeYaml, asJson_seq hitems, mergeJson, ← asJson_seq hitems]
          · exact normalizeYaml_asJson (.seq hitems)
          all_goals simp
  | @map fields hkeys hvalues ih =>
      have hsrc : Entered (stringEntries fields) fields := ⟨rfl, hkeys, hvalues⟩
      cases hd with
      | @map old holdKeys hold =>
          obtain ⟨m, hm, hget⟩ :=
            get_mergeEntries (fun f hf e he => ih f hf he) hsrc ⟨rfl, holdKeys, hold⟩
          rw [mergeYaml, hm.eq, asJson_map hold, asJson_map hvalues, mergeJson_obj]
          refine ⟨.map hm.nodup hm.values, ?_⟩
          rw [asJson_map hm.values, Json.obj.injEq]
          refine Fields.eq_of_get (sorted_asFields m)
            (sorted_mergeFields (sorted_asFields old)) fun k => ?_
          rw [hget, get_mergeFields (sorted_asFields fields), get_asFields hkeys]
      | seq hold =>
          rw [mergeYaml, asJson_seq hold, asJson_map hvalues, mergeJson, ← asJson_map hvalues]
          · exact normalizeYaml_asJson (.map hkeys hvalues)
          all_goals simp
      | _ =>
          rw [mergeYaml, asJson_map hvalues, mergeJson, ← asJson_map hvalues]
          · exact normalizeYaml_asJson (.map hkeys hvalues)
          all_goals simp
  | _ =>
      rw [mergeYaml, mergeJson]
      · exact normalizeYaml_asJson (by constructor)
      all_goals simp

/-- Merging and converting commute, and so do normalising and converting. -/
theorem mergeYaml_toJson {d s : Yaml} (hd : Representable d) (hs : Representable s) :
    ∃ jd js, d.toJson = .ok jd ∧ s.toJson = .ok js ∧
      (mergeYaml d s).toJson = .ok (mergeJson jd js) ∧
      (normalizeYaml d).toJson = .ok (normalizeJson jd) := by
  obtain ⟨hmerge, hmergeJson⟩ := mergeYaml_asJson hd hs
  obtain ⟨hnormal, hnormalJson⟩ := normalizeYaml_asJson hd
  refine ⟨asJson d, asJson s, toJson_of_representable hd, toJson_of_representable hs, ?_, ?_⟩
  · rw [toJson_of_representable hmerge, hmergeJson]
  · rw [toJson_of_representable hnormal, hnormalJson]

/-- A mapping with a list, and another one with a null. -/
theorem mergeYaml_toJson_lists :
    ∃ jd js, (Yaml.map [(.str "b", .seq [.bool true])]).toJson = .ok jd ∧
      (Yaml.map [(.str "b", .seq [.null]), (.str "a", .null)]).toJson = .ok js ∧
      (mergeYaml (.map [(.str "b", .seq [.bool true])])
        (.map [(.str "b", .seq [.null]), (.str "a", .null)])).toJson = .ok (mergeJson jd js) ∧
      (normalizeYaml (.map [(.str "b", .seq [.bool true])])).toJson = .ok (normalizeJson jd) :=
  mergeYaml_toJson
    (@Representable.map [("b", .seq [.bool true])] (by decide)
      (List.forall_mem_singleton.mpr (.seq (List.forall_mem_singleton.mpr (.bool true)))))
    (@Representable.map [("b", .seq [.null]), ("a", .null)] (by decide)
      (List.forall_mem_cons.mpr ⟨.seq (List.forall_mem_singleton.mpr .null),
        List.forall_mem_singleton.mpr .null⟩))

end Llmenv.Merge
