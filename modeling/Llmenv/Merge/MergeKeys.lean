/-
# `Llmenv.Merge.MergeKeys` — merging YAML values, key by key

What a normalised value is, and what a merge leaves under each key
(`getEntry_mergeEntries`): a key of one side keeps its value, a shared key is
merged, and a null makes no new key.  Neither gives a mapping one key twice.
-/
import Llmenv.Merge.YamlEq

namespace Llmenv.Merge

open Llmenv.Lib

/-! ## Normalising -/

@[simp] theorem isNull_normalizeYaml (y : Yaml) : isNull (normalizeYaml y) = isNull y := by
  cases y <;> simp [normalizeYaml, isNull]

theorem mem_dedupYamlFrom {y : Yaml} {kept items : List Yaml}
    (h : y ∈ dedupYamlFrom kept items) : y ∈ kept ∨ y ∈ items := by
  induction items generalizing kept with
  | nil => exact Or.inl h
  | cons x items ih =>
      rw [dedupYamlFrom] at h
      split at h
      · exact (ih h).imp_right (List.mem_cons_of_mem _)
      · rcases ih h with h | h
        · rcases List.mem_append.mp h with h | h
          · exact Or.inl h
          · exact Or.inr (List.mem_singleton.mp h ▸ List.mem_cons_self)
        · exact Or.inr (List.mem_cons_of_mem _ h)

theorem mem_dedupYaml {y : Yaml} {items : List Yaml} (h : y ∈ dedupYaml items) : y ∈ items :=
  (mem_dedupYamlFrom h).resolve_left List.not_mem_nil

/-- Of every element an equal one is kept. -/
theorem exists_dedupYamlFrom {y : Yaml} {kept items : List Yaml} (h : y ∈ kept ∨ y ∈ items) :
    ∃ z ∈ dedupYamlFrom kept items, eqv y z = true := by
  induction items generalizing kept y with
  | nil => exact ⟨y, h.resolve_right List.not_mem_nil, eqv_refl y⟩
  | cons x items ih =>
      rw [dedupYamlFrom]
      split
      · rename_i hx
        rcases h with h | h
        · exact ih (Or.inl h)
        · rcases List.mem_cons.mp h with rfl | h
          · obtain ⟨z, hz, hyz⟩ := List.any_eq_true.mp hx
            obtain ⟨w, hw, hzw⟩ := ih (Or.inl hz)
            exact ⟨w, hw, eqv_trans hyz hzw⟩
          · exact ih (Or.inr h)
      · rcases h with h | h
        · exact ih (Or.inl (List.mem_append_left _ h))
        · rcases List.mem_cons.mp h with rfl | h
          · exact ih (Or.inl (List.mem_append_right _ List.mem_cons_self))
          · exact ih (Or.inr h)

theorem exists_dedupYaml {y : Yaml} {items : List Yaml} (h : y ∈ items) :
    ∃ z ∈ dedupYaml items, eqv y z = true := exists_dedupYamlFrom (Or.inr h)

/-- No element equals an earlier one. -/
def Distinct (items : List Yaml) : Prop := items.Pairwise (fun a b => eqv b a = false)

theorem distinct_append {kept : List Yaml} {y : Yaml} (hkept : Distinct kept)
    (hy : kept.any (eqv y) = false) : Distinct (kept ++ [y]) := by
  refine List.pairwise_append.mpr ⟨hkept, List.pairwise_singleton _ _, fun a ha b hb => ?_⟩
  obtain rfl := List.mem_singleton.mp hb
  exact (Bool.not_eq_true _).mp (List.any_eq_false.mp hy a ha)

theorem distinct_dedupYamlFrom {kept items : List Yaml} (hkept : Distinct kept) :
    Distinct (dedupYamlFrom kept items) := by
  induction items generalizing kept with
  | nil => exact hkept
  | cons y items ih =>
      rw [dedupYamlFrom]
      split
      · exact ih hkept
      · rename_i hy
        exact ih (distinct_append hkept ((Bool.not_eq_true _).mp hy))

theorem distinct_dedupYaml (items : List Yaml) : Distinct (dedupYaml items) :=
  distinct_dedupYamlFrom List.Pairwise.nil

theorem dedupYamlFrom_of_distinct {kept items : List Yaml} (h : Distinct (kept ++ items)) :
    dedupYamlFrom kept items = kept ++ items := by
  induction items generalizing kept with
  | nil => simp [dedupYamlFrom]
  | cons y items ih =>
      have hy : kept.any (eqv y) = false := by
        refine List.any_eq_false.mpr fun a ha => ?_
        rw [(List.pairwise_append.mp h).2.2 a ha y List.mem_cons_self]
        simp
      rw [dedupYamlFrom, hy, if_neg (by simp), ih (by simpa using h)]
      simp

theorem dedupYaml_of_distinct {items : List Yaml} (h : Distinct items) :
    dedupYaml items = items := dedupYamlFrom_of_distinct h

/-- What has been normalised stays as it is. -/
theorem normalizeYaml_idem (y : Yaml) : normalizeYaml (normalizeYaml y) = normalizeYaml y := by
  induction y using Yaml.induct with
  | seq items ih =>
      rw [normalizeYaml, normalizeYaml, normalizeYamlItems_eq_map, normalizeYamlItems_eq_map]
      have hmap : (dedupYaml (items.map normalizeYaml)).map normalizeYaml =
          dedupYaml (items.map normalizeYaml) := by
        refine (List.map_congr_left fun y hy => ?_).trans (List.map_id _)
        obtain ⟨x, hx, rfl⟩ := List.mem_map.mp (mem_dedupYaml hy)
        exact ih x hx
      rw [hmap, dedupYaml_of_distinct (distinct_dedupYaml _)]
  | map entries ih =>
      rw [normalizeYaml, normalizeYaml, normalizeEntries_eq, normalizeEntries_eq, List.filter_map]
      have hall : (entries.filter fun e => !isNull e.2).filter
          ((fun e : Yaml × Yaml => !isNull e.2) ∘ fun e => (e.1, normalizeYaml e.2)) =
            entries.filter fun e => !isNull e.2 := by
        refine List.filter_eq_self.mpr fun e he => ?_
        simpa using (List.mem_filter.mp he).2
      rw [hall, List.map_map]
      refine congrArg Yaml.map (List.map_congr_left fun e he => ?_)
      exact Prod.ext rfl (ih e (List.mem_of_mem_filter he)).2
  | _ => rfl

theorem wf_normalizeYaml {y : Yaml} (h : Wf y) : Wf (normalizeYaml y) := by
  induction y using Yaml.induct with
  | seq items ih =>
      rw [normalizeYaml, normalizeYamlItems_eq_map]
      refine .seq fun y hy => ?_
      obtain ⟨x, hx, rfl⟩ := List.mem_map.mp (mem_dedupYaml hy)
      exact ih x hx (h.items x hx)
  | map entries ih =>
      obtain ⟨hdistinct, hkeys, hvalues⟩ := wf_map.mp h
      rw [normalizeYaml, normalizeEntries_eq]
      refine .map (List.pairwise_map.mpr (hdistinct.filter _)) ?_ ?_
      · intro e he
        obtain ⟨f, hf, rfl⟩ := List.mem_map.mp he
        exact hkeys f (List.mem_of_mem_filter hf)
      · intro e he
        obtain ⟨f, hf, rfl⟩ := List.mem_map.mp he
        have hf := List.mem_of_mem_filter hf
        exact (ih f hf).2 (hvalues f hf)
  | _ => exact h

theorem getEntry_normalizeEntries {entries : Entries} (h : WfEntries entries) {k : Yaml}
    (hk : Wf k) :
    getEntry k (normalizeEntries entries) =
      (getEntry k entries).bind fun v => if isNull v then none else some (normalizeYaml v) := by
  induction entries with
  | nil => rfl
  | cons e entries ih =>
      obtain ⟨j, v⟩ := e
      rw [normalizeEntries, getEntry]
      by_cases hkj : eqv k j = true
      · have hj : Wf j := h.keys _ List.mem_cons_self
        have hnone := h.getEntry_tail hk (eqv_symm hk hj hkj)
        cases hv : isNull v with
        | true => simp [hkj, hv, ih h.tail, hnone]
        | false => simp [hkj, hv, getEntry]
      · cases hv : isNull v with
        | true => simp [hkj, ih h.tail]
        | false => simp [hkj, getEntry, ih h.tail]

/-! ## Merging, key by key -/

/-- What a merge leaves under a key: `v` is the value of the source. -/
def mergeEntry : Option Yaml → Yaml → Option Yaml
  | some existing, v => some (mergeYaml existing v)
  | none, v => if isNull v then none else some (normalizeYaml v)

/-- One round of the loop over the entries of the source. -/
theorem mergeEntries_next (dst : Entries) (k v : Yaml) (src : Entries) :
    ∃ next, mergeEntries dst ((k, v) :: src) = mergeEntries next src ∧
      ((∃ e, getEntry k dst = some e ∧ next = setEntry k (mergeYaml e v) dst) ∨
        getEntry k dst = none ∧
          (isNull v = true ∧ next = dst ∨
            isNull v = false ∧ next = dst ++ [(k, normalizeYaml v)])) := by
  rw [mergeEntries]
  cases hget : getEntry k dst with
  | some e => exact ⟨_, rfl, Or.inl ⟨e, rfl, rfl⟩⟩
  | none =>
      cases hv : isNull v with
      | true => exact ⟨dst, by simp [hv], Or.inr ⟨rfl, Or.inl ⟨rfl, rfl⟩⟩⟩
      | false => exact ⟨_, by simp [hv], Or.inr ⟨rfl, Or.inr ⟨rfl, rfl⟩⟩⟩

/-- What holds of normalised values and is kept by merges holds of the values of a merge. -/
theorem forall_mergeEntries {P : Yaml → Prop} {src : Entries}
    (hnew : ∀ f ∈ src, P (normalizeYaml f.2))
    (hmerge : ∀ f ∈ src, ∀ e, P e → P (mergeYaml e f.2)) :
    ∀ {dst : Entries}, (∀ e ∈ dst, P e.2) → ∀ e ∈ mergeEntries dst src, P e.2 := by
  induction src with
  | nil =>
      intro dst hdst
      rwa [mergeEntries]
  | cons f src ih =>
      intro dst hdst
      obtain ⟨k, v⟩ := f
      obtain ⟨hn, hnew⟩ := List.forall_mem_cons.mp hnew
      obtain ⟨hm, hmerge⟩ := List.forall_mem_cons.mp hmerge
      obtain ⟨next, hnext, hshape⟩ := mergeEntries_next dst k v src
      rw [hnext]
      refine ih hnew hmerge ?_
      rcases hshape with ⟨e, hget, rfl⟩ | ⟨-, ⟨-, rfl⟩ | ⟨-, rfl⟩⟩
      · intro f hf
        rcases mem_setEntry hf with heq | hf
        · obtain ⟨j, hj, -⟩ := mem_of_getEntry hget
          exact heq ▸ hm e (hdst _ hj)
        · exact hdst f hf
      · exact hdst
      · intro f hf
        rcases List.mem_append.mp hf with hf | hf
        · exact hdst f hf
        · exact List.mem_singleton.mp hf ▸ hn

/-- A merge of mappings, and what it has under each key. -/
theorem getEntry_mergeEntries {src : Entries}
    (ih : ∀ f ∈ src, ∀ e, Wf e → Wf (mergeYaml e f.2)) (hsrc : WfEntries src) :
    ∀ {dst : Entries}, WfEntries dst → WfEntries (mergeEntries dst src) ∧
      ∀ j, Wf j → getEntry j (mergeEntries dst src) =
        match getEntry j src with
        | none => getEntry j dst
        | some v => mergeEntry (getEntry j dst) v := by
  induction src with
  | nil =>
      intro dst hdst
      rw [mergeEntries]
      exact ⟨hdst, fun j _ => rfl⟩
  | cons f src ihsrc =>
      intro dst hdst
      obtain ⟨k, v⟩ := f
      obtain ⟨hmerge, hrest⟩ := List.forall_mem_cons.mp ih
      have hk : Wf k := hsrc.keys _ List.mem_cons_self
      have hv : Wf v := hsrc.values _ List.mem_cons_self
      obtain ⟨next, hnext, hshape⟩ := mergeEntries_next dst k v src
      have hstep : WfEntries next ∧ ∀ j, Wf j → getEntry j next =
          if eqv k j = true then mergeEntry (getEntry k dst) v else getEntry j dst := by
        rcases hshape with ⟨e, hget, rfl⟩ | ⟨hget, ⟨hnull, rfl⟩ | ⟨hnull, rfl⟩⟩
        · refine ⟨hdst.setEntry k (hmerge e (hdst.getEntry hget)), fun j hj => ?_⟩
          rw [getEntry_setEntry hdst hk hj, hget]
          rfl
        · refine ⟨hdst, fun j hj => ?_⟩
          split
          · rename_i hkj
            rw [← getEntry_congr hk hj hkj, hget]
            simp [mergeEntry, hnull]
          · rfl
        · refine ⟨⟨?_, ?_, ?_⟩, fun j hj => ?_⟩
          · refine List.pairwise_append.mpr
              ⟨hdst.distinct, List.pairwise_singleton _ _, fun a ha b hb => ?_⟩
            obtain rfl := List.mem_singleton.mp hb
            rw [eqv_comm (hdst.keys a ha) hk]
            exact getEntry_eq_none.mp hget a ha
          · exact List.forall_mem_append.mpr ⟨hdst.keys, List.forall_mem_singleton.mpr hk⟩
          · exact List.forall_mem_append.mpr
              ⟨hdst.values, List.forall_mem_singleton.mpr (wf_normalizeYaml hv)⟩
          · rw [getEntry_append, hget]
            by_cases hkj : eqv k j = true
            · rw [← getEntry_congr hk hj hkj, hget]
              simp [getEntry, eqv_comm hj hk, hkj, mergeEntry, hnull]
            · simp [getEntry, eqv_comm hj hk, hkj]
      obtain ⟨hwf, hgetNext⟩ := hstep
      obtain ⟨hwf', hget⟩ := ihsrc hrest hsrc.tail hwf
      rw [hnext]
      refine ⟨hwf', fun j hj => ?_⟩
      rw [hget j hj, hgetNext j hj, getEntry, eqv_comm hj hk]
      by_cases hkj : eqv k j = true
      · -- The keys of the source are all different.
        rw [hsrc.getEntry_tail hj hkj, if_pos hkj, if_pos hkj, getEntry_congr hk hj hkj]
      · rw [if_neg hkj, if_neg hkj]

theorem mergeYaml_map (dst src : Entries) :
    mergeYaml (.map dst) (.map src) = .map (mergeEntries dst src) := by
  rw [mergeYaml]

theorem mergeYaml_seq (dst src : List Yaml) :
    mergeYaml (.seq dst) (.seq src) = normalizeYaml (.seq (dst ++ src)) := by
  rw [mergeYaml, normalizeYaml]

/-- Both are mappings, or both are sequences. -/
def bothNested : Yaml → Yaml → Bool
  | .map _, .map _ => true
  | .seq _, .seq _ => true
  | _, _ => false

/-- Otherwise the source takes the place of what was there. -/
theorem mergeYaml_replace {d s : Yaml} (h : bothNested d s = false) :
    mergeYaml d s = normalizeYaml s := by
  rw [mergeYaml]
  · rintro dst src rfl rfl
    exact absurd h (by simp [bothNested])
  · rintro dst src rfl rfl
    exact absurd h (by simp [bothNested])

/-- The cases of a merge: a source that takes the place, two sequences, two mappings. -/
theorem mergeYaml_induct {motive : Yaml → Yaml → Prop}
    (replace : ∀ d s, bothNested d s = false → motive d s)
    (seq : ∀ dst src, motive (.seq dst) (.seq src))
    (map : ∀ dst src, (∀ f ∈ src, ∀ e, motive e f.2) → motive (.map dst) (.map src))
    (d s : Yaml) : motive d s := by
  induction s using Yaml.induct generalizing d with
  | seq src ih =>
      cases d with
      | seq dst => exact seq dst src
      | _ => exact replace _ _ rfl
  | map src ih =>
      cases d with
      | map dst => exact map dst src fun f hf e => (ih f hf).2 e
      | _ => exact replace _ _ rfl
  | _ => exact replace _ _ (by cases d <;> rfl)

theorem wf_mergeYaml {d s : Yaml} (hd : Wf d) (hs : Wf s) : Wf (mergeYaml d s) := by
  induction d, s using mergeYaml_induct with
  | replace d s hnested =>
      rw [mergeYaml_replace hnested]
      exact wf_normalizeYaml hs
  | seq dst src =>
      rw [mergeYaml_seq]
      exact wf_normalizeYaml (.seq (List.forall_mem_append.mpr ⟨hd.items, hs.items⟩))
  | map dst src ih =>
      have hsrc := wf_map.mp hs
      rw [mergeYaml_map, wf_map]
      exact (getEntry_mergeEntries (fun f hf e he => ih f hf e he (hsrc.values f hf)) hsrc
        (wf_map.mp hd)).1

end Llmenv.Merge
