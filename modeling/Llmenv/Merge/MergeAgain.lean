/-
# `Llmenv.Merge.MergeAgain` — a second merge of one value changes nothing

`merge_yaml` normalises what it takes over, so that each repetition of a merge
finds what the first one left: every key of the source is there with the merged
value, or it is a null that makes no key (`Settled`), and every element of a
sequence equals one that is there.  The result is the same value, the order of
its entries and elements included (`mergeYaml_again`).

Nor does a merge repeat an element where neither side did
(`NoRepeats.mergeYaml`); inside tags and keys nothing is merged, so there it
needs that the two sides repeat none.
-/
import Llmenv.Merge.YamlTree

namespace Llmenv.Merge

open Llmenv.Lib

/-! ## Entries that a merge leaves as they are -/

/-- Setting the value that is there. -/
theorem setEntry_self {k e : Yaml} {entries : Entries} (h : getEntry k entries = some e) :
    setEntry k e entries = entries := by
  induction entries with
  | nil => rfl
  | cons f entries ih =>
      obtain ⟨j, v⟩ := f
      rw [getEntry] at h
      rw [setEntry]
      split
      · rename_i hkj
        rw [if_pos hkj] at h
        rw [Option.some.inj h]
      · rename_i hkj
        rw [if_neg hkj] at h
        rw [ih h]

/-- Merging `v` under the key `k` changes nothing. -/
def Settled (entries : Entries) (k v : Yaml) : Prop :=
  (∃ e, getEntry k entries = some e ∧ mergeYaml e v = e) ∨
    getEntry k entries = none ∧ isNull v = true

theorem mergeEntries_of_settled {entries : Entries} :
    ∀ {src : Entries}, (∀ f ∈ src, Settled entries f.1 f.2) → mergeEntries entries src = entries
  | [], _ => by rw [mergeEntries]
  | (k, v) :: src, h => by
      obtain ⟨hfirst, hrest⟩ := List.forall_mem_cons.mp h
      obtain ⟨next, hnext, hshape⟩ := mergeEntries_next entries k v src
      have hsame : next = entries := by
        rcases hfirst with ⟨e, hget, hmerge⟩ | ⟨hget, hnull⟩
        · rcases hshape with ⟨e', hget', rfl⟩ | ⟨hnone, -⟩
          · obtain rfl := Option.some.inj (hget.symm.trans hget')
            rw [hmerge, setEntry_self hget]
          · exact absurd (hget.symm.trans hnone) (by simp)
        · rcases hshape with ⟨e', hget', -⟩ | ⟨-, ⟨-, rfl⟩ | ⟨hnot, -⟩⟩
          · exact absurd (hget.symm.trans hget') (by simp)
          · rfl
          · exact absurd (hnull.symm.trans hnot) (by simp)
      rw [hnext, hsame]
      exact mergeEntries_of_settled hrest

/-! ## Elements that are there -/

theorem dedupYamlFrom_append (kept items more : List Yaml) :
    dedupYamlFrom kept (items ++ more) = dedupYamlFrom (dedupYamlFrom kept items) more := by
  induction items generalizing kept with
  | nil => rfl
  | cons y items ih =>
      rw [List.cons_append, dedupYamlFrom, dedupYamlFrom]
      split
      · exact ih kept
      · exact ih (kept ++ [y])

theorem dedupYamlFrom_of_covered {kept : List Yaml} :
    ∀ {more : List Yaml}, (∀ y ∈ more, ∃ z ∈ kept, eqv y z = true) →
      dedupYamlFrom kept more = kept
  | [], _ => rfl
  | y :: more, h => by
      obtain ⟨hy, hrest⟩ := List.forall_mem_cons.mp h
      rw [dedupYamlFrom, if_pos (List.any_eq_true.mpr hy), dedupYamlFrom_of_covered hrest]

/-- The elements of a normalised sequence, and after them some that it came from. -/
theorem normalizeYaml_append_again {items more : List Yaml} (h : more ⊆ items) :
    normalizeYaml (.seq (dedupYaml (items.map normalizeYaml) ++ more)) =
      normalizeYaml (.seq items) := by
  have hid : (dedupYaml (items.map normalizeYaml)).map normalizeYaml =
      dedupYaml (items.map normalizeYaml) := by
    refine (List.map_congr_left fun y hy => ?_).trans (List.map_id _)
    obtain ⟨x, -, rfl⟩ := List.mem_map.mp (mem_dedupYaml hy)
    exact normalizeYaml_idem x
  have hcovered : ∀ y ∈ more.map normalizeYaml,
      ∃ z ∈ dedupYaml (items.map normalizeYaml), eqv y z = true := by
    intro y hy
    obtain ⟨x, hx, rfl⟩ := List.mem_map.mp hy
    exact exists_dedupYaml (List.mem_map_of_mem (h hx))
  rw [normalizeYaml, normalizeYaml, normalizeYamlItems_eq_map, normalizeYamlItems_eq_map,
    List.map_append, hid, Yaml.seq.injEq, dedupYaml, dedupYamlFrom_append]
  show dedupYamlFrom (dedupYaml (dedupYaml (items.map normalizeYaml))) _ = _
  rw [dedupYaml_of_distinct (distinct_dedupYaml _), dedupYamlFrom_of_covered hcovered]

/-! ## Merging again -/

/-- What a merge has left is settled for the entries of its source, when every value of the source
is for itself. -/
theorem settled_mergeEntries {dst src : Entries} (hdst : WfEntries dst) (hsrc : WfEntries src)
    (ih : ∀ f ∈ src, ∀ e, Wf e → mergeYaml (mergeYaml e f.2) f.2 = mergeYaml e f.2) :
    ∀ f ∈ src, Settled (mergeEntries dst src) f.1 f.2 := by
  rintro ⟨k, v⟩ hf
  have hk : Wf k := hsrc.keys _ hf
  have hv : Wf v := hsrc.values _ hf
  obtain ⟨-, hget⟩ := getEntry_mergeEntries
    (fun f hf e he => wf_mergeYaml he (hsrc.values f hf)) hsrc hdst
  have hkey := hget k hk
  rw [getEntry_of_mem hsrc hk hf (eqv_refl k)] at hkey
  cases hold : getEntry k dst with
  | some e =>
      rw [hold] at hkey
      exact Or.inl ⟨mergeYaml e v, hkey, ih _ hf e (hdst.getEntry hold)⟩
  | none =>
      rw [hold] at hkey
      cases hnull : isNull v with
      | true => exact Or.inr ⟨by simpa [mergeEntry, hnull] using hkey, hnull⟩
      | false =>
          refine Or.inl ⟨normalizeYaml v, by simpa [mergeEntry, hnull] using hkey, ?_⟩
          -- A value that is new was merged into a null.
          have hnew : mergeYaml .null v = normalizeYaml v := mergeYaml_replace (by cases v <;> rfl)
          have hagain := ih _ hf .null .null
          rwa [hnew] at hagain

/-- The entries that a normalised mapping keeps are settled for those it came from. -/
theorem settled_normalizeEntries {src : Entries} (hsrc : WfEntries src)
    (ih : ∀ f ∈ src, mergeYaml (normalizeYaml f.2) f.2 = normalizeYaml f.2) :
    ∀ f ∈ src, Settled (normalizeEntries src) f.1 f.2 := by
  rintro ⟨k, v⟩ hf
  have hk : Wf k := hsrc.keys _ hf
  have hkey := getEntry_normalizeEntries hsrc hk
  rw [getEntry_of_mem hsrc hk hf (eqv_refl k), Option.bind_some] at hkey
  cases hnull : isNull v with
  | true => exact Or.inr ⟨by simpa [hnull] using hkey, hnull⟩
  | false => exact Or.inl ⟨normalizeYaml v, by simpa [hnull] using hkey, ih _ hf⟩

/-- A value merged into its normal form. -/
theorem mergeYaml_normalizeYaml {y : Yaml} (h : Wf y) :
    mergeYaml (normalizeYaml y) y = normalizeYaml y := by
  induction y using Yaml.induct with
  | seq items ih =>
      have hform : normalizeYaml (.seq items) = .seq (dedupYaml (items.map normalizeYaml)) := by
        rw [normalizeYaml, normalizeYamlItems_eq_map]
      conv_lhs => rw [hform]
      rw [mergeYaml_seq, normalizeYaml_append_again (List.Subset.refl items)]
  | map entries ih =>
      have hentries := wf_map.mp h
      rw [normalizeYaml, mergeYaml_map]
      exact congrArg Yaml.map (mergeEntries_of_settled (settled_normalizeEntries hentries
        fun f hf => (ih f hf).2 (hentries.values f hf)))
  | _ => rfl

theorem mergeYaml_again {d s : Yaml} (hd : Wf d) (hs : Wf s) :
    mergeYaml (mergeYaml d s) s = mergeYaml d s := by
  induction d, s using mergeYaml_induct with
  | replace d s hnested => rw [mergeYaml_replace hnested, mergeYaml_normalizeYaml hs]
  | seq dst src =>
      have hform : normalizeYaml (.seq (dst ++ src)) =
          .seq (dedupYaml ((dst ++ src).map normalizeYaml)) := by
        rw [normalizeYaml, normalizeYamlItems_eq_map]
      rw [mergeYaml_seq]
      conv_lhs => rw [hform]
      rw [mergeYaml_seq, normalizeYaml_append_again (List.subset_append_right dst src)]
  | map dst src ih =>
      have hsrc := wf_map.mp hs
      rw [mergeYaml_map, mergeYaml_map]
      exact congrArg Yaml.map (mergeEntries_of_settled (settled_mergeEntries (wf_map.mp hd) hsrc
        fun f hf e he => ih f hf e he (hsrc.values f hf)))

/-! ## Repeated elements -/

/-- No sequence at any depth has an element that equals an earlier one, those in
tagged values and in the keys of mappings included. -/
inductive NoRepeats : Yaml → Prop
  | leaf {y : Yaml} : isLeaf y = true → NoRepeats y
  | tagged {tag : String} {value : Yaml} : NoRepeats value → NoRepeats (.tagged tag value)
  | seq {items : List Yaml} : Distinct items → (∀ y ∈ items, NoRepeats y) →
      NoRepeats (.seq items)
  | map {entries : Entries} : (∀ e ∈ entries, NoRepeats e.1) → (∀ e ∈ entries, NoRepeats e.2) →
      NoRepeats (.map entries)

theorem NoRepeats.items {items : List Yaml} (h : NoRepeats (.seq items)) :
    ∀ y ∈ items, NoRepeats y := by
  cases h with
  | leaf h => exact absurd h (by simp [isLeaf])
  | seq _ h => exact h

theorem noRepeats_map {entries : Entries} :
    NoRepeats (.map entries) ↔
      (∀ e ∈ entries, NoRepeats e.1) ∧ ∀ e ∈ entries, NoRepeats e.2 := by
  constructor
  · intro h
    cases h with
    | leaf h => exact absurd h (by simp [isLeaf])
    | map hkeys hvalues => exact ⟨hkeys, hvalues⟩
  · exact fun h => .map h.1 h.2

theorem noRepeats_dedupYaml {items : List Yaml} (h : ∀ y ∈ items, NoRepeats y) :
    NoRepeats (.seq (dedupYaml items)) :=
  .seq (distinct_dedupYaml items) fun y hy => h y (mem_dedupYaml hy)

theorem NoRepeats.normalizeYaml {y : Yaml} (h : NoRepeats y) : NoRepeats (normalizeYaml y) := by
  induction y using Yaml.induct with
  | seq items ih =>
      rw [Merge.normalizeYaml, normalizeYamlItems_eq_map]
      refine noRepeats_dedupYaml fun y hy => ?_
      obtain ⟨x, hx, rfl⟩ := List.mem_map.mp hy
      exact ih x hx (h.items x hx)
  | map entries ih =>
      obtain ⟨hkeys, hvalues⟩ := noRepeats_map.mp h
      rw [Merge.normalizeYaml, normalizeEntries_eq]
      refine .map ?_ ?_
      · intro e he
        obtain ⟨f, hf, rfl⟩ := List.mem_map.mp he
        exact hkeys f (List.mem_of_mem_filter hf)
      · intro e he
        obtain ⟨f, hf, rfl⟩ := List.mem_map.mp he
        have hf := List.mem_of_mem_filter hf
        exact (ih f hf).2 (hvalues f hf)
  | _ => exact h

/-- The keys of a merge are keys of one of its sides. -/
theorem forall_keys_mergeEntries {P : Yaml → Prop} {src : Entries} :
    ∀ {dst : Entries}, (∀ e ∈ dst, P e.1) → (∀ f ∈ src, P f.1) →
      ∀ e ∈ mergeEntries dst src, P e.1 := by
  induction src with
  | nil =>
      intro dst hdst _
      rwa [mergeEntries]
  | cons f src ih =>
      intro dst hdst hsrc
      obtain ⟨k, v⟩ := f
      obtain ⟨hk, hrest⟩ := List.forall_mem_cons.mp hsrc
      obtain ⟨next, hnext, hshape⟩ := mergeEntries_next dst k v src
      rw [hnext]
      refine ih ?_ hrest
      rcases hshape with ⟨e, -, rfl⟩ | ⟨-, ⟨-, rfl⟩ | ⟨-, rfl⟩⟩
      · intro g hg
        have hmem : g.1 ∈ dst.map Prod.fst := keys_setEntry k _ dst ▸ List.mem_map_of_mem hg
        obtain ⟨g', hg', heq⟩ := List.mem_map.mp hmem
        exact heq ▸ hdst g' hg'
      · exact hdst
      · exact List.forall_mem_append.mpr ⟨hdst, List.forall_mem_singleton.mpr hk⟩

theorem NoRepeats.mergeYaml {d s : Yaml} (hd : NoRepeats d) (hs : NoRepeats s) :
    NoRepeats (mergeYaml d s) := by
  induction d, s using mergeYaml_induct with
  | replace d s hnested =>
      rw [mergeYaml_replace hnested]
      exact hs.normalizeYaml
  | seq dst src =>
      rw [mergeYaml_seq, Merge.normalizeYaml, normalizeYamlItems_eq_map]
      refine noRepeats_dedupYaml fun y hy => ?_
      obtain ⟨x, hx, rfl⟩ := List.mem_map.mp hy
      exact (List.forall_mem_append.mpr ⟨hd.items, hs.items⟩ x hx).normalizeYaml
  | map dst src ih =>
      obtain ⟨hdstKeys, hdstValues⟩ := noRepeats_map.mp hd
      obtain ⟨hkeys, hvalues⟩ := noRepeats_map.mp hs
      rw [mergeYaml_map]
      exact .map (forall_keys_mergeEntries hdstKeys hkeys)
        (forall_mergeEntries (fun f hf => (hvalues f hf).normalizeYaml)
          (fun f hf e he => ih f hf e he (hvalues f hf)) hdstValues)

/-- A merge absorbs a second one of the same value, and repeats no element that
neither side repeats; normalising absorbs a second normalising. -/
theorem mergeYaml_absorbs (d s : Value) :
    mergeYaml (mergeYaml d.1 s.1) s.1 = mergeYaml d.1 s.1 ∧
    (NoRepeats d.1 ∧ NoRepeats s.1 → NoRepeats (mergeYaml d.1 s.1)) ∧
    ∀ y : Yaml, normalizeYaml (normalizeYaml y) = normalizeYaml y :=
  ⟨mergeYaml_again d.2 s.2, fun h => h.1.mergeYaml h.2, normalizeYaml_idem⟩

/-- A null that is new makes no key, one under a key that is there replaces its
value, and the second merge finds both as they are. -/
example : mergeYaml
    (mergeYaml (.map [(.str "a", .str "x")])
      (.map [(.str "b", .null), (.str "a", .null), (.str "c", .seq [.null, .null])]))
    (.map [(.str "b", .null), (.str "a", .null), (.str "c", .seq [.null, .null])]) =
    .map [(.str "a", .null), (.str "c", .seq [.null])] := by rfl

end Llmenv.Merge
