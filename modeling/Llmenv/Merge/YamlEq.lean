/-
# `Llmenv.Merge.YamlEq` — equality of YAML values, and look-ups under equal keys

The equality of mappings counts the entries of both sides and looks for every
entry of the one on the other.  That this is symmetric needs that no mapping has
one key twice (`Wf`), which the data structure of the library promises and every
step of a merge keeps (`wf_mergeYaml`).
-/
import Llmenv.Merge.MergeYaml

namespace Llmenv.Merge

open Llmenv.Lib

/-! ## What equal values are -/

theorem eqvItems_eq_true {as bs : List Yaml} :
    eqvItems as bs = true ↔ List.Forall₂ (fun a b => eqv a b = true) as bs := by
  induction as generalizing bs with
  | nil => cases bs <;> simp [eqvItems]
  | cons a as ih => cases bs <;> simp [eqvItems, ih]

theorem subEntries_eq_true {as bs : Entries} :
    subEntries as bs = true ↔
      ∀ e ∈ as, ∃ f ∈ bs, eqv e.1 f.1 = true ∧ eqv e.2 f.2 = true := by
  induction as with
  | nil => simp [subEntries]
  | cons e as ih =>
      obtain ⟨k, v⟩ := e
      rw [subEntries, Bool.and_eq_true, ih, List.forall_mem_cons, List.any_eq_true]
      simp only [Bool.and_eq_true]

/-- Neither a sequence nor a mapping nor a tagged value. -/
def isLeaf : Yaml → Bool
  | .seq _ => false
  | .map _ => false
  | .tagged _ _ => false
  | _ => true

theorem eqv_leaf {a b : Yaml} (ha : isLeaf a = true) : eqv a b = true ↔ a = b := by
  cases a with
  | seq items => exact absurd ha (by simp [isLeaf])
  | map entries => exact absurd ha (by simp [isLeaf])
  | tagged tag value => exact absurd ha (by simp [isLeaf])
  | _ => cases b <;> simp [eqv]

theorem eqv_seq {as : List Yaml} {b : Yaml} :
    eqv (.seq as) b = true ↔
      ∃ bs, b = .seq bs ∧ List.Forall₂ (fun a b => eqv a b = true) as bs := by
  cases b <;> simp [eqv, eqvItems_eq_true]

theorem eqv_map {as : Entries} {b : Yaml} :
    eqv (.map as) b = true ↔ ∃ bs, b = .map bs ∧ as.length = bs.length ∧
      ∀ e ∈ as, ∃ f ∈ bs, eqv e.1 f.1 = true ∧ eqv e.2 f.2 = true := by
  cases b with
  | map bs =>
      rw [eqv, Bool.and_eq_true, subEntries_eq_true]
      simp
  | _ => simp [eqv]

theorem eqv_tagged {tag : String} {a b : Yaml} :
    eqv (.tagged tag a) b = true ↔ ∃ c, b = .tagged tag c ∧ eqv a c = true := by
  cases b with
  | tagged t c =>
      rw [eqv, Bool.and_eq_true, beq_iff_eq]
      constructor
      · rintro ⟨rfl, h⟩
        exact ⟨c, rfl, h⟩
      · rintro ⟨d, heq, h⟩
        obtain ⟨rfl, rfl⟩ := Yaml.tagged.inj heq
        exact ⟨rfl, h⟩
  | _ => simp [eqv]

/-! ## An equivalence -/

@[simp] theorem eqv_refl (y : Yaml) : eqv y y = true := by
  induction y using Yaml.induct with
  | seq items ih =>
      refine eqv_seq.mpr ⟨items, rfl, ?_⟩
      exact List.forall₂_same.mpr ih
  | map entries ih =>
      exact eqv_map.mpr ⟨entries, rfl, rfl, fun e he => ⟨e, he, ih e he⟩⟩
  | tagged tag value ih => exact eqv_tagged.mpr ⟨value, rfl, ih⟩
  | _ => exact (eqv_leaf rfl).mpr rfl

theorem forall₂_trans {as bs cs : List Yaml}
    (ih : ∀ a ∈ as, ∀ b c, eqv a b = true → eqv b c = true → eqv a c = true)
    (hab : List.Forall₂ (fun a b => eqv a b = true) as bs)
    (hbc : List.Forall₂ (fun b c => eqv b c = true) bs cs) :
    List.Forall₂ (fun a c => eqv a c = true) as cs := by
  induction hab generalizing cs with
  | nil =>
      cases hbc
      exact .nil
  | cons h _ ihrest =>
      obtain ⟨ha, hrest⟩ := List.forall_mem_cons.mp ih
      cases hbc with
      | cons h' hbc => exact .cons (ha _ _ h h') (ihrest hrest hbc)

theorem eqv_trans {a b c : Yaml} (hab : eqv a b = true) (hbc : eqv b c = true) :
    eqv a c = true := by
  induction a using Yaml.induct generalizing b c with
  | seq as ih =>
      obtain ⟨bs, rfl, has⟩ := eqv_seq.mp hab
      obtain ⟨cs, rfl, hbs⟩ := eqv_seq.mp hbc
      exact eqv_seq.mpr ⟨cs, rfl, forall₂_trans (fun a ha b c => ih a ha) has hbs⟩
  | map as ih =>
      obtain ⟨bs, rfl, hlen, has⟩ := eqv_map.mp hab
      obtain ⟨cs, rfl, hlen', hbs⟩ := eqv_map.mp hbc
      refine eqv_map.mpr ⟨cs, rfl, hlen.trans hlen', fun e he => ?_⟩
      obtain ⟨f, hf, hk, hv⟩ := has e he
      obtain ⟨g, hg, hk', hv'⟩ := hbs f hf
      obtain ⟨ihk, ihv⟩ := ih e he
      exact ⟨g, hg, ihk hk hk', ihv hv hv'⟩
  | tagged tag a ih =>
      obtain ⟨b, rfl, hb⟩ := eqv_tagged.mp hab
      obtain ⟨c, rfl, hc⟩ := eqv_tagged.mp hbc
      exact eqv_tagged.mpr ⟨c, rfl, ih hb hc⟩
  | _ =>
      obtain rfl := (eqv_leaf rfl).mp hab
      exact hbc

/-- No mapping has one key twice. -/
inductive Wf : Yaml → Prop
  | null : Wf .null
  | bool (b : Bool) : Wf (.bool b)
  | num (n : YamlNumber) : Wf (.num n)
  | str (s : String) : Wf (.str s)
  | seq {items : List Yaml} : (∀ y ∈ items, Wf y) → Wf (.seq items)
  | map {entries : Entries} : entries.Pairwise (fun a b => eqv a.1 b.1 = false) →
      (∀ e ∈ entries, Wf e.1) → (∀ e ∈ entries, Wf e.2) → Wf (.map entries)
  | tagged {tag : String} {value : Yaml} : Wf value → Wf (.tagged tag value)

theorem Wf.leaf {y : Yaml} (h : isLeaf y = true) : Wf y := by
  cases y with
  | null => exact .null
  | bool b => exact .bool b
  | num n => exact .num n
  | str s => exact .str s
  | _ => exact absurd h (by simp [isLeaf])

theorem Wf.items {items : List Yaml} (h : Wf (.seq items)) : ∀ y ∈ items, Wf y := by
  cases h with
  | seq h => exact h

/-- The entries of a mapping without a second one of a key. -/
structure WfEntries (entries : Entries) : Prop where
  distinct : entries.Pairwise (fun a b => eqv a.1 b.1 = false)
  keys : ∀ e ∈ entries, Wf e.1
  values : ∀ e ∈ entries, Wf e.2

theorem wf_map {entries : Entries} : Wf (.map entries) ↔ WfEntries entries := by
  constructor
  · intro h
    cases h with
    | map hdistinct hkeys hvalues => exact ⟨hdistinct, hkeys, hvalues⟩
  · rintro ⟨hdistinct, hkeys, hvalues⟩
    exact .map hdistinct hkeys hvalues

/-- The well-formed values that equal a value. -/
def equals (y : Yaml) : Set {z : Yaml // Wf z} := {z | eqv y z.1 = true}

/-- Of equal keys that are equal on both sides, `equals` is the same. -/
theorem equals_eq {a b : Yaml} (hab : eqv a b = true) (hba : eqv b a = true) :
    equals a = equals b :=
  Set.ext fun _ => ⟨eqv_trans hba, eqv_trans hab⟩

theorem eqv_of_equals_eq {a b : Yaml} (hb : Wf b) (h : equals a = equals b) : eqv a b = true := by
  have hmem : (⟨b, hb⟩ : {z : Yaml // Wf z}) ∈ equals b := eqv_refl b
  rw [← h] at hmem
  exact hmem

/-- As many entries on both sides, and every key of the one on the other: every key of the
other is on the one. -/
theorem exists_key_of_length_eq {as bs : Entries} (has : WfEntries as) (hbs : WfEntries bs)
    (hlen : as.length = bs.length)
    (hsymm : ∀ e ∈ as, ∀ f ∈ bs, eqv e.1 f.1 = true → eqv f.1 e.1 = true)
    (hsub : ∀ e ∈ as, ∃ f ∈ bs, eqv e.1 f.1 = true) :
    ∀ f ∈ bs, ∃ e ∈ as, eqv e.1 f.1 = true := by
  have hnodup : (as.map fun e => equals e.1).Nodup := by
    refine List.pairwise_map.mpr (has.distinct.imp_of_mem fun {a b} _ hb hab heq => ?_)
    rw [eqv_of_equals_eq (has.keys b hb) heq] at hab
    exact absurd hab (by simp)
  have hsubset : (as.map fun e => equals e.1) ⊆ bs.map fun f => equals f.1 := by
    intro c hc
    obtain ⟨e, he, rfl⟩ := List.mem_map.mp hc
    obtain ⟨f, hf, hef⟩ := hsub e he
    exact List.mem_map.mpr ⟨f, hf, (equals_eq hef (hsymm e he f hf hef)).symm⟩
  have hperm : (as.map fun e => equals e.1).Perm (bs.map fun f => equals f.1) := by
    refine (List.subperm_of_subset hnodup hsubset).perm_of_length_le ?_
    rw [List.length_map, List.length_map, hlen]
  intro f hf
  obtain ⟨e, he, heq⟩ := List.mem_map.mp (hperm.mem_iff.mpr (List.mem_map_of_mem hf))
  exact ⟨e, he, eqv_of_equals_eq (hbs.keys f hf) heq⟩

/-- Equal keys of one mapping are of one entry. -/
theorem WfEntries.eq_of_eqv {entries : Entries} (h : WfEntries entries) {e f : Yaml × Yaml}
    (he : e ∈ entries) (hf : f ∈ entries) (hef : eqv e.1 f.1 = true) (hfe : eqv f.1 e.1 = true) :
    e = f := by
  have hno : ∀ {a b : Yaml × Yaml}, eqv a.1 b.1 = false → ¬ eqv a.1 b.1 = true := by
    intro a b hab h
    exact absurd (hab.symm.trans h) (by simp)
  exact List.Pairwise.forall_of_forall_of_flip
    (R := fun a b : Yaml × Yaml => eqv a.1 b.1 = true → eqv b.1 a.1 = true → a = b)
    (fun a _ _ _ => rfl) (h.distinct.imp fun hab h _ => absurd h (hno hab))
    (h.distinct.imp fun hab _ h => absurd h (hno hab)) he hf hef hfe

theorem eqv_symm {a b : Yaml} (ha : Wf a) (hb : Wf b) (h : eqv a b = true) : eqv b a = true := by
  induction a using Yaml.induct generalizing b with
  | seq as ih =>
      obtain ⟨bs, rfl, has⟩ := eqv_seq.mp h
      refine eqv_seq.mpr ⟨as, rfl, ?_⟩
      have haw := ha.items
      have hbw := hb.items
      clear ha hb h
      induction has with
      | nil => exact .nil
      | cons hab _ ihrest =>
          obtain ⟨ihh, iht⟩ := List.forall_mem_cons.mp ih
          obtain ⟨hah, hat⟩ := List.forall_mem_cons.mp haw
          obtain ⟨hbh, hbt⟩ := List.forall_mem_cons.mp hbw
          exact .cons (ihh hah hbh hab) (ihrest iht hat hbt)
  | map as ih =>
      obtain ⟨bs, rfl, hlen, hsub⟩ := eqv_map.mp h
      have haw := wf_map.mp ha
      have hbw := wf_map.mp hb
      have hsymm : ∀ e ∈ as, ∀ f ∈ bs, eqv e.1 f.1 = true → eqv f.1 e.1 = true :=
        fun e he f hf => (ih e he).1 (haw.keys e he) (hbw.keys f hf)
      refine eqv_map.mpr ⟨as, rfl, hlen.symm, fun f hf => ?_⟩
      obtain ⟨e, he, hef⟩ := exists_key_of_length_eq haw hbw hlen hsymm
        (fun e he => (hsub e he).imp fun f hf => ⟨hf.1, hf.2.1⟩) f hf
      obtain ⟨g, hg, heg, hv⟩ := hsub e he
      -- The entry that `e` finds is `f`: their keys both equal the key of `e`.
      obtain rfl : g = f := hbw.eq_of_eqv hg hf
        (eqv_trans (hsymm e he g hg heg) hef) (eqv_trans (hsymm e he f hf hef) heg)
      exact ⟨e, he, hsymm e he g hf hef, (ih e he).2 (haw.values e he) (hbw.values g hf) hv⟩
  | tagged tag a ih =>
      obtain ⟨b, rfl, hab⟩ := eqv_tagged.mp h
      cases ha with
      | tagged ha =>
          cases hb with
          | tagged hb => exact eqv_tagged.mpr ⟨a, rfl, ih ha hb hab⟩
  | _ =>
      obtain rfl := (eqv_leaf rfl).mp h
      exact eqv_refl _

theorem eqv_comm {a b : Yaml} (ha : Wf a) (hb : Wf b) : eqv a b = eqv b a :=
  Bool.eq_iff_iff.mpr ⟨eqv_symm ha hb, eqv_symm hb ha⟩

/-- Equal values have the same equal values. -/
theorem eqv_congr {a b : Yaml} (ha : Wf a) (hb : Wf b) (h : eqv a b = true) (c : Yaml) :
    eqv a c = eqv b c :=
  Bool.eq_iff_iff.mpr ⟨eqv_trans (eqv_symm ha hb h), eqv_trans h⟩

theorem equals_eq_iff {a b : Yaml} (ha : Wf a) (hb : Wf b) :
    equals a = equals b ↔ eqv a b = true :=
  ⟨eqv_of_equals_eq hb, fun h => equals_eq h (eqv_symm ha hb h)⟩

/-! ## Look-ups -/

theorem getEntry_congr {k j : Yaml} (hk : Wf k) (hj : Wf j) (h : eqv k j = true)
    (entries : Entries) : getEntry k entries = getEntry j entries := by
  induction entries with
  | nil => rfl
  | cons e entries ih =>
      obtain ⟨i, v⟩ := e
      rw [getEntry, getEntry, ih, eqv_congr hk hj h]

theorem mem_of_getEntry {k v : Yaml} {entries : Entries} (h : getEntry k entries = some v) :
    ∃ j, (j, v) ∈ entries ∧ eqv k j = true := by
  induction entries with
  | nil => exact absurd h (by simp [getEntry])
  | cons e entries ih =>
      obtain ⟨i, w⟩ := e
      rw [getEntry] at h
      split at h
      · rename_i hi
        obtain rfl := Option.some.inj h
        exact ⟨i, List.mem_cons_self, hi⟩
      · obtain ⟨j, hj, heq⟩ := ih h
        exact ⟨j, List.mem_cons_of_mem _ hj, heq⟩

theorem getEntry_eq_none {k : Yaml} {entries : Entries} :
    getEntry k entries = none ↔ ∀ e ∈ entries, eqv k e.1 = false := by
  induction entries with
  | nil => simp [getEntry]
  | cons e entries ih =>
      obtain ⟨i, w⟩ := e
      rw [getEntry, List.forall_mem_cons]
      cases hi : eqv k i with
      | true => simp
      | false => simp [ih]

theorem getEntry_append (k : Yaml) (entries more : Entries) :
    getEntry k (entries ++ more) = (getEntry k entries).or (getEntry k more) := by
  induction entries with
  | nil => rfl
  | cons e entries ih =>
      obtain ⟨i, w⟩ := e
      rw [List.cons_append, getEntry, getEntry, ih]
      split
      · rfl
      · rfl

/-- The one entry with a key is what a look-up finds. -/
theorem getEntry_of_mem {entries : Entries} (h : WfEntries entries) {k j v : Yaml} (hk : Wf k)
    (hmem : (j, v) ∈ entries) (hkj : eqv k j = true) : getEntry k entries = some v := by
  cases hget : getEntry k entries with
  | none =>
      have hno := getEntry_eq_none.mp hget _ hmem
      rw [hkj] at hno
      exact absurd hno (by simp)
  | some w =>
      obtain ⟨i, hi, hki⟩ := mem_of_getEntry hget
      have hik : eqv i k = true := eqv_symm hk (h.keys _ hi) hki
      have hjk : eqv j k = true := eqv_symm hk (h.keys _ hmem) hkj
      obtain ⟨-, rfl⟩ := Prod.mk.inj
        (h.eq_of_eqv hi hmem (eqv_trans hik hkj) (eqv_trans hjk hki))
      rfl

theorem WfEntries.getEntry {entries : Entries} (h : WfEntries entries) {k v : Yaml}
    (hget : Merge.getEntry k entries = some v) : Wf v := by
  obtain ⟨j, hj, -⟩ := mem_of_getEntry hget
  exact h.values _ hj

theorem WfEntries.tail {e : Yaml × Yaml} {entries : Entries} (h : WfEntries (e :: entries)) :
    WfEntries entries :=
  ⟨(List.pairwise_cons.mp h.distinct).2, (List.forall_mem_cons.mp h.keys).2,
    (List.forall_mem_cons.mp h.values).2⟩

/-- The first key is not one of the others. -/
theorem WfEntries.getEntry_tail {k j v : Yaml} {entries : Entries}
    (h : WfEntries ((k, v) :: entries)) (hj : Wf j) (hkj : eqv k j = true) :
    Merge.getEntry j entries = none := by
  have hk : Wf k := h.keys _ List.mem_cons_self
  rw [← getEntry_congr hk hj hkj, getEntry_eq_none]
  exact (List.pairwise_cons.mp h.distinct).1

theorem keys_setEntry (k v : Yaml) (entries : Entries) :
    (setEntry k v entries).map Prod.fst = entries.map Prod.fst := by
  induction entries with
  | nil => rfl
  | cons e entries ih =>
      obtain ⟨i, w⟩ := e
      rw [setEntry]
      split
      · rfl
      · simp [ih]

theorem mem_setEntry {k v : Yaml} {entries : Entries} {e : Yaml × Yaml}
    (h : e ∈ setEntry k v entries) : e.2 = v ∨ e ∈ entries := by
  induction entries with
  | nil => exact absurd h (by simp [setEntry])
  | cons f entries ih =>
      obtain ⟨i, w⟩ := f
      rw [setEntry] at h
      split at h
      · rcases List.mem_cons.mp h with rfl | h
        · exact Or.inl rfl
        · exact Or.inr (List.mem_cons_of_mem _ h)
      · rcases List.mem_cons.mp h with rfl | h
        · exact Or.inr List.mem_cons_self
        · exact (ih h).imp_right (List.mem_cons_of_mem _)

theorem WfEntries.setEntry {entries : Entries} (h : WfEntries entries) (k : Yaml) {v : Yaml}
    (hv : Wf v) : WfEntries (Merge.setEntry k v entries) := by
  have hkeys := keys_setEntry k v entries
  refine ⟨?_, fun e he => ?_, fun e he => ?_⟩
  · have hdistinct : (entries.map Prod.fst).Pairwise (fun a b => eqv a b = false) :=
      List.pairwise_map.mpr h.distinct
    rw [← hkeys] at hdistinct
    exact List.pairwise_map.mp hdistinct
  · have hmem : e.1 ∈ entries.map Prod.fst := hkeys ▸ List.mem_map_of_mem he
    obtain ⟨f, hf, heq⟩ := List.mem_map.mp hmem
    exact heq ▸ h.keys f hf
  · rcases mem_setEntry he with heq | he
    · exact heq ▸ hv
    · exact h.values e he

theorem getEntry_setEntry {entries : Entries} (h : WfEntries entries) {k j : Yaml} (hk : Wf k)
    (hj : Wf j) (v : Yaml) :
    getEntry j (setEntry k v entries) =
      if eqv k j = true then (getEntry k entries).map (fun _ => v) else getEntry j entries := by
  induction entries with
  | nil => simp [setEntry, getEntry]
  | cons e entries ih =>
      obtain ⟨i, w⟩ := e
      have hi : Wf i := h.keys _ List.mem_cons_self
      rw [setEntry]
      by_cases hki : eqv k i = true
      · rw [if_pos hki, getEntry, getEntry, getEntry, if_pos hki]
        have hij : eqv j i = eqv k j := by
          rw [eqv_comm hj hi, ← eqv_congr hk hi hki]
        rw [hij]
        split
        · rfl
        · rfl
      · rw [if_neg hki, getEntry, ih h.tail, getEntry, getEntry, if_neg hki]
        by_cases hkj : eqv k j = true
        · rw [if_pos hkj, if_pos hkj, ← eqv_congr hk hj hkj, if_neg hki]
        · rw [if_neg hkj, if_neg hkj]

end Llmenv.Merge
