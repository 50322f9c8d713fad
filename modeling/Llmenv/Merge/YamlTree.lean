/-
# `Llmenv.Merge.YamlTree` — a merge of YAML values is an overlay of trees

What a value says apart from the order of its sequences and mappings is a tree
(`tree`): a mapping is a map from keys, a sequence the set of its normalised
elements.  Merging two values lays the tree of the one over the tree of the other
(`tree_mergeYaml`), and two merged values with one tree differ in the order of
elements in sequences only (`upToOrder_of_tree_eq`).
-/
import Llmenv.Lib.Overlay
import Llmenv.Merge.MergeKeys

namespace Llmenv.Merge

open Llmenv.Lib

/-- A value without a repeated key. -/
abbrev Value := {y : Yaml // Wf y}

/-- Leaves and elements are what they are equal to. -/
abbrev Tree := Overlay Value (Set Value) (Set Value)

mutual
/-- A value without the order of its parts. -/
def tree : Yaml → Tree
  | .null => .null
  | .bool b => .leaf (equals (.bool b))
  | .num n => .leaf (equals (.num n))
  | .str s => .leaf (equals (.str s))
  | .tagged tag value => .leaf (equals (.tagged tag value))
  | .seq items => .seq {c | ∃ y ∈ items, c = equals (normalizeYaml y)}
  | .map entries => .map fun k => treeAt k.1 entries

/-- The tree of the value under a key. -/
def treeAt (k : Yaml) : List (Yaml × Yaml) → Tree
  | [] => .absent
  | (j, v) :: entries => if eqv k j then tree v else treeAt k entries
end

/-- Nothing has the empty tree. -/
def treeOf : Option Yaml → Tree
  | none => .absent
  | some y => tree y

theorem treeAt_eq (k : Yaml) (entries : Entries) :
    treeAt k entries = treeOf (getEntry k entries) := by
  induction entries with
  | nil => rfl
  | cons e entries ih =>
      obtain ⟨j, v⟩ := e
      rw [treeAt, getEntry, ih]
      split
      · rfl
      · rfl

theorem tree_map (entries : Entries) :
    tree (.map entries) = .map fun k => treeOf (getEntry k.1 entries) := by
  rw [tree]
  exact congrArg Overlay.map (funext fun k => treeAt_eq k.1 entries)

theorem tree_ne_absent (y : Yaml) : tree y ≠ .absent := by
  cases y <;> simp [tree]

theorem tree_eq_null {y : Yaml} : tree y = .null ↔ y = .null := by
  cases y <;> simp [tree]

theorem isNull_eq_true {y : Yaml} : isNull y = true ↔ y = .null := by
  cases y <;> simp [isNull]

/-- A null at a place that is there replaces it, as any value does. -/
theorem put_tree {d : Tree} (h : d ≠ .absent) (y : Yaml) :
    d.put (tree y) = d.merge (tree y) := by
  by_cases hy : tree y = .null
  · rw [hy, Overlay.merge_null h]
    rfl
  · exact Overlay.put_eq_merge hy d

/-! ## Normalising and merging -/

/-- The elements of a sequence, and those of the normalised one. -/
theorem elems_dedupYaml {items : List Yaml} (h : ∀ y ∈ items, Wf y) :
    {c | ∃ y ∈ dedupYaml (items.map normalizeYaml), c = equals (normalizeYaml y)} =
      {c | ∃ y ∈ items, c = equals (normalizeYaml y)} := by
  have hwf : ∀ y ∈ items.map normalizeYaml, Wf y := by
    intro y hy
    obtain ⟨x, hx, rfl⟩ := List.mem_map.mp hy
    exact wf_normalizeYaml (h x hx)
  refine Set.ext fun c => ⟨?_, ?_⟩
  · rintro ⟨y, hy, rfl⟩
    obtain ⟨x, hx, rfl⟩ := List.mem_map.mp (mem_dedupYaml hy)
    exact ⟨x, hx, congrArg equals (normalizeYaml_idem x)⟩
  · rintro ⟨y, hy, rfl⟩
    have hmem : normalizeYaml y ∈ items.map normalizeYaml := List.mem_map_of_mem hy
    obtain ⟨z, hz, heq⟩ := exists_dedupYaml hmem
    obtain ⟨x, hx, rfl⟩ := List.mem_map.mp (mem_dedupYaml hz)
    refine ⟨_, hz, ?_⟩
    rw [normalizeYaml_idem, equals_eq_iff (hwf _ hmem) (hwf _ (mem_dedupYaml hz))]
    exact heq

theorem tree_normalize_seq {items : List Yaml} (h : ∀ y ∈ items, Wf y) :
    tree (normalizeYaml (.seq items)) = tree (.seq items) := by
  rw [normalizeYaml, normalizeYamlItems_eq_map, tree, tree, elems_dedupYaml h]

theorem tree_normalizeYaml {y : Yaml} (h : Wf y) :
    tree (normalizeYaml y) = Overlay.absent.put (tree y) := by
  induction y using Yaml.induct with
  | seq items ih =>
      rw [tree_normalize_seq h.items, tree]
      show _ = Overlay.seq (∅ ∪ _)
      rw [Set.empty_union]
  | map entries ih =>
      have hentries := wf_map.mp h
      rw [normalizeYaml, tree_map, tree_map]
      refine congrArg Overlay.map (funext fun k => ?_)
      show _ = Overlay.absent.merge (treeOf (getEntry k.1 entries))
      rw [getEntry_normalizeEntries hentries k.2]
      cases hget : getEntry k.1 entries with
      | none => rfl
      | some v =>
          obtain ⟨j, hj, -⟩ := mem_of_getEntry hget
          rw [Option.bind_some]
          cases hnull : isNull v with
          | true =>
              obtain rfl := isNull_eq_true.mp hnull
              rfl
          | false =>
              have hv : tree v ≠ .null := by
                intro hv
                rw [tree_eq_null.mp hv] at hnull
                exact absurd hnull (by simp [isNull])
              exact ((ih _ hj).2 (hentries.values _ hj)).trans (Overlay.put_eq_merge hv _)
  | _ => rfl

/-- What a merge leaves under a key is the one tree laid over the other. -/
theorem treeOf_mergeEntry {old : Option Yaml} {v : Yaml} (hv : Wf v)
    (ih : ∀ e, old = some e → tree (mergeYaml e v) = (tree e).put (tree v)) :
    treeOf (mergeEntry old v) = (treeOf old).merge (tree v) := by
  cases old with
  | some e => exact (ih e rfl).trans (put_tree (tree_ne_absent e) v)
  | none =>
      rw [mergeEntry]
      cases hnull : isNull v with
      | true =>
          obtain rfl := isNull_eq_true.mp hnull
          rfl
      | false =>
          have hne : tree v ≠ .null := by
            intro hne
            rw [tree_eq_null.mp hne] at hnull
            exact absurd hnull (by simp [isNull])
          exact (tree_normalizeYaml hv).trans (Overlay.put_eq_merge hne _)

/-- Where one of the two is not nested, or not nested alike, the old tree does not count. -/
theorem put_replace {d s : Yaml} (h : bothNested d s = false) :
    (tree d).put (tree s) = Overlay.absent.put (tree s) := by
  cases s with
  | seq items =>
      cases d with
      | seq old => exact absurd h (by simp [bothNested])
      | _ => rfl
  | map entries =>
      cases d with
      | map old => exact absurd h (by simp [bothNested])
      | _ => rfl
  | _ => rfl

/-- A merge lays the tree of the source over the tree of the destination. -/
theorem tree_mergeYaml {d s : Yaml} (hd : Wf d) (hs : Wf s) :
    tree (mergeYaml d s) = (tree d).put (tree s) := by
  induction d, s using mergeYaml_induct with
  | replace d s hnested =>
      rw [mergeYaml_replace hnested, tree_normalizeYaml hs, put_replace hnested]
  | seq dst src =>
      rw [mergeYaml_seq, tree_normalize_seq (List.forall_mem_append.mpr ⟨hd.items, hs.items⟩),
        tree, tree, tree]
      refine congrArg Overlay.seq (Set.ext fun c => ?_)
      simp only [Set.mem_ofPred_eq, List.mem_append, or_and_right, exists_or]
      exact Iff.rfl
  | map dst src ih =>
      have hsrc := wf_map.mp hs
      have hdst := wf_map.mp hd
      obtain ⟨-, hget⟩ := getEntry_mergeEntries
        (fun f hf e he => wf_mergeYaml he (hsrc.values f hf)) hsrc hdst
      rw [mergeYaml_map, tree_map, tree_map, tree_map]
      refine congrArg Overlay.map (funext fun k => ?_)
      show _ = (treeOf (getEntry k.1 dst)).merge (treeOf (getEntry k.1 src))
      rw [hget k.1 k.2]
      cases hv : getEntry k.1 src with
      | none => rfl
      | some v =>
          obtain ⟨j, hj, -⟩ := mem_of_getEntry hv
          refine treeOf_mergeEntry (hsrc.values _ hj) fun e he => ?_
          exact ih _ hj e (hdst.getEntry he) (hsrc.values _ hj)

/-! ## Values that can be merged in either order -/

mutual
/-- In every place of both, two mappings, two sequences or two equal values. -/
def compatible : Yaml → Yaml → Bool
  | .map as, .map bs => compatibleEntries as bs
  | .seq _, .seq _ => true
  | a, b => eqv a b

def compatibleEntries : List (Yaml × Yaml) → List (Yaml × Yaml) → Bool
  | [], _ => true
  | (k, v) :: as, bs =>
      (match getEntry k bs with
        | none => true
        | some w => compatible v w) && compatibleEntries as bs
end

theorem compatibleEntries_eq_true {as bs : Entries} :
    compatibleEntries as bs = true ↔
      ∀ e ∈ as, ∀ w, getEntry e.1 bs = some w → compatible e.2 w = true := by
  induction as with
  | nil => simp [compatibleEntries]
  | cons e as ih =>
      obtain ⟨k, v⟩ := e
      rw [compatibleEntries, Bool.and_eq_true, ih, List.forall_mem_cons]
      cases getEntry k bs <;> simp

/-- A value that is a leaf of its tree. -/
def isTreeLeaf : Yaml → Bool
  | .bool _ => true
  | .num _ => true
  | .str _ => true
  | .tagged _ _ => true
  | _ => false

theorem tree_leaf {y : Yaml} (h : isTreeLeaf y = true) : tree y = .leaf (equals y) := by
  cases y with
  | null => exact absurd h (by simp [isTreeLeaf])
  | seq items => exact absurd h (by simp [isTreeLeaf])
  | map entries => exact absurd h (by simp [isTreeLeaf])
  | _ => rfl

theorem tree_eq_leaf {y : Yaml} {c : Set Value} :
    tree y = .leaf c ↔ isTreeLeaf y = true ∧ equals y = c := by
  cases y <;> simp [tree, isTreeLeaf]

theorem isTreeLeaf_of_eqv {a b : Yaml} (ha : isTreeLeaf a = true) (h : eqv a b = true) :
    isTreeLeaf b = true := by
  cases a with
  | tagged tag value =>
      obtain ⟨c, rfl, -⟩ := eqv_tagged.mp h
      rfl
  | null => exact absurd ha (by simp [isTreeLeaf])
  | seq items => exact absurd ha (by simp [isTreeLeaf])
  | map entries => exact absurd ha (by simp [isTreeLeaf])
  | _ =>
      obtain rfl := (eqv_leaf rfl).mp h
      rfl

theorem tree_eq_leaf_iff {a b : Yaml} (ha : Wf a) (hb : Wf b) (hleaf : isTreeLeaf a = true) :
    tree b = tree a ↔ eqv a b = true := by
  rw [tree_leaf hleaf, tree_eq_leaf, equals_eq_iff hb ha]
  constructor
  · rintro ⟨-, h⟩
    exact eqv_symm hb ha h
  · intro h
    exact ⟨isTreeLeaf_of_eqv hleaf h, eqv_symm ha hb h⟩

/-- Values are compatible exactly when their trees are. -/
theorem compatible_iff {a b : Yaml} (ha : Wf a) (hb : Wf b) :
    compatible a b = true ↔ (tree a).Compatible (tree b) := by
  induction a using Yaml.induct generalizing b with
  | null => cases b <;> simp [compatible, eqv, tree, Overlay.Compatible]
  | seq items ih => cases b <;> simp [compatible, eqv, tree, Overlay.Compatible]
  | map as ih =>
      cases b with
      | map bs =>
          have haw := wf_map.mp ha
          have hbw := wf_map.mp hb
          have hunder : ∀ e ∈ as, ∀ w, getEntry e.1 bs = some w →
              (compatible e.2 w = true ↔ (tree e.2).Compatible (tree w)) :=
            fun e he w hw => (ih e he).2 (haw.values e he) (hbw.getEntry hw)
          rw [compatible, compatibleEntries_eq_true, tree_map, tree_map]
          constructor
          · intro h k
            show (treeOf (getEntry k.1 as)).Compatible (treeOf (getEntry k.1 bs))
            cases hv : getEntry k.1 as with
            | none => exact trivial
            | some v =>
                obtain ⟨j, hj, hkj⟩ := mem_of_getEntry hv
                rw [getEntry_congr k.2 (haw.keys _ hj) hkj]
                cases hw : getEntry j bs with
                | none => exact Overlay.compatible_absent _
                | some w => exact (hunder _ hj w hw).mp (h _ hj w hw)
          · intro h e he w hw
            have hk := haw.keys e he
            have hcompat : (treeOf (getEntry e.1 as)).Compatible (treeOf (getEntry e.1 bs)) :=
              h ⟨e.1, hk⟩
            rw [getEntry_of_mem haw hk he (eqv_refl e.1), hw] at hcompat
            exact (hunder e he w hw).mpr hcompat
      | _ => simp [compatible, eqv, tree, Overlay.Compatible]
  | _ =>
      rw [compatible, ← tree_eq_leaf_iff ha hb rfl]
      · exact (Overlay.compatible_leaf (tree_ne_absent b)).symm
      all_goals simp

/-! ## One tree, one value up to the order in sequences -/

/-- Equal but for the order of elements in sequences. -/
inductive UpToOrder : Yaml → Yaml → Prop
  | equal {a b : Yaml} : eqv a b = true → UpToOrder a b
  | seq {as bs cs : List Yaml} : as.Perm cs →
      List.Forall₂ (fun c b => eqv c b = true) cs bs → UpToOrder (.seq as) (.seq bs)
  | map {as bs : Entries} : (∀ e ∈ as, ∃ f ∈ bs, eqv e.1 f.1 = true) →
      (∀ f ∈ bs, ∃ e ∈ as, eqv e.1 f.1 = true) →
      (∀ e ∈ as, ∀ f ∈ bs, eqv e.1 f.1 = true → UpToOrder e.2 f.2) →
      UpToOrder (.map as) (.map bs)

/-- Every sequence in a place has normalised elements, none of them twice. -/
inductive Deduped : Yaml → Prop
  | leaf {y : Yaml} : isLeaf y = true → Deduped y
  | tagged (tag : String) (value : Yaml) : Deduped (.tagged tag value)
  | seq {items : List Yaml} : Distinct items → (∀ y ∈ items, normalizeYaml y = y) →
      Deduped (.seq items)
  | map {entries : Entries} : (∀ e ∈ entries, Deduped e.2) → Deduped (.map entries)

theorem deduped_normalizeYaml (y : Yaml) : Deduped (normalizeYaml y) := by
  induction y using Yaml.induct with
  | seq items ih =>
      rw [normalizeYaml, normalizeYamlItems_eq_map]
      refine .seq (distinct_dedupYaml _) fun y hy => ?_
      obtain ⟨x, hx, rfl⟩ := List.mem_map.mp (mem_dedupYaml hy)
      exact normalizeYaml_idem x
  | map entries ih =>
      rw [normalizeYaml, normalizeEntries_eq]
      refine .map fun e he => ?_
      obtain ⟨f, hf, rfl⟩ := List.mem_map.mp he
      exact (ih f (List.mem_of_mem_filter hf)).2
  | tagged tag value ih => exact .tagged tag value
  | _ => exact .leaf rfl

theorem deduped_mergeYaml {d s : Yaml} (hd : Deduped d) : Deduped (mergeYaml d s) := by
  induction d, s using mergeYaml_induct with
  | replace d s hnested =>
      rw [mergeYaml_replace hnested]
      exact deduped_normalizeYaml _
  | seq dst src =>
      rw [mergeYaml_seq]
      exact deduped_normalizeYaml _
  | map dst src ih =>
      rw [mergeYaml_map]
      cases hd with
      | leaf h => exact absurd h (by simp [isLeaf])
      | map hdst =>
          exact .map (forall_mergeEntries (fun f _ => deduped_normalizeYaml f.2)
            (fun f hf e he => ih f hf e he) hdst)

/-- A list whose images are those of `bs` in another order can be put in their order. -/
theorem exists_perm_of_map_perm {α β : Type} {f : α → β} {R : α → α → Prop} {as bs : List α}
    (h : (as.map f).Perm (bs.map f)) (hR : ∀ b ∈ bs, ∀ a, f a = f b → R a b) :
    ∃ cs, as.Perm cs ∧ List.Forall₂ R cs bs := by
  induction bs generalizing as with
  | nil =>
      have has : as = [] := List.map_eq_nil_iff.mp h.eq_nil
      exact ⟨[], has ▸ List.Perm.refl _, .nil⟩
  | cons b bs ih =>
      obtain ⟨hb, hbs⟩ := List.forall_mem_cons.mp hR
      obtain ⟨a, ha, hab⟩ := List.mem_map.mp (h.mem_iff.mpr List.mem_cons_self)
      obtain ⟨u, v, rfl⟩ := List.append_of_mem ha
      have hmiddle : (u ++ a :: v).Perm (a :: (u ++ v)) := List.perm_middle
      have hrest : ((u ++ v).map f).Perm (bs.map f) := by
        have hcons : (f a :: (u ++ v).map f).Perm (f b :: bs.map f) :=
          (hmiddle.map f).symm.trans h
        rw [hab] at hcons
        exact (List.perm_cons _).mp hcons
      obtain ⟨cs, hperm, hcs⟩ := ih hrest hbs
      exact ⟨a :: cs, hmiddle.trans (hperm.cons a), .cons (hb a hab) hcs⟩

theorem nodup_equals {items : List Yaml} (hwf : ∀ y ∈ items, Wf y) (h : Distinct items) :
    (items.map equals).Nodup := by
  refine List.pairwise_map.mpr (h.imp_of_mem fun {a b} ha _ hab heq => ?_)
  rw [eqv_of_equals_eq (hwf a ha) heq.symm] at hab
  exact absurd hab (by simp)

/-- The same elements, none of them twice. -/
theorem upToOrder_seq {as bs : List Yaml} (has : ∀ y ∈ as, Wf y) (hbs : ∀ y ∈ bs, Wf y)
    (hda : Distinct as) (hdb : Distinct bs) (h : ∀ c, c ∈ as.map equals ↔ c ∈ bs.map equals) :
    UpToOrder (.seq as) (.seq bs) := by
  have hperm : (as.map equals).Perm (bs.map equals) :=
    (List.perm_ext_iff_of_nodup (nodup_equals has hda) (nodup_equals hbs hdb)).mpr h
  obtain ⟨cs, hcs, hall⟩ := exists_perm_of_map_perm hperm
    fun b hb c heq => eqv_of_equals_eq (hbs b hb) heq
  exact .seq hcs hall

theorem mem_elems {items : List Yaml} (h : ∀ y ∈ items, normalizeYaml y = y) (c : Set Value) :
    (∃ y ∈ items, c = equals (normalizeYaml y)) ↔ c ∈ items.map equals := by
  rw [List.mem_map]
  refine exists_congr fun y => and_congr_right fun hy => ?_
  rw [h y hy]
  exact eq_comm

/-- A key of the one mapping is a key of the other. -/
theorem exists_of_treeOf_eq {k v : Yaml} {as bs : Entries} (hget : getEntry k as = some v)
    (h : treeOf (getEntry k as) = treeOf (getEntry k bs)) :
    ∃ f ∈ bs, eqv k f.1 = true := by
  cases hb : getEntry k bs with
  | none =>
      rw [hget, hb] at h
      exact absurd h (tree_ne_absent v)
  | some w =>
      obtain ⟨j, hj, heq⟩ := mem_of_getEntry hb
      exact ⟨_, hj, heq⟩

/-- Merged values with one tree are equal up to the order in sequences. -/
theorem upToOrder_of_tree_eq {a b : Yaml} (ha : Wf a) (hb : Wf b) (hda : Deduped a)
    (hdb : Deduped b) (h : tree a = tree b) : UpToOrder a b := by
  induction a using Yaml.induct generalizing b with
  | null => exact .equal ((eqv_leaf rfl).mpr (tree_eq_null.mp h.symm).symm)
  | seq as ih =>
      cases b with
      | seq bs =>
          cases hda with
          | leaf h => exact absurd h (by simp [isLeaf])
          | seq hdas hna =>
              cases hdb with
              | leaf h => exact absurd h (by simp [isLeaf])
              | seq hdbs hnb =>
                  refine upToOrder_seq ha.items hb.items hdas hdbs fun c => ?_
                  rw [tree, tree] at h
                  rw [← mem_elems hna, ← mem_elems hnb]
                  exact Set.ext_iff.mp (Overlay.seq.inj h) c
      | _ => exact absurd h (by simp [tree])
  | map as ih =>
      cases b with
      | map bs =>
          have haw := wf_map.mp ha
          have hbw := wf_map.mp hb
          cases hda with
          | leaf h => exact absurd h (by simp [isLeaf])
          | map hdas =>
              cases hdb with
              | leaf h => exact absurd h (by simp [isLeaf])
              | map hdbs =>
                  rw [tree_map, tree_map] at h
                  have hget : ∀ k, Wf k →
                      treeOf (getEntry k as) = treeOf (getEntry k bs) := fun k hk =>
                    congrFun (Overlay.map.inj h) ⟨k, hk⟩
                  refine .map (fun e he => ?_) (fun f hf => ?_) fun e he f hf hef => ?_
                  · have hk := haw.keys e he
                    exact exists_of_treeOf_eq (getEntry_of_mem haw hk he (eqv_refl _)) (hget _ hk)
                  · have hk := hbw.keys f hf
                    obtain ⟨e, he, hfe⟩ := exists_of_treeOf_eq
                      (getEntry_of_mem hbw hk hf (eqv_refl _)) (hget _ hk).symm
                    exact ⟨e, he, eqv_symm hk (haw.keys e he) hfe⟩
                  · have hk := haw.keys e he
                    have htree := hget e.1 hk
                    rw [getEntry_of_mem haw hk he (eqv_refl _),
                      getEntry_of_mem hbw hk hf hef] at htree
                    exact (ih e he).2 (haw.values e he) (hbw.values f hf) (hdas e he)
                      (hdbs f hf) htree
      | _ => exact absurd h (by simp [tree])
  | _ => exact .equal ((tree_eq_leaf_iff ha hb rfl).mp h.symm)

/-- The same keys, and under each of them values with one tree. -/
theorem tree_map_congr {as bs : Entries} (ha : WfEntries as) (hb : WfEntries bs)
    (hkeys : ∀ e ∈ as, ∃ f ∈ bs, eqv e.1 f.1 = true)
    (hkeys' : ∀ f ∈ bs, ∃ e ∈ as, eqv e.1 f.1 = true)
    (hvalues : ∀ e ∈ as, ∀ f ∈ bs, eqv e.1 f.1 = true → tree e.2 = tree f.2) :
    tree (.map as) = tree (.map bs) := by
  rw [tree_map, tree_map]
  refine congrArg Overlay.map (funext fun k => ?_)
  cases hv : getEntry k.1 as with
  | some v =>
      obtain ⟨j, hj, hkj⟩ := mem_of_getEntry hv
      obtain ⟨f, hf, hjf⟩ := hkeys _ hj
      rw [getEntry_of_mem hb k.2 hf (eqv_trans hkj hjf)]
      exact hvalues _ hj f hf hjf
  | none =>
      have hnone : getEntry k.1 bs = none := by
        refine getEntry_eq_none.mpr fun f hf => ?_
        by_contra hkf
        obtain ⟨e, he, hef⟩ := hkeys' f hf
        have hkf : eqv k.1 f.1 = true := by simpa using hkf
        have hfe := eqv_symm (ha.keys e he) (hb.keys f hf) hef
        have hno := getEntry_eq_none.mp hv e he
        rw [eqv_trans hkf hfe] at hno
        exact absurd hno (by simp)
      rw [hnone]

theorem elems_congr {as bs : List Yaml} (has : ∀ y ∈ as, Wf y) (hbs : ∀ y ∈ bs, Wf y)
    (h : List.Forall₂ (fun a b => eqv a b = true) as bs) : as.map equals = bs.map equals := by
  induction h with
  | nil => rfl
  | cons hab _ ih =>
      obtain ⟨ha, has⟩ := List.forall_mem_cons.mp has
      obtain ⟨hb, hbs⟩ := List.forall_mem_cons.mp hbs
      rw [List.map_cons, List.map_cons, (equals_eq_iff ha hb).mpr hab, ih has hbs]

theorem tree_seq_congr {as bs : List Yaml} (hda : Deduped (.seq as)) (hdb : Deduped (.seq bs))
    (h : ∀ c, c ∈ as.map equals ↔ c ∈ bs.map equals) : tree (.seq as) = tree (.seq bs) := by
  cases hda with
  | leaf h => exact absurd h (by simp [isLeaf])
  | seq _ hna =>
      cases hdb with
      | leaf h => exact absurd h (by simp [isLeaf])
      | seq _ hnb =>
          rw [tree, tree]
          refine congrArg Overlay.seq (Set.ext fun c => ?_)
          exact (mem_elems hna c).trans ((h c).trans (mem_elems hnb c).symm)

theorem Deduped.values {entries : Entries} (h : Deduped (.map entries)) :
    ∀ e ∈ entries, Deduped e.2 := by
  cases h with
  | leaf h => exact absurd h (by simp [isLeaf])
  | map h => exact h

theorem tree_congr {a b : Yaml} (ha : Wf a) (hb : Wf b) (hda : Deduped a) (hdb : Deduped b)
    (h : eqv a b = true) : tree a = tree b := by
  induction a using Yaml.induct generalizing b with
  | null => rw [(eqv_leaf rfl).mp h]
  | seq as ih =>
      obtain ⟨bs, rfl, hall⟩ := eqv_seq.mp h
      refine tree_seq_congr hda hdb fun c => ?_
      rw [elems_congr ha.items hb.items hall]
  | map as ih =>
      obtain ⟨bs, rfl, hlen, hsub⟩ := eqv_map.mp h
      have haw := wf_map.mp ha
      have hbw := wf_map.mp hb
      have hsymm : ∀ e ∈ as, ∀ f ∈ bs, eqv e.1 f.1 = true → eqv f.1 e.1 = true :=
        fun e he f hf => eqv_symm (haw.keys e he) (hbw.keys f hf)
      have hkeys : ∀ e ∈ as, ∃ f ∈ bs, eqv e.1 f.1 = true :=
        fun e he => (hsub e he).imp fun f hf => ⟨hf.1, hf.2.1⟩
      refine tree_map_congr haw hbw hkeys
        (exists_key_of_length_eq haw hbw hlen hsymm hkeys) fun e he f hf hef => ?_
      obtain ⟨g, hg, heg, hv⟩ := hsub e he
      obtain rfl : g = f := hbw.eq_of_eqv hg hf
        (eqv_trans (hsymm e he g hg heg) hef) (eqv_trans (hsymm e he f hf hef) heg)
      exact (ih e he).2 (haw.values e he) (hbw.values g hf) (hda.values e he)
        (hdb.values g hf) hv
  | _ => exact ((tree_eq_leaf_iff ha hb rfl).mpr h).symm

/-- Merged values that are equal up to the order in sequences have one tree. -/
theorem tree_eq_of_upToOrder {a b : Yaml} (h : UpToOrder a b) (ha : Wf a) (hb : Wf b)
    (hda : Deduped a) (hdb : Deduped b) : tree a = tree b := by
  induction h with
  | equal h => exact tree_congr ha hb hda hdb h
  | @seq as bs cs hperm hall =>
      refine tree_seq_congr hda hdb fun c => ?_
      have hcs : ∀ y ∈ cs, Wf y := fun y hy => ha.items y (hperm.mem_iff.mpr hy)
      rw [← elems_congr hcs hb.items hall]
      exact (hperm.map equals).mem_iff
  | map hkeys hkeys' _ ih =>
      have haw := wf_map.mp ha
      have hbw := wf_map.mp hb
      exact tree_map_congr haw hbw hkeys hkeys' fun e he f hf hef =>
        ih e he f hf hef (haw.values e he) (hbw.values f hf) (hda.values e he)
          (hdb.values f hf)

/-- Of merged values the tree is all but the order in sequences. -/
theorem upToOrder_iff {a b : Yaml} (ha : Wf a) (hb : Wf b) (hda : Deduped a) (hdb : Deduped b) :
    UpToOrder a b ↔ tree a = tree b :=
  ⟨fun h => tree_eq_of_upToOrder h ha hb hda hdb, upToOrder_of_tree_eq ha hb hda hdb⟩

end Llmenv.Merge
