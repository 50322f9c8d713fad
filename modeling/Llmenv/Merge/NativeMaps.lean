/-
# `Llmenv.Merge.NativeMaps` — the native maps and the order of the contributors

The fragments of one engine are merged in ascending precedence, and within one
precedence in the order in which they came.  As trees they are put over each
other (`tree_mergeFragment`), and this commutes exactly when two fragments are
compatible.

So the native maps do not depend on the order when contributors of one
precedence are compatible (`natives_perm`), and where they are not, a merge of
two contributors does.
-/
import Llmenv.Merge.Capabilities

namespace Llmenv.Merge

open Llmenv.Lib Llmenv.Lib.Ranked

variable {P : Payload → Type}

/-! ## Merging fragments as trees -/

/-- The tree of what is merged for an engine, if anything. -/
def treeOfValue (v : Option Value) : Tree := treeOf (v.map Subtype.val)

theorem tree_mergeFragment (old : Option Value) (fragment : Value) :
    treeOfValue (some (mergeFragment old fragment)) = (treeOfValue old).put (tree fragment.1) := by
  cases old with
  | none => exact tree_normalizeYaml fragment.2
  | some existing => exact tree_mergeYaml existing.2 fragment.2

/-- One round of the loop, on trees. -/
def putFragment (fragment : Capabilities P → Option Value) (t : Tree)
    (c : CapabilityContributor P) : Tree :=
  match fragment c.capabilities with
  | none => t
  | some f => t.put (tree f.1)

theorem treeOfValue_mergeFragments (fragment : Capabilities P → Option Value)
    (ordered : List (CapabilityContributor P)) (old : Option Value) :
    treeOfValue (mergeFragments ordered fragment old) =
      ordered.foldl (putFragment fragment) (treeOfValue old) := by
  induction ordered generalizing old with
  | nil => rfl
  | cons c ordered ih =>
      rw [mergeFragments, List.foldl_cons, List.foldl_cons, ← mergeFragments, ih]
      have hround : treeOfValue
          (match fragment c.capabilities with
            | none => old
            | some f => some (mergeFragment old f)) = putFragment fragment (treeOfValue old) c := by
        rw [putFragment]
        cases fragment c.capabilities with
        | none => rfl
        | some f => exact tree_mergeFragment old f
      exact congrArg (ordered.foldl (putFragment fragment)) hround

/-- What is merged has no element of a sequence twice. -/
theorem deduped_mergeFragments {fragment : Capabilities P → Option Value}
    {ordered : List (CapabilityContributor P)} {old : Option Value} {v : Value}
    (hold : ∀ v, old = some v → Deduped v.1)
    (h : mergeFragments ordered fragment old = some v) : Deduped v.1 := by
  induction ordered generalizing old with
  | nil => exact hold v h
  | cons c ordered ih =>
      rw [mergeFragments, List.foldl_cons, ← mergeFragments] at h
      refine ih (fun w hw => ?_) h
      cases hc : fragment c.capabilities with
      | none =>
          rw [hc] at hw
          exact hold w hw
      | some f =>
          rw [hc] at hw
          obtain rfl := Option.some.inj hw
          cases old with
          | none => exact deduped_normalizeYaml f.1
          | some existing => exact deduped_mergeYaml (hold existing rfl)

/-! ## The order of the contributors -/

/-- Equal fragments, up to the order of elements inside sequences. -/
def SameFragment (v w : Option Value) : Prop := Option.Rel (fun a b => UpToOrder a.1 b.1) v w

/-- The two calls, if both succeed, give the same native maps. -/
def SameNatives (home : Home) [∀ k, DecidableEq (P k)] (cs cs' : List (CapabilityContributor P)) :
    Prop :=
  ∀ m m', mergeCapabilities home cs = .ok m → mergeCapabilities home cs' = .ok m' →
    ∀ (f : NativeField) (engine : String),
      SameFragment (Fields.get engine (m.nativeOf f).items)
        (Fields.get engine (m'.nativeOf f).items)

/-- Contributors of one precedence have compatible fragments. -/
def NativeCompatible (cs : List (CapabilityContributor P)) : Prop :=
  ∀ a ∈ cs, ∀ b ∈ cs, a.precedence = b.precedence → ∀ (f : NativeField) (engine : String),
    ∀ x y, pickKey engine (fun c => c.nativeOf f) a.capabilities = some x →
      pickKey engine (fun c => c.nativeOf f) b.capabilities = some y → compatible x.1 y.1 = true

theorem sameFragment_of_tree_eq {v w : Option Value} (hv : ∀ a, v = some a → Deduped a.1)
    (hw : ∀ b, w = some b → Deduped b.1) (h : treeOfValue v = treeOfValue w) :
    SameFragment v w := by
  cases v with
  | none =>
      cases w with
      | none => exact .none
      | some b => exact absurd h.symm (tree_ne_absent b.1)
  | some a =>
      cases w with
      | none => exact absurd h (tree_ne_absent a.1)
      | some b => exact .some (upToOrder_of_tree_eq a.2 b.2 (hv a rfl) (hw b rfl) h)

theorem tree_eq_of_sameFragment {a b : Value} (ha : Deduped a.1) (hb : Deduped b.1)
    (h : SameFragment (some a) (some b)) : tree a.1 = tree b.1 := by
  cases h with
  | some h => exact tree_eq_of_upToOrder h a.2 b.2 ha hb

/-- The fragments of compatible contributors, merged in any order. -/
theorem mergeFragments_perm {fragment : Capabilities P → Option Value}
    {cs cs' : List (CapabilityContributor P)} (hp : cs.Perm cs')
    (hcompatible : ∀ a ∈ cs, ∀ b ∈ cs, a.precedence = b.precedence → ∀ x y,
      fragment a.capabilities = some x → fragment b.capabilities = some y →
        compatible x.1 y.1 = true) :
    SameFragment
      (mergeFragments (sortByKey CapabilityContributor.precedence cs) fragment none)
      (mergeFragments (sortByKey CapabilityContributor.precedence cs') fragment none) := by
  refine sameFragment_of_tree_eq (fun a => deduped_mergeFragments (fun _ h => by cases h))
    (fun b => deduped_mergeFragments (fun _ h => by cases h)) ?_
  rw [treeOfValue_mergeFragments, treeOfValue_mergeFragments]
  have hsorted : (sortByKey CapabilityContributor.precedence cs).Perm
      (sortByKey CapabilityContributor.precedence cs') :=
    (sortByKey_perm _ cs).trans (hp.trans (sortByKey_perm _ cs').symm)
  refine foldl_eq_of_perm hsorted (pairwise_sortByKey _ cs) (pairwise_sortByKey _ cs') ?_ _
  intro a ha b hb hprec t
  simp only [putFragment]
  cases hx : fragment a.capabilities with
  | none => rfl
  | some x =>
      cases hy : fragment b.capabilities with
      | none => rfl
      | some y =>
          have h := hcompatible a (mem_sortByKey.mp ha) b (mem_sortByKey.mp hb) hprec x y hx hy
          exact Overlay.put_right_comm ((compatible_iff x.2 y.2).mp h) t

section

variable [∀ k, DecidableEq (P k)] {home : Home} {cs : List (CapabilityContributor P)}

theorem get_nativeOf {m : Capabilities P} (hm : mergeCapabilities home cs = .ok m)
    (f : NativeField) (engine : String) :
    Fields.get engine (m.nativeOf f).items =
      mergeFragments (sortByKey CapabilityContributor.precedence cs)
        (pickKey engine fun c => c.nativeOf f) none := by
  rw [(merged_of_ok hm).natives, get_mergeNativeFeature]

theorem sameNatives_of_compatible (h : NativeCompatible cs)
    {cs' : List (CapabilityContributor P)} (hp : cs.Perm cs') : SameNatives home cs cs' := by
  intro m m' hm hm' f engine
  rw [get_nativeOf hm, get_nativeOf hm']
  exact mergeFragments_perm hp fun a ha b hb hprec => h a ha b hb hprec f engine

/-- Fewer contributors fail less. -/
theorem succeeds_of_subset {sub : List (CapabilityContributor P)} (hsub : sub ⊆ cs)
    (h : ∃ m, mergeCapabilities home cs = .ok m) : ∃ m, mergeCapabilities home sub = .ok m := by
  obtain ⟨hconflict, hexpand⟩ := mergeCapabilities_ok_iff.mp h
  refine mergeCapabilities_ok_iff.mpr ⟨fun hc => hconflict ?_, fun he => hexpand ?_⟩
  · have hmono : ∀ {V : Type} {pick : Capabilities P → Option V},
        ¬NoTie sub pick → ¬NoTie cs pick := fun hn hcs =>
      hn fun a ha b hb => hcs a (hsub ha) b (hsub hb)
    rcases hc with ⟨f, hf⟩ | ⟨f, key, hf⟩
    · exact Or.inl ⟨f, hmono hf⟩
    · exact Or.inr ⟨f, key, hmono hf⟩
  · obtain ⟨c, hc, hrest⟩ := he
    exact ⟨c, hsub hc, hrest⟩

/-- Two contributors of one precedence that are merged alike in both orders. -/
theorem compatible_of_sameNatives {a b : CapabilityContributor P}
    (hprec : a.precedence = b.precedence) (hok : ∃ m, mergeCapabilities home [a, b] = .ok m)
    (h : SameNatives home [a, b] [b, a]) (f : NativeField) (engine : String) {x y : Value}
    (hx : pickKey engine (fun c => c.nativeOf f) a.capabilities = some x)
    (hy : pickKey engine (fun c => c.nativeOf f) b.capabilities = some y) :
    compatible x.1 y.1 = true := by
  obtain ⟨m, hm⟩ := hok
  have hswap : [b, a] ⊆ [a, b] := (List.Perm.swap a b []).subset
  obtain ⟨m', hm'⟩ := succeeds_of_subset hswap ⟨m, hm⟩
  have hsame := h m m' hm hm' f engine
  rw [get_nativeOf hm, get_nativeOf hm', sortByKey_pair hprec, sortByKey_pair hprec.symm] at hsame
  simp only [mergeFragments, List.foldl_cons, List.foldl_nil, hx, hy] at hsame
  have htree := tree_eq_of_sameFragment
    (deduped_mergeYaml (deduped_normalizeYaml _)) (deduped_mergeYaml (deduped_normalizeYaml _)) hsame
  have htwo : ∀ v w : Value, tree (mergeFragment (some (mergeFragment none v)) w).1 =
      (Overlay.absent.put (tree v.1)).put (tree w.1) := by
    intro v w
    have h := tree_mergeFragment (some (mergeFragment none v)) w
    rw [tree_mergeFragment none v] at h
    exact h
  rw [htwo, htwo] at htree
  exact (compatible_iff x.2 y.2).mpr
    (Overlay.compatible_of_put_comm (tree_ne_absent _) (tree_ne_absent _) htree)

theorem compatible_of_sublists (hok : ∃ m, mergeCapabilities home cs = .ok m)
    (h : ∀ sub, sub.Subperm cs → ∀ sub', sub.Perm sub' → SameNatives home sub sub') :
    NativeCompatible cs := by
  intro a ha b hb hprec f engine x y hx hy
  by_cases hab : a = b
  · subst hab
    obtain rfl := Option.some.inj (hx.symm.trans hy)
    exact (compatible_iff x.2 x.2).mpr (Overlay.Compatible.refl _)
  · have hnodup : [a, b].Nodup := by simp [hab]
    have hsubset : [a, b] ⊆ cs := by
      intro c hc
      rcases List.mem_pair.mp hc with rfl | rfl
      · exact ha
      · exact hb
    have hsub : [a, b].Subperm cs := hnodup.subperm hsubset
    exact compatible_of_sameNatives hprec (succeeds_of_subset hsubset hok)
      (h [a, b] hsub [b, a] (List.Perm.swap b a [])) f engine hx hy

/-- The native maps of compatible contributors do not depend on their order; and where this is
so for all contributors and for every selection of them, they are compatible. -/
theorem natives_perm (home : Home) (cs : List (CapabilityContributor P)) :
    (NativeCompatible cs → ∀ cs', cs.Perm cs' → SameNatives home cs cs') ∧
      ((∃ m, mergeCapabilities home cs = .ok m) →
        (NativeCompatible cs ↔
          ∀ sub, sub.Subperm cs → ∀ sub', sub.Perm sub' → SameNatives home sub sub')) := by
  refine ⟨fun h cs' hp => sameNatives_of_compatible h hp, fun hok => ⟨fun h sub hsub => ?_,
    compatible_of_sublists hok⟩⟩
  have hsubset : sub ⊆ cs := hsub.subset
  have hsubcompatible : NativeCompatible sub := fun a ha b hb =>
    h a (hsubset ha) b (hsubset hb)
  exact fun sub' hp => sameNatives_of_compatible hsubcompatible hp

end

/-! ## Two contributors of one precedence -/

/-- A fragment with one key. -/
def modelFragment (model : String) : Value :=
  ⟨.map [(.str "model", .str model)], .map (List.pairwise_singleton _ _)
    (fun _ he => List.mem_singleton.mp he ▸ .str _) (fun _ he => List.mem_singleton.mp he ▸ .str _)⟩

/-- `native: {claude_code: {model: ..}}` in a bundle. -/
def setsModel (name model : String) : CapabilityContributor fun _ => Unit :=
  ⟨name, ⟨100, by decide⟩, { (Capabilities.empty : Capabilities fun _ => Unit) with
    native := SortedMap.empty.insert "claude_code" (modelFragment model) }⟩

theorem pickKey_setsModel (name model : String) :
    pickKey "claude_code" (fun c => c.nativeOf .native) (setsModel name model).capabilities =
      some (modelFragment model) :=
  (Fields.get_insert _ _ _ _).trans (if_pos rfl)

theorem setsModel_succeeds (name name' model model' : String) :
    ∃ m, mergeCapabilities .notPresent [setsModel name model, setsModel name' model'] = .ok m := by
  have hscalar : ∀ (f : ScalarField) (name model : String),
      (setsModel name model).capabilities.scalar f = none := by
    intro f name model
    cases f <;> rfl
  have hmap : ∀ (f : MapField) (key name model : String),
      pickKey key (fun c => c.mapOf f) (setsModel name model).capabilities = none := by
    intro f key name model
    cases f <;> rfl
  have hnotie : ∀ {V : Type} (pick : Capabilities (fun _ => Unit) → Option V),
      (∀ name model, pick (setsModel name model).capabilities = none) →
      NoTie [setsModel name model, setsModel name' model'] pick := by
    intro V pick hnone c hc d hd _ v w hv _
    rcases List.mem_pair.mp hc with rfl | rfl
    · exact absurd (hnone name model) (by simp [hv])
    · exact absurd (hnone name' model') (by simp [hv])
  refine mergeCapabilities_ok_iff.mpr ⟨?_, ?_⟩
  · rintro (⟨f, hf⟩ | ⟨f, key, hf⟩)
    · exact hf (hnotie _ (hscalar f))
    · exact hf (hnotie _ (hmap f key))
  · rintro ⟨c, hc, cm, hcm, -⟩
    rcases List.mem_pair.mp hc with rfl | rfl <;> exact absurd hcm List.not_mem_nil

theorem eq_of_pickKey_setsModel {name model engine : String} {f : NativeField} {x : Value}
    (h : pickKey engine (fun c => c.nativeOf f) (setsModel name model).capabilities = some x) :
    x = modelFragment model := by
  cases f with
  | native =>
      have hget := (Fields.get_insert "claude_code" engine (modelFragment model) []).symm.trans h
      split at hget
      · exact (Option.some.inj hget).symm
      · exact absurd hget (by simp)
  | _ => exact absurd h (by simp [pickKey, setsModel, Capabilities.nativeOf, Capabilities.empty,
      SortedMap.empty])

theorem natives_perm_models :
    SameNatives .notPresent [setsModel "a" "opus", setsModel "b" "opus"]
        [setsModel "b" "opus", setsModel "a" "opus"] ∧
      NativeCompatible [setsModel "a" "opus", setsModel "b" "opus"] := by
  have hcompatible : NativeCompatible [setsModel "a" "opus", setsModel "b" "opus"] := by
    intro c hc d hd _ f engine x y hx hy
    have hopus : ∀ c ∈ [setsModel "a" "opus", setsModel "b" "opus"], ∀ x,
        pickKey engine (fun c => c.nativeOf f) c.capabilities = some x →
          x = modelFragment "opus" := by
      intro c hc x hx
      rcases List.mem_pair.mp hc with rfl | rfl <;> exact eq_of_pickKey_setsModel hx
    obtain rfl := hopus c hc x hx
    obtain rfl := hopus d hd y hy
    decide
  have hboth := natives_perm .notPresent [setsModel "a" "opus", setsModel "b" "opus"]
  have hsame := hboth.1 hcompatible _ (List.Perm.swap _ _ [])
  exact ⟨hsame, (hboth.2 (setsModel_succeeds _ _ _ _)).mpr fun sub hsub sub' hp =>
    (hboth.2 (setsModel_succeeds _ _ _ _)).mp hcompatible sub hsub sub' hp⟩

/-- The bundle that is listed last decides. -/
theorem natives_order_counts :
    [setsModel "a" "opus", setsModel "b" "haiku"].Perm
        [setsModel "b" "haiku", setsModel "a" "opus"] ∧
      ¬SameNatives .notPresent [setsModel "a" "opus", setsModel "b" "haiku"]
        [setsModel "b" "haiku", setsModel "a" "opus"] := by
  refine ⟨List.Perm.swap _ _ [], fun h => ?_⟩
  have hprec : (setsModel "a" "opus").precedence = (setsModel "b" "haiku").precedence := rfl
  have hcompatible := compatible_of_sameNatives hprec (setsModel_succeeds _ _ _ _) h .native
    "claude_code" (pickKey_setsModel _ _) (pickKey_setsModel _ _)
  exact absurd hcompatible (by decide)

end Llmenv.Merge
