/-
# `Llmenv.Scope.Firing` — the bundles that fire, with and without `--scope`

`firing_bundles` of `src/bundle_select.rs` and `select_firing` of
`src/cli/export_print.rs`.  With `--scope` the tags are collected again, from
the scopes of that id, the name of the operating system and
`$LLMENV_EXTRA_TAGS`; every active disable is carried over.  The warning for a
scope that is not active is output only.

Narrowing must never turn a bundle on.  The tags of `evaluate` are cut to the
first 64 of the alphabet, the narrowed ones are not, so a bundle that waits for
a tag beyond the cut fires under `--scope` alone (`narrowed_subset_iff`).
-/
import Llmenv.Scope.Evaluate

namespace Llmenv.Scope

open Llmenv.Lib

structure Bundle where
  name : String
  when : List String
deriving DecidableEq

/-! ## The code -/

/-- The bundles that the marker of an active scope enables. -/
def markerEnabledBundleNames (active : ActiveScopes) : List String :=
  active.scopes.flatMap ActiveScope.enableBundles

def markerDisabledBundleNames (active : ActiveScopes) : List String :=
  active.scopes.flatMap ActiveScope.disableBundles

/-- A tag of the bundle is active, or a marker enables it by name. -/
def tagOrMarkerSelected (bundle : Bundle) (active : ActiveScopes)
    (manuallyEnabled : List String) : Bool :=
  (bundle.when.any fun bt => decide (bt ∈ active.tags)) || decide (bundle.name ∈ manuallyEnabled)

def firingBundles (bundles : List Bundle) (active : ActiveScopes) (tagFilter : Option String) :
    List Bundle :=
  let manuallyEnabled := markerEnabledBundleNames active
  let disabled := markerDisabledBundleNames active
  ((bundles.filter fun b => !decide (b.name ∈ disabled)).filter fun b =>
    tagFilter.all fun t => b.when.any fun w => w == t).filter fun b =>
      tagOrMarkerSelected b active manuallyEnabled

variable {N H U C : Type}

/-- The scopes of one id, each with every active disable. -/
def filteredScopes (active : ActiveScopes) (scopeId : String) : List ActiveScope :=
  let allDisabled := Text.sortStrings (markerDisabledBundleNames active).dedup
  (active.scopes.filter fun s => s.id == scopeId).map fun s =>
    { s with disableBundles := allDisabled }

/-- The tags of those scopes, of the system and of `$LLMENV_EXTRA_TAGS`. -/
def filteredTags (active : ActiveScopes) (env : Env N H U C) (scopeId : String) : Finset String :=
  let tags := scopeTags (filteredScopes active scopeId)
  (if env.os.isEmpty then tags else insert env.os tags) ∪ active.extraTags

/-- The bundles that fire, and the scopes that the next step uses. -/
def selectFiring (bundles : List Bundle) (active : ActiveScopes) (env : Env N H U C)
    (scope tag : Option String) : List Bundle × ActiveScopes :=
  match scope with
  | none => (firingBundles bundles active tag, active)
  | some scopeId =>
      let filtered : ActiveScopes :=
        if (filteredScopes active scopeId).isEmpty then ⟨[], ∅, ∅⟩
        else
          { scopes := filteredScopes active scopeId
            tags := filteredTags active env scopeId
            extraTags := active.extraTags }
      (firingBundles bundles filtered tag, filtered)

/-! ## What fires -/

theorem mem_firingBundles {bundles : List Bundle} {active : ActiveScopes} {tag : Option String}
    {b : Bundle} :
    b ∈ firingBundles bundles active tag ↔
      (b ∈ bundles ∧ (∀ t ∈ tag, t ∈ b.when)) ∧ b.name ∉ markerDisabledBundleNames active ∧
        ((∃ t ∈ b.when, t ∈ active.tags) ∨ b.name ∈ markerEnabledBundleNames active) := by
  simp only [firingBundles, tagOrMarkerSelected, List.mem_filter, Bool.or_eq_true,
    List.any_eq_true, decide_eq_true_eq, Bool.not_eq_true', decide_eq_false_iff_not,
    Option.all_eq_true, beq_iff_eq, exists_eq_right, Option.mem_def]
  constructor
  · rintro ⟨⟨⟨hb, hdisabled⟩, htag⟩, hon⟩
    exact ⟨⟨hb, htag⟩, hdisabled, hon⟩
  · rintro ⟨⟨hb, htag⟩, hdisabled, hon⟩
    exact ⟨⟨⟨hb, hdisabled⟩, htag⟩, hon⟩

theorem mem_filteredScopes {active : ActiveScopes} {scopeId : String} {s : ActiveScope} :
    s ∈ filteredScopes active scopeId ↔
      ∃ s' ∈ active.scopes, s'.id = scopeId ∧
        s = { s' with disableBundles :=
          Text.sortStrings (markerDisabledBundleNames active).dedup } := by
  simp only [filteredScopes, List.mem_map, List.mem_filter, beq_iff_eq, and_assoc]
  constructor
  · rintro ⟨s', hs', hid, rfl⟩
    exact ⟨s', hs', hid, rfl⟩
  · rintro ⟨s', hs', hid, rfl⟩
    exact ⟨s', hs', hid, rfl⟩

theorem mem_sortStrings {l : List String} {s : String} : s ∈ Text.sortStrings l ↔ s ∈ l :=
  List.mem_insertionSort _

/-- Every scope of the id carries every active disable. -/
theorem mem_disabled_filtered {active : ActiveScopes} {scopeId name : String}
    {tags extra : Finset String} (hactive : ∃ s ∈ active.scopes, s.id = scopeId) :
    name ∈ markerDisabledBundleNames ⟨filteredScopes active scopeId, tags, extra⟩ ↔
      name ∈ markerDisabledBundleNames active := by
  simp only [markerDisabledBundleNames, List.mem_flatMap, mem_filteredScopes]
  constructor
  · rintro ⟨_, ⟨s, -, -, rfl⟩, hname⟩
    rw [mem_sortStrings, List.mem_dedup] at hname
    exact List.mem_flatMap.mp hname
  · intro hname
    obtain ⟨s, hs, hid⟩ := hactive
    refine ⟨_, ⟨s, hs, hid, rfl⟩, ?_⟩
    rw [mem_sortStrings, List.mem_dedup]
    exact List.mem_flatMap.mpr hname

theorem enabled_of_filtered {active : ActiveScopes} {scopeId name : String}
    {tags extra : Finset String}
    (h : name ∈ markerEnabledBundleNames ⟨filteredScopes active scopeId, tags, extra⟩) :
    name ∈ markerEnabledBundleNames active := by
  obtain ⟨s, hs, hname⟩ := List.mem_flatMap.mp h
  obtain ⟨s', hs', -, rfl⟩ := mem_filteredScopes.mp hs
  exact List.mem_flatMap.mpr ⟨s', hs', hname⟩

/-- Under a scope that is not active nothing fires. -/
theorem firing_of_inactive {bundles : List Bundle} {active : ActiveScopes} {env : Env N H U C}
    {scopeId : String} {tag : Option String} (h : ¬ ∃ s ∈ active.scopes, s.id = scopeId) :
    (selectFiring bundles active env (some scopeId) tag).1 = [] := by
  have hempty : filteredScopes active scopeId = [] := by
    refine List.eq_nil_iff_forall_not_mem.mpr fun s hs => ?_
    obtain ⟨s', hs', hid, -⟩ := mem_filteredScopes.mp hs
    exact h ⟨s', hs', hid⟩
  refine List.eq_nil_iff_forall_not_mem.mpr fun b hb => ?_
  simp only [selectFiring, hempty, List.isEmpty_nil, if_true] at hb
  obtain ⟨-, -, ⟨t, -, ht⟩ | hname⟩ := mem_firingBundles.mp hb
  · exact absurd ht (Finset.notMem_empty t)
  · exact absurd hname (by simp [markerEnabledBundleNames])

theorem mem_firing_of_active {bundles : List Bundle} {active : ActiveScopes}
    {env : Env N H U C} {scopeId : String} {tag : Option String} {b : Bundle}
    (h : ∃ s ∈ active.scopes, s.id = scopeId) :
    b ∈ (selectFiring bundles active env (some scopeId) tag).1 ↔
      (b ∈ bundles ∧ ∀ t ∈ tag, t ∈ b.when) ∧ b.name ∉ markerDisabledBundleNames active ∧
        ((∃ t ∈ b.when, t ∈ filteredTags active env scopeId) ∨
          b.name ∈ markerEnabledBundleNames
            ⟨filteredScopes active scopeId, filteredTags active env scopeId, active.extraTags⟩) := by
  have hne : (filteredScopes active scopeId).isEmpty = false := by
    obtain ⟨s, hs, hid⟩ := h
    rw [List.isEmpty_eq_false_iff_exists_mem]
    exact ⟨_, mem_filteredScopes.mpr ⟨s, hs, hid, rfl⟩⟩
  simp only [selectFiring, hne, Bool.false_eq_true, if_false]
  rw [mem_firingBundles, mem_disabled_filtered h]

theorem mem_firing {bundles : List Bundle} {active : ActiveScopes} {env : Env N H U C}
    {tag : Option String} {b : Bundle} :
    b ∈ (selectFiring bundles active env none tag).1 ↔
      (b ∈ bundles ∧ (∀ t ∈ tag, t ∈ b.when)) ∧ b.name ∉ markerDisabledBundleNames active ∧
        ((∃ t ∈ b.when, t ∈ active.tags) ∨ b.name ∈ markerEnabledBundleNames active) :=
  mem_firingBundles

/-! ## Narrowing -/

/-- The aggregate cap keeps the tag: fewer than 64 tags sort before it. -/
def KeptByCap (cfg : ScopeConfig N H U C) (env : Env N H U C) (t : String) : Prop :=
  t ∈ unionTags cfg env ∧ ((unionTags cfg env).filter (· < t)).card < maxTagsPerSource

/-- A bundle that a tag of the narrowed scope turns on, and that no marker
turns on or off by its name, has a tag that the cap keeps. -/
def CapSpares (bundles : List Bundle) (cfg : ScopeConfig N H U C) (env : Env N H U C)
    (scopeId : String) (tag : Option String) : Prop :=
  let active := evaluate cfg env
  (∃ s ∈ active.scopes, s.id = scopeId) → ∀ b ∈ bundles, (∀ t ∈ tag, t ∈ b.when) →
    b.name ∉ markerDisabledBundleNames active → b.name ∉ markerEnabledBundleNames active →
      (∃ t ∈ b.when, t ∈ filteredTags active env scopeId) → ∃ t ∈ b.when, KeptByCap cfg env t

theorem mem_tags_evaluate {cfg : ScopeConfig N H U C} {env : Env N H U C} {t : String} :
    t ∈ (evaluate cfg env).tags ↔ KeptByCap cfg env t := mem_capAggregateTags

/-- A bundle whose tags are all beyond the cap, and that no marker enables, does
not fire. -/
theorem not_firing_of_cut {bundles : List Bundle} {cfg : ScopeConfig N H U C}
    {env : Env N H U C} {tag : Option String} {b : Bundle}
    (hcut : ¬ ∃ t ∈ b.when, KeptByCap cfg env t)
    (henabled : b.name ∉ markerEnabledBundleNames (evaluate cfg env)) :
    b ∉ (selectFiring bundles (evaluate cfg env) env none tag).1 := by
  intro h
  obtain ⟨-, -, ⟨t, ht, hkept⟩ | hname⟩ := mem_firing.mp h
  · exact hcut ⟨t, ht, mem_tags_evaluate.mp hkept⟩
  · exact henabled hname

/-- Every bundle that fires under `--scope` fires without it, exactly when the
cap spares the bundles that fire by a tag of that scope. -/
theorem narrowed_subset_iff (bundles : List Bundle) (cfg : ScopeConfig N H U C)
    (env : Env N H U C) (scopeId : String) (tag : Option String) :
    (∀ b ∈ (selectFiring bundles (evaluate cfg env) env (some scopeId) tag).1,
      b ∈ (selectFiring bundles (evaluate cfg env) env none tag).1) ↔
      CapSpares bundles cfg env scopeId tag := by
  constructor
  · intro hsub hactive b hb htag hdisabled henabled htags
    have hfull := hsub b ((mem_firing_of_active hactive).mpr ⟨⟨hb, htag⟩, hdisabled, Or.inl htags⟩)
    by_contra hcut
    exact not_firing_of_cut hcut henabled hfull
  · intro hspares b hb
    by_cases hactive : ∃ s ∈ (evaluate cfg env).scopes, s.id = scopeId
    · obtain ⟨⟨hmem, htag⟩, hdisabled, hon⟩ := (mem_firing_of_active hactive).mp hb
      refine mem_firing.mpr ⟨⟨hmem, htag⟩, hdisabled, ?_⟩
      by_cases henabled : b.name ∈ markerEnabledBundleNames (evaluate cfg env)
      · exact Or.inr henabled
      · rcases hon with htags | hname
        · obtain ⟨t, ht, hkept⟩ := hspares hactive b hmem htag hdisabled henabled htags
          exact Or.inl ⟨t, ht, mem_tags_evaluate.mpr hkept⟩
        · exact absurd (enabled_of_filtered hname) henabled
    · rw [firing_of_inactive hactive] at hb
      exact absurd hb List.not_mem_nil

theorem filteredTags_subset {cfg : ScopeConfig N H U C} {env : Env N H U C} {scopeId : String} :
    filteredTags (evaluate cfg env) env scopeId ⊆ unionTags cfg env := by
  have htags : scopeTags (filteredScopes (evaluate cfg env) scopeId) ⊆
      scopeTags (configScopes cfg env ++ projectScopes env) := by
    intro t ht
    obtain ⟨s, hs, ht⟩ := mem_scopeTags.mp ht
    obtain ⟨s', hs', -, rfl⟩ := mem_filteredScopes.mp hs
    exact mem_scopeTags.mpr ⟨s', hs', ht⟩
  simp only [filteredTags, unionTags]
  refine Finset.union_subset_union ?_ (Finset.Subset.refl _)
  split
  · exact htags
  · exact Finset.insert_subset_insert _ htags

/-- With at most 64 tags in all, narrowing never turns a bundle on. -/
theorem capSpares_of_card_le {bundles : List Bundle} {cfg : ScopeConfig N H U C}
    {env : Env N H U C} {scopeId : String} {tag : Option String}
    (h : (unionTags cfg env).card ≤ maxTagsPerSource) : CapSpares bundles cfg env scopeId tag := by
  rintro - b - - - - ⟨t, ht, hfiltered⟩
  have hunion := filteredTags_subset hfiltered
  have hcap : capAggregateTags (unionTags cfg env) = unionTags cfg env := by
    rw [capAggregateTags, if_pos h]
  exact ⟨t, ht, mem_capAggregateTags.mp (hcap.symm ▸ hunion)⟩

/-- Sixty-four tags that sort before `linux`. -/
def manyTags : List String := (List.range 64).map fun n => "a" ++ toString n

theorem card_lt_linux :
    maxTagsPerSource ≤
      ((unionTags noScopes (linuxEnv manyTags "")).filter (· < "linux")).card := by
  decide +kernel

/-- The bundle for Linux. -/
def tux : Bundle := ⟨"tux", ["linux"]⟩

theorem tux_cut : ¬ ∃ t ∈ tux.when, KeptByCap noScopes (linuxEnv manyTags "") t := by
  rintro ⟨t, ht, hkept⟩
  have ht : t = "linux" := List.mem_singleton.mp ht
  rw [ht] at hkept
  exact absurd hkept.2 (Nat.not_lt.mpr card_lt_linux)

theorem tux_not_enabled :
    tux.name ∉ markerEnabledBundleNames (evaluate noScopes (linuxEnv manyTags "")) := by
  decide +kernel

/-- A bundle for Linux fires under the scope of a project with 64 tags, and
does not fire without `--scope`. -/
theorem narrowed_fires_alone :
    tux ∈ (selectFiring [tux] (evaluate noScopes (linuxEnv manyTags ""))
        (linuxEnv manyTags "") (some "app") none).1 ∧
      tux ∉ (selectFiring [tux] (evaluate noScopes (linuxEnv manyTags ""))
        (linuxEnv manyTags "") none none).1 :=
  ⟨by decide +kernel, not_firing_of_cut tux_cut tux_not_enabled⟩

end Llmenv.Scope
