/-
# `Llmenv.Tasks.Prefixes` — which task does a typed name mean?

`resolve_with` of `crates/llmenv-task/src/resolve.rs` searches two groups of
tasks: first those of the preferred sessions (the one open session that the
caller means, or every open one), then all of them.  In each group an exact slug
wins, else the one slug that starts with the input, and several such slugs are an
error.

The groups come first and the exact slug second.  So a bare `foo` reaches `foo-2`
of the open session although a finished session holds `foo`
(`resolveWith_passes_exact`); the code is written for that.  Within the group that
is searched nothing is guessed (`resolveWith_never_guesses`).
-/
import Llmenv.Tasks.ParentLinks

namespace Llmenv.Tasks

open Llmenv.Lib

/-- The slugs of the tasks in the preferred sessions. -/
def preferredSlugs (s : Store) (owner : EngineIdentity) : List String :=
  (s.tasks.items.filter
    (fun t => t.session.any (fun id => (preferredSessions s owner).contains id))).map Task.slug

/-- The slugs of all tasks. -/
def allSlugs (s : Store) : List String := s.tasks.items.map Task.slug

/-- `slug` is the one slug of the group that starts with `input`. -/
structure OnlyMatch (group : List String) (input slug : String) : Prop where
  mem : slug ∈ group
  starts : Text.startsWith slug input = true
  only : ∀ other ∈ group, Text.startsWith other input = true → other = slug

/-- No slug of the group starts with `input`. -/
def NoMatch (group : List String) (input : String) : Prop :=
  ∀ slug ∈ group, Text.startsWith slug input = false

/-! ## One group -/

theorem startsWith_self (input : String) : Text.startsWith input input = true :=
  List.isPrefixOf_iff_prefix.mpr (List.prefix_refl _)

theorem pick_exact {group : List String} {input : String} (h : input ∈ group) :
    pick group input = .ok (some input) := by
  rw [pick, if_pos (List.contains_iff_mem.mpr h)]

/-- What a search of one group finds. -/
theorem pick_some {group : List String} {input slug : String}
    (h : pick group input = .ok (some slug)) :
    slug ∈ group ∧ (slug = input ∨ input ∉ group ∧ OnlyMatch group input slug) := by
  have hmem := pick_mem h
  refine ⟨hmem, ?_⟩
  unfold pick at h
  split at h
  · exact Or.inl (Option.some.inj (Except.ok.inj h)).symm
  · rename_i hout
    split at h
    · exact absurd h (by simp)
    · rename_i one hone
      obtain rfl := Option.some.inj (Except.ok.inj h)
      have hfilter : ∀ other, other ∈ group ∧ Text.startsWith other input = true ↔ other = one := by
        intro other
        rw [show other = one ↔ other ∈ [one] from List.mem_singleton.symm, ← hone]
        exact (List.mem_filter (p := fun slug => Text.startsWith slug input)).symm
      refine Or.inr ⟨fun hin => hout (List.contains_iff_mem.mpr hin), hmem, ?_, ?_⟩
      · exact ((hfilter one).mpr rfl).2
      · intro other hother hstarts
        exact (hfilter other).mp ⟨hother, hstarts⟩
    · exact absurd h (by simp)

theorem pick_none {group : List String} {input : String} :
    pick group input = .ok none ↔ NoMatch group input := by
  unfold pick
  constructor
  · intro h
    split at h
    · exact absurd (Except.ok.inj h) (by simp)
    · split at h
      · rename_i hnil
        intro slug hslug
        exact Bool.eq_false_iff.mpr (List.filter_eq_nil_iff.mp hnil slug hslug)
      · exact absurd (Except.ok.inj h) (by simp)
      · exact absurd h (by simp)
  · intro h
    have hout : ¬ group.contains input = true := by
      intro hin
      have hself := h input (List.contains_iff_mem.mp hin)
      rw [startsWith_self] at hself
      exact absurd hself (by decide)
    have hnil : group.filter (fun slug => Text.startsWith slug input) = [] :=
      List.filter_eq_nil_iff.mpr fun slug hslug => Bool.eq_false_iff.mp (h slug hslug)
    rw [if_neg hout, hnil]

/-! ## The two groups -/

section

variable {s : Store} {input slug : String} {owner : EngineIdentity}

theorem mem_allSlugs : slug ∈ allSlugs s ↔ ∃ t, s.task? slug = some t := by
  constructor
  · exact isSome_task?_of_mem_slugs
  · rintro ⟨t, ht⟩
    exact List.mem_map.mpr ⟨t, Keyed.mem_of_find? ht, Store.slug_of_task? ht⟩

theorem mem_allSlugs_of_preferred (h : slug ∈ preferredSlugs s owner) : slug ∈ allSlugs s := by
  obtain ⟨t, ht, rfl⟩ := List.mem_map.mp h
  exact List.mem_map_of_mem (List.mem_of_mem_filter ht)

/-- Without a preferred session the first search finds nothing, and the file of an
exact slug is found by the second search too. -/
theorem resolveWith_eq (s : Store) (input : String) (owner : EngineIdentity) :
    resolveWith s input owner = (do
      match ← pick (preferredSlugs s owner) input with
      | some slug => .ok slug
      | none =>
          match ← pick (allSlugs s) input with
          | some slug => .ok slug
          | none => .error s!"no task found matching '{input}'") := by
  have hfirst : (if (preferredSessions s owner).isEmpty then Except.ok none
      else pick (preferredSlugs s owner) input) = pick (preferredSlugs s owner) input := by
    split
    · rename_i hempty
      refine (pick_none.mpr fun slug hslug => ?_).symm
      obtain ⟨t, ht, -⟩ := List.mem_map.mp hslug
      have hany := (List.mem_filter.mp ht).2
      rw [List.isEmpty_iff.mp hempty] at hany
      cases hsession : t.session with
      | none => exact absurd (hsession ▸ hany) (by simp)
      | some id => exact absurd (hsession ▸ hany) (by simp)
    · rfl
  have hsecond : (if (s.task? input).isSome then Except.ok input
      else do
        match ← pick (allSlugs s) input with
        | some slug => .ok slug
        | none => .error s!"no task found matching '{input}'") = (do
      match ← pick (allSlugs s) input with
      | some slug => .ok slug
      | none => .error s!"no task found matching '{input}'") := by
    split
    · rename_i hsome
      rw [pick_exact (mem_allSlugs.mpr (Option.isSome_iff_exists.mp hsome))]
      rfl
    · rfl
  show (do
    match ← (if (preferredSessions s owner).isEmpty then Except.ok none
      else pick (preferredSlugs s owner) input) with
    | some slug => .ok slug
    | none =>
        if (s.task? input).isSome then Except.ok input
        else do
          match ← pick (allSlugs s) input with
          | some slug => .ok slug
          | none => .error s!"no task found matching '{input}'") = _
  rw [hfirst, hsecond]

/-- What is returned comes from the first group, or from the second one after the
first had no match. -/
theorem resolveWith_ok (h : resolveWith s input owner = .ok slug) :
    pick (preferredSlugs s owner) input = .ok (some slug) ∨
      NoMatch (preferredSlugs s owner) input ∧ pick (allSlugs s) input = .ok (some slug) := by
  rw [resolveWith_eq] at h
  obtain ⟨first, hfirst, h⟩ := bind_eq_ok.mp h
  cases first with
  | some mine => exact Or.inl (Except.ok.inj h ▸ hfirst)
  | none =>
      obtain ⟨second, hsecond, h⟩ := bind_eq_ok.mp h
      cases second with
      | some one => exact Or.inr ⟨pick_none.mp hfirst, Except.ok.inj h ▸ hsecond⟩
      | none => exact absurd h (by simp)

end

/-- **A name resolves to an existing task whose slug it equals or starts.**  When
it is not the slug itself, it starts no other slug of the group that was searched;
a task outside the preferred sessions is returned only when nothing inside them
matches; and an exact slug wins within its group. -/
theorem resolveWith_never_guesses (s : Store) (input : String) (owner : EngineIdentity) :
    (∀ slug, resolveWith s input owner = .ok slug →
      (∃ t, s.task? slug = some t) ∧ (slug = input ∨ Text.startsWith slug input = true) ∧
        (slug = input ∨ OnlyMatch (preferredSlugs s owner) input slug ∨
          NoMatch (preferredSlugs s owner) input ∧ OnlyMatch (allSlugs s) input slug) ∧
        (slug ∉ preferredSlugs s owner → NoMatch (preferredSlugs s owner) input)) ∧
      (input ∈ preferredSlugs s owner → resolveWith s input owner = .ok input) ∧
      (NoMatch (preferredSlugs s owner) input → (∃ t, s.task? input = some t) →
        resolveWith s input owner = .ok input) := by
  refine ⟨?_, ?_, ?_⟩
  · intro slug h
    rcases resolveWith_ok h with hmine | ⟨hnone, hall⟩
    · obtain ⟨hmem, hmatch⟩ := pick_some hmine
      refine ⟨mem_allSlugs.mp (mem_allSlugs_of_preferred hmem), ?_, ?_, fun hout => absurd hmem hout⟩
      · exact hmatch.imp_right fun h => h.2.starts
      · exact hmatch.imp_right fun h => Or.inl h.2
    · obtain ⟨hmem, hmatch⟩ := pick_some hall
      refine ⟨mem_allSlugs.mp hmem, ?_, ?_, fun _ => hnone⟩
      · exact hmatch.imp_right fun h => h.2.starts
      · exact hmatch.imp_right fun h => Or.inr ⟨hnone, h.2⟩
  · intro hmem
    rw [resolveWith_eq, pick_exact hmem]
    rfl
  · intro hnone hstored
    have hall := pick_exact (mem_allSlugs.mpr hstored)
    simp only [resolveWith_eq, pick_none.mpr hnone, hall, bind, Except.bind]

/-! ## A slug that a finished session left behind -/

/-- Finish `foo` and its session, and add `foo` again in a new session. -/
def twoSessions : List (Env × Op) :=
  [startPlain, addPlain "2" "foo" .detached .queue,
   (.plain "3", .complete (.input "foo") true none),
   (.plain "4", .finishSession "session" false), startPlain,
   (.plain "5", .add ⟨"foo", none, .queue, none⟩ .detached (.named "session-2") "p")]

/-- The exact slug does not win over a task of the open session. -/
theorem resolveWith_passes_exact :
    ¬ ∀ (s : Store) (input slug : String) (owner : EngineIdentity),
      resolveWith s input owner = .ok slug → (∃ t, s.task? input = some t) → slug = input := by
  intro h
  have hres : resolveWith (runOps twoSessions) "foo" ⟨none, none⟩ = .ok "foo-2" := by decide
  have hstored : ((runOps twoSessions).task? "foo").isSome = true := by decide
  exact absurd (h _ _ _ _ hres (Option.isSome_iff_exists.mp hstored)) (by decide)

end Llmenv.Tasks
