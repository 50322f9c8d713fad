/-
# `Llmenv.Tasks.Blockers` — whether a blocker is done, with its subtree

`first_undone_in_subtree` of `blockers.rs` over any map of tasks, with loops in
the parent links and with parents that are missing.  The walk is one of
`Llmenv.Lib.Descent`: down from the blocker, not into the waiting task, and
stopped by a task that is missing or not done.  A task has one parent, so a
second visit is a loop, and the walk comes through exactly when the blocker is
there, all below it is done and nothing below it is on a loop.
-/
import Llmenv.Lib.Descent
import Llmenv.Lib.Ranked
import Llmenv.Tasks.Walks

namespace Llmenv.Tasks

open Llmenv.Lib Llmenv.Lib.Descent

/-! ## The subtree of a blocker -/

/-- A step down the parent links, not to the waiting task. -/
def Descends (m : Keyed Task.slug) (waiter : String) (slug child : String) : Prop :=
  ∃ t ∈ m.items, t.slug = child ∧ t.parent = some slug ∧ t.slug ≠ waiter

/-- The subtree of `slug` without the subtree of the waiting task. -/
def InSubtree (m : Keyed Task.slug) (waiter slug : String) : String → Prop :=
  Relation.ReflTransGen (Descends m waiter) slug

/-- A task of the subtree is below itself. -/
def SubtreeLoops (m : Keyed Task.slug) (waiter slug : String) : Prop :=
  ∃ s, InSubtree m waiter slug s ∧ Relation.TransGen (Descends m waiter) s s

/-- Missing from the map, or not done. -/
def MissingOrUndone (m : Keyed Task.slug) (slug : String) : Prop :=
  ∀ t, m.find? slug = some t → t.state ≠ .done

/-- The children that the walk goes to, in the order of their slugs. -/
def subtreeKids (all : List Task) (waiter slug : String) : List String :=
  Text.sortStrings ((all.filter
    (fun t => t.parent == some slug && t.slug != waiter)).map Task.slug)

theorem mem_subtreeKids {m : Keyed Task.slug} {waiter slug child : String} :
    child ∈ subtreeKids m.items waiter slug ↔ Descends m waiter slug child := by
  rw [subtreeKids, Text.sortStrings, List.mem_insertionSort, List.mem_map]
  constructor
  · rintro ⟨t, ht, rfl⟩
    obtain ⟨hmem, hlink⟩ := List.mem_filter.mp ht
    obtain ⟨hparent, hwaiter⟩ := (Bool.and_eq_true _ _).mp hlink
    exact ⟨t, hmem, rfl, beq_iff_eq.mp hparent, bne_iff_ne.mp hwaiter⟩
  · rintro ⟨t, hmem, rfl, hparent, hwaiter⟩
    refine ⟨t, List.mem_filter.mpr ⟨hmem, ?_⟩, rfl⟩
    exact (Bool.and_eq_true _ _).mpr ⟨beq_iff_eq.mpr hparent, bne_iff_ne.mpr hwaiter⟩

theorem step_subtreeKids (m : Keyed Task.slug) (waiter : String) :
    Step (subtreeKids m.items waiter) = Descends m waiter :=
  funext fun _ => funext fun _ => propext mem_subtreeKids

/-- A task has one parent. -/
theorem descends_parent {m : Keyed Task.slug} {waiter : String} (a b c : String)
    (ha : Step (subtreeKids m.items waiter) a c) (hb : Step (subtreeKids m.items waiter) b c) :
    a = b := by
  obtain ⟨t, ht, hslug, hparent, -⟩ := mem_subtreeKids.mp ha
  obtain ⟨t', ht', hslug', hparent', -⟩ := mem_subtreeKids.mp hb
  obtain rfl := List.inj_on_of_nodup_map m.nodup ht ht' (hslug.trans hslug'.symm)
  exact Option.some.inj (hparent.symm.trans hparent')

theorem nodup_subtreeKids (m : Keyed Task.slug) (waiter slug : String) :
    (subtreeKids m.items waiter slug).Nodup :=
  (List.perm_insertionSort _ _).nodup_iff.mpr (m.nodup.sublist (List.filter_sublist.map _))

/-! ## The walk ends -/

/-- What the code returns at the end of a walk. -/
def walkResult : Outcome String → Except String (Option String)
  | .done => .ok none
  | .stopped slug => .ok (some slug)
  | .looped slug => .error (loopMessage slug)

theorem walkResult_eq_ok_none {r : Outcome String} : walkResult r = .ok none ↔ r = .done := by
  cases r with
  | done => exact iff_of_true rfl rfl
  | stopped s => simp [walkResult]
  | looped s => simp [walkResult]

theorem walkResult_eq_ok_some {r : Outcome String} {slug : String} :
    walkResult r = .ok (some slug) ↔ r = .stopped slug := by
  cases r with
  | done => simp [walkResult]
  | stopped s => simp [walkResult]
  | looped s => simp [walkResult]

/-- The stored tasks that are not marked. -/
def unmarked (m : Keyed Task.slug) (visited : List String) : List Task :=
  m.items.filter fun t => decide (t.slug ∉ visited)

theorem unmarked_le {m : Keyed Task.slug} {visited visited' : List String}
    (h : visited ⊆ visited') : (unmarked m visited').length ≤ (unmarked m visited).length := by
  refine (List.monotone_filter_right _ fun t ht => ?_).length_le
  exact decide_eq_true fun hmem => of_decide_eq_true ht (h hmem)

/-- To mark a stored task leaves fewer. -/
theorem unmarked_lt {m : Keyed Task.slug} {visited : List String} {t : Task} (ht : t ∈ m.items)
    (hnew : t.slug ∉ visited) :
    (unmarked m (t.slug :: visited)).length < (unmarked m visited).length := by
  have hfilter : unmarked m (t.slug :: visited) =
      (unmarked m visited).filter fun u => decide (u.slug ≠ t.slug) := by
    rw [unmarked, unmarked, List.filter_filter]
    refine List.filter_congr fun u _ => ?_
    simp [not_or]
  rw [hfilter, List.length_filter_lt_length_iff_exists]
  exact ⟨t, List.mem_filter.mpr ⟨ht, decide_eq_true hnew⟩, by simp⟩

section Walk

variable (m : Keyed Task.slug) (waiter : String)

/-- The code's answer is that of a walk. -/
def Answers (slugs visited : List String) (answer : Except String (Option String) × List String) :
    Prop :=
  ∃ r, Walk (subtreeKids m.items waiter) (MissingOrUndone m) slugs visited r answer.2 ∧
    answer.1 = walkResult r

variable {m waiter}

theorem answers_walkChildren
    {go : String → List String → Except String (Option String) × List String}
    {fuel : Nat} (hgo : ∀ slug visited, (unmarked m visited).length < fuel →
      Answers m waiter [slug] visited (go slug visited)) (slugs : List String) :
    ∀ visited, (unmarked m visited).length < fuel →
      Answers m waiter slugs visited (walkChildren go slugs visited) := by
  induction slugs with
  | nil => exact fun visited _ => ⟨.done, .nil visited, rfl⟩
  | cons slug slugs ih =>
      intro visited hfuel
      obtain ⟨r, hwalk, hanswer⟩ := hgo slug visited hfuel
      rw [walkChildren]
      generalize go slug visited = answer at hwalk hanswer
      obtain ⟨result, visited'⟩ := answer
      obtain rfl : result = walkResult r := hanswer
      cases r with
      | done =>
          have hless : (unmarked m visited').length < fuel :=
            lt_of_le_of_lt (unmarked_le hwalk.subset) hfuel
          obtain ⟨r, hrest, hanswer⟩ := ih visited' hless
          exact ⟨r, hwalk.cons hrest, hanswer⟩
      | stopped s => exact ⟨.stopped s, hwalk.cons_of_ne (by simp) slugs, rfl⟩
      | looped s => exact ⟨.looped s, hwalk.cons_of_ne (by simp) slugs, rfl⟩

/-- With fuel for every task that is not marked, the walk ends before the fuel does. -/
theorem answers_firstUndoneFrom (fuel : Nat) :
    ∀ slug visited, (unmarked m visited).length < fuel →
      Answers m waiter [slug] visited (firstUndoneFrom m.items waiter fuel slug visited) := by
  induction fuel with
  | zero => exact fun _ _ h => absurd h (Nat.not_lt_zero _)
  | succ fuel ih =>
      intro slug visited hfuel
      rw [firstUndoneFrom, find?_slug]
      split
      · rename_i hold
        exact ⟨.looped slug, .looped (by simpa using hold), rfl⟩
      · rename_i hnew
        have hnew : slug ∉ visited := by simpa using hnew
        cases hfind : m.find? slug with
        | none =>
            have hstop : MissingOrUndone m slug := fun t ht => by simp [hfind] at ht
            exact ⟨.stopped slug, .stopped hnew hstop, rfl⟩
        | some t =>
            obtain ⟨ht, rfl⟩ := Keyed.find?_eq_some.mp hfind
            by_cases hdone : t.state = .done
            · have hstop : ¬ MissingOrUndone m t.slug := fun h => h t hfind hdone
              have hless : (unmarked m (t.slug :: visited)).length < fuel :=
                lt_of_lt_of_le (unmarked_lt ht hnew) (Nat.lt_succ_iff.mp hfuel)
              obtain ⟨r, hbelow, hanswer⟩ := answers_walkChildren ih
                (subtreeKids m.items waiter t.slug) (t.slug :: visited) hless
              simp only [hdone, ne_eq, not_true_eq_false, if_false]
              cases r with
              | done => exact ⟨.done, .onward hnew hstop hbelow (.nil _), hanswer⟩
              | stopped s => exact ⟨.stopped s, .inside hnew hstop hbelow (by simp), hanswer⟩
              | looped s => exact ⟨.looped s, .inside hnew hstop hbelow (by simp), hanswer⟩
            · have hstop : MissingOrUndone m t.slug := by
                intro u hu
                obtain rfl := Option.some.inj (hfind.symm.trans hu)
                exact hdone
              simp only [hdone, ne_eq, not_false_eq_true, if_true]
              exact ⟨.stopped t.slug, .stopped hnew hstop, rfl⟩

end Walk

theorem answers_firstUndoneInSubtree (m : Keyed Task.slug) (slug waiter : String) :
    ∃ r visited, Walk (subtreeKids m.items waiter) (MissingOrUndone m) [slug] [] r visited ∧
      firstUndoneInSubtree slug waiter m.items = walkResult r := by
  have hfuel : (unmarked m []).length < m.items.length + 1 :=
    Nat.lt_succ_of_le (List.length_filter_le _ _)
  obtain ⟨r, hwalk, hanswer⟩ := answers_firstUndoneFrom _ slug [] hfuel
  exact ⟨r, _, hwalk, hanswer⟩

/-! ## The order of the map -/

theorem find?_eq_of_perm {m m' : Keyed Task.slug} (hp : m'.items.Perm m.items) (slug : String) :
    m'.find? slug = m.find? slug := by
  refine Option.ext fun t => ?_
  rw [Keyed.find?_eq_some, Keyed.find?_eq_some, hp.mem_iff]

theorem subtreeKids_eq_of_perm {m m' : Keyed Task.slug} (hp : m'.items.Perm m.items)
    (waiter slug : String) : subtreeKids m'.items waiter slug = subtreeKids m.items waiter slug :=
  Ranked.insertionSort_eq_of_perm ((hp.filter _).map Task.slug)
    fun _ _ _ _ h => Std.LawfulEqOrd.eq_of_compare h

theorem firstUndoneFrom_eq_of_perm {m m' : Keyed Task.slug} (hp : m'.items.Perm m.items)
    (waiter : String) (fuel : Nat) :
    firstUndoneFrom m'.items waiter fuel = firstUndoneFrom m.items waiter fuel := by
  induction fuel with
  | zero => rfl
  | succ fuel ih =>
      funext slug visited
      have hkids := subtreeKids_eq_of_perm hp waiter slug
      rw [subtreeKids, subtreeKids] at hkids
      rw [firstUndoneFrom, firstUndoneFrom, find?_slug, find?_slug, find?_eq_of_perm hp, ih, hkids]

/-! ## The blocker -/

/-- Over any map of tasks the walk from a blocker ends.  It reports the blocker as finished exactly
when it is there, each task of its subtree is done and none is on a loop; a task that it names is in
the subtree and is missing or not done; and the order of the map makes no difference. -/
theorem firstUndoneInSubtree_spec (m : Keyed Task.slug) (slug waiter : String) :
    (∃ r visited, Walk (subtreeKids m.items waiter) (MissingOrUndone m) [slug] [] r visited ∧
      firstUndoneInSubtree slug waiter m.items = walkResult r) ∧
    (isDoneIncludingDescendants slug waiter m.items = true ↔
      firstUndoneInSubtree slug waiter m.items = .ok none) ∧
    (firstUndoneInSubtree slug waiter m.items = .ok none ↔
      (∀ s, InSubtree m waiter slug s → ∃ t, m.find? s = some t ∧ t.state = .done) ∧
        ¬ SubtreeLoops m waiter slug) ∧
    (∀ s, firstUndoneInSubtree slug waiter m.items = .ok (some s) →
      InSubtree m waiter slug s ∧ (m.find? s = none ∨ ∃ t, m.find? s = some t ∧ t.state ≠ .done)) ∧
    ∀ m' : Keyed Task.slug, m'.items.Perm m.items →
      firstUndoneInSubtree slug waiter m'.items = firstUndoneInSubtree slug waiter m.items := by
  obtain ⟨r, visited, hwalk, hanswer⟩ := answers_firstUndoneInSubtree m slug waiter
  refine ⟨⟨r, visited, hwalk, hanswer⟩, ?_, ?_, ?_, ?_⟩
  · rw [isDoneIncludingDescendants, hanswer]
    cases r with
    | done => simp [walkResult]
    | stopped s => simp [walkResult]
    | looped s => simp [walkResult]
  · have hstop : ∀ s, ¬ MissingOrUndone m s ↔ ∃ t, m.find? s = some t ∧ t.state = .done := by
      intro s
      simp [MissingOrUndone]
    rw [hanswer, walkResult_eq_ok_none,
      hwalk.done_iff slug descends_parent (nodup_subtreeKids m waiter)]
    simp only [HasLoop, Below, step_subtreeKids, hstop]
    rfl
  · intro s hs
    rw [hanswer, walkResult_eq_ok_some] at hs
    subst hs
    obtain ⟨hstop, a, ha, hbelow⟩ := hwalk.of_stopped
    obtain rfl := List.mem_singleton.mp ha
    rw [Below, step_subtreeKids] at hbelow
    refine ⟨hbelow, ?_⟩
    cases hfind : m.find? s with
    | none => exact .inl rfl
    | some t => exact .inr ⟨t, rfl, hstop t hfind⟩
  · intro m' hp
    rw [firstUndoneInSubtree, firstUndoneInSubtree, hp.length_eq, firstUndoneFrom_eq_of_perm hp]

end Llmenv.Tasks
