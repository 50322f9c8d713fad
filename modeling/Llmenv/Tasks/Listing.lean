/-
# `Llmenv.Tasks.Listing` — the tree listing loses and repeats nothing

`display_rows` walks the parent links of each session down from the roots, and
then from every task that no root reached.  A walk marks what it lists, and it
lists nothing that is marked (`Walked`), so whatever the links are each task of
the session gets one row: the second round begins at all that is left.

Creation time and slug order any two tasks, and the rank of its id or its place
in the given list any two sessions, so the rows do not depend on the order in
which the tasks were read (`displayRows_holds`).
-/
import Mathlib.Data.List.Dedup
import Llmenv.Lib.Ranked
import Llmenv.Tasks.Reminder

namespace Llmenv.Tasks

open Llmenv.Lib

/-! ## One walk -/

section Walk

variable {kids : String → List Task} {group : List Task} {rows : List DisplayRow}

/-- The slugs that are marked are those of the rows listed since `rows`, each once. -/
def Walked (group : List Task) (rows : List DisplayRow) (acc : List String × List DisplayRow) :
    Prop :=
  ∃ new, acc.2 = rows ++ new ∧ acc.1 = (new.map fun r => r.task.slug).reverse ∧ acc.1.Nodup ∧
    ∀ r ∈ new, r.task ∈ group

theorem walked_start (group : List Task) (rows : List DisplayRow) : Walked group rows ([], rows) :=
  ⟨[], (List.append_nil _).symm, rfl, List.nodup_nil, fun _ h => absurd h List.not_mem_nil⟩

theorem visitFrom_succ (fuel depth : Nat) (task : Task) (acc : List String × List DisplayRow) :
    visitFrom kids (fuel + 1) depth task acc =
      if acc.1.contains task.slug then acc
      else (kids task.slug).foldl (fun acc child => visitFrom kids fuel (depth + 1) child acc)
        (task.slug :: acc.1, acc.2 ++ [⟨depth, task⟩]) := rfl

theorem Walked.mark {acc : List String × List DisplayRow} (h : Walked group rows acc) {task : Task}
    (htask : task ∈ group) (hnew : acc.1.contains task.slug = false) (depth : Nat) :
    Walked group rows (task.slug :: acc.1, acc.2 ++ [⟨depth, task⟩]) := by
  obtain ⟨new, hrows, hmarked, hnodup, hmem⟩ := h
  refine ⟨new ++ [⟨depth, task⟩], ?_, ?_, ?_, ?_⟩
  · rw [hrows, List.append_assoc]
  · rw [hmarked, List.map_append, List.reverse_append]
    rfl
  · refine List.nodup_cons.mpr ⟨?_, hnodup⟩
    simpa using hnew
  · intro r hr
    rcases List.mem_append.mp hr with hr | hr
    · exact hmem r hr
    · obtain rfl := List.mem_singleton.mp hr
      exact htask

theorem Walked.visitFrom (hkids : ∀ slug, ∀ t ∈ kids slug, t ∈ group) (fuel : Nat) :
    ∀ {depth : Nat} {task : Task} {acc : List String × List DisplayRow}, Walked group rows acc →
      task ∈ group → Walked group rows (visitFrom kids fuel depth task acc) := by
  induction fuel with
  | zero => exact fun h _ => h
  | succ fuel ih =>
      intro depth task acc h htask
      rw [visitFrom_succ]
      split
      · exact h
      · rename_i hnew
        exact List.foldlRecOn (motive := Walked group rows) _ _
          (h.mark htask (by simpa using hnew) depth)
          fun acc hacc child hchild => ih hacc (hkids _ child hchild)

/-- A walk unmarks nothing. -/
theorem visitFrom_marked {slug : String} (fuel : Nat) :
    ∀ {depth : Nat} {task : Task} {acc : List String × List DisplayRow}, slug ∈ acc.1 →
      slug ∈ (visitFrom kids fuel depth task acc).1 := by
  induction fuel with
  | zero => exact fun h => h
  | succ fuel ih =>
      intro depth task acc h
      rw [visitFrom_succ]
      split
      · exact h
      · exact List.foldlRecOn
          (motive := fun acc' : List String × List DisplayRow => slug ∈ acc'.1) _ _
          (List.mem_cons_of_mem _ h) fun acc' hacc child _ => ih hacc

theorem visitFrom_marks (fuel depth : Nat) (task : Task) (acc : List String × List DisplayRow) :
    task.slug ∈ (visitFrom kids (fuel + 1) depth task acc).1 := by
  rw [visitFrom_succ]
  split
  · rename_i hold
    simpa using hold
  · exact List.foldlRecOn
      (motive := fun acc' : List String × List DisplayRow => task.slug ∈ acc'.1) _ _
      List.mem_cons_self fun acc' hacc child _ => visitFrom_marked fuel hacc

/-- One round of walks. -/
def visitAll (kids : String → List Task) (fuel : Nat) (starts : List Task)
    (acc : List String × List DisplayRow) : List String × List DisplayRow :=
  starts.foldl (fun acc t => visitFrom kids fuel 0 t acc) acc

theorem Walked.visitAll (hkids : ∀ slug, ∀ t ∈ kids slug, t ∈ group) (fuel : Nat)
    {starts : List Task} (hstarts : ∀ t ∈ starts, t ∈ group)
    {acc : List String × List DisplayRow} (h : Walked group rows acc) :
    Walked group rows (visitAll kids fuel starts acc) :=
  List.foldlRecOn (motive := Walked group rows) _ _ h
    fun _ hacc t ht => hacc.visitFrom hkids fuel (hstarts t ht)

theorem visitAll_marked {slug : String} {fuel : Nat} (starts : List Task)
    {acc : List String × List DisplayRow} (h : slug ∈ acc.1) :
    slug ∈ (visitAll kids fuel starts acc).1 :=
  List.foldlRecOn (motive := fun acc' : List String × List DisplayRow => slug ∈ acc'.1) _ _ h
    fun _ hacc _ _ => visitFrom_marked fuel hacc

theorem visitAll_marks (fuel : Nat) {starts : List Task} {t : Task} (ht : t ∈ starts) :
    ∀ acc : List String × List DisplayRow, t.slug ∈ (visitAll kids (fuel + 1) starts acc).1 := by
  induction starts with
  | nil => exact absurd ht List.not_mem_nil
  | cons u starts ih =>
      intro acc
      rcases List.mem_cons.mp ht with rfl | ht
      · exact visitAll_marked starts (visitFrom_marks fuel 0 t acc)
      · exact ih ht _

/-- The marked slugs are slugs of the group, so there are no more of them. -/
theorem Walked.length_le {acc : List String × List DisplayRow} (h : Walked group rows acc) :
    acc.1.length ≤ group.length := by
  obtain ⟨new, -, hmarked, hnodup, hmem⟩ := h
  have hsub : acc.1 ⊆ group.map Task.slug := by
    intro slug hslug
    rw [hmarked, List.mem_reverse] at hslug
    obtain ⟨r, hr, rfl⟩ := List.mem_map.mp hslug
    exact List.mem_map_of_mem (hmem r hr)
  exact (List.subperm_of_subset hnodup hsub).length_le.trans_eq (List.length_map _)

/-- A walk with fuel for every task that is not marked does not run out of it. -/
theorem visitFrom_enough (hkids : ∀ slug, ∀ t ∈ kids slug, t ∈ group) (fuel : Nat) :
    ∀ {depth : Nat} {task : Task} {acc : List String × List DisplayRow}, Walked group rows acc →
      task ∈ group → group.length < fuel + acc.1.length →
      visitFrom kids (fuel + 1) depth task acc = visitFrom kids fuel depth task acc := by
  induction fuel with
  | zero =>
      intro depth task acc h _ hfuel
      exact absurd (lt_of_lt_of_le (Nat.zero_add acc.1.length ▸ hfuel) h.length_le) (lt_irrefl _)
  | succ fuel ih =>
      intro depth task acc h htask hfuel
      rw [visitFrom_succ, visitFrom_succ]
      split
      · rfl
      · rename_i hnew
        refine (List.foldl_rel (r := fun c c' : List String × List DisplayRow => c = c' ∧
          Walked group rows c ∧ group.length < fuel + c.1.length) ⟨rfl, ?_, ?_⟩ ?_).1
        · exact h.mark htask (by simpa using hnew) depth
        · rw [List.length_cons]
          omega
        · rintro child hchild c _ ⟨rfl, hwalked, hlt⟩
          have hgroup := hkids _ child hchild
          have hmore : c.1.length ≤ (visitFrom kids fuel (depth + 1) child c).1.length := by
            obtain ⟨-, -, -, hnodup, -⟩ := hwalked
            exact (List.subperm_of_subset hnodup fun _ hs => visitFrom_marked fuel hs).length_le
          have hstep : visitFrom kids (fuel + 1) (depth + 1) child c =
              visitFrom kids fuel (depth + 1) child c := ih hwalked hgroup hlt
          refine ⟨hstep, hwalked.visitFrom hkids (fuel + 1) hgroup, ?_⟩
          rw [hstep]
          exact lt_of_lt_of_le hlt (Nat.add_le_add_left hmore fuel)

end Walk

/-! ## One session -/

section Forest

variable {group : List Task}

theorem appendForest_eq (group : List Task) (rows : List DisplayRow) :
    ∃ kids : String → List Task, ∃ roots : List Task,
      (∀ slug, ∀ t ∈ kids slug, t ∈ group) ∧ (∀ t ∈ roots, t ∈ group) ∧
      appendForest group rows =
        (visitAll kids (group.length + 1)
          (sortTasks (group.filter fun t =>
            !(visitAll kids (group.length + 1) roots ([], rows)).1.contains t.slug))
          (visitAll kids (group.length + 1) roots ([], rows))).2 := by
  refine ⟨_, _, ?_, ?_, rfl⟩
  · intro slug t ht
    exact List.mem_of_mem_filter (mem_sortTasks.mp ht)
  · intro t ht
    exact List.mem_of_mem_filter (mem_sortTasks.mp ht)

/-- The rows of a session are its tasks, each once. -/
theorem appendForest_perm (hslugs : (group.map Task.slug).Nodup) (rows : List DisplayRow) :
    ∃ new, appendForest group rows = rows ++ new ∧ (new.map DisplayRow.task).Perm group := by
  obtain ⟨kids, roots, hkids, hroots, heq⟩ := appendForest_eq group rows
  generalize hfirst : visitAll kids (group.length + 1) roots ([], rows) = first at heq
  have hwalked : Walked group rows first :=
    hfirst ▸ (walked_start group rows).visitAll hkids _ hroots
  -- What is not marked by the first round begins the second one.
  have hall : ∀ t ∈ group, t.slug ∈ (visitAll kids (group.length + 1)
      (sortTasks (group.filter fun t => !first.1.contains t.slug)) first).1 := by
    intro t ht
    by_cases hmarked : t.slug ∈ first.1
    · exact visitAll_marked _ hmarked
    · exact visitAll_marks group.length (mem_sortTasks.mpr (List.mem_filter.mpr
        ⟨ht, by simpa using hmarked⟩)) first
  have hstarts : ∀ t ∈ sortTasks (group.filter fun t => !first.1.contains t.slug), t ∈ group :=
    fun t ht => List.mem_of_mem_filter (mem_sortTasks.mp ht)
  obtain ⟨new, hrows, hmarks, hnodup, hmem⟩ :=
    hwalked.visitAll hkids (group.length + 1) hstarts
  refine ⟨new, heq.trans hrows, ?_⟩
  rw [hmarks] at hall hnodup
  have hnewSlugs : ((new.map DisplayRow.task).map Task.slug).Nodup := by
    rw [List.map_map]
    exact List.nodup_reverse.mp hnodup
  refine (List.perm_ext_iff_of_nodup hnewSlugs.of_map hslugs.of_map).mpr ?_
  intro t
  constructor
  · intro ht
    obtain ⟨r, hr, rfl⟩ := List.mem_map.mp ht
    exact hmem r hr
  · intro ht
    obtain ⟨r, hr, hslug⟩ := List.mem_map.mp (List.mem_reverse.mp (hall t ht))
    have hrt : r.task = t := List.inj_on_of_nodup_map hslugs (hmem r hr) ht hslug
    exact hrt ▸ List.mem_map_of_mem hr

instance : Std.TransCmp queueOrder :=
  inferInstanceAs (Std.TransCmp (compareLex (compareOn Task.createdAt) (compareOn Task.slug)))

theorem slug_eq_of_queueOrder {a b : Task} (h : queueOrder a b = .eq) : a.slug = b.slug :=
  Std.LawfulEqOrd.eq_of_compare (Ordering.then_eq_eq.mp h).2

/-- Tasks of different slugs have one order. -/
theorem sortTasks_eq_of_perm {tasks tasks' : List Task} (hslugs : (tasks.map Task.slug).Nodup)
    (hp : tasks.Perm tasks') : sortTasks tasks = sortTasks tasks' :=
  Ranked.insertionSort_eq_of_perm hp fun _ ha _ hb h =>
    List.inj_on_of_nodup_map hslugs ha hb (slug_eq_of_queueOrder h)

theorem appendForest_eq_of_perm {group group' : List Task}
    (hslugs : (group.map Task.slug).Nodup) (hp : group.Perm group') :
    appendForest group = appendForest group' := by
  have hsort : ∀ p : Task → Bool, sortTasks (group.filter p) = sortTasks (group'.filter p) :=
    fun p => sortTasks_eq_of_perm (hslugs.sublist (List.filter_sublist.map _)) (hp.filter p)
  have hany : ∀ p : Task → Bool, group.any p = group'.any p := fun p => hp.any_eq
  funext rows
  simp only [appendForest, hsort, hany, hp.length_eq]

end Forest

/-! ## All sessions -/

instance : Std.TransCmp rankOrder :=
  inferInstanceAs (Std.TransCmp (compareLex (compareOn Prod.fst)
    (compareLex (compareOn fun a : Nat × Nat × String => a.2.1) (compareOn fun a => a.2.2))))

/-- The session of a rank. -/
def ofRank (priority : List String) (rank : Nat × Nat × String) : Option String :=
  if rank.1 = 0 then priority[rank.2.1]? else if rank.1 = 1 then some rank.2.2 else none

theorem ofRank_sessionRank (priority : List String) (key : Option String) :
    ofRank priority (sessionRank priority key) = key := by
  cases key with
  | none => rfl
  | some id =>
      simp only [sessionRank]
      split
      · rename_i i hi
        obtain ⟨hlt, heq, -⟩ := List.findIdx?_eq_some_iff_getElem.mp hi
        show priority[i]? = some id
        rw [List.getElem?_eq_getElem hlt, beq_iff_eq.mp heq]
      · rfl

/-- The order of the session groups. -/
def sessionKeys (tasks : List Task) (priority : List String) : List (Option String) :=
  ((tasks.map Task.session).dedup).insertionSort
    (fun a b => rankOrder (sessionRank priority a) (sessionRank priority b) ≠ .gt)

theorem eq_of_rankOrder {a b : Nat × Nat × String} (h : rankOrder a b = .eq) : a = b := by
  obtain ⟨h₁, h₂₃⟩ := Ordering.then_eq_eq.mp h
  obtain ⟨h₂, h₃⟩ := Ordering.then_eq_eq.mp h₂₃
  exact Prod.ext (Std.LawfulEqOrd.eq_of_compare h₁)
    (Prod.ext (Std.LawfulEqOrd.eq_of_compare h₂) (Std.LawfulEqOrd.eq_of_compare h₃))

theorem sessionKeys_eq_of_perm {tasks tasks' : List Task} (hp : tasks.Perm tasks')
    (priority : List String) : sessionKeys tasks priority = sessionKeys tasks' priority := by
  have htrans : Std.TransCmp fun a b : Option String =>
      rankOrder (sessionRank priority a) (sessionRank priority b) :=
    { eq_swap := Std.OrientedCmp.eq_swap, isLE_trans := Std.TransCmp.isLE_trans }
  have hinj := Function.LeftInverse.injective (ofRank_sessionRank priority)
  exact Ranked.insertionSort_eq_of_perm (hp.map Task.session).dedup
    fun _ _ _ _ h => hinj (eq_of_rankOrder h)

theorem mem_sessionKeys {tasks : List Task} {priority : List String} {key : Option String} :
    key ∈ sessionKeys tasks priority ↔ key ∈ tasks.map Task.session := by
  rw [sessionKeys, List.mem_insertionSort, List.mem_dedup]

theorem nodup_sessionKeys (tasks : List Task) (priority : List String) :
    (sessionKeys tasks priority).Nodup :=
  (List.perm_insertionSort _ _).nodup_iff.mpr (List.nodup_dedup _)

/-- The tasks of one group. -/
def groupOf (tasks : List Task) (key : Option String) : List Task :=
  tasks.filter fun t => t.session == key

theorem displayRows_eq (tasks : List Task) (priority : List String) :
    displayRows tasks priority =
      (sessionKeys tasks priority).foldl (fun rows key => appendForest (groupOf tasks key) rows) [] :=
  rfl

/-- The rows of some groups, one group after the other. -/
theorem foldl_groups {tasks : List Task} (hslugs : (tasks.map Task.slug).Nodup)
    (keys : List (Option String)) :
    ∀ rows, ∃ new, keys.foldl (fun rows key => appendForest (groupOf tasks key) rows) rows =
        rows ++ new ∧ (new.map DisplayRow.task).Perm (keys.flatMap (groupOf tasks)) := by
  induction keys with
  | nil => exact fun rows => ⟨[], (List.append_nil rows).symm, List.Perm.refl _⟩
  | cons key keys ih =>
      intro rows
      obtain ⟨mine, hmine, hperm⟩ :=
        appendForest_perm (hslugs.sublist (List.filter_sublist.map _)) rows
      obtain ⟨rest, hrest, hperm'⟩ := ih (rows ++ mine)
      refine ⟨mine ++ rest, ?_, ?_⟩
      · rw [List.foldl_cons, groupOf, hmine, ← List.append_assoc]
        exact hrest
      · rw [List.map_append, List.flatMap_cons]
        exact hperm.append hperm'

theorem mem_groups {tasks : List Task} {keys : List (Option String)} {t : Task} :
    t ∈ keys.flatMap (groupOf tasks) ↔ t ∈ tasks ∧ t.session ∈ keys := by
  rw [List.mem_flatMap]
  constructor
  · rintro ⟨key, hkey, ht⟩
    obtain ⟨ht, hkey'⟩ := List.mem_filter.mp ht
    exact ⟨ht, (beq_iff_eq.mp hkey') ▸ hkey⟩
  · rintro ⟨ht, hkey⟩
    exact ⟨t.session, hkey, List.mem_filter.mpr ⟨ht, beq_self_eq_true _⟩⟩

theorem nodup_groups {tasks : List Task} (htasks : tasks.Nodup) {keys : List (Option String)}
    (hkeys : keys.Nodup) : (keys.flatMap (groupOf tasks)).Nodup := by
  refine List.nodup_flatMap.mpr ⟨fun key _ => htasks.filter _, hkeys.imp ?_⟩
  intro key key' hne t ht ht'
  have h := beq_iff_eq.mp (List.mem_filter.mp ht).2
  have h' := beq_iff_eq.mp (List.mem_filter.mp ht').2
  exact hne (h.symm.trans h')

/-- Of tasks with different slugs each is listed once, in whatever order they come, and the rows
of a session stand together. -/
theorem displayRows_holds (tasks : List Task) (hslugs : (tasks.map Task.slug).Nodup)
    (priority : List String) :
    ((displayRows tasks priority).map DisplayRow.task).Perm tasks ∧
    (∀ tasks' : List Task, tasks.Perm tasks' →
      displayRows tasks' priority = displayRows tasks priority) ∧
    ∀ key : Option String, ∃ before mine after : List DisplayRow,
      displayRows tasks priority = before ++ mine ++ after ∧
      (∀ r ∈ mine, r.task.session = key) ∧ ∀ r ∈ before ++ after, r.task.session ≠ key := by
  refine ⟨?_, ?_, ?_⟩
  · obtain ⟨new, hnew, hperm⟩ := foldl_groups hslugs (sessionKeys tasks priority) []
    rw [displayRows_eq, hnew, List.nil_append]
    refine hperm.trans ((List.perm_ext_iff_of_nodup
      (nodup_groups hslugs.of_map (nodup_sessionKeys tasks priority)) hslugs.of_map).mpr ?_)
    intro t
    rw [mem_groups, mem_sessionKeys]
    exact and_iff_left_of_imp fun ht => List.mem_map_of_mem ht
  · intro tasks' hp
    have hgroup : ∀ key, appendForest (groupOf tasks' key) = appendForest (groupOf tasks key) :=
      fun key => (appendForest_eq_of_perm (hslugs.sublist (List.filter_sublist.map _))
        (hp.filter _)).symm
    rw [displayRows_eq, displayRows_eq, ← sessionKeys_eq_of_perm hp]
    simp only [hgroup]
  · intro key
    -- The sessions of the rows of some groups are the keys of these groups.
    have hsession : ∀ {new : List DisplayRow} {keys : List (Option String)},
        (new.map DisplayRow.task).Perm (keys.flatMap (groupOf tasks)) →
        ∀ r ∈ new, r.task.session ∈ keys :=
      fun hperm r hr => (mem_groups.mp (hperm.mem_iff.mp (List.mem_map_of_mem hr))).2
    by_cases hkey : key ∈ sessionKeys tasks priority
    · have hnodup := nodup_sessionKeys tasks priority
      obtain ⟨earlier, later, hkeys⟩ := List.append_of_mem hkey
      rw [hkeys] at hnodup
      obtain ⟨hnot, -⟩ := List.nodup_cons.mp (List.nodup_middle.mp hnodup)
      obtain ⟨before, hbefore, hpermBefore⟩ := foldl_groups hslugs earlier []
      obtain ⟨mine, hmine, hpermMine⟩ := foldl_groups hslugs [key] before
      obtain ⟨after, hafter, hpermAfter⟩ := foldl_groups hslugs later (before ++ mine)
      refine ⟨before, mine, after, ?_, ?_, ?_⟩
      · have hsplit : earlier ++ key :: later = earlier ++ ([key] ++ later) := rfl
        rw [displayRows_eq, hkeys, hsplit, List.foldl_append, List.foldl_append, hbefore,
          List.nil_append, hmine, hafter]
      · exact fun r hr => List.mem_singleton.mp (hsession hpermMine r hr)
      · rintro r hr rfl
        refine hnot (List.mem_append.mpr ?_)
        rcases List.mem_append.mp hr with hr | hr
        · exact Or.inl (hsession hpermBefore r hr)
        · exact Or.inr (hsession hpermAfter r hr)
    · obtain ⟨rows, hrows, hperm⟩ := foldl_groups hslugs (sessionKeys tasks priority) []
      refine ⟨rows, [], [], ?_, fun _ h => absurd h List.not_mem_nil, ?_⟩
      · rw [displayRows_eq, hrows, List.append_nil, List.append_nil, List.nil_append]
      · rintro r hr rfl
        rw [List.append_nil] at hr
        exact hkey (hsession hperm r hr)

/-- A task with these links; the rest is the same for all. -/
def linked (slug : String) (parent session : Option String) : Task :=
  ⟨slug, slug, .opened, parent, .queued, false, [], [], none, session, "2026-01-01T00:00:00Z",
    "2026-01-01T00:00:00Z"⟩

/-- Two tasks on a cycle, one below a parent of another session, one below no task, one without a
session. -/
def tangled : List Task :=
  [linked "b" (some "a") (some "s"), linked "far" (some "a") (some "t"),
    linked "a" (some "b") (some "s"), linked "lost" (some "gone") (some "s"),
    linked "free" none none]

theorem displayRows_holds_tangled :
    ((displayRows tangled ["t"]).map DisplayRow.task).Perm tangled ∧
      displayRows tangled.reverse ["t"] = displayRows tangled ["t"] :=
  ⟨(displayRows_holds tangled (by decide) ["t"]).1,
    (displayRows_holds tangled (by decide) ["t"]).2.1 _ tangled.reverse_perm.symm⟩

example : (displayRows tangled ["t"]).map (fun r => (r.depth, r.task.slug)) =
    [(0, "far"), (0, "lost"), (0, "a"), (1, "b"), (0, "free")] := by decide +kernel

end Llmenv.Tasks
