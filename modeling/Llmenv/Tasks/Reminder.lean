/-
# `Llmenv.Tasks.Reminder` — can the task that the reminder names be started?

The Stop hook tells the agent of an idle session to run
`llmenv task start <next>`.  `idle_sessions` picks `next` in the order of the
tree listing; the gate of `start_task` reads the queue of the session, the
blockers and the ancestors.  The blocker walk is the same code on both sides,
so an actionable task is never refused for its blockers.  The queue and the
ancestors are read by the gate alone.

`start_next_iff` says exactly when the named task starts: the task directly
ahead of it in the queue is done, and `AncestorsReady` holds of its ancestors.
-/
import Llmenv.Tasks.ClosedSessions

namespace Llmenv.Tasks

open Llmenv.Lib

/-! ## The tree listing -/

/-- A task with its indentation. -/
structure DisplayRow where
  depth : Nat
  task : Task

/-- The sort key of a session group: listed sessions, other sessions by id,
and no session last. -/
def sessionRank (priority : List String) : Option String → Nat × Nat × String
  | some id =>
      match priority.findIdx? (fun p => p == id) with
      | some i => (0, i, "")
      | none => (1, 0, id)
  | none => (2, 0, "")

def rankOrder (a b : Nat × Nat × String) : Ordering :=
  (compare a.1 b.1).then ((compare a.2.1 b.2.1).then (compare a.2.2 b.2.2))

/-- `visit`: the task and then its subtree, each task once.  The visited slugs
are those of the group, so the size of the group bounds the depth. -/
def visitFrom (kids : String → List Task) :
    Nat → Nat → Task → List String × List DisplayRow → List String × List DisplayRow
  | 0, _, _, acc => acc
  | fuel + 1, depth, task, (visited, rows) =>
      if visited.contains task.slug then (visited, rows)
      else
        (kids task.slug).foldl (fun acc child => visitFrom kids fuel (depth + 1) child acc)
          (task.slug :: visited, rows ++ [⟨depth, task⟩])

/-- `append_forest`: the roots in order, then every task that no root reached. -/
def appendForest (group : List Task) (rows : List DisplayRow) : List DisplayRow :=
  let present := fun slug => group.any (fun t => t.slug == slug)
  let isRoot := fun (t : Task) => !t.parent.any present
  let kids := fun slug => sortTasks (group.filter (fun t => !isRoot t && t.parent == some slug))
  let visit := fun acc t => visitFrom kids (group.length + 1) 0 t acc
  let fromRoots := (sortTasks (group.filter isRoot)).foldl visit ([], rows)
  let orphans := sortTasks (group.filter (fun t => !fromRoots.1.contains t.slug))
  (orphans.foldl visit fromRoots).2

/-- `display_rows`. -/
def displayRows (tasks : List Task) (priority : List String) : List DisplayRow :=
  let keys := ((tasks.map Task.session).dedup).insertionSort
    (fun a b => rankOrder (sessionRank priority a) (sessionRank priority b) ≠ .gt)
  keys.foldl (fun rows key => appendForest (tasks.filter (fun t => t.session == key)) rows) []

/-- `execution_order`. -/
def executionOrder (tasks : List Task) : List Task := (displayRows tasks []).map DisplayRow.task

/-! ## Idle sessions -/

/-- A session with `open` tasks and nothing in progress or waiting. -/
structure IdleSession where
  session : Session
  next : Task
  openCount : Nat
deriving DecidableEq

/-- The next task of a session: the first actionable `open` task, else the
first `open` one. -/
def idleSession (all : List Task) (x : Session) : Option IdleSession :=
  let tasks := tasksInSession all x.id
  if tasks.any (fun t => t.state == .wip || t.state == .waiting) then none
  else
    let opened := (executionOrder tasks).filter (fun t => t.state == .opened)
    ((opened.find? (fun t => isActionable t all)).or opened.head?).map
      (fun next => ⟨x, next, opened.length⟩)

/-- `idle_sessions`. -/
def idleSessions (opened : List Session) (all : List Task) : List IdleSession :=
  opened.filterMap (idleSession all)

/-- Folding a step that only adds rows with `P` over tasks with `P`. -/
theorem foldl_rows {α β : Type} {P : Task → Prop} {g : α → List DisplayRow} {f : α → β → α}
    {Q : β → Prop}
    (hf : ∀ acc b, Q b → (∀ r ∈ g acc, P r.task) → ∀ r ∈ g (f acc b), P r.task)
    (l : List β) :
    ∀ acc, (∀ b ∈ l, Q b) → (∀ r ∈ g acc, P r.task) →
      ∀ r ∈ g (l.foldl f acc), P r.task := by
  induction l with
  | nil => exact fun acc _ hacc => hacc
  | cons b l ih =>
      intro acc hl hacc
      exact ih _ (fun c hc => hl c (List.mem_cons_of_mem _ hc))
        (hf acc b (hl b List.mem_cons_self) hacc)

/-- Every row of a walk is a row from before, the task itself, or a task that
some task names as its parent. -/
theorem visitFrom_rows {kids : String → List Task} {P : Task → Prop}
    (hkids : ∀ slug, ∀ t ∈ kids slug, P t) :
    ∀ {fuel depth : Nat} {task : Task} {acc : List String × List DisplayRow}, P task →
      (∀ r ∈ acc.2, P r.task) → ∀ r ∈ (visitFrom kids fuel depth task acc).2, P r.task
  | 0, _, _, _, _, hacc => hacc
  | fuel + 1, depth, task, (visited, rows), htask, hacc => by
      unfold visitFrom
      split
      · exact hacc
      · refine foldl_rows (g := Prod.snd) (Q := P)
          (f := fun acc child => visitFrom kids fuel (depth + 1) child acc)
          (fun acc t ht hacc => visitFrom_rows hkids ht hacc) _ _ (hkids task.slug) fun r hr => ?_
        rcases List.mem_append.mp hr with hr | hr
        · exact hacc r hr
        · obtain rfl := List.mem_singleton.mp hr
          exact htask

theorem appendForest_rows {group : List Task} {rows : List DisplayRow} {P : Task → Prop}
    (hgroup : ∀ t ∈ group, P t) (hrows : ∀ r ∈ rows, P r.task) :
    ∀ r ∈ appendForest group rows, P r.task := by
  have hsub : ∀ p : Task → Bool, ∀ t ∈ sortTasks (group.filter p), P t :=
    fun p t ht => hgroup t (List.mem_of_mem_filter (mem_sortTasks.mp ht))
  have hvisit : ∀ (kids : String → List Task) (l : List Task) acc,
      (∀ slug, ∀ t ∈ kids slug, P t) → (∀ t ∈ l, P t) → (∀ r ∈ acc.2, P r.task) →
      ∀ r ∈ (l.foldl (fun acc t => visitFrom kids (group.length + 1) 0 t acc) acc).2,
        P r.task :=
    fun kids l acc hkids => foldl_rows (g := Prod.snd) (Q := P)
      (f := fun acc t => visitFrom kids (group.length + 1) 0 t acc)
      (fun acc t ht hacc => visitFrom_rows hkids ht hacc) l acc
  exact hvisit _ _ _ (fun slug => hsub _) (hsub _)
    (hvisit _ _ ([], rows) (fun slug => hsub _) (hsub _) hrows)

/-- The listing invents no task. -/
theorem mem_of_mem_executionOrder {tasks : List Task} {t : Task} (h : t ∈ executionOrder tasks) :
    t ∈ tasks := by
  obtain ⟨r, hr, rfl⟩ := List.mem_map.mp h
  exact foldl_rows (P := fun t => t ∈ tasks) (Q := fun _ => True) (g := id)
    (fun rows key _ hrows => appendForest_rows (fun t ht => List.mem_of_mem_filter ht) hrows)
    _ [] (fun _ _ => trivial) (fun r hr => absurd hr (by simp)) r hr

/-- What the reminder knows of a session that it reports. -/
theorem idleSessions_spec {opened : List Session} {all : List Task} {i : IdleSession}
    (h : i ∈ idleSessions opened all) :
    i.next ∈ all ∧ i.next.session = some i.session.id ∧ i.next.state = .opened ∧
      ∀ t ∈ all, t.session = some i.session.id → t.state ≠ .wip ∧ t.state ≠ .waiting := by
  obtain ⟨x, -, h⟩ := List.mem_filterMap.mp h
  simp only [idleSession] at h
  split at h
  · exact absurd h (by simp)
  · rename_i hquiet
    obtain ⟨next, hnext, rfl⟩ := Option.map_eq_some_iff.mp h
    have hmem : next ∈ (executionOrder (tasksInSession all x.id)).filter
        (fun t => t.state == .opened) := by
      rcases Option.or_eq_some_iff.mp hnext with hfind | ⟨-, hhead⟩
      · exact List.mem_of_find?_eq_some hfind
      · exact List.mem_of_head? hhead
    obtain ⟨horder, hopened⟩ := List.mem_filter.mp hmem
    obtain ⟨hall, hses⟩ := List.mem_filter.mp (mem_of_mem_executionOrder horder)
    refine ⟨hall, by simpa using hses, by simpa using hopened, fun t ht htses => ?_⟩
    have hin : t ∈ tasksInSession all x.id := by
      simpa [tasksInSession] using And.intro ht htses
    have := List.any_eq_false.mp (Bool.eq_false_iff.mpr hquiet) t hin
    simpa using this

/-! ## The checks of the gate -/

/-- An actionable task has no unmet blocker: both sides make the same walk. -/
theorem unmetBlockers_of_actionable {all : List Task} {slug : String} {blockers : List String}
    (h : ∀ b ∈ blockers, isDoneIncludingDescendants b slug all = true) :
    unmetBlockers all slug blockers = .ok [] := by
  induction blockers with
  | nil => rfl
  | cons b rest ih =>
      have hb := h b List.mem_cons_self
      have hwalk : firstUndoneInSubtree b slug all = .ok none := by
        unfold isDoneIncludingDescendants at hb
        split at hb
        · rename_i undone hundone
          rw [hundone, Option.isNone_iff_eq_none.mp hb]
        · exact absurd hb (by simp)
      have hrest := ih (fun b hb => h b (List.mem_cons_of_mem _ hb))
      simp [unmetBlockers, hwalk, hrest, bind, Except.bind]

theorem checkBlockers_of_actionable {s : Store} {t : Task}
    (h : isActionable t s.tasks.items = true) : checkBlockers s t = .ok () := by
  simp only [isActionable, Bool.and_eq_true, List.all_eq_true] at h
  simp [checkBlockers, unmetBlockers_of_actionable h.2, bind, Except.bind]

/-- Nothing holds an `open` task in the queue of its session: no other queued
task is in progress, and the task directly ahead is done or waiting. -/
def QueueFree (s : Store) (t : Task) : Prop :=
  ∀ id, t.session = some id → t.relation = .queued → t.parallel = false →
    (∀ u ∈ queue (tasksInSession s.tasks.items id), u.slug ≠ t.slug → u.state ≠ .wip) ∧
    ∀ ahead, aheadOf (queue (tasksInSession s.tasks.items id)) t.slug = some ahead →
      ahead.state = .done ∨ ahead.state = .waiting

theorem queueBlock_eq_none {t : Task} {tasks : List Task} (hopened : t.state = .opened)
    (hrel : t.relation = .queued) (hpar : t.parallel = false) :
    queueBlock t tasks = none ↔
      (∀ u ∈ queue tasks, u.slug ≠ t.slug → u.state ≠ .wip) ∧
      ∀ ahead, aheadOf (queue tasks) t.slug = some ahead →
        ahead.state = .done ∨ ahead.state = .waiting := by
  simp only [queueBlock, hopened, hrel, hpar]
  simp only [ne_eq, not_true_eq_false, decide_false, Bool.or_self, Bool.false_eq_true, if_false]
  cases hbusy : (queue tasks).find? (fun u => u.slug != t.slug && u.state == .wip) with
  | some busy =>
      have hmem := List.mem_of_find?_eq_some hbusy
      have hcond := List.find?_some hbusy
      simp only [Bool.and_eq_true, bne_iff_ne, beq_iff_eq] at hcond
      simp only [reduceCtorEq, false_iff, not_and]
      exact fun h => absurd hcond.2 (h busy hmem hcond.1)
  | none =>
      have hnone : ∀ u ∈ queue tasks, u.slug ≠ t.slug → u.state ≠ .wip := by
        intro u hu hslug hwip
        exact absurd (List.find?_eq_none.mp hbusy u hu) (by simp [hslug, hwip])
      refine Iff.trans ?_ (and_iff_right hnone).symm
      cases hahead : aheadOf (queue tasks) t.slug with
      | none => simp
      | some ahead => by_cases hd : ahead.state = .done <;> simp [hd]

theorem queueBlockIn_eq_none {s : Store} {t : Task} (hopened : t.state = .opened) :
    queueBlockIn s t = none ↔ QueueFree s t := by
  unfold queueBlockIn QueueFree
  cases hses : t.session with
  | none => simp
  | some id =>
      cases hrel : t.relation with
      | child => simp [queueBlock, hrel]
      | queued =>
          cases hpar : t.parallel with
          | true => simp [queueBlock, hpar]
          | false => simp [queueBlock_eq_none hopened hrel hpar]

theorem checkQueue_eq_ok {s : Store} {t : Task} (hopened : t.state = .opened) :
    checkQueue s t = .ok () ↔ QueueFree s t := by
  rw [← queueBlockIn_eq_none hopened, checkQueue]
  cases queueBlockIn s t <;> simp

/-! ## The ancestors of a sub-task -/

/-- Every ancestor that a start meets is stored and not done, an `open` one is
free in its queue, and the chain ends at a top-level task. -/
inductive AncestorsReady (s : Store) : Task → Prop
  | top {t : Task} : t.relation = .queued → AncestorsReady s t
  | sub {t parent : Task} {slug : String} : t.relation = .child → t.parent = some slug →
      s.task? slug = some parent → parent.state ≠ .done →
      (parent.state = .opened → QueueFree s parent) → AncestorsReady s parent →
      AncestorsReady s t

theorem AncestorsReady.of_ancestorsFrom {s : Store} {child : Task} {fuel : Nat}
    {seen : List String} {current : Task} {above : List Task}
    (h : ancestorsFrom s child false fuel seen current = .ok above) :
    AncestorsReady s current := by
  induction fuel generalizing seen current above with
  | zero => exact absurd h (by simp [ancestorsFrom])
  | succ fuel ih =>
      rcases ancestorsFrom_ok h with
        ⟨hrel, -⟩ | ⟨parent, rest, hrel, hparent, hstored, hdone, hrest, hstep⟩
      · exact .top hrel
      · refine .sub hrel hparent hstored (hdone rfl) (fun hopened => ?_) (ih hrest)
        rcases hstep with ⟨-, hfree, -⟩ | ⟨hnot, -⟩
        · exact (queueBlockIn_eq_none hopened).mp (hfree rfl)
        · exact absurd hopened hnot

/-- The parent of a sub-task. -/
def Store.subParent (s : Store) (slug : String) : Option String :=
  (s.task? slug).bind (fun t => if t.relation = .child then t.parent else none)

theorem Store.subParent_eq {s : Store} {t : Task} (ht : s.task? t.slug = some t)
    (hrel : t.relation = .child) : s.subParent t.slug = t.parent := by
  simp [Store.subParent, ht, hrel]

/-- A ready task is on no loop: its links end at a top-level task. -/
theorem AncestorsReady.no_loop {s : Store} {t : Task} (h : AncestorsReady s t) :
    s.task? t.slug = some t → ¬ Relation.TransGen (Link s.subParent) t.slug t.slug := by
  induction h with
  | @top t hrel =>
      intro ht hloop
      obtain ⟨b, hlink, -⟩ := Relation.TransGen.head'_iff.mp hloop
      simp [Link, Store.subParent, ht, hrel] at hlink
  | @sub t parent slug hrel hpar hstored _ _ _ ih =>
      intro ht hloop
      obtain rfl := Store.slug_of_task? hstored
      have hlink : Link s.subParent t.slug parent.slug := by
        rw [Link, Store.subParent_eq ht hrel, hpar]
      -- The loop goes through the parent, so the parent is on one too.
      obtain ⟨b, hb, hrest⟩ := Relation.TransGen.head'_iff.mp hloop
      obtain rfl : b = parent.slug := Option.some.inj (hb.symm.trans hlink)
      exact ih hstored (Relation.TransGen.tail' hrest hlink)

/-- The fuel of the walk is enough: the slugs seen are slugs of files. -/
theorem length_le_of_seen {s : Store} {seen : List String} (hnodup : seen.Nodup)
    (hstored : ∀ v ∈ seen, ∃ t, s.task? v = some t) : seen.length ≤ s.tasks.items.length := by
  have hsub : seen ⊆ s.tasks.items.map Task.slug := by
    intro v hv
    obtain ⟨t, ht⟩ := hstored v hv
    exact List.mem_map.mpr ⟨t, Keyed.mem_of_find? ht, Store.slug_of_task? ht⟩
  have := (List.subperm_of_subset hnodup hsub).length_le
  simpa using this

/-- The walk succeeds on a ready task.  The slugs seen so far lead to
`current`, so meeting one of them again would be a loop. -/
theorem AncestorsReady.ancestorsFrom_ok {s : Store} {child current : Task}
    (h : AncestorsReady s current) :
    ∀ (fuel : Nat) (seen : List String), s.task? current.slug = some current → seen.Nodup →
      (∀ v ∈ seen, ∃ t, s.task? v = some t) →
      (∀ v ∈ seen, Reaches s.subParent v current.slug) →
      s.tasks.items.length + 2 ≤ seen.length + fuel →
      ∃ above, ancestorsFrom s child false fuel seen current = .ok above := by
  induction h with
  | @top current hrel =>
      intro fuel seen _ hnodup hseen _ hfuel
      have hlen := length_le_of_seen hnodup hseen
      obtain ⟨fuel, rfl⟩ : ∃ n, fuel = n + 1 := ⟨fuel - 1, by omega⟩
      exact ⟨[], by simp [ancestorsFrom, hrel]⟩
  | @sub current parent slug hrel hpar hstored hdone hfree hready ih =>
      intro fuel seen hcurrent hnodup hseen hreach hfuel
      have hlen := length_le_of_seen hnodup hseen
      obtain ⟨fuel, rfl⟩ : ∃ n, fuel = n + 1 := ⟨fuel - 1, by omega⟩
      obtain rfl := Store.slug_of_task? hstored
      have hlink : Link s.subParent current.slug parent.slug := by
        rw [Link, Store.subParent_eq hcurrent hrel, hpar]
      have hnew : parent.slug ∉ seen := fun hmem =>
        hready.no_loop hstored (Relation.TransGen.tail' (hreach _ hmem) hlink)
      obtain ⟨above, habove⟩ := ih fuel (parent.slug :: seen) hstored
        (List.nodup_cons.mpr ⟨hnew, hnodup⟩)
        (fun v hv => by
          rcases List.mem_cons.mp hv with rfl | hv
          · exact ⟨parent, hstored⟩
          · exact hseen v hv)
        (fun v hv => by
          rcases List.mem_cons.mp hv with rfl | hv
          · exact .refl
          · exact (hreach v hv).tail hlink)
        (by simp only [List.length_cons]; omega)
      have hload : loadTask s parent.slug = .ok parent := loadTask_eq_ok.mpr hstored
      by_cases hopened : parent.state = .opened
      · have hblock := (queueBlockIn_eq_none hopened).mpr (hfree hopened)
        refine ⟨parent :: above, ?_⟩
        simp [ancestorsFrom, hrel, hpar, hnew, hload, hopened, hblock, habove, bind, Except.bind]
      · exact ⟨above, by simp [ancestorsFrom, hrel, hpar, hnew, hload, hdone, hopened, habove]⟩

theorem ancestorsToStart_eq_ok {s : Store} {t : Task} (ht : s.task? t.slug = some t) :
    (∃ above, ancestorsToStart s t false = .ok above) ↔ AncestorsReady s t := by
  constructor
  · rintro ⟨above, h⟩
    exact .of_ancestorsFrom h
  · intro h
    refine h.ancestorsFrom_ok _ _ ht (List.nodup_singleton _) (fun v hv => ?_) (fun v hv => ?_)
      (by simp only [List.length_singleton]; omega)
    · obtain rfl := List.mem_singleton.mp hv
      exact ⟨t, ht⟩
    · obtain rfl := List.mem_singleton.mp hv
      exact .refl

/-! ## The reminder and the gate -/

/-- When every save works, a start succeeds exactly when its three checks do. -/
theorem startTask_ok_iff {env : Env} {s : Store} {t : Task} (hsave : env.failAt = none)
    (ht : s.task? t.slug = some t) (hdone : t.state ≠ .done) :
    (∃ r, (startTask env s (.resolved t.slug) false).1 = .ok r) ↔
      checkBlockers s t = .ok () ∧ checkQueue s t = .ok () ∧
        ∃ above, ancestorsToStart s t false = .ok above := by
  have hvalid : checkIdentifier t.slug = .ok () := by
    simp [checkIdentifier, Store.valid_of_task? ht]
  have hplan : startTaskPlan env s (.resolved t.slug) false = (do
      checkUnforced s t false
      let promoted ← ancestorsToStart s t false
      let ws ← saveAll (promoted.map (fun u => u.started (env.now 0)) ++ [t.started (env.now 0)])
      .ok (ws, t.started (env.now 0))) := by
    simp [startTaskPlan, TaskTarget.check, TaskTarget.slugIn, hvalid, loadOrFail_eq_ok.mpr ht,
      hdone, bind, Except.bind]
  constructor
  · rintro ⟨r, hr⟩
    cases hp : startTaskPlan env s (.resolved t.slug) false with
    | error text => simp [startTask, perform, hp] at hr
    | ok planned =>
        rw [hplan] at hp
        simp only [checkUnforced, Bool.false_eq_true, if_false, bind_eq_ok] at hp
        obtain ⟨⟨⟩, ⟨⟨⟩, hblockers, hqueue⟩, above, habove, -⟩ := hp
        exact ⟨hblockers, hqueue, above, habove⟩
  · rintro ⟨hblockers, hqueue, above, habove⟩
    obtain ⟨ws, hws⟩ := saveAll_of_valid (above.map (fun u => u.started (env.now 0)) ++
        [t.started (env.now 0)]) (fun u hu => by
      rcases List.mem_append.mp hu with hu | hu
      · obtain ⟨v, hv, rfl⟩ := List.mem_map.mp hu
        exact Store.valid_of_task? (ancestorsFrom_stored habove v hv).1
      · obtain rfl := List.mem_singleton.mp hu
        exact Store.valid_of_task? ht)
    have hok : startTaskPlan env s (.resolved t.slug) false =
        .ok (ws, t.started (env.now 0)) := by
      rw [hplan]
      simp [checkUnforced, hblockers, hqueue, habove, hws, bind, Except.bind]
    exact ⟨t.started (env.now 0), by simp [startTask, perform, hok, commit, hsave]⟩

/-- The task that the reminder names for an idle session, when it is
actionable, can be started exactly when the task directly ahead of it in the
queue (if it is in the queue) is done and its ancestors are ready. -/
theorem start_next_iff {env : Env} {s : Store} {opened : List Session} {i : IdleSession}
    (hsave : env.failAt = none) (hi : i ∈ idleSessions opened s.tasks.items)
    (hact : isActionable i.next s.tasks.items = true) :
    (∃ t, (startTask env s (.resolved i.next.slug) false).1 = .ok t) ↔
      (i.next.relation = .queued → i.next.parallel = false →
        ∀ ahead, aheadOf (queue (tasksInSession s.tasks.items i.session.id)) i.next.slug =
          some ahead → ahead.state = .done) ∧
      AncestorsReady s i.next := by
  obtain ⟨hmem, hses, hopened, hquiet⟩ := idleSessions_spec hi
  have hstored := Store.mem_tasks_iff.mp hmem
  rw [startTask_ok_iff hsave hstored (by simp [hopened]), ancestorsToStart_eq_ok hstored,
    checkQueue_eq_ok hopened]
  simp only [checkBlockers_of_actionable hact, true_and]
  refine and_congr_left fun _ => ?_
  -- In an idle session no task is in progress or waiting, so of the queue check
  -- only the task ahead is left, and it must be done.
  have hqueue : ∀ u ∈ queue (tasksInSession s.tasks.items i.session.id),
      u.state ≠ .wip ∧ u.state ≠ .waiting := by
    intro u hu
    have hu := List.mem_of_mem_filter (mem_sortTasks.mp hu)
    obtain ⟨hall, huses⟩ := List.mem_filter.mp hu
    exact hquiet u hall (by simpa using huses)
  have hahead : ∀ ahead, aheadOf (queue (tasksInSession s.tasks.items i.session.id))
      i.next.slug = some ahead → ahead ∈ queue (tasksInSession s.tasks.items i.session.id) := by
    intro ahead h
    unfold aheadOf at h
    split at h
    · exact List.mem_of_getElem? h
    · exact absurd h (by simp)
  constructor
  · intro h hrel hpar ahead ha
    rcases (h i.session.id hses hrel hpar).2 ahead ha with hdone | hwait
    · exact hdone
    · exact absurd hwait (hqueue ahead (hahead ahead ha)).2
  · intro h id hid hrel hpar
    obtain rfl : id = i.session.id := Option.some.inj (hid.symm.trans hses)
    exact ⟨fun u hu _ => (hqueue u hu).1, fun ahead ha => Or.inl (h hrel hpar ahead ha)⟩

/-! ## Two stores -/

/-- Two queued tasks, `a` ahead of `b`. -/
def queuedPair : List (Env × Op) :=
  [startPlain, addPlain "2" "a" .detached .queue, addPlain "3" "b" .detached .queue]

def pairSession : Session := ⟨"session", none, "p", none, "1", "1", none, none, none, none⟩

/-- The reminder names the head of the queue, and it starts. -/
theorem start_next_head : ∃ i ∈ idleSessions [pairSession] (runOps queuedPair).tasks.items,
    i.next.slug = "a" ∧ isActionable i.next (runOps queuedPair).tasks.items = true ∧
      ∃ t, (startTask (.plain "4") (runOps queuedPair) (.resolved i.next.slug) false).1 = .ok t := by
  have hi : (⟨pairSession, pairTask "a" .opened none .queued "2" "2" [], 2⟩ : IdleSession) ∈
      idleSessions [pairSession] (runOps queuedPair).tasks.items := by decide
  have hact : isActionable (pairTask "a" .opened none .queued "2" "2" [])
      (runOps queuedPair).tasks.items = true := by decide
  have hfirst : aheadOf (queue (tasksInSession (runOps queuedPair).tasks.items "session")) "a" =
      none := by decide
  refine ⟨_, hi, rfl, hact, (start_next_iff rfl hi hact).mpr ⟨fun _ _ ahead h => ?_, .top rfl⟩⟩
  exact absurd (h.symm.trans hfirst) (by simp)

/-- The same two tasks, and `a` is blocked on `b`. -/
def blockedHead : List (Env × Op) :=
  queuedPair ++ [(.plain "4", .block (.input "a") "b")]

/-- The reminder passes over the blocked `a` and names `b`, which the queue
holds back behind `a`. -/
theorem start_next_refused : ∃ i ∈ idleSessions [pairSession] (runOps blockedHead).tasks.items,
    (runOps blockedHead).session? "session" = some i.session ∧
      isActionable i.next (runOps blockedHead).tasks.items = true ∧
      (queueBlockIn (runOps blockedHead) i.next).isSome = true ∧
      ∀ t, (startTask (.plain "5") (runOps blockedHead) (.resolved i.next.slug) false).1 ≠ .ok t := by
  have hi : (⟨pairSession, pairTask "b" .opened none .queued "3" "3" [], 2⟩ : IdleSession) ∈
      idleSessions [pairSession] (runOps blockedHead).tasks.items := by decide
  have hrefused : (startTask (.plain "5") (runOps blockedHead) (.resolved "b") false).1.isOk =
      false := by decide
  refine ⟨_, hi, by decide, by decide, by decide, fun t ht => ?_⟩
  have hok : (startTask (.plain "5") (runOps blockedHead) (.resolved "b") false).1.isOk = true :=
    congrArg Except.isOk ht
  exact absurd (hok.symm.trans hrefused) (by simp)

end Llmenv.Tasks
