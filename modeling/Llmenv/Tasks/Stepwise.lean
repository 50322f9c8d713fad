/-
# `Llmenv.Tasks.Stepwise` — the commands, one read and one write at a time

`Llmenv.Tasks.Ops` describes a command as a plan: it makes all reads and checks on
the store before the command, and then the writes.  The code mixes the two, so
that every command comes first at "read, check, write, check again" and a refusal
could leave some of the writes behind.

Here the five commands with the most checks are programs that read the store as
it is at that moment and save one file after the other, in the order of the
source.  Each of them computes what its plan computes (`startTask_steps` and its
siblings), so every refusal comes before the first write.  A failing save is the one
error that leaves something behind, and for `start_task` `failed_unchanged` says
what: the ancestors that were saved before it.
-/
import Llmenv.Lib.Effect
import Llmenv.Tasks.AncestorChain
import Llmenv.Tasks.Writes

namespace Llmenv.Tasks

open Llmenv.Lib

/-! ## Reading and saving -/

/-- A command while it runs. -/
abbrev Steps (α : Type) := Act Store Failure α

/-- The saves that fail. -/
def Env.fails (env : Env) (n : Nat) : Option Failure :=
  if env.failAt = some n then some (.save n) else none

/-- A read or a check of the store as it is now. -/
def look {α : Type} (f : Store → Except String α) : Steps α := Act.check Failure.refused f

/-- `bail!`. -/
def bail {α : Type} (text : String) : Steps α := look fun _ => .error text

/-- `save_task`: the check of the name, then the file. -/
def save (env : Env) (t : Task) : Steps Unit := do
  let w ← look fun _ => saveTask t
  Act.write env.fails Store.apply w

/-- A loop that saves one task after the other. -/
def saveEach (env : Env) : List Task → Steps Unit
  | [] => pure ()
  | t :: ts => do
      save env t
      saveEach env ts

/-- `save_session`. -/
def saveTheSession (env : Env) (x : Session) : Steps Unit := do
  let w ← look fun _ => saveSession x
  Act.write env.fails Store.apply w

/-! ## The commands -/

/-- `start_task`. -/
def startTaskSteps (env : Env) (target : TaskTarget) (force : Bool) : Steps Task := do
  look fun _ => target.check
  let slug ← look fun s => target.slugIn env s
  let task ← look fun s => loadOrFail s slug
  if task.state = .done then
    bail s!"task '{slug}' is already done; pass --reopen to move it back to open and start it again"
  else do
    look fun s => checkUnforced s task force
    let promoted ← look fun s => ancestorsToStart s task force
    saveEach env (promoted.map fun t => t.started (env.now 0))
    save env (task.started (env.now 0))
    Act.settle fun s => touchTaskSession env s (task.started (env.now 0))
    pure (task.started (env.now 0))

/-- `reopen_targets`. -/
def reopenTargetsSteps (env : Env) (targets : List TaskTarget) : Steps (List Task) := do
  look fun _ => checkTargets targets
  let tasks ← look fun s => loadTargets env s targets []
  let refused := tasks.filter (fun t => t.state ≠ .done)
  if refused ≠ [] then
    let entry := fun (t : Task) => let state := t.state.debug; s!"'{t.slug}' is {state}"
    let list := Text.joinStr ", " (refused.map entry)
    bail s!"only a done task can be reopened, and no task was changed: {list}"
  else do
    look fun s => refuseDoneParents s tasks tasks
    saveEach env (reopenedFrom env 0 tasks)
    Act.settle fun s => touchSessions env (reopenedFrom env 0 tasks) [] s
    pure (reopenedFrom env 0 tasks)

/-- `edit_task`. -/
def editTaskSteps (env : Env) (target : TaskTarget) (edit : TaskEdit) : Steps Task := do
  look fun _ => target.check
  look fun _ => checkIdentifiers (edit.parent.toList ++ edit.blockOn ++ edit.unblock)
  let slug ← look fun s => target.slugIn env s
  let task ← look fun s => loadOrFail s slug
  let parent ← look fun s => editParent env s task edit
  let blocked ← look fun s => addBlockers env s slug edit.blockOn task.blockedOn
  let blockedOn ← look fun s => removeBlockers env s edit.unblock blocked
  let notes ← look fun _ => editNotes env task.notes edit
  let edited : Task :=
    { task with
      title := edit.title.getD task.title
      parent := parent
      blockedOn := blockedOn
      notes := notes
      detail := match edit.detail with
        | some detail => if detail.isEmpty then none else some detail
        | none => task.detail
      updatedAt := env.now 1 }
  save env edited
  Act.settle fun s => touchTaskSession env s edited
  pure edited

/-- `close_task`. -/
def closeTaskSteps (env : Env) (target : TaskTarget) (force : Bool) (caller : Option Caller) :
    Steps Completed := do
  look fun _ => target.check
  let slug ← look fun s => target.slugIn env s
  let task ← look fun s => loadOrFail s slug
  if task.state = .opened ∧ force = false then
    bail s!"'{slug}' was never started (open). Run `llmenv task start {slug}` and finish the work, or pass --force if it is done."
  else do
    let undone ← look fun s => .ok (undoneDescendants slug s.tasks.items)
    if force = false ∧ undone ≠ [] then bail (undoneChildrenMessage slug undone)
    else if task.state = .done then do
      Act.settle fun s => touchTaskSession env s task
      pure ⟨task, task.state, undone.map Task.slug⟩
    else do
      let closed := task.closed (env.now 0) force caller
      save env closed
      Act.settle fun s => touchTaskSession env s closed
      pure ⟨closed, task.state, undone.map Task.slug⟩

/-- `finish_session`. -/
def finishSessionSteps (env : Env) (id : String) (abandonOpen : Bool) : Steps FinishOutcome := do
  let x ← look fun s => loadExistingSession s id
  if x.isOpen then do
    let tasks ← look fun s => .ok (tasksInSession s.tasks.items id)
    let unfinished := tasks.filter (fun t => t.state ≠ .done)
    if unfinished ≠ [] ∧ abandonOpen = false then bail (unfinishedError id unfinished)
    else do
      let note := s!"Dropped: session '{id}' finished (`session finish --abandon-open`) before this task was finished."
      saveEach env (unfinished.map (fun t => t.untagged (env.now 0) note))
      let finished := { x with finishedAt := some (env.now 0) }
      saveTheSession env finished
      pure
        { session := finished
          done := tasks.length - unfinished.length
          total := tasks.length
          abandoned := unfinished.map (fun t => t.untagged (env.now 0) note) }
  else bail s!"session '{id}' is already closed"

/-! ## Each command computes its plan -/

section

variable {env : Env}

/-- The checks of a command are done, and its plan is `plan`. -/
abbrev executePlan {α : Type} (env : Env) (after : α → Store → Store)
    (plan : Except String (Planned α)) : Steps α :=
  Act.execute Failure.refused env.fails Store.apply after plan

/-- Running a plan is what `perform` does. -/
theorem run_executePlan {α : Type} (env : Env) (s : Store) (plan : Except String (Planned α))
    (after : α → Store → Store) :
    (executePlan env after plan).run s = perform env s plan after := by
  rcases Act.execute_cases Failure.refused env.fails Store.apply after plan s with
    ⟨t, rfl, hrun⟩ | ⟨ws, r, rfl, hall, hrun⟩ | ⟨ws, r, k, e, rfl, hk, hfail, -, hrun⟩
  · exact hrun
  · rw [hrun, perform, commit]
    cases hf : env.failAt with
    | none => rfl
    | some k =>
        have hlate : ¬ k < ws.length := by
          intro hk
          have hnone := hall k hk
          rw [Env.fails, if_pos hf] at hnone
          exact absurd hnone (by simp)
        simp only [if_neg hlate]
        rfl
  · rw [Env.fails] at hfail
    split at hfail
    · rename_i hat
      obtain rfl := Option.some.inj hfail
      rw [hrun, perform, commit, hat]
      simp only [if_pos hk]
      rfl
    · exact absurd hfail (by simp)

theorem save_eq {t : Task} {w : Write} (h : saveTask t = .ok w) :
    save env t = Act.write env.fails Store.apply w := by
  funext d
  exact Act.bind_of_ok (show look (fun _ => saveTask t) d = (.ok w, d) by
    rw [look, Act.check, h])

theorem saveEach_eq {ts : List Task} : ∀ {ws : List Write}, saveAll ts = .ok ws →
    saveEach env ts = Act.writeAll env.fails Store.apply ws := by
  induction ts with
  | nil =>
      intro ws h
      obtain rfl : [] = ws := by simpa [saveAll] using h
      rfl
  | cons t ts ih =>
      intro ws h
      simp only [saveAll, bind_eq_ok] at h
      obtain ⟨w, hw, ws', hws', h⟩ := h
      obtain rfl : w :: ws' = ws := by simpa using h
      rw [saveEach, save_eq hw, ih hws', Act.writeAll]

theorem saveEach_append (ts us : List Task) :
    saveEach env (ts ++ us) = (do saveEach env ts; saveEach env us) := by
  induction ts with
  | nil => rfl
  | cons t ts ih => rw [List.cons_append, saveEach, saveEach, ih, bind_assoc]

theorem saveEach_singleton (t : Task) : saveEach env [t] = save env t := by
  rw [saveEach, saveEach]
  exact bind_pure (save env t)

/-- The last part of a command: its saves, and the touch of its session. -/
theorem saves_execute (env : Env) {α : Type} {ts : List Task} (after : α → Store → Store) {r : α}
    (hvalid : ∀ t ∈ ts, isValidShortName t.slug = true) :
    (do saveEach env ts; Act.settle (after r); pure r : Steps α) =
      executePlan env after (do let ws ← saveAll ts; .ok (ws, r)) := by
  obtain ⟨ws, hws⟩ := saveAll_of_valid ts hvalid
  rw [saveEach_eq hws, hws]
  rfl

theorem save_execute (env : Env) {α : Type} {t : Task} (after : α → Store → Store) {r : α}
    (hvalid : isValidShortName t.slug = true) :
    (do save env t; Act.settle (after r); pure r : Steps α) =
      executePlan env after (do let w ← saveTask t; .ok ([w], r)) := by
  rw [← saveEach_singleton, saves_execute env after fun u hu => List.mem_singleton.mp hu ▸ hvalid]
  rw [saveAll, saveAll]
  cases saveTask t <;> rfl

theorem startTask_steps (env : Env) (s : Store) (target : TaskTarget) (force : Bool) :
    (startTaskSteps env target force).run s = startTask env s target force := by
  have hplan : startTaskSteps env target force ⟨s, 0⟩ =
      executePlan env (fun task s' => touchTaskSession env s' task)
        (startTaskPlan env s target force) ⟨s, 0⟩ := by
    unfold startTaskSteps startTaskPlan
    apply Act.check_bind_execute
    intro _ _
    apply Act.check_bind_execute
    intro slug hslug
    apply Act.check_bind_execute
    intro task hload
    split
    · rfl
    · apply Act.check_bind_execute
      intro _ _
      apply Act.check_bind_execute
      intro promoted hpromoted
      have hvalid : ∀ t ∈ promoted.map (fun t => t.started (env.now 0)) ++
          [task.started (env.now 0)], isValidShortName t.slug = true := by
        intro t ht
        rcases List.mem_append.mp ht with ht | ht
        · obtain ⟨u, hu, rfl⟩ := List.mem_map.mp ht
          exact Store.valid_of_task? (ancestorsFrom_stored hpromoted u hu).1
        · obtain rfl := List.mem_singleton.mp ht
          show isValidShortName task.slug = true
          exact Store.valid_of_task? (stored_of_load hload)
      have htail := saves_execute env (r := task.started (env.now 0))
        (fun task s' => touchTaskSession env s' task) hvalid
      rw [saveEach_append, saveEach_singleton, bind_assoc] at htail
      exact congrFun htail ⟨s, 0⟩
  rw [startTask, ← run_executePlan, Act.run, Act.run, hplan]

theorem reopenTargets_steps (env : Env) (s : Store) (targets : List TaskTarget) :
    (reopenTargetsSteps env targets).run s = reopenTargets env s targets := by
  have hplan : reopenTargetsSteps env targets ⟨s, 0⟩ =
      executePlan env (fun tasks s' => touchSessions env tasks [] s')
        (reopenTargetsPlan env s targets) ⟨s, 0⟩ := by
    unfold reopenTargetsSteps reopenTargetsPlan
    apply Act.check_bind_execute
    intro _ _
    apply Act.check_bind_execute
    intro tasks hload
    simp only
    split
    · rfl
    · apply Act.check_bind_execute
      intro _ _
      refine congrFun (saves_execute env (fun tasks s' => touchSessions env tasks [] s') ?_) _
      intro t ht
      obtain ⟨u, hu, now, rfl⟩ := mem_reopenedFrom ht
      show isValidShortName u.slug = true
      exact Store.valid_of_task? (loadTargets_stored (by simp) hload u hu)
  rw [reopenTargets, ← run_executePlan, Act.run, Act.run, hplan]

theorem editTask_steps (env : Env) (s : Store) (target : TaskTarget) (edit : TaskEdit) :
    (editTaskSteps env target edit).run s = editTask env s target edit := by
  have hplan : editTaskSteps env target edit ⟨s, 0⟩ =
      executePlan env (fun task s' => touchTaskSession env s' task)
        (editTaskPlan env s target edit) ⟨s, 0⟩ := by
    unfold editTaskSteps editTaskPlan
    apply Act.check_bind_execute
    intro _ _
    apply Act.check_bind_execute
    intro _ _
    apply Act.check_bind_execute
    intro slug _
    apply Act.check_bind_execute
    intro task hload
    apply Act.check_bind_execute
    intro parent _
    apply Act.check_bind_execute
    intro blocked _
    apply Act.check_bind_execute
    intro blockedOn _
    apply Act.check_bind_execute
    intro notes _
    refine congrFun (save_execute env (fun task s' => touchTaskSession env s' task) ?_) _
    show isValidShortName task.slug = true
    exact Store.valid_of_task? (stored_of_load hload)
  rw [editTask, ← run_executePlan, Act.run, Act.run, hplan]

theorem closeTask_steps (env : Env) (s : Store) (target : TaskTarget) (force : Bool)
    (caller : Option Caller) :
    (closeTaskSteps env target force caller).run s = completeTask env s target force caller := by
  have hplan : closeTaskSteps env target force caller ⟨s, 0⟩ =
      executePlan env (fun completed s' => touchTaskSession env s' completed.task)
        (closeTaskPlan env s target force caller) ⟨s, 0⟩ := by
    unfold closeTaskSteps closeTaskPlan
    apply Act.check_bind_execute
    intro _ _
    apply Act.check_bind_execute
    intro slug _
    apply Act.check_bind_execute
    intro task hload
    split
    · rfl
    · refine Eq.trans (Act.bind_of_ok (show look (fun s => .ok (undoneDescendants slug
        s.tasks.items)) ⟨s, 0⟩ = (.ok (undoneDescendants slug s.tasks.items), ⟨s, 0⟩) from rfl)) ?_
      simp only
      split
      · rfl
      · split
        · rfl
        · refine congrFun (save_execute env
            (fun (completed : Completed) s' => touchTaskSession env s' completed.task) ?_) _
          show isValidShortName task.slug = true
          exact Store.valid_of_task? (stored_of_load hload)
  rw [completeTask, ← run_executePlan, Act.run, Act.run, hplan]

theorem saveTheSession_eq {x : Session} {w : Write} (h : saveSession x = .ok w) :
    saveTheSession env x = Act.write env.fails Store.apply w := by
  funext d
  exact Act.bind_of_ok (show look (fun _ => saveSession x) d = (.ok w, d) by
    rw [look, Act.check, h])

/-- A command that ends with the save of a session, and touches none. -/
theorem savesThenSession_execute {α : Type} {ts : List Task} {x : Session} {r : α}
    (hvalid : ∀ t ∈ ts, isValidShortName t.slug = true) (hx : isValidShortName x.id = true) :
    (do saveEach env ts; saveTheSession env x; pure r : Steps α) =
      executePlan env (fun _ s' => s')
        (do let ws ← saveAll ts; let w ← saveSession x; .ok (ws ++ [w], r)) := by
  obtain ⟨ws, hws⟩ := saveAll_of_valid ts hvalid
  have hw : saveSession x = .ok (.saveSession x hx) := by rw [saveSession, dif_pos hx]
  rw [saveEach_eq hws, hws, saveTheSession_eq hw, hw]
  show _ = (do
    Act.writeAll env.fails Store.apply (ws ++ [.saveSession x hx])
    Act.settle (fun s' => s')
    pure r : Steps α)
  rw [Act.writeAll_append, bind_assoc, Act.writeAll, Act.writeAll, bind_assoc, pure_bind,
    Act.settle_id, pure_bind]

theorem finishSession_steps (env : Env) (s : Store) (id : String) (abandonOpen : Bool) :
    (finishSessionSteps env id abandonOpen).run s = finishSession env s id abandonOpen := by
  have hplan : finishSessionSteps env id abandonOpen ⟨s, 0⟩ =
      executePlan env (fun _ s' => s') (finishSessionPlan env s id abandonOpen) ⟨s, 0⟩ := by
    unfold finishSessionSteps finishSessionPlan
    apply Act.check_bind_execute
    intro x hload
    split
    · refine Eq.trans (Act.bind_of_ok (show look (fun s => .ok (tasksInSession s.tasks.items id))
        ⟨s, 0⟩ = (.ok (tasksInSession s.tasks.items id), ⟨s, 0⟩) from rfl)) ?_
      simp only
      split
      · rename_i hrefused
        rw [if_pos (show unfinishedIn s id ≠ [] ∧ abandonOpen = false from hrefused)]
        rfl
      · rename_i haccepted
        rw [if_neg (show ¬ (unfinishedIn s id ≠ [] ∧ abandonOpen = false) from haccepted)]
        refine congrFun (savesThenSession_execute ?_ ?_) _
        · intro t ht
          obtain ⟨u, hu, rfl⟩ := List.mem_map.mp ht
          show isValidShortName u.slug = true
          exact s.taskNamed u (List.mem_of_mem_filter (List.mem_of_mem_filter hu))
        · show isValidShortName x.id = true
          exact s.sessionNamed x (Keyed.mem_of_find? (loadExistingSession_ok hload))
    · rfl
  rw [finishSession, ← run_executePlan, Act.run, Act.run, hplan]

/-! ## What an error leaves behind -/

/-- A refusal comes before the first write. -/
theorem perform_refused {α : Type} {plan : Except String (Planned α)} {after : α → Store → Store}
    {s : Store} {e : Failure} (h : (perform env s plan after).1 = .error e)
    (he : ∀ k, e ≠ .save k) : (perform env s plan after).2 = s := by
  rw [← run_executePlan] at h ⊢
  refine Act.execute_refused h ?_
  intro n hn
  rw [Env.fails] at hn
  split at hn
  · exact he n (Option.some.inj hn).symm
  · exact absurd hn (by simp)

/-- The failing save is the one with that number, and the saves before it were made. -/
theorem perform_failed {α : Type} {plan : Except String (Planned α)} {after : α → Store → Store}
    {s : Store} {k : Nat} (h : (perform env s plan after).1 = .error (.save k)) :
    ∃ ws r, plan = .ok (ws, r) ∧ k < ws.length ∧
      (perform env s plan after).2 = s.applyAll (ws.take k) := by
  rw [← run_executePlan] at h ⊢
  obtain ⟨ws, r, n, hplan, hn, hfail, hstore⟩ := Act.execute_failed h (fun t => by simp)
  rw [Env.fails] at hfail
  split at hfail
  · obtain rfl : n = k := Failure.save.inj (Option.some.inj hfail)
    exact ⟨ws, r, hplan, hn, hstore⟩
  · exact absurd hfail (by simp)

/-- Saved records are found. -/
theorem task?_applyAll_of_saved {ts : List Task} {ws : List Write}
    (hts : List.Forall₂ (fun t w => ∃ hv, w = Write.saveTask t hv) ts ws)
    (hnodup : (ts.map Task.slug).Nodup) (s : Store) :
    ∀ t ∈ ts, (s.applyAll ws).task? t.slug = some t := by
  induction hts generalizing s with
  | nil =>
      intro t ht
      exact absurd ht List.not_mem_nil
  | @cons u w ts ws hw hrest ih =>
      obtain ⟨hv, rfl⟩ := hw
      rw [List.map_cons] at hnodup
      obtain ⟨hnew, hnodup⟩ := List.nodup_cons.mp hnodup
      intro t ht
      rw [Store.applyAll_cons]
      rcases List.mem_cons.mp ht with rfl | ht
      · rw [task?_applyAll_of_not_saved hrest hnew, Store.task?_saveTask, if_pos rfl]
      · exact ih hnodup _ t ht

theorem sessions_applyAll {ts : List Task} {ws : List Write}
    (hts : List.Forall₂ (fun t w => ∃ hv, w = Write.saveTask t hv) ts ws) (s : Store) :
    (s.applyAll ws).sessions = s.sessions := by
  induction hts generalizing s with
  | nil => rfl
  | @cons u w ts ws hw _ ih =>
      obtain ⟨hv, rfl⟩ := hw
      exact ih (s.apply (.saveTask u hv))

/-- From `s` to `s'`, the open tasks `tasks` went in progress and nothing else
changed. -/
structure OnlyStarted (env : Env) (s : Store) (tasks : List Task) (s' : Store) : Prop where
  started : ∀ t ∈ tasks, s.task? t.slug = some t ∧ t.state = .opened ∧
    s'.task? t.slug = some { t with state := .wip, updatedAt := env.now 0 }
  others : ∀ slug, slug ∉ tasks.map Task.slug → s'.task? slug = s.task? slug
  sessions : s'.sessions = s.sessions

/-- The promoted ancestors are different tasks, and the started task is none of
them. -/
theorem Accepted.nodup {s : Store} {target : TaskTarget} {force : Bool} {t : Task}
    {promoted : List Task} (h : Accepted env s target force t promoted) :
    (promoted.map Task.slug).Nodup ∧ t.slug ∉ promoted.map Task.slug := by
  obtain ⟨chain, -, hpromoted, hpass, hnodup⟩ :=
    ancestorsOf_of_returns (ancestorsToStart_returns s t force) h.ancestors
  rw [List.nil_append] at hpromoted
  subst hpromoted
  refine ⟨(List.filter_sublist.map Task.slug).nodup hnodup, ?_⟩
  intro hmem
  obtain ⟨u, hu, hslug⟩ := List.mem_map.mp hmem
  exact (hpass u (List.mem_of_mem_filter hu)).2 (List.mem_singleton.mpr hslug)

/-- A start whose save number `k` fails has put the first `k` promoted ancestors in
progress, and not the task. -/
theorem startTask_failed {s : Store} {target : TaskTarget} {force : Bool} {k : Nat}
    (h : (startTask env s target force).1 = .error (.save k)) :
    ∃ t promoted, Accepted env s target force t promoted ∧ k ≤ promoted.length ∧
      OnlyStarted env s (promoted.take k) (startTask env s target force).2 ∧
      (startTask env s target force).2.task? t.slug = some t := by
  obtain ⟨ws, r, hplan, hk, hstore⟩ := perform_failed h
  obtain ⟨t, promoted, haccepted, hws⟩ := startTaskPlan_accepted hplan
  obtain ⟨hnodup, hnot⟩ := haccepted.nodup
  have hlen := (saveAll_ok hws).length_eq
  have hk' : k ≤ promoted.length := by
    rw [List.length_append, List.length_map, List.length_singleton] at hlen
    omega
  have hsaved : List.Forall₂ (fun t w => ∃ hv, w = Write.saveTask t hv)
      ((promoted.take k).map (fun u => u.started (env.now 0))) (ws.take k) := by
    have htake := List.forall₂_take k (saveAll_ok hws)
    rwa [List.take_append_of_le_length (by rwa [List.length_map]), ← List.map_take] at htake
  have hslugs : ((promoted.take k).map (fun u => u.started (env.now 0))).map Task.slug =
      (promoted.take k).map Task.slug := by
    rw [List.map_map]
    rfl
  have hothers : ∀ slug, slug ∉ (promoted.take k).map Task.slug →
      (s.applyAll (ws.take k)).task? slug = s.task? slug := by
    intro slug hslug
    exact task?_applyAll_of_not_saved hsaved (hslugs ▸ hslug) s
  have hrun : (startTask env s target force).2 = s.applyAll (ws.take k) := hstore
  rw [hrun]
  refine ⟨t, promoted, haccepted, hk', ⟨?_, hothers, sessions_applyAll hsaved s⟩, ?_⟩
  · intro u hu
    obtain ⟨hstored, hopened⟩ := ancestorsFrom_stored haccepted.ancestors u (List.mem_of_mem_take hu)
    refine ⟨hstored, hopened, ?_⟩
    refine task?_applyAll_of_saved hsaved ?_ s (u.started (env.now 0))
      (List.mem_map.mpr ⟨u, hu, rfl⟩)
    rw [hslugs]
    exact ((List.take_sublist k promoted).map Task.slug).nodup hnodup
  · rw [hothers t.slug, haccepted.stored]
    intro hmem
    exact hnot (((List.take_sublist k promoted).map Task.slug).mem hmem)

end

/-- **A command that returns an error which is not the one of a save has changed no
record, and a `start_task` whose save number `k` fails has put exactly the first `k`
of the promoted ancestors in progress.** -/
theorem failed_unchanged (env : Env) (s : Store) :
    (∀ target force e, ((startTaskSteps env target force).run s).1 = .error e →
      (∀ k, e ≠ .save k) → ((startTaskSteps env target force).run s).2 = s) ∧
    (∀ targets e, ((reopenTargetsSteps env targets).run s).1 = .error e →
      (∀ k, e ≠ .save k) → ((reopenTargetsSteps env targets).run s).2 = s) ∧
    (∀ target edit e, ((editTaskSteps env target edit).run s).1 = .error e →
      (∀ k, e ≠ .save k) → ((editTaskSteps env target edit).run s).2 = s) ∧
    (∀ target force caller e, ((closeTaskSteps env target force caller).run s).1 = .error e →
      (∀ k, e ≠ .save k) → ((closeTaskSteps env target force caller).run s).2 = s) ∧
    (∀ id abandonOpen e, ((finishSessionSteps env id abandonOpen).run s).1 = .error e →
      (∀ k, e ≠ .save k) → ((finishSessionSteps env id abandonOpen).run s).2 = s) ∧
    (∀ target force k, ((startTaskSteps env target force).run s).1 = .error (.save k) →
      ∃ t promoted, Accepted env s target force t promoted ∧ k ≤ promoted.length ∧
        OnlyStarted env s (promoted.take k) ((startTaskSteps env target force).run s).2 ∧
        ((startTaskSteps env target force).run s).2.task? t.slug = some t) := by
  refine ⟨?_, ?_, ?_, ?_, ?_, ?_⟩
  · intro target force e h he
    rw [startTask_steps] at h ⊢
    exact perform_refused h he
  · intro targets e h he
    rw [reopenTargets_steps] at h ⊢
    exact perform_refused h he
  · intro target edit e h he
    rw [editTask_steps] at h ⊢
    exact perform_refused h he
  · intro target force caller e h he
    rw [closeTask_steps] at h ⊢
    exact perform_refused h he
  · intro id abandonOpen e h he
    rw [finishSession_steps] at h ⊢
    exact perform_refused h he
  · intro target force k h
    rw [startTask_steps] at h ⊢
    exact startTask_failed h

end Llmenv.Tasks
