/-
# `Llmenv.Tasks.Ops` — the operations on tasks

One function per operation of `crates/llmenv-task`, in two parts.  `xPlan`
makes the reads and the checks in the order of the source and returns the
writes; `x` commits them and, where the source calls `touch_task_session`,
bumps the activity time of the session afterwards.  The order of the checks
decides which error a caller sees, so it is kept.
-/
import Llmenv.Tasks.Walks

namespace Llmenv.Tasks

open Llmenv.Lib

/-! ## Writing -/

/-- `save_task`, up to the write itself. -/
def saveTask (t : Task) : Except String Write :=
  if h : isValidShortName t.slug = true then .ok (.saveTask t h)
  else .error s!"'{t.slug}' is not a valid task slug"

/-- Save one task after the other. -/
def saveAll : List Task → Except String (List Write)
  | [] => .ok []
  | t :: ts => do
      let w ← saveTask t
      let ws ← saveAll ts
      .ok (w :: ws)

/-- `touch_last_activity`: a session that is missing or closed is left alone. -/
def touchLastActivity (s : Store) (now id : String) : Store :=
  match h : s.session? id with
  | none => s
  | some x =>
      if x.isOpen then
        s.apply (.saveSession { x with lastActivity := now }
          (s.sessionNamed x (Keyed.mem_of_find? h)))
      else s

/-- `touch_task_session`: best effort, so a failed write changes nothing. -/
def touchTaskSession (env : Env) (s : Store) (task : Task) : Store :=
  match env.touch, task.session with
  | some now, some id => touchLastActivity s now id
  | _, _ => s

/-- Run a plan: refuse, or commit and then run `after` on success. -/
def perform {α : Type} (env : Env) (s : Store) (plan : Except String (Planned α))
    (after : α → Store → Store) : Except Failure α × Store :=
  match plan with
  | .error text => (.error (.refused text), s)
  | .ok (ws, result) =>
      match commit env s ws with
      | (.error failure, s') => (.error failure, s')
      | (.ok (), s') => (.ok result, after result s')

/-! ## Adding a task -/

/-- The `--parent` of a new task: a display link for a top-level task. -/
inductive ParentSpec where
  | explicit (name : String)
  | detached

/-- Where a new task goes. -/
inductive Placement where
  | queue
  | parallel
  | child (name : String)

/-- What a new task starts with. -/
structure NewTask where
  title : String
  detail : Option String
  placement : Placement
  after : Option String

def ParentSpec.name? : ParentSpec → Option String
  | .explicit name => some name
  | .detached => none

def Placement.name? : Placement → Option String
  | .child name => some name
  | _ => none

def checkIdentifiers : List String → Except String Unit
  | [] => .ok ()
  | name :: names => do
      checkIdentifier name
      checkIdentifiers names

/-- The explicit parent, resolved and checked against the session. -/
def explicitParent (env : Env) (s : Store) (parent : ParentSpec) (sessionId : String) :
    Except String (Option String) :=
  match parent with
  | .explicit name => do
      let slug ← resolveIn env s name
      ensureParentInSession (s.task? slug) slug (some sessionId)
      .ok (some slug)
  | .detached => .ok none

/-- The parent, the relation and the parallel flag of a new task. -/
def placeTask (env : Env) (s : Store) (placement : Placement) (explicit : Option String)
    (sessionId : String) : Except String (Option String × Relation × Bool) :=
  match placement with
  | .queue => .ok (explicit, .queued, false)
  | .parallel => .ok (explicit, .queued, true)
  | .child name => do
      let slug ← resolveIn env s name
      let parent ← loadOrFail s slug
      checkChildParent parent sessionId
      .ok (some slug, .child, false)

def afterBlocker (env : Env) (s : Store) : Option String → Except String (List String)
  | some name => do
      let slug ← resolveIn env s name
      .ok [slug]
  | none => .ok []

/-- The slug that a title gives before it is made unique: a title without an
ASCII letter or digit falls back to the time. -/
def baseSlug (title now : String) : String :=
  if (slugify title).isEmpty then
    "task-" ++ String.ofList (now.toList.filter (fun c => c != ':' && c != '-'))
  else slugify title

/-- The slug that `unique_slug` gives a new task. -/
def newSlug (env : Env) (s : Store) (title : String) : String :=
  uniqueSlug (s.tasks.items.map Task.slug) (baseSlug title (env.now 0))

/-- `add_task_for_session_with`. -/
def addTaskForSessionPlan (env : Env) (s : Store) (new : NewTask) (parent : ParentSpec)
    (sessionId : String) : Except String (Planned Task) := do
  checkIdentifiers ([parent.name?, new.placement.name?, new.after].filterMap id)
  let explicit ← explicitParent env s parent sessionId
  let (parentSlug, relation, parallel) ← placeTask env s new.placement explicit sessionId
  let blockedOn ← afterBlocker env s new.after
  let task : Task :=
    { slug := newSlug env s new.title
      title := new.title
      state := .opened
      parent := parentSlug
      relation := relation
      parallel := parallel
      blockedOn := blockedOn
      notes := []
      detail := new.detail.filter (fun d => !d.isEmpty)
      session := some sessionId
      createdAt := env.now 0
      updatedAt := env.now 0 }
  let w ← saveTask task
  .ok ([w], task)

/-- `add_task_with`. -/
def addTaskPlan (env : Env) (s : Store) (new : NewTask) (parent : ParentSpec)
    (choice : SessionChoice) (project : String) : Except String (Planned Task) := do
  let sessionId ← resolveSessionForAdd s choice project
  addTaskForSessionPlan env s new parent sessionId

def addTask (env : Env) (s : Store) (new : NewTask) (parent : ParentSpec)
    (choice : SessionChoice) (project : String) : Except Failure Task × Store :=
  perform env s (addTaskPlan env s new parent choice project)
    (fun task s' => touchTaskSession env s' task)

/-! ## Starting a task -/

/-- The blockers that are not done, as `start_task` lists them. -/
def unmetBlockers (all : List Task) (slug : String) : List String → Except String (List String)
  | [] => .ok []
  | blocker :: rest => do
      let undone ← firstUndoneInSubtree blocker slug all
      let unmet ← unmetBlockers all slug rest
      match undone with
      | none => .ok unmet
      | some undone =>
          .ok ((if undone = blocker then blocker
            else s!"{blocker} (its descendant '{undone}' is not done)") :: unmet)

/-- Refuse a task with a blocker that is not done. -/
def checkBlockers (s : Store) (task : Task) : Except String Unit := do
  let unmet ← unmetBlockers s.tasks.items task.slug task.blockedOn
  if unmet.isEmpty then .ok ()
  else
    let list := Text.joinStr ", " unmet
    .error s!"task '{task.slug}' is blocked on not-done task(s): {list} (pass --force to start anyway)"

/-- Refuse a task that the queue of its session holds back. -/
def checkQueue (s : Store) (task : Task) : Except String Unit :=
  match queueBlockIn s task with
  | some block => .error block
  | none => .ok ()

/-- The two checks that `--force` skips. -/
def checkUnforced (s : Store) (task : Task) (force : Bool) : Except String Unit :=
  if force then .ok ()
  else do
    checkBlockers s task
    checkQueue s task

/-- A task put in progress. -/
def Task.started (t : Task) (now : String) : Task := { t with state := .wip, updatedAt := now }

/-- `start_task`. -/
def startTaskPlan (env : Env) (s : Store) (target : TaskTarget) (force : Bool) :
    Except String (Planned Task) := do
  target.check
  let slug ← target.slugIn env s
  let task ← loadOrFail s slug
  if task.state = .done then
    .error s!"task '{slug}' is already done; pass --reopen to move it back to open and start it again"
  else do
    checkUnforced s task force
    let promoted ← ancestorsToStart s task force
    let ws ← saveAll (promoted.map (fun t => t.started (env.now 0)) ++ [task.started (env.now 0)])
    .ok (ws, task.started (env.now 0))

def startTask (env : Env) (s : Store) (target : TaskTarget) (force : Bool) :
    Except Failure Task × Store :=
  perform env s (startTaskPlan env s target force) (fun task s' => touchTaskSession env s' task)

/-! ## Finishing a task -/

/-- Which session the calling conversation works in. -/
inductive Caller where
  | session (id : String)
  | unidentified (reason : String)

def Caller.describe : Caller → String
  | .session id => s!"session '{id}'"
  | .unidentified reason => s!"an unidentified caller ({reason})"

/-- The saved task, the state it left, and the sub-tasks that were not done. -/
structure Completed where
  task : Task
  prior : TaskState
  undoneChildren : List String

/-- The note that a forced close leaves. -/
def forcedCloseText (prior : TaskState) (caller : Caller) : String :=
  let state := prior.asStr
  let who := caller.describe
  s!"Closed by done --force from {state} (by {who})."

/-- A task marked done, with the note of a forced close. -/
def Task.closed (t : Task) (now : String) (force : Bool) (caller : Option Caller) : Task :=
  { t with
    notes := t.notes ++ (match caller, force with
      | some caller, true => [⟨now, forcedCloseText t.state caller⟩]
      | _, _ => [])
    state := .done
    updatedAt := now }

/-- `close_task`, behind `complete_task` and `complete_task_by`. -/
def closeTaskPlan (env : Env) (s : Store) (target : TaskTarget) (force : Bool)
    (caller : Option Caller) : Except String (Planned Completed) := do
  target.check
  let slug ← target.slugIn env s
  let task ← loadOrFail s slug
  if task.state = .opened ∧ force = false then
    .error s!"'{slug}' was never started (open). Run `llmenv task start {slug}` and finish the work, or pass --force if it is done."
  else
    let undone := undoneDescendants slug s.tasks.items
    if force = false ∧ undone ≠ [] then .error (undoneChildrenMessage slug undone)
    else if task.state = .done then
      .ok ([], ⟨task, task.state, undone.map Task.slug⟩)
    else do
      let closed := task.closed (env.now 0) force caller
      let w ← saveTask closed
      .ok ([w], ⟨closed, task.state, undone.map Task.slug⟩)

def completeTask (env : Env) (s : Store) (target : TaskTarget) (force : Bool)
    (caller : Option Caller) : Except Failure Completed × Store :=
  perform env s (closeTaskPlan env s target force caller)
    (fun completed s' => touchTaskSession env s' completed.task)

/-! ## Waiting, blocking, noting -/

/-- `wait_task`. -/
def waitTaskPlan (env : Env) (s : Store) (target : TaskTarget) (reason : String) :
    Except String (Planned Task) := do
  let slug ← target.slug env s
  let task ← loadOrFail s slug
  if task.state = .done then .error s!"task '{slug}' is already done; cannot mark it waiting"
  else do
    let waiting : Task :=
      { task with
        state := .waiting
        notes := task.notes ++ [⟨env.now 0, s!"Waiting: {reason}"⟩]
        updatedAt := env.now 1 }
    let w ← saveTask waiting
    .ok ([w], waiting)

def waitTask (env : Env) (s : Store) (target : TaskTarget) (reason : String) :
    Except Failure Task × Store :=
  perform env s (waitTaskPlan env s target reason) (fun task s' => touchTaskSession env s' task)

/-- `block_task`. -/
def blockTaskPlan (env : Env) (s : Store) (target : TaskTarget) (on : String) :
    Except String (Planned Task) := do
  target.check
  checkIdentifier on
  let slug ← target.slugIn env s
  let onSlug ← resolveIn env s on
  if slug = onSlug then .error s!"task '{slug}' cannot be blocked on itself"
  else do
    let task ← loadOrFail s slug
    let blocked : Task :=
      { task with
        blockedOn := if task.blockedOn.contains onSlug then task.blockedOn
          else task.blockedOn ++ [onSlug]
        updatedAt := env.now 0 }
    let w ← saveTask blocked
    .ok ([w], blocked)

def blockTask (env : Env) (s : Store) (target : TaskTarget) (on : String) :
    Except Failure Task × Store :=
  perform env s (blockTaskPlan env s target on) (fun _ s' => s')

/-- `note_task`. -/
def noteTaskPlan (env : Env) (s : Store) (target : TaskTarget) (text : String) :
    Except String (Planned Task) := do
  let slug ← target.slug env s
  let task ← loadOrFail s slug
  let noted : Task :=
    { task with notes := task.notes ++ [⟨env.now 0, text⟩], updatedAt := env.now 1 }
  let w ← saveTask noted
  .ok ([w], noted)

def noteTask (env : Env) (s : Store) (target : TaskTarget) (text : String) :
    Except Failure Task × Store :=
  perform env s (noteTaskPlan env s target text) (fun task s' => touchTaskSession env s' task)

/-! ## Editing a task -/

/-- What to change in an `edit_task` call. -/
structure TaskEdit where
  title : Option String
  parent : Option String
  noParent : Bool
  blockOn : List String
  unblock : List String
  addNote : Option String
  deleteNote : Option String
  detail : Option String

/-- A note by its 0-based index or its exact timestamp. -/
def resolveNoteIndex (notes : List TaskNote) (id : String) : Except String Nat :=
  match Text.parseUnsigned 18446744073709551615 id.toList with
  | some idx =>
      let count := notes.length
      if idx < count then .ok idx else .error s!"note index {idx} out of range ({count} note(s))"
  | none =>
      match notes.findIdx? (fun n => n.stamp == id) with
      | some idx => .ok idx
      | none => .error s!"no note found with index or timestamp '{id}'"

/-- The parent after an edit: `parent` wins over `no_parent`. -/
def editParent (env : Env) (s : Store) (task : Task) (edit : TaskEdit) :
    Except String (Option String) :=
  match edit.parent with
  | some name => do
      let parentSlug ← resolveIn env s name
      if parentSlug = task.slug then .error s!"task '{task.slug}' cannot be its own parent"
      else do
        ensureParentInSession (s.task? parentSlug) parentSlug task.session
        rejectCycle s task.slug parentSlug
        .ok (some parentSlug)
  | none => .ok (if edit.noParent then none else task.parent)

def addBlockers (env : Env) (s : Store) (slug : String) :
    List String → List String → Except String (List String)
  | [], blockedOn => .ok blockedOn
  | on :: rest, blockedOn => do
      let onSlug ← resolveIn env s on
      if onSlug = slug then .error s!"task '{slug}' cannot be blocked on itself"
      else
        let added := if blockedOn.contains onSlug then blockedOn else blockedOn ++ [onSlug]
        addBlockers env s slug rest added

def removeBlockers (env : Env) (s : Store) :
    List String → List String → Except String (List String)
  | [], blockedOn => .ok blockedOn
  | on :: rest, blockedOn => do
      let onSlug ← resolveIn env s on
      removeBlockers env s rest (blockedOn.filter (fun b => b != onSlug))

/-- The notes after an edit: append one, then delete one. -/
def editNotes (env : Env) (notes : List TaskNote) (edit : TaskEdit) :
    Except String (List TaskNote) :=
  let noted := match edit.addNote with
    | some text => notes ++ [⟨env.now 0, text⟩]
    | none => notes
  match edit.deleteNote with
  | some id => do
      let idx ← resolveNoteIndex noted id
      .ok (noted.eraseIdx idx)
  | none => .ok noted

/-- `edit_task`. -/
def editTaskPlan (env : Env) (s : Store) (target : TaskTarget) (edit : TaskEdit) :
    Except String (Planned Task) := do
  target.check
  checkIdentifiers (edit.parent.toList ++ edit.blockOn ++ edit.unblock)
  let slug ← target.slugIn env s
  let task ← loadOrFail s slug
  let parent ← editParent env s task edit
  let blocked ← addBlockers env s slug edit.blockOn task.blockedOn
  let blockedOn ← removeBlockers env s edit.unblock blocked
  let notes ← editNotes env task.notes edit
  let edited : Task :=
    { task with
      title := edit.title.getD task.title
      parent := parent
      blockedOn := blockedOn
      notes := notes
      detail := match edit.detail with
        | some detail => if detail.isEmpty then none else some detail
        | none => task.detail
      updatedAt := env.now 1 }
  let w ← saveTask edited
  .ok ([w], edited)

def editTask (env : Env) (s : Store) (target : TaskTarget) (edit : TaskEdit) :
    Except Failure Task × Store :=
  perform env s (editTaskPlan env s target edit) (fun task s' => touchTaskSession env s' task)

/-! ## Reopening a task -/

/-- `mark_reopened`. -/
def Task.reopened (t : Task) (now command : String) : Task :=
  { t with
    state := .opened
    notes := t.notes ++ [⟨now, s!"Reopened (`{command}`) after it was marked done."⟩]
    updatedAt := now }

/-- `reopen_task`, the lenient step behind `task start --reopen`. -/
def reopenTaskPlan (env : Env) (s : Store) (target : TaskTarget) :
    Except String (Planned Task) := do
  let slug ← target.slug env s
  let task ← loadOrFail s slug
  if task.state ≠ .done then .ok ([], task)
  else do
    let reopened := task.reopened (env.now 0) "task start --reopen"
    let w ← saveTask reopened
    .ok ([w], reopened)

def reopenTask (env : Env) (s : Store) (target : TaskTarget) : Except Failure Task × Store :=
  perform env s (reopenTaskPlan env s target) (fun task s' => touchTaskSession env s' task)

def checkTargets : List TaskTarget → Except String Unit
  | [] => .ok ()
  | target :: rest => do
      target.check
      checkTargets rest

/-- Load every target once, in order. -/
def loadTargets (env : Env) (s : Store) :
    List TaskTarget → List Task → Except String (List Task)
  | [], tasks => .ok tasks
  | target :: rest, tasks => do
      let slug ← target.slugIn env s
      if tasks.all (fun t => t.slug != slug) then do
        let task ← loadOrFail s slug
        loadTargets env s rest (tasks ++ [task])
      else loadTargets env s rest tasks

/-- Refuse a sub-task whose parent is done and is not in `batch`. -/
def refuseDoneParents (s : Store) (batch : List Task) : List Task → Except String Unit
  | [] => .ok ()
  | task :: rest =>
      match (if task.relation = .child then task.parent else none) with
      | none => refuseDoneParents s batch rest
      | some parentSlug =>
          if batch.any (fun t => t.slug == parentSlug) then refuseDoneParents s batch rest
          else
            match loadTask s parentSlug with
            | .error _ =>
                .error s!"no task was changed: cannot read '{parentSlug}', the parent of '{task.slug}'"
            | .ok parent =>
                if parent.state = .done then
                  .error s!"no task was changed: '{task.slug}' is a sub-task of '{parentSlug}', which is done. Name '{parentSlug}' in the same call to reopen both."
                else refuseDoneParents s batch rest

/-- Every task of the batch reopened, each with its own clock sample. -/
def reopenedFrom (env : Env) : Nat → List Task → List Task
  | _, [] => []
  | i, t :: ts => t.reopened (env.now i) "task reopen" :: reopenedFrom env (i + 1) ts

/-- `reopen_targets`, the strict command behind `task reopen`. -/
def reopenTargetsPlan (env : Env) (s : Store) (targets : List TaskTarget) :
    Except String (Planned (List Task)) := do
  checkTargets targets
  let tasks ← loadTargets env s targets []
  let refused := tasks.filter (fun t => t.state ≠ .done)
  if refused ≠ [] then
    let entry := fun (t : Task) => let state := t.state.debug; s!"'{t.slug}' is {state}"
    let list := Text.joinStr ", " (refused.map entry)
    .error s!"only a done task can be reopened, and no task was changed: {list}"
  else do
    refuseDoneParents s tasks tasks
    let ws ← saveAll (reopenedFrom env 0 tasks)
    .ok (ws, reopenedFrom env 0 tasks)

/-- Touch each session of `tasks` once. -/
def touchSessions (env : Env) : List Task → List String → Store → Store
  | [], _, s => s
  | t :: ts, touched, s =>
      match t.session with
      | some id =>
          if touched.contains id then touchSessions env ts touched s
          else touchSessions env ts (id :: touched) (touchTaskSession env s t)
      | none => touchSessions env ts touched s

def reopenTargets (env : Env) (s : Store) (targets : List TaskTarget) :
    Except Failure (List Task) × Store :=
  perform env s (reopenTargetsPlan env s targets) (fun tasks s' => touchSessions env tasks [] s')

/-! ## Deleting tasks -/

/-- `delete_task`. -/
def deleteTaskPlan (env : Env) (s : Store) (target : TaskTarget) :
    Except String (Planned Task) := do
  let slug ← target.slug env s
  let task ← loadOrFail s slug
  .ok ([.removeTask slug], task)

def deleteTask (env : Env) (s : Store) (target : TaskTarget) : Except Failure Task × Store :=
  perform env s (deleteTaskPlan env s target) (fun _ s' => s')

/-- `delete_tasks_in_session`. -/
def deleteTasksInSessionPlan (s : Store) (sessionId : String) :
    Except String (Planned (List Task)) :=
  let tasks := tasksInSession s.tasks.items sessionId
  .ok (tasks.map (fun t => .removeTask t.slug), tasks)

def deleteTasksInSession (env : Env) (s : Store) (sessionId : String) :
    Except Failure (List Task) × Store :=
  perform env s (deleteTasksInSessionPlan s sessionId) (fun _ s' => s')

end Llmenv.Tasks
