/-
# `Llmenv.Tasks.Sessions` — starting and closing sessions, and whole runs

The session half of the store: `start_session_as` with its four decisions, the
two ways a session closes (`finish_session`, and `abandon_session` behind
`--replace`), and `update_resume`.  Both closing paths untag the unfinished
tasks FIRST and stamp the session LAST, so a failed save leaves the session
open.

The last section puts every operation of the store into one type `Op`.  A run
is a list of calls, each with the environment it met; `exec` performs one.

`engine_start` asks `ps` and `idle_display` asks the clock.  What they answer
is part of the request.
-/
import Llmenv.Lib.Runs
import Llmenv.Tasks.Ops

namespace Llmenv.Tasks

open Llmenv.Lib

/-! ## Loading and saving a session -/

/-- `save_session`, up to the write itself. -/
def saveSession (x : Session) : Except String Write :=
  if h : isValidShortName x.id = true then .ok (.saveSession x h)
  else .error s!"'{x.id}' is not a valid session id"

/-- `load_existing_session`. -/
def loadExistingSession (s : Store) (id : String) : Except String Session :=
  if isValidShortName id then
    match s.session? id with
    | some x => .ok x
    | none => .error s!"no session '{id}' found"
  else .error s!"'{id}' is not a valid session id"

theorem loadExistingSession_ok {s : Store} {id : String} {x : Session}
    (h : loadExistingSession s id = .ok x) : s.session? id = some x := by
  unfold loadExistingSession at h
  split at h
  · split at h
    · rename_i y hy
      rw [hy, Except.ok.inj h]
    · exact absurd h (by simp)
  · exact absurd h (by simp)

/-! ## Starting a session -/

/-- What `session start` is called with, and what it measures. -/
structure StartRequest where
  name : Option String
  description : Option String
  project : String
  owner : EngineIdentity
  /-- `active_since`, against the start time that `ps` reports for the engine
  process; always false when `ps` cannot tell. -/
  activeSince : Session → Bool
  /-- `idle_display` of the last activity. -/
  idle : Session → String

/-- How `session start` treats the open sessions of the project. -/
inductive StartDecision where
  | auto
  | resume (id : String)
  | replace
  | new

inductive StartOutcome where
  | created (session : Session)
  | resumed (session : Session)
  | replaced (session : Session) (abandoned : List Session)

/-- How the caller owns a listed session. -/
inductive Ownership where
  | conversation
  | process
  | none
deriving DecidableEq

def ownership (x : Session) (owner : EngineIdentity) : Ownership :=
  if owner.sessionId.isSome && x.ownerSession == owner.sessionId then .conversation
  else if owner.pid.isSome && x.ownerPid == owner.pid then .process
  else .none

def Ownership.note : Ownership → String
  | .conversation => " — yours: started by this conversation"
  | .process =>
      " — yours: started by this engine process, most likely before a /clear or a compaction"
  | .none => ""

/-- A process id is reused, so a session that only the process id ties to the
caller counts when it was active after the engine started. -/
def StartRequest.isOwn (request : StartRequest) (x : Session) : Bool :=
  match ownership x request.owner with
  | .conversation => true
  | .process => request.activeSince x
  | .none => false

/-- The one listed session that the caller started. -/
def onlyOwnSession (existing : List Session) (request : StartRequest) : Option Session :=
  match existing.filter request.isOwn with
  | [only] => some only
  | _ => none

/-- The refusal that lists the open sessions. -/
def checkpointError (existing : List Session) (request : StartRequest) : String :=
  let line := fun (x : Session) =>
    let name := x.name.getD "unnamed"
    let description := (x.description.map (fun d => s!": {d}")).getD ""
    let idle := request.idle x
    let note := (ownership x request.owner).note
    s!"  - {x.id} ({name}){description} — idle {idle}{note}"
  let yours := (existing.filter (fun x => ownership x request.owner ≠ .none)).length
  let hint :=
    if yours = 0 then ""
    else if yours = existing.length then
      "\nEvery listed session is yours: pass --resume <id> to continue one, or --replace to drop them all. Use --new only for a second, parallel window."
    else
      let count := existing.length
      s!"\nA session marked as yours holds your own earlier work: pass --resume <id> to continue it, or close it with `llmenv task session finish <id>`. --replace abandons all {count} listed sessions, including the ones that are not yours."
  let lines := Text.joinStr "\n" (existing.map line)
  s!"session(s) already open for this project:\n{lines}\npass one of --resume <id>, --replace, or --new{hint}"

/-- Record `owner`; a field it lacks keeps the stored value. -/
def Session.claim (x : Session) (owner : EngineIdentity) : Session :=
  { x with
    ownerSession := owner.sessionId.or x.ownerSession
    ownerPid := owner.pid.or x.ownerPid }

/-- The id that `unique_slug` gives a new session. -/
def newSessionId (s : Store) (request : StartRequest) : String :=
  let base := ((request.name.map slugify).filter (fun slug => !slug.isEmpty)).getD "session"
  uniqueSlug (s.sessions.items.map Session.id) base

def newSession (s : Store) (request : StartRequest) (now : String) : Session :=
  Session.claim
    { id := newSessionId s request
      name := request.name
      project := request.project
      description := request.description
      startedAt := now
      lastActivity := now
      finishedAt := none
      abandonedAt := none
      ownerSession := none
      ownerPid := none }
    request.owner

/-- `create_session`. -/
def createSessionPlan (s : Store) (request : StartRequest) (now : String) :
    Except String (Planned Session) := do
  let w ← saveSession (newSession s request now)
  .ok ([w], newSession s request now)

/-- `resume`. -/
def resumePlan (x : Session) (request : StartRequest) (now : String) :
    Except String (Planned Session) := do
  let resumed := Session.claim { x with lastActivity := now } request.owner
  let w ← saveSession resumed
  .ok ([w], resumed)

/-! ## Closing a session -/

/-- A task whose session tag is cleared. -/
def Task.untagged (t : Task) (now note : String) : Task :=
  { t with notes := t.notes ++ [⟨now, note⟩], session := none, updatedAt := now }

/-- The unfinished tasks of a session, in file order. -/
def unfinishedIn (s : Store) (id : String) : List Task :=
  (tasksInSession s.tasks.items id).filter (fun t => t.state ≠ .done)

/-- `untag_unfinished`. -/
def untagUnfinished (s : Store) (id now note : String) : Except String (List Write) :=
  saveAll ((unfinishedIn s id).map (fun t => t.untagged now note))

/-- `abandon_session`. -/
def abandonSession (s : Store) (x : Session) (now : String) :
    Except String (Planned Session) := do
  let label := x.name.getD x.id
  let ws ← untagUnfinished s x.id now
    s!"Orphaned: session '{label}' was abandoned (`session start --replace`) before this task was finished."
  let abandoned := { x with abandonedAt := some now }
  let w ← saveSession abandoned
  .ok (ws ++ [w], abandoned)

/-- Abandon one session after the other, each with its own clock sample. -/
def abandonAll (env : Env) (s : Store) : Nat → List Session → Except String (Planned (List Session))
  | _, [] => .ok ([], [])
  | i, x :: xs => do
      let (ws, abandoned) ← abandonSession s x (env.now i)
      let (rest, others) ← abandonAll env s (i + 1) xs
      .ok (ws ++ rest, abandoned :: others)

/-- `start_session_as`. -/
def startSessionPlan (env : Env) (s : Store) (request : StartRequest) :
    StartDecision → Except String (Planned StartOutcome)
  | .auto =>
      let existing := openSessions s request.project
      if existing.isEmpty then do
        let (ws, x) ← createSessionPlan s request (env.now 0)
        .ok (ws, .created x)
      else
        match onlyOwnSession existing request with
        | some own => do
            let (ws, x) ← resumePlan own request (env.now 0)
            .ok (ws, .resumed x)
        | none => .error (checkpointError existing request)
  | .resume id => do
      let x ← loadExistingSession s id
      if x.isOpen then do
        let (ws, x) ← resumePlan x request (env.now 0)
        .ok (ws, .resumed x)
      else .error s!"session '{id}' is closed and cannot be resumed"
  | .replace => do
      let existing := openSessions s request.project
      let (ws, abandoned) ← abandonAll env s 0 existing
      let (ws', x) ← createSessionPlan s request (env.now existing.length)
      .ok (ws ++ ws', .replaced x abandoned)
  | .new => do
      let (ws, x) ← createSessionPlan s request (env.now 0)
      .ok (ws, .created x)

def startSession (env : Env) (s : Store) (request : StartRequest) (decision : StartDecision) :
    Except Failure StartOutcome × Store :=
  perform env s (startSessionPlan env s request decision) (fun _ s' => s')

/-- What `finish_session` did: the closed session, how many of its tasks were
done, how many it had, and the tasks it untagged. -/
structure FinishOutcome where
  session : Session
  done : Nat
  total : Nat
  abandoned : List Task

def unfinishedError (id : String) (unfinished : List Task) : String :=
  let entry := fun (t : Task) => let state := t.state.asStr; s!"\n  {state} {t.slug} {t.title}"
  let list := Text.joinStr "" (unfinished.map entry)
  let count := unfinished.length
  s!"session '{id}' has {count} unfinished task(s):{list}\nFinish them with `llmenv task done <slug>`, drop one with `llmenv task clear <slug>`, or pass --abandon-open to untag them and finish the session anyway."

/-- `finish_session`. -/
def finishSessionPlan (env : Env) (s : Store) (id : String) (abandonOpen : Bool) :
    Except String (Planned FinishOutcome) := do
  let x ← loadExistingSession s id
  if x.isOpen then
    let tasks := tasksInSession s.tasks.items id
    let unfinished := unfinishedIn s id
    if unfinished ≠ [] ∧ abandonOpen = false then .error (unfinishedError id unfinished)
    else do
      let note := s!"Dropped: session '{id}' finished (`session finish --abandon-open`) before this task was finished."
      let ws ← untagUnfinished s id (env.now 0) note
      let finished := { x with finishedAt := some (env.now 0) }
      let w ← saveSession finished
      .ok (ws ++ [w],
        { session := finished
          done := tasks.length - unfinished.length
          total := tasks.length
          abandoned := unfinished.map (fun t => t.untagged (env.now 0) note) })
  else .error s!"session '{id}' is already closed"

def finishSession (env : Env) (s : Store) (id : String) (abandonOpen : Bool) :
    Except Failure FinishOutcome × Store :=
  perform env s (finishSessionPlan env s id abandonOpen) (fun _ s' => s')

/-- `update_resume`: of the fields kept here it changes the activity time. -/
def updateResumePlan (env : Env) (s : Store) (id : String) : Except String (Planned Session) := do
  let x ← loadExistingSession s id
  if x.isOpen then do
    let bumped := { x with lastActivity := env.now 0 }
    let w ← saveSession bumped
    .ok ([w], bumped)
  else .error s!"session '{id}' is closed and cannot be changed"

def updateResume (env : Env) (s : Store) (id : String) : Except Failure Session × Store :=
  perform env s (updateResumePlan env s id) (fun _ s' => s')

/-! ## Runs -/

/-- Every operation that changes the store. -/
inductive Op where
  | add (new : NewTask) (parent : ParentSpec) (choice : SessionChoice) (project : String)
  | start (target : TaskTarget) (force : Bool)
  | complete (target : TaskTarget) (force : Bool) (caller : Option Caller)
  | wait (target : TaskTarget) (reason : String)
  | block (target : TaskTarget) (on : String)
  | note (target : TaskTarget) (text : String)
  | edit (target : TaskTarget) (edit : TaskEdit)
  | reopen (target : TaskTarget)
  | reopenAll (targets : List TaskTarget)
  | delete (target : TaskTarget)
  | deleteInSession (id : String)
  | startSession (request : StartRequest) (decision : StartDecision)
  | finishSession (id : String) (abandonOpen : Bool)
  | updateResume (id : String)

/-- The store after a call, whether it succeeded or not. -/
def exec (s : Store) : Env × Op → Store
  | (env, .add new parent choice project) => (addTask env s new parent choice project).2
  | (env, .start target force) => (startTask env s target force).2
  | (env, .complete target force caller) => (completeTask env s target force caller).2
  | (env, .wait target reason) => (waitTask env s target reason).2
  | (env, .block target on) => (blockTask env s target on).2
  | (env, .note target text) => (noteTask env s target text).2
  | (env, .edit target edit) => (editTask env s target edit).2
  | (env, .reopen target) => (reopenTask env s target).2
  | (env, .reopenAll targets) => (reopenTargets env s targets).2
  | (env, .delete target) => (deleteTask env s target).2
  | (env, .deleteInSession id) => (deleteTasksInSession env s id).2
  | (env, .startSession request decision) => (startSession env s request decision).2
  | (env, .finishSession id abandonOpen) => (finishSession env s id abandonOpen).2
  | (env, .updateResume id) => (updateResume env s id).2

/-- The store after a run from the empty store. -/
def runOps (calls : List (Env × Op)) : Store := runFrom exec Store.empty calls

end Llmenv.Tasks
