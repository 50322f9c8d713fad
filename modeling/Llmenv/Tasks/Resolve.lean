/-
# `Llmenv.Tasks.Resolve` — from what a caller types to a task and a session

A caller names a task by its slug or by a prefix of it (`resolve.rs`), and a
new task joins a session that is named, picked, or was read earlier in the
same command (`session_choice.rs`).  Both end in the ownership checks on the
parent of a task (`ownership.rs`).

A name that resolves is the slug of a task file (`resolveWith_stored`).  A
`TaskTarget.resolved` slug is not looked up again, so for it the load that
follows decides.
-/
import Llmenv.Tasks.Data

namespace Llmenv.Tasks

open Llmenv.Lib

/-! ## Loading one task -/

/-- Why `load_task` fails: the name is refused before a path is built, or no
such file exists (`is_not_found`). -/
inductive LoadError where
  | invalidName
  | notFound
deriving DecidableEq

def LoadError.text (slug : String) : LoadError → String
  | .invalidName => s!"'{slug}' is not a valid task slug"
  | .notFound => s!"cannot read task '{slug}'"

/-- `load_task`. -/
def loadTask (s : Store) (slug : String) : Except LoadError Task :=
  if isValidShortName slug then
    match s.task? slug with
    | some t => .ok t
    | none => .error .notFound
  else .error .invalidName

/-- `load_task` where the caller passes the error on. -/
def loadOrFail (s : Store) (slug : String) : Except String Task :=
  (loadTask s slug).mapError (LoadError.text slug)

theorem loadTask_eq_ok {s : Store} {slug : String} {t : Task} :
    loadTask s slug = .ok t ↔ s.task? slug = some t := by
  unfold loadTask
  constructor
  · intro h
    split at h
    · split at h
      · rename_i u hu
        rw [hu, Except.ok.inj h]
      · exact absurd h (by simp)
    · exact absurd h (by simp)
  · intro h
    rw [if_pos (Store.valid_of_task? h), h]

theorem loadOrFail_eq_ok {s : Store} {slug : String} {t : Task} :
    loadOrFail s slug = .ok t ↔ s.task? slug = some t := by
  rw [← loadTask_eq_ok, loadOrFail]
  cases loadTask s slug <;> simp [Except.mapError]

/-! ## Sessions -/

/-- How `pick_open_session` failed. -/
inductive PickError where
  | noneOpen
  | ambiguous (count owned : Nat) (identified : Bool)
deriving DecidableEq

/-- The error text for an ambiguous pick, ending in the caller's `fix`. -/
def PickError.ambiguityMessage (fix : String) : PickError → Option String
  | .noneOpen => none
  | .ambiguous count owned identified =>
      some (if !identified then
        s!"{count} open sessions for this project — {fix}"
      else if owned == 0 then
        s!"{count} open sessions for this project, and none of them is owned by this conversation — {fix}"
      else
        s!"{count} open sessions for this project, and this conversation owns {owned} of them — {fix}")

/-- The only open session, else the only one that the caller's conversation
started or resumed. -/
def pickOpenSession (sessions : List Session) (owner : EngineIdentity) :
    Except PickError Session :=
  match sessions with
  | [] => .error .noneOpen
  | [only] => .ok only
  | _ =>
      match sessions.filter (fun x =>
          owner.sessionId.isSome && x.ownerSession == owner.sessionId) with
      | [only] => .ok only
      | owned => .error (.ambiguous sessions.length owned.length owner.sessionId.isSome)

theorem pickOpenSession_mem {sessions : List Session} {owner : EngineIdentity} {x : Session}
    (h : pickOpenSession sessions owner = .ok x) : x ∈ sessions := by
  unfold pickOpenSession at h
  split at h
  · exact absurd h (by simp)
  · rw [Except.ok.inj h]
    exact List.mem_singleton_self _
  · split at h
    · rename_i only hf
      have : only ∈ sessions.filter (fun x =>
          owner.sessionId.isSome && x.ownerSession == owner.sessionId) := by simp [hf]
      exact Except.ok.inj h ▸ List.mem_of_mem_filter this
    · exact absurd h (by simp)

/-- The open sessions of a project. -/
def openSessions (s : Store) (project : String) : List Session :=
  s.sessions.items.filter (fun x => x.isOpen && x.project == project)

/-- Whether a new task from `caller` may join the session. -/
def Session.mayTakeTasks (x : Session) (caller : Option String) : Bool :=
  match x.ownerSession with
  | none => true
  | some owner => caller == some owner

def foreignSessionMessage (id : String) : String :=
  s!"session '{id}' belongs to another conversation, so a task cannot be added to it. To add it anyway, pass the owning session's id as --other-session <SESSION_ID>."

/-- Refuse a task that would join a session of another conversation. -/
def checkTakesTasks (x : Session) (owner : EngineIdentity) : Except String Unit :=
  if x.mayTakeTasks owner.sessionId then .ok () else .error (foreignSessionMessage x.id)

/-- Which session a new task joins.  `checked` holds a session value that the
caller read earlier: it is not read again. -/
inductive SessionChoice where
  | named (id : String)
  | resolve (owner : EngineIdentity)
  | checked (session : Session)

/-- `resolve_session_for_add`. -/
def resolveSessionForAdd (s : Store) (choice : SessionChoice) (project : String) :
    Except String String :=
  match choice with
  | .named id =>
      if s.sessions.items.any (fun x => x.id == id && x.isOpen) then .ok id
      else .error s!"session '{id}' does not exist or is not open. Fix: run `llmenv task session ls` to list the open sessions, then pass one of their ids."
  | .checked x =>
      if !x.isOpen || x.project != project then
        .error s!"session '{x.id}' is not an open session of this project. Fix: run `llmenv task session ls` to list the open sessions."
      else .ok x.id
  | .resolve owner =>
      match pickOpenSession (openSessions s project) owner with
      | .ok x => do
          checkTakesTasks x owner
          .ok x.id
      | .error .noneOpen =>
          .error "no open session for this project — run `llmenv task session start` first, or pass --session <id>"
      | .error e =>
          .error ((e.ambiguityMessage "pass --session <id>, or see `llmenv task session ls`").getD
            "more than one session is open, so none was chosen")

/-! ## Task identifiers -/

/-- Refuse a name that cannot be a task slug. -/
def checkIdentifier (input : String) : Except String Unit :=
  if isValidShortName input then .ok () else .error s!"'{input}' is not a valid task identifier"

/-- The sessions a bare slug is searched in first. -/
def preferredSessions (s : Store) (owner : EngineIdentity) : List String :=
  let opened := s.sessions.items.filter Session.isOpen
  match pickOpenSession opened owner with
  | .ok picked => [picked.id]
  | .error _ => opened.map Session.id

/-- An exact match wins, else the one slug that starts with `input`. -/
def pick (slugs : List String) (input : String) : Except String (Option String) :=
  if slugs.contains input then .ok (some input)
  else
    match slugs.filter (fun slug => Text.startsWith slug input) with
    | [] => .ok none
    | [one] => .ok (some one)
    | several =>
        let list := Text.joinStr ", " (Text.sortStrings several)
        .error s!"'{input}' matches multiple tasks: {list}"

/-- `resolve_with`, over a strict read of the store. -/
def resolveWith (s : Store) (input : String) (owner : EngineIdentity) : Except String String := do
  let preferred := preferredSessions s owner
  let mine := (s.tasks.items.filter
    (fun t => t.session.any (fun id => preferred.contains id))).map Task.slug
  match ← (if preferred.isEmpty then .ok none else pick mine input) with
  | some slug => .ok slug
  | none =>
      if (s.task? input).isSome then .ok input
      else
        match ← pick (s.tasks.items.map Task.slug) input with
        | some slug => .ok slug
        | none => .error s!"no task found matching '{input}'"

/-- `resolve_in`. -/
def resolveIn (env : Env) (s : Store) (input : String) : Except String String := do
  resolveWith s input (← env.identity)

/-- The task that a command acts on: a name to look up, or a slug that a
lookup in the same command returned. -/
inductive TaskTarget where
  | input (name : String)
  | resolved (slug : String)

/-- Refuse an input that cannot be a slug. -/
def TaskTarget.check : TaskTarget → Except String Unit
  | .input name => checkIdentifier name
  | .resolved name => checkIdentifier name

/-- The slug, with a strict read of the store for an input. -/
def TaskTarget.slug (env : Env) (s : Store) : TaskTarget → Except String String
  | .input name => do
      let owner ← env.identity
      checkIdentifier name
      resolveWith s name owner
  | .resolved slug => do
      checkIdentifier slug
      .ok slug

/-- The slug, from a strict read that the caller already made. -/
def TaskTarget.slugIn (env : Env) (s : Store) : TaskTarget → Except String String
  | .input name => do
      checkIdentifier name
      resolveIn env s name
  | .resolved slug => do
      checkIdentifier slug
      .ok slug

theorem pick_mem {slugs : List String} {input slug : String}
    (h : pick slugs input = .ok (some slug)) : slug ∈ slugs := by
  unfold pick at h
  split at h
  · rename_i hin
    have hslug : input = slug := by simpa using h
    simpa [hslug] using hin
  · split at h
    · exact absurd h (by simp)
    · rename_i one hf
      have hone : one ∈ slugs.filter (fun slug => Text.startsWith slug input) := by simp [hf]
      have hslug : one = slug := by simpa using h
      exact hslug ▸ List.mem_of_mem_filter hone
    · exact absurd h (by simp)

theorem isSome_task?_of_mem_slugs {s : Store} {slug : String}
    (h : slug ∈ s.tasks.items.map Task.slug) : ∃ t, s.task? slug = some t := by
  obtain ⟨t, ht, rfl⟩ := List.mem_map.mp h
  exact ⟨t, Store.mem_tasks_iff.mp ht⟩

/-- A name that resolves is the slug of a stored task. -/
theorem resolveWith_stored {s : Store} {input slug : String} {owner : EngineIdentity}
    (h : resolveWith s input owner = .ok slug) : ∃ t, s.task? slug = some t := by
  simp only [resolveWith, bind_eq_ok] at h
  obtain ⟨found, hfound, h⟩ := h
  cases found with
  | some mine =>
      obtain rfl : mine = slug := by simpa using h
      split at hfound
      · exact absurd hfound (by simp)
      · have hmem := pick_mem hfound
        obtain ⟨t, ht, rfl⟩ := List.mem_map.mp hmem
        exact ⟨t, Store.mem_tasks_iff.mp (List.mem_of_mem_filter ht)⟩
  | none =>
      simp only at h
      split at h
      · rename_i hsome
        obtain rfl : input = slug := by simpa using h
        exact Option.isSome_iff_exists.mp hsome
      · obtain ⟨all, hall, h⟩ := bind_eq_ok.mp h
        cases all with
        | none => exact absurd h (by simp)
        | some one =>
            obtain rfl : one = slug := by simpa using h
            exact isSome_task?_of_mem_slugs (pick_mem hall)

/-! ## Checks on a parent -/

/-- Refuse a parent link from a task of `childSession` to a parent in another
session, or in none. -/
def ensureParentInSession (parent : Option Task) (parentSlug : String)
    (childSession : Option String) : Except String Unit :=
  match parent with
  | none =>
      .error s!"parent task '{parentSlug}' was not found. Fix: run `llmenv task ls --all` to list the task names, then pass one of them."
  | some parent =>
      match parent.session with
      | some session =>
          if some session = childSession then .ok ()
          else .error s!"task '{parent.slug}' belongs to session '{session}', so it cannot be the parent of a task in another session. Link a task of the same session, or none."
      | none =>
          .error s!"task '{parent.slug}' has no session, so it cannot be the parent of a task. Fix: link a task of a session, or none."

/-- A sub-task needs an unfinished parent in its own session. -/
def checkChildParent (parent : Task) (sessionId : String) : Except String Unit :=
  if parent.state = .done then
    .error s!"task '{parent.slug}' is done, so it cannot take a sub-task. Reopen it with `llmenv task start --reopen {parent.slug}`."
  else if parent.session.isNone then
    .error s!"task '{parent.slug}' has no session, so it cannot take a sub-task of this one. Fix: pick a parent task of session '{sessionId}'."
  else if parent.session ≠ some sessionId then
    .error s!"task '{parent.slug}' belongs to another session, so it cannot take a sub-task of this one"
  else .ok ()

theorem ensureParentInSession_ok {parent : Option Task} {slug : String} {session : Option String}
    (h : ensureParentInSession parent slug session = .ok ()) :
    ∃ p, parent = some p ∧ p.session = session ∧ session.isSome = true := by
  unfold ensureParentInSession at h
  cases parent with
  | none => exact absurd h (by simp)
  | some p =>
      cases hs : p.session with
      | none => simp [hs] at h
      | some id =>
          simp only [hs] at h
          split at h
          · rename_i hid
            exact ⟨p, rfl, hs.trans hid, by simp [← hid]⟩
          · exact absurd h (by simp)

theorem checkChildParent_ok {p : Task} {id : String} (h : checkChildParent p id = .ok ()) :
    p.state ≠ .done ∧ p.session = some id := by
  unfold checkChildParent at h
  split at h
  · exact absurd h (by simp)
  · split at h
    · exact absurd h (by simp)
    · split at h
      · exact absurd h (by simp)
      · rename_i hdone _ hid
        exact ⟨hdone, by simpa using hid⟩

end Llmenv.Tasks
