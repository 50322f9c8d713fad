/-
# `Llmenv.HookRun.TaskNudge` — the nudges of the task tracker

`src/hook_run/task_nudge.rs` with `boundary.rs`, `stop.rs` and `deny.rs`.  The
handlers of one session share a state file.  Each of them loads it, changes a
few fields and saves it, so a handler is a list of `Section`s here, one for each
load and save, with the text that it answers.  No reminder touches the deny
marker: a section carries that as a field.

`decideCommit` is the commit gate between its load and its save.
`Llmenv.HookRun.CommitGate` runs the gate over a whole history, and
`Llmenv.HookRun.NudgeRace` interleaves the handlers step by step.
-/
import Llmenv.HookRun.ShellSplit
import Llmenv.Tasks.Data

namespace Llmenv.HookRun

open Llmenv.Lib Llmenv.HookRun.ShellSplit
open Llmenv.Tasks (isValidShortName)

/-! ## The data -/

/-- What a handler reads of the tracker's configuration. -/
structure TaskTracker where
  nudges : Bool
  enforceCommit : Bool
  workflowSkills : Option (List String)
  nudgeAfter : Option Nat
  nudgeEvery : Option Nat
  stopNudgeEvery : Option Nat
deriving DecidableEq

/-- `TaskTracker::default`. -/
def TaskTracker.default : TaskTracker := ⟨true, true, none, none, none, none⟩

/-- How well the work of the project is tracked. -/
inductive Tracking where
  | unknown (cause : String)
  | noSession
  | noTasks
  | tracked (wip : Option String) (wipOwnerless : Bool) (waiting : List String)
      (next : Option String) (queued : Nat)
deriving DecidableEq

structure NudgeState where
  calls : Nat := 0
  lastNudge : Nat := 0
  skillReminded : Bool := false
  commitDenied : Bool := false
  startReminded : Option String := none
  boundaryReminded : List String := []
  stopQuietTurns : Nat := 0
  ownerlessQuestionReminded : List String := []
deriving DecidableEq

/-- What a handler reads of the payload: a field that is not a text is absent. -/
structure Payload where
  toolName : Option String
  skill : Option String
  command : Option String
  lastAssistantMessage : Option String
deriving DecidableEq

/-- The value that `saturating_add` of two `u32` stops at. -/
def u32Max : Nat := 4294967295

def saturatingAdd (a b : Nat) : Nat := min (a + b) u32Max

def isShellTool (tool : String) : Bool := tool == "Bash" || tool == "Monitor"

def mutatingTools : List String := ["Edit", "Write", "MultiEdit"]

def defaultWorkflowSkills : List String :=
  ["dev-sprint", "ship-issue", "pre-pr-review", "executing-plans", "writing-plans"]

def defaultNudgeAfter : Nat := 8
def defaultNudgeEvery : Nat := 20
def defaultStopNudgeEvery : Nat := 5

/-! ## The reminders -/

/-- The command that starts a task that is queued and not yet in progress. -/
def startNext (slug : String) : String := s!"Run `llmenv task start {slug}` for the next open step."

/-- The commands that register work. -/
def howToTrack : Tracking → String
  | .noSession =>
      "Start a session with its first tasks: `llmenv task session start " ++
        "<name> --task \"<step 1>\" --task \"<step 2>\"`. Then run `llmenv task start <slug>` " ++
        "for the step you do first."
  | .tracked _ _ _ (some slug) _ => startNext slug
  | _ =>
      "Add a task for each step: `llmenv task add \"<step>\"`. Then run `llmenv task start " ++
        "<slug>` for the step you do first. Use `--child-of <slug>` for the parts of a step."

/-- The skill name without its plugin prefix. -/
def bareSkill (name : String) : List Char :=
  ((Text.split (· == ':') (Text.trim name.toList)).getLast?).getD []

def isWorkflowSkill (tracker : TaskTracker) (skill : String) : Bool :=
  (tracker.workflowSkills.getD defaultWorkflowSkills).any fun s => bareSkill s == bareSkill skill

def untracked : Tracking → Bool
  | .noSession => true
  | .noTasks => true
  | _ => false

def queuedReminder (slug : String) : String :=
  "llmenv task tracker: tasks are queued, but none is in progress. " ++ startNext slug

def startReminder (slug : String) (state : NudgeState) : String × NudgeState :=
  if state.startReminded = some slug then ("", state)
  else (queuedReminder slug, { state with startReminded := some slug })

/-- Whether the nudge comes at this many calls. -/
def nudgeDue (tracker : TaskTracker) (lastNudge calls : Nat) : Bool :=
  if lastNudge = 0 then decide (tracker.nudgeAfter.getD defaultNudgeAfter ≤ calls)
  else decide (tracker.nudgeEvery.getD defaultNudgeEvery ≤ calls - lastNudge)

def workNudge (tracker : TaskTracker) (tracking : Tracking) (state : NudgeState) :
    String × NudgeState :=
  if !untracked tracking then ("", state)
  else
    let calls := saturatingAdd state.calls 1
    if nudgeDue tracker state.lastNudge calls then
      (s!"llmenv task tracker: {calls} file edits ran with no task open. If the work has more " ++
        "than one part, track it. " ++ howToTrack tracking,
        { state with calls := calls, lastNudge := calls })
    else ("", { state with calls := calls })

/-- The reminder after a file edit. -/
def mutationReminder (tracker : TaskTracker) (tracking : Tracking) (state : NudgeState) :
    String × NudgeState :=
  match tracking with
  | .tracked none _ _ (some slug) _ => startReminder slug state
  | _ => workNudge tracker tracking state

def skillReminder (tracker : TaskTracker) (payload : Payload) (tracking : Tracking)
    (state : NudgeState) : String × NudgeState :=
  let skill := payload.skill.getD ""
  if state.skillReminded || !untracked tracking || !isWorkflowSkill tracker skill then ("", state)
  else
    ("llmenv task tracker: the skill '" ++ skill ++
      "' runs in several steps, and no task tracks them. " ++ howToTrack tracking,
      { state with skillReminded := true })

/-- The reminder after a shell command that reaches a step boundary. -/
def boundaryReminder (payload : Payload) (tracking : Tracking) (state : NudgeState) :
    String × NudgeState :=
  match stepBoundary (payload.command.getD ""), tracking with
  | .ok (some event), .tracked (some slug) _ _ next queued =>
      let key := s!"{slug} {event}"
      if queued = 0 ∨ key ∈ state.boundaryReminded then ("", state)
      else
        let start := next.elim "" fun n => " " ++ startNext n
        (s!"llmenv task tracker: `{event}` ends a step, but '{slug}' is still in progress, with " ++
          s!"{queued} task(s) queued behind it. If '{slug}' is done, run " ++
          s!"`llmenv task done {slug}`.{start}",
          { state with boundaryReminded := state.boundaryReminded ++ [key] })
  -- No boundary, or a notice to the agent alone.
  | _, _ => ("", state)

/-- Reset the counters while tasks are tracked. -/
def settle (tracking : Tracking) (state : NudgeState) : NudgeState :=
  match tracking with
  | .tracked .. => { state with calls := 0, lastNudge := 0 }
  | _ => state

/-- The reminder that the tool of the call has. -/
def toolReminder (tracker : TaskTracker) (tool : String) (payload : Payload)
    (tracking : Tracking) (state : NudgeState) : String × NudgeState :=
  if tool = "Skill" then skillReminder tracker payload tracking state
  else if tool ∈ mutatingTools then mutationReminder tracker tracking state
  else if isShellTool tool then boundaryReminder payload tracking state
  else ("", state)

/-- `handle_post_tool_use` between its load and its save. -/
def postReminder (tracker : TaskTracker) (tool : String) (payload : Payload)
    (tracking : Tracking) (state : NudgeState) : String × NudgeState :=
  let (text, state) := toolReminder tracker tool payload tracking state
  (text, settle tracking state)

theorem commitDenied_workNudge (tracker : TaskTracker) (tracking : Tracking) (s : NudgeState) :
    (workNudge tracker tracking s).2.commitDenied = s.commitDenied := by
  simp only [workNudge]
  split
  · rfl
  · split <;> rfl

theorem commitDenied_mutationReminder (tracker : TaskTracker) (tracking : Tracking)
    (s : NudgeState) :
    (mutationReminder tracker tracking s).2.commitDenied = s.commitDenied := by
  unfold mutationReminder
  split
  · simp only [startReminder]
    split <;> rfl
  · exact commitDenied_workNudge tracker _ s

theorem commitDenied_skillReminder (tracker : TaskTracker) (payload : Payload)
    (tracking : Tracking) (s : NudgeState) :
    (skillReminder tracker payload tracking s).2.commitDenied = s.commitDenied := by
  simp only [skillReminder]
  split <;> rfl

theorem commitDenied_boundaryReminder (payload : Payload) (tracking : Tracking)
    (s : NudgeState) :
    (boundaryReminder payload tracking s).2.commitDenied = s.commitDenied := by
  unfold boundaryReminder
  split
  · show (if _ then _ else _ : String × NudgeState).2.commitDenied = _
    split <;> rfl
  · rfl

theorem commitDenied_settle (tracking : Tracking) (s : NudgeState) :
    (settle tracking s).commitDenied = s.commitDenied := by
  cases tracking <;> rfl

theorem commitDenied_toolReminder (tracker : TaskTracker) (tool : String) (payload : Payload)
    (tracking : Tracking) (s : NudgeState) :
    (toolReminder tracker tool payload tracking s).2.commitDenied = s.commitDenied := by
  unfold toolReminder
  split
  · exact commitDenied_skillReminder tracker payload tracking s
  · split
    · exact commitDenied_mutationReminder tracker tracking s
    · split
      · exact commitDenied_boundaryReminder payload tracking s
      · rfl

/-- No reminder touches the deny marker. -/
theorem commitDenied_postReminder (tracker : TaskTracker) (tool : String) (payload : Payload)
    (tracking : Tracking) (s : NudgeState) :
    (postReminder tracker tool payload tracking s).2.commitDenied = s.commitDenied := by
  show (settle tracking _).commitDenied = _
  rw [commitDenied_settle]
  exact commitDenied_toolReminder tracker tool payload tracking s

/-! ## The handlers -/

/-- When a section takes the lock. -/
inductive Locking where
  /-- `with_stop_state`. -/
  | always
  /-- `clear_stop_turns`: nothing happens without a state file. -/
  | ifFile
  /-- `handle_post_tool_use`: without the folder there is no lock, and the section runs. -/
  | ifFolder
deriving DecidableEq

/-- A load of the state file and a save of what became of it. -/
structure Section where
  locking : Locking
  run : NudgeState → String × NudgeState
  /-- What the handler answers when the state cannot be locked or read. -/
  unread : String
  keepsMarker : ∀ s, (run s).2.commitDenied = s.commitDenied

/-- The sections of a handler, and what it answers besides. -/
structure Plan where
  sections : List Section
  text : String

/-- `state_path`: only a plain name becomes a file name. -/
def statePath (stateDir sessionId : String) : Option String :=
  if isValidShortName sessionId then some (stateDir ++ "/task_nudge/" ++ sessionId ++ ".json")
  else none

/-- Whether the session has a state file at all. -/
def hasPath (caller : Option String) : Bool := caller.any isValidShortName

def clearTurns : Section where
  locking := .ifFile
  run s := ("", { s with stopQuietTurns := 0 })
  unread := ""
  keepsMarker _ := rfl

/-- The first question of this conversation about a task with no owner. -/
def askOwnerless (slug text : String) : Section where
  locking := .always
  run s :=
    if slug ∈ s.ownerlessQuestionReminded then ("", s)
    else (text, { s with ownerlessQuestionReminded := s.ownerlessQuestionReminded ++ [slug] })
  unread := text
  keepsMarker s := by
    show (if _ then _ else _ : String × NudgeState).2.commitDenied = _
    split <;> rfl

/-- One turn end with a task in progress and tasks queued behind it. -/
def countTurn (every : Nat) (text : String) : Section where
  locking := .always
  run s :=
    (if s.stopQuietTurns = 0 then text else "",
      { s with stopQuietTurns := saturatingAdd s.stopQuietTurns 1 % every })
  unread := ""
  keepsMarker _ := rfl

def questionReminder (tracking : Tracking) (caller : Option String) : Plan :=
  match tracking with
  | .tracked (some slug) ownerless _ _ _ =>
      let text :=
        s!"llmenv task tracker: you asked the user a question while '{slug}' is in progress. If " ++
          s!"you wait for the answer, run `llmenv task wait {slug} \"<what you wait for>\"`. " ++
          s!"After the user answers, run `llmenv task start {slug}`."
      if ownerless && hasPath caller then ⟨[askOwnerless slug text], ""⟩ else ⟨[], text⟩
  | _ => ⟨[], ""⟩

def stopWipReminder (tracker : TaskTracker) (slug : String) (queued : Nat)
    (caller : Option String) : Plan :=
  let text :=
    s!"llmenv task tracker: '{slug}' is in progress, and {queued} task(s) are queued behind " ++
      s!"it. If '{slug}' is done, run `llmenv task done {slug}`. Then run " ++
      "`llmenv task start <slug>` for the next open step."
  let every := max (tracker.stopNudgeEvery.getD defaultStopNudgeEvery) 1
  if hasPath caller then ⟨[countTurn every text], ""⟩ else ⟨[], text⟩

def stalled : Tracking → Bool
  | .tracked (some _) _ _ _ queued => decide (0 < queued)
  | _ => false

/-- What `handle_stop` answers after it restarted the throttle. -/
def stopReminder (tracker : TaskTracker) (payload : Payload) (caller : Option String)
    (tracking : Tracking) : Plan :=
  let asks := payload.lastAssistantMessage.any fun m => (Text.trim m.toList).getLast? == some '?'
  match tracking with
  | .tracked wip _ waiting next queued =>
      if asks && wip.isSome then questionReminder tracking caller
      else if asks && !waiting.isEmpty then
        ⟨[], "llmenv task tracker: waiting on the user: " ++ Text.joinStr ", " waiting ++
          ". After the user answers, run `llmenv task start <slug>`."⟩
      else
        match wip, next with
        | none, some slug => ⟨[], queuedReminder slug⟩
        | some slug, _ =>
            if 0 < queued then stopWipReminder tracker slug queued caller else ⟨[], ""⟩
        | none, none => ⟨[], ""⟩
  | .unknown cause =>
      ⟨[], "llmenv task tracker: the task reminders did not run, because the task store cannot " ++
        s!"be read ({cause}). Fix: run `llmenv doctor` to check the state directory."⟩
  | _ => ⟨[], ""⟩

def handleStop (tracker : TaskTracker) (payload : Payload) (caller : Option String)
    (tracking : Tracking) : Plan :=
  if !tracker.nudges then ⟨[], ""⟩
  else
    let reminder := stopReminder tracker payload caller tracking
    if stalled tracking || !hasPath caller then reminder
    -- The throttle restarts with the next stalled turn end.
    else { reminder with sections := clearTurns :: reminder.sections }

def handlePostToolUse (tracker : TaskTracker) (payload : Payload) (caller : Option String)
    (tracking : Tracking) : Plan :=
  if !tracker.nudges then ⟨[], ""⟩
  else
    match payload.toolName with
    | none => ⟨[], ""⟩
    | some tool =>
        if tool = "AskUserQuestion" then questionReminder tracking caller
        else if hasPath caller then
          ⟨[{ locking := .ifFolder
              run := postReminder tracker tool payload tracking
              unread := ""
              keepsMarker := commitDenied_postReminder tracker tool payload tracking }], ""⟩
        else ⟨[], ""⟩

end Llmenv.HookRun
