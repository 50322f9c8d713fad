/-
# `Llmenv.HookRun.CommitGate` — the gate denies the first untracked commit

`handle_pre_tool_use` of `src/hook_run/task_nudge.rs`, with the texts of
`deny.rs` and the reading of `state.rs`.  A commit with no task in progress is
denied once: the deny saves a marker, and the marker lets the retry pass until a
commit with a task in progress clears it.

`gate_cases` says all that one checked call can do.  The marker is also saved by
the deny of a command nested too deep to split, whose text names no task, so
afterwards the first untracked commit passes (`not_firstDenied`).  In every
run without such a deny, an untracked commit passes only after the deny that
names the missing task (`firstDenied_of_run`).
-/
import Llmenv.HookRun.TaskNudge
import Llmenv.Lib.History
import Llmenv.Lib.Runs

namespace Llmenv.HookRun

open Llmenv.Lib Llmenv.HookRun.ShellSplit

/-! ## The denies -/

inductive Deny where
  /-- The gate cannot check the commit. -/
  | unavailable (reason : String)
  /-- The marker cannot be saved to `path`. -/
  | unsaved (path : String)
  | stateUnreadable (error : String)
  | storeUnreadable (cause : String)
  /-- The command is nested too deep to split. -/
  | nestedTooDeep
  /-- No task is in progress. -/
  | noTask (tracking : Tracking)
deriving DecidableEq

def gateDeny (problem fix : String) : String :=
  s!"__DENY__:llmenv blocked this commit or pull request: {problem}. {fix}, then run the same " ++
    "command again. To turn this off, set features.task_tracker.enforce_commit to false."

def gateUnavailableDeny (reason : String) : String :=
  gateDeny ("the task commit gate cannot check it, because " ++ reason) "Fix that"

/-- The text that the handler answers. -/
def Deny.text : Deny → String
  | .unavailable reason => gateUnavailableDeny reason
  | .unsaved path => gateUnavailableDeny s!"the task nudge state {path} cannot be saved"
  | .stateUnreadable error =>
      gateDeny s!"the task nudge state cannot be read ({error})" "Fix the file or its permissions"
  | .storeUnreadable cause =>
      gateDeny (s!"the task store cannot be read ({cause}), so the gate cannot tell whether a " ++
        "task is in progress") "Fix the task store under the state directory"
  | .nestedTooDeep =>
      "__DENY__:llmenv blocked this commit or pull request once: " ++ nestingReason
  | .noTask tracking =>
      "__DENY__:llmenv blocked this commit or pull request once: no task is in progress. " ++
        howToTrack tracking ++ " Then run the same command again, and it goes through. To turn " ++
        "this off, set features.task_tracker.enforce_commit to false."

/-! ## The state file -/

inductive StateFile where
  | missing
  /-- The text does not parse. -/
  | corrupt
  | stored (state : NudgeState)
deriving DecidableEq

/-- `read_state` of a file that can be read: the state, and whether it was reset. -/
def readState : StateFile → NudgeState × Bool
  | .missing => ({}, false)
  | .corrupt => ({}, true)
  | .stored state => (state, false)

/-- The deny marker that the next load finds. -/
def StateFile.marker (file : StateFile) : Bool := (readState file).1.commitDenied

@[simp] theorem marker_stored (s : NudgeState) : (StateFile.stored s).marker = s.commitDenied := rfl

/-- What the file system answers to one call. -/
structure Io where
  /-- Why the lock is not taken. -/
  lockError : Option String
  /-- Why the state file cannot be read. -/
  readError : Option String
  resetSaved : Bool
  markerSaved : Bool
deriving DecidableEq

def Io.fine : Io := ⟨none, none, true, true⟩

/-! ## The handler -/

structure Call where
  tracker : TaskTracker
  payload : Payload
  sessionId : Option String
deriving DecidableEq

/-- What the handler knows before it takes the lock. -/
inductive PreCheck where
  | pass
  | deny (d : Deny)
  | check (command id path : String)

/-- The state file of a commit that must be checked. -/
def locate (stateDir command : String) : Option String → PreCheck
  | none => .deny (.unavailable "the hook payload has no session id")
  | some id =>
      match statePath stateDir id with
      | none => .deny (.unavailable
          s!"the session id {id.quote} is not a plain name, so its state file cannot be placed")
      | some path => .check command id path

def preCheck (stateDir : String) (call : Call) : PreCheck :=
  if !call.tracker.enforceCommit || !call.payload.toolName.any isShellTool then .pass
  else
    match call.payload.command with
    | none => .deny (.unavailable "the Bash call has no string `tool_input.command`")
    | some command =>
        if !runsCommitOrPr command then .pass else locate stateDir command call.sessionId

/-- A task is in progress when the commit of the command runs. -/
def wipOpen (command : String) : Tracking → Bool
  | .tracked (some slug) _ _ _ _ => !endsTaskBeforeCommit command slug
  | _ => false

/-- The command cannot be split. -/
def isNested (command : String) : Bool :=
  match shellSegments command with
  | .ok _ => false
  | .error _ => true

/-- What the gate does with a loaded state: what it must save first, if anything, and its
verdict after that. -/
structure Decision where
  mustSave : Option NudgeState
  verdict : Option Deny

def decideCommit (command : String) (tracking : Tracking) (state : NudgeState) : Decision :=
  match tracking with
  | .unknown cause => ⟨none, some (.storeUnreadable cause)⟩
  | tracking =>
      if wipOpen command tracking then
        -- A marker that stays set would let a later commit with no task pass.
        if state.commitDenied then ⟨some { state with commitDenied := false }, none⟩
        else ⟨none, none⟩
      else if state.commitDenied && !isNested command then ⟨none, none⟩
      else
        ⟨some { state with commitDenied := true },
          some (if isNested command then .nestedTooDeep else .noTask tracking)⟩

/-- The rest of the handler, under the lock. -/
def gate (command path : String) (tracking : Tracking) (io : Io) (file : StateFile) :
    Option Deny × StateFile :=
  match io.readError with
  | some e => (some (.stateUnreadable e), file)
  | none =>
      let (state, reset) := readState file
      let file := if reset && io.resetSaved then .stored state else file
      let decision := decideCommit command tracking state
      match decision.mustSave with
      | none => (decision.verdict, file)
      | some state =>
          if io.markerSaved then (decision.verdict, .stored state)
          else (some (.unsaved path), file)

/-- `handle_pre_tool_use`: the verdict, and the state file of the session afterwards. -/
def handlePreToolUse (stateDir : String) (call : Call) (tracking : Tracking) (io : Io)
    (file : StateFile) : Option Deny × StateFile :=
  match preCheck stateDir call with
  | .pass => (none, file)
  | .deny d => (some d, file)
  | .check command _ path =>
      match io.lockError with
      | some why => (some (.unavailable
          s!"the lock for the task nudge state {path} cannot be taken: {why}"), file)
      | none => gate command path tracking io file

/-! ## What one checked call does -/

theorem marker_of_reset (file : StateFile) (ok : Bool) :
    (if (readState file).2 && ok then .stored (readState file).1 else file : StateFile).marker =
      file.marker := by
  split <;> rfl

theorem not_wipOpen_of_nested {command : String} (h : isNested command = true)
    (tracking : Tracking) : wipOpen command tracking = false := by
  unfold isNested at h
  cases hs : shellSegments command with
  | ok segments => simp [hs] at h
  | error e => cases tracking with
    | tracked wip _ _ _ _ => cases wip <;> simp [wipOpen, endsTaskBeforeCommit, hs]
    | _ => rfl

/-- The gate saves the marker while it denies for the nesting alone. -/
structure NestedMark (command : String) (tracking : Tracking) (io : Io) (file : StateFile) :
    Prop where
  nested : isNested command = true
  storeKnown : ∀ cause, tracking ≠ .unknown cause
  readable : io.readError = none
  saved : io.markerSaved = true
  unset : file.marker = false

/-- The outcomes of the gate: a commit with a task in progress passes and clears the marker, one
without passes on a marker, and a deny leaves the marker alone unless it is the one for a missing
task or the one for the nesting. -/
inductive Outcome (command : String) (tracking : Tracking) (io : Io) (file : StateFile) :
    Option Deny → StateFile → Prop where
  | tracked {file' : StateFile} (wip : wipOpen command tracking = true)
      (cleared : file'.marker = false) : Outcome command tracking io file none file'
  | retried {file' : StateFile} (wip : wipOpen command tracking = false)
      (split : isNested command = false) (marked : file.marker = true)
      (kept : file'.marker = true) : Outcome command tracking io file none file'
  | denied {file' : StateFile} (d : Deny) (kept : file'.marker = file.marker) :
      Outcome command tracking io file (some d) file'
  | firstDenied {file' : StateFile} (wip : wipOpen command tracking = false)
      (set : file'.marker = true) : Outcome command tracking io file (some (.noTask tracking)) file'
  | nestedMark {file' : StateFile} (h : NestedMark command tracking io file)
      (set : file'.marker = true) : Outcome command tracking io file (some .nestedTooDeep) file'

theorem decideCommit_of_wip {command : String} {tracking : Tracking} {state : NudgeState}
    (hwip : wipOpen command tracking = true) :
    decideCommit command tracking state =
      if state.commitDenied then ⟨some { state with commitDenied := false }, none⟩
      else ⟨none, none⟩ := by
  cases tracking with
  | tracked => simp only [decideCommit, hwip, if_true]
  | _ => exact absurd hwip (by simp [wipOpen])

theorem decideCommit_of_not_wip {command : String} {tracking : Tracking} {state : NudgeState}
    (hknown : ∀ cause, tracking ≠ .unknown cause) (hwip : wipOpen command tracking = false) :
    decideCommit command tracking state =
      if state.commitDenied && !isNested command then ⟨none, none⟩
      else ⟨some { state with commitDenied := true },
        some (if isNested command then .nestedTooDeep else .noTask tracking)⟩ := by
  cases tracking with
  | unknown cause => exact absurd rfl (hknown cause)
  | _ => simp [decideCommit, hwip]

/-- The gate saves the marker, or clears it for a task in progress. -/
theorem mustSave_cases {command : String} {tracking : Tracking} {state s : NudgeState}
    (h : (decideCommit command tracking state).mustSave = some s) :
    s.commitDenied = true ∨ (wipOpen command tracking = true ∧ s.commitDenied = false) := by
  cases hwip : wipOpen command tracking with
  | true =>
      right
      rw [decideCommit_of_wip hwip] at h
      split at h
      · obtain rfl := Option.some.inj h
        exact ⟨rfl, rfl⟩
      · exact absurd h (by simp)
  | false =>
      left
      by_cases hknown : ∃ cause, tracking = .unknown cause
      · obtain ⟨cause, rfl⟩ := hknown
        exact absurd h (by simp [decideCommit])
      · rw [decideCommit_of_not_wip (fun cause h => hknown ⟨cause, h⟩) hwip] at h
        split at h
        · exact absurd h (by simp)
        · obtain rfl := Option.some.inj h
          rfl

/-- What must be saved first is saved, or the call is denied. -/
theorem gate_of_readable (command path : String) (tracking : Tracking) {io : Io}
    (file : StateFile) (hread : io.readError = none) :
    ∃ kept : StateFile, kept.marker = file.marker ∧
      gate command path tracking io file =
        match (decideCommit command tracking (readState file).1).mustSave with
        | none => ((decideCommit command tracking (readState file).1).verdict, kept)
        | some state =>
            if io.markerSaved then
              ((decideCommit command tracking (readState file).1).verdict, .stored state)
            else (some (.unsaved path), kept) := by
  refine ⟨_, marker_of_reset file io.resetSaved, ?_⟩
  simp only [gate, hread]

theorem outcome_of_wip {command path : String} {tracking : Tracking} {io : Io}
    {file : StateFile} (hread : io.readError = none) (hwip : wipOpen command tracking = true) :
    Outcome command tracking io file (gate command path tracking io file).1
      (gate command path tracking io file).2 := by
  obtain ⟨kept, hkept, hgate⟩ :=
    gate_of_readable command path tracking file hread
  rw [hgate, decideCommit_of_wip hwip]
  cases hmark : (readState file).1.commitDenied with
  | false => exact .tracked hwip (hkept.trans hmark)
  | true =>
      cases io.markerSaved with
      | false => exact .denied _ hkept
      | true => exact .tracked hwip rfl

theorem outcome_of_not_wip {command path : String} {tracking : Tracking} {io : Io}
    {file : StateFile} (hread : io.readError = none) (hknown : ∀ cause, tracking ≠ .unknown cause)
    (hwip : wipOpen command tracking = false) :
    Outcome command tracking io file (gate command path tracking io file).1
      (gate command path tracking io file).2 := by
  obtain ⟨kept, hkept, hgate⟩ :=
    gate_of_readable command path tracking file hread
  rw [hgate, decideCommit_of_not_wip hknown hwip]
  cases hsaved : io.markerSaved with
  | false =>
      -- The save fails, or there is nothing to save.
      cases hmark : (readState file).1.commitDenied with
      | false => exact .denied _ hkept
      | true =>
          cases hnest : isNested command with
          | false => exact .retried hwip hnest hmark (hkept.trans hmark)
          | true => exact .denied _ hkept
  | true =>
      cases hmark : (readState file).1.commitDenied with
      | false =>
          cases hnest : isNested command with
          | false => exact .firstDenied hwip rfl
          | true => exact .nestedMark ⟨hnest, hknown, hread, hsaved, hmark⟩ rfl
      | true =>
          cases hnest : isNested command with
          | false => exact .retried hwip hnest hmark (hkept.trans hmark)
          | true => exact .denied _ hmark.symm

/-- All that the gate can do. -/
theorem gate_cases (command path : String) (tracking : Tracking) (io : Io) (file : StateFile) :
    Outcome command tracking io file (gate command path tracking io file).1
      (gate command path tracking io file).2 := by
  cases hread : io.readError with
  | some e => simpa only [gate, hread] using .denied _ rfl
  | none =>
      cases hwip : wipOpen command tracking with
      | true => exact outcome_of_wip hread hwip
      | false =>
          by_cases hknown : ∃ cause, tracking = .unknown cause
          · obtain ⟨cause, rfl⟩ := hknown
            obtain ⟨kept, hkept, hgate⟩ :=
              gate_of_readable command path (.unknown cause) file hread
            rw [hgate]
            exact .denied _ hkept
          · exact outcome_of_not_wip hread (fun cause h => hknown ⟨cause, h⟩) hwip

/-- The commit or pull request command that the gate of this call has to check. -/
def checkedCommit (call : Call) : Option String :=
  if call.tracker.enforceCommit && call.payload.toolName.any isShellTool then
    call.payload.command.filter runsCommitOrPr
  else none

theorem preCheck_of_commit (stateDir : String) {command : String} {call : Call}
    (h : checkedCommit call = some command) :
    preCheck stateDir call = locate stateDir command call.sessionId := by
  unfold checkedCommit at h
  split at h
  · next hon =>
      obtain ⟨hc, hruns⟩ := Option.filter_eq_some_iff.mp h
      simp only [Bool.and_eq_true] at hon
      simp [preCheck, hon.1, hon.2, hc, hruns]
  · exact absurd h (by simp)

/-- Without a commit the call passes, or is denied before any state is read. -/
theorem preCheck_of_no_commit (stateDir : String) {call : Call}
    (h : checkedCommit call = none) :
    preCheck stateDir call = .pass ∨ ∃ d, preCheck stateDir call = .deny d := by
  unfold checkedCommit at h
  unfold preCheck
  split
  · exact Or.inl rfl
  · next hon =>
      have hon : (call.tracker.enforceCommit && call.payload.toolName.any isShellTool) = true := by
        simpa using hon
      rw [if_pos hon] at h
      cases hc : call.payload.command with
      | none => exact Or.inr ⟨_, rfl⟩
      | some command =>
          have hruns : runsCommitOrPr command = false := by simpa [hc, Option.filter] using h
          exact Or.inl (by simp [hruns])

theorem command_of_check {stateDir : String} {call : Call} {command c id path : String}
    (h : preCheck stateDir call = .check command id path) (hc : call.payload.command = some c) :
    c = command := by
  unfold preCheck locate at h
  rw [hc] at h
  split at h
  · exact absurd h (by simp)
  · simp only at h
    split at h
    · exact absurd h (by simp)
    · split at h
      · exact absurd h (by simp)
      · split at h
        · exact absurd h (by simp)
        · exact (PreCheck.check.inj h).1

section Handler

variable {stateDir : String} {call : Call} {tracking : Tracking} {io : Io} {file : StateFile}

theorem handlePreToolUse_of_deny {d : Deny} (h : preCheck stateDir call = .deny d) :
    handlePreToolUse stateDir call tracking io file = (some d, file) := by
  simp only [handlePreToolUse, h]

theorem handlePreToolUse_of_check {command id path : String}
    (h : preCheck stateDir call = .check command id path) (hlock : io.lockError = none) :
    handlePreToolUse stateDir call tracking io file = gate command path tracking io file := by
  simp only [handlePreToolUse, h, hlock]

/-- Without the lock the commit is denied, and the file is left alone. -/
theorem handlePreToolUse_of_lockError {command id path why : String}
    (h : preCheck stateDir call = .check command id path) (hlock : io.lockError = some why) :
    ∃ d, handlePreToolUse stateDir call tracking io file = (some d, file) := by
  unfold handlePreToolUse
  simp only [h, hlock]
  exact ⟨_, rfl⟩

variable (stateDir call tracking io file)

/-- All that the handler can do. -/
theorem handlePreToolUse_cases :
    let out := handlePreToolUse stateDir call tracking io file
    (checkedCommit call = none ∧ out = (none, file)) ∨ (∃ d, out = (some d, file)) ∨
      ∃ command id path, checkedCommit call = some command ∧ call.sessionId = some id ∧
        preCheck stateDir call = .check command id path ∧ io.lockError = none ∧
        Outcome command tracking io file out.1 out.2 := by
  intro out
  cases hc : checkedCommit call with
  | none =>
      rcases preCheck_of_no_commit stateDir hc with hpre | ⟨d, hpre⟩
      · exact Or.inl ⟨rfl, by simp only [out, handlePreToolUse, hpre]⟩
      · exact Or.inr (Or.inl ⟨d, handlePreToolUse_of_deny hpre⟩)
  | some command =>
      have hpre := preCheck_of_commit stateDir hc
      cases hid : call.sessionId with
      | none =>
          rw [hid] at hpre
          exact Or.inr (Or.inl ⟨_, handlePreToolUse_of_deny hpre⟩)
      | some id =>
          rw [hid] at hpre
          cases hpath : statePath stateDir id with
          | none =>
              simp only [locate, hpath] at hpre
              exact Or.inr (Or.inl ⟨_, handlePreToolUse_of_deny hpre⟩)
          | some path =>
              simp only [locate, hpath] at hpre
              cases hlock : io.lockError with
              | some why => exact Or.inr (Or.inl (handlePreToolUse_of_lockError hpre hlock))
              | none =>
                  refine Or.inr (Or.inr ⟨command, id, path, rfl, rfl, hpre, rfl, ?_⟩)
                  simp only [out, handlePreToolUse_of_check hpre hlock]
                  exact gate_cases command path tracking io file

end Handler

/-! ## Runs -/

/-- One call that the gate has seen. -/
structure Record where
  call : Call
  tracking : Tracking
  verdict : Option Deny
deriving DecidableEq

structure World where
  /-- The state file of each session. -/
  file : String → StateFile
  /-- The calls, the newest first. -/
  history : List Record

inductive Input where
  | pre (call : Call) (tracking : Tracking) (io : Io)
  /-- Another handler of the session runs one section. -/
  | reminder (id : String) (s : Section) (saved : Bool)
  | lose (id : String)
  | corrupt (id : String)

/-- The file after a section that runs alone. -/
def afterSection (s : Section) (file : StateFile) (saved : Bool) : StateFile :=
  let (before, reset) := readState file
  let state := (s.run before).2
  if (state ≠ before ∨ reset) ∧ saved then .stored state else file

def World.setFile (w : World) (id : String) (file : StateFile) : World :=
  { w with file := fun k => if k = id then file else w.file k }

def step (stateDir : String) (w : World) : Input → World
  | .pre call tracking io =>
      let id := call.sessionId.getD ""
      let out := handlePreToolUse stateDir call tracking io (w.file id)
      { w.setFile id out.2 with history := ⟨call, tracking, out.1⟩ :: w.history }
  | .reminder id s saved => w.setFile id (afterSection s (w.file id) saved)
  | .lose id => w.setFile id .missing
  | .corrupt id => w.setFile id .corrupt

def start : World := ⟨fun _ => .missing, []⟩

@[simp] theorem file_start (id : String) : start.file id = .missing := rfl
@[simp] theorem history_start : start.history = [] := rfl

section Pre

variable {stateDir : String} {w : World} {call : Call} {tracking : Tracking} {io : Io} {id : String}

theorem file_step_pre (hid : call.sessionId = some id) :
    (step stateDir w (.pre call tracking io)).file id =
      (handlePreToolUse stateDir call tracking io (w.file id)).2 := by
  simp [step, World.setFile, hid]

theorem history_step_pre (hid : call.sessionId = some id) :
    (step stateDir w (.pre call tracking io)).history =
      ⟨call, tracking, (handlePreToolUse stateDir call tracking io (w.file id)).1⟩ ::
        w.history := by
  simp [step, hid]

end Pre

/-! ## The first untracked commit is denied -/

/-- A call of the session was denied for the missing task. -/
def NoTaskDenied (id : String) (r : Record) : Prop :=
  r.call.sessionId = some id ∧ ∃ tracking, r.verdict = some (.noTask tracking)

/-- A commit of the session was let through while a task was in progress. -/
def TrackedPassed (id : String) (r : Record) : Prop :=
  r.call.sessionId = some id ∧ r.verdict = none ∧
    ∃ command, checkedCommit r.call = some command ∧ wipOpen command r.tracking = true

/-- A commit that is let through is not nested too deep, and without a task in progress an
earlier call of its session was denied for that, with no tracked commit in between. -/
def FirstDenied (r : Record) (before : List Record) : Prop :=
  ∀ command, checkedCommit r.call = some command → r.verdict = none →
    isNested command = false ∧
      (wipOpen command r.tracking = false →
        ∃ id, r.call.sessionId = some id ∧ Since (NoTaskDenied id) (TrackedPassed id) before)

/-- No deny for the nesting alone sets the marker. -/
def NoNestedMark (stateDir : String) (w : World) : Input → Prop
  | .pre call tracking io =>
      ∀ command id path, preCheck stateDir call = .check command id path → io.lockError = none →
        ¬ NestedMark command tracking io (w.file id)
  | _ => True

/-- A marker stands for a deny that named the missing task. -/
structure MarkerMeans (w : World) : Prop where
  since : ∀ id, (w.file id).marker = true → Since (NoTaskDenied id) (TrackedPassed id) w.history
  firstDenied : Each FirstDenied w.history

theorem MarkerMeans.setFile {w : World} (h : MarkerMeans w) {id : String} {file : StateFile}
    (hfile : file.marker = true → (w.file id).marker = true) : MarkerMeans (w.setFile id file) := by
  refine ⟨?_, h.firstDenied⟩
  intro k hk
  by_cases hkid : k = id
  · subst hkid
    exact h.since k (hfile (by simpa [World.setFile] using hk))
  · exact h.since k (by simpa [World.setFile, hkid] using hk)

/-- A call of session `id` is recorded, with what became of the file of `id`. -/
theorem MarkerMeans.record {w : World} (h : MarkerMeans w) {id : String} {file : StateFile}
    {r : Record} (hr : FirstDenied r w.history) (hother : ∀ k, k ≠ id → ¬ TrackedPassed k r)
    (hid : file.marker = true → Since (NoTaskDenied id) (TrackedPassed id) (r :: w.history)) :
    MarkerMeans { w.setFile id file with history := r :: w.history } := by
  refine ⟨?_, hr, h.firstDenied⟩
  intro k hk
  by_cases hkid : k = id
  · subst hkid
    exact hid (by simpa [World.setFile] using hk)
  · have hk : (w.file k).marker = true := by simpa [World.setFile, hkid] using hk
    exact Or.inr ⟨hother k hkid, h.since k hk⟩

/-- A call that is no tracked commit leaves what an unchanged marker means. -/
theorem MarkerMeans.since_cons {w : World} (h : MarkerMeans w) {id : String} {r : Record}
    (hr : ¬ TrackedPassed id r) (hmark : (w.file id).marker = true) :
    Since (NoTaskDenied id) (TrackedPassed id) (r :: w.history) :=
  Or.inr ⟨hr, h.since id hmark⟩

theorem not_trackedPassed_of_denied {id : String} {call : Call} {tracking : Tracking} {d : Deny} :
    ¬ TrackedPassed id ⟨call, tracking, some d⟩ := by
  rintro ⟨-, hv, -⟩
  exact absurd hv (by simp)

theorem firstDenied_of_denied {call : Call} {tracking : Tracking} {d : Deny} {h : List Record} :
    FirstDenied ⟨call, tracking, some d⟩ h := by
  intro command _ hv
  exact absurd hv (by simp)

theorem marker_afterSection (s : Section) (file : StateFile) (saved : Bool) :
    (afterSection s file saved).marker = file.marker := by
  simp only [afterSection]
  rw [apply_ite StateFile.marker, marker_stored, s.keepsMarker]
  exact ite_self _

section Step

variable {stateDir : String} {w : World} {call : Call} {tracking : Tracking} {io : Io}

/-- A checked call keeps the meaning of the marker, if it is not denied for the nesting while
the marker is not set. -/
theorem markerMeans_of_outcome (h : MarkerMeans w) {command id : String} {verdict : Option Deny}
    {file : StateFile} (hc : checkedCommit call = some command) (hid : call.sessionId = some id)
    (hg : ¬ NestedMark command tracking io (w.file id))
    (hout : Outcome command tracking io (w.file id) verdict file) :
    MarkerMeans { w.setFile id file with history := ⟨call, tracking, verdict⟩ :: w.history } := by
  have hother : ∀ k, k ≠ id → ¬ TrackedPassed k ⟨call, tracking, verdict⟩ := by
    rintro k hk ⟨hs, -⟩
    exact hk (Option.some.inj (hs.symm.trans hid))
  cases hout with
  | tracked wip cleared =>
      refine h.record ?_ hother (fun hm => absurd (cleared.symm.trans hm) (by simp))
      intro c hc' _
      obtain rfl : command = c := Option.some.inj (hc.symm.trans hc')
      refine ⟨?_, fun hwip => absurd (wip.symm.trans hwip) (by simp)⟩
      cases hn : isNested command with
      | false => rfl
      | true => exact absurd (wip.symm.trans (not_wipOpen_of_nested hn tracking)) (by simp)
  | retried wip split marked kept =>
      have hr : ¬ TrackedPassed id ⟨call, tracking, none⟩ := by
        rintro ⟨-, -, c, hc', hwip⟩
        obtain rfl : command = c := Option.some.inj (hc.symm.trans hc')
        exact absurd (wip.symm.trans hwip) (by simp)
      refine h.record ?_ hother (fun _ => h.since_cons hr marked)
      intro c hc' _
      obtain rfl : command = c := Option.some.inj (hc.symm.trans hc')
      exact ⟨split, fun _ => ⟨id, hid, h.since id marked⟩⟩
  | denied d kept =>
      refine h.record firstDenied_of_denied hother ?_
      intro hm
      exact h.since_cons not_trackedPassed_of_denied (kept.symm.trans hm)
  | firstDenied wip set =>
      refine h.record firstDenied_of_denied hother (fun _ => Or.inl ?_)
      exact ⟨hid, tracking, rfl⟩
  | nestedMark hn set => exact absurd hn hg

theorem markerMeans_step (h : MarkerMeans w) (i : Input) (hg : NoNestedMark stateDir w i) :
    MarkerMeans (step stateDir w i) := by
  cases i with
  | pre call tracking io =>
      rcases handlePreToolUse_cases stateDir call tracking io (w.file (call.sessionId.getD ""))
        with ⟨hc, hout⟩ | ⟨d, hout⟩ | ⟨command, id, path, hc, hid, hpre, hlock, hout⟩
      · -- The call runs no commit.
        have hr : ∀ k, ¬ TrackedPassed k ⟨call, tracking, none⟩ := by
          rintro k ⟨-, -, c, hc', -⟩
          exact absurd (hc.symm.trans hc') (by simp)
        simp only [step, hout]
        refine h.record ?_ (fun k _ => hr k) (fun hm => h.since_cons (hr _) hm)
        intro c hc' _
        exact absurd (hc.symm.trans hc') (by simp)
      · simp only [step, hout]
        exact h.record firstDenied_of_denied (fun _ _ => not_trackedPassed_of_denied)
          (fun hm => h.since_cons not_trackedPassed_of_denied hm)
      · rw [hid] at hout
        have := markerMeans_of_outcome h hc hid (hg command id path hpre hlock) hout
        show MarkerMeans { w.setFile (call.sessionId.getD "") _ with history := _ }
        rw [hid]
        exact this
  | reminder id s saved =>
      refine h.setFile ?_
      rw [marker_afterSection]
      exact fun hm => hm
  | lose id => exact h.setFile (fun hm => absurd hm (by simp [StateFile.marker, readState]))
  | corrupt id => exact h.setFile (fun hm => absurd hm (by simp [StateFile.marker, readState]))

end Step

/-- In every run without such a deny, an untracked commit passes only after a deny that named
the missing task. -/
theorem firstDenied_of_run (stateDir : String) (is : List Input)
    (hg : Guarded (step stateDir) (NoNestedMark stateDir) start is) :
    Each FirstDenied (runFrom (step stateDir) start is).history := by
  have hstart : MarkerMeans start := by
    refine ⟨?_, trivial⟩
    intro id hm
    exact absurd hm (by simp [start, StateFile.marker, readState])
  exact (inv_of_guarded MarkerMeans (fun _ i h hg => markerMeans_step h i hg) hstart hg).firstDenied

/-- A `Bash` call of session `s1`. -/
def bash (command : String) : Call :=
  ⟨.default, ⟨some "Bash", none, some command, none⟩, some "s1"⟩

/-- A commit, its retry, a lost file and the next deny. -/
theorem firstDenied_of_retry :
    Each FirstDenied (runFrom (step "/state") start
      [.pre (bash "git commit -m x") .noSession .fine, .reminder "s1" clearTurns true,
        .pre (bash "git commit -m x") .noSession .fine, .lose "s1",
        .pre (bash "git commit -m x") .noTasks .fine]).history := by
  have hsplit : isNested "git commit -m x" = false := by decide +kernel
  have hcall : ∀ w tracking,
      NoNestedMark "/state" w (.pre (bash "git commit -m x") tracking .fine) := by
    intro w tracking command id path hpre _ hmark
    obtain rfl : "git commit -m x" = command := command_of_check hpre rfl
    exact absurd (hsplit.symm.trans hmark.nested) (by simp)
  exact firstDenied_of_run "/state" _
    ⟨hcall _ _, trivial, hcall _ _, trivial, hcall _ _, trivial⟩

/-- A commit inside forty substitutions. -/
def nestedCommit : String :=
  "$($($($($($($($($($($($($($($($($($($($($($($($($($($($($($($($($($($($($($($(" ++
    "git commit -m x))))))))))))))))))))))))))))))))))))))))"

/-- A nested commit is denied without a word of the missing task, and then the first plain commit
with no task passes. -/
theorem not_firstDenied :
    ¬ Each FirstDenied (runFrom (step "/state") start
      [.pre (bash nestedCommit) .noSession .fine,
        .pre (bash "git commit -m x") .noSession .fine]).history := by
  have hnested : handlePreToolUse "/state" (bash nestedCommit) .noSession .fine .missing =
      (some .nestedTooDeep, .stored { commitDenied := true }) := by
    decide +kernel
  have hplain : handlePreToolUse "/state" (bash "git commit -m x") .noSession .fine
      (.stored { commitDenied := true }) = (none, .stored { commitDenied := true }) := by
    decide +kernel
  have hrun : (runFrom (step "/state") start
      [.pre (bash nestedCommit) .noSession .fine,
        .pre (bash "git commit -m x") .noSession .fine]).history =
      [⟨bash "git commit -m x", .noSession, none⟩,
        ⟨bash nestedCommit, .noSession, some .nestedTooDeep⟩] := by
    rw [runFrom_cons, runFrom_cons, runFrom_nil, history_step_pre rfl, history_step_pre rfl,
      file_step_pre rfl, file_start, hnested, hplain, history_start]
  rw [hrun]
  rintro ⟨hfirst, -⟩
  have hcommit : checkedCommit (bash "git commit -m x") = some "git commit -m x" := by
    decide +kernel
  obtain ⟨id, -, hsince⟩ := (hfirst "git commit -m x" hcommit rfl).2 rfl
  rcases hsince with ⟨-, tracking, hv⟩ | ⟨-, hnil⟩
  · exact absurd hv (by simp)
  · exact hnil

end Llmenv.HookRun
