/-
# `Llmenv.HookRun.RepeatDetect` — the same call again, and the same reminder again

`src/hook_run/repeat_detect.rs`: the state file of an agent has two counters,
one for its tool calls and one for the Stop reminders of its session.  A call
that was made `threshold` times in a row gets a warning, a reminder that often
gets a pointer to `llmenv task wait`, and three times that often it gets nothing.

The counters are refined by a log of the calls and reminders of each agent that
were saved (`Counts`).  It follows that in every run, whatever the file system
answers and whichever agents take turns, a call is warned about when the newest
calls in the log are all the same as it (`warned_of_run`), and the text of a Stop
is given by the streak of its reminder alone (`stop_text_of_counts`).
-/
import Llmenv.HookRun.TaskNudge
import Llmenv.Lib.Json
import Llmenv.Lib.Runs
import Llmenv.Lib.Streak

namespace Llmenv.HookRun.RepeatDetect

open Llmenv.Lib
open Llmenv.Lib.Streak
open Llmenv.Tasks (isValidShortName)

/-! ## The code -/

def silenceAfterThresholdMultiple : Nat := 3

structure SessionState where
  sessionId : String
  lastSignature : Option String
  consecutive : Nat
  lastStopSignature : Option String
  stopConsecutive : Nat
  /-- Not part of the file. -/
  readFailed : Bool
deriving DecidableEq

def SessionState.new (sessionId : String) : SessionState := ⟨sessionId, none, 0, none, 0, false⟩

/-- A file of the folder `repeat_detect`. -/
inductive StateFile where
  | missing
  /-- The text does not parse. -/
  | corrupt
  | stored (state : SessionState)
deriving DecidableEq

/-- The state files by their key. -/
abbrev Files := String → StateFile

def Files.set (files : Files) (key : String) (file : StateFile) : Files :=
  fun k => if k = key then file else files k

/-- What the file system answers to one call. -/
structure Io where
  readFailed : Bool
  saved : Bool
  /-- The files that are older than seven days. -/
  stale : String → Bool

def SessionState.load (files : Files) (sessionId : String) (io : Io) : SessionState :=
  if io.readFailed then { SessionState.new sessionId with readFailed := true }
  else
    match files sessionId with
    | .stored state => { state with readFailed := false }
    | _ => SessionState.new sessionId

/-- `prune_stale_json_files`. -/
def pruneStale (stale : String → Bool) (files : Files) : Files :=
  fun k => if stale k then .missing else files k

/-- The old files go on the first save of a session only. -/
def SessionState.save (state : SessionState) (files : Files) (io : Io) : Files :=
  if state.readFailed then files
  else
    let files := if files state.sessionId = .missing then pruneStale io.stale files else files
    if io.saved then files.set state.sessionId (.stored state) else files

section Handlers

-- The text of a JSON value, and the prefix of a digest.
variable (jsonText : Json → String) (hashPrefix : String → String)

/-- The state file name for the agent that fired the hook. -/
def agentStateKey (sessionId : String) (payload : Json) : String :=
  let agent (agentId : String) : String :=
    if isValidShortName sessionId then
      sessionId ++ ".agent-" ++ hashPrefix (sessionId ++ "\x00" ++ agentId)
    else sessionId
  match payload.get? "agent_id" with
  | none | some .null => sessionId
  | some (.str id) => agent id
  | some other => agent (jsonText other)

def signature (toolName : String) (payload : Json) : String :=
  toolName ++ ":" ++ jsonText ((payload.get? "tool_input").getD .null)

def repeatWarning (toolName : String) (consecutive : Nat) : String :=
  s!"You've called {toolName} with identical input {consecutive} times in a row. " ++
    "This is very likely a stuck loop, not progress — stop, re-read the actual error or " ++
    "goal, and try a different approach instead of repeating this call."

def SessionState.seeCall (state : SessionState) (signature : String) : SessionState :=
  if state.lastSignature = some signature then
    { state with consecutive := saturatingAdd state.consecutive 1 }
  else { state with lastSignature := some signature, consecutive := 1 }

def handlePreToolUse (payload : Json) (sessionId : Option String) (threshold : Nat) (io : Io)
    (files : Files) : String × Files :=
  match sessionId with
  | none => ("", files)
  | some id =>
      if isValidShortName id then
        match (payload.get? "tool_name").bind Json.asStr? with
        | none => ("", files)
        | some toolName =>
            let key := agentStateKey jsonText hashPrefix id payload
            let state := (SessionState.load files key io).seeCall
              (signature jsonText toolName payload)
            (if max threshold 1 ≤ state.consecutive then repeatWarning toolName state.consecutive
              else "", state.save files io)
      else ("", files)

end Handlers

def SessionState.seeStop (state : SessionState) (reminder : String) : SessionState :=
  if state.lastStopSignature = some reminder then
    { state with stopConsecutive := saturatingAdd state.stopConsecutive 1 }
  else { state with lastStopSignature := some reminder, stopConsecutive := 1 }

def saturatingMul (a b : Nat) : Nat := min (a * b) u32Max

def escalated (reminder : String) (consecutive : Nat) : String :=
  s!"{reminder}\n\nThis exact reminder has repeated {consecutive} times in a row with no " ++
    "progress. If a listed task is your own, run `llmenv task start <slug>` to work on " ++
    "it, or `llmenv task wait <slug> \"<reason>\"` if you are blocked on something " ++
    "outside your control — that silences this nag until the blocker clears. If none " ++
    "of the listed tasks are yours (a different, possibly still-active session owns " ++
    "them), this repeat is expected and needs no action from you — it clears on its " ++
    "own once that session updates or closes them."

def handleStop (reminder : String) (sessionId : Option String) (threshold : Nat) (io : Io)
    (files : Files) : String × Files :=
  if reminder = "" then ("", files)
  else
    match sessionId with
    | none => (reminder, files)
    | some id =>
        if isValidShortName id then
          let state := (SessionState.load files id io).seeStop reminder
          let threshold := max threshold 1
          (if saturatingMul threshold silenceAfterThresholdMultiple ≤ state.stopConsecutive then ""
            else if threshold ≤ state.stopConsecutive then escalated reminder state.stopConsecutive
            else reminder, state.save files io)
        else (reminder, files)

/-! ## Runs -/

/-- What happens to the folder, of all sessions and agents. -/
inductive Event where
  | preToolUse (payload : Json) (sessionId : Option String) (threshold : Nat) (io : Io)
  | stop (reminder : String) (sessionId : Option String) (threshold : Nat) (io : Io)
  /-- The file goes: the reset after a compaction, or another program. -/
  | remove (key : String)
  | corrupt (key : String)

/-- The calls and the reminders of an agent that were saved, the newest first. -/
structure Log where
  calls : List String
  reminders : List String

def Log.empty : Log := ⟨[], []⟩

/-- What a handler counts. -/
inductive Entry where
  | call (signature : String)
  | reminder (text : String)

def Log.add (log : Log) : Entry → Log
  | .call s => { log with calls := s :: log.calls }
  | .reminder r => { log with reminders := r :: log.reminders }

abbrev Logs := String → Log

def Logs.set (logs : Logs) (key : String) (log : Log) : Logs :=
  fun k => if k = key then log else logs k

structure World where
  files : Files
  logs : Logs

def start : World := ⟨fun _ => .missing, fun _ => .empty⟩

/-- The log of an agent is lost with its file. -/
def Logs.prune (stale : String → Bool) (logs : Logs) : Logs :=
  fun k => if stale k then .empty else logs k

/-- The logs when the handler of `key` has counted an entry. -/
def Logs.count (w : World) (key : String) (entry : Entry) (io : Io) : Logs :=
  if io.readFailed then w.logs
  else
    let logs := if w.files key = .missing then w.logs.prune io.stale else w.logs
    if io.saved then logs.set key ((logs key).add entry) else logs

section Runs

variable (jsonText : Json → String) (hashPrefix : String → String)

/-- What an event makes a handler count, and for which key. -/
def counted : Event → Option (String × Entry × Io)
  | .preToolUse payload (some id) _ io =>
      if isValidShortName id then
        ((payload.get? "tool_name").bind Json.asStr?).map fun toolName =>
          (agentStateKey jsonText hashPrefix id payload,
            .call (signature jsonText toolName payload), io)
      else none
  | .stop reminder (some id) _ io =>
      if reminder ≠ "" ∧ isValidShortName id then some (id, .reminder reminder, io) else none
  | _ => none

def step (w : World) (event : Event) : World :=
  let logs := match counted jsonText hashPrefix event with
    | some (key, entry, io) => Logs.count w key entry io
    | none => w.logs
  match event with
  | .preToolUse payload sessionId threshold io =>
      ⟨(handlePreToolUse jsonText hashPrefix payload sessionId threshold io w.files).2, logs⟩
  | .stop reminder sessionId threshold io =>
      ⟨(handleStop reminder sessionId threshold io w.files).2, logs⟩
  | .remove key => ⟨w.files.set key .missing, w.logs.set key .empty⟩
  | .corrupt key => ⟨w.files.set key .corrupt, w.logs.set key .empty⟩

end Runs

/-! ## The counters and the logs -/

/-- The state that a log gives. -/
def SessionState.ofLog (key : String) (log : Log) : SessionState :=
  ⟨key, (tally u32Max log.calls).1, (tally u32Max log.calls).2,
    (tally u32Max log.reminders).1, (tally u32Max log.reminders).2, false⟩

def SessionState.see (state : SessionState) : Entry → SessionState
  | .call s => state.seeCall s
  | .reminder r => state.seeStop r

/-- The file of an agent is the counters of its log. -/
def Counts (w : World) : Prop :=
  ∀ key, w.files key = .stored (SessionState.ofLog key (w.logs key)) ∨
    (∀ state, w.files key ≠ .stored state) ∧ w.logs key = .empty

theorem one_le_u32Max : 1 ≤ u32Max := by decide

/-- A counter goes on where the log goes on. -/
theorem see_ofLog (key : String) (log : Log) (entry : Entry) :
    (SessionState.ofLog key log).see entry = SessionState.ofLog key (log.add entry) := by
  cases entry with
  | call s =>
      have h := count_tally one_le_u32Max s log.calls
      simp only [count] at h
      simp only [SessionState.see, SessionState.seeCall, SessionState.ofLog, Log.add, ← h,
        saturatingAdd]
      split <;> simp_all
  | reminder r =>
      have h := count_tally one_le_u32Max r log.reminders
      simp only [count] at h
      simp only [SessionState.see, SessionState.seeStop, SessionState.ofLog, Log.add, ← h,
        saturatingAdd]
      split <;> simp_all

theorem load_of_counts {w : World} (h : Counts w) (key : String) {io : Io}
    (hio : io.readFailed = false) :
    SessionState.load w.files key io = SessionState.ofLog key (w.logs key) := by
  rcases h key with hfile | ⟨hfile, hlog⟩
  · simp [SessionState.load, hio, hfile, SessionState.ofLog]
  · rw [hlog]
    cases hkey : w.files key with
    | stored state => exact absurd hkey (hfile state)
    | missing => simp [SessionState.load, hio, hkey, SessionState.ofLog, tally, Log.empty,
        SessionState.new]
    | corrupt => simp [SessionState.load, hio, hkey, SessionState.ofLog, tally, Log.empty,
        SessionState.new]

theorem readFailed_see (state : SessionState) (entry : Entry) :
    (state.see entry).readFailed = state.readFailed := by
  cases entry <;> simp only [SessionState.see, SessionState.seeCall, SessionState.seeStop] <;>
    split <;> rfl

theorem Counts.set {w : World} (h : Counts w) (key : String) {file : StateFile} {log : Log}
    (hkey : file = .stored (SessionState.ofLog key log) ∨
      (∀ state, file ≠ .stored state) ∧ log = .empty) :
    Counts ⟨w.files.set key file, w.logs.set key log⟩ := by
  intro k
  by_cases hk : k = key
  · subst hk
    simpa [Files.set, Logs.set] using hkey
  · simpa [Files.set, Logs.set, hk] using h k

theorem Counts.prune {w : World} (h : Counts w) (stale : String → Bool) :
    Counts ⟨pruneStale stale w.files, w.logs.prune stale⟩ := by
  intro k
  cases hk : stale k with
  | true => exact Or.inr ⟨by simp [pruneStale, hk], by simp [Logs.prune, hk]⟩
  | false => simpa [pruneStale, Logs.prune, hk] using h k

/-- A handler that counts an entry keeps the files and the logs together. -/
theorem Counts.count {w : World} (h : Counts w) (key : String) (entry : Entry) (io : Io) :
    Counts ⟨((SessionState.load w.files key io).see entry).save w.files io,
      Logs.count w key entry io⟩ := by
  cases hread : io.readFailed with
  | true =>
      simp only [SessionState.save, readFailed_see, SessionState.load, hread, Logs.count, if_true]
      exact h
  | false =>
      rw [load_of_counts h key hread, see_ofLog]
      have hid : (SessionState.ofLog key ((w.logs key).add entry)).sessionId = key := rfl
      have hflag : (SessionState.ofLog key ((w.logs key).add entry)).readFailed = false := rfl
      simp only [SessionState.save, hid, hflag, Logs.count, hread, Bool.false_eq_true, if_false]
      by_cases hmissing : w.files key = .missing
      · -- The log of a missing file is empty, so the prune does not change it.
        have hlog : w.logs key = .empty := by
          rcases h key with hfile | ⟨-, hlog⟩
          · exact absurd (hmissing.symm.trans hfile) (by simp)
          · exact hlog
        have hpruned : w.logs.prune io.stale key = w.logs key := by simp [Logs.prune, hlog]
        simp only [hmissing, if_true, hpruned]
        split
        · exact (h.prune io.stale).set key (Or.inl rfl)
        · exact h.prune io.stale
      · simp only [hmissing, if_false]
        split
        · exact h.set key (Or.inl rfl)
        · exact h

section Runs

variable {jsonText : Json → String} {hashPrefix : String → String}

theorem preToolUse_files {payload : Json} {id toolName : String} {threshold : Nat} {io : Io}
    {files : Files} (hid : isValidShortName id = true)
    (htool : (payload.get? "tool_name").bind Json.asStr? = some toolName) :
    (handlePreToolUse jsonText hashPrefix payload (some id) threshold io files).2 =
      ((SessionState.load files (agentStateKey jsonText hashPrefix id payload) io).see
        (.call (signature jsonText toolName payload))).save files io := by
  simp [handlePreToolUse, hid, htool, SessionState.see]

theorem step_counts (w : World) (event : Event) (h : Counts w) :
    Counts (step jsonText hashPrefix w event) := by
  cases event with
  | remove key => exact h.set key (Or.inr ⟨by simp, rfl⟩)
  | corrupt key => exact h.set key (Or.inr ⟨by simp, rfl⟩)
  | preToolUse payload sessionId threshold io =>
      cases sessionId with
      | none => exact h
      | some id =>
          by_cases hid : isValidShortName id = true
          · cases htool : (payload.get? "tool_name").bind Json.asStr? with
            | none => simpa [step, counted, handlePreToolUse, hid, htool] using h
            | some toolName =>
                simp only [step, counted, hid, htool, if_true, Option.map_some,
                  preToolUse_files hid htool]
                exact h.count _ _ io
          · simpa [step, counted, handlePreToolUse, hid] using h
  | stop reminder sessionId threshold io =>
      cases sessionId with
      | none => by_cases hr : reminder = "" <;> simpa [step, counted, handleStop, hr] using h
      | some id =>
          by_cases hid : isValidShortName id = true
          · by_cases hr : reminder = ""
            · simpa [step, counted, handleStop, hr] using h
            · have hcount := h.count id (.reminder reminder) io
              simpa [step, counted, handleStop, hr, hid, SessionState.see] using hcount
          · by_cases hr : reminder = "" <;> simpa [step, counted, handleStop, hid, hr] using h

theorem start_counts : Counts start := fun _ => Or.inr ⟨by simp [start], rfl⟩

theorem run_counts (events : List Event) :
    Counts (runFrom (step jsonText hashPrefix) start events) :=
  inv_of_run Counts step_counts start_counts events

/-! ## What the agent is told -/

/-- The counter of a streak reaches a bound of its own type with the streak. -/
theorem le_capped_iff {n streak : Nat} (h : n ≤ u32Max) : n ≤ min streak u32Max ↔ n ≤ streak := by
  omega

/-- The text of a Stop whose reminder has this streak. -/
def stopText (reminder : String) (threshold streak : Nat) : String :=
  let threshold := max threshold 1
  if saturatingMul threshold silenceAfterThresholdMultiple ≤ streak then ""
  else if threshold ≤ streak then escalated reminder (min streak u32Max)
  else reminder

theorem consecutive_seeCall (key : String) (log : Log) (sig : String) :
    ((SessionState.ofLog key log).seeCall sig).consecutive =
      min (streak sig (sig :: log.calls)) u32Max := by
  have h := see_ofLog key log (.call sig)
  simp only [SessionState.see] at h
  rw [h]
  rfl

theorem stopConsecutive_seeStop (key : String) (log : Log) (reminder : String) :
    ((SessionState.ofLog key log).seeStop reminder).stopConsecutive =
      min (streak reminder log.reminders + 1) u32Max := by
  have h := see_ofLog key log (.reminder reminder)
  simp only [SessionState.see] at h
  rw [h, ← streak_cons_self]
  rfl

/-- The answer to a call, where the files are the counters of the logs. -/
theorem warned_of_counts {w : World} (h : Counts w) {payload : Json} {id toolName : String}
    {threshold : Nat} {io : Io} (hid : isValidShortName id = true)
    (htool : (payload.get? "tool_name").bind Json.asStr? = some toolName)
    (hthreshold : threshold ≤ u32Max) (hread : io.readFailed = false) {sig : String}
    {calls : List String} (hsig : sig = signature jsonText toolName payload)
    (hcalls : calls = sig :: (w.logs (agentStateKey jsonText hashPrefix id payload)).calls) :
    (handlePreToolUse jsonText hashPrefix payload (some id) threshold io w.files).1 =
      if calls.take (max threshold 1) = List.replicate (max threshold 1) sig then
        repeatWarning toolName (min (streak sig calls) u32Max)
      else "" := by
  subst hsig hcalls
  have hload := load_of_counts h (agentStateKey jsonText hashPrefix id payload) hread
  have hmax : max threshold 1 ≤ u32Max := max_le hthreshold one_le_u32Max
  simp only [handlePreToolUse, hid, htool, if_true, hload, consecutive_seeCall,
    le_capped_iff hmax, le_streak_iff]

/-- The text of a Stop, where the files are the counters of the logs. -/
theorem stop_text_of_counts {w : World} (h : Counts w) {reminder id : String} {threshold : Nat}
    {io : Io} (hid : isValidShortName id = true) (hreminder : reminder ≠ "")
    (hthreshold : threshold ≤ u32Max) (hread : io.readFailed = false) :
    (handleStop reminder (some id) threshold io w.files).1 =
      stopText reminder threshold (streak reminder (w.logs id).reminders + 1) := by
  have hload := load_of_counts h id hread
  have hmax : max threshold 1 ≤ u32Max := max_le hthreshold one_le_u32Max
  have hmul : saturatingMul (max threshold 1) silenceAfterThresholdMultiple ≤ u32Max :=
    Nat.min_le_right _ _
  simp only [handleStop, hid, hreminder, if_true, if_false, stopText, hload,
    stopConsecutive_seeStop, le_capped_iff hmax, le_capped_iff hmul]

/-- A call is warned about when the newest calls of its agent are all the same as it: as many as
the threshold, this one among them.  The calls of other agents and the reminders do not count. -/
theorem warned_of_run (events : List Event) (payload : Json) (id toolName : String)
    (threshold : Nat) (io : Io) (hid : isValidShortName id = true)
    (htool : (payload.get? "tool_name").bind Json.asStr? = some toolName)
    (hthreshold : threshold ≤ u32Max) (hread : io.readFailed = false) :
    let w := runFrom (step jsonText hashPrefix) start events
    let sig := signature jsonText toolName payload
    let calls := sig :: (w.logs (agentStateKey jsonText hashPrefix id payload)).calls
    (handlePreToolUse jsonText hashPrefix payload (some id) threshold io w.files).1 =
      if calls.take (max threshold 1) = List.replicate (max threshold 1) sig then
        repeatWarning toolName (min (streak sig calls) u32Max)
      else "" :=
  warned_of_counts (run_counts events) hid htool hthreshold hread rfl rfl

theorem warned_of_run_read_twice :
    let io : Io := ⟨false, true, fun _ => false⟩
    let payload : Json := .obj [("tool_name", .str "Read")]
    let w := runFrom (step (fun _ => "null") (fun text => text)) start
      [.preToolUse payload (some "s") 2 io]
    let calls := "Read:null" :: (w.logs "s").calls
    (handlePreToolUse (fun _ => "null") (fun text => text) payload (some "s") 2 io w.files).1 =
      if calls.take 2 = List.replicate 2 "Read:null" then
        repeatWarning "Read" (min (streak "Read:null" calls) u32Max)
      else "" :=
  warned_of_run _ _ "s" "Read" 2 _ (by decide) rfl (by decide) rfl

/-- A call whose state cannot be read counts as the first one, and it leaves every file as it is. -/
theorem unread_call (files : Files) (payload : Json) (id toolName : String)
    (threshold : Nat) (io : Io) (hid : isValidShortName id = true)
    (htool : (payload.get? "tool_name").bind Json.asStr? = some toolName)
    (hread : io.readFailed = true) :
    handlePreToolUse jsonText hashPrefix payload (some id) threshold io files =
      (if threshold ≤ 1 then repeatWarning toolName 1 else "", files) := by
  simp [handlePreToolUse, hid, htool, SessionState.load, hread, SessionState.seeCall,
    SessionState.new, SessionState.save]

end Runs

end Llmenv.HookRun.RepeatDetect
