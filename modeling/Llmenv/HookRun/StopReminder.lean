/-
# `Llmenv.HookRun.StopReminder` — a Stop hook that does not loop the agent

`src/hook_run/stop_dedupe.rs` with `stop_reminder.rs`.  A Stop hook that returns
text makes the engine start another turn, and that turn ends with another Stop.
So a Stop that a hook caused gets no text, a reminder is not emitted again until
the user sends a prompt, and what is emitted goes through the repeat detector.

The record of a session is refined by `last`, the reminder that was emitted and
recorded last.  In every run the text of a Stop is given by `last` and by the
streak of the reminders that were emitted (`stop_of_run`), so a session whose
reminder stays the same gets it once, however many turns it takes
(`silent_of_run`).
-/
import Llmenv.HookRun.RepeatDetect

namespace Llmenv.HookRun.StopReminder

open Llmenv.Lib
open Llmenv.Lib.Streak
open Llmenv.Tasks (isValidShortName)
open Llmenv.HookRun.RepeatDetect (stopText)

/-! ## The code -/

/-- A file of the folder `stop_dedupe`. -/
inductive Record where
  | missing
  /-- The text does not parse. -/
  | malformed
  | stored (hash : String)
deriving DecidableEq

/-- The records by their session. -/
abbrev Records := String → Record

def Records.set (records : Records) (id : String) (record : Record) : Records :=
  fun k => if k = id then record else records k

/-- What the file system answers to one call. -/
structure Io where
  readFailed : Bool
  saved : Bool
  removed : Bool
  /-- The records that are older than seven days. -/
  stale : String → Bool

/-- A missing or non-boolean field is `false`. -/
def isHookContinuation (payload : Json) : Bool :=
  payload.get? "stop_hook_active" == some (.bool true)

/-- The session that a record can be kept for. -/
def stateId (sessionId : Option String) : Option String :=
  sessionId.filter fun id => isValidShortName id

def loadLast (records : Records) (id : String) (io : Io) : Option String :=
  if io.readFailed then none
  else
    match records id with
    | .stored hash => some hash
    | _ => none

/-- `save`, after the prune of the old records. -/
def save (records : Records) (id hash : String) (io : Io) : Records :=
  let records : Records := fun k => if io.stale k then .missing else records k
  if io.saved then records.set id (.stored hash) else records

def clearLast (records : Records) (id : String) (io : Io) : Records :=
  if io.removed then records.set id .missing else records

def forget (records : Records) (sessionId : Option String) (io : Io) : Records :=
  match stateId sessionId with
  | none => records
  | some id => clearLast records id io

section Handlers

-- The prefix of a digest.
variable (hashPrefix : String → String)

def emitOnce (records : Records) (sessionId : Option String) (reminder : String) (io : Io) :
    String × Records :=
  match stateId sessionId with
  | none => (reminder, records)
  | some id =>
      if reminder = "" then ("", clearLast records id io)
      else if loadLast records id io = some (hashPrefix reminder) then ("", records)
      else (reminder, save records id (hashPrefix reminder) io)

/-- One Stop: its payload, the text of the trackers, and the answers of the file system. -/
structure Stop where
  payload : Json
  sessionId : Option String
  reminder : String
  repeatDetect : Bool
  threshold : Nat
  io : Io
  repeatIo : RepeatDetect.Io

/-- `resolve_stop_reminder`, from the text of the trackers on. -/
def resolveStopReminder (records : Records) (files : RepeatDetect.Files) (stop : Stop) :
    String × Records × RepeatDetect.Files :=
  if isHookContinuation stop.payload then ("", records, files)
  else
    let emitted := emitOnce hashPrefix records stop.sessionId stop.reminder stop.io
    if stop.repeatDetect then
      let told := RepeatDetect.handleStop emitted.1 stop.sessionId stop.threshold stop.repeatIo files
      (told.1, emitted.2, told.2)
    else (emitted.1, emitted.2, files)

end Handlers

/-! ## Runs -/

inductive Event where
  | stop (stop : Stop)
  | prompt (sessionId : Option String) (io : Io)
  | toolUse (payload : Json) (sessionId : Option String) (threshold : Nat) (io : RepeatDetect.Io)
  /-- The compaction reset of the call counters. -/
  | compact (id : String)
  /-- The record goes, by another program. -/
  | lose (id : String)
  | malform (id : String)

structure World where
  records : Records
  repeats : RepeatDetect.World
  /-- The reminder of a session that was emitted and recorded last. -/
  last : String → Option String

def start : World := ⟨fun _ => .missing, RepeatDetect.start, fun _ => none⟩

/-- What a program has in mind of a session. -/
def setLast (last : String → Option String) (id : String) (r : Option String) :
    String → Option String :=
  fun k => if k = id then r else last k

section Runs

variable (jsonText : Json → String) (hashPrefix : String → String)

/-- The sessions' last reminders after the save of one. -/
def lastSaved (last : String → Option String) (id reminder : String) (io : Io) :
    String → Option String :=
  let last := fun k => if io.stale k then none else last k
  if io.saved then setLast last id (some reminder) else last

/-- The sessions' last reminders after a call of `emit_once`. -/
def lastEmitted (w : World) (sessionId : Option String) (reminder : String) (io : Io) :
    String → Option String :=
  match stateId sessionId with
  | none => w.last
  | some id =>
      if reminder = "" then if io.removed then setLast w.last id none else w.last
      else if (emitOnce hashPrefix w.records sessionId reminder io).1 = "" then w.last
      else lastSaved w.last id reminder io

/-- The logs of the repeat detector after a Stop: it counts the reminders that are emitted. -/
def logsAfter (w : World) (stop : Stop) : RepeatDetect.Logs :=
  if stop.repeatDetect then
    (RepeatDetect.step jsonText hashPrefix w.repeats
      (.stop (emitOnce hashPrefix w.records stop.sessionId stop.reminder stop.io).1 stop.sessionId
        stop.threshold stop.repeatIo)).logs
  else w.repeats.logs

def stepStop (w : World) (stop : Stop) : World :=
  let out := resolveStopReminder hashPrefix w.records w.repeats.files stop
  if isHookContinuation stop.payload then ⟨out.2.1, ⟨out.2.2, w.repeats.logs⟩, w.last⟩
  else ⟨out.2.1, ⟨out.2.2, logsAfter jsonText hashPrefix w stop⟩,
    lastEmitted hashPrefix w stop.sessionId stop.reminder stop.io⟩

def step (w : World) : Event → World
  | .stop stop => stepStop jsonText hashPrefix w stop
  | .prompt sessionId io =>
      { w with
        records := forget w.records sessionId io
        last := match stateId sessionId with
          | none => w.last
          | some id => if io.removed then setLast w.last id none else w.last }
  | .toolUse payload sessionId threshold io =>
      ⟨w.records, RepeatDetect.step jsonText hashPrefix w.repeats
        (.preToolUse payload sessionId threshold io), w.last⟩
  | .compact id => ⟨w.records, RepeatDetect.step jsonText hashPrefix w.repeats (.remove id), w.last⟩
  | .lose id => { w with records := w.records.set id .missing, last := setLast w.last id none }
  | .malform id => { w with records := w.records.set id .malformed, last := setLast w.last id none }

end Runs

/-! ## The record of a session -/

/-- The record of a session is the hash of its last reminder. -/
def Recorded (hashPrefix : String → String) (records : Records) (last : String → Option String) :
    Prop :=
  ∀ id, match records id with
    | .stored hash => (last id).map hashPrefix = some hash
    | _ => last id = none

theorem stateId_eq_some {sessionId : Option String} {id : String} :
    stateId sessionId = some id ↔ sessionId = some id ∧ isValidShortName id = true := by
  simp [stateId, Option.filter_eq_some_iff]

section Records

variable {hashPrefix : String → String} {records : Records} {last : String → Option String}

theorem Recorded.set (h : Recorded hashPrefix records last) (id : String) {record : Record}
    {r : Option String}
    (hid : match record with
      | .stored hash => r.map hashPrefix = some hash
      | _ => r = none) :
    Recorded hashPrefix (records.set id record) (setLast last id r) := by
  intro k
  by_cases hk : k = id
  · subst hk
    simpa [Records.set, setLast] using hid
  · simpa [Records.set, setLast, hk] using h k

theorem Recorded.save (h : Recorded hashPrefix records last) (id reminder : String) (io : Io) :
    Recorded hashPrefix (save records id (hashPrefix reminder) io)
      (lastSaved last id reminder io) := by
  have hpruned : Recorded hashPrefix (fun k => if io.stale k then .missing else records k)
      (fun k => if io.stale k then none else last k) := by
    intro k
    cases hk : io.stale k with
    | true => simp [hk]
    | false => simpa [hk] using h k
  unfold StopReminder.save lastSaved
  cases io.saved with
  | true => exact hpruned.set id rfl
  | false => exact hpruned

theorem Recorded.clear (h : Recorded hashPrefix records last) (id : String) (io : Io) :
    Recorded hashPrefix (clearLast records id io)
      (if io.removed then setLast last id none else last) := by
  unfold clearLast
  cases io.removed with
  | true => exact h.set id rfl
  | false => exact h

/-- What is loaded is the hash of the last reminder. -/
theorem loadLast_of_recorded (h : Recorded hashPrefix records last) (id : String) {io : Io}
    (hread : io.readFailed = false) : loadLast records id io = (last id).map hashPrefix := by
  have hid := h id
  simp only [loadLast, hread, Bool.false_eq_true, if_false]
  cases hrecord : records id <;> simp_all

end Records

section Runs

variable {jsonText : Json → String} {hashPrefix : String → String}

theorem Recorded.emit {w : World} (h : Recorded hashPrefix w.records w.last)
    (sessionId : Option String) (reminder : String) (io : Io) :
    Recorded hashPrefix (emitOnce hashPrefix w.records sessionId reminder io).2
      (lastEmitted hashPrefix w sessionId reminder io) := by
  unfold lastEmitted emitOnce
  cases stateId sessionId with
  | none => exact h
  | some id =>
      by_cases hr : reminder = ""
      · simpa [hr] using h.clear id io
      · by_cases hsame : loadLast w.records id io = some (hashPrefix reminder)
        · simpa [hr, hsame] using h
        · simpa [hr, hsame] using h.save id reminder io

/-- What holds in every run: the record is the last reminder, the counters are the logs. -/
structure Kept (hashPrefix : String → String) (w : World) : Prop where
  recorded : Recorded hashPrefix w.records w.last
  counts : RepeatDetect.Counts w.repeats

theorem Kept.stepStop {w : World} (h : Kept hashPrefix w) (stop : Stop) :
    Kept hashPrefix (stepStop jsonText hashPrefix w stop) := by
  cases hcause : isHookContinuation stop.payload with
  | true =>
      simp only [StopReminder.stepStop, resolveStopReminder, hcause, if_true]
      exact h
  | false =>
      have hemit := h.recorded.emit stop.sessionId stop.reminder stop.io
      cases hrepeat : stop.repeatDetect with
      | true =>
          simp only [StopReminder.stepStop, resolveStopReminder, logsAfter, hcause, hrepeat,
            Bool.false_eq_true, if_true, if_false]
          exact ⟨hemit, RepeatDetect.step_counts w.repeats (.stop _ stop.sessionId stop.threshold
            stop.repeatIo) h.counts⟩
      | false =>
          simp only [StopReminder.stepStop, resolveStopReminder, logsAfter, hcause, hrepeat,
            Bool.false_eq_true, if_false]
          exact ⟨hemit, h.counts⟩

theorem Kept.step (w : World) (event : Event) (h : Kept hashPrefix w) :
    Kept hashPrefix (step jsonText hashPrefix w event) := by
  cases event with
  | stop stop => exact h.stepStop stop
  | prompt sessionId io =>
      refine ⟨?_, h.counts⟩
      simp only [StopReminder.step, forget]
      cases stateId sessionId with
      | none => exact h.recorded
      | some id => exact h.recorded.clear id io
  | toolUse payload sessionId threshold io =>
      exact ⟨h.recorded,
        RepeatDetect.step_counts w.repeats (.preToolUse payload sessionId threshold io) h.counts⟩
  | compact id =>
      have hcounts : RepeatDetect.Counts
          (RepeatDetect.step jsonText hashPrefix w.repeats (.remove id)) :=
        RepeatDetect.step_counts w.repeats (.remove id) h.counts
      exact ⟨h.recorded, hcounts⟩
  | lose id => exact ⟨h.recorded.set id rfl, h.counts⟩
  | malform id => exact ⟨h.recorded.set id rfl, h.counts⟩

theorem run_kept (events : List Event) :
    Kept hashPrefix (runFrom (step jsonText hashPrefix) start events) :=
  inv_of_run (Kept hashPrefix) Kept.step ⟨fun _ => rfl, RepeatDetect.start_counts⟩ events

/-! ## What the agent is told -/

/-- What a Stop of the session tells, where its record is the last reminder. -/
theorem emitOnce_of_recorded {w : World} (h : Recorded hashPrefix w.records w.last)
    {id reminder : String} {io : Io} (hid : isValidShortName id = true)
    (hread : io.readFailed = false) :
    (emitOnce hashPrefix w.records (some id) reminder io).1 =
      if (w.last id).map hashPrefix = some (hashPrefix reminder) then "" else reminder := by
  have hstate : stateId (some id) = some id := stateId_eq_some.mpr ⟨rfl, hid⟩
  simp only [emitOnce, hstate, loadLast_of_recorded h id hread]
  by_cases hr : reminder = ""
  · simp [hr]
  · simp only [hr, if_false]
    split <;> rfl

/-- The event does not re-arm the session: its Stops have the reminder `r`, no prompt comes and
the record is not lost. -/
def Quiet (id r : String) : Event → Prop
  | .stop stop => isHookContinuation stop.payload = true ∨
      stop.io.stale id = false ∧ (stop.sessionId = some id → stop.reminder = r)
  | .prompt sessionId _ => sessionId ≠ some id
  | .lose other | .malform other => other ≠ id
  | _ => True

theorem save_keeps {records : Records} {id other hash : String} {io : Io} {record : Record}
    (hrecord : records id = record) (hstale : io.stale id = false) (hother : other ≠ id) :
    save records other hash io id = record := by
  unfold save
  cases io.saved <;> simp [Records.set, hstale, hother.symm, hrecord]

theorem clearLast_keeps {records : Records} {id other : String} {io : Io} {record : Record}
    (hrecord : records id = record) (hother : other ≠ id) :
    clearLast records other io id = record := by
  unfold clearLast
  cases io.removed <;> simp [Records.set, hother.symm, hrecord]

/-- A Stop of the session with the reminder that its record has keeps the record, whether the
record could be read or not. -/
theorem emitOnce_keeps_self {records : Records} {id r : String} {io : Io}
    (hrecord : records id = .stored (hashPrefix r)) (hr : r ≠ "") (hstale : io.stale id = false) :
    (emitOnce hashPrefix records (some id) r io).2 id = .stored (hashPrefix r) := by
  unfold emitOnce
  cases stateId (some id) with
  | none => exact hrecord
  | some id' =>
      simp only [hr, if_false]
      split
      · exact hrecord
      · by_cases hid : id' = id
        · subst hid
          unfold save
          cases io.saved <;> simp [Records.set, hstale, hrecord]
        · exact save_keeps hrecord hstale hid

theorem emitOnce_keeps_other {records : Records} {id r : String} {sessionId : Option String}
    {reminder : String} {io : Io} (hrecord : records id = .stored (hashPrefix r))
    (hstale : io.stale id = false) (hother : sessionId ≠ some id) :
    (emitOnce hashPrefix records sessionId reminder io).2 id = .stored (hashPrefix r) := by
  unfold emitOnce
  cases hstate : stateId sessionId with
  | none => exact hrecord
  | some other =>
      have hne : other ≠ id := by
        rintro rfl
        exact hother (stateId_eq_some.mp hstate).1
      by_cases hreminder : reminder = ""
      · simpa [hreminder] using clearLast_keeps hrecord hne
      · simp only [hreminder, if_false]
        split
        · exact hrecord
        · exact save_keeps hrecord hstale hne

theorem quiet_step {id r : String} (hr : r ≠ "") (w : World) (event : Event)
    (h : w.records id = .stored (hashPrefix r)) (hquiet : Quiet id r event) :
    (step jsonText hashPrefix w event).records id = .stored (hashPrefix r) := by
  cases event with
  | stop stop =>
      simp only [step, stepStop, resolveStopReminder]
      cases hcause : isHookContinuation stop.payload with
      | true => simpa using h
      | false =>
          rcases hquiet with hcontinues | ⟨hstale, hsame⟩
          · exact absurd (hcause.symm.trans hcontinues) (by simp)
          · have hkeep : (emitOnce hashPrefix w.records stop.sessionId stop.reminder stop.io).2 id =
                .stored (hashPrefix r) := by
              by_cases hsession : stop.sessionId = some id
              · rw [hsession, hsame hsession]
                exact emitOnce_keeps_self h hr hstale
              · exact emitOnce_keeps_other h hstale hsession
            cases stop.repeatDetect <;> simpa using hkeep
  | prompt sessionId io =>
      simp only [step, forget]
      cases hstate : stateId sessionId with
      | none => exact h
      | some other =>
          refine clearLast_keeps h ?_
          rintro rfl
          exact hquiet (stateId_eq_some.mp hstate).1
  | toolUse payload sessionId threshold io => exact h
  | compact other => exact h
  | lose other => simpa [step, Records.set, Ne.symm hquiet] using h
  | malform other => simpa [step, Records.set, Ne.symm hquiet] using h

/-- After a Stop that was recorded, the record of its session is the hash of its reminder. -/
theorem recorded_of_stop (w : World) {stop : Stop} {id : String}
    (hcause : isHookContinuation stop.payload = false) (hsession : stop.sessionId = some id)
    (hid : isValidShortName id = true) (hreminder : stop.reminder ≠ "")
    (hsaved : stop.io.saved = true) :
    (stepStop jsonText hashPrefix w stop).records id = .stored (hashPrefix stop.reminder) := by
  have hstate : stateId (some id) = some id := stateId_eq_some.mpr ⟨rfl, hid⟩
  have hemit : (emitOnce hashPrefix w.records (some id) stop.reminder stop.io).2 id =
      .stored (hashPrefix stop.reminder) := by
    simp only [emitOnce, hstate, hreminder, if_false]
    split
    · next hsame =>
        unfold loadLast at hsame
        cases hrecord : w.records id <;> simp_all
    · simp [save, hsaved, Records.set]
  simp only [stepStop, resolveStopReminder, hcause, hsession, Bool.false_eq_true, if_false]
  cases stop.repeatDetect <;> simpa using hemit

/-- A reminder that stays the same is told once: after a Stop with it, whatever the other sessions
do and however many Stops follow, the next one tells nothing until the session is re-armed. -/
theorem silent_of_run (events after : List Event) (stop next : Stop) (id : String)
    (hcause : isHookContinuation stop.payload = false) (hsession : stop.sessionId = some id)
    (hid : isValidShortName id = true) (hreminder : stop.reminder ≠ "")
    (hsaved : stop.io.saved = true) (hquiet : ∀ e ∈ after, Quiet id stop.reminder e)
    (hnext : next.sessionId = some id) (hsame : next.reminder = stop.reminder)
    (hread : next.io.readFailed = false) :
    let w := runFrom (step jsonText hashPrefix) start (events ++ .stop stop :: after)
    (resolveStopReminder hashPrefix w.records w.repeats.files next).1 = "" := by
  intro w
  have hrecord : w.records id = .stored (hashPrefix stop.reminder) := by
    have hw : w = runFrom (step jsonText hashPrefix)
        (stepStop jsonText hashPrefix (runFrom (step jsonText hashPrefix) start events) stop)
        after :=
      runFrom_append (step jsonText hashPrefix) start events (.stop stop :: after)
    rw [hw]
    exact inv_of_guarded (fun w : World => w.records id = .stored (hashPrefix stop.reminder))
      (quiet_step hreminder) (recorded_of_stop _ hcause hsession hid hreminder hsaved)
      (guarded_of_forall hquiet)
  have hstate : stateId (some id) = some id := stateId_eq_some.mpr ⟨rfl, hid⟩
  have hload : loadLast w.records id next.io = some (hashPrefix next.reminder) := by
    simp [loadLast, hread, hrecord, hsame]
  have hemit : (emitOnce hashPrefix w.records next.sessionId next.reminder next.io).1 = "" := by
    rw [hnext]
    simp [emitOnce, hstate, hload, hsame, hreminder]
  unfold resolveStopReminder
  cases isHookContinuation next.payload with
  | true => rfl
  | false => cases next.repeatDetect <;> simp [hemit, RepeatDetect.handleStop]

end Runs

/-- Two turns with one reminder, and another session in between. -/
theorem silent_of_run_two_turns :
    let stop (id : String) : Stop := ⟨.obj [], some id, "finish the task", true, 3,
      ⟨false, true, true, fun _ => false⟩, ⟨false, true, fun _ => false⟩⟩
    let w := runFrom (step (fun _ => "null") (fun text => text)) start
      ([] ++ .stop (stop "one") :: [.stop (stop "two"), .prompt (some "two") (stop "two").io])
    (resolveStopReminder (fun text => text) w.records w.repeats.files (stop "one")).1 = "" :=
  silent_of_run [] _ _ _ "one" (by decide) rfl (by decide) (by decide) rfl
    (by simp [Quiet]) rfl rfl rfl

end Llmenv.HookRun.StopReminder
