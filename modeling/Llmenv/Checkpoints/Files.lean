/-
# `Llmenv.Checkpoints.Files` — the checkpoint of a detached job

`src/hook_run/checkpoint.rs`.  The parent of a background job writes a file
before it spawns the job, the job deletes it on success, and a file that is
still there after the deadline of its job is unfinished work that a later
`SessionStart` runs again.

A folder holds one file per name, and a file is the checkpoint in it with the
time of its last write.  The JSON library and SHA-256 are not part of the
repository: `Codec` has the four things the code takes from them.
-/
import Mathlib.Data.List.Sort
import Mathlib.Data.String.Basic
import Llmenv.Lib.Keyed

namespace Llmenv.Checkpoints

open Llmenv.Lib

/-- Runs of one job before it stays for doctor.  The first run counts. -/
def maxAttempts : Nat := 3

def pruneDays : Nat := 7

def maxInputBytes : Nat := 64 * 1024

def maxCheckpointBytes : Nat := 2 * maxInputBytes

def deadlineMarginSecs : Nat := 60

/-- Jobs one `SessionStart` runs again. -/
def maxResumedPerStart : Nat := 20

inductive JobKind where
  | consolidation
  | icmStore
  | sessionLogRecord
  | cbmIndex
deriving DecidableEq

namespace JobKind

def asStr : JobKind → String
  | consolidation => "consolidation"
  | icmStore => "icm-store"
  | sessionLogRecord => "session-log-record"
  | cbmIndex => "cbm-index"

/-- The index job is started by every `SessionStart` itself. -/
def resumable (kind : JobKind) : Bool := decide (kind ≠ cbmIndex)

/-- Seconds a healthy job can run. -/
def deadlineSecs (kind : JobKind) : Nat :=
  let longest :=
    match kind with
    | consolidation => 120 + 30
    | icmStore => 5
    | sessionLogRecord => 5
    | cbmIndex => 1800
  longest + deadlineMarginSecs

end JobKind

/-- Everything a job needs to run again. -/
structure Checkpoint (V : Type) where
  kind : JobKind
  key : String
  phase : String
  inputs : V
  startedAt : Nat
  attempts : Nat
  sessionId : Option String
  cwd : Option String
deriving DecidableEq

/-- What the code takes from `serde_json` and SHA-256, over the type `V` of
JSON values. -/
structure Codec (V : Type) where
  /-- `Value::to_string`. -/
  valueText : V → String
  /-- `value["summary"] = json!(summary)`. -/
  setSummary : V → String → V
  /-- The first 16 hex characters of the digest of a text. -/
  hashPrefix : String → String
  /-- The bytes of `serde_json::to_vec(checkpoint)`. -/
  fileBytes : Checkpoint V → Nat

variable {V : Type}

/-- One file of the folder, with the time of its last write. -/
structure File (V : Type) where
  name : String
  checkpoint : Checkpoint V
  stamp : Nat
deriving DecidableEq

/-- `state_dir/checkpoints`. -/
abbrev Folder (V : Type) := Keyed (File.name (V := V))

def keyFor (E : Codec V) (kind : JobKind) (inputs : V) : String :=
  E.hashPrefix (kind.asStr ++ "\n" ++ E.valueText inputs)

namespace Checkpoint

/-- A new checkpoint at attempt 1.  The working directory is the one of the
process, when it has one. -/
def new (E : Codec V) (kind : JobKind) (inputs : V) (sessionId cwd : Option String)
    (now : Nat) : Checkpoint V where
  kind := kind
  key := keyFor E kind inputs
  phase := "started"
  inputs := inputs
  startedAt := now
  attempts := 1
  sessionId := sessionId
  cwd := cwd

/-- The job has run past its deadline (the subtraction saturates). -/
def isStale (c : Checkpoint V) (now : Nat) : Bool :=
  decide (c.kind.deadlineSecs < now - c.startedAt)

def fileName (c : Checkpoint V) : String := c.kind.asStr ++ "-" ++ c.key ++ ".json"

/-- What `restart` saves. -/
def bumped (c : Checkpoint V) (now : Nat) : Checkpoint V :=
  { c with attempts := c.attempts + 1, startedAt := now }

/-- The change of `note_phase`, the one caller of `update`. -/
def notePhase (E : Codec V) (c : Checkpoint V) (phase : String) (summary : Option String) :
    Checkpoint V :=
  { c with
    phase := phase
    inputs := match summary with
      | some text => E.setSummary c.inputs text
      | none => c.inputs }

end Checkpoint

/-! ## Reading and writing one file -/

inductive LoadError where
  | notFound
  | tooLarge
deriving DecidableEq

def save (d : Folder V) (name : String) (c : Checkpoint V) (now : Nat) : Folder V :=
  d.put ⟨name, c, now⟩

/-- A write is atomic and writes JSON that parses, so a load fails only on a
missing file and on one above the cap. -/
def load (E : Codec V) (d : Folder V) (name : String) : Except LoadError (Checkpoint V) :=
  match d.find? name with
  | none => .error .notFound
  | some f =>
      if maxCheckpointBytes < E.fileBytes f.checkpoint then .error .tooLarge
      else .ok f.checkpoint

/-- A missing file is not an error. -/
def complete (d : Folder V) (name : String) : Folder V := d.erase name

/-- The folder and the name of the file, when the inputs are not too large. -/
def write (E : Codec V) (d : Folder V) (c : Checkpoint V) (now : Nat) :
    Folder V × Option String :=
  if maxInputBytes < (E.valueText c.inputs).utf8ByteSize then (d, none)
  else (save d c.fileName c now, some c.fileName)

/-- The checkpoint that `begin` writes.  The index job counts its attempts
across the checkpoints that every session start rewrites. -/
def beginCheckpoint (E : Codec V) (d : Folder V) (kind : JobKind) (inputs : V)
    (sessionId cwd : Option String) (now : Nat) : Checkpoint V :=
  let checkpoint := Checkpoint.new E kind inputs sessionId cwd now
  if kind = .cbmIndex then
    match load E d checkpoint.fileName with
    | .ok earlier => { checkpoint with attempts := min (earlier.attempts + 1) maxAttempts }
    | .error _ => checkpoint
  else checkpoint

/-- `begin` with a state directory. -/
def beginJob (E : Codec V) (d : Folder V) (kind : JobKind) (inputs : V)
    (sessionId cwd : Option String) (now : Nat) : Folder V × Option String :=
  write E d (beginCheckpoint E d kind inputs sessionId cwd now) now

/-- `prune_stale_json_files` at one file: a file exactly at the limit stays. -/
def pruneFile (d : Folder V) (name : String) (now : Nat) : Folder V :=
  match d.find? name with
  | some f => if pruneDays * 86400 < now - f.stamp then d.erase name else d
  | none => d

/-! ## What `resume_pending` does with one entry -/

/-- The answer of `std::fs::metadata` for a working directory. -/
inductive Metadata where
  | dir
  | notDir
  | notFound
  | notADirectory
  | otherError
deriving DecidableEq

/-- Why a checkpoint can never run again. -/
def unrunnableReason (c : Checkpoint V) (answer : Metadata) : Option String :=
  match c.cwd with
  | none => some "it has no recorded working directory"
  | some cwd =>
      match answer with
      | .dir => none
      | .notDir => some ("its working directory " ++ cwd ++ " is not a directory")
      | .notFound => some ("its working directory " ++ cwd ++ " is gone")
      | .notADirectory =>
          some ("a parent of its working directory " ++ cwd ++ " is not a directory")
      | .otherError => none

inductive Verdict where
  /-- Not resumable, or its child may still be running. -/
  | skip
  /-- It can never run again, and is deleted. -/
  | drop (reason : String)
  /-- It stays for doctor. -/
  | gaveUp
  /-- Enough jobs were started: the loop ends. -/
  | full
  | restart
deriving DecidableEq

/-- The checks of the loop body, in their order. -/
def verdict (c : Checkpoint V) (answer : Metadata) (now resumed : Nat) : Verdict :=
  if !c.kind.resumable || !c.isStale now then .skip
  else
    match unrunnableReason c answer with
    | some reason => .drop reason
    | none =>
        if maxAttempts ≤ c.attempts then .gaveUp
        else if maxResumedPerStart ≤ resumed then .full
        else .restart

theorem attempts_lt_of_restart {c : Checkpoint V} {answer : Metadata} {now resumed : Nat}
    (h : verdict c answer now resumed = .restart) : c.attempts < maxAttempts := by
  simp only [verdict] at h
  split at h
  · exact absurd h (by simp)
  · split at h
    · exact absurd h (by simp)
    · split at h
      · exact absurd h (by simp)
      · rename_i hlt
        exact Nat.lt_of_not_le hlt

/-! ## The attempts that a file records -/

/-- The attempts recorded under a name. -/
def attemptsOf (d : Folder V) (name : String) : Option Nat :=
  (d.find? name).map (fun f => f.checkpoint.attempts)

theorem attemptsOf_save (d : Folder V) (name : String) (c : Checkpoint V) (now : Nat)
    (p : String) :
    attemptsOf (save d name c now) p = if name = p then some c.attempts else attemptsOf d p := by
  simp only [attemptsOf, save, Keyed.find?_put]
  split <;> rfl

theorem attemptsOf_complete (d : Folder V) (name p : String) :
    attemptsOf (complete d name) p = if p = name then none else attemptsOf d p := by
  simp only [attemptsOf, complete, Keyed.find?_erase]
  split <;> rfl

theorem attemptsOf_pruneFile (d : Folder V) (name : String) (now : Nat) (p : String) :
    attemptsOf (pruneFile d name now) p = attemptsOf d p ∨
      attemptsOf (pruneFile d name now) p = none := by
  simp only [pruneFile]
  split
  · split
    · simp only [attemptsOf, Keyed.find?_erase]
      split
      · exact Or.inr rfl
      · exact Or.inl rfl
    · exact Or.inl rfl
  · exact Or.inl rfl

theorem fileName_beginCheckpoint (E : Codec V) (d : Folder V) (kind : JobKind) (inputs : V)
    (sessionId cwd : Option String) (now : Nat) :
    (beginCheckpoint E d kind inputs sessionId cwd now).fileName =
      (Checkpoint.new E kind inputs sessionId cwd now).fileName := by
  simp only [beginCheckpoint]
  split
  · split <;> rfl
  · rfl

theorem attemptsOf_load {E : Codec V} {d : Folder V} {name : String} {c : Checkpoint V}
    (h : load E d name = .ok c) : attemptsOf d name = some c.attempts := by
  simp only [load] at h
  split at h
  · exact absurd h (by simp)
  · rename_i f hf
    split at h
    · exact absurd h (by simp)
    · obtain rfl := Except.ok.inj h
      simp [attemptsOf, hf]

end Llmenv.Checkpoints
