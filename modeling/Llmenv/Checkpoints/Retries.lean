/-
# `Llmenv.Checkpoints.Retries` — how often is a background job run again?

`resume_pending` of `src/hook_run/checkpoint.rs`, one run at a time under its
lock, beside the children of the jobs.  A resume run reads the folder, loads
the files one by one, and then works on the COPIES it loaded; a child changes
its checkpoint by a load and a later save; `complete` deletes the file.  Only
resume runs take the lock, so between the load and the save of one process
every other process may take its steps.

A save writes the attempts of the copy.  `retries_bounded` is the bound on the
retries, and the end of a completed job, for every run in which no save comes
from a copy that another process has overtaken.
-/
import Llmenv.Lib.Runs
import Llmenv.Checkpoints.Files

namespace Llmenv.Checkpoints

open Llmenv.Lib

/-- The holder of the resume lock. -/
inductive Resume (V : Type) where
  /-- `list`: the names still to load, and the entries so far. -/
  | listing (now : Nat) (todo : List String) (found : List (String × Checkpoint V))
  /-- The loop over the entries, with the number of jobs started. -/
  | working (now : Nat) (entries : List (String × Checkpoint V)) (resumed : Nat)

/-- Where a child is. -/
inductive ChildState (V : Type) where
  | running
  /-- Inside `update`, after the load. -/
  | updating (copy : Checkpoint V)
  | finished
deriving DecidableEq

structure Child (V : Type) where
  path : String
  state : ChildState V
deriving DecidableEq

/-- The system: a clock in seconds, the folder, the resume run under way, the
children in the order in which they were spawned, and the log of what resume
runs handed to `spawn`. -/
structure Jobs (V : Type) where
  clock : Nat
  folder : Folder V
  resume : Option (Resume V)
  children : List (Child V)
  handed : List String

inductive Step (V : Type) where
  /-- Time passes. -/
  | tick (secs : Nat)
  /-- A parent calls `begin` and spawns the job. -/
  | beginJob (kind : JobKind) (inputs : V) (sessionId cwd : Option String) (spawned : Bool)
  | prune (name : String)
  /-- Take the lock and read the folder. -/
  | resumeLock
  /-- Load the next name. -/
  | resumeLoad
  /-- Treat the next entry, or release the lock after the last one. -/
  | resumeNext (answer : Metadata) (spawned : Bool)
  | childLoad (i : Nat)
  | childSave (i : Nat) (phase : String) (summary : Option String)
  | childComplete (i : Nat)

variable {V : Type}

namespace Jobs

def empty : Jobs V := ⟨0, Keyed.empty, none, [], []⟩

/-- Start a child for the file `path`. -/
def spawn (s : Jobs V) (path : String) (spawned : Bool) : Jobs V :=
  if spawned then { s with children := s.children ++ [⟨path, .running⟩] } else s

/-- Move one child. -/
def setChild (s : Jobs V) (i : Nat) (path : String) (state : ChildState V) : Jobs V :=
  { s with children := s.children.set i ⟨path, state⟩ }

/-- Save the bumped checkpoint and hand it to `spawn`.  Nothing is read between
the two, so they are one step.  A failed start keeps the bumped count. -/
def restart (s : Jobs V) (path : String) (c : Checkpoint V) (now : Nat) (spawned : Bool) :
    Jobs V :=
  ({ s with
      folder := save s.folder path (c.bumped now) s.clock
      handed := s.handed ++ [path] }).spawn path spawned

/-- The body of the loop for one entry. -/
def resumeEntry (s : Jobs V) (now : Nat) (path : String) (c : Checkpoint V)
    (rest : List (String × Checkpoint V)) (resumed : Nat) (answer : Metadata) (spawned : Bool) :
    Jobs V :=
  match verdict c answer now resumed with
  | .skip => { s with resume := some (.working now rest resumed) }
  | .gaveUp => { s with resume := some (.working now rest resumed) }
  | .drop _ =>
      { s with folder := complete s.folder path, resume := some (.working now rest resumed) }
  | .full => { s with resume := none }
  | .restart =>
      { s.restart path c now spawned with
        resume := some (.working now rest (if spawned then resumed + 1 else resumed)) }

end Jobs

/-- One step of the system.  A step that its process cannot take changes
nothing. -/
def step (E : Codec V) (s : Jobs V) : Step V → Jobs V
  | .tick secs => { s with clock := s.clock + secs }
  | .beginJob kind inputs sessionId cwd spawned =>
      match beginJob E s.folder kind inputs sessionId cwd s.clock with
      | (folder, some path) => { s with folder := folder }.spawn path spawned
      | (_, none) => s
  | .prune name => { s with folder := pruneFile s.folder name s.clock }
  | .resumeLock =>
      match s.resume with
      | none =>
          { s with
            resume := some (.listing s.clock
              ((s.folder.items.map File.name).insertionSort (· ≤ ·)) []) }
      | some _ => s
  | .resumeLoad =>
      match s.resume with
      | some (.listing now [] found) => { s with resume := some (.working now found 0) }
      | some (.listing now (name :: todo) found) =>
          match load E s.folder name with
          | .ok c => { s with resume := some (.listing now todo (found ++ [(name, c)])) }
          -- An unreadable entry is for doctor: the loop passes over it.
          | .error _ => { s with resume := some (.listing now todo found) }
      | _ => s
  | .resumeNext answer spawned =>
      match s.resume with
      | some (.working _ [] _) => { s with resume := none }
      | some (.working now ((path, c) :: rest) resumed) =>
          s.resumeEntry now path c rest resumed answer spawned
      | _ => s
  | .childLoad i =>
      match s.children[i]? with
      | some ⟨path, .running⟩ =>
          match load E s.folder path with
          | .ok c => s.setChild i path (.updating c)
          | .error _ => s
      | _ => s
  | .childSave i phase summary =>
      match s.children[i]? with
      | some ⟨path, .updating c⟩ =>
          { s.setChild i path .running with
            folder := save s.folder path (c.notePhase E phase summary) s.clock }
      | _ => s
  | .childComplete i =>
      match s.children[i]? with
      | some ⟨path, .running⟩ =>
          { s.setChild i path .finished with folder := complete s.folder path }
      | _ => s

/-! ## One step at one file -/

/-- The attempts recorded for `p`. -/
def Jobs.attempts (s : Jobs V) (p : String) : Option Nat := attemptsOf s.folder p

/-- How often `p` was handed to `spawn`. -/
def Jobs.retries (s : Jobs V) (p : String) : Nat := s.handed.count p

/-- The file of `p` is still there, with no more attempts than the copy. -/
def Jobs.Current (s : Jobs V) (p : String) (copy : Checkpoint V) : Prop :=
  ∃ n ∈ s.attempts p, n ≤ copy.attempts

/-- The copy that the step saves under `p`, before it bumps or changes it. -/
def Jobs.copySaved (s : Jobs V) (p : String) : Step V → Option (Checkpoint V)
  | .resumeNext answer _ =>
      match s.resume with
      | some (.working now ((path, c) :: _) resumed) =>
          if path = p ∧ verdict c answer now resumed = .restart then some c else none
      | _ => none
  | .childSave i _ _ =>
      match s.children[i]? with
      | some ⟨path, .updating c⟩ => if path = p then some c else none
      | _ => none
  | _ => none

/-- A save of `p` is from a copy that no other process has overtaken. -/
def FreshSave (p : String) (s : Jobs V) (i : Step V) : Prop :=
  ∀ c ∈ s.copySaved p i, s.Current p c

/-- The step is a `begin` of the job `p`. -/
def Step.Begins (E : Codec V) (p : String) : Step V → Prop
  | .beginJob kind inputs sessionId cwd _ =>
      (Checkpoint.new E kind inputs sessionId cwd 0).fileName = p
  | _ => False

/-- What a step that does not begin `p` can do to the attempts and the retries
of `p`. -/
inductive Change : Option Nat → Nat → Option Nat → Nat → Prop
  | keep (a : Option Nat) (k : Nat) : Change a k a k
  | remove (a : Option Nat) (k : Nat) : Change a k none k
  | rewrite {n m : Nat} (k : Nat) : n ≤ m → Change (some n) k (some m) k
  | retry {n m : Nat} (k : Nat) : n ≤ m → m < maxAttempts →
      Change (some n) k (some (m + 1)) (k + 1)

namespace Jobs

@[simp] theorem attempts_spawn (s : Jobs V) (path : String) (spawned : Bool) (p : String) :
    (s.spawn path spawned).attempts p = s.attempts p := by
  cases spawned <;> rfl

@[simp] theorem retries_spawn (s : Jobs V) (path : String) (spawned : Bool) (p : String) :
    (s.spawn path spawned).retries p = s.retries p := by
  cases spawned <;> rfl

theorem attempts_restart (s : Jobs V) (path : String) (c : Checkpoint V) (now : Nat)
    (spawned : Bool) (p : String) :
    (s.restart path c now spawned).attempts p =
      if path = p then some (c.attempts + 1) else s.attempts p := by
  rw [restart, attempts_spawn]
  exact attemptsOf_save s.folder path (c.bumped now) s.clock p

theorem retries_restart (s : Jobs V) (path : String) (c : Checkpoint V) (now : Nat)
    (spawned : Bool) (p : String) :
    (s.restart path c now spawned).retries p =
      if path = p then s.retries p + 1 else s.retries p := by
  rw [restart, retries_spawn]
  show (s.handed ++ [path]).count p = _
  rw [List.count_append, List.count_singleton]
  by_cases h : path = p
  · simp [h, retries]
  · simp [h, retries]

/-- A deleted file, whoever deletes it. -/
theorem change_complete {s t : Jobs V} (name : String) {p : String}
    (hfolder : t.folder = complete s.folder name) (hhanded : t.handed = s.handed) :
    Change (s.attempts p) (s.retries p) (t.attempts p) (t.retries p) := by
  have hattempts : t.attempts p = if p = name then none else s.attempts p := by
    rw [attempts, hfolder]
    exact attemptsOf_complete s.folder name p
  have hretries : t.retries p = s.retries p := by
    rw [retries, hhanded]
    rfl
  rw [hattempts, hretries]
  split
  · exact .remove _ _
  · exact .keep _ _

end Jobs

theorem change_resumeEntry {s : Jobs V} {now resumed : Nat} {path : String} {c : Checkpoint V}
    {rest : List (String × Checkpoint V)} {answer : Metadata} {spawned : Bool} {p : String}
    (hfresh : path = p → verdict c answer now resumed = .restart → s.Current p c) :
    Change (s.attempts p) (s.retries p)
      ((s.resumeEntry now path c rest resumed answer spawned).attempts p)
      ((s.resumeEntry now path c rest resumed answer spawned).retries p) := by
  simp only [Jobs.resumeEntry]
  cases hv : verdict c answer now resumed with
  | skip => exact .keep _ _
  | drop reason => exact Jobs.change_complete path rfl rfl
  | gaveUp => exact .keep _ _
  | full => exact .keep _ _
  | restart =>
      show Change _ _ ((s.restart path c now spawned).attempts p)
        ((s.restart path c now spawned).retries p)
      rw [Jobs.attempts_restart, Jobs.retries_restart]
      by_cases hp : path = p
      · obtain ⟨n, hn, hle⟩ := hfresh hp hv
        rw [if_pos hp, if_pos hp, hn]
        exact .retry _ hle (attempts_lt_of_restart hv)
      · rw [if_neg hp, if_neg hp]
        exact .keep _ _

theorem attempts_beginJob {E : Codec V} {d : Folder V} {kind : JobKind} {inputs : V}
    {sessionId cwd : Option String} {now : Nat} {p : String}
    (h : (Checkpoint.new E kind inputs sessionId cwd 0).fileName ≠ p) :
    attemptsOf (beginJob E d kind inputs sessionId cwd now).1 p = attemptsOf d p := by
  simp only [beginJob, write]
  split
  · rfl
  · rw [attemptsOf_save, fileName_beginCheckpoint]
    exact if_neg h

/-- Every step: a file is left alone, removed, rewritten from a copy, or
restarted. -/
theorem step_change {E : Codec V} {s : Jobs V} {i : Step V} {p : String}
    (hfresh : FreshSave p s i) (hbegin : ¬ i.Begins E p) :
    Change (s.attempts p) (s.retries p) ((step E s i).attempts p) ((step E s i).retries p) := by
  cases i with
  | tick secs => exact .keep _ _
  | beginJob kind inputs sessionId cwd spawned =>
      simp only [step]
      split
      · rename_i folder path heq
        rw [Jobs.attempts_spawn, Jobs.retries_spawn]
        have hfolder : folder = (beginJob E s.folder kind inputs sessionId cwd s.clock).1 := by
          rw [heq]
        show Change _ _ (attemptsOf folder p) (s.retries p)
        rw [hfolder, attempts_beginJob hbegin]
        exact .keep _ _
      · exact .keep _ _
  | prune name =>
      show Change _ _ (attemptsOf (pruneFile s.folder name s.clock) p) (s.retries p)
      rcases attemptsOf_pruneFile s.folder name s.clock p with h | h
      · rw [h]
        exact .keep _ _
      · rw [h]
        exact .remove _ _
  | resumeLock =>
      simp only [step]
      split <;> exact .keep _ _
  | resumeLoad =>
      simp only [step]
      split
      · exact .keep _ _
      · split <;> exact .keep _ _
      · exact .keep _ _
  | resumeNext answer spawned =>
      simp only [step]
      split
      · exact .keep _ _
      · rename_i now path c rest resumed hresume
        refine change_resumeEntry (fun hp hv => hfresh c ?_)
        simp only [Jobs.copySaved, hresume, if_pos (And.intro hp hv), Option.mem_def]
      · exact .keep _ _
  | childLoad i =>
      simp only [step]
      split
      · split <;> exact .keep _ _
      · exact .keep _ _
  | childSave i phase summary =>
      simp only [step]
      split
      · rename_i path c hchild
        show Change _ _ (attemptsOf (save s.folder path (c.notePhase E phase summary) s.clock) p)
          (s.retries p)
        rw [attemptsOf_save]
        by_cases hp : path = p
        · obtain ⟨n, hn, hle⟩ := hfresh c
            (by simp only [Jobs.copySaved, hchild, if_pos hp, Option.mem_def])
          rw [if_pos hp, hn]
          exact .rewrite _ hle
        · rw [if_neg hp]
          exact .keep _ _
      · exact .keep _ _
  | childComplete i =>
      simp only [step]
      split
      · exact Jobs.change_complete _ rfl rfl
      · exact .keep _ _

/-! ## Every count is at least one -/

/-- The copies that a resume run holds. -/
def Resume.copies : Resume V → List (Checkpoint V)
  | .listing _ _ found => found.map Prod.snd
  | .working _ entries _ => entries.map Prod.snd

def ChildState.copies : ChildState V → List (Checkpoint V)
  | .updating c => [c]
  | _ => []

/-- Every recorded and every loaded attempt count is at least 1. -/
structure Counted (s : Jobs V) : Prop where
  files : ∀ p n, s.attempts p = some n → 1 ≤ n
  resumed : ∀ r, s.resume = some r → ∀ c ∈ r.copies, 1 ≤ c.attempts
  children : ∀ child ∈ s.children, ∀ c ∈ child.state.copies, 1 ≤ c.attempts

theorem attempts_beginCheckpoint (E : Codec V) (d : Folder V) (kind : JobKind) (inputs : V)
    (sessionId cwd : Option String) (now : Nat) :
    1 ≤ (beginCheckpoint E d kind inputs sessionId cwd now).attempts := by
  simp only [beginCheckpoint]
  split
  · split
    · exact Nat.le_min.mpr ⟨Nat.le_add_left 1 _, by decide⟩
    · exact Nat.le_refl 1
  · exact Nat.le_refl 1

/-- A save of a counted copy. -/
theorem counted_save {d : Folder V} (hd : ∀ p n, attemptsOf d p = some n → 1 ≤ n)
    {name : String} {c : Checkpoint V} (hc : 1 ≤ c.attempts) (now : Nat) :
    ∀ p n, attemptsOf (save d name c now) p = some n → 1 ≤ n := by
  intro p n hn
  rw [attemptsOf_save] at hn
  split at hn
  · exact Option.some.inj hn ▸ hc
  · exact hd p n hn

theorem counted_complete {d : Folder V} (hd : ∀ p n, attemptsOf d p = some n → 1 ≤ n)
    (name : String) : ∀ p n, attemptsOf (complete d name) p = some n → 1 ≤ n := by
  intro p n hn
  rw [attemptsOf_complete] at hn
  split at hn
  · exact absurd hn (by simp)
  · exact hd p n hn

theorem counted_pruneFile {d : Folder V} (hd : ∀ p n, attemptsOf d p = some n → 1 ≤ n)
    (name : String) (now : Nat) : ∀ p n, attemptsOf (pruneFile d name now) p = some n → 1 ≤ n := by
  intro p n hn
  rcases attemptsOf_pruneFile d name now p with h | h
  · exact hd p n (h ▸ hn)
  · exact absurd (h.symm.trans hn) (by simp)

/-- A `begin` writes a first attempt, or the attempts of a job it takes up. -/
theorem counted_beginJob {E : Codec V} {d : Folder V}
    (hd : ∀ p n, attemptsOf d p = some n → 1 ≤ n) (kind : JobKind) (inputs : V)
    (sessionId cwd : Option String) (now : Nat) :
    ∀ p n, attemptsOf (beginJob E d kind inputs sessionId cwd now).1 p = some n → 1 ≤ n := by
  simp only [beginJob, write]
  split
  · exact hd
  · exact counted_save hd (attempts_beginCheckpoint E d kind inputs sessionId cwd now) now

namespace Counted

variable {s : Jobs V}

/-- Other files, with counts of their own. -/
theorem withFolder (h : Counted s) {d : Folder V}
    (hd : ∀ p n, attemptsOf d p = some n → 1 ≤ n) : Counted { s with folder := d } :=
  ⟨hd, h.resumed, h.children⟩

theorem withResume (h : Counted s) {r : Resume V} (hr : ∀ c ∈ r.copies, 1 ≤ c.attempts) :
    Counted { s with resume := some r } :=
  ⟨h.files, fun _ heq => Option.some.inj heq ▸ hr, h.children⟩

theorem released (h : Counted s) : Counted { s with resume := none } :=
  ⟨h.files, fun _ heq => absurd heq (by simp), h.children⟩

theorem spawn (h : Counted s) (path : String) (spawned : Bool) :
    Counted (s.spawn path spawned) := by
  cases spawned with
  | false => exact h
  | true =>
      refine ⟨h.files, h.resumed, fun child hchild c hc => ?_⟩
      rcases List.mem_append.mp hchild with hold | hnew
      · exact h.children child hold c hc
      · obtain rfl := List.mem_singleton.mp hnew
        exact absurd hc (by simp [ChildState.copies])

theorem setChild (h : Counted s) (i : Nat) (path : String) {state : ChildState V}
    (hstate : ∀ c ∈ state.copies, 1 ≤ c.attempts) : Counted (s.setChild i path state) := by
  refine ⟨h.files, h.resumed, fun child hchild c hc => ?_⟩
  rcases List.mem_or_eq_of_mem_set hchild with hold | rfl
  · exact h.children child hold c hc
  · exact hstate c hc

theorem resumeEntry (h : Counted s) {now resumed : Nat} {path : String} {c : Checkpoint V}
    {rest : List (String × Checkpoint V)}
    (hresume : s.resume = some (.working now ((path, c) :: rest) resumed)) (answer : Metadata)
    (spawned : Bool) : Counted (s.resumeEntry now path c rest resumed answer spawned) := by
  have hall := h.resumed _ hresume
  have hc : 1 ≤ c.attempts := hall c (by simp [Resume.copies])
  have hrest : ∀ k, ∀ c' ∈ (Resume.working now rest k).copies, 1 ≤ c'.attempts :=
    fun k c' hc' => hall c' (List.mem_cons_of_mem _ hc')
  simp only [Jobs.resumeEntry]
  cases verdict c answer now resumed with
  | skip => exact h.withResume (hrest resumed)
  | drop reason => exact (h.withFolder (counted_complete h.files path)).withResume (hrest resumed)
  | gaveUp => exact h.withResume (hrest resumed)
  | full => exact h.released
  | restart =>
      have hsaved : Counted { s with
          folder := save s.folder path (c.bumped now) s.clock
          handed := s.handed ++ [path] } :=
        ⟨counted_save h.files (Nat.le_add_left 1 _) _, h.resumed, h.children⟩
      exact (hsaved.spawn path spawned).withResume (hrest _)

end Counted

theorem step_counted {E : Codec V} {s : Jobs V} (h : Counted s) (i : Step V) :
    Counted (step E s i) := by
  have hload : ∀ {name : String} {c : Checkpoint V}, load E s.folder name = .ok c →
      1 ≤ c.attempts := fun hc => h.files _ _ (attemptsOf_load hc)
  cases i with
  | tick secs => exact ⟨h.files, h.resumed, h.children⟩
  | beginJob kind inputs sessionId cwd spawned =>
      simp only [step]
      split
      · rename_i folder path heq
        have hfolder := counted_beginJob (E := E) h.files kind inputs sessionId cwd s.clock
        rw [heq] at hfolder
        exact (h.withFolder hfolder).spawn path spawned
      · exact h
  | prune name => exact h.withFolder (counted_pruneFile h.files name s.clock)
  | resumeLock =>
      simp only [step]
      split
      · exact h.withResume (by simp [Resume.copies])
      · exact h
  | resumeLoad =>
      simp only [step]
      split
      · rename_i now found hresume
        exact h.withResume (h.resumed (.listing now [] found) hresume)
      · rename_i now name todo found hresume
        have hfound := h.resumed _ hresume
        split
        · rename_i c hc
          refine h.withResume (fun c' hc' => ?_)
          simp only [Resume.copies, List.map_append, List.map_cons, List.map_nil,
            List.mem_append, List.mem_singleton] at hc'
          rcases hc' with hold | rfl
          · exact hfound c' hold
          · exact hload hc
        · exact h.withResume hfound
      · exact h
  | resumeNext answer spawned =>
      simp only [step]
      split
      · exact h.released
      · rename_i hresume
        exact h.resumeEntry hresume answer spawned
      · exact h
  | childLoad i =>
      simp only [step]
      split
      · split
        · rename_i c hc
          refine h.setChild i _ (fun c' hc' => ?_)
          obtain rfl := List.mem_singleton.mp hc'
          exact hload hc
        · exact h
      · exact h
  | childSave i phase summary =>
      simp only [step]
      split
      · rename_i path c hchild
        have hc : 1 ≤ c.attempts :=
          h.children _ (List.mem_of_getElem? hchild) c (by simp [ChildState.copies])
        exact (h.setChild i path (by simp [ChildState.copies])).withFolder
          (counted_save h.files (show 1 ≤ (c.notePhase E phase summary).attempts from hc) s.clock)
      · exact h
  | childComplete i =>
      simp only [step]
      split
      · exact (h.setChild i _ (by simp [ChildState.copies])).withFolder
          (counted_complete h.files _)
      · exact h

theorem counted_empty : Counted (Jobs.empty : Jobs V) :=
  ⟨fun _ _ h => absurd h (by simp [Jobs.attempts, Jobs.empty, attemptsOf]),
    fun _ h => absurd h (by simp [Jobs.empty]), fun _ h => absurd h (by simp [Jobs.empty])⟩

/-! ## Every run -/

/-- From `n` attempts and `k` retries on: the attempts do not fall below `n`,
and each retry is paid for with an attempt. -/
structure Within (n k : Nat) (p : String) (s : Jobs V) : Prop where
  paid : ∀ m, s.attempts p = some m → n ≤ m ∧ s.retries p + n ≤ k + m
  bound : s.retries p ≤ k + (maxAttempts - n)

/-- The file is gone, and `k` retries were made. -/
structure Gone (k : Nat) (p : String) (s : Jobs V) : Prop where
  absent : s.attempts p = none
  retries : s.retries p = k

theorem step_within {E : Codec V} {n k : Nat} {p : String} {s : Jobs V} {i : Step V}
    (h : Within n k p s) (hfresh : FreshSave p s i) (hbegin : ¬ i.Begins E p) :
    Within n k p (step E s i) := by
  obtain ⟨hpaid, hbound⟩ := h
  have hchange := step_change hfresh hbegin
  constructor
  · intro m hm
    rw [hm] at hchange
    generalize s.attempts p = a at hpaid hchange
    generalize s.retries p = r at hpaid hchange
    generalize (step E s i).retries p = r' at hchange ⊢
    cases hchange with
    | keep => exact hpaid m rfl
    | rewrite _ hle =>
        have := hpaid _ rfl
        omega
    | retry _ hle _ =>
        have := hpaid _ rfl
        omega
  · generalize s.attempts p = a at hpaid hchange
    generalize s.retries p = r at hpaid hbound hchange
    generalize (step E s i).attempts p = a' at hchange
    generalize (step E s i).retries p = r' at hchange ⊢
    cases hchange with
    | keep => exact hbound
    | remove => exact hbound
    | rewrite => exact hbound
    | retry _ hle hlt =>
        have := hpaid _ rfl
        omega

theorem step_gone {E : Codec V} {k : Nat} {p : String} {s : Jobs V} {i : Step V}
    (h : Gone k p s) (hfresh : FreshSave p s i) (hbegin : ¬ i.Begins E p) :
    Gone k p (step E s i) := by
  obtain ⟨habsent, hretries⟩ := h
  have hchange := step_change hfresh hbegin
  rw [habsent, hretries] at hchange
  generalize ha : (step E s i).attempts p = a' at hchange
  generalize hr : (step E s i).retries p = r' at hchange
  cases hchange with
  | keep => exact ⟨ha, hr⟩
  | remove => exact ⟨ha, hr⟩

/-- The steps of a run after the `begin` of `p`, in which no save of `p` comes
from a copy that was overtaken. -/
def FreshRun (E : Codec V) (p : String) (s : Jobs V) (steps : List (Step V)) : Prop :=
  Guarded (step E) (fun t i => FreshSave p t i ∧ ¬ i.Begins E p) s steps

theorem gone_of_complete {E : Codec V} {p : String} {s : Jobs V} {i : Nat}
    (h : s.children[i]? = some ⟨p, .running⟩) :
    Gone (s.retries p) p (step E s (.childComplete i)) := by
  have hstep : step E s (.childComplete i) =
      { s.setChild i p .finished with folder := complete s.folder p } := by
    simp only [step, h]
  rw [hstep]
  exact ⟨(attemptsOf_complete s.folder p p).trans (if_pos rfl), rfl⟩

/-- Let `s` be any state that the system reaches, and let the run go on without
a new `begin` of `p` and without a save from an overtaken copy.  Then the
attempts of `p` do not decrease, `p` is handed to `spawn` at most
`maxAttempts - 1` times, and once a child completed `p` its file is absent. -/
theorem retries_bounded (E : Codec V) (p : String) (before after : List (Step V))
    (hfresh : FreshRun E p (runFrom (step E) Jobs.empty before) after) :
    let s := runFrom (step E) Jobs.empty before
    let t := runFrom (step E) s after
    (∀ n m, s.attempts p = some n → t.attempts p = some m → n ≤ m) ∧
      t.retries p ≤ s.retries p + (maxAttempts - 1) ∧
      ∀ pre i post, after = pre ++ .childComplete i :: post →
        (runFrom (step E) s pre).children[i]? = some ⟨p, .running⟩ →
        t.folder.find? p = none := by
  intro s t
  have hcounted : Counted s :=
    inv_of_run Counted (fun _ i h => step_counted h i) counted_empty before
  have hwithin : ∀ n, s.attempts p = some n → Within n (s.retries p) p t := by
    intro n hn
    refine inv_of_guarded (Within n (s.retries p) p)
      (fun u i h hg => step_within h hg.1 hg.2) ⟨fun m hm => ?_, Nat.le_add_right _ _⟩ hfresh
    obtain rfl := Option.some.inj (hn.symm.trans hm)
    exact ⟨Nat.le_refl n, Nat.le_refl _⟩
  have hgone : ∀ {u k steps}, Gone k p u → FreshRun E p u steps →
      Gone k p (runFrom (step E) u steps) := fun hu hsteps =>
    inv_of_guarded (Gone _ p) (fun v i h hg => step_gone h hg.1 hg.2) hu hsteps
  refine ⟨fun n m hn hm => ((hwithin n hn).paid m hm).1, ?_, ?_⟩
  · cases hs : s.attempts p with
    | none =>
        rw [(hgone ⟨hs, rfl⟩ hfresh).retries]
        exact Nat.le_add_right _ _
    | some n =>
        have hbound := (hwithin n hs).bound
        have hn := hcounted.files p n hs
        omega
  · intro pre i post hafter hchild
    have hsplit : FreshRun E p s (pre ++ .childComplete i :: post) := hafter ▸ hfresh
    have habsent := (hgone (gone_of_complete hchild) (guarded_append.mp hsplit).2.2).absent
    have ht : t = runFrom (step E) (step E (runFrom (step E) s pre) (.childComplete i)) post := by
      show runFrom (step E) s after = _
      rw [hafter, runFrom_append, runFrom_cons]
    rw [ht]
    exact Option.map_eq_none_iff.mp habsent

/-! ## Three runs of one job -/

/-- JSON objects of texts that need no escape, and the digest of the one input
of the runs below. -/
def objectCodec : Codec (List (String × String)) where
  valueText := objectText
  setSummary := fun fields summary =>
    fields.filter (fun field => field.1 ≠ "summary") ++ [("summary", summary)]
  hashPrefix := fun _ => "387ffb2dc26f79fd"
  fileBytes := fun c => (checkpointText c).utf8ByteSize
where
  quoted (text : String) : String := "\"" ++ text ++ "\""
  quotedOrNull : Option String → String
    | some text => quoted text
    | none => "null"
  objectText (fields : List (String × String)) : String :=
    "\x7b" ++ ",".intercalate (fields.map fun field => quoted field.1 ++ ":" ++ quoted field.2) ++
      "\x7d"
  checkpointText (c : Checkpoint (List (String × String))) : String :=
    "\x7b\"kind\":" ++ quoted c.kind.asStr ++ ",\"key\":" ++ quoted c.key ++
      ",\"phase\":" ++ quoted c.phase ++ ",\"inputs\":" ++ objectText c.inputs ++
      ",\"started_at\":" ++ toString c.startedAt ++ ",\"attempts\":" ++ toString c.attempts ++
      ",\"session_id\":" ++ quotedOrNull c.sessionId ++ ",\"cwd\":" ++ quotedOrNull c.cwd ++ "\x7d"

/-- A session end starts the consolidation, and its deadline passes. -/
def overdue : List (Step (List (String × String))) :=
  [.beginJob .consolidation [("run_tag", "1-0")] none (some "/w") true, .tick 211]

/-- The file of that job. -/
def overdueFile : String := "consolidation-387ffb2dc26f79fd.json"

/-- One resume run that restarts it. -/
def resumeRun : List (Step (List (String × String))) :=
  [.resumeLock, .resumeLoad, .resumeLoad, .resumeNext .dir true, .resumeNext .dir true]

def afterSteps (steps : List (Step (List (String × String)))) : Jobs (List (String × String)) :=
  runFrom (step objectCodec) Jobs.empty steps

instance (p : String) (s : Jobs V) (i : Step V) : Decidable (FreshSave p s i) :=
  inferInstanceAs (Decidable (∀ c ∈ s.copySaved p i, ∃ n ∈ s.attempts p, n ≤ c.attempts))

instance (E : Codec V) (p : String) : (i : Step V) → Decidable (i.Begins E p)
  | .beginJob kind inputs sessionId cwd _ =>
      inferInstanceAs (Decidable ((Checkpoint.new E kind inputs sessionId cwd 0).fileName = p))
  | .tick _ => isFalse id
  | .prune _ => isFalse id
  | .resumeLock => isFalse id
  | .resumeLoad => isFalse id
  | .resumeNext _ _ => isFalse id
  | .childLoad _ => isFalse id
  | .childSave _ _ _ => isFalse id
  | .childComplete _ => isFalse id

instance (E : Codec V) (p : String) (s : Jobs V) (steps : List (Step V)) :
    Decidable (FreshRun E p s steps) :=
  inferInstanceAs (Decidable (Guarded (step E) (fun t i => FreshSave p t i ∧ ¬ i.Begins E p) _ _))

/-- The first child saves its summary before a resume run restarts the job, and
the second child completes it. -/
def overtakesNone : List (Step (List (String × String))) :=
  [.childLoad 0, .childSave 0 "summarized" (some "notes")] ++ resumeRun ++ [.childComplete 1]

theorem retries_bounded_in_order :
    FreshRun objectCodec overdueFile (afterSteps overdue) overtakesNone ∧
      (afterSteps overdue).attempts overdueFile = some 1 ∧
      (afterSteps (overdue ++ resumeRun)).retries overdueFile = 1 ∧
      (afterSteps (overdue ++ overtakesNone)).folder.find? overdueFile = none := by
  have hfresh : FreshRun objectCodec overdueFile (afterSteps overdue) overtakesNone := by
    decide +kernel
  refine ⟨hfresh, by decide +kernel, by decide +kernel, ?_⟩
  rw [afterSteps, runFrom_append]
  exact (retries_bounded objectCodec overdueFile overdue overtakesNone hfresh).2.2
    ([.childLoad 0, .childSave 0 "summarized" (some "notes")] ++ resumeRun) 1 [] rfl
    (by decide +kernel)

/-- The first child loads its checkpoint, a resume run restarts the job, and
the first child saves what it loaded. -/
def overtaken : List (Step (List (String × String))) :=
  overdue ++ [.childLoad 0] ++ resumeRun ++ [.childSave 0 "summarized" (some "notes")]

/-- The save takes the second attempt back, so the job is handed to `spawn`
three times.  And when the second child completes the job before that save, the
file is there again. -/
theorem attempts_taken_back :
    (afterSteps (overdue ++ [.childLoad 0] ++ resumeRun)).attempts overdueFile = some 2 ∧
      (afterSteps overtaken).attempts overdueFile = some 1 ∧
      (afterSteps (overtaken ++ [.tick 211] ++ resumeRun ++ [.tick 211] ++ resumeRun)).retries
        overdueFile = 3 ∧
      (afterSteps (overdue ++ [.childLoad 0] ++ resumeRun ++ [.childComplete 1])).folder.find?
        overdueFile = none ∧
      (afterSteps (overdue ++ [.childLoad 0] ++ resumeRun ++ [.childComplete 1,
        .childSave 0 "summarized" (some "notes")])).attempts overdueFile = some 1 := by
  refine ⟨?_, ?_, ?_, ?_, ?_⟩ <;> decide +kernel

end Llmenv.Checkpoints
