/-
# `Llmenv.HookRun.NudgeRace` — the handlers of one session, step by step

Several hook processes of a session run at once.  Each handler checks the state
folder, takes the lock, loads the state, saves it and leaves, one step at a
time, and the steps of the handlers interleave in any order.  The lock keeps two
holders apart.  The post-tool handler runs without it when the folder is not
there yet.

That handler may load before the gate's deny and save after it, so the deny
marker is lost (`not_kept_of_race`).  When no such handler holds a state to save
at the moment of the deny, the marker stays until a commit with a task in
progress clears it, in every interleaving (`kept_of_run`).
-/
import Llmenv.HookRun.CommitGate

namespace Llmenv.HookRun

open Llmenv.Lib

namespace NudgeRace

/-! ## The processes -/

/-- What a handler does under one load of the state. -/
inductive Job where
  | reminder (s : Section)
  | commit (command : String) (tracking : Tracking)

def Job.locking : Job → Locking
  | .reminder s => s.locking
  | .commit .. => .always

/-- One call of a handler in the session. -/
inductive Hook where
  | post (tracker : TaskTracker) (payload : Payload) (tracking : Tracking)
  | pre (tracker : TaskTracker) (payload : Payload) (tracking : Tracking)
  | stop (tracker : TaskTracker) (payload : Payload) (tracking : Tracking)

def Hook.jobs (stateDir id : String) : Hook → List Job
  | .post tracker payload tracking =>
      (handlePostToolUse tracker payload (some id) tracking).sections.map .reminder
  | .pre tracker payload tracking =>
      match preCheck stateDir ⟨tracker, payload, some id⟩ with
      | .check command _ _ => [.commit command tracking]
      | _ => []
  | .stop tracker payload tracking =>
      (handleStop tracker payload (some id) tracking).sections.map .reminder

/-- How far a process is with its job. -/
inductive Phase where
  | ready
  /-- The folder was missing, so the load comes without the lock. -/
  | unlocked
  /-- The lock file is open, and the folder is there. -/
  | opened
  | locked
  | loaded (held : Bool) (state : NudgeState) (reset : Bool)
  | leaving (held : Bool)

/-- The process holds the lock. -/
def Phase.held : Phase → Bool
  | .locked => true
  | .loaded held _ _ => held
  | .leaving held => held
  | _ => false

/-- The process is past the lock without holding it. -/
def Phase.free : Phase → Bool
  | .unlocked => true
  | .loaded held _ _ => !held
  | .leaving held => !held
  | _ => false

structure Proc where
  jobs : List Job
  phase : Phase

def Proc.onReminder (proc : Proc) : Prop := ∃ s rest, proc.jobs = .reminder s :: rest

inductive Writer where
  | reminder
  /-- The commit gate; `tracked` when a task is in progress for the commit. -/
  | gate (tracked : Bool)
deriving DecidableEq

structure Save where
  writer : Writer
  state : NudgeState
deriving DecidableEq

/-- What the job saves of a loaded state. -/
def Job.save : Job → NudgeState → Bool → Option Save
  | .reminder s, state, reset =>
      let after := (s.run state).2
      if after ≠ state ∨ reset then some ⟨.reminder, after⟩ else none
  | .commit command tracking, state, reset =>
      let writer := .gate (wipOpen command tracking)
      if reset then some ⟨writer, state⟩
      else (decideCommit command tracking state).mustSave.map fun s => ⟨writer, s⟩

/-- The phase after that save: the gate saves a reset state before it decides. -/
def Job.afterSave : Job → Bool → NudgeState → Bool → Phase
  | .commit .., held, state, true => .loaded held state false
  | _, held, _, _ => .leaving held

structure World where
  file : StateFile
  folder : Bool
  lock : Option Nat
  procs : Nat → Proc
  /-- The saves, the newest first. -/
  saves : List Save

def World.setProc (w : World) (p : Nat) (proc : Proc) : World :=
  { w with procs := fun q => if q = p then proc else w.procs q }

/-- Process `p` takes its next step, if it can. -/
def step (w : World) (p : Nat) : World :=
  match w.procs p with
  | ⟨[], _⟩ => w
  | ⟨job :: rest, phase⟩ =>
      match phase with
      | .ready =>
          match job.locking with
          | .always => { w with folder := true }.setProc p ⟨job :: rest, .opened⟩
          | .ifFile =>
              if w.file = .missing then w.setProc p ⟨rest, .ready⟩
              else { w with folder := true }.setProc p ⟨job :: rest, .opened⟩
          | .ifFolder => w.setProc p ⟨job :: rest, if w.folder then .opened else .unlocked⟩
      | .opened =>
          match w.lock with
          | none => { w with lock := some p }.setProc p ⟨job :: rest, .locked⟩
          | some _ => w
      | .unlocked =>
          w.setProc p ⟨job :: rest, .loaded false (readState w.file).1 (readState w.file).2⟩
      | .locked =>
          w.setProc p ⟨job :: rest, .loaded true (readState w.file).1 (readState w.file).2⟩
      | .loaded held state reset =>
          match job.save state reset with
          | none => w.setProc p ⟨job :: rest, .leaving held⟩
          | some save =>
              { w with
                file := .stored save.state
                folder := true
                saves := save :: w.saves }.setProc p
                ⟨job :: rest, job.afterSave held state reset⟩
      | .leaving held =>
          { w with lock := if held then none else w.lock }.setProc p ⟨rest, .ready⟩

/-- Each process runs one handler of session `id`. -/
def start (stateDir id : String) (hooks : Nat → Hook) (file : StateFile) (folder : Bool) : World :=
  ⟨file, folder, none, fun p => ⟨(hooks p).jobs stateDir id, .ready⟩, []⟩

/-! ## The deny marker is kept -/

/-- The gate saved the marker with a deny. -/
def DenySaved (save : Save) : Prop :=
  save.writer ≠ .reminder ∧ save.state.commitDenied = true

/-- The gate let a commit through because a task is in progress. -/
def Cleared (save : Save) : Prop := save.writer = .gate true ∧ save.state.commitDenied = false

instance (save : Save) : Decidable (DenySaved save) := by unfold DenySaved; infer_instance

/-- A deny was saved, and no commit with a task in progress cleared it since. -/
def Denied (saves : List Save) : Prop := Since DenySaved Cleared saves

/-- After a deny the marker is only cleared by a commit with a task in progress. -/
def Kept (save : Save) (before : List Save) : Prop :=
  Denied before → save.state.commitDenied = false → Cleared save

/-- Every save so far keeps the marker of a deny. -/
def MarkerKept (w : World) : Prop :=
  ∀ newer save older, w.saves = newer ++ save :: older → Kept save older

/-- The process has loaded a state without the marker and is going to save. -/
def Proc.stale : Proc → Bool
  | ⟨job :: _, .loaded _ state reset⟩ => !state.commitDenied && (job.save state reset).isSome
  | _ => false

/-- The next step of the process saves a deny. -/
def Proc.savesDeny : Proc → Prop
  | ⟨job :: _, .loaded _ state reset⟩ => ∃ save, job.save state reset = some save ∧ DenySaved save
  | _ => False

/-- When the gate saves a deny, no handler without the lock holds a state that it is going to
save without the marker. -/
def NoStaleReminder (w : World) (p : Nat) : Prop :=
  (w.procs p).savesDeny → ∀ q, (w.procs q).phase.held = false → (w.procs q).stale = false

structure Inv (w : World) : Prop where
  holder : ∀ p, (w.procs p).phase.held = true → w.lock = some p
  /-- Only a reminder goes without the lock. -/
  free : ∀ p, (w.procs p).phase.free = true → (w.procs p).onReminder
  marked : Denied w.saves → w.file.marker = true
  fresh : Denied w.saves → ∀ p, (w.procs p).stale = false
  kept : Each Kept w.saves

/-- A save keeps the marker of the loaded state, or is the gate's deny, or clears the marker for a
task in progress. -/
theorem save_cases {job : Job} {state : NudgeState} {reset : Bool} {save : Save}
    (h : job.save state reset = some save) :
    save.state.commitDenied = state.commitDenied ∨ DenySaved save ∨ Cleared save := by
  cases job with
  | reminder s =>
      left
      simp only [Job.save] at h
      split at h
      · obtain rfl := Option.some.inj h
        exact s.keepsMarker state
      · exact absurd h (by simp)
  | commit command tracking =>
      cases reset with
      | true =>
          left
          obtain rfl := Option.some.inj h
          rfl
      | false =>
          right
          obtain ⟨st, hst, rfl⟩ := Option.map_eq_some_iff.mp h
          rcases mustSave_cases hst with hdeny | ⟨hwip, hclear⟩
          · exact Or.inl ⟨by simp, hdeny⟩
          · exact Or.inr ⟨by rw [hwip], hclear⟩

/-- A reminder's save keeps the marker. -/
theorem save_reminder {s : Section} {state : NudgeState} {reset : Bool} {save : Save}
    (h : (Job.reminder s).save state reset = some save) :
    ¬ DenySaved save := by
  simp only [Job.save] at h
  split at h
  · obtain rfl := Option.some.inj h
    exact fun hd => hd.1 rfl
  · exact absurd h (by simp)

theorem stale_loaded_of_marker {jobs : List Job} {held reset : Bool} {state : NudgeState}
    (h : state.commitDenied = true) : Proc.stale ⟨jobs, .loaded held state reset⟩ = false := by
  cases jobs with
  | nil => rfl
  | cons job rest => simp [Proc.stale, h]

theorem stale_ready (jobs : List Job) : Proc.stale ⟨jobs, .ready⟩ = false := by
  cases jobs <;> rfl

theorem reminder_of_ifFolder {job : Job} (h : job.locking = .ifFolder) :
    ∃ s, job = .reminder s := by
  cases job with
  | reminder s => exact ⟨s, rfl⟩
  | commit command tracking => exact absurd h (by simp [Job.locking])

section Step

variable {w : World} {p : Nat}

/-- A step of `p` without a save. -/
theorem Inv.quiet (h : Inv w) {folder : Bool} {lock : Option Nat} {proc : Proc}
    (hother : ∀ q, q ≠ p → w.lock = some q → lock = some q)
    (hheld : proc.phase.held = true → lock = some p)
    (hfree : proc.phase.free = true → proc.onReminder)
    (hstale : w.file.marker = true → proc.stale = false) :
    Inv ({ w with folder := folder, lock := lock }.setProc p proc) where
  holder q hq := by
    by_cases hqp : q = p
    · subst hqp
      exact hheld (by simpa [World.setProc] using hq)
    · exact hother q hqp (h.holder q (by simpa [World.setProc, hqp] using hq))
  free q hq := by
    by_cases hqp : q = p
    · subst hqp
      simpa [World.setProc] using hfree (by simpa [World.setProc] using hq)
    · simpa [World.setProc, hqp] using h.free q (by simpa [World.setProc, hqp] using hq)
  marked := h.marked
  fresh hd q := by
    by_cases hqp : q = p
    · subst hqp
      simpa [World.setProc] using hstale (h.marked hd)
    · simpa [World.setProc, hqp] using h.fresh hd q
  kept := h.kept

theorem held_afterSave (job : Job) (held : Bool) (state : NudgeState) (reset : Bool) :
    (job.afterSave held state reset).held = held := by
  unfold Job.afterSave
  split <;> rfl

theorem free_afterSave (job : Job) (held : Bool) (state : NudgeState) (reset : Bool) :
    (job.afterSave held state reset).free = !held := by
  unfold Job.afterSave
  split <;> rfl

/-- After a save the process leaves, unless the gate has saved a reset state as it was. -/
theorem afterSave_cases {job : Job} {state : NudgeState} {reset : Bool} {save : Save} (held : Bool)
    (h : job.save state reset = some save) :
    job.afterSave held state reset = .leaving held ∨
      (job.afterSave held state reset = .loaded held state false ∧ save.state = state) := by
  cases job with
  | reminder s => exact Or.inl rfl
  | commit command tracking =>
      cases reset with
      | false => exact Or.inl rfl
      | true =>
          obtain rfl := Option.some.inj h
          exact Or.inr ⟨rfl, rfl⟩

/-- After a deny, a process that is going to save has loaded the marker. -/
theorem Inv.loaded_marker (h : Inv w) {job : Job} {rest : List Job} {held reset : Bool}
    {state : NudgeState} {save : Save}
    (hp : w.procs p = ⟨job :: rest, .loaded held state reset⟩)
    (hsave : job.save state reset = some save) (hd : Denied w.saves) :
    state.commitDenied = true := by
  have hfresh := h.fresh hd p
  rw [hp] at hfresh
  simpa [Proc.stale, hsave] using hfresh

theorem Inv.save_marker (h : Inv w) {job : Job} {rest : List Job} {held reset : Bool}
    {state : NudgeState} {save : Save}
    (hp : w.procs p = ⟨job :: rest, .loaded held state reset⟩)
    (hsave : job.save state reset = some save) (hd : Denied w.saves) (hc : ¬ Cleared save) :
    save.state.commitDenied = true := by
  rcases save_cases hsave with hkeep | hdeny | hclear
  · exact hkeep.trans (h.loaded_marker hp hsave hd)
  · exact hdeny.2
  · exact absurd hclear hc

/-- Only the gate saves a deny, and it holds the lock. -/
theorem Inv.lock_of_deny (h : Inv w) {job : Job} {rest : List Job} {held reset : Bool}
    {state : NudgeState} {save : Save}
    (hp : w.procs p = ⟨job :: rest, .loaded held state reset⟩)
    (hsave : job.save state reset = some save) (hdeny : DenySaved save) : w.lock = some p := by
  cases job with
  | reminder s => exact absurd hdeny (save_reminder hsave)
  | commit command tracking =>
      cases held with
      | true => exact h.holder p (by rw [hp]; rfl)
      | false =>
          obtain ⟨s, rest', hjobs⟩ := h.free p (by rw [hp]; rfl)
          rw [hp] at hjobs
          exact absurd (List.cons.inj hjobs).1 (by simp)

/-- A save of `p`. -/
theorem Inv.write (h : Inv w) {job : Job} {rest : List Job} {held reset : Bool}
    {state : NudgeState} {save : Save}
    (hp : w.procs p = ⟨job :: rest, .loaded held state reset⟩)
    (hsave : job.save state reset = some save) (hg : NoStaleReminder w p) :
    Inv ({ w with file := .stored save.state, folder := true, saves := save :: w.saves }.setProc p
      ⟨job :: rest, job.afterSave held state reset⟩) := by
  have hmark : Denied (save :: w.saves) → save.state.commitDenied = true := by
    rintro (hdeny | ⟨hc, hd⟩)
    · exact hdeny.2
    · exact h.save_marker hp hsave hd hc
  have hafter : Denied (save :: w.saves) →
      Proc.stale ⟨job :: rest, job.afterSave held state reset⟩ = false := by
    intro hd
    rcases afterSave_cases held hsave with hleave | ⟨hagain, hstate⟩
    · rw [hleave]
      rfl
    · rw [hagain]
      exact stale_loaded_of_marker (hstate ▸ hmark hd)
  refine ⟨?_, ?_, hmark, ?_, ?_, h.kept⟩
  · intro q hq
    by_cases hqp : q = p
    · subst hqp
      apply h.holder q
      rw [hp]
      show held = true
      simpa [World.setProc, held_afterSave] using hq
    · exact h.holder q (by simpa [World.setProc, hqp] using hq)
  · intro q hq
    by_cases hqp : q = p
    · subst hqp
      have hfree := h.free q
      rw [hp] at hfree
      have hq : (!held) = true := by simpa [World.setProc, free_afterSave] using hq
      obtain ⟨s, rest', hjobs⟩ := hfree hq
      exact ⟨s, rest', by simpa [World.setProc] using hjobs⟩
    · simpa [World.setProc, hqp] using h.free q (by simpa [World.setProc, hqp] using hq)
  · intro hd q
    by_cases hqp : q = p
    · subst hqp
      simpa [World.setProc] using hafter hd
    · have hq : (w.procs q).stale = false := by
        rcases hd with hdeny | ⟨-, hd⟩
        · cases hheld : (w.procs q).phase.held with
          | true =>
              -- Two processes would hold the lock.
              have := (h.holder q hheld).symm.trans (h.lock_of_deny hp hsave hdeny)
              exact absurd (Option.some.inj this) hqp
          | false =>
              refine hg ?_ q hheld
              rw [hp]
              exact ⟨save, hsave, hdeny⟩
        · exact h.fresh hd q
      simpa [World.setProc, hqp] using hq
  · intro hd hfalse
    by_contra hc
    exact absurd ((h.save_marker hp hsave hd hc).symm.trans hfalse) (by simp)

/-- Every step keeps the invariant, if no such handler is there when the gate saves a deny. -/
theorem inv_step (h : Inv w) (hg : NoStaleReminder w p) : Inv (step w p) := by
  have hlock : ∀ q, q ≠ p → w.lock = some q → w.lock = some q := fun _ _ hq => hq
  cases hp : w.procs p with
  | mk jobs phase =>
      cases jobs with
      | nil => simpa only [step, hp] using h
      | cons job rest =>
          cases phase with
          | ready =>
              cases hl : job.locking with
              | always =>
                  simp only [step, hp, hl]
                  exact h.quiet hlock nofun nofun (fun _ => rfl)
              | ifFile =>
                  simp only [step, hp, hl]
                  split
                  · exact h.quiet hlock nofun nofun (fun _ => stale_ready rest)
                  · exact h.quiet hlock nofun nofun (fun _ => rfl)
              | ifFolder =>
                  obtain ⟨s, rfl⟩ := reminder_of_ifFolder hl
                  simp only [step, hp, hl]
                  cases w.folder with
                  | true => exact h.quiet hlock nofun nofun (fun _ => rfl)
                  | false => exact h.quiet hlock nofun (fun _ => ⟨s, rest, rfl⟩) (fun _ => rfl)
          | unlocked =>
              obtain ⟨s, rest', hjobs⟩ := h.free p (by rw [hp]; rfl)
              rw [hp] at hjobs
              simp only [step, hp]
              exact h.quiet hlock nofun (fun _ => ⟨s, rest', hjobs⟩)
                (fun hm => stale_loaded_of_marker hm)
          | opened =>
              cases hl : w.lock with
              | none =>
                  simp only [step, hp, hl]
                  refine h.quiet ?_ (fun _ => rfl) nofun (fun _ => rfl)
                  intro q _ hq
                  exact absurd (hl.symm.trans hq) (by simp)
              | some _ => simpa only [step, hp, hl] using h
          | locked =>
              have hholds : w.lock = some p := h.holder p (by rw [hp]; rfl)
              simp only [step, hp]
              exact h.quiet hlock (fun _ => hholds) nofun (fun hm => stale_loaded_of_marker hm)
          | loaded held state reset =>
              have hholds := h.holder p
              have hfree := h.free p
              rw [hp] at hholds hfree
              cases hsave : job.save state reset with
              | none =>
                  simp only [step, hp, hsave]
                  exact h.quiet hlock hholds hfree (fun _ => rfl)
              | some save =>
                  simp only [step, hp, hsave]
                  exact h.write hp hsave hg
          | leaving held =>
              simp only [step, hp]
              refine h.quiet ?_ nofun nofun (fun _ => stale_ready rest)
              intro q hqp hq
              cases held with
              | false => exact hq
              | true =>
                  have hholds : w.lock = some p := h.holder p (by rw [hp]; rfl)
                  exact absurd (Option.some.inj (hq.symm.trans hholds)) hqp

end Step

/-- In every interleaving in which no such handler is there at a deny, the marker of a deny is
only cleared by a commit with a task in progress. -/
theorem kept_of_run (stateDir id : String) (hooks : Nat → Hook) (file : StateFile) (folder : Bool)
    (ps : List Nat) (hg : Guarded step NoStaleReminder (start stateDir id hooks file folder) ps) :
    MarkerKept (runFrom step (start stateDir id hooks file folder) ps) := by
  have hstart : Inv (start stateDir id hooks file folder) :=
    ⟨nofun, nofun, nofun, nofun, trivial⟩
  exact each_iff.mp (inv_of_guarded Inv (fun _ _ h hg => inv_step h hg) hstart hg).kept

/-! ## A folder that is there from the start -/

/-- The folder is there, and no process goes without the lock. -/
structure Sheltered (w : World) : Prop where
  folder : w.folder = true
  free : ∀ p, (w.procs p).phase.free = false

theorem Sheltered.setProc {w : World} (h : Sheltered w) {p : Nat} {proc : Proc}
    (hfree : proc.phase.free = false) : Sheltered (w.setProc p proc) := by
  refine ⟨h.folder, ?_⟩
  intro q
  by_cases hqp : q = p
  · simpa [World.setProc, hqp] using hfree
  · simpa [World.setProc, hqp] using h.free q

theorem sheltered_step {w : World} {p : Nat} (h : Sheltered w) : Sheltered (step w p) := by
  have hfolder : ∀ file lock saves, Sheltered { w with file, lock, saves, folder := true } :=
    fun _ _ _ => ⟨rfl, h.free⟩
  have hp := h.free p
  cases hproc : w.procs p with
  | mk jobs phase =>
      rw [hproc] at hp
      cases jobs with
      | nil => simpa only [step, hproc] using h
      | cons job rest =>
          cases phase with
          | ready =>
              cases hl : job.locking with
              | always =>
                  simp only [step, hproc, hl]
                  exact (hfolder _ _ _).setProc rfl
              | ifFile =>
                  simp only [step, hproc, hl]
                  split
                  · exact h.setProc rfl
                  · exact (hfolder _ _ _).setProc rfl
              | ifFolder =>
                  simp only [step, hproc, hl, h.folder]
                  exact h.setProc rfl
          | unlocked => exact absurd hp (by simp [Phase.free])
          | opened =>
              cases hl : w.lock with
              | none =>
                  have hw : Sheltered { w with lock := some p } := ⟨h.folder, h.free⟩
                  simp only [step, hproc, hl]
                  exact hw.setProc rfl
              | some _ => simpa only [step, hproc, hl] using h
          | locked =>
              simp only [step, hproc]
              exact h.setProc rfl
          | loaded held state reset =>
              cases hsave : job.save state reset with
              | none =>
                  simp only [step, hproc, hsave]
                  exact h.setProc hp
              | some save =>
                  simp only [step, hproc, hsave]
                  exact (hfolder _ _ _).setProc ((free_afterSave job held state reset).trans hp)
          | leaving held =>
              have hw : Sheltered { w with lock := if held then none else w.lock } :=
                ⟨h.folder, h.free⟩
              simp only [step, hproc]
              exact hw.setProc rfl

theorem noStaleReminder_of_sheltered {w : World} {p : Nat} (h : Sheltered w) :
    NoStaleReminder w p := by
  intro _ q hheld
  have hfree := h.free q
  cases hproc : w.procs q with
  | mk jobs phase =>
      rw [hproc] at hheld hfree
      cases phase with
      | loaded held state reset =>
          cases held with
          | true => exact absurd hheld (by simp [Phase.held])
          | false => exact absurd hfree (by simp [Phase.free])
      | _ => cases jobs <;> rfl

/-- With the folder there, every handler takes the lock, in every interleaving. -/
theorem guarded_of_folder (stateDir id : String) (hooks : Nat → Hook) (file : StateFile)
    (ps : List Nat) : Guarded step NoStaleReminder (start stateDir id hooks file true) ps :=
  guarded_of_inv Sheltered (fun _ _ => sheltered_step) (fun _ _ => noStaleReminder_of_sheltered)
    ⟨rfl, fun _ => rfl⟩ ps

def fileEdit : Payload := ⟨some "Edit", none, none, none⟩
def plainCommit : Payload := ⟨some "Bash", none, some "git commit -m x", none⟩

/-- Process 0 runs the post-tool handler after a file edit, the others check a commit. -/
def editAndCommits (p : Nat) : Hook :=
  if p = 0 then .post .default fileEdit .noSession else .pre .default plainCommit .noSession

/-- Two commits and an edit, turn by turn. -/
def turns : List Nat := [0, 1, 2, 1, 1, 0, 1, 1, 0, 2, 0, 0, 0, 2, 2, 2]

/-- Two commits and an edit, with the folder there. -/
theorem kept_of_folder :
    MarkerKept (runFrom step (start "/state" "s1" editAndCommits .missing true) turns) :=
  kept_of_run "/state" "s1" editAndCommits .missing true turns
    (guarded_of_folder "/state" "s1" editAndCommits .missing turns)

def editSection : Section where
  locking := .ifFolder
  run := postReminder .default "Edit" fileEdit .noSession
  unread := ""
  keepsMarker := commitDenied_postReminder .default "Edit" fileEdit .noSession

theorem jobs_fileEdit :
    (Hook.post .default fileEdit .noSession).jobs "/state" "s1" = [.reminder editSection] := rfl

theorem jobs_plainCommit :
    (Hook.pre .default plainCommit .noSession).jobs "/state" "s1" =
      [.commit "git commit -m x" .noSession] := by
  have hcommit : checkedCommit ⟨.default, plainCommit, some "s1"⟩ = some "git commit -m x" := by
    decide +kernel
  have hvalid : Tasks.isValidShortName "s1" = true := by decide +kernel
  simp only [Hook.jobs, preCheck_of_commit _ hcommit, locate, statePath, hvalid, if_true]

/-- The handler of the edit finds no folder and loads, the gate saves its deny, and then the first
one saves its own state over it. -/
theorem not_kept_of_race :
    ¬ MarkerKept (runFrom step (start "/state" "s1" editAndCommits .missing false)
      [0, 0, 1, 1, 1, 1, 0]) := by
  have hlocking : editSection.locking = .ifFolder := rfl
  have hedit : (Job.reminder editSection).save {} false = some ⟨.reminder, { calls := 1 }⟩ := by
    decide +kernel
  have hgate : (Job.commit "git commit -m x" .noSession).save {} false =
      some ⟨.gate false, { commitDenied := true }⟩ := by
    decide +kernel
  have hrun : (runFrom step (start "/state" "s1" editAndCommits .missing false)
      [0, 0, 1, 1, 1, 1, 0]).saves =
      [⟨.reminder, { calls := 1 }⟩, ⟨.gate false, { commitDenied := true }⟩] := by
    simp [runFrom, step, start, World.setProc, editAndCommits, jobs_plainCommit, jobs_fileEdit,
      Job.locking, hlocking, readState, hgate, hedit, Job.afterSave]
  intro hkept
  have hdenied : Denied [⟨.gate false, { commitDenied := true }⟩] := Or.inl ⟨by simp, rfl⟩
  exact absurd (hkept [] _ _ hrun hdenied rfl).1 (by simp)

end NudgeRace

end Llmenv.HookRun
