/-
# `Llmenv.HookRun.StateLock` — one hook at a time, and the prune that could let in two

`lock_state_file_timed` and `prune_orphan_locks` of
`src/hook_run/session_state.rs`.  A hook opens `<key>.lock`, makes it when it is
not there, and polls for the lock of the open file.  The prune removes lock
files by name, when they are old and their session is gone.

The lock is one of the file and not of the name, so a hook that has a removed
file open and a hook that made the name anew both hold "the" lock.  In every
interleaving in which no removed file was open the lock excludes
(`exclusive_of_run`).  That is so when no hook is between its open and its
refresh while the prune is between its look at the age and the removal, and no
lock is held for longer than the age (`exclusive_of_timed_run`): the refresh of
a lock that was taken keeps the prune away from it.
-/
import Llmenv.Lib.Inodes
import Llmenv.Lib.Runs

namespace Llmenv.HookRun.StateLock

open Llmenv.Lib

/-! ## The code -/

def lockAttempts : Nat := 20

/-- A lock file, as far as a hook and the prune look at it. -/
structure LockFile (η : Type) where
  /-- The newer one of its modification and its change time. -/
  stamp : Nat
  holder : Option η

/-- How far a hook is with the lock. -/
inductive Stage where
  | ready
  /-- The file is open, and that many polls are left. -/
  | polling (ino polls : Nat)
  /-- It has the lock, and the age is not fresh yet. -/
  | locked (ino : Nat)
  | holding (ino since : Nat)
  /-- The lock was not taken, or it was given back. -/
  | finished
deriving DecidableEq

/-- The file that the hook has open. -/
def Stage.open? : Stage → Option Nat
  | .polling ino _ | .locked ino | .holding ino _ => some ino
  | _ => none

/-- The file whose lock the hook has. -/
def Stage.held? : Stage → Option Nat
  | .locked ino | .holding ino _ => some ino
  | _ => none

/-- How far a prune is with one entry of the folder. -/
inductive Prune where
  | idle
  /-- The file is too old. -/
  | stale (key : String)
  /-- The file of its session is gone too. -/
  | orphan (key : String)
deriving DecidableEq

def Prune.key? : Prune → Option String
  | .idle => none
  | .stale key | .orphan key => some key

structure World (η ρ : Type) where
  /-- The lock files by their key. -/
  disk : Inodes String (LockFile η)
  clock : Nat
  stages : η → Stage
  prunes : ρ → Prune
  /-- The keys with a session file. -/
  sessions : String → Bool

inductive Act (η ρ : Type) where
  | tick (time : Nat)
  /-- A hook makes its next system call, which succeeds or fails. -/
  | step (h : η) (ok : Bool)
  /-- The hook gives the lock back, gives up, or its process ends. -/
  | leave (h : η)
  /-- A prune takes up the next entry, or goes on with the one it is at. -/
  | look (q : ρ) (key : String)
  | session (key : String) (there : Bool)

section Steps

variable {η ρ : Type} [DecidableEq η] [DecidableEq ρ]

def World.setStage (w : World η ρ) (h : η) (stage : Stage) : World η ρ :=
  { w with stages := Function.update w.stages h stage }

def World.setPrune (w : World η ρ) (q : ρ) (prune : Prune) : World η ρ :=
  { w with prunes := Function.update w.prunes q prune }

def World.setDisk (w : World η ρ) (disk : Inodes String (LockFile η)) : World η ρ :=
  { w with disk := disk }

def holderOf (w : World η ρ) (ino : Nat) : Option η := (w.disk.file ino).bind LockFile.holder

def LockFile.setHolder (holder : Option η) (file : LockFile η) : LockFile η :=
  { file with holder := holder }

def LockFile.setStamp (stamp : Nat) (file : LockFile η) : LockFile η := { file with stamp := stamp }

/-- The end of a hook: an open file is closed, and its lock goes with it. -/
def leave (w : World η ρ) (h : η) : World η ρ :=
  match (w.stages h).held? with
  | some ino => (w.setDisk (w.disk.modify ino (LockFile.setHolder none))).setStage h .finished
  | none => w.setStage h .finished

/-- `lock_state_file_timed`, one system call at a time. -/
def stepHook (keys : η → String) (w : World η ρ) (h : η) (ok : Bool) : World η ρ :=
  match w.stages h with
  | .ready =>
      if !ok then w.setStage h .finished
      else
        match w.disk.names (keys h) with
        | some ino => w.setStage h (.polling ino lockAttempts)
        | none => (w.setDisk (w.disk.create (keys h) ⟨w.clock, none⟩)).setStage h
            (.polling w.disk.files.length lockAttempts)
  | .polling _ 0 => w.setStage h .finished
  | .polling ino (polls + 1) =>
      if !ok then w.setStage h .finished
      else if (holderOf w ino).isSome then w.setStage h (.polling ino polls)
      else (w.setDisk (w.disk.modify ino (LockFile.setHolder (some h)))).setStage h (.locked ino)
  | .locked ino =>
      -- Without a fresh age the lock is not used.
      if !ok then leave w h
      else (w.setDisk (w.disk.modify ino (LockFile.setStamp w.clock))).setStage h
        (.holding ino w.clock)
  | .holding _ _ | .finished => w

/-- `is_stale` of the age of a lock file; a file that is gone is not stale. -/
def isStale (maxAge : Nat) (w : World η ρ) (key : String) : Bool :=
  match w.disk.read key with
  | some file => decide (maxAge < w.clock - file.stamp)
  | none => false

/-- One entry of `prune_orphan_locks`: the age, the session file, the removal. -/
def stepPrune (maxAge : Nat) (w : World η ρ) (q : ρ) (key : String) : World η ρ :=
  match w.prunes q with
  | .idle => if isStale maxAge w key then w.setPrune q (.stale key) else w
  | .stale key => w.setPrune q (if w.sessions key then .idle else .orphan key)
  | .orphan key => (w.setDisk (w.disk.unlink key)).setPrune q .idle

def step (keys : η → String) (maxAge : Nat) (w : World η ρ) : Act η ρ → World η ρ
  | .tick time => { w with clock := w.clock + time }
  | .step h ok => stepHook keys w h ok
  | .leave h => leave w h
  | .look q key => stepPrune maxAge w q key
  | .session key there => { w with sessions := Function.update w.sessions key there }

end Steps

/-! ## What a hook can do -/

section Moves

variable {η ρ : Type} [DecidableEq η] {keys : η → String}

/-- All that a system call or the end of hook `h` can do. -/
inductive Moves (keys : η → String) (w : World η ρ) (h : η) : World η ρ → Prop
  | stay : Moves keys w h w
  /-- It is over, and it does not have a lock. -/
  | close (before : (w.stages h).held? = none) : Moves keys w h (w.setStage h .finished)
  | open_ {ino : Nat} (before : w.stages h = .ready) (there : w.disk.names (keys h) = some ino) :
      Moves keys w h (w.setStage h (.polling ino lockAttempts))
  | create (before : w.stages h = .ready) (absent : w.disk.names (keys h) = none) :
      Moves keys w h ((w.setDisk (w.disk.create (keys h) ⟨w.clock, none⟩)).setStage h
        (.polling w.disk.files.length lockAttempts))
  | poll {ino polls polls' : Nat} (before : w.stages h = .polling ino polls) :
      Moves keys w h (w.setStage h (.polling ino polls'))
  | take {ino polls : Nat} (before : w.stages h = .polling ino polls)
      (free : holderOf w ino = none) :
      Moves keys w h ((w.setDisk (w.disk.modify ino (LockFile.setHolder (some h)))).setStage h
        (.locked ino))
  | refresh {ino : Nat} (before : w.stages h = .locked ino) :
      Moves keys w h ((w.setDisk (w.disk.modify ino (LockFile.setStamp w.clock))).setStage h
        (.holding ino w.clock))
  | release {ino : Nat} (before : (w.stages h).held? = some ino) :
      Moves keys w h
        ((w.setDisk (w.disk.modify ino (LockFile.setHolder none))).setStage h .finished)

theorem leave_moves (w : World η ρ) (h : η) : Moves keys w h (leave w h) := by
  unfold leave
  cases hheld : (w.stages h).held? with
  | none => exact .close hheld
  | some ino => exact .release hheld

theorem stepHook_moves (w : World η ρ) (h : η) (ok : Bool) :
    Moves keys w h (stepHook keys w h ok) := by
  unfold stepHook
  cases hstage : w.stages h with
  | ready =>
      cases ok with
      | false => exact .close (by rw [hstage]; rfl)
      | true =>
          cases hname : w.disk.names (keys h) with
          | some ino => exact .open_ hstage hname
          | none => exact .create hstage hname
  | polling ino polls =>
      have hheld : (w.stages h).held? = none := by rw [hstage]; rfl
      cases polls with
      | zero => exact .close hheld
      | succ polls =>
          cases ok with
          | false => exact .close hheld
          | true =>
              cases hfree : holderOf w ino with
              | some other =>
                  simp only [hfree, Bool.not_true, Bool.false_eq_true, if_false, Option.isSome_some,
                    if_true]
                  exact .poll hstage
              | none =>
                  simp only [hfree, Bool.not_true, Bool.false_eq_true, if_false, Option.isSome_none]
                  exact .take hstage hfree
  | locked ino =>
      cases ok with
      | false => exact leave_moves w h
      | true => exact .refresh hstage
  | holding ino since => exact .stay
  | finished => exact .stay

theorem Moves.prunes {w w' : World η ρ} {h : η} (hmoves : Moves keys w h w') :
    w'.prunes = w.prunes := by
  cases hmoves <;> rfl

theorem open_leave (w : World η ρ) (h : η) : ((leave w h).stages h).open? = none := by
  unfold leave
  cases (w.stages h).held? <;> simp [World.setStage, World.setDisk, Stage.open?]

end Moves

/-! ## The lock excludes while the open files keep their names -/

section Exclusive

variable {η ρ : Type}

/-- Hooks that hold the lock of one key are one hook. -/
def Exclusive (keys : η → String) (w : World η ρ) : Prop :=
  ∀ h h', keys h = keys h' → (w.stages h).held?.isSome → (w.stages h').held?.isSome → h = h'

/-- An open lock file is the one under its name, and its holder is who has it. -/
structure Named (keys : η → String) (w : World η ρ) : Prop where
  named : ∀ h i, (w.stages h).open? = some i → w.disk.names (keys h) = some i
  holder : ∀ h i, (w.stages h).held? = some i → holderOf w i = some h

theorem open_of_held {s : Stage} {i : Nat} (h : s.held? = some i) : s.open? = some i := by
  cases s <;> simp_all [Stage.held?, Stage.open?]

theorem Named.exclusive {keys : η → String} {w : World η ρ} (h : Named keys w) :
    Exclusive keys w := by
  intro a b hkeys ha hb
  obtain ⟨i, hi⟩ := Option.isSome_iff_exists.mp ha
  obtain ⟨j, hj⟩ := Option.isSome_iff_exists.mp hb
  have hname := h.named a i (open_of_held hi)
  rw [hkeys, h.named b j (open_of_held hj)] at hname
  obtain rfl := Option.some.inj hname
  exact Option.some.inj ((h.holder a j hi).symm.trans (h.holder b j hj))

/-- The prune removes a lock file that no hook of its key has open. -/
def RemovesNoOpenFile (keys : η → String) (w : World η ρ) : Act η ρ → Prop
  | .look q _ => ∀ h, w.prunes q = .orphan (keys h) → (w.stages h).open? = none
  | _ => True

theorem holderOf_modify_of_ne {w : World η ρ} {i j : Nat} (h : j ≠ i)
    (f : LockFile η → LockFile η) :
    ((w.disk.modify j f).file i).bind LockFile.holder = holderOf w i := by
  rw [w.disk.file_modify_of_ne h]
  rfl

theorem holderOf_setStamp (w : World η ρ) (i j stamp : Nat) :
    ((w.disk.modify j (LockFile.setStamp stamp)).file i).bind LockFile.holder = holderOf w i := by
  by_cases h : j = i
  · subst h
    rw [Inodes.file_modify_self, holderOf]
    cases w.disk.file j <;> rfl
  · exact holderOf_modify_of_ne h _

theorem holderOf_setHolder {w : World η ρ} {i : Nat} (h : i < w.disk.files.length)
    (holder : Option η) :
    ((w.disk.modify i (LockFile.setHolder holder)).file i).bind LockFile.holder = holder := by
  rw [Inodes.file_modify_self, Inodes.file, List.getElem?_eq_getElem h]
  rfl

section Steps

variable [DecidableEq η] {keys : η → String} {w : World η ρ} {h : η}

/-- A step of hook `h` alone: the other open files keep their names and their holders. -/
theorem Named.step (hw : Named keys w) {s : Stage} {d : Inodes String (LockFile η)}
    (hnames : ∀ h' i, (w.stages h').open? = some i → w.disk.names (keys h') = some i →
      d.names (keys h') = some i)
    (hholder : ∀ h' i, h' ≠ h → (w.stages h').held? = some i →
      (d.file i).bind LockFile.holder = some h')
    (hopen : ∀ i, s.open? = some i → d.names (keys h) = some i)
    (hheld : ∀ i, s.held? = some i → (d.file i).bind LockFile.holder = some h) :
    Named keys ((w.setDisk d).setStage h s) := by
  refine ⟨?_, ?_⟩
  · intro h' i hi
    by_cases hne : h' = h
    · subst hne
      simp only [World.setStage, World.setDisk, Function.update_self] at hi
      exact hopen i hi
    · simp only [World.setStage, World.setDisk, Function.update_of_ne hne] at hi
      exact hnames h' i hi (hw.named h' i hi)
  · intro h' i hi
    by_cases hne : h' = h
    · subst hne
      simp only [World.setStage, World.setDisk, Function.update_self] at hi
      exact hheld i hi
    · simp only [World.setStage, World.setDisk, Function.update_of_ne hne] at hi
      exact hholder h' i hne hi

/-- A step of hook `h` that leaves the disk as it is. -/
theorem Named.move (hw : Named keys w) {s : Stage}
    (hopen : ∀ i, s.open? = some i → w.disk.names (keys h) = some i) (hheld : s.held? = none) :
    Named keys (w.setStage h s) :=
  hw.step (fun _ _ _ hname => hname) (fun h' i _ hi => hw.holder h' i hi) hopen
    (fun i hi => absurd (hheld.symm.trans hi) (by simp))

theorem Moves.named {w' : World η ρ} (hmoves : Moves keys w h w') (hw : Named keys w) :
    Named keys w' := by
  cases hmoves with
  | stay => exact hw
  | close => exact hw.move (by simp [Stage.open?]) rfl
  | @open_ ino before there =>
      refine hw.move ?_ rfl
      intro i hi
      obtain rfl : ino = i := by simpa [Stage.open?] using hi
      exact there
  | create before absent =>
      refine hw.step ?_ ?_ ?_ (by simp [Stage.held?])
      · intro h' i _ hi
        have hne : keys h' ≠ keys h := by
          intro heq
          rw [heq, absent] at hi
          exact absurd hi (by simp)
        rw [w.disk.names_create_of_ne hne]
        exact hi
      · intro h' i _ hi
        rw [w.disk.file_create_of_lt (w.disk.ok _ i (hw.named h' i (open_of_held hi)))]
        exact hw.holder h' i hi
      · intro i hi
        obtain rfl : w.disk.files.length = i := by simpa [Stage.open?] using hi
        exact w.disk.names_create_self _
  | @poll ino polls polls' before =>
      refine hw.move ?_ rfl
      intro i hi
      obtain rfl : ino = i := by simpa [Stage.open?] using hi
      exact hw.named h ino (by rw [before]; rfl)
  | @take ino polls before free =>
      have hname : w.disk.names (keys h) = some ino := hw.named h ino (by rw [before]; rfl)
      refine hw.step (fun _ _ _ hn => hn) ?_ ?_ ?_
      · intro h' i _ hi
        have hne : ino ≠ i := by
          rintro rfl
          rw [hw.holder h' ino hi] at free
          exact absurd free (by simp)
        exact (holderOf_modify_of_ne hne _).trans (hw.holder h' i hi)
      · intro i hi
        obtain rfl : ino = i := by simpa [Stage.open?] using hi
        exact hname
      · intro i hi
        obtain rfl : ino = i := by simpa [Stage.held?] using hi
        exact holderOf_setHolder (w.disk.ok _ ino hname) _
  | @refresh ino before =>
      refine hw.step (fun _ _ _ hn => hn) ?_ ?_ ?_
      · intro h' i _ hi
        exact (holderOf_setStamp w i ino _).trans (hw.holder h' i hi)
      · intro i hi
        obtain rfl : ino = i := by simpa [Stage.open?] using hi
        exact hw.named h ino (by rw [before]; rfl)
      · intro i hi
        obtain rfl : ino = i := by simpa [Stage.held?] using hi
        exact (holderOf_setStamp w ino ino _).trans (hw.holder h ino (by rw [before]; rfl))
  | @release ino before =>
      refine hw.step (fun _ _ _ hn => hn) ?_ (by simp [Stage.open?]) (by simp [Stage.held?])
      intro h' i hne hi
      have hij : ino ≠ i := by
        rintro rfl
        exact hne (Option.some.inj ((hw.holder h' ino hi).symm.trans (hw.holder h ino before)))
      exact (holderOf_modify_of_ne hij _).trans (hw.holder h' i hi)

variable [DecidableEq ρ] {maxAge : Nat}

theorem named_step (w : World η ρ) (act : Act η ρ) (hw : Named keys w)
    (hguard : RemovesNoOpenFile keys w act) : Named keys (step keys maxAge w act) := by
  cases act with
  | tick time => exact ⟨hw.named, hw.holder⟩
  | step h ok => exact (stepHook_moves w h ok).named hw
  | leave h => exact (leave_moves w h).named hw
  | session key there => exact ⟨hw.named, hw.holder⟩
  | look q key =>
      simp only [StateLock.step, stepPrune]
      cases hprune : w.prunes q with
      | idle => dsimp only; split <;> exact ⟨hw.named, hw.holder⟩
      | stale key' => exact ⟨hw.named, hw.holder⟩
      | orphan key' =>
          refine ⟨?_, hw.holder⟩
          intro h i hi
          have hne : keys h ≠ key' := by
            rintro rfl
            exact absurd ((hguard h hprune).symm.trans hi) (by simp)
          exact (w.disk.names_unlink_of_ne hne).trans (hw.named h i hi)

/-- No hook has begun, and no prune. -/
def start (disk : Inodes String (LockFile η)) (clock : Nat) (sessions : String → Bool) :
    World η ρ :=
  ⟨disk, clock, fun _ => .ready, fun _ => .idle, sessions⟩

/-- The lock excludes in every run in which no removed file was open. -/
theorem exclusive_of_run (keys : η → String) (maxAge : Nat) (disk : Inodes String (LockFile η))
    (clock : Nat) (sessions : String → Bool) (acts : List (Act η ρ))
    (hguard : Guarded (step keys maxAge) (RemovesNoOpenFile keys) (start disk clock sessions)
      acts) :
    Exclusive keys (runFrom (step keys maxAge) (start disk clock sessions) acts) := by
  refine Named.exclusive (inv_of_guarded (Named keys) named_step ?_ hguard)
  exact ⟨by simp [start, Stage.open?], by simp [start, Stage.held?]⟩

end Steps

/-! ## The prune keeps away from a lock that is in use -/

section Timed

variable [DecidableEq η] {keys : η → String} {maxAge : Nat} {w : World η ρ}

/-- When the prune finds a file too old, no hook is about to take its lock, and a hook that holds it
has not held it for longer than that; and no hook opens a file that a prune is at. -/
def KeepsTime (keys : η → String) (maxAge : Nat) (w : World η ρ) : Act η ρ → Prop
  | .look q key => w.prunes q = .idle → isStale maxAge w key = true → ∀ h, keys h = key →
      match w.stages h with
      | .polling _ _ | .locked _ => False
      | .holding _ since => w.clock ≤ since + maxAge
      | _ => True
  | .step h _ => w.stages h = .ready → ∀ q, (w.prunes q).key? ≠ some (keys h)
  | _ => True

/-- A lock that is held is not older than its hold. -/
def Fresh (w : World η ρ) : Prop :=
  ∀ h i since, w.stages h = .holding i since →
    since ≤ w.clock ∧ ∃ file, w.disk.file i = some file ∧ since ≤ file.stamp

/-- No hook has a file open that a prune is at. -/
def Untouched (keys : η → String) (w : World η ρ) : Prop :=
  ∀ q h, (w.prunes q).key? = some (keys h) → (w.stages h).open? = none

/-- No stamp goes back, but to the time of the clock. -/
def Later (clock : Nat) (d d' : Inodes String (LockFile η)) : Prop :=
  ∀ i file, d.file i = some file → ∃ file', d'.file i = some file' ∧
    ∀ time, time ≤ clock → time ≤ file.stamp → time ≤ file'.stamp

omit [DecidableEq η] in
theorem later_refl (clock : Nat) (d : Inodes String (LockFile η)) : Later clock d d :=
  fun _ file hfile => ⟨file, hfile, fun _ _ h => h⟩

omit [DecidableEq η] in
theorem later_create (clock : Nat) (d : Inodes String (LockFile η)) (key : String)
    (file : LockFile η) : Later clock d (d.create key file) := by
  intro i old hold
  refine ⟨old, ?_, fun _ _ h => h⟩
  rw [d.file_create_of_lt (d.file_lt hold)]
  exact hold

omit [DecidableEq η] in
theorem later_modify {clock : Nat} (d : Inodes String (LockFile η)) (i : Nat)
    {f : LockFile η → LockFile η}
    (hf : ∀ file time, time ≤ clock → time ≤ file.stamp → time ≤ (f file).stamp) :
    Later clock d (d.modify i f) := by
  intro j file hfile
  by_cases hij : i = j
  · subst hij
    exact ⟨f file, by rw [Inodes.file_modify_self, hfile]; rfl, hf file⟩
  · exact ⟨file, by rw [d.file_modify_of_ne hij]; exact hfile, fun _ _ h => h⟩

/-- A step of hook `h`, which does not begin to hold. -/
theorem Fresh.step (hw : Fresh w) {h : η} {s : Stage} {d : Inodes String (LockFile η)}
    (hd : Later w.clock w.disk d)
    (hs : ∀ i since, s = .holding i since →
      since ≤ w.clock ∧ ∃ file, d.file i = some file ∧ since ≤ file.stamp) :
    Fresh ((w.setDisk d).setStage h s) := by
  intro h' i since hi
  by_cases hne : h' = h
  · subst hne
    simp only [World.setStage, World.setDisk, Function.update_self] at hi
    exact hs i since hi
  · simp only [World.setStage, World.setDisk, Function.update_of_ne hne] at hi
    obtain ⟨hclock, file, hfile, hstamp⟩ := hw h' i since hi
    obtain ⟨file', hfile', hlater⟩ := hd i file hfile
    exact ⟨hclock, file', hfile', hlater since hclock hstamp⟩

theorem Fresh.move (hw : Fresh w) {h : η} {s : Stage} (hs : ∀ i since, s ≠ .holding i since) :
    Fresh (w.setStage h s) :=
  hw.step (later_refl _ _) (fun i since hi => absurd hi (hs i since))

theorem Moves.fresh {w' : World η ρ} {h : η} (hmoves : Moves keys w h w') (hnamed : Named keys w)
    (hw : Fresh w) : Fresh w' := by
  cases hmoves with
  | stay => exact hw
  | close | open_ | poll => exact hw.move (by simp)
  | create => exact hw.step (later_create _ _ _ _) (by simp)
  | @take ino | @release ino =>
      exact hw.step (later_modify _ ino (fun _ _ _ hle => hle)) (by simp)
  | @refresh ino before =>
      refine hw.step (later_modify _ ino (fun _ _ htime _ => htime)) ?_
      intro i since hi
      obtain ⟨rfl, rfl⟩ := Stage.holding.inj hi
      have hname := hnamed.named h ino (by rw [before]; rfl)
      refine ⟨Nat.le_refl _, ?_⟩
      rw [Inodes.file_modify_self, Inodes.file, List.getElem?_eq_getElem (w.disk.ok _ ino hname)]
      exact ⟨_, rfl, Nat.le_refl _⟩

/-- A hook has only a file open that it had open before, or it was ready. -/
theorem Moves.closed {w' : World η ρ} {h h' : η} (hmoves : Moves keys w h w')
    (hready : w.stages h = .ready → h' ≠ h) (hopen : (w.stages h').open? = none) :
    (w'.stages h').open? = none := by
  by_cases hne : h' = h
  · subst hne
    have hno : ∀ {s i}, w.stages h' = s → s.open? = some i → (w'.stages h').open? = none := by
      rintro s i rfl hi
      exact absurd (hopen.symm.trans hi) (by simp)
    cases hmoves with
    | stay => exact hopen
    | open_ before | create before => exact absurd rfl (hready before)
    | poll before | take before | refresh before => exact hno before rfl
    | close | release => simp [World.setStage, World.setDisk, Stage.open?]
  · cases hmoves <;> simpa [World.setStage, World.setDisk, hne] using hopen

/-- What holds where every hook and every prune keeps its time. -/
structure Kept (keys : η → String) (w : World η ρ) : Prop where
  named : Named keys w
  fresh : Fresh w
  untouched : Untouched keys w

omit [DecidableEq η] in
/-- A hook has no file of a prune open, so the prune removes none that is open. -/
theorem Kept.removesNoOpenFile (hw : Kept keys w) (act : Act η ρ) :
    RemovesNoOpenFile keys w act := by
  cases act with
  | look q key =>
      intro h hprune
      exact hw.untouched q h (by rw [hprune]; rfl)
  | _ => trivial

omit [DecidableEq η] in
/-- A lock that the prune finds too old is not open. -/
theorem Kept.closed_of_stale (hw : Kept keys w) {q : ρ} {key : String}
    (hguard : KeepsTime keys maxAge w (.look q key)) (hprune : w.prunes q = .idle)
    (hstale : isStale maxAge w key = true) {h : η} (hkey : keys h = key) :
    (w.stages h).open? = none := by
  have htime := hguard hprune hstale h hkey
  cases hstage : w.stages h with
  | ready | finished => rfl
  | polling ino polls | locked ino =>
      rw [hstage] at htime
      exact absurd htime id
  | holding ino since =>
      rw [hstage] at htime
      obtain ⟨-, file, hfile, hstamp⟩ := hw.fresh h ino since hstage
      have hname := hw.named.named h ino (by rw [hstage]; rfl)
      have hread : w.disk.read key = some file := by
        rw [← hkey, Inodes.read, hname]
        exact hfile
      simp only [isStale, hread, decide_eq_true_eq] at hstale
      omega

variable [DecidableEq ρ]

omit [DecidableEq η] in
theorem Kept.fresh_stepPrune (hw : Kept keys w) (maxAge : Nat) (q : ρ) (key : String) :
    Fresh (stepPrune maxAge w q key) := by
  unfold stepPrune
  cases w.prunes q with
  | idle => dsimp only; split <;> exact hw.fresh
  | stale key' => exact hw.fresh
  | orphan key' => exact hw.fresh

omit [DecidableEq η] in
/-- No prune comes to a file that a hook has open: it begins with files whose locks are all too
old, and the other hooks keep off. -/
theorem Kept.untouched_stepPrune (hw : Kept keys w) {q : ρ} {key : String}
    (hguard : KeepsTime keys maxAge w (.look q key)) :
    Untouched keys (stepPrune maxAge w q key) := by
  intro q' h hprune
  simp only [stepPrune] at hprune ⊢
  cases hq : w.prunes q with
  | idle =>
      simp only [hq] at hprune ⊢
      split at hprune
      · next hstale =>
          simp only [hstale, if_true]
          by_cases hne : q' = q
          · subst hne
            have hkey : key = keys h := by simpa [World.setPrune, Prune.key?] using hprune
            exact hw.closed_of_stale hguard hq hstale hkey.symm
          · exact hw.untouched q' h (by simpa [World.setPrune, hne] using hprune)
      · next hstale =>
          simp only [hstale]
          exact hw.untouched q' h hprune
  | stale key' =>
      simp only [hq] at hprune ⊢
      by_cases hne : q' = q
      · subst hne
        refine hw.untouched q' h ?_
        rw [hq]
        cases hthere : w.sessions key' with
        | true => simp [World.setPrune, Prune.key?, hthere] at hprune
        | false => simpa [World.setPrune, Prune.key?, hthere] using hprune
      · exact hw.untouched q' h (by simpa [World.setPrune, hne] using hprune)
  | orphan key' =>
      simp only [hq] at hprune ⊢
      by_cases hne : q' = q
      · subst hne
        simp [World.setPrune, Prune.key?] at hprune
      · exact hw.untouched q' h (by simpa [World.setPrune, World.setDisk, hne] using hprune)

theorem Kept.step (w : World η ρ) (act : Act η ρ) (hw : Kept keys w)
    (hguard : KeepsTime keys maxAge w act) : Kept keys (step keys maxAge w act) := by
  have hnamed : Named keys (StateLock.step keys maxAge w act) :=
    named_step w act hw.named (hw.removesNoOpenFile act)
  cases act with
  | tick time =>
      refine ⟨hnamed, ?_, hw.untouched⟩
      intro h i since hi
      obtain ⟨hclock, hfile⟩ := hw.fresh h i since hi
      exact ⟨Nat.le_trans hclock (Nat.le_add_right _ _), hfile⟩
  | session key there => exact ⟨hnamed, hw.fresh, hw.untouched⟩
  | step h ok =>
      have hmoves : Moves keys w h (stepHook keys w h ok) := stepHook_moves w h ok
      refine ⟨hnamed, hmoves.fresh hw.named hw.fresh, ?_⟩
      intro q h' hprune
      have hprunes : (stepHook keys w h ok).prunes = w.prunes := hmoves.prunes
      rw [StateLock.step, hprunes] at hprune
      refine hmoves.closed ?_ (hw.untouched q h' hprune)
      rintro hready rfl
      exact hguard hready q hprune
  | leave h =>
      have hmoves : Moves keys w h (StateLock.leave w h) := leave_moves w h
      refine ⟨hnamed, hmoves.fresh hw.named hw.fresh, ?_⟩
      intro q h' hprune
      rw [StateLock.step, hmoves.prunes] at hprune
      by_cases hne : h' = h
      · subst hne
        exact open_leave w h'
      · exact hmoves.closed (fun _ => hne) (hw.untouched q h' hprune)
  | look q key => exact ⟨hnamed, hw.fresh_stepPrune maxAge q key, hw.untouched_stepPrune hguard⟩

/-- The lock excludes in every run in which no hook is about to take a lock while a prune is at its
file, and no lock is held for longer than the age from which the prune removes it. -/
theorem exclusive_of_timed_run (keys : η → String) (maxAge : Nat)
    (disk : Inodes String (LockFile η)) (clock : Nat) (sessions : String → Bool)
    (acts : List (Act η ρ))
    (hguard : Guarded (step keys maxAge) (KeepsTime keys maxAge) (start disk clock sessions) acts) :
    Exclusive keys (runFrom (step keys maxAge) (start disk clock sessions) acts) := by
  refine (inv_of_guarded (Kept keys) Kept.step ?_ hguard).named.exclusive
  exact ⟨⟨by simp [start, Stage.open?], by simp [start, Stage.held?]⟩, by simp [Fresh, start],
    by simp [Untouched, start, Prune.key?]⟩

end Timed

end Exclusive

/-! ## Two hooks of one session -/

def noLocks : Inodes String (LockFile Bool) := Inodes.empty

/-- One hook takes the lock and gives it back, and the prune looks at the fresh file. -/
def handOver : List (Act Bool Unit) :=
  [.step true true, .step true true, .step true true, .step false true, .look () "s",
    .leave true, .step false true, .step false true]

theorem exclusive_of_hand_over :
    Exclusive (fun _ => "s") (runFrom (step (fun _ => "s") 7) (start noLocks 0 fun _ => false)
      handOver) := by
  refine exclusive_of_run (fun _ => "s") 7 noLocks 0 (fun _ => false) handOver ?_
  refine ⟨trivial, trivial, trivial, trivial, ?_, trivial, trivial, trivial, trivial⟩
  intro h hprune
  cases h <;> exact absurd hprune (by decide)

theorem exclusive_of_timed_hand_over :
    Exclusive (fun _ => "s") (runFrom (step (fun _ => "s") 7) (start noLocks 0 fun _ => false)
      handOver) := by
  refine exclusive_of_timed_run (fun _ => "s") 7 noLocks 0 (fun _ => false) handOver ?_
  refine ⟨?_, ?_, ?_, ?_, ?_, trivial, ?_, ?_, trivial⟩
  · exact fun _ q => by cases q; decide
  · exact fun hready => absurd hready (by decide)
  · exact fun hready => absurd hready (by decide)
  · exact fun _ q => by cases q; decide
  · exact fun _ hstale => absurd hstale (by decide)
  · exact fun hready => absurd hready (by decide)
  · exact fun hready => absurd hready (by decide)

/-- An old lock file is taken between the look of the prune at it and its removal, and a second hook
makes the name anew. -/
example :
    let w := runFrom (step (fun _ => "s") 7)
      (start (noLocks.create "s" ⟨0, none⟩) 8 fun _ => false : World Bool Unit)
      [.look () "s", .look () "s", .step true true, .step true true, .step true true, .look () "s",
        .step false true, .step false true, .step false true]
    (w.stages true).held?.isSome ∧ (w.stages false).held?.isSome := by decide

end Llmenv.HookRun.StateLock
