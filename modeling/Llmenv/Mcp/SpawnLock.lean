/-
# `Llmenv.Mcp.SpawnLock` — one proxy start at a time

`try_lock`, `release_lock` and `lock_holder` of `src/proxy/lockfile.rs`, and the
way `ensure_running_within` and `adopt_or_reclaim` of `src/proxy.rs` use them.
An export writes its pid to a staging file of its own and links that file to the
path of the lock; who finds the lock reads the pid in it, and removes a lock
whose holder does not run.

Exports run at once, stop anywhere, and have their calls fail.  The lock never
has half a pid, and while its holder runs it names that holder
(`lock_names_holder_of_run`).  A look at the lock and its removal are two calls,
so an export can remove a lock that was taken in between; where no lock is taken
between the two, at most one export has it (`exclusive_export_of_run`).
-/
import Llmenv.Lib.Inodes
import Llmenv.Lib.Runs
import Llmenv.Lib.Separated

namespace Llmenv.Mcp.SpawnLock

open Llmenv.Lib

/-! ## The code -/

/-- `<lock>.<pid>.staging`. -/
def stagingPath (lock : String) (pid : Nat) : String := lock ++ "." ++ toString pid ++ ".staging"

def u32Max : Nat := 4294967295

/-- The pid in the lock, when it can be read and is one. -/
def lockHolder (text : Option String) : Option Nat :=
  text.bind fun text => Text.parseUnsigned u32Max (Text.trim text.toList)

/-- How far a call of `ensure_running_within` is; `again` is the second `try_lock`, after a
reclaim. -/
inductive Stage where
  | off
  /-- The old staging file is to be removed. -/
  | clearing (again : Bool)
  | creating (again : Bool)
  | writing (again : Bool) (ino : Nat)
  | written (again : Bool) (ino : Nat)
  /-- The link was made, or there was a lock, or it failed. -/
  | linked (again : Bool) (made : Option Bool) (ino : Nat)
  /-- In `spawn_and_publish`. -/
  | holding (ino : Nat)
  /-- A peer has the lock. -/
  | looking
  | judging (holder : Nat)
  | waiting (holder : Nat)
  /-- The lock has no live holder. -/
  | probing
  | reclaiming
  | finished
deriving DecidableEq

/-- What the calls of a step give. -/
structure Io where
  ok : Bool := true
  /-- How much of a failed write there is. -/
  wrote : Nat := 0
  alive : Option Bool := none
  up : Bool := false

structure World (π : Type) where
  disk : Inodes String String
  stages : π → Stage

inductive Act (π : Type) where
  | step (p : π) (io : Io)
  /-- The process ends where it is. -/
  | die (p : π)

section Steps

variable {π : Type} [DecidableEq π]

def World.setStage (w : World π) (p : π) (stage : Stage) : World π :=
  { w with stages := Function.update w.stages p stage }

def World.setDisk (w : World π) (disk : Inodes String String) : World π := { w with disk := disk }

/-- The end of `try_lock`. -/
def afterTry (again : Bool) (made : Option Bool) (ino : Nat) : Stage :=
  match made with
  | some true => .holding ino
  | some false => if again then .finished else .looking
  | none => .finished

variable (lock : String) (pids : π → Nat)

/-- `hard_link` of the staging file. -/
def linkStaging (w : World π) (p : π) (again : Bool) (ino : Nat) (io : Io) : World π :=
  if !io.ok || (w.disk.names (stagingPath lock (pids p))).isNone then
    w.setStage p (.linked again none ino)
  else if (w.disk.names lock).isSome then w.setStage p (.linked again (some false) ino)
  else (w.setDisk (w.disk.link (stagingPath lock (pids p)) lock)).setStage p
    (.linked again (some true) ino)

/-- `ensure_running_within`, one call at a time. -/
def stepExport (w : World π) (p : π) (io : Io) : World π :=
  match w.stages p with
  | .off => w.setStage p (if io.up || !io.ok then .finished else .clearing false)
  | .clearing again =>
      if !io.ok then w.setStage p .finished
      else (w.setDisk (w.disk.unlink (stagingPath lock (pids p)))).setStage p (.creating again)
  | .creating again =>
      if !io.ok || (w.disk.names (stagingPath lock (pids p))).isSome then w.setStage p .finished
      else (w.setDisk (w.disk.create (stagingPath lock (pids p)) "")).setStage p
        (.writing again w.disk.files.length)
  | .writing again ino =>
      if !io.ok then
        (w.setDisk (w.disk.modify ino fun _ =>
          String.ofList ((toString (pids p)).toList.take io.wrote))).setStage p .finished
      else (w.setDisk (w.disk.modify ino fun _ => toString (pids p))).setStage p (.written again ino)
  | .written again ino => linkStaging lock pids w p again ino io
  | .linked again made ino =>
      -- A staging file that stays is only told.
      (w.setDisk (if io.ok then w.disk.unlink (stagingPath lock (pids p)) else w.disk)).setStage p
        (afterTry again made ino)
  | .holding _ => (w.setDisk (if io.ok then w.disk.unlink lock else w.disk)).setStage p .finished
  | .looking =>
      if !io.ok then w.setStage p .finished
      else
        match lockHolder (w.disk.read lock) with
        | none => w.setStage p .probing
        | some holder => w.setStage p (.judging holder)
  | .judging holder => w.setStage p (if io.alive = some false then .probing else .waiting holder)
  | .waiting _ => w.setStage p .finished
  | .probing => w.setStage p (if io.up then .finished else .reclaiming)
  | .reclaiming =>
      if !io.ok then w.setStage p .finished
      else (w.setDisk (w.disk.unlink lock)).setStage p (.clearing true)
  | .finished => w

def step (w : World π) : Act π → World π
  | .step p io => stepExport lock pids w p io
  | .die p => w.setStage p .finished

end Steps

/-! ## What an export can do -/

/-- The process runs, and has not returned. -/
def Stage.running : Stage → Bool
  | .off | .finished => false
  | _ => true

/-- The staging file that is not linked yet. -/
def Stage.staged? : Stage → Option Nat
  | .writing _ ino | .written _ ino => some ino
  | _ => none

/-- The file that has the whole pid. -/
def Stage.whole? : Stage → Option Nat
  | .written _ ino | .linked _ _ ino | .holding ino => some ino
  | _ => none

/-- The file that it made. -/
def Stage.ino? : Stage → Option Nat
  | .writing _ ino | .written _ ino | .linked _ _ ino | .holding ino => some ino
  | _ => none

/-- The file that it put at the path of the lock. -/
def Stage.won? : Stage → Option Nat
  | .linked _ (some true) ino | .holding ino => some ino
  | _ => none

/-- It has looked at the lock, and may remove it. -/
def Stage.reclaims : Stage → Bool
  | .judging _ | .probing | .reclaiming => true
  | _ => false

section Moves

variable {π : Type} [DecidableEq π] {lock : String} {pids : π → Nat}

/-- A new process has a pid of its own, and `kill -0` finds each process that runs. -/
def Env (pids : π → Nat) (w : World π) : Act π → Prop
  | .step p io =>
      (w.stages p = .off → ∀ q, (w.stages q).running = true → pids q ≠ pids p) ∧
      ∀ holder, w.stages p = .judging holder → io.alive = some false →
        ∀ q, (w.stages q).running = true → pids q ≠ holder
  | .die _ => True

/-- All that a call of export `p`, or its end, can do. -/
inductive Moves (lock : String) (pids : π → Nat) (w : World π) (p : π) : World π → Prop
  | stay : Moves lock pids w p w
  | quit : Moves lock pids w p (w.setStage p .finished)
  | start (before : w.stages p = .off)
      (fresh : ∀ q, (w.stages q).running = true → pids q ≠ pids p) :
      Moves lock pids w p (w.setStage p (.clearing false))
  | clear {again : Bool} (before : w.stages p = .clearing again) :
      Moves lock pids w p
        ((w.setDisk (w.disk.unlink (stagingPath lock (pids p)))).setStage p (.creating again))
  | create {again : Bool} (before : w.stages p = .creating again) :
      Moves lock pids w p ((w.setDisk (w.disk.create (stagingPath lock (pids p)) "")).setStage p
        (.writing again w.disk.files.length))
  | failWrite {again : Bool} {ino : Nat} (before : w.stages p = .writing again ino)
      (text : String) :
      Moves lock pids w p ((w.setDisk (w.disk.modify ino fun _ => text)).setStage p .finished)
  | write {again : Bool} {ino : Nat} (before : w.stages p = .writing again ino) :
      Moves lock pids w p ((w.setDisk (w.disk.modify ino fun _ => toString (pids p))).setStage p
        (.written again ino))
  | link {again : Bool} {ino : Nat} (before : w.stages p = .written again ino)
      (absent : w.disk.names lock = none) :
      Moves lock pids w p ((w.setDisk (w.disk.link (stagingPath lock (pids p)) lock)).setStage p
        (.linked again (some true) ino))
  | noLink {again : Bool} {ino : Nat} {made : Option Bool}
      (before : w.stages p = .written again ino) (hmade : made ≠ some true) :
      Moves lock pids w p (w.setStage p (.linked again made ino))
  | tidy {again : Bool} {made : Option Bool} {ino : Nat} {disk : Inodes String String}
      (before : w.stages p = .linked again made ino)
      (hdisk : disk = w.disk ∨ disk = w.disk.unlink (stagingPath lock (pids p))) :
      Moves lock pids w p ((w.setDisk disk).setStage p (afterTry again made ino))
  | release {ino : Nat} {disk : Inodes String String} (before : w.stages p = .holding ino)
      (hdisk : disk = w.disk ∨ disk = w.disk.unlink lock) :
      Moves lock pids w p ((w.setDisk disk).setStage p .finished)
  | see {holder : Nat} (before : w.stages p = .looking)
      (hread : lockHolder (w.disk.read lock) = some holder) :
      Moves lock pids w p (w.setStage p (.judging holder))
  | seeNone (before : w.stages p = .looking) (hread : lockHolder (w.disk.read lock) = none) :
      Moves lock pids w p (w.setStage p .probing)
  | wait {holder : Nat} (before : w.stages p = .judging holder) :
      Moves lock pids w p (w.setStage p (.waiting holder))
  | dead {holder : Nat} (before : w.stages p = .judging holder)
      (gone : ∀ q, (w.stages q).running = true → pids q ≠ holder) :
      Moves lock pids w p (w.setStage p .probing)
  | down (before : w.stages p = .probing) : Moves lock pids w p (w.setStage p .reclaiming)
  | reclaim (before : w.stages p = .reclaiming) :
      Moves lock pids w p ((w.setDisk (w.disk.unlink lock)).setStage p (.clearing true))

theorem linkStaging_moves {w : World π} {p : π} {again : Bool} {ino : Nat} (io : Io)
    (before : w.stages p = .written again ino) :
    Moves lock pids w p (linkStaging lock pids w p again ino io) := by
  unfold linkStaging
  split
  · exact .noLink before (by simp)
  · split
    · exact .noLink before (by simp)
    · next habsent => exact .link before (Option.not_isSome_iff_eq_none.mp habsent)

theorem stepExport_moves {w : World π} {p : π} {io : Io} (henv : Env pids w (.step p io)) :
    Moves lock pids w p (stepExport lock pids w p io) := by
  unfold stepExport
  cases hstage : w.stages p with
  | off =>
      dsimp only
      split
      · exact .quit
      · exact .start hstage (henv.1 hstage)
  | clearing again =>
      dsimp only
      split
      · exact .quit
      · exact .clear hstage
  | creating again =>
      dsimp only
      split
      · exact .quit
      · exact .create hstage
  | writing again ino =>
      dsimp only
      split
      · exact .failWrite hstage _
      · exact .write hstage
  | written again ino => exact linkStaging_moves io hstage
  | linked again made ino =>
      refine .tidy hstage ?_
      split
      · exact .inr rfl
      · exact .inl rfl
  | holding ino =>
      refine .release hstage ?_
      split
      · exact .inr rfl
      · exact .inl rfl
  | looking =>
      dsimp only
      split
      · exact .quit
      · cases hread : lockHolder (w.disk.read lock) with
        | none => exact .seeNone hstage hread
        | some holder => exact .see hstage hread
  | judging holder =>
      dsimp only
      split
      · next halive => exact .dead hstage (henv.2 holder hstage halive)
      · exact .wait hstage
  | waiting holder => exact .quit
  | probing =>
      dsimp only
      split
      · exact .quit
      · exact .down hstage
  | reclaiming =>
      dsimp only
      split
      · exact .quit
      · exact .reclaim hstage
  | finished => exact .stay

end Moves

/-! ## The lock is whole -/

theorem stagingPath_ne (lock : String) (pid : Nat) : stagingPath lock pid ≠ lock := by
  intro h
  have hlen := congrArg String.length h
  simp only [stagingPath, String.length_append] at hlen
  have hdot : ".".length = 1 := by decide
  omega

theorem stagingPath_inj {lock : String} {m n : Nat} (h : stagingPath lock m = stagingPath lock n) :
    m = n := by
  have hlist := congrArg String.toList h
  simp only [stagingPath, String.toList_append, Nat.toString_eq_ofList_toDigits,
    String.toList_ofList, List.append_assoc] at hlist
  have hdigits : Nat.toDigits 10 m ++ ".staging".toList = Nat.toDigits 10 n ++ ".staging".toList :=
    List.append_cancel_left (List.append_cancel_left hlist)
  exact Separated.toDigits_inj (List.append_cancel_right hdigits)

theorem lockHolder_toString {n : Nat} (hn : n ≤ u32Max) :
    lockHolder (some (toString n)) = some n := by
  rw [lockHolder, Option.bind_some, Nat.toString_eq_ofList_toDigits, String.toList_ofList,
    Separated.trim_toDigits, Text.parseUnsigned, Text.stripPrefix_sign_toDigits '+' (by decide),
    Option.getD_none, Text.digits?_toDigits]
  simpa using hn

section Files

variable {π : Type} {lock : String} {pids : π → Nat}

/-- What the files of the exports are. -/
structure Files (lock : String) (pids : π → Nat) (w : World π) : Prop where
  unique : ∀ p q, (w.stages p).running = true → (w.stages q).running = true →
    pids p = pids q → p = q
  bound : ∀ p i, (w.stages p).ino? = some i → i < w.disk.files.length
  distinct : ∀ p q i, (w.stages p).ino? = some i → (w.stages q).ino? = some i → p = q
  staged : ∀ p i, (w.stages p).staged? = some i →
    w.disk.names (stagingPath lock (pids p)) = some i ∧ w.disk.names lock ≠ some i
  whole : ∀ p i, (w.stages p).whole? = some i → w.disk.file i = some (toString (pids p))
  complete : ∀ i, w.disk.names lock = some i → ∃ n : Nat, w.disk.file i = some (toString n)

theorem ino_of_staged {s : Stage} {i : Nat} (h : s.staged? = some i) : s.ino? = some i := by
  cases s <;> simp_all [Stage.staged?, Stage.ino?]

theorem ino_of_whole {s : Stage} {i : Nat} (h : s.whole? = some i) : s.ino? = some i := by
  cases s <;> simp_all [Stage.whole?, Stage.ino?]

theorem running_of_ino {s : Stage} {i : Nat} (h : s.ino? = some i) : s.running = true := by
  cases s <;> simp_all [Stage.running, Stage.ino?]

variable {w : World π} {p : π}

/-- What must hold of a step of export `p` to stage `s`, with the disk `d` after it. -/
structure Ok (lock : String) (pids : π → Nat) (w : World π) (p : π) (s : Stage)
    (d : Inodes String String) : Prop where
  length : w.disk.files.length ≤ d.files.length
  running : s.running = true → (w.stages p).running = true ∨
    ∀ q, (w.stages q).running = true → pids q ≠ pids p
  ino : ∀ i, s.ino? = some i →
    (w.stages p).ino? = some i ∨ (w.disk.files.length ≤ i ∧ i < d.files.length)
  staged : ∀ i, s.staged? = some i →
    d.names (stagingPath lock (pids p)) = some i ∧ d.names lock ≠ some i
  whole : ∀ i, s.whole? = some i → d.file i = some (toString (pids p))
  /-- The other exports keep their staging files, and what is in their files. -/
  othersStaged : ∀ q i, q ≠ p → (w.stages q).staged? = some i →
    d.names (stagingPath lock (pids q)) = some i ∧ d.names lock ≠ some i
  othersWhole : ∀ q i, q ≠ p → (w.stages q).whole? = some i → d.file i = some (toString (pids q))
  complete : ∀ i, d.names lock = some i → ∃ n : Nat, d.file i = some (toString n)

/-- A step that leaves the disk as it is. -/
theorem Files.ok_same (hw : Files lock pids w) {s : Stage}
    (hrun : s.running = true → (w.stages p).running = true ∨
      ∀ q, (w.stages q).running = true → pids q ≠ pids p)
    (hino : ∀ i, s.ino? = some i → (w.stages p).ino? = some i) (hstaged : s.staged? = none)
    (hwhole : ∀ i, s.whole? = some i → (w.stages p).whole? = some i) :
    Ok lock pids w p s w.disk where
  length := Nat.le_refl _
  running := hrun
  ino i hi := .inl (hino i hi)
  staged i hi := absurd (hstaged.symm.trans hi) (by simp)
  whole i hi := hw.whole p i (hwhole i hi)
  othersStaged q i _ hi := hw.staged q i hi
  othersWhole q i _ hi := hw.whole q i hi
  complete := hw.complete

theorem names_of_unlink {d : Inodes String String} {m n : String} {i : Nat}
    (h : (d.unlink n).names m = some i) : d.names m = some i := by
  by_cases hmn : m = n
  · subst hmn
    simp at h
  · rwa [d.names_unlink_of_ne hmn] at h

/-- A step that removes a name, which is not the staging file of another export. -/
theorem Files.ok_unlink (hw : Files lock pids w) {s : Stage} {n : String}
    (hn : ∀ q, q ≠ p → (w.stages q).running = true → stagingPath lock (pids q) ≠ n)
    (hrun : (w.stages p).running = true)
    (hino : ∀ i, s.ino? = some i → (w.stages p).ino? = some i) (hstaged : s.staged? = none)
    (hwhole : ∀ i, s.whole? = some i → (w.stages p).whole? = some i) :
    Ok lock pids w p s (w.disk.unlink n) where
  length := Nat.le_refl _
  running _ := .inl hrun
  ino i hi := .inl (hino i hi)
  staged i hi := absurd (hstaged.symm.trans hi) (by simp)
  whole i hi := hw.whole p i (hwhole i hi)
  othersStaged q i hqp hi := by
    have hne := hn q hqp (running_of_ino (ino_of_staged hi))
    rw [w.disk.names_unlink_of_ne hne]
    exact ⟨(hw.staged q i hi).1, fun h => (hw.staged q i hi).2 (names_of_unlink h)⟩
  othersWhole q i _ hi := hw.whole q i hi
  complete i hi := hw.complete i (names_of_unlink hi)

/-- The staging files of two exports have different names. -/
theorem Files.staging_ne (hw : Files lock pids w) {q : π} (hqp : q ≠ p)
    (hq : (w.stages q).running = true) (hp : (w.stages p).running = true) :
    stagingPath lock (pids q) ≠ stagingPath lock (pids p) :=
  fun h => hqp (hw.unique q p hq hp (stagingPath_inj h))

theorem Files.ok_create (hw : Files lock pids w) {again : Bool}
    (before : w.stages p = .creating again) :
    Ok lock pids w p (.writing again w.disk.files.length)
      (w.disk.create (stagingPath lock (pids p)) "") := by
  have hlock := w.disk.names_create_of_ne (stagingPath_ne lock (pids p)).symm ""
  have hrun : (w.stages p).running = true := by rw [before]; rfl
  refine ⟨by simp [Inodes.create], fun _ => .inl hrun, ?_, ?_, by simp [Stage.whole?], ?_, ?_, ?_⟩
  · intro i hi
    obtain rfl := Option.some.inj hi
    exact .inr ⟨Nat.le_refl _, by simp [Inodes.create]⟩
  · intro i hi
    obtain rfl := Option.some.inj hi
    rw [hlock]
    exact ⟨w.disk.names_create_self _, w.disk.names_ne_length lock⟩
  · intro q i hqp hi
    have hne := hw.staging_ne hqp (running_of_ino (ino_of_staged hi)) hrun
    rw [hlock, w.disk.names_create_of_ne hne]
    exact hw.staged q i hi
  · intro q i _ hi
    rw [w.disk.file_create_of_lt (hw.bound q i (ino_of_whole hi))]
    exact hw.whole q i hi
  · intro i hi
    rw [hlock] at hi
    rw [w.disk.file_create_of_lt (w.disk.ok _ i hi)]
    exact hw.complete i hi

/-- A write to the file of `p` that is not linked yet. -/
theorem Files.ok_write (hw : Files lock pids w) {again : Bool} {ino : Nat} {s : Stage}
    (before : w.stages p = .writing again ino) (text : String)
    (hs : s = .finished ∨ (s = .written again ino ∧ text = toString (pids p))) :
    Ok lock pids w p s (w.disk.modify ino fun _ => text) := by
  have hino : (w.stages p).ino? = some ino := by rw [before]; rfl
  have hstaged := hw.staged p ino (by rw [before]; rfl)
  have hfile : (w.disk.modify ino fun _ => text).file ino = some text := by
    rw [Inodes.file_modify_self, Inodes.file, List.getElem?_eq_getElem (hw.bound p ino hino)]
    rfl
  refine ⟨by simp [Inodes.modify], fun _ => .inl (by rw [before]; rfl), ?_, ?_, ?_, ?_, ?_, ?_⟩
  · intro i hi
    rcases hs with rfl | ⟨rfl, -⟩
    · exact absurd hi (by simp [Stage.ino?])
    · exact .inl (hino.trans hi)
  · intro i hi
    rcases hs with rfl | ⟨rfl, -⟩
    · exact absurd hi (by simp [Stage.staged?])
    · obtain rfl := Option.some.inj hi
      exact hstaged
  · intro i hi
    rcases hs with rfl | ⟨rfl, rfl⟩
    · exact absurd hi (by simp [Stage.whole?])
    · obtain rfl := Option.some.inj hi
      exact hfile
  · exact fun q i _ hi => hw.staged q i hi
  · intro q i hqp hi
    have hne : ino ≠ i := by
      rintro rfl
      exact hqp (hw.distinct q p ino (ino_of_whole hi) hino)
    rw [w.disk.file_modify_of_ne hne]
    exact hw.whole q i hi
  · intro i hi
    have hne : ino ≠ i := by
      rintro rfl
      exact hstaged.2 hi
    rw [w.disk.file_modify_of_ne hne]
    exact hw.complete i hi

theorem Files.ok_link (hw : Files lock pids w) {again : Bool} {ino : Nat}
    (before : w.stages p = .written again ino) :
    Ok lock pids w p (.linked again (some true) ino)
      (w.disk.link (stagingPath lock (pids p)) lock) := by
  have hino : (w.stages p).ino? = some ino := by rw [before]; rfl
  have hstaged := hw.staged p ino (by rw [before]; rfl)
  have hwhole := hw.whole p ino (by rw [before]; rfl)
  have hlock : (w.disk.link (stagingPath lock (pids p)) lock).names lock = some ino := by
    rw [Inodes.names_link_self]
    exact hstaged.1
  refine ⟨Nat.le_refl _, fun _ => .inl (by rw [before]; rfl), fun i hi => .inl (hino.trans hi),
    by simp [Stage.staged?], ?_, ?_, fun q i _ hi => hw.whole q i hi, ?_⟩
  · intro i hi
    obtain rfl := Option.some.inj hi
    exact hwhole
  · intro q i hqp hi
    rw [w.disk.names_link_of_ne (stagingPath_ne lock (pids q)), hlock]
    refine ⟨(hw.staged q i hi).1, ?_⟩
    intro heq
    obtain rfl := Option.some.inj heq
    exact hqp (hw.distinct q p ino (ino_of_staged hi) hino)
  · intro i hi
    obtain rfl := Option.some.inj (hlock.symm.trans hi)
    exact ⟨pids p, hwhole⟩

theorem afterTry_ino {again : Bool} {made : Option Bool} {ino i : Nat}
    (h : (afterTry again made ino).ino? = some i) : ino = i ∧ made = some true := by
  unfold afterTry at h
  split at h
  · exact ⟨Option.some.inj h, rfl⟩
  · split at h <;> exact absurd h (by simp [Stage.ino?])
  · exact absurd h (by simp [Stage.ino?])

theorem afterTry_staged (again : Bool) (made : Option Bool) (ino : Nat) :
    (afterTry again made ino).staged? = none := by
  unfold afterTry
  split
  · rfl
  · split <;> rfl
  · rfl

variable [DecidableEq π]

/-- Two exports of which one has moved: what only one export can do is done by one still, when it
is not done by the one that moved and by another one. -/
theorem eq_of_setStage (R : π → Stage → π → Stage → Prop) {s : Stage}
    (hsymm : ∀ q x r y, R q x r y → R r y q x)
    (hold : ∀ q r, R q (w.stages q) r (w.stages r) → q = r)
    (hnew : ∀ r, r ≠ p → ¬ R p s r (w.stages r)) {q r : π}
    (h : R q (Function.update w.stages p s q) r (Function.update w.stages p s r)) : q = r := by
  by_cases hqp : q = p
  · by_cases hrp : r = p
    · rw [hqp, hrp]
    · subst hqp
      rw [Function.update_self, Function.update_of_ne hrp] at h
      exact absurd h (hnew r hrp)
  · rw [Function.update_of_ne hqp] at h
    by_cases hrp : r = p
    · subst hrp
      rw [Function.update_self] at h
      exact absurd (hsymm _ _ _ _ h) (hnew q hqp)
    · rw [Function.update_of_ne hrp] at h
      exact hold q r h

theorem Files.step (hw : Files lock pids w) {s : Stage} {d : Inodes String String}
    (hok : Ok lock pids w p s d) : Files lock pids ((w.setDisk d).setStage p s) where
  unique q r hq hr hpid := by
    refine eq_of_setStage (fun q x r y => x.running = true ∧ y.running = true ∧ pids q = pids r)
      (fun q x r y h => ⟨h.2.1, h.1, h.2.2.symm⟩) (fun q r h => hw.unique q r h.1 h.2.1 h.2.2)
      ?_ ⟨hq, hr, hpid⟩
    rintro r hrp ⟨hs, hr, hpid⟩
    rcases hok.running hs with hrun | hfresh
    · exact hrp (hw.unique p r hrun hr hpid).symm
    · exact hfresh r hr hpid.symm
  bound q i hi := by
    simp only [World.setStage, World.setDisk] at hi ⊢
    by_cases hqp : q = p
    · subst hqp
      rw [Function.update_self] at hi
      rcases hok.ino i hi with hold | hnew
      · exact Nat.lt_of_lt_of_le (hw.bound q i hold) hok.length
      · exact hnew.2
    · rw [Function.update_of_ne hqp] at hi
      exact Nat.lt_of_lt_of_le (hw.bound q i hi) hok.length
  distinct q r i hq hr := by
    refine eq_of_setStage (fun _ x _ y => x.ino? = some i ∧ y.ino? = some i)
      (fun q x r y h => h.symm) (fun q r h => hw.distinct q r i h.1 h.2) ?_ ⟨hq, hr⟩
    rintro r hrp ⟨hs, hr⟩
    rcases hok.ino i hs with hold | hnew
    · exact hrp (hw.distinct p r i hold hr).symm
    · exact Nat.not_lt.mpr hnew.1 (hw.bound r i hr)
  staged q i hi := by
    simp only [World.setStage, World.setDisk] at hi ⊢
    by_cases hqp : q = p
    · subst hqp
      rw [Function.update_self] at hi
      exact hok.staged i hi
    · rw [Function.update_of_ne hqp] at hi
      exact hok.othersStaged q i hqp hi
  whole q i hi := by
    simp only [World.setStage, World.setDisk] at hi ⊢
    by_cases hqp : q = p
    · subst hqp
      rw [Function.update_self] at hi
      exact hok.whole i hi
    · rw [Function.update_of_ne hqp] at hi
      exact hok.othersWhole q i hqp hi
  complete := hok.complete

theorem Moves.files {w' : World π} (hmoves : Moves lock pids w p w') (hw : Files lock pids w) :
    Files lock pids w' := by
  cases hmoves with
  | stay => exact hw
  | quit =>
      exact hw.step (hw.ok_same (by simp [Stage.running]) (by simp [Stage.ino?]) rfl
        (by simp [Stage.whole?]))
  | start before fresh =>
      exact hw.step (hw.ok_same (fun _ => .inr fresh) (by simp [Stage.ino?]) rfl
        (by simp [Stage.whole?]))
  | clear before =>
      have hrun : (w.stages p).running = true := by rw [before]; rfl
      exact hw.step (hw.ok_unlink (fun q hqp hq => hw.staging_ne hqp hq hrun) hrun
        (by simp [Stage.ino?]) rfl (by simp [Stage.whole?]))
  | create before => exact hw.step (hw.ok_create before)
  | failWrite before text => exact hw.step (hw.ok_write before text (.inl rfl))
  | write before => exact hw.step (hw.ok_write before _ (.inr ⟨rfl, rfl⟩))
  | link before absent => exact hw.step (hw.ok_link before)
  | noLink before hmade =>
      exact hw.step (hw.ok_same (fun _ => .inl (by rw [before]; rfl)) (by simp [before, Stage.ino?])
        rfl (by simp [before, Stage.whole?]))
  | @tidy again made ino disk before hdisk =>
      have hrun : (w.stages p).running = true := by rw [before]; rfl
      have hino : ∀ i, (afterTry again made ino).ino? = some i → (w.stages p).ino? = some i := by
        intro i hi
        rw [before, ← (afterTry_ino hi).1]
        rfl
      have hwhole : ∀ i, (afterTry again made ino).whole? = some i →
          (w.stages p).whole? = some i := by
        intro i hi
        rw [before, ← (afterTry_ino (ino_of_whole hi)).1]
        rfl
      rcases hdisk with rfl | rfl
      · exact hw.step (hw.ok_same (fun _ => .inl hrun) hino (afterTry_staged _ _ _) hwhole)
      · exact hw.step (hw.ok_unlink (fun q hqp hq => hw.staging_ne hqp hq hrun) hrun hino
          (afterTry_staged _ _ _) hwhole)
  | release before hdisk =>
      rcases hdisk with rfl | rfl
      · exact hw.step (hw.ok_same (by simp [Stage.running]) (by simp [Stage.ino?]) rfl
          (by simp [Stage.whole?]))
      · exact hw.step (hw.ok_unlink (fun q _ _ => stagingPath_ne lock _) (by rw [before]; rfl)
          (by simp [Stage.ino?]) rfl (by simp [Stage.whole?]))
  | see before hread | seeNone before hread | wait before | dead before gone | down before =>
      exact hw.step (hw.ok_same (fun _ => .inl (by rw [before]; rfl)) (by simp [Stage.ino?]) rfl
        (by simp [Stage.whole?]))
  | reclaim before =>
      exact hw.step (hw.ok_unlink (fun q _ _ => stagingPath_ne lock _) (by rw [before]; rfl)
        (by simp [Stage.ino?]) rfl (by simp [Stage.whole?]))

end Files

/-! ## At most one export has the lock -/

section Exclusive

variable {π : Type} {lock : String} {pids : π → Nat} {w : World π} {p : π}

/-- At most one export has the lock. -/
def Exclusive (w : World π) : Prop :=
  ∀ p q, (w.stages p).won?.isSome → (w.stages q).won?.isSome → p = q

/-- The lock is where its holder put it, and who is about to remove it saw no live holder. -/
structure Held (lock : String) (pids : π → Nat) (w : World π) : Prop where
  named : ∀ q i, (w.stages q).won? = some i → w.disk.names lock = some i
  judged : ∀ r holder, w.stages r = .judging holder →
    ∀ q i, (w.stages q).won? = some i → pids q = holder
  orphaned : ∀ r, w.stages r = .probing ∨ w.stages r = .reclaiming →
    ∀ q, (w.stages q).won? = none

theorem whole_of_won {s : Stage} {i : Nat} (h : s.won? = some i) : s.whole? = some i := by
  cases s with
  | linked again made ino =>
      cases made with
      | none => exact absurd h (by simp [Stage.won?])
      | some won => cases won <;> simp_all [Stage.won?, Stage.whole?]
  | _ => simp_all [Stage.won?, Stage.whole?]

/-- The lock of a live holder has its pid. -/
theorem Files.lockHolder_eq (hw : Files lock pids w) (hpids : ∀ q, pids q ≤ u32Max) {q : π}
    {i : Nat} (hwon : (w.stages q).won? = some i) (hname : w.disk.names lock = some i) :
    lockHolder (w.disk.read lock) = some (pids q) := by
  have hread : w.disk.read lock = some (toString (pids q)) := by
    rw [Inodes.read, hname]
    exact hw.whole q i (whole_of_won hwon)
  rw [hread, lockHolder_toString (hpids q)]

variable [DecidableEq π]

/-- A step of export `p` that takes no lock. -/
theorem Held.step (hw : Held lock pids w) {s : Stage} {d : Inodes String String}
    (hnames : ∀ q i, q ≠ p → (w.stages q).won? = some i → d.names lock = some i)
    (hself : ∀ i, s.won? = some i → (w.stages p).won? = some i ∧ d.names lock = some i)
    (hjudged : ∀ holder, s = .judging holder → ∀ q i, (w.stages q).won? = some i → pids q = holder)
    (horphaned : s = .probing ∨ s = .reclaiming → ∀ q, (w.stages q).won? = none) :
    Held lock pids ((w.setDisk d).setStage p s) := by
  have hwon : ∀ q i, (((w.setDisk d).setStage p s).stages q).won? = some i →
      (w.stages q).won? = some i ∧ d.names lock = some i := by
    intro q i hi
    simp only [World.setStage, World.setDisk] at hi
    by_cases hqp : q = p
    · subst hqp
      rw [Function.update_self] at hi
      exact hself i hi
    · rw [Function.update_of_ne hqp] at hi
      exact ⟨hi, hnames q i hqp hi⟩
  have hnone : (∀ q, (w.stages q).won? = none) →
      ∀ q, (((w.setDisk d).setStage p s).stages q).won? = none := by
    intro hall q
    cases hq : (((w.setDisk d).setStage p s).stages q).won? with
    | none => rfl
    | some i => exact absurd ((hall q).symm.trans (hwon q i hq).1) (by simp)
  refine ⟨fun q i hi => (hwon q i hi).2, ?_, ?_⟩
  · intro r holder hr q i hi
    simp only [World.setStage, World.setDisk] at hr
    by_cases hrp : r = p
    · subst hrp
      rw [Function.update_self] at hr
      exact hjudged holder hr q i (hwon q i hi).1
    · rw [Function.update_of_ne hrp] at hr
      exact hw.judged r holder hr q i (hwon q i hi).1
  · intro r hr
    simp only [World.setStage, World.setDisk] at hr
    by_cases hrp : r = p
    · subst hrp
      rw [Function.update_self] at hr
      exact hnone (horphaned hr)
    · rw [Function.update_of_ne hrp] at hr
      exact hnone (hw.orphaned r hr)

theorem Held.move (hw : Held lock pids w) {s : Stage} (hself : s.won? = none)
    (hjudged : ∀ holder, s = .judging holder → ∀ q i, (w.stages q).won? = some i → pids q = holder)
    (horphaned : s = .probing ∨ s = .reclaiming → ∀ q, (w.stages q).won? = none) :
    Held lock pids (w.setStage p s) :=
  hw.step (fun q i _ hi => hw.named q i hi) (fun i hi => absurd (hself.symm.trans hi) (by simp))
    hjudged horphaned

theorem afterTry_won {again : Bool} {made : Option Bool} {ino i : Nat}
    (h : (afterTry again made ino).won? = some i) :
    (Stage.linked again made ino).won? = some i := by
  obtain ⟨rfl, rfl⟩ := afterTry_ino (ino_of_whole (whole_of_won h))
  rfl

theorem afterTry_ne (again : Bool) (made : Option Bool) (ino : Nat) :
    (afterTry again made ino).reclaims = false := by
  unfold afterTry
  split
  · rfl
  · split <;> rfl
  · rfl

/-- No lock is taken while an export is between its look at the lock and its removal. -/
def TakesNoLock (lock : String) (w : World π) : Act π → Prop
  | .step p _ => ∀ again ino, w.stages p = .written again ino → w.disk.names lock = none →
      ∀ r, (w.stages r).reclaims = false
  | .die _ => True

/-- Who takes the lock is the only one that has it, and no one is about to remove it. -/
theorem Held.link (hw : Held lock pids w) (hfiles : Files lock pids w) {again : Bool} {ino : Nat}
    (before : w.stages p = .written again ino) (absent : w.disk.names lock = none)
    (hreclaims : ∀ r, (w.stages r).reclaims = false) :
    Held lock pids ((w.setDisk (w.disk.link (stagingPath lock (pids p)) lock)).setStage p
      (.linked again (some true) ino)) := by
  have hnone : ∀ q i, (w.stages q).won? ≠ some i :=
    fun q i hi => absurd (absent.symm.trans (hw.named q i hi)) (by simp)
  have hstill : ∀ r,
      (Function.update w.stages p (.linked again (some true) ino) r).reclaims = false :=
    (Function.forall_update_iff w.stages fun _ s => s.reclaims = false).mpr
      ⟨rfl, fun r _ => hreclaims r⟩
  refine ⟨?_, ?_, ?_⟩
  · intro q i hi
    simp only [World.setStage, World.setDisk] at hi ⊢
    by_cases hqp : q = p
    · subst hqp
      rw [Function.update_self] at hi
      obtain rfl := Option.some.inj hi
      rw [Inodes.names_link_self]
      exact (hfiles.staged q ino (by rw [before]; rfl)).1
    · rw [Function.update_of_ne hqp] at hi
      exact absurd hi (hnone q i)
  · intro r holder hr
    have hno := hstill r
    rw [show Function.update w.stages p _ r = .judging holder from hr] at hno
    exact absurd hno (by simp [Stage.reclaims])
  · intro r hr
    have hno := hstill r
    rcases hr with hr | hr
    · rw [show Function.update w.stages p _ r = .probing from hr] at hno
      exact absurd hno (by simp [Stage.reclaims])
    · rw [show Function.update w.stages p _ r = .reclaiming from hr] at hno
      exact absurd hno (by simp [Stage.reclaims])

theorem Held.tidy (hw : Held lock pids w) {again : Bool} {made : Option Bool} {ino : Nat}
    {disk : Inodes String String} (before : w.stages p = .linked again made ino)
    (hdisk : disk = w.disk ∨ disk = w.disk.unlink (stagingPath lock (pids p))) :
    Held lock pids ((w.setDisk disk).setStage p (afterTry again made ino)) := by
  have hlock : disk.names lock = w.disk.names lock := by
    rcases hdisk with rfl | rfl
    · rfl
    · exact w.disk.names_unlink_of_ne (stagingPath_ne lock _).symm
  have hne := afterTry_ne again made ino
  refine hw.step ?_ ?_ ?_ ?_
  · intro q i _ hi
    rw [hlock]
    exact hw.named q i hi
  · intro i hi
    have hwon : (w.stages p).won? = some i := by
      rw [before]
      exact afterTry_won hi
    exact ⟨hwon, hlock.trans (hw.named p i hwon)⟩
  · intro holder heq
    rw [heq] at hne
    exact absurd hne (by simp [Stage.reclaims])
  · rintro (heq | heq) <;> rw [heq] at hne <;> exact absurd hne (by simp [Stage.reclaims])

theorem Moves.held {w' : World π} (hmoves : Moves lock pids w p w') (hfiles : Files lock pids w)
    (hpids : ∀ q, pids q ≤ u32Max) (hw : Held lock pids w)
    (hguard : ∀ again ino, w.stages p = .written again ino → w.disk.names lock = none →
      ∀ r, (w.stages r).reclaims = false) : Held lock pids w' := by
  cases hmoves with
  | stay => exact hw
  | quit | start | wait => exact hw.move rfl (by simp) (by simp)
  | clear before =>
      refine hw.step (fun q i _ hi => ?_) (by simp [Stage.won?]) (by simp) (by simp)
      rw [w.disk.names_unlink_of_ne (stagingPath_ne lock _).symm]
      exact hw.named q i hi
  | create before =>
      refine hw.step (fun q i _ hi => ?_) (by simp [Stage.won?]) (by simp) (by simp)
      rw [w.disk.names_create_of_ne (stagingPath_ne lock _).symm]
      exact hw.named q i hi
  | failWrite before text | write before =>
      exact hw.step (fun q i _ hi => hw.named q i hi) (by simp [Stage.won?]) (by simp) (by simp)
  | link before absent => exact hw.link hfiles before absent (hguard _ _ before absent)
  | @noLink again ino made before hmade =>
      refine hw.move ?_ (by simp) (by simp)
      cases made with
      | none => rfl
      | some won =>
          cases won with
          | false => rfl
          | true => exact absurd rfl hmade
  | tidy before hdisk => exact hw.tidy before hdisk
  | @release ino disk before hdisk =>
      have hp : (w.stages p).won? = some ino := by rw [before]; rfl
      refine hw.step ?_ (by simp [Stage.won?]) (by simp) (by simp)
      intro q i hqp hi
      have hij := Option.some.inj ((hw.named q i hi).symm.trans (hw.named p ino hp))
      subst hij
      exact absurd (hfiles.distinct q p i (ino_of_whole (whole_of_won hi))
        (ino_of_whole (whole_of_won hp))) hqp
  | @see holder before hread =>
      refine hw.move rfl ?_ (by simp)
      intro holder' heq q i hi
      obtain rfl := Stage.judging.inj heq
      have hq := hfiles.lockHolder_eq hpids hi (hw.named q i hi)
      exact Option.some.inj (hq.symm.trans hread)
  | seeNone before hread =>
      refine hw.move rfl (by simp) (fun _ q => ?_)
      cases hi : (w.stages q).won? with
      | none => rfl
      | some i =>
          have hq := hfiles.lockHolder_eq hpids hi (hw.named q i hi)
          exact absurd (hread.symm.trans hq) (by simp)
  | @dead holder before gone =>
      refine hw.move rfl (by simp) (fun _ q => ?_)
      cases hi : (w.stages q).won? with
      | none => rfl
      | some i =>
          exact absurd (hw.judged p holder before q i hi)
            (gone q (running_of_ino (ino_of_whole (whole_of_won hi))))
  | down before => exact hw.move rfl (by simp) (fun _ => hw.orphaned p (.inl before))
  | reclaim before =>
      refine hw.step (fun q i _ hi => ?_) (by simp [Stage.won?]) (by simp) (by simp)
      exact absurd ((hw.orphaned p (.inr before) q).symm.trans hi) (by simp)

/-- No export has begun. -/
def start (disk : Inodes String String) : World π := ⟨disk, fun _ => .off⟩

omit [DecidableEq π] in
theorem files_start {disk : Inodes String String}
    (hdisk : ∀ text, disk.read lock = some text → ∃ n : Nat, text = toString n) :
    Files lock pids (start disk : World π) := by
  refine ⟨by simp [start, Stage.running], by simp [start, Stage.ino?], by simp [start, Stage.ino?],
    by simp [start, Stage.staged?], by simp [start, Stage.whole?], ?_⟩
  intro i hi
  have hlt : i < disk.files.length := disk.ok _ i hi
  have hfile : disk.file i = some disk.files[i] := List.getElem?_eq_getElem hlt
  have hread : disk.read lock = some disk.files[i] := by
    rw [Inodes.read, show disk.names lock = some i from hi]
    exact hfile
  obtain ⟨n, hn⟩ := hdisk _ hread
  exact ⟨n, hfile.trans (congrArg some hn)⟩

theorem files_step (w : World π) (act : Act π) (hw : Files lock pids w) (henv : Env pids w act) :
    Files lock pids (step lock pids w act) := by
  cases act with
  | step p io => exact (stepExport_moves henv).files hw
  | die p =>
      have hquit : Moves lock pids w p (w.setStage p .finished) := .quit
      exact hquit.files hw

/-- In every run the lock has a whole pid, and while its holder runs the pid is the holder's. -/
theorem lock_names_holder_of_run (lock : String) (pids : π → Nat) (hpids : ∀ p, pids p ≤ u32Max)
    (disk : Inodes String String)
    (hdisk : ∀ text, disk.read lock = some text → ∃ n : Nat, text = toString n)
    (acts : List (Act π)) (henv : Guarded (step lock pids) (Env pids) (start disk) acts) :
    (∀ text, (runFrom (step lock pids) (start disk) acts).disk.read lock = some text →
      ∃ n : Nat, text = toString n) ∧
    ∀ p i, ((runFrom (step lock pids) (start disk) acts).stages p).won? = some i →
      (runFrom (step lock pids) (start disk) acts).disk.names lock = some i →
      lockHolder ((runFrom (step lock pids) (start disk) acts).disk.read lock) = some (pids p) := by
  have hfiles := inv_of_guarded (Files lock pids) files_step (files_start hdisk) henv
  refine ⟨?_, fun p i hwon hname => hfiles.lockHolder_eq hpids hwon hname⟩
  intro text htext
  obtain ⟨i, hname, hfile⟩ := Option.bind_eq_some_iff.mp htext
  obtain ⟨n, hn⟩ := hfiles.complete i hname
  exact ⟨n, Option.some.inj (hfile.symm.trans hn)⟩

end Exclusive

/-! ## Two exports -/

theorem env_of_stage {π : Type} {pids : π → Nat} {w : World π} {p : π} {io : Io} (s : Stage)
    (hs : w.stages p = s) (hoff : s ≠ .off) (hjudging : s.reclaims = false) :
    Env pids w (.step p io) := by
  refine ⟨fun h => absurd (hs.symm.trans h) hoff, fun holder h => ?_⟩
  rw [hs] at h
  rw [h] at hjudging
  exact absurd hjudging (by simp [Stage.reclaims])

def twoPids (p : Bool) : Nat := if p then 4021 else 4022

/-- One export takes the lock, and the other one begins. -/
def twoExports : List (Act Bool) := List.replicate 6 (.step true {}) ++ [.step false {}]

theorem env_twoExports :
    Guarded (step "mcp-proxy.pid.lock" twoPids) (Env twoPids) (start .empty) twoExports := by
  refine ⟨?_, ?_, ?_, ?_, ?_, ?_, ?_, trivial⟩
  · exact ⟨fun _ => by decide, fun _ h => absurd h (by simp [start])⟩
  · exact env_of_stage (.clearing false) (by decide) (by decide) rfl
  · exact env_of_stage (.creating false) (by decide) (by decide) rfl
  · exact env_of_stage (.writing false 0) (by decide) (by decide) rfl
  · exact env_of_stage (.written false 0) (by decide) (by decide) rfl
  · exact env_of_stage (.linked false (some true) 0) (by decide) (by decide) rfl
  · refine ⟨fun _ => by decide, fun holder h => ?_⟩
    have hoff : (runFrom (step "mcp-proxy.pid.lock" twoPids) (start .empty)
        (List.replicate 6 (.step true {}))).stages false = .off := by decide
    exact absurd (hoff.symm.trans h) (by simp)

theorem takesNoLock_twoExports :
    Guarded (step "mcp-proxy.pid.lock" twoPids) (TakesNoLock "mcp-proxy.pid.lock") (start .empty)
      twoExports := by
  refine ⟨?_, ?_, ?_, ?_, ?_, ?_, ?_, trivial⟩
  all_goals exact fun _ _ _ _ => by decide

def twoWorld : World Bool := runFrom (step "mcp-proxy.pid.lock" twoPids) (start .empty) twoExports

theorem lock_names_holder_of_two_exports :
    (∀ text, twoWorld.disk.read "mcp-proxy.pid.lock" = some text → ∃ n : Nat, text = toString n) ∧
    ∀ p i, (twoWorld.stages p).won? = some i →
      twoWorld.disk.names "mcp-proxy.pid.lock" = some i →
      lockHolder (twoWorld.disk.read "mcp-proxy.pid.lock") = some (twoPids p) :=
  lock_names_holder_of_run "mcp-proxy.pid.lock" twoPids (by decide) .empty (by simp [Inodes.read,
    Inodes.empty]) twoExports env_twoExports

/-- Both find that the holder of the old lock is gone; one takes the lock, and the other one removes
it. -/
example :
    let look : Bool → List (Act Bool) := fun p =>
      List.replicate 7 (.step p {}) ++ [.step p { alive := some false }, .step p {}]
    let w := runFrom (step "l" twoPids) (start (Inodes.empty.create "l" "7"))
      (look true ++ look false ++ List.replicate 6 (.step true {}) ++
        List.replicate 6 (.step false {}))
    (w.stages true).won?.isSome ∧ (w.stages false).won?.isSome := by decide

end Llmenv.Mcp.SpawnLock
