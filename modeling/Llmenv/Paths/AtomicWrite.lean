/-
# `Llmenv.Paths.AtomicWrite` — a file is replaced at once or not at all

`src/crates/llmenv-paths/src/atomic_write.rs` with `write_stats.rs`.  A write
goes to a temp file of its own in the folder of the target and is then renamed
over it.  A target that has the text already is left alone.

Any number of calls of any number of processes take their system calls in any
order, each of which may fail, a process may crash between any two of them, and
readers open and read the target in between.  In every such run a target has its
first file or the whole text of the call that was renamed onto it last
(`target_of_run`), a reader gets the whole of one such file
(`reader_gets_whole_file`), and no temp file stays without a cause
(`temp_files_of_run`).
-/
import Llmenv.Lib.Separated
import Llmenv.Lib.Inodes
import Llmenv.Lib.Runs

namespace Llmenv.Paths.AtomicWrite

open Llmenv.Lib

/-! ## The code -/

/-- A folder and a name in it. -/
abbrev Path := String × String

/-- What a name leads to, as far as the write looks at it. -/
inductive Node where
  | file (bytes : List UInt8) (mode : Nat)
  /-- A folder or a link. -/
  | other
deriving DecidableEq

/-- Owner-only. -/
def fileMode : Nat := 0o600

/-- One call: the process and its time, and the arguments. -/
structure Call where
  pid : Nat
  nanos : Nat
  target : Path
  content : List UInt8
  sync : Bool

def tempName (stem : String) (pid nanos counter : Nat) : String :=
  stem ++ "." ++ toString pid ++ "." ++ toString nanos ++ "." ++ toString counter ++ ".tmp"

/-- The temp file of a call for a value of `TMP_COUNTER`. -/
def Call.temp (c : Call) (counter : Nat) : Path :=
  (c.target.1, tempName c.target.2 c.pid c.nanos counter)

def maxTries : Nat := 8

inductive Result where
  | written
  /-- The target had the text already. -/
  | skipped
  /-- `left`: the temp file that could not be removed. -/
  | failed (left : Option Nat)
  /-- All names were taken. -/
  | exhausted
deriving DecidableEq

/-- How far a call is. -/
inductive Stage where
  | ready
  /-- `already_current`: before the metadata, before the read, and before the touch. -/
  | check
  | compare
  | touch
  | open_ (tries : Nat)
  /-- The temp file is file `ino`, and `rest` is still to be written. -/
  | write (counter ino : Nat) (rest : List UInt8)
  | sync (counter ino : Nat)
  | rename (counter ino : Nat)
  | cleanup (counter : Nat)
  | returned (r : Result)
  /-- The process is gone; a temp file may be left. -/
  | crashed (counter : Option Nat)
deriving DecidableEq

/-- A reader of a path: the file it has open, and what it got so far. -/
structure Reader where
  path : Path
  ino : Nat
  got : List UInt8
  /-- The end of the file was read. -/
  done : Bool

structure World (κ ρ : Type) where
  disk : Inodes Path Node
  /-- The next value of `TMP_COUNTER` in each process. -/
  counters : Nat → Nat
  stages : κ → Stage
  readers : ρ → Option Reader
  /-- The calls that were renamed onto their target, the newest first. -/
  published : List κ

/-- What the system answers to one call of it: whether it succeeds, and how many bytes it takes. -/
structure Answer where
  ok : Bool
  size : Nat

inductive Act (κ ρ : Type) where
  /-- A call makes its next system call. -/
  | step (k : κ) (answer : Answer)
  | crash (pid : Nat)
  | openRead (r : ρ) (path : Path)
  | read (r : ρ) (size : Nat)

section Steps

variable {κ ρ : Type} [DecidableEq κ] [DecidableEq ρ]

def World.setStage (w : World κ ρ) (k : κ) (stage : Stage) : World κ ρ :=
  { w with stages := Function.update w.stages k stage }

def World.setDisk (w : World κ ρ) (disk : Inodes Path Node) : World κ ρ := { w with disk := disk }

/-- `TMP_COUNTER.fetch_add(1)`. -/
def World.bump (w : World κ ρ) (pid : Nat) : World κ ρ :=
  { w with counters := Function.update w.counters pid (w.counters pid + 1) }

def World.publish (w : World κ ρ) (k : κ) : World κ ρ := { w with published := k :: w.published }

def World.setReader (w : World κ ρ) (r : ρ) (reader : Option Reader) : World κ ρ :=
  { w with readers := Function.update w.readers r reader }

/-- The target is a file of that many bytes with the right mode. -/
def sameShape (c : Call) : Option Node → Bool
  | some (.file bytes mode) => mode == fileMode && bytes.length == c.content.length
  | _ => false

def sameBytes (c : Call) : Option Node → Bool
  | some (.file bytes _) => bytes == c.content
  | _ => false

def isFile : Option Node → Bool
  | some (.file _ _) => true
  | _ => false

/-- More bytes at the end of a file. -/
def Node.append (more : List UInt8) : Node → Node
  | .file bytes mode => .file (bytes ++ more) mode
  | .other => .other

/-- How the loop goes on when the temp name was taken. -/
def retry : Nat → Stage
  | 0 => .returned .exhausted
  | tries + 1 => .open_ (tries + 1)

def stepCall (calls : κ → Call) (w : World κ ρ) (k : κ) (a : Answer) : World κ ρ :=
  let c := calls k
  match w.stages k with
  | .ready => w.setStage k .check
  | .check =>
      w.setStage k (if a.ok && sameShape c (w.disk.read c.target) then .compare else .open_ maxTries)
  | .compare =>
      w.setStage k (if a.ok && sameBytes c (w.disk.read c.target) then .touch else .open_ maxTries)
  | .touch =>
      w.setStage k (if a.ok && isFile (w.disk.read c.target) then .returned .skipped
        else .open_ maxTries)
  | .open_ tries =>
      let counter := w.counters c.pid
      if !a.ok then (w.bump c.pid).setStage k (.cleanup counter)
      else if (w.disk.names (c.temp counter)).isSome then
        (w.bump c.pid).setStage k (retry (tries - 1))
      else
        ((w.bump c.pid).setDisk (w.disk.create (c.temp counter) (.file [] fileMode))).setStage k
          (.write counter w.disk.files.length c.content)
  | .write counter ino [] => w.setStage k (if c.sync then .sync counter ino else .rename counter ino)
  | .write counter ino (b :: rest) =>
      if !a.ok then w.setStage k (.cleanup counter)
      else
        (w.setDisk (w.disk.modify ino (Node.append (b :: rest.take a.size)))).setStage k
          (.write counter ino (rest.drop a.size))
  | .sync counter ino => w.setStage k (if a.ok then .rename counter ino else .cleanup counter)
  | .rename counter _ =>
      if a.ok && (w.disk.names (c.temp counter)).isSome then
        ((w.setDisk (w.disk.rename (c.temp counter) c.target)).publish k).setStage k
          (.returned .written)
      else w.setStage k (.cleanup counter)
  | .cleanup counter =>
      if (w.disk.names (c.temp counter)).isSome && !a.ok then
        w.setStage k (.returned (.failed (some counter)))
      else (w.setDisk (w.disk.unlink (c.temp counter))).setStage k (.returned (.failed none))
  | .returned _ | .crashed _ => w

/-- The temp file that a call may have. -/
def Stage.counter : Stage → Option Nat
  | .write counter _ _ | .sync counter _ | .rename counter _ | .cleanup counter => some counter
  | _ => none

/-- A call whose process is gone. -/
def Stage.crash : Stage → Stage
  | .ready => .ready
  | .returned r => .returned r
  | .crashed counter => .crashed counter
  | stage => .crashed stage.counter

def step (calls : κ → Call) (w : World κ ρ) : Act κ ρ → World κ ρ
  | .step k a => stepCall calls w k a
  | .crash pid =>
      { w with
        counters := Function.update w.counters pid 0
        stages := fun k => if (calls k).pid = pid then (w.stages k).crash else w.stages k }
  | .openRead r path =>
      match w.disk.names path with
      | some ino =>
          w.setReader r (if isFile (w.disk.file ino) then some ⟨path, ino, [], false⟩ else none)
      | none => w
  | .read r size =>
      match w.readers r with
      | none => w
      | some reader =>
          match w.disk.file reader.ino with
          | some (.file bytes _) =>
              let more := (bytes.drop reader.got.length).take (size + 1)
              w.setReader r (some ⟨reader.path, reader.ino, reader.got ++ more, more.isEmpty⟩)
          | _ => w

end Steps

/-! ## The names of the temp files -/

/-- A name that a call could give to a temp file. -/
def IsTemp (p : Path) : Prop := ∃ stem pid nanos counter, p.2 = tempName stem pid nanos counter

theorem isTemp_temp (c : Call) (counter : Nat) : IsTemp (c.temp counter) :=
  ⟨c.target.2, c.pid, c.nanos, counter, rfl⟩

/-- The name of a temp file tells its process and its counter. -/
theorem tempName_inj {stem stem' : String} {pid pid' nanos nanos' n n' : Nat}
    (h : tempName stem pid nanos n = tempName stem' pid' nanos' n') : pid = pid' ∧ n = n' := by
  have hlist := congrArg String.toList h
  simp only [tempName, String.toList_append, Nat.toString_eq_ofList_toDigits, String.toList_ofList]
    at hlist
  have hlist : ((stem.toList ++ '.' :: Nat.toDigits 10 pid) ++ '.' :: Nat.toDigits 10 nanos) ++
      '.' :: Nat.toDigits 10 n =
        ((stem'.toList ++ '.' :: Nat.toDigits 10 pid') ++ '.' :: Nat.toDigits 10 nanos') ++
          '.' :: Nat.toDigits 10 n' := by
    have hext : ((stem.toList ++ '.' :: Nat.toDigits 10 pid) ++ '.' :: Nat.toDigits 10 nanos) ++
        '.' :: Nat.toDigits 10 n ++ ".tmp".toList =
          ((stem'.toList ++ '.' :: Nat.toDigits 10 pid') ++ '.' :: Nat.toDigits 10 nanos') ++
            '.' :: Nat.toDigits 10 n' ++ ".tmp".toList := by
      simpa using hlist
    exact List.append_cancel_right hext
  have hdot : ∀ m, '.' ∉ Nat.toDigits 10 m := Separated.notMem_toDigits (by decide)
  obtain ⟨hrest, hn⟩ := Separated.last_part_inj (hdot n) (hdot n') hlist
  obtain ⟨hrest, -⟩ := Separated.last_part_inj (hdot nanos) (hdot nanos') hrest
  obtain ⟨-, hpid⟩ := Separated.last_part_inj (hdot pid) (hdot pid') hrest
  exact ⟨Separated.toDigits_inj hpid, Separated.toDigits_inj hn⟩

theorem temp_inj {c c' : Call} {n n' : Nat} (h : c.temp n = c'.temp n') :
    c.pid = c'.pid ∧ n = n' := tempName_inj (Prod.mk.inj h).2

/-! ## What one system call can do -/

/-- The temp file that a call writes: its counter, its number, and the bytes to come. -/
def Stage.held : Stage → Option (Nat × Nat × List UInt8)
  | .write counter ino rest => some (counter, ino, rest)
  | .sync counter ino | .rename counter ino => some (counter, ino, [])
  | _ => none

/-- The temp file that a call may leave behind. -/
def Stage.trace : Stage → Option Nat
  | .returned (.failed left) => left
  | .crashed counter => counter
  | stage => stage.counter

section Moves

variable {κ ρ : Type} [DecidableEq κ] (calls : κ → Call)

/-- The call has no temp file, and it did not leave one. -/
def Stage.Plain (s : Stage) : Prop := s.counter = none ∧ s.trace = none

/-- The call takes the target for current. -/
def Stage.Current (s : Stage) : Prop := s = .touch ∨ s = .returned .skipped

/-- All that a system call of call `k` can do. -/
inductive Moves (w : World κ ρ) (k : κ) : World κ ρ → Prop
  | stay : Moves w k w
  /-- It looks at the target. -/
  | look {s : Stage} (before : (w.stages k).Plain) (after : s.Plain)
      (written : s ≠ .returned .written ∧ w.stages k ≠ .returned .written)
      (current : s.Current → (w.stages k).Current ∨
        sameBytes (calls k) (w.disk.read (calls k).target) = true) :
      Moves w k (w.setStage k s)
  /-- The temp name is taken, or the temp file could not be opened. -/
  | refused {s : Stage} (before : (w.stages k).Plain)
      (after : s.Plain ∨ s = .cleanup (w.counters (calls k).pid))
      (written : s ≠ .returned .written ∧ w.stages k ≠ .returned .written)
      (current : ¬ s.Current) :
      Moves w k ((w.bump (calls k).pid).setStage k s)
  | create (before : (w.stages k).Plain ∧ w.stages k ≠ .returned .written)
      (free : w.disk.names ((calls k).temp (w.counters (calls k).pid)) = none) :
      Moves w k (((w.bump (calls k).pid).setDisk (w.disk.create
        ((calls k).temp (w.counters (calls k).pid)) (.file [] fileMode))).setStage k
          (.write (w.counters (calls k).pid) w.disk.files.length (calls k).content))
  | write {counter ino : Nat} {more rest : List UInt8}
      (before : (w.stages k).held = some (counter, ino, more ++ rest)) :
      Moves w k ((w.setDisk (w.disk.modify ino (Node.append more))).setStage k
        (.write counter ino rest))
  /-- The text is written. -/
  | advance {s : Stage} {counter ino : Nat} (before : (w.stages k).held = some (counter, ino, []))
      (after : s.held = some (counter, ino, [])) :
      Moves w k (w.setStage k s)
  | fail {counter : Nat} (before : (w.stages k).counter = some counter) :
      Moves w k (w.setStage k (.cleanup counter))
  | publish {counter ino : Nat} (before : w.stages k = .rename counter ino) :
      Moves w k (((w.setDisk (w.disk.rename ((calls k).temp counter) (calls k).target)).publish
        k).setStage k (.returned .written))
  | clean {counter : Nat} (before : w.stages k = .cleanup counter) :
      Moves w k ((w.setDisk (w.disk.unlink ((calls k).temp counter))).setStage k
        (.returned (.failed none)))
  | keep {counter : Nat} (before : w.stages k = .cleanup counter) :
      Moves w k (w.setStage k (.returned (.failed (some counter))))

theorem plain_retry (tries : Nat) : (retry tries).Plain ∧ retry tries ≠ .returned .written ∧
    ¬ (retry tries).Current := by
  cases tries <;> simp [retry, Stage.Plain, Stage.Current, Stage.counter, Stage.trace]

theorem stepCall_moves (w : World κ ρ) (k : κ) (a : Answer) :
    Moves calls w k (stepCall calls w k a) := by
  cases hstage : w.stages k with
  | ready =>
      simp only [stepCall, hstage]
      exact .look (by simp [hstage, Stage.Plain, Stage.counter, Stage.trace])
        (by simp [Stage.Plain, Stage.counter, Stage.trace]) (by simp [hstage])
        (by simp [Stage.Current])
  | check | compare | touch =>
      simp only [stepCall, hstage]
      refine .look (by simp [hstage, Stage.Plain, Stage.counter, Stage.trace]) ?_ ?_ ?_ <;>
        split <;> simp_all [Stage.Plain, Stage.Current, Stage.counter, Stage.trace]
  | open_ tries =>
      have hplain : (w.stages k).Plain := by
        simp [hstage, Stage.Plain, Stage.counter, Stage.trace]
      simp only [stepCall, hstage]
      split
      · exact .refused hplain (Or.inr rfl) (by simp [hstage]) (by simp [Stage.Current])
      · split
        · obtain ⟨hafter, hwritten, hcurrent⟩ := plain_retry (tries - 1)
          exact .refused hplain (Or.inl hafter) ⟨hwritten, by simp [hstage]⟩ hcurrent
        · next hfree => exact .create ⟨hplain, by simp [hstage]⟩ (by simpa using hfree)
  | write counter ino rest =>
      cases rest with
      | nil =>
          have hheld : (w.stages k).held = some (counter, ino, []) := by rw [hstage]; rfl
          simp only [stepCall, hstage]
          refine .advance hheld ?_
          split <;> rfl
      | cons b rest =>
          simp only [stepCall, hstage]
          split
          · exact .fail (by simp [hstage, Stage.counter])
          · exact .write (by simp [hstage, Stage.held])
  | sync counter ino =>
      simp only [stepCall, hstage]
      split
      · exact .advance (by simp [hstage, Stage.held]) rfl
      · exact .fail (by simp [hstage, Stage.counter])
  | rename counter ino =>
      simp only [stepCall, hstage]
      split
      · exact .publish hstage
      · exact .fail (by simp [hstage, Stage.counter])
  | cleanup counter =>
      simp only [stepCall, hstage]
      split
      · exact .keep hstage
      · exact .clean hstage
  | returned r =>
      simp only [stepCall, hstage]
      exact .stay
  | crashed counter =>
      simp only [stepCall, hstage]
      exact .stay

/-! ## Every call has its own temp file -/

/-- The call has the temp file to itself, and what is in it and what is to come is its text. -/
structure Holds (d : Inodes Path Node) (c : Call) (counter ino : Nat) (rest : List UInt8) :
    Prop where
  named : d.names (c.temp counter) = some ino
  sole : ∀ n, d.names n = some ino → n = c.temp counter
  text : ∃ written, d.file ino = some (.file written fileMode) ∧ written ++ rest = c.content

/-- The calls under way keep out of each other's way. -/
structure Apart (w : World κ ρ) : Prop where
  fresh : ∀ k n, (w.stages k).counter = some n → n < w.counters (calls k).pid
  apart : ∀ k k' n, k ≠ k' → (calls k).pid = (calls k').pid → (w.stages k).counter = some n →
    (w.stages k').counter ≠ some n
  holds : ∀ k n ino rest, (w.stages k).held = some (n, ino, rest) →
    Holds w.disk (calls k) n ino rest

theorem counter_of_held {s : Stage} {n ino : Nat} {rest : List UInt8}
    (h : s.held = some (n, ino, rest)) : s.counter = some n := by
  cases s <;> simp_all [Stage.held, Stage.counter]

variable {calls} {w : World κ ρ} {k : κ}

section Disks

variable {d : Inodes Path Node} {c : Call} {n i : Nat} {rest : List UInt8} {m t : Path}

theorem Holds.create (h : Holds d c n i rest) (hm : c.temp n ≠ m) (a : Node) :
    Holds (d.create m a) c n i rest := by
  obtain ⟨written, hfile, htext⟩ := h.text
  refine ⟨?_, ?_, written, ?_, htext⟩
  · rw [d.names_create_of_ne hm]
    exact h.named
  · intro p hp
    by_cases hpm : p = m
    · subst hpm
      rw [d.names_create_self] at hp
      exact absurd (Option.some.inj hp ▸ h.named) (d.names_ne_length _)
    · rw [d.names_create_of_ne hpm] at hp
      exact h.sole p hp
  · rw [d.file_create_of_lt (d.ok _ _ h.named)]
    exact hfile

theorem Holds.modify (h : Holds d c n i rest) {j : Nat} (hj : j ≠ i) (f : Node → Node) :
    Holds (d.modify j f) c n i rest := by
  obtain ⟨written, hfile, htext⟩ := h.text
  exact ⟨h.named, h.sole, written, by rw [d.file_modify_of_ne hj]; exact hfile, htext⟩

theorem Holds.unlink (h : Holds d c n i rest) (hm : c.temp n ≠ m) :
    Holds (d.unlink m) c n i rest := by
  refine ⟨?_, ?_, h.text⟩
  · rw [d.names_unlink_of_ne hm]
    exact h.named
  · intro p hp
    by_cases hpm : p = m
    · subst hpm
      simp at hp
    · rw [d.names_unlink_of_ne hpm] at hp
      exact h.sole p hp

theorem Holds.rename (h : Holds d c n i rest) {j : Nat} (hm : c.temp n ≠ m) (ht : c.temp n ≠ t)
    (hj : d.names m = some j) : Holds (d.rename m t) c n i rest := by
  refine ⟨?_, ?_, h.text⟩
  · rw [d.names_rename_of_ne hm ht]
    exact h.named
  · intro p hp
    by_cases hpt : p = t
    · subst hpt
      rw [d.names_rename_target hj] at hp
      exact absurd (h.sole m (hj.trans hp)).symm hm
    · by_cases hpm : p = m
      · subst hpm
        rw [d.names_rename_source hj hpt] at hp
        exact absurd hp (by simp)
      · rw [d.names_rename_of_ne hpm hpt] at hp
        exact h.sole p hp

end Disks

omit [DecidableEq κ] in
/-- A name that another call has, or will take next, is not the one of a call under way. -/
theorem Apart.temp_ne (h : Apart calls w) {k' : κ} {n n' : Nat} (hne : k' ≠ k)
    (hk : (w.stages k).counter = some n ∨ n = w.counters (calls k).pid)
    (hk' : (w.stages k').counter = some n') : (calls k').temp n' ≠ (calls k).temp n := by
  intro htemp
  obtain ⟨hpid, rfl⟩ := temp_inj htemp
  rcases hk with hk | hk
  · exact h.apart k' k n' hne hpid hk' hk
  · have hlt := h.fresh k' n' hk'
    rw [hpid, ← hk] at hlt
    exact Nat.lt_irrefl _ hlt

omit [DecidableEq κ] in
/-- Two calls under way have different files. -/
theorem Apart.ino_ne (h : Apart calls w) {k' : κ} {n n' i i' : Nat} {rest rest' : List UInt8}
    (hne : k' ≠ k) (hk : (w.stages k).held = some (n, i, rest))
    (hk' : (w.stages k').held = some (n', i', rest')) : i ≠ i' := by
  rintro rfl
  have hname := (h.holds k n i rest hk).sole _ (h.holds k' n' i rest' hk').named
  exact h.temp_ne hne (Or.inl (counter_of_held hk)) (counter_of_held hk') hname

/-- A step of call `k`: it has no temp file that it did not have, but for the one with the next
value of the counter, and the others keep theirs. -/
theorem Apart.step {w' : World κ ρ} (h : Apart calls w) {s : Stage}
    (hstages : w'.stages = Function.update w.stages k s)
    (hle : ∀ pid, w.counters pid ≤ w'.counters pid)
    (hcounter : ∀ n, s.counter = some n → (w.stages k).counter = some n ∨
      n = w.counters (calls k).pid ∧ n < w'.counters (calls k).pid)
    (hself : ∀ n i rest, s.held = some (n, i, rest) → Holds w'.disk (calls k) n i rest)
    (hothers : ∀ k' n i rest, k' ≠ k → (w.stages k').held = some (n, i, rest) →
      Holds w'.disk (calls k') n i rest) : Apart calls w' := by
  have hkept : ∀ k', k' ≠ k → w'.stages k' = w.stages k' := by
    intro k' hk
    rw [hstages, Function.update_of_ne hk]
  have hk : w'.stages k = s := by rw [hstages, Function.update_self]
  -- The counter of call `k` is not one of another call of its process.
  have hown : ∀ k' n, k' ≠ k → (calls k').pid = (calls k).pid → s.counter = some n →
      (w.stages k').counter ≠ some n := by
    intro k' n hne hpid hn hn'
    rcases hcounter n hn with hold | ⟨hnew, -⟩
    · exact h.apart k' k n hne hpid hn' hold
    · have hlt := h.fresh k' n hn'
      rw [hpid, ← hnew] at hlt
      exact Nat.lt_irrefl _ hlt
  refine ⟨?_, ?_, ?_⟩
  · intro k' n hn
    by_cases hne : k' = k
    · subst hne
      rw [hk] at hn
      rcases hcounter n hn with hold | ⟨-, hlt⟩
      · exact Nat.lt_of_lt_of_le (h.fresh k' n hold) (hle _)
      · exact hlt
    · rw [hkept k' hne] at hn
      exact Nat.lt_of_lt_of_le (h.fresh k' n hn) (hle _)
  · intro k' k'' n hne hpid hn hn'
    by_cases hk' : k' = k
    · subst hk'
      rw [hk] at hn
      rw [hkept k'' hne.symm] at hn'
      exact hown k'' n hne.symm hpid.symm hn hn'
    · rw [hkept k' hk'] at hn
      by_cases hk'' : k'' = k
      · subst hk''
        rw [hk] at hn'
        exact hown k' n hk' hpid hn' hn
      · rw [hkept k'' hk''] at hn'
        exact h.apart k' k'' n hne hpid hn hn'
  · intro k' n i rest hheld
    by_cases hne : k' = k
    · subst hne
      exact hself n i rest (hk ▸ hheld)
    · exact hothers k' n i rest hne (hkept k' hne ▸ hheld)

theorem plain_held {s : Stage} (h : s.Plain) (n i : Nat) (rest : List UInt8) :
    s.held ≠ some (n, i, rest) := by
  intro hheld
  exact absurd (h.1.symm.trans (counter_of_held hheld)) (by simp)

omit [DecidableEq κ] in
theorem le_bump (pid pid' : Nat) : w.counters pid' ≤ (w.bump pid).counters pid' := by
  by_cases hpid : pid' = pid
  · subst hpid
    simp [World.bump]
  · simp [World.bump, hpid]

theorem Moves.apart {w' : World κ ρ} (h : Apart calls w)
    (htargets : ∀ k, ¬ IsTemp (calls k).target) (hmoves : Moves calls w k w') :
    Apart calls w' := by
  cases hmoves with
  | stay => exact h
  | look before after written current =>
      refine h.step rfl (fun _ => Nat.le_refl _) ?_ ?_ (fun k' n i rest _ => h.holds k' n i rest)
      · intro n hn
        exact absurd (after.1.symm.trans hn) (by simp)
      · intro n i rest hheld
        exact absurd hheld (plain_held after n i rest)
  | refused before after written current =>
      refine h.step rfl (le_bump _) ?_ ?_ (fun k' n i rest _ => h.holds k' n i rest)
      · intro n hn
        rcases after with after | rfl
        · exact absurd (after.1.symm.trans hn) (by simp)
        · have heq : w.counters (calls k).pid = n := Option.some.inj hn
          exact Or.inr ⟨heq.symm, by simp [World.setStage, World.bump, ← heq]⟩
      · intro n i rest hheld
        rcases after with after | rfl
        · exact absurd hheld (plain_held after n i rest)
        · exact absurd hheld (by simp [Stage.held])
  | create before free =>
      refine h.step rfl (le_bump _) ?_ ?_ ?_
      · intro n hn
        have heq : w.counters (calls k).pid = n := Option.some.inj hn
        exact Or.inr ⟨heq.symm, by simp [World.setStage, World.setDisk, World.bump, ← heq]⟩
      · intro n i rest hheld
        obtain ⟨rfl, rfl, rfl⟩ : _ ∧ _ ∧ _ := by simpa [Stage.held] using hheld
        refine ⟨w.disk.names_create_self _, ?_, [], w.disk.file_create_self _, rfl⟩
        intro p hp
        by_contra hne
        exact w.disk.names_ne_length p ((w.disk.names_create_of_ne hne _).symm.trans hp)
      · intro k' n i rest hne hheld
        exact (h.holds k' n i rest hheld).create
          (h.temp_ne hne (Or.inr rfl) (counter_of_held hheld)) _
  | write before =>
      have hself := h.holds _ _ _ _ before
      refine h.step rfl (fun _ => Nat.le_refl _) ?_ ?_ ?_
      · intro n hn
        exact Or.inl ((counter_of_held before).trans hn)
      · intro n i rest hheld
        obtain ⟨rfl, rfl, rfl⟩ : _ ∧ _ ∧ _ := by simpa [Stage.held] using hheld
        obtain ⟨written, hfile, htext⟩ := hself.text
        refine ⟨hself.named, hself.sole, written ++ _, ?_, (List.append_assoc _ _ _).trans htext⟩
        simp [World.setDisk, World.setStage, hfile, Node.append]
      · intro k' n i rest hne hheld
        exact (h.holds k' n i rest hheld).modify (h.ino_ne hne before hheld) _
  | advance before after =>
      refine h.step rfl (fun _ => Nat.le_refl _) ?_ ?_ (fun k' n i rest _ => h.holds k' n i rest)
      · intro n hn
        exact Or.inl ((counter_of_held before).trans ((counter_of_held after).symm.trans hn))
      · intro n i rest hheld
        exact h.holds k n i rest (before.trans (after.symm.trans hheld))
  | fail before =>
      refine h.step rfl (fun _ => Nat.le_refl _) ?_ ?_ (fun k' n i rest _ => h.holds k' n i rest)
      · intro n hn
        exact Or.inl (before.trans hn)
      · intro n i rest hheld
        exact absurd hheld (by simp [Stage.held])
  | @publish counter ino before =>
      have hheld : (w.stages k).held = some (counter, ino, []) := by rw [before]; rfl
      refine h.step rfl (fun _ => Nat.le_refl _) (by simp [Stage.counter]) (by simp [Stage.held]) ?_
      intro k' n i rest hne hheld'
      refine (h.holds k' n i rest hheld').rename
        (h.temp_ne hne (Or.inl (counter_of_held hheld)) (counter_of_held hheld')) ?_
        (h.holds k _ _ _ hheld).named
      intro htarget
      exact htargets k (htarget ▸ isTemp_temp (calls k') n)
  | @clean counter before =>
      refine h.step rfl (fun _ => Nat.le_refl _) (by simp [Stage.counter]) (by simp [Stage.held]) ?_
      intro k' n i rest hne hheld
      have hcounter : (w.stages k).counter = some counter := by rw [before]; rfl
      exact (h.holds k' n i rest hheld).unlink
        (h.temp_ne hne (Or.inl hcounter) (counter_of_held hheld))
  | keep before =>
      exact h.step rfl (fun _ => Nat.le_refl _) (by simp [Stage.counter]) (by simp [Stage.held])
        (fun k' n i rest _ => h.holds k' n i rest)

/-! ## The targets -/

section Targets

variable (calls) (d₀ : Inodes Path Node)

/-- The call that was renamed onto the path last. -/
def lastOn (published : List κ) (p : Path) : Option κ :=
  published.find? fun k => decide ((calls k).target = p)

/-- A target is as it was at first, or it has the text of the last call. -/
def TargetsKept (d : Inodes Path Node) (published : List κ) : Prop :=
  ∀ p, ¬ IsTemp p → d.read p = match lastOn calls published p with
    | none => d₀.read p
    | some k => some (.file (calls k).content fileMode)

/-- The path led to such a file, at first or by one of the calls. -/
def Was (published : List κ) (p : Path) (bytes : List UInt8) : Prop :=
  (∃ mode, d₀.read p = some (.file bytes mode)) ∨
    ∃ k ∈ published, (calls k).target = p ∧ (calls k).content = bytes

variable {calls d₀}

omit [DecidableEq κ] in
theorem TargetsKept.was {d : Inodes Path Node} {published : List κ}
    (h : TargetsKept calls d₀ d published) {p : Path} (hp : ¬ IsTemp p) {bytes : List UInt8}
    {mode : Nat} (hread : d.read p = some (.file bytes mode)) : Was calls d₀ published p bytes := by
  have hcurrent := h p hp
  cases hlast : lastOn calls published p with
  | none =>
      rw [hlast] at hcurrent
      exact Or.inl ⟨mode, hcurrent.symm.trans hread⟩
  | some k =>
      rw [hlast] at hcurrent
      have hnode := Option.some.inj (hcurrent.symm.trans hread)
      exact Or.inr ⟨k, List.mem_of_find?_eq_some hlast, by simpa using List.find?_some hlast,
        (Node.file.inj hnode).1⟩

omit [DecidableEq κ] in
theorem Was.mono {published : List κ} {p : Path} {bytes : List UInt8}
    (h : Was calls d₀ published p bytes) (k : κ) : Was calls d₀ (k :: published) p bytes := by
  rcases h with h | ⟨k', hk', h⟩
  · exact Or.inl h
  · exact Or.inr ⟨k', List.mem_cons_of_mem k hk', h⟩

theorem Moves.targetsKept {w' : World κ ρ} (h : Apart calls w) (hmoves : Moves calls w k w')
    (hkept : TargetsKept calls d₀ w.disk w.published) :
    TargetsKept calls d₀ w'.disk w'.published := by
  have htemp : ∀ {p} n, ¬ IsTemp p → p ≠ (calls k).temp n := by
    rintro p n hp rfl
    exact hp (isTemp_temp (calls k) n)
  cases hmoves with
  | stay | look | refused | advance | fail | keep => exact hkept
  | create before free =>
      intro p hp
      exact (w.disk.read_create_of_ne (htemp _ hp) _).trans (hkept p hp)
  | write before =>
      intro p hp
      refine (w.disk.read_modify_of_ne ?_ _).trans (hkept p hp)
      intro hname
      exact htemp _ hp ((h.holds _ _ _ _ before).sole p hname)
  | @publish counter ino before =>
      have hheld := h.holds k counter ino [] (by rw [before]; rfl)
      obtain ⟨written, hfile, htext⟩ := hheld.text
      intro p hp
      by_cases hpt : (calls k).target = p
      · subst hpt
        have hlast : lastOn calls (k :: w.published) (calls k).target = some k := by simp [lastOn]
        rw [List.append_nil] at htext
        exact (w.disk.read_rename_target hheld.named).trans
          (by simp only [World.setStage, World.publish, World.setDisk, hlast, hfile, htext])
      · have hlast : lastOn calls (k :: w.published) p = lastOn calls w.published p := by
          simp [lastOn, hpt]
        refine (w.disk.read_rename_of_ne (htemp _ hp) (Ne.symm hpt)).trans ?_
        simp only [World.setStage, World.publish, World.setDisk, hlast]
        exact hkept p hp
  | clean before =>
      intro p hp
      exact (w.disk.read_unlink_of_ne (htemp _ hp)).trans (hkept p hp)

/-! ## The readers -/

variable (calls d₀) in
/-- What a reader got so far of the file it has open. -/
structure Reads (d : Inodes Path Node) (published : List κ) (reader : Reader)
    (bytes : List UInt8) : Prop where
  file : ∃ mode, d.file reader.ino = some (.file bytes mode)
  got : reader.got <+: bytes
  done : reader.done = true → reader.got = bytes
  was : Was calls d₀ published reader.path bytes

variable (calls d₀) in
/-- A reader of a target has a file open that no call writes. -/
def ReadersKept (w : World κ ρ) : Prop :=
  ∀ r reader, w.readers r = some reader → ¬ IsTemp reader.path →
    (∃ bytes, Reads calls d₀ w.disk w.published reader bytes) ∧
      ∀ k n i rest, (w.stages k).held = some (n, i, rest) → i ≠ reader.ino

/-- A step of call `k` that leaves the open files alone. -/
theorem ReadersKept.step (h : ReadersKept calls d₀ w) {w' : World κ ρ} {s : Stage}
    (hstages : w'.stages = Function.update w.stages k s) (hreaders : w'.readers = w.readers)
    (hfile : ∀ r reader, w.readers r = some reader → ¬ IsTemp reader.path →
      w'.disk.file reader.ino = w.disk.file reader.ino)
    (hwas : ∀ p bytes, Was calls d₀ w.published p bytes → Was calls d₀ w'.published p bytes)
    (hself : ∀ n i rest r reader, s.held = some (n, i, rest) → w.readers r = some reader →
      ¬ IsTemp reader.path → i ≠ reader.ino) : ReadersKept calls d₀ w' := by
  intro r reader hreader hpath
  rw [hreaders] at hreader
  obtain ⟨⟨bytes, hreads⟩, hheld⟩ := h r reader hreader hpath
  refine ⟨⟨bytes, ?_, hreads.got, hreads.done, hwas _ _ hreads.was⟩, ?_⟩
  · rw [hfile r reader hreader hpath]
    exact hreads.file
  · intro k' n i rest hk'
    rw [hstages] at hk'
    by_cases hne : k' = k
    · subst hne
      rw [Function.update_self] at hk'
      exact hself n i rest r reader hk' hreader hpath
    · rw [Function.update_of_ne hne] at hk'
      exact hheld k' n i rest hk'

omit [DecidableEq κ] in
theorem ReadersKept.lt (h : ReadersKept calls d₀ w) {r : ρ} {reader : Reader}
    (hreader : w.readers r = some reader) (hpath : ¬ IsTemp reader.path) :
    reader.ino < w.disk.files.length := by
  obtain ⟨⟨bytes, hreads⟩, -⟩ := h r reader hreader hpath
  obtain ⟨mode, hfile⟩ := hreads.file
  exact w.disk.file_lt hfile

theorem Moves.readersKept {w' : World κ ρ} (hmoves : Moves calls w k w')
    (h : ReadersKept calls d₀ w) : ReadersKept calls d₀ w' := by
  cases hmoves with
  | stay => exact h
  | look before after =>
      refine h.step rfl rfl (fun _ _ _ _ => rfl) (fun _ _ hwas => hwas) ?_
      intro n i rest r reader hheld
      exact absurd hheld (plain_held after n i rest)
  | refused before after =>
      refine h.step rfl rfl (fun _ _ _ _ => rfl) (fun _ _ hwas => hwas) ?_
      intro n i rest r reader hheld
      rcases after with after | rfl
      · exact absurd hheld (plain_held after n i rest)
      · exact absurd hheld (by simp [Stage.held])
  | create before free =>
      refine h.step rfl rfl ?_ (fun _ _ hwas => hwas) ?_
      · intro r reader hreader hpath
        exact w.disk.file_create_of_lt (h.lt hreader hpath) _
      · intro n i rest r reader hheld hreader hpath
        obtain ⟨rfl, rfl, rfl⟩ : _ ∧ _ ∧ _ := by simpa [Stage.held] using hheld
        exact Nat.ne_of_gt (h.lt hreader hpath)
  | write before =>
      refine h.step rfl rfl ?_ (fun _ _ hwas => hwas) ?_
      · intro r reader hreader hpath
        exact w.disk.file_modify_of_ne ((h r reader hreader hpath).2 _ _ _ _ before) _
      · intro n i rest r reader hheld hreader hpath
        obtain ⟨rfl, rfl, rfl⟩ : _ ∧ _ ∧ _ := by simpa [Stage.held] using hheld
        exact (h r reader hreader hpath).2 _ _ _ _ before
  | advance before after =>
      refine h.step rfl rfl (fun _ _ _ _ => rfl) (fun _ _ hwas => hwas) ?_
      intro n i rest r reader hheld hreader hpath
      exact (h r reader hreader hpath).2 k n i rest (before.trans (after.symm.trans hheld))
  | publish before =>
      exact h.step rfl rfl (fun _ _ _ _ => rfl) (fun _ _ hwas => hwas.mono k) (by simp [Stage.held])
  | fail | clean | keep =>
      exact h.step rfl rfl (fun _ _ _ _ => rfl) (fun _ _ hwas => hwas) (by simp [Stage.held])

end Targets

/-! ## The temp files -/

section Temps

variable {d₀ : Inodes Path Node}

variable (calls d₀) in
/-- Every name was there at first, is a target, or is the temp file of a call that is under way,
that lost its process or that could not remove it. -/
def NamesKept (w : World κ ρ) : Prop :=
  ∀ p, (w.disk.names p).isSome → (d₀.names p).isSome ∨
    (∃ k ∈ w.published, (calls k).target = p) ∨
      ∃ k n, (w.stages k).trace = some n ∧ (calls k).temp n = p

theorem trace_of_counter {s : Stage} {n : Nat} (h : s.counter = some n) : s.trace = some n := by
  cases s <;> simp_all [Stage.trace, Stage.counter]

/-- A step of call `k` that makes no name but the one of its temp file. -/
theorem NamesKept.step (h : NamesKept calls d₀ w) {w' : World κ ρ} {s : Stage}
    (hstages : w'.stages = Function.update w.stages k s)
    (hpublished : ∀ k' ∈ w.published, k' ∈ w'.published)
    (hnames : ∀ p, (w'.disk.names p).isSome → (w.disk.names p).isSome ∨
      (∃ k ∈ w'.published, (calls k).target = p) ∨ ∃ n, s.trace = some n ∧ (calls k).temp n = p)
    (htrace : ∀ n, (w.stages k).trace = some n → s.trace = some n ∨
      w'.disk.names ((calls k).temp n) = none) : NamesKept calls d₀ w' := by
  have hk : w'.stages k = s := by rw [hstages, Function.update_self]
  intro p hp
  rcases hnames p hp with hold | htarget | ⟨n, hn, htemp⟩
  · rcases h p hold with h₀ | ⟨k', hk', ht⟩ | ⟨k', n, hn, htemp⟩
    · exact Or.inl h₀
    · exact Or.inr (Or.inl ⟨k', hpublished k' hk', ht⟩)
    · by_cases hne : k' = k
      · subst hne
        rcases htrace n hn with hs | hgone
        · exact Or.inr (Or.inr ⟨k', n, by rw [hk]; exact hs, htemp⟩)
        · rw [htemp] at hgone
          rw [hgone] at hp
          exact absurd hp (by simp)
      · have hkept : w'.stages k' = w.stages k' := by rw [hstages, Function.update_of_ne hne]
        exact Or.inr (Or.inr ⟨k', n, by rw [hkept]; exact hn, htemp⟩)
  · exact Or.inr (Or.inl htarget)
  · exact Or.inr (Or.inr ⟨k, n, by rw [hk]; exact hn, htemp⟩)

theorem Moves.namesKept {w' : World κ ρ} (hapart : Apart calls w)
    (htargets : ∀ k, ¬ IsTemp (calls k).target) (hmoves : Moves calls w k w')
    (h : NamesKept calls d₀ w) : NamesKept calls d₀ w' := by
  have hplain : ∀ {s : Stage} {P : Nat → Prop}, s.Plain → ∀ n, s.trace = some n → P n := by
    intro s P hs n hn
    exact absurd (hs.2.symm.trans hn) (by simp)
  cases hmoves with
  | stay => exact h
  | look before | refused before =>
      exact h.step rfl (fun _ hk' => hk') (fun p hp => Or.inl hp) (hplain before)
  | create before free =>
      refine h.step rfl (fun _ hk' => hk') ?_ (hplain before.1)
      intro p hp
      by_cases htemp : p = (calls k).temp (w.counters (calls k).pid)
      · exact Or.inr (Or.inr ⟨_, rfl, htemp.symm⟩)
      · refine Or.inl ?_
        rw [← w.disk.names_create_of_ne htemp (.file [] fileMode)]
        exact hp
  | write before =>
      refine h.step rfl (fun _ hk' => hk') (fun p hp => Or.inl hp) ?_
      intro n hn
      exact Or.inl ((trace_of_counter (counter_of_held before)).symm.trans hn)
  | advance before after =>
      refine h.step rfl (fun _ hk' => hk') (fun p hp => Or.inl hp) ?_
      intro n hn
      rw [trace_of_counter (counter_of_held before)] at hn
      exact Or.inl ((trace_of_counter (counter_of_held after)).trans hn)
  | fail before =>
      refine h.step rfl (fun _ hk' => hk') (fun p hp => Or.inl hp) ?_
      intro n hn
      exact Or.inl ((trace_of_counter before).symm.trans hn)
  | @publish counter ino before =>
      have hnamed := (hapart.holds k counter ino [] (by rw [before]; rfl)).named
      refine h.step rfl (fun _ hk' => List.mem_cons_of_mem k hk') ?_ ?_
      · intro p hp
        by_cases hpt : p = (calls k).target
        · exact Or.inr (Or.inl ⟨k, List.mem_cons_self, hpt.symm⟩)
        · by_cases hpm : p = (calls k).temp counter
          · subst hpm
            have hgone := w.disk.names_rename_source hnamed hpt
            simp only [World.setStage, World.publish, World.setDisk, hgone] at hp
            exact absurd hp (by simp)
          · refine Or.inl ?_
            rw [← w.disk.names_rename_of_ne hpm hpt]
            exact hp
      · intro n hn
        have heq : counter = n := by simpa [before, Stage.trace, Stage.counter] using hn
        subst heq
        refine Or.inr (w.disk.names_rename_source hnamed ?_)
        intro htemp
        exact htargets k (htemp ▸ isTemp_temp (calls k) counter)
  | @clean counter before =>
      refine h.step rfl (fun _ hk' => hk') ?_ ?_
      · intro p hp
        by_cases hpm : p = (calls k).temp counter
        · subst hpm
          simp [World.setStage, World.setDisk] at hp
        · refine Or.inl ?_
          rw [← w.disk.names_unlink_of_ne hpm]
          exact hp
      · intro n hn
        have heq : counter = n := by simpa [before, Stage.trace, Stage.counter] using hn
        subst heq
        exact Or.inr (w.disk.names_unlink_self)
  | keep before =>
      refine h.step rfl (fun _ hk' => hk') (fun p hp => Or.inl hp) ?_
      intro n hn
      exact Or.inl (by simpa [before, Stage.trace, Stage.counter] using hn)

end Temps

/-! ## The results -/

section Results

variable {d₀ : Inodes Path Node}

variable (calls d₀) in
/-- A call returns `written` when it was renamed onto its target, once, and it takes the target for
current only when it found its text there. -/
structure ResultsKept (w : World κ ρ) : Prop where
  written : ∀ k, w.stages k = .returned .written ↔ k ∈ w.published
  once : w.published.Nodup
  current : ∀ k, (w.stages k).Current →
    Was calls d₀ w.published (calls k).target (calls k).content

theorem ne_written_of_counter {s : Stage} {n : Nat} (h : s.counter = some n) :
    s ≠ .returned .written := by
  rintro rfl
  exact absurd h (by simp [Stage.counter])

theorem not_current_of_counter {s : Stage} {n : Nat} (h : s.counter = some n) : ¬ s.Current := by
  rintro (rfl | rfl) <;> exact absurd h (by simp [Stage.counter])

/-- A step of call `k` that publishes nothing. -/
theorem ResultsKept.step (h : ResultsKept calls d₀ w) {w' : World κ ρ} {s : Stage}
    (hstages : w'.stages = Function.update w.stages k s) (hpublished : w'.published = w.published)
    (hwritten : s ≠ .returned .written ∧ w.stages k ≠ .returned .written)
    (hcurrent : s.Current → Was calls d₀ w.published (calls k).target (calls k).content) :
    ResultsKept calls d₀ w' := by
  have hk : w'.stages k = s := by rw [hstages, Function.update_self]
  have hkept : ∀ k', k' ≠ k → w'.stages k' = w.stages k' := by
    intro k' hne
    rw [hstages, Function.update_of_ne hne]
  refine ⟨?_, by rw [hpublished]; exact h.once, ?_⟩
  · intro k'
    rw [hpublished]
    by_cases hne : k' = k
    · subst hne
      rw [hk]
      exact iff_of_false hwritten.1 (mt (h.written k').mpr hwritten.2)
    · rw [hkept k' hne]
      exact h.written k'
  · intro k' hc
    rw [hpublished]
    by_cases hne : k' = k
    · subst hne
      rw [hk] at hc
      exact hcurrent hc
    · rw [hkept k' hne] at hc
      exact h.current k' hc

theorem Moves.resultsKept {w' : World κ ρ} (htargets : ∀ k, ¬ IsTemp (calls k).target)
    (hkept : TargetsKept calls d₀ w.disk w.published) (hmoves : Moves calls w k w')
    (h : ResultsKept calls d₀ w) : ResultsKept calls d₀ w' := by
  cases hmoves with
  | stay => exact h
  | look before after written current =>
      refine h.step rfl rfl written ?_
      intro hs
      rcases current hs with hbefore | hsame
      · exact h.current k hbefore
      · cases hread : w.disk.read (calls k).target with
        | none => simp [hread, sameBytes] at hsame
        | some node =>
            cases node with
            | other => simp [hread, sameBytes] at hsame
            | file bytes mode =>
                have hbytes : bytes = (calls k).content := by simpa [hread, sameBytes] using hsame
                exact hbytes ▸ hkept.was (htargets k) hread
  | refused before after written current =>
      exact h.step rfl rfl written (fun hs => absurd hs current)
  | create before =>
      exact h.step rfl rfl ⟨by simp, before.2⟩ (by simp [Stage.Current])
  | write before =>
      exact h.step rfl rfl ⟨by simp, ne_written_of_counter (counter_of_held before)⟩
        (by simp [Stage.Current])
  | advance before after =>
      exact h.step rfl rfl ⟨ne_written_of_counter (counter_of_held after),
        ne_written_of_counter (counter_of_held before)⟩
        (fun hs => absurd hs (not_current_of_counter (counter_of_held after)))
  | fail before =>
      exact h.step rfl rfl ⟨by simp, ne_written_of_counter before⟩ (by simp [Stage.Current])
  | publish before =>
      have hnew : k ∉ w.published := by
        rw [← h.written k, before]
        simp
      refine ⟨?_, List.nodup_cons.mpr ⟨hnew, h.once⟩, ?_⟩
      · intro k'
        by_cases hne : k' = k
        · subst hne
          simp [World.setStage, World.publish]
        · simpa [World.setStage, World.publish, World.setDisk, hne] using h.written k'
      · intro k' hc
        by_cases hne : k' = k
        · subst hne
          simp [World.setStage, Stage.Current] at hc
        · exact (h.current k' (by simpa [World.setStage, World.publish, World.setDisk, hne]
            using hc)).mono k
  | clean before | keep before =>
      exact h.step rfl rfl ⟨by simp, by simp [before]⟩ (by simp [Stage.Current])

end Results

end Moves

/-! ## Runs -/

section Runs

variable {κ ρ : Type} {calls : κ → Call} {d₀ : Inodes Path Node}

/-- No call has begun, and no reader has a file open. -/
def start (d₀ : Inodes Path Node) : World κ ρ :=
  ⟨d₀, fun _ => 0, fun _ => .ready, fun _ => none, []⟩

/-- All that holds in every run. -/
structure Inv (calls : κ → Call) (d₀ : Inodes Path Node) (w : World κ ρ) : Prop where
  apart : Apart calls w
  targets : TargetsKept calls d₀ w.disk w.published
  readers : ReadersKept calls d₀ w
  names : NamesKept calls d₀ w
  results : ResultsKept calls d₀ w

theorem start_inv : Inv calls d₀ (start d₀ : World κ ρ) where
  apart := ⟨by simp [start, Stage.counter], by simp [start, Stage.counter],
    by simp [start, Stage.held]⟩
  targets := fun p _ => rfl
  readers := by simp [ReadersKept, start]
  names := fun p hp => Or.inl hp
  results := ⟨by simp [start], by simp [start], by simp [start, Stage.Current]⟩

theorem counter_crash (s : Stage) : s.crash.counter = none := by cases s <;> rfl

theorem held_crash (s : Stage) : s.crash.held = none := by cases s <;> rfl

theorem trace_crash (s : Stage) : s.crash.trace = s.trace := by cases s <;> rfl

theorem crash_eq_written (s : Stage) : s.crash = .returned .written ↔ s = .returned .written := by
  cases s <;> simp [Stage.crash]

theorem current_of_crash {s : Stage} (h : s.crash.Current) : s.Current := by
  cases s <;> simp_all [Stage.crash, Stage.Current]

/-- The stages when a process has crashed. -/
def crashed (calls : κ → Call) (stages : κ → Stage) (pid : Nat) : κ → Stage :=
  fun k => if (calls k).pid = pid then (stages k).crash else stages k

theorem Inv.crash {w : World κ ρ} (h : Inv calls d₀ w) (pid : Nat) :
    Inv calls d₀ ⟨w.disk, Function.update w.counters pid 0, crashed calls w.stages pid, w.readers,
      w.published⟩ := by
  -- A call that has a temp file after the crash had it before, in another process.
  have hcounter : ∀ k n, (crashed calls w.stages pid k).counter = some n →
      (calls k).pid ≠ pid ∧ (w.stages k).counter = some n := by
    intro k n hn
    by_cases hpid : (calls k).pid = pid
    · simp [crashed, hpid, counter_crash] at hn
    · exact ⟨hpid, by simpa [crashed, hpid] using hn⟩
  have hheld : ∀ k n i rest, (crashed calls w.stages pid k).held = some (n, i, rest) →
      (w.stages k).held = some (n, i, rest) := by
    intro k n i rest hk
    by_cases hpid : (calls k).pid = pid
    · simp [crashed, hpid, held_crash] at hk
    · simpa [crashed, hpid] using hk
  refine ⟨⟨?_, ?_, ?_⟩, h.targets, ?_, ?_, ⟨?_, h.results.once, ?_⟩⟩
  · intro k n hn
    obtain ⟨hpid, hn⟩ := hcounter k n hn
    simpa [hpid] using h.apart.fresh k n hn
  · intro k k' n hne hpid hn hn'
    exact h.apart.apart k k' n hne hpid (hcounter k n hn).2 (hcounter k' n hn').2
  · intro k n i rest hk
    exact h.apart.holds k n i rest (hheld k n i rest hk)
  · intro r reader hreader hpath
    obtain ⟨hreads, hothers⟩ := h.readers r reader hreader hpath
    exact ⟨hreads, fun k n i rest hk => hothers k n i rest (hheld k n i rest hk)⟩
  · intro p hp
    rcases h.names p hp with h₀ | htarget | ⟨k, n, hn, htemp⟩
    · exact Or.inl h₀
    · exact Or.inr (Or.inl htarget)
    · refine Or.inr (Or.inr ⟨k, n, ?_, htemp⟩)
      by_cases hpid : (calls k).pid = pid <;> simpa [crashed, hpid, trace_crash] using hn
  · intro k
    rw [← h.results.written k]
    by_cases hpid : (calls k).pid = pid <;> simp [crashed, hpid, crash_eq_written]
  · intro k hc
    refine h.results.current k ?_
    by_cases hpid : (calls k).pid = pid
    · exact current_of_crash (by simpa [crashed, hpid] using hc)
    · simpa [crashed, hpid] using hc

variable [DecidableEq ρ]

/-- One reader changes. -/
theorem Inv.setReader {w : World κ ρ} (h : Inv calls d₀ w) (r : ρ) {reader : Option Reader}
    (hreader : ∀ x, reader = some x → ¬ IsTemp x.path →
      (∃ bytes, Reads calls d₀ w.disk w.published x bytes) ∧
        ∀ k n i rest, (w.stages k).held = some (n, i, rest) → i ≠ x.ino) :
    Inv calls d₀ (w.setReader r reader) := by
  refine ⟨⟨h.apart.fresh, h.apart.apart, h.apart.holds⟩, h.targets, ?_, h.names,
    ⟨h.results.written, h.results.once, h.results.current⟩⟩
  intro r' x hx hpath
  by_cases hr : r' = r
  · subst hr
    exact hreader x (by simpa [World.setReader] using hx) hpath
  · exact h.readers r' x (by simpa [World.setReader, hr] using hx) hpath

theorem Inv.openRead {w : World κ ρ} (h : Inv calls d₀ w) (r : ρ) {path : Path} {ino : Nat}
    (hname : w.disk.names path = some ino) :
    Inv calls d₀ (w.setReader r
      (if isFile (w.disk.file ino) then some ⟨path, ino, [], false⟩ else none)) := by
  refine h.setReader r ?_
  intro x hx hpath
  cases hfile : w.disk.file ino with
  | none => simp [hfile, isFile] at hx
  | some node =>
      cases node with
      | other => simp [hfile, isFile] at hx
      | file bytes mode =>
          obtain rfl : _ = x := by simpa [hfile, isFile] using hx
          have hread : w.disk.read path = some (.file bytes mode) := by
            simp [Inodes.read, hname, hfile]
          refine ⟨⟨bytes, ⟨mode, hfile⟩, List.nil_prefix, by simp, h.targets.was hpath hread⟩, ?_⟩
          rintro k n i rest hheld rfl
          have htemp := (h.apart.holds k n _ rest hheld).sole path hname
          exact hpath (htemp ▸ isTemp_temp (calls k) n)

theorem Inv.read {w : World κ ρ} (h : Inv calls d₀ w) {r : ρ} {reader : Reader}
    (hreader : w.readers r = some reader) {bytes : List UInt8} {mode : Nat}
    (hfile : w.disk.file reader.ino = some (.file bytes mode)) (size : Nat) :
    let more := (bytes.drop reader.got.length).take (size + 1)
    Inv calls d₀ (w.setReader r
      (some ⟨reader.path, reader.ino, reader.got ++ more, more.isEmpty⟩)) := by
  intro more
  refine h.setReader r ?_
  intro x hx hpath
  obtain rfl := Option.some.inj hx
  obtain ⟨⟨bytes', hreads⟩, hheld⟩ := h.readers r reader hreader hpath
  obtain ⟨mode', hfile'⟩ := hreads.file
  obtain ⟨rfl, rfl⟩ := Node.file.inj (Option.some.inj (hfile.symm.trans hfile'))
  obtain ⟨tail, htail⟩ := hreads.got
  have hdrop : bytes.drop reader.got.length = tail := by rw [← htail, List.drop_left]
  refine ⟨⟨bytes, ⟨mode, hfile⟩, ?_, ?_, hreads.was⟩, hheld⟩
  · refine ⟨tail.drop (size + 1), ?_⟩
    simp only [more, hdrop]
    rw [List.append_assoc, List.take_append_drop, htail]
  · intro hdone
    have hmore : more = [] := List.isEmpty_iff.mp hdone
    have hnil : tail = [] := by
      simp only [more, hdrop] at hmore
      simpa using hmore
    simp only [hmore, List.append_nil, ← htail, hnil]

variable [DecidableEq κ]

theorem step_inv (htargets : ∀ k, ¬ IsTemp (calls k).target) (w : World κ ρ) (act : Act κ ρ)
    (h : Inv calls d₀ w) : Inv calls d₀ (step calls w act) := by
  cases act with
  | step k a =>
      have hmoves := stepCall_moves calls w k a
      exact ⟨hmoves.apart h.apart htargets, hmoves.targetsKept h.apart h.targets,
        hmoves.readersKept h.readers, hmoves.namesKept h.apart htargets h.names,
        hmoves.resultsKept htargets h.targets h.results⟩
  | crash pid => exact h.crash pid
  | openRead r path =>
      simp only [step]
      split
      · next ino hname => exact h.openRead r hname
      · exact h
  | read r size =>
      simp only [step]
      split
      · exact h
      · next reader hreader =>
          split
          · next bytes mode hfile => exact h.read hreader hfile size
          · exact h

theorem run_inv (htargets : ∀ k, ¬ IsTemp (calls k).target) (acts : List (Act κ ρ)) :
    Inv calls d₀ (runFrom (step calls) (start d₀) acts) :=
  inv_of_run (Inv calls d₀) (step_inv htargets) start_inv acts

/-- A reader that came to the end of a target has the whole of one file: the first one, or the text
of a call that was renamed onto the target. -/
theorem reader_gets_whole_file (htargets : ∀ k, ¬ IsTemp (calls k).target) (d₀ : Inodes Path Node)
    (acts : List (Act κ ρ)) (r : ρ) (reader : Reader) :
    let w := runFrom (step calls) (start d₀) acts
    w.readers r = some reader → ¬ IsTemp reader.path → reader.done = true →
      Was calls d₀ w.published reader.path reader.got := by
  intro w hreader hpath hdone
  have h : Inv calls d₀ w := run_inv htargets acts
  obtain ⟨⟨bytes, hreads⟩, -⟩ := h.readers r reader hreader hpath
  rw [hreads.done hdone]
  exact hreads.was

end Runs

/-! ## Two calls and a reader -/

/-- A temp file is known by its end. -/
theorem not_isTemp {p : Path} (h : ¬ ".tmp".toList <:+ p.2.toList) : ¬ IsTemp p := by
  rintro ⟨stem, pid, nanos, counter, hp⟩
  exact h (by rw [hp, tempName, String.toList_append]; exact List.suffix_append _ _)

/-- Two processes write one file. -/
def twoCalls (k : Bool) : Call :=
  ⟨if k then 7 else 8, 0, ("state", "icm.json"), if k then [1, 2] else [3, 4], false⟩

theorem twoCalls_targets (k : Bool) : ¬ IsTemp (twoCalls k).target := by
  refine not_isTemp ?_
  cases k <;> decide

def noFiles : Inodes Path Node := Inodes.empty

/-- The second process crashes with half of its text in its temp file. -/
def twoRuns : List (Act Bool Unit) :=
  List.replicate 4 (.step false ⟨true, 0⟩) ++ List.replicate 6 (.step true ⟨true, 5⟩) ++
    [.crash 8, .openRead () ("state", "icm.json"), .read () 0, .read () 5, .read () 5]

theorem reader_gets_whole_file_two_runs :
    Was twoCalls noFiles (runFrom (step twoCalls) (start noFiles) twoRuns).published
      ("state", "icm.json") [1, 2] :=
  reader_gets_whole_file twoCalls_targets noFiles twoRuns ()
    ⟨("state", "icm.json"), 1, [1, 2], true⟩ (by rfl) (not_isTemp (by decide)) rfl

end Llmenv.Paths.AtomicWrite
