/-
# `Llmenv.Tasks.Data` — the records of the task tracker and its store

`crates/llmenv-task` keeps one JSON file per task under `tasks/` and one per
session under `tasks/sessions/`.  This module has the records, the store they
live in, and the two kinds of write an operation makes.

Three choices of the model:

  * A store is two `Keyed` folders.  A file is named after the slug of the
    task in it, and every name passed `is_valid_short_name`: `save_task` and
    `save_session` refuse any other name, so the fields `named` state it.  A
    file that cannot be read or parsed is not represented; every strict read
    (`list_tasks_strict`) therefore succeeds.
  * Every mutating function holds the store lock, reads first and writes last.
    It is modelled as a decision that returns the writes in order.  `commit`
    performs them, and `Env.failAt` says which one fails, if any: the writes
    before it stay on disk, which is all a failed call can leave behind.
  * `now_rfc3339()` and `EngineIdentity::from_env()` read the environment, so
    their answers are the fields of `Env`.
-/
import Llmenv.Lib.Keyed
import Llmenv.Lib.Result
import Llmenv.Lib.Text
import Mathlib.Data.List.Perm.Subperm

namespace Llmenv.Tasks

open Llmenv.Lib

/-- Lifecycle state of a tracked task. -/
inductive TaskState where
  | opened
  | wip
  | waiting
  | done
deriving DecidableEq

/-- Lowercase label. -/
def TaskState.asStr : TaskState → String
  | .opened => "open"
  | .wip => "wip"
  | .waiting => "waiting"
  | .done => "done"

/-- The `Debug` form of a state. -/
def TaskState.debug : TaskState → String
  | .opened => "Open"
  | .wip => "Wip"
  | .waiting => "Waiting"
  | .done => "Done"

/-- How a task relates to the other tasks of its session. -/
inductive Relation where
  | queued
  | child
deriving DecidableEq

/-- A timestamped progress note. -/
structure TaskNote where
  stamp : String
  text : String
deriving DecidableEq

/-- A single tracked task. -/
structure Task where
  slug : String
  title : String
  state : TaskState
  parent : Option String
  relation : Relation
  parallel : Bool
  blockedOn : List String
  notes : List TaskNote
  detail : Option String
  session : Option String
  createdAt : String
  updatedAt : String
deriving DecidableEq

/-- A task session.  The resume context is display data that no check reads,
so it is left out. -/
structure Session where
  id : String
  name : Option String
  project : String
  description : Option String
  startedAt : String
  lastActivity : String
  finishedAt : Option String
  abandonedAt : Option String
  ownerSession : Option String
  ownerPid : Option Nat
deriving DecidableEq

/-- A session is open when it has been neither finished nor abandoned. -/
def Session.isOpen (s : Session) : Bool :=
  s.finishedAt.isNone && s.abandonedAt.isNone

/-- Who is calling: the engine conversation and process. -/
structure EngineIdentity where
  sessionId : Option String
  pid : Option Nat
deriving DecidableEq

/-! ## Names -/

/-- True if `name` is safe as a single path component. -/
def isValidShortName (name : String) : Bool :=
  if name.isEmpty || name == "." || name == ".." || Text.startsWith name "-" then
    false
  else
    name.toList.all (fun c => c.isAlphanum || c == '.' || c == '_' || c == '-')

/-- A kebab-case slug: the first six words, lowercase, runs of other
characters collapsed to one dash. -/
def slugify (title : String) : String :=
  let words := (Text.splitWhitespace title.toList).take 6
  let parts := Text.split (fun c => !c.isAlphanum) (Text.join [' '] words)
  String.ofList (Text.join ['-']
    ((parts.filter (fun part => !part.isEmpty)).map Text.toAsciiLowercase))

/-- The `n`-th name that `unique_slug` tries after the base itself. -/
def slugCandidate (base : String) (n : Nat) : String :=
  String.ofList (base.toList ++ '-' :: Nat.toDigits 10 n)

/-- `unique_slug`: the base, or the first of `base-2`, `base-3`, ... that is
not taken.  `tries` bounds the loop by the number of files; it never runs out
(`uniqueSlug_fresh`). -/
def uniqueSlugFrom (taken : String → Bool) (base : String) : Nat → Nat → String
  | 0, n => slugCandidate base n
  | tries + 1, n =>
      if taken (slugCandidate base n) then uniqueSlugFrom taken base tries (n + 1)
      else slugCandidate base n

def uniqueSlug (names : List String) (base : String) : String :=
  if names.contains base then
    uniqueSlugFrom (fun name => names.contains name) base names.length 2
  else base

theorem slugCandidate_injective {base : String} {m n : Nat}
    (h : slugCandidate base m = slugCandidate base n) : m = n := by
  have hl : base.toList ++ '-' :: Nat.toDigits 10 m = base.toList ++ '-' :: Nat.toDigits 10 n := by
    simpa [slugCandidate] using congrArg String.toList h
  have hd : Nat.toDigits 10 m = Nat.toDigits 10 n := by simpa using hl
  calc m = Nat.ofDigitChars 10 (Nat.toDigits 10 m) 0 := Nat.ofDigitChars_ten_toDigits.symm
    _ = Nat.ofDigitChars 10 (Nat.toDigits 10 n) 0 := by rw [hd]
    _ = n := Nat.ofDigitChars_ten_toDigits

/-- Out of tries means that every candidate so far was a taken name. -/
theorem uniqueSlugFrom_taken {taken : String → Bool} {base : String} :
    ∀ {tries n : Nat}, taken (uniqueSlugFrom taken base tries n) = true →
      ∀ i ≤ tries, taken (slugCandidate base (n + i)) = true
  | 0, n, h, i, hi => by
      obtain rfl : i = 0 := by omega
      simpa [uniqueSlugFrom] using h
  | tries + 1, n, h, i, hi => by
      simp only [uniqueSlugFrom] at h
      split at h
      · rename_i hn
        cases i with
        | zero => exact hn
        | succ i =>
            have := uniqueSlugFrom_taken h i (by omega)
            rwa [show n + (i + 1) = n + 1 + i by omega]
      · rename_i hn
        exact absurd h hn

/-- The chosen name is free: there are more candidates than files. -/
theorem uniqueSlug_fresh (names : List String) (base : String) :
    uniqueSlug names base ∉ names := by
  simp only [uniqueSlug]
  split
  · intro hmem
    have hall := @uniqueSlugFrom_taken (fun name => names.contains name) base names.length 2
      (by simpa using hmem)
    have hsub : (List.range (names.length + 1)).map (fun i => slugCandidate base (2 + i)) ⊆
        names := by
      intro name hname
      obtain ⟨i, hi, rfl⟩ := List.mem_map.mp hname
      simpa using hall i (by have := List.mem_range.mp hi; omega)
    have hnodup : ((List.range (names.length + 1)).map
        (fun i => slugCandidate base (2 + i))).Nodup := by
      refine List.Nodup.map (fun i j hij => ?_) List.nodup_range
      have := slugCandidate_injective hij
      omega
    have := (List.subperm_of_subset hnodup hsub).length_le
    simp only [List.length_map, List.length_range] at this
    omega
  · rename_i hbase
    simpa using hbase

/-! ## The store -/

/-- The task files and the session files. -/
structure Store where
  tasks : Keyed Task.slug
  sessions : Keyed Session.id
  taskNamed : ∀ t ∈ tasks.items, isValidShortName t.slug = true
  sessionNamed : ∀ s ∈ sessions.items, isValidShortName s.id = true

namespace Store

/-- No file yet. -/
def empty : Store := ⟨.empty, .empty, by simp [Keyed.empty], by simp [Keyed.empty]⟩

/-- The task stored under `slug`. -/
def task? (s : Store) (slug : String) : Option Task := s.tasks.find? slug

/-- The session stored under `id`. -/
def session? (s : Store) (id : String) : Option Session := s.sessions.find? id

end Store

/-- One write of an operation.  A save carries the check that `save_task` and
`save_session` make first. -/
inductive Write where
  | saveTask (t : Task) (valid : isValidShortName t.slug = true)
  | removeTask (slug : String)
  | saveSession (s : Session) (valid : isValidShortName s.id = true)

namespace Store

/-- Perform one write. -/
def apply (s : Store) : Write → Store
  | .saveTask t valid =>
      { s with
        tasks := s.tasks.put t
        taskNamed := fun u hu => (Keyed.mem_putList hu).elim (fun h => h ▸ valid) (s.taskNamed u) }
  | .removeTask slug =>
      { s with
        tasks := s.tasks.erase slug
        taskNamed := fun u hu => s.taskNamed u (List.mem_of_mem_filter hu) }
  | .saveSession x valid =>
      { s with
        sessions := s.sessions.put x
        sessionNamed := fun u hu => (Keyed.mem_putList hu).elim (fun h => h ▸ valid) (s.sessionNamed u) }

/-- Perform the writes in order. -/
def applyAll (s : Store) (ws : List Write) : Store := ws.foldl apply s

@[simp] theorem applyAll_nil (s : Store) : s.applyAll [] = s := rfl

@[simp] theorem applyAll_cons (s : Store) (w : Write) (ws : List Write) :
    s.applyAll (w :: ws) = (s.apply w).applyAll ws := rfl

/-! ### What a lookup sees after a write -/

@[simp] theorem task?_empty (slug : String) : empty.task? slug = none := rfl

theorem task?_saveTask (s : Store) (t : Task) (h) (slug : String) :
    (s.apply (.saveTask t h)).task? slug = if t.slug = slug then some t else s.task? slug :=
  Keyed.find?_put s.tasks t slug

theorem task?_removeTask (s : Store) (slug k : String) :
    (s.apply (.removeTask slug)).task? k = if k = slug then none else s.task? k :=
  Keyed.find?_erase s.tasks slug k

@[simp] theorem task?_saveSession (s : Store) (x : Session) (h) (slug : String) :
    (s.apply (.saveSession x h)).task? slug = s.task? slug := rfl

theorem session?_saveSession (s : Store) (x : Session) (h) (id : String) :
    (s.apply (.saveSession x h)).session? id = if x.id = id then some x else s.session? id :=
  Keyed.find?_put s.sessions x id

theorem mem_tasks_iff {s : Store} {t : Task} : t ∈ s.tasks.items ↔ s.task? t.slug = some t :=
  Keyed.mem_iff_find?

theorem slug_of_task? {s : Store} {slug : String} {t : Task} (h : s.task? slug = some t) :
    t.slug = slug :=
  Keyed.key_of_find? h

theorem id_of_session? {s : Store} {id : String} {x : Session} (h : s.session? id = some x) :
    x.id = id :=
  Keyed.key_of_find? h

theorem valid_of_task? {s : Store} {slug : String} {t : Task} (h : s.task? slug = some t) :
    isValidShortName slug = true :=
  slug_of_task? h ▸ s.taskNamed t (Keyed.mem_of_find? h)

end Store

/-! ## Calls and their outcome -/

/-- Why a call returned an error: a check refused it, or its `written + 1`-st
write failed. -/
inductive Failure where
  | refused (text : String)
  | save (written : Nat)
deriving DecidableEq

/-- What a call reads besides the store. -/
structure Env where
  /-- `EngineIdentity::from_env`, with its error text. -/
  identity : Except String EngineIdentity
  /-- The successive samples of `now_rfc3339()`. -/
  now : Nat → String
  /-- The index of the write that fails, if one does. -/
  failAt : Option Nat
  /-- The sample of the `last_activity` touch after the call, or `none` when
  that best-effort write fails. -/
  touch : Option String

/-- What a decision returns when no check refuses it: the writes, in order,
and the result of the call. -/
abbrev Planned (α : Type) := List Write × α

/-- Perform the writes up to the one that fails. -/
def commit (env : Env) (s : Store) (ws : List Write) : Except Failure Unit × Store :=
  match env.failAt with
  | none => (.ok (), s.applyAll ws)
  | some k =>
      if k < ws.length then (.error (.save k), s.applyAll (ws.take k))
      else (.ok (), s.applyAll ws)

end Llmenv.Tasks
