/-
# `Llmenv.HookRun.Idempotency` — detached calls that are not made twice

`src/hook_run/idempotency.rs` with its two callers, `record_once` of
`src/session_log/detached.rs` and `store_once` of `src/hook_run/detached_store.rs`.
A call is skipped when its request id is in the seen-set of its key, and a call
that succeeds puts its id there.  The set has the newest `MAX_IDS` ids
(`Llmenv.Lib.Recent`), so `skipped_iff` says exactly which earlier call is the
reason for a skip.

Runs are sequential, every lock is taken, and every file can be read and
written; a file that is not there is an empty set.
-/
import Mathlib.Logic.Function.Basic
import Llmenv.Lib.Json
import Llmenv.Lib.Recent
import Llmenv.Lib.Runs
import Llmenv.Tasks.Data

namespace Llmenv.HookRun.Idempotency

open Llmenv.Lib
open Llmenv.Tasks (isValidShortName)

/-! ## The code -/

/-- Ids kept per key. -/
def maxIds : Nat := 1000

/-- The seen-sets, by key. -/
abbrev SeenStore := String → List String

namespace SeenStore

def contains (s : SeenStore) (key id : String) : Bool := (s key).any fun i => i == id

/-- Record an id under a key, dropping the oldest id past the limit. -/
def record (s : SeenStore) (key id : String) : SeenStore :=
  if (s key).any (fun i => i == id) then s
  else
    let ids := s key ++ [id]
    Function.update s key (ids.drop (ids.length - maxIds))

end SeenStore

section Calls

variable (hashPrefix : String → String)

/-- A key that is always safe as a file name. -/
def stateKey (raw : String) : String := if isValidShortName raw then raw else hashPrefix raw

/-- The idempotency check for one detached call. -/
structure Guard where
  key : String
  id : String
deriving DecidableEq

/-- `Guard::new`, with a state folder. -/
def Guard.new (key id : String) : Option Guard :=
  if id.isEmpty then none else some ⟨stateKey hashPrefix key, id⟩

/-- How a detached call ends. -/
inductive Outcome where
  | skipped
  | failed
  | succeeded
deriving DecidableEq

/-- The body of both callers: skip, or make the call and record its id when it succeeds. -/
def guardedCall (guard : Option Guard) (succeeds : Bool) (s : SeenStore) : SeenStore × Outcome :=
  if guard.any (fun g => s.contains g.key g.id) then (s, .skipped)
  else if succeeds then
    match guard with
    | some g => (s.record g.key g.id, .succeeded)
    | none => (s, .succeeded)
  else (s, .failed)

def requestIdField : String := "llmenv_request_id"

def requestKeyField : String := "llmenv_request_key"

/-- `take` of `store_once`: the text of a field, or none. -/
def takeField (args : Json) (field : String) : String :=
  match args with
  | .obj fields =>
      match Fields.get field fields with
      | some (.str text) => text
      | _ => ""
  | _ => ""

/-- One detached call, and whether the memory server accepts it. -/
inductive Job where
  | record (sessionId requestId : String) (succeeds : Bool)
  | store (args : Json) (succeeds : Bool)

def Job.key : Job → String
  | .record sessionId _ _ => sessionId
  | .store args _ => takeField args requestKeyField

def Job.id : Job → String
  | .record _ requestId _ => requestId
  | .store args _ => takeField args requestIdField

def Job.succeeds : Job → Bool
  | .record _ _ succeeds => succeeds
  | .store _ succeeds => succeeds

def recordOnce (sessionId requestId : String) (succeeds : Bool) (s : SeenStore) :
    SeenStore × Outcome :=
  guardedCall (Guard.new hashPrefix sessionId requestId) succeeds s

def storeOnce (args : Json) (succeeds : Bool) (s : SeenStore) : SeenStore × Outcome :=
  guardedCall (Guard.new hashPrefix (takeField args requestKeyField)
    (takeField args requestIdField)) succeeds s

/-! ## Runs -/

def runJob (s : SeenStore) : Job → SeenStore × Outcome
  | .record sessionId requestId succeeds => recordOnce hashPrefix sessionId requestId succeeds s
  | .store args succeeds => storeOnce hashPrefix args succeeds s

/-- The seen-sets after some calls, from none. -/
def after (jobs : List Job) : SeenStore :=
  runFrom (fun s job => (runJob hashPrefix s job).1) (fun _ => []) jobs

/-- The ids that some calls put in the seen-set of a key. -/
def newlyRecorded (s : SeenStore) (key : String) : List Job → Finset String
  | [] => ∅
  | job :: jobs =>
      let s' := (runJob hashPrefix s job).1
      ((s' key).toFinset \ (s key).toFinset) ∪ newlyRecorded s' key jobs

/-! ## What the seen-set remembers -/

theorem runJob_eq (s : SeenStore) (job : Job) :
    runJob hashPrefix s job = guardedCall (Guard.new hashPrefix job.key job.id) job.succeeds s := by
  cases job with
  | record sessionId requestId succeeds => rfl
  | store args succeeds => rfl

/-- The id that a call records under a key, unless it is skipped. -/
def okId (key : String) (job : Job) : Option String :=
  if job.succeeds = true ∧ job.id ≠ "" ∧ stateKey hashPrefix job.key = key then some job.id
  else none

/-- A call without an id is made and recorded nowhere. -/
theorem runJob_of_no_id {s : SeenStore} {job : Job} (hid : job.id = "") :
    runJob hashPrefix s job = (s, if job.succeeds then .succeeded else .failed) := by
  have hguard : Guard.new hashPrefix job.key job.id = none := by
    rw [Guard.new, if_pos]
    simp [hid]
  rw [runJob_eq, hguard]
  cases hsucceeds : job.succeeds with
  | true => rfl
  | false => rfl

/-- A call with an id is skipped when the id is in the seen-set of its key. -/
theorem runJob_of_id {s : SeenStore} {job : Job} (hid : job.id ≠ "") :
    runJob hashPrefix s job =
      if job.id ∈ s (stateKey hashPrefix job.key) then (s, .skipped)
      else if job.succeeds then (s.record (stateKey hashPrefix job.key) job.id, .succeeded)
      else (s, .failed) := by
  have hguard : Guard.new hashPrefix job.key job.id =
      some ⟨stateKey hashPrefix job.key, job.id⟩ := by
    rw [Guard.new, if_neg]
    simpa using hid
  have hcontains : (some (Guard.mk (stateKey hashPrefix job.key) job.id)).any
      (fun g => s.contains g.key g.id) = true ↔ job.id ∈ s (stateKey hashPrefix job.key) := by
    simp [SeenStore.contains]
  rw [runJob_eq, hguard]
  simp only [guardedCall, hcontains]

theorem skipped_iff_mem {s : SeenStore} {job : Job} (hid : job.id ≠ "") :
    (runJob hashPrefix s job).2 = .skipped ↔ job.id ∈ s (stateKey hashPrefix job.key) := by
  rw [runJob_of_id hashPrefix hid]
  split
  · rename_i hmem
    simp [hmem]
  · rename_i hmem
    split
    · simp [hmem]
    · simp [hmem]

theorem succeeded_iff {s : SeenStore} {job : Job} (hid : job.id ≠ "") :
    (runJob hashPrefix s job).2 = .succeeded ↔
      job.succeeds = true ∧ job.id ∉ s (stateKey hashPrefix job.key) := by
  rw [runJob_of_id hashPrefix hid]
  split
  · rename_i hmem
    simp [hmem]
  · rename_i hmem
    split
    · rename_i hsucceeds
      simp [hmem, hsucceeds]
    · rename_i hsucceeds
      simp [hsucceeds]

/-- A call that fails changes no seen-set. -/
theorem runJob_failed {s : SeenStore} {job : Job} (h : (runJob hashPrefix s job).2 = .failed) :
    (runJob hashPrefix s job).1 = s := by
  by_cases hid : job.id = ""
  · rw [runJob_of_no_id hashPrefix hid]
  · rw [runJob_of_id hashPrefix hid] at h ⊢
    split at h
    · exact absurd h (by simp)
    · rename_i hmem
      rw [if_neg hmem]
      split at h
      · exact absurd h (by simp)
      · rename_i hsucceeds
        rw [if_neg hsucceeds]

theorem record_eq (s : SeenStore) (key id k : String) :
    s.record key id k = if key = k then Recent.remember maxIds (s k) id else s k := by
  rw [SeenStore.record]
  have hany : (s key).any (fun i => i == id) = true ↔ id ∈ s key := by simp
  by_cases hmem : id ∈ s key
  · rw [if_pos (hany.mpr hmem)]
    split
    · rename_i hkey
      rw [Recent.remember_of_mem (hkey ▸ hmem)]
    · rfl
  · rw [if_neg (fun h => hmem (hany.mp h))]
    split
    · rename_i hkey
      subst hkey
      rw [Recent.remember_of_not_mem hmem]
      exact Function.update_self _ _ _
    · rename_i hkey
      exact Function.update_of_ne (Ne.symm hkey) _ _

/-- What a call does to the seen-set of a key.  A call that is skipped has an id that is there. -/
theorem runJob_key (s : SeenStore) (job : Job) (key : String) :
    (runJob hashPrefix s job).1 key =
      Recent.remembered maxIds (s key) (okId hashPrefix key job).toList := by
  by_cases hid : job.id = ""
  · have hok : okId hashPrefix key job = none := by simp [okId, hid]
    rw [hok, runJob_of_no_id hashPrefix hid]
    rfl
  · rw [runJob_of_id hashPrefix hid]
    cases hok : okId hashPrefix key job with
    | none =>
        simp only [okId, ne_eq, hid, not_false_eq_true, true_and, ite_eq_right_iff, reduceCtorEq,
          imp_false, not_and] at hok
        split
        · rfl
        · split
          · rename_i hsucceeds
            exact (record_eq s _ _ key).trans (if_neg (hok hsucceeds))
          · rfl
    | some id =>
        simp only [okId, ne_eq, hid, not_false_eq_true, true_and, Option.ite_none_right_eq_some,
          Option.some.injEq] at hok
        obtain ⟨⟨hsucceeds, hkey⟩, rfl⟩ := hok
        show _ = Recent.remember maxIds (s key) job.id
        split
        · rename_i hmem
          rw [Recent.remember_of_mem (hkey ▸ hmem)]
        · exact (record_eq s _ _ key).trans (if_pos hkey)

theorem runFrom_key (key : String) (jobs : List Job) (s : SeenStore) :
    runFrom (fun s job => (runJob hashPrefix s job).1) s jobs key =
      Recent.remembered maxIds (s key) (jobs.filterMap (okId hashPrefix key)) := by
  induction jobs generalizing s with
  | nil => rfl
  | cons job jobs ih =>
      rw [runFrom_cons, ih, runJob_key, List.filterMap_cons]
      cases okId hashPrefix key job with
      | none => rfl
      | some id => rfl

theorem newlyRecorded_eq (key : String) (jobs : List Job) (s : SeenStore) :
    newlyRecorded hashPrefix s key jobs =
      (Recent.news maxIds (s key) (jobs.filterMap (okId hashPrefix key))).toFinset := by
  induction jobs generalizing s with
  | nil => rfl
  | cons job jobs ih =>
      rw [newlyRecorded, ih, runJob_key, List.filterMap_cons]
      cases okId hashPrefix key job with
      | none => simp [Recent.remembered]
      | some id =>
          show ((Recent.remember maxIds (s key) id).toFinset \ (s key).toFinset) ∪ _ = _
          rw [Recent.toFinset_remember_sdiff (by decide), Recent.news, Option.toList_some]
          split
          · rename_i hmem
            rw [Finset.empty_union, Recent.remembered, List.foldl_cons, List.foldl_nil,
              Recent.remember_of_mem hmem]
          · rw [List.toFinset_cons]
            rfl

theorem after_key (key : String) (jobs : List Job) :
    after hashPrefix jobs key =
      Recent.remembered maxIds [] (jobs.filterMap (okId hashPrefix key)) :=
  runFrom_key hashPrefix key jobs fun _ => []

theorem okId_eq_some {key : String} {job : Job} {id : String} :
    okId hashPrefix key job = some id ↔
      job.succeeds = true ∧ id ≠ "" ∧ stateKey hashPrefix job.key = key ∧ job.id = id := by
  rw [okId, Option.ite_none_right_eq_some]
  constructor
  · rintro ⟨⟨hsucceeds, hid, hkey⟩, heq⟩
    obtain rfl := Option.some.inj heq
    exact ⟨hsucceeds, hid, hkey, rfl⟩
  · rintro ⟨hsucceeds, hid, hkey, rfl⟩
    exact ⟨⟨hsucceeds, hid, hkey⟩, rfl⟩

/-- After any calls, a call with an id is skipped when an earlier one of the same seen-set and id
succeeded and fewer than `MAX_IDS` different ids went into that set since; and a call that failed
makes no difference. -/
theorem skipped_iff (jobs : List Job) (job : Job) (hid : job.id ≠ "") :
    ((runJob hashPrefix (after hashPrefix jobs) job).2 = .skipped ↔
      ∃ older earlier newer, jobs = older ++ earlier :: newer ∧
        stateKey hashPrefix earlier.key = stateKey hashPrefix job.key ∧ earlier.id = job.id ∧
        (runJob hashPrefix (after hashPrefix older) earlier).2 = .succeeded ∧
        (newlyRecorded hashPrefix (after hashPrefix (older ++ [earlier]))
          (stateKey hashPrefix job.key) newer).card < maxIds) ∧
    ∀ older failing newer, (runJob hashPrefix (after hashPrefix older) failing).2 = .failed →
      after hashPrefix (older ++ failing :: newer) = after hashPrefix (older ++ newer) := by
  refine ⟨?_, ?_⟩
  · rw [skipped_iff_mem hashPrefix hid, after_key, Recent.mem_remembered]
    constructor
    · rintro ⟨ids, ids', hsplit, hnew, hcard⟩
      obtain ⟨older, rest, rfl, rfl, hrest⟩ := List.filterMap_eq_append_iff.mp hsplit
      obtain ⟨skip, earlier, newer, rfl, hskip, hok, rfl⟩ := List.filterMap_eq_cons_iff.mp hrest
      obtain ⟨hsucceeds, -, hkey, hearlier⟩ := (okId_eq_some hashPrefix).mp hok
      -- The calls between add nothing to this seen-set.
      have hids : (older ++ skip).filterMap (okId hashPrefix (stateKey hashPrefix job.key)) =
          older.filterMap (okId hashPrefix (stateKey hashPrefix job.key)) := by
        rw [List.filterMap_append, List.filterMap_eq_nil_iff.mpr hskip, List.append_nil]
      refine ⟨older ++ skip, earlier, newer, by simp, hkey, hearlier, ?_, ?_⟩
      · rw [succeeded_iff hashPrefix (hearlier ▸ hid), hkey, hearlier, after_key, hids]
        exact ⟨hsucceeds, hnew⟩
      · rw [newlyRecorded_eq, after_key, List.filterMap_append, hids, List.filterMap_cons, hok]
        exact hcard
    · rintro ⟨older, earlier, newer, rfl, hkey, hearlier, hdone, hcard⟩
      have hne : earlier.id ≠ "" := hearlier ▸ hid
      rw [succeeded_iff hashPrefix hne, hkey, hearlier, after_key] at hdone
      have hok : okId hashPrefix (stateKey hashPrefix job.key) earlier = some job.id :=
        (okId_eq_some hashPrefix).mpr ⟨hdone.1, hid, hkey, hearlier⟩
      refine ⟨_, newer.filterMap (okId hashPrefix (stateKey hashPrefix job.key)), ?_, hdone.2, ?_⟩
      · rw [List.filterMap_append, List.filterMap_cons, hok]
      · rw [newlyRecorded_eq, after_key, List.filterMap_append, List.filterMap_cons, hok] at hcard
        exact hcard
  · intro older failing newer hfailed
    have hstep : (runJob hashPrefix (after hashPrefix older) failing).1 = after hashPrefix older :=
      runJob_failed hashPrefix hfailed
    rw [after, after, runFrom_append, runFrom_append, runFrom_cons]
    exact congrArg (fun s => runFrom _ s newer) hstep

end Calls

/-- A call that failed, and its retry. -/
def retried : List Job := [.record "a/b" "r1" false, .record "a/b" "r1" true]

/-- `hash_prefix` of the one key that is no file name. -/
def slashHash : String → String := fun _ => "c14cddc033f64b9d"

theorem skipped_iff_retried :
    (runJob slashHash (after slashHash retried) (.record "a/b" "r1" true)).2 = .skipped :=
  (skipped_iff slashHash retried (.record "a/b" "r1" true) (by decide)).1.mpr
    ⟨[.record "a/b" "r1" false], .record "a/b" "r1" true, [], rfl, rfl, rfl, by decide +kernel,
      by decide +kernel⟩

end Llmenv.HookRun.Idempotency
