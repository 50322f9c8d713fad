/-
# `Llmenv.HookRun.Recall` — records injected once for the parent conversation

The `RecallBudget` of `src/hook_run/recall.rs` and the turns that use it.  A
turn begins with the ids the ledger has for `main`, keeps what is new and fits,
and at its end marks what it kept as sent.  Between these steps the other
operations of the ledger may run in any order.

Without a reset no key is kept by two turns (`keys_once`): what an ended turn
kept is in the ledger from then on, and in the budget of every later turn.
-/
import Llmenv.HookRun.SessionLedger

namespace Llmenv.HookRun.Recall

open Llmenv.Lib
open Llmenv.HookRun.SessionLedger

/-! ## The code -/

/-- The bytes of a turn's recall. -/
def recallBudgetBytes : Nat := 8000

/-- Below this many free bytes the remaining recall queries are skipped. -/
def minFreeBytes : Nat := 200

/-- Bytes the join adds after each kept record. -/
def separatorBytes : Nat := 2

structure Recalled where
  id : String
  text : String
deriving DecidableEq

/-- The recall records kept so far, and what did not fit. -/
structure RecallBudget where
  kept : List Recalled
  /-- Keys of the records kept so far. -/
  seen : Finset String
  keptBytes : Nat
  /-- Records seen, including duplicates and omitted ones. -/
  records : Nat
  recordBytes : Nat
  duplicates : Nat
  /-- Records dropped because they did not fit. -/
  omitted : Nat
  /-- Recall actions not run because the budget was full. -/
  skippedActions : Nat
  limit : Nat
  /-- Keys of records the context already holds: ids, and text hashes of an older ledger. -/
  sent : Finset String
  alreadySent : Nat
  /-- Ids of records that matched `sent` by text hash only. -/
  migrated : List String
deriving DecidableEq

namespace RecallBudget

def new (limit : Nat) (sent : Finset String) : RecallBudget :=
  ⟨[], ∅, 0, 0, 0, 0, 0, 0, limit, sent, 0, []⟩

/-- Whether too little room is left to run another recall. -/
def isFull (b : RecallBudget) : Bool := decide (b.limit - b.keptBytes < minFreeBytes)

def skipActions (b : RecallBudget) (count : Nat) : RecallBudget :=
  { b with skippedActions := b.skippedActions + count }

/-- The keys to add to the sent set of the ledger. -/
def keptKeys (b : RecallBudget) : List String := b.kept.map Recalled.id ++ b.migrated

section Records

variable (recordHash : String → String)

/-- Whether the context already holds a record; a match by the text hash is noted. -/
def isAlreadySent (b : RecallBudget) (record : Recalled) : RecallBudget × Bool :=
  if record.id ∈ b.sent then (b, true)
  else if recordHash record.text ∈ b.sent then
    ({ b with migrated := b.migrated ++ [record.id] }, true)
  else (b, false)

def addRecord (b : RecallBudget) (record : Recalled) : RecallBudget :=
  let bytes := record.text.utf8ByteSize
  let b := { b with records := b.records + 1, recordBytes := b.recordBytes + bytes }
  let (b, already) := b.isAlreadySent recordHash record
  if already then { b with alreadySent := b.alreadySent + 1 }
  else if record.id ∈ b.seen then { b with duplicates := b.duplicates + 1 }
  else if b.keptBytes + bytes + separatorBytes ≤ b.limit then
    { b with
      keptBytes := b.keptBytes + (bytes + separatorBytes)
      seen := insert record.id b.seen
      kept := b.kept ++ [record] }
  else { b with omitted := b.omitted + 1 }

/-- Keep each record that is new and fits. -/
def addRecords (b : RecallBudget) (records : List Recalled) : RecallBudget :=
  records.foldl (addRecord recordHash) b

end Records

end RecallBudget

/-! ## Turns -/

/-- One step of a session: a step of a turn, or a call of another operation. -/
inductive Event where
  | begin (limit : Nat)
  | addRecords (records : List Recalled)
  | skipActions (count : Nat)
  | finish
  | call (c : SessionLedger.Call)
deriving DecidableEq

/-- The ledger of a session, the budget of the turn that runs, and the keys that the ended turns
kept, the last one first. -/
structure Session where
  ledger : Ledger
  turn : Option RecallBudget
  ended : List (List String)

def Session.start (ledger : Ledger) : Session := ⟨ledger, none, []⟩

/-- Turns are sequential: no turn begins in another one, and without a turn nothing is kept. -/
def step (recordHash : String → String) (s : Session) : Event → Session
  | .begin limit =>
      if s.turn.isNone then
        { s with turn := some (RecallBudget.new limit (s.ledger.sentFor mainAgent)) }
      else s
  | .addRecords records =>
      { s with turn := s.turn.map fun b => b.addRecords recordHash records }
  | .skipActions count => { s with turn := s.turn.map fun b => b.skipActions count }
  | .finish =>
      match s.turn with
      | some b => ⟨s.ledger.markSent mainAgent b.keptKeys, none, b.keptKeys :: s.ended⟩
      | none => s
  | .call c => { s with ledger := SessionLedger.step s.ledger c }

/-- The keys of each turn, the one that runs first. -/
def Session.keysByTurn (s : Session) : List (List String) :=
  (s.turn.map RecallBudget.keptKeys).toList ++ s.ended

/-! ## Every run -/

section Budget

variable (recordHash : String → String)

/-- What a budget keeps is not in the set it began with. -/
structure Fresh (sent : Finset String) (b : RecallBudget) : Prop where
  same : b.sent = sent
  keys : ∀ k ∈ b.keptKeys, k ∉ sent

theorem fresh_new (limit : Nat) (sent : Finset String) : Fresh sent (RecallBudget.new limit sent) :=
  ⟨rfl, fun _ hk => absurd hk List.not_mem_nil⟩

theorem fresh_addRecord {sent : Finset String} {b : RecallBudget} (h : Fresh sent b)
    (record : Recalled) : Fresh sent (b.addRecord recordHash record) := by
  have hsent := h.same
  simp only [RecallBudget.addRecord, RecallBudget.isAlreadySent]
  by_cases hid : record.id ∈ b.sent
  · simp only [hid, if_true]
    exact ⟨hsent, h.keys⟩
  · have hnew : record.id ∉ sent := hsent ▸ hid
    simp only [hid, if_false]
    by_cases hhash : recordHash record.text ∈ b.sent
    · -- The id is noted, and it is not in the set.
      simp only [hhash, if_true]
      refine ⟨hsent, ?_⟩
      intro k hk
      simp only [RecallBudget.keptKeys, List.mem_append, List.mem_singleton] at hk
      rcases hk with hk | hk | rfl
      · exact h.keys k (List.mem_append_left _ hk)
      · exact h.keys k (List.mem_append_right _ hk)
      · exact hnew
    · simp only [hhash, if_false, Bool.false_eq_true]
      split
      · exact ⟨hsent, h.keys⟩
      · split
        · refine ⟨hsent, ?_⟩
          intro k hk
          simp only [RecallBudget.keptKeys, List.map_append, List.map_singleton, List.mem_append,
            List.mem_singleton] at hk
          rcases hk with (hk | rfl) | hk
          · exact h.keys k (List.mem_append_left _ hk)
          · exact hnew
          · exact h.keys k (List.mem_append_right _ hk)
        · exact ⟨hsent, h.keys⟩

theorem fresh_addRecords {sent : Finset String} {b : RecallBudget} (h : Fresh sent b)
    (records : List Recalled) : Fresh sent (b.addRecords recordHash records) := by
  induction records generalizing b with
  | nil => exact h
  | cons record records ih => exact ih (fresh_addRecord recordHash h record)

end Budget

/-- What the ended turns kept was sent, for the ledger and for the turn that runs. -/
structure KeptOnce (s : Session) : Prop where
  disjoint : s.ended.Pairwise List.Disjoint
  sent : ∀ keys ∈ s.ended, ∀ k ∈ keys, k ∈ s.ledger.sentFor mainAgent
  turn : ∀ b, s.turn = some b → ∃ sent, Fresh sent b ∧ ∀ keys ∈ s.ended, ∀ k ∈ keys, k ∈ sent

theorem keptOnce_start (l : Ledger) : KeptOnce (Session.start l) :=
  ⟨List.Pairwise.nil, fun _ h => absurd h List.not_mem_nil,
    fun _ h => absurd h (by simp [Session.start])⟩

theorem sentFor_markSent_main (l : Ledger) (hashes : List String) :
    (l.markSent mainAgent hashes).sentFor mainAgent = l.sentFor mainAgent ∪ hashes.toFinset := by
  rw [Ledger.sentFor, Ledger.markSent, get_main_agentMut, if_pos rfl, Ledger.sentFor]
  cases Fields.get mainAgent l.agents.items with
  | none => rfl
  | some a => rfl

theorem keptOnce_step (recordHash : String → String) {s : Session} (h : KeptOnce s) {e : Event}
    (he : e ≠ .call .reset) : KeptOnce (step recordHash s e) := by
  cases e with
  | begin limit =>
      simp only [step]
      split
      · refine ⟨h.disjoint, h.sent, ?_⟩
        rintro b hb
        obtain rfl := Option.some.inj hb
        exact ⟨s.ledger.sentFor mainAgent, fresh_new limit _, h.sent⟩
      · exact h
  | addRecords records =>
      refine ⟨h.disjoint, h.sent, ?_⟩
      intro b hb
      obtain ⟨b', hb', rfl⟩ := Option.map_eq_some_iff.mp hb
      obtain ⟨sent, hfresh, hended⟩ := h.turn b' hb'
      exact ⟨sent, fresh_addRecords recordHash hfresh records, hended⟩
  | skipActions count =>
      refine ⟨h.disjoint, h.sent, ?_⟩
      intro b hb
      obtain ⟨b', hb', rfl⟩ := Option.map_eq_some_iff.mp hb
      obtain ⟨sent, hfresh, hended⟩ := h.turn b' hb'
      exact ⟨sent, ⟨hfresh.same, hfresh.keys⟩, hended⟩
  | finish =>
      cases hturn : s.turn with
      | none =>
          simp only [step, hturn]
          exact h
      | some b =>
          obtain ⟨sent, hfresh, hended⟩ := h.turn b hturn
          simp only [step, hturn]
          refine ⟨List.pairwise_cons.mpr ⟨?_, h.disjoint⟩, ?_, fun _ hb => absurd hb (by simp)⟩
          · intro keys hkeys k hk hk'
            exact hfresh.keys k hk (hended keys hkeys k hk')
          · show ∀ keys ∈ b.keptKeys :: s.ended, ∀ k ∈ keys,
              k ∈ (s.ledger.markSent mainAgent b.keptKeys).sentFor mainAgent
            rw [sentFor_markSent_main]
            intro keys hkeys k hk
            rcases List.mem_cons.mp hkeys with rfl | hkeys
            · exact Finset.mem_union_right _ (List.mem_toFinset.mpr hk)
            · exact Finset.mem_union_left _ (h.sent keys hkeys k hk)
  | call c =>
      have hc : c ≠ .reset := fun heq => he (heq ▸ rfl)
      refine ⟨h.disjoint, ?_, h.turn⟩
      intro keys hkeys k hk
      exact (mainKept_step hc).sent (h.sent keys hkeys k hk)

theorem keptOnce_run (recordHash : String → String) {s : Session} (h : KeptOnce s)
    {events : List Event} (hevents : Event.call .reset ∉ events) :
    KeptOnce (runFrom (step recordHash) s events) := by
  have hguard : Guarded (step recordHash) (fun _ e => e ≠ .call .reset) s events :=
    guarded_of_forall fun e he heq => hevents (heq ▸ he)
  exact inv_of_guarded KeptOnce (fun _ _ h he => keptOnce_step recordHash h he) h hguard

/-- In a session without a reset no key is kept by two turns. -/
theorem keys_once (recordHash : String → String) (l : Ledger) (events : List Event)
    (hevents : Event.call .reset ∉ events) :
    (runFrom (step recordHash) (Session.start l) events).keysByTurn.Pairwise List.Disjoint := by
  have h := keptOnce_run recordHash (keptOnce_start l) hevents
  generalize runFrom (step recordHash) (Session.start l) events = s at h ⊢
  rw [Session.keysByTurn]
  cases hturn : s.turn with
  | none => exact h.disjoint
  | some b =>
      obtain ⟨sent, hfresh, hended⟩ := h.turn b hturn
      refine List.pairwise_cons.mpr ⟨?_, h.disjoint⟩
      intro keys hkeys k hk hk'
      exact hfresh.keys k hk (hended keys hkeys k hk')

/-- Two turns see the same record; between them a subagent starts and is sent another one. -/
def twoTurns : List Event :=
  [.begin 8000, .addRecords [⟨"r1", "[errors] use anyhow"⟩], .call (.setScopeSent "agent-1"),
    .finish, .call (.markSent "agent-1" ["r2"]), .begin 8000,
    .addRecords [⟨"r1", "[errors] use anyhow"⟩, ⟨"r2", "[style] tabs"⟩]]

/-- `record_hash` of the two texts. -/
def twoHashes (text : String) : String :=
  if text = "[errors] use anyhow" then "fc32370ace056d09" else "89605d8bf4ae0e87"

theorem keys_once_two_turns :
    (runFrom (step twoHashes) (Session.start Ledger.default) twoTurns).keysByTurn.Pairwise
      List.Disjoint :=
  keys_once twoHashes Ledger.default twoTurns (by decide)

example : (runFrom (step twoHashes) (Session.start Ledger.default) twoTurns).keysByTurn =
    [["r2"], ["r1"]] := by decide +kernel

end Llmenv.HookRun.Recall
