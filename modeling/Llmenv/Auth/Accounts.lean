/-
# `Llmenv.Auth.Accounts` — a new folder gets the account that was seen last

`src/auth/mod.rs` keeps a file for each account that a login or an export saw,
with the time of the look as a text, and `choose_auth_for_inheritance` gives a
new folder the account whose text is the greatest.  Looks come in any order, a
file can be lost or become unreadable, and the folder is listed in any order.
By the order of the texts the account is the one that was seen last, among
those whose files can still be read (`chosen_of_run`).

A call is one step here, and the accounts are not put back into the folders.
-/
import Mathlib.Data.List.Sort
import Mathlib.Logic.Function.Basic
import Llmenv.Adapter.HookCommand
import Llmenv.Auth.Timestamp
import Llmenv.Lib.Hex
import Llmenv.Lib.Json
import Llmenv.Lib.Runs

namespace Llmenv.Auth.Accounts

open Llmenv.Lib
open Llmenv.Lib.Text (isAsciiHexdigit)
open Llmenv.Auth.Timestamp
open Llmenv.Adapter.HookCommand (isUnsafeJoinTarget)

/-! ## The code -/

structure AuthEntry where
  uuid : String
  email : String
  lastSeen : List Char
  raw : Json

def isSafeUuid (uuid : String) : Bool :=
  uuid.toList ≠ [] && !isUnsafeJoinTarget uuid.toList &&
    uuid.toList.all fun c => isAsciiHexdigit c || c = '-'

def email (account : Json) : String :=
  (((account.get? "emailAddress").or (account.get? "email")).bind Json.asStr?).getD ""

/-- `extract_auth_entry`, at a time. -/
def extractAuthEntry (doc : Json) (secs : Nat) : Option AuthEntry := do
  let account ← doc.get? "oauthAccount"
  let uuid ← (← account.get? "id").asStr?
  if uuid = "" then none else some ⟨uuid, email account, rfc3339 secs, account⟩

/-- What a file of the cache reads as. -/
inductive Stored where
  | entry (e : AuthEntry)
  | unreadable

def Stored.entry? : Stored → Option AuthEntry
  | .entry e => some e
  | .unreadable => none

/-- The files by the uuid in their names, and the entries that were saved with their times, the
newest first. -/
structure World where
  files : String → Option Stored
  log : List (Nat × AuthEntry)

/-- `save_auth_entry`; `written` says whether the write went through. -/
def saveAuthEntry (w : World) (secs : Nat) (e : AuthEntry) (written : Bool) : World :=
  if isSafeUuid e.uuid && written then
    { files := Function.update w.files e.uuid (some (.entry e)), log := (secs, e) :: w.log }
  else w

/-- `load_all_auth_entries`, in the order in which the folder lists its files. -/
def loadAllAuthEntries (w : World) (listing : List String) : List AuthEntry :=
  (listing.filterMap fun name => (w.files name).bind Stored.entry?).insertionSort
    fun a b => ¬ a.lastSeen < b.lastSeen

def chooseAuthForInheritance (w : World) (listing : List String) : Option AuthEntry :=
  (loadAllAuthEntries w listing).head?

/-- Someone looks at a document at a time, or a file is lost or becomes unreadable. -/
inductive Act where
  | see (doc : Json) (secs : Nat) (written : Bool)
  | lose (name : String)
  | garble (name : String)

def step (w : World) : Act → World
  | .see doc secs written =>
      match extractAuthEntry doc secs with
      | some e => saveAuthEntry w secs e written
      | none => w
  | .lose name => { w with files := Function.update w.files name none }
  | .garble name => { w with files := Function.update w.files name (some .unreadable) }

def start : World := ⟨fun _ => none, []⟩

/-! ## The order of the list -/

theorem mem_loadAllAuthEntries {w : World} {listing : List String} {e : AuthEntry} :
    e ∈ loadAllAuthEntries w listing ↔ ∃ name ∈ listing, w.files name = some (.entry e) := by
  simp only [loadAllAuthEntries, List.mem_insertionSort, List.mem_filterMap]
  constructor
  · rintro ⟨name, hmem, hread⟩
    obtain ⟨stored, hfile, hentry⟩ := Option.bind_eq_some_iff.mp hread
    cases stored with
    | entry e' => exact ⟨name, hmem, Option.some.inj hentry ▸ hfile⟩
    | unreadable => exact absurd hentry (by simp [Stored.entry?])
  · rintro ⟨name, hmem, hfile⟩
    exact ⟨name, hmem, by rw [hfile]; rfl⟩

theorem pairwise_loadAllAuthEntries (w : World) (listing : List String) :
    (loadAllAuthEntries w listing).Pairwise fun a b => ¬ a.lastSeen < b.lastSeen := by
  have htotal : Std.Total fun a b : AuthEntry => ¬ a.lastSeen < b.lastSeen := by
    refine ⟨fun a b => ?_⟩
    rcases em (a.lastSeen < b.lastSeen) with hlt | hnot
    · exact .inr (List.lt_asymm hlt)
    · exact .inl hnot
  have htrans : IsTrans AuthEntry fun a b => ¬ a.lastSeen < b.lastSeen :=
    ⟨fun a b c hab hbc => List.le_trans hbc hab⟩
  exact List.pairwise_insertionSort _ _

/-- No entry is newer than the first one. -/
theorem not_newer_of_chosen {w : World} {listing : List String} {e e' : AuthEntry}
    (h : chooseAuthForInheritance w listing = some e) (hmem : e' ∈ loadAllAuthEntries w listing) :
    ¬ e.lastSeen < e'.lastSeen := by
  have hsorted := pairwise_loadAllAuthEntries w listing
  obtain ⟨rest, heq⟩ := List.head?_eq_some_iff.mp h
  rw [heq] at hsorted hmem
  rcases List.mem_cons.mp hmem with rfl | hrest
  · exact List.lt_irrefl _
  · exact List.rel_of_pairwise_cons hsorted hrest

/-! ## Every run -/

/-- The times are before the year 10000. -/
def Act.fits : Act → Prop
  | .see _ secs _ => secs < 253402300800
  | _ => True

/-- The cache in the middle of a run: what a file has was saved under its name, and an entry that
was saved has the text of its time. -/
structure Inv (w : World) : Prop where
  saved : ∀ name e, w.files name = some (.entry e) → name = e.uuid ∧ ∃ t, (t, e) ∈ w.log
  stamped : ∀ t e, (t, e) ∈ w.log → t < 253402300800 ∧ e.lastSeen = rfc3339 t

theorem lastSeen_of_extract {doc : Json} {secs : Nat} {e : AuthEntry}
    (h : extractAuthEntry doc secs = some e) : e.lastSeen = rfc3339 secs := by
  simp only [extractAuthEntry, Option.bind_eq_bind, Option.bind_eq_some_iff] at h
  obtain ⟨account, -, id, -, uuid, -, h⟩ := h
  split at h
  · cases h
  · exact Option.some.inj h ▸ rfl

theorem Inv.saveAuthEntry {w : World} (h : Inv w) {secs : Nat} {e : AuthEntry} (written : Bool)
    (hsecs : secs < 253402300800) (hstamp : e.lastSeen = rfc3339 secs) :
    Inv (saveAuthEntry w secs e written) := by
  unfold Accounts.saveAuthEntry
  split
  · refine ⟨fun name e' hfile => ?_, fun t e' hmem => ?_⟩
    · rcases eq_or_ne name e.uuid with rfl | hne
      · simp only [Function.update_self, Option.some.injEq, Stored.entry.injEq] at hfile
        exact hfile ▸ ⟨rfl, secs, List.mem_cons_self⟩
      · simp only [Function.update_of_ne hne] at hfile
        obtain ⟨hname, t, hmem⟩ := h.saved name e' hfile
        exact ⟨hname, t, List.mem_cons_of_mem _ hmem⟩
    · rcases List.mem_cons.mp hmem with heq | hold
      · cases heq
        exact ⟨hsecs, hstamp⟩
      · exact h.stamped t e' hold
  · exact h

theorem Inv.unsave {w : World} (h : Inv w) (name : String) {stored : Option Stored}
    (hnone : ∀ e, stored ≠ some (.entry e)) :
    Inv { w with files := Function.update w.files name stored } := by
  refine ⟨fun other e hfile => ?_, h.stamped⟩
  rcases eq_or_ne other name with rfl | hne
  · exact absurd (by simpa using hfile) (hnone e)
  · exact h.saved other e (by simpa [Function.update_of_ne hne] using hfile)

theorem inv_step {w : World} {act : Act} (h : Inv w) (hact : act.fits) : Inv (step w act) := by
  cases act with
  | see doc secs written =>
      simp only [step]
      split
      · next e he => exact h.saveAuthEntry written hact (lastSeen_of_extract he)
      · exact h
  | lose name => exact h.unsave name (by simp)
  | garble name => exact h.unsave name (by simp)

/-- A new folder gets an account unless no file can be read, and it is the one that was seen last
among those that can be read. -/
theorem chosen_of_run {acts : List Act} {listing : List String} (hclock : ∀ act ∈ acts, act.fits)
    (hlisting : ∀ name, (runFrom step start acts).files name ≠ none → name ∈ listing) :
    let w := runFrom step start acts
    (chooseAuthForInheritance w listing = none → ∀ name e, w.files name ≠ some (.entry e)) ∧
    ∀ e, chooseAuthForInheritance w listing = some e →
      w.files e.uuid = some (.entry e) ∧ ∃ t, (t, e) ∈ w.log ∧
        ∀ t' e', (t', e') ∈ w.log → w.files e'.uuid = some (.entry e') → t' ≤ t := by
  have hinv : Inv (runFrom step start acts) :=
    inv_of_guarded Inv (fun _ _ => inv_step) ⟨by simp [start], by simp [start]⟩
      (guarded_of_forall hclock)
  refine ⟨fun hnone name e hfile => ?_, fun e hsome => ?_⟩
  · have hmem := mem_loadAllAuthEntries.mpr ⟨name, hlisting name (by simp [hfile]), hfile⟩
    rw [List.head?_eq_none_iff.mp hnone] at hmem
    exact absurd hmem List.not_mem_nil
  · obtain ⟨name, -, hfile⟩ := mem_loadAllAuthEntries.mp (List.mem_of_head? hsome)
    obtain ⟨rfl, t, hlog⟩ := hinv.saved name e hfile
    obtain ⟨ht, hstamp⟩ := hinv.stamped t e hlog
    refine ⟨hfile, t, hlog, fun t' e' hlog' hfile' => ?_⟩
    obtain ⟨ht', hstamp'⟩ := hinv.stamped t' e' hlog'
    have hmem := mem_loadAllAuthEntries.mpr ⟨_, hlisting _ (by simp [hfile']), hfile'⟩
    have hnot := not_newer_of_chosen hsome hmem
    rw [hstamp, hstamp', rfc3339_lt_iff ht ht'] at hnot
    exact Nat.le_of_not_lt hnot

def sampleAccount (id : String) : Json :=
  .obj [("id", .str id), ("email", .str "me@example.org")]

def sampleEntry (id : String) (secs : Nat) : AuthEntry :=
  ⟨id, "me@example.org", rfc3339 secs, sampleAccount id⟩

/-- Two accounts are seen, the file of the second one becomes unreadable, and the first one is seen
again. -/
def sampleActs : List Act :=
  [.see (.obj [("oauthAccount", sampleAccount "a1")]) 1709251199 true,
    .see (.obj [("oauthAccount", sampleAccount "b2")]) 1709251200 true, .garble "b2",
    .see (.obj [("oauthAccount", sampleAccount "a1")]) 1709251201 true]

theorem chosen_of_run_two_accounts :
    chooseAuthForInheritance (runFrom step start sampleActs) ["b2", "a1"] =
        some (sampleEntry "a1" 1709251201) ∧
      ∃ t, (t, sampleEntry "a1" 1709251201) ∈ (runFrom step start sampleActs).log ∧
        ∀ t' e', (t', e') ∈ (runFrom step start sampleActs).log →
          (runFrom step start sampleActs).files e'.uuid = some (.entry e') → t' ≤ t := by
  have hchoose : chooseAuthForInheritance (runFrom step start sampleActs) ["b2", "a1"] =
      some (sampleEntry "a1" 1709251201) := rfl
  have hlisting : ∀ name, (runFrom step start sampleActs).files name ≠ none →
      name ∈ ["b2", "a1"] := by
    intro name hfile
    by_contra hnot
    simp only [List.mem_cons, List.not_mem_nil, or_false, not_or] at hnot
    exact hfile ((Function.update_of_ne hnot.2 _ _).trans ((Function.update_of_ne hnot.1 _ _).trans
      ((Function.update_of_ne hnot.1 _ _).trans (Function.update_of_ne hnot.2 _ _))))
  have hclock : ∀ act ∈ sampleActs, act.fits := by simp [sampleActs, Act.fits]
  exact ⟨hchoose, ((chosen_of_run hclock hlisting).2 _ hchoose).2⟩

end Llmenv.Auth.Accounts
