/-
# `Llmenv.Transcript.Link` — the session map and its pending markers

`transcript-sessions.json` maps a Claude session to its ICM transcript.  While
a transcript is being started the value is a marker `pending:<seconds>`, and
`classify` says what a value means at a given time: a marker counts for 600
seconds from the time written in it, and not before that time.

The map is a `BTreeMap` of strings; the cap of 1000 entries evicts in key
order.  Every operation here runs under the lock of the map, so it is one
function of the map.
-/
import Llmenv.Lib.Keyed
import Llmenv.Lib.Text

namespace Llmenv.Transcript

open Llmenv.Lib

/-- `i64::saturating_sub`. -/
def saturatingSub (a b : Int) : Int :=
  max (-9223372036854775808) (min 9223372036854775807 (a - b))

/-- The session map. -/
abbrev SessionMap := Keyed (fun entry : String × String => entry.1)

namespace SessionMap

/-- The value of a key. -/
def get (m : SessionMap) (key : String) : Option String := (m.find? key).map Prod.snd

def len (m : SessionMap) : Nat := m.items.length

def insert (m : SessionMap) (key value : String) : SessionMap := Keyed.put m (key, value)

def remove (m : SessionMap) (key : String) : SessionMap := Keyed.erase m key

def retain (m : SessionMap) (p : String → String → Bool) : SessionMap :=
  Keyed.filter m (fun entry => p entry.1 entry.2)

/-- `BTreeMap::pop_first`. -/
def popFirst (m : SessionMap) : SessionMap :=
  match (Text.sortStrings (m.items.map Prod.fst)).head? with
  | some key => m.remove key
  | none => m

@[simp] theorem get_insert (m : SessionMap) (key value : String) :
    (m.insert key value).get key = some value := by
  rw [get, insert, Keyed.find?_put, if_pos rfl]
  rfl

theorem len_insert_le (m : SessionMap) (key value : String) :
    (m.insert key value).len ≤ m.len + 1 :=
  Keyed.length_putList _ _

theorem len_retain_le (m : SessionMap) (p : String → String → Bool) : (m.retain p).len ≤ m.len :=
  List.length_filter_le _ _

end SessionMap

/-- The link of one session in the map. -/
inductive Link where
  | missing
  | pending (since : Int)
  | linked (id : String)
deriving DecidableEq

def pendingPrefix : List Char := ['p', 'e', 'n', 'd', 'i', 'n', 'g', ':']

def pendingTtlSecs : Int := 600

/-- The marker that a claim at `now` writes. -/
def pendingMarker (now : Int) : String := String.ofList (pendingPrefix ++ Text.i64ToString now)

/-- The link that a map value gives at `now`.  A marker that does not parse,
or that is dated in the future, counts as expired. -/
def classify (value : Option String) (now : Int) : Link :=
  match value with
  | none => .missing
  | some value =>
      match Text.stripPrefix pendingPrefix value.toList with
      | none => .linked value
      | some since =>
          match Text.parseI64 since with
          | some since =>
              if 0 ≤ saturatingSub now since ∧ saturatingSub now since < pendingTtlSecs then
                .pending since
              else .missing
          | none => .missing

/-- Whether a map value is a pending marker that has expired. -/
def isExpiredMarker (value : String) (now : Int) : Bool :=
  (Text.stripPrefix pendingPrefix value.toList).isSome && classify (some value) now == .missing

def maxCorrelationEntries : Nat := 1000

/-- The last loop of `insert_capped`, with the size of the map as its bound. -/
def evict : Nat → SessionMap → SessionMap
  | 0, m => m
  | n + 1, m => if m.len > maxCorrelationEntries then evict n m.popFirst else m

/-- `insert_capped`: drop the expired markers of other sessions, make room,
insert. -/
def insertCapped (m : SessionMap) (key value : String) (now : Int) : SessionMap :=
  let kept := m.retain (fun k v => k == key || !isExpiredMarker v now)
  let room := if (kept.get key).isNone ∧ kept.len ≥ maxCorrelationEntries
    then kept.popFirst else kept
  let inserted := room.insert key value
  evict inserted.len inserted

/-- `link_at`. -/
def linkAt (m : SessionMap) (key : String) (now : Int) : Link := classify (m.get key) now

/-- `claim_pending_at`: whether the claim was made, and the map afterwards. -/
def claimPendingAt (m : SessionMap) (key : String) (seen : Link) (now : Int) : Bool × SessionMap :=
  let current := classify (m.get key) now
  match current with
  | .pending _ => (false, m)
  | _ =>
      if current ≠ seen then (false, m)
      else (true, insertCapped m key (pendingMarker now) now)

/-- `clear_pending_at`. -/
def clearPendingAt (m : SessionMap) (key : String) : SessionMap :=
  match m.get key with
  | some value =>
      if (Text.stripPrefix pendingPrefix value.toList).isSome then m.remove key else m
  | none => m

/-- `record_at`, with its own sample of the clock. -/
def recordAt (m : SessionMap) (key icmId : String) (now : Int) : SessionMap :=
  insertCapped m key icmId now

/-! ## Markers -/

/-- Saturation does not move a difference into the range of the TTL. -/
theorem saturatingSub_lt_ttl (a b : Int) :
    (0 ≤ saturatingSub a b ∧ saturatingSub a b < pendingTtlSecs) ↔
      b ≤ a ∧ a < b + pendingTtlSecs := by
  simp only [saturatingSub, pendingTtlSecs]
  omega

/-- What a marker means at `now`. -/
theorem classify_pendingMarker {since : Int} (hlo : 0 ≤ since)
    (hhi : since < 9223372036854775808) (now : Int) :
    classify (some (pendingMarker since)) now =
      if since ≤ now ∧ now < since + pendingTtlSecs then .pending since else .missing := by
  have hstrip : Text.stripPrefix pendingPrefix (pendingMarker since).toList =
      some (Text.i64ToString since) := by
    rw [pendingMarker, String.toList_ofList]
    exact Text.stripPrefix_append _ _
  have hparse := Text.parseI64_i64ToString (n := since) (by omega) hhi
  simp only [classify, hstrip, hparse, saturatingSub_lt_ttl]

/-- A marker that still counts stops a claim, whatever the claimer saw. -/
theorem claimPendingAt_of_pending {m : SessionMap} {key : String} {seen : Link} {since now : Int}
    (hm : m.get key = some (pendingMarker since)) (hlo : 0 ≤ since)
    (hhi : since < 9223372036854775808) (hin : since ≤ now ∧ now < since + pendingTtlSecs) :
    claimPendingAt m key seen now = (false, m) := by
  have hclass : classify (m.get key) now = .pending since := by
    rw [hm, classify_pendingMarker hlo hhi, if_pos hin]
  simp only [claimPendingAt, hclass]

theorem claimPendingAt_map {m : SessionMap} {key : String} {seen : Link} {now : Int}
    (h : (claimPendingAt m key seen now).1 = true) :
    (claimPendingAt m key seen now).2 = insertCapped m key (pendingMarker now) now := by
  simp only [claimPendingAt] at h ⊢
  split at h
  · exact absurd h (by simp)
  · split at h
    · exact absurd h (by simp)
    · rename_i hseen
      rw [if_neg hseen]

/-! ## Inserting below the cap -/

theorem evict_of_le {m : SessionMap} (h : m.len ≤ maxCorrelationEntries) : ∀ n, evict n m = m
  | 0 => rfl
  | n + 1 => by
      have hle : ¬ m.len > maxCorrelationEntries := by omega
      simp only [evict, if_neg hle]

/-- Below the cap nothing is evicted, so the new value is there. -/
theorem get_insertCapped {m : SessionMap} (h : m.len < maxCorrelationEntries)
    (key value : String) (now : Int) : (insertCapped m key value now).get key = some value := by
  have hkept := m.len_retain_le (fun k v => k == key || !isExpiredMarker v now)
  have hroom : ¬ ((m.retain (fun k v => k == key || !isExpiredMarker v now)).get key).isNone ∨
      ¬ (m.retain (fun k v => k == key || !isExpiredMarker v now)).len ≥ maxCorrelationEntries :=
    Or.inr (by omega)
  simp only [insertCapped, if_neg (not_and_or.mpr hroom)]
  have hlen := (m.retain (fun k v => k == key || !isExpiredMarker v now)).len_insert_le key value
  rw [evict_of_le (by omega), SessionMap.get_insert]

end Llmenv.Transcript
