/-
# `Llmenv.HookRun.RecallAccount` — the account of a recall budget

Over any calls of `add_records` the counters of a `RecallBudget` fit together:
the bytes are those of the records kept, with the separator behind each, they
stay within the limit, and each record seen is counted in one place.

`Added` says what one record can do to a budget; the account is an invariant of
it, and of the calls by induction.
-/
import Mathlib.Algebra.GroupWithZero.Nat
import Llmenv.Lib.Runs
import Llmenv.HookRun.Recall

namespace Llmenv.HookRun.Recall

open Llmenv.Lib

/-- The passthrough text, then the kept records. -/
def RecallBudget.render (b : RecallBudget) (passthrough : List String) : String :=
  "\n\n".intercalate (passthrough ++ b.kept.map Recalled.text)

/-! ## One record -/

/-- The record is counted as seen. -/
def RecallBudget.saw (b : RecallBudget) (record : Recalled) : RecallBudget :=
  { b with
    records := b.records + 1
    recordBytes := b.recordBytes + record.text.utf8ByteSize }

/-- The bytes a kept record takes. -/
def size (record : Recalled) : Nat := record.text.utf8ByteSize + separatorBytes

section Account

variable (recordHash : String → String)

/-- The context holds the record already, by its id or by the hash of its text. -/
def Sent (b : RecallBudget) (record : Recalled) : Prop :=
  record.id ∈ b.sent ∨ recordHash record.text ∈ b.sent

/-- What a record does to a budget. -/
inductive Added (b : RecallBudget) (record : Recalled) : RecallBudget → Prop where
  | alreadySent (migrated : List String) (h : Sent recordHash b record) :
      Added b record
        { b.saw record with migrated := migrated, alreadySent := b.alreadySent + 1 }
  | duplicate (hnew : ¬ Sent recordHash b record) (h : record.id ∈ b.seen) :
      Added b record { b.saw record with duplicates := b.duplicates + 1 }
  | kept (hnew : ¬ Sent recordHash b record) (h : record.id ∉ b.seen)
      (hfits : b.keptBytes + size record ≤ b.limit) :
      Added b record
        { b.saw record with
          keptBytes := b.keptBytes + size record
          seen := insert record.id b.seen
          kept := b.kept ++ [record] }
  | omitted (hnew : ¬ Sent recordHash b record) (h : record.id ∉ b.seen)
      (hfull : ¬ b.keptBytes + size record ≤ b.limit) :
      Added b record { b.saw record with omitted := b.omitted + 1 }

theorem added_addRecord (b : RecallBudget) (record : Recalled) :
    Added recordHash b record (b.addRecord recordHash record) := by
  simp only [RecallBudget.addRecord, RecallBudget.isAlreadySent]
  by_cases hid : record.id ∈ b.sent
  · simp only [hid, if_true]
    exact .alreadySent b.migrated (.inl hid)
  · simp only [hid, if_false]
    by_cases hhash : recordHash record.text ∈ b.sent
    · simp only [hhash, if_true]
      exact .alreadySent (b.migrated ++ [record.id]) (.inr hhash)
    · have hnew : ¬ Sent recordHash b record := not_or.mpr ⟨hid, hhash⟩
      simp only [hhash, if_false, Bool.false_eq_true]
      by_cases hseen : record.id ∈ b.seen
      · simp only [hseen, if_true]
        exact .duplicate hnew hseen
      · simp only [hseen, if_false]
        by_cases hfits : b.keptBytes + record.text.utf8ByteSize + separatorBytes ≤ b.limit
        · simp only [hfits, if_true]
          exact .kept hnew hseen (by rw [size, ← Nat.add_assoc]; exact hfits)
        · simp only [hfits, if_false]
          exact .omitted hnew hseen (by rw [size, ← Nat.add_assoc]; exact hfits)

/-! ## Where a record is counted -/

inductive Fate where
  | kept
  | duplicate
  | omitted
  | alreadySent
deriving DecidableEq

/-- How many records a budget has counted there. -/
def counted (b : RecallBudget) : Fate → Nat
  | .kept => b.kept.length
  | .duplicate => b.duplicates
  | .omitted => b.omitted
  | .alreadySent => b.alreadySent

/-- One record more is counted there, and none elsewhere. -/
def CountedAt (f : Fate) (b b' : RecallBudget) : Prop :=
  ∀ g, counted b' g = counted b g + if g = f then 1 else 0

theorem CountedAt.unique {f f' : Fate} {b b' : RecallBudget} (h : CountedAt f b b')
    (h' : CountedAt f' b b') : f = f' := by
  by_contra hne
  have hf := (h f).symm.trans (h' f)
  rw [if_pos rfl, if_neg hne] at hf
  omega

theorem CountedAt.sum {f : Fate} {b b' : RecallBudget} (h : CountedAt f b b') :
    counted b' .kept + counted b' .duplicate + counted b' .omitted + counted b' .alreadySent =
      counted b .kept + counted b .duplicate + counted b .omitted + counted b .alreadySent + 1 := by
  rw [h .kept, h .duplicate, h .omitted, h .alreadySent]
  cases f with
  | kept | duplicate | omitted | alreadySent => simp only [reduceCtorEq, if_true, if_false]; omega

variable {recordHash}

theorem Added.countedAt {b b' : RecallBudget} {record : Recalled}
    (h : Added recordHash b record b') : ∃! f, CountedAt f b b' := by
  have hex : ∃ f, CountedAt f b b' := by
    cases h with
    | alreadySent => exact ⟨.alreadySent, by intro g; cases g <;> rfl⟩
    | duplicate => exact ⟨.duplicate, by intro g; cases g <;> rfl⟩
    | kept => exact ⟨.kept, by intro g; cases g <;> simp [counted, RecallBudget.saw]⟩
    | omitted => exact ⟨.omitted, by intro g; cases g <;> rfl⟩
  obtain ⟨f, hf⟩ := hex
  exact ⟨f, hf, fun f' hf' => hf'.unique hf⟩

/-! ## The account -/

variable (recordHash) in
/-- The counters of a budget that has seen the records fit together. -/
structure Balanced (limit : Nat) (sent : Finset String) (records : List Recalled)
    (b : RecallBudget) : Prop where
  limit_eq : b.limit = limit
  sent_eq : b.sent = sent
  sublist : b.kept.Sublist records
  bytes : b.keptBytes = (b.kept.map size).sum
  fits : b.keptBytes ≤ limit
  records_eq : b.records = records.length
  recordBytes : b.recordBytes = (records.map fun r => r.text.utf8ByteSize).sum
  counts : counted b .kept + counted b .duplicate + counted b .omitted + counted b .alreadySent =
    b.records
  seen : ∀ k, k ∈ b.seen ↔ k ∈ b.kept.map Recalled.id
  distinct : (b.kept.map Recalled.id).Nodup
  unsent : ∀ r ∈ b.kept, r.id ∉ sent ∧ recordHash r.text ∉ sent

theorem balanced_new (limit : Nat) (sent : Finset String) :
    Balanced recordHash limit sent [] (RecallBudget.new limit sent) where
  limit_eq := rfl
  sent_eq := rfl
  sublist := List.Sublist.refl []
  bytes := rfl
  fits := Nat.zero_le _
  records_eq := rfl
  recordBytes := rfl
  counts := rfl
  seen := fun k => by simp [RecallBudget.new]
  distinct := List.nodup_nil
  unsent := fun _ h => absurd h List.not_mem_nil

/-- The counters that every record moves. -/
theorem Balanced.saw {limit : Nat} {sent : Finset String} {records : List Recalled}
    {b : RecallBudget} (h : Balanced recordHash limit sent records b) (record : Recalled) :
    (b.saw record).records = (records ++ [record]).length ∧
      (b.saw record).recordBytes =
        ((records ++ [record]).map fun r => r.text.utf8ByteSize).sum := by
  constructor
  · simp [RecallBudget.saw, h.records_eq]
  · simp [RecallBudget.saw, h.recordBytes]

theorem Balanced.added {limit : Nat} {sent : Finset String} {records : List Recalled}
    {b b' : RecallBudget} {record : Recalled} (h : Balanced recordHash limit sent records b)
    (ha : Added recordHash b record b') :
    Balanced recordHash limit sent (records ++ [record]) b' := by
  obtain ⟨hrecords, hbytes⟩ := h.saw record
  have hsub : b.kept.Sublist (records ++ [record]) := h.sublist.trans (List.sublist_append_left _ _)
  have hcounts : counted b' .kept + counted b' .duplicate + counted b' .omitted +
      counted b' .alreadySent = b.records + 1 := by
    obtain ⟨f, hf, -⟩ := ha.countedAt
    rw [hf.sum, h.counts]
  cases ha with
  | alreadySent migrated _ =>
      exact ⟨h.limit_eq, h.sent_eq, hsub, h.bytes, h.fits, hrecords, hbytes, hcounts, h.seen,
        h.distinct, h.unsent⟩
  | duplicate _ _ =>
      exact ⟨h.limit_eq, h.sent_eq, hsub, h.bytes, h.fits, hrecords, hbytes, hcounts, h.seen,
        h.distinct, h.unsent⟩
  | omitted _ _ _ =>
      exact ⟨h.limit_eq, h.sent_eq, hsub, h.bytes, h.fits, hrecords, hbytes, hcounts, h.seen,
        h.distinct, h.unsent⟩
  | kept hnew hseen hfits =>
      have hfresh : record.id ∉ b.kept.map Recalled.id := fun hmem => hseen ((h.seen _).mpr hmem)
      refine ⟨h.limit_eq, h.sent_eq, h.sublist.append (List.Sublist.refl _), ?_, ?_, hrecords,
        hbytes, hcounts, ?_, ?_, ?_⟩
      · show b.keptBytes + size record = ((b.kept ++ [record]).map size).sum
        simp [h.bytes]
      · rw [← h.limit_eq]
        exact hfits
      · intro k
        show k ∈ insert record.id b.seen ↔ k ∈ (b.kept ++ [record]).map Recalled.id
        rw [Finset.mem_insert, h.seen k, List.map_append, List.mem_append, List.map_singleton,
          List.mem_singleton, or_comm]
      · show ((b.kept ++ [record]).map Recalled.id).Nodup
        rw [List.map_append]
        exact List.nodup_append'.mpr ⟨h.distinct, List.nodup_singleton _,
          List.disjoint_singleton.mpr hfresh⟩
      · intro r hr
        rcases List.mem_append.mp hr with hr | hr
        · exact h.unsent r hr
        · obtain rfl := List.mem_singleton.mp hr
          rw [← h.sent_eq]
          exact not_or.mp hnew

theorem Balanced.addRecords {limit : Nat} {sent : Finset String} {seen : List Recalled}
    {b : RecallBudget} (h : Balanced recordHash limit sent seen b) (records : List Recalled) :
    Balanced recordHash limit sent (seen ++ records) (b.addRecords recordHash records) := by
  induction records generalizing b seen with
  | nil => rwa [List.append_nil]
  | cons record records ih =>
      rw [List.append_cons]
      exact ih (h.added (added_addRecord recordHash b record))

/-! ## The joined text -/

theorem utf8ByteSize_intercalate_le (texts : List String) :
    ("\n\n".intercalate texts).utf8ByteSize ≤
      (texts.map fun t => t.utf8ByteSize + separatorBytes).sum := by
  induction texts with
  | nil => simp
  | cons text texts ih =>
      cases texts with
      | nil => simp
      | cons next texts =>
          rw [String.intercalate_cons_cons, String.utf8ByteSize_append, String.utf8ByteSize_append,
            List.map_cons, List.sum_cons]
          have hsep : "\n\n".utf8ByteSize = separatorBytes := by decide
          omega

theorem Balanced.render_le {limit : Nat} {sent : Finset String} {records : List Recalled}
    {b : RecallBudget} (h : Balanced recordHash limit sent records b) :
    (b.render []).utf8ByteSize ≤ limit := by
  refine Nat.le_trans (utf8ByteSize_intercalate_le _) (Nat.le_trans (Nat.le_of_eq ?_) h.fits)
  rw [h.bytes, List.nil_append, List.map_map]
  rfl

end Account

/-- After any calls of `add_records` the account of a budget is in balance, no key that the turn
gives to the ledger was sent before, the joined text of the kept records is within the limit, and
any further record is counted in exactly one place. -/
theorem recallBudget_balanced (recordHash : String → String) (limit : Nat) (sent : Finset String)
    (calls : List (List Recalled)) :
    let b := runFrom (RecallBudget.addRecords recordHash) (RecallBudget.new limit sent) calls
    Balanced recordHash limit sent calls.flatten b ∧
      (∀ k ∈ b.keptKeys, k ∉ sent) ∧
      (b.render []).utf8ByteSize ≤ limit ∧
      ∀ record, ∃! f, CountedAt f b (b.addRecord recordHash record) := by
  intro b
  have hrun : b = (RecallBudget.new limit sent).addRecords recordHash calls.flatten := by
    show runFrom _ _ calls = calls.flatten.foldl _ _
    rw [List.foldl_flatten]
    rfl
  have hbalanced : Balanced recordHash limit sent calls.flatten b :=
    hrun ▸ (balanced_new limit sent).addRecords calls.flatten
  have hfresh : Fresh sent b :=
    hrun ▸ fresh_addRecords recordHash (fresh_new limit sent) calls.flatten
  exact ⟨hbalanced, hfresh.keys, hbalanced.render_le,
    fun record => (added_addRecord recordHash b record).countedAt⟩

end Llmenv.HookRun.Recall
