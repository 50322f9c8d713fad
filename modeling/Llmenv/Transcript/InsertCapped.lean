/-
# `Llmenv.Transcript.InsertCapped` — does the map keep what was just inserted?

`insert_capped` of `src/session_log/state.rs`.  The map is kept in the order of
its keys and the eviction takes the first key.  Room for a new key is made before
the insert, because an eviction after it could drop the new key itself.

One eviction makes room only in a map of at most 1000 entries.  A map that was
loaded above the cap still has too many after it, and the loop at the end evicts
with the new key in the map.  What that loop leaves are the 1000 last keys
(`get_evict`), so the new key is lost when 1000 keys come after it
(`insertCapped_keeps_iff`).
-/
import Mathlib.Data.Finset.Card
import Llmenv.Transcript.Link
import Llmenv.Lib.Ranked

namespace Llmenv.Transcript

open Llmenv.Lib

namespace SessionMap

variable {m : SessionMap} {key value : String}

/-- The map without the expired markers of other sessions. -/
def withoutExpired (m : SessionMap) (key : String) (now : Int) : SessionMap :=
  m.retain (fun k v => k == key || !isExpiredMarker v now)

def keys (m : SessionMap) : Finset String := (m.items.map Prod.fst).toFinset

/-- The keys that come after `key`. -/
def after (m : SessionMap) (key : String) : Finset String :=
  m.keys.filter (fun k => compare key k = .lt)

/-! ## One operation -/

theorem get_eq_some {k v : String} : m.get k = some v ↔ (k, v) ∈ m.items := by
  constructor
  · intro h
    obtain ⟨entry, hfind, rfl⟩ := Option.map_eq_some_iff.mp h
    obtain ⟨hmem, rfl⟩ := Keyed.find?_eq_some.mp hfind
    exact hmem
  · intro h
    rw [get, Keyed.find?_eq_some.mpr ⟨h, rfl⟩]
    rfl

theorem get_insert_of_ne {k : String} (hk : k ≠ key) : (m.insert key value).get k = m.get k := by
  rw [get, insert, Keyed.find?_put, if_neg (Ne.symm hk)]
  rfl

theorem get_remove (k j : String) : (m.remove k).get j = if j = k then none else m.get j := by
  rw [get, remove, Keyed.find?_erase]
  split <;> rfl

theorem get_retain {p : String → String → Bool} {k v : String} :
    (m.retain p).get k = some v ↔ m.get k = some v ∧ p k v = true := by
  rw [get_eq_some, get_eq_some]
  exact List.mem_filter

theorem retain_eq_self {p : String → String → Bool} (h : ∀ entry ∈ m.items, p entry.1 entry.2 = true) :
    m.retain p = m := by
  obtain ⟨items, nodup⟩ := m
  simp only [retain, Keyed.filter, Keyed.mk.injEq]
  exact List.filter_eq_self.mpr h

theorem mem_keys {k : String} : k ∈ m.keys ↔ ∃ v, m.get k = some v := by
  rw [keys, List.mem_toFinset, List.mem_map]
  constructor
  · rintro ⟨⟨k, v⟩, hmem, rfl⟩
    exact ⟨v, get_eq_some.mpr hmem⟩
  · rintro ⟨v, hv⟩
    exact ⟨(k, v), get_eq_some.mp hv, rfl⟩

theorem get_of_notMem {k : String} (hk : k ∉ m.keys) : m.get k = none := by
  cases hget : m.get k with
  | none => rfl
  | some v => exact absurd (mem_keys.mpr ⟨v, hget⟩) hk

theorem len_eq_card (m : SessionMap) : m.len = m.keys.card := by
  rw [keys, List.toFinset_card_of_nodup m.nodup, List.length_map]
  rfl

theorem keys_insert (m : SessionMap) (key value : String) :
    (m.insert key value).keys = Insert.insert key m.keys := by
  ext k
  rw [Finset.mem_insert, mem_keys, mem_keys]
  by_cases hk : k = key
  · subst hk
    exact iff_of_true ⟨value, get_insert m k value⟩ (Or.inl rfl)
  · rw [get_insert_of_ne hk, or_iff_right hk]

theorem keys_remove (m : SessionMap) (k : String) : (m.remove k).keys = m.keys.erase k := by
  ext j
  rw [Finset.mem_erase, mem_keys, mem_keys, get_remove]
  by_cases hj : j = k
  · rw [if_pos hj]
    exact iff_of_false (by simp) (fun h => h.1 hj)
  · rw [if_neg hj]
    exact (and_iff_right hj).symm

/-- The key that `pop_first` takes. -/
theorem popFirst_eq (hm : 0 < m.len) :
    ∃ k ∈ m.keys, m.popFirst = m.remove k ∧ ∀ j ∈ m.keys, compare k j ≠ .gt := by
  have hsorted := Ranked.pairwise_insertionSort compare (m.items.map Prod.fst)
  have hmem : ∀ j, j ∈ m.keys ↔ j ∈ Text.sortStrings (m.items.map Prod.fst) := by
    intro j
    rw [keys, List.mem_toFinset]
    exact (List.mem_insertionSort _).symm
  simp only [popFirst]
  cases hsort : Text.sortStrings (m.items.map Prod.fst) with
  | nil =>
      have hlen : (Text.sortStrings (m.items.map Prod.fst)).length = m.len := by
        rw [Text.sortStrings, List.length_insertionSort, List.length_map]
        rfl
      rw [hsort, List.length_nil] at hlen
      omega
  | cons k rest =>
      rw [hsort] at hmem
      refine ⟨k, (hmem k).mpr List.mem_cons_self, rfl, ?_⟩
      intro j hj
      rcases List.mem_cons.mp ((hmem j).mp hj) with rfl | hrest
      · rw [Std.ReflOrd.compare_self]
        decide
      · have hpair : (k :: rest).Pairwise (fun a b => compare a b ≠ .gt) := hsort ▸ hsorted
        exact (List.pairwise_cons.mp hpair).1 j hrest

/-- Nothing comes after a key that a key at hand does not come after. -/
theorem after_remove {k j : String} (hk : compare k j ≠ .gt) :
    (m.remove k).after j = m.after j := by
  rw [after, after, keys_remove, Finset.filter_erase, Finset.erase_eq_of_notMem]
  intro hmem
  have hlt : compare j k = .lt := (Finset.mem_filter.mp hmem).2
  exact hk (Std.OrientedCmp.gt_iff_lt.mpr hlt)

theorem after_insert_self (m : SessionMap) (key value : String) :
    (m.insert key value).after key = m.after key := by
  rw [after, after, keys_insert, Finset.filter_insert, if_neg]
  rw [Std.ReflOrd.compare_self]
  decide

/-- A key is not among those after it. -/
theorem card_after_lt {k : String} (hk : k ∈ m.keys) : (m.after k).card < m.len := by
  rw [len_eq_card]
  refine Finset.card_lt_card (Finset.filter_ssubset.mpr ⟨k, hk, ?_⟩)
  rw [Std.ReflOrd.compare_self]
  decide

/-- After the first key come all others. -/
theorem card_after_of_first {k : String} (hk : k ∈ m.keys)
    (hfirst : ∀ j ∈ m.keys, compare k j ≠ .gt) : (m.after k).card + 1 = m.len := by
  have hafter : m.after k = m.keys.erase k := by
    ext j
    rw [after, Finset.mem_filter, Finset.mem_erase, and_comm]
    refine and_congr_left fun hj => ?_
    constructor
    · rintro hlt rfl
      rw [Std.ReflOrd.compare_self] at hlt
      exact absurd hlt (by decide)
    · intro hne
      cases hcmp : compare k j with
      | lt => rfl
      | eq => exact absurd (Std.LawfulEqOrd.eq_of_compare hcmp).symm hne
      | gt => exact absurd hcmp (hfirst j hj)
  rw [hafter, len_eq_card, Finset.card_erase_add_one hk]

end SessionMap

/-! ## The loop at the end -/

open SessionMap

/-- In a map within the cap every key is among the last ones. -/
theorem get_of_len_le {m : SessionMap} (hm : m.len ≤ maxCorrelationEntries) (k : String) :
    m.get k = if (m.after k).card < maxCorrelationEntries then m.get k else none := by
  by_cases hk : k ∈ m.keys
  · rw [if_pos (Nat.lt_of_lt_of_le (card_after_lt hk) hm)]
  · rw [get_of_notMem hk, ite_self]

theorem len_remove {m : SessionMap} {k : String} (hk : k ∈ m.keys) :
    (m.remove k).len + 1 = m.len := by
  rw [len_eq_card, len_eq_card, keys_remove, Finset.card_erase_add_one hk]

/-- What the loop leaves: the keys that fewer than 1000 keys come after. -/
theorem get_evict : ∀ (n : Nat) {m : SessionMap}, m.len ≤ n + maxCorrelationEntries →
    (evict n m).len ≤ maxCorrelationEntries ∧ ∀ k, (evict n m).get k =
      if (m.after k).card < maxCorrelationEntries then m.get k else none
  | 0, m, hn => by
      rw [Nat.zero_add] at hn
      exact ⟨hn, get_of_len_le hn⟩
  | n + 1, m, hn => by
      by_cases hm : m.len ≤ maxCorrelationEntries
      · rw [evict_of_le hm]
        exact ⟨hm, get_of_len_le hm⟩
      · rw [evict, if_pos (by omega)]
        obtain ⟨first, hfirst, hpop, hle⟩ := popFirst_eq (m := m) (by omega)
        have hlen := len_remove hfirst
        obtain ⟨hcap, hget⟩ := get_evict n (m := m.remove first) (by omega)
        rw [hpop]
        refine ⟨hcap, fun k => ?_⟩
        rw [hget k]
        by_cases hk : k ∈ m.keys
        · rw [after_remove (hle k hk), get_remove]
          by_cases hkf : k = first
          · have hcard := card_after_of_first hfirst hle
            rw [hkf, if_pos rfl, ite_self, if_neg (by omega)]
          · rw [if_neg hkf]
        · rw [get_of_notMem hk, ite_self, get_remove, get_of_notMem hk, ite_self, ite_self]

/-! ## The insert -/

/-- The map that the new key is written into. -/
def roomFor (kept : SessionMap) (key : String) : SessionMap :=
  if (kept.get key).isNone ∧ kept.len ≥ maxCorrelationEntries then kept.popFirst else kept

theorem insertCapped_eq (m : SessionMap) (key value : String) (now : Int) :
    insertCapped m key value now =
      evict ((roomFor (m.withoutExpired key now) key).insert key value).len
        ((roomFor (m.withoutExpired key now) key).insert key value) := rfl

/-- The value of `key` and what else is in the map afterwards. -/
theorem get_insertCapped_eq (m : SessionMap) (key value : String) (now : Int) (k : String) :
    (insertCapped m key value now).get k =
      if (((roomFor (m.withoutExpired key now) key).insert key value).after k).card <
          maxCorrelationEntries then
        ((roomFor (m.withoutExpired key now) key).insert key value).get k
      else none := by
  rw [insertCapped_eq]
  exact (get_evict _ (Nat.le_add_right _ _)).2 k

/-- Making room takes nothing that is needed to tell whether `key` stays. -/
theorem card_after_roomFor (kept : SessionMap) (key : String) :
    ((roomFor kept key).after key).card < maxCorrelationEntries ↔
      kept.len ≤ maxCorrelationEntries ∨ (kept.after key).card < maxCorrelationEntries := by
  have hall : (kept.after key).card ≤ kept.len := by
    rw [len_eq_card]
    exact Finset.card_le_card (Finset.filter_subset _ _)
  by_cases hpop : (kept.get key).isNone ∧ kept.len ≥ maxCorrelationEntries
  · obtain ⟨first, hfirst, heq, hle⟩ := popFirst_eq (m := kept) (by
      have := hpop.2
      simp only [maxCorrelationEntries] at this
      omega)
    have hlen := len_remove hfirst
    have hsub : ((kept.remove first).after key).card ≤ (kept.after key).card := by
      refine Finset.card_le_card (Finset.filter_subset_filter _ ?_)
      rw [keys_remove]
      exact Finset.erase_subset _ _
    have hrest : ((kept.remove first).after key).card ≤ (kept.remove first).len := by
      rw [len_eq_card]
      exact Finset.card_le_card (Finset.filter_subset _ _)
    rw [roomFor, if_pos hpop, heq]
    constructor
    · intro hroom
      by_cases hgt : compare first key = .gt
      · -- The new key comes first, so every key is after it.
        have hevery : (kept.remove first).after key = (kept.remove first).keys := by
          refine Finset.filter_true_of_mem fun j hj => ?_
          rw [keys_remove] at hj
          exact Std.TransCmp.lt_of_lt_of_isLE (Std.OrientedCmp.gt_iff_lt.mp hgt)
            (Ordering.ne_gt_iff_isLE.mp (hle j (Finset.mem_of_mem_erase hj)))
        rw [hevery, ← len_eq_card] at hroom
        exact Or.inl (by omega)
      · exact Or.inr (after_remove hgt ▸ hroom)
    · rintro (hcap | hafter)
      · omega
      · omega
  · rw [roomFor, if_neg hpop]
    refine ⟨Or.inr, ?_⟩
    rintro (hcap | hafter)
    · by_cases hk : key ∈ kept.keys
      · exact Nat.lt_of_lt_of_le (card_after_lt hk) hcap
      · have hnone : (kept.get key).isNone := by rw [get_of_notMem hk]; rfl
        have hroom : ¬ kept.len ≥ maxCorrelationEntries := fun h => hpop ⟨hnone, h⟩
        omega
    · exact hafter

theorem get_roomFor {kept : SessionMap} {key k v : String}
    (h : (roomFor kept key).get k = some v) : kept.get k = some v := by
  rw [roomFor] at h
  split at h
  · rename_i hpop
    obtain ⟨first, -, heq, -⟩ := popFirst_eq (m := kept) (by
      have := hpop.2
      simp only [maxCorrelationEntries] at this
      omega)
    rw [heq, get_remove] at h
    split at h
    · exact absurd h (by simp)
    · exact h
  · exact h

/-- Nothing but the new entry comes into the map. -/
theorem get_of_insertCapped {m : SessionMap} {key value k v : String} {now : Int} (hk : k ≠ key)
    (h : (insertCapped m key value now).get k = some v) : m.get k = some v := by
  rw [get_insertCapped_eq] at h
  split at h
  · rw [get_insert_of_ne hk] at h
    exact (get_retain.mp (get_roomFor h)).1
  · exact absurd h (by simp)

/-- The two maps without expired markers differ by `key` at most. -/
theorem insert_keys_withoutExpired (m : SessionMap) (key value : String) (now : Int) :
    ((m.retain (fun _ v => !isExpiredMarker v now)).insert key value).keys =
      ((m.withoutExpired key now).insert key value).keys := by
  ext k
  rw [keys_insert, keys_insert, Finset.mem_insert, Finset.mem_insert, mem_keys, mem_keys]
  by_cases hk : k = key
  · exact iff_of_true (Or.inl hk) (Or.inl hk)
  · simp only [withoutExpired, get_retain, or_iff_right hk, beq_eq_false_iff_ne.mpr hk,
      Bool.false_or]

/-- Within the cap nothing is evicted. -/
theorem insertCapped_of_fresh {m : SessionMap} {key value : String} {now : Int}
    (hroom : ((m.retain (fun _ v => !isExpiredMarker v now)).insert key value).len ≤
      maxCorrelationEntries) {k v : String} (hk : k ≠ key) (hget : m.get k = some v)
    (hfresh : isExpiredMarker v now = false) :
    (insertCapped m key value now).get k = some v := by
  rw [len_eq_card, insert_keys_withoutExpired] at hroom
  have hkept : (m.withoutExpired key now).get k = some v :=
    get_retain.mpr ⟨hget, by rw [hfresh, Bool.not_false, Bool.or_true]⟩
  have hnopop : roomFor (m.withoutExpired key now) key = m.withoutExpired key now := by
    rw [roomFor, if_neg]
    rintro ⟨hnone, hfull⟩
    have hnew : key ∉ (m.withoutExpired key now).keys := by
      rintro hmem
      obtain ⟨w, hw⟩ := mem_keys.mp hmem
      rw [hw] at hnone
      exact absurd hnone (by simp)
    rw [keys_insert, Finset.card_insert_of_notMem hnew, ← len_eq_card] at hroom
    omega
  rw [insertCapped_eq, hnopop, evict_of_le (by rw [len_eq_card]; exact hroom),
    get_insert_of_ne hk, hkept]

/-- What `insert_capped` is for: the map is within the cap and has the new
value, what else is in it was in it before, and below the cap only expired
markers are gone. -/
structure KeepsInserted (m : SessionMap) (key value : String) (now : Int) : Prop where
  capped : (insertCapped m key value now).len ≤ maxCorrelationEntries
  mapped : (insertCapped m key value now).get key = some value
  others : ∀ k v, k ≠ key → (insertCapped m key value now).get k = some v → m.get k = some v
  kept : ((m.retain (fun _ v => !isExpiredMarker v now)).insert key value).len ≤
      maxCorrelationEntries →
    ∀ k v, k ≠ key → m.get k = some v → isExpiredMarker v now = false →
      (insertCapped m key value now).get k = some v

/-- **The new key stays exactly when the map without expired markers is within
the cap, or fewer than 1000 of its keys come after the new one.** -/
theorem insertCapped_keeps_iff (m : SessionMap) (key value : String) (now : Int) :
    KeepsInserted m key value now ↔
      (m.withoutExpired key now).len ≤ maxCorrelationEntries ∨
        ((m.withoutExpired key now).after key).card < maxCorrelationEntries := by
  rw [← card_after_roomFor]
  constructor
  · intro h
    by_contra hlost
    have hmapped := h.mapped
    rw [get_insertCapped_eq, after_insert_self, if_neg hlost] at hmapped
    exact absurd hmapped (by simp)
  · intro h
    refine ⟨?_, ?_, ?_, ?_⟩
    · rw [insertCapped_eq]
      exact (get_evict _ (Nat.le_add_right _ _)).1
    · rw [get_insertCapped_eq, after_insert_self, if_pos h, get_insert]
    · intro k v hk hget
      exact get_of_insertCapped hk hget
    · intro hroom k v hk hget hfresh
      exact insertCapped_of_fresh hroom hk hget hfresh

/-! ## A map above the cap -/

/-- Every session of `names` is linked to one transcript. -/
def linked (names : List String) (h : names.Nodup) : SessionMap :=
  ⟨names.map (fun name => (name, "icm")), by
    rw [List.map_map]
    simpa [Function.comp_def] using h⟩

theorem keys_linked {names : List String} (h : names.Nodup) :
    (linked names h).keys = names.toFinset := by
  rw [keys, linked, List.map_map]
  exact congrArg List.toFinset (List.map_id names)

theorem withoutExpired_linked {names : List String} (h : names.Nodup) (key : String) :
    (linked names h).withoutExpired key 0 = linked names h := by
  refine retain_eq_self fun entry hentry => ?_
  obtain ⟨name, -, rfl⟩ := List.mem_map.mp hentry
  have hlinked : isExpiredMarker "icm" 0 = false := by decide
  show (name == key || !isExpiredMarker "icm" 0) = true
  rw [hlinked, Bool.not_false, Bool.or_true]

/-- A session that sorts before 1000 linked sessions is not in the map after its
insert. -/
theorem linked_loses {names : List String} (h : names.Nodup) (key value : String)
    (hlen : maxCorrelationEntries < names.length)
    (hfirst : ∀ name ∈ names, compare key name = .lt) :
    (insertCapped (linked names h) key value 0).get key = none := by
  have hafter : (linked names h).after key = (linked names h).keys := by
    refine Finset.filter_true_of_mem fun name hname => hfirst name ?_
    rwa [keys_linked, List.mem_toFinset] at hname
  have hcard : (linked names h).len = names.length := by
    rw [len_eq_card, keys_linked, List.toFinset_card_of_nodup h]
  rw [get_insertCapped_eq, after_insert_self, if_neg]
  rw [card_after_roomFor, withoutExpired_linked, hafter, ← len_eq_card, hcard]
  omega

/-- The names of 1001 sessions. -/
def longNames : List String :=
  (List.range 1001).map (fun i => String.ofList (List.replicate (i + 1) 'a'))

theorem nodup_longNames : longNames.Nodup := by
  refine List.Nodup.map ?_ List.nodup_range
  intro i j hij
  have hlen := congrArg List.length (String.ofList_injective hij)
  simpa using hlen

theorem compare_longName {name : String} (h : name ∈ longNames) : compare "0" name = .lt := by
  obtain ⟨i, -, rfl⟩ := List.mem_map.mp h
  have hlt : "0" < String.ofList (List.replicate (i + 1) 'a') := by
    rw [String.lt_iff, (String.toList_ofList :
      (String.ofList (List.replicate (i + 1) 'a')).toList = List.replicate (i + 1) 'a')]
    exact List.Lex.rel (show '0' < 'a' by decide)
  exact compareOfLessAndEq_eq_lt.mpr hlt

/-- A file with 1001 linked sessions, and a session that sorts before them. -/
theorem overfull_loses : ¬ KeepsInserted (linked longNames nodup_longNames) "0" "icm" 0 := by
  intro h
  have hlen : longNames.length = 1001 := by
    rw [longNames, List.length_map, List.length_range]
  have hlost := linked_loses nodup_longNames "0" "icm"
    (by rw [hlen]; decide) fun name => compare_longName
  exact absurd (h.mapped.symm.trans hlost) (by simp)

end Llmenv.Transcript
