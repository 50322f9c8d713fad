/-
# `Llmenv.Lib.Recent` — the newest different entries

A list of at most `cap` entries that ignores what it has and drops the oldest
one when it is full.  It is the newest `cap` entries of all that were ever new
(`remembered_eq`), and these are different.  So an entry is remembered when it
was new at some point and fewer than `cap` different entries were new since then
(`mem_remembered`).
-/
import Mathlib.Data.Finset.Card

namespace Llmenv.Lib.Recent

variable {α : Type} [DecidableEq α] (cap : Nat)

/-! ## The newest entries of a list -/

/-- The newest entries of a list. -/
def lastN (n : Nat) (l : List α) : List α := l.drop (l.length - n)

omit [DecidableEq α] in
theorem lastN_of_le {n : Nat} {l : List α} (h : l.length ≤ n) : lastN n l = l := by
  rw [lastN, Nat.sub_eq_zero_of_le h, List.drop_zero]

omit [DecidableEq α] in
theorem length_lastN (n : Nat) (l : List α) : (lastN n l).length = min n l.length := by
  rw [lastN, List.length_drop]
  omega

omit [DecidableEq α] in
/-- Only the part after the last `n` entries counts. -/
theorem lastN_append_of_le {n : Nat} {l l' : List α} (h : n ≤ l'.length) :
    lastN n (l ++ l') = lastN n l' := by
  have hlen : (l ++ l').length - n = l.length + (l'.length - n) := by
    rw [List.length_append]
    omega
  rw [lastN, hlen, List.drop_append, List.drop_eq_nil_of_le (Nat.le_add_right _ _), List.nil_append,
    Nat.add_sub_cancel_left, lastN]

omit [DecidableEq α] in
theorem lastN_append_of_length {n : Nat} {l l' : List α} (h : l'.length ≤ n) :
    lastN n (l ++ l') = lastN (n - l'.length) l ++ l' := by
  have hlen : (l ++ l').length - n = l.length - (n - l'.length) := by
    rw [List.length_append]
    omega
  rw [lastN, hlen, List.drop_append_of_le_length (Nat.sub_le _ _), lastN]

omit [DecidableEq α] in
theorem lastN_lastN {n m : Nat} (h : m ≤ n) (l : List α) : lastN m (lastN n l) = lastN m l := by
  have hlen := length_lastN n l
  rw [lastN, hlen, lastN, List.drop_drop, lastN]
  congr 1
  omega

omit [DecidableEq α] in
/-- What was dropped before does not come back. -/
theorem lastN_lastN_append (n : Nat) (l l' : List α) :
    lastN n (lastN n l ++ l') = lastN n (l ++ l') := by
  rcases Nat.le_total n l'.length with h | h
  · rw [lastN_append_of_le h, lastN_append_of_le h]
  · rw [lastN_append_of_length h, lastN_append_of_length h, lastN_lastN (Nat.sub_le _ _)]

omit [DecidableEq α] in
theorem mem_lastN_of_lt {n : Nat} {a : α} {l : List α} (l' : List α) (h : l'.length < n) :
    a ∈ lastN n (l ++ a :: l') := by
  rw [lastN_append_of_length (by rw [List.length_cons]; omega)]
  exact List.mem_append_right _ List.mem_cons_self

omit [DecidableEq α] in
/-- An entry among the newest ones stands before fewer than `n` others. -/
theorem exists_of_mem_lastN {n : Nat} {a : α} {l : List α} (h : a ∈ lastN n l) :
    ∃ xs ys, l = xs ++ a :: ys ∧ ys.length < n := by
  obtain ⟨us, ys, hsplit⟩ := List.append_of_mem h
  have hlen := length_lastN n l
  rw [hsplit, List.length_append, List.length_cons] at hlen
  refine ⟨l.take (l.length - n) ++ us, ys, ?_, by omega⟩
  rw [List.append_assoc, ← hsplit, lastN, List.take_append_drop]

/-! ## Remembering -/

/-- One more entry. -/
def remember (l : List α) (a : α) : List α := if a ∈ l then l else lastN cap (l ++ [a])

/-- The list after some entries. -/
def remembered (l : List α) (as : List α) : List α := as.foldl (remember cap) l

/-- The entries that were new when they came, the oldest one first. -/
def news (l : List α) : List α → List α
  | [] => []
  | a :: as => if a ∈ l then news l as else a :: news (remember cap l a) as

variable {cap}

theorem remember_of_mem {l : List α} {a : α} (h : a ∈ l) : remember cap l a = l := if_pos h

theorem remember_of_not_mem {l : List α} {a : α} (h : a ∉ l) :
    remember cap l a = lastN cap (l ++ [a]) := if_neg h

theorem nodup_remember {l : List α} (hl : l.Nodup) (a : α) : (remember cap l a).Nodup := by
  rw [remember]
  split
  · exact hl
  · rename_i ha
    refine List.Nodup.sublist (List.drop_sublist _ _) (List.nodup_append.mpr ⟨hl, ?_, ?_⟩)
    · exact List.nodup_singleton a
    · rintro x hx y hy rfl
      exact ha (List.mem_singleton.mp hy ▸ hx)

/-- What one entry adds to the list. -/
theorem toFinset_remember_sdiff (hcap : 0 < cap) (l : List α) (a : α) :
    (remember cap l a).toFinset \ l.toFinset = if a ∈ l then ∅ else {a} := by
  rw [remember]
  split
  · exact Finset.sdiff_self _
  · rename_i ha
    ext x
    rw [Finset.mem_sdiff, List.mem_toFinset, List.mem_toFinset, Finset.mem_singleton]
    constructor
    · rintro ⟨hx, hnot⟩
      have hx := (List.drop_sublist _ _).subset hx
      exact List.mem_singleton.mp ((List.mem_append.mp hx).resolve_left hnot)
    · rintro rfl
      exact ⟨mem_lastN_of_lt [] hcap, ha⟩

theorem nodup_remembered {l : List α} (hl : l.Nodup) (as : List α) :
    (remembered cap l as).Nodup := by
  induction as generalizing l with
  | nil => exact hl
  | cons a as ih => exact ih (nodup_remember hl a)

theorem length_remember {l : List α} (hl : l.length ≤ cap) (a : α) :
    (remember cap l a).length ≤ cap := by
  rw [remember]
  split
  · exact hl
  · rw [length_lastN]
    exact Nat.min_le_left _ _

theorem remembered_eq {l : List α} (hl : l.length ≤ cap) (as : List α) :
    remembered cap l as = lastN cap (l ++ news cap l as) := by
  induction as generalizing l with
  | nil => rw [news, List.append_nil, lastN_of_le hl, remembered, List.foldl_nil]
  | cons a as ih =>
      have hstep : remembered cap l (a :: as) = remembered cap (remember cap l a) as := rfl
      rw [hstep, ih (length_remember hl a), news]
      split
      · rename_i ha
        rw [remember_of_mem ha]
      · rename_i ha
        rw [remember_of_not_mem ha, lastN_lastN_append, List.append_assoc, List.singleton_append]

/-- A place in the new entries is a place in all entries. -/
theorem exists_of_news {l : List α} {as xs ys : List α} {a : α}
    (h : news cap l as = xs ++ a :: ys) :
    ∃ older newer, as = older ++ a :: newer ∧ a ∉ remembered cap l older ∧
      news cap (remembered cap l (older ++ [a])) newer = ys := by
  induction as generalizing l xs with
  | nil => exact absurd h (by simp [news])
  | cons b as ih =>
      rw [news] at h
      split at h
      · rename_i hb
        obtain ⟨older, newer, rfl, hnew, hrest⟩ := ih h
        refine ⟨b :: older, newer, rfl, ?_, ?_⟩
        · rw [remembered, List.foldl_cons, remember_of_mem hb]
          exact hnew
        · rw [remembered, List.cons_append, List.foldl_cons, remember_of_mem hb]
          exact hrest
      · rename_i hb
        cases xs with
        | nil =>
            obtain ⟨rfl, hrest⟩ := List.cons.inj h
            exact ⟨[], as, rfl, hb, hrest⟩
        | cons x xs =>
            obtain ⟨rfl, htail⟩ := List.cons.inj h
            obtain ⟨older, newer, rfl, hnew, hrest⟩ := ih htail
            exact ⟨b :: older, newer, rfl, hnew, hrest⟩

theorem news_append (l as as' : List α) :
    news cap l (as ++ as') = news cap l as ++ news cap (remembered cap l as) as' := by
  induction as generalizing l with
  | nil => rfl
  | cons a as ih =>
      rw [List.cons_append, news, news]
      split
      · rename_i ha
        rw [ih, remembered, remembered, List.foldl_cons, remember_of_mem ha]
      · rw [ih, List.cons_append]
        rfl

/-- An entry is remembered when it was new and fewer than `cap` different ones were new since. -/
theorem mem_remembered {as : List α} {a : α} :
    a ∈ remembered cap [] as ↔ ∃ older newer, as = older ++ a :: newer ∧
      a ∉ remembered cap [] older ∧
      (news cap (remembered cap [] (older ++ [a])) newer).toFinset.card < cap := by
  rw [remembered_eq (Nat.zero_le _), List.nil_append]
  constructor
  · intro h
    obtain ⟨xs, ys, hnews, hlen⟩ := exists_of_mem_lastN h
    obtain ⟨older, newer, hsplit, hnew, hrest⟩ := exists_of_news hnews
    exact ⟨older, newer, hsplit, hnew, hrest ▸ (List.toFinset_card_le ys).trans_lt hlen⟩
  · rintro ⟨older, newer, rfl, hnew, hcard⟩
    have hnews : news cap [] (older ++ a :: newer) = news cap [] older ++
        a :: news cap (remembered cap [] (older ++ [a])) newer := by
      rw [news_append, news, if_neg hnew, remembered, remembered, List.foldl_append]
      rfl
    rw [hnews]
    by_contra hnot
    -- With `cap` or more new entries since then, the newest `cap` of them are different.
    have hlen : cap ≤ (news cap (remembered cap [] (older ++ [a])) newer).length :=
      not_lt.mp fun hlt => hnot (mem_lastN_of_lt _ hlt)
    have hnodup : (remembered cap [] (older ++ a :: newer)).Nodup :=
      nodup_remembered List.nodup_nil _
    rw [remembered_eq (Nat.zero_le _), List.nil_append, hnews, List.append_cons,
      lastN_append_of_le hlen] at hnodup
    have hsub : (lastN cap (news cap (remembered cap [] (older ++ [a])) newer)).toFinset ⊆
        (news cap (remembered cap [] (older ++ [a])) newer).toFinset := by
      intro x hx
      exact List.mem_toFinset.mpr ((List.drop_sublist _ _).subset (List.mem_toFinset.mp hx))
    have hle := Finset.card_le_card hsub
    rw [List.toFinset_card_of_nodup hnodup, length_lastN, Nat.min_eq_left hlen] at hle
    exact absurd hcard (not_lt.mpr hle)

end Llmenv.Lib.Recent
