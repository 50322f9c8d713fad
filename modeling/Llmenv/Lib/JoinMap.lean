/-
# `Llmenv.Lib.JoinMap` — a map that keeps the greatest value of each key

`join` is `entry(k).and_modify(max).or_insert(v)`: a key that is new gets the
value, a key that is there keeps the greater of the two.  After a batch of such
writes a key has the greatest value written under it (`get_joinAll_iff`), so the
order of the batch says nothing about the map (`joinAll_perm`).
-/
import Mathlib.Order.MinMax
import Llmenv.Lib.Fields

namespace Llmenv.Lib.SortedMap

variable {κ β : Type} [LinearOrder κ]

theorem ext_get {m n : SortedMap κ β} (h : ∀ k, Fields.get k m.items = Fields.get k n.items) :
    m = n := by
  obtain ⟨items, sorted⟩ := m
  obtain ⟨items', sorted'⟩ := n
  obtain rfl : items = items' := Fields.eq_of_get sorted sorted' h
  rfl

variable [LinearOrder β]

/-- The value a key gets when `v` is written over what was there. -/
def joined (old : Option β) (v : β) : β :=
  match old with
  | some w => max w v
  | none => v

def join (m : SortedMap κ β) (k : κ) (v : β) : SortedMap κ β :=
  m.insert k (joined (Fields.get k m.items) v)

/-- One write after the other. -/
def joinAll (m : SortedMap κ β) (writes : List (κ × β)) : SortedMap κ β :=
  writes.foldl (fun m w => m.join w.1 w.2) m

theorem get_join (m : SortedMap κ β) (k j : κ) (v : β) :
    Fields.get j (m.join k v).items =
      if k = j then some (joined (Fields.get j m.items) v) else Fields.get j m.items := by
  show Fields.get j (Fields.insert k _ m.items) = _
  rw [Fields.get_insert]
  split
  · rename_i hk
    rw [hk]
  · rfl

theorem joined_joined (old : Option β) (v w : β) :
    joined (some (joined old v)) w = joined (some (joined old w)) v := by
  cases old with
  | none => exact max_comm v w
  | some x => exact sup_right_comm x v w

theorem join_right_comm (m : SortedMap κ β) (a b : κ × β) :
    (m.join a.1 a.2).join b.1 b.2 = (m.join b.1 b.2).join a.1 a.2 := by
  refine ext_get fun k => ?_
  simp only [get_join]
  by_cases ha : a.1 = k
  · by_cases hb : b.1 = k
    · simp only [ha, hb, if_true, joined_joined]
    · simp [ha, hb]
  · simp [ha]

/-- The order of the writes does not matter. -/
theorem joinAll_perm {writes writes' : List (κ × β)} (h : writes.Perm writes')
    (m : SortedMap κ β) : m.joinAll writes = m.joinAll writes' :=
  h.foldl_eq' (fun a _ b _ m => join_right_comm m a b) m

theorem get_joinAll_cons (m : SortedMap κ β) (w : κ × β) (writes : List (κ × β)) (k : κ) :
    Fields.get k (m.joinAll (w :: writes)).items =
      Fields.get k ((m.join w.1 w.2).joinAll writes).items := rfl

/-- A value that is there afterwards was there before or was written. -/
theorem mem_of_get_joinAll {writes : List (κ × β)} {k : κ} {v : β} :
    ∀ {m : SortedMap κ β}, Fields.get k (m.joinAll writes).items = some v →
      Fields.get k m.items = some v ∨ (k, v) ∈ writes := by
  induction writes with
  | nil =>
      intro m h
      exact Or.inl h
  | cons w writes ih =>
      intro m h
      rw [get_joinAll_cons] at h
      rcases ih h with h | h
      · rw [get_join] at h
        split at h
        · rename_i hk
          subst hk
          have hv : joined (Fields.get w.1 m.items) w.2 = v := Option.some.inj h
          cases hold : Fields.get w.1 m.items with
          | none =>
              rw [hold] at hv
              exact Or.inr (by simp [← hv, joined])
          | some old =>
              rw [hold] at hv
              rcases max_choice old w.2 with hmax | hmax
              · exact Or.inl (by rw [← hv, joined, hmax])
              · exact Or.inr (by simp [← hv, joined, hmax])
        · exact Or.inl h
      · exact Or.inr (List.mem_cons_of_mem _ h)

/-- A write never makes the value of a key smaller. -/
theorem le_joinAll (writes : List (κ × β)) {k : κ} :
    ∀ {m : SortedMap κ β} {v : β}, Fields.get k m.items = some v →
      ∃ w, Fields.get k (m.joinAll writes).items = some w ∧ v ≤ w := by
  induction writes with
  | nil =>
      intro m v h
      exact ⟨v, h, le_rfl⟩
  | cons x writes ih =>
      intro m v h
      rw [get_joinAll_cons]
      by_cases hk : x.1 = k
      · have hget : Fields.get k (m.join x.1 x.2).items = some (max v x.2) := by
          rw [get_join, if_pos hk, h, joined]
        obtain ⟨w, hw, hle⟩ := ih hget
        exact ⟨w, hw, (le_max_left v x.2).trans hle⟩
      · exact ih (by rw [get_join, if_neg hk, h])

/-- A value that is written is there afterwards, or a greater one is. -/
theorem le_joinAll_of_mem {writes : List (κ × β)} {k : κ} {v : β} (h : (k, v) ∈ writes) :
    ∀ {m : SortedMap κ β}, ∃ w, Fields.get k (m.joinAll writes).items = some w ∧ v ≤ w := by
  induction writes with
  | nil => exact absurd h List.not_mem_nil
  | cons x writes ih =>
      intro m
      rw [get_joinAll_cons]
      rcases List.mem_cons.mp h with rfl | h
      · have hget : Fields.get k (m.join k v).items =
            some (joined (Fields.get k m.items) v) := by
          rw [get_join, if_pos rfl]
        obtain ⟨w, hw, hle⟩ := le_joinAll writes hget
        refine ⟨w, hw, le_trans ?_ hle⟩
        cases Fields.get k m.items with
        | none => exact le_rfl
        | some old => exact le_max_right old v
      · exact ih h

/-- From the empty map: a key has the greatest value written under it. -/
theorem get_joinAll_iff {writes : List (κ × β)} {k : κ} {v : β} :
    Fields.get k ((SortedMap.empty : SortedMap κ β).joinAll writes).items = some v ↔
      (k, v) ∈ writes ∧ ∀ w, (k, w) ∈ writes → w ≤ v := by
  constructor
  · intro h
    have hmem : (k, v) ∈ writes :=
      (mem_of_get_joinAll h).resolve_left (by simp [SortedMap.empty])
    refine ⟨hmem, fun w hw => ?_⟩
    obtain ⟨x, hx, hle⟩ := le_joinAll_of_mem hw (m := (SortedMap.empty : SortedMap κ β))
    rw [h] at hx
    rw [Option.some.inj hx]
    exact hle
  · rintro ⟨hmem, hmax⟩
    obtain ⟨x, hx, hle⟩ := le_joinAll_of_mem hmem (m := (SortedMap.empty : SortedMap κ β))
    have hwritten : (k, x) ∈ writes :=
      (mem_of_get_joinAll hx).resolve_left (by simp [SortedMap.empty])
    rw [hx, le_antisymm hle (hmax x hwritten)]

end Llmenv.Lib.SortedMap
