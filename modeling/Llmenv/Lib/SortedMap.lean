/-
# `Llmenv.Lib.SortedMap` — a map that is walked in the order of its keys

A list of pairs with strictly increasing keys.  `insert` keeps the order and
replaces an older value, and after a batch of inserts of one value a pair is in
the map when its key is in the batch, or was in the map before and is not
(`mem_insertAll`).
-/
import Mathlib.Order.Lattice

namespace Llmenv.Lib

/-- Pairs in the order of their keys, no key twice. -/
structure SortedMap (κ β : Type) [LinearOrder κ] where
  items : List (κ × β)
  sorted : items.Pairwise (fun a b => a.1 < b.1)

namespace SortedMap

variable {κ β : Type} [LinearOrder κ]

def empty : SortedMap κ β := ⟨[], List.Pairwise.nil⟩

def insertList (k : κ) (v : β) : List (κ × β) → List (κ × β)
  | [] => [(k, v)]
  | e :: rest =>
      if k < e.1 then (k, v) :: e :: rest
      else if k = e.1 then (k, v) :: rest
      else e :: insertList k v rest

theorem mem_insertList {k : κ} {v : β} {x : κ × β} :
    ∀ {l : List (κ × β)}, l.Pairwise (fun a b => a.1 < b.1) →
      (x ∈ insertList k v l ↔ x = (k, v) ∨ (x ∈ l ∧ x.1 ≠ k))
  | [], _ => by simp [insertList]
  | e :: rest, hl => by
      obtain ⟨he, hrest⟩ := List.pairwise_cons.mp hl
      -- Where the key goes before `e` or in its place, the rest is above it.
      have habove : ∀ {y : κ × β}, k ≤ e.1 → y ∈ rest → y.1 ≠ k :=
        fun hle hy => (lt_of_le_of_lt hle (he _ hy)).ne'
      simp only [insertList]
      split
      · rename_i hlt
        rw [List.mem_cons, List.mem_cons]
        constructor
        · rintro (h | rfl | h)
          · exact Or.inl h
          · exact Or.inr ⟨Or.inl rfl, hlt.ne'⟩
          · exact Or.inr ⟨Or.inr h, habove hlt.le h⟩
        · rintro (h | ⟨h, -⟩)
          · exact Or.inl h
          · exact Or.inr h
      · split
        · rename_i heq
          rw [List.mem_cons, List.mem_cons]
          constructor
          · rintro (h | h)
            · exact Or.inl h
            · exact Or.inr ⟨Or.inr h, habove heq.le h⟩
          · rintro (h | ⟨rfl | h, hne⟩)
            · exact Or.inl h
            · exact absurd heq.symm hne
            · exact Or.inr h
        · rename_i hne
          rw [List.mem_cons, mem_insertList hrest, List.mem_cons]
          constructor
          · rintro (rfl | h | ⟨h, hk⟩)
            · exact Or.inr ⟨Or.inl rfl, Ne.symm hne⟩
            · exact Or.inl h
            · exact Or.inr ⟨Or.inr h, hk⟩
          · rintro (h | ⟨rfl | h, hk⟩)
            · exact Or.inr (Or.inl h)
            · exact Or.inl rfl
            · exact Or.inr (Or.inr ⟨h, hk⟩)

theorem sorted_insertList {k : κ} {v : β} :
    ∀ {l : List (κ × β)}, l.Pairwise (fun a b => a.1 < b.1) →
      (insertList k v l).Pairwise (fun a b => a.1 < b.1)
  | [], _ => List.pairwise_singleton _ _
  | e :: rest, hl => by
      obtain ⟨he, hrest⟩ := List.pairwise_cons.mp hl
      simp only [insertList]
      split
      · rename_i hlt
        refine List.pairwise_cons.mpr ⟨fun y hy => ?_, hl⟩
        rcases List.mem_cons.mp hy with rfl | hy
        · exact hlt
        · exact hlt.trans (he y hy)
      · split
        · rename_i heq
          exact List.pairwise_cons.mpr ⟨fun y hy => heq ▸ he y hy, hrest⟩
        · rename_i hnlt hne
          refine List.pairwise_cons.mpr ⟨fun y hy => ?_, sorted_insertList hrest⟩
          rcases (mem_insertList hrest).mp hy with rfl | ⟨hy, -⟩
          · exact lt_of_le_of_ne (not_lt.mp hnlt) (Ne.symm hne)
          · exact he y hy

def insert (m : SortedMap κ β) (k : κ) (v : β) : SortedMap κ β :=
  ⟨insertList k v m.items, sorted_insertList m.sorted⟩

theorem mem_insert {m : SortedMap κ β} {k : κ} {v : β} {x : κ × β} :
    x ∈ (m.insert k v).items ↔ x = (k, v) ∨ (x ∈ m.items ∧ x.1 ≠ k) :=
  mem_insertList m.sorted

/-- Insert one value under every key of a batch. -/
def insertAll (m : SortedMap κ β) (ks : List κ) (v : β) : SortedMap κ β :=
  ks.foldl (fun m k => m.insert k v) m

theorem mem_insertAll {ks : List κ} {v : β} {x : κ × β} {m : SortedMap κ β} :
    x ∈ (m.insertAll ks v).items ↔ (x.1 ∈ ks ∧ x.2 = v) ∨ (x ∈ m.items ∧ x.1 ∉ ks) := by
  induction ks generalizing m with
  | nil => simp [insertAll]
  | cons k ks ih =>
      have hstep : m.insertAll (k :: ks) v = (m.insert k v).insertAll ks v := rfl
      rw [hstep, ih, mem_insert, List.mem_cons]
      constructor
      · rintro (⟨hk, hv⟩ | ⟨rfl | ⟨hm, hne⟩, hks⟩)
        · exact Or.inl ⟨Or.inr hk, hv⟩
        · exact Or.inl ⟨Or.inl rfl, rfl⟩
        · exact Or.inr ⟨hm, not_or.mpr ⟨hne, hks⟩⟩
      · rintro (⟨rfl | hk, hv⟩ | ⟨hm, hnot⟩)
        · by_cases hks : x.1 ∈ ks
          · exact Or.inl ⟨hks, hv⟩
          · exact Or.inr ⟨Or.inl (Prod.ext rfl hv), hks⟩
        · exact Or.inl ⟨hk, hv⟩
        · obtain ⟨hne, hks⟩ := not_or.mp hnot
          exact Or.inr ⟨Or.inr ⟨hm, hne⟩, hks⟩

def erase (m : SortedMap κ β) (k : κ) : SortedMap κ β :=
  ⟨m.items.filter fun e => e.1 ≠ k, m.sorted.filter _⟩

end SortedMap

end Llmenv.Lib
