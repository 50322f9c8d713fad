/-
# `Llmenv.Lib.Keyed` — a folder of records, one record per key

A store that keeps one file per record is a list in directory order in which
no key occurs twice.  `Keyed key` carries that fact, so a lookup by key and
membership are the same question (`find?_eq_some`, `mem_iff_find?`), and the
two writes a folder knows, `put` and `erase`, are described by what a lookup
sees afterwards (`find?_put`, `find?_erase`).

`view g d` is the folder as one projection `g` of its records, for proofs about
a few of their fields.
-/
import Mathlib.Data.List.Nodup

namespace Llmenv.Lib

/-- Records in directory order, no two of them under one key. -/
structure Keyed {α κ : Type} (key : α → κ) where
  items : List α
  nodup : (items.map key).Nodup

namespace Keyed

variable {α κ β : Type} [DecidableEq κ] {key : α → κ}

/-- The empty folder. -/
def empty : Keyed key := ⟨[], List.nodup_nil⟩

/-- The record stored under `k`. -/
def find? (d : Keyed key) (k : κ) : Option α :=
  d.items.find? (fun x => decide (key x = k))

/-! ## Writing one record -/

/-- Replace the record with `x`'s key in place, or append `x`. -/
def putList (key : α → κ) (x : α) : List α → List α
  | [] => [x]
  | y :: ys => if key y = key x then x :: ys else y :: putList key x ys

theorem mem_putList {x y : α} :
    ∀ {l : List α}, y ∈ putList key x l → y = x ∨ y ∈ l
  | [], h => by simpa [putList] using h
  | z :: zs, h => by
      simp only [putList] at h
      split at h
      · rcases List.mem_cons.mp h with h | h
        · exact Or.inl h
        · exact Or.inr (List.mem_cons_of_mem _ h)
      · rcases List.mem_cons.mp h with h | h
        · exact Or.inr (h ▸ List.mem_cons_self)
        · rcases mem_putList h with h | h
          · exact Or.inl h
          · exact Or.inr (List.mem_cons_of_mem _ h)

theorem mem_putList_keys {x : α} {k : κ} :
    ∀ {l : List α}, k ∈ (putList key x l).map key ↔ k = key x ∨ k ∈ l.map key
  | [] => by simp [putList]
  | y :: ys => by
      by_cases h : key y = key x
      · simp [putList, h]
      · have ih := mem_putList_keys (x := x) (k := k) (l := ys)
        simp only [putList, if_neg h, List.map_cons, List.mem_cons, ih]
        tauto

theorem nodup_putList {x : α} :
    ∀ {l : List α}, (l.map key).Nodup → ((putList key x l).map key).Nodup
  | [], _ => by simp [putList]
  | y :: ys, hl => by
      simp only [List.map_cons, List.nodup_cons] at hl
      by_cases h : key y = key x
      · simp only [putList, if_pos h, List.map_cons, List.nodup_cons]
        exact ⟨h ▸ hl.1, hl.2⟩
      · simp only [putList, if_neg h, List.map_cons, List.nodup_cons]
        refine ⟨fun hmem => ?_, nodup_putList hl.2⟩
        rcases mem_putList_keys.mp hmem with hx | hys
        · exact h hx
        · exact hl.1 hys

/-- Write `x` under its key. -/
def put (d : Keyed key) (x : α) : Keyed key :=
  ⟨putList key x d.items, nodup_putList d.nodup⟩

/-- Remove the record under `k`. -/
def erase (d : Keyed key) (k : κ) : Keyed key :=
  ⟨d.items.filter (fun x => decide (key x ≠ k)),
   d.nodup.sublist (List.filter_sublist.map key)⟩

/-- Keep the records that satisfy `p`. -/
def filter (d : Keyed key) (p : α → Bool) : Keyed key :=
  ⟨d.items.filter p, d.nodup.sublist (List.filter_sublist.map key)⟩

theorem length_putList (x : α) : ∀ l : List α, (putList key x l).length ≤ l.length + 1
  | [] => by simp [putList]
  | y :: ys => by
      have ih := length_putList x ys
      by_cases h : key y = key x
      · simp [putList, h]
      · simpa [putList, h] using ih

/-! ## Lookup and membership -/

theorem find?_eq_some {d : Keyed key} {k : κ} {x : α} :
    d.find? k = some x ↔ x ∈ d.items ∧ key x = k := by
  constructor
  · intro h
    exact ⟨List.mem_of_find?_eq_some h, by simpa using List.find?_some h⟩
  · rintro ⟨hx, rfl⟩
    cases hf : d.find? (key x) with
    | none =>
        have := List.find?_eq_none.mp hf x hx
        simp at this
    | some y =>
        have hy := List.mem_of_find?_eq_some hf
        have hk : key y = key x := by simpa using List.find?_some hf
        rw [List.inj_on_of_nodup_map d.nodup hy hx hk]

theorem key_of_find? {d : Keyed key} {k : κ} {x : α} (h : d.find? k = some x) :
    key x = k :=
  (find?_eq_some.mp h).2

theorem mem_of_find? {d : Keyed key} {k : κ} {x : α} (h : d.find? k = some x) :
    x ∈ d.items :=
  (find?_eq_some.mp h).1

theorem mem_iff_find? {d : Keyed key} {x : α} :
    x ∈ d.items ↔ d.find? (key x) = some x :=
  ⟨fun h => find?_eq_some.mpr ⟨h, rfl⟩, mem_of_find?⟩

theorem find?_eq_none {d : Keyed key} {k : κ} :
    d.find? k = none ↔ ∀ x ∈ d.items, key x ≠ k := by
  simp [find?, List.find?_eq_none]

@[simp] theorem find?_empty (k : κ) : (empty : Keyed key).find? k = none := rfl

theorem find?_putList {x : α} {k : κ} :
    ∀ (l : List α), (putList key x l).find? (fun y => decide (key y = k)) =
      if key x = k then some x else l.find? (fun y => decide (key y = k))
  | [] => by by_cases h : key x = k <;> simp [putList, h]
  | y :: ys => by
      have ih := find?_putList (x := x) (k := k) ys
      by_cases hyx : key y = key x
      · by_cases hxk : key x = k <;> simp [putList, hyx, hxk]
      · by_cases hyk : key y = k
        · have hxk : key x ≠ k := fun h => hyx (hyk.trans h.symm)
          rw [putList, if_neg hyx]
          simp [hyk, hxk]
        · simp [putList, hyx, hyk, ih]

theorem find?_put (d : Keyed key) (x : α) (k : κ) :
    (d.put x).find? k = if key x = k then some x else d.find? k :=
  find?_putList d.items

theorem find?_erase (d : Keyed key) (k j : κ) :
    (d.erase k).find? j = if j = k then none else d.find? j := by
  by_cases h : j = k
  · subst h
    simp [find?_eq_none, erase]
  · simp only [if_neg h]
    cases hf : d.find? j with
    | none =>
        rw [find?_eq_none] at hf ⊢
        intro x hx
        exact hf x (List.mem_of_mem_filter hx)
    | some x =>
        obtain ⟨hx, rfl⟩ := find?_eq_some.mp hf
        exact find?_eq_some.mpr ⟨by simp [erase, hx, h], rfl⟩

/-! ## One projection of the records -/

/-- The folder as one projection of its records. -/
def view (g : α → β) (d : Keyed key) (k : κ) : Option β :=
  (d.find? k).map g

end Keyed

end Llmenv.Lib
