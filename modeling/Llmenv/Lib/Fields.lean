/-
# `Llmenv.Lib.Fields` — the fields of an object, by their keys

The same lists of pairs as in `Llmenv.Lib.SortedMap`, without the proof inside:
a nested data type cannot carry it.  `get` after `insert` and after `erase`
needs no order; that two sorted lists with the same `get` are the same list
(`eq_of_get`) does.  How many fields there are is how many keys
(`length_eq_card`), and a put and an erase are read off the set of keys.
-/
import Mathlib.Data.Finset.Card
import Mathlib.Data.List.Basic
import Llmenv.Lib.SortedMap

namespace Llmenv.Lib.Fields

variable {κ β γ : Type} [LinearOrder κ]

/-- The first value under a key. -/
def get (k : κ) : List (κ × β) → Option β
  | [] => none
  | (j, v) :: rest => if j = k then some v else get k rest

/-- Put a value under a key, in the order of the keys. -/
def insert (k : κ) (v : β) (l : List (κ × β)) : List (κ × β) := SortedMap.insertList k v l

def erase (k : κ) (l : List (κ × β)) : List (κ × β) := l.filter (fun e => e.1 ≠ k)

/-- The values changed, under the same keys. -/
def mapValues (f : β → γ) (l : List (κ × β)) : List (κ × γ) := l.map (fun e => (e.1, f e.2))

/-- The fields in order; of one key the last value. -/
def ofList (l : List (κ × β)) : List (κ × β) := l.foldl (fun acc e => insert e.1 e.2 acc) []

def keys (l : List (κ × β)) : List κ := l.map Prod.fst

/-- No key twice, and in the order of the keys. -/
def Sorted (l : List (κ × β)) : Prop := l.Pairwise (fun a b => a.1 < b.1)

@[simp] theorem get_nil (k : κ) : get k ([] : List (κ × β)) = none := rfl

theorem get_cons (k j : κ) (v : β) (rest : List (κ × β)) :
    get k ((j, v) :: rest) = if j = k then some v else get k rest := rfl

@[simp] theorem sorted_nil : Sorted ([] : List (κ × β)) := List.Pairwise.nil

theorem sorted_cons {e : κ × β} {l : List (κ × β)} :
    Sorted (e :: l) ↔ (∀ x ∈ l, e.1 < x.1) ∧ Sorted l := List.pairwise_cons

theorem get_insert (k j : κ) (v : β) (l : List (κ × β)) :
    get j (insert k v l) = if k = j then some v else get j l := by
  induction l with
  | nil => rfl
  | cons e rest ih =>
      obtain ⟨i, w⟩ := e
      have ih : get j (SortedMap.insertList k v rest) = if k = j then some v else get j rest := ih
      simp only [insert, SortedMap.insertList]
      split
      · rfl
      · split
        · rename_i heq
          obtain rfl : k = i := heq
          simp only [get_cons]
          split
          · rfl
          · rfl
        · rename_i hlt hne
          have hne : i ≠ k := fun h => hne h.symm
          simp only [get_cons, ih]
          by_cases hj : k = j
          · simp [hj ▸ hne, hj]
          · simp [hj]

/-- The last value put under a key counts. -/
theorem insert_insert (k : κ) (v w : β) (l : List (κ × β)) :
    insert k w (insert k v l) = insert k w l := by
  induction l with
  | nil => simp [insert, SortedMap.insertList]
  | cons e rest ih =>
      have ih : SortedMap.insertList k w (SortedMap.insertList k v rest) =
          SortedMap.insertList k w rest := ih
      simp only [insert, SortedMap.insertList]
      by_cases hlt : k < e.1
      · simp [hlt, SortedMap.insertList]
      · by_cases heq : k = e.1
        · simp [heq, SortedMap.insertList]
        · simp [hlt, heq, SortedMap.insertList, ih]

theorem get_erase (k j : κ) (l : List (κ × β)) :
    get j (erase k l) = if k = j then none else get j l := by
  induction l with
  | nil => simp [erase]
  | cons e rest ih =>
      obtain ⟨i, w⟩ := e
      have ih : get j (rest.filter (fun e => e.1 ≠ k)) = if k = j then none else get j rest := ih
      simp only [erase, List.filter_cons]
      by_cases hi : i = k
      · subst hi
        simp only [ne_eq, not_true_eq_false, decide_false, Bool.false_eq_true, if_false]
        rw [ih, get_cons]
        split
        · rfl
        · rfl
      · simp only [ne_eq, hi, not_false_eq_true, decide_true, if_true, get_cons, ih]
        by_cases hj : k = j
        · simp [hj ▸ hi, hj]
        · simp [hj]

theorem get_mapValues (f : β → γ) (k : κ) (l : List (κ × β)) :
    get k (mapValues f l) = (get k l).map f := by
  induction l with
  | nil => rfl
  | cons e rest ih =>
      obtain ⟨j, v⟩ := e
      have ih : get k (rest.map (fun e => (e.1, f e.2))) = (get k rest).map f := ih
      simp only [mapValues, List.map_cons, get_cons, ih]
      split
      · rfl
      · rfl

theorem mem_of_get {k : κ} {v : β} {l : List (κ × β)} (h : get k l = some v) : (k, v) ∈ l := by
  induction l with
  | nil => exact absurd h (by simp)
  | cons e rest ih =>
      obtain ⟨j, w⟩ := e
      rw [get_cons] at h
      split at h
      · rename_i hj
        rw [hj, Option.some.inj h]
        exact List.mem_cons_self
      · exact List.mem_cons_of_mem _ (ih h)

theorem get_append (k : κ) (l l' : List (κ × β)) :
    get k (l ++ l') = (get k l).or (get k l') := by
  induction l with
  | nil => rfl
  | cons e rest ih =>
      obtain ⟨j, v⟩ := e
      rw [List.cons_append, get_cons, get_cons, ih]
      split
      · rfl
      · rfl

theorem get_eq_none {k : κ} {l : List (κ × β)} : get k l = none ↔ ∀ e ∈ l, e.1 ≠ k := by
  induction l with
  | nil => simp
  | cons e rest ih =>
      obtain ⟨j, w⟩ := e
      rw [get_cons, List.forall_mem_cons]
      by_cases hj : j = k
      · simp [hj]
      · simp [hj, ih]

theorem erase_of_get_none {k : κ} {l : List (κ × β)} (h : get k l = none) : erase k l = l :=
  List.filter_eq_self.mpr fun e he => by simpa using get_eq_none.mp h e he

theorem nodup_keys {l : List (κ × β)} (hl : Sorted l) : (keys l).Nodup :=
  List.pairwise_map.mpr (hl.imp fun h => h.ne)

theorem get_of_mem_nodup {k : κ} {v : β} {l : List (κ × β)} (hl : (keys l).Nodup)
    (h : (k, v) ∈ l) : get k l = some v := by
  induction l with
  | nil => exact absurd h (by simp)
  | cons e l ih =>
      obtain ⟨j, w⟩ := e
      obtain ⟨hj, hrest⟩ := List.nodup_cons.mp hl
      rw [get_cons]
      rcases List.mem_cons.mp h with heq | hmem
      · obtain ⟨rfl, rfl⟩ := Prod.mk.inj heq
        rw [if_pos rfl]
      · have hk : k ∈ keys l := List.mem_map_of_mem hmem
        have hjk : j ≠ k := by
          rintro rfl
          exact hj hk
        rw [if_neg hjk, ih hrest hmem]

theorem get_of_mem {k : κ} {v : β} {l : List (κ × β)} (hl : Sorted l) (h : (k, v) ∈ l) :
    get k l = some v := get_of_mem_nodup (nodup_keys hl) h

theorem get_filter_nodup {p : κ × β → Bool} {k : κ} {l : List (κ × β)} (hl : (keys l).Nodup) :
    get k (l.filter p) = (get k l).filter (fun v => p (k, v)) := by
  induction l with
  | nil => rfl
  | cons e rest ih =>
      obtain ⟨j, v⟩ := e
      obtain ⟨hj, hrest⟩ := List.nodup_cons.mp hl
      rw [List.filter_cons, get_cons]
      by_cases hjk : j = k
      · subst hjk
        have hnone : get j rest = none :=
          get_eq_none.mpr fun e he heq => hj (List.mem_map.mpr ⟨e, he, heq⟩)
        by_cases hp : p (j, v) = true
        · simp [hp, get_cons, Option.filter]
        · simp [hp, ih hrest, hnone, Option.filter]
      · by_cases hp : p (j, v) = true
        · simp [hp, hjk, get_cons, ih hrest]
        · simp [hp, hjk, ih hrest]

theorem get_filter {p : κ × β → Bool} {k : κ} {l : List (κ × β)} (hl : Sorted l) :
    get k (l.filter p) = (get k l).filter (fun v => p (k, v)) := get_filter_nodup (nodup_keys hl)

theorem sorted_insert {k : κ} {v : β} {l : List (κ × β)} (hl : Sorted l) :
    Sorted (insert k v l) := SortedMap.sorted_insertList hl

theorem sorted_filter {p : κ × β → Bool} {l : List (κ × β)} (hl : Sorted l) :
    Sorted (l.filter p) := List.Pairwise.filter p hl

theorem sorted_erase {k : κ} {l : List (κ × β)} (hl : Sorted l) : Sorted (erase k l) :=
  sorted_filter hl

theorem sorted_mapValues {f : β → γ} {l : List (κ × β)} (hl : Sorted l) :
    Sorted (mapValues f l) := List.pairwise_map.mpr hl

theorem mem_insert {k : κ} {v : β} {x : κ × β} {l : List (κ × β)} (hl : Sorted l) :
    x ∈ insert k v l ↔ x = (k, v) ∨ (x ∈ l ∧ x.1 ≠ k) := SortedMap.mem_insertList hl

/-- A value of the list after an insert is the new one or one from before. -/
theorem mem_of_mem_insert {k : κ} {v : β} {x : κ × β} {l : List (κ × β)}
    (h : x ∈ insert k v l) : x = (k, v) ∨ x ∈ l := by
  induction l with
  | nil => exact Or.inl (List.mem_singleton.mp h)
  | cons e rest ih =>
      simp only [insert, SortedMap.insertList] at h
      split at h
      · exact List.mem_cons.mp h
      · split at h
        · rcases List.mem_cons.mp h with h | h
          · exact Or.inl h
          · exact Or.inr (List.mem_cons_of_mem _ h)
        · rcases List.mem_cons.mp h with rfl | h
          · exact Or.inr List.mem_cons_self
          · exact (ih h).imp_right (List.mem_cons_of_mem _)

theorem mem_keys {k : κ} {l : List (κ × β)} : k ∈ keys l ↔ get k l ≠ none := by
  rw [ne_eq, get_eq_none]
  constructor
  · intro hk hnone
    obtain ⟨e, he, rfl⟩ := List.mem_map.mp hk
    exact hnone e he rfl
  · intro h
    by_contra hk
    exact h fun e he heq => hk (heq ▸ List.mem_map_of_mem he)

theorem sorted_foldl_insert (l : List (κ × β)) {acc : List (κ × β)} (hacc : Sorted acc) :
    Sorted (l.foldl (fun acc e => insert e.1 e.2 acc) acc) := by
  induction l generalizing acc with
  | nil => exact hacc
  | cons e l ih => exact ih (sorted_insert hacc)

theorem sorted_ofList (l : List (κ × β)) : Sorted (ofList l) := sorted_foldl_insert l sorted_nil

omit [LinearOrder κ] in
theorem keys_mapValues (f : β → γ) (l : List (κ × β)) : keys (mapValues f l) = keys l := by
  simp [keys, mapValues]

/-- Of different keys each keeps its value. -/
theorem get_ofList {l : List (κ × β)} (h : (keys l).Nodup) (k : κ) :
    get k (ofList l) = get k l := by
  have hacc : ∀ acc : List (κ × β), get k (l.foldl (fun acc e => insert e.1 e.2 acc) acc) =
      (get k l).or (get k acc) := by
    induction l with
    | nil =>
        intro acc
        rfl
    | cons e l ih =>
        intro acc
        obtain ⟨j, v⟩ := e
        obtain ⟨hj, hrest⟩ := List.nodup_cons.mp h
        rw [List.foldl_cons, ih hrest, get_cons, get_insert]
        by_cases hjk : j = k
        · subst hjk
          have hnone : get j l = none := by
            by_contra hne
            exact hj (mem_keys.mpr hne)
          simp [hnone]
        · simp [hjk]
  rw [ofList, hacc]
  exact Option.or_none

/-- A loop over sorted fields whose step changes nothing but its own key; `look` reads what the
loop has built. -/
theorem look_foldl_step {σ : Type} (look : κ → σ → Option β) {f : σ → κ → γ → σ}
    {g : κ → γ → Option β → Option β}
    (hstep : ∀ acc j v k, look k (f acc j v) = if j = k then g j v (look j acc) else look k acc)
    {l : List (κ × γ)} (hl : Sorted l) (k : κ) (acc : σ) :
    look k (l.foldl (fun acc e => f acc e.1 e.2) acc) =
      match get k l with
      | some v => g k v (look k acc)
      | none => look k acc := by
  induction l generalizing acc with
  | nil => rfl
  | cons e l ih =>
      obtain ⟨hlt, hrest⟩ := sorted_cons.mp hl
      obtain ⟨j, v⟩ := e
      rw [List.foldl_cons, ih hrest, get_cons, hstep]
      by_cases hj : j = k
      · subst hj
        have hnone : get j l = none := get_eq_none.mpr fun e he => (hlt e he).ne'
        simp [hnone]
      · simp [hj]

/-- A loop that changes sorted fields one by one. -/
theorem get_foldl_step {f : List (κ × β) → κ → γ → List (κ × β)}
    {g : κ → γ → Option β → Option β}
    (hstep : ∀ acc j v k, get k (f acc j v) = if j = k then g j v (get j acc) else get k acc)
    {l : List (κ × γ)} (hl : Sorted l) (k : κ) (acc : List (κ × β)) :
    get k (l.foldl (fun acc e => f acc e.1 e.2) acc) =
      match get k l with
      | some v => g k v (get k acc)
      | none => get k acc := look_foldl_step get hstep hl k acc

/-- A loop that puts under each key a value made from the old one. -/
theorem get_foldl_insert {f : κ → Option β → γ → β} {l : List (κ × γ)} (hl : Sorted l) (k : κ)
    (acc : List (κ × β)) :
    get k (l.foldl (fun acc e => insert e.1 (f e.1 (get e.1 acc) e.2) acc) acc) =
      match get k l with
      | some v => some (f k (get k acc) v)
      | none => get k acc :=
  get_foldl_step (f := fun acc j v => insert j (f j (get j acc) v) acc)
    (g := fun j v old => some (f j old v)) (fun acc j _ k => get_insert j k _ acc) hl k acc

/-- Sorted fields are given by what is under each key. -/
theorem eq_of_get {l l' : List (κ × β)} (hl : Sorted l) (hl' : Sorted l')
    (h : ∀ k, get k l = get k l') : l = l' := by
  induction l generalizing l' with
  | nil =>
      cases l' with
      | nil => rfl
      | cons e rest => exact absurd rfl (get_eq_none.mp (h e.1).symm e List.mem_cons_self)
  | cons e rest ih =>
      cases l' with
      | nil => exact absurd rfl (get_eq_none.mp (h e.1) e List.mem_cons_self)
      | cons e' rest' =>
          obtain ⟨hlt, hrest⟩ := sorted_cons.mp hl
          obtain ⟨hlt', hrest'⟩ := sorted_cons.mp hl'
          obtain ⟨j, v⟩ := e
          obtain ⟨j', v'⟩ := e'
          -- The first key of each list is in the other one, so neither is less.
          have hfirst : ∀ {a b : κ} {x y : β} {l l' : List (κ × β)}, (∀ k, get k ((a, x) :: l) =
              get k ((b, y) :: l')) → (∀ z ∈ l, a < z.1) → ¬ b < a := by
            intro a b x y l l' hget hlt hba
            have hb := hget b
            rw [get_cons, get_cons, if_neg hba.ne', if_pos rfl] at hb
            exact absurd (hlt _ (mem_of_get hb)) (not_lt.mpr hba.le)
          obtain rfl : j = j' :=
            le_antisymm (not_lt.mp (hfirst h hlt)) (not_lt.mp (hfirst (fun k => (h k).symm) hlt'))
          have hv := h j
          simp only [get_cons, if_true, Option.some.injEq] at hv
          rw [hv, ih hrest hrest' fun k => ?_]
          have hk := h k
          rw [get_cons, get_cons] at hk
          by_cases hj : j = k
          · rw [get_eq_none.mpr fun e he => ?_, get_eq_none.mpr fun e he => ?_]
            · exact hj ▸ (hlt' e he).ne'
            · exact hj ▸ (hlt e he).ne'
          · rwa [if_neg hj, if_neg hj] at hk

/-! ### The number of fields -/

theorem length_eq_card {l : List (κ × β)} (hl : Sorted l) :
    l.length = (keys l).toFinset.card := by
  rw [List.toFinset_card_of_nodup (nodup_keys hl), keys, List.length_map]

theorem keys_insert (k : κ) (v : β) (l : List (κ × β)) :
    (keys (insert k v l)).toFinset = Insert.insert k (keys l).toFinset := by
  ext j
  rw [Finset.mem_insert, List.mem_toFinset, List.mem_toFinset, mem_keys, mem_keys, get_insert]
  split
  · rename_i hj
    simp [hj]
  · rename_i hj
    simp [Ne.symm hj]

theorem keys_erase (k : κ) (l : List (κ × β)) :
    (keys (erase k l)).toFinset = (keys l).toFinset.erase k := by
  ext j
  rw [Finset.mem_erase, List.mem_toFinset, List.mem_toFinset, mem_keys, mem_keys, get_erase]
  split
  · rename_i hj
    simp [hj]
  · rename_i hj
    simp [Ne.symm hj]

end Llmenv.Lib.Fields
