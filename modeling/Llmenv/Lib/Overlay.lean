/-
# `Llmenv.Lib.Overlay` — trees laid over one another

A tree has unordered collections and maps from keys to trees below it.  Laid over
another one, a map is laid over key by key, a collection adds its elements, and
anything else takes the place of what was there; a null makes no new place.

Two trees can be laid over a third in either order, with the same result, exactly
when nowhere in both of them one has another kind or another leaf than the other
(`merge_right_comm_iff`).
-/
import Mathlib.Data.Set.Basic

namespace Llmenv.Lib

/-- A place in a tree: nothing, a null, a leaf, a collection or a map. -/
inductive Overlay (κ σ ε : Type) where
  | absent
  | null
  | leaf (a : σ)
  | seq (s : Set ε)
  | map (f : κ → Overlay κ σ ε)

namespace Overlay

variable {κ σ ε : Type}

/-- What a map has under a key. -/
def at' : Overlay κ σ ε → κ → Overlay κ σ ε
  | map f, k => f k
  | _, _ => absent

/-- The elements of a collection. -/
def elems : Overlay κ σ ε → Set ε
  | seq s => s
  | _ => ∅

/-- `t` laid over `d`. -/
def merge (d : Overlay κ σ ε) : Overlay κ σ ε → Overlay κ σ ε
  | absent => d
  | null =>
      match d with
      | absent => absent
      | _ => null
  | leaf a => leaf a
  | seq s => seq (d.elems ∪ s)
  | map f => map fun k => merge (d.at' k) (f k)

/-- The same at the root, where a null is kept. -/
def put (d : Overlay κ σ ε) : Overlay κ σ ε → Overlay κ σ ε
  | null => null
  | t => merge d t

/-- In every place of both trees the same kind of value, and the same leaf. -/
def Compatible : Overlay κ σ ε → Overlay κ σ ε → Prop
  | absent, _ => True
  | _, absent => True
  | null, null => True
  | leaf a, leaf b => a = b
  | seq _, seq _ => True
  | map f, map g => ∀ k, Compatible (f k) (g k)
  | _, _ => False

@[simp] theorem merge_absent (d : Overlay κ σ ε) : merge d absent = d := rfl

@[simp] theorem absent_merge_null : merge (absent : Overlay κ σ ε) null = absent := rfl

@[simp] theorem merge_leaf (d : Overlay κ σ ε) (a : σ) : merge d (leaf a) = leaf a := rfl

@[simp] theorem merge_seq (d : Overlay κ σ ε) (s : Set ε) :
    merge d (seq s) = seq (d.elems ∪ s) := rfl

@[simp] theorem merge_map (d : Overlay κ σ ε) (f : κ → Overlay κ σ ε) :
    merge d (map f) = map fun k => merge (d.at' k) (f k) := rfl

theorem merge_null {d : Overlay κ σ ε} (h : d ≠ absent) : merge d null = null := by
  cases d with
  | absent => exact absurd rfl h
  | _ => rfl

@[simp] theorem compatible_absent (d : Overlay κ σ ε) : Compatible d absent := by
  cases d <;> exact trivial

/-- Only itself and nothing can stand where a leaf stands. -/
theorem compatible_leaf {a : σ} {d : Overlay κ σ ε} (h : d ≠ absent) :
    Compatible (leaf a) d ↔ d = leaf a := by
  cases d with
  | absent => exact absurd rfl h
  | leaf b =>
      rw [leaf.injEq]
      exact eq_comm
  | _ => simp [Compatible]

/-! ## The order of two -/

/-- Compatible trees can be laid over a third in either order. -/
theorem merge_right_comm {a b : Overlay κ σ ε} (h : Compatible a b) (d : Overlay κ σ ε) :
    merge (merge d a) b = merge (merge d b) a := by
  induction a generalizing b d with
  | absent => rfl
  | null =>
      cases b with
      | absent => rfl
      | null => rfl
      | _ => exact h.elim
  | leaf x =>
      cases b with
      | absent => rfl
      | leaf y =>
          obtain rfl : x = y := h
          rfl
      | _ => exact h.elim
  | seq s =>
      cases b with
      | absent => rfl
      | seq t =>
          show seq (d.elems ∪ s ∪ t) = seq (d.elems ∪ t ∪ s)
          rw [Set.union_right_comm]
      | _ => exact h.elim
  | map f ih =>
      cases b with
      | absent => rfl
      | map g =>
          have hfg : ∀ k, Compatible (f k) (g k) := h
          show map (fun k => merge (merge (d.at' k) (f k)) (g k)) =
            map (fun k => merge (merge (d.at' k) (g k)) (f k))
          exact congrArg map (funext fun k => ih k (hfg k) (d.at' k))
      | _ => exact h.elim

/-- If two trees can be laid over one third tree in either order, they are compatible. -/
theorem compatible_of_merge_comm {a b : Overlay κ σ ε} {d : Overlay κ σ ε}
    (h : merge (merge d a) b = merge (merge d b) a) : Compatible a b := by
  induction a generalizing b d with
  | absent => exact trivial
  | null =>
      cases b with
      | absent => exact trivial
      | null => exact trivial
      | _ =>
          rw [merge_null (d := merge d _) (by simp)] at h
          exact absurd h (by simp)
  | leaf x =>
      cases b with
      | absent => exact trivial
      | leaf y =>
          have hxy : leaf y = leaf x := h
          exact (leaf.inj hxy).symm
      | null =>
          rw [merge_null (d := merge d _) (by simp)] at h
          exact absurd h (by simp)
      | _ => exact absurd h (by simp)
  | seq s =>
      cases b with
      | absent => exact trivial
      | seq t => exact trivial
      | null =>
          rw [merge_null (d := merge d _) (by simp)] at h
          exact absurd h (by simp)
      | _ => exact absurd h (by simp)
  | map f ih =>
      cases b with
      | absent => exact trivial
      | map g =>
          have hfg := map.inj h
          exact fun k => ih k (congrFun hfg k)
      | null =>
          rw [merge_null (d := merge d _) (by simp)] at h
          exact absurd h (by simp)
      | _ => exact absurd h (by simp)

theorem put_eq_merge {t : Overlay κ σ ε} (h : t ≠ null) (d : Overlay κ σ ε) :
    put d t = merge d t := by
  cases t with
  | null => exact absurd rfl h
  | _ => rfl

theorem put_right_comm {a b : Overlay κ σ ε} (h : Compatible a b) (d : Overlay κ σ ε) :
    put (put d a) b = put (put d b) a := by
  by_cases ha : a = null
  · subst ha
    cases b with
    | absent => rfl
    | null => rfl
    | _ => exact h.elim
  · by_cases hb : b = null
    · subst hb
      cases a with
      | absent => rfl
      | null => rfl
      | _ => exact h.elim
    · rw [put_eq_merge ha, put_eq_merge hb, put_eq_merge hb, put_eq_merge ha,
        merge_right_comm h]

theorem Compatible.refl (a : Overlay κ σ ε) : Compatible a a := by
  induction a with
  | absent => exact trivial
  | null => exact trivial
  | leaf a => rfl
  | seq s => exact trivial
  | map f ih => exact ih

/-- Over null, only nothing and null leave null. -/
theorem eq_null_of_merge_null {b : Overlay κ σ ε} (h : merge null b = null) (hb : b ≠ absent) :
    b = null := by
  cases b with
  | absent => exact absurd rfl hb
  | null => rfl
  | leaf a => exact absurd h (by simp)
  | seq s => exact absurd h (by simp)
  | map f => exact absurd h (by simp)

/-- Only compatible trees can be put in either order. -/
theorem compatible_of_put_comm {a b d : Overlay κ σ ε} (ha : a ≠ absent) (hb : b ≠ absent)
    (h : put (put d a) b = put (put d b) a) : Compatible a b := by
  by_cases hanull : a = null
  · subst hanull
    by_cases hbnull : b = null
    · exact hbnull ▸ Compatible.refl null
    · rw [put_eq_merge hbnull] at h
      exact absurd (eq_null_of_merge_null h hb) hbnull
  · by_cases hbnull : b = null
    · subst hbnull
      rw [put_eq_merge hanull (put d null)] at h
      exact absurd (eq_null_of_merge_null h.symm ha) hanull
    · rw [put_eq_merge hanull, put_eq_merge hbnull, put_eq_merge hbnull, put_eq_merge hanull] at h
      exact compatible_of_merge_comm h

end Overlay

end Llmenv.Lib
