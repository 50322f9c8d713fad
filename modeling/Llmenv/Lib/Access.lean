/-
# `Llmenv.Lib.Access` — reads and writes along a path

A step into a value reads the child that is there, if there is one, or writes a
child.  `Access` holds the laws of a single step; the same laws then hold along
a path of any length:

  * what was written is read back (`get_set`);
  * the last write counts (`set_set`);
  * to write what is there changes nothing (`set_get`);
  * a path that parts from the written one reads what it read before
    (`get_set_of_apart`), where no value on the way is replaced by one of
    another kind.
-/
import Mathlib.Data.List.Basic

namespace Llmenv.Lib

/-- How the steps `σ` lead into the values `ν`. -/
structure Access (σ ν : Type) where
  child : σ → ν → Option ν
  put : σ → ν → ν → ν
  /-- What stands for a child that is missing. -/
  blank : ν
  /-- The values on which a write of what is there changes nothing. -/
  Ok : ν → Prop
  /-- The value is of the kind that the step goes into. -/
  Takes : σ → ν → Prop
  child_put : ∀ s v c, child s (put s v c) = some c
  put_put : ∀ s v c d, put s (put s v c) d = put s v d
  put_child : ∀ {s v c}, Ok v → child s v = some c → put s v c = v
  child_put_of_ne : ∀ {s t v d}, s ≠ t → Takes s v → child t v = some d →
    ∀ c, child t (put s v c) = some d
  ok_blank : Ok blank
  ok_child : ∀ {s v c}, Ok v → child s v = some c → Ok c
  ok_put : ∀ {v c} s, Ok v → Ok c → Ok (put s v c)

namespace Access

variable {σ ν : Type} (A : Access σ ν)

def get : ν → List σ → Option ν
  | v, [] => some v
  | v, s :: p => (A.child s v).bind fun c => get c p

def set : ν → List σ → ν → ν
  | _, [], x => x
  | v, s :: p, x => A.put s v (set ((A.child s v).getD A.blank) p x)

/-- The value at the path changed by a function that also says whether it did something. -/
def modify (f : ν → ν × Bool) : ν → List σ → ν × Bool
  | v, [] => f v
  | v, s :: p =>
      match A.child s v with
      | none => (v, false)
      | some c => (A.put s v (modify f c p).1, (modify f c p).2)

/-- Every value on the way is of the kind that the next step goes into. -/
def TakesAlong (v : ν) (p : List σ) : Prop :=
  ∀ p₁ s p₂ w, p = p₁ ++ s :: p₂ → A.get v p₁ = some w → A.Takes s w

variable {A}

theorem get_cons {v c : ν} {s : σ} (h : A.child s v = some c) (p : List σ) :
    A.get v (s :: p) = A.get c p := by
  rw [get, h, Option.bind_some]

theorem get_append (v : ν) (p q : List σ) :
    A.get v (p ++ q) = (A.get v p).bind fun w => A.get w q := by
  induction p generalizing v with
  | nil => rfl
  | cons s p ih =>
      rw [List.cons_append, get, get, Option.bind_assoc]
      exact congrArg _ (funext ih)

theorem get_set (v : ν) (p : List σ) (x : ν) : A.get (A.set v p x) p = some x := by
  induction p generalizing v with
  | nil => rfl
  | cons s p ih =>
      rw [set, get_cons (A.child_put s v _)]
      exact ih _

theorem set_set (v : ν) (p : List σ) (x y : ν) : A.set (A.set v p x) p y = A.set v p y := by
  induction p generalizing v with
  | nil => rfl
  | cons s p ih => rw [set, set, A.child_put, Option.getD_some, A.put_put, ih, set]

theorem set_get {v : ν} {p : List σ} {x : ν} (hv : A.Ok v) (h : A.get v p = some x) :
    A.set v p x = v := by
  induction p generalizing v with
  | nil => exact (Option.some.inj h).symm
  | cons s p ih =>
      obtain ⟨c, hc, hx⟩ := Option.bind_eq_some_iff.mp h
      rw [set, hc, Option.getD_some, ih (A.ok_child hv hc) hx]
      exact A.put_child hv hc

theorem TakesAlong.head {v : ν} {s : σ} {p : List σ} (h : A.TakesAlong v (s :: p)) :
    A.Takes s v := h [] s p v rfl rfl

theorem TakesAlong.tail {v c : ν} {s : σ} {p : List σ} (h : A.TakesAlong v (s :: p))
    (hc : A.child s v = some c) : A.TakesAlong c p := by
  intro p₁ t p₂ w hp hw
  refine h (s :: p₁) t p₂ w (by rw [hp, List.cons_append]) ?_
  rw [get_cons hc]
  exact hw

/-- A write is not seen by a path that parts from the written one. -/
theorem get_set_of_apart {v w : ν} {p q : List σ} (hpq : ¬ p <+: q) (hqp : ¬ q <+: p)
    (hp : A.TakesAlong v p) (hq : A.get v q = some w) (x : ν) :
    A.get (A.set v p x) q = some w := by
  induction p generalizing v q with
  | nil => exact absurd List.nil_prefix hpq
  | cons s p ih =>
      cases q with
      | nil => exact absurd List.nil_prefix hqp
      | cons t q =>
          obtain ⟨d, hd, hw⟩ := Option.bind_eq_some_iff.mp hq
          by_cases hst : s = t
          · subst hst
            -- The paths part further down, below the same child.
            have hpq' : ¬ p <+: q := fun h => hpq ((List.prefix_cons_inj s).mpr h)
            have hqp' : ¬ q <+: p := fun h => hqp ((List.prefix_cons_inj s).mpr h)
            rw [set, get_cons (A.child_put s v _), hd, Option.getD_some]
            exact ih hpq' hqp' (hp.tail hd) hw
          · rw [set, get_cons (A.child_put_of_ne hst hp.head hd _)]
            exact hw

theorem ok_set {v x : ν} {p : List σ} (hv : A.Ok v) (hx : A.Ok x) : A.Ok (A.set v p x) := by
  induction p generalizing v with
  | nil => exact hx
  | cons s p ih =>
      refine A.ok_put s hv (ih ?_)
      cases hc : A.child s v with
      | none => exact A.ok_blank
      | some c => exact A.ok_child hv hc

/-- Where nothing was done at the end of the path, nothing was done. -/
theorem modify_unchanged {f : ν → ν × Bool} (hf : ∀ v, A.Ok v → (f v).2 = false → (f v).1 = v)
    {v : ν} {p : List σ} (hv : A.Ok v) (h : (A.modify f v p).2 = false) :
    (A.modify f v p).1 = v := by
  induction p generalizing v with
  | nil => exact hf v hv h
  | cons s p ih =>
      rw [modify] at h ⊢
      cases hc : A.child s v with
      | none => rfl
      | some c =>
          simp only [hc] at h ⊢
          rw [ih (A.ok_child hv hc) h]
          exact A.put_child hv hc

/-- Something was done when there is a value at the path, and it was done to it. -/
theorem modify_changed_iff {f : ν → ν × Bool} {v : ν} {p : List σ} :
    (A.modify f v p).2 = true ↔ ∃ w, A.get v p = some w ∧ (f w).2 = true := by
  induction p generalizing v with
  | nil => simp [modify, get]
  | cons s p ih =>
      rw [modify]
      cases hc : A.child s v with
      | none => simp [get, hc]
      | some c =>
          rw [get_cons hc]
          exact ih

end Access

end Llmenv.Lib
