/-
# `Llmenv.Lib.Runs` — runs of a step function, and runs under a guard

A system is a total step function `step : σ → ι → σ`: the caller picks an
input `ι`, the state moves.  A refused call is a step that stays where it is.
`runFrom` is the state after a list of inputs, and since every prefix of a
list is a list, a statement about `runFrom step s is` for all `is` is a
statement about EVERY state the run passes through.

`Guarded step G s is` says that each input of the list meets `G` in the state
in which it is taken.  `inv_of_guarded` is the induction rule for safety: an
invariant that every guarded step keeps holds after every guarded run.
-/
import Mathlib.Data.List.Basic

namespace Llmenv.Lib

section Function

variable {σ ι : Type} (step : σ → ι → σ) (G : σ → ι → Prop)

/-- The state after the inputs `is`. -/
def runFrom (s : σ) (is : List ι) : σ := is.foldl step s

@[simp] theorem runFrom_nil (s : σ) : runFrom step s [] = s := rfl

@[simp] theorem runFrom_cons (s : σ) (i : ι) (is : List ι) :
    runFrom step s (i :: is) = runFrom step (step s i) is := rfl

theorem runFrom_append (s : σ) (is js : List ι) :
    runFrom step s (is ++ js) = runFrom step (runFrom step s is) js :=
  List.foldl_append

/-- Every input meets the guard in the state in which it is taken. -/
def Guarded : σ → List ι → Prop
  | _, [] => True
  | s, i :: is => G s i ∧ Guarded (step s i) is

instance decidableGuarded [∀ s i, Decidable (G s i)] :
    ∀ (s : σ) (is : List ι), Decidable (Guarded step G s is)
  | _, [] => isTrue trivial
  | s, i :: is =>
      have := decidableGuarded (step s i) is
      inferInstanceAs (Decidable (G s i ∧ Guarded step G (step s i) is))

variable {step G}

/-- A condition on the inputs alone is a guard. -/
theorem guarded_of_forall {P : ι → Prop} {s : σ} {is : List ι} (hP : ∀ i ∈ is, P i) :
    Guarded step (fun _ i => P i) s is := by
  induction is generalizing s with
  | nil => trivial
  | cons i is ih => exact ⟨hP i List.mem_cons_self, ih fun j hj => hP j (List.mem_cons_of_mem _ hj)⟩

/-- Two guards are one. -/
theorem Guarded.and {H : σ → ι → Prop} {s : σ} {is : List ι} (hg : Guarded step G s is)
    (hh : Guarded step H s is) : Guarded step (fun s i => G s i ∧ H s i) s is := by
  induction is generalizing s with
  | nil => trivial
  | cons i is ih => exact ⟨⟨hg.1, hh.1⟩, ih hg.2 hh.2⟩

theorem guarded_append {s : σ} {is js : List ι} :
    Guarded step G s (is ++ js) ↔ Guarded step G s is ∧ Guarded step G (runFrom step s is) js := by
  induction is generalizing s with
  | nil => simp [Guarded]
  | cons i is ih => simp [Guarded, ih, and_assoc]

/-- An invariant that every guarded step keeps holds after a guarded run. -/
theorem inv_of_guarded (Inv : σ → Prop)
    (hstep : ∀ s i, Inv s → G s i → Inv (step s i)) {s : σ} {is : List ι}
    (hs : Inv s) (hg : Guarded step G s is) : Inv (runFrom step s is) := by
  induction is generalizing s with
  | nil => exact hs
  | cons i is ih => exact ih (hstep s i hs hg.1) hg.2

/-- An invariant that every step keeps gives a guard that it implies. -/
theorem guarded_of_inv (Inv : σ → Prop) (hstep : ∀ s i, Inv s → Inv (step s i))
    (hG : ∀ s i, Inv s → G s i) {s : σ} (hs : Inv s) (is : List ι) : Guarded step G s is := by
  induction is generalizing s with
  | nil => trivial
  | cons i is ih => exact ⟨hG s i hs, ih (hstep s i hs)⟩

/-- An invariant that every step keeps holds after every run. -/
theorem inv_of_run (Inv : σ → Prop) (hstep : ∀ s i, Inv s → Inv (step s i)) {s : σ}
    (hs : Inv s) (is : List ι) : Inv (runFrom step s is) := by
  induction is generalizing s with
  | nil => exact hs
  | cons i is ih => exact ih (hstep s i hs)

end Function

end Llmenv.Lib
