/-
# `Llmenv.Lib.Streak` — how often the newest entry of a history was repeated

A history has its newest entry first.  `streak x xs` is the number of entries
equal to `x` in front of the first other one, so a streak of `n` says that the
newest `n` entries are all `x` (`le_streak_iff`).

A program does not keep the history.  It keeps the newest entry and a counter
that stops at `cap`; `count` is its step and `tally` what it has of a history
(`count_tally`).
-/
import Mathlib.Data.List.Basic

namespace Llmenv.Lib.Streak

variable {α : Type} [DecidableEq α]

def streak (x : α) : List α → Nat
  | [] => 0
  | y :: ys => if y = x then streak x ys + 1 else 0

@[simp] theorem streak_nil (x : α) : streak x [] = 0 := rfl

@[simp] theorem streak_cons_self (x : α) (xs : List α) : streak x (x :: xs) = streak x xs + 1 :=
  if_pos rfl

theorem streak_cons_of_ne {x y : α} (h : y ≠ x) (ys : List α) : streak x (y :: ys) = 0 := if_neg h

/-- The newest `n` entries are all `x`. -/
theorem le_streak_iff (x : α) :
    ∀ (n : Nat) (xs : List α), n ≤ streak x xs ↔ xs.take n = List.replicate n x
  | 0, _ => by simp
  | n + 1, [] => by simp
  | n + 1, y :: ys => by
      by_cases h : y = x
      · subst h
        simp [List.replicate_succ, le_streak_iff y n ys]
      · simp [streak_cons_of_ne h, List.replicate_succ, h]

section Counter

variable (cap : Nat)

/-- One more entry: the counter goes up if it is the last one again. -/
def count : Option α × Nat → α → Option α × Nat
  | (last, n), x => if last = some x then (last, min (n + 1) cap) else (some x, 1)

/-- The newest entry of a history, and its streak as far as `cap`. -/
def tally : List α → Option α × Nat
  | [] => (none, 0)
  | x :: xs => (some x, min (streak x (x :: xs)) cap)

variable {cap}

theorem count_tally (hcap : 1 ≤ cap) (x : α) (xs : List α) :
    count cap (tally cap xs) x = tally cap (x :: xs) := by
  cases xs with
  | nil => simp [count, tally, hcap]
  | cons y ys =>
      by_cases h : y = x
      · subst h
        simp only [count, tally, streak_cons_self, if_pos]
        congr 1
        omega
      · simp [count, tally, h, streak_cons_of_ne h, hcap]

end Counter

end Llmenv.Lib.Streak
