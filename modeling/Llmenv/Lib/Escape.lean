/-
# `Llmenv.Lib.Escape` — escaping with one symbol, and who is escaped

Over any type of symbols: a symbol `esc` put before each symbol of a set, and a
reader that goes from left to right, for whom an `esc` that is not escaped itself
escapes what comes next.

Three facts are needed of it.  The escape may be written in several passes, one
symbol each, as long as `esc` had its pass first.  Dropping the `esc` before each
escaped symbol undoes it.  And whether the reader takes a symbol as escaped is
the parity of the run of `esc` before it.
-/
import Mathlib.Algebra.Ring.Parity
import Mathlib.Data.List.Basic
import Mathlib.Data.List.Induction

namespace Llmenv.Lib.Escape

variable {α : Type} [DecidableEq α] {esc : α} {special xs : List α}

/-- `into` in the place of each `a`. -/
def replace (a : α) (into : List α) (xs : List α) : List α :=
  xs.flatMap (fun x => if x = a then into else [x])

/-- `esc` before each symbol of `special`, in one pass. -/
def escape (esc : α) (special : List α) (xs : List α) : List α :=
  xs.flatMap (fun x => if x ∈ special then [esc, x] else [x])

/-- The symbols, each without the `esc` that escapes it. -/
def unescape (esc : α) : List α → List α
  | [] => []
  | [x] => [x]
  | x :: y :: xs => if x = esc then y :: unescape esc xs else x :: unescape esc (y :: xs)

/-- Whether a reader who starts with the flag `armed` takes the symbol after
`xs` as escaped. -/
def escapes (esc : α) (armed : Bool) (xs : List α) : Bool :=
  xs.foldl (fun armed x => !armed && decide (x = esc)) armed

/-- The length of the run of `esc` at the end. -/
def trailing (esc : α) (xs : List α) : Nat := (xs.reverse.takeWhile (fun x => decide (x = esc))).length

/-! ## Writing the escape -/

@[simp] theorem escape_nil : escape esc special [] = [] := rfl

theorem escape_cons_of_mem {x : α} (hx : x ∈ special) :
    escape esc special (x :: xs) = esc :: x :: escape esc special xs := by
  simp only [escape, List.flatMap_cons, if_pos hx, List.cons_append, List.nil_append]

theorem escape_cons_of_notMem {x : α} (hx : x ∉ special) :
    escape esc special (x :: xs) = x :: escape esc special xs := by
  simp only [escape, List.flatMap_cons, if_neg hx, List.cons_append, List.nil_append]

/-- The first pass. -/
theorem replace_eq_escape (esc : α) (xs : List α) : replace esc [esc, esc] xs = escape esc [esc] xs := by
  refine List.flatMap_congr ?_
  intro x _
  by_cases hx : x = esc
  · rw [if_pos hx, if_pos (by rw [hx]; exact List.mem_cons_self), hx]
  · rw [if_neg hx, if_neg (by rwa [List.mem_singleton])]

/-- Each later pass: what the passes before put in is `esc`, which is not replaced
any more. -/
theorem replace_escape {a : α} (hesc : a ≠ esc) (ha : a ∉ special) (xs : List α) :
    replace a [esc, a] (escape esc special xs) = escape esc (a :: special) xs := by
  rw [replace, escape, escape, List.flatMap_assoc]
  refine List.flatMap_congr ?_
  intro x _
  by_cases hx : x ∈ special
  · have hxa : x ≠ a := fun h => ha (h ▸ hx)
    rw [if_pos hx, if_pos (List.mem_cons_of_mem a hx)]
    simp only [List.flatMap_cons, List.flatMap_nil, if_neg (Ne.symm hesc), if_neg hxa,
      List.append_nil, List.cons_append, List.nil_append]
  · rw [if_neg hx, List.flatMap_singleton]
    by_cases hxa : x = a
    · rw [if_pos hxa, if_pos (by rw [hxa]; exact List.mem_cons_self), hxa]
    · rw [if_neg hxa, if_neg (by rw [List.mem_cons]; exact not_or.mpr ⟨hxa, hx⟩)]

/-- The escape can be taken back, where `esc` itself is escaped. -/
theorem unescape_escape (hesc : esc ∈ special) : ∀ xs : List α,
    unescape esc (escape esc special xs) = xs
  | [] => rfl
  | x :: xs => by
      have ih := unescape_escape hesc xs
      by_cases hx : x ∈ special
      · rw [escape_cons_of_mem hx, unescape, if_pos rfl, ih]
      · have hxe : x ≠ esc := fun h => hx (h ▸ hesc)
        rw [escape_cons_of_notMem hx]
        cases hrest : escape esc special xs with
        | nil =>
            rw [hrest] at ih
            rw [unescape, ← ih]
            rfl
        | cons y ys =>
            rw [unescape, if_neg hxe, ← hrest, ih]

/-! ## Reading it -/

@[simp] theorem escapes_nil (armed : Bool) : escapes esc armed [] = armed := rfl

theorem escapes_cons (armed : Bool) (x : α) (xs : List α) :
    escapes esc armed (x :: xs) = escapes esc (!armed && decide (x = esc)) xs := rfl

theorem escapes_append (armed : Bool) (xs ys : List α) :
    escapes esc armed (xs ++ ys) = escapes esc (escapes esc armed xs) ys :=
  List.foldl_append

theorem trailing_concat (xs : List α) (x : α) :
    trailing esc (xs ++ [x]) = if x = esc then trailing esc xs + 1 else 0 := by
  rw [trailing, List.reverse_concat, List.takeWhile_cons]
  by_cases hx : x = esc
  · simp only [hx, decide_true, if_true, List.length_cons, trailing]
  · simp only [hx, decide_false, if_false, List.length_nil, Bool.false_eq_true]

/-- A symbol is escaped when the run of `esc` before it is odd. -/
theorem escapes_iff (xs : List α) : escapes esc false xs = true ↔ Odd (trailing esc xs) := by
  induction xs using List.reverseRecOn with
  | nil => exact iff_of_false Bool.false_ne_true (by simp [trailing])
  | append_singleton xs x ih =>
      rw [escapes_append, trailing_concat, escapes_cons, escapes_nil]
      by_cases hx : x = esc
      · rw [if_pos hx, Nat.odd_add_one, ← ih]
        simp only [hx, decide_true, Bool.and_true, Bool.not_eq_true']
        exact Bool.not_eq_true _ ▸ Iff.rfl
      · rw [if_neg hx]
        simp only [hx, decide_false, Bool.and_false]
        exact iff_of_false Bool.false_ne_true (by simp)

/-- In an escaped text the reader takes every symbol of `special` but `esc` as
escaped, and is back where it was at the end. -/
theorem escapes_escape_prefix (hesc : esc ∈ special) : ∀ {xs pre post : List α} {x : α},
    escape esc special xs = pre ++ x :: post → x ∈ special → x ≠ esc →
    escapes esc false pre = true
  | [], pre, post, x, h, _, _ => by
      rw [escape_nil] at h
      exact absurd h.symm (List.append_ne_nil_of_right_ne_nil _ (List.cons_ne_nil _ _))
  | y :: xs, pre, post, x, h, hx, hxe => by
      by_cases hy : y ∈ special
      · rw [escape_cons_of_mem hy] at h
        match pre, h with
        | [], h => exact absurd (List.cons.inj h).1.symm hxe
        | [_], h =>
            obtain ⟨rfl, _⟩ := List.cons.inj h
            rw [escapes_cons, escapes_nil]
            simp
        | a :: b :: pre, h =>
            obtain ⟨rfl, htail⟩ := List.cons.inj h
            obtain ⟨rfl, hrest⟩ := List.cons.inj htail
            rw [escapes_cons, escapes_cons]
            simpa using escapes_escape_prefix hesc hrest hx hxe
      · rw [escape_cons_of_notMem hy] at h
        match pre, h with
        | [], h => exact absurd ((List.cons.inj h).1 ▸ hx) hy
        | a :: pre, h =>
            obtain ⟨rfl, hrest⟩ := List.cons.inj h
            have hne : y ≠ esc := fun e => hy (e ▸ hesc)
            rw [escapes_cons]
            simpa [hne] using escapes_escape_prefix hesc hrest hx hxe

end Llmenv.Lib.Escape
