/-
# `Llmenv.Lib.FirstN` — the first `n` elements of an ordered set

`firstN n s` is what a walk over an ordered set keeps when it stops after `n`
elements.  Whether an element is among them depends only on how many elements
are below it (`mem_firstN`), so a proof about a cap counts and never sorts.
-/
import Mathlib.Data.Finset.Sort

namespace Llmenv.Lib

variable {α : Type} [LinearOrder α]

/-- The `n` smallest elements of `s`, or all of them. -/
def firstN (n : Nat) (s : Finset α) : Finset α :=
  ((s.sort (· ≤ ·)).take n).toFinset

theorem mem_take_of_pairwise_lt {x : α} :
    ∀ {l : List α} (n : Nat), l.Pairwise (· < ·) →
      (x ∈ l.take n ↔ x ∈ l ∧ (l.filter (fun y => decide (y < x))).length < n)
  | [], n, _ => by simp
  | a :: l, 0, _ => by simp
  | a :: l, n + 1, hl => by
      obtain ⟨ha, hl'⟩ := List.pairwise_cons.mp hl
      have ih := mem_take_of_pairwise_lt (x := x) n hl'
      rw [List.take_succ_cons, List.mem_cons, List.mem_cons, ih]
      by_cases hx : x = a
      · -- Nothing in the list is below its head.
        subst hx
        have hnone : l.filter (fun y => decide (y < x)) = [] := by
          rw [List.filter_eq_nil_iff]
          intro y hy
          simpa using (ha y hy).le
        simp [hnone]
      · constructor
        · rintro (h | ⟨hmem, hlen⟩)
          · exact absurd h hx
          · refine ⟨Or.inr hmem, ?_⟩
            rw [List.filter_cons_of_pos (by simpa using ha x hmem), List.length_cons]
            exact Nat.succ_lt_succ hlen
        · rintro ⟨h | hmem, hlen⟩
          · exact absurd h hx
          · refine Or.inr ⟨hmem, ?_⟩
            rw [List.filter_cons_of_pos (by simpa using ha x hmem), List.length_cons] at hlen
            exact Nat.lt_of_succ_lt_succ hlen

/-- An element is kept when fewer than `n` elements are below it. -/
theorem mem_firstN {n : Nat} {s : Finset α} {x : α} :
    x ∈ firstN n s ↔ x ∈ s ∧ (s.filter (· < x)).card < n := by
  have hsorted : (s.sort (· ≤ ·)).Pairwise (· < ·) :=
    (s.pairwise_sort (· ≤ ·)).and (s.sort_nodup (· ≤ ·)) |>.imp
      fun h => lt_of_le_of_ne h.1 h.2
  have hcard : (s.filter (· < x)).card =
      ((s.sort (· ≤ ·)).filter (fun y => decide (y < x))).length := by
    rw [← List.toFinset_card_of_nodup ((s.sort_nodup (· ≤ ·)).filter _), List.toFinset_filter,
      s.sort_toFinset]
    simp
  rw [firstN, List.mem_toFinset, mem_take_of_pairwise_lt n hsorted, Finset.mem_sort, hcard]

end Llmenv.Lib
