/-
# `Llmenv.Lib.Queue` — a queue seen call by call

`q n` is the queue before call `n`, and `added n` is what call `n` puts at its
end.  Between two calls a queue may lose entries anywhere, and it gains one only
at the end (`Served`).  The entry that call `i` added is still waiting before
call `n` when it was in the queue all along (`Waits`).  Every entry of the queue
waits from one call (`exists_waits`, `Waits.unique`), and two that wait stand in
the order of their calls (`Waits.before`).
-/
import Mathlib.Data.List.Nodup
import Mathlib.Order.Nat

namespace Llmenv.Lib

variable {α : Type}

/-- Of two entries of a list without duplicates, a part that has both keeps their order. -/
theorem before_of_sublist {a b : α} :
    ∀ {l l' : List α}, l'.Sublist l → l.Nodup → [a, b].Sublist l → a ∈ l' → b ∈ l' →
      [a, b].Sublist l'
  | _, _, .slnil, _, h, _, _ => h
  | _, _, .cons x hsub, hl, h, ha, hb => by
      cases h with
      | cons _ h => exact before_of_sublist hsub hl.of_cons h ha hb
      | cons_cons _ h =>
          -- `a` is at the head, and not in the rest that has the part.
          exact absurd (hsub.subset ha) (List.nodup_cons.mp hl).1
  | _, _, .cons_cons x hsub, hl, h, ha, hb => by
      obtain ⟨hx, hl'⟩ := List.nodup_cons.mp hl
      cases h with
      | cons _ h =>
          have hax : a ≠ x := fun e => hx (e ▸ h.subset List.mem_cons_self)
          have hbx : b ≠ x := fun e => hx (e ▸ h.subset (List.mem_cons_of_mem _ List.mem_cons_self))
          exact (before_of_sublist hsub hl' h ((List.mem_cons.mp ha).resolve_left hax)
            ((List.mem_cons.mp hb).resolve_left hbx)).cons x
      | cons_cons _ h =>
          have hbx : b ≠ a := fun e => hx (e ▸ h.subset List.mem_cons_self)
          exact (List.singleton_sublist.mpr ((List.mem_cons.mp hb).resolve_left hbx)).cons_cons a

/-- In a list without duplicates an entry that stands before another is found before it. -/
theorem mem_left_of_before {a b : α} {xs ys : List α} (hl : (xs ++ b :: ys).Nodup)
    (h : [a, b].Sublist (xs ++ b :: ys)) : a ∈ xs := by
  obtain ⟨l₁, l₂, heq, h₁, h₂⟩ := List.sublist_append_iff.mp h
  cases l₁ with
  | cons c l₁ =>
      obtain ⟨rfl, -⟩ := List.cons.inj heq
      exact h₁.subset List.mem_cons_self
  | nil =>
      -- Both would stand from `b` on, and `b` stands there once.
      obtain rfl : [a, b] = l₂ := heq
      have hb : b ∉ ys := (List.nodup_cons.mp (List.nodup_append.mp hl).2.1).1
      cases h₂ with
      | cons _ h₂ => exact absurd (h₂.subset (List.mem_cons_of_mem _ List.mem_cons_self)) hb
      | cons_cons _ h₂ => exact absurd (h₂.subset List.mem_cons_self) hb

/-- What each call may do to the queue. -/
structure Served (q : Nat → List α) (added : Nat → Option α) : Prop where
  start : q 0 = []
  fresh : ∀ n p, added n = some p → p ∉ q n
  next : ∀ n, ∃ kept, kept.Sublist (q n) ∧ q (n + 1) = kept ++ (added n).toList

/-- What call `i` added is in the queue up to call `n`. -/
def Waits (q : Nat → List α) (added : Nat → Option α) (i n : Nat) (p : α) : Prop :=
  added i = some p ∧ i < n ∧ ∀ k, i < k → k ≤ n → p ∈ q k

section Served

variable {q : Nat → List α} {added : Nat → Option α}

theorem Waits.mem {i n : Nat} {p : α} (h : Waits q added i n p) : p ∈ q n :=
  h.2.2 n h.2.1 (le_refl n)

theorem Waits.of_le {i n m : Nat} {p : α} (h : Waits q added i n p) (him : i < m) (hmn : m ≤ n) :
    Waits q added i m p :=
  ⟨h.1, him, fun k hik hkm => h.2.2 k hik (hkm.trans hmn)⟩

theorem Waits.succ {i n : Nat} {p : α} (h : Waits q added i n p) (hp : p ∈ q (n + 1)) :
    Waits q added i (n + 1) p := by
  refine ⟨h.1, Nat.lt_succ_of_lt h.2.1, ?_⟩
  intro k hik hk
  rcases Nat.le_or_eq_of_le_succ hk with hk | rfl
  · exact h.2.2 k hik hk
  · exact hp

theorem Served.nodup (hs : Served q added) (n : Nat) : (q n).Nodup := by
  induction n with
  | zero =>
      rw [hs.start]
      exact List.nodup_nil
  | succ n ih =>
      obtain ⟨kept, hkept, heq⟩ := hs.next n
      rw [heq, List.nodup_append]
      refine ⟨ih.sublist hkept, ?_, ?_⟩
      · cases added n <;> simp
      · rintro p hp p' hp' rfl
        exact hs.fresh n p (Option.mem_toList.mp hp') (hkept.subset hp)

/-- What stays in the queue is in the part that the call kept. -/
theorem Served.mem_kept (hs : Served q added) {n : Nat} {kept : List α} {p : α}
    (heq : q (n + 1) = kept ++ (added n).toList) (hp : p ∈ q n) (hp' : p ∈ q (n + 1)) :
    p ∈ kept := by
  rw [heq] at hp'
  rcases List.mem_append.mp hp' with hp' | hp'
  · exact hp'
  · exact absurd hp (hs.fresh n p (Option.mem_toList.mp hp'))

/-- Every entry of the queue has waited since some call. -/
theorem Served.exists_waits (hs : Served q added) {n : Nat} {p : α} (hp : p ∈ q n) :
    ∃ i, Waits q added i n p := by
  induction n with
  | zero =>
      rw [hs.start] at hp
      exact absurd hp List.not_mem_nil
  | succ n ih =>
      by_cases hn : p ∈ q n
      · obtain ⟨i, hi⟩ := ih hn
        exact ⟨i, hi.succ hp⟩
      · obtain ⟨kept, hkept, heq⟩ := hs.next n
        have hp' := heq ▸ hp
        rcases List.mem_append.mp hp' with h | h
        · exact absurd (hkept.subset h) hn
        · refine ⟨n, Option.mem_toList.mp h, Nat.lt_succ_self n, ?_⟩
          intro k hnk hk
          obtain rfl : k = n + 1 := Nat.le_antisymm hk hnk
          exact hp

/-- It has waited since one call only. -/
theorem Waits.unique (hs : Served q added) {i j n : Nat} {p : α} (hi : Waits q added i n p)
    (hj : Waits q added j n p) : i = j := by
  -- The later of two such calls would have added what was in the queue.
  have hearlier : ∀ {i j : Nat}, Waits q added i n p → Waits q added j n p → ¬ i < j :=
    fun hi hj hij => hs.fresh _ p hj.1 (hi.2.2 _ hij hj.2.1.le)
  exact Nat.le_antisymm (not_lt.mp (hearlier hj hi)) (not_lt.mp (hearlier hi hj))

/-- Two entries that wait stand in the order of the calls that added them. -/
theorem Waits.before (hs : Served q added) {i j n : Nat} {a b : α} (ha : Waits q added i n a)
    (hb : Waits q added j n b) (hij : i < j) : [a, b].Sublist (q n) := by
  induction n with
  | zero => exact absurd hb.2.1 (Nat.not_lt_zero j)
  | succ n ih =>
      obtain ⟨kept, hkept, heq⟩ := hs.next n
      have hjn : j ≤ n := Nat.lt_succ_iff.mp hb.2.1
      have han : Waits q added i n a := ha.of_le (lt_of_lt_of_le hij hjn) (Nat.le_succ n)
      have hakept : a ∈ kept := hs.mem_kept heq han.mem ha.mem
      rcases Nat.lt_or_eq_of_le hjn with hjn | rfl
      · have hbn : Waits q added j n b := hb.of_le hjn (Nat.le_succ n)
        have hbkept : b ∈ kept := hs.mem_kept heq hbn.mem hb.mem
        rw [heq]
        exact (before_of_sublist hkept (hs.nodup n) (ih han hbn) hakept hbkept).trans
          (List.sublist_append_left _ _)
      · -- The call has just put `b` at the end.
        rw [heq, hb.1]
        exact (List.singleton_sublist.mpr hakept).append (List.Sublist.refl [b])

end Served

end Llmenv.Lib
