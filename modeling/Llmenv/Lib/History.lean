/-
# `Llmenv.Lib.History` — what a run has recorded so far

A history is the list of the records of a run, the newest one first, so that a
step adds its record in front.  `Since p q` is the "since" of past-time logic:
some record meets `p`, and no record after it meets `q`.  `countSince` counts
the records after the newest one that meets `stop`.  `Each P` holds each record
against the ones before it.
-/
import Mathlib.Data.List.Basic

namespace Llmenv.Lib

variable {α : Type}

/-- Some record meets `p`, and no newer one meets `q`. -/
def Since (p q : α → Prop) : List α → Prop
  | [] => False
  | a :: h => p a ∨ (¬ q a ∧ Since p q h)

/-- Each record meets `P` together with the records before it. -/
def Each (P : α → List α → Prop) : List α → Prop
  | [] => True
  | a :: h => P a h ∧ Each P h

theorem each_iff {P : α → List α → Prop} {h : List α} :
    Each P h ↔ ∀ newer a older, h = newer ++ a :: older → P a older := by
  induction h with
  | nil =>
      refine ⟨?_, fun _ => trivial⟩
      intro _ newer a older heq
      exact absurd heq.symm (by simp)
  | cons b h ih =>
      constructor
      · rintro ⟨hb, hh⟩ newer a older heq
        cases newer with
        | nil =>
            obtain ⟨rfl, rfl⟩ := List.cons.inj heq
            exact hb
        | cons c newer =>
            obtain ⟨rfl, rfl⟩ := List.cons.inj heq
            exact ih.mp hh newer a older rfl
      · intro hall
        refine ⟨hall [] b h rfl, ih.mpr ?_⟩
        intro newer a older heq
        exact hall (b :: newer) a older (by rw [heq]; rfl)

theorem Each.of_mem {P : α → List α → Prop} {h : List α} (hh : Each P h) {a : α} (ha : a ∈ h) :
    ∃ older, older ⊆ h ∧ P a older := by
  induction h with
  | nil => exact absurd ha (by simp)
  | cons b h ih =>
      rcases List.mem_cons.mp ha with rfl | ha
      · exact ⟨h, List.subset_cons_self _ _, hh.1⟩
      · obtain ⟨older, hsub, hP⟩ := ih hh.2 ha
        exact ⟨older, fun x hx => List.mem_cons_of_mem _ (hsub hx), hP⟩

/-- When no record has a mark of an older one, a mark is on one record. -/
theorem Each.eq_of_mark {μ : Type} {P : α → List α → Prop} {marks : α → List μ}
    (hP : ∀ a older, P a older → ∀ m ∈ marks a, m ∉ older.flatMap marks) {h : List α}
    (hh : Each P h) {a b : α} {m : μ} (ha : a ∈ h) (hb : b ∈ h) (hma : m ∈ marks a)
    (hmb : m ∈ marks b) : a = b := by
  induction h with
  | nil => exact absurd ha (by simp)
  | cons c h ih =>
      have hfresh := hP c h hh.1 m
      rcases List.mem_cons.mp ha with rfl | ha'
      · rcases List.mem_cons.mp hb with rfl | hb'
        · rfl
        · exact absurd (List.mem_flatMap_of_mem hb' hmb) (hfresh hma)
      · rcases List.mem_cons.mp hb with rfl | hb'
        · exact absurd (List.mem_flatMap_of_mem ha' hma) (hfresh hmb)
        · exact ih hh.2 ha' hb'

/-- When no record has the key of an older one, the keys are different. -/
theorem Each.nodup_filterMap {κ : Type} {P : α → List α → Prop} {key : α → Option κ}
    (hP : ∀ a older k, P a older → key a = some k → k ∉ older.filterMap key) {h : List α}
    (hh : Each P h) : (h.filterMap key).Nodup := by
  induction h with
  | nil => exact List.nodup_nil
  | cons a h ih =>
      cases hkey : key a with
      | none => rw [List.filterMap_cons_none hkey]; exact ih hh.2
      | some k =>
          rw [List.filterMap_cons_some hkey]
          exact List.nodup_cons.mpr ⟨hP a h k hh.1 hkey, ih hh.2⟩

/-- How many records meet `p` after the newest one that meets `stop`. -/
def countSince (stop p : α → Bool) : List α → Nat
  | [] => 0
  | a :: h => if stop a then 0 else (if p a then 1 else 0) + countSince stop p h

end Llmenv.Lib
