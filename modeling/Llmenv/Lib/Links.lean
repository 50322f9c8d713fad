/-
# `Llmenv.Lib.Links` — records that name at most one other record

A field such as `parent` makes a store a graph in which every node has at
most one outgoing link: a function `f : α → Option α`.  `Link f a b` says `a`
names `b`, and reaching is Mathlib's `ReflTransGen`/`TransGen` over it.

`Acyclic f` is "following the links never comes back".  Two facts carry every
proof about a store that changes one record at a time:

  * dropping links keeps a graph acyclic (`Acyclic.of_le`);
  * pointing ONE node `a` at `b` keeps it acyclic exactly when `b` did not
    reach `a` already (`acyclic_update_iff`).  It does not matter whether `a`
    had a link before: a path from `b` to its FIRST arrival at `a` never uses
    the link of `a`.

A node whose own links come to no loop needs no acyclic store: among finitely
many nodes its chain ends (`NoLoopFrom.exists_end`).
-/
import Mathlib.Data.List.Perm.Subperm
import Mathlib.Logic.Relation
import Mathlib.Logic.Function.Basic

namespace Llmenv.Lib

open Relation

section Links

variable {α : Type} {f g : α → Option α} {a b c : α}

/-- `a` names `b`. -/
def Link (f : α → Option α) (a b : α) : Prop := f a = some b

/-- Following the links from `a` leads to `b`, in any number of steps. -/
abbrev Reaches (f : α → Option α) : α → α → Prop := ReflTransGen (Link f)

/-- Following the links never comes back to where it started. -/
def Acyclic (f : α → Option α) : Prop := ∀ a, ¬ TransGen (Link f) a a

theorem Acyclic.of_le (hf : Acyclic f) (h : ∀ a b, Link g a b → Link f a b) :
    Acyclic g :=
  fun a hg => hf a (TransGen.mono h a a hg)

/-- Nodes without links reach only themselves. -/
theorem eq_of_reaches_of_none (hn : f a = none) (h : Reaches f a b) :
    b = a := by
  rcases ReflTransGen.cases_head h with rfl | ⟨c, hac, -⟩
  · rfl
  · simp [Link, hn] at hac

/-- The links from `a` come to no loop. -/
def NoLoopFrom (f : α → Option α) (a : α) : Prop :=
  ∀ b, Reaches f a b → ¬ TransGen (Link f) b b

theorem noLoopFrom_of_none (h : f a = none) : NoLoopFrom f a := by
  intro b hab hloop
  obtain rfl := eq_of_reaches_of_none h hab
  obtain ⟨c, hbc, -⟩ := TransGen.head'_iff.mp hloop
  exact absurd (h.symm.trans hbc) (by simp)

/-- A loop of `a` would be a loop of what it names. -/
theorem NoLoopFrom.of_link (h : NoLoopFrom f b) (hab : Link f a b) : NoLoopFrom f a := by
  intro c hac hloop
  rcases ReflTransGen.cases_head hac with rfl | ⟨d, had, hdc⟩
  · obtain ⟨d, had, hda⟩ := TransGen.head'_iff.mp hloop
    obtain rfl : b = d := Option.some.inj (hab.symm.trans had)
    exact h b .refl (TransGen.tail' hda hab)
  · obtain rfl : b = d := Option.some.inj (hab.symm.trans had)
    exact h c hdc hloop

/-- Among finitely many nodes a chain of links that comes to no loop ends. -/
theorem NoLoopFrom.exists_end {nodes : List α} (h : NoLoopFrom f a)
    (hnodes : ∀ a b, Link f a b → a ∈ nodes) : ∃ b, Reaches f a b ∧ f b = none := by
  -- The nodes of the chain so far are different, so there are not more of them than nodes.
  have hchain : ∀ n (seen : List α) (c : α), nodes.length < n + seen.length → seen.Nodup →
      seen ⊆ nodes → Reaches f a c → (∀ s ∈ seen, TransGen (Link f) s c) →
      ∃ b, Reaches f a b ∧ f b = none := by
    intro n
    induction n with
    | zero =>
        intro seen c hlen hnodup hsub _ _
        have hle := (List.subperm_of_subset hnodup hsub).length_le
        omega
    | succ n ih =>
        intro seen c hlen hnodup hsub hac hseen
        cases hc : f c with
        | none => exact ⟨c, hac, hc⟩
        | some d =>
            have hnew : c ∉ seen := fun hmem => h c hac (hseen c hmem)
            refine ih (c :: seen) d (by rw [List.length_cons]; omega)
              (List.nodup_cons.mpr ⟨hnew, hnodup⟩)
              (List.cons_subset.mpr ⟨hnodes c d hc, hsub⟩) (hac.tail hc) ?_
            intro s hs
            rcases List.mem_cons.mp hs with rfl | hs
            · exact .single hc
            · exact (hseen s hs).tail hc
  exact hchain (nodes.length + 1) [] a (by simp) List.nodup_nil (List.nil_subset _) .refl
    (fun _ hs => absurd hs List.not_mem_nil)

variable [DecidableEq α]

/-- Away from `a`, updating the link of `a` changes nothing. -/
theorem link_update_of_ne {o : Option α} (h : c ≠ a) :
    Link (Function.update f a o) c b ↔ Link f c b := by
  simp [Link, Function.update_of_ne h]

theorem link_update_self {o : Option α} :
    Link (Function.update f a o) a b ↔ o = some b := by
  simp [Link]

/-- A path that does not come back to `a` does not use the link of `a`: it is
a path of the updated graph up to its first arrival at `a`. -/
theorem reaches_update_of_reaches {o : Option α} (h : Reaches f b c) :
    Reaches (Function.update f a o) b c ∨
      Reaches (Function.update f a o) b a := by
  induction h with
  | refl => exact Or.inl .refl
  | @tail d e _ hde ih =>
      rcases ih with hbd | hba
      · by_cases hd : d = a
        · exact Or.inr (hd ▸ hbd)
        · exact Or.inl (hbd.tail ((link_update_of_ne hd).mpr hde))
      · exact Or.inr hba

/-- The converse direction: a path of the updated graph is an old path, or it
passes through `a`. -/
theorem reaches_of_reaches_update {o : Option α}
    (h : Reaches (Function.update f a o) b c) :
    Reaches f b c ∨ Reaches f b a := by
  induction h with
  | refl => exact Or.inl .refl
  | @tail d e _ hde ih =>
      rcases ih with hbd | hba
      · by_cases hd : d = a
        · exact Or.inr (hd ▸ hbd)
        · exact Or.inl (hbd.tail ((link_update_of_ne hd).mp hde))
      · exact Or.inr hba

/-- A cycle of the updated graph passes through `a`, or is an old cycle. -/
theorem acyclic_update_none (hf : Acyclic f) : Acyclic (Function.update f a none) := by
  refine hf.of_le fun c d hcd => ?_
  by_cases hc : c = a
  · subst hc
    exact absurd (link_update_self.mp hcd) (by simp)
  · exact (link_update_of_ne hc).mp hcd

/-- Pointing `a` at `b` closes a cycle exactly when `b` reached `a`. -/
theorem acyclic_update_iff (hf : Acyclic f) :
    Acyclic (Function.update f a (some b)) ↔ ¬ Reaches f b a := by
  constructor
  · intro hg hba
    have hab : Link (Function.update f a (some b)) a b := link_update_self.mpr rfl
    have hpath : Reaches (Function.update f a (some b)) b a :=
      (reaches_update_of_reaches hba).elim id id
    exact hg a (TransGen.head' hab hpath)
  · intro hba c hc
    -- A cycle through `a` would be a path from `b` back to `a`; a cycle that
    -- misses `a` is a cycle of the old graph.
    have hno : ¬ Reaches (Function.update f a (some b)) b a :=
      fun h => hba ((reaches_of_reaches_update h).elim id id)
    have hmiss : ∀ d, Reaches (Function.update f a (some b)) c d →
        Reaches (Function.update f a (some b)) d c → d ≠ a := by
      rintro d hcd hdc rfl
      have hda : TransGen (Link (Function.update f d (some b))) d d :=
        (TransGen.trans_right hdc hc).trans_left hcd
      obtain ⟨e, hde, hed⟩ := TransGen.head'_iff.mp hda
      have hbe : b = e := Option.some.inj (link_update_self.mp hde)
      exact hno (hbe ▸ hed)
    have hold : ∀ d, TransGen (Link (Function.update f a (some b))) c d →
        Reaches (Function.update f a (some b)) d c →
        TransGen (Link f) c d := by
      intro d hcd
      induction hcd with
      | single h =>
          intro _
          have hca : c ≠ a := hmiss c .refl .refl
          exact .single ((link_update_of_ne hca).mp h)
      | @tail d e hcd hde ih =>
          intro hec
          have hdc := ReflTransGen.head hde hec
          have hda : d ≠ a := hmiss d hcd.to_reflTransGen hdc
          exact (ih hdc).tail ((link_update_of_ne hda).mp hde)
    exact hf c (hold c hc .refl)

/-- A node that is pointed at one from which it is not reached is on no loop,
whatever other loops there are. -/
theorem not_loop_update (h : ¬ Reaches f b a) :
    ¬ TransGen (Link (Function.update f a (some b))) a a := by
  intro hloop
  obtain ⟨c, hac, hca⟩ := TransGen.head'_iff.mp hloop
  obtain rfl : b = c := Option.some.inj (link_update_self.mp hac)
  exact h ((reaches_of_reaches_update hca).elim id id)

end Links

end Llmenv.Lib
