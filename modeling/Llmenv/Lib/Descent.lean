/-
# `Llmenv.Lib.Descent` — a depth-first walk down a graph

A walk goes down from a node to its children, in order, and through all that is
below a child before it goes to the next one.  It marks every node it comes to.
It ends early at a node that stops it, and at a node that is marked already.

`Walk` is the walk as a relation, so a derivation is a walk that ends, over any
graph.  Where it comes through, all that is below the start is `Finished`: no
node below stops it, and none is below itself.  Where every node has one parent,
nothing else can end it early (`Walk.done_iff`): to come to a marked node is to
have met a loop.
-/
import Mathlib.Data.List.Nodup
import Mathlib.Logic.Relation

namespace Llmenv.Lib.Descent

open Relation

variable {α : Type}

inductive Outcome (α : Type) where
  | done
  | stopped (a : α)
  | looped (a : α)

section Walk

variable (kids : α → List α) (Stop : α → Prop)

/-- One step down. -/
def Step (a b : α) : Prop := b ∈ kids a

/-- Any number of steps down. -/
abbrev Below : α → α → Prop := ReflTransGen (Step kids)

/-- Below the node there is one that is below itself. -/
def HasLoop (a : α) : Prop := ∃ b, Below kids a b ∧ TransGen (Step kids) b b

/-- The walk through some nodes one by one: the marked nodes before it, how it ends, and the marked
nodes then. -/
inductive Walk : List α → List α → Outcome α → List α → Prop
  | nil (visited : List α) : Walk [] visited .done visited
  | looped {a : α} {rest visited : List α} (h : a ∈ visited) :
      Walk (a :: rest) visited (.looped a) visited
  | stopped {a : α} {rest visited : List α} (hnew : a ∉ visited) (h : Stop a) :
      Walk (a :: rest) visited (.stopped a) (a :: visited)
  | inside {a : α} {rest visited visited' : List α} {r : Outcome α} (hnew : a ∉ visited)
      (h : ¬ Stop a) (hbelow : Walk (kids a) (a :: visited) r visited') (hr : r ≠ .done) :
      Walk (a :: rest) visited r visited'
  | onward {a : α} {rest visited visited' visited'' : List α} {r : Outcome α}
      (hnew : a ∉ visited) (h : ¬ Stop a) (hbelow : Walk (kids a) (a :: visited) .done visited')
      (hrest : Walk rest visited' r visited'') : Walk (a :: rest) visited r visited''

/-- Nothing below the node stops the walk, and the way down ends everywhere. -/
inductive Finished : α → Prop
  | intro {a : α} (h : ¬ Stop a) (hkids : ∀ b ∈ kids a, Finished b) : Finished a

end Walk

variable {kids : α → List α} {Stop : α → Prop}

/-! ## Finished nodes -/

theorem Finished.of_below {a b : α} (h : Finished kids Stop a) (hab : Below kids a b) :
    Finished kids Stop b := by
  induction hab with
  | refl => exact h
  | tail _ hstep ih =>
      cases ih with
      | intro _ hkids => exact hkids _ hstep

theorem Finished.not_stop {a : α} (h : Finished kids Stop a) : ¬ Stop a := by
  cases h with
  | intro h _ => exact h

theorem Finished.not_below_self {a : α} (h : Finished kids Stop a) :
    ¬ TransGen (Step kids) a a := by
  induction h with
  | intro h hkids ih =>
      intro hloop
      -- The loop goes through a child, and is a loop of the child too.
      obtain ⟨b, hb, hback⟩ := TransGen.head'_iff.mp hloop
      exact ih b hb (TransGen.tail' hback hb)

theorem Finished.not_hasLoop {a : α} (h : Finished kids Stop a) : ¬ HasLoop kids a := by
  rintro ⟨b, hab, hloop⟩
  exact (h.of_below hab).not_below_self hloop

/-! ## How a walk ends -/

theorem Walk.finished {nodes visited visited' : List α}
    (h : Walk kids Stop nodes visited .done visited') : ∀ a ∈ nodes, Finished kids Stop a := by
  generalize hr : Outcome.done = r at h
  induction h with
  | nil => exact fun _ ha => absurd ha List.not_mem_nil
  | looped _ => exact absurd hr (by simp)
  | stopped _ _ => exact absurd hr (by simp)
  | inside _ _ _ hne _ => exact absurd hr.symm hne
  | onward _ hstop _ _ ihbelow ihrest =>
      exact List.forall_mem_cons.mpr ⟨.intro hstop (ihbelow rfl), ihrest hr⟩

theorem Walk.of_stopped {nodes visited visited' : List α} {b : α}
    (h : Walk kids Stop nodes visited (.stopped b) visited') :
    Stop b ∧ ∃ a ∈ nodes, Below kids a b := by
  generalize hr : Outcome.stopped b = r at h
  induction h with
  | nil => exact absurd hr (by simp)
  | looped _ => exact absurd hr (by simp)
  | stopped _ hstop =>
      obtain rfl := Outcome.stopped.inj hr
      exact ⟨hstop, _, List.mem_cons_self, .refl⟩
  | inside _ _ _ _ ih =>
      obtain ⟨hstop, a, ha, hbelow⟩ := ih hr
      exact ⟨hstop, _, List.mem_cons_self, .head ha hbelow⟩
  | onward _ _ _ _ _ ih =>
      obtain ⟨hstop, a, ha, hbelow⟩ := ih hr
      exact ⟨hstop, a, List.mem_cons_of_mem _ ha, hbelow⟩

theorem Walk.subset {nodes visited visited' : List α} {r : Outcome α}
    (h : Walk kids Stop nodes visited r visited') : visited ⊆ visited' := by
  induction h with
  | nil => exact List.Subset.refl _
  | looped _ => exact List.Subset.refl _
  | stopped _ _ => exact List.subset_cons_self _ _
  | inside _ _ _ _ ih => exact List.Subset.trans (List.subset_cons_self _ _) ih
  | onward _ _ _ _ ihbelow ihrest =>
      exact List.Subset.trans (List.subset_cons_self _ _) (List.Subset.trans ihbelow ihrest)

/-- One node, and then the others. -/
theorem Walk.cons {a : α} {rest visited visited' visited'' : List α} {r : Outcome α}
    (h : Walk kids Stop [a] visited .done visited')
    (hrest : Walk kids Stop rest visited' r visited'') :
    Walk kids Stop (a :: rest) visited r visited'' := by
  cases h with
  | inside _ _ _ hne => exact absurd rfl hne
  | onward hnew hstop hbelow hnil =>
      cases hnil with
      | nil => exact .onward hnew hstop hbelow hrest

theorem Walk.cons_of_ne {a : α} {visited visited' : List α} {r : Outcome α}
    (h : Walk kids Stop [a] visited r visited') (hr : r ≠ .done) (rest : List α) :
    Walk kids Stop (a :: rest) visited r visited' := by
  cases h with
  | looped h => exact .looped h
  | stopped hnew hstop => exact .stopped hnew hstop
  | inside hnew hstop hbelow hne => exact .inside hnew hstop hbelow hne
  | onward _ _ _ hnil =>
      cases hnil with
      | nil => exact absurd rfl hr

/-! ## One parent each -/

section Parents

variable (root : α) (hparent : ∀ a b c, Step kids a c → Step kids b c → a = b)
  (hnodup : ∀ a, (kids a).Nodup)

variable (kids) in
/-- The marked nodes while the children of a node below the root are walked through: each but the
root has its parent among them. -/
structure Marked (p : α) (visited : List α) : Prop where
  below : Below kids root p
  parent : p ∈ visited
  closed : ∀ c ∈ visited, c = root ∨ ∃ q ∈ visited, Step kids q c

theorem Marked.enter {p a : α} {visited : List α} (h : Marked kids root p visited)
    (hpa : Step kids p a) : Marked kids root a (a :: visited) where
  below := h.below.tail hpa
  parent := List.mem_cons_self
  closed := by
    intro c hc
    rcases List.mem_cons.mp hc with rfl | hc
    · exact .inr ⟨p, List.mem_cons_of_mem _ h.parent, hpa⟩
    · exact (h.closed c hc).imp_right fun ⟨q, hq, hqc⟩ => ⟨q, List.mem_cons_of_mem _ hq, hqc⟩

include hparent in
/-- The children of a new node are not marked, or there is a loop. -/
theorem Marked.child {p a c : α} {visited : List α} (h : Marked kids root p visited)
    (hpa : Step kids p a) (hnew : a ∉ visited) (hac : Step kids a c) (hc : c ∈ a :: visited) :
    HasLoop kids root := by
  have hbelow : Below kids root a := h.below.tail hpa
  rcases List.mem_cons.mp hc with rfl | hc
  · exact ⟨c, hbelow, .single hac⟩
  · rcases h.closed c hc with rfl | ⟨q, hq, hqc⟩
    · exact ⟨c, .refl, TransGen.tail' hbelow hac⟩
    · exact absurd (hparent q a c hqc hac ▸ hq) hnew

variable (kids) in
/-- What is marked since `visited` is below `p`: its parent is `p`, or is marked since then too. -/
def NewBelow (p : α) (visited visited' : List α) : Prop :=
  ∀ c ∈ visited', c ∉ visited → ∃ q, Step kids q c ∧ (q = p ∨ q ∈ visited' ∧ q ∉ visited)

/-- The nodes marked below a new node, and the node itself. -/
theorem NewBelow.enter {p a : α} {visited visited' : List α} (hpa : Step kids p a)
    (hnew : a ∉ visited) (hsub : a :: visited ⊆ visited')
    (h : NewBelow kids a (a :: visited) visited') :
    NewBelow kids p visited visited' := by
  intro c hc hnot
  by_cases hca : c = a
  · exact ⟨p, hca ▸ hpa, .inl rfl⟩
  · obtain ⟨q, hqc, hq⟩ := h c hc (mt List.mem_cons.mp (not_or.mpr ⟨hca, hnot⟩))
    rcases hq with rfl | ⟨hq, hqnot⟩
    · exact ⟨q, hqc, .inr ⟨hsub List.mem_cons_self, hnew⟩⟩
    · exact ⟨q, hqc, .inr ⟨hq, fun hmem => hqnot (List.mem_cons_of_mem _ hmem)⟩⟩

theorem NewBelow.trans {p : α} {visited visited' visited'' : List α}
    (h : NewBelow kids p visited visited')
    (h' : NewBelow kids p visited' visited'') (hsub : visited ⊆ visited')
    (hsub' : visited' ⊆ visited'') : NewBelow kids p visited visited'' := by
  intro c hc hnot
  by_cases hmem : c ∈ visited'
  · obtain ⟨q, hqc, hq⟩ := h c hmem hnot
    exact ⟨q, hqc, hq.imp_right fun ⟨hq, hqnot⟩ => ⟨hsub' hq, hqnot⟩⟩
  · obtain ⟨q, hqc, hq⟩ := h' c hc hmem
    exact ⟨q, hqc, hq.imp_right fun ⟨hq, hqnot⟩ => ⟨hq, fun hmem => hqnot (hsub hmem)⟩⟩

theorem Marked.more {p : α} {visited visited' : List α}
    (h : Marked kids root p visited) (hsub : visited ⊆ visited')
    (hnew : NewBelow kids p visited visited') :
    Marked kids root p visited' where
  below := h.below
  parent := hsub h.parent
  closed := by
    intro c hc
    by_cases hmem : c ∈ visited
    · exact (h.closed c hmem).imp_right fun ⟨q, hq, hqc⟩ => ⟨q, hsub hq, hqc⟩
    · obtain ⟨q, hqc, rfl | ⟨hq, -⟩⟩ := hnew c hc hmem
      · exact .inr ⟨q, hsub h.parent, hqc⟩
      · exact .inr ⟨q, hq, hqc⟩

include hparent hnodup in
/-- What a walk through children of one node marks is below it, and a marked node that it comes to
is on a loop. -/
theorem Walk.marks {nodes visited visited' : List α} {r : Outcome α}
    (h : Walk kids Stop nodes visited r visited') :
    ∀ {p : α}, Marked kids root p visited → (∀ a ∈ nodes, Step kids p a) →
      nodes.Nodup → (∀ a ∈ nodes, a ∈ visited → HasLoop kids root) →
      NewBelow kids p visited visited' ∧
        ∀ a, r = .looped a → HasLoop kids root := by
  induction h with
  | nil => exact fun _ _ _ _ => ⟨fun _ h hnot => absurd h hnot, fun _ h => absurd h (by simp)⟩
  | looped h =>
      intro p _ _ _ hloop
      exact ⟨fun _ h hnot => absurd h hnot, fun _ _ => hloop _ List.mem_cons_self h⟩
  | @stopped a rest visited hnew hstop =>
      intro p _ hstep _ _
      refine ⟨?_, fun _ h => absurd h (by simp)⟩
      intro c hc hnot
      obtain rfl := (List.mem_cons.mp hc).resolve_right hnot
      exact ⟨p, hstep c List.mem_cons_self, .inl rfl⟩
  | @inside a rest visited visited' r hnew hstop hbelow hne ih =>
      intro p hmarked hstep _ _
      have hpa : Step kids p a := hstep a List.mem_cons_self
      obtain ⟨hmarks, hend⟩ := ih (hmarked.enter root hpa) (fun _ hc => hc) (hnodup a)
        (fun c hac hc => hmarked.child root hparent hpa hnew hac hc)
      exact ⟨hmarks.enter hpa hnew hbelow.subset, hend⟩
  | @onward a rest visited visited' visited'' r hnew hstop hbelow hrest ihbelow ihrest =>
      intro p hmarked hstep hnodes hloop
      have hpa : Step kids p a := hstep a List.mem_cons_self
      obtain ⟨hna, hnrest⟩ := List.nodup_cons.mp hnodes
      obtain ⟨hmarks, -⟩ := ihbelow (hmarked.enter root hpa) (fun _ hc => hc) (hnodup a)
        (fun c hac hc => hmarked.child root hparent hpa hnew hac hc)
      have hsub : visited ⊆ visited' :=
        List.Subset.trans (List.subset_cons_self _ _) hbelow.subset
      have hmarks' : NewBelow kids p visited visited' :=
        hmarks.enter hpa hnew hbelow.subset
      -- A later child of `p` is not below `a`: its parent was marked before `a`.
      have hpending : ∀ c ∈ rest, c ∈ visited' → HasLoop kids root := by
        intro c hc hmem
        by_cases hold : c ∈ visited
        · exact hloop c (List.mem_cons_of_mem _ hc) hold
        · have hca : c ≠ a := fun heq => hna (heq ▸ hc)
          obtain ⟨q, hqc, hq⟩ := hmarks c hmem (mt List.mem_cons.mp (not_or.mpr ⟨hca, hold⟩))
          obtain rfl : q = p := hparent q p c hqc (hstep c (List.mem_cons_of_mem _ hc))
          rcases hq with rfl | ⟨-, hqnot⟩
          · exact absurd hmarked.parent hnew
          · exact absurd (List.mem_cons_of_mem _ hmarked.parent) hqnot
      obtain ⟨hmore, hend⟩ := ihrest (hmarked.more root hsub hmarks')
        (fun c hc => hstep c (List.mem_cons_of_mem _ hc)) hnrest hpending
      exact ⟨hmarks'.trans hmore hsub hrest.subset, hend⟩

include hparent hnodup in
theorem Walk.of_looped {visited : List α} {a : α}
    (h : Walk kids Stop [root] [] (.looped a) visited) : HasLoop kids root := by
  have hbelow : ∀ {r : Outcome α} {visited : List α},
      Walk kids Stop (kids root) [root] r visited → ∀ a, r = .looped a → HasLoop kids root := by
    intro r visited hwalk
    have hmarked : Marked kids root root [root] :=
      ⟨.refl, List.mem_cons_self, fun c hc => .inl (List.mem_singleton.mp hc)⟩
    refine (hwalk.marks root hparent hnodup hmarked (fun _ hc => hc) (hnodup root) ?_).2
    intro c hc hroot
    exact ⟨root, .refl, .single (List.mem_singleton.mp hroot ▸ hc)⟩
  cases h with
  | looped h => exact absurd h List.not_mem_nil
  | inside _ _ hwalk _ => exact hbelow hwalk a rfl
  | onward _ _ _ hrest => cases hrest

include hparent hnodup in
/-- A walk from the root comes through exactly when nothing below the root stops it and there is no
loop below it. -/
theorem Walk.done_iff {visited : List α} {r : Outcome α} (h : Walk kids Stop [root] [] r visited) :
    r = .done ↔ (∀ a, Below kids root a → ¬ Stop a) ∧ ¬ HasLoop kids root := by
  constructor
  · rintro rfl
    have hfinished := h.finished root List.mem_cons_self
    exact ⟨fun a ha => (hfinished.of_below ha).not_stop, hfinished.not_hasLoop⟩
  · rintro ⟨hstop, hloop⟩
    cases r with
    | done => rfl
    | stopped a =>
        obtain ⟨ha, b, hb, hbelow⟩ := h.of_stopped
        exact absurd ha (hstop a (List.mem_singleton.mp hb ▸ hbelow))
    | looped a => exact absurd (h.of_looped root hparent hnodup) hloop

end Parents

end Llmenv.Lib.Descent
