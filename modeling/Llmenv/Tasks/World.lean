/-
# `Llmenv.Tasks.World` — what the invariants of the store are about

An invariant of the task store never reads a title, a note or a time.  The
abstract model keeps the rest: for a task its parent, its relation, its session
and whether it is done (`Node`), for a session whether it is open.  A `World`
maps slugs and session ids to these, and an operation of the store is a few
`Move`s on it.

The four laws of the tracker are stated here, with one lemma for each move
that says when the move keeps the law.  `Llmenv.Tasks.Effects` shows which
moves an operation of the code makes.
-/
import Llmenv.Lib.Links
import Llmenv.Tasks.Sessions

namespace Llmenv.Tasks

open Llmenv.Lib

/-- What the laws read of a task. -/
structure Node where
  parent : Option String
  relation : Tasks.Relation
  session : Option String
  done : Bool
deriving DecidableEq

/-- The tasks by slug, and by id whether a stored session is open. -/
@[ext] structure World where
  node? : String → Option Node
  open? : String → Option Bool

/-- One change of the world. -/
inductive Move where
  /-- A new task file. -/
  | add (slug : String) (node : Node)
  /-- Tasks are finished, or reopened. -/
  | mark (slugs : List String) (done : Bool)
  /-- A task gets another parent, or none. -/
  | reparent (slug : String) (parent : Option String)
  /-- Tasks lose their session. -/
  | untag (slugs : List String)
  /-- Task files go away. -/
  | remove (slugs : List String)
  /-- A session file is written. -/
  | session (id : String) (isOpen : Bool)

namespace World

/-- Change the nodes under `slugs`, where there are any. -/
def modify (w : World) (slugs : List String) (φ : Node → Node) : World :=
  { w with node? := fun k => if k ∈ slugs then (w.node? k).map φ else w.node? k }

def apply (w : World) : Move → World
  | .add slug n => { w with node? := Function.update w.node? slug (some n) }
  | .mark slugs done => w.modify slugs (fun n => { n with done := done })
  | .reparent slug parent => w.modify [slug] (fun n => { n with parent := parent })
  | .untag slugs => w.modify slugs (fun n => { n with session := none })
  | .remove slugs => { w with node? := fun k => if k ∈ slugs then none else w.node? k }
  | .session id isOpen => { w with open? := Function.update w.open? id (some isOpen) }

@[simp] theorem modify_nil (w : World) (φ : Node → Node) : w.modify [] φ = w := by
  ext1 <;> simp [modify]

@[simp] theorem modify_id (w : World) (slugs : List String) : w.modify slugs id = w := by
  ext1
  · funext k
    simp [modify]
  · rfl

/-- Writing a session that stays open, or stays closed. -/
theorem apply_session_of_eq {w : World} {id : String} {isOpen : Bool}
    (h : w.open? id = some isOpen) : w.apply (.session id isOpen) = w := by
  refine World.ext rfl ?_
  simp only [apply, ← h]
  exact Function.update_eq_self id w.open?

/-! ## The laws -/

/-- The parent link of a stored task. -/
def parentOf (w : World) (slug : String) : Option String := (w.node? slug).bind Node.parent

/-- Following parents never comes back. -/
def ParentsAcyclic (w : World) : Prop := Acyclic w.parentOf

/-- `n`, stored under `c`, is a sub-task of `m`, stored under `p`. -/
structure SubTask (w : World) (c : String) (n : Node) (p : String) (m : Node) : Prop where
  child : w.node? c = some n
  relation : n.relation = .child
  parent : n.parent = some p
  stored : w.node? p = some m

/-- A sub-task of a done task is done. -/
def DoneBelow (w : World) : Prop :=
  ∀ c n p m, w.SubTask c n p m → m.done = true → n.done = true

/-- A sub-task is in the session of its parent. -/
def SameSession (w : World) : Prop :=
  ∀ c n p m, w.SubTask c n p m → n.session = m.session

/-- A task of a closed session is done. -/
def NoneStranded (w : World) : Prop :=
  ∀ k n id, w.node? k = some n → n.session = some id → w.open? id = some false → n.done = true

/-! ## Moves and sub-task links -/

theorem subTask_modify {w : World} {slugs : List String} {φ : Node → Node}
    (hφ : ∀ n, (φ n).relation = n.relation ∧ (φ n).parent = n.parent)
    {c p : String} {n m : Node} (h : (w.modify slugs φ).SubTask c n p m) :
    ∃ n₀ m₀, w.SubTask c n₀ p m₀ ∧ n = (if c ∈ slugs then φ n₀ else n₀) ∧
      m = (if p ∈ slugs then φ m₀ else m₀) := by
  have hget : ∀ k x, (w.modify slugs φ).node? k = some x →
      ∃ x₀, w.node? k = some x₀ ∧ x = (if k ∈ slugs then φ x₀ else x₀) := by
    intro k x hx
    simp only [modify] at hx
    by_cases hk : k ∈ slugs
    · rw [if_pos hk] at hx
      obtain ⟨x₀, hx₀, rfl⟩ := Option.map_eq_some_iff.mp hx
      exact ⟨x₀, hx₀, by simp [hk]⟩
    · exact ⟨x, by simpa [hk] using hx, by simp [hk]⟩
  obtain ⟨n₀, hn₀, hn⟩ := hget c n h.child
  obtain ⟨m₀, hm₀, hm⟩ := hget p m h.stored
  have hkeep : n.relation = n₀.relation ∧ n.parent = n₀.parent := by
    rw [hn]
    split
    · exact hφ n₀
    · exact ⟨rfl, rfl⟩
  exact ⟨n₀, m₀, ⟨hn₀, hkeep.1 ▸ h.relation, hkeep.2 ▸ h.parent, hm₀⟩, hn, hm⟩

theorem subTask_mark {w : World} {slugs : List String} {done : Bool} {c p : String} {n m : Node}
    (h : (w.apply (.mark slugs done)).SubTask c n p m) :
    ∃ n₀ m₀, w.SubTask c n₀ p m₀ ∧ n.session = n₀.session ∧ m.session = m₀.session ∧
      n.done = (if c ∈ slugs then done else n₀.done) ∧
      m.done = (if p ∈ slugs then done else m₀.done) := by
  obtain ⟨n₀, m₀, h₀, rfl, rfl⟩ :=
    subTask_modify (φ := fun n => { n with done := done }) (fun _ => ⟨rfl, rfl⟩) h
  exact ⟨n₀, m₀, h₀, by split <;> rfl, by split <;> rfl, by split <;> rfl, by split <;> rfl⟩

theorem subTask_untag {w : World} {slugs : List String} {c p : String} {n m : Node}
    (h : (w.apply (.untag slugs)).SubTask c n p m) :
    ∃ n₀ m₀, w.SubTask c n₀ p m₀ ∧ n.done = n₀.done ∧ m.done = m₀.done ∧
      n.session = (if c ∈ slugs then none else n₀.session) ∧
      m.session = (if p ∈ slugs then none else m₀.session) := by
  obtain ⟨n₀, m₀, h₀, rfl, rfl⟩ :=
    subTask_modify (φ := fun n => { n with session := none }) (fun _ => ⟨rfl, rfl⟩) h
  exact ⟨n₀, m₀, h₀, by split <;> rfl, by split <;> rfl, by split <;> rfl, by split <;> rfl⟩

theorem subTask_remove {w : World} {slugs : List String} {c p : String} {n m : Node}
    (h : (w.apply (.remove slugs)).SubTask c n p m) : w.SubTask c n p m := by
  have hget : ∀ k x, (w.apply (.remove slugs)).node? k = some x → w.node? k = some x := by
    intro k x hx
    simp only [apply] at hx
    split at hx
    · exact absurd hx (by simp)
    · exact hx
  exact ⟨hget c n h.child, h.relation, h.parent, hget p m h.stored⟩

/-- A sub-task link after a new file is an old one, or the new task is on one
of its ends. -/
theorem subTask_add {w : World} {slug : String} {new : Node} {c p : String} {n m : Node}
    (h : (w.apply (.add slug new)).SubTask c n p m) :
    w.SubTask c n p m ∨
      (c = slug ∧ n = new ∧ (p = slug ∧ m = new ∨ p ≠ slug ∧ w.node? p = some m)) ∨
      (c ≠ slug ∧ w.node? c = some n ∧ p = slug ∧ m = new) := by
  obtain ⟨hc, hrel, hpar, hp⟩ := h
  simp only [apply] at hc hp
  by_cases hcs : c = slug
  · subst hcs
    obtain rfl : new = n := by simpa using hc
    by_cases hps : p = c
    · subst hps
      obtain rfl : new = m := by simpa using hp
      exact Or.inr (Or.inl ⟨rfl, rfl, Or.inl ⟨rfl, rfl⟩⟩)
    · rw [Function.update_of_ne hps] at hp
      exact Or.inr (Or.inl ⟨rfl, rfl, Or.inr ⟨hps, hp⟩⟩)
  · rw [Function.update_of_ne hcs] at hc
    by_cases hps : p = slug
    · subst hps
      obtain rfl : new = m := by simpa using hp
      exact Or.inr (Or.inr ⟨hcs, hc, rfl, rfl⟩)
    · rw [Function.update_of_ne hps] at hp
      exact Or.inl ⟨hc, hrel, hpar, hp⟩

/-- After a re-parent the link of that task is the new one, and the other
links are as before. -/
theorem subTask_reparent {w : World} {slug : String} {q : Option String} {c p : String}
    {n m : Node} (h : (w.apply (.reparent slug q)).SubTask c n p m) :
    ∃ n₀ m₀, w.node? c = some n₀ ∧ n₀.relation = .child ∧ w.node? p = some m₀ ∧
      n.session = n₀.session ∧ n.done = n₀.done ∧ m.session = m₀.session ∧ m.done = m₀.done ∧
      ((c = slug ∧ q = some p) ∨ w.SubTask c n₀ p m₀) := by
  have hget : ∀ k x, (w.apply (.reparent slug q)).node? k = some x →
      ∃ x₀, w.node? k = some x₀ ∧ x.relation = x₀.relation ∧ x.session = x₀.session ∧
        x.done = x₀.done ∧ x.parent = if k = slug then q else x₀.parent := by
    intro k x hx
    simp only [apply, modify, List.mem_singleton] at hx
    by_cases hk : k = slug
    · rw [if_pos hk] at hx
      obtain ⟨x₀, hx₀, rfl⟩ := Option.map_eq_some_iff.mp hx
      exact ⟨x₀, hx₀, rfl, rfl, rfl, by simp [hk]⟩
    · rw [if_neg hk] at hx
      exact ⟨x, hx, rfl, rfl, rfl, by simp [hk]⟩
  obtain ⟨n₀, hn₀, hrel, hses, hdone, hpar⟩ := hget c n h.child
  obtain ⟨m₀, hm₀, -, hses', hdone', -⟩ := hget p m h.stored
  refine ⟨n₀, m₀, hn₀, hrel ▸ h.relation, hm₀, hses, hdone, hses', hdone', ?_⟩
  rw [h.parent] at hpar
  by_cases hc : c = slug
  · exact Or.inl ⟨hc, by simpa [hc] using hpar.symm⟩
  · rw [if_neg hc] at hpar
    exact Or.inr ⟨hn₀, hrel ▸ h.relation, hpar.symm, hm₀⟩

/-! ## Acyclic parents -/

theorem parentOf_add (w : World) (slug : String) (n : Node) :
    (w.apply (.add slug n)).parentOf = Function.update w.parentOf slug n.parent := by
  funext k
  by_cases hk : k = slug
  · subst hk
    simp [parentOf, apply]
  · simp [parentOf, apply, hk]

theorem parentOf_modify (w : World) (slugs : List String) {φ : Node → Node}
    (hφ : ∀ n, (φ n).parent = n.parent) : (w.modify slugs φ).parentOf = w.parentOf := by
  funext k
  by_cases hk : k ∈ slugs
  · cases hn : w.node? k <;> simp [parentOf, modify, hk, hn, hφ]
  · simp [parentOf, modify, hk]

/-- Pointing one task at a parent that does not lead back to it. -/
theorem acyclic_update {w : World} (hw : w.ParentsAcyclic) {slug : String} {q : Option String}
    (hq : ∀ p, q = some p → ¬ Reaches w.parentOf p slug) :
    Acyclic (Function.update w.parentOf slug q) := by
  cases q with
  | none => exact acyclic_update_none hw
  | some p => exact (acyclic_update_iff hw).mpr (hq p rfl)

theorem parentsAcyclic_add {w : World} (hw : w.ParentsAcyclic) {slug : String} {n : Node}
    (hn : ∀ p, n.parent = some p → ¬ Reaches w.parentOf p slug) :
    (w.apply (.add slug n)).ParentsAcyclic := by
  rw [ParentsAcyclic, parentOf_add]
  exact acyclic_update hw hn

theorem parentsAcyclic_reparent {w : World} (hw : w.ParentsAcyclic) {slug : String}
    {q : Option String}
    (hq : ∀ p, q = some p → ¬ Reaches w.parentOf p slug) :
    (w.apply (.reparent slug q)).ParentsAcyclic := by
  refine (acyclic_update hw hq).of_le fun a b hab => ?_
  simp only [Link, parentOf, apply, modify, List.mem_singleton] at hab
  by_cases ha : a = slug
  · subst ha
    cases hn : w.node? a with
    | none => simp [hn] at hab
    | some n => simpa [Link, hn] using hab
  · simpa [Link, parentOf, ha] using hab

theorem parentsAcyclic_remove {w : World} (hw : w.ParentsAcyclic) (slugs : List String) :
    (w.apply (.remove slugs)).ParentsAcyclic := by
  refine Acyclic.of_le hw fun a b hab => ?_
  simp only [Link, parentOf, apply] at hab ⊢
  by_cases ha : a ∈ slugs
  · simp [ha] at hab
  · simpa [ha] using hab

theorem parentsAcyclic_mark {w : World} (hw : w.ParentsAcyclic) (slugs : List String)
    (done : Bool) : (w.apply (.mark slugs done)).ParentsAcyclic := by
  have hsame := parentOf_modify w slugs (φ := fun n => { n with done := done }) (fun _ => rfl)
  rwa [ParentsAcyclic, apply, hsame]

theorem parentsAcyclic_untag {w : World} (hw : w.ParentsAcyclic) (slugs : List String) :
    (w.apply (.untag slugs)).ParentsAcyclic := by
  have hsame := parentOf_modify w slugs (φ := fun n => { n with session := none }) (fun _ => rfl)
  rwa [ParentsAcyclic, apply, hsame]

/-! ## Done below a done parent -/

theorem doneBelow_add {w : World} (hw : w.DoneBelow) {slug : String} {new : Node}
    (hnew : new.done = false)
    (hpar : ∀ p m, new.relation = .child → new.parent = some p → w.node? p = some m →
      m.done = false) :
    (w.apply (.add slug new)).DoneBelow := by
  intro c n p m h hm
  rcases subTask_add h with hold | ⟨rfl, rfl, ⟨rfl, rfl⟩ | ⟨-, hp⟩⟩ | ⟨-, -, rfl, rfl⟩
  · exact hw c n p m hold hm
  · exact hm
  · rw [hpar p m h.relation h.parent hp] at hm
    exact absurd hm (by simp)
  · rw [hnew] at hm
    exact absurd hm (by simp)

/-- Finishing a task whose sub-tasks are done. -/
theorem doneBelow_finish {w : World} (hw : w.DoneBelow) {slug : String}
    (hkids : ∀ c n m, c ≠ slug → w.SubTask c n slug m → n.done = true) :
    (w.apply (.mark [slug] true)).DoneBelow := by
  intro c n p m h hm
  obtain ⟨n₀, m₀, h₀, -, -, hn, hdone⟩ := subTask_mark h
  rw [hdone] at hm
  rw [hn]
  by_cases hc : c ∈ [slug]
  · rw [if_pos hc]
  · rw [if_neg hc]
    by_cases hp : p ∈ [slug]
    · obtain rfl := List.mem_singleton.mp hp
      exact hkids c n₀ m₀ (fun h => hc (List.mem_singleton.mpr h)) h₀
    · rw [if_neg hp] at hm
      exact hw c n₀ p m₀ h₀ hm

/-- Reopening tasks, each of them together with its done parent. -/
theorem doneBelow_reopen {w : World} (hw : w.DoneBelow) {slugs : List String}
    (hpar : ∀ c n p m, c ∈ slugs → w.SubTask c n p m → m.done = true → p ∈ slugs) :
    (w.apply (.mark slugs false)).DoneBelow := by
  intro c n p m h hm
  obtain ⟨n₀, m₀, h₀, -, -, hn, hdone⟩ := subTask_mark h
  rw [hdone] at hm
  by_cases hp : p ∈ slugs
  · rw [if_pos hp] at hm
    exact absurd hm (by simp)
  · rw [if_neg hp] at hm
    have hc : c ∉ slugs := fun hc => hp (hpar c n₀ p m₀ hc h₀ hm)
    rw [hn, if_neg hc]
    exact hw c n₀ p m₀ h₀ hm

theorem doneBelow_reparent {w : World} (hw : w.DoneBelow) {slug : String} {q : Option String}
    (hq : ∀ n p m, w.node? slug = some n → n.relation = .child → q = some p →
      w.node? p = some m → m.done = true → n.done = true) :
    (w.apply (.reparent slug q)).DoneBelow := by
  intro c n p m h hm
  obtain ⟨n₀, m₀, hn₀, hrel, hm₀, -, hdone, -, hdone', hlink⟩ := subTask_reparent h
  rw [hdone]
  rw [hdone'] at hm
  rcases hlink with ⟨rfl, hqp⟩ | h₀
  · exact hq n₀ p m₀ hn₀ hrel hqp hm₀ hm
  · exact hw c n₀ p m₀ h₀ hm

theorem doneBelow_remove {w : World} (hw : w.DoneBelow) (slugs : List String) :
    (w.apply (.remove slugs)).DoneBelow :=
  fun c n p m h hm => hw c n p m (subTask_remove h) hm

theorem doneBelow_untag {w : World} (hw : w.DoneBelow) (slugs : List String) :
    (w.apply (.untag slugs)).DoneBelow := by
  intro c n p m h hm
  obtain ⟨n₀, m₀, h₀, hn, hdone, -, -⟩ := subTask_untag h
  rw [hdone] at hm
  rw [hn]
  exact hw c n₀ p m₀ h₀ hm

/-! ## One session along sub-task links -/

theorem sameSession_add {w : World} (hw : w.SameSession) {slug : String} {new : Node}
    (hpar : ∀ p m, new.relation = .child → new.parent = some p → w.node? p = some m →
      new.session = m.session)
    (hkids : ∀ c n, w.node? c = some n → n.relation = .child → n.parent = some slug →
      n.session = new.session) :
    (w.apply (.add slug new)).SameSession := by
  intro c n p m h
  rcases subTask_add h with hold | ⟨rfl, rfl, ⟨rfl, rfl⟩ | ⟨-, hp⟩⟩ | ⟨-, hc, rfl, rfl⟩
  · exact hw c n p m hold
  · rfl
  · exact hpar p m h.relation h.parent hp
  · exact hkids c n hc h.relation h.parent

theorem sameSession_mark {w : World} (hw : w.SameSession) (slugs : List String) (done : Bool) :
    (w.apply (.mark slugs done)).SameSession := by
  intro c n p m h
  obtain ⟨n₀, m₀, h₀, hn, hm, -, -⟩ := subTask_mark h
  rw [hn, hm]
  exact hw c n₀ p m₀ h₀

theorem sameSession_reparent {w : World} (hw : w.SameSession) {slug : String} {q : Option String}
    (hq : ∀ n p m, w.node? slug = some n → q = some p → w.node? p = some m →
      n.session = m.session) :
    (w.apply (.reparent slug q)).SameSession := by
  intro c n p m h
  obtain ⟨n₀, m₀, hn₀, -, hm₀, hses, -, hses', -, hlink⟩ := subTask_reparent h
  rw [hses, hses']
  rcases hlink with ⟨rfl, hqp⟩ | h₀
  · exact hq n₀ p m₀ hn₀ hqp hm₀
  · exact hw c n₀ p m₀ h₀

theorem sameSession_remove {w : World} (hw : w.SameSession) (slugs : List String) :
    (w.apply (.remove slugs)).SameSession :=
  fun c n p m h => hw c n p m (subTask_remove h)

/-- Untagging tasks, each of them together with its parent and its sub-tasks. -/
theorem sameSession_untag {w : World} (hw : w.SameSession) {slugs : List String}
    (hboth : ∀ c n p m, w.SubTask c n p m → (c ∈ slugs ↔ p ∈ slugs)) :
    (w.apply (.untag slugs)).SameSession := by
  intro c n p m h
  obtain ⟨n₀, m₀, h₀, -, -, hn, hm⟩ := subTask_untag h
  rw [hn, hm]
  by_cases hc : c ∈ slugs
  · rw [if_pos hc, if_pos ((hboth c n₀ p m₀ h₀).mp hc)]
  · have hp : p ∉ slugs := fun hp => hc ((hboth c n₀ p m₀ h₀).mpr hp)
    rw [if_neg hc, if_neg hp]
    exact hw c n₀ p m₀ h₀

/-! ## Nothing unfinished in a closed session -/

theorem noneStranded_add {w : World} (hw : w.NoneStranded) {slug : String} {new : Node}
    (hnew : ∀ id, new.session = some id → w.open? id ≠ some false) :
    (w.apply (.add slug new)).NoneStranded := by
  intro k n id hk hid hclosed
  simp only [apply] at hk hclosed
  by_cases hks : k = slug
  · subst hks
    obtain rfl : new = n := by simpa using hk
    exact absurd hclosed (hnew id hid)
  · rw [Function.update_of_ne hks] at hk
    exact hw k n id hk hid hclosed

/-- A change that keeps the session of every task, and reopens none that is
in a closed session. -/
theorem noneStranded_modify {w : World} (hw : w.NoneStranded) {slugs : List String}
    {φ : Node → Node} (hses : ∀ n id, (φ n).session = some id → n.session = some id)
    (hdone : ∀ k n id, k ∈ slugs → w.node? k = some n → n.session = some id →
      w.open? id = some false → n.done = true → (φ n).done = true) :
    (w.modify slugs φ).NoneStranded := by
  intro k n id hk hid hclosed
  simp only [modify] at hk hclosed
  by_cases hks : k ∈ slugs
  · rw [if_pos hks] at hk
    obtain ⟨n₀, hn₀, rfl⟩ := Option.map_eq_some_iff.mp hk
    have hid₀ := hses n₀ id hid
    exact hdone k n₀ id hks hn₀ hid₀ hclosed (hw k n₀ id hn₀ hid₀ hclosed)
  · rw [if_neg hks] at hk
    exact hw k n id hk hid hclosed

theorem noneStranded_remove {w : World} (hw : w.NoneStranded) (slugs : List String) :
    (w.apply (.remove slugs)).NoneStranded := by
  intro k n id hk hid hclosed
  simp only [apply] at hk
  split at hk
  · exact absurd hk (by simp)
  · exact hw k n id hk hid hclosed

end World

/-! ## The world of a store -/

def Task.node (t : Task) : Node := ⟨t.parent, t.relation, t.session, decide (t.state = .done)⟩

def Store.world (s : Store) : World :=
  ⟨s.tasks.view Task.node, s.sessions.view Session.isOpen⟩

theorem Store.world_node? (s : Store) (slug : String) :
    s.world.node? slug = (s.task? slug).map Task.node := rfl

theorem Store.world_open? (s : Store) (id : String) :
    s.world.open? id = (s.session? id).map Session.isOpen := rfl

end Llmenv.Tasks
