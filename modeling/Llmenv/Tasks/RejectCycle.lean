/-
# `Llmenv.Tasks.RejectCycle` — which parents does an edit accept?

`reject_cycle` of `crates/llmenv-task/src/parent_chain.rs` climbs from the new
parent and leaves at the first task without a parent, or with an error.  The
store may hold loops that have nothing to do with the task, so nothing about the
links bounds the climb: the slugs that it has passed do.

`rejectCycleRound` is one round of the loop and `rejectCycle_returns` says that
the loop, which has no bound, leaves with the result of `rejectCycle`.  It accepts
exactly the parents from which the links lead to a root (`rejectCycle_exact`), and
with such a parent no loop passes through the task.
-/
import Llmenv.Lib.Loop
import Llmenv.Tasks.ParentLinks

open Relation (TransGen)

namespace Llmenv.Tasks

open Llmenv.Lib

/-! ## The loop -/

/-- The variables of the loop. -/
structure Climb where
  current : String
  visited : List String

/-- One round of `reject_cycle`. -/
def rejectCycleRound (s : Store) (slug newParent : String) (c : Climb) :
    Round Climb (Except String Unit) :=
  if c.current = slug then
    .leave (.error s!"setting parent to '{newParent}' would make '{slug}' its own ancestor. Fix: pick a parent other than the task itself")
  else if c.visited.contains c.current then
    .leave (.error s!"cannot set the parent of '{slug}' to '{newParent}': the ancestors loop at '{c.current}'. Fix: clear the parent of one task in that loop with `llmenv task edit <task> --no-parent`")
  else
    match loadTask s c.current with
    | .error .notFound =>
        .leave (.error s!"cannot set the parent of '{slug}' to '{newParent}': ancestor '{c.current}' is missing from the task store. Fix: clear or re-point the parent of the task that names '{c.current}'")
    | .error .invalidName =>
        .leave (.error s!"cannot check parent '{newParent}' of '{slug}': ancestor '{c.current}' is unreadable")
    | .ok task =>
        match task.parent with
        | none => .leave (.ok ())
        | some parent => .again ⟨parent, c.current :: c.visited⟩

/-- The links from `a` lead to a task without a parent, over the tasks of the
list. -/
inductive ClimbsTo (s : Store) : String → List String → Prop
  | root {a : String} {t : Task} : s.task? a = some t → t.parent = none → ClimbsTo s a [a]
  | up {a b : String} {t : Task} {path : List String} : s.task? a = some t →
      t.parent = some b → ClimbsTo s b path → ClimbsTo s a (a :: path)

section

variable {s : Store} {slug newParent : String}

variable (s slug newParent) in
/-- What a round can do, apart from refusing. -/
theorem rejectCycleRound_cases (c : Climb) :
    (∃ e, rejectCycleRound s slug newParent c = .leave (.error e)) ∨
      c.current ≠ slug ∧ c.current ∉ c.visited ∧ ∃ t, s.task? c.current = some t ∧
        (t.parent = none ∧ rejectCycleRound s slug newParent c = .leave (.ok ()) ∨
          ∃ p, t.parent = some p ∧
            rejectCycleRound s slug newParent c = .again ⟨p, c.current :: c.visited⟩) := by
  unfold rejectCycleRound
  split
  · exact Or.inl ⟨_, rfl⟩
  · rename_i hne
    split
    · exact Or.inl ⟨_, rfl⟩
    · rename_i hnew
      have hnew' : c.current ∉ c.visited := fun h => hnew (List.contains_iff_mem.mpr h)
      split
      · exact Or.inl ⟨_, rfl⟩
      · exact Or.inl ⟨_, rfl⟩
      · rename_i t hload
        refine Or.inr ⟨hne, hnew', t, loadTask_eq_ok.mp hload, ?_⟩
        cases t.parent with
        | none => exact Or.inl ⟨rfl, rfl⟩
        | some p => exact Or.inr ⟨p, rfl, rfl⟩

theorem rejectCycleFrom_succ (n : Nat) (c : Climb) :
    rejectCycleFrom s slug newParent (n + 1) c.current c.visited =
      (rejectCycleRound s slug newParent c).result
        (fun d => rejectCycleFrom s slug newParent n d.current d.visited) := by
  simp only [rejectCycleFrom, rejectCycleRound]
  split
  · rfl
  · split
    · rfl
    · cases loadTask s c.current with
      | error e => cases e <;> rfl
      | ok t =>
          show (match t.parent with | none => _ | some p => _) = Round.result _ _
          cases hp : t.parent with
          | none => simp only [hp, Round.result]
          | some p => simp only [hp, Round.result]

/-- The loop leaves, and with what `rejectCycle` gives. -/
theorem rejectCycle_returns (s : Store) (slug newParent : String) :
    Returns (rejectCycleRound s slug newParent) ⟨newParent, []⟩ (rejectCycle s slug newParent) := by
  refine returns_of_fuel (fun n c => rejectCycleFrom s slug newParent n c.current c.visited)
    Climb.visited (s.tasks.items.map Task.slug) rejectCycleFrom_succ ?_ (s.tasks.items.length + 1) ⟨newParent, []⟩ List.nodup_nil
    (List.nil_subset _) (by simp)
  intro c d hcd
  rcases rejectCycleRound_cases s slug newParent c with
    ⟨e, he⟩ | ⟨-, hnew, t, ht, ⟨-, hleave⟩ | ⟨p, -, hagain⟩⟩
  · exact absurd (he.symm.trans hcd) (by simp)
  · exact absurd (hleave.symm.trans hcd) (by simp)
  · obtain rfl := Round.again.inj (hagain.symm.trans hcd)
    refine ⟨c.current, ?_, hnew, rfl⟩
    exact List.mem_map.mpr ⟨t, Keyed.mem_of_find? ht, Store.slug_of_task? ht⟩

/-! ## What it accepts -/

theorem climbsTo_of_returns {c : Climb} {r : Except String Unit}
    (h : Returns (rejectCycleRound s slug newParent) c r) (hr : r = .ok ()) :
    ∃ path, ClimbsTo s c.current path ∧ slug ∉ path ∧ path.Nodup ∧ ∀ a ∈ path, a ∉ c.visited := by
  induction h with
  | @leave c r hround =>
      subst hr
      rcases rejectCycleRound_cases s slug newParent c with
        ⟨e, he⟩ | ⟨hne, hnew, t, ht, ⟨hroot, -⟩ | ⟨p, -, hagain⟩⟩
      · exact absurd (Round.leave.inj (he.symm.trans hround)) (by simp)
      · refine ⟨[c.current], .root ht hroot, ?_, List.nodup_singleton _, ?_⟩
        · exact fun hmem => hne (List.mem_singleton.mp hmem).symm
        · intro a ha
          rwa [List.mem_singleton.mp ha]
      · exact absurd (hagain.symm.trans hround) (by simp)
  | @again c d r hround _ ih =>
      rcases rejectCycleRound_cases s slug newParent c with
        ⟨e, he⟩ | ⟨hne, hnew, t, ht, ⟨-, hleave⟩ | ⟨p, hp, hagain⟩⟩
      · exact absurd (he.symm.trans hround) (by simp)
      · exact absurd (hleave.symm.trans hround) (by simp)
      · obtain rfl := Round.again.inj (hagain.symm.trans hround)
        obtain ⟨path, hclimb, hslug, hnodup, hfresh⟩ := ih hr
        refine ⟨c.current :: path, .up ht hp hclimb, ?_, ?_, ?_⟩
        · exact fun hmem => (List.mem_cons.mp hmem).elim (fun h => hne h.symm) hslug
        · exact List.nodup_cons.mpr ⟨fun hmem => hfresh _ hmem List.mem_cons_self, hnodup⟩
        · intro a ha
          rcases List.mem_cons.mp ha with rfl | ha
          · exact hnew
          · exact fun hmem => hfresh a ha (List.mem_cons_of_mem _ hmem)

theorem returns_of_climbsTo {a : String} {path : List String} (h : ClimbsTo s a path) :
    ∀ visited : List String, slug ∉ path → path.Nodup → (∀ b ∈ path, b ∉ visited) →
      Returns (rejectCycleRound s slug newParent) ⟨a, visited⟩ (.ok ()) := by
  -- The checks of the round at the head of a path with no slug twice pass.
  have hround : ∀ {a : String} {t : Task} {visited rest : List String}, s.task? a = some t →
      slug ∉ a :: rest → (∀ b ∈ a :: rest, b ∉ visited) →
      rejectCycleRound s slug newParent ⟨a, visited⟩ = match t.parent with
        | none => .leave (.ok ())
        | some parent => .again ⟨parent, a :: visited⟩ := by
    intro a t visited rest ht hslug hfresh
    have hne : a ≠ slug := fun h => hslug (h ▸ List.mem_cons_self)
    have hnew : visited.contains a ≠ true :=
      fun h => hfresh a List.mem_cons_self (List.contains_iff_mem.mp h)
    rw [rejectCycleRound, if_neg hne, if_neg hnew, loadTask_eq_ok.mpr ht]
  induction h with
  | root ht hroot =>
      intro visited hslug _ hfresh
      exact .leave (by rw [hround ht hslug hfresh, hroot])
  | @up a b t path ht hp _ ih =>
      intro visited hslug hnodup hfresh
      obtain ⟨hout, hnodup⟩ := List.nodup_cons.mp hnodup
      refine .again (by rw [hround ht hslug hfresh, hp]) (ih (a :: visited) ?_ hnodup ?_)
      · exact fun hmem => hslug (List.mem_cons_of_mem _ hmem)
      · intro c hc hmem
        rcases List.mem_cons.mp hmem with rfl | hmem
        · exact hout hc
        · exact hfresh c (List.mem_cons_of_mem _ hc) hmem

/-- `reject_cycle` accepts the parents that lead to a root. -/
theorem rejectCycle_accepts_iff : rejectCycle s slug newParent = .ok () ↔
    ∃ path, ClimbsTo s newParent path ∧ slug ∉ path ∧ path.Nodup := by
  have hreturns := rejectCycle_returns s slug newParent
  constructor
  · intro h
    obtain ⟨path, hclimb, hslug, hnodup, -⟩ := climbsTo_of_returns hreturns h
    exact ⟨path, hclimb, hslug, hnodup⟩
  · rintro ⟨path, hclimb, hslug, hnodup⟩
    exact hreturns.unique
      (returns_of_climbsTo hclimb [] hslug hnodup (fun _ _ => List.not_mem_nil))

/-! ## After the edit -/

theorem perform_ok {α : Type} {env : Env} {plan : Except String (Planned α)}
    {after : α → Store → Store} {r : α} (h : (perform env s plan after).1 = .ok r) :
    ∃ ws, plan = .ok (ws, r) ∧ (perform env s plan after).2 = after r (s.applyAll ws) := by
  cases plan with
  | error text => exact absurd h (by simp [perform])
  | ok planned =>
      obtain ⟨ws, result⟩ := planned
      cases hf : env.failAt with
      | none =>
          simp only [perform, commit, hf, Except.ok.injEq] at h ⊢
          exact ⟨ws, by rw [h], by rw [h]⟩
      | some k =>
          by_cases hk : k < ws.length
          · simp [perform, commit, hf, hk] at h
          · simp only [perform, commit, hf, if_neg hk, Except.ok.injEq] at h ⊢
            exact ⟨ws, by rw [h], by rw [h]⟩

/-- An edit that sets the parent has passed the check, and has written the link. -/
theorem parentOf_editTask {env : Env} {target : TaskTarget} {edit : TaskEdit} {t : Task}
    {name : String} (hname : edit.parent = some name)
    (h : (editTask env s target edit).1 = .ok t) :
    ∃ p, rejectCycle s t.slug p = .ok () ∧
      (editTask env s target edit).2.parentOf = Function.update s.parentOf t.slug (some p) := by
  obtain ⟨ws, hplan, hstore⟩ := perform_ok h
  obtain ⟨old, q, title, blockedOn, notes, detail, -, hq, hsaves, ht⟩ := editTaskPlan_ok hplan
  have htslug : t.slug = old.slug := hsaves.slug
  have htparent : t.parent = q := by rw [ht]
  obtain ⟨w, hw, rfl⟩ := hsaves.saved
  obtain ⟨hv, rfl⟩ := saveTask_ok hw
  obtain ⟨p, rfl, hcycle⟩ : ∃ p, q = some p ∧ rejectCycle s old.slug p = .ok () := by
    simp only [editParent, hname, bind_eq_ok] at hq
    obtain ⟨p, -, hq⟩ := hq
    split at hq
    · exact absurd hq (by simp)
    · simp only [bind_eq_ok] at hq
      obtain ⟨-, -, ⟨⟩, hcycle, hq⟩ := hq
      exact ⟨p, (Except.ok.inj hq).symm, hcycle⟩
  refine ⟨p, htslug ▸ hcycle, ?_⟩
  rw [← Store.world_parentOf, editTask, hstore, touchTaskSession_world]
  funext k
  rw [Store.world_parentOf, Store.parentOf, Store.applyAll_cons, Store.applyAll_nil,
    Store.task?_saveTask]
  by_cases hk : t.slug = k
  · rw [if_pos hk, ← hk, Function.update_self, Option.bind_some, htparent]
  · rw [if_neg hk, Function.update_of_ne (Ne.symm hk), Store.parentOf]

/-- **`reject_cycle` returns on every store, accepts exactly the parents whose
links lead to a root without the task and without a slug twice, and after an
edit that it accepted no loop of parent links passes through the task.** -/
theorem rejectCycle_exact (s : Store) (slug newParent : String) :
    Returns (rejectCycleRound s slug newParent) ⟨newParent, []⟩ (rejectCycle s slug newParent) ∧
      (rejectCycle s slug newParent = .ok () ↔
        ∃ path, ClimbsTo s newParent path ∧ slug ∉ path ∧ path.Nodup) ∧
      ∀ (env : Env) (target : TaskTarget) (edit : TaskEdit) (name : String) (t : Task),
        edit.parent = some name → (editTask env s target edit).1 = .ok t →
        ¬ TransGen (Link (editTask env s target edit).2.parentOf) t.slug t.slug := by
  refine ⟨rejectCycle_returns s slug newParent, rejectCycle_accepts_iff, ?_⟩
  intro env target edit name t hname hedit
  obtain ⟨p, hcycle, hparent⟩ := parentOf_editTask hname hedit
  rw [hparent]
  exact not_loop_update (rejectCycle_ok hcycle)

end

/-- Two tasks, where the second one is put under the first. -/
theorem rejectCycle_exact_under :
    let s := runOps [startPlain, addPlain "2" "a" .detached .queue, addPlain "3" "b" .detached .queue]
    let edit : TaskEdit := ⟨none, some "a", false, [], [], none, none, none⟩
    ¬ TransGen (Link (editTask (.plain "4") s (.input "b") edit).2.parentOf) "b" "b" := by
  intro s edit
  have hedit : (editTask (.plain "4") s (.input "b") edit).1.toOption.map Task.slug = some "b" := by
    decide
  obtain ⟨t, ht, hslug⟩ := Option.map_eq_some_iff.mp hedit
  have hok : (editTask (.plain "4") s (.input "b") edit).1 = .ok t := by
    cases h : (editTask (.plain "4") s (.input "b") edit).1 with
    | error e =>
        rw [h] at ht
        exact absurd ht (by simp [Except.toOption])
    | ok u =>
        rw [h] at ht
        exact congrArg Except.ok (Option.some.inj ht)
  have hnoloop :=
    (rejectCycle_exact s "b" "a").2.2 (.plain "4") (.input "b") edit "a" t rfl hok
  rwa [hslug] at hnoloop

end Llmenv.Tasks
