/-
# `Llmenv.Tasks.Plans` — what an accepted plan says

A call plans its writes before it makes one of them.  This module opens the
plan of each operation ONCE: which stored task it read, what it had checked,
and which task it saves.  What that means for the abstract world
(`Llmenv.Tasks.Effects`) and for the records themselves
(`Llmenv.Tasks.Writes`) is derived from these lemmas, so a change of one
operation is a change of one lemma here.
-/
import Llmenv.Tasks.Ops

namespace Llmenv.Tasks

open Llmenv.Lib

/-! ## One saved task -/

theorem saveTask_ok {t : Task} {w : Write} (h : saveTask t = .ok w) :
    ∃ hv, w = .saveTask t hv := by
  unfold saveTask at h
  split at h
  · rename_i hv
    exact ⟨hv, (Except.ok.inj h).symm⟩
  · exact absurd h (by simp)

theorem slug_of_load {s : Store} {slug : String} {t : Task} (h : loadOrFail s slug = .ok t) :
    t.slug = slug :=
  Store.slug_of_task? (loadOrFail_eq_ok.mp h)

theorem stored_of_load {s : Store} {slug : String} {t : Task} (h : loadOrFail s slug = .ok t) :
    s.task? t.slug = some t := by
  rw [slug_of_load h]
  exact loadOrFail_eq_ok.mp h

theorem mem_saveTask {u : Task} {w : Write} (h : saveTask u = .ok w) {t : Task}
    {hv : isValidShortName t.slug = true} (hmem : Write.saveTask t hv ∈ [w]) : t = u := by
  obtain ⟨hv', rfl⟩ := saveTask_ok h
  have heq := List.mem_singleton.mp hmem
  injection heq

/-- The plan saves one task: `t'` takes the place of the stored task `t`. -/
structure SavesOne (s : Store) (ws : List Write) (t t' : Task) : Prop where
  stored : s.task? t.slug = some t
  slug : t'.slug = t.slug
  saved : ∃ w, saveTask t' = .ok w ∧ ws = [w]

theorem SavesOne.of_load {s : Store} {slug : String} {t t' : Task} {w : Write}
    (ht : loadOrFail s slug = .ok t) (hslug : t'.slug = t.slug) (hw : saveTask t' = .ok w) :
    SavesOne s [w] t t' :=
  ⟨stored_of_load ht, hslug, w, hw, rfl⟩

/-- Nothing else is saved. -/
theorem SavesOne.eq_of_mem {s : Store} {ws : List Write} {t t' u : Task}
    (h : SavesOne s ws t t') {hv : isValidShortName u.slug = true}
    (hmem : Write.saveTask u hv ∈ ws) : u = t' := by
  obtain ⟨w, hw, rfl⟩ := h.saved
  exact mem_saveTask hw hmem

section

variable {env : Env} {s : Store} {target : TaskTarget} {ws : List Write}

/-! ## Adding -/

/-- The session, the name and the place of an added task. -/
theorem addTaskPlan_saves {new : NewTask} {parent : ParentSpec} {choice : SessionChoice}
    {project : String} {r : Task}
    (h : addTaskPlan env s new parent choice project = .ok (ws, r)) :
    ∃ id explicit, resolveSessionForAdd s choice project = .ok id ∧ r.session = some id ∧
      explicitParent env s parent id = .ok explicit ∧
      placeTask env s new.placement explicit id = .ok (r.parent, r.relation, r.parallel) ∧
      r.slug = newSlug env s new.title ∧ r.state = .opened ∧
      ∃ w, saveTask r = .ok w ∧ ws = [w] := by
  simp only [addTaskPlan, addTaskForSessionPlan, bind_eq_ok] at h
  obtain ⟨id, hid, -, -, explicit, hexplicit, ⟨q, relation, parallel⟩, hplace, blockedOn, -, w, hw,
    h⟩ := h
  simp only [Except.ok.injEq, Prod.mk.injEq] at h
  obtain ⟨rfl, rfl⟩ := h
  exact ⟨id, explicit, hid, rfl, hexplicit, hplace, rfl, rfl, w, hw, rfl⟩

/-! ## Starting and finishing -/

/-- A start is accepted: `t` is the task, and `promoted` are its ancestors that
go in progress with it. -/
structure Accepted (env : Env) (s : Store) (target : TaskTarget) (force : Bool) (t : Task)
    (promoted : List Task) : Prop where
  slug : target.slugIn env s = .ok t.slug
  stored : s.task? t.slug = some t
  unfinished : t.state ≠ .done
  checked : checkUnforced s t force = .ok ()
  ancestors : ancestorsToStart s t force = .ok promoted

/-- A start that is planned is accepted, and saves the ancestors and then the task. -/
theorem startTaskPlan_accepted {force : Bool} {r : Task}
    (h : startTaskPlan env s target force = .ok (ws, r)) :
    ∃ t promoted, Accepted env s target force t promoted ∧
      saveAll (promoted.map (fun u => u.started (env.now 0)) ++ [t.started (env.now 0)]) =
        .ok ws := by
  simp only [startTaskPlan, bind_eq_ok] at h
  obtain ⟨-, -, slug, hslug, t, ht, h⟩ := h
  obtain rfl := slug_of_load ht
  split at h
  · exact absurd h (by simp)
  · rename_i hdone
    simp only [bind_eq_ok] at h
    obtain ⟨⟨⟩, hchecked, promoted, hpromoted, ws', hws, h⟩ := h
    obtain ⟨rfl, -⟩ : ws' = ws ∧ _ = r := by simpa using h
    exact ⟨t, promoted, ⟨hslug, stored_of_load ht, hdone, hchecked, hpromoted⟩, hws⟩

/-- A finished task is left alone, and another is closed; without `--force` it
has no unfinished sub-task. -/
theorem closeTaskPlan_ok {force : Bool} {caller : Option Caller} {r : Completed}
    (h : closeTaskPlan env s target force caller = .ok (ws, r)) :
    ws = [] ∨ ∃ t, (force = false → undoneDescendants t.slug s.tasks.items = []) ∧
      SavesOne s ws t (t.closed (env.now 0) force caller) := by
  simp only [closeTaskPlan, bind_eq_ok] at h
  obtain ⟨-, -, slug, -, t, ht, h⟩ := h
  obtain rfl := slug_of_load ht
  split at h
  · exact absurd h (by simp)
  · split at h
    · exact absurd h (by simp)
    · rename_i hundone
      split at h
      · exact Or.inl (by simpa using (congrArg Prod.fst (Except.ok.inj h)).symm)
      · obtain ⟨w, hw, h⟩ := bind_eq_ok.mp h
        obtain ⟨rfl, -⟩ : [w] = ws ∧ _ = r := by simpa using h
        refine Or.inr ⟨t, fun hforce => ?_, .of_load ht rfl hw⟩
        exact by_contra fun hne => hundone ⟨hforce, hne⟩

/-! ## Waiting, blocking, noting -/

theorem waitTaskPlan_ok {reason : String} {r : Task}
    (h : waitTaskPlan env s target reason = .ok (ws, r)) :
    ∃ t notes, t.state ≠ .done ∧ SavesOne s ws t
      { t with state := .waiting, notes := notes, updatedAt := env.now 1 } := by
  simp only [waitTaskPlan, bind_eq_ok] at h
  obtain ⟨slug, -, t, ht, h⟩ := h
  split at h
  · exact absurd h (by simp)
  · rename_i hdone
    obtain ⟨w, hw, h⟩ := bind_eq_ok.mp h
    obtain ⟨rfl, -⟩ : [w] = ws ∧ _ = r := by simpa using h
    exact ⟨t, _, hdone, .of_load ht rfl hw⟩

theorem blockTaskPlan_ok {on : String} {r : Task}
    (h : blockTaskPlan env s target on = .ok (ws, r)) :
    ∃ t blockedOn, SavesOne s ws t { t with blockedOn := blockedOn, updatedAt := env.now 0 } := by
  simp only [blockTaskPlan, bind_eq_ok] at h
  obtain ⟨-, -, -, -, slug, -, onSlug, -, h⟩ := h
  split at h
  · exact absurd h (by simp)
  · obtain ⟨t, ht, h⟩ := bind_eq_ok.mp h
    obtain ⟨w, hw, h⟩ := bind_eq_ok.mp h
    obtain ⟨rfl, -⟩ : [w] = ws ∧ _ = r := by simpa using h
    exact ⟨t, _, .of_load ht rfl hw⟩

theorem noteTaskPlan_ok {text : String} {r : Task}
    (h : noteTaskPlan env s target text = .ok (ws, r)) :
    ∃ t notes, SavesOne s ws t { t with notes := notes, updatedAt := env.now 1 } := by
  simp only [noteTaskPlan, bind_eq_ok] at h
  obtain ⟨slug, -, t, ht, w, hw, h⟩ := h
  obtain ⟨rfl, -⟩ : [w] = ws ∧ _ = r := by simpa using h
  exact ⟨t, _, .of_load ht rfl hw⟩

/-! ## Editing, reopening, deleting -/

/-- An edit passes the checks of its parent `q`, and saves the task with `q`. -/
theorem editTaskPlan_ok {edit : TaskEdit} {r : Task}
    (h : editTaskPlan env s target edit = .ok (ws, r)) :
    ∃ t q title blockedOn notes detail, target.slugIn env s = .ok t.slug ∧
      editParent env s t edit = .ok q ∧ SavesOne s ws t r ∧
      r = { t with
        title := title, parent := q, blockedOn := blockedOn, notes := notes, detail := detail,
        updatedAt := env.now 1 } := by
  simp only [editTaskPlan, bind_eq_ok] at h
  obtain ⟨-, -, -, -, slug, hslug, t, ht, q, hq, blocked, -, blockedOn, -, notes, -, w, hw, h⟩ := h
  obtain rfl := slug_of_load ht
  simp only [Except.ok.injEq, Prod.mk.injEq] at h
  obtain ⟨rfl, rfl⟩ := h
  exact ⟨t, q, _, _, _, _, hslug, hq, .of_load ht rfl hw, rfl⟩

/-- The lenient reopen leaves an unfinished task alone. -/
theorem reopenTaskPlan_ok {r : Task} (h : reopenTaskPlan env s target = .ok (ws, r)) :
    ws = [] ∨ ∃ t, target.slug env s = .ok t.slug ∧ t.state = .done ∧
      SavesOne s ws t (t.reopened (env.now 0) "task start --reopen") := by
  simp only [reopenTaskPlan, bind_eq_ok] at h
  obtain ⟨slug, hslug, t, ht, h⟩ := h
  obtain rfl := slug_of_load ht
  split at h
  · exact Or.inl (by simpa using (congrArg Prod.fst (Except.ok.inj h)).symm)
  · rename_i hdone
    obtain ⟨w, hw, h⟩ := bind_eq_ok.mp h
    obtain ⟨rfl, -⟩ : [w] = ws ∧ _ = r := by simpa using h
    exact Or.inr ⟨t, hslug, by simpa using hdone, .of_load ht rfl hw⟩

theorem deleteTaskPlan_ok {r : Task} (h : deleteTaskPlan env s target = .ok (ws, r)) :
    ∃ slug, ws = [.removeTask slug] := by
  simp only [deleteTaskPlan, bind_eq_ok] at h
  obtain ⟨slug, -, t, -, h⟩ := h
  exact ⟨slug, by simpa using (congrArg Prod.fst (Except.ok.inj h)).symm⟩

end

end Llmenv.Tasks
