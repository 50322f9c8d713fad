/-
# `Llmenv.Tasks.Writes` — the task files that a call writes

`Llmenv.Tasks.World` forgets whether an unfinished task is open, in progress or
waiting, and whether it is parallel.  Two laws read these fields, so this module
says once more what a call can do, now about the records themselves: a task
that is stored after a call was stored before it, or the call wrote it, and
`Written` lists what it can have written.

A failing save is covered: what is stored then is written by a beginning of the
same writes.
-/
import Llmenv.Tasks.SessionFrame

namespace Llmenv.Tasks

open Llmenv.Lib

/-! ## Reading after writing -/

theorem task?_applyAll {s : Store} {ws : List Write} {k : String} {t : Task}
    (h : (s.applyAll ws).task? k = some t) :
    s.task? k = some t ∨ ∃ hv, Write.saveTask t hv ∈ ws := by
  induction ws generalizing s with
  | nil => exact Or.inl h
  | cons w ws ih =>
      rcases ih h with hstored | ⟨hv, hmem⟩
      · cases w with
        | saveTask u hu =>
            rw [Store.task?_saveTask] at hstored
            split at hstored
            · obtain rfl := Option.some.inj hstored
              exact Or.inr ⟨hu, List.mem_cons_self⟩
            · exact Or.inl hstored
        | removeTask slug =>
            rw [Store.task?_removeTask] at hstored
            split at hstored
            · exact absurd hstored (by simp)
            · exact Or.inl hstored
        | saveSession x hx =>
            rw [Store.task?_saveSession] at hstored
            exact Or.inl hstored
      · exact Or.inr ⟨hv, List.mem_cons_of_mem _ hmem⟩

/-- A task that is stored after a call was stored before it, or is one that the
plan of the call saves. -/
theorem perform_written {α : Type} {env : Env} {s : Store} {plan : Except String (Planned α)}
    {after : α → Store → Store} (hafter : ∀ r s' k, (after r s').task? k = s'.task? k)
    {P : Task → Prop}
    (hplan : ∀ ws r, plan = .ok (ws, r) → ∀ t hv, Write.saveTask t hv ∈ ws → P t)
    {k : String} {t : Task} (h : (perform env s plan after).2.task? k = some t) :
    s.task? k = some t ∨ P t := by
  rcases perform_obs env s plan after (fun s' => s'.task? k) (fun r s' => hafter r s' k) with
    hsame | ⟨ws, r, j, hp, hsame, -⟩
  · exact Or.inl (hsame.symm.trans h)
  · rcases task?_applyAll (hsame.symm.trans h) with hstored | ⟨hv, hmem⟩
    · exact Or.inl hstored
    · exact Or.inr (hplan ws r hp t hv (List.mem_of_mem_take hmem))

theorem touchSessions_task? (env : Env) (ts : List Task) (touched : List String) (s : Store)
    (slug : String) : (touchSessions env ts touched s).task? slug = s.task? slug :=
  touchSessions_obs (fun s => s.task? slug) (fun s t => touchTaskSession_task? env s t slug) ts
    touched s

theorem mem_saveAll {ts : List Task} {ws : List Write} (h : saveAll ts = .ok ws) {t : Task}
    {hv : isValidShortName t.slug = true} (hmem : Write.saveTask t hv ∈ ws) : t ∈ ts := by
  obtain ⟨u, hu, hv', heq⟩ := mem_saves (saveAll_ok h) hmem
  obtain rfl : t = u := by injection heq
  exact hu

/-! ## What a call writes -/

theorem Accepted.stored_of_mem {env : Env} {s : Store} {target : TaskTarget} {force : Bool}
    {t u : Task} {promoted : List Task} (h : Accepted env s target force t promoted)
    (hu : u ∈ promoted ++ [t]) : s.task? u.slug = some u := by
  rcases List.mem_append.mp hu with hu | hu
  · exact (ancestorsFrom_stored h.ancestors u hu).1
  · exact List.mem_singleton.mp hu ▸ h.stored

/-- `t` is the stored task `u` in its place: the relation, the parent, the queue
and the session are the same. -/
structure InPlace (s : Store) (u t : Task) : Prop where
  stored : s.task? u.slug = some u
  slug : t.slug = u.slug
  relation : t.relation = u.relation
  parallel : t.parallel = u.parallel
  parent : t.parent = u.parent
  session : t.session = u.session

/-- The tasks that a call writes. -/
inductive Written (s : Store) : Env × Op → Task → Prop
  | added {env : Env} {new : NewTask} {parent : ParentSpec} {choice : SessionChoice}
      {project : String} {ws : List Write} {t : Task} :
      addTaskPlan env s new parent choice project = .ok (ws, t) →
      Written s (env, .add new parent choice project) t
  | started {env : Env} {target : TaskTarget} {force : Bool} {t u : Task}
      {promoted : List Task} : Accepted env s target force t promoted → u ∈ promoted ++ [t] →
      Written s (env, .start target force) (u.started (env.now 0))
  | waiting {env : Env} {target : TaskTarget} {reason : String} {u t : Task} :
      InPlace s u t → t.state = .waiting → Written s (env, .wait target reason) t
  | edited {env : Env} {target : TaskTarget} {edit : TaskEdit} {u t : Task} :
      target.slugIn env s = .ok u.slug → InPlace s u { t with parent := u.parent } →
      editParent env s u edit = .ok t.parent → t.state = u.state →
      Written s (env, .edit target edit) t
  /-- Finished, reopened, or with other notes and blockers. -/
  | kept {call : Env × Op} {u t : Task} : InPlace s u t →
      t.state = u.state ∨ t.state = .done ∨ t.state = .opened → Written s call t
  /-- The session of the task closed. -/
  | untagged {call : Env × Op} {u t : Task} : s.task? u.slug = some u → t.slug = u.slug →
      t.node = { u.node with session := none } → Written s call t

theorem startTask_written {env : Env} {s : Store} {target : TaskTarget} {force : Bool}
    {k : String} {t : Task} (h : (startTask env s target force).2.task? k = some t) :
    s.task? k = some t ∨ Written s (env, .start target force) t := by
  refine perform_written (fun r s' j => touchTaskSession_task? env s' r j) ?_ h
  intro ws r hp t' hv hmem
  obtain ⟨u, promoted, haccepted, hws⟩ := startTaskPlan_accepted hp
  rcases List.mem_append.mp (mem_saveAll hws hmem) with hin | hin
  · obtain ⟨v, hpro, rfl⟩ := List.mem_map.mp hin
    exact .started haccepted (List.mem_append_left _ hpro)
  · obtain rfl := List.mem_singleton.mp hin
    exact .started haccepted (List.mem_append_right _ (List.mem_singleton_self _))

theorem addTask_written {env : Env} {s : Store} {new : NewTask} {parent : ParentSpec}
    {choice : SessionChoice} {project : String} {k : String} {t : Task}
    (h : (addTask env s new parent choice project).2.task? k = some t) :
    s.task? k = some t ∨ Written s (env, .add new parent choice project) t := by
  refine perform_written (fun r s' j => touchTaskSession_task? env s' r j) ?_ h
  intro ws r hp t' hv hmem
  obtain ⟨-, -, -, -, -, -, -, -, w, hw, rfl⟩ := addTaskPlan_saves hp
  obtain rfl := mem_saveTask hw hmem
  exact .added hp

/-- A new task is `open`, and it is placed as the call says. -/
theorem addTaskPlan_task {env : Env} {s : Store} {new : NewTask} {parent : ParentSpec}
    {choice : SessionChoice} {project : String} {ws : List Write} {t : Task}
    (h : addTaskPlan env s new parent choice project = .ok (ws, t)) :
    t.state = .opened ∧ ∃ explicit id,
      placeTask env s new.placement explicit id = .ok (t.parent, t.relation, t.parallel) := by
  obtain ⟨id, explicit, -, -, -, hplace, -, hopened, -⟩ := addTaskPlan_saves h
  exact ⟨hopened, explicit, id, hplace⟩

theorem completeTask_written {env : Env} {s : Store} {target : TaskTarget} {force : Bool}
    {caller : Option Caller} {k : String} {t : Task}
    (h : (completeTask env s target force caller).2.task? k = some t) :
    s.task? k = some t ∨ Written s (env, .complete target force caller) t := by
  refine perform_written (fun r s' j => touchTaskSession_task? env s' r.task j) ?_ h
  intro ws r hp t' hv hmem
  rcases closeTaskPlan_ok hp with rfl | ⟨u, -, hsaves⟩
  · exact absurd hmem List.not_mem_nil
  · obtain rfl := hsaves.eq_of_mem hmem
    exact .kept (u := u) ⟨hsaves.stored, rfl, rfl, rfl, rfl, rfl⟩ (Or.inr (Or.inl rfl))

theorem waitTask_written {env : Env} {s : Store} {target : TaskTarget} {reason : String}
    {k : String} {t : Task} (h : (waitTask env s target reason).2.task? k = some t) :
    s.task? k = some t ∨ Written s (env, .wait target reason) t := by
  refine perform_written (fun r s' j => touchTaskSession_task? env s' r j) ?_ h
  intro ws r hp t' hv hmem
  obtain ⟨u, notes, -, hsaves⟩ := waitTaskPlan_ok hp
  obtain rfl := hsaves.eq_of_mem hmem
  exact .waiting (u := u) ⟨hsaves.stored, rfl, rfl, rfl, rfl, rfl⟩ rfl

theorem blockTask_written {env : Env} {s : Store} {target : TaskTarget} {on : String}
    {k : String} {t : Task} (h : (blockTask env s target on).2.task? k = some t) :
    s.task? k = some t ∨ Written s (env, .block target on) t := by
  refine perform_written (fun _ _ _ => rfl) ?_ h
  intro ws r hp t' hv hmem
  obtain ⟨u, blockedOn, hsaves⟩ := blockTaskPlan_ok hp
  obtain rfl := hsaves.eq_of_mem hmem
  exact .kept (u := u) ⟨hsaves.stored, rfl, rfl, rfl, rfl, rfl⟩ (Or.inl rfl)

theorem noteTask_written {env : Env} {s : Store} {target : TaskTarget} {text : String}
    {k : String} {t : Task} (h : (noteTask env s target text).2.task? k = some t) :
    s.task? k = some t ∨ Written s (env, .note target text) t := by
  refine perform_written (fun r s' j => touchTaskSession_task? env s' r j) ?_ h
  intro ws r hp t' hv hmem
  obtain ⟨u, notes, hsaves⟩ := noteTaskPlan_ok hp
  obtain rfl := hsaves.eq_of_mem hmem
  exact .kept (u := u) ⟨hsaves.stored, rfl, rfl, rfl, rfl, rfl⟩ (Or.inl rfl)

theorem editTask_written {env : Env} {s : Store} {target : TaskTarget} {edit : TaskEdit}
    {k : String} {t : Task} (h : (editTask env s target edit).2.task? k = some t) :
    s.task? k = some t ∨ Written s (env, .edit target edit) t := by
  refine perform_written (fun r s' j => touchTaskSession_task? env s' r j) ?_ h
  intro ws r hp t' hv hmem
  obtain ⟨u, q, title, blockedOn, notes, detail, hslug, hq, hsaves, rfl⟩ := editTaskPlan_ok hp
  obtain rfl := hsaves.eq_of_mem hmem
  exact .edited hslug ⟨hsaves.stored, rfl, rfl, rfl, rfl, rfl⟩ hq rfl

theorem reopenTask_written {env : Env} {s : Store} {target : TaskTarget} {k : String} {t : Task}
    (h : (reopenTask env s target).2.task? k = some t) :
    s.task? k = some t ∨ Written s (env, .reopen target) t := by
  refine perform_written (fun r s' j => touchTaskSession_task? env s' r j) ?_ h
  intro ws r hp t' hv hmem
  rcases reopenTaskPlan_ok hp with rfl | ⟨u, -, -, hsaves⟩
  · exact absurd hmem List.not_mem_nil
  · obtain rfl := hsaves.eq_of_mem hmem
    exact .kept (u := u) ⟨hsaves.stored, rfl, rfl, rfl, rfl, rfl⟩ (Or.inr (Or.inr rfl))

theorem reopenTargets_written {env : Env} {s : Store} {targets : List TaskTarget} {k : String}
    {t : Task} (h : (reopenTargets env s targets).2.task? k = some t) :
    s.task? k = some t ∨ Written s (env, .reopenAll targets) t := by
  refine perform_written (fun r s' j => touchSessions_task? env r [] s' j) ?_ h
  intro ws r hp t' hv hmem
  obtain ⟨tasks, hbatch, hws⟩ := reopenTargetsPlan_ok hp
  obtain ⟨u, hu, now, rfl⟩ := mem_reopenedFrom (mem_saveAll hws hmem)
  exact .kept (u := u) ⟨hbatch.stored u hu, rfl, rfl, rfl, rfl, rfl⟩ (Or.inr (Or.inr rfl))

/-- A close writes unfinished tasks, without their session. -/
theorem CloseWrites.written {s : Store} {ids : List String} {ws : List Write}
    (h : CloseWrites s ids ws) (call : Env × Op) {t : Task}
    {hv : isValidShortName t.slug = true} (hmem : Write.saveTask t hv ∈ ws) :
    Written s call t := by
  obtain ⟨u, id, -, hu, hslug, hnode⟩ := h.saves t hv hmem
  exact .untagged (mem_unfinishedIn.mp hu).1 hslug hnode

theorem finishSession_written {env : Env} {s : Store} {id : String} {abandonOpen : Bool}
    {k : String} {t : Task} (h : (finishSession env s id abandonOpen).2.task? k = some t) :
    s.task? k = some t ∨ Written s (env, .finishSession id abandonOpen) t := by
  refine perform_written (fun _ _ _ => rfl) ?_ h
  intro ws r hp t' hv hmem
  exact (finishSessionPlan_ok hp).1.written _ hmem

/-- What a call leaves behind: every task that is stored afterwards was stored
before, or is one of the `Written`. -/
theorem exec_written {s : Store} {call : Env × Op} {k : String} {t : Task}
    (h : (exec s call).task? k = some t) : s.task? k = some t ∨ Written s call t := by
  obtain ⟨env, op⟩ := call
  cases op with
  | add new parent choice project => exact addTask_written h
  | start target force => exact startTask_written h
  | complete target force caller => exact completeTask_written h
  | wait target reason => exact waitTask_written h
  | block target on => exact blockTask_written h
  | note target text => exact noteTask_written h
  | edit target edit => exact editTask_written h
  | reopen target => exact reopenTask_written h
  | reopenAll targets => exact reopenTargets_written h
  | delete target =>
      refine perform_written (fun _ _ _ => rfl) ?_ h
      intro ws r hp t' hv hmem
      obtain ⟨slug, rfl⟩ := deleteTaskPlan_ok hp
      exact absurd hmem (by simp)
  | deleteInSession id =>
      refine perform_written (fun _ _ _ => rfl) ?_ h
      intro ws r hp t' hv hmem
      obtain ⟨rfl, -⟩ := Prod.mk.inj (Except.ok.inj hp)
      exact absurd hmem (by simp)
  | startSession request decision =>
      refine perform_written (fun _ _ _ => rfl) ?_ h
      exact fun ws r hp t' hv hmem => (startSessionPlan_ok hp).written _ hmem
  | finishSession id abandonOpen => exact finishSession_written h
  | updateResume id =>
      refine perform_written (fun _ _ _ => rfl) ?_ h
      intro ws r hp t' hv hmem
      obtain ⟨x, hx, rfl, -⟩ := updateResumePlan_ok hp
      exact absurd hmem (by simp)

end Llmenv.Tasks
