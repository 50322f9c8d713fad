/-
# `Llmenv.Tasks.ParentLinks` — are parent links acyclic?

`edit_task` walks up from a new parent and refuses one that leads back
(`reject_cycle`).  `add_task` makes no such walk: its slug is fresh, so nothing
stored can be above the new task.  But a task can still NAME a slug that no
file has, after `delete_task` removed that file, and `unique_slug` gives the
slug out again.  Then the parent of the new task may lead to the new task.

`parentOf_acyclic` is the law under the condition that this does not happen,
for every run; `parentOf_cycle_after_delete` is the run in which it does.
-/
import Llmenv.Tasks.SessionEffects

namespace Llmenv.Tasks

open Llmenv.Lib

/-- The parent link of a stored task. -/
def Store.parentOf (s : Store) (slug : String) : Option String := (s.task? slug).bind Task.parent

theorem Store.world_parentOf (s : Store) : s.world.parentOf = s.parentOf := by
  funext k
  rw [World.parentOf, Store.world_node?, Store.parentOf]
  cases s.task? k <;> rfl

/-! ## The walk of an edit -/

theorem reaches_of_rejectCycleFrom {s : Store} {slug newParent : String} :
    ∀ {fuel : Nat} {current : String} {visited : List String},
      rejectCycleFrom s slug newParent fuel current visited = .ok () →
      ¬ Reaches s.parentOf current slug
  | 0, _, _, h => by simp [rejectCycleFrom] at h
  | fuel + 1, current, visited, h => by
      simp only [rejectCycleFrom] at h
      split at h
      · exact absurd h (by simp)
      · rename_i hne
        split at h
        · exact absurd h (by simp)
        · split at h
          · exact absurd h (by simp)
          · exact absurd h (by simp)
          · rename_i t hload
            have ht := loadTask_eq_ok.mp hload
            intro hreach
            rcases Relation.ReflTransGen.cases_head hreach with rfl | ⟨next, hlink, hrest⟩
            · exact hne rfl
            · have hparent : t.parent = some next := by
                simpa [Link, Store.parentOf, ht] using hlink
              rw [hparent] at h
              exact reaches_of_rejectCycleFrom h hrest

/-- A parent that `reject_cycle` accepts does not lead back to the task. -/
theorem rejectCycle_ok {s : Store} {slug newParent : String}
    (h : rejectCycle s slug newParent = .ok ()) : ¬ Reaches s.parentOf newParent slug :=
  reaches_of_rejectCycleFrom h

/-! ## Every run -/

/-- The parent that an add gives the new task does not lead to a task that
names the slug the new task gets. -/
def NoReusedAncestor (s : Store) : Env × Op → Prop
  | (env, .add new parent _ _) =>
      ∀ name p, new.parentName parent = some name → resolveIn env s name = .ok p →
        ¬ Reaches s.parentOf p (newSlug env s new.title)
  | _ => True

theorem Closing.parentsAcyclic {env : Env} {s : Store} {ids slugs : List String} {w : World}
    (h : Closing env s ids slugs w) (hs : s.world.ParentsAcyclic) : w.ParentsAcyclic := by
  have hparent : w.parentOf = (s.world.apply (.untag slugs)).parentOf := by
    funext k
    simp only [World.parentOf, h.nodes]
  rw [World.ParentsAcyclic, hparent]
  exact World.parentsAcyclic_untag hs slugs

theorem Edited.parentsAcyclic {env : Env} {s : Store} {target : TaskTarget} {edit : TaskEdit}
    {t : Task} {q : Option String} (h : Edited env s target edit t q)
    (hs : s.world.ParentsAcyclic) : (s.world.apply (.reparent t.slug q)).ParentsAcyclic := by
  rcases h.parent with rfl | rfl | ⟨name, p, m, -, -, rfl, -, -, hcycle⟩
  · exact World.parentsAcyclic_reparent hs (by simp)
  · -- The parent it had: the link was there already.
    refine World.parentsAcyclic_reparent hs fun p hp hreach => ?_
    have hlink : Link s.world.parentOf t.slug p := by
      rw [Store.world_parentOf, Link, Store.parentOf, h.stored]
      exact hp
    exact hs t.slug (Relation.TransGen.head' hlink hreach)
  · refine World.parentsAcyclic_reparent hs fun p' hp' => ?_
    obtain rfl := Option.some.inj hp'
    rw [Store.world_parentOf]
    exact rejectCycle_ok hcycle

theorem exec_parentsAcyclic {s : Store} {call : Env × Op} (hs : s.world.ParentsAcyclic)
    (hcall : NoReusedAncestor s call) : (exec s call).world.ParentsAcyclic := by
  have houtcome := exec_outcome s call
  generalize (exec s call).world = w at houtcome ⊢
  cases houtcome with
  | unchanged => exact hs
  | added hadded =>
      refine World.parentsAcyclic_add hs fun p hp => ?_
      obtain ⟨name, -, hname, hres, -⟩ := hadded.parent p hp
      rw [Store.world_parentOf]
      exact hcall name p hname hres
  | finished => exact World.parentsAcyclic_mark hs _ true
  | edited hedited => exact hedited.parentsAcyclic hs
  | reopened => exact World.parentsAcyclic_mark hs _ false
  | reopenedAll => exact World.parentsAcyclic_mark hs _ false
  | removed slugs => exact World.parentsAcyclic_remove hs slugs
  | started hclosing => exact hclosing.parentsAcyclic hs
  | ended hclosing => exact hclosing.parentsAcyclic hs

/-- In every run in which no add reuses a slug that its own parent leads to,
following parents never comes back to a task. -/
theorem parentOf_acyclic (calls : List (Env × Op))
    (h : Guarded exec NoReusedAncestor Store.empty calls) : Acyclic (runOps calls).parentOf := by
  have hempty : Store.empty.world.ParentsAcyclic := by
    intro a ha
    obtain ⟨b, hab, -⟩ := Relation.TransGen.head'_iff.mp ha
    exact absurd hab (by simp [Link, World.parentOf, Store.world_node?])
  have hrun := inv_of_guarded (fun s => s.world.ParentsAcyclic)
    (fun s call hs hcall => exec_parentsAcyclic hs hcall) hempty h
  rwa [World.ParentsAcyclic, Store.world_parentOf] at hrun

/-! ## Two runs -/

/-- A call from a plain terminal in which every save works. -/
def Env.plain (now : String) : Env := ⟨.ok ⟨none, none⟩, fun _ => now, none, none⟩

/-- `task session start` in the project `p`. -/
def startPlain : Env × Op :=
  (.plain "1", .startSession ⟨none, none, "p", ⟨none, none⟩, fun _ => false, fun _ => ""⟩ .new)

/-- `task add <title> --session session`, with or without `--parent`. -/
def addPlain (now title : String) (parent : ParentSpec) (placement : Placement) : Env × Op :=
  (.plain now, .add ⟨title, none, placement, none⟩ parent (.named "session") "p")

/-- Add `a`, add `b` under it, delete `a`, and add `title` under `b`. -/
def addUnderOrphan (title : String) : List (Env × Op) :=
  [startPlain, addPlain "2" "a" .detached .queue, addPlain "3" "b" (.explicit "a") .queue,
   (.plain "4", .delete (.input "a")), addPlain "5" title (.explicit "b") .queue]

/-- A new slug is harmless although the parent of `b` is gone. -/
theorem parentOf_acyclic_fresh : Guarded exec NoReusedAncestor Store.empty (addUnderOrphan "c") ∧
    Acyclic (runOps (addUnderOrphan "c")).parentOf := by
  have hnoParent : ∀ s, NoReusedAncestor s (addPlain "2" "a" .detached .queue) :=
    fun s name p hname => absurd hname (by simp [NewTask.parentName, ParentSpec.name?])
  have hg : Guarded exec NoReusedAncestor Store.empty (addUnderOrphan "c") := by
    refine ⟨trivial, hnoParent _, ?_, trivial, ?_, trivial⟩
    · intro name p hname hres hreach
      obtain rfl : "a" = name := Option.some.inj hname
      obtain rfl : "a" = p := Except.ok.inj hres
      exact absurd (eq_of_reaches_of_none rfl hreach) (by decide)
    · intro name p hname hres hreach
      obtain rfl : "b" = name := Option.some.inj hname
      obtain rfl : "b" = p := Except.ok.inj hres
      rcases Relation.ReflTransGen.cases_head hreach with h | ⟨next, hlink, hrest⟩
      · exact absurd h (by decide)
      · obtain rfl : "a" = next := Option.some.inj hlink
        exact absurd (eq_of_reaches_of_none rfl hrest) (by decide)
  exact ⟨hg, parentOf_acyclic _ hg⟩

/-- The slug of the deleted task is given out again, and closes a cycle. -/
theorem parentOf_cycle_after_delete : ¬ Acyclic (runOps (addUnderOrphan "a")).parentOf := by
  have hab : (runOps (addUnderOrphan "a")).parentOf "a" = some "b" := by decide
  have hba : (runOps (addUnderOrphan "a")).parentOf "b" = some "a" := by decide
  exact fun h => h "a" (.tail (.single hab) hba)

end Llmenv.Tasks
