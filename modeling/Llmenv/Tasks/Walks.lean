/-
# `Llmenv.Tasks.Walks` — the walks along parent links, and the queue

Five functions follow parent links, and each guards against a loop in its own
way: `reject_cycle` walks up from a new parent, `ancestors_to_start` walks up
from a sub-task, `undone_descendants` and `first_undone_in_subtree` walk down.
The queue of a session needs no links: it is computed from creation times.

Every walk carries the slugs it has seen, and those are slugs of stored tasks,
so the number of files bounds its length.  That number is the fuel of the
recursion; the branch for "no fuel" is not reached.
-/
import Llmenv.Tasks.Resolve

namespace Llmenv.Tasks

open Llmenv.Lib

/-! ## The order of tasks -/

/-- Creation time, then slug for a tie. -/
def queueOrder (a b : Task) : Ordering :=
  (compare a.createdAt b.createdAt).then (compare a.slug b.slug)

/-- `sort_by(queue_order)`. -/
def sortTasks (tasks : List Task) : List Task :=
  tasks.insertionSort (fun a b => queueOrder a b ≠ .gt)

@[simp] theorem mem_sortTasks {tasks : List Task} {t : Task} : t ∈ sortTasks tasks ↔ t ∈ tasks :=
  List.mem_insertionSort _

/-- A search for a slug is a lookup. -/
theorem find?_slug (m : Keyed Task.slug) (slug : String) :
    m.items.find? (fun t => t.slug == slug) = m.find? slug := by
  rw [Keyed.find?]
  congr 1

/-- The tasks of one session. -/
def tasksInSession (tasks : List Task) (id : String) : List Task :=
  tasks.filter (fun t => t.session == some id)

/-! ## The queue of a session -/

/-- Its `Queued`, non-parallel tasks in creation order. -/
def queue (sessionTasks : List Task) : List Task :=
  sortTasks (sessionTasks.filter (fun t => t.relation == .queued && !t.parallel))

def blockedMessage (task ahead : Task) (state : String) : String :=
  s!"task '{task.slug}' is queued behind '{ahead.slug}' ({state}). Finish '{ahead.slug}' with `llmenv task done {ahead.slug}`, or park it with `llmenv task wait {ahead.slug} \"<reason>\"`. If '{task.slug}' can run beside it, pass --force."

/-- The task directly ahead of `slug` in a queue. -/
def aheadOf (queued : List Task) (slug : String) : Option Task :=
  match queued.findIdx? (fun t => t.slug == slug) with
  | some (pos + 1) => queued[pos]?
  | _ => none

/-- Why `task` may not start yet, or `none` when it may. -/
def queueBlock (task : Task) (sessionTasks : List Task) : Option String :=
  if task.state ≠ .opened || task.relation ≠ .queued || task.parallel then none
  else
    let queued := queue sessionTasks
    match queued.find? (fun t => t.slug != task.slug && t.state == .wip) with
    | some busy => some (blockedMessage task busy "in progress")
    | none =>
        match aheadOf queued task.slug with
        | none => none
        | some ahead =>
            if ahead.state = .done || ahead.state = .waiting then none
            else some (blockedMessage task ahead ahead.state.asStr)

/-- The queue check of `start_task` and of `ancestors_to_start`: a task with no
session has no queue to check. -/
def queueBlockIn (s : Store) (task : Task) : Option String :=
  task.session.bind (fun id => queueBlock task (tasksInSession s.tasks.items id))

/-! ## Walking up: the check on a new parent -/

/-- The loop of `reject_cycle` at `current`. -/
def rejectCycleFrom (s : Store) (slug newParent : String) :
    Nat → String → List String → Except String Unit
  | 0, current, _ =>
      .error s!"cannot set the parent of '{slug}' to '{newParent}': the ancestors loop at '{current}'"
  | fuel + 1, current, visited =>
      if current = slug then
        .error s!"setting parent to '{newParent}' would make '{slug}' its own ancestor. Fix: pick a parent other than the task itself"
      else if visited.contains current then
        .error s!"cannot set the parent of '{slug}' to '{newParent}': the ancestors loop at '{current}'. Fix: clear the parent of one task in that loop with `llmenv task edit <task> --no-parent`"
      else
        match loadTask s current with
        | .error .notFound =>
            .error s!"cannot set the parent of '{slug}' to '{newParent}': ancestor '{current}' is missing from the task store. Fix: clear or re-point the parent of the task that names '{current}'"
        | .error .invalidName =>
            .error s!"cannot check parent '{newParent}' of '{slug}': ancestor '{current}' is unreadable"
        | .ok task =>
            match task.parent with
            | none => .ok ()
            | some parent => rejectCycleFrom s slug newParent fuel parent (current :: visited)

/-- Refuse a parent that would make `slug` its own ancestor. -/
def rejectCycle (s : Store) (slug newParent : String) : Except String Unit :=
  rejectCycleFrom s slug newParent (s.tasks.items.length + 1) newParent []

/-! ## Walking up: the ancestors that a start promotes -/

/-- The loop of `ancestors_to_start` at `current`. -/
def ancestorsFrom (s : Store) (child : Task) (force : Bool) :
    Nat → List String → Task → Except String (List Task)
  | 0, _, current =>
      .error s!"cannot start '{child.slug}': its ancestors loop at '{current.slug}'"
  | fuel + 1, seen, current =>
      if current.relation = .child then
        match current.parent with
        | none =>
            .error s!"cannot start '{child.slug}': sub-task '{current.slug}' has no parent. Fix: repair the task file of '{current.slug}' so that its parent link matches its relation"
        | some parentSlug =>
            if seen.contains parentSlug then
              .error s!"cannot start '{child.slug}': its ancestors loop at '{parentSlug}'. Fix: clear the parent of one task in that loop with `llmenv task edit <task> --no-parent`"
            else
              match loadTask s parentSlug with
              | .error .notFound =>
                  .error s!"cannot start '{child.slug}': its parent '{parentSlug}' is missing from the task store. Fix: clear the parent with `llmenv task edit {child.slug} --no-parent`"
              | .error .invalidName =>
                  .error s!"cannot start '{child.slug}': ancestor '{parentSlug}' is unreadable. Repair or remove its task file, then start again"
              | .ok parent =>
                  if parent.state = .done ∧ force = false then
                    .error s!"the parent '{parentSlug}' of '{child.slug}' is done. Reopen it with `llmenv task start --reopen {parentSlug}`, or pass --force."
                  else if parent.state = .opened then
                    match (if force then none else queueBlockIn s parent) with
                    | some block => .error s!"the parent of '{child.slug}' cannot start: {block}"
                    | none => do
                        let above ← ancestorsFrom s child force fuel (parentSlug :: seen) parent
                        .ok (parent :: above)
                  else ancestorsFrom s child force fuel (parentSlug :: seen) parent
      else .ok []

/-- The `open` ancestors that starting `child` puts in progress. -/
def ancestorsToStart (s : Store) (child : Task) (force : Bool) : Except String (List Task) :=
  ancestorsFrom s child force (s.tasks.items.length + 1) [child.slug] child

/-! ## Walking down: the sub-tasks that keep a parent open -/

/-- The direct sub-tasks of `parent`. -/
def children (parent : String) (all : List Task) : List Task :=
  all.filter (fun t => t.relation == .child && t.parent == some parent)

/-- The state of the search: the stack, the slugs seen, the tasks found. -/
structure Search where
  frontier : List String
  seen : List String
  found : List Task

/-- Push one sub-task that was not seen before. -/
def Search.visit (x : Search) (child : Task) : Search :=
  if x.seen.contains child.slug then x
  else
    { frontier := child.slug :: x.frontier
      seen := child.slug :: x.seen
      found := if child.state ≠ .done then child :: x.found else x.found }

def searchFrom (all : List Task) : Nat → Search → Search
  | 0, x => x
  | fuel + 1, x =>
      match x.frontier with
      | [] => x
      | current :: rest =>
          searchFrom all fuel ((children current all).foldl Search.visit { x with frontier := rest })

/-- Every sub-task below `slug`, at any depth, that is not `done`. -/
def undoneDescendants (slug : String) (all : List Task) : List Task :=
  sortTasks (searchFrom all (all.length + 1) ⟨[slug], [slug], []⟩).found

/-- The refusal text for `done <parent>` while sub-tasks remain. -/
def undoneChildrenMessage (slug : String) (undone : List Task) : String :=
  let entry := fun (t : Task) => let label := t.state.asStr; s!"'{t.slug}' ({label})"
  let list := Text.joinStr ", " (undone.map entry)
  s!"'{slug}' has sub-tasks that are not done: {list}. Finish them first, or pass --force."

/-! ## Walking down: is a blocker done, with its subtree? -/

/-- Visit the children in order; stop at the first error or undone task. -/
def walkChildren (go : String → List String → Except String (Option String) × List String) :
    List String → List String → Except String (Option String) × List String
  | [], visited => (.ok none, visited)
  | child :: rest, visited =>
      match go child visited with
      | (.error e, visited) => (.error e, visited)
      | (.ok (some undone), visited) => (.ok (some undone), visited)
      | (.ok none, visited) => walkChildren go rest visited

def loopMessage (slug : String) : String :=
  s!"the parent links of task '{slug}' loop, so its blocker walk cannot end. Fix: clear the parent of one task in the loop with `llmenv task edit <task> --no-parent`"

/-- `first_undone_in_subtree::go`, with the visited set passed through. -/
def firstUndoneFrom (all : List Task) (waiter : String) :
    Nat → String → List String → Except String (Option String) × List String
  | 0, slug, visited => (.error (loopMessage slug), visited)
  | fuel + 1, slug, visited =>
      if visited.contains slug then (.error (loopMessage slug), visited)
      else
        match all.find? (fun t => t.slug == slug) with
        | none => (.ok (some slug), slug :: visited)
        | some task =>
            if task.state ≠ .done then (.ok (some slug), slug :: visited)
            else
              walkChildren (firstUndoneFrom all waiter fuel)
                (Text.sortStrings ((all.filter
                  (fun t => t.parent == some slug && t.slug != waiter)).map Task.slug))
                (slug :: visited)

/-- The first task of the subtree of `slug`, without the subtree of `waiter`,
that is missing or not done. -/
def firstUndoneInSubtree (slug waiter : String) (all : List Task) :
    Except String (Option String) :=
  (firstUndoneFrom all waiter (all.length + 1) slug []).1

/-- A loop is not done. -/
def isDoneIncludingDescendants (slug waiter : String) (all : List Task) : Bool :=
  match firstUndoneInSubtree slug waiter all with
  | .ok undone => undone.isNone
  | .error _ => false

/-- Neither done nor waiting, and every blocker is done with its subtree. -/
def isActionable (task : Task) (all : List Task) : Bool :=
  !(task.state == .done || task.state == .waiting) &&
    task.blockedOn.all (fun b => isDoneIncludingDescendants b task.slug all)

end Llmenv.Tasks
