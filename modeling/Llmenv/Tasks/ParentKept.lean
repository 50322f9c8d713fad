/-
# `Llmenv.Tasks.ParentKept` — does every sub-task have a parent?

The relation of a task and its parent are two fields.  `task add --child` sets
both, and nothing ever changes the relation; `edit_task --no-parent` clears the
parent of ANY task and leaves the relation alone.  A sub-task without a parent
can then never start: `ancestors_to_start` refuses it.  Two of the other
refusals of that walk name `task edit --no-parent` as their fix.

`sub_task_has_parent` is the law for every run in which `--no-parent` is not
used on a sub-task, with what follows for a start.
-/
import Llmenv.Tasks.Writes

namespace Llmenv.Tasks

open Llmenv.Lib

/-! ## The law -/

/-- Every stored sub-task has a parent. -/
def Store.ParentKept (s : Store) : Prop :=
  ∀ k t, s.task? k = some t → t.relation = .child → t.parent ≠ none

/-- The call does not clear the parent of a sub-task. -/
def KeepsParent (s : Store) : Env × Op → Prop
  | (env, .edit target edit) =>
      edit.parent = none → edit.noParent = true →
        ∀ t, target.slugIn env s = .ok t.slug → s.task? t.slug = some t → t.relation = .queued
  | _ => True

theorem placeTask_parent {env : Env} {s : Store} {placement : Placement}
    {explicit parent : Option String} {id : String} {relation : Tasks.Relation} {parallel : Bool}
    (h : placeTask env s placement explicit id = .ok (parent, relation, parallel))
    (hchild : relation = .child) : parent ≠ none := by
  cases placement with
  | queue =>
      obtain ⟨-, rfl, -⟩ : explicit = parent ∧ .queued = relation ∧ false = parallel := by
        simpa [placeTask] using h
      exact absurd hchild (by simp)
  | parallel =>
      obtain ⟨-, rfl, -⟩ : explicit = parent ∧ .queued = relation ∧ true = parallel := by
        simpa [placeTask] using h
      exact absurd hchild (by simp)
  | child name =>
      simp only [placeTask, bind_eq_ok] at h
      obtain ⟨slug, -, p, -, -, -, h⟩ := h
      obtain ⟨rfl, -⟩ : some slug = parent ∧ _ := by simpa using h
      simp

/-- The parent after an accepted edit: only `--no-parent` takes it away. -/
theorem editParent_kept {env : Env} {s : Store} {u : Task} {edit : TaskEdit} {q : Option String}
    (h : editParent env s u edit = .ok q) (hu : u.parent ≠ none) (hq : q = none) :
    edit.parent = none ∧ edit.noParent = true := by
  unfold editParent at h
  split at h
  · obtain ⟨p, -, h⟩ := bind_eq_ok.mp h
    split at h
    · exact absurd h (by simp)
    · simp only [bind_eq_ok] at h
      obtain ⟨-, -, -, -, h⟩ := h
      rw [hq] at h
      exact absurd h (by simp)
  · rename_i hparent
    refine ⟨hparent, ?_⟩
    by_contra hno
    rw [if_neg hno] at h
    exact hu ((Except.ok.inj h).trans hq)

theorem exec_parentKept {s : Store} {call : Env × Op} (hs : s.ParentKept)
    (hcall : KeepsParent s call) : (exec s call).ParentKept := by
  intro k t ht hchild
  rcases exec_written ht with hstored | hwritten
  · exact hs k t hstored hchild
  · cases hwritten with
    | added hplan =>
        obtain ⟨-, explicit, id, hplace⟩ := addTaskPlan_task hplan
        exact placeTask_parent hplace hchild
    | @started env target force t' u promoted haccepted hu =>
        exact hs u.slug u (haccepted.stored_of_mem hu) hchild
    | @waiting env target reason u _ hplace hstate =>
        rw [hplace.parent]
        exact hs u.slug u hplace.stored (hplace.relation ▸ hchild)
    | @edited env target edit u _ hslug hplace hparent hstate =>
        have hu : u.relation = .child := hplace.relation ▸ hchild
        intro hnone
        obtain ⟨hno, hflag⟩ := editParent_kept hparent (hs u.slug u hplace.stored hu) hnone
        have := hcall hno hflag u hslug hplace.stored
        rw [hu] at this
        exact absurd this (by simp)
    | @kept call u _ hplace hstate =>
        rw [hplace.parent]
        exact hs u.slug u hplace.stored (hplace.relation ▸ hchild)
    | @untagged call u _ hstored hslug hnode =>
        have hparent : t.parent = u.parent := congrArg Node.parent hnode
        have hrelation : t.relation = u.relation := congrArg Node.relation hnode
        rw [hparent]
        exact hs u.slug u hstored (hrelation ▸ hchild)

/-! ## The refusals of a start -/

/-- The refusal of a sub-task without a parent. -/
def noParentText (child current : String) : String :=
  s!"cannot start '{child}': sub-task '{current}' has no parent. Fix: repair the task file of '{current}' so that its parent link matches its relation"

/-- Another refusal. -/
def Unlike (text : String) : Prop := ∀ child current, text ≠ noParentText child current

/-- The last `n` letters, backwards. -/
def ending (n : Nat) (text : String) : List Char := text.toList.reverse.take n

theorem head?_append {a : String} {c : Char} (h : a.toList.head? = some c) (b : String) :
    (a ++ b).toList.head? = some c := by
  simp [h]

theorem ending_append (a : String) {n : Nat} {b : String} {e : List Char}
    (hlen : n ≤ b.toList.length) (h : ending n b = e) : ending n (a ++ b) = e := by
  rw [← h, ending, ending, String.toList_append, List.reverse_append,
    List.take_append_of_le_length (by simpa using hlen)]

theorem head?_noParentText (child current : String) :
    (noParentText child current).toList.head? = some 'c' := by
  unfold noParentText
  iterate 6 refine head?_append ?_ _
  rfl

theorem ending_noParentText (child current : String) :
    ending 2 (noParentText child current) = ['n', 'o'] :=
  ending_append _ (by decide) (by decide)

theorem unlike_of_head {text : String} {c : Char} (h : text.toList.head? = some c)
    (hc : c ≠ 'c') : Unlike text := by
  rintro child current rfl
  rw [head?_noParentText] at h
  exact hc (Option.some.inj h).symm

/-- A message that ends in other letters. -/
theorem unlike_append (a : String) {b : String} (h : ¬ ending 2 b <+: ['n', 'o']) :
    Unlike (a ++ b) := by
  intro child current heq
  refine h ?_
  rw [← ending_noParentText child current, ← heq, ending, ending, String.toList_append,
    List.reverse_append]
  exact List.prefix_take_iff.mpr
    ⟨(List.take_prefix _ _).trans (List.prefix_append _ _), List.length_take_le _ _⟩

theorem checkIdentifier_unlike {input text : String} (h : checkIdentifier input = .error text) :
    Unlike text := by
  unfold checkIdentifier at h
  split at h
  · exact absurd h (by simp)
  · obtain rfl := Except.error.inj h
    exact unlike_append _ (by decide)

theorem pick_unlike {slugs : List String} {input text : String}
    (h : pick slugs input = .error text) : Unlike text := by
  unfold pick at h
  split at h
  · exact absurd h (by simp)
  · split at h
    · exact absurd h (by simp)
    · exact absurd h (by simp)
    · obtain rfl := Except.error.inj h
      exact unlike_of_head (head?_append (head?_append (head?_append rfl _) _) _)
        (c := Char.ofNat 39) (by decide)

theorem resolveWith_unlike {s : Store} {input text : String} {owner : EngineIdentity}
    (h : resolveWith s input owner = .error text) : Unlike text := by
  simp only [resolveWith, bind_eq_error] at h
  rcases h with h | ⟨found, -, h⟩
  · split at h
    · exact absurd h (by simp)
    · exact pick_unlike h
  · cases found with
    | some slug => exact absurd h (by simp)
    | none =>
        dsimp only at h
        split at h
        · exact absurd h (by simp)
        · rcases bind_eq_error.mp h with h | ⟨found, -, h⟩
          · exact pick_unlike h
          · cases found with
            | some slug => exact absurd h (by simp)
            | none =>
                obtain rfl := Except.error.inj h
                exact unlike_of_head (head?_append (head?_append rfl _) _) (c := 'n') (by decide)

/-- A name lookup fails with another text, or with that of the identity. -/
theorem slugIn_unlike {env : Env} {s : Store} {target : TaskTarget} {text : String}
    (h : target.slugIn env s = .error text) : env.identity = .error text ∨ Unlike text := by
  cases target with
  | input name =>
      simp only [TaskTarget.slugIn, resolveIn, bind_eq_error] at h
      rcases h with h | ⟨-, -, h | ⟨owner, -, h⟩⟩
      · exact Or.inr (checkIdentifier_unlike h)
      · exact Or.inl h
      · exact Or.inr (resolveWith_unlike h)
  | resolved slug =>
      simp only [TaskTarget.slugIn, bind_eq_error] at h
      rcases h with h | ⟨-, -, h⟩
      · exact Or.inr (checkIdentifier_unlike h)
      · exact absurd h (by simp)

theorem check_unlike {target : TaskTarget} {text : String} (h : target.check = .error text) :
    Unlike text := by
  cases target with
  | input name => exact checkIdentifier_unlike h
  | resolved slug => exact checkIdentifier_unlike h

theorem loadOrFail_unlike {s : Store} {slug text : String} (h : loadOrFail s slug = .error text) :
    Unlike text := by
  unfold loadOrFail at h
  cases hload : loadTask s slug with
  | ok t =>
      rw [hload] at h
      exact absurd h (by simp [Except.mapError])
  | error e =>
      rw [hload] at h
      obtain rfl := Except.error.inj h
      cases e with
      | invalidName =>
          exact unlike_of_head (head?_append (head?_append rfl _) _) (c := Char.ofNat 39) (by decide)
      | notFound =>
          exact unlike_append _ (by decide)

theorem firstUndoneFrom_unlike {all : List Task} {waiter text : String} :
    ∀ {fuel : Nat} {slug : String} {visited : List String},
      (firstUndoneFrom all waiter fuel slug visited).1 = .error text → Unlike text := by
  have hloop : ∀ slug, Unlike (loopMessage slug) := fun slug =>
    unlike_of_head (c := 't') (head?_append (head?_append rfl _) _) (by decide)
  intro fuel
  induction fuel with
  | zero =>
      intro slug visited h
      exact Except.error.inj h ▸ hloop slug
  | succ fuel ih =>
      have hwalk : ∀ (kids : List String) (visited : List String),
          (walkChildren (firstUndoneFrom all waiter fuel) kids visited).1 = .error text →
          Unlike text := by
        intro kids
        induction kids with
        | nil =>
            intro visited h
            exact absurd h (by simp [walkChildren])
        | cons kid kids ihk =>
            intro visited h
            simp only [walkChildren] at h
            split at h
            · rename_i e visited' hgo
              obtain rfl := Except.error.inj h
              exact ih (by rw [hgo])
            · exact absurd h (by simp)
            · exact ihk _ h
      intro slug visited h
      simp only [firstUndoneFrom] at h
      split at h
      · exact Except.error.inj h ▸ hloop slug
      · split at h
        · exact absurd h (by simp)
        · split at h
          · exact absurd h (by simp)
          · exact hwalk _ _ h

theorem unmetBlockers_unlike {all : List Task} {slug text : String} {blockers : List String}
    (h : unmetBlockers all slug blockers = .error text) : Unlike text := by
  induction blockers with
  | nil => exact absurd h (by simp [unmetBlockers])
  | cons blocker rest ih =>
      simp only [unmetBlockers, bind_eq_error] at h
      rcases h with h | ⟨undone, -, h | ⟨unmet, -, h⟩⟩
      · exact firstUndoneFrom_unlike h
      · exact ih h
      · split at h
        · exact absurd h (by simp)
        · exact absurd h (by simp)

theorem queueBlockIn_unlike {s : Store} {t : Task} {block : String}
    (h : queueBlockIn s t = some block) : Unlike block := by
  have hmessage : ∀ ahead state, Unlike (blockedMessage t ahead state) :=
    fun ahead state => unlike_append _ (by decide)
  obtain ⟨id, -, h⟩ := Option.bind_eq_some_iff.mp h
  simp only [queueBlock] at h
  split at h
  · exact absurd h (by simp)
  · split at h
    · exact Option.some.inj h ▸ hmessage _ _
    · split at h
      · exact absurd h (by simp)
      · split at h
        · exact absurd h (by simp)
        · exact Option.some.inj h ▸ hmessage _ _

theorem checkUnforced_unlike {s : Store} {t : Task} {force : Bool} {text : String}
    (h : checkUnforced s t force = .error text) : Unlike text := by
  unfold checkUnforced at h
  split at h
  · exact absurd h (by simp)
  · rcases bind_eq_error.mp h with h | ⟨-, -, h⟩
    · rcases bind_eq_error.mp h with h | ⟨unmet, -, h⟩
      · exact unmetBlockers_unlike h
      · split at h
        · exact absurd h (by simp)
        · obtain rfl := Except.error.inj h
          exact unlike_append _ (by decide)
    · unfold checkQueue at h
      split at h
      · rename_i block hblock
        obtain rfl := Except.error.inj h
        exact queueBlockIn_unlike hblock
      · exact absurd h (by simp)

theorem saveAll_unlike {ts : List Task} {text : String} (h : saveAll ts = .error text) :
    Unlike text := by
  induction ts with
  | nil => exact absurd h (by simp [saveAll])
  | cons t ts ih =>
      simp only [saveAll, bind_eq_error] at h
      rcases h with h | ⟨w, -, h | ⟨ws, -, h⟩⟩
      · unfold saveTask at h
        split at h
        · exact absurd h (by simp)
        · obtain rfl := Except.error.inj h
          exact unlike_append _ (by decide)
      · exact ih h
      · exact absurd h (by simp)

/-- The walk up meets stored tasks only, and those have their parent. -/
theorem ancestorsFrom_unlike {s : Store} (hs : s.ParentKept) {child : Task} {force : Bool}
    {text : String} : ∀ {fuel : Nat} {seen : List String} {current : Task},
      s.task? current.slug = some current →
      ancestorsFrom s child force fuel seen current = .error text → Unlike text
  | 0, _, _, _, h => by
      obtain rfl := Except.error.inj h
      exact unlike_append _ (by decide)
  | fuel + 1, seen, current, hcurrent, h => by
      simp only [ancestorsFrom] at h
      split at h
      · rename_i hchild
        split at h
        · rename_i hnone
          exact absurd hnone (hs current.slug current hcurrent hchild)
        · split at h
          · obtain rfl := Except.error.inj h
            exact unlike_append _ (by decide)
          · split at h
            · obtain rfl := Except.error.inj h
              exact unlike_append _ (by decide)
            · obtain rfl := Except.error.inj h
              exact unlike_append _ (by decide)
            · rename_i parent hload
              have hparent := loadTask_eq_ok.mp hload
              have hself : s.task? parent.slug = some parent := by
                rwa [Store.slug_of_task? hparent]
              split at h
              · obtain rfl := Except.error.inj h
                exact unlike_append _ (by decide)
              · split at h
                · split at h
                  · rename_i block hblock
                    obtain rfl := Except.error.inj h
                    exact unlike_of_head (c := 't') (head?_append (head?_append (head?_append
                      rfl _) _) _) (by decide)
                  · rcases bind_eq_error.mp h with h | ⟨above, -, h⟩
                    · exact ancestorsFrom_unlike hs hself h
                    · exact absurd h (by simp)
                · exact ancestorsFrom_unlike hs hself h
      · exact absurd h (by simp)

/-- A start whose refusal reads like that of a sub-task without a parent failed
to read the identity of its caller. -/
theorem startTask_refusal {s : Store} (hs : s.ParentKept) {env : Env} {target : TaskTarget}
    {force : Bool} {child current : String}
    (h : (startTask env s target force).1 = .error (.refused (noParentText child current))) :
    env.identity = .error (noParentText child current) := by
  have hplan : startTaskPlan env s target force = .error (noParentText child current) := by
    unfold startTask perform at h
    split at h
    · rename_i text hplan
      rw [hplan, Failure.refused.inj (Except.error.inj h)]
    · split at h
      · rename_i failure s' hcommit
        obtain rfl := Except.error.inj h
        unfold commit at hcommit
        split at hcommit
        · exact absurd hcommit (by simp)
        · split at hcommit
          · exact absurd hcommit (by simp)
          · exact absurd hcommit (by simp)
      · exact absurd h (by simp)
  have hnot : ¬ Unlike (noParentText child current) := fun hun => hun child current rfl
  simp only [startTaskPlan, bind_eq_error] at hplan
  rcases hplan with hplan | ⟨-, -, hplan | ⟨slug, -, hplan | ⟨t, ht, hplan⟩⟩⟩
  · exact absurd (check_unlike hplan) hnot
  · exact (slugIn_unlike hplan).resolve_right hnot
  · exact absurd (loadOrFail_unlike hplan) hnot
  · split at hplan
    · refine absurd ?_ hnot
      rw [← Except.error.inj hplan]
      exact unlike_of_head (c := 't') (head?_append (head?_append rfl _) _) (by decide)
    · simp only [bind_eq_error] at hplan
      rcases hplan with hplan | ⟨-, -, hplan | ⟨promoted, -, hplan | ⟨ws, -, hplan⟩⟩⟩
      · exact absurd (checkUnforced_unlike hplan) hnot
      · exact absurd (ancestorsFrom_unlike hs (stored_of_load ht) hplan) hnot
      · exact absurd (saveAll_unlike hplan) hnot
      · exact absurd hplan (by simp)

/-! ## Every run -/

/-- In every run that never clears the parent of a sub-task with `--no-parent`,
every sub-task has a parent, and no start is refused for the want of one. -/
theorem sub_task_has_parent (calls : List (Env × Op))
    (h : Guarded exec KeepsParent Store.empty calls) :
    (runOps calls).ParentKept ∧
      ∀ env target force child current,
        (startTask env (runOps calls) target force).1 =
            .error (.refused (noParentText child current)) →
          env.identity = .error (noParentText child current) := by
  have hempty : Store.empty.ParentKept := by
    intro k t ht
    exact absurd ht (by simp [Store.task?, Store.empty])
  have hrun : (runOps calls).ParentKept :=
    inv_of_guarded Store.ParentKept (fun s call hs hcall => exec_parentKept hs hcall) hempty h
  exact ⟨hrun, fun env target force child current => startTask_refusal hrun⟩

/-! ## Two runs -/

/-- `task edit <name> --no-parent`. -/
def clearParent (now name : String) : Env × Op :=
  (.plain now, .edit (.input name) ⟨none, none, true, [], [], none, none, none⟩)

/-- Add `a`, its sub-task `b`, and `c` that only points at `a`; delete `a`, and
clear the parent of `name`. -/
def clearAfterDelete (name : String) : List (Env × Op) :=
  [startPlain, addPlain "2" "a" .detached .queue, addPlain "3" "b" .detached (.child "a"),
   addPlain "4" "c" (.explicit "a") .queue, (.plain "5", .delete (.input "a")),
   clearParent "6" name]

/-- Clearing the parent of `c` is harmless: it is a task of the queue. -/
theorem sub_task_has_parent_queued :
    Guarded exec KeepsParent Store.empty (clearAfterDelete "c") ∧
      ∀ t, (runOps (clearAfterDelete "c")).task? "b" = some t → t.relation = .child →
        t.parent ≠ none := by
  have hg : Guarded exec KeepsParent Store.empty (clearAfterDelete "c") := by
    refine ⟨trivial, trivial, trivial, trivial, trivial, ?_, trivial⟩
    intro _ _ t hslug ht
    obtain hc : "c" = t.slug := Except.ok.inj hslug
    rw [← hc] at ht
    exact congrArg Task.relation (Option.some.inj ht) ▸ rfl
  exact ⟨hg, fun t => (sub_task_has_parent _ hg).1 "b" t⟩

/-- The refusal of `b` names `--no-parent` as its fix, and with the fix `b`
cannot start at all. -/
theorem start_refused_without_parent :
    ((runOps (clearAfterDelete "b")).task? "b").map (fun t => (t.relation, t.parent)) =
        some (.child, none) ∧
      (startTask (.plain "7") (runOps (clearAfterDelete "b")) (.input "b") false).1 =
        .error (.refused (noParentText "b" "b")) := by
  constructor
  · decide
  · decide

end Llmenv.Tasks
