/-
# `Llmenv.Tasks.OneAtATime` — how many tasks of a queue are in progress?

Two paths put a task of the queue in progress: a direct start, and the
promotion of a queued ancestor with the sub-task below it.  Both ask
`queue_block` first, which refuses while another queued task of the session is
in progress.  One call can promote several ancestors at once, but the walk up
ends at the first queued one, so at most one of them is in the queue.

`queue_block` does not ask a `waiting` task, and none is left `waiting` by a
run without `task wait`.  `one_wip_per_queue` is the law for such runs without
`--force`.
-/
import Llmenv.Tasks.Reminder
import Llmenv.Tasks.Writes

namespace Llmenv.Tasks

open Llmenv.Lib

/-! ## The queued task of a start -/

/-- The task has a place in the queue of the session `id`. -/
def Task.QueuedIn (t : Task) (id : String) : Prop :=
  t.session = some id ∧ t.relation = .queued ∧ t.parallel = false

theorem mem_queue {s : Store} {t : Task} {id : String} (ht : s.task? t.slug = some t)
    (hq : t.QueuedIn id) : t ∈ queue (tasksInSession s.tasks.items id) := by
  simp [queue, tasksInSession, Keyed.mem_of_find? ht, hq.1, hq.2.1, hq.2.2]

/-- A queued task has no ancestors to promote, and at most one of the promoted
ancestors is queued: the walk ends there. -/
theorem ancestorsFrom_queued {s : Store} {child : Task} {fuel : Nat} {seen : List String}
    {current : Task} {above : List Task}
    (h : ancestorsFrom s child false fuel seen current = .ok above) :
    (current.relation = .queued → above = []) ∧ (∀ u ∈ above, QueueFree s u) ∧
      ∀ u ∈ above, ∀ v ∈ above, u.relation = .queued → v.relation = .queued → u = v := by
  induction fuel generalizing seen current above with
  | zero => exact absurd h (by simp [ancestorsFrom])
  | succ fuel ih =>
      rcases ancestorsFrom_ok h with ⟨-, rfl⟩ | ⟨parent, rest, hrel, -, -, -, hrest, hstep⟩
      · simp
      · refine ⟨fun hq => absurd (hq.symm.trans hrel) (by simp), ?_⟩
        obtain ⟨hnil, hfree, honly⟩ := ih hrest
        rcases hstep with ⟨hopened, hblock, rfl⟩ | ⟨-, rfl⟩
        · constructor
          · intro u hu
            rcases List.mem_cons.mp hu with rfl | hu
            · exact (queueBlockIn_eq_none hopened).mp (hblock rfl)
            · exact hfree u hu
          · intro u hu v hv hqu hqv
            rcases List.mem_cons.mp hu with rfl | hu
            · rcases List.mem_cons.mp hv with rfl | hv
              · rfl
              · rw [hnil hqu] at hv
                exact absurd hv List.not_mem_nil
            · rcases List.mem_cons.mp hv with hvp | hv
              · rw [hnil (hvp ▸ hqv)] at hu
                exact absurd hu List.not_mem_nil
              · exact honly u hu v hv hqu hqv
        · exact ⟨hfree, honly⟩

section Start

variable {env : Env} {s : Store} {target : TaskTarget} {t u : Task} {promoted : List Task}

/-- A task that a start writes was in progress or waiting already, or the queue
let it through. -/
theorem Accepted.queueFree_of_mem (h : Accepted env s target false t promoted)
    (hu : u ∈ promoted ++ [t]) :
    u.state = .wip ∨ u.state = .waiting ∨ u.state = .opened ∧ QueueFree s u := by
  rcases List.mem_append.mp hu with hu | hu
  · have hopened := (ancestorsFrom_stored h.ancestors u hu).2
    exact Or.inr (Or.inr ⟨hopened, (ancestorsFrom_queued h.ancestors).2.1 u hu⟩)
  · obtain rfl := List.mem_singleton.mp hu
    cases hstate : u.state with
    | done => exact absurd hstate h.unfinished
    | wip => exact Or.inl rfl
    | waiting => exact Or.inr (Or.inl rfl)
    | opened =>
        have hchecked : (checkBlockers s u >>= fun _ => checkQueue s u) = .ok () := h.checked
        obtain ⟨-, -, hqueue⟩ := bind_eq_ok.mp hchecked
        exact Or.inr (Or.inr ⟨rfl, (checkQueue_eq_ok hstate).mp hqueue⟩)

/-- One start writes at most one queued task. -/
theorem Accepted.queued_unique (h : Accepted env s target false t promoted) {t' v : Task}
    {promoted' : List Task} (h' : Accepted env s target false t' promoted')
    (hu : u ∈ promoted ++ [t]) (hv : v ∈ promoted' ++ [t']) (hqu : u.relation = .queued)
    (hqv : v.relation = .queued) : u = v := by
  -- Both plans are the plan of the same call.
  have hslug : t.slug = t'.slug := Except.ok.inj (h.slug.symm.trans h'.slug)
  have hstored' := h'.stored
  rw [← hslug, h.stored] at hstored'
  obtain rfl := Option.some.inj hstored'
  obtain rfl := Except.ok.inj (h.ancestors.symm.trans h'.ancestors)
  obtain ⟨hnil, -, honly⟩ := ancestorsFrom_queued h.ancestors
  rcases List.mem_append.mp hu with hu | hu
  · rcases List.mem_append.mp hv with hv | hv
    · exact honly u hu v hv hqu hqv
    · rw [hnil (List.mem_singleton.mp hv ▸ hqv)] at hu
      exact absurd hu List.not_mem_nil
  · obtain rfl := List.mem_singleton.mp hu
    rcases List.mem_append.mp hv with hv | hv
    · rw [hnil hqu] at hv
      exact absurd hv List.not_mem_nil
    · exact (List.mem_singleton.mp hv).symm

end Start

/-! ## The invariant -/

/-- In every session no task waits, and at most one task of the queue is in
progress. -/
structure Store.OneWip (s : Store) : Prop where
  noneWaiting : ∀ k t id, s.task? k = some t → t.session = some id → t.state ≠ .waiting
  one : ∀ id t u, s.task? t.slug = some t → s.task? u.slug = some u → t.QueuedIn id →
    u.QueuedIn id → t.state = .wip → u.state = .wip → t.slug = u.slug

/-- The call is not forced, and it is no `task wait`. -/
def Queueing (call : Env × Op) : Prop :=
  Unforced call.2 ∧ ∀ target reason, call.2 ≠ .wait target reason

/-- A queued task in progress after a call: it was so before, or this start put
it there and the queue let it through. -/
theorem wip_before_or_started {s : Store} (hs : s.OneWip) {call : Env × Op} (hcall : Queueing call)
    {t : Task} {id : String} (ht : (exec s call).task? t.slug = some t) (hq : t.QueuedIn id)
    (hwip : t.state = .wip) :
    ∃ u, u.slug = t.slug ∧ s.task? u.slug = some u ∧ u.QueuedIn id ∧
      (u.state = .wip ∨ QueueFree s u ∧ ∃ env target v promoted,
        call = (env, .start target false) ∧ Accepted env s target false v promoted ∧
          u ∈ promoted ++ [v]) := by
  rcases exec_written ht with hstored | hwritten
  · exact ⟨t, rfl, hstored, hq, Or.inl hwip⟩
  · cases hwritten with
    | added hplan =>
        have hopened := (addTaskPlan_task hplan).1
        exact absurd (hwip.symm.trans hopened) (by simp)
    | @started env target force v u promoted haccepted hu =>
        obtain rfl : force = false := hcall.1
        have hstored := haccepted.stored_of_mem hu
        refine ⟨u, rfl, hstored, hq, ?_⟩
        rcases haccepted.queueFree_of_mem hu with hwip | hwait | ⟨-, hfree⟩
        · exact Or.inl hwip
        · exact absurd hwait (hs.noneWaiting _ _ id hstored hq.1)
        · exact Or.inr ⟨hfree, env, target, v, promoted, rfl, haccepted, hu⟩
    | @waiting env target reason u _ hplace hstate => exact absurd rfl (hcall.2 target reason)
    | @edited env target edit u _ hslug hplace hparent hstate =>
        exact ⟨u, hplace.slug.symm, hplace.stored,
          ⟨hplace.session.symm.trans hq.1, hplace.relation.symm.trans hq.2.1,
            hplace.parallel.symm.trans hq.2.2⟩, Or.inl (hstate.symm.trans hwip)⟩
    | @kept call u _ hplace hstate =>
        have hkept : t.state = u.state := by
          rcases hstate with hsame | hdone | hopened
          · exact hsame
          · exact absurd (hwip.symm.trans hdone) (by simp)
          · exact absurd (hwip.symm.trans hopened) (by simp)
        exact ⟨u, hplace.slug.symm, hplace.stored,
          ⟨hplace.session.symm.trans hq.1, hplace.relation.symm.trans hq.2.1,
            hplace.parallel.symm.trans hq.2.2⟩, Or.inl (hkept.symm.trans hwip)⟩
    | @untagged call u _ hstored hslug hnode =>
        have hnone : t.session = none := congrArg Node.session hnode
        exact absurd (hnone.symm.trans hq.1) (by simp)

theorem exec_noneWaiting {s : Store} (hs : s.OneWip) {call : Env × Op} (hcall : Queueing call)
    (k : String) (t : Task) (id : String) (ht : (exec s call).task? k = some t)
    (hses : t.session = some id) : t.state ≠ .waiting := by
  rcases exec_written ht with hstored | hwritten
  · exact hs.noneWaiting k t id hstored hses
  · cases hwritten with
    | added hplan =>
        rw [(addTaskPlan_task hplan).1]
        simp
    | started => simp [Task.started]
    | @waiting env target reason u _ hplace hstate => exact absurd rfl (hcall.2 target reason)
    | @edited env target edit u _ hslug hplace hparent hstate =>
        rw [hstate]
        exact hs.noneWaiting _ _ id hplace.stored (hplace.session.symm.trans hses)
    | @kept call u _ hplace hstate =>
        rcases hstate with hsame | hdone | hopened
        · rw [hsame]
          exact hs.noneWaiting _ _ id hplace.stored (hplace.session.symm.trans hses)
        · simp [hdone]
        · simp [hopened]
    | @untagged call u _ hstored hslug hnode =>
        have hnone : t.session = none := congrArg Node.session hnode
        exact absurd (hnone.symm.trans hses) (by simp)

theorem exec_oneWip {s : Store} (hs : s.OneWip) {call : Env × Op} (hcall : Queueing call) :
    (exec s call).OneWip where
  noneWaiting := exec_noneWaiting hs hcall
  one := by
    intro id t u ht hu hqt hqu hwt hwu
    obtain ⟨a, hat, ha, hqa, hwa⟩ := wip_before_or_started hs hcall ht hqt hwt
    obtain ⟨b, hbu, hb, hqb, hwb⟩ := wip_before_or_started hs hcall hu hqu hwu
    -- A task that the queue let through meets no other one in progress.
    have hmeet : ∀ {x y : Task}, s.task? x.slug = some x → x.QueuedIn id → x.state = .wip →
        y.QueuedIn id → QueueFree s y → x.slug = y.slug := by
      intro x y hx hqx hwx hqy hfree
      by_contra hne
      exact (hfree id hqy.1 hqy.2.1 hqy.2.2).1 x (mem_queue hx hqx) hne hwx
    rw [← hat, ← hbu]
    rcases hwa with hwa | ⟨hfa, env, target, v, promoted, hcalla, hacca, hina⟩
    · rcases hwb with hwb | ⟨hfb, -⟩
      · exact hs.one id a b ha hb hqa hqb hwa hwb
      · exact hmeet ha hqa hwa hqb hfb
    · rcases hwb with hwb | ⟨-, env', target', v', promoted', hcallb, haccb, hinb⟩
      · exact (hmeet hb hqb hwb hqa hfa).symm
      · obtain ⟨rfl, hop⟩ := Prod.mk.inj (hcalla.symm.trans hcallb)
        obtain ⟨rfl, -⟩ := Op.start.inj hop
        exact congrArg Task.slug (hacca.queued_unique haccb hina hinb hqa.2.1 hqb.2.1)

theorem Store.empty_oneWip : Store.empty.OneWip where
  noneWaiting := by simp [Store.task?, Store.empty]
  one := by simp [Store.task?, Store.empty]

/-- In every run without `--force` and `task wait`, each session has at most
one task of its queue in progress. -/
theorem one_wip_per_queue (calls : List (Env × Op)) (hforce : ∀ call ∈ calls, Unforced call.2)
    (hwait : ∀ call ∈ calls, ∀ target reason, call.2 ≠ .wait target reason) (id : String)
    {t u : Task} (ht : t ∈ (runOps calls).tasks.items) (hu : u ∈ (runOps calls).tasks.items)
    (hqt : t.QueuedIn id) (hqu : u.QueuedIn id) (hwt : t.state = .wip) (hwu : u.state = .wip) :
    t = u := by
  have hg : Guarded exec (fun _ call => Queueing call) Store.empty calls :=
    guarded_of_forall fun call hcall => ⟨hforce call hcall, hwait call hcall⟩
  have hrun := inv_of_guarded Store.OneWip (fun s call hs hcall => exec_oneWip hs hcall)
    Store.empty_oneWip hg
  have ht := Keyed.mem_iff_find?.mp ht
  have hu := Keyed.mem_iff_find?.mp hu
  have hslug := hrun.one id t u ht hu hqt hqu hwt hwu
  rw [hslug, hu] at ht
  exact (Option.some.inj ht).symm

/-- Add `a`, `b` and the sub-task `c` of `b`; start `a`, try `c`, finish `a`, and
start `c`. -/
def startSubTask : List (Env × Op) :=
  [startPlain, addPlain "2" "a" .detached .queue, addPlain "3" "b" .detached .queue,
   addPlain "4" "c" .detached (.child "b"), (.plain "5", .start (.input "a") false),
   (.plain "6", .start (.input "c") false), (.plain "7", .complete (.input "a") false none),
   (.plain "8", .start (.input "c") false)]

/-- The second start of `c` promotes `b`, and nothing else of the queue runs. -/
theorem one_wip_per_queue_promoted :
    ∃ b ∈ (runOps startSubTask).tasks.items, b.slug = "b" ∧ b.QueuedIn "session" ∧
      b.state = .wip ∧
      ∀ t ∈ (runOps startSubTask).tasks.items, t.QueuedIn "session" → t.state = .wip → t = b := by
  have hforce : ∀ call ∈ startSubTask, Unforced call.2 := by
    simp [startSubTask, startPlain, addPlain, Unforced]
  have hwait : ∀ call ∈ startSubTask, ∀ target reason, call.2 ≠ .wait target reason := by
    simp [startSubTask, startPlain, addPlain]
  have hb : (runOps startSubTask).task? "b" =
      some (pairTask "b" .wip none .queued "3" "8" []) := by decide
  have hmem := Keyed.mem_of_find? hb
  exact ⟨_, hmem, rfl, ⟨rfl, rfl, rfl⟩, rfl, fun t ht hq hw =>
    one_wip_per_queue startSubTask hforce hwait "session" ht hmem hq ⟨rfl, rfl, rfl⟩ hw rfl⟩

end Llmenv.Tasks
