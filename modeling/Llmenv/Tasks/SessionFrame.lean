/-
# `Llmenv.Tasks.SessionFrame` — does a start stay inside one session?

Starting a sub-task puts its `open` ancestors in progress too.  The walk up
reads no session: that an ancestor is in the session of the sub-task is a fact
about how the links were made.  `checkChildParent` and
`ensure_parent_in_session` make them inside one session, and two things undo
that later:

  * a parent is deleted and its slug is given out again, in another session;
  * a session closes over a link with one end done, so one end loses its tag
    and the other keeps it.

`start_changes_one_session` is the frame of `start_task`, after every run in
which neither happens.
-/
import Llmenv.Tasks.SubTasks

namespace Llmenv.Tasks

open Llmenv.Lib

/-! ## The tasks that a start writes -/

/-- Along sub-task links the session stays the same, so the promoted ancestors
are in the session of the started task. -/
theorem ancestorsFrom_session {s : Store} {child : Task} {force : Bool}
    (hs : s.world.SameSession) {fuel : Nat} {seen : List String} {current : Task}
    {above : List Task} (hcurrent : s.task? current.slug = some current)
    (h : ancestorsFrom s child force fuel seen current = .ok above) :
    ∀ u ∈ above, u.session = current.session := by
  induction fuel generalizing seen current above with
  | zero => exact absurd h (by simp [ancestorsFrom])
  | succ fuel ih =>
      rcases ancestorsFrom_ok h with
        ⟨-, rfl⟩ | ⟨parent, rest, hrel, hparent, hstored, -, hrest, hstep⟩
      · simp
      · have hlink : current.session = parent.session :=
          hs current.slug current.node parent.slug parent.node
            ⟨node?_of_task? hcurrent, hrel, hparent, node?_of_task? hstored⟩
        rw [hlink]
        rcases hstep with ⟨-, -, rfl⟩ | ⟨-, rfl⟩
        · intro u hu
          rcases List.mem_cons.mp hu with rfl | hu
          · rfl
          · exact ih hstored hrest u hu
        · exact ih hstored hrest

theorem touchLastActivity_task? (s : Store) (now id slug : String) :
    (touchLastActivity s now id).task? slug = s.task? slug := by
  unfold touchLastActivity
  split
  · rfl
  · split
    · exact Store.task?_saveSession _ _ _ _
    · rfl

theorem touchTaskSession_task? (env : Env) (s : Store) (t : Task) (slug : String) :
    (touchTaskSession env s t).task? slug = s.task? slug := by
  unfold touchTaskSession
  split
  · exact touchLastActivity_task? _ _ _ _
  · rfl

theorem task?_applyAll_of_not_saved {ts : List Task} {ws : List Write}
    (hts : List.Forall₂ (fun t w => ∃ hv, w = Write.saveTask t hv) ts ws) {slug : String}
    (hslug : slug ∉ ts.map Task.slug) (s : Store) : (s.applyAll ws).task? slug = s.task? slug := by
  induction hts generalizing s with
  | nil => rfl
  | @cons t w ts ws hw _ ih =>
      obtain ⟨hv, rfl⟩ := hw
      simp only [List.map_cons, List.mem_cons, not_or] at hslug
      rw [Store.applyAll_cons, ih hslug.2, Store.task?_saveTask, if_neg (fun h => hslug.1 h.symm)]

/-- A task that a start changes is the started task or a promoted ancestor. -/
theorem startTask_changes {env : Env} {s : Store} {target : TaskTarget} {force : Bool}
    {k : String} (h : (startTask env s target force).2.task? k ≠ s.task? k) :
    ∃ slug t promoted, target.slugIn env s = .ok slug ∧ s.task? slug = some t ∧
      ancestorsToStart s t force = .ok promoted ∧ (k = slug ∨ ∃ u ∈ promoted, u.slug = k) := by
  rcases perform_obs env s (startTaskPlan env s target force) _
      (fun s' => s'.task? k) (fun r s' => touchTaskSession_task? env s' r k) with
    hsame | ⟨ws, r, j, hp, hsame, -⟩
  · exact absurd hsame h
  · obtain ⟨t, promoted, haccepted, hws⟩ := startTaskPlan_accepted hp
    refine ⟨t.slug, t, promoted, haccepted.slug, haccepted.stored, haccepted.ancestors, ?_⟩
    by_contra hk
    simp only [not_or, not_exists, not_and] at hk
    have hnot : k ∉ ((promoted.map (fun u => u.started (env.now 0)) ++
        [t.started (env.now 0)]).take j).map Task.slug := by
      intro hmem
      obtain ⟨u, hu, rfl⟩ := List.mem_map.mp hmem
      rcases List.mem_append.mp (List.mem_of_mem_take hu) with hu | hu
      · obtain ⟨v, hv, rfl⟩ := List.mem_map.mp hu
        exact hk.2 v hv rfl
      · obtain rfl := List.mem_singleton.mp hu
        exact hk.1 rfl
    refine h (hsame.trans ?_)
    exact task?_applyAll_of_not_saved (List.forall₂_take j (saveAll_ok hws)) hnot s

/-! ## Every run -/

/-- Where the sessions `ids` close over a sub-task link, both ends are done, or
both are not and no save fails between their untags. -/
def CloseTogether (env : Env) (s : Store) (ids : List String) : Prop :=
  ∀ c p id, s.task? c.slug = some c → c.relation = .child → c.parent = some p.slug →
    s.task? p.slug = some p → c.session = some id → id ∈ ids →
    (c.state = .done ∧ p.state = .done) ∨
      (c.state ≠ .done ∧ p.state ≠ .done ∧ env.failAt = none)

/-- The call does not split a sub-task link over two sessions: a sub-task that
names the slug an add gives out is in the session of the add, and a close
untags both ends of a link or none. -/
def KeepsLinksInSession (s : Store) : Env × Op → Prop
  | (env, .add new _ choice project) =>
      ∀ id c, resolveSessionForAdd s choice project = .ok id → s.task? c.slug = some c →
        c.relation = .child → c.parent = some (newSlug env s new.title) → c.session = some id
  | (env, .startSession request decision) => CloseTogether env s (decision.closes s request)
  | (env, .finishSession id abandonOpen) => abandonOpen = true → CloseTogether env s [id]
  | _ => True

/-- A close that untags both ends of every link, or none. -/
theorem Closing.sameSession {env : Env} {s : Store} {ids slugs : List String} {w : World}
    (h : Closing env s ids slugs w) (hs : s.world.SameSession)
    (hids : slugs ≠ [] → CloseTogether env s ids) : w.SameSession := by
  have hboth : ∀ c n p m, s.world.SubTask c n p m → (c ∈ slugs ↔ p ∈ slugs) := by
    intro c n p m hlink
    have hses := hs c n p m hlink
    obtain ⟨t, ht, rfl⟩ := task?_of_node? hlink.child
    obtain ⟨u, hu, rfl⟩ := task?_of_node? hlink.stored
    obtain rfl := Store.slug_of_task? ht
    obtain rfl := Store.slug_of_task? hu
    have hends : ∀ id, slugs ≠ [] → t.session = some id → id ∈ ids →
        (t.state = .done ∧ u.state = .done) ∨
          (t.state ≠ .done ∧ u.state ≠ .done ∧ env.failAt = none) :=
      fun id hne hid hmem => hids hne t u id ht hlink.relation hlink.parent hu hid hmem
    constructor
    · intro hc
      have hne := List.ne_nil_of_mem hc
      obtain ⟨n', id, hn', hid, hmem, hdone⟩ := h.unfinished t.slug hc
      obtain rfl : t.node = n' := Option.some.inj (hlink.child.symm.trans hn')
      rcases hends id hne hid hmem with ⟨hd, -⟩ | ⟨-, hd, hf⟩
      · simp [Task.node, hd] at hdone
      · exact h.all hf hne u.slug u.node id hlink.stored (hses.symm.trans hid) hmem
          (by simpa [Task.node] using hd)
    · intro hp
      have hne := List.ne_nil_of_mem hp
      obtain ⟨m', id, hm', hid, hmem, hdone⟩ := h.unfinished u.slug hp
      obtain rfl : u.node = m' := Option.some.inj (hlink.stored.symm.trans hm')
      rcases hends id hne (hses.trans hid) hmem with ⟨-, hd⟩ | ⟨hd, -, hf⟩
      · simp [Task.node, hd] at hdone
      · exact h.all hf hne t.slug t.node id hlink.child (hses.trans hid) hmem
          (by simpa [Task.node] using hd)
  intro c n p m hlink
  refine World.sameSession_untag hs hboth c n p m ⟨?_, hlink.relation, hlink.parent, ?_⟩
  · rw [← h.nodes]
    exact hlink.child
  · rw [← h.nodes]
    exact hlink.stored

theorem Edited.sameSession {env : Env} {s : Store} {target : TaskTarget} {edit : TaskEdit}
    {t : Task} {q : Option String} (h : Edited env s target edit t q)
    (hs : s.world.SameSession) : (s.world.apply (.reparent t.slug q)).SameSession := by
  rcases h.parent with rfl | rfl | ⟨name, p, m, -, -, rfl, hm, hses, -⟩
  · exact World.sameSession_reparent hs (by simp)
  · -- The parent it had: the world does not change.
    have hkeep : s.world.apply (.reparent t.slug t.parent) = s.world := by
      refine World.ext ?_ rfl
      funext k
      by_cases hk : k = t.slug
      · subst hk
        simp [World.apply, World.modify, node?_of_task? h.stored, Task.node]
      · simp [World.apply, World.modify, hk]
    rwa [hkeep]
  · refine World.sameSession_reparent hs fun n p' m' hn hp' hm' => ?_
    obtain rfl := Option.some.inj hp'
    obtain rfl : t.node = n := Option.some.inj ((node?_of_task? h.stored).symm.trans hn)
    obtain rfl : m.node = m' := Option.some.inj ((node?_of_task? hm).symm.trans hm')
    exact hses.symm

theorem exec_sameSession {s : Store} {call : Env × Op} (hs : s.world.SameSession)
    (hcall : KeepsLinksInSession s call) : (exec s call).world.SameSession := by
  have houtcome := exec_outcome s call
  generalize (exec s call).world = w at houtcome ⊢
  cases houtcome with
  | unchanged => exact hs
  | added hadded =>
      obtain ⟨id, hid, hses⟩ := hadded.session
      refine World.sameSession_add hs (fun p m _ hpar hm => ?_) (fun c n' hc hrel hpar => ?_)
      · obtain ⟨name, m', -, -, hm', hsame, -⟩ := hadded.parent p hpar
        obtain rfl : m = m' := Option.some.inj (hm.symm.trans hm')
        exact hsame.symm
      · obtain ⟨t, ht, rfl⟩ := task?_of_node? hc
        obtain rfl := Store.slug_of_task? ht
        rw [hses]
        exact hcall id t hid ht hrel hpar
  | finished => exact World.sameSession_mark hs _ true
  | edited hedited => exact hedited.sameSession hs
  | reopened => exact World.sameSession_mark hs _ false
  | reopenedAll => exact World.sameSession_mark hs _ false
  | removed slugs => exact World.sameSession_remove hs slugs
  | started hclosing => exact hclosing.sameSession hs (fun _ => hcall)
  | @ended env id abandonOpen slugs w hclosing hnone =>
      refine hclosing.sameSession hs fun hne => hcall ?_
      cases abandonOpen with
      | true => rfl
      | false => exact absurd (hnone rfl) hne

/-- After every run in which no call splits a sub-task link over two sessions,
a start changes tasks of the started task's session only. -/
theorem start_changes_one_session (calls : List (Env × Op))
    (h : Guarded exec KeepsLinksInSession Store.empty calls) (env : Env) (target : TaskTarget)
    (force : Bool) {k : String}
    (hk : (startTask env (runOps calls) target force).2.task? k ≠ (runOps calls).task? k) :
    ∃ slug t u, target.slugIn env (runOps calls) = .ok slug ∧
      (runOps calls).task? slug = some t ∧ (runOps calls).task? k = some u ∧
      u.session = t.session := by
  have hempty : Store.empty.world.SameSession := by
    intro c n p m hlink
    exact absurd hlink.child (by simp [Store.world_node?])
  have hrun := inv_of_guarded (fun s => s.world.SameSession)
    (fun s call hs hcall => exec_sameSession hs hcall) hempty h
  obtain ⟨slug, t, promoted, hslug, ht, hpromoted, rfl | ⟨u, hu, rfl⟩⟩ := startTask_changes hk
  · exact ⟨k, t, t, hslug, ht, ht, rfl⟩
  · have hself : (runOps calls).task? t.slug = some t := (Store.slug_of_task? ht).symm ▸ ht
    exact ⟨slug, t, u, hslug, ht, (ancestorsFrom_stored hpromoted u hu).1,
      ancestorsFrom_session hrun hself hpromoted u hu⟩

/-! ## Two runs -/

/-- Add `a` and its sub-task `b`. -/
def addPair : List (Env × Op) :=
  [startPlain, addPlain "2" "a" .detached .queue, addPlain "3" "b" .detached (.child "a")]

/-- Starting `b` puts `a` in progress, and `a` is in its session. -/
theorem start_changes_one_session_pair :
    Guarded exec KeepsLinksInSession Store.empty addPair ∧
      (startTask (.plain "4") (runOps addPair) (.input "b") false).2.task? "a" ≠
        (runOps addPair).task? "a" ∧
      ∃ slug t u, TaskTarget.slugIn (.plain "4") (runOps addPair) (.input "b") = .ok slug ∧
        (runOps addPair).task? slug = some t ∧ (runOps addPair).task? "a" = some u ∧
        u.session = t.session := by
  have hadd : ∀ (s : Store) (now title : String) (placement : Placement),
      (∀ c ∈ s.tasks.items, c.relation ≠ .child) →
      KeepsLinksInSession s (addPlain now title .detached placement) :=
    fun s _ _ _ hitems id c _ hc hrel => absurd hrel (hitems c (Store.mem_tasks_iff.mpr hc))
  have hg : Guarded exec KeepsLinksInSession Store.empty addPair := by
    refine ⟨?_, hadd _ _ _ _ (by decide), hadd _ _ _ _ (by decide), trivial⟩
    exact fun c p id _ _ _ _ _ hid => absurd hid (by simp [StartDecision.closes])
  have hchange : (startTask (.plain "4") (runOps addPair) (.input "b") false).2.task? "a" ≠
      (runOps addPair).task? "a" := by decide
  exact ⟨hg, hchange, start_changes_one_session addPair hg _ _ _ hchange⟩

/-- Delete `a`, open a second session, and add another `a` there. -/
def reuseAcrossSessions : List (Env × Op) :=
  addPair ++ [(.plain "4", .delete (.input "a")), startPlain,
    (.plain "5", .add ⟨"a", none, .queue, none⟩ .detached (.named "session-2") "p")]

/-- Starting `b` puts the `a` of the other session in progress. -/
theorem start_promotes_other_session :
    (startTask (.plain "6") (runOps reuseAcrossSessions) (.input "b") false).2.task? "a" ≠
        (runOps reuseAcrossSessions).task? "a" ∧
      ((runOps reuseAcrossSessions).task? "a").map Task.session = some (some "session-2") ∧
      ((runOps reuseAcrossSessions).task? "b").map Task.session = some (some "session") := by
  decide

end Llmenv.Tasks
