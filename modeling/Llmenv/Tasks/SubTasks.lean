/-
# `Llmenv.Tasks.SubTasks` — does a done task hold an unfinished sub-task?

Four operations could let it: `close_task` refuses while `undone_descendants`
finds one, `task add --child` refuses a done parent, and `reopen_targets`
refuses a sub-task whose parent is done and is not reopened with it.  Two
paths do not ask: `reopen_task` (behind `task start --reopen`), and
`edit_task --parent`, which checks the session of the new parent and not its
state.

`done_below_done` is the law, for descendants at any depth and every run in
which neither of the two is used on such a parent.
-/
import Llmenv.Tasks.ParentLinks

namespace Llmenv.Tasks

open Llmenv.Lib

/-! ## What `undone_descendants` finds -/

theorem found_subset_visit (x : Search) (child : Task) : x.found ⊆ (x.visit child).found := by
  intro t ht
  unfold Search.visit
  split
  · exact ht
  · simp only
    split
    · exact List.mem_cons_of_mem _ ht
    · exact ht

theorem found_subset_foldl (l : List Task) (x : Search) :
    x.found ⊆ (l.foldl Search.visit x).found := by
  induction l generalizing x with
  | nil => exact fun t ht => ht
  | cons child l ih => exact fun t ht => ih _ (found_subset_visit x child ht)

theorem found_subset_searchFrom (all : List Task) (fuel : Nat) (x : Search) :
    x.found ⊆ (searchFrom all fuel x).found := by
  induction fuel generalizing x with
  | zero => exact fun t ht => ht
  | succ fuel ih =>
      intro t ht
      unfold searchFrom
      split
      · exact ht
      · rename_i current rest _
        exact ih _ (found_subset_foldl _ { x with frontier := rest } ht)

/-- When visiting some tasks finds nothing unfinished, those not seen before
are done. -/
theorem done_of_foldl_visit {l : List Task} (hinj : ∀ c ∈ l, ∀ d ∈ l, c.slug = d.slug → c = d)
    {x : Search} (h : (l.foldl Search.visit x).found = []) :
    ∀ c ∈ l, c.slug ∉ x.seen → c.state = .done := by
  induction l generalizing x with
  | nil => exact fun c hc => absurd hc (by simp)
  | cons d l ih =>
      have hhead : d.slug ∉ x.seen → d.state = .done := by
        intro hd
        by_contra hdone
        have hfound : d ∈ (x.visit d).found := by simp [Search.visit, hd, hdone]
        have := found_subset_foldl l (x.visit d) hfound
        rw [List.foldl_cons] at h
        rw [h] at this
        exact absurd this (by simp)
      intro c hc hseen
      by_cases hslug : c.slug = d.slug
      · rw [hinj c hc d List.mem_cons_self hslug]
        exact hhead (hslug ▸ hseen)
      · rcases List.mem_cons.mp hc with rfl | hc
        · exact absurd rfl hslug
        · refine ih (fun a ha b hb => hinj a (List.mem_cons_of_mem _ ha) b
            (List.mem_cons_of_mem _ hb)) h c hc ?_
          unfold Search.visit
          split
          · exact hseen
          · simpa using ⟨hslug, hseen⟩

/-- A task without unfinished descendants has no unfinished sub-task. -/
theorem children_done_of_undoneDescendants {s : Store} {slug : String}
    (h : undoneDescendants slug s.tasks.items = []) {c : Task} (hc : s.task? c.slug = some c)
    (hne : c.slug ≠ slug) (hrel : c.relation = .child) (hpar : c.parent = some slug) :
    c.state = .done := by
  have hnone : ∀ t, t ∉ (searchFrom s.tasks.items (s.tasks.items.length + 1)
      ⟨[slug], [slug], []⟩).found := by
    intro t ht
    have : t ∈ undoneDescendants slug s.tasks.items := mem_sortTasks.mpr ht
    rw [h] at this
    exact absurd this (by simp)
  have hfold : ((children slug s.tasks.items).foldl Search.visit
      { frontier := [], seen := [slug], found := [] }).found = [] := by
    refine List.eq_nil_iff_forall_not_mem.mpr fun t ht => hnone t ?_
    exact found_subset_searchFrom s.tasks.items s.tasks.items.length _ ht
  have hmem : ∀ t ∈ children slug s.tasks.items, t ∈ s.tasks.items :=
    fun t ht => List.mem_of_mem_filter ht
  refine done_of_foldl_visit (fun a ha b hb hslug => ?_) hfold c ?_ (by simpa using hne)
  · exact List.inj_on_of_nodup_map s.tasks.nodup (hmem a ha) (hmem b hb) hslug
  · simpa [children, hrel, hpar] using Store.mem_tasks_iff.mpr hc

/-! ## What `refuse_done_parents` leaves -/

theorem refuseDoneParents_ok {s : Store} {batch : List Task} :
    ∀ {tasks : List Task}, refuseDoneParents s batch tasks = .ok () →
      ∀ t ∈ tasks, t.relation = .child → ∀ p m, t.parent = some p → s.task? p = some m →
        m.state = .done → ∃ u ∈ batch, u.slug = p
  | [], _, t, ht => absurd ht (by simp)
  | task :: rest, h, t, ht => by
      intro hrel p m hpar hm hdone
      simp only [refuseDoneParents] at h
      rcases List.mem_cons.mp ht with rfl | ht
      · rw [if_pos hrel, hpar] at h
        simp only at h
        split at h
        · rename_i hany
          obtain ⟨u, hu, hslug⟩ := List.any_eq_true.mp hany
          exact ⟨u, hu, by simpa using hslug⟩
        · rw [loadTask_eq_ok.mpr hm] at h
          simp [hdone] at h
      · have hrest : refuseDoneParents s batch rest = .ok () := by
          split at h
          · exact h
          · split at h
            · exact h
            · split at h
              · exact absurd h (by simp)
              · split at h
                · exact absurd h (by simp)
                · exact h
        exact refuseDoneParents_ok hrest t ht hrel p m hpar hm hdone

/-! ## Every run -/

/-- `t` is below the task `slug`, through sub-task links. -/
inductive Descendant (s : Store) (slug : String) : Task → Prop
  | child {t : Task} : s.task? t.slug = some t → t.relation = .child → t.parent = some slug →
      Descendant s slug t
  | deeper {u t : Task} : Descendant s slug u → s.task? t.slug = some t → t.relation = .child →
      t.parent = some u.slug → Descendant s slug t

/-- The call passes no `--force`. -/
def Unforced : Op → Prop
  | .start _ force => force = false
  | .complete _ force _ => force = false
  | _ => True

/-- The call does not put an unfinished sub-task under a done parent:
`task start --reopen` is not used on a sub-task of a done task, `--parent` does
not move an unfinished sub-task to a done task, and no save fails while a
sub-task and its parent are reopened together. -/
def KeepsDoneParents (s : Store) : Env × Op → Prop
  | (env, .reopen target) =>
      ∀ t p m, target.slug env s = .ok t.slug → s.task? t.slug = some t → t.state = .done →
        t.relation = .child → t.parent = some p → s.task? p = some m → m.state ≠ .done
  | (env, .edit target edit) =>
      ∀ t name p m, target.slugIn env s = .ok t.slug → s.task? t.slug = some t →
        t.relation = .child → edit.parent = some name → resolveIn env s name = .ok p →
        s.task? p = some m → m.state = .done → t.state = .done
  | (env, .reopenAll targets) =>
      ∀ tasks c p, Batch env s targets tasks → c ∈ tasks → p ∈ tasks →
        c.relation = .child → c.parent = some p.slug → env.failAt = none
  | _ => True

theorem Closing.doneBelow {env : Env} {s : Store} {ids slugs : List String} {w : World}
    (h : Closing env s ids slugs w) (hs : s.world.DoneBelow) : w.DoneBelow := by
  intro c n p m hlink
  refine World.doneBelow_untag hs slugs c n p m ⟨?_, hlink.relation, hlink.parent, ?_⟩
  · rw [← h.nodes]
    exact hlink.child
  · rw [← h.nodes]
    exact hlink.stored

theorem exec_doneBelow {s : Store} {call : Env × Op} (hs : s.world.DoneBelow)
    (hforce : Unforced call.2) (hcall : KeepsDoneParents s call) :
    (exec s call).world.DoneBelow := by
  have houtcome := exec_outcome s call
  generalize (exec s call).world = w at houtcome ⊢
  cases houtcome with
  | unchanged => exact hs
  | added hadded =>
      refine World.doneBelow_add hs hadded.notDone fun p m hrel hpar hm => ?_
      obtain ⟨name, m', -, -, hm', -, hdone⟩ := hadded.parent p hpar
      obtain rfl : m = m' := Option.some.inj (hm.symm.trans hm')
      exact hdone hrel
  | finished hundone =>
      refine World.doneBelow_finish hs fun c n m hne hlink => ?_
      obtain ⟨t, ht, rfl⟩ := task?_of_node? hlink.child
      have hslug := Store.slug_of_task? ht
      have hdone := children_done_of_undoneDescendants (hundone hforce) (c := t)
        (hslug.symm ▸ ht) (hslug.symm ▸ hne) hlink.relation hlink.parent
      simp [Task.node, hdone]
  | @edited env target edit t q hedited =>
      refine World.doneBelow_reparent hs fun n p m hn hrel hq hm hdone => ?_
      obtain rfl : t.node = n := Option.some.inj ((node?_of_task? hedited.stored).symm.trans hn)
      rcases hedited.parent with hnone | hsame | ⟨name, p', m', hname, hres, hp', hm', -, -⟩
      · exact absurd (hq.symm.trans hnone) (by simp)
      · exact hs t.slug t.node p m ⟨hn, hrel, by rw [← hq, hsame]; rfl, hm⟩ hdone
      · obtain rfl : p = p' := Option.some.inj (hq.symm.trans hp')
        obtain rfl : m = m'.node := Option.some.inj (hm.symm.trans (node?_of_task? hm'))
        have hdone' : m'.state = .done := by simpa [Task.node] using hdone
        have := hcall t name p m' hedited.slug hedited.stored hrel hname hres hm' hdone'
        simp [Task.node, this]
  | @reopened env target t hslug ht hdone =>
      refine World.doneBelow_reopen hs fun c n p m hc hlink hm => ?_
      obtain rfl := List.mem_singleton.mp hc
      obtain rfl : t.node = n := Option.some.inj ((node?_of_task? ht).symm.trans hlink.child)
      obtain ⟨m', hm', rfl⟩ := task?_of_node? hlink.stored
      have := hcall t p m' hslug ht hdone hlink.relation hlink.parent hm'
      exact absurd (by simpa [Task.node] using hm) this
  | @reopenedAll env targets tasks k hbatch hk =>
      refine World.doneBelow_reopen hs fun c n p m hc hlink hm => ?_
      obtain ⟨t, ht, rfl⟩ := List.mem_map.mp hc
      have htasks := List.mem_of_mem_take ht
      obtain rfl : t.node = n := Option.some.inj
        ((node?_of_task? (hbatch.stored t htasks)).symm.trans hlink.child)
      obtain ⟨m', hm', rfl⟩ := task?_of_node? hlink.stored
      obtain ⟨u, hu, rfl⟩ := refuseDoneParents_ok hbatch.parents t htasks hlink.relation p m'
        hlink.parent hm' (by simpa [Task.node] using hm)
      have hfail := hcall tasks t u hbatch htasks hu hlink.relation hlink.parent
      rw [List.take_of_length_le (hk hfail)]
      exact List.mem_map_of_mem hu
  | removed slugs => exact World.doneBelow_remove hs slugs
  | started hclosing => exact hclosing.doneBelow hs
  | ended hclosing => exact hclosing.doneBelow hs

theorem Store.empty_doneBelow : Store.empty.world.DoneBelow := by
  intro c n p m h
  exact absurd h.child (by simp [Store.world_node?])

/-- In every unforced run in which no sub-task is reopened or moved under a
done parent, everything below a done task is done. -/
theorem done_below_done (calls : List (Env × Op)) (hforce : ∀ call ∈ calls, Unforced call.2)
    (h : Guarded exec KeepsDoneParents Store.empty calls) {slug : String} {m t : Task}
    (hm : (runOps calls).task? slug = some m) (hdone : m.state = .done)
    (ht : Descendant (runOps calls) slug t) : t.state = .done := by
  have hg := (guarded_of_forall hforce).and h
  have hrun := inv_of_guarded (fun s => s.world.DoneBelow)
    (fun s call hs hcall => exec_doneBelow hs hcall.1 hcall.2) Store.empty_doneBelow hg
  -- One link is the invariant; a longer chain passes through done tasks only.
  have hlink : ∀ p u c, (runOps calls).task? p = some u → u.state = .done →
      (runOps calls).task? c.slug = some c → c.relation = .child → c.parent = some p →
      c.state = .done := by
    intro p u c hu hudone hc hrel hpar
    have := hrun c.slug c.node p u.node ⟨node?_of_task? hc, hrel, hpar, node?_of_task? hu⟩
      (by simp [Task.node, hudone])
    simpa [Task.node] using this
  induction ht with
  | child hc hrel hpar => exact hlink slug m _ hm hdone hc hrel hpar
  | deeper hu hc hrel hpar ih =>
      have hstored : ∀ {v : Task}, Descendant (runOps calls) slug v →
          (runOps calls).task? v.slug = some v := by
        intro v hv
        cases hv with
        | child h _ _ => exact h
        | deeper _ h _ _ => exact h
      exact hlink _ _ _ (hstored hu) ih hc hrel hpar

/-! ## Two runs -/

/-- Add `a` and its sub-task `b`, start `b`, and finish both. -/
def finishPair : List (Env × Op) :=
  [startPlain, addPlain "2" "a" .detached .queue, addPlain "3" "b" .detached (.child "a"),
   (.plain "4", .start (.input "b") false), (.plain "5", .complete (.input "b") false none),
   (.plain "6", .complete (.input "a") false none)]

/-- The two tasks after `finishPair`, and `b` again when it is reopened. -/
def pairTask (slug : String) (state : TaskState) (parent : Option String) (relation : Relation)
    (created updated : String) (notes : List TaskNote) : Task :=
  ⟨slug, slug, state, parent, relation, false, [], notes, none, some "session", created, updated⟩

theorem done_below_done_pair :
    (∀ call ∈ finishPair, Unforced call.2) ∧
      Guarded exec KeepsDoneParents Store.empty finishPair ∧
      ((runOps finishPair).task? "b").map Task.state = some .done := by
  have hforce : ∀ call ∈ finishPair, Unforced call.2 := by
    simp [finishPair, startPlain, addPlain, Unforced]
  have hg : Guarded exec KeepsDoneParents Store.empty finishPair :=
    ⟨trivial, trivial, trivial, trivial, trivial, trivial, trivial⟩
  have ha : (runOps finishPair).task? "a" =
      some (pairTask "a" .done none .queued "2" "6" []) := by decide
  have hb : (runOps finishPair).task? "b" =
      some (pairTask "b" .done (some "a") .child "3" "5" []) := by decide
  refine ⟨hforce, hg, ?_⟩
  rw [hb]
  exact congrArg some (done_below_done finishPair hforce hg ha rfl (.child hb rfl rfl))

/-- `task start --reopen b` while `a` is done. -/
def reopenChild : List (Env × Op) := finishPair ++ [(.plain "7", .reopen (.input "b"))]

theorem open_below_done_after_reopen :
    (∀ call ∈ reopenChild, Unforced call.2) ∧
      ∃ m t, (runOps reopenChild).task? "a" = some m ∧ m.state = .done ∧
        Descendant (runOps reopenChild) "a" t ∧ t.state ≠ .done := by
  have hforce : ∀ call ∈ reopenChild, Unforced call.2 := by
    simp [reopenChild, finishPair, startPlain, addPlain, Unforced]
  have ha : (runOps reopenChild).task? "a" =
      some (pairTask "a" .done none .queued "2" "6" []) := by decide
  have hb : (runOps reopenChild).task? "b" =
      some (pairTask "b" .opened (some "a") .child "3" "7"
        [⟨"7", "Reopened (`task start --reopen`) after it was marked done."⟩]) := by decide
  refine ⟨hforce, _, pairTask "b" .opened (some "a") .child "3" "7" _, ha, rfl,
    .child hb rfl rfl, ?_⟩
  simp [pairTask]

end Llmenv.Tasks
