/-
# `Llmenv.Tasks.ClosedSessions` — is a task of a closed session done?

A close untags the unfinished tasks of the session before it stamps it
(`Closing`), whatever save fails.  Later calls must not bring an unfinished
task back: `add_task` looks for an OPEN session, except for a session value
that the command read earlier and does not read again
(`SessionChoice.checked`), and a reopen does not look at the session of the
task at all.

`closed_session_done` is the law, for every run in which those two meet no
closed session.
-/
import Llmenv.Tasks.SessionFrame

namespace Llmenv.Tasks

open Llmenv.Lib

/-! ## The session of an add -/

theorem open_of_resolveSessionForAdd {s : Store} {choice : SessionChoice} {project id : String}
    (h : resolveSessionForAdd s choice project = .ok id) :
    (∃ x, choice = .checked x ∧ x.isOpen = true ∧ x.project = project ∧ x.id = id) ∨
      ∃ x, s.session? id = some x ∧ x.isOpen = true := by
  have hstored : ∀ x ∈ s.sessions.items, s.session? x.id = some x :=
    fun x hx => Keyed.mem_iff_find?.mp hx
  cases choice with
  | named name =>
      simp only [resolveSessionForAdd] at h
      split at h
      · rename_i hany
        obtain rfl : name = id := Except.ok.inj h
        obtain ⟨x, hx, hcond⟩ := List.any_eq_true.mp hany
        simp only [Bool.and_eq_true, beq_iff_eq] at hcond
        exact Or.inr ⟨x, hcond.1 ▸ hstored x hx, hcond.2⟩
      · exact absurd h (by simp)
  | checked x =>
      simp only [resolveSessionForAdd] at h
      split at h
      · exact absurd h (by simp)
      · rename_i hcond
        simp only [Bool.or_eq_true, Bool.not_eq_true', bne_iff_ne, not_or, Bool.not_eq_false,
          not_not] at hcond
        exact Or.inl ⟨x, rfl, hcond.1, hcond.2, Except.ok.inj h⟩
  | resolve owner =>
      simp only [resolveSessionForAdd] at h
      split at h
      · rename_i x hpick
        obtain ⟨⟨⟩, -, h⟩ := bind_eq_ok.mp h
        obtain rfl : x.id = id := Except.ok.inj h
        have hmem := pickOpenSession_mem hpick
        exact Or.inr ⟨x, hstored x (List.mem_of_mem_filter hmem), mem_openSessions_isOpen hmem⟩
      · exact absurd h (by simp)
      · exact absurd h (by simp)

/-! ## Every run -/

/-- The call does not make a task of a closed session unfinished: a session
value that an add uses without reading it again is still open, and a reopened
task is not in a closed session. -/
def KeepsClosedDone (s : Store) : Env × Op → Prop
  | (_, .add _ _ (.checked x) project) =>
      x.isOpen = true → x.project = project → ∀ y, s.session? x.id = some y → y.isOpen = true
  | (env, .reopen target) =>
      ∀ t id y, target.slug env s = .ok t.slug → s.task? t.slug = some t → t.state = .done →
        t.session = some id → s.session? id = some y → y.isOpen = true
  | (env, .reopenAll targets) =>
      ∀ tasks t id y, Batch env s targets tasks → t ∈ tasks → t.session = some id →
        s.session? id = some y → y.isOpen = true
  | _ => True

theorem Closing.noneStranded {env : Env} {s : Store} {ids slugs : List String} {w : World}
    (h : Closing env s ids slugs w) (hs : s.world.NoneStranded) : w.NoneStranded := by
  intro k n id hk hid hclosed
  rw [h.nodes] at hk
  simp only [World.apply, World.modify] at hk
  by_cases hks : k ∈ slugs
  · rw [if_pos hks] at hk
    obtain ⟨n₀, -, rfl⟩ := Option.map_eq_some_iff.mp hk
    exact absurd hid (by simp)
  · rw [if_neg hks] at hk
    rcases h.stamped id hclosed with hbefore | hall
    · exact hs k n id hk hid hbefore
    · by_contra hdone
      exact hks (hall k n hk hid (by simpa using hdone))

/-- Reopening tasks none of which is in a closed session. -/
theorem noneStranded_reopen {s : Store} (hs : s.world.NoneStranded) (tasks : List Task)
    (hstored : ∀ t ∈ tasks, s.task? t.slug = some t)
    (hopen : ∀ t ∈ tasks, ∀ id y, t.session = some id → s.session? id = some y →
      y.isOpen = true) :
    (s.world.apply (.mark (tasks.map Task.slug) false)).NoneStranded := by
  refine World.noneStranded_modify hs (fun n id h => h) fun k n id hk hn hid hclosed _ => ?_
  obtain ⟨t, ht, rfl⟩ := List.mem_map.mp hk
  obtain rfl : t.node = n :=
    Option.some.inj ((node?_of_task? (hstored t ht)).symm.trans hn)
  obtain ⟨y, hy, hyclosed⟩ := Option.map_eq_some_iff.mp hclosed
  exact absurd (hopen t ht id y hid hy) (by simp [hyclosed])

theorem exec_noneStranded {s : Store} {call : Env × Op} (hs : s.world.NoneStranded)
    (hcall : KeepsClosedDone s call) : (exec s call).world.NoneStranded := by
  have houtcome := exec_outcome s call
  generalize (exec s call).world = w at houtcome ⊢
  cases houtcome with
  | unchanged => exact hs
  | added hadded =>
      refine World.noneStranded_add hs fun id hid hclosed => ?_
      obtain ⟨id', hres, hid'⟩ := hadded.session
      obtain rfl : id = id' := Option.some.inj (hid.symm.trans hid')
      obtain ⟨y, hy, hyclosed⟩ := Option.map_eq_some_iff.mp hclosed
      have hy : s.session? id = some y := hy
      rcases open_of_resolveSessionForAdd hres with ⟨x, rfl, hxopen, hxproj, rfl⟩ | ⟨x, hx, hxopen⟩
      · exact absurd (hcall hxopen hxproj y hy) (by simp [hyclosed])
      · obtain rfl : x = y := Option.some.inj (hx.symm.trans hy)
        exact absurd hxopen (by simp [hyclosed])
  | finished =>
      exact World.noneStranded_modify hs (fun n id h => h) (fun _ _ _ _ _ _ _ _ => rfl)
  | edited => exact World.noneStranded_modify hs (fun n id h => h) (fun _ _ _ _ _ _ _ h => h)
  | @reopened env target t hslug ht hdone =>
      refine noneStranded_reopen hs [t] ?_ ?_
      · simpa using ht
      · intro u hu id y hid hy
        obtain rfl := List.mem_singleton.mp hu
        exact hcall u id y hslug ht hdone hid hy
  | @reopenedAll env targets tasks k hbatch hk =>
      refine noneStranded_reopen hs _
        (fun t ht => hbatch.stored t (List.mem_of_mem_take ht)) fun t ht id y hid hy => ?_
      exact hcall tasks t id y hbatch (List.mem_of_mem_take ht) hid hy
  | removed slugs => exact World.noneStranded_remove hs slugs
  | started hclosing => exact hclosing.noneStranded hs
  | ended hclosing => exact hclosing.noneStranded hs

/-- After every run in which no task of a closed session is reopened and no
add uses a session value that has gone stale, a task whose session is closed is
done. -/
theorem closed_session_done (calls : List (Env × Op))
    (h : Guarded exec KeepsClosedDone Store.empty calls) {slug id : String} {t : Task}
    {x : Session} (ht : (runOps calls).task? slug = some t) (hid : t.session = some id)
    (hx : (runOps calls).session? id = some x) (hclosed : x.isOpen = false) : t.state = .done := by
  have hempty : Store.empty.world.NoneStranded := by
    intro k n id hk
    exact absurd hk (by simp [Store.world_node?])
  have hrun := inv_of_guarded (fun s => s.world.NoneStranded)
    (fun s call hs hcall => exec_noneStranded hs hcall) hempty h
  have hopen : (runOps calls).world.open? id = some false := by
    rw [Store.world_open?, hx, Option.map_some, hclosed]
  simpa [Task.node] using hrun slug t.node id (node?_of_task? ht) hid hopen

/-! ## Two runs -/

/-- Finish `a` and `b`, and then their session. -/
def finishAll : List (Env × Op) := finishPair ++ [(.plain "7", .finishSession "session" false)]

theorem closed_session_done_finished :
    Guarded exec KeepsClosedDone Store.empty finishAll ∧
      ((runOps finishAll).session? "session").map Session.isOpen = some false ∧
      ((runOps finishAll).task? "a").map Task.state = some .done := by
  have hg : Guarded exec KeepsClosedDone Store.empty finishAll :=
    ⟨trivial, trivial, trivial, trivial, trivial, trivial, trivial, trivial⟩
  have ha : (runOps finishAll).task? "a" =
      some (pairTask "a" .done none .queued "2" "6" []) := by decide
  have hx : (runOps finishAll).session? "session" =
      some ⟨"session", none, "p", none, "1", "1", some "7", none, none, none⟩ := by decide
  refine ⟨hg, by rw [hx]; rfl, ?_⟩
  rw [ha]
  exact congrArg some (closed_session_done finishAll hg ha rfl hx rfl)

/-- `task reopen a` after the session of `a` was finished. -/
def reopenAfterFinish : List (Env × Op) :=
  finishAll ++ [(.plain "8", .reopenAll [.input "a"])]

theorem open_in_closed_session_after_reopen :
    ((runOps reopenAfterFinish).task? "a").map (fun t => (t.state, t.session)) =
        some (.opened, some "session") ∧
      ((runOps reopenAfterFinish).session? "session").map Session.isOpen = some false := by
  decide

end Llmenv.Tasks
