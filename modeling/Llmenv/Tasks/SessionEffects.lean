/-
# `Llmenv.Tasks.SessionEffects` — what starting and closing a session moves

A close is a loop of untags followed by the stamp, and `--replace` is a loop of
closes followed by a create.  Any save of it can fail.  `Closing` says what
every such outcome has in common:

  * the tasks untagged are unfinished tasks of the sessions that close, and
    without a failing save they are all of them;
  * a session that is closed afterwards was closed before, or ALL of its
    unfinished tasks are untagged.  This is the reason for the stamp to come
    last.

With it every call is covered: `Outcome` lists the worlds that one call of the
store can leave, and `exec_outcome` says that there are no others.  The laws of
the next modules are proved by cases on it.
-/
import Llmenv.Tasks.Effects

namespace Llmenv.Tasks

open Llmenv.Lib

/-- The world after closing the sessions `ids`: the tasks under `slugs` are
untagged. -/
structure Closing (env : Env) (s : Store) (ids : List String) (slugs : List String)
    (w : World) : Prop where
  nodes : w.node? = (s.world.apply (.untag slugs)).node?
  unfinished : ∀ k ∈ slugs, ∃ n id, s.world.node? k = some n ∧ n.session = some id ∧
    id ∈ ids ∧ n.done = false
  all : env.failAt = none → slugs ≠ [] → ∀ k n id, s.world.node? k = some n →
    n.session = some id → id ∈ ids → n.done = false → k ∈ slugs
  stamped : ∀ id, w.open? id = some false → s.world.open? id = some false ∨
    ∀ k n, s.world.node? k = some n → n.session = some id → n.done = false → k ∈ slugs

/-- Nothing closes: the nodes stay, and so does every closed session. -/
theorem Closing.nothing {env : Env} {s : Store} {w : World} (ids : List String)
    (hnodes : w.node? = s.world.node?)
    (hopen : ∀ id, w.open? id = some false → s.world.open? id = some false) :
    Closing env s ids [] w where
  nodes := by rw [hnodes, World.apply, World.modify_nil]
  unfinished := by simp
  all := fun _ hne => absurd rfl hne
  stamped := fun id hid => Or.inl (hopen id hid)

theorem mem_unfinishedIn {s : Store} {id : String} {t : Task} :
    t ∈ unfinishedIn s id ↔
      s.task? t.slug = some t ∧ t.session = some id ∧ t.state ≠ .done := by
  simp only [unfinishedIn, tasksInSession, List.mem_filter, Store.mem_tasks_iff]
  simp [and_assoc]

theorem mem_unfinishedIn_of_node {s : Store} {k id : String} {n : Node}
    (hn : s.world.node? k = some n) (hid : n.session = some id) (hdone : n.done = false) :
    ∃ t ∈ unfinishedIn s id, t.slug = k := by
  obtain ⟨t, ht, rfl⟩ := task?_of_node? hn
  have hslug := Store.slug_of_task? ht
  exact ⟨t, mem_unfinishedIn.mpr ⟨hslug.symm ▸ ht, hid, by simpa [Task.node] using hdone⟩, hslug⟩

/-- The writes of closing sessions: untag saves of their unfinished tasks,
with the stamp of a session after all of its untag saves. -/
structure CloseWrites (s : Store) (ids : List String) (ws : List Write) : Prop where
  saves : ∀ t hv, Write.saveTask t hv ∈ ws →
    ∃ u id, id ∈ ids ∧ u ∈ unfinishedIn s id ∧ t.slug = u.slug ∧
      t.node = { u.node with session := none }
  keeps : ∀ slug, Write.removeTask slug ∉ ws
  order : ∀ k x hv, Write.saveSession x hv ∈ ws.take k → x.isOpen = false →
    ∀ u ∈ unfinishedIn s x.id, u.slug ∈ savedSlugs (ws.take k)
  full : ∀ id ∈ ids, ∀ u ∈ unfinishedIn s id, u.slug ∈ savedSlugs ws

theorem mem_savedSlugs {ws : List Write} {k : String} :
    k ∈ savedSlugs ws ↔ ∃ t hv, Write.saveTask t hv ∈ ws ∧ t.slug = k := by
  simp only [savedSlugs, List.mem_filterMap]
  constructor
  · rintro ⟨w, hw, hk⟩
    cases w with
    | saveTask t hv => exact ⟨t, hv, hw, by simpa using hk⟩
    | removeTask slug => exact absurd hk (by simp)
    | saveSession x hv => exact absurd hk (by simp)
  · rintro ⟨t, hv, hw, rfl⟩
    exact ⟨_, hw, rfl⟩

/-- Any beginning of such writes closes sessions in the sense of `Closing`. -/
theorem CloseWrites.closing {env : Env} {s : Store} {ids : List String} {ws : List Write}
    (h : CloseWrites s ids ws) (k : Nat) (hk : env.failAt = none → ws.length ≤ k) :
    Closing env s ids (savedSlugs (ws.take k)) (s.applyAll (ws.take k)).world where
  nodes := by
    refine node?_applyAll (φ := fun n => { n with session := none }) fun w hw => ?_
    have hw := List.mem_of_mem_take hw
    cases w with
    | saveTask t hv =>
        obtain ⟨u, id, -, hu, hslug, hnode⟩ := h.saves t hv hw
        exact ⟨u.node, by rw [hslug]; exact node?_of_task? (mem_unfinishedIn.mp hu).1, hnode⟩
    | removeTask slug => exact h.keeps slug hw
    | saveSession x hv => trivial
  unfinished := by
    intro j hj
    obtain ⟨t, hv, ht, rfl⟩ := mem_savedSlugs.mp hj
    obtain ⟨u, id, hid, hu, hslug, -⟩ := h.saves t hv (List.mem_of_mem_take ht)
    obtain ⟨hstored, hses, hdone⟩ := mem_unfinishedIn.mp hu
    exact ⟨u.node, id, by rw [hslug]; exact node?_of_task? hstored, hses, hid,
      by simpa [Task.node] using hdone⟩
  all := by
    intro hf _ j n id hn hses hid hdone
    obtain ⟨u, hu, rfl⟩ := mem_unfinishedIn_of_node hn hses hdone
    rw [List.take_of_length_le (hk hf)]
    exact h.full id hid u hu
  stamped := by
    intro id hid
    rcases open?_applyAll hid with hbefore | ⟨x, hv, hx, rfl, hclosed⟩
    · exact Or.inl hbefore
    · refine Or.inr fun j n hn hses hdone => ?_
      obtain ⟨u, hu, rfl⟩ := mem_unfinishedIn_of_node hn hses hdone
      exact h.order k x hv hx hclosed u hu

/-! ## Closing one session -/

/-- The untag saves of one session, and then its stamp. -/
theorem closeWrites_one {s : Store} {id now note : String} {us : List Write} {x : Session}
    {w : Write} (hus : untagUnfinished s id now note = .ok us) (hw : saveSession x = .ok w)
    (hid : x.id = id) : CloseWrites s [id] (us ++ [w]) := by
  have hsaves := saveAll_ok hus
  obtain ⟨hv, rfl⟩ := saveSession_ok hw
  have hslugs : savedSlugs us = (unfinishedIn s id).map Task.slug := by
    rw [savedSlugs_saves hsaves, List.map_map]
    rfl
  have hus_task : ∀ w ∈ us, ∃ t hv, w = Write.saveTask t hv ∧ ∃ u ∈ unfinishedIn s id,
      t = u.untagged now note := by
    intro w hw
    obtain ⟨t, ht, hv, rfl⟩ := mem_saves hsaves hw
    obtain ⟨u, hu, rfl⟩ := List.mem_map.mp ht
    exact ⟨_, hv, rfl, u, hu, rfl⟩
  refine ⟨fun t hv' ht => ?_, fun slug hslug => ?_, fun k y hv' hy _ u hu => ?_, ?_⟩
  · rcases List.mem_append.mp ht with ht | ht
    · obtain ⟨t', hv'', heq, u, hu, rfl⟩ := hus_task _ ht
      obtain rfl : t = u.untagged now note := by injection heq
      exact ⟨u, id, by simp, hu, rfl, rfl⟩
    · simp at ht
  · rcases List.mem_append.mp hslug with hslug | hslug
    · obtain ⟨t', hv'', heq, -⟩ := hus_task _ hslug
      exact absurd heq (by simp)
    · simp at hslug
  · -- The stamp is the last write, so a beginning that has it is everything.
    have hk : us.length < k := by
      by_contra hk
      rw [List.take_append_of_le_length (by omega)] at hy
      obtain ⟨t', hv'', heq, -⟩ := hus_task _ (List.mem_of_mem_take hy)
      exact absurd heq (by simp)
    have hall : (us ++ [Write.saveSession x hv]).take k = us ++ [.saveSession x hv] :=
      List.take_of_length_le (by simp; omega)
    rw [hall] at hy ⊢
    rcases List.mem_append.mp hy with hy | hy
    · obtain ⟨t', hv'', heq, -⟩ := hus_task _ hy
      exact absurd heq (by simp)
    · obtain rfl : y = x := by simpa using hy
      simp only [savedSlugs, List.filterMap_append, List.mem_append] at hslugs ⊢
      rw [hid] at hu
      exact Or.inl (hslugs ▸ List.mem_map_of_mem hu)
  · intro id' hid' u hu
    obtain rfl := List.mem_singleton.mp hid'
    simp only [savedSlugs, List.filterMap_append, List.mem_append] at hslugs ⊢
    exact Or.inl (hslugs ▸ List.mem_map_of_mem hu)

/-- Closing some sessions and then some more. -/
theorem CloseWrites.append {s : Store} {ids ids' : List String} {ws ws' : List Write}
    (h : CloseWrites s ids ws) (h' : CloseWrites s ids' ws') :
    CloseWrites s (ids ++ ids') (ws ++ ws') := by
  have happend : ∀ a b, savedSlugs (a ++ b) = savedSlugs a ++ savedSlugs b := by
    intro a b
    simp [savedSlugs]
  refine ⟨fun t hv ht => ?_, fun slug hslug => ?_, fun k x hv hx hclosed u hu => ?_, ?_⟩
  · rcases List.mem_append.mp ht with ht | ht
    · obtain ⟨u, id, hid, hu, hslug, hnode⟩ := h.saves t hv ht
      exact ⟨u, id, List.mem_append_left _ hid, hu, hslug, hnode⟩
    · obtain ⟨u, id, hid, hu, hslug, hnode⟩ := h'.saves t hv ht
      exact ⟨u, id, List.mem_append_right _ hid, hu, hslug, hnode⟩
  · exact (List.mem_append.mp hslug).elim (h.keeps slug) (h'.keeps slug)
  · rw [List.take_append, happend]
    rw [List.take_append] at hx
    rcases List.mem_append.mp hx with hx | hx
    · exact List.mem_append_left _ (h.order k x hv hx hclosed u hu)
    · exact List.mem_append_right _ (h'.order _ x hv hx hclosed u hu)
  · intro id hid u hu
    rw [happend]
    rcases List.mem_append.mp hid with hid | hid
    · exact List.mem_append_left _ (h.full id hid u hu)
    · exact List.mem_append_right _ (h'.full id hid u hu)

theorem closeWrites_abandonAll {env : Env} {s : Store} {xs : List Session} :
    ∀ {i : Nat} {ws : List Write} {ys : List Session},
      abandonAll env s i xs = .ok (ws, ys) → CloseWrites s (xs.map Session.id) ws := by
  induction xs with
  | nil =>
      intro i ws ys h
      obtain ⟨rfl, -⟩ : [] = ws ∧ [] = ys := by simpa [abandonAll] using h
      exact ⟨by simp, by simp, by simp, by simp⟩
  | cons x xs ih =>
      intro i ws ys h
      simp only [abandonAll, abandonSession, bind_eq_ok] at h
      obtain ⟨⟨ws₁, y⟩, ⟨us, hus, w, hw, h₁⟩, ⟨rest, ys'⟩, hrest, h⟩ := h
      simp only [Except.ok.injEq, Prod.mk.injEq] at h₁ h
      obtain ⟨rfl, -⟩ := h₁
      obtain ⟨rfl, -⟩ := h
      exact (closeWrites_one hus hw rfl).append (ih hrest)

/-! ## The operations -/

/-- A session saved open closes nothing. -/
theorem closeWrites_saveOpen {s : Store} {x : Session} {w : Write} (hw : saveSession x = .ok w)
    (hopen : x.isOpen = true) : CloseWrites s [] [w] := by
  obtain ⟨hv, rfl⟩ := saveSession_ok hw
  refine ⟨by simp, by simp, fun k y hv' hy hclosed => ?_, by simp⟩
  obtain rfl : y = x := by simpa using List.mem_of_mem_take hy
  rw [hopen] at hclosed
  exact absurd hclosed (by simp)

theorem mem_openSessions_isOpen {s : Store} {project : String} {x : Session}
    (h : x ∈ openSessions s project) : x.isOpen = true := by
  simp only [openSessions, List.mem_filter, Bool.and_eq_true] at h
  exact h.2.1

theorem onlyOwnSession_mem {existing : List Session} {request : StartRequest} {x : Session}
    (h : onlyOwnSession existing request = some x) : x ∈ existing := by
  unfold onlyOwnSession at h
  split at h
  · rename_i only hf
    have hmem : only ∈ existing.filter request.isOwn := by rw [hf]; exact List.mem_singleton_self _
    exact Option.some.inj h ▸ List.mem_of_mem_filter hmem
  · exact absurd h (by simp)

/-- The sessions that a start closes. -/
def StartDecision.closes (s : Store) (request : StartRequest) : StartDecision → List String
  | .replace => (openSessions s request.project).map Session.id
  | _ => []

theorem createSessionPlan_ok {s : Store} {request : StartRequest} {now : String}
    {ws : List Write} {x : Session} (h : createSessionPlan s request now = .ok (ws, x)) :
    CloseWrites s [] ws := by
  obtain ⟨w, hw, h⟩ := bind_eq_ok.mp h
  obtain ⟨rfl, -⟩ : [w] = ws ∧ _ = x := by simpa using h
  exact closeWrites_saveOpen hw rfl

theorem resumePlan_ok {s : Store} {x y : Session} {request : StartRequest} {now : String}
    {ws : List Write} (hopen : x.isOpen = true) (h : resumePlan x request now = .ok (ws, y)) :
    CloseWrites s [] ws := by
  obtain ⟨w, hw, h⟩ := bind_eq_ok.mp h
  obtain ⟨rfl, -⟩ : [w] = ws ∧ _ = y := by simpa using h
  exact closeWrites_saveOpen hw hopen

theorem startSessionPlan_ok {env : Env} {s : Store} {request : StartRequest}
    {decision : StartDecision} {ws : List Write} {r : StartOutcome}
    (h : startSessionPlan env s request decision = .ok (ws, r)) :
    CloseWrites s (decision.closes s request) ws := by
  cases decision with
  | auto =>
      simp only [startSessionPlan] at h
      split at h
      · obtain ⟨⟨ws', x⟩, hcreate, h⟩ := bind_eq_ok.mp h
        obtain ⟨rfl, -⟩ : ws' = ws ∧ _ = r := by simpa using h
        exact createSessionPlan_ok hcreate
      · split at h
        · rename_i own hown
          obtain ⟨⟨ws', x⟩, hresume, h⟩ := bind_eq_ok.mp h
          obtain ⟨rfl, -⟩ : ws' = ws ∧ _ = r := by simpa using h
          exact resumePlan_ok (mem_openSessions_isOpen (onlyOwnSession_mem hown)) hresume
        · exact absurd h (by simp)
  | resume id =>
      obtain ⟨x, -, h⟩ := bind_eq_ok.mp h
      split at h
      · rename_i hopen
        obtain ⟨⟨ws', y⟩, hresume, h⟩ := bind_eq_ok.mp h
        obtain ⟨rfl, -⟩ : ws' = ws ∧ _ = r := by simpa using h
        exact resumePlan_ok hopen hresume
      · exact absurd h (by simp)
  | replace =>
      simp only [startSessionPlan, bind_eq_ok] at h
      obtain ⟨⟨ws₁, xs⟩, habandon, ⟨ws₂, x⟩, hcreate, h⟩ := h
      obtain ⟨rfl, -⟩ : ws₁ ++ ws₂ = ws ∧ _ = r := by simpa using h
      have := (closeWrites_abandonAll habandon).append (createSessionPlan_ok hcreate)
      simpa [StartDecision.closes] using this
  | new =>
      obtain ⟨⟨ws', x⟩, hcreate, h⟩ := bind_eq_ok.mp h
      obtain ⟨rfl, -⟩ : ws' = ws ∧ _ = r := by simpa using h
      exact createSessionPlan_ok hcreate

theorem startSession_world (env : Env) (s : Store) (request : StartRequest)
    (decision : StartDecision) :
    ∃ slugs, Closing env s (decision.closes s request) slugs
      (startSession env s request decision).2.world := by
  rcases perform_world env s (startSessionPlan env s request decision)
      (fun _ s' => s') (fun _ _ => rfl) with h | ⟨ws, r, k, hp, h, hk⟩
  · exact ⟨[], Closing.nothing _ (congrArg World.node? h) fun id hid => by rw [← h]; exact hid⟩
  · have hclosing := (startSessionPlan_ok hp).closing k hk
    rw [← h] at hclosing
    exact ⟨_, hclosing⟩

/-- A planned finish closes its session, and without `--abandon-open` no task of
it is unfinished. -/
theorem finishSessionPlan_ok {env : Env} {s : Store} {id : String} {abandonOpen : Bool}
    {ws : List Write} {r : FinishOutcome}
    (h : finishSessionPlan env s id abandonOpen = .ok (ws, r)) :
    CloseWrites s [id] ws ∧ (abandonOpen = false → unfinishedIn s id = []) := by
  simp only [finishSessionPlan, bind_eq_ok] at h
  obtain ⟨x, hx, h⟩ := h
  split at h
  · split at h
    · exact absurd h (by simp)
    · rename_i hunfinished
      simp only [bind_eq_ok] at h
      obtain ⟨us, hus, w, hw, h⟩ := h
      obtain ⟨rfl, -⟩ : us ++ [w] = ws ∧ _ = r := by simpa using h
      have hid : x.id = id := Store.id_of_session? (loadExistingSession_ok hx)
      refine ⟨closeWrites_one hus hw hid, fun hforce => ?_⟩
      exact by_contra fun hne => hunfinished ⟨hne, hforce⟩
  · exact absurd h (by simp)

/-- A finish without `--abandon-open` is accepted only when it untags nothing. -/
theorem finishSession_world (env : Env) (s : Store) (id : String) (abandonOpen : Bool) :
    ∃ slugs, Closing env s [id] slugs (finishSession env s id abandonOpen).2.world ∧
      (abandonOpen = false → slugs = []) := by
  rcases perform_world env s (finishSessionPlan env s id abandonOpen)
      (fun _ s' => s') (fun _ _ => rfl) with h | ⟨ws, r, k, hp, h, hk⟩
  · exact ⟨[], Closing.nothing _ (congrArg World.node? h) fun id hid => by rw [← h]; exact hid,
      fun _ => rfl⟩
  · obtain ⟨hws, hnone⟩ := finishSessionPlan_ok hp
    refine ⟨savedSlugs (ws.take k), ?_, fun hforce => ?_⟩
    · have hclosing := hws.closing k hk
      rw [← h] at hclosing
      exact hclosing
    · refine List.eq_nil_iff_forall_not_mem.mpr fun j hj => ?_
      obtain ⟨t, hv, ht, rfl⟩ := mem_savedSlugs.mp hj
      obtain ⟨u, id', hid', hu, -⟩ := hws.saves t hv (List.mem_of_mem_take ht)
      obtain rfl := List.mem_singleton.mp hid'
      rw [hnone hforce] at hu
      exact absurd hu (by simp)

/-- A bump saves the session as open as it was. -/
theorem updateResumePlan_ok {env : Env} {s : Store} {id : String} {ws : List Write} {r : Session}
    (h : updateResumePlan env s id = .ok (ws, r)) :
    ∃ x hv, ws = [.saveSession x hv] ∧ s.world.open? x.id = some x.isOpen := by
  obtain ⟨x, hx, h⟩ := bind_eq_ok.mp h
  have hx := loadExistingSession_ok hx
  split at h
  · obtain ⟨w, hw, h⟩ := bind_eq_ok.mp h
    obtain ⟨rfl, -⟩ : [w] = ws ∧ _ = r := by simpa using h
    obtain ⟨hv, rfl⟩ := saveSession_ok hw
    refine ⟨_, hv, rfl, ?_⟩
    show s.world.open? x.id = _
    rw [Store.world_open?, Store.id_of_session? hx, hx]
    rfl
  · exact absurd h (by simp)

theorem updateResume_world (env : Env) (s : Store) (id : String) :
    (updateResume env s id).2.world = s.world := by
  rcases perform_world_one env s (updateResumePlan env s id)
      (fun _ s' => s') (fun _ _ => rfl)
      (fun ws r h => by obtain ⟨x, hv, rfl, -⟩ := updateResumePlan_ok h; simp) with h | ⟨w, r, hp, h⟩
  · exact h
  · obtain ⟨x, hv, hw, hopen⟩ := updateResumePlan_ok hp
    obtain rfl : w = .saveSession x hv := by simpa using hw
    exact h.trans ((world_saveSession s x hv).trans (World.apply_session_of_eq hopen))

/-! ## What one call can do -/

/-- The worlds that one call can leave, with what the call has checked by
then. -/
inductive Outcome (s : Store) : Env × Op → World → Prop
  | unchanged {call : Env × Op} : Outcome s call s.world
  | added {env : Env} {new : NewTask} {parent : ParentSpec} {choice : SessionChoice}
      {project : String} {n : Node} : Added env s new parent choice project n →
      Outcome s (env, .add new parent choice project)
        (s.world.apply (.add (newSlug env s new.title) n))
  | finished {env : Env} {target : TaskTarget} {force : Bool} {caller : Option Caller}
      {slug : String} : (force = false → undoneDescendants slug s.tasks.items = []) →
      Outcome s (env, .complete target force caller) (s.world.apply (.mark [slug] true))
  | edited {env : Env} {target : TaskTarget} {edit : TaskEdit} {t : Task} {q : Option String} :
      Edited env s target edit t q →
      Outcome s (env, .edit target edit) (s.world.apply (.reparent t.slug q))
  | reopened {env : Env} {target : TaskTarget} {t : Task} : target.slug env s = .ok t.slug →
      s.task? t.slug = some t → t.state = .done →
      Outcome s (env, .reopen target) (s.world.apply (.mark [t.slug] false))
  | reopenedAll {env : Env} {targets : List TaskTarget} {tasks : List Task} {k : Nat} :
      Batch env s targets tasks → (env.failAt = none → tasks.length ≤ k) →
      Outcome s (env, .reopenAll targets)
        (s.world.apply (.mark ((tasks.take k).map Task.slug) false))
  | removed {call : Env × Op} (slugs : List String) :
      Outcome s call (s.world.apply (.remove slugs))
  | started {env : Env} {request : StartRequest} {decision : StartDecision}
      {slugs : List String} {w : World} :
      Closing env s (decision.closes s request) slugs w →
      Outcome s (env, .startSession request decision) w
  | ended {env : Env} {id : String} {abandonOpen : Bool} {slugs : List String} {w : World} :
      Closing env s [id] slugs w → (abandonOpen = false → slugs = []) →
      Outcome s (env, .finishSession id abandonOpen) w

/-- Every call, whether it succeeds or not. -/
theorem exec_outcome (s : Store) (call : Env × Op) : Outcome s call (exec s call).world := by
  obtain ⟨env, op⟩ := call
  cases op with
  | add new parent choice project =>
      rcases addTask_world env s new parent choice project with h | ⟨n, hadded, h⟩
      · rw [exec, h]
        exact .unchanged
      · rw [exec, h]
        exact .added hadded
  | start target force =>
      rw [exec, startTask_world]
      exact .unchanged
  | complete target force caller =>
      rcases completeTask_world env s target force caller with h | ⟨slug, hundone, h⟩
      · rw [exec, h]
        exact .unchanged
      · rw [exec, h]
        exact .finished hundone
  | wait target reason =>
      rw [exec, waitTask_world]
      exact .unchanged
  | block target on =>
      rw [exec, blockTask_world]
      exact .unchanged
  | note target text =>
      rw [exec, noteTask_world]
      exact .unchanged
  | edit target edit =>
      rcases editTask_world env s target edit with h | ⟨t, q, hedited, h⟩
      · rw [exec, h]
        exact .unchanged
      · rw [exec, h]
        exact .edited hedited
  | reopen target =>
      rcases reopenTask_world env s target with h | ⟨t, hslug, ht, hdone, h⟩
      · rw [exec, h]
        exact .unchanged
      · rw [exec, h]
        exact .reopened hslug ht hdone
  | reopenAll targets =>
      rcases reopenTargets_world env s targets with h | ⟨tasks, k, hbatch, hk, h⟩
      · rw [exec, h]
        exact .unchanged
      · rw [exec, h]
        exact .reopenedAll hbatch hk
  | delete target =>
      obtain ⟨slugs, h⟩ := deleteTask_world env s target
      rw [exec, h]
      exact .removed slugs
  | deleteInSession id =>
      obtain ⟨slugs, h⟩ := deleteTasksInSession_world env s id
      rw [exec, h]
      exact .removed slugs
  | startSession request decision =>
      obtain ⟨slugs, h⟩ := startSession_world env s request decision
      exact .started h
  | finishSession id abandonOpen =>
      obtain ⟨slugs, h, hnone⟩ := finishSession_world env s id abandonOpen
      exact .ended h hnone
  | updateResume id =>
      rw [exec, updateResume_world]
      exact .unchanged

end Llmenv.Tasks
