/-
# `Llmenv.Tasks.Effects` — the moves that each operation makes

The faithful model refines the abstract one: the world after a call is the
world before it with a few moves made, and this module says which, ONE lemma
per operation.  Where the code checked something before it wrote, the lemma
says so (`Added`, `Edited`, `Closed`), so a later proof never opens an
operation again.

A call can be refused, and its saves can fail in the middle.  Both leave a
PREFIX of the writes on disk (`perform_world`), so the moves of a call that
writes several files are stated for an arbitrary prefix.
-/
import Llmenv.Tasks.Plans
import Llmenv.Tasks.World

namespace Llmenv.Tasks

open Llmenv.Lib

/-! ## Writes -/

theorem world_saveTask (s : Store) (t : Task) (h) (k : String) :
    (s.apply (.saveTask t h)).world.node? k =
      if t.slug = k then some t.node else s.world.node? k := by
  rw [Store.world_node?, Store.task?_saveTask]
  split <;> rfl

@[simp] theorem world_saveTask_open? (s : Store) (t : Task) (h) :
    (s.apply (.saveTask t h)).world.open? = s.world.open? := rfl

@[simp] theorem world_removeTask_open? (s : Store) (slug : String) :
    (s.apply (.removeTask slug)).world.open? = s.world.open? := rfl

@[simp] theorem world_saveSession_node? (s : Store) (x : Session) (h) :
    (s.apply (.saveSession x h)).world.node? = s.world.node? := rfl

theorem saveAll_ok {ts : List Task} {ws : List Write} (h : saveAll ts = .ok ws) :
    List.Forall₂ (fun t w => ∃ hv, w = Write.saveTask t hv) ts ws := by
  induction ts generalizing ws with
  | nil =>
      obtain rfl : [] = ws := by simpa [saveAll] using h
      exact .nil
  | cons t ts ih =>
      simp only [saveAll, bind_eq_ok] at h
      obtain ⟨w, hw, ws', hws', h⟩ := h
      obtain rfl : w :: ws' = ws := by simpa using h
      exact .cons (saveTask_ok hw) (ih hws')

theorem saveAll_of_valid (ts : List Task) (h : ∀ t ∈ ts, isValidShortName t.slug = true) :
    ∃ ws, saveAll ts = .ok ws := by
  induction ts with
  | nil => exact ⟨[], rfl⟩
  | cons t ts ih =>
      obtain ⟨ws, hws⟩ := ih (fun u hu => h u (List.mem_cons_of_mem _ hu))
      exact ⟨.saveTask t (h t List.mem_cons_self) :: ws, by
        simp [saveAll, saveTask, h t List.mem_cons_self, hws, bind, Except.bind]⟩

/-- The slugs of the tasks that are saved. -/
def savedSlugs (ws : List Write) : List String :=
  ws.filterMap (fun
    | .saveTask t _ => some t.slug
    | _ => none)

/-- The writes that save changed versions of stored tasks, and sessions.  `φ`
is the change; it is applied to the task as it is in `s`. -/
def Saves (s : Store) (φ : Node → Node) (ws : List Write) : Prop :=
  ∀ w ∈ ws, match w with
    | .saveTask t _ => ∃ n, s.world.node? t.slug = some n ∧ t.node = φ n
    | .removeTask _ => False
    | .saveSession _ _ => True

/-- Saving one file after the other.  Every change starts from the task as it
was BEFORE the first of the writes. -/
theorem node?_applyAll {s : Store} {φ : Node → Node} {ws : List Write} (h : Saves s φ ws) :
    (s.applyAll ws).world.node? = (s.world.modify (savedSlugs ws) φ).node? := by
  -- Generalised over the slugs already written, which is what the store after
  -- a few writes looks like.
  suffices hgen : ∀ (s' : Store) (slugs : List String),
      s'.world.node? = (s.world.modify slugs φ).node? →
      (s'.applyAll ws).world.node? = (s.world.modify (slugs ++ savedSlugs ws) φ).node? from
    hgen s [] (by simp)
  induction ws with
  | nil =>
      intro s' slugs hs'
      simpa [savedSlugs] using hs'
  | cons w ws ih =>
      intro s' slugs hs'
      have hw := h w List.mem_cons_self
      have hws : Saves s φ ws := fun w' hw' => h w' (List.mem_cons_of_mem _ hw')
      cases w with
      | removeTask slug => exact hw.elim
      | saveSession x hv => exact ih hws _ slugs hs'
      | saveTask t hv =>
          obtain ⟨n, hn, htn⟩ := hw
          have hstep : (s'.apply (.saveTask t hv)).world.node? =
              (s.world.modify (slugs ++ [t.slug]) φ).node? := by
            funext k
            rw [world_saveTask, hs']
            by_cases hk : t.slug = k
            · subst hk
              simp [World.modify, hn, htn]
            · have hk' : k ≠ t.slug := fun h => hk h.symm
              simp [World.modify, hk, hk']
          have := ih hws _ _ hstep
          simpa [savedSlugs] using this

/-- A session that is closed after some writes was closed before them, or one
of them closed it. -/
theorem open?_applyAll {s : Store} {ws : List Write} {id : String}
    (h : (s.applyAll ws).world.open? id = some false) :
    s.world.open? id = some false ∨
      ∃ x hv, Write.saveSession x hv ∈ ws ∧ x.id = id ∧ x.isOpen = false := by
  induction ws generalizing s with
  | nil => exact Or.inl h
  | cons w ws ih =>
      rcases ih h with hbefore | ⟨x, hv, hx, hid, hclosed⟩
      · cases w with
        | saveTask t hv => exact Or.inl hbefore
        | removeTask slug => exact Or.inl hbefore
        | saveSession x hv =>
            rw [Store.world_open?, Store.session?_saveSession] at hbefore
            by_cases hid : x.id = id
            · exact Or.inr ⟨x, hv, List.mem_cons_self, hid, by simpa [hid] using hbefore⟩
            · exact Or.inl (by simpa [hid, Store.world_open?] using hbefore)
      · exact Or.inr ⟨x, hv, List.mem_cons_of_mem _ hx, hid, hclosed⟩

theorem savedSlugs_saves {ts : List Task} {ws : List Write}
    (hts : List.Forall₂ (fun t w => ∃ hv, w = Write.saveTask t hv) ts ws) :
    savedSlugs ws = ts.map Task.slug := by
  induction hts with
  | nil => rfl
  | cons hw _ ih =>
      obtain ⟨hv, rfl⟩ := hw
      simpa [savedSlugs] using ih

theorem mem_saves {ts : List Task} {ws : List Write}
    (hts : List.Forall₂ (fun t w => ∃ hv, w = Write.saveTask t hv) ts ws) {w : Write}
    (h : w ∈ ws) : ∃ t ∈ ts, ∃ hv, w = .saveTask t hv := by
  induction hts with
  | nil => exact absurd h (by simp)
  | cons hw _ ih =>
      rcases List.mem_cons.mp h with rfl | h
      · exact ⟨_, List.mem_cons_self, hw⟩
      · obtain ⟨t, ht, hv⟩ := ih h
        exact ⟨t, List.mem_cons_of_mem _ ht, hv⟩

theorem open?_saves {ts : List Task} {ws : List Write}
    (hts : List.Forall₂ (fun t w => ∃ hv, w = Write.saveTask t hv) ts ws) (s : Store) :
    (s.applyAll ws).world.open? = s.world.open? := by
  induction hts generalizing s with
  | nil => rfl
  | cons hw _ ih =>
      obtain ⟨hv, rfl⟩ := hw
      exact ih _

/-- Saving changed versions of stored tasks. -/
theorem world_saves {s : Store} {φ : Node → Node} {ts : List Task} {ws : List Write}
    (hts : List.Forall₂ (fun t w => ∃ hv, w = Write.saveTask t hv) ts ws)
    (hφ : ∀ t ∈ ts, ∃ n, s.world.node? t.slug = some n ∧ t.node = φ n) :
    (s.applyAll ws).world = s.world.modify (ts.map Task.slug) φ := by
  have hsaves : Saves s φ ws := by
    intro w hw
    obtain ⟨t, ht, hv, rfl⟩ := mem_saves hts hw
    exact hφ t ht
  refine World.ext ?_ (open?_saves hts s)
  rw [node?_applyAll hsaves, savedSlugs_saves hts]

theorem world_saveAll {s : Store} {φ : Node → Node} {ts : List Task} {ws : List Write}
    (h : saveAll ts = .ok ws)
    (hφ : ∀ t ∈ ts, ∃ n, s.world.node? t.slug = some n ∧ t.node = φ n) (k : Nat) :
    (s.applyAll (ws.take k)).world = s.world.modify ((ts.take k).map Task.slug) φ :=
  world_saves (List.forall₂_take k (saveAll_ok h))
    (fun t ht => hφ t (List.mem_of_mem_take ht))

theorem world_removes (s : Store) (slugs : List String) :
    (s.applyAll (slugs.map Write.removeTask)).world = s.world.apply (.remove slugs) := by
  induction slugs generalizing s with
  | nil => ext1 <;> simp [World.apply]
  | cons slug slugs ih =>
      rw [List.map_cons, Store.applyAll_cons, ih]
      refine World.ext ?_ (by simp only [World.apply, world_removeTask_open?])
      funext k
      simp only [World.apply, Store.world_node?, Store.task?_removeTask, List.mem_cons]
      by_cases hk : k = slug <;> by_cases hks : k ∈ slugs <;> simp [hk, hks]

/-- Writing a session file. -/
theorem world_saveSession (s : Store) (x : Session) (h) :
    (s.apply (.saveSession x h)).world = s.world.apply (.session x.id x.isOpen) := by
  refine World.ext (by simp only [World.apply, world_saveSession_node?]) ?_
  funext k
  simp only [World.apply, Store.world_open?, Store.session?_saveSession]
  by_cases hk : x.id = k
  · subst hk
    simp
  · have hk' : k ≠ x.id := fun h => hk h.symm
    simp [hk, hk', Store.world_open?]

theorem saveSession_ok {x : Session} {w : Write} (h : saveSession x = .ok w) :
    ∃ hv, w = .saveSession x hv := by
  unfold saveSession at h
  split at h
  · rename_i hv
    exact ⟨hv, (Except.ok.inj h).symm⟩
  · exact absurd h (by simp)

/-! ## Calls -/

theorem touchLastActivity_world (s : Store) (now id : String) :
    (touchLastActivity s now id).world = s.world := by
  unfold touchLastActivity
  split
  · rfl
  · rename_i x hx
    split
    · rw [world_saveSession]
      refine World.apply_session_of_eq ?_
      rw [Store.world_open?, Store.id_of_session? hx, hx]
      rfl
    · rfl

theorem touchTaskSession_world (env : Env) (s : Store) (t : Task) :
    (touchTaskSession env s t).world = s.world := by
  unfold touchTaskSession
  split
  · exact touchLastActivity_world _ _ _
  · rfl

/-- Touching sessions keeps what touching one session keeps. -/
theorem touchSessions_obs {β : Type} {env : Env} (obs : Store → β)
    (hobs : ∀ s t, obs (touchTaskSession env s t) = obs s) (ts : List Task)
    (touched : List String) (s : Store) : obs (touchSessions env ts touched s) = obs s := by
  induction ts generalizing touched s with
  | nil => rfl
  | cons t ts ih =>
      unfold touchSessions
      split
      · split
        · exact ih _ _
        · rw [ih, hobs]
      · exact ih _ _

theorem touchSessions_world (env : Env) (ts : List Task) (touched : List String) (s : Store) :
    (touchSessions env ts touched s).world = s.world :=
  touchSessions_obs Store.world (touchTaskSession_world env) ts touched s

/-- A call is refused and changes nothing, or a prefix of its writes is made;
without a failing save that is all of them.  `obs` is what one looks at, and
the step `after` the call does not change it. -/
theorem perform_obs {α β : Type} (env : Env) (s : Store) (plan : Except String (Planned α))
    (after : α → Store → Store) (obs : Store → β) (hafter : ∀ r s', obs (after r s') = obs s') :
    obs (perform env s plan after).2 = obs s ∨
      ∃ ws r k, plan = .ok (ws, r) ∧
        obs (perform env s plan after).2 = obs (s.applyAll (ws.take k)) ∧
        (env.failAt = none → ws.length ≤ k) := by
  cases plan with
  | error text => exact Or.inl rfl
  | ok planned =>
      obtain ⟨ws, r⟩ := planned
      refine Or.inr ⟨ws, r, ?_⟩
      cases hf : env.failAt with
      | none => exact ⟨ws.length, rfl, by simp [perform, commit, hf, hafter], fun _ => le_rfl⟩
      | some k =>
          by_cases hk : k < ws.length
          · exact ⟨k, rfl, by simp [perform, commit, hf, hk], by simp⟩
          · exact ⟨ws.length, rfl, by simp [perform, commit, hf, hk, hafter], by simp⟩

theorem perform_world {α : Type} (env : Env) (s : Store) (plan : Except String (Planned α))
    (after : α → Store → Store) (hafter : ∀ r s', (after r s').world = s'.world) :
    (perform env s plan after).2.world = s.world ∨
      ∃ ws r k, plan = .ok (ws, r) ∧
        (perform env s plan after).2.world = (s.applyAll (ws.take k)).world ∧
        (env.failAt = none → ws.length ≤ k) :=
  perform_obs env s plan after Store.world hafter

/-- A call that writes at most one file either changes nothing or makes that
write. -/
theorem perform_world_one {α : Type} (env : Env) (s : Store) (plan : Except String (Planned α))
    (after : α → Store → Store) (hafter : ∀ r s', (after r s').world = s'.world)
    (hone : ∀ ws r, plan = .ok (ws, r) → ws.length ≤ 1) :
    (perform env s plan after).2.world = s.world ∨
      ∃ w r, plan = .ok ([w], r) ∧ (perform env s plan after).2.world = (s.apply w).world := by
  rcases perform_world env s plan after hafter with h | ⟨ws, r, k, hplan, h, -⟩
  · exact Or.inl h
  · have hlen := hone ws r hplan
    rcases ws with _ | ⟨w, _ | ⟨w', rest⟩⟩
    · exact Or.inl (by simpa using h)
    · cases k with
      | zero => exact Or.inl (by simpa using h)
      | succ k => exact Or.inr ⟨w, r, hplan, by simpa using h⟩
    · simp only [List.length_cons] at hlen
      omega

theorem saveAll_one {t : Task} {w : Write} (h : saveTask t = .ok w) : saveAll [t] = .ok [w] := by
  simp [saveAll, h, bind, Except.bind]

theorem node?_of_task? {s : Store} {slug : String} {t : Task} (h : s.task? slug = some t) :
    s.world.node? slug = some t.node := by
  rw [Store.world_node?, h]
  rfl

theorem task?_of_node? {s : Store} {slug : String} {n : Node} (h : s.world.node? slug = some n) :
    ∃ t, s.task? slug = some t ∧ t.node = n := by
  rw [Store.world_node?] at h
  exact Option.map_eq_some_iff.mp h

/-- One changed task is saved: the change `φ` is made to it, or nothing is. -/
theorem perform_save {α : Type} {env : Env} {s : Store} {plan : Except String (Planned α)}
    {after : α → Store → Store} (hafter : ∀ r s', (after r s').world = s'.world)
    {P : Task → Task → Prop}
    (hplan : ∀ ws r, plan = .ok (ws, r) → ws = [] ∨ ∃ t t', SavesOne s ws t t' ∧ P t t') :
    (perform env s plan after).2.world = s.world ∨
      ∃ t t', s.task? t.slug = some t ∧ P t t' ∧
        ∀ φ : Node → Node, t'.node = φ t.node →
          (perform env s plan after).2.world = s.world.modify [t.slug] φ := by
  have hone : ∀ ws r, plan = .ok (ws, r) → ws.length ≤ 1 := by
    intro ws r h
    rcases hplan ws r h with rfl | ⟨t, t', ⟨-, -, w, -, rfl⟩, -⟩
    · exact Nat.zero_le 1
    · exact Nat.le_refl 1
  rcases perform_world_one env s plan after hafter hone with h | ⟨w, r, hp, h⟩
  · exact Or.inl h
  · rcases hplan [w] r hp with hnil | ⟨t, t', ⟨ht, hslug, w', hw, hws⟩, hP⟩
    · exact absurd hnil (by simp)
    · obtain rfl : w = w' := by simpa using hws
      refine Or.inr ⟨t, t', ht, hP, fun φ hφ => ?_⟩
      have hsave := world_saveAll (s := s) (φ := φ) (saveAll_one hw)
        (by
          intro u hu
          obtain rfl := List.mem_singleton.mp hu
          exact ⟨t.node, by rw [hslug, node?_of_task? ht], hφ⟩) 1
      rw [h]
      simpa [hslug] using hsave

/-! ## Operations that make no move -/

/-- Tasks saved over themselves with other notes, times, blockers or progress. -/
theorem perform_quiet {α : Type} {env : Env} {s : Store} {plan : Except String (Planned α)}
    {after : α → Store → Store} (hafter : ∀ r s', (after r s').world = s'.world)
    (hplan : ∀ ws r, plan = .ok (ws, r) →
      ∃ ts, saveAll ts = .ok ws ∧ ∀ t ∈ ts, s.world.node? t.slug = some t.node) :
    (perform env s plan after).2.world = s.world := by
  rcases perform_world env s plan after hafter with h | ⟨ws, r, k, hp, h, -⟩
  · exact h
  · obtain ⟨ts, hts, hkeep⟩ := hplan ws r hp
    have hsave := world_saveAll (φ := id) hts (fun t ht => ⟨t.node, hkeep t ht, rfl⟩) k
    rw [h, hsave, World.modify_id]

/-- A stored task saved with the same parent, relation, session and doneness. -/
theorem SavesOne.quiet {s : Store} {ws : List Write} {t t' : Task} (h : SavesOne s ws t t')
    (hnode : t'.node = t.node) :
    ∃ ts, saveAll ts = .ok ws ∧ ∀ u ∈ ts, s.world.node? u.slug = some u.node := by
  obtain ⟨hstored, hslug, w, hw, rfl⟩ := h
  refine ⟨[t'], saveAll_one hw, fun u hu => ?_⟩
  obtain rfl := List.mem_singleton.mp hu
  rw [hslug, node?_of_task? hstored, hnode]

theorem waitTask_world (env : Env) (s : Store) (target : TaskTarget) (reason : String) :
    (waitTask env s target reason).2.world = s.world := by
  refine perform_quiet (fun r s' => touchTaskSession_world env s' r) fun ws r h => ?_
  obtain ⟨t, notes, hdone, hsaves⟩ := waitTaskPlan_ok h
  exact hsaves.quiet (by simp [Task.node, hdone])

theorem noteTask_world (env : Env) (s : Store) (target : TaskTarget) (text : String) :
    (noteTask env s target text).2.world = s.world := by
  refine perform_quiet (fun r s' => touchTaskSession_world env s' r) fun ws r h => ?_
  obtain ⟨t, notes, hsaves⟩ := noteTaskPlan_ok h
  exact hsaves.quiet rfl

theorem blockTask_world (env : Env) (s : Store) (target : TaskTarget) (on : String) :
    (blockTask env s target on).2.world = s.world := by
  refine perform_quiet (fun _ _ => rfl) fun ws r h => ?_
  obtain ⟨t, blockedOn, hsaves⟩ := blockTaskPlan_ok h
  exact hsaves.quiet rfl

/-- One round of the walk up: it ends at a top-level task, or it goes on at the
stored parent, which is promoted when it is `open`. -/
theorem ancestorsFrom_ok {s : Store} {child : Task} {force : Bool} {fuel : Nat}
    {seen : List String} {current : Task} {above : List Task}
    (h : ancestorsFrom s child force (fuel + 1) seen current = .ok above) :
    (current.relation = .queued ∧ above = []) ∨
      ∃ parent rest, current.relation = .child ∧ current.parent = some parent.slug ∧
        s.task? parent.slug = some parent ∧ (force = false → parent.state ≠ .done) ∧
        ancestorsFrom s child force fuel (parent.slug :: seen) parent = .ok rest ∧
        ((parent.state = .opened ∧ (force = false → queueBlockIn s parent = none) ∧
            above = parent :: rest) ∨
          (parent.state ≠ .opened ∧ above = rest)) := by
  simp only [ancestorsFrom] at h
  split at h
  · rename_i hrel
    split at h
    · exact absurd h (by simp)
    · rename_i parentSlug hparent
      split at h
      · exact absurd h (by simp)
      · split at h
        · exact absurd h (by simp)
        · exact absurd h (by simp)
        · rename_i parent hload
          have hstored := loadTask_eq_ok.mp hload
          obtain rfl := Store.slug_of_task? hstored
          split at h
          · exact absurd h (by simp)
          · rename_i hdone
            have hdone : force = false → parent.state ≠ .done := fun hf hd => hdone ⟨hd, hf⟩
            split at h
            · rename_i hopened
              split at h
              · exact absurd h (by simp)
              · rename_i hblock
                obtain ⟨rest, hrest, h⟩ := bind_eq_ok.mp h
                obtain rfl : parent :: rest = above := by simpa using h
                refine Or.inr ⟨parent, rest, hrel, hparent, hstored, hdone, hrest,
                  Or.inl ⟨hopened, fun hf => ?_, rfl⟩⟩
                simpa [hf] using hblock
            · rename_i hopened
              exact Or.inr ⟨parent, above, hrel, hparent, hstored, hdone, h,
                Or.inr ⟨hopened, rfl⟩⟩
  · rename_i hrel
    obtain rfl : [] = above := by simpa using h
    refine Or.inl ⟨?_, rfl⟩
    cases hr : current.relation with
    | queued => rfl
    | child => exact absurd hr hrel

/-- The promoted ancestors are stored, and they are `open`. -/
theorem ancestorsFrom_stored {s : Store} {child : Task} {force : Bool} {fuel : Nat}
    {seen : List String} {current : Task} {above : List Task}
    (h : ancestorsFrom s child force fuel seen current = .ok above) :
    ∀ u ∈ above, s.task? u.slug = some u ∧ u.state = .opened := by
  induction fuel generalizing seen current above with
  | zero => exact absurd h (by simp [ancestorsFrom])
  | succ fuel ih =>
      rcases ancestorsFrom_ok h with ⟨-, rfl⟩ | ⟨parent, rest, -, -, hstored, -, hrest, hstep⟩
      · simp
      · rcases hstep with ⟨hopened, -, rfl⟩ | ⟨-, rfl⟩
        · intro u hu
          rcases List.mem_cons.mp hu with rfl | hu
          · exact ⟨hstored, hopened⟩
          · exact ih hrest u hu
        · exact ih hrest

theorem started_node {t : Task} (now : String) (h : t.state ≠ .done) :
    (t.started now).node = t.node := by
  simp [Task.node, Task.started, h]

theorem startTask_world (env : Env) (s : Store) (target : TaskTarget) (force : Bool) :
    (startTask env s target force).2.world = s.world := by
  refine perform_quiet (fun r s' => touchTaskSession_world env s' r) fun ws r h => ?_
  obtain ⟨t, promoted, haccepted, hws⟩ := startTaskPlan_accepted h
  refine ⟨_, hws, fun u hu => ?_⟩
  rcases List.mem_append.mp hu with hu | hu
  · obtain ⟨v, hv, rfl⟩ := List.mem_map.mp hu
    obtain ⟨hstored, hopened⟩ := ancestorsFrom_stored haccepted.ancestors v hv
    rw [started_node _ (by simp [hopened])]
    exact node?_of_task? hstored
  · obtain rfl := List.mem_singleton.mp hu
    rw [started_node _ haccepted.unfinished]
    exact node?_of_task? haccepted.stored

/-! ## Adding a task -/

/-- The name of the parent that a new task is given. -/
def NewTask.parentName (new : NewTask) (parent : ParentSpec) : Option String :=
  match new.placement with
  | .child name => some name
  | _ => parent.name?

/-- What an accepted add knows of the new task. -/
structure Added (env : Env) (s : Store) (new : NewTask) (parent : ParentSpec)
    (choice : SessionChoice) (project : String) (n : Node) : Prop where
  notDone : n.done = false
  session : ∃ id, resolveSessionForAdd s choice project = .ok id ∧ n.session = some id
  parent : ∀ p, n.parent = some p → ∃ name m, new.parentName parent = some name ∧
    resolveIn env s name = .ok p ∧ s.world.node? p = some m ∧ m.session = n.session ∧
    (n.relation = .child → m.done = false)

theorem explicitParent_ok {env : Env} {s : Store} {parent : ParentSpec} {id : String}
    {q : Option String} (h : explicitParent env s parent id = .ok q) :
    ∀ p, q = some p → ∃ name m, parent.name? = some name ∧ resolveIn env s name = .ok p ∧
      s.task? p = some m ∧ m.session = some id := by
  rintro p rfl
  cases parent with
  | detached => simp [explicitParent] at h
  | explicit name =>
      simp only [explicitParent, bind_eq_ok] at h
      obtain ⟨slug, hslug, ⟨⟩, hcheck, h⟩ := h
      obtain rfl : slug = p := by simpa using h
      obtain ⟨m, hm, hses, -⟩ := ensureParentInSession_ok hcheck
      exact ⟨name, m, rfl, hslug, hm, hses⟩

/-- The three parts of the placement of a new task. -/
theorem placeTask_ok {env : Env} {s : Store} {new : NewTask} {parent : ParentSpec}
    {explicit : Option String} {id : String} {q : Option String} {relation : Relation}
    {parallel : Bool} (hexplicit : explicitParent env s parent id = .ok explicit)
    (h : placeTask env s new.placement explicit id = .ok (q, relation, parallel)) :
    ∀ p, q = some p → ∃ name m, new.parentName parent = some name ∧
      resolveIn env s name = .ok p ∧ s.task? p = some m ∧ m.session = some id ∧
      (relation = .child → m.state ≠ .done) := by
  rintro p rfl
  have hqueued : relation = .queued → explicit = some p →
      new.parentName parent = parent.name? → ∃ name m, new.parentName parent = some name ∧
      resolveIn env s name = .ok p ∧ s.task? p = some m ∧ m.session = some id ∧
      (relation = .child → m.state ≠ .done) := by
    intro hrel hp hname
    obtain ⟨name, m, hname', hres, hm, hses⟩ := explicitParent_ok hexplicit p hp
    exact ⟨name, m, hname.trans hname', hres, hm, hses, by simp [hrel]⟩
  cases hpl : new.placement with
  | queue =>
      simp only [hpl, placeTask, Except.ok.injEq, Prod.mk.injEq] at h
      exact hqueued h.2.1.symm h.1 (by simp [NewTask.parentName, hpl])
  | parallel =>
      simp only [hpl, placeTask, Except.ok.injEq, Prod.mk.injEq] at h
      exact hqueued h.2.1.symm h.1 (by simp [NewTask.parentName, hpl])
  | child name =>
      simp only [hpl, placeTask, bind_eq_ok] at h
      obtain ⟨slug, hslug, m, hm, ⟨⟩, hcheck, h⟩ := h
      simp only [Except.ok.injEq, Prod.mk.injEq, Option.some.injEq] at h
      obtain ⟨rfl, -, -⟩ := h
      obtain ⟨hdone, hses⟩ := checkChildParent_ok hcheck
      exact ⟨name, m, by simp [NewTask.parentName, hpl], hslug, loadOrFail_eq_ok.mp hm, hses,
        fun _ => hdone⟩

theorem addTaskPlan_ok {env : Env} {s : Store} {new : NewTask} {parent : ParentSpec}
    {choice : SessionChoice} {project : String} {ws : List Write} {r : Task}
    (h : addTaskPlan env s new parent choice project = .ok (ws, r)) :
    r.slug = newSlug env s new.title ∧ Added env s new parent choice project r.node ∧
      ∃ w, saveTask r = .ok w ∧ ws = [w] := by
  obtain ⟨id, explicit, hid, hsession, hexplicit, hplace, hslug, hopened, hsaved⟩ :=
    addTaskPlan_saves h
  refine ⟨hslug, ⟨by simp [Task.node, hopened], ⟨id, hid, hsession⟩, fun p hp => ?_⟩, hsaved⟩
  obtain ⟨name, m, hname, hres, hm, hses, hdone⟩ := placeTask_ok hexplicit hplace p hp
  exact ⟨name, m.node, hname, hres, node?_of_task? hm, hses.trans hsession.symm,
    fun hrel => by simpa [Task.node] using hdone hrel⟩

/-- Adding a task is one `add` move under a name that no file has, or none. -/
theorem addTask_world (env : Env) (s : Store) (new : NewTask) (parent : ParentSpec)
    (choice : SessionChoice) (project : String) :
    (addTask env s new parent choice project).2.world = s.world ∨
      ∃ n, Added env s new parent choice project n ∧
        (addTask env s new parent choice project).2.world =
          s.world.apply (.add (newSlug env s new.title) n) := by
  have hone : ∀ ws r, addTaskPlan env s new parent choice project = .ok (ws, r) →
      ws.length ≤ 1 := by
    intro ws r h
    obtain ⟨-, -, w, -, rfl⟩ := addTaskPlan_ok h
    simp
  rcases perform_world_one env s _ _ (fun r s' => touchTaskSession_world env s' r) hone with
    h | ⟨w, r, hp, h⟩
  · exact Or.inl h
  · obtain ⟨hslug, hadded, w', hw', hws⟩ := addTaskPlan_ok hp
    obtain rfl : w = w' := by simpa using hws
    obtain ⟨hv, rfl⟩ := saveTask_ok hw'
    refine Or.inr ⟨r.node, hadded, h.trans ?_⟩
    refine World.ext ?_ (world_saveTask_open? s r hv)
    funext k
    rw [world_saveTask, ← hslug]
    by_cases hk : r.slug = k
    · subst hk
      simp [World.apply]
    · have hk' : k ≠ r.slug := fun h => hk h.symm
      simp [World.apply, hk, hk']

/-! ## Finishing, editing and reopening a task -/

/-- Finishing a task marks it, and without `--force` it had no unfinished
sub-task. -/
theorem completeTask_world (env : Env) (s : Store) (target : TaskTarget) (force : Bool)
    (caller : Option Caller) :
    (completeTask env s target force caller).2.world = s.world ∨
      ∃ slug, (force = false → undoneDescendants slug s.tasks.items = []) ∧
        (completeTask env s target force caller).2.world = s.world.apply (.mark [slug] true) := by
  have hplan : ∀ ws r, closeTaskPlan env s target force caller = .ok (ws, r) → ws = [] ∨
      ∃ t t', SavesOne s ws t t' ∧ (t'.node = { t.node with done := true } ∧
        (force = false → undoneDescendants t.slug s.tasks.items = [])) := by
    intro ws r h
    rcases closeTaskPlan_ok h with hnil | ⟨t, hundone, hsaves⟩
    · exact Or.inl hnil
    · exact Or.inr ⟨t, _, hsaves, by simp [Task.node, Task.closed], hundone⟩
  rcases perform_save (fun r s' => touchTaskSession_world env s' r.task) hplan with
    h | ⟨t, t', -, ⟨hnode, hundone⟩, h⟩
  · exact Or.inl h
  · exact Or.inr ⟨t.slug, hundone, h (fun n => { n with done := true }) hnode⟩

/-- What an accepted edit knows of the new parent of the task `t`. -/
structure Edited (env : Env) (s : Store) (target : TaskTarget) (edit : TaskEdit) (t : Task)
    (q : Option String) : Prop where
  slug : target.slugIn env s = .ok t.slug
  stored : s.task? t.slug = some t
  parent : q = none ∨ q = t.parent ∨ ∃ name p m, edit.parent = some name ∧
    resolveIn env s name = .ok p ∧ q = some p ∧ s.task? p = some m ∧ m.session = t.session ∧
    rejectCycle s t.slug p = .ok ()

theorem editParent_ok {env : Env} {s : Store} {t : Task} {edit : TaskEdit} {q : Option String}
    (h : editParent env s t edit = .ok q) :
    q = none ∨ q = t.parent ∨ ∃ name p m, edit.parent = some name ∧
      resolveIn env s name = .ok p ∧ q = some p ∧ s.task? p = some m ∧ m.session = t.session ∧
      rejectCycle s t.slug p = .ok () := by
  unfold editParent at h
  split at h
  · rename_i name hname
    obtain ⟨p, hp, h⟩ := bind_eq_ok.mp h
    split at h
    · exact absurd h (by simp)
    · simp only [bind_eq_ok] at h
      obtain ⟨⟨⟩, hcheck, ⟨⟩, hcycle, h⟩ := h
      obtain ⟨m, hm, hses, -⟩ := ensureParentInSession_ok hcheck
      exact Or.inr (Or.inr ⟨name, p, m, hname, hp, by simpa using h.symm, hm, hses, hcycle⟩)
  · have hq := (Except.ok.inj h).symm
    split at hq
    · exact Or.inl hq
    · exact Or.inr (Or.inl hq)

/-- An edit re-parents the task; the other fields it may change are not part
of the world. -/
theorem editTask_world (env : Env) (s : Store) (target : TaskTarget) (edit : TaskEdit) :
    (editTask env s target edit).2.world = s.world ∨
      ∃ t q, Edited env s target edit t q ∧
        (editTask env s target edit).2.world = s.world.apply (.reparent t.slug q) := by
  have hplan : ∀ ws r, editTaskPlan env s target edit = .ok (ws, r) → ws = [] ∨
      ∃ t t', SavesOne s ws t t' ∧ (t'.node = { t.node with parent := t'.parent } ∧
        Edited env s target edit t t'.parent) := by
    intro ws r h
    obtain ⟨t, q, title, blockedOn, notes, detail, hslug, hq, hsaves, rfl⟩ := editTaskPlan_ok h
    exact Or.inr ⟨t, _, hsaves, rfl, hslug, hsaves.stored, editParent_ok hq⟩
  rcases perform_save (fun r s' => touchTaskSession_world env s' r) hplan with
    h | ⟨t, t', -, ⟨hnode, hedited⟩, h⟩
  · exact Or.inl h
  · exact Or.inr ⟨t, t'.parent, hedited, h (fun n => { n with parent := t'.parent }) hnode⟩

/-- The lenient reopen: one done task is marked, whatever its parent is. -/
theorem reopenTask_world (env : Env) (s : Store) (target : TaskTarget) :
    (reopenTask env s target).2.world = s.world ∨
      ∃ t, target.slug env s = .ok t.slug ∧ s.task? t.slug = some t ∧ t.state = .done ∧
        (reopenTask env s target).2.world = s.world.apply (.mark [t.slug] false) := by
  have hplan : ∀ ws r, reopenTaskPlan env s target = .ok (ws, r) → ws = [] ∨
      ∃ t t', SavesOne s ws t t' ∧ (t'.node = { t.node with done := false } ∧
        target.slug env s = .ok t.slug ∧ t.state = .done) := by
    intro ws r h
    rcases reopenTaskPlan_ok h with hnil | ⟨t, hslug, hdone, hsaves⟩
    · exact Or.inl hnil
    · exact Or.inr ⟨t, _, hsaves, by simp [Task.node, Task.reopened], hslug, hdone⟩
  rcases perform_save (fun r s' => touchTaskSession_world env s' r) hplan with
    h | ⟨t, t', ht, ⟨hnode, hslug, hdone⟩, h⟩
  · exact Or.inl h
  · exact Or.inr ⟨t, hslug, ht, hdone, h (fun n => { n with done := false }) hnode⟩

/-! ## The strict reopen of several tasks -/

theorem loadTargets_stored {env : Env} {s : Store} {targets : List TaskTarget} :
    ∀ {acc tasks : List Task}, (∀ t ∈ acc, s.task? t.slug = some t) →
      loadTargets env s targets acc = .ok tasks → ∀ t ∈ tasks, s.task? t.slug = some t := by
  induction targets with
  | nil =>
      intro acc tasks hacc h
      obtain rfl : acc = tasks := by simpa [loadTargets] using h
      exact hacc
  | cons target targets ih =>
      intro acc tasks hacc h
      simp only [loadTargets, bind_eq_ok] at h
      obtain ⟨slug, -, h⟩ := h
      split at h
      · obtain ⟨t, ht, h⟩ := bind_eq_ok.mp h
        have ht := loadOrFail_eq_ok.mp ht
        refine ih (fun u hu => ?_) h
        rcases List.mem_append.mp hu with hu | hu
        · exact hacc u hu
        · obtain rfl := List.mem_singleton.mp hu
          exact (Store.slug_of_task? ht).symm ▸ ht
      · exact ih hacc h

theorem mem_reopenedFrom {env : Env} {tasks : List Task} :
    ∀ {i : Nat} {u : Task}, u ∈ reopenedFrom env i tasks →
      ∃ t ∈ tasks, ∃ now, u = t.reopened now "task reopen" := by
  induction tasks with
  | nil =>
      intro i u hu
      simp [reopenedFrom] at hu
  | cons t ts ih =>
      intro i u hu
      rcases List.mem_cons.mp hu with rfl | hu
      · exact ⟨t, List.mem_cons_self, env.now i, rfl⟩
      · obtain ⟨v, hv, now, rfl⟩ := ih hu
        exact ⟨v, List.mem_cons_of_mem _ hv, now, rfl⟩

theorem reopenedFrom_mem {env : Env} {tasks : List Task} {i : Nat} {u : Task}
    (hu : u ∈ reopenedFrom env i tasks) :
    ∃ t ∈ tasks, u.slug = t.slug ∧ u.node = { t.node with done := false } := by
  obtain ⟨t, ht, now, rfl⟩ := mem_reopenedFrom hu
  exact ⟨t, ht, rfl, by simp [Task.node, Task.reopened]⟩

theorem reopenedFrom_slugs (env : Env) (tasks : List Task) :
    ∀ i k : Nat, ((reopenedFrom env i tasks).take k).map Task.slug =
      (tasks.take k).map Task.slug := by
  induction tasks with
  | nil =>
      intro i k
      simp [reopenedFrom]
  | cons t ts ih =>
      intro i k
      cases k with
      | zero => simp
      | succ k => simp [reopenedFrom, ih, Task.reopened]

/-- The batch of a strict reopen: done tasks, and no sub-task whose done
parent stays done. -/
structure Batch (env : Env) (s : Store) (targets : List TaskTarget) (tasks : List Task) :
    Prop where
  loaded : loadTargets env s targets [] = .ok tasks
  done : ∀ t ∈ tasks, t.state = .done
  parents : refuseDoneParents s tasks tasks = .ok ()

theorem Batch.stored {env : Env} {s : Store} {targets : List TaskTarget} {tasks : List Task}
    (h : Batch env s targets tasks) : ∀ t ∈ tasks, s.task? t.slug = some t :=
  loadTargets_stored (by simp) h.loaded

/-- A strict reopen that is planned saves its batch. -/
theorem reopenTargetsPlan_ok {env : Env} {s : Store} {targets : List TaskTarget}
    {ws : List Write} {r : List Task} (h : reopenTargetsPlan env s targets = .ok (ws, r)) :
    ∃ tasks, Batch env s targets tasks ∧ saveAll (reopenedFrom env 0 tasks) = .ok ws := by
  simp only [reopenTargetsPlan, bind_eq_ok] at h
  obtain ⟨-, -, tasks, htasks, h⟩ := h
  split at h
  · exact absurd h (by simp)
  · rename_i hrefused
    simp only [bind_eq_ok] at h
    obtain ⟨⟨⟩, hparents, ws', hws, h⟩ := h
    obtain ⟨rfl, -⟩ : ws' = ws ∧ _ = r := by simpa using h
    refine ⟨tasks, ⟨htasks, fun t ht => ?_, hparents⟩, hws⟩
    have hnil : tasks.filter (fun t => t.state ≠ .done) = [] := by simpa using hrefused
    simpa using List.filter_eq_nil_iff.mp hnil t ht

/-- A strict reopen marks the tasks of its batch, or of a beginning of it when
a save fails. -/
theorem reopenTargets_world (env : Env) (s : Store) (targets : List TaskTarget) :
    (reopenTargets env s targets).2.world = s.world ∨
      ∃ tasks k, Batch env s targets tasks ∧ (env.failAt = none → tasks.length ≤ k) ∧
        (reopenTargets env s targets).2.world =
          s.world.apply (.mark ((tasks.take k).map Task.slug) false) := by
  rcases perform_world env s (reopenTargetsPlan env s targets) _
      (fun r s' => touchSessions_world env r [] s') with h | ⟨ws, r, k, hp, h, hk⟩
  · exact Or.inl h
  · obtain ⟨tasks, hbatch, hws⟩ := reopenTargetsPlan_ok hp
    have hlen : ws.length = tasks.length := by
      have hsame := (saveAll_ok hws).length_eq
      have hmap := congrArg List.length (reopenedFrom_slugs env tasks 0
        (reopenedFrom env 0 tasks).length)
      have hmap' := congrArg List.length (reopenedFrom_slugs env tasks 0 tasks.length)
      simp only [List.length_map, List.length_take] at hmap hmap'
      omega
    refine Or.inr ⟨tasks, k, hbatch, fun hf => hlen ▸ hk hf, h.trans ?_⟩
    rw [world_saveAll (φ := fun n => { n with done := false }) hws (fun u hu => ?_) k,
      reopenedFrom_slugs]
    · rfl
    · obtain ⟨t, ht, hslug, hnode⟩ := reopenedFrom_mem hu
      exact ⟨t.node, by rw [hslug]; exact node?_of_task? (hbatch.stored t ht), hnode⟩

/-! ## Deleting -/

theorem deleteTask_world (env : Env) (s : Store) (target : TaskTarget) :
    ∃ slugs, (deleteTask env s target).2.world = s.world.apply (.remove slugs) := by
  rcases perform_world env s (deleteTaskPlan env s target)
      (fun _ s' => s') (fun _ _ => rfl) with h | ⟨ws, r, k, hp, h, -⟩
  · exact ⟨[], by rw [← world_removes]; exact h⟩
  · obtain ⟨slug, rfl⟩ := deleteTaskPlan_ok hp
    refine ⟨[slug].take k, h.trans ?_⟩
    rw [← world_removes, List.map_take]
    rfl

theorem deleteTasksInSession_world (env : Env) (s : Store) (id : String) :
    ∃ slugs, (deleteTasksInSession env s id).2.world = s.world.apply (.remove slugs) := by
  rcases perform_world env s (deleteTasksInSessionPlan s id)
      (fun _ s' => s') (fun _ _ => rfl) with h | ⟨ws, r, k, hp, h, -⟩
  · exact ⟨[], by rw [← world_removes]; exact h⟩
  · obtain ⟨rfl, -⟩ : (tasksInSession s.tasks.items id).map (fun t => Write.removeTask t.slug) =
        ws ∧ _ = r := by simpa [deleteTasksInSessionPlan] using hp
    refine ⟨((tasksInSession s.tasks.items id).map Task.slug).take k, h.trans ?_⟩
    rw [← world_removes, List.map_take, List.map_map]
    rfl

end Llmenv.Tasks
