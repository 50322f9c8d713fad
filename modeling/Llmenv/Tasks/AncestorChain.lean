/-
# `Llmenv.Tasks.AncestorChain` — what does a start put in progress?

`ancestors_to_start` of `crates/llmenv-task/src/ancestors.rs` climbs from a task
as long as the task at hand is a sub-task.  On the way it collects the open
ancestors, and it refuses at a sub-task without a parent, at a parent that is not
in the store, at a slug that it has passed, at a done ancestor and at an open one
that the queue of its session holds back; `--force` skips the last two.

A refusal may have several causes on one chain, and they are met in the order of
the climb.  `ancestorsToStart_exact` says that the call succeeds exactly when the
chain has none of them, and what it returns then.
-/
import Llmenv.Lib.Loop
import Llmenv.Tasks.Effects

open Relation (ReflTransGen TransGen)

namespace Llmenv.Tasks

open Llmenv.Lib

/-! ## The loop -/

/-- The variables of the loop. -/
structure Promotion where
  promoted : List Task
  seen : List String
  current : Task

/-- One round of `ancestors_to_start`. -/
def ancestorsRound (s : Store) (child : Task) (force : Bool) (p : Promotion) :
    Round Promotion (Except String (List Task)) :=
  if p.current.relation = .child then
    match p.current.parent with
    | none =>
        .leave (.error s!"cannot start '{child.slug}': sub-task '{p.current.slug}' has no parent. Fix: repair the task file of '{p.current.slug}' so that its parent link matches its relation")
    | some parentSlug =>
        if p.seen.contains parentSlug then
          .leave (.error s!"cannot start '{child.slug}': its ancestors loop at '{parentSlug}'. Fix: clear the parent of one task in that loop with `llmenv task edit <task> --no-parent`")
        else
          match loadTask s parentSlug with
          | .error .notFound =>
              .leave (.error s!"cannot start '{child.slug}': its parent '{parentSlug}' is missing from the task store. Fix: clear the parent with `llmenv task edit {child.slug} --no-parent`")
          | .error .invalidName =>
              .leave (.error s!"cannot start '{child.slug}': ancestor '{parentSlug}' is unreadable. Repair or remove its task file, then start again")
          | .ok parent =>
              if parent.state = .done ∧ force = false then
                .leave (.error s!"the parent '{parentSlug}' of '{child.slug}' is done. Reopen it with `llmenv task start --reopen {parentSlug}`, or pass --force.")
              else if parent.state = .opened then
                match (if force then none else queueBlockIn s parent) with
                | some block => .leave (.error s!"the parent of '{child.slug}' cannot start: {block}")
                | none => .again ⟨p.promoted ++ [parent], parentSlug :: p.seen, parent⟩
              else .again ⟨p.promoted, parentSlug :: p.seen, parent⟩
  else .leave (.ok p.promoted)

/-! ## The chain -/

/-- `b` is the parent that the sub-task `a` names. -/
def ChildOf (s : Store) (a b : Task) : Prop :=
  a.relation = .child ∧ ∃ slug, a.parent = some slug ∧ s.task? slug = some b

/-- The ancestors of a task through the links of sub-tasks, from the task upwards,
up to one that is no sub-task. -/
inductive AncestorsOf (s : Store) : Task → List Task → Prop
  | top {t : Task} : t.relation ≠ .child → AncestorsOf s t []
  | up {t u : Task} {above : List Task} : ChildOf s t u → AncestorsOf s u above →
      AncestorsOf s t (u :: above)

/-- An ancestor that the start may pass. -/
def MayPass (s : Store) (force : Bool) (t : Task) : Prop :=
  force = true ∨ t.state ≠ .done ∧ (t.state = .opened → queueBlockIn s t = none)

/-- What the chain may meet, and the start refuses. -/
inductive Meets (s : Store) (child : Task) (force : Bool) : Prop
  /-- A sub-task without a parent. -/
  | noParent {t : Task} : ReflTransGen (ChildOf s) child t → t.relation = .child →
      t.parent = none → Meets s child force
  /-- A sub-task whose parent is not in the store. -/
  | missing {t : Task} {slug : String} : ReflTransGen (ChildOf s) child t → t.relation = .child →
      t.parent = some slug → s.task? slug = none → Meets s child force
  /-- A sub-task that names a task the chain has passed, or itself. -/
  | loop {t u : Task} : ReflTransGen (ChildOf s) child t → ReflTransGen (ChildOf s) t u →
      u.relation = .child → u.parent = some t.slug → Meets s child force
  | done {t : Task} : TransGen (ChildOf s) child t → t.state = .done → force = false →
      Meets s child force
  /-- An open ancestor that the queue of its session holds back. -/
  | queued {t : Task} {block : String} : TransGen (ChildOf s) child t → t.state = .opened →
      queueBlockIn s t = some block → force = false → Meets s child force

section

variable {s : Store} {child : Task} {force : Bool}

/-- Why the start is refused at the task `t`. -/
inductive Trouble (s : Store) (force : Bool) (seen : List String) (t : Task) : Prop
  | noParent : t.relation = .child → t.parent = none → Trouble s force seen t
  | seen {slug : String} : t.relation = .child → t.parent = some slug → slug ∈ seen →
      Trouble s force seen t
  | missing {slug : String} : t.relation = .child → t.parent = some slug →
      s.task? slug = none → Trouble s force seen t
  | refused {u : Task} : ChildOf s t u → ¬ MayPass s force u → Trouble s force seen t

/-- What a round can do. -/
inductive RoundCases (s : Store) (child : Task) (force : Bool) (p : Promotion) : Prop
  | top : p.current.relation ≠ .child →
      ancestorsRound s child force p = .leave (.ok p.promoted) → RoundCases s child force p
  | stop : Trouble s force p.seen p.current →
      (∃ e, ancestorsRound s child force p = .leave (.error e)) → RoundCases s child force p
  | up {u : Task} : ChildOf s p.current u → u.slug ∉ p.seen → MayPass s force u →
      ancestorsRound s child force p =
        .again ⟨p.promoted ++ [u].filter (fun t => t.state == .opened), u.slug :: p.seen, u⟩ →
      RoundCases s child force p

/-- The round at a parent `u` that is in the store and not passed yet. -/
def parentRound (s : Store) (child : Task) (force : Bool) (p : Promotion) (u : Task) :
    Round Promotion (Except String (List Task)) :=
  if u.state = .done ∧ force = false then
    .leave (.error s!"the parent '{u.slug}' of '{child.slug}' is done. Reopen it with `llmenv task start --reopen {u.slug}`, or pass --force.")
  else if u.state = .opened then
    match (if force then none else queueBlockIn s u) with
    | some block => .leave (.error s!"the parent of '{child.slug}' cannot start: {block}")
    | none => .again ⟨p.promoted ++ [u], u.slug :: p.seen, u⟩
  else .again ⟨p.promoted, u.slug :: p.seen, u⟩

theorem mayPass_iff {u : Task} : MayPass s force u ↔
    ¬ (u.state = .done ∧ force = false) ∧
      (u.state = .opened → (if force then none else queueBlockIn s u) = none) := by
  cases force with
  | true => exact ⟨fun _ => ⟨fun h => absurd h.2 (by decide), fun _ => rfl⟩, fun _ => Or.inl rfl⟩
  | false =>
      constructor
      · rintro (hforce | ⟨hnot, hnone⟩)
        · exact absurd hforce (by decide)
        · exact ⟨fun h => hnot h.1, hnone⟩
      · rintro ⟨hnot, hnone⟩
        exact Or.inr ⟨fun h => hnot ⟨h, rfl⟩, hnone⟩

/-- The parent is refused, or passed and promoted when it is open. -/
theorem parentRound_cases (p : Promotion) (u : Task) :
    ¬ MayPass s force u ∧ (∃ e, parentRound s child force p u = .leave (.error e)) ∨
      MayPass s force u ∧ parentRound s child force p u =
        .again ⟨p.promoted ++ [u].filter (fun t => t.state == .opened), u.slug :: p.seen, u⟩ := by
  rw [mayPass_iff, parentRound]
  by_cases hdone : u.state = .done ∧ force = false
  · rw [if_pos hdone]
    exact Or.inl ⟨fun h => h.1 hdone, _, rfl⟩
  · rw [if_neg hdone]
    by_cases hopen : u.state = .opened
    · rw [if_pos hopen]
      cases hblock : (if force then none else queueBlockIn s u) with
      | some block => exact Or.inl ⟨fun h => absurd (h.2 hopen) (by simp), _, rfl⟩
      | none =>
          refine Or.inr ⟨⟨hdone, fun _ => rfl⟩, ?_⟩
          rw [List.filter_singleton, hopen]
          rfl
    · rw [if_neg hopen]
      refine Or.inr ⟨⟨hdone, fun h => absurd h hopen⟩, ?_⟩
      rw [List.filter_singleton, beq_eq_false_iff_ne.mpr hopen]
      simp

variable (s child force) in
theorem ancestorsRound_cases (p : Promotion) : RoundCases s child force p := by
  by_cases hrel : p.current.relation = .child
  · cases hparent : p.current.parent with
    | none =>
        refine .stop (.noParent hrel hparent) ?_
        simp only [ancestorsRound, if_pos hrel, hparent]
        exact ⟨_, rfl⟩
    | some slug =>
        by_cases hseen : slug ∈ p.seen
        · refine .stop (.seen hrel hparent hseen) ?_
          simp only [ancestorsRound, if_pos hrel, hparent, List.contains_iff_mem.mpr hseen, if_true]
          exact ⟨_, rfl⟩
        · have hseen' : ¬ p.seen.contains slug = true :=
            fun h => hseen (List.contains_iff_mem.mp h)
          cases hload : loadTask s slug with
          | error e =>
              have hnone : s.task? slug = none := by
                cases htask : s.task? slug with
                | none => rfl
                | some u => exact absurd (hload.symm.trans (loadTask_eq_ok.mpr htask)) (by simp)
              refine .stop (.missing hrel hparent hnone) ?_
              simp only [ancestorsRound, if_pos hrel, hparent, if_neg hseen', hload]
              cases e with
              | notFound => exact ⟨_, rfl⟩
              | invalidName => exact ⟨_, rfl⟩
          | ok u =>
              have hstored := loadTask_eq_ok.mp hload
              obtain rfl := Store.slug_of_task? hstored
              have hchild : ChildOf s p.current u := ⟨hrel, u.slug, hparent, hstored⟩
              have hround : ancestorsRound s child force p = parentRound s child force p u := by
                simp only [ancestorsRound, if_pos hrel, hparent, if_neg hseen', hload, parentRound]
              rcases parentRound_cases p u with ⟨hno, hleave⟩ | ⟨hpass, hagain⟩
              · exact .stop (.refused hchild hno) (hround ▸ hleave)
              · exact .up hchild hseen hpass (hround.trans hagain)
  · refine .top hrel ?_
    simp only [ancestorsRound, if_neg hrel]

/-- One unit of fuel is one round. -/
theorem ancestorsFrom_succ (n : Nat) (p : Promotion) :
    (ancestorsFrom s child force (n + 1) p.seen p.current).map (p.promoted ++ ·) =
      (ancestorsRound s child force p).result
        (fun q => (ancestorsFrom s child force n q.seen q.current).map (q.promoted ++ ·)) := by
  simp only [ancestorsFrom, ancestorsRound]
  by_cases hrel : p.current.relation = .child
  · rw [if_pos hrel, if_pos hrel]
    cases p.current.parent with
    | none => rfl
    | some slug =>
        by_cases hseen : p.seen.contains slug = true
        · simp only [if_pos hseen]
          rfl
        · simp only [if_neg hseen]
          cases loadTask s slug with
          | error e => cases e <;> rfl
          | ok u =>
              by_cases hdone : u.state = .done ∧ force = false
              · simp only [if_pos hdone]
                rfl
              · simp only [if_neg hdone]
                by_cases hopen : u.state = .opened
                · simp only [if_pos hopen]
                  cases (if force then none else queueBlockIn s u) with
                  | some block => rfl
                  | none =>
                      simp only [Round.result]
                      cases ancestorsFrom s child force n (slug :: p.seen) u with
                      | error e => rfl
                      | ok above =>
                          simp only [bind, Except.bind, Except.map, List.append_assoc,
                            List.cons_append, List.nil_append]
                · simp only [if_neg hopen, Round.result]
  · rw [if_neg hrel, if_neg hrel]
    simp only [Except.map, Round.result, List.append_nil]

/-- The loop leaves, and with what `ancestorsToStart` gives. -/
theorem ancestorsToStart_returns (s : Store) (child : Task) (force : Bool) :
    Returns (ancestorsRound s child force) ⟨[], [child.slug], child⟩
      (ancestorsToStart s child force) := by
  have hreturns := returns_of_fuel
    (fun n p => (ancestorsFrom s child force n p.seen p.current).map (p.promoted ++ ·))
    Promotion.seen (child.slug :: s.tasks.items.map Task.slug)
    ancestorsFrom_succ ?_ (s.tasks.items.length + 1) ⟨[], [child.slug], child⟩
    (List.nodup_singleton _) (by simp) (by simp)
  · have hmap : (ancestorsToStart s child force).map ([] ++ ·) = ancestorsToStart s child force := by
      cases ancestorsToStart s child force <;> rfl
    rw [← hmap]
    exact hreturns
  · intro p q hpq
    cases ancestorsRound_cases s child force p with
    | top _ hr => exact absurd (hr.symm.trans hpq) (by simp)
    | stop _ hr =>
        obtain ⟨e, hr⟩ := hr
        exact absurd (hr.symm.trans hpq) (by simp)
    | @up u hchild hnew _ hr =>
        obtain rfl := Round.again.inj (hr.symm.trans hpq)
        obtain ⟨-, slug, -, hstored⟩ := hchild
        exact ⟨u.slug, List.mem_cons_of_mem _ (List.mem_map.mpr ⟨u, Keyed.mem_of_find? hstored, rfl⟩),
          hnew, rfl⟩

/-! ## Success -/

/-- A climb that leaves with a list has passed a chain of ancestors, none of them
twice, and the list has the open ones. -/
theorem ancestorsOf_of_returns {p : Promotion} {r : Except String (List Task)}
    (h : Returns (ancestorsRound s child force) p r) : ∀ {l : List Task}, r = .ok l →
      ∃ chain, AncestorsOf s p.current chain ∧
        l = p.promoted ++ chain.filter (fun t => t.state == .opened) ∧
        (∀ t ∈ chain, MayPass s force t ∧ t.slug ∉ p.seen) ∧ (chain.map Task.slug).Nodup := by
  induction h with
  | @leave p r hround =>
      intro l hl
      subst hl
      cases ancestorsRound_cases s child force p with
      | top hrel hr =>
          obtain rfl := Except.ok.inj (Round.leave.inj (hr.symm.trans hround))
          exact ⟨[], .top hrel, (List.append_nil _).symm,
            fun t ht => absurd ht List.not_mem_nil, List.nodup_nil⟩
      | stop _ hr =>
          obtain ⟨e, hr⟩ := hr
          exact absurd (Round.leave.inj (hr.symm.trans hround)) (by simp)
      | up _ _ _ hr => exact absurd (hr.symm.trans hround) (by simp)
  | @again p q r hround _ ih =>
      intro l hl
      cases ancestorsRound_cases s child force p with
      | top _ hr => exact absurd (hr.symm.trans hround) (by simp)
      | stop _ hr =>
          obtain ⟨e, hr⟩ := hr
          exact absurd (hr.symm.trans hround) (by simp)
      | @up u hchild hnew hpass hr =>
          obtain rfl := Round.again.inj (hr.symm.trans hround)
          obtain ⟨chain, hchain, rfl, hmay, hnodup⟩ := ih hl
          refine ⟨u :: chain, .up hchild hchain, ?_, ?_, ?_⟩
          · rw [List.append_assoc, ← List.filter_append]
            rfl
          · intro t ht
            rcases List.mem_cons.mp ht with rfl | ht
            · exact ⟨hpass, hnew⟩
            · exact ⟨(hmay t ht).1, fun hmem => (hmay t ht).2 (List.mem_cons_of_mem _ hmem)⟩
          · refine List.nodup_cons.mpr ⟨fun hmem => ?_, hnodup⟩
            obtain ⟨t, ht, hslug⟩ := List.mem_map.mp hmem
            exact (hmay t ht).2 (hslug ▸ List.mem_cons_self)

/-! ## Failure -/

/-- What the climb knows at `p`: it came from `child`, and each slug it has seen is
the one of a task it passed. -/
structure OnTheWay (s : Store) (child : Task) (p : Promotion) : Prop where
  reached : ReflTransGen (ChildOf s) child p.current
  passed : ∀ slug ∈ p.seen, ∃ t, ReflTransGen (ChildOf s) child t ∧
    ReflTransGen (ChildOf s) t p.current ∧ t.slug = slug

theorem OnTheWay.meets {p : Promotion} (h : OnTheWay s child p)
    (ht : Trouble s force p.seen p.current) : Meets s child force := by
  cases ht with
  | noParent hrel hparent => exact .noParent h.reached hrel hparent
  | seen hrel hparent hseen =>
      obtain ⟨t, hreach, hto, rfl⟩ := h.passed _ hseen
      exact .loop hreach hto hrel hparent
  | missing hrel hparent hnone => exact .missing h.reached hrel hparent hnone
  | @refused u hchild hno =>
      have hu : TransGen (ChildOf s) child u := TransGen.tail' h.reached hchild
      have hforce : force = false := by
        cases force with
        | true => exact absurd (Or.inl rfl) hno
        | false => rfl
      by_cases hdone : u.state = .done
      · exact .done hu hdone hforce
      · by_cases hopen : u.state = .opened
        · cases hblock : queueBlockIn s u with
          | none => exact absurd (Or.inr ⟨hdone, fun _ => hblock⟩) hno
          | some block => exact .queued hu hopen hblock hforce
        · exact absurd (Or.inr ⟨hdone, fun h => absurd h hopen⟩) hno

theorem meets_of_returns {p : Promotion} {r : Except String (List Task)}
    (h : Returns (ancestorsRound s child force) p r) : ∀ {e : String}, r = .error e →
      OnTheWay s child p → Meets s child force := by
  induction h with
  | @leave p r hround =>
      intro e he hway
      subst he
      cases ancestorsRound_cases s child force p with
      | top _ hr => exact absurd (Round.leave.inj (hr.symm.trans hround)) (by simp)
      | stop htrouble _ => exact hway.meets htrouble
      | up _ _ _ hr => exact absurd (hr.symm.trans hround) (by simp)
  | @again p q r hround _ ih =>
      intro e he hway
      cases ancestorsRound_cases s child force p with
      | top _ hr => exact absurd (hr.symm.trans hround) (by simp)
      | stop htrouble _ => exact hway.meets htrouble
      | @up u hchild _ _ hr =>
          obtain rfl := Round.again.inj (hr.symm.trans hround)
          refine ih he ⟨hway.reached.tail hchild, ?_⟩
          intro slug hslug
          rcases List.mem_cons.mp hslug with rfl | hslug
          · exact ⟨u, hway.reached.tail hchild, .refl, rfl⟩
          · obtain ⟨t, hreach, hto, ht⟩ := hway.passed slug hslug
            exact ⟨t, hreach, hto.tail hchild, ht⟩

/-! ## One chain -/

theorem ChildOf.unique {a b c : Task} (hb : ChildOf s a b) (hc : ChildOf s a c) : b = c := by
  obtain ⟨-, slug, hslug, hb⟩ := hb
  obtain ⟨-, slug', hslug', hc⟩ := hc
  obtain rfl := Option.some.inj (hslug.symm.trans hslug')
  exact Option.some.inj (hb.symm.trans hc)

/-- What is reached from a task is the task or one of its ancestors, and the
ancestors of that are the rest of the chain. -/
theorem AncestorsOf.suffix {t u : Task} {chain : List Task} (h : AncestorsOf s t chain)
    (hu : ReflTransGen (ChildOf s) t u) :
    ∃ rest, AncestorsOf s u rest ∧ (u :: rest) <:+ (t :: chain) := by
  induction hu with
  | refl => exact ⟨chain, h, List.suffix_refl _⟩
  | @tail u v _ huv ih =>
      obtain ⟨rest, hrest, hsuffix⟩ := ih
      cases hrest with
      | top hrel => exact absurd huv.1 hrel
      | @up _ w above huw habove =>
          obtain rfl := huv.unique huw
          exact ⟨above, habove, (List.suffix_cons u (v :: above)).trans hsuffix⟩

/-- A chain that a start may pass meets nothing that it refuses. -/
theorem not_meets_of_ancestorsOf {chain : List Task} (h : AncestorsOf s child chain)
    (hpass : ∀ t ∈ chain, MayPass s force t) (hnodup : ((child :: chain).map Task.slug).Nodup) :
    ¬ Meets s child force := by
  have hancestor : ∀ {t : Task}, TransGen (ChildOf s) child t → t ∈ chain := by
    intro t ht
    obtain ⟨u, hu, hut⟩ := TransGen.head'_iff.mp ht
    cases h with
    | top hrel => exact absurd hu.1 hrel
    | @up _ v above hv habove =>
        obtain rfl := hu.unique hv
        obtain ⟨rest, -, hsuffix⟩ := habove.suffix hut
        exact hsuffix.mem List.mem_cons_self
  intro hmeets
  cases hmeets with
  | noParent hreach hrel hparent =>
      obtain ⟨rest, hrest, -⟩ := h.suffix hreach
      cases hrest with
      | top hnot => exact hnot hrel
      | up hchild _ =>
          obtain ⟨-, slug, hslug, -⟩ := hchild
          exact absurd (hparent.symm.trans hslug) (by simp)
  | missing hreach hrel hparent hnone =>
      obtain ⟨rest, hrest, -⟩ := h.suffix hreach
      cases hrest with
      | top hnot => exact hnot hrel
      | up hchild _ =>
          obtain ⟨-, slug, hslug, hstored⟩ := hchild
          obtain rfl := Option.some.inj (hparent.symm.trans hslug)
          exact absurd (hnone.symm.trans hstored) (by simp)
  | @loop t u hreach hto hrel hparent =>
      obtain ⟨rest, hrest, hsuffix⟩ := h.suffix hreach
      obtain ⟨above, habove, hsuffix'⟩ := hrest.suffix hto
      cases habove with
      | top hnot => exact hnot hrel
      | @up _ v above hchild _ =>
          obtain ⟨-, slug, hslug, hstored⟩ := hchild
          obtain rfl := Option.some.inj (hparent.symm.trans hslug)
          have hv : v ∈ rest := by
            have hlong : (v :: above) <:+ rest := by
              rcases List.suffix_cons_iff.mp hsuffix' with heq | hsub
              · exact (List.cons.inj heq).2 ▸ List.suffix_refl _
              · exact (List.suffix_cons u (v :: above)).trans hsub
            exact hlong.mem List.mem_cons_self
          have hsub := (hsuffix.sublist.map Task.slug).nodup hnodup
          rw [List.map_cons] at hsub
          exact (List.nodup_cons.mp hsub).1
            (List.mem_map.mpr ⟨v, hv, Store.slug_of_task? hstored⟩)
  | done ht hdone hforce =>
      rcases hpass _ (hancestor ht) with h | ⟨hnot, -⟩
      · exact absurd (h.symm.trans hforce) (by decide)
      · exact hnot hdone
  | queued ht hopen hblock hforce =>
      rcases hpass _ (hancestor ht) with h | ⟨-, hnone⟩
      · exact absurd (h.symm.trans hforce) (by decide)
      · exact absurd ((hnone hopen).symm.trans hblock) (by simp)

end

/-- **`ancestors_to_start` returns on every store; when it succeeds it gives the
open tasks among the ancestors, from the task upwards; and it fails exactly when
the chain meets something that a start refuses.** -/
theorem ancestorsToStart_exact (s : Store) (child : Task) (force : Bool) :
    Returns (ancestorsRound s child force) ⟨[], [child.slug], child⟩
        (ancestorsToStart s child force) ∧
      (∀ l, ancestorsToStart s child force = .ok l →
        ∃ chain, AncestorsOf s child chain ∧ l = chain.filter (fun t => t.state == .opened)) ∧
      ((∃ e, ancestorsToStart s child force = .error e) ↔ Meets s child force) := by
  have hreturns := ancestorsToStart_returns s child force
  refine ⟨hreturns, ?_, ?_⟩
  · intro l hl
    obtain ⟨chain, hchain, rfl, -, -⟩ := ancestorsOf_of_returns hreturns hl
    exact ⟨chain, hchain, rfl⟩
  · constructor
    · rintro ⟨e, he⟩
      refine meets_of_returns hreturns he ⟨.refl, ?_⟩
      intro slug hslug
      exact ⟨child, .refl, .refl, (List.mem_singleton.mp hslug).symm⟩
    · intro hmeets
      cases hr : ancestorsToStart s child force with
      | error e => exact ⟨e, rfl⟩
      | ok l =>
          obtain ⟨chain, hchain, -, hpass, hnodup⟩ := ancestorsOf_of_returns hreturns hr
          refine absurd hmeets (not_meets_of_ancestorsOf hchain (fun t ht => (hpass t ht).1) ?_)
          rw [List.map_cons]
          refine List.nodup_cons.mpr ⟨fun hmem => ?_, hnodup⟩
          obtain ⟨t, ht, hslug⟩ := List.mem_map.mp hmem
          exact (hpass t ht).2 (List.mem_singleton.mpr hslug)

end Llmenv.Tasks
