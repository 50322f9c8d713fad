/-
# `Llmenv.Tasks.Preorder` — the tree listing is a preorder

A row of the listing that is not at the margin was listed by the walk of its
parent: the parent's row stands before it, one level up, all rows between the
two are deeper than the parent's, and the siblings that come first in the queue
are listed already.  This holds of every walk, also of one that meets a loop
(`Nested`).

A task whose parent chain ends is reached from the root at its end, so only a
root, or a task above or on a loop, is at the margin.  A root is not met by an
earlier walk, so the roots stand in queue order.
-/
import Llmenv.Lib.Links
import Llmenv.Tasks.Listing

namespace Llmenv.Tasks

open Llmenv.Lib

section Walk

variable {kids : String → List Task} {group : List Task}

/-- The slugs of some rows. -/
def rowSlugs (rows : List DisplayRow) : List String := rows.map fun r => r.task.slug

theorem Walked.mem_marked {acc : List String × List DisplayRow} (h : Walked group [] acc)
    {slug : String} : slug ∈ acc.1 ↔ slug ∈ rowSlugs acc.2 := by
  obtain ⟨new, hrows, hmarked, -, -⟩ := h
  rw [hrows, hmarked, List.mem_reverse]
  rfl

theorem Walked.task_mem {acc : List String × List DisplayRow} (h : Walked group [] acc)
    {r : DisplayRow} (hr : r ∈ acc.2) : r.task ∈ group := by
  obtain ⟨new, hrows, -, -, hmem⟩ := h
  rw [hrows, List.nil_append] at hr
  exact hmem r hr

variable (kids) in
/-- A walk adds rows, and none of them is above its level. -/
theorem visitFrom_extends (fuel : Nat) :
    ∀ (depth : Nat) (task : Task) (acc : List String × List DisplayRow),
      ∃ more, (visitFrom kids fuel depth task acc).2 = acc.2 ++ more ∧
        ∀ r ∈ more, depth ≤ r.depth := by
  induction fuel with
  | zero => exact fun _ _ acc => ⟨[], (List.append_nil _).symm, by simp⟩
  | succ fuel ih =>
      intro depth task acc
      rw [visitFrom_succ]
      split
      · exact ⟨[], (List.append_nil _).symm, by simp⟩
      · refine List.foldlRecOn (motive := fun acc' : List String × List DisplayRow =>
          ∃ more, acc'.2 = acc.2 ++ more ∧ ∀ r ∈ more, depth ≤ r.depth) _ _
          ⟨[⟨depth, task⟩], rfl, by simp⟩ ?_
        rintro acc' ⟨more, hrows, hdepth⟩ child -
        obtain ⟨more', hrows', hdepth'⟩ := ih (depth + 1) child acc'
        refine ⟨more ++ more', by rw [hrows', hrows, List.append_assoc], ?_⟩
        intro r hr
        rcases List.mem_append.mp hr with hr | hr
        · exact hdepth r hr
        · exact Nat.le_of_succ_le (hdepth' r hr)

/-! ## Every row below another one -/

/-- The row of `p` at level `d` is there, and all rows behind it are deeper. -/
def Opened (rows : List DisplayRow) (d : Nat) (p : Task) : Prop :=
  ∃ pre mid, rows = pre ++ ⟨d, p⟩ :: mid ∧ ∀ r ∈ mid, d < r.depth

/-- Among the rows are those of the children of `p` that come before `child`. -/
def OlderListed (kids : String → List Task) (rows : List DisplayRow) (p child : Task) : Prop :=
  ∀ older younger, kids p.slug = older ++ child :: younger → ∀ t ∈ older, t.slug ∈ rowSlugs rows

/-- Where a row may be added: at the margin, or below the row of its parent. -/
def Placed (kids : String → List Task) (starts : Task → Prop) (rows : List DisplayRow) :
    Nat → Task → Prop
  | 0, task => starts task
  | d + 1, task => ∃ p, Opened rows d p ∧ task ∈ kids p.slug ∧ OlderListed kids rows p task

/-- Each row was placed behind the rows before it. -/
def Nested (kids : String → List Task) (starts : Task → Prop) (rows : List DisplayRow) : Prop :=
  ∀ pre r post, rows = pre ++ r :: post → Placed kids starts pre r.depth r.task

variable {starts : Task → Prop}

theorem nested_nil : Nested kids starts [] := fun _ _ _ h => absurd h (by simp)

theorem Nested.concat {rows : List DisplayRow} (h : Nested kids starts rows) {depth : Nat}
    {task : Task} (hplaced : Placed kids starts rows depth task) :
    Nested kids starts (rows ++ [⟨depth, task⟩]) := by
  intro pre r post heq
  rcases List.eq_nil_or_concat' post with rfl | ⟨post, last, rfl⟩
  · obtain ⟨rfl, hlast⟩ := List.append_inj' heq rfl
    obtain rfl := (List.cons.inj hlast).1
    exact hplaced
  · have heq' : rows ++ [⟨depth, task⟩] = pre ++ r :: post ++ [last] := by simpa using heq
    exact h pre r post (List.append_inj' heq' rfl).1

theorem Opened.append {rows more : List DisplayRow} {d : Nat} {p : Task} (h : Opened rows d p)
    (hmore : ∀ r ∈ more, d < r.depth) : Opened (rows ++ more) d p := by
  obtain ⟨pre, mid, rfl, hmid⟩ := h
  refine ⟨pre, mid ++ more, by simp, ?_⟩
  intro r hr
  rcases List.mem_append.mp hr with hr | hr
  · exact hmid r hr
  · exact hmore r hr

/-- The walks of some tasks at one level, one after the other. -/
def visitEach (kids : String → List Task) (fuel depth : Nat) (tasks : List Task)
    (acc : List String × List DisplayRow) : List String × List DisplayRow :=
  tasks.foldl (fun acc t => visitFrom kids fuel depth t acc) acc

theorem visitFrom_new {fuel depth : Nat} {task : Task} {acc : List String × List DisplayRow}
    (h : task.slug ∉ acc.1) :
    visitFrom kids (fuel + 1) depth task acc =
      visitEach kids fuel (depth + 1) (kids task.slug)
        (task.slug :: acc.1, acc.2 ++ [⟨depth, task⟩]) := by
  rw [visitFrom_succ, if_neg (by simpa using h)]
  rfl

theorem visitFrom_old {fuel depth : Nat} {task : Task} {acc : List String × List DisplayRow}
    (h : task.slug ∈ acc.1) : visitFrom kids (fuel + 1) depth task acc = acc := by
  rw [visitFrom_succ, if_pos (by simpa using h)]

variable (kids) in
theorem visitEach_extends (fuel depth : Nat) (tasks : List Task)
    (acc : List String × List DisplayRow) :
    ∃ more, (visitEach kids fuel depth tasks acc).2 = acc.2 ++ more := by
  refine List.foldlRecOn (motive := fun acc' : List String × List DisplayRow =>
    ∃ more, acc'.2 = acc.2 ++ more) _ _ ⟨[], (List.append_nil _).symm⟩ ?_
  rintro acc' ⟨more, hrows⟩ task -
  obtain ⟨more', hrows', -⟩ := visitFrom_extends kids fuel depth task acc'
  exact ⟨more ++ more', by rw [hrows', hrows, List.append_assoc]⟩

/-- There is fuel for all that is not marked. -/
structure Fueled (group : List Task) (fuel : Nat) (acc : List String × List DisplayRow) : Prop where
  walked : Walked group [] acc
  enough : group.length < fuel + acc.1.length

theorem Fueled.pos {fuel : Nat} {acc : List String × List DisplayRow} (h : Fueled group fuel acc) :
    0 < fuel := by
  have hle := h.walked.length_le
  have hlt := h.enough
  omega

theorem Fueled.marks {fuel : Nat} {acc : List String × List DisplayRow} (h : Fueled group fuel acc)
    (depth : Nat) (task : Task) : task.slug ∈ (visitFrom kids fuel depth task acc).1 := by
  obtain ⟨fuel, rfl⟩ := Nat.exists_eq_add_one.mpr h.pos
  exact visitFrom_marks fuel depth task acc

theorem Fueled.mark {fuel : Nat} {task : Task} {acc : List String × List DisplayRow}
    (h : Fueled group (fuel + 1) acc) (htask : task ∈ group) (hnew : task.slug ∉ acc.1)
    (depth : Nat) :
    Fueled group fuel (task.slug :: acc.1, acc.2 ++ [⟨depth, task⟩]) where
  walked := h.walked.mark htask (by simpa using hnew) depth
  enough := by
    have := h.enough
    rw [List.length_cons]
    omega

section Children

variable (hkids : ∀ slug, ∀ t ∈ kids slug, t ∈ group) (hnodup : ∀ slug, (kids slug).Nodup)

include hkids in
theorem Fueled.next {fuel : Nat} {task : Task} {acc : List String × List DisplayRow}
    (h : Fueled group fuel acc) (depth : Nat) (htask : task ∈ group) :
    Fueled group fuel (visitFrom kids fuel depth task acc) where
  walked := h.walked.visitFrom hkids fuel htask
  enough := by
    obtain ⟨-, -, -, hnodup, -⟩ := h.walked
    have hmarked : acc.1 ⊆ (visitFrom kids fuel depth task acc).1 :=
      fun _ hs => visitFrom_marked fuel hs
    exact lt_of_lt_of_le h.enough
      (Nat.add_le_add_left (List.subperm_of_subset hnodup hmarked).length_le fuel)

include hkids hnodup in
/-- The walks of the children of `p` that are left, those before them being marked. -/
theorem nested_visitEach {fuel depth : Nat} {p : Task}
    (hvisit : ∀ {task : Task} {acc : List String × List DisplayRow}, Fueled group fuel acc →
      Nested kids starts acc.2 → task ∈ group → Placed kids starts acc.2 (depth + 1) task →
      Nested kids starts (visitFrom kids fuel (depth + 1) task acc).2) (rest : List Task) :
    ∀ (older : List Task) (acc : List String × List DisplayRow), kids p.slug = older ++ rest →
      Fueled group fuel acc → Nested kids starts acc.2 → Opened acc.2 depth p →
      (∀ t ∈ older, t.slug ∈ acc.1) →
      Nested kids starts (visitEach kids fuel (depth + 1) rest acc).2 := by
  induction rest with
  | nil => exact fun _ _ _ _ h _ _ => h
  | cons child rest ih =>
      intro older acc hsplit hfuel hnested hopened holder
      have hchild : child ∈ kids p.slug := by
        rw [hsplit]
        exact List.mem_append_right _ List.mem_cons_self
      have hlisted : OlderListed kids acc.2 p child := by
        intro older' younger hsplit' t ht
        have hnd := hnodup p.slug
        rw [hsplit] at hnd hsplit'
        obtain ⟨hnot, -⟩ := List.nodup_cons.mp (List.nodup_middle.mp hnd)
        have hnotOlder : child ∉ older := fun h => hnot (List.mem_append_left _ h)
        have hnotRest : child ∉ rest := fun h => hnot (List.mem_append_right _ h)
        obtain ⟨rfl, -⟩ := (List.append_cons_inj_of_notMem hnotOlder hnotRest).mp hsplit'
        exact hfuel.walked.mem_marked.mp (holder t ht)
      have hgroup := hkids _ child hchild
      obtain ⟨more, hmore, hdepth⟩ := visitFrom_extends kids fuel (depth + 1) child acc
      refine ih (older ++ [child]) _ (by simpa using hsplit) (hfuel.next hkids _ hgroup)
        (hvisit hfuel hnested hgroup ⟨p, hopened, hchild, hlisted⟩) ?_ ?_
      · rw [hmore]
        exact hopened.append hdepth
      · intro t ht
        rcases List.mem_append.mp ht with ht | ht
        · exact visitFrom_marked fuel (holder t ht)
        · obtain rfl := List.mem_singleton.mp ht
          exact hfuel.marks (depth + 1) t

include hkids hnodup in
theorem nested_visitFrom (fuel : Nat) :
    ∀ {depth : Nat} {task : Task} {acc : List String × List DisplayRow}, Fueled group fuel acc →
      Nested kids starts acc.2 → task ∈ group → Placed kids starts acc.2 depth task →
      Nested kids starts (visitFrom kids fuel depth task acc).2 := by
  induction fuel with
  | zero => exact fun _ h _ _ => h
  | succ fuel ih =>
      intro depth task acc hfuel hnested htask hplaced
      by_cases hold : task.slug ∈ acc.1
      · rw [visitFrom_old hold]
        exact hnested
      · rw [visitFrom_new hold]
        exact nested_visitEach hkids hnodup ih (kids task.slug) [] _ rfl
          (hfuel.mark htask hold depth) (hnested.concat hplaced) ⟨acc.2, [], rfl, by simp⟩
          (fun _ ht => absurd ht List.not_mem_nil)

include hkids hnodup in
/-- A round of walks at the margin. -/
theorem nested_visitAll {fuel : Nat} {tasks : List Task} (hgroup : ∀ t ∈ tasks, t ∈ group)
    (hstarts : ∀ t ∈ tasks, starts t) {acc : List String × List DisplayRow}
    (hfuel : Fueled group fuel acc) (hnested : Nested kids starts acc.2) :
    Fueled group fuel (visitAll kids fuel tasks acc) ∧
      Nested kids starts (visitAll kids fuel tasks acc).2 :=
  List.foldlRecOn (motive := fun acc => Fueled group fuel acc ∧ Nested kids starts acc.2) _ _
    ⟨hfuel, hnested⟩ fun _ hacc t ht =>
      ⟨hacc.1.next hkids 0 (hgroup t ht),
        nested_visitFrom hkids hnodup fuel hacc.1 hacc.2 (hgroup t ht) (hstarts t ht)⟩

/-! ## What a round of walks marks -/

/-- The marks of the first state are kept, and what was marked since has its children marked. -/
structure ClosedSince (kids : String → List Task) (acc acc' : List String × List DisplayRow) :
    Prop where
  kept : acc.1 ⊆ acc'.1
  closed : ∀ slug ∈ acc'.1, slug ∈ acc.1 ∨ ∀ k ∈ kids slug, k.slug ∈ acc'.1

theorem ClosedSince.refl (acc : List String × List DisplayRow) : ClosedSince kids acc acc :=
  ⟨List.Subset.refl _, fun _ h => .inl h⟩

theorem ClosedSince.trans {acc acc' acc'' : List String × List DisplayRow}
    (h : ClosedSince kids acc acc') (h' : ClosedSince kids acc' acc'') :
    ClosedSince kids acc acc'' where
  kept := List.Subset.trans h.kept h'.kept
  closed := by
    intro slug hslug
    rcases h'.closed slug hslug with hmid | hclosed
    · exact (h.closed slug hmid).imp_right fun hclosed k hk => h'.kept (hclosed k hk)
    · exact .inr hclosed

include hkids in
theorem closedSince_visitEach {fuel : Nat} (depth : Nat)
    (hvisit : ∀ {task : Task} {acc : List String × List DisplayRow}, Fueled group fuel acc →
      task ∈ group → ClosedSince kids acc (visitFrom kids fuel depth task acc))
    {tasks : List Task} (hgroup : ∀ t ∈ tasks, t ∈ group) :
    ∀ {acc : List String × List DisplayRow}, Fueled group fuel acc →
      ClosedSince kids acc (visitEach kids fuel depth tasks acc) ∧
        ∀ t ∈ tasks, t.slug ∈ (visitEach kids fuel depth tasks acc).1 := by
  induction tasks with
  | nil => exact fun _ => ⟨.refl _, fun _ h => absurd h List.not_mem_nil⟩
  | cons task tasks ih =>
      intro acc hfuel
      obtain ⟨htask, htasks⟩ := List.forall_mem_cons.mp hgroup
      obtain ⟨hclosed, hmarked⟩ := ih htasks (hfuel.next hkids depth htask)
      exact ⟨(hvisit hfuel htask).trans hclosed,
        List.forall_mem_cons.mpr ⟨hclosed.kept (hfuel.marks depth task), hmarked⟩⟩

include hkids in
theorem closedSince_visitFrom (fuel : Nat) :
    ∀ {depth : Nat} {task : Task} {acc : List String × List DisplayRow}, Fueled group fuel acc →
      task ∈ group → ClosedSince kids acc (visitFrom kids fuel depth task acc) := by
  induction fuel with
  | zero => exact fun _ _ => .refl _
  | succ fuel ih =>
      intro depth task acc hfuel htask
      by_cases hold : task.slug ∈ acc.1
      · rw [visitFrom_old hold]
        exact .refl acc
      · rw [visitFrom_new hold]
        obtain ⟨hclosed, hmarked⟩ := closedSince_visitEach hkids (depth + 1) ih (hkids task.slug)
          (hfuel.mark htask hold depth)
        refine ⟨List.Subset.trans (List.subset_cons_self _ _) hclosed.kept, ?_⟩
        intro slug hslug
        rcases hclosed.closed slug hslug with hmid | hclosed
        · rcases List.mem_cons.mp hmid with rfl | hmid
          · exact .inr hmarked
          · exact .inl hmid
        · exact .inr hclosed

end Children

end Walk

/-! ## One session -/

section Forest

/-- The parent of a stored task, if it is in the group. -/
def parentIn (group : List Task) (slug : String) : Option String :=
  (group.find? fun t => t.slug == slug).bind fun t =>
    t.parent.filter fun p => group.any fun u => u.slug == p

/-- Its parent is not in the group. -/
def isRootIn (group : List Task) (t : Task) : Bool :=
  !t.parent.any fun p => group.any fun u => u.slug == p

def kidsIn (group : List Task) (slug : String) : List Task :=
  sortTasks (group.filter fun t => !isRootIn group t && t.parent == some slug)

def rootsIn (group : List Task) : List Task := sortTasks (group.filter (isRootIn group))

/-- The state after the walks from the roots. -/
def fromRoots (group : List Task) : List String × List DisplayRow :=
  visitAll (kidsIn group) (group.length + 1) (rootsIn group) ([], [])

def orphansIn (group : List Task) : List Task :=
  sortTasks (group.filter fun t => !(fromRoots group).1.contains t.slug)

theorem appendForest_nil (group : List Task) :
    appendForest group [] =
      (visitAll (kidsIn group) (group.length + 1) (orphansIn group) (fromRoots group)).2 := rfl

variable {group : List Task}

theorem mem_kidsIn {slug : String} {t : Task} :
    t ∈ kidsIn group slug ↔ t ∈ group ∧ t.parent = some slug ∧ ∃ p ∈ group, p.slug = slug := by
  rw [kidsIn, mem_sortTasks, List.mem_filter]
  refine and_congr_right fun _ => ?_
  rw [Bool.and_eq_true, beq_iff_eq, isRootIn, Bool.not_not, and_comm]
  refine and_congr_right fun hparent => ?_
  rw [hparent, Option.any_some, List.any_eq_true]
  simp only [beq_iff_eq]

theorem nodup_kidsIn (hslugs : (group.map Task.slug).Nodup) (slug : String) :
    (kidsIn group slug).Nodup :=
  (List.perm_insertionSort _ _).nodup_iff.mpr (hslugs.of_map.filter _)

theorem kidsIn_group (slug : String) : ∀ t ∈ kidsIn group slug, t ∈ group :=
  fun _ ht => (mem_kidsIn.mp ht).1

/-- In a sorted list a task that comes first in the queue stands before. -/
theorem mem_older {tasks older younger : List Task} {t u : Task}
    (hsplit : sortTasks tasks = older ++ t :: younger) (hu : u ∈ sortTasks tasks)
    (hlt : queueOrder u t = .lt) : u ∈ older := by
  have hsorted : (sortTasks tasks).Pairwise fun a b => queueOrder a b ≠ .gt :=
    Ranked.pairwise_insertionSort queueOrder _
  rw [hsplit] at hu hsorted
  rcases List.mem_append.mp hu with hu | hu
  · exact hu
  · rcases List.mem_cons.mp hu with rfl | hu
    · have hself : queueOrder u u = .eq := Std.ReflCmp.compare_self
      exact absurd (hself.symm.trans hlt) (by decide)
    · have hle := List.rel_of_pairwise_cons (List.pairwise_append.mp hsorted).2.1 hu
      exact absurd (Std.OrientedCmp.gt_iff_lt.mpr hlt) hle

/-- The parent chain of a task, inside of the group, comes to no loop. -/
def AcyclicChain (group : List Task) (slug : String) : Prop := NoLoopFrom (parentIn group) slug

theorem parentIn_eq_some (hslugs : (group.map Task.slug).Nodup) {slug parent : String} :
    parentIn group slug = some parent ↔ ∃ t ∈ kidsIn group parent, t.slug = slug := by
  have hfind : ∀ t, group.find? (fun t => t.slug == slug) = some t ↔ t ∈ group ∧ t.slug = slug := by
    intro t
    exact (congrArg (· = some t) (find?_slug ⟨group, hslugs⟩ slug)).to_iff.trans Keyed.find?_eq_some
  rw [parentIn, Option.bind_eq_some_iff]
  constructor
  · rintro ⟨t, ht, hlink⟩
    obtain ⟨hgroup, rfl⟩ := (hfind t).mp ht
    obtain ⟨hparent, hpresent⟩ := Option.filter_eq_some_iff.mp hlink
    obtain ⟨p, hp, hslug⟩ := List.any_eq_true.mp hpresent
    exact ⟨t, mem_kidsIn.mpr ⟨hgroup, hparent, p, hp, beq_iff_eq.mp hslug⟩, rfl⟩
  · rintro ⟨t, ht, rfl⟩
    obtain ⟨hgroup, hparent, p, hp, hslug⟩ := mem_kidsIn.mp ht
    refine ⟨t, (hfind t).mpr ⟨hgroup, rfl⟩, Option.filter_eq_some_iff.mpr ⟨hparent, ?_⟩⟩
    exact List.any_eq_true.mpr ⟨p, hp, beq_iff_eq.mpr hslug⟩

theorem fueled_nil (group : List Task) : Fueled group (group.length + 1) ([], []) where
  walked := walked_start group []
  enough := by simp

theorem rootsIn_group : ∀ t ∈ rootsIn group, t ∈ group :=
  fun _ ht => List.mem_of_mem_filter (mem_sortTasks.mp ht)

theorem orphansIn_group : ∀ t ∈ orphansIn group, t ∈ group :=
  fun _ ht => List.mem_of_mem_filter (mem_sortTasks.mp ht)

/-- What begins at the margin. -/
def AtMargin (group : List Task) (t : Task) : Prop := t ∈ rootsIn group ∨ t ∈ orphansIn group

theorem nested_appendForest (hslugs : (group.map Task.slug).Nodup) :
    Nested (kidsIn group) (AtMargin group) (appendForest group []) := by
  obtain ⟨hfuel, hnested⟩ := nested_visitAll kidsIn_group (nodup_kidsIn hslugs)
    rootsIn_group (fun t ht => (Or.inl ht : AtMargin group t)) (fueled_nil group) nested_nil
  rw [appendForest_nil]
  exact (nested_visitAll kidsIn_group (nodup_kidsIn hslugs) orphansIn_group
    (fun t ht => Or.inr ht) hfuel hnested).2

/-- The walks from the roots mark the roots, and the children of what they mark. -/
theorem closedSince_fromRoots (group : List Task) :
    ClosedSince (kidsIn group) ([], []) (fromRoots group) ∧
      ∀ t ∈ rootsIn group, t.slug ∈ (fromRoots group).1 :=
  closedSince_visitEach kidsIn_group 0 (closedSince_visitFrom kidsIn_group _) rootsIn_group
    (fueled_nil group)

/-- A task that is no root is among the children of its parent. -/
theorem exists_kidsIn {t : Task} (ht : t ∈ group) (h : isRootIn group t = false) :
    ∃ parent, t ∈ kidsIn group parent := by
  cases hparent : t.parent with
  | none => exact absurd h (by simp [isRootIn, hparent])
  | some parent =>
      rw [isRootIn, hparent, Option.any_some, Bool.not_eq_false'] at h
      obtain ⟨p, hp, hslug⟩ := List.any_eq_true.mp h
      exact ⟨parent, mem_kidsIn.mpr ⟨ht, hparent, p, hp, beq_iff_eq.mp hslug⟩⟩

/-- A chain that comes to no loop ends at a root, so the walks from the roots come to the task. -/
theorem marked_of_acyclicChain (hslugs : (group.map Task.slug).Nodup) {t : Task} (ht : t ∈ group)
    (hchain : AcyclicChain group t.slug) : t.slug ∈ (fromRoots group).1 := by
  obtain ⟨hclosed, hroots⟩ := closedSince_fromRoots group
  have hnodes : ∀ a b, Link (parentIn group) a b → a ∈ group.map Task.slug := by
    intro a b hab
    obtain ⟨u, hu, rfl⟩ := (parentIn_eq_some hslugs).mp hab
    exact List.mem_map_of_mem (kidsIn_group b u hu)
  obtain ⟨root, hreach, hend⟩ := hchain.exists_end hnodes
  have hpresent : ∃ r ∈ group, r.slug = root := by
    rcases Relation.ReflTransGen.cases_tail hreach with rfl | ⟨b, -, hlink⟩
    · exact ⟨t, ht, rfl⟩
    · obtain ⟨u, hu, -⟩ := (parentIn_eq_some hslugs).mp hlink
      exact (mem_kidsIn.mp hu).2.2
  obtain ⟨r, hr, rfl⟩ := hpresent
  have hroot : r ∈ rootsIn group := by
    refine mem_sortTasks.mpr (List.mem_filter.mpr ⟨hr, ?_⟩)
    by_contra hnot
    obtain ⟨parent, hkid⟩ := exists_kidsIn hr (Bool.eq_false_iff.mpr hnot)
    have hsome := (parentIn_eq_some hslugs).mpr ⟨r, hkid, rfl⟩
    exact absurd (hend.symm.trans hsome) (by simp)
  -- Down the chain from the root, a child of a marked task is marked.
  have hdown : ∀ a, Reaches (parentIn group) a r.slug → a ∈ (fromRoots group).1 := by
    intro a ha
    induction ha using Relation.ReflTransGen.head_induction_on with
    | refl => exact hroots r hroot
    | head hlink _ ih =>
        obtain ⟨u, hu, rfl⟩ := (parentIn_eq_some hslugs).mp hlink
        exact (hclosed.closed _ ih).resolve_left List.not_mem_nil u hu
  exact hdown t.slug hreach

theorem isRootIn_kidsIn {slug : String} {t : Task} (h : t ∈ kidsIn group slug) :
    isRootIn group t = false := by
  have hpred := (List.mem_filter.mp (mem_sortTasks.mp h)).2
  exact Bool.not_eq_true' _ ▸ (Bool.and_eq_true_iff.mp hpred).1

theorem isRootIn_rootsIn {t : Task} (h : t ∈ rootsIn group) : isRootIn group t = true :=
  (List.mem_filter.mp (mem_sortTasks.mp h)).2

/-- Tasks with the same parent are all roots, or none is. -/
theorem isRootIn_congr {t u : Task} (h : u.parent = t.parent) :
    isRootIn group u = isRootIn group t := by
  rw [isRootIn, isRootIn, h]

theorem eq_of_slug (hslugs : (group.map Task.slug).Nodup) {t u : Task} (ht : t ∈ group)
    (hu : u ∈ group) (h : t.slug = u.slug) : t = u :=
  List.inj_on_of_nodup_map hslugs ht hu h

/-- The rows that some walks have added are of tasks of the group. -/
theorem Walked.exists_row {acc : List String × List DisplayRow} (h : Walked group [] acc)
    (hslugs : (group.map Task.slug).Nodup) {t : Task} (ht : t ∈ group) :
    t.slug ∈ acc.1 ↔ ∃ r ∈ acc.2, r.task = t := by
  rw [h.mem_marked, rowSlugs, List.mem_map]
  refine exists_congr fun r => and_congr_right fun hr => ?_
  exact ⟨fun hslug => eq_of_slug hslugs (h.task_mem hr) ht hslug, fun heq => heq ▸ rfl⟩

/-- A root is no child, so its own walk is the first that comes to it. -/
theorem root_not_marked (hslugs : (group.map Task.slug).Nodup) {t : Task}
    {older younger : List Task} (hsplit : rootsIn group = older ++ t :: younger) :
    t.slug ∉ (visitAll (kidsIn group) (group.length + 1) older ([], [])).1 := by
  have hroot : t ∈ rootsIn group := hsplit ▸ List.mem_append_right _ List.mem_cons_self
  obtain ⟨hfuel, hnested⟩ := nested_visitAll kidsIn_group (nodup_kidsIn hslugs)
    (fun u hu => rootsIn_group u (hsplit ▸ List.mem_append_left _ hu)) (fun u hu => hu)
    (fueled_nil group) nested_nil
  intro hmem
  obtain ⟨r, hr, rfl⟩ := (hfuel.walked.exists_row hslugs (rootsIn_group t hroot)).mp hmem
  obtain ⟨pre, post, hrows⟩ := List.append_of_mem hr
  have hplaced := hnested pre r post hrows
  cases hdepth : r.depth with
  | zero =>
      rw [hdepth] at hplaced
      have hnodup : (older ++ r.task :: younger).Nodup :=
        hsplit ▸ (List.perm_insertionSort _ _).nodup_iff.mpr (hslugs.of_map.filter _)
      exact (List.nodup_append'.mp hnodup).2.2 hplaced List.mem_cons_self
  | succ d =>
      rw [hdepth] at hplaced
      obtain ⟨p, -, hkid, -⟩ := hplaced
      exact absurd ((isRootIn_rootsIn hroot).symm.trans (isRootIn_kidsIn hkid)) (by simp)

/-- The walk of a root begins behind the rows of the roots before it. -/
theorem fromRoots_split (hslugs : (group.map Task.slug).Nodup) {t : Task}
    {older younger : List Task} (hsplit : rootsIn group = older ++ t :: younger) :
    ∃ more, (fromRoots group).2 =
      (visitAll (kidsIn group) (group.length + 1) older ([], [])).2 ++ ⟨0, t⟩ :: more := by
  have hnew := root_not_marked hslugs hsplit
  generalize hacc : visitAll (kidsIn group) (group.length + 1) older ([], []) = acc at hnew ⊢
  have hfirst : fromRoots group =
      visitEach (kidsIn group) (group.length + 1) 0 younger
        (visitEach (kidsIn group) group.length 1 (kidsIn group t.slug)
          (t.slug :: acc.1, acc.2 ++ [⟨0, t⟩])) := by
    rw [fromRoots, hsplit, visitAll, List.foldl_append, List.foldl_cons, ← visitFrom_new hnew,
      ← hacc]
    rfl
  obtain ⟨below, hbelow⟩ := visitEach_extends (kidsIn group) group.length 1
    (kidsIn group t.slug) (t.slug :: acc.1, acc.2 ++ [⟨0, t⟩])
  obtain ⟨later, hlater⟩ := visitEach_extends (kidsIn group) (group.length + 1) 0 younger
    (visitEach (kidsIn group) group.length 1 (kidsIn group t.slug)
      (t.slug :: acc.1, acc.2 ++ [⟨0, t⟩]))
  refine ⟨below ++ later, ?_⟩
  rw [hfirst, hlater, hbelow]
  simp

/-- A root is listed after the roots that come first in the queue. -/
theorem appendForest_root (hslugs : (group.map Task.slug).Nodup) {t : Task} (ht : t ∈ group)
    (hroot : isRootIn group t = true) :
    ∃ before after, appendForest group [] = before ++ ⟨0, t⟩ :: after ∧
      ∀ u ∈ group, isRootIn group u = true → queueOrder u t = .lt → ∃ r ∈ before, r.task = u := by
  have hroots : ∀ u ∈ group, isRootIn group u = true → u ∈ rootsIn group :=
    fun u hu hroot => mem_sortTasks.mpr (List.mem_filter.mpr ⟨hu, hroot⟩)
  obtain ⟨older, younger, hsplit⟩ := List.append_of_mem (hroots t ht hroot)
  have holder : ∀ u ∈ older, u ∈ group := fun u hu =>
    rootsIn_group u (hsplit ▸ List.mem_append_left _ hu)
  obtain ⟨more, hmore⟩ := fromRoots_split hslugs hsplit
  obtain ⟨last, hlast⟩ := visitEach_extends (kidsIn group) (group.length + 1) 0
    (orphansIn group) (fromRoots group)
  refine ⟨(visitAll (kidsIn group) (group.length + 1) older ([], [])).2, more ++ last, ?_, ?_⟩
  · rw [appendForest_nil]
    refine hlast.trans ?_
    rw [hmore, List.append_assoc, List.cons_append]
  · intro u hu huroot hlt
    have huolder : u ∈ older := mem_older hsplit (hroots u hu huroot) hlt
    have hmarks := (closedSince_visitEach kidsIn_group 0 (closedSince_visitFrom kidsIn_group _)
      holder (fueled_nil group)).2
    have hwalked := (walked_start group []).visitAll kidsIn_group (group.length + 1) holder
    exact (hwalked.exists_row hslugs hu).mp (hmarks u huolder)

/-- A task with a parent in the group is listed below it, after its older siblings. -/
theorem appendForest_child (hslugs : (group.map Task.slug).Nodup) {t p : Task}
    (ht : t ∈ kidsIn group p.slug) (hp : p ∈ group) (hchain : AcyclicChain group t.slug) :
    ∃ pre d mid after, appendForest group [] = pre ++ ⟨d, p⟩ :: mid ++ ⟨d + 1, t⟩ :: after ∧
      (∀ r ∈ mid, d < r.depth) ∧
      ∀ u ∈ kidsIn group p.slug, queueOrder u t = .lt →
        ∃ r ∈ pre ++ ⟨d, p⟩ :: mid, r.task = u := by
  obtain ⟨hgroup, hparent, -⟩ := mem_kidsIn.mp ht
  obtain ⟨new, hnew, hperm⟩ := appendForest_perm hslugs []
  rw [List.nil_append] at hnew
  have hrows : ∀ r ∈ appendForest group [], r.task ∈ group :=
    fun r hr => hperm.mem_iff.mp (List.mem_map_of_mem (hnew ▸ hr))
  obtain ⟨row, hrow, rfl⟩ := List.mem_map.mp (hperm.mem_iff.mpr hgroup)
  rw [← hnew] at hrow
  obtain ⟨before, after, hsplit⟩ := List.append_of_mem hrow
  have hplaced := nested_appendForest hslugs before row after hsplit
  obtain ⟨depth, t⟩ := row
  cases depth with
  | zero =>
      -- A root has no parent in the group, and what is marked is no orphan.
      rcases hplaced with hroot | horphan
      · exact absurd ((isRootIn_rootsIn hroot).symm.trans (isRootIn_kidsIn ht)) (by simp)
      · have hnot := (List.mem_filter.mp (mem_sortTasks.mp horphan)).2
        simp [marked_of_acyclicChain hslugs hgroup hchain] at hnot
  | succ d =>
      obtain ⟨p', ⟨pre, mid, hbefore, hmid⟩, hkid, holder⟩ := hplaced
      have hp' : p' ∈ group := by
        refine hrows ⟨d, p'⟩ ?_
        rw [hsplit, hbefore]
        simp
      have hslug : p'.slug = p.slug := Option.some.inj ((mem_kidsIn.mp hkid).2.1.symm.trans hparent)
      obtain rfl := eq_of_slug hslugs hp' hp hslug
      refine ⟨pre, d, mid, after, by rw [hsplit, hbefore], hmid, ?_⟩
      intro u hu hlt
      obtain ⟨older, younger, hkids⟩ := List.append_of_mem hkid
      obtain ⟨r, hr, hrslug⟩ :=
        List.mem_map.mp (holder older younger hkids u (mem_older hkids hu hlt))
      rw [hbefore] at hr
      have hrgroup : r.task ∈ group := by
        refine hrows r ?_
        rw [hsplit, hbefore]
        exact List.mem_append_left _ hr
      exact ⟨r, hr, eq_of_slug hslugs hrgroup (kidsIn_group _ u hu) hrslug⟩

/-- The preorder of one session. -/
theorem appendForest_preorder (hslugs : (group.map Task.slug).Nodup) {t : Task} (ht : t ∈ group)
    (hchain : AcyclicChain group t.slug) :
    ∃ before d after, appendForest group [] = before ++ ⟨d, t⟩ :: after ∧
      (∀ p ∈ group, t.parent = some p.slug →
        ∃ pre e mid, before = pre ++ ⟨e, p⟩ :: mid ∧ d = e + 1 ∧ ∀ r ∈ mid, e < r.depth) ∧
      ∀ u ∈ group, u.parent = t.parent → queueOrder u t = .lt → ∃ r ∈ before, r.task = u := by
  cases hroot : isRootIn group t with
  | true =>
      obtain ⟨before, after, hrows, holder⟩ := appendForest_root hslugs ht hroot
      refine ⟨before, 0, after, hrows, ?_, ?_⟩
      · intro p hp hparent
        have hkid : t ∈ kidsIn group p.slug := mem_kidsIn.mpr ⟨ht, hparent, p, hp, rfl⟩
        exact absurd (hroot.symm.trans (isRootIn_kidsIn hkid)) (by simp)
      · intro u hu hsame
        exact holder u hu ((isRootIn_congr hsame).trans hroot)
  | false =>
      obtain ⟨parent, hkid⟩ := exists_kidsIn ht hroot
      obtain ⟨-, hparent, p, hp, rfl⟩ := mem_kidsIn.mp hkid
      obtain ⟨pre, d, mid, after, hrows, hmid, holder⟩ := appendForest_child hslugs hkid hp hchain
      refine ⟨pre ++ ⟨d, p⟩ :: mid, d + 1, after, hrows, ?_, ?_⟩
      · intro p' hp' hparent'
        have hslug : p'.slug = p.slug := Option.some.inj (hparent'.symm.trans hparent)
        obtain rfl := eq_of_slug hslugs hp' hp hslug
        exact ⟨pre, d, mid, rfl, rfl, hmid⟩
      · intro u hu hsame
        exact holder u (mem_kidsIn.mpr ⟨hu, hsame.trans hparent, p, hp, rfl⟩)

end Forest

/-! ## All sessions -/

/-- The same marks, with rows in front. -/
def behind (rows : List DisplayRow) (acc : List String × List DisplayRow) :
    List String × List DisplayRow := (acc.1, rows ++ acc.2)

/-- A walk does not read the rows that are there. -/
theorem visitFrom_behind (kids : String → List Task) (rows : List DisplayRow) (fuel : Nat) :
    ∀ (depth : Nat) (task : Task) (acc : List String × List DisplayRow),
      visitFrom kids fuel depth task (behind rows acc) =
        behind rows (visitFrom kids fuel depth task acc) := by
  induction fuel with
  | zero => exact fun _ _ _ => rfl
  | succ fuel ih =>
      intro depth task acc
      by_cases hold : task.slug ∈ acc.1
      · rw [visitFrom_old hold]
        exact visitFrom_old hold
      · have hmark : behind rows (task.slug :: acc.1, acc.2 ++ [⟨depth, task⟩]) =
            (task.slug :: acc.1, rows ++ acc.2 ++ [⟨depth, task⟩]) := by
          rw [behind, List.append_assoc]
        have hold' : task.slug ∉ (behind rows acc).1 := hold
        rw [visitFrom_new hold, visitFrom_new hold', behind, ← hmark]
        exact List.foldl_hom (behind rows) fun acc child => ih (depth + 1) child acc

theorem visitAll_behind (kids : String → List Task) (rows : List DisplayRow) (fuel : Nat)
    (tasks : List Task) (acc : List String × List DisplayRow) :
    visitAll kids fuel tasks (behind rows acc) = behind rows (visitAll kids fuel tasks acc) :=
  List.foldl_hom (behind rows) fun acc t => visitFrom_behind kids rows fuel 0 t acc

theorem appendForest_append (group : List Task) (rows : List DisplayRow) :
    appendForest group rows = rows ++ appendForest group [] := by
  have hroots : visitAll (kidsIn group) (group.length + 1) (rootsIn group) ([], rows) =
      behind rows (fromRoots group) := by
    rw [fromRoots, ← visitAll_behind, behind, List.append_nil]
  have hall : appendForest group rows =
      (visitAll (kidsIn group) (group.length + 1)
        (sortTasks (group.filter fun t =>
          !(visitAll (kidsIn group) (group.length + 1) (rootsIn group) ([], rows)).1.contains t.slug))
        (visitAll (kidsIn group) (group.length + 1) (rootsIn group) ([], rows))).2 := rfl
  rw [hall, hroots, visitAll_behind, appendForest_nil]
  rfl

theorem displayRows_eq_flatMap (tasks : List Task) (priority : List String) :
    displayRows tasks priority =
      (sessionKeys tasks priority).flatMap fun key => appendForest (groupOf tasks key) [] := by
  have hstep : (fun rows key => appendForest (groupOf tasks key) rows) =
      fun (rows : List DisplayRow) key => rows ++ appendForest (groupOf tasks key) [] :=
    funext fun rows => funext fun key => appendForest_append _ rows
  rw [displayRows_eq, hstep, List.foldl_append_eq_append, List.nil_append, List.flatMap_def]

/-- The listing is a preorder.  Each task whose parent chain comes to no loop in its session is
listed.  Its parent, if it is in the session, stands before it and one level up, and all rows
between the two are deeper than the parent's; and the siblings that come first in the queue are
listed before it. -/
theorem displayRows_preorder (tasks : List Task) (hslugs : (tasks.map Task.slug).Nodup)
    (priority : List String) {t : Task} (ht : t ∈ tasks)
    (hchain : AcyclicChain (groupOf tasks t.session) t.slug) :
    ∃ before d after, displayRows tasks priority = before ++ ⟨d, t⟩ :: after ∧
      (∀ p ∈ tasks, p.session = t.session → t.parent = some p.slug →
        ∃ pre e mid, before = pre ++ ⟨e, p⟩ :: mid ∧ d = e + 1 ∧ ∀ r ∈ mid, e < r.depth) ∧
      ∀ u ∈ tasks, u.session = t.session → u.parent = t.parent → queueOrder u t = .lt →
        ∃ r ∈ before, r.task = u := by
  have hmem : ∀ {u : Task}, u ∈ tasks → u.session = t.session → u ∈ groupOf tasks t.session :=
    fun hu hsame => List.mem_filter.mpr ⟨hu, beq_iff_eq.mpr hsame⟩
  have hgroup : ((groupOf tasks t.session).map Task.slug).Nodup :=
    hslugs.sublist (List.filter_sublist.map _)
  obtain ⟨before, d, after, hrows, hparent, holder⟩ :=
    appendForest_preorder hgroup (hmem ht rfl) hchain
  have hkey : t.session ∈ sessionKeys tasks priority :=
    mem_sessionKeys.mpr (List.mem_map_of_mem ht)
  obtain ⟨earlier, later, hkeys⟩ := List.append_of_mem hkey
  have hall : displayRows tasks priority =
      earlier.flatMap (fun key => appendForest (groupOf tasks key) []) ++
        (before ++ ⟨d, t⟩ :: after ++
          later.flatMap fun key => appendForest (groupOf tasks key) []) := by
    rw [displayRows_eq_flatMap, hkeys, List.flatMap_append, List.flatMap_cons, hrows]
  generalize earlier.flatMap (fun key => appendForest (groupOf tasks key) []) = first at hall
  refine ⟨first ++ before, d,
    after ++ later.flatMap fun key => appendForest (groupOf tasks key) [], ?_, ?_, ?_⟩
  · rw [hall, List.append_assoc, List.append_assoc, List.cons_append]
  · intro p hp hsame hlink
    obtain ⟨pre, e, mid, hbefore, hdepth, hmid⟩ := hparent p (hmem hp hsame) hlink
    exact ⟨first ++ pre, e, mid, by rw [hbefore, List.append_assoc], hdepth, hmid⟩
  · intro u hu hsame hsibling hlt
    obtain ⟨r, hr, hru⟩ := holder u (hmem hu hsame) hsibling hlt
    exact ⟨r, List.mem_append_right _ hr, hru⟩

/-- A root with a child and a grandchild, and two tasks on a loop beside them. -/
def family : List Task :=
  [linked "c" (some "b") (some "s"), linked "b" (some "a") (some "s"), linked "a" none (some "s"),
    linked "x" (some "y") (some "s"), linked "y" (some "x") (some "s")]

theorem displayRows_preorder_family :
    ∃ before d after, displayRows family [] =
        before ++ ⟨d, linked "c" (some "b") (some "s")⟩ :: after ∧
      ∃ pre e mid, before = pre ++ ⟨e, linked "b" (some "a") (some "s")⟩ :: mid ∧ d = e + 1 := by
  have hroot : AcyclicChain (groupOf family (some "s")) "a" := noLoopFrom_of_none (by decide)
  have hb : parentIn (groupOf family (some "s")) "b" = some "a" := by decide
  have hc : parentIn (groupOf family (some "s")) "c" = some "b" := by decide
  have hchain : AcyclicChain (groupOf family (some "s")) "c" := (hroot.of_link hb).of_link hc
  obtain ⟨before, d, after, hrows, hparent, -⟩ :=
    displayRows_preorder family (by decide) [] List.mem_cons_self hchain
  obtain ⟨pre, e, mid, hbefore, hdepth, -⟩ := hparent (linked "b" (some "a") (some "s"))
    (List.mem_cons_of_mem _ List.mem_cons_self) rfl rfl
  exact ⟨before, d, after, hrows, pre, e, mid, hbefore, hdepth⟩

end Llmenv.Tasks
