/-
# `Llmenv.Scope.ContentWalk` — one walk for all content scopes

`matches_content_all` of `crates/llmenv-scope/src/content_walk.rs`.  The globs
of the content scopes are compiled first, and one walk of the working
directory serves them all: a scope leaves the pending list with its first
match, the walk ends when the list is empty, and it goes as deep as the
loosest limit of the pending scopes, without limit when one of them has none.

The crates `walkdir` and `globset` are parameters.  Of a walk it is assumed
that it gives every entry up to its limit once, in any order and with errors
anywhere between them (`Walks`); nothing is assumed of a glob.
-/
import Mathlib.Data.Finset.Insert
import Mathlib.Data.List.Perm.Basic

namespace Llmenv.Scope.ContentWalk

/-! ## The code -/

structure ContentMatch where
  glob : String
  depth : Option Nat

structure ContentScope where
  id : String
  contentMatch : ContentMatch

/-- `walkdir::DirEntry`; a path is the list of its components. -/
structure DirEntry where
  path : List String
  depth : Nat
  isDir : Bool
deriving DecidableEq

/-- A scope that has not matched yet: an element of the pending list. -/
structure Pending (G : Type) where
  id : String
  matcher : G
  depth : Option Nat

section Code

variable {G ε : Type} (compile : String → Option G) (isMatch : G → List String → Bool)

/-- A scope with an invalid glob is logged and left out. -/
def pendingScopes (scopes : List ContentScope) : List (Pending G) :=
  scopes.filterMap fun s =>
    (compile s.contentMatch.glob).map fun m => ⟨s.id, m, s.contentMatch.depth⟩

/-- The `try_fold` for the loosest limit; `none` walks without limit. -/
def maxDepth (pending : List (Pending G)) : Option Nat :=
  pending.foldlM (fun acc p => p.depth.map (max acc)) 0

/-- `Path::strip_prefix`. -/
def stripPath (cwd path : List String) : Option (List String) :=
  if cwd <+: path then some (path.drop cwd.length) else none

/-- The closure of `pending.retain`: whether the entry matches the scope. -/
def hits (relative : List String) (entryDepth : Nat) (p : Pending G) : Bool :=
  if p.depth.any (fun d => decide (d < entryDepth)) then false
  else isMatch p.matcher relative

/-- `pending.retain`, with the set of matched ids that its closure writes. -/
def retain (relative : List String) (entryDepth : Nat) :
    List (Pending G) → Finset String → List (Pending G) × Finset String
  | [], matched => ([], matched)
  | p :: ps, matched =>
      if hits isMatch relative entryDepth p then retain relative entryDepth ps (insert p.id matched)
      else
        let r := retain relative entryDepth ps matched
        (p :: r.1, r.2)

/-- One turn of the loop over the walk; a `continue` leaves both variables as they are. -/
def visit (cwd : List String) (item : Except ε DirEntry) (pending : List (Pending G))
    (matched : Finset String) : List (Pending G) × Finset String :=
  match item with
  | .error _ => (pending, matched)
  | .ok entry =>
      if entry.isDir then (pending, matched)
      else
        match stripPath cwd entry.path with
        | none => (pending, matched)
        | some relative => retain isMatch relative entry.depth pending matched

/-- The loop over the walk. -/
def walkLoop (cwd : List String) :
    List (Except ε DirEntry) → List (Pending G) → Finset String → Finset String
  | [], _, matched => matched
  | item :: items, pending, matched =>
      if pending.isEmpty then matched
      else
        let r := visit isMatch cwd item pending matched
        walkLoop cwd items r.1 r.2

/-- `walk cwd limit` is the walk of `cwd`, at most `limit` levels deep if there is a limit. -/
def matchesContentAll (walk : List String → Option Nat → List (Except ε DirEntry))
    (scopes : List ContentScope) (cwd : List String) : Finset String :=
  let pending := pendingScopes compile scopes
  if pending.isEmpty then ∅
  else walkLoop isMatch cwd (walk cwd (maxDepth pending)) pending ∅

end Code

/-! ## Directory trees -/

/-- A directory with named entries, or anything that is not a directory. -/
inductive Tree where
  | leaf
  | dir (children : List (String × Tree))

mutual

/-- The paths of the entries of a tree, relative to its root, and whether each is a directory. -/
def Tree.paths : Tree → List (List String × Bool)
  | .leaf => [([], false)]
  | .dir children => ([], true) :: childPaths children

def childPaths : List (String × Tree) → List (List String × Bool)
  | [] => []
  | (name, t) :: rest => t.paths.map (fun p => (name :: p.1, p.2)) ++ childPaths rest

end

/-- The entries below `cwd` when `tree` stands there: an entry lies as deep as its relative
path is long. -/
def Tree.entries (cwd : List String) (tree : Tree) : List DirEntry :=
  tree.paths.map fun p => ⟨cwd ++ p.1, p.1.length, p.2⟩

/-- What `walkdir` promises: each entry up to the limit once, in any order. -/
def Walks {ε : Type} (walk : List String → Option Nat → List (Except ε DirEntry))
    (cwd : List String) (tree : Tree) : Prop :=
  ∀ limit, ((walk cwd limit).filterMap Except.toOption).Perm
    ((tree.entries cwd).filter fun e => limit.all fun d => decide (e.depth ≤ d))

/-! ## One walk per scope -/

section Naive

variable {G ε : Type} (compile : String → Option G) (isMatch : G → List String → Bool)

/-- The walk of one scope: a full walk, with the limit of the scope applied to each file. -/
def oneWalk (walk : List String → Option Nat → List (Except ε DirEntry)) (cwd : List String)
    (s : ContentScope) : Bool :=
  (compile s.contentMatch.glob).any fun m =>
    ((walk cwd none).filterMap Except.toOption).any fun e =>
      !e.isDir && s.contentMatch.depth.all (fun d => decide (e.depth ≤ d)) &&
        (stripPath cwd e.path).any (isMatch m)

def naive (walk : List String → Option Nat → List (Except ε DirEntry))
    (scopes : List ContentScope) (cwd : List String) : Finset String :=
  ((scopes.filter (oneWalk compile isMatch walk cwd)).map ContentScope.id).toFinset

/-- Some entry that is not a directory, within the scope's own limit, matches its glob. -/
def ScopeMatches (tree : Tree) (s : ContentScope) : Prop :=
  ∃ m, compile s.contentMatch.glob = some m ∧ ∃ relative, (relative, false) ∈ tree.paths ∧
    (∀ d, s.contentMatch.depth = some d → relative.length ≤ d) ∧ isMatch m relative = true

end Naive

/-! ## What the shared walk finds -/

section Proofs

variable {G ε : Type} {compile : String → Option G} {isMatch : G → List String → Bool}

theorem hits_iff {relative : List String} {depth : Nat} {p : Pending G} :
    hits isMatch relative depth p = true ↔
      (∀ d, p.depth = some d → depth ≤ d) ∧ isMatch p.matcher relative = true := by
  rw [hits]
  cases p.depth with
  | none => simp
  | some d =>
      by_cases hd : d < depth
      · simp [hd]
      · simp [hd, Nat.le_of_not_lt hd]

/-- The retained scopes are those that the entry does not match. -/
theorem retain_fst (relative : List String) (depth : Nat) (ps : List (Pending G))
    (matched : Finset String) :
    (retain isMatch relative depth ps matched).1 =
      ps.filter fun p => !hits isMatch relative depth p := by
  induction ps generalizing matched with
  | nil => rfl
  | cons p ps ih =>
      rw [retain]
      cases hp : hits isMatch relative depth p with
      | true => simp [hp, ih]
      | false => simp [hp, ih]

theorem mem_retain_snd {relative : List String} {depth : Nat} {ps : List (Pending G)}
    {matched : Finset String} {id : String} :
    id ∈ (retain isMatch relative depth ps matched).2 ↔
      id ∈ matched ∨ ∃ p ∈ ps, p.id = id ∧ hits isMatch relative depth p = true := by
  induction ps generalizing matched with
  | nil => simp [retain]
  | cons p ps ih =>
      rw [retain]
      cases hp : hits isMatch relative depth p with
      | true =>
          rw [if_pos rfl, ih, List.exists_mem_cons_iff, Finset.mem_insert, and_iff_left hp,
            eq_comm, or_comm, or_left_comm, ← or_assoc, or_comm]
      | false =>
          have hnot : ¬ (p.id = id ∧ hits isMatch relative depth p = true) := by simp [hp]
          rw [if_neg (by simp), List.exists_mem_cons_iff, or_iff_right hnot]
          exact ih

/-- The item of the walk is an entry that matches the pending scope. -/
def Hit (isMatch : G → List String → Bool) (cwd : List String) (item : Except ε DirEntry)
    (p : Pending G) : Prop :=
  ∃ e, item = .ok e ∧ e.isDir = false ∧
    ∃ relative, stripPath cwd e.path = some relative ∧ hits isMatch relative e.depth p = true

variable (isMatch) in
/-- One turn moves the ids of the scopes that match into the set, and leaves the others pending. -/
theorem visit_spec (cwd : List String) (item : Except ε DirEntry) (pending : List (Pending G))
    (matched : Finset String) :
    (∀ p, p ∈ (visit isMatch cwd item pending matched).1 ↔
        p ∈ pending ∧ ¬ Hit isMatch cwd item p) ∧
      ∀ id, id ∈ (visit isMatch cwd item pending matched).2 ↔
        id ∈ matched ∨ ∃ p ∈ pending, p.id = id ∧ Hit isMatch cwd item p := by
  rcases item with err | entry
  · have hno : ∀ p, ¬ Hit isMatch cwd (.error err : Except ε DirEntry) p := by
      rintro p ⟨e, heq, -⟩
      exact absurd heq (by simp)
    simp [visit, hno]
  · cases hdir : entry.isDir with
    | true =>
        have hno : ∀ p, ¬ Hit isMatch cwd (.ok entry : Except ε DirEntry) p := by
          rintro p ⟨e, heq, hfile, -⟩
          rw [← Except.ok.inj heq, hdir] at hfile
          exact absurd hfile (by simp)
        simp [visit, hdir, hno]
    | false =>
        cases hstrip : stripPath cwd entry.path with
        | none =>
            have hno : ∀ p, ¬ Hit isMatch cwd (.ok entry : Except ε DirEntry) p := by
              rintro p ⟨e, heq, -, relative, hrel, -⟩
              rw [← Except.ok.inj heq, hstrip] at hrel
              exact absurd hrel (by simp)
            simp [visit, hdir, hstrip, hno]
        | some relative =>
            have hhit : ∀ p, Hit isMatch cwd (.ok entry : Except ε DirEntry) p ↔
                hits isMatch relative entry.depth p = true := by
              intro p
              simp [Hit, hdir, hstrip]
            simp [visit, hdir, hstrip, hhit, retain_fst, mem_retain_snd]

/-- Dropping a scope at its first match and leaving the walk early lose nothing: the loop adds
the ids of the pending scopes that some entry still to come matches. -/
theorem mem_walkLoop {cwd : List String} {items : List (Except ε DirEntry)}
    {pending : List (Pending G)} {matched : Finset String} {id : String} :
    id ∈ walkLoop isMatch cwd items pending matched ↔
      id ∈ matched ∨ ∃ p ∈ pending, p.id = id ∧ ∃ item ∈ items, Hit isMatch cwd item p := by
  induction items generalizing pending matched with
  | nil => simp [walkLoop]
  | cons item items ih =>
      rw [walkLoop]
      split
      · rename_i hempty
        simp [List.isEmpty_iff.mp hempty]
      · obtain ⟨hpending, hmatched⟩ := visit_spec isMatch cwd item pending matched
        rw [ih, hmatched]
        constructor
        · rintro ((hm | ⟨p, hp, hid, hh⟩) | ⟨p, hp, hid, later, hlater, hh⟩)
          · exact .inl hm
          · exact .inr ⟨p, hp, hid, item, List.mem_cons_self, hh⟩
          · exact .inr ⟨p, ((hpending p).mp hp).1, hid, later, List.mem_cons_of_mem _ hlater, hh⟩
        · rintro (hm | ⟨p, hp, hid, hit, hmem, hh⟩)
          · exact .inl (.inl hm)
          · -- The scope matches now, or it stays for the entries behind this one.
            by_cases hnow : Hit isMatch cwd item p
            · exact .inl (.inr ⟨p, hp, hid, hnow⟩)
            · have hlater : hit ∈ items := by
                rcases List.mem_cons.mp hmem with rfl | hmem
                · exact absurd hh hnow
                · exact hmem
              exact .inr ⟨p, (hpending p).mpr ⟨hp, hnow⟩, hid, hit, hlater, hh⟩

theorem le_of_foldlM_depth {pending : List (Pending G)} {acc limit : Nat}
    (h : pending.foldlM (fun acc p => p.depth.map (max acc)) acc = some limit) :
    acc ≤ limit ∧ ∀ p ∈ pending, ∃ d, p.depth = some d ∧ d ≤ limit := by
  induction pending generalizing acc with
  | nil => exact ⟨(Option.some.inj h).le, by simp⟩
  | cons p ps ih =>
      rw [List.foldlM_cons] at h
      obtain ⟨next, hnext, h⟩ := Option.bind_eq_some_iff.mp h
      obtain ⟨d, hd, rfl⟩ := Option.map_eq_some_iff.mp hnext
      obtain ⟨hle, hrest⟩ := ih h
      exact ⟨(Nat.le_max_left acc d).trans hle,
        List.forall_mem_cons.mpr ⟨⟨d, hd, (Nat.le_max_right acc d).trans hle⟩, hrest⟩⟩

/-- The walk is not too shallow for any pending scope. -/
theorem le_of_maxDepth {pending : List (Pending G)} {p : Pending G} (hp : p ∈ pending)
    {n : Nat} (hn : ∀ d, p.depth = some d → n ≤ d) :
    (maxDepth pending).all (fun limit => decide (n ≤ limit)) = true := by
  cases hmax : maxDepth pending with
  | none => rfl
  | some limit =>
      obtain ⟨d, hd, hle⟩ := (le_of_foldlM_depth hmax).2 p hp
      exact decide_eq_true ((hn d hd).trans hle)

theorem mem_pendingScopes {scopes : List ContentScope} {p : Pending G} :
    p ∈ pendingScopes compile scopes ↔ ∃ s ∈ scopes, ∃ m,
      compile s.contentMatch.glob = some m ∧ p = ⟨s.id, m, s.contentMatch.depth⟩ := by
  rw [pendingScopes, List.mem_filterMap]
  refine exists_congr fun s => and_congr_right fun _ => ?_
  rw [Option.map_eq_some_iff]
  exact exists_congr fun m => and_congr_right fun _ => eq_comm

theorem stripPath_append (cwd relative : List String) :
    stripPath cwd (cwd ++ relative) = some relative := by
  rw [stripPath, if_pos (List.prefix_append cwd relative), List.drop_left]


theorem Walks.mem_iff {walk : List String → Option Nat → List (Except ε DirEntry)}
    {cwd : List String} {tree : Tree} (h : Walks walk cwd tree) {limit : Option Nat}
    {e : DirEntry} : .ok e ∈ walk cwd limit ↔
      (∃ relative, (relative, e.isDir) ∈ tree.paths ∧ e.path = cwd ++ relative ∧
        e.depth = relative.length) ∧ limit.all (fun d => decide (e.depth ≤ d)) = true := by
  have hok : .ok e ∈ walk cwd limit ↔ e ∈ (walk cwd limit).filterMap Except.toOption := by
    rw [List.mem_filterMap]
    constructor
    · exact fun hmem => ⟨.ok e, hmem, rfl⟩
    · rintro ⟨item, hmem, hitem⟩
      cases item with
      | error err => exact absurd hitem (by simp [Except.toOption])
      | ok e' => exact Option.some.inj hitem ▸ hmem
  rw [hok, (h limit).mem_iff, List.mem_filter, Tree.entries, List.mem_map]
  refine and_congr_left fun _ => ?_
  constructor
  · rintro ⟨⟨relative, isDir⟩, hmem, rfl⟩
    exact ⟨relative, hmem, rfl, rfl⟩
  · rintro ⟨relative, hmem, hpath, hdepth⟩
    exact ⟨(relative, e.isDir), hmem, by rw [← hpath, ← hdepth]⟩

/-- Whether the walk up to a limit that is loose enough finds the scope. -/
theorem exists_hit_iff {walk : List String → Option Nat → List (Except ε DirEntry)}
    {cwd : List String} {tree : Tree} (h : Walks walk cwd tree) {limit : Option Nat}
    {p : Pending G}
    (hlimit : ∀ n, (∀ d, p.depth = some d → n ≤ d) → limit.all (fun l => decide (n ≤ l)) = true) :
    (∃ item ∈ walk cwd limit, Hit isMatch cwd item p) ↔
      ∃ relative, (relative, false) ∈ tree.paths ∧
        (∀ d, p.depth = some d → relative.length ≤ d) ∧ isMatch p.matcher relative = true := by
  constructor
  · rintro ⟨item, hmem, e, rfl, hfile, relative, hstrip, hhit⟩
    obtain ⟨⟨relative', hpath, hpath', hdepth⟩, -⟩ := h.mem_iff.mp hmem
    rw [hpath', stripPath_append] at hstrip
    obtain rfl := Option.some.inj hstrip
    obtain ⟨hle, hmatch⟩ := hits_iff.mp hhit
    exact ⟨relative', hfile ▸ hpath, fun d hd => hdepth ▸ hle d hd, hmatch⟩
  · rintro ⟨relative, hpath, hle, hmatch⟩
    refine ⟨.ok ⟨cwd ++ relative, relative.length, false⟩,
      h.mem_iff.mpr ⟨⟨relative, hpath, rfl, rfl⟩, hlimit _ hle⟩, _, rfl, rfl, relative,
      stripPath_append cwd relative, hits_iff.mpr ⟨hle, hmatch⟩⟩

theorem mem_matchesContentAll {walk : List String → Option Nat → List (Except ε DirEntry)}
    {cwd : List String} {tree : Tree} (h : Walks walk cwd tree) {scopes : List ContentScope}
    {id : String} : id ∈ matchesContentAll compile isMatch walk scopes cwd ↔
      ∃ s ∈ scopes, s.id = id ∧ ScopeMatches compile isMatch tree s := by
  have hpending : id ∈ matchesContentAll compile isMatch walk scopes cwd ↔
      ∃ p ∈ pendingScopes compile scopes, p.id = id ∧
        ∃ relative, (relative, false) ∈ tree.paths ∧
          (∀ d, p.depth = some d → relative.length ≤ d) ∧ isMatch p.matcher relative = true := by
    rw [matchesContentAll]
    split
    · rename_i hempty
      simp [List.isEmpty_iff.mp hempty]
    · rw [mem_walkLoop, or_iff_right (Finset.notMem_empty id)]
      refine exists_congr fun p => and_congr_right fun hp => and_congr_right fun _ => ?_
      exact exists_hit_iff h fun n hn => le_of_maxDepth hp hn
  rw [hpending]
  constructor
  · rintro ⟨p, hp, hid, hmatch⟩
    obtain ⟨s, hs, m, hm, rfl⟩ := mem_pendingScopes.mp hp
    exact ⟨s, hs, hid, m, hm, hmatch⟩
  · rintro ⟨s, hs, hid, m, hm, hmatch⟩
    exact ⟨_, mem_pendingScopes.mpr ⟨s, hs, m, hm, rfl⟩, hid, hmatch⟩

theorem oneWalk_iff {walk : List String → Option Nat → List (Except ε DirEntry)}
    {cwd : List String} {tree : Tree} (h : Walks walk cwd tree) {s : ContentScope} :
    oneWalk compile isMatch walk cwd s = true ↔ ScopeMatches compile isMatch tree s := by
  rw [oneWalk, Option.any_eq_true]
  refine exists_congr fun m => and_congr_right fun _ => ?_
  have hhit : (∃ item ∈ walk cwd none,
      Hit isMatch cwd item (⟨s.id, m, s.contentMatch.depth⟩ : Pending G)) ↔
        ∃ relative, (relative, false) ∈ tree.paths ∧
          (∀ d, s.contentMatch.depth = some d → relative.length ≤ d) ∧ isMatch m relative = true :=
    exists_hit_iff h fun _ _ => rfl
  have hentry : ∀ e : DirEntry,
      (!e.isDir && s.contentMatch.depth.all (fun d => decide (e.depth ≤ d)) &&
          (stripPath cwd e.path).any (isMatch m)) = true ↔
        Hit isMatch cwd (.ok e : Except ε DirEntry) ⟨s.id, m, s.contentMatch.depth⟩ := by
    intro e
    simp only [Hit, hits_iff, Bool.and_eq_true, Bool.not_eq_true', Option.any_eq_true,
      Option.all_eq_true, decide_eq_true_iff, Except.ok.injEq, exists_eq_left']
    tauto
  rw [← hhit, List.any_eq_true]
  constructor
  · rintro ⟨e, he, hall⟩
    obtain ⟨item, hmem, hitem⟩ := List.mem_filterMap.mp he
    cases item with
    | error err => exact absurd hitem (by simp [Except.toOption])
    | ok e' => exact ⟨.ok e', hmem, (hentry e').mp (Option.some.inj hitem ▸ hall)⟩
  · rintro ⟨item, hmem, e, rfl, hrest⟩
    exact ⟨e, List.mem_filterMap.mpr ⟨.ok e, hmem, rfl⟩, (hentry e).mpr ⟨e, rfl, hrest⟩⟩

/-- One walk for all scopes finds what one walk per scope finds: the ids of the scopes with a
valid glob that some entry within their own limit matches. -/
theorem matchesContentAll_exact {walk : List String → Option Nat → List (Except ε DirEntry)}
    {cwd : List String} {tree : Tree} (h : Walks walk cwd tree) (scopes : List ContentScope) :
    (∀ id, id ∈ matchesContentAll compile isMatch walk scopes cwd ↔
      ∃ s ∈ scopes, s.id = id ∧ ScopeMatches compile isMatch tree s) ∧
    matchesContentAll compile isMatch walk scopes cwd =
      naive compile isMatch walk scopes cwd := by
  refine ⟨fun id => mem_matchesContentAll h, Finset.ext fun id => ?_⟩
  rw [mem_matchesContentAll h, naive, List.mem_toFinset, List.mem_map]
  refine exists_congr fun s => ?_
  rw [List.mem_filter, oneWalk_iff h]
  tauto

end Proofs

/-! A tree with a file at depth one and one at depth two, walked from the top. -/

def sampleTree : Tree := .dir [("a.rs", .leaf), ("sub", .dir [("b.md", .leaf)])]

def sampleWalk (cwd : List String) (limit : Option Nat) : List (Except Unit DirEntry) :=
  ((sampleTree.entries cwd).filter fun e => limit.all fun d => decide (e.depth ≤ d)).map .ok

/-- `*.rs` and `*.md`, without the rest of the glob syntax. -/
def sampleGlob (glob : String) : Option String :=
  if glob = "*.rs" then some ".rs" else if glob = "*.md" then some ".md" else none

def sampleScopes : List ContentScope :=
  [⟨"rust", ⟨"*.rs", some 2⟩⟩, ⟨"docs", ⟨"*.md", some 1⟩⟩, ⟨"broken", ⟨"[", none⟩⟩]

def sampleMatch (suffix : String) (relative : List String) : Bool :=
  suffix.toList.isSuffixOf (relative.getLastD "").toList

theorem walks_sample : Walks sampleWalk ["work"] sampleTree := by
  intro limit
  have hok : ∀ l : List DirEntry, (l.map (.ok : DirEntry → Except Unit DirEntry)).filterMap
      Except.toOption = l := by
    intro l
    induction l with
    | nil => rfl
    | cons e l ih => exact congrArg (e :: ·) ih
  rw [sampleWalk, hok]

/-- The limit of the scope counts, not that of the walk. -/
theorem matchesContentAll_exact_sample :
    ("rust" ∈ matchesContentAll sampleGlob sampleMatch sampleWalk sampleScopes ["work"] ↔
      ∃ s ∈ sampleScopes, s.id = "rust" ∧ ScopeMatches sampleGlob sampleMatch sampleTree s) ∧
    matchesContentAll sampleGlob sampleMatch sampleWalk sampleScopes ["work"] =
      naive sampleGlob sampleMatch sampleWalk sampleScopes ["work"] :=
  have h := @matchesContentAll_exact String Unit sampleGlob sampleMatch _ _ _ walks_sample
    sampleScopes
  ⟨h.1 "rust", h.2⟩

example : matchesContentAll sampleGlob sampleMatch sampleWalk sampleScopes ["work"] = {"rust"} := by
  decide


end Llmenv.Scope.ContentWalk
