/-
# `Llmenv.Materialize.Fold` — a transcript folder folded into the durable store

`src/materialize/inherit/fold.rs` with the calls of `paths/dirfd.rs` that it
makes.  The fold walks the source folder and moves what is newer than its
counterpart, removes what is older than a regular copy, and leaves the rest.

A call names one entry of an open folder, so it reads and changes that entry
only.  `Env` says which calls fail: each call is made at most once for a path,
so a call and a path say which one is meant.  The age of a folder is not read
after something in it has changed, so it stays as it is here.
-/
import Mathlib.Data.String.Basic
import Llmenv.Lib.Fields

namespace Llmenv.Materialize.Fold

open Llmenv.Lib

/-! ## Trees -/

structure Mtime where
  secs : Int
  nanos : Int
deriving DecidableEq

def Mtime.cmp (a b : Mtime) : Ordering :=
  (compare a.secs b.secs).then (compare a.nanos b.nanos)

/-- What a folder has under a name. -/
inductive Node where
  | file (content : List UInt8) (mtime : Mtime)
  | dir (mtime : Mtime) (entries : List (String × Node))
  | link (mtime : Mtime)
  /-- A socket, a pipe or a device. -/
  | special (mtime : Mtime)

def Node.mtime : Node → Mtime
  | .file _ mtime => mtime
  | .dir mtime _ => mtime
  | .link mtime => mtime
  | .special mtime => mtime

def Node.isDir : Node → Bool
  | .dir _ _ => true
  | _ => false

def Node.isLink : Node → Bool
  | .link _ => true
  | _ => false

def Node.isRegular : Node → Bool
  | .file _ _ => true
  | _ => false

mutual
/-- No folder has two entries of one name. -/
def Node.Named : Node → Prop
  | .dir _ entries => (entries.map Prod.fst).Nodup ∧ NamedAll entries
  | _ => True

def NamedAll : List (String × Node) → Prop
  | [] => True
  | (_, node) :: rest => node.Named ∧ NamedAll rest
end

structure Tree where
  root : Node
  named : root.Named

/-- A path below the root, the outermost name first. -/
abbrev Path := List String

/-- The entry at a path. -/
def entryAt : Option Node → Path → Option Node
  | node, [] => node
  | some (.dir _ entries), name :: rest => entryAt (Fields.get name entries) rest
  | _, _ :: _ => none

/-- The regular file at a path. -/
def regularAt (root : Option Node) (path : Path) : Option (List UInt8 × Mtime) :=
  match entryAt root path with
  | some (.file content mtime) => some (content, mtime)
  | _ => none

/-! ## The calls -/

/-- A call of the operating system. -/
inductive Call where
  | lstat
  | create
  | harden
  | restat
  | openSrc
  | openDst
  | makeDir
  | readDir
  | mtimeSrc
  | mtimeDst
  | isRegular
  | rename
  | openFile
  | unlinkDst
  | createDst
  | copy
  | removePartial
  | removeSrc
deriving DecidableEq

/-- How a call fails that had no reason to: across file systems, or otherwise. -/
inductive Fault where
  | xdev
  | io
deriving DecidableEq

structure Env where
  fault : Call → Path → Option Fault
  /-- The bytes that a failed copy has written. -/
  written : Path → Nat
  /-- The time of a copy. -/
  now : Path → Mtime

def Env.fails (env : Env) (call : Call) (path : Path) : Bool := (env.fault call path).isSome

/-- `stat_time`: a time before 1970 or with an odd nanosecond part has no value. -/
def statTime (mtime : Mtime) : Option Mtime :=
  if 0 ≤ mtime.secs ∧ 0 ≤ mtime.nanos ∧ mtime.nanos < 1000000000 then some mtime else none

/-- `mtime_at`, of an entry that may be missing. -/
def mtimeAt (failed : Bool) : Option Node → Except Unit (Option Mtime)
  | entry =>
      if failed then .error ()
      else
        match entry with
        | none => .ok none
        | some node =>
            match statTime node.mtime with
            | some time => .ok (some time)
            | none => .error ()

/-- `age_order_at`. -/
def ageOrderAt (env : Env) (path : Path) (src dst : Option Node) : Option Ordering :=
  match mtimeAt (env.fails .mtimeSrc path) src with
  | .ok (some time) =>
      match mtimeAt (env.fails .mtimeDst path) dst with
      | .ok (some time') => some (time.cmp time')
      | .ok none => some .gt
      | .error _ => some .gt
  | .ok none => none
  | .error _ => none

/-- `is_regular_file_at(..).unwrap_or(false)`. -/
def isRegularFileAt (env : Env) (path : Path) (entry : Option Node) : Bool :=
  !env.fails .isRegular path && entry.any Node.isRegular

/-- The context of an error, and the path it names. -/
inductive FoldError where
  | notRealDirectory
  | creating
  | reading (path : Path)
  | opening (path : Path)
  | readingEntry (path : Path)
  | removing (path : Path)
  | moving (path : Path)
  | copying (path : Path)
deriving DecidableEq

/-- What a step leaves under one name of the two folders. -/
structure Moved where
  src : Option Node
  dst : Option Node
  skipped : List Path
  err : Option FoldError

/-- `copy_file_at`: the destination after it, and whether it failed. -/
def copyFileAt (env : Env) (path : Path) (content : List UInt8) (dst : Option Node) :
    Option Node × Bool :=
  if env.fails .openFile path then (dst, true)
  -- Whatever is there is unlinked, and a folder cannot be.
  else if env.fails .unlinkDst path || dst.any Node.isDir then (dst, true)
  else if env.fails .createDst path then (none, true)
  else if env.fails .copy path then
    -- A partial copy is removed.
    (if env.fails .removePartial path then
      some (.file (content.take (env.written path)) (env.now path)) else none, true)
  else (some (.file content (env.now path)), false)

/-- `move_file_at`. -/
def moveFileAt (env : Env) (path : Path) (content : List UInt8) (mtime : Mtime)
    (dst : Option Node) : Moved :=
  let src := some (Node.file content mtime)
  match env.fault .rename path with
  | some .io => ⟨src, dst, [], some (.moving path)⟩
  | none =>
      -- A file does not replace a folder.
      if dst.any Node.isDir then ⟨src, dst, [], some (.moving path)⟩ else ⟨none, src, [], none⟩
  | some .xdev =>
      match copyFileAt env path content dst with
      | (dst, true) => ⟨src, dst, [], some (.copying path)⟩
      | (dst, false) => ⟨if env.fails .removeSrc path then src else none, dst, [], none⟩

/-- The step of the walk for a regular file. -/
def moveRegular (env : Env) (path : Path) (content : List UInt8) (mtime : Mtime)
    (dst : Option Node) : Moved :=
  let src := some (Node.file content mtime)
  match ageOrderAt env path src dst with
  | some .gt => moveFileAt env path content mtime dst
  | some .lt =>
      if isRegularFileAt env path dst then
        if env.fails .removeSrc path then ⟨src, dst, [], some (.removing path)⟩
        else ⟨none, dst, [], none⟩
      else ⟨src, dst, [path], none⟩
  | some .eq => ⟨src, dst, [path], none⟩
  | none => ⟨src, dst, [path], none⟩

/-- `open_or_create_dir_at`: the destination after it, and the folder when it could be opened. -/
def openOrCreateDirAt (env : Env) (path : Path) (time : Mtime) (dst : Option Node) :
    Option Node × Option (Mtime × List (String × Node)) :=
  if env.fails .makeDir path then (dst, none)
  else
    match dst with
    | none => (some (.dir time []), if env.fails .openDst path then none else some (time, []))
    | some (.dir mtime entries) =>
        (dst, if env.fails .openDst path then none else some (mtime, entries))
    | some _ => (dst, none)

/-- What the walk leaves of two folders. -/
structure MovedDir where
  src : List (String × Node)
  dst : List (String × Node)
  skipped : List Path
  err : Option FoldError

/-- The entry of a name, replaced or removed. -/
def setEntry (name : String) (entries : List (String × Node)) : Option Node → List (String × Node)
  | some node => Fields.insert name node entries
  | none => Fields.erase name entries

/-- The entries are read before the first step of the walk. -/
def afterRead (env : Env) (path : Path) (src dst : List (String × Node)) (walk : MovedDir) :
    MovedDir :=
  if env.fails .readDir path then ⟨src, dst, [], some (.readingEntry path)⟩ else walk

mutual
/-- One step of the walk of `move_dir_at`. -/
def moveEntry (env : Env) : Node → Path → Option Node → Moved
  | .dir mtime entries, path, dst =>
      if env.fails .openSrc path then ⟨some (.dir mtime entries), dst, [], some (.reading path)⟩
      else
        match openOrCreateDirAt env path (env.now path) dst with
        | (dst, none) => ⟨some (.dir mtime entries), dst, [], some (.opening path)⟩
        | (_, some (mtime', entries')) =>
            let walk := afterRead env path entries entries' (moveEntries env entries path entries')
            ⟨some (.dir mtime walk.src), some (.dir mtime' walk.dst), walk.skipped, walk.err⟩
  | .file content mtime, path, dst => moveRegular env path content mtime dst
  | .link mtime, path, dst => ⟨some (.link mtime), dst, [path], none⟩
  | .special mtime, path, dst => ⟨some (.special mtime), dst, [path], none⟩

/-- The walk over the entries of two open folders; an error ends it. -/
def moveEntries (env : Env) :
    List (String × Node) → Path → List (String × Node) → MovedDir
  | [], _, dst => ⟨[], dst, [], none⟩
  | (name, node) :: rest, path, dst =>
      let one := moveEntry env node (path ++ [name]) (Fields.get name dst)
      let left := one.src.toList.map fun node => (name, node)
      let dst := setEntry name dst one.dst
      match one.err with
      | some e => ⟨left ++ rest, dst, one.skipped, some e⟩
      | none =>
          let more := moveEntries env rest path dst
          ⟨left ++ more.src, more.dst, one.skipped ++ more.skipped, more.err⟩
end

/-- `move_dir_at`. -/
def moveDirAt (env : Env) (path : Path) (src dst : List (String × Node)) : MovedDir :=
  afterRead env path src dst (moveEntries env src path dst)

/-- The destination after `create_dir_owner_only`, and whether it failed. -/
def createDirOwnerOnly (env : Env) (dst : Option Node) : Option Node × Bool :=
  if env.fails .create [] then (dst, true)
  else
    match dst with
    | none => (some (.dir (env.now []) []), env.fails .harden [])
    | some (.dir _ _) => (dst, env.fails .harden [])
    | some _ => (dst, true)

/-- `move_dir_newest_wins`. -/
def moveDirNewestWins (env : Env) (src dst : Option Node) : Moved :=
  if !env.fails .lstat [] && dst.any Node.isLink then ⟨src, dst, [], some .notRealDirectory⟩
  else
    match createDirOwnerOnly env dst with
    | (dst, true) => ⟨src, dst, [], some .creating⟩
    | (dst, false) =>
        if env.fails .restat [] || !dst.any Node.isDir then
          ⟨src, dst, [], some .notRealDirectory⟩
        else
          match src, dst with
          | some (.dir mtime entries), some (.dir mtime' entries') =>
              if env.fails .openSrc [] then ⟨src, dst, [], some (.reading [])⟩
              else if env.fails .openDst [] then ⟨src, dst, [], some (.opening [])⟩
              else
                let walk := moveDirAt env [] entries entries'
                ⟨some (.dir mtime walk.src), some (.dir mtime' walk.dst), walk.skipped, walk.err⟩
          | _, _ => ⟨src, dst, [], some (.reading [])⟩

/-! ## What is kept -/

instance : Std.TransCmp Mtime.cmp :=
  inferInstanceAs (Std.TransCmp (compareLex (compareOn Mtime.secs) (compareOn Mtime.nanos)))

/-- The content of a regular file that is not older than its counterpart. -/
def Newest (src dst : Option Node) (path : Path) (content : List UInt8) : Prop :=
  (∃ mtime, regularAt src path = some (content, mtime) ∧
    ∀ content' mtime', regularAt dst path = some (content', mtime') → mtime'.cmp mtime ≠ .gt) ∨
  (∃ mtime, regularAt dst path = some (content, mtime) ∧
    ∀ content' mtime', regularAt src path = some (content', mtime') → mtime'.cmp mtime ≠ .gt)

/-- A regular file at the path has the content, in one of the two trees. -/
def Holds (src dst : Option Node) (path : Path) (content : List UInt8) : Prop :=
  (∃ mtime, regularAt src path = some (content, mtime)) ∨
    ∃ mtime, regularAt dst path = some (content, mtime)

/-- The age of an entry cannot be read: the call fails, or the time has no value. -/
def Unread (failed : Bool) (entry : Option Node) : Prop :=
  failed = true ∨ ∃ node, entry = some node ∧ statTime node.mtime = none

/-- The source file is newer than whatever is at its path. -/
def Ahead (dst : Option Node) (path : Path) (mtime : Mtime) : Prop :=
  ∀ node, entryAt dst path = some node → mtime.cmp node.mtime = .gt

/-- What a step does for the paths below `base`: the newest content is kept, or the age of the
copy is not read and the content of the source is kept; and if the step ends well, what is ahead
of its counterpart has arrived. -/
structure Kept (env : Env) (base : Path) (src dst src' dst' : Option Node) (ok : Prop) : Prop where
  newest : ∀ path content, Newest src dst path content →
    Holds src' dst' path content ∨
    (Unread (env.fails .mtimeDst (base ++ path)) (entryAt dst path) ∧
      ∃ kept mtime, regularAt src path = some (kept, mtime) ∧ Holds src' dst' path kept)
  arrives : ok → ∀ path content mtime, regularAt src path = some (content, mtime) →
    ¬ Unread (env.fails .mtimeSrc (base ++ path)) (entryAt src path) → Ahead dst path mtime →
    ∃ mtime', regularAt dst' path = some (content, mtime')

section Kept

variable {env : Env} {base : Path} {src dst src' dst' : Option Node} {ok ok' : Prop}

theorem holds_of_newest {path : Path} {content : List UInt8} (h : Newest src dst path content) :
    Holds src dst path content := by
  rcases h with ⟨mtime, h, -⟩ | ⟨mtime, h, -⟩
  · exact Or.inl ⟨mtime, h⟩
  · exact Or.inr ⟨mtime, h⟩

theorem Kept.mono (h : Kept env base src dst src' dst' ok) (himp : ok' → ok) :
    Kept env base src dst src' dst' ok' :=
  ⟨h.newest, fun hok => h.arrives (himp hok)⟩

/-- A step that fails before it has changed anything. -/
theorem kept_of_unchanged (hok : ¬ ok) : Kept env base src dst src dst ok :=
  ⟨fun _ _ h => Or.inl (holds_of_newest h), fun h => absurd h hok⟩

theorem entryAt_none (path : Path) : entryAt none path = none := by
  cases path with
  | nil => rfl
  | cons name rest => rfl

theorem regularAt_none (path : Path) : regularAt none path = none := by
  rw [regularAt, entryAt_none]

/-- A step that leaves both sides as they are, without a regular file at the source. -/
theorem kept_of_no_regular (hsrc : ∀ path, regularAt src path = none) :
    Kept env base src dst src dst ok := by
  refine ⟨fun _ _ h => Or.inl (holds_of_newest h), ?_⟩
  intro _ path content mtime h
  rw [hsrc] at h
  exact absurd h (by simp)

/-- A source that is not a folder has nothing below it. -/
theorem regularAt_cons {node : Node} (h : node.isDir = false) (name : String) (rest : Path) :
    regularAt (some node) (name :: rest) = none := by
  cases node with
  | dir mtime entries => exact absurd h (by simp [Node.isDir])
  | _ => rfl

theorem regularAt_file_cons (content : List UInt8) (mtime : Mtime) (name : String) (rest : Path) :
    regularAt (some (.file content mtime)) (name :: rest) = none := rfl

end Kept

/-! ### A regular file -/

section Regular

variable {env : Env} {base : Path} {content : List UInt8} {mtime : Mtime} {dst : Option Node}

/-- Either nothing has changed and there is an error, or no folder was in the way, one side has
the content, and without an error the destination has it. -/
theorem moveFileAt_cases (env : Env) (path : Path) (content : List UInt8) (mtime : Mtime)
    (dst : Option Node) :
    ((moveFileAt env path content mtime dst).src = some (.file content mtime) ∧
      (moveFileAt env path content mtime dst).dst = dst ∧
      (moveFileAt env path content mtime dst).err ≠ none) ∨
    (dst.any Node.isDir = false ∧
      ((moveFileAt env path content mtime dst).src = some (.file content mtime) ∨
        ∃ time, (moveFileAt env path content mtime dst).dst = some (.file content time)) ∧
      ((moveFileAt env path content mtime dst).err = none →
        ∃ time, (moveFileAt env path content mtime dst).dst = some (.file content time))) := by
  rw [moveFileAt]
  cases env.fault .rename path with
  | none =>
      by_cases hdir : dst.any Node.isDir = true
      · left
        simp [hdir]
      · right
        simp [hdir]
  | some fault =>
      cases fault with
      | io =>
          left
          simp
      | xdev =>
          simp only [copyFileAt]
          by_cases hopen : env.fails .openFile path = true
          · left
            simp [hopen]
          · by_cases hunlink : (env.fails .unlinkDst path || dst.any Node.isDir) = true
            · left
              simp [hopen, hunlink]
            · -- The older file at the destination is gone, and the source is still there.
              obtain ⟨-, hdir⟩ := Bool.or_eq_false_iff.mp (Bool.eq_false_of_not_eq_true hunlink)
              right
              refine ⟨hdir, ?_⟩
              by_cases hcreate : env.fails .createDst path = true
              · simp [hopen, hunlink, hcreate]
              · by_cases hcopy : env.fails .copy path = true
                · simp [hopen, hunlink, hcreate, hcopy]
                · simp [hopen, hunlink, hcreate, hcopy]

theorem regularAt_nil_of_any {content' : List UInt8} {mtime' : Mtime}
    (h : regularAt dst [] = some (content', mtime')) : dst = some (.file content' mtime') := by
  cases dst with
  | none => exact absurd h (by simp [regularAt, entryAt])
  | some node =>
      cases node with
      | file c m =>
          obtain ⟨rfl, rfl⟩ := Prod.mk.inj (Option.some.inj h)
          rfl
      | _ => exact absurd h (by simp [regularAt, entryAt])

/-- For a regular file at the source, what is below its path is the destination's alone. -/
theorem kept_regular {src' dst' : Option Node} {ok : Prop}
    (hnewest : ∀ c, Newest (some (.file content mtime)) dst [] c →
      Holds src' dst' [] c ∨
        (Unread (env.fails .mtimeDst base) dst ∧ Holds src' dst' [] content))
    (harrives : ok → ¬ Unread (env.fails .mtimeSrc base) (some (.file content mtime)) →
      Ahead dst [] mtime → ∃ time, regularAt dst' [] = some (content, time))
    (hbelow : dst' = dst ∨ dst.any Node.isDir = false) :
    Kept env base (some (.file content mtime)) dst src' dst' ok := by
  refine ⟨?_, ?_⟩
  · intro path c h
    cases path with
    | nil =>
        rw [List.append_nil]
        rcases hnewest c h with h | ⟨hunread, h⟩
        · exact Or.inl h
        · exact Or.inr ⟨hunread, content, mtime, rfl, h⟩
    | cons name rest =>
        left
        rcases holds_of_newest h with ⟨time, h⟩ | ⟨time, h⟩
        · exact absurd h (by simp [regularAt_file_cons])
        · rcases hbelow with rfl | hdir
          · exact Or.inr ⟨time, h⟩
          · cases dst with
            | none => exact absurd h (by simp [regularAt_none])
            | some node => exact absurd h (by simp [regularAt_cons (by simpa using hdir)])
  · intro hok path c time h hread hahead
    cases path with
    | nil =>
        obtain ⟨rfl, rfl⟩ := Prod.mk.inj (Option.some.inj h)
        rw [List.append_nil] at hread
        exact harrives hok hread hahead
    | cons name rest => exact absurd h (by simp [regularAt_file_cons])

theorem statTime_some {m time : Mtime} (h : statTime m = some time) : time = m := by
  rw [statTime] at h
  split at h
  · exact (Option.some.inj h).symm
  · exact absurd h (by simp)

theorem mtimeAt_ok {failed : Bool} {entry : Option Node} {time : Option Mtime}
    (h : mtimeAt failed entry = .ok time) : time = entry.map Node.mtime := by
  cases entry with
  | none =>
      cases failed with
      | true => exact absurd h (by simp [mtimeAt])
      | false => exact (Except.ok.inj h).symm
  | some node =>
      simp only [mtimeAt] at h
      split at h
      · exact absurd h (by simp)
      · split at h
        · rename_i t ht
          rw [← Except.ok.inj h, statTime_some ht]
          rfl
        · exact absurd h (by simp)

theorem mtimeAt_error {failed : Bool} {entry : Option Node}
    (h : mtimeAt failed entry = .error ()) : Unread failed entry := by
  simp only [mtimeAt] at h
  split at h
  · rename_i hfailed
    exact Or.inl hfailed
  · split at h
    · exact absurd h (by simp)
    · rename_i node
      split at h
      · exact absurd h (by simp)
      · rename_i htime
        exact Or.inr ⟨node, rfl, htime⟩

/-- What `age_order_at` has read: of the copy nothing, or its time. -/
theorem ageOrderAt_some {path : Path} {order : Ordering}
    (h : ageOrderAt env path (some (.file content mtime)) dst = some order) :
    (order = .gt ∧ Unread (env.fails .mtimeDst path) dst) ∨
      (order = .gt ∧ dst = none) ∨ ∃ node, dst = some node ∧ order = mtime.cmp node.mtime := by
  simp only [ageOrderAt] at h
  split at h
  · rename_i time hsrc
    obtain rfl : time = mtime := Option.some.inj (mtimeAt_ok hsrc)
    split at h
    · rename_i time' hdst
      obtain ⟨node, rfl, rfl⟩ := Option.map_eq_some_iff.mp (mtimeAt_ok hdst).symm
      exact Or.inr (Or.inr ⟨node, rfl, (Option.some.inj h).symm⟩)
    · rename_i hdst
      exact Or.inr (Or.inl ⟨(Option.some.inj h).symm, by simpa using mtimeAt_ok hdst⟩)
    · rename_i hdst
      exact Or.inl ⟨(Option.some.inj h).symm, mtimeAt_error hdst⟩
  · exact absurd h (by simp)
  · exact absurd h (by simp)

theorem ageOrderAt_none {path : Path}
    (h : ageOrderAt env path (some (.file content mtime)) dst = none) :
    Unread (env.fails .mtimeSrc path) (some (.file content mtime)) := by
  simp only [ageOrderAt] at h
  split at h
  · split at h
    · exact absurd h (by simp)
    · exact absurd h (by simp)
    · exact absurd h (by simp)
  · rename_i hsrc
    exact absurd (mtimeAt_ok hsrc) (by simp)
  · rename_i hsrc
    exact mtimeAt_error hsrc

/-- A file that stays beside its counterpart, which it is not ahead of. -/
theorem kept_of_stays {ok : Prop}
    (h : ¬ Unread (env.fails .mtimeSrc base) (some (.file content mtime)) → ¬ Ahead dst [] mtime) :
    Kept env base (some (.file content mtime)) dst (some (.file content mtime)) dst ok :=
  kept_regular (fun _ hc => Or.inl (holds_of_newest hc))
    (fun _ hread hahead => absurd hahead (h hread)) (Or.inl rfl)

theorem kept_moveFileAt
    (horder : ageOrderAt env base (some (.file content mtime)) dst = some .gt) :
    Kept env base (some (.file content mtime)) dst (moveFileAt env base content mtime dst).src
      (moveFileAt env base content mtime dst).dst
      ((moveFileAt env base content mtime dst).err = none) := by
  rcases moveFileAt_cases env base content mtime dst with ⟨hsrc, hdst, herr⟩ | ⟨hdir, hside, hok⟩
  · rw [hsrc, hdst]
    exact kept_of_unchanged herr
  · have hholds : Holds (moveFileAt env base content mtime dst).src
        (moveFileAt env base content mtime dst).dst [] content := by
      rcases hside with h | ⟨time, h⟩
      · exact Or.inl ⟨mtime, by rw [h]; rfl⟩
      · exact Or.inr ⟨time, by rw [h]; rfl⟩
    refine kept_regular ?_ ?_ (Or.inr hdir)
    · rintro c (⟨time, h, -⟩ | ⟨time, h, hnot⟩)
      · obtain ⟨rfl, -⟩ := Prod.mk.inj (Option.some.inj h)
        exact Or.inl hholds
      · -- The copy is not older, so its age has not been read.
        obtain rfl := regularAt_nil_of_any h
        rcases ageOrderAt_some horder with ⟨-, hunread⟩ | ⟨-, hnone⟩ | ⟨node, hnode, hcmp⟩
        · exact Or.inr ⟨hunread, hholds⟩
        · exact absurd hnone (by simp)
        · obtain rfl := Option.some.inj hnode
          exact absurd hcmp.symm (hnot content mtime rfl)
    · intro herr _ _
      obtain ⟨time, h⟩ := hok herr
      exact ⟨time, by rw [h]; rfl⟩

/-- A time that was read and is not greater is not ahead. -/
theorem not_ahead_of_order {order : Ordering} (hgt : order ≠ .gt)
    (horder : ageOrderAt env base (some (.file content mtime)) dst = some order) :
    ∃ node, dst = some node ∧ order = mtime.cmp node.mtime := by
  rcases ageOrderAt_some horder with ⟨heq, -⟩ | ⟨heq, -⟩ | h
  · exact absurd heq hgt
  · exact absurd heq hgt
  · exact h

theorem kept_moveRegular (env : Env) (base : Path) (content : List UInt8) (mtime : Mtime)
    (dst : Option Node) :
    Kept env base (some (.file content mtime)) dst (moveRegular env base content mtime dst).src
      (moveRegular env base content mtime dst).dst
      ((moveRegular env base content mtime dst).err = none) := by
  rw [moveRegular]
  cases horder : ageOrderAt env base (some (.file content mtime)) dst with
  | none => exact kept_of_stays fun hread => absurd (ageOrderAt_none horder) hread
  | some order =>
      cases order with
      | gt => exact kept_moveFileAt horder
      | eq =>
          obtain ⟨node, rfl, hcmp⟩ := not_ahead_of_order (by decide) horder
          exact kept_of_stays fun _ hahead => absurd (hcmp.trans (hahead node rfl)) (by decide)
      | lt =>
          obtain ⟨node, rfl, hcmp⟩ := not_ahead_of_order (by decide) horder
          have hnot : ¬ Ahead (some node) [] mtime :=
            fun hahead => absurd (hcmp.trans (hahead node rfl)) (by decide)
          simp only
          split
          · rename_i hregular
            split
            · exact kept_of_unchanged (by simp)
            · -- The copy is a regular file and newer.
              refine kept_regular ?_ (fun _ _ hahead => absurd hahead hnot) (Or.inl rfl)
              rintro c (⟨time, h, hle⟩ | ⟨time, h, -⟩)
              · obtain ⟨rfl, rfl⟩ := Prod.mk.inj (Option.some.inj h)
                obtain ⟨c', m', rfl⟩ : ∃ c' m', node = .file c' m' := by
                  cases node with
                  | file c' m' => exact ⟨c', m', rfl⟩
                  | _ => exact absurd hregular (by simp [isRegularFileAt, Node.isRegular])
                exact absurd (Std.OrientedCmp.gt_iff_lt.mpr hcmp.symm) (hle c' m' rfl)
              · exact Or.inl (Or.inr ⟨time, h⟩)
          · exact kept_of_stays fun _ => hnot

end Regular

/-! ### A folder -/

/-- Induction over the entries of a folder. -/
theorem Node.induct {P : Node → Prop} (file : ∀ c m, P (.file c m))
    (dir : ∀ m entries, (∀ e ∈ entries, P e.2) → P (.dir m entries)) (link : ∀ m, P (.link m))
    (special : ∀ m, P (.special m)) (node : Node) : P node :=
  @Node.rec P (fun l => ∀ e ∈ l, P e.2) (fun e => P e.2) file dir link special (by simp)
    (fun _ _ h t => List.forall_mem_cons.mpr ⟨h, t⟩) (fun _ _ h => h) node

theorem named_of_mem {entries : List (String × Node)} (h : NamedAll entries) :
    ∀ e ∈ entries, e.2.Named := by
  induction entries with
  | nil => exact fun _ he => absurd he List.not_mem_nil
  | cons e entries ih =>
      obtain ⟨name, node⟩ := e
      rw [NamedAll] at h
      exact List.forall_mem_cons.mpr ⟨h.1, ih h.2⟩

section Folder

variable {env : Env} {base : Path}

theorem get_setEntry (name k : String) (entries : List (String × Node)) (node : Option Node) :
    Fields.get k (setEntry name entries node) =
      if name = k then node else Fields.get k entries := by
  cases node with
  | none => exact Fields.get_erase name k entries
  | some node => exact Fields.get_insert name k node entries

theorem moveEntries_cons (name : String) (node : Node) (rest : List (String × Node)) (path : Path)
    (dst : List (String × Node)) :
    moveEntries env ((name, node) :: rest) path dst =
      let one := moveEntry env node (path ++ [name]) (Fields.get name dst)
      let left := one.src.toList.map fun node => (name, node)
      let dst := setEntry name dst one.dst
      match one.err with
      | some e => ⟨left ++ rest, dst, one.skipped, some e⟩
      | none =>
          let more := moveEntries env rest path dst
          ⟨left ++ more.src, more.dst, one.skipped ++ more.skipped, more.err⟩ := by
  rw [moveEntries]

/-- What stays of an entry stands in front of what stays of the rest. -/
theorem get_leftover (name k : String) (left : Option Node) (l : List (String × Node)) :
    Fields.get k (left.toList.map (fun node => (name, node)) ++ l) =
      if name = k then left.or (Fields.get k l) else Fields.get k l := by
  cases left with
  | none =>
      rw [Option.none_or, ite_self]
      rfl
  | some node => exact Fields.get_cons k name node l

/-- The walk leaves alone what the source has no entry for. -/
theorem moveEntries_frame {entries : List (String × Node)} {k : String} :
    ∀ (path : Path) (dst : List (String × Node)), k ∉ entries.map Prod.fst →
      Fields.get k (moveEntries env entries path dst).src = none ∧
        Fields.get k (moveEntries env entries path dst).dst = Fields.get k dst := by
  induction entries with
  | nil => exact fun _ _ _ => ⟨rfl, rfl⟩
  | cons e rest ih =>
      obtain ⟨name, node⟩ := e
      intro path dst hk
      obtain ⟨hname, hrest⟩ := not_or.mp (fun h => hk (List.mem_cons.mpr h))
      have hleft : ∀ (left : Option Node) (l : List (String × Node)), Fields.get k l = none →
          Fields.get k (left.toList.map (fun node => (name, node)) ++ l) = none := by
        intro left l hl
        rw [get_leftover, if_neg (Ne.symm hname), hl]
      rw [moveEntries_cons]
      generalize moveEntry env node (path ++ [name]) (Fields.get name dst) = one
      obtain ⟨src', dst', skipped, err⟩ := one
      have hset : Fields.get k (setEntry name dst dst') = Fields.get k dst :=
        (get_setEntry _ _ _ _).trans (if_neg (Ne.symm hname))
      cases err with
      | some e =>
          have hnone : Fields.get k rest = none :=
            Fields.get_eq_none.mpr fun e he heq => hrest (List.mem_map.mpr ⟨e, he, heq⟩)
          exact ⟨hleft _ _ hnone, hset⟩
      | none =>
          obtain ⟨hsrc, hdst⟩ := ih path (setEntry name dst dst') hrest
          exact ⟨hleft _ _ hsrc, hdst.trans hset⟩

/-- What holds of each entry holds of each name of the folder. -/
theorem kept_moveEntries {entries : List (String × Node)}
    (hentry : ∀ e ∈ entries, ∀ path dst, Kept env path (some e.2) dst
      (moveEntry env e.2 path dst).src (moveEntry env e.2 path dst).dst
      ((moveEntry env e.2 path dst).err = none))
    (hnames : (entries.map Prod.fst).Nodup) (path : Path) (k : String) :
    ∀ dst : List (String × Node),
      Kept env (path ++ [k]) (Fields.get k entries) (Fields.get k dst)
        (Fields.get k (moveEntries env entries path dst).src)
        (Fields.get k (moveEntries env entries path dst).dst)
        ((moveEntries env entries path dst).err = none) := by
  induction entries with
  | nil => exact fun dst => kept_of_no_regular regularAt_none
  | cons e rest ih =>
      obtain ⟨name, node⟩ := e
      intro dst
      obtain ⟨hname, hrest⟩ := List.nodup_cons.mp hnames
      obtain ⟨hone, hmore⟩ := List.forall_mem_cons.mp hentry
      have hone := hone (path ++ [name]) (Fields.get name dst)
      rw [moveEntries_cons]
      generalize moveEntry env node (path ++ [name]) (Fields.get name dst) = one at hone ⊢
      obtain ⟨src', dst', skipped, err⟩ := one
      have hset := get_setEntry name k dst dst'
      by_cases hk : name = k
      · subst hk
        rw [if_pos rfl] at hset
        rw [Fields.get_cons, if_pos rfl]
        -- The rest of the walk leaves this name alone.
        have hget : ∀ l : List (String × Node), Fields.get name l = none →
            Fields.get name (src'.toList.map (fun node => (name, node)) ++ l) = src' := by
          intro l hl
          rw [get_leftover, if_pos rfl, hl, Option.or_none]
        cases err with
        | some e =>
            have hnone : Fields.get name rest = none :=
              Fields.get_eq_none.mpr fun e he heq => hname (List.mem_map.mpr ⟨e, he, heq⟩)
            simp only [hget _ hnone, hset]
            exact hone.mono (by simp)
        | none =>
            have hrest : Fields.get name (moveEntries env rest path (setEntry name dst dst')).src
                  = none ∧
                Fields.get name (moveEntries env rest path (setEntry name dst dst')).dst
                  = Fields.get name (setEntry name dst dst') :=
              moveEntries_frame path _ hname
            simp only [hget _ hrest.1, hrest.2, hset]
            exact hone.mono fun _ => rfl
      · rw [if_neg hk] at hset
        rw [Fields.get_cons, if_neg hk]
        have hget : ∀ l : List (String × Node),
            Fields.get k (src'.toList.map (fun node => (name, node)) ++ l) = Fields.get k l := by
          intro l
          rw [get_leftover, if_neg hk]
        cases err with
        | some e =>
            simp only [hget, hset]
            exact kept_of_unchanged (by simp)
        | none =>
            have hih := ih hmore hrest (setEntry name dst dst')
            rw [hset] at hih
            simp only [hget]
            exact hih

/-- The destination folder of a step: one that is there, or one that the step has made. -/
def Opened (dst : Option Node) (entries : List (String × Node)) : Prop :=
  (dst = none ∧ entries = []) ∨ ∃ mtime, dst = some (.dir mtime entries)

theorem Opened.entryAt {dst : Option Node} {entries : List (String × Node)}
    (h : Opened dst entries) (name : String) (rest : Path) :
    Fold.entryAt dst (name :: rest) = Fold.entryAt (Fields.get name entries) rest := by
  rcases h with ⟨rfl, rfl⟩ | ⟨mtime, rfl⟩
  · exact (entryAt_none rest).symm
  · rfl

theorem Opened.regularAt {dst : Option Node} {entries : List (String × Node)}
    (h : Opened dst entries) (name : String) (rest : Path) :
    Fold.regularAt dst (name :: rest) = Fold.regularAt (Fields.get name entries) rest := by
  rw [Fold.regularAt, Fold.regularAt, h.entryAt]

theorem Opened.regularAt_nil {dst : Option Node} {entries : List (String × Node)}
    (h : Opened dst entries) : Fold.regularAt dst [] = none := by
  rcases h with ⟨rfl, -⟩ | ⟨mtime, rfl⟩
  · rfl
  · rfl

theorem kept_folder {dst : Option Node} {src src' entries entries' : List (String × Node)}
    {ok : Prop} (hdst : Opened dst entries) (mtime mtime' : Mtime)
    (h : ∀ name, Kept env (base ++ [name]) (Fields.get name src) (Fields.get name entries)
      (Fields.get name src') (Fields.get name entries') ok) :
    Kept env base (some (.dir mtime src)) dst (some (.dir mtime src'))
      (some (.dir mtime' entries')) ok := by
  have hbase : ∀ (name : String) (rest : Path), base ++ name :: rest = base ++ [name] ++ rest :=
    fun name rest => by simp
  refine ⟨?_, ?_⟩
  · intro path content hnewest
    cases path with
    | nil =>
        rcases holds_of_newest hnewest with ⟨time, hfile⟩ | ⟨time, hfile⟩
        · exact absurd hfile (by simp [regularAt, entryAt])
        · exact absurd hfile (by simp [hdst.regularAt_nil])
    | cons name rest =>
        have hnewest' : Newest (Fields.get name src) (Fields.get name entries) rest content := by
          rw [Newest, hdst.regularAt] at hnewest
          exact hnewest
        rw [hbase, hdst.entryAt]
        exact (h name).newest rest content hnewest'
  · intro hok path content time hfile hread hahead
    cases path with
    | nil => exact absurd hfile (by simp [regularAt, entryAt])
    | cons name rest =>
        rw [hbase] at hread
        rw [Ahead, hdst.entryAt] at hahead
        exact (h name).arrives hok rest content time hfile hread hahead

theorem openOrCreateDirAt_some {path : Path} {time : Mtime} {dst dst' : Option Node}
    {mtime : Mtime} {entries : List (String × Node)}
    (h : openOrCreateDirAt env path time dst = (dst', some (mtime, entries))) :
    Opened dst entries := by
  simp only [openOrCreateDirAt] at h
  split at h
  · exact absurd (congrArg Prod.snd h) (by simp)
  · split at h
    · have h := congrArg Prod.snd h
      simp only at h
      split at h
      · exact absurd h (by simp)
      · obtain ⟨-, rfl⟩ := Prod.mk.inj (Option.some.inj h)
        exact Or.inl ⟨rfl, rfl⟩
    · have h := congrArg Prod.snd h
      simp only at h
      split at h
      · exact absurd h (by simp)
      · obtain ⟨-, rfl⟩ := Prod.mk.inj (Option.some.inj h)
        exact Or.inr ⟨_, rfl⟩
    · exact absurd (congrArg Prod.snd h) (by simp)

/-- A folder that was made and could not be opened has nothing in it. -/
theorem openOrCreateDirAt_none {path : Path} {time : Mtime} {dst dst' : Option Node}
    (h : openOrCreateDirAt env path time dst = (dst', none)) :
    dst' = dst ∨ (dst = none ∧ dst' = some (.dir time [])) := by
  simp only [openOrCreateDirAt] at h
  split at h
  · exact Or.inl (congrArg Prod.fst h).symm
  · split at h
    · exact Or.inr ⟨rfl, (congrArg Prod.fst h).symm⟩
    · exact Or.inl (congrArg Prod.fst h).symm
    · exact Or.inl (congrArg Prod.fst h).symm

/-- The walk of two open folders, whether or not the entries could be read. -/
theorem kept_moveDirAt {entries : List (String × Node)}
    (hentry : ∀ e ∈ entries, ∀ path dst, Kept env path (some e.2) dst
      (moveEntry env e.2 path dst).src (moveEntry env e.2 path dst).dst
      ((moveEntry env e.2 path dst).err = none))
    (hnames : (entries.map Prod.fst).Nodup) (path : Path) (dst : List (String × Node)) (k : String) :
    Kept env (path ++ [k]) (Fields.get k entries) (Fields.get k dst)
      (Fields.get k (moveDirAt env path entries dst).src)
      (Fields.get k (moveDirAt env path entries dst).dst)
      ((moveDirAt env path entries dst).err = none) := by
  rw [moveDirAt, afterRead]
  split
  · exact kept_of_unchanged (by simp)
  · exact kept_moveEntries hentry hnames path k dst

theorem kept_moveEntry (env : Env) (node : Node) (hnamed : node.Named) :
    ∀ path dst, Kept env path (some node) dst (moveEntry env node path dst).src
      (moveEntry env node path dst).dst ((moveEntry env node path dst).err = none) := by
  induction node using Node.induct with
  | file content mtime =>
      intro path dst
      rw [moveEntry]
      exact kept_moveRegular env path content mtime dst
  | dir mtime entries ih =>
      intro path dst
      rw [Node.Named] at hnamed
      have hentry := fun e he => ih e he (named_of_mem hnamed.2 e he)
      rw [moveEntry]
      split
      · exact kept_of_unchanged (by simp)
      · split
        · rename_i dst' hopen
          rcases openOrCreateDirAt_none hopen with rfl | ⟨rfl, rfl⟩
          · exact kept_of_unchanged (by simp)
          · exact kept_folder (Or.inl ⟨rfl, rfl⟩) mtime _ fun name => kept_of_unchanged (by simp)
        · rename_i mtime' entries' hopen
          exact kept_folder (openOrCreateDirAt_some hopen) mtime mtime'
            (kept_moveDirAt hentry hnamed.1 path entries')
  | link mtime =>
      intro path dst
      refine kept_of_no_regular fun path => ?_
      cases path with
      | nil => rfl
      | cons name rest => exact regularAt_cons rfl name rest
  | special mtime =>
      intro path dst
      refine kept_of_no_regular fun path => ?_
      cases path with
      | nil => rfl
      | cons name rest => exact regularAt_cons rfl name rest

end Folder

/-! ## The whole fold -/

theorem createDirOwnerOnly_cases (env : Env) (dst : Option Node) :
    (createDirOwnerOnly env dst).1 = dst ∨
      (dst = none ∧ (createDirOwnerOnly env dst).1 = some (.dir (env.now []) [])) := by
  simp only [createDirOwnerOnly]
  split
  · exact Or.inl rfl
  · split
    · exact Or.inr ⟨rfl, rfl⟩
    · exact Or.inl rfl
    · exact Or.inl rfl

/-- A destination that was made is empty. -/
theorem kept_of_created {env : Env} {src dst dst' : Option Node} {ok : Prop} (hok : ¬ ok)
    (hdst : dst' = dst ∨ (dst = none ∧ dst' = some (.dir (env.now []) []))) :
    Kept env [] src dst src dst' ok := by
  rcases hdst with rfl | ⟨rfl, rfl⟩
  · exact kept_of_unchanged hok
  · refine ⟨?_, fun h => absurd h hok⟩
    intro path content h
    rcases holds_of_newest h with h | ⟨mtime, h⟩
    · exact Or.inl (Or.inl h)
    · exact absurd h (by simp [regularAt_none])

theorem kept_moveDirNewestWins (env : Env) {src : Node} (hnamed : src.Named) (dst : Option Node) :
    Kept env [] (some src) dst (moveDirNewestWins env (some src) dst).src
      (moveDirNewestWins env (some src) dst).dst
      ((moveDirNewestWins env (some src) dst).err = none) := by
  have hcreated := createDirOwnerOnly_cases env dst
  simp only [moveDirNewestWins]
  split
  · exact kept_of_unchanged (by simp)
  · split
    · rename_i dst' hcreate
      rw [hcreate] at hcreated
      exact kept_of_created (by simp) hcreated
    · rename_i dst' hcreate
      have hdst' : dst' = dst ∨ (dst = none ∧ dst' = some (.dir (env.now []) [])) := by
        rwa [hcreate] at hcreated
      split
      · exact kept_of_created (by simp) hdst'
      · split
        · rename_i mtime entries mtime' entries' hsrc hdir
          obtain rfl := Option.some.inj hsrc
          split
          · exact kept_of_created (by simp) hdst'
          · split
            · exact kept_of_created (by simp) hdst'
            · have hopened : Opened dst entries' := by
                rcases hdst' with rfl | ⟨rfl, heq⟩
                · exact Or.inr ⟨mtime', rfl⟩
                · exact Or.inl ⟨rfl, (Node.dir.inj (Option.some.inj heq)).2⟩
              rw [Node.Named] at hnamed
              exact kept_folder hopened mtime mtime' (kept_moveDirAt
                (fun e he => kept_moveEntry env e.2 (named_of_mem hnamed.2 e he))
                hnamed.1 [] entries')
        · exact kept_of_created (by simp) hdst'

/-- After every fold, ended well or not, the newest content of each path is at that path of the
source or of the destination, unless it is a copy whose age could not be read: then the content of
the source is.  After a fold that ended well the destination has every source file whose age could
be read and that was newer than what was at its path. -/
theorem fold_keeps (env : Env) (src : Tree) (dst : Option Node) :
    (∀ path content, Newest (some src.root) dst path content →
      Holds (moveDirNewestWins env (some src.root) dst).src
        (moveDirNewestWins env (some src.root) dst).dst path content ∨
      (Unread (env.fails .mtimeDst path) (entryAt dst path) ∧
        ∃ kept mtime, regularAt (some src.root) path = some (kept, mtime) ∧
          Holds (moveDirNewestWins env (some src.root) dst).src
            (moveDirNewestWins env (some src.root) dst).dst path kept)) ∧
    ((moveDirNewestWins env (some src.root) dst).err = none →
      ∀ path content mtime, regularAt (some src.root) path = some (content, mtime) →
        ¬ Unread (env.fails .mtimeSrc path) (entryAt (some src.root) path) →
        Ahead dst path mtime →
        ∃ mtime', regularAt (moveDirNewestWins env (some src.root) dst).dst path =
          some (content, mtime')) := by
  have hkept := kept_moveDirNewestWins env src.named dst
  exact ⟨hkept.newest, hkept.arrives⟩

/-- These calls fail and no others. -/
def failing (calls : List (Call × Path)) : Env where
  fault := fun call path => if (call, path) ∈ calls then some .io else none
  written := fun _ => 0
  now := fun _ => ⟨30, 0⟩

/-- A folder with one file. -/
def oneFile (content : List UInt8) (secs : Int) : Node :=
  .dir ⟨0, 0⟩ [("a", .file content ⟨secs, 0⟩)]

/-- The newer copy is replaced when its age cannot be read, and a file from before 1970 stays where
it is when nothing fails and the destination has no such file. -/
theorem fold_loses_unread :
    (Newest (some (oneFile [1] 10)) (some (oneFile [2] 20)) ["a"] [2] ∧
      ¬ Holds (moveDirNewestWins (failing [(.mtimeDst, ["a"])]) (some (oneFile [1] 10))
          (some (oneFile [2] 20))).src
        (moveDirNewestWins (failing [(.mtimeDst, ["a"])]) (some (oneFile [1] 10))
          (some (oneFile [2] 20))).dst ["a"] [2]) ∧
    (moveDirNewestWins (failing []) (some (oneFile [1] (-1))) none).err = none ∧
      regularAt (some (oneFile [1] (-1))) ["a"] = some ([1], ⟨-1, 0⟩) ∧
      Ahead none ["a"] ⟨-1, 0⟩ ∧
      regularAt (moveDirNewestWins (failing []) (some (oneFile [1] (-1))) none).dst ["a"] =
        none := by
  have hsrc : regularAt (moveDirNewestWins (failing [(.mtimeDst, ["a"])]) (some (oneFile [1] 10))
      (some (oneFile [2] 20))).src ["a"] = none := by decide +kernel
  have hdst : regularAt (moveDirNewestWins (failing [(.mtimeDst, ["a"])]) (some (oneFile [1] 10))
      (some (oneFile [2] 20))).dst ["a"] = some ([1], ⟨10, 0⟩) := by decide +kernel
  refine ⟨⟨Or.inr ⟨⟨20, 0⟩, by decide +kernel, ?_⟩, ?_⟩, by decide +kernel, by decide +kernel, ?_,
    by decide +kernel⟩
  · intro content mtime h
    have hfile : regularAt (some (oneFile [1] 10)) ["a"] = some ([1], ⟨10, 0⟩) := by
      decide +kernel
    obtain ⟨-, rfl⟩ := Prod.mk.inj (Option.some.inj (hfile.symm.trans h))
    decide
  · rintro (⟨time, h⟩ | ⟨time, h⟩)
    · exact absurd (hsrc.symm.trans h) (by simp)
    · exact absurd (hdst.symm.trans h) (by simp)
  · intro node h
    exact absurd h (by simp [entryAt_none])

end Llmenv.Materialize.Fold
