/-
# `Llmenv.HookRun.ReadOnce` — reads that the session has seen already

`src/hook_run/read_once.rs` with `stamp.rs`, `cache.rs` and `state.rs`.  A
whole-file Read is compared with the entry of the session's cache: the same
modification time, in whole seconds, within the time to live, is answered with
an advisory or a deny, and anything else passes and is recorded.

The stamp of a file has its size too, but only the seconds are compared, so a
write in the second of the recorded one is hidden (`not_shown_same_second`).  In
every run without such a write, a Read is answered only if the file was not
written since a Read of it passed (`shown_of_run`).
-/
import Llmenv.Lib.History
import Llmenv.Lib.Runs
import Llmenv.Tasks.Data
import Llmenv.Transcript.Link

namespace Llmenv.HookRun.ReadOnce

open Llmenv.Lib
open Llmenv.Tasks (isValidShortName)
open Llmenv.Transcript (saturatingSub)

/-! ## The code -/

structure ReadEntry where
  path : String
  mtimeUnix : Int
  firstReadAt : Int
  hits : Nat
  tokensSaved : Nat
deriving DecidableEq

inductive ReadOnceMode where
  | warn
  | deny
deriving DecidableEq

structure ReadOnceConfig where
  mode : ReadOnceMode
  ttlSeconds : Nat

/-- A field of the tool input: missing, a text, or another value. -/
abbrev Field := Option (Option String)

structure ToolInput where
  filePath : Field
  /-- The deprecated `filePath` key. -/
  filePathCamel : Field
  hasOffset : Bool
  hasLimit : Bool

structure Payload where
  toolName : Option String
  /-- `none` when `tool_input` is not an object. -/
  toolInput : Option ToolInput

/-- The path of a whole-file Read. -/
def wholeFile (payload : Payload) : Option String :=
  if payload.toolName ≠ some "Read" then none
  else
    match payload.toolInput with
    | none => none
    | some input =>
        match input.filePath.or input.filePathCamel with
        | some (some path) => if input.hasOffset || input.hasLimit then none else some path
        | _ => none

/-- The metadata of a file; the time is in nanoseconds after 1970. -/
structure FileMeta where
  mtime : Nat
  size : Nat

def nanosPerSec : Nat := 1000000000

/-- `file_stamp`: the modification time in seconds, and the size. -/
def fileStamp (file : Option FileMeta) : Option (Int × Nat) :=
  file.map fun f => ((f.mtime / nanosPerSec : Nat), f.size)

/-- The entries of a cache by their key. -/
abbrev Entries := String → Option ReadEntry

inductive CacheFile where
  | missing
  /-- The text does not parse. -/
  | corrupt
  | stored (entries : Entries)

def CacheFile.entries : CacheFile → Entries
  | .stored entries => entries
  | _ => fun _ => none

/-- An entry whose age equals the time to live has expired. -/
def withinTtl (now firstReadAt : Int) (ttlSeconds : Nat) : Bool :=
  decide (saturatingSub now firstReadAt < min (ttlSeconds : Int) 9223372036854775807)

def prune (now : Int) (ttlSeconds : Nat) (entries : Entries) : Entries :=
  fun key => (entries key).filter fun e => withinTtl now e.firstReadAt ttlSeconds

/-- What the file system answers to one call. -/
structure Io where
  /-- The cache file cannot be read, so no save replaces it. -/
  readFailed : Bool
  saved : Bool

def advisory (filePath : String) (tokensSaved : Nat) : String :=
  s!"{filePath} was already read this session (~{tokensSaved} tokens saved from re-read). " ++
    "Prefer the copy already in context."

def answer (mode : ReadOnceMode) (filePath : String) (tokensSaved : Nat) : String :=
  match mode with
  | .deny => "__DENY__:" ++ advisory filePath tokensSaved
  | .warn => advisory filePath tokensSaved

/-- `SessionCache::load`. -/
def load (config : ReadOnceConfig) (now : Int) (io : Io) (cache : CacheFile) : Entries :=
  prune now config.ttlSeconds (if io.readFailed then fun _ => none else cache.entries)

/-- `SessionCache::save`: a cache that was not read is not written. -/
def save (io : Io) (entries : Entries) (cache : CacheFile) : CacheFile :=
  if io.readFailed || !io.saved then cache else .stored entries

/-- The handler from the load of the cache on: the answer, `none` for a Read that passes, and the
cache file of the session afterwards. -/
def lookup (config : ReadOnceConfig) (filePath key : String) (mtime : Int) (size : Nat)
    (now : Int) (io : Io) (cache : CacheFile) : Option String × CacheFile :=
  let entries := load config now io cache
  let record (path : String) : Entries :=
    fun k => if k = key then some ⟨path, mtime, now, 0, 0⟩ else entries k
  match entries key with
  | some entry =>
      if entry.mtimeUnix = mtime ∧ withinTtl now entry.firstReadAt config.ttlSeconds then
        -- The hit is not saved.
        (some (answer config.mode filePath (size / 4)), cache)
      else (none, save io (record entry.path) cache)
  | none => (none, save io (record filePath) cache)

/-- The session whose cache a Read is looked up in, with the key of its file. -/
structure Lookup where
  session : String
  filePath : String
  mtime : Int
  size : Nat

/-- The checks of the handler before it loads the cache; `stat` is the metadata of the file of a
path. -/
def preCheck (stat : String → Option FileMeta) (payload : Payload) (sessionId : Option String) :
    Option Lookup :=
  match wholeFile payload with
  | none => none
  | some path =>
      match fileStamp (stat path), sessionId with
      | some (mtime, size), some id =>
          if isValidShortName id then some ⟨id, path, mtime, size⟩ else none
      | _, _ => none

/-! ## Runs -/

inductive Record where
  | written (key : String)
  /-- A whole-file Read, and whether it got an answer. -/
  | read (session key : String) (answered : Bool)
deriving DecidableEq

structure World where
  /-- Nanoseconds after 1970. -/
  clock : Nat
  /-- The files by their canonical path. -/
  files : String → Option FileMeta
  caches : String → CacheFile
  history : List Record

inductive Input where
  | tick (nanos : Nat)
  | write (key : String) (size : Nat)
  | remove (key : String)
  | read (payload : Payload) (sessionId : Option String) (config : ReadOnceConfig) (io : Io)
  | lose (session : String)
  | corrupt (session : String)

def World.setCache (w : World) (session : String) (cache : CacheFile) : World :=
  { w with caches := fun s => if s = session then cache else w.caches s }

section Steps

-- The canonical path of a path.
variable (canonical : String → String)

/-- `handle_pre_tool_use`, and the record of a whole-file Read. -/
def read (w : World) (payload : Payload) (sessionId : Option String) (config : ReadOnceConfig)
    (io : Io) : World :=
  match preCheck (fun path => w.files (canonical path)) payload sessionId with
  | none =>
      match wholeFile payload, sessionId with
      | some path, some id =>
          { w with history := .read id (canonical path) false :: w.history }
      | _, _ => w
  | some l =>
      let key := canonical l.filePath
      let now : Int := (w.clock / nanosPerSec : Nat)
      let out := lookup config l.filePath key l.mtime l.size now io (w.caches l.session)
      { w.setCache l.session out.2 with
        history := .read l.session key out.1.isSome :: w.history }

def step (w : World) : Input → World
  | .tick nanos => { w with clock := w.clock + nanos }
  | .write key size =>
      { w with
        files := fun k => if k = key then some ⟨w.clock, size⟩ else w.files k
        history := .written key :: w.history }
  | .remove key => { w with files := fun k => if k = key then none else w.files k }
  | .read payload sessionId config io => read canonical w payload sessionId config io
  | .lose session => w.setCache session .missing
  | .corrupt session => w.setCache session .corrupt

end Steps

def start (clock : Nat) (files : String → Option FileMeta) : World :=
  ⟨clock, files, fun _ => .missing, []⟩

/-! ## An answer hides no write -/

/-- A whole-file Read of the file passed. -/
def Passed (session key : String) (r : Record) : Prop := r = .read session key false

/-- A Read that gets an answer comes after a Read of its file that passed in the session, with no
write of the file in between. -/
def Shown (r : Record) (before : List Record) : Prop :=
  ∀ session key, r = .read session key true →
    Since (Passed session key) (· = .written key) before

/-- No write falls in the second that a cache has recorded for the file. -/
def FreshSecond (w : World) : Input → Prop
  | .write key _ => ∀ session entry, (w.caches session).entries key = some entry →
      entry.mtimeUnix ≠ (w.clock / nanosPerSec : Nat)
  | _ => True

/-- An entry with the seconds of its file stands for a Read that passed since the last write. -/
structure EntriesMean (w : World) : Prop where
  since : ∀ session key entry file, (w.caches session).entries key = some entry →
    w.files key = some file → entry.mtimeUnix = (file.mtime / nanosPerSec : Nat) →
      Since (Passed session key) (· = .written key) w.history
  shown : Each Shown w.history

/-- All that a lookup can do: it answers an entry with the same seconds, or it passes.  Of the other
files it only keeps entries that were there. -/
inductive Outcome (key : String) (mtime : Int) (cache : CacheFile) :
    Option String → CacheFile → Prop where
  | hit {text : String} (entry : ReadEntry) (found : cache.entries key = some entry)
      (same : entry.mtimeUnix = mtime) : Outcome key mtime cache (some text) cache
  | miss {cache' : CacheFile}
      (others : ∀ k entry, k ≠ key → cache'.entries k = some entry →
        cache.entries k = some entry) : Outcome key mtime cache none cache'

theorem of_load {config : ReadOnceConfig} {now : Int} {io : Io} {cache : CacheFile} {key : String}
    {entry : ReadEntry} (h : load config now io cache key = some entry) :
    cache.entries key = some entry := by
  have hread := (Option.filter_eq_some_iff.mp h).1
  split at hread
  · exact absurd hread (by simp)
  · exact hread

/-- All that a lookup can do. -/
theorem lookup_cases (config : ReadOnceConfig) (filePath key : String) (mtime : Int) (size : Nat)
    (now : Int) (io : Io) (cache : CacheFile) :
    Outcome key mtime cache (lookup config filePath key mtime size now io cache).1
      (lookup config filePath key mtime size now io cache).2 := by
  have hmiss : ∀ e, Outcome key mtime cache none
      (save io (fun k => if k = key then some e else load config now io cache k) cache) := by
    intro e
    refine .miss ?_
    intro k entry hk hentry
    unfold save at hentry
    split at hentry
    · exact hentry
    · have hload : load config now io cache k = some entry := by
        simpa [CacheFile.entries, hk] using hentry
      exact of_load hload
  cases hfound : load config now io cache key with
  | none =>
      simp only [lookup, hfound]
      exact hmiss _
  | some entry =>
      simp only [lookup, hfound]
      split
      · next hsame => exact .hit entry (of_load hfound) hsame.1
      · exact hmiss _

section Steps

variable {canonical : String → String} {w : World}

theorem EntriesMean.setCache (h : EntriesMean w) {session : String} {cache : CacheFile}
    (hcache : ∀ key, cache.entries key = none) : EntriesMean (w.setCache session cache) := by
  refine ⟨?_, h.shown⟩
  intro s key entry file hentry hfile hsame
  by_cases hs : s = session
  · subst hs
    have hentry : cache.entries key = some entry := by simpa [World.setCache] using hentry
    exact absurd ((hcache key).symm.trans hentry) (by simp)
  · exact h.since s key entry file (by simpa [World.setCache, hs] using hentry) hfile hsame

/-- A Read is recorded, with the entries that its session has afterwards. -/
theorem EntriesMean.read (h : EntriesMean w) {session key : String} {mtime : Int}
    {file : FileMeta} {text : Option String} {cache : CacheFile} (hfile : w.files key = some file)
    (hmtime : mtime = (file.mtime / nanosPerSec : Nat))
    (hout : Outcome key mtime (w.caches session) text cache) :
    EntriesMean { w.setCache session cache with
      history := .read session key text.isSome :: w.history } := by
  have hkeep : ∀ s k, Since (Passed s k) (· = .written k) w.history →
      Since (Passed s k) (· = .written k) (.read session key text.isSome :: w.history) := by
    intro s k hs
    exact Or.inr ⟨by simp, hs⟩
  cases hout with
  | hit entry found same =>
      have hsince := h.since session key entry file found hfile (same.trans hmtime)
      refine ⟨?_, ?_, h.shown⟩
      · intro s k e f he hf hsame
        apply hkeep
        by_cases hs : s = session
        · subst hs
          exact h.since s k e f (by simpa [World.setCache] using he) hf hsame
        · exact h.since s k e f (by simpa [World.setCache, hs] using he) hf hsame
      · intro s k hr
        obtain ⟨rfl, rfl, -⟩ := Record.read.inj hr
        exact hsince
  | miss others =>
      refine ⟨?_, ?_, h.shown⟩
      · intro s k e f he hf hsame
        by_cases hs : s = session
        · subst hs
          by_cases hk : k = key
          · subst hk
            exact Or.inl rfl
          · have he : cache.entries k = some e := by simpa [World.setCache] using he
            exact hkeep s k (h.since s k e f (others k e hk he) hf hsame)
        · exact hkeep s k (h.since s k e f (by simpa [World.setCache, hs] using he) hf hsame)
      · intro s k hr
        exact absurd (Record.read.inj hr).2.2 (by simp)

theorem preCheck_eq_some {stat : String → Option FileMeta} {payload : Payload}
    {sessionId : Option String} {l : Lookup} (h : preCheck stat payload sessionId = some l) :
    ∃ file, stat l.filePath = some file ∧ l.mtime = (file.mtime / nanosPerSec : Nat) := by
  unfold preCheck at h
  split at h
  · exact absurd h (by simp)
  · next path hpath =>
      split at h
      · next mtime size id hstat =>
          split at h
          · obtain rfl := Option.some.inj h
            obtain ⟨file, hfile, hstamp⟩ := Option.map_eq_some_iff.mp hstat
            exact ⟨file, hfile, (Prod.mk.inj hstamp).1.symm⟩
          · exact absurd h (by simp)
      · exact absurd h (by simp)

/-- Every step keeps what the entries mean, if no write falls in a recorded second. -/
theorem entriesMean_step (h : EntriesMean w) (i : Input) (hg : FreshSecond w i) :
    EntriesMean (step canonical w i) := by
  cases i with
  | tick nanos => exact ⟨h.since, h.shown⟩
  | write key size =>
      refine ⟨?_, ?_, h.shown⟩
      · intro session k entry file hentry hfile hsame
        by_cases hk : k = key
        · subst hk
          have hfile : ⟨w.clock, size⟩ = file := by simpa [step] using hfile
          rw [← hfile] at hsame
          exact absurd hsame (hg session entry hentry)
        · have hfile : w.files k = some file := by simpa [step, hk] using hfile
          refine Or.inr ⟨?_, h.since session k entry file hentry hfile hsame⟩
          intro hw
          exact hk (Record.written.inj hw).symm
      · intro session k hr
        exact absurd hr (by simp)
  | remove key =>
      refine ⟨?_, h.shown⟩
      intro session k entry file hentry hfile hsame
      by_cases hk : k = key
      · exact absurd hfile (by simp [step, hk])
      · exact h.since session k entry file hentry (by simpa [step, hk] using hfile) hsame
  | read payload sessionId config io =>
      show EntriesMean (read canonical w payload sessionId config io)
      unfold ReadOnce.read
      cases hpre : preCheck (fun path => w.files (canonical path)) payload sessionId with
      | some l =>
          obtain ⟨file, hfile, hmtime⟩ := preCheck_eq_some hpre
          exact h.read hfile hmtime (lookup_cases config l.filePath _ l.mtime l.size _ io _)
      | none =>
          -- The Read passes without a look at the cache.
          simp only
          split
          · refine ⟨?_, ?_, h.shown⟩
            · intro session k entry file hentry hfile hsame
              exact Or.inr ⟨by simp, h.since session k entry file hentry hfile hsame⟩
            · intro session k hr
              exact absurd (Record.read.inj hr).2.2 (by simp)
          · exact h
  | lose session => exact h.setCache fun _ => rfl
  | corrupt session => exact h.setCache fun _ => rfl

/-- In every run in which no write falls in a recorded second, a Read is answered only if the file
was not written since a Read of it passed in the session. -/
theorem shown_of_run (canonical : String → String) (clock : Nat)
    (files : String → Option FileMeta) (is : List Input)
    (hg : Guarded (step canonical) FreshSecond (start clock files) is) :
    Each Shown (runFrom (step canonical) (start clock files) is).history := by
  have hstart : EntriesMean (start clock files) := by
    refine ⟨?_, trivial⟩
    intro session key entry file hentry
    exact absurd hentry (by simp [start, CacheFile.entries])
  exact (inv_of_guarded EntriesMean (fun _ i h hg => entriesMean_step h i hg) hstart hg).shown

end Steps

/-- A whole-file Read of `/a` in the session `s1`. -/
def readA : Input :=
  .read ⟨some "Read", some ⟨some (some "/a"), none, false, false⟩⟩ (some "s1") ⟨.deny, 1200⟩
    ⟨false, true⟩

/-- A write, a Read that passes and one that is denied. -/
theorem shown_of_second_read :
    Each Shown (runFrom (step id) (start 5000000000 fun _ => none)
      [.write "/a" 1, readA, .tick 1, readA]).history := by
  apply shown_of_run
  refine ⟨?_, trivial, trivial, trivial, trivial⟩
  intro session entry hentry
  exact absurd hentry (by simp [start, CacheFile.entries])

/-- A file is written, read, written again in the same second with another size, and the next Read
is denied. -/
theorem not_shown_same_second :
    ¬ Each Shown (runFrom (step id) (start 5000000000 fun _ => none)
      [.write "/a" 1, readA, .tick 1, .write "/a" 2, readA]).history := by
  have hrun : (runFrom (step id) (start 5000000000 fun _ => none)
      [.write "/a" 1, readA, .tick 1, .write "/a" 2, readA]).history =
      [.read "s1" "/a" true, .written "/a", .read "s1" "/a" false, .written "/a"] := by
    decide +kernel
  rw [hrun]
  rintro ⟨hshown, -⟩
  rcases hshown "s1" "/a" rfl with hpassed | ⟨hwritten, -⟩
  · exact absurd hpassed (by simp [Passed])
  · exact hwritten rfl

end Llmenv.HookRun.ReadOnce
