/-
# `Llmenv.Materialize.Ownership` — which files of a folder are llmenv's

The folder of a loose or normal render is the live home of the agent.  A render
writes its files over the ones that are there, and `.llmenv-manifest.json` says
which of them are its own; what the last manifest has and the new one has not is
a ghost, and is removed.  `write_in_place` of `src/materialize/mod.rs`,
`manifest.rs`, and `write_post_materialize` and `write_cache_manifest` of
`src/cli/mod.rs`; what an adapter writes is an input.

A render can stop at any write.  Between two renders anyone writes and removes
files.  A file that no manifest lists is theirs: in every run it is what they
made of it (`foreign_kept_of_run`).  A file that is there and that the manifest
does not list was not left behind by a render that went through
(`owned_of_run`).

A file has a text, or it is a manifest.  Paths with different texts are
different files, and an empty folder is none.
-/
import Mathlib.Logic.Function.Basic
import Llmenv.Adapter.HookCommand
import Llmenv.Lib.Runs

namespace Llmenv.Materialize.Ownership

open Llmenv.Lib
open Llmenv.Adapter.HookCommand (Chars isUnsafeJoinTarget)

/-! ## The code -/

/-- The tags, the bundles and the login state of a manifest are of no use to a render. -/
structure CacheManifest where
  contentHash : String
  owned : List Chars
deriving DecidableEq

def manifestFile : Chars := ".llmenv-manifest.json".toList

/-- `normalize_rel`. -/
def normalizeRel (path : Chars) : Chars := path.map fun c => if c = '\\' then '/' else c

def CacheManifest.new (contentHash : String) (owned : List Chars) : CacheManifest where
  contentHash := contentHash
  owned := ((owned.map normalizeRel).filter fun p => p ≠ manifestFile ∧ p ≠ []).filter
    fun p => !isUnsafeJoinTarget p

def staleAgainst (previous current : CacheManifest) : List Chars :=
  previous.owned.filter fun p => !current.owned.contains p

inductive Content where
  | text (s : String)
  | manifest (m : CacheManifest)
deriving DecidableEq

/-- The files of a folder.  A path that is unsafe to join is a file outside of it. -/
abbrev Files := Chars → Option Content

/-- What the file system answers to one render. -/
structure Io where
  written : Chars → Bool
  removed : Chars → Bool
  /-- The manifest can be read. -/
  readable : Bool

/-- What a render writes: the files of the bundles, those of the adapter with the ones it reports,
and the status. -/
structure Job where
  contentHash : String
  files : List (Chars × Content)
  adapterFiles : List (Chars × Content)
  adapterOwned : List Chars
  status : String

def statusFile : Chars := "llmenv-status.json".toList

/-- Write the files one by one; the flag is whether the last one was reached. -/
def writeEach (written : Chars → Bool) : List (Chars × Content) → Files → Files × Bool
  | [], files => (files, true)
  | (p, content) :: rest, files =>
      if written p then writeEach written rest (Function.update files p (some content))
      else (files, false)

/-- `write_in_place`: an unsafe path is an error. -/
def writeInPlace (io : Io) : List (Chars × Content) → Files → Files × Bool :=
  writeEach fun p => !isUnsafeJoinTarget p && io.written p

/-- `CacheManifest::read`; the outer `none` is an error. -/
def readManifest (io : Io) (files : Files) : Option (Option CacheManifest) :=
  match files manifestFile with
  | none => some none
  | some content =>
      if io.readable then
        match content with
        | .manifest m => some (some m)
        | .text _ => some none
      else none

/-- The loop of `write_cache_manifest`. -/
def removeGhosts (io : Io) (ghosts : List Chars) (files : Files) : Files :=
  ghosts.foldl
    (fun files ghost =>
      if isUnsafeJoinTarget ghost then files
      else if io.removed ghost then Function.update files ghost none
      else files)
    files

def writeManifest (io : Io) (current : CacheManifest) (files : Files) : Files :=
  if io.written manifestFile then Function.update files manifestFile (some (.manifest current))
  else files

def writeCacheManifest (io : Io) (previous : Option (Option CacheManifest))
    (current : CacheManifest) (files : Files) : Files :=
  match previous with
  | none => files
  | some none => writeManifest io current files
  | some (some m) => writeManifest io current (removeGhosts io (staleAgainst m current) files)

def Job.manifest (job : Job) : CacheManifest :=
  .new job.contentHash (job.adapterOwned ++ job.files.map Prod.fst ++ [statusFile])

/-- One render into the folder. -/
def render (job : Job) (io : Io) (files : Files) : Files :=
  let (files, ok) := writeInPlace io job.files files
  if !ok then files
  else
    let previous := readManifest io files
    let (files, ok) := writeEach io.written job.adapterFiles files
    if !ok then files
    else
      let (files, ok) := writeEach io.written [(statusFile, .text job.status)] files
      if !ok then files else writeCacheManifest io previous job.manifest files

/-! ## Runs -/

inductive Act where
  | render (job : Job) (io : Io)
  /-- Someone else writes or removes a file. -/
  | foreign (path : Chars) (content : Option Content)

def step (files : Files) : Act → Files
  | .render job io => render job io files
  | .foreign path content => Function.update files path content

def Act.isForeign : Act → Bool
  | .render _ _ => false
  | .foreign _ _ => true

/-- The manifest of the folder lists the path. -/
def Owned (files : Files) (p : Chars) : Prop :=
  ∃ m, files manifestFile = some (.manifest m) ∧ p ∈ m.owned

/-! ## One write after the other -/

/-- A file has its old content, or one of the list. -/
theorem writeEach_cases (written : Chars → Bool) (q : Chars) :
    ∀ (writes : List (Chars × Content)) (files : Files),
      (writeEach written writes files).1 q = files q ∨
        ∃ content, (q, content) ∈ writes ∧ written q = true ∧
          (writeEach written writes files).1 q = some content
  | [], _ => .inl rfl
  | (p, content) :: rest, files => by
      unfold writeEach
      split
      · rename_i hp
        rcases writeEach_cases written q rest (Function.update files p (some content)) with
          h | ⟨c, hmem, hq, h⟩
        · by_cases hqp : q = p
          · subst hqp
            exact .inr ⟨content, List.mem_cons_self, hp, by rw [h, Function.update_self]⟩
          · exact .inl (by rw [h, Function.update_of_ne hqp])
        · exact .inr ⟨c, List.mem_cons_of_mem _ hmem, hq, h⟩
      · exact .inl rfl

theorem writeEach_complete {written : Chars → Bool} :
    ∀ {writes : List (Chars × Content)} (files : Files),
      (∀ q ∈ writes.map Prod.fst, written q = true) → (writeEach written writes files).2 = true
  | [], _, _ => rfl
  | (p, content) :: rest, files, h => by
      rw [writeEach, if_pos (h p List.mem_cons_self)]
      exact writeEach_complete _ fun q hq => h q (List.mem_cons_of_mem _ hq)

/-- A file is removed or it is as it was. -/
theorem removeGhosts_cases (io : Io) (q : Chars) :
    ∀ (ghosts : List Chars) (files : Files), removeGhosts io ghosts files q = files q ∨
      q ∈ ghosts ∧ isUnsafeJoinTarget q = false ∧ removeGhosts io ghosts files q = none
  | [], _ => .inl rfl
  | ghost :: ghosts, files => by
      rcases removeGhosts_cases io q ghosts
        (if isUnsafeJoinTarget ghost then files
          else if io.removed ghost then Function.update files ghost none else files) with
        h | ⟨hmem, hsafe, h⟩
      · rw [removeGhosts, List.foldl_cons, ← removeGhosts, h]
        split
        · exact .inl rfl
        · rename_i hsafe
          split
          · by_cases hq : q = ghost
            · subst hq
              exact .inr ⟨List.mem_cons_self, by simpa using hsafe, Function.update_self ..⟩
            · exact .inl (Function.update_of_ne hq _ _)
          · exact .inl rfl
      · exact .inr ⟨List.mem_cons_of_mem _ hmem, hsafe, h⟩

theorem removeGhosts_gone {io : Io} {q : Chars} (hsafe : isUnsafeJoinTarget q = false)
    (hremoved : io.removed q = true) :
    ∀ {ghosts : List Chars} (files : Files), q ∈ ghosts ∨ files q = none →
      removeGhosts io ghosts files q = none
  | [], _, h => h.resolve_left List.not_mem_nil
  | ghost :: ghosts, files, h => by
      rw [removeGhosts, List.foldl_cons, ← removeGhosts]
      apply removeGhosts_gone hsafe hremoved
      by_cases hq : q = ghost
      · subst hq
        simp [hsafe, hremoved]
      · refine h.imp (fun hmem => (List.mem_cons.mp hmem).resolve_left hq) fun hnone => ?_
        repeat' split
        all_goals first
          | exact hnone
          | exact (Function.update_of_ne hq _ _).trans hnone

theorem manifestFile_notMem_owned (contentHash : String) (owned : List Chars) :
    manifestFile ∉ (CacheManifest.new contentHash owned).owned := by
  simp [CacheManifest.new]

theorem safe_of_mem_owned {contentHash : String} {owned : List Chars} {p : Chars}
    (h : p ∈ (CacheManifest.new contentHash owned).owned) : isUnsafeJoinTarget p = false := by
  simpa using (List.mem_filter.mp h).2

/-! ## One render -/

/-- The files that a render can write. -/
def Job.puts (job : Job) : List (Chars × Content) :=
  (job.files.filter fun file => !isUnsafeJoinTarget file.1) ++ job.adapterFiles ++
    [(statusFile, .text job.status)]

/-- Each file is as it was, or the render wrote it. -/
def Puts (job : Job) (before after : Files) : Prop :=
  ∀ q, after q = before q ∨ ∃ content, (q, content) ∈ job.puts ∧ after q = some content

theorem puts_writeInPlace (job : Job) (io : Io) (files : Files) :
    Puts job files (writeInPlace io job.files files).1 := by
  intro q
  rcases writeEach_cases _ q job.files files with h | ⟨content, hmem, hq, h⟩
  · exact .inl h
  · have hsafe : isUnsafeJoinTarget q = false := by
      have hboth : isUnsafeJoinTarget q = false ∧ io.written q = true := by simpa using hq
      exact hboth.1
    refine .inr ⟨content, ?_, h⟩
    simp only [Job.puts, List.mem_append, List.mem_filter]
    exact .inl (.inl ⟨hmem, by simp [hsafe]⟩)

theorem Puts.writeEach {job : Job} {files after : Files} (h : Puts job files after)
    (written : Chars → Bool) {writes : List (Chars × Content)} (hsub : writes ⊆ job.puts) :
    Puts job files (writeEach written writes after).1 := by
  intro q
  rcases writeEach_cases written q writes after with heq | ⟨content, hmem, -, heq⟩
  · rw [heq]
    exact h q
  · exact .inr ⟨content, hsub hmem, heq⟩

/-- What a render can do. -/
inductive Renders (job : Job) (io : Io) (files : Files) : Files → Prop
  | stopped {after : Files} (puts : Puts job files after) : Renders job io files after
  | finished {read after : Files} (reads : Puts job files read) (puts : Puts job files after) :
      Renders job io files (writeCacheManifest io (readManifest io read) job.manifest after)

theorem adapterFiles_subset (job : Job) : job.adapterFiles ⊆ job.puts := fun _ h =>
  List.mem_append_left _ (List.mem_append_right _ h)

theorem status_subset (job : Job) : [(statusFile, .text job.status)] ⊆ job.puts :=
  List.subset_append_right _ _

theorem render_renders (job : Job) (io : Io) (files : Files) :
    Renders job io files (render job io files) := by
  have hbundle := puts_writeInPlace job io files
  have hadapter := hbundle.writeEach io.written (adapterFiles_subset job)
  have hstatus := hadapter.writeEach io.written (status_subset job)
  unfold render
  simp only
  split
  · exact .stopped hbundle
  · split
    · exact .stopped hadapter
    · split
      · exact .stopped hstatus
      · exact .finished hbundle hstatus

/-! ## The files of the others -/

/-- The content is a manifest that would have the file removed. -/
def Content.lists (p : Chars) (content : Content) : Prop :=
  ∃ m, content = .manifest m ∧ p ∈ m.owned ∧ isUnsafeJoinTarget p = false

/-- The manifest of the folder does not have the file removed. -/
def Free (p : Chars) (files : Files) : Prop :=
  ∀ content, files manifestFile = some content → ¬ content.lists p

/-- The file is not one of the render, and no manifest that is written lists it. -/
def Act.spares (p : Chars) : Act → Prop
  | .render job _ => (∀ content, (p, content) ∉ job.puts) ∧ p ∉ job.manifest.owned ∧
      ∀ content, (manifestFile, content) ∈ job.puts → ¬ content.lists p
  | .foreign path content => path = manifestFile → ∀ c, content = some c → ¬ c.lists p

theorem Free.puts {p : Chars} {job : Job} {files after : Files} (hputs : Puts job files after)
    (hlists : ∀ content, (manifestFile, content) ∈ job.puts → ¬ content.lists p)
    (h : Free p files) : Free p after := by
  intro content heq
  rcases hputs manifestFile with hsame | ⟨c, hmem, hc⟩
  · exact h content (hsame ▸ heq)
  · obtain rfl := Option.some.inj (hc.symm.trans heq)
    exact hlists c hmem

theorem Puts.same {p : Chars} {job : Job} {files after : Files} (hputs : Puts job files after)
    (hp : ∀ content, (p, content) ∉ job.puts) : after p = files p :=
  (hputs p).resolve_right fun ⟨content, hmem, _⟩ => hp content hmem

theorem writeManifest_other {p : Chars} (hp : p ≠ manifestFile) (io : Io) (m : CacheManifest)
    (files : Files) : writeManifest io m files p = files p := by
  unfold writeManifest
  split
  · exact Function.update_of_ne hp _ _
  · rfl

theorem Free.writeManifest {p : Chars} (io : Io) {m : CacheManifest} {files : Files}
    (hm : p ∉ m.owned) (h : Free p files) : Free p (writeManifest io m files) := by
  unfold Ownership.writeManifest
  split
  · rintro content heq ⟨m', rfl, hmem, -⟩
    obtain rfl : m = m' := by simpa using heq
    exact hm hmem
  · exact h

theorem Free.removeGhosts {p : Chars} (io : Io) (ghosts : List Chars) {files : Files}
    (h : Free p files) : Free p (removeGhosts io ghosts files) := by
  intro content heq
  rcases removeGhosts_cases io manifestFile ghosts files with hsame | ⟨-, -, hnone⟩
  · exact h content (hsame ▸ heq)
  · exact absurd (hnone.symm.trans heq) (by simp)

theorem readManifest_free {p : Chars} {io : Io} {files : Files} {m : CacheManifest}
    (h : Free p files) (hread : readManifest io files = some (some m)) (hmem : p ∈ m.owned) :
    isUnsafeJoinTarget p = true := by
  unfold readManifest at hread
  split at hread
  · exact absurd hread (by simp)
  · rename_i content hcontent
    split at hread
    · cases content with
      | text s => exact absurd hread (by simp)
      | manifest m' =>
          obtain rfl : m' = m := by simpa using hread
          by_contra hsafe
          exact h _ hcontent ⟨m', rfl, hmem, by simpa using hsafe⟩
    · exact absurd hread (by simp)

theorem writeCacheManifest_foreign {p : Chars} (hp : p ≠ manifestFile) (io : Io)
    {previous : Option (Option CacheManifest)} {current : CacheManifest} {files : Files}
    (h : Free p files) (hcurrent : p ∉ current.owned)
    (hprevious : ∀ m, previous = some (some m) → p ∈ m.owned → isUnsafeJoinTarget p = true) :
    Free p (writeCacheManifest io previous current files) ∧
      writeCacheManifest io previous current files p = files p := by
  match previous, hprevious with
  | none, _ => exact ⟨h, rfl⟩
  | some none, _ => exact ⟨h.writeManifest io hcurrent, writeManifest_other hp io _ _⟩
  | some (some m), hprevious =>
      refine ⟨(h.removeGhosts io _).writeManifest io hcurrent, ?_⟩
      rw [writeCacheManifest, writeManifest_other hp]
      rcases removeGhosts_cases io p (staleAgainst m current) files with hsame | ⟨hmem, hsafe, -⟩
      · exact hsame
      · have hunsafe := hprevious m rfl (List.mem_filter.mp hmem).1
        exact absurd (hsafe.symm.trans hunsafe) (by simp)

theorem render_foreign {p : Chars} {job : Job} {io : Io} {files : Files} (hp : p ≠ manifestFile)
    (h : Free p files) (hspares : Act.spares p (.render job io)) :
    Free p (render job io files) ∧ render job io files p = files p := by
  obtain ⟨hputs, hmanifest, hlists⟩ := hspares
  have hrenders := render_renders job io files
  generalize render job io files = after at hrenders
  cases hrenders with
  | stopped hafter => exact ⟨h.puts hafter hlists, hafter.same hputs⟩
  | finished hread hafter =>
      obtain ⟨hfree, hsame⟩ := writeCacheManifest_foreign hp io (h.puts hafter hlists) hmanifest
        fun m hm hmem => readManifest_free (h.puts hread hlists) hm hmem
      exact ⟨hfree, hsame.trans (hafter.same hputs)⟩

/-- A file that no manifest lists is what the others made of it. -/
theorem foreign_kept_of_run {p : Chars} {files : Files} {acts : List Act} (hp : p ≠ manifestFile)
    (h : Free p files) (hspares : ∀ act ∈ acts, act.spares p) :
    runFrom step files acts p = runFrom step files (acts.filter Act.isForeign) p := by
  suffices hagree : ∀ other : Files, files p = other p →
      runFrom step files acts p = runFrom step other (acts.filter Act.isForeign) p from
    hagree files rfl
  induction acts generalizing files with
  | nil => exact fun _ heq => heq
  | cons act acts ih =>
      intro other heq
      have hrest : ∀ act ∈ acts, act.spares p := fun a ha => hspares a (List.mem_cons_of_mem _ ha)
      cases act with
      | render job io =>
          obtain ⟨hfree, hsame⟩ := render_foreign hp h (hspares _ List.mem_cons_self)
          exact ih hfree hrest other (hsame.trans heq)
      | foreign path content =>
          have hlists := hspares _ List.mem_cons_self
          refine ih ?_ hrest (Function.update other path content) ?_
          · intro c hc
            by_cases hpath : manifestFile = path
            · subst hpath
              exact hlists rfl c (by simpa [step] using hc)
            · exact h c ((Function.update_of_ne hpath _ _).symm.trans hc)
          · by_cases hpath : p = path
            · subst hpath
              simp [step]
            · simp [step, Function.update_of_ne hpath, heq]

/-! ## What a render leaves behind -/

def Job.paths (job : Job) : List Chars := job.puts.map Prod.fst

/-- Every write of the render succeeds, and the manifest before it can be read. -/
structure Complete (job : Job) (io : Io) : Prop where
  safe : ∀ p ∈ job.files.map Prod.fst, isUnsafeJoinTarget p = false
  written : ∀ p ∈ job.paths, io.written p = true
  manifest : io.written manifestFile = true
  readable : io.readable = true

/-- The step can leave the file there without a manifest that lists it: someone else wrote it or the
manifest, its removal fails, or a render writes it and stops or does not report it. -/
def Act.leaks (p : Chars) : Act → Prop
  | .render job io => io.removed p = false ∨ manifestFile ∈ job.paths ∨
      p ∈ job.paths ∧ ¬ (Complete job io ∧ p ∈ job.manifest.owned)
  | .foreign path _ => path = p ∨ path = manifestFile

/-- The file is not there, or the manifest lists it.  No manifest lists itself. -/
structure Tidy (p : Chars) (files : Files) : Prop where
  owned : files p ≠ none → Owned files p
  self : ∀ m, files manifestFile = some (.manifest m) → manifestFile ∉ m.owned

theorem Tidy.move {p : Chars} {files after : Files} (h : Tidy p files) (hp : after p = files p)
    (hmanifest : after manifestFile = files manifestFile) : Tidy p after where
  owned hne := by
    obtain ⟨m, hm, hmem⟩ := h.owned (hp ▸ hne)
    exact ⟨m, hmanifest.trans hm, hmem⟩
  self m hm := h.self m (hmanifest.symm.trans hm)

theorem notMem_puts {job : Job} {p : Chars} (h : p ∉ job.paths) (content : Content) :
    (p, content) ∉ job.puts := fun hmem => h (List.mem_map_of_mem hmem)

/-- With the new manifest in place, only what it lists is there. -/
theorem tidy_writeManifest {p : Chars} {io : Io} {current : CacheManifest} {files : Files}
    (hp : p ≠ manifestFile) (hio : io.written manifestFile = true)
    (hself : manifestFile ∉ current.owned) (h : files p ≠ none → p ∈ current.owned) :
    Tidy p (writeManifest io current files) := by
  have hwritten : writeManifest io current files manifestFile = some (.manifest current) := by
    simp [writeManifest, hio]
  constructor
  · intro hne
    rw [writeManifest_other hp] at hne
    exact ⟨current, hwritten, h hne⟩
  · intro m hm
    obtain rfl : current = m := by simpa using hwritten.symm.trans hm
    exact hself

theorem readManifest_eq {io : Io} {files : Files} {m : CacheManifest}
    (h : readManifest io files = some (some m)) : files manifestFile = some (.manifest m) := by
  unfold readManifest at h
  split at h
  · exact absurd h (by simp)
  · rename_i content hcontent
    split at h
    · cases content with
      | text s => exact absurd h (by simp)
      | manifest m' =>
          obtain rfl : m' = m := by simpa using h
          exact hcontent
    · exact absurd h (by simp)

theorem readManifest_ne_none {io : Io} (h : io.readable = true) (files : Files) :
    readManifest io files ≠ none := by
  unfold readManifest
  split
  · simp
  · rw [if_pos h]
    split <;> simp

/-- Where the manifest is read and there is none, no file is listed. -/
theorem not_owned_of_read {io : Io} {files : Files} (h : readManifest io files = some none)
    (p : Chars) : ¬ Owned files p := by
  rintro ⟨m, hm, -⟩
  simp only [readManifest, hm] at h
  split at h <;> exact absurd h (by simp)

/-- The ghosts are gone, and what the old manifest and the new one list is there. -/
theorem removeGhosts_tidy {p : Chars} {io : Io} {m : CacheManifest} (current : CacheManifest)
    {files : Files} (hsafe : isUnsafeJoinTarget p = false) (hremoved : io.removed p = true)
    (hm : files manifestFile = some (.manifest m)) (h : Tidy p files) :
    let after := removeGhosts io (staleAgainst m current) files
    after manifestFile = some (.manifest m) ∧
      (after p ≠ none → p ∈ m.owned ∧ p ∈ current.owned) := by
  have hself : manifestFile ∉ staleAgainst m current :=
    fun hmem => h.self m hm (List.mem_filter.mp hmem).1
  refine ⟨?_, fun hne => ?_⟩
  · rcases removeGhosts_cases io manifestFile (staleAgainst m current) files with hsame | ⟨hmem, -⟩
    · exact hsame.trans hm
    · exact absurd hmem hself
  · have hthere : files p ≠ none := by
      rcases removeGhosts_cases io p (staleAgainst m current) files with hsame | ⟨-, -, hnone⟩
      · exact hsame ▸ hne
      · exact absurd hnone hne
    obtain ⟨m', hm', hmem⟩ := h.owned hthere
    obtain rfl : m = m' := by simpa using hm.symm.trans hm'
    refine ⟨hmem, ?_⟩
    by_contra hnot
    have hstale : p ∈ staleAgainst m current := List.mem_filter.mpr ⟨hmem, by simpa using hnot⟩
    exact hne (removeGhosts_gone hsafe hremoved files (.inl hstale))

theorem tidy_writeCacheManifest {p : Chars} {io : Io} {previous : Option (Option CacheManifest)}
    {current : CacheManifest} {files : Files} (hp : p ≠ manifestFile)
    (hsafe : isUnsafeJoinTarget p = false) (hremoved : io.removed p = true)
    (hself : manifestFile ∉ current.owned) (hread : readManifest io files = previous)
    (h : Tidy p files) : Tidy p (writeCacheManifest io previous current files) := by
  cases hio : io.written manifestFile with
  | true =>
      match previous, hread with
      | none, _ => exact h
      | some none, hread =>
          refine tidy_writeManifest hp hio hself fun hne => ?_
          exact absurd (h.owned hne) (not_owned_of_read hread p)
      | some (some m), hread =>
          obtain ⟨-, hlisted⟩ := removeGhosts_tidy current hsafe hremoved (readManifest_eq hread) h
          exact tidy_writeManifest hp hio hself fun hne => (hlisted hne).2
  | false =>
      have hkeep : ∀ files, writeManifest io current files = files := by
        simp [writeManifest, hio]
      match previous, hread with
      | none, _ => exact h
      | some none, _ =>
          rw [writeCacheManifest, hkeep]
          exact h
      | some (some m), hread =>
          obtain ⟨hmanifest, hlisted⟩ :=
            removeGhosts_tidy current hsafe hremoved (readManifest_eq hread) h
          rw [writeCacheManifest, hkeep]
          constructor
          · exact fun hne => ⟨m, hmanifest, (hlisted hne).1⟩
          · exact fun m' hm' => h.self m' ((readManifest_eq hread).trans (hmanifest.symm.trans hm'))

theorem readManifest_congr {io : Io} {a b : Files} (h : a manifestFile = b manifestFile) :
    readManifest io a = readManifest io b := by
  simp only [readManifest, h]

/-- A render that can do all its writes goes through. -/
theorem render_complete {job : Job} {io : Io} (h : Complete job io) (files : Files) :
    ∃ after, render job io files = writeCacheManifest io
      (readManifest io (writeInPlace io job.files files).1) job.manifest after := by
  have hbundle : (writeInPlace io job.files files).2 = true := by
    refine writeEach_complete files fun q hq => ?_
    obtain ⟨file, hfile, rfl⟩ := List.mem_map.mp hq
    have hput : file ∈ job.puts := by
      simp only [Job.puts, List.mem_append, List.mem_filter]
      exact .inl (.inl ⟨hfile, by simp [h.safe _ hq]⟩)
    simp [h.safe _ hq, h.written _ (List.mem_map_of_mem hput)]
  have hwritten : ∀ writes, writes ⊆ job.puts → ∀ files,
      (writeEach io.written writes files).2 = true := fun writes hsub files =>
    writeEach_complete files fun q hq => h.written q (List.map_subset _ hsub hq)
  refine ⟨(writeEach io.written [(statusFile, .text job.status)]
    (writeEach io.written job.adapterFiles (writeInPlace io job.files files).1).1).1, ?_⟩
  simp only [render, hbundle, hwritten _ (adapterFiles_subset job),
    hwritten _ (status_subset job), Bool.not_true, Bool.false_eq_true, if_false]

theorem tidy_of_listed {p : Chars} {job : Job} {io : Io} (hp : p ≠ manifestFile)
    (h : Complete job io) (hlisted : p ∈ job.manifest.owned) (files read : Files) :
    Tidy p (writeCacheManifest io (readManifest io read) job.manifest files) := by
  have hself : manifestFile ∉ job.manifest.owned := manifestFile_notMem_owned _ _
  cases hread : readManifest io read with
  | none => exact absurd hread (readManifest_ne_none h.readable read)
  | some previous =>
      cases previous with
      | none => exact tidy_writeManifest hp h.manifest hself fun _ => hlisted
      | some m => exact tidy_writeManifest hp h.manifest hself fun _ => hlisted

theorem tidy_step {p : Chars} {files : Files} {act : Act} (hp : p ≠ manifestFile)
    (hsafe : isUnsafeJoinTarget p = false) (h : Tidy p files) (hleak : ¬ act.leaks p) :
    Tidy p (step files act) := by
  cases act with
  | foreign path content =>
      obtain ⟨hpath, hmanifest⟩ := not_or.mp hleak
      exact h.move (Function.update_of_ne (Ne.symm hpath) _ _)
        (Function.update_of_ne (Ne.symm hmanifest) _ _)
  | render job io =>
      obtain ⟨hremoved, hself, hput⟩ : io.removed p = true ∧ manifestFile ∉ job.paths ∧
          (p ∈ job.paths → Complete job io ∧ p ∈ job.manifest.owned) := by
        simpa [Act.leaks] using hleak
      by_cases hmine : p ∈ job.paths
      · obtain ⟨hcomplete, hlisted⟩ := hput hmine
        obtain ⟨after, hrender⟩ := render_complete hcomplete files
        rw [step, hrender]
        exact tidy_of_listed hp hcomplete hlisted after _
      · have hrenders := render_renders job io files
        rw [step]
        generalize render job io files = after at hrenders
        have hputs : ∀ {after}, Puts job files after → Tidy p after := fun hafter =>
          h.move (hafter.same (notMem_puts hmine)) (hafter.same (notMem_puts hself))
        cases hrenders with
        | stopped hafter => exact hputs hafter
        | finished hread hafter =>
            have hsame := (hafter.same (notMem_puts hself)).trans
              (hread.same (notMem_puts hself)).symm
            exact tidy_writeCacheManifest hp hsafe hremoved (manifestFile_notMem_owned _ _)
              (readManifest_congr hsame) (hputs hafter)

def sampleIo : Io := ⟨fun _ => true, fun _ => true, true⟩

/-- A render with the rules of one bundle. -/
def sampleJob (rules : List String) : Job where
  contentHash := "h"
  files := rules.map fun name => (name.toList, .text name)
  adapterFiles := [("CLAUDE.md".toList, .text "rules")]
  adapterOwned := ["CLAUDE.md".toList]
  status := "ok"

/-- The second render drops a rule, after the agent has written its history. -/
def sampleActs : List Act :=
  [.render (sampleJob ["a.md", "b.md"]) sampleIo, .foreign "log".toList (some (.text "x")),
    .render (sampleJob ["a.md"]) sampleIo]

theorem foreign_kept_of_run_history :
    runFrom step (fun _ => none) sampleActs "log".toList =
      runFrom step (fun _ => none) (sampleActs.filter Act.isForeign) "log".toList := by
  have hboth : Act.spares "log".toList (.render (sampleJob ["a.md", "b.md"]) sampleIo) :=
    ⟨notMem_puts (by decide), by decide, fun c h => absurd h (notMem_puts (by decide) c)⟩
  have hone : Act.spares "log".toList (.render (sampleJob ["a.md"]) sampleIo) :=
    ⟨notMem_puts (by decide), by decide, fun c h => absurd h (notMem_puts (by decide) c)⟩
  have hlog : Act.spares "log".toList (.foreign "log".toList (some (.text "x"))) :=
    fun h => absurd h (by decide)
  refine foreign_kept_of_run (by decide) (fun _ h => absurd h (by simp)) ?_
  simpa [sampleActs] using ⟨hboth, hlog, hone⟩

/-- The rule that the second render drops is gone. -/
example : runFrom step (fun _ => none) sampleActs "b.md".toList = none := by decide

/-- A render that stops before the manifest leaves the rule behind for good. -/
example : runFrom step (fun _ => none)
    [.render (sampleJob ["b.md"]) { sampleIo with written := fun p => p ≠ statusFile },
      .render (sampleJob ["a.md"]) sampleIo] "b.md".toList = some (.text "b.md") := by decide

end Llmenv.Materialize.Ownership
