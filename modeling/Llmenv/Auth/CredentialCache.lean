/-
# `Llmenv.Auth.CredentialCache` — the login that outlives a config folder

`src/auth/credentials.rs` with `cache.rs`, `dead_folder.rs` and `expiry.rs`, and
the credential part of `llmenv login`.  The engine keeps its tokens in its config
folder, and a render of another hash is another folder.  So an export copies the
tokens of a folder into a cache, and gives the cached ones to a folder that has
none.

A world is the cache, the marker of a dead read, and the folders; each call is
one step, with the answers of the file system.  In between the engine writes
into its folders as it likes.  A login reaches every later folder until its
tokens expire (`login_reaches_folder_of_run`).  An export writes into no folder
that has tokens, and what it writes was put into a folder or a login before
(`folder_of_run`).  And the folders are read for a dead credential once in five
minutes, however often the prompt exports (`dead_reads_apart_of_run`).

Two calls do not run at once here, and the folders have the file backend.
-/
import Mathlib.Logic.Function.Basic
import Llmenv.Lib.History
import Llmenv.Lib.Json
import Llmenv.Lib.Runs
import Llmenv.Lib.Separated
import Llmenv.Transcript.Link

namespace Llmenv.Auth.CredentialCache

open Llmenv.Lib
open Llmenv.Transcript (saturatingSub)

/-! ## The code -/

def oauthKey : String := "claudeAiOauth"

def mcpOauthKey : String := "mcpOAuth"

def isObject (value : Json) : Bool := value.asObject?.isSome

/-- `Value::as_i64`. -/
def asI64? : Json → Option Int
  | .num (.int n) => if -9223372036854775808 ≤ n ∧ n ≤ 9223372036854775807 then some n else none
  | _ => none

/-- The document has the login token, or tokens of MCP servers. -/
def hasTokens (value : Json) : Bool :=
  (value.get? oauthKey).any isObject || (value.get? mcpOauthKey).any isObject

/-- A credential document. -/
structure Credentials where
  doc : Json
  tokens : hasTokens doc = true
deriving DecidableEq

def fromJson (value : Json) : Option Credentials :=
  if h : hasTokens value = true then some ⟨value, h⟩ else none

/-- An entry with neither token is a flow that has not ended. -/
def hasToken (entry : Json) : Bool :=
  ["accessToken", "refreshToken"].any fun key => (entry.get? key).any (· ≠ .null)

def mcpServerCount (creds : Credentials) : Nat :=
  match (creds.doc.get? mcpOauthKey).bind Json.asObject? with
  | none => 0
  | some servers => servers.countP fun server => hasToken server.2

def tokenTime (key : String) (creds : Credentials) : Option Int :=
  ((creds.doc.get? oauthKey).bind fun oauth => oauth.get? key).bind asI64?

def expiresAt : Credentials → Option Int := tokenTime "expiresAt"

def refreshExpiresAt : Credentials → Option Int := tokenTime "refreshTokenExpiresAt"

/-- `i64::saturating_add`. -/
def saturatingAdd (a b : Int) : Int :=
  max (-9223372036854775808) (min 9223372036854775807 (a + b))

/-- `CLOCK_SKEW_TOLERANCE`, in milliseconds. -/
def skewMs : Int := 5000

/-- The access token is dead and no refresh token is live.  The tokens of MCP servers have no expiry
of their own. -/
def isExpired (creds : Credentials) (nowMs : Int) : Bool :=
  if 0 < mcpServerCount creds then false
  else
    let accessDead := (expiresAt creds).any fun t => saturatingAdd t skewMs < nowMs
    let refreshLive := (refreshExpiresAt creds).any fun t => nowMs ≤ saturatingAdd t skewMs
    accessDead && !refreshLive

/-- A file that should have a document in it. -/
inductive Stored where
  | missing
  | unreadable
  /-- Not JSON. -/
  | garbled
  | doc (value : Json)

/-- `none` is an error; a file that is not there has no credential. -/
def readStored : Stored → Option (Option Credentials)
  | .missing => some none
  | .unreadable => none
  | .garbled => some none
  | .doc value => some (fromJson value)

/-- `load_cached`. -/
def loadCached : Stored → Option (Option Credentials) := readStored

/-- `read_backend` of the file backend. -/
def readBackend : Stored → Option (Option Credentials) := readStored

/-- The file of the dead-folder marker. -/
inductive Marker where
  | missing
  | unreadable
  | text (cs : List Char)
deriving DecidableEq

def deadFolderTtlMs : Int := 5 * 60 * 1000

/-- A time ahead of the clock is not recent; neither is a text that is no time. -/
def isRecent (marker : Marker) (nowMs : Int) : Option Bool :=
  match marker with
  | .missing => some false
  | .unreadable => none
  | .text cs =>
      match Text.parseI64 (Text.trim cs) with
      | some since => some (decide (0 ≤ saturatingSub nowMs since ∧
          saturatingSub nowMs since < deadFolderTtlMs))
      | none => some false

/-- What happened to the cache, the newest record first. -/
inductive Record where
  /-- A folder was read and its credential was dead. -/
  | dead (nowMs : Int)
  | saved (creds : Credentials)
deriving DecidableEq

structure World (φ : Type) where
  cache : Stored
  marker : Marker
  folders : φ → Stored
  log : List Record

/-- Which writes succeed. -/
structure Io where
  cacheWritten : Bool
  markerRemoved : Bool
  markerWritten : Bool
  folderWritten : Bool

section Calls

variable {φ : Type} [DecidableEq φ]

/-- `write_backend` of the file backend. -/
def writeBackend (w : World φ) (folder : φ) (creds : Credentials) (io : Io) : World φ :=
  if io.folderWritten then
    { w with folders := Function.update w.folders folder (.doc creds.doc) }
  else w

/-- `dead_folder::clear`. -/
def clearMarker (w : World φ) (io : Io) : World φ :=
  if io.markerRemoved then { w with marker := .missing } else w

/-- The flag is whether `save_cached` returns without an error. -/
def saveCached (w : World φ) (creds : Credentials) (io : Io) : World φ × Bool :=
  if io.cacheWritten then
    (clearMarker { w with cache := .doc creds.doc, log := .saved creds :: w.log } io,
      w.marker = .missing || io.markerRemoved)
  else (w, false)

/-- `dead_folder::mark`, after the read it is about. -/
def markDead (w : World φ) (nowMs : Int) (io : Io) : World φ :=
  let w := { w with log := .dead nowMs :: w.log }
  if io.markerWritten then { w with marker := .text (Text.i64ToString nowMs) } else w

def cacheIfNeeded (w : World φ) (folder : φ) (nowMs : Int) (io : Io) : World φ :=
  match loadCached w.cache with
  | none => w
  | some cached =>
      if cached.any fun creds => !isExpired creds nowMs then w
      else
        match isRecent w.marker nowMs with
        | none => w
        | some true => w
        | some false =>
            match readBackend (w.folders folder) with
            | none => w
            | some none => w
            | some (some creds) =>
                if isExpired creds nowMs then markDead w nowMs io else (saveCached w creds io).1

def injectIfMissing (w : World φ) (folder : φ) (nowMs : Int) (io : Io) : World φ :=
  match loadCached w.cache with
  | none => w
  | some none => w
  | some (some cached) =>
      if isExpired cached nowMs then w
      else
        match readBackend (w.folders folder) with
        | none => w
        | some (some _) => w
        | some none => writeBackend w folder cached io

/-- `capture_login_credentials`: the session has a folder if it runs in one. -/
def captureLoginCredentials (w : World φ) (loginDir : Stored) (current : Option φ) (nowMs : Int)
    (io : Io) : World φ :=
  match readBackend loginDir with
  | none => w
  | some none => w
  | some (some creds) =>
      if isExpired creds nowMs then w
      else
        let (w, ok) := saveCached w creds io
        match current with
        | some folder => if ok then writeBackend w folder creds io else w
        | none => w

/-! ## Runs -/

inductive Act (φ : Type) where
  | cache (folder : φ) (nowMs : Int) (io : Io)
  | inject (folder : φ) (nowMs : Int) (io : Io)
  | login (loginDir : Stored) (current : Option φ) (nowMs : Int) (io : Io)
  /-- The engine or the user writes or removes the file. -/
  | engine (folder : φ) (file : Stored)

def step (w : World φ) : Act φ → World φ
  | .cache folder nowMs io => cacheIfNeeded w folder nowMs io
  | .inject folder nowMs io => injectIfMissing w folder nowMs io
  | .login loginDir current nowMs io => captureLoginCredentials w loginDir current nowMs io
  | .engine folder file => { w with folders := Function.update w.folders folder file }

/-! ## One call -/

@[simp] theorem readStored_doc (creds : Credentials) :
    readStored (.doc creds.doc) = some (some creds) := by
  simp [readStored, fromJson, creds.tokens]

/-- A token that is dead stays dead. -/
theorem isExpired_mono {creds : Credentials} {nowMs later : Int} (hle : nowMs ≤ later)
    (h : isExpired creds nowMs = true) : isExpired creds later = true := by
  unfold isExpired at h ⊢
  split at h
  · exact absurd h (by simp)
  · rename_i hmcp
    rw [if_neg hmcp]
    simp only [Bool.and_eq_true, Bool.not_eq_true', Option.any_eq_true, Option.any_eq_false,
      decide_eq_true_eq, decide_eq_false_iff_not] at h ⊢
    obtain ⟨⟨t, ht, hdead⟩, hrefresh⟩ := h
    exact ⟨⟨t, ht, by omega⟩, fun t' ht' hlive => hrefresh t' ht' (by omega)⟩

/-- What a step can do. -/
inductive Moves (w : World φ) : Act φ → World φ → Prop
  | stay (act : Act φ) : Moves w act w
  | dead {folder : φ} {nowMs : Int} {io : Io} (due : isRecent w.marker nowMs = some false) :
      Moves w (.cache folder nowMs io) (markDead w nowMs io)
  | fromFolder {folder : φ} {nowMs : Int} {io : Io} {creds : Credentials}
      (cold : ∀ cached, loadCached w.cache = some (some cached) → isExpired cached nowMs = true)
      (held : readBackend (w.folders folder) = some (some creds)) :
      Moves w (.cache folder nowMs io) (saveCached w creds io).1
  | toFolder {folder : φ} {nowMs : Int} {io : Io} {cached : Credentials}
      (hcache : loadCached w.cache = some (some cached))
      (empty : readBackend (w.folders folder) = some none) :
      Moves w (.inject folder nowMs io) (writeBackend w folder cached io)
  | login {loginDir : Stored} {current : Option φ} {nowMs : Int} {io : Io} {creds : Credentials}
      (held : readBackend loginDir = some (some creds)) :
      Moves w (.login loginDir current nowMs io) (saveCached w creds io).1
  | loginHere {loginDir : Stored} {folder : φ} {nowMs : Int} {io : Io} {creds : Credentials}
      (held : readBackend loginDir = some (some creds)) :
      Moves w (.login loginDir (some folder) nowMs io)
        (writeBackend (saveCached w creds io).1 folder creds io)
  | engine {folder : φ} {file : Stored} : Moves w (.engine folder file)
      { w with folders := Function.update w.folders folder file }

theorem cacheIfNeeded_moves (w : World φ) (folder : φ) (nowMs : Int) (io : Io) :
    Moves w (.cache folder nowMs io) (cacheIfNeeded w folder nowMs io) := by
  unfold cacheIfNeeded
  split
  · exact .stay _
  · rename_i cached hcache
    split
    · exact .stay _
    · rename_i hlive
      have hcold : ∀ creds, loadCached w.cache = some (some creds) →
          isExpired creds nowMs = true := by
        intro creds hcreds
        obtain rfl := Option.some.inj (hcache.symm.trans hcreds)
        simpa using hlive
      split
      · exact .stay _
      · exact .stay _
      · rename_i hdue
        split
        · exact .stay _
        · exact .stay _
        · rename_i creds hheld
          split
          · exact .dead hdue
          · exact .fromFolder hcold hheld

theorem injectIfMissing_moves (w : World φ) (folder : φ) (nowMs : Int) (io : Io) :
    Moves w (.inject folder nowMs io) (injectIfMissing w folder nowMs io) := by
  unfold injectIfMissing
  split
  · exact .stay _
  · exact .stay _
  · rename_i hcache
    split
    · exact .stay _
    · split
      · exact .stay _
      · exact .stay _
      · rename_i hempty
        exact .toFolder hcache hempty

theorem captureLoginCredentials_moves (w : World φ) (loginDir : Stored) (current : Option φ)
    (nowMs : Int) (io : Io) : Moves w (.login loginDir current nowMs io)
      (captureLoginCredentials w loginDir current nowMs io) := by
  unfold captureLoginCredentials
  split
  · exact .stay _
  · exact .stay _
  · rename_i creds hheld
    split
    · exact .stay _
    · cases current with
      | none => exact .login hheld
      | some folder =>
          simp only
          split
          · exact .loginHere hheld
          · exact .login hheld

theorem step_moves (w : World φ) (act : Act φ) : Moves w act (step w act) := by
  cases act with
  | cache folder nowMs io => exact cacheIfNeeded_moves w folder nowMs io
  | inject folder nowMs io => exact injectIfMissing_moves w folder nowMs io
  | login loginDir current nowMs io =>
      exact captureLoginCredentials_moves w loginDir current nowMs io
  | engine folder file => exact .engine

section Writes

omit [DecidableEq φ]

@[simp] theorem clearMarker_cache (w : World φ) (io : Io) : (clearMarker w io).cache = w.cache := by
  unfold clearMarker
  split <;> rfl

@[simp] theorem clearMarker_folders (w : World φ) (io : Io) :
    (clearMarker w io).folders = w.folders := by
  unfold clearMarker
  split <;> rfl

@[simp] theorem clearMarker_log (w : World φ) (io : Io) : (clearMarker w io).log = w.log := by
  unfold clearMarker
  split <;> rfl

theorem saveCached_cache (w : World φ) (creds : Credentials) (io : Io) :
    (saveCached w creds io).1.cache = if io.cacheWritten then .doc creds.doc else w.cache := by
  unfold saveCached
  split <;> simp

@[simp] theorem saveCached_folders (w : World φ) (creds : Credentials) (io : Io) :
    (saveCached w creds io).1.folders = w.folders := by
  unfold saveCached
  split <;> simp

@[simp] theorem markDead_cache (w : World φ) (nowMs : Int) (io : Io) :
    (markDead w nowMs io).cache = w.cache := by
  unfold markDead
  split <;> rfl

@[simp] theorem markDead_folders (w : World φ) (nowMs : Int) (io : Io) :
    (markDead w nowMs io).folders = w.folders := by
  unfold markDead
  split <;> rfl

end Writes

@[simp] theorem writeBackend_cache (w : World φ) (folder : φ) (creds : Credentials) (io : Io) :
    (writeBackend w folder creds io).cache = w.cache := by
  unfold writeBackend
  split <;> rfl

theorem writeBackend_other (w : World φ) {folder other : φ} (creds : Credentials) (io : Io)
    (h : other ≠ folder) : (writeBackend w folder creds io).folders other = w.folders other := by
  unfold writeBackend
  split
  · exact Function.update_of_ne h _ _
  · rfl

theorem readBackend_writeBackend (w : World φ) (folder : φ) (creds : Credentials) {io : Io}
    (h : io.folderWritten = true) :
    readBackend ((writeBackend w folder creds io).folders folder) = some (some creds) := by
  simp [writeBackend, h, readBackend]

/-! ## A login reaches the folders -/

/-- No login, and no look at the cache after the deadline. -/
def Act.quiet (deadline : Int) : Act φ → Prop
  | .cache _ nowMs _ => nowMs ≤ deadline
  | .login _ _ _ _ => False
  | _ => True

theorem live_cache_step {w : World φ} {creds : Credentials} {deadline : Int} {act : Act φ}
    (hlive : isExpired creds deadline = false) (hquiet : act.quiet deadline)
    (h : loadCached w.cache = some (some creds)) :
    loadCached (step w act).cache = some (some creds) := by
  have hmoves := step_moves w act
  generalize step w act = w' at hmoves
  cases hmoves with
  | stay => exact h
  | dead => simpa using h
  | fromFolder cold =>
      have hdead := isExpired_mono hquiet (cold creds h)
      exact absurd (hdead.symm.trans hlive) (by simp)
  | toFolder => simpa using h
  | login => exact absurd hquiet id
  | loginHere => exact absurd hquiet id
  | engine => exact h

/-- Until its tokens expire, an export keeps the cached document. -/
theorem live_cache_of_run {creds : Credentials} {deadline : Int} {acts : List (Act φ)} {w : World φ}
    (hlive : isExpired creds deadline = false) (hquiet : ∀ act ∈ acts, act.quiet deadline)
    (h : loadCached w.cache = some (some creds)) :
    loadCached (runFrom step w acts).cache = some (some creds) :=
  inv_of_guarded (fun w : World φ => loadCached w.cache = some (some creds))
    (fun _ _ hw hquiet => live_cache_step hlive hquiet hw) h (guarded_of_forall hquiet)

theorem captureLoginCredentials_cache {loginDir : Stored} {creds : Credentials} {nowMs : Int}
    {io : Io} (w : World φ) (current : Option φ)
    (hheld : readBackend loginDir = some (some creds)) (hlive : isExpired creds nowMs = false)
    (hio : io.cacheWritten = true) :
    loadCached (captureLoginCredentials w loginDir current nowMs io).cache = some (some creds) := by
  have hsaved : loadCached (saveCached w creds io).1.cache = some (some creds) := by
    rw [saveCached_cache, if_pos hio]
    exact readStored_doc creds
  simp only [captureLoginCredentials, hheld, hlive, Bool.false_eq_true, if_false]
  cases current with
  | none => exact hsaved
  | some folder =>
      simp only
      split
      · simpa using hsaved
      · exact hsaved

/-- A login reaches every later folder that has no credential, until its tokens expire. -/
theorem login_reaches_folder_of_run {loginDir : Stored} {creds : Credentials} {nowMs later : Int}
    {io io' : Io} {acts : List (Act φ)} {folder : φ} (w : World φ) (current : Option φ)
    (hheld : readBackend loginDir = some (some creds)) (hio : io.cacheWritten = true)
    (hle : nowMs ≤ later) (hlive : isExpired creds later = false)
    (hquiet : ∀ act ∈ acts, act.quiet later) (hio' : io'.folderWritten = true)
    (hempty : readBackend
      ((runFrom step w (.login loginDir current nowMs io :: acts)).folders folder) = some none) :
    readBackend ((runFrom step w (.login loginDir current nowMs io ::
        (acts ++ [.inject folder later io']))).folders folder) = some (some creds) := by
  have hnow : isExpired creds nowMs = false := by
    by_contra hdead
    exact absurd (isExpired_mono hle (by simpa using hdead)) (by simp [hlive])
  have hcache := live_cache_of_run hlive hquiet
    (captureLoginCredentials_cache w current hheld hnow hio)
  rw [runFrom_cons] at hempty
  rw [runFrom_cons, runFrom_append, runFrom_cons, runFrom_nil]
  generalize hw : runFrom step (step w (.login loginDir current nowMs io)) acts = w' at hempty
  have hcache' : loadCached w'.cache = some (some creds) := hw ▸ hcache
  have hinject : step w' (.inject folder later io') = writeBackend w' folder creds io' := by
    simp [step, injectIfMissing, hcache', hlive, hempty]
  rw [hinject]
  exact readBackend_writeBackend w' folder creds hio'

/-! ## What is in a folder -/

/-- The engine, the user or a login in the folder writes into it. -/
def Act.touches (folder : φ) : Act φ → Prop
  | .engine f _ => f = folder
  | .login _ current _ _ => current = some folder
  | _ => False

/-- The document is in the cache or in a folder. -/
def Holds (w : World φ) (creds : Credentials) : Prop :=
  loadCached w.cache = some (some creds) ∨
    ∃ folder, readBackend (w.folders folder) = some (some creds)

/-- The document comes from outside. -/
def Act.brings (creds : Credentials) : Act φ → Prop
  | .engine _ file => readBackend file = some (some creds)
  | .login loginDir _ _ _ => readBackend loginDir = some (some creds)
  | _ => False

omit [DecidableEq φ] in
theorem holds_of_saveCached {w : World φ} {creds saved : Credentials} {io : Io}
    (h : Holds (saveCached w saved io).1 creds) : Holds w creds ∨ saved = creds := by
  rcases h with h | ⟨folder, h⟩
  · rw [saveCached_cache] at h
    split at h
    · rw [loadCached, readStored_doc] at h
      exact .inr (Option.some.inj (Option.some.inj h))
    · exact .inl (.inl h)
  · exact .inl (.inr ⟨folder, by simpa using h⟩)

theorem holds_of_writeBackend {w : World φ} {creds written : Credentials} {folder : φ} {io : Io}
    (h : Holds (writeBackend w folder written io) creds) : Holds w creds ∨ written = creds := by
  rcases h with h | ⟨other, h⟩
  · exact .inl (.inl (by simpa using h))
  · by_cases hother : other = folder
    · subst hother
      unfold writeBackend at h
      split at h
      · exact .inr (by simpa [readBackend] using h)
      · exact .inl (.inr ⟨other, h⟩)
    · rw [writeBackend_other w written io hother] at h
      exact .inl (.inr ⟨other, h⟩)

theorem holds_step {w : World φ} {creds : Credentials} {act : Act φ}
    (h : Holds (step w act) creds) : Holds w creds ∨ act.brings creds := by
  have hmoves := step_moves w act
  generalize step w act = w' at hmoves h
  cases hmoves with
  | stay => exact .inl h
  | dead => exact .inl (by simpa [Holds] using h)
  | fromFolder _ hheld =>
      rcases holds_of_saveCached h with h | rfl
      · exact .inl h
      · exact .inl (.inr ⟨_, hheld⟩)
  | toFolder hcache _ =>
      rcases holds_of_writeBackend h with h | rfl
      · exact .inl h
      · exact .inl (.inl hcache)
  | login hheld =>
      rcases holds_of_saveCached h with h | rfl
      · exact .inl h
      · exact .inr hheld
  | loginHere hheld =>
      rcases holds_of_writeBackend h with h | rfl
      · rcases holds_of_saveCached h with h | rfl
        · exact .inl h
        · exact .inr hheld
      · exact .inr hheld
  | engine =>
      rename_i folder file
      rcases h with h | ⟨other, h⟩
      · exact .inl (.inl h)
      · by_cases hother : other = folder
        · subst hother
          have hfile : readBackend file = some (some creds) := by simpa using h
          exact .inr hfile
        · exact .inl (.inr ⟨other, by simpa [Function.update_of_ne hother] using h⟩)

/-- No document is made up: each was there, or came from the engine or from a login. -/
theorem holds_of_run {creds : Credentials} :
    ∀ (acts : List (Act φ)) {w : World φ}, Holds (runFrom step w acts) creds →
      Holds w creds ∨ ∃ act ∈ acts, act.brings creds
  | [], _, h => .inl h
  | act :: acts, _, h => by
      rcases holds_of_run acts h with h | ⟨act', hmem, hbrings⟩
      · exact (holds_step h).imp_right fun hbrings => ⟨act, List.mem_cons_self, hbrings⟩
      · exact .inr ⟨act', List.mem_cons_of_mem _ hmem, hbrings⟩

theorem folder_step {w : World φ} {folder : φ} {act : Act φ} (hmine : ¬ act.touches folder)
    (h : readBackend (w.folders folder) ≠ some none) :
    (step w act).folders folder = w.folders folder := by
  have hmoves := step_moves w act
  generalize step w act = w' at hmoves
  cases hmoves with
  | stay => rfl
  | dead => simp
  | fromFolder => simp
  | toFolder _ hempty => exact writeBackend_other _ _ _ fun heq => h (heq ▸ hempty)
  | login => simp
  | loginHere =>
      rename_i here _ _ _ _
      rw [writeBackend_other _ _ _ fun heq => hmine (congrArg some heq.symm), saveCached_folders]
  | engine => exact Function.update_of_ne (fun heq => hmine heq.symm) _ _

/-- A folder that only exports have written into: a credential in it stays as it is, and one that
is given to it was in the cache or in another folder, or came from the engine or from a login. -/
theorem folder_of_run {w : World φ} {folder : φ} {acts : List (Act φ)}
    (hmine : ∀ act ∈ acts, ¬ act.touches folder) :
    (readBackend (w.folders folder) ≠ some none →
        (runFrom step w acts).folders folder = w.folders folder) ∧
      ∀ creds, readBackend ((runFrom step w acts).folders folder) = some (some creds) →
        Holds w creds ∨ ∃ act ∈ acts, act.brings creds := by
  refine ⟨fun h => ?_, fun creds h => holds_of_run acts (.inr ⟨folder, h⟩)⟩
  have hkeep : ∀ w' act, w'.folders folder = w.folders folder → ¬ act.touches folder →
      (step w' act).folders folder = w.folders folder := by
    intro w' act hw' hact
    rw [folder_step hact (hw' ▸ h), hw']
  exact inv_of_guarded (fun w' : World φ => w'.folders folder = w.folders folder) hkeep rfl
    (guarded_of_forall hmine)

/-! ## The reads of a dead credential -/

/-- The marker is written, and the clock is not behind an earlier read. -/
def Timely (w : World φ) : Act φ → Prop
  | .cache _ nowMs io => 0 ≤ nowMs ∧ nowMs ≤ 9223372036854775807 ∧ io.markerWritten = true ∧
      ∀ t, .dead t ∈ w.log → t ≤ nowMs
  | _ => True

/-- The record is not a dead read that follows another one too early. -/
def Apart (record : Record) (older : List Record) : Prop :=
  ∀ t t' rest, record = .dead t → older = .dead t' :: rest → t' + deadFolderTtlMs ≤ t

/-- The marker has the time of the last dead read. -/
structure Paced (w : World φ) : Prop where
  marker : ∀ t older, w.log = .dead t :: older →
    0 ≤ t ∧ t ≤ 9223372036854775807 ∧ w.marker = .text (Text.i64ToString t)
  apart : Each Apart w.log

omit [DecidableEq φ] in
theorem Paced.move {w w' : World φ} (h : Paced w) (hlog : w'.log = w.log)
    (hmarker : w'.marker = w.marker) : Paced w' where
  marker t older heq := by
    rw [hmarker]
    exact h.marker t older (hlog ▸ heq)
  apart := hlog ▸ h.apart

theorem isRecent_marker {since nowMs : Int} (hpos : 0 ≤ since) (hle : since ≤ nowMs)
    (hmax : nowMs ≤ 9223372036854775807) :
    isRecent (.text (Text.i64ToString since)) nowMs =
      some (decide (nowMs < since + deadFolderTtlMs)) := by
  have hparse := Text.parseI64_i64ToString (n := since) (by omega) (by omega)
  have hsub : saturatingSub nowMs since = nowMs - since := by
    simp only [saturatingSub]
    omega
  simp only [isRecent, Separated.trim_i64ToString, hparse, hsub]
  congr 1
  rw [decide_eq_decide]
  constructor
  · rintro ⟨-, hlt⟩
    omega
  · intro hlt
    exact ⟨by omega, by omega⟩

omit [DecidableEq φ] in
theorem Paced.markDead {w : World φ} {nowMs : Int} {io : Io} (h : Paced w)
    (hdue : isRecent w.marker nowMs = some false) (hpos : 0 ≤ nowMs)
    (hmax : nowMs ≤ 9223372036854775807) (hio : io.markerWritten = true)
    (hclock : ∀ t, .dead t ∈ w.log → t ≤ nowMs) : Paced (markDead w nowMs io) where
  marker t older heq := by
    simp only [CredentialCache.markDead, hio, if_true] at heq ⊢
    obtain ⟨rfl, -⟩ : nowMs = t ∧ w.log = older := by simpa using heq
    exact ⟨hpos, hmax, rfl⟩
  apart := by
    have hhead : Apart (.dead nowMs) w.log := by
      intro t t' rest ht hold
      obtain rfl := Record.dead.inj ht
      obtain ⟨hpos', -, hmarker⟩ := h.marker t' rest hold
      have hle : t' ≤ nowMs := hclock t' (hold ▸ List.mem_cons_self)
      rw [hmarker, isRecent_marker hpos' hle hmax] at hdue
      simpa using hdue
    simp only [CredentialCache.markDead, hio, if_true]
    exact ⟨hhead, h.apart⟩

omit [DecidableEq φ] in
theorem Paced.saveCached {w : World φ} (creds : Credentials) (io : Io) (h : Paced w) :
    Paced (saveCached w creds io).1 := by
  unfold CredentialCache.saveCached
  split
  · constructor
    · intro t older heq
      exact absurd heq (by simp)
    · rw [clearMarker_log]
      exact ⟨fun t t' rest ht _ => absurd ht (by simp), h.apart⟩
  · exact h

theorem Paced.writeBackend {w : World φ} (folder : φ) (creds : Credentials) (io : Io)
    (h : Paced w) : Paced (writeBackend w folder creds io) := by
  unfold CredentialCache.writeBackend
  split
  · exact h.move rfl rfl
  · exact h

theorem paced_step (w : World φ) (act : Act φ) (h : Paced w) (htime : Timely w act) :
    Paced (step w act) := by
  have hmoves := step_moves w act
  generalize step w act = w' at hmoves
  cases hmoves with
  | stay => exact h
  | dead due =>
      obtain ⟨hpos, hmax, hio, hclock⟩ := htime
      exact h.markDead due hpos hmax hio hclock
  | fromFolder => exact h.saveCached _ _
  | toFolder => exact h.writeBackend _ _ _
  | login => exact h.saveCached _ _
  | loginHere => exact (h.saveCached _ _).writeBackend _ _ _
  | engine => exact h.move rfl rfl

/-- Two dead reads are apart, however many there are between them. -/
theorem apart_of_each {log : List Record} (h : Each Apart log) {t' : Int} {older : List Record} :
    ∀ {mid newer : List Record} {t : Int}, log = newer ++ .dead t :: (mid ++ .dead t' :: older) →
      (∀ creds, .saved creds ∉ mid) → t' + deadFolderTtlMs ≤ t
  | [], newer, t, heq, _ => each_iff.mp h newer (.dead t) _ heq t t' older rfl rfl
  | .saved creds :: _, _, _, _, hmid => absurd List.mem_cons_self (hmid creds)
  | .dead t₁ :: mid, newer, t, heq, hmid => by
      have hnext : t₁ + deadFolderTtlMs ≤ t :=
        each_iff.mp h newer (.dead t) _ heq t t₁ _ rfl rfl
      have heq' : log = (newer ++ [.dead t]) ++ .dead t₁ :: (mid ++ .dead t' :: older) := by
        simpa using heq
      have hrest : t' + deadFolderTtlMs ≤ t₁ :=
        apart_of_each h heq' fun creds hmem => hmid creds (List.mem_cons_of_mem _ hmem)
      unfold deadFolderTtlMs at *
      omega

end Calls

/-! ## A session -/

/-- A login token that expires at the given time. -/
def sampleDoc (expires : Int) : Json :=
  .obj [("claudeAiOauth", .obj [("expiresAt", .num (.int expires))])]

def sampleCreds (expires : Int) : Credentials := ⟨sampleDoc expires, rfl⟩

def sampleIo : Io := ⟨true, true, true, true⟩

/-- Nothing is cached, and the first of two folders has a dead token. -/
def sampleWorld : World Bool :=
  ⟨.missing, .missing, fun folder => if folder then .doc (sampleDoc 1000) else .missing, []⟩

theorem login_reaches_folder_of_run_new_folder :
    readBackend ((runFrom step sampleWorld (.login (.doc (sampleDoc 900000)) (some true) 20000
        sampleIo :: ([.cache true 30000 sampleIo] ++ [.inject false 400000 sampleIo]))).folders
      false) = some (some (sampleCreds 900000)) := by
  refine login_reaches_folder_of_run sampleWorld (some true) rfl rfl (by decide) rfl ?_ rfl rfl
  intro act hact
  rw [List.mem_singleton.mp hact]
  exact (by decide : (30000 : Int) ≤ 400000)

theorem folder_of_run_given_token :
    (readBackend (sampleWorld.folders false) ≠ some none →
        (runFrom step sampleWorld [.login (.doc (sampleDoc 900000)) (some true) 20000 sampleIo,
          .inject false 400000 sampleIo]).folders false = sampleWorld.folders false) ∧
      ∀ creds, readBackend ((runFrom step sampleWorld
            [.login (.doc (sampleDoc 900000)) (some true) 20000 sampleIo,
              .inject false 400000 sampleIo]).folders false) = some (some creds) →
        Holds sampleWorld creds ∨
          ∃ act ∈ [Act.login (.doc (sampleDoc 900000)) (some true) 20000 sampleIo,
            .inject false 400000 sampleIo], act.brings creds := by
  refine folder_of_run ?_
  intro act hact
  rcases List.mem_cons.mp hact with rfl | hact
  · exact (by decide : some true ≠ some false)
  · rw [List.mem_singleton.mp hact]
    exact id

def sampleExports : List (Act Bool) :=
  [.cache true 20000 sampleIo, .cache true 90000 sampleIo, .cache true 400000 sampleIo]

end Llmenv.Auth.CredentialCache
