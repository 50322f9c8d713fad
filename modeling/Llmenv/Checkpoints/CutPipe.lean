/-
# `Llmenv.Checkpoints.CutPipe` — a detached job whose input did not arrive whole

`src/hook_run/checkpoint/inputs.rs`, with `run_icm_store_with`,
`run_record_with` and their two commands.  The parent writes a checkpoint, starts
the child and pipes it the payload.  When the pipe breaks, the child has a piece
of the payload, and takes the inputs from the checkpoint.

A piece of an object is not JSON, so it is never mistaken for the payload.  What
can go wrong is the rest: the file is above the cap of `load`, which `begin` does
not keep, or the piece ends inside of a character, and the child stops before it
looks at the checkpoint.  `cutPipe_kept_iff` says that there is nothing else.
-/
import Llmenv.Checkpoints.Retries
import Llmenv.Lib.JsonText

namespace Llmenv.Checkpoints

open Llmenv.Lib Llmenv.Lib.JsonText

/-- What the code takes from `serde_json` for a type of inputs. -/
structure Serde (V T : Type) where
  /-- `to_string`. -/
  toText : T → String
  /-- `to_value`. -/
  toValue : T → V
  /-- `from_str`. -/
  fromStr : String → Except String T
  /-- `from_value`. -/
  fromValue : V → Except String T

section

variable {V T : Type}

/-- A JSON value as inputs. -/
def valueSerde (E : Codec V) (fromStr : String → Except String V) : Serde V V where
  toText := E.valueText
  toValue := id
  fromStr := fromStr
  fromValue := .ok

/-- How `load` fails, as its caller tells it apart. -/
inductive LoadFailure where
  | notFound
  | parse (text : String)
  | other (text : String)

def tooLargeText (path : String) : String :=
  s!"reading checkpoint {path}: it holds more than {maxCheckpointBytes} bytes; make the file smaller"

/-- `load` with its errors told apart. -/
def loadFile (E : Codec V) (d : Folder V) (path : String) : Except LoadFailure (Checkpoint V) :=
  match load E d path with
  | .ok checkpoint => .ok checkpoint
  | .error .notFound => .error .notFound
  | .error .tooLarge =>
      .error (.other (tooLargeText path))

/-- A checkpoint that exists but yields no inputs. -/
inductive CheckpointFailure where
  | read (text : String)
  | parse (text : String)

namespace CheckpointFailure

/-- A read failure keeps the file, a parse failure does not. -/
def keepsFile : CheckpointFailure → Bool
  | read _ => true
  | parse _ => false

def text : CheckpointFailure → String
  | read text => text
  | parse text => text

end CheckpointFailure

/-- Why the inputs could not be recovered. -/
structure InputsError where
  error : String
  keepCheckpoint : Bool

section

variable (S : Serde V T) (read : String → Except LoadFailure (Checkpoint V))

/-- `recorded_inputs`.  No checkpoint is no failure. -/
def recordedInputs : Option String → Except CheckpointFailure (Option T)
  | none => .ok none
  | some path =>
      match read path with
      | .error .notFound => .ok none
      | .error (.parse text) => .error (.parse text)
      | .error (.other text) => .error (.read text)
      | .ok checkpoint =>
          match S.fromValue checkpoint.inputs with
          | .ok inputs => .ok (some inputs)
          | .error e => .error (.parse s!"inputs do not parse: {e}")

/-- `inputs_or_checkpoint`. -/
def inputsOrCheckpoint (stdinText : String) (path : Option String) : Except InputsError T :=
  match S.fromStr stdinText with
  | .ok inputs => .ok inputs
  | .error stdinError =>
      match recordedInputs S read path with
      | .ok (some inputs) => .ok inputs
      | .ok none => .error ⟨stdinError, false⟩
      | .error failure =>
          let reason := failure.text
          .error ⟨s!"job input on stdin is unusable ({stdinError}), and the checkpoint is unusable too ({reason}). Fix: remove the checkpoint file, or re-run the job.",
            failure.keepsFile⟩

end

/-! ## The child -/

/-- What a child did: the inputs of its calls of the job, the folder after it, and its
result. -/
structure Outcome (V T : Type) where
  calls : List T
  folder : Folder V
  result : Except String Unit

/-- `finish`. -/
def finish (d : Folder V) : Option String → Folder V
  | none => d
  | some path => complete d path

/-- The body that `run_icm_store_with` and `run_record_with` share. -/
def runWith (S : Serde V T) (read : String → Except LoadFailure (Checkpoint V)) (d : Folder V)
    (payloadJson : String) (checkpoint : Option String) (job : T → Except String Unit) :
    Outcome V T :=
  match inputsOrCheckpoint S read payloadJson checkpoint with
  | .ok inputs =>
      match job inputs with
      | .ok () => ⟨[inputs], finish d checkpoint, .ok ()⟩
      | .error e => ⟨[inputs], d, .error e⟩
  | .error e =>
      -- a checkpoint that could not be read may be read later, so its file stays
      if e.keepCheckpoint then ⟨[], d, .error e.error⟩
      else ⟨[], finish d checkpoint, .error e.error⟩

/-- `run_icm_store_with`. -/
def runIcmStoreWith (E : Codec V) (fromStr : String → Except String V) (d : Folder V)
    (payloadJson : String) (checkpoint : Option String) (store : V → Except String Unit) :
    Outcome V V :=
  runWith (valueSerde E fromStr) (loadFile E d) d payloadJson checkpoint store

/-- `run_record_with`.  It does not look into the payload. -/
def runRecordWith (E : Codec V) (S : Serde V T) (d : Folder V) (payloadJson : String)
    (checkpoint : Option String) (record : T → Except String Unit) : Outcome V T :=
  runWith S (loadFile E d) d payloadJson checkpoint record

/-- `read_to_string` of the standard input. -/
def readToString (stdin : ByteArray) : Except String String :=
  match String.fromUTF8? stdin with
  | some text => .ok text
  | none => .error "stream did not contain valid UTF-8"

/-- A command reads the standard input and runs its job. -/
def command (run : String → Outcome V T) (d : Folder V) (stdin : ByteArray) : Outcome V T :=
  match readToString stdin with
  | .ok payloadJson => run payloadJson
  | .error e => ⟨[], d, .error e⟩

/-- `llmenv icm-store --checkpoint`. -/
def icmStore (E : Codec V) (fromStr : String → Except String V) (d : Folder V)
    (checkpoint : String) (store : V → Except String Unit) (stdin : ByteArray) : Outcome V V :=
  command (runIcmStoreWith E fromStr d · (some checkpoint) store) d stdin

/-- `llmenv session-log-record --checkpoint`. -/
def sessionLogRecord (E : Codec V) (S : Serde V T) (d : Folder V) (checkpoint : String)
    (record : T → Except String Unit) (stdin : ByteArray) : Outcome V T :=
  command (runRecordWith E S d · (some checkpoint) record) d stdin

/-! ## What a broken pipe is -/

/-- The bytes are a piece of the text, from its start and not to its end. -/
def CutOff (text : String) (stdin : ByteArray) : Prop :=
  ∃ rest : ByteArray, rest.size ≠ 0 ∧ stdin ++ rest = text.toByteArray

/-- `from_str` takes nothing but JSON. -/
def OnlyJson (fromStr : String → Except String T) : Prop :=
  ∀ text inputs, fromStr text = .ok inputs → IsJson text.toList

/-- A payload that is an object, with its checkpoint written, and the piece of it that
reaches the child. -/
structure CutPipe (E : Codec V) (S : Serde V T) (kind : JobKind) (payload : T) (d : Folder V)
    (name : String) (stdin : ByteArray) : Prop where
  object : Is .object (S.toText payload).toList
  roundTrip : S.fromValue (S.toValue payload) = .ok payload
  begun : ∃ (before : Folder V) (sessionId cwd : Option String) (now : Nat),
    beginJob E before kind (S.toValue payload) sessionId cwd now = (d, some name)
  cut : CutOff (S.toText payload) stdin

/-- The file of the checkpoint is within the cap of `load`. -/
def Readable (E : Codec V) (d : Folder V) (name : String) : Prop :=
  ∃ f, d.find? name = some f ∧ E.fileBytes f.checkpoint ≤ maxCheckpointBytes

/-- The job ran once, with the whole payload, and its checkpoint is gone if and only if it
succeeded. -/
structure NotLost (payload : T) (name : String) (job : T → Except String Unit)
    (outcome : Outcome V T) : Prop where
  once : outcome.calls = [payload]
  deleted : outcome.folder.find? name = none ↔ job payload = .ok ()

/-! ## The piece is not JSON -/

theorem toByteArray_of_fromUTF8? {bytes : ByteArray} {text : String}
    (h : String.fromUTF8? bytes = some text) : text.toByteArray = bytes := by
  rw [String.fromUTF8?] at h
  split at h
  · obtain rfl := Option.some.inj h
    rfl
  · exact absurd h (by simp)

theorem fromUTF8?_isSome_iff {bytes : ByteArray} :
    (∃ text, String.fromUTF8? bytes = some text) ↔ bytes.IsValidUTF8 := by
  rw [String.fromUTF8?]
  split
  · rename_i h
    exact ⟨fun _ => h, fun _ => ⟨_, rfl⟩⟩
  · rename_i h
    exact ⟨fun ⟨text, heq⟩ => absurd heq (by simp), fun hvalid => absurd hvalid h⟩

/-- A piece that is a text is a piece of the text. -/
theorem CutOff.text {whole piece : String} (h : CutOff whole piece.toByteArray) :
    piece.toList <+: whole.toList ∧ piece.toList ≠ whole.toList := by
  obtain ⟨rest, hrest, happend⟩ := h
  constructor
  · refine List.isPrefix_of_utf8Encode_append_eq_utf8Encode rest ?_
    rw [String.utf8Encode_toList, String.utf8Encode_toList, happend]
  · intro heq
    have hsize := congrArg ByteArray.size happend
    rw [ByteArray.size_append, String.toList_inj.mp heq] at hsize
    omega

/-- `from_str` fails on a piece. -/
theorem CutPipe.unusable {E : Codec V} {S : Serde V T} {kind : JobKind} {payload : T}
    {d : Folder V} {name piece : String} (hjson : OnlyJson S.fromStr)
    (h : CutPipe E S kind payload d name piece.toByteArray) :
    ∃ e, S.fromStr piece = .error e := by
  cases hstr : S.fromStr piece with
  | error e => exact ⟨e, rfl⟩
  | ok inputs =>
      obtain ⟨hpiece, hne⟩ := h.cut.text
      exact absurd (hjson piece inputs hstr) (h.object.not_isJson_of_cut hpiece hne)

/-! ## The checkpoint that `begin` writes -/

/-- The file of the job is there, with its inputs. -/
theorem CutPipe.file {E : Codec V} {S : Serde V T} {kind : JobKind} {payload : T}
    {d : Folder V} {name : String} {stdin : ByteArray} (hkind : kind ≠ .cbmIndex)
    (h : CutPipe E S kind payload d name stdin) :
    ∃ f, d.find? name = some f ∧ f.checkpoint.inputs = S.toValue payload := by
  obtain ⟨before, sessionId, cwd, now, hbegun⟩ := h.begun
  rw [beginJob, beginCheckpoint, if_neg hkind, write] at hbegun
  split at hbegun
  · exact absurd (Prod.mk.inj hbegun).2 (by simp)
  · obtain ⟨rfl, hname⟩ := Prod.mk.inj hbegun
    obtain rfl := Option.some.inj hname
    exact ⟨_, by rw [save, Keyed.find?_put, if_pos rfl], rfl⟩

/-- The inputs of the file are read exactly when the file is within the cap. -/
theorem recordedInputs_file {E : Codec V} {S : Serde V T} {d : Folder V} {name : String}
    {f : File V} {payload : T} (hf : d.find? name = some f)
    (hinputs : S.fromValue f.checkpoint.inputs = .ok payload) :
    recordedInputs S (loadFile E d) (some name) =
      if E.fileBytes f.checkpoint ≤ maxCheckpointBytes then .ok (some payload)
      else .error (.read (tooLargeText name)) := by
  rw [recordedInputs, loadFile, load, hf]
  by_cases hfits : E.fileBytes f.checkpoint ≤ maxCheckpointBytes
  · simp only [if_neg (Nat.not_lt.mpr hfits), if_pos hfits, hinputs]
  · simp only [if_pos (Nat.not_le.mp hfits), if_neg hfits]

/-! ## The child -/

section

variable {S : Serde V T} {read : String → Except LoadFailure (Checkpoint V)} {d : Folder V}
  {piece name : String} {job : T → Except String Unit} {payload : T}

/-- With the inputs of the checkpoint nothing is lost. -/
theorem runWith_recorded {f : File V} (hf : d.find? name = some f) {e : String}
    (hstr : S.fromStr piece = .error e)
    (hrecorded : recordedInputs S read (some name) = .ok (some payload)) :
    NotLost payload name job (runWith S read d piece (some name) job) := by
  have hinputs : inputsOrCheckpoint S read piece (some name) = .ok payload := by
    rw [inputsOrCheckpoint, hstr]
    simp only [hrecorded]
  cases hjob : job payload with
  | ok _ =>
      have hrun : runWith S read d piece (some name) job =
          ⟨[payload], complete d name, .ok ()⟩ := by
        simp only [runWith, hinputs, hjob, finish]
      rw [hrun]
      refine ⟨rfl, ⟨fun _ => hjob, fun _ => ?_⟩⟩
      show (complete d name).find? name = none
      rw [complete, Keyed.find?_erase, if_pos rfl]
  | error e =>
      have hrun : runWith S read d piece (some name) job = ⟨[payload], d, .error e⟩ := by
        simp only [runWith, hinputs, hjob]
      rw [hrun]
      refine ⟨rfl, ⟨fun hnone => ?_, fun hok => ?_⟩⟩
      · exact absurd (hf.symm.trans hnone) (by simp)
      · exact absurd (hjob.symm.trans hok) (by simp)

/-- Without inputs the job does not run, and the file stays if and only if it was not read. -/
theorem runWith_failed {e : String} {failure : CheckpointFailure}
    (hstr : S.fromStr piece = .error e)
    (hrecorded : recordedInputs S read (some name) = .error failure) :
    (runWith S read d piece (some name) job).calls = [] ∧
      (runWith S read d piece (some name) job).folder =
        if failure.keepsFile then d else complete d name := by
  have hinputs : ∃ error, inputsOrCheckpoint S read piece (some name) =
      .error ⟨error, failure.keepsFile⟩ := by
    simp only [inputsOrCheckpoint, hstr, hrecorded]
    exact ⟨_, rfl⟩
  obtain ⟨error, hinputs⟩ := hinputs
  rw [runWith, hinputs]
  cases failure with
  | read text => exact ⟨rfl, rfl⟩
  | parse text => exact ⟨rfl, rfl⟩

end

/-- A piece that is a text: only the cap of `load` stands in the way. -/
theorem CutPipe.runWith_iff {E : Codec V} {S : Serde V T} {kind : JobKind} {payload : T}
    {d : Folder V} {name piece : String} (hjson : OnlyJson S.fromStr) (hkind : kind ≠ .cbmIndex)
    (h : CutPipe E S kind payload d name piece.toByteArray) (job : T → Except String Unit) :
    NotLost payload name job (runWith S (loadFile E d) d piece (some name) job) ↔
      Readable E d name := by
  obtain ⟨e, hstr⟩ := h.unusable hjson
  obtain ⟨f, hf, hvalue⟩ := h.file hkind
  have hrecorded := recordedInputs_file (E := E) (S := S) hf (by rw [hvalue]; exact h.roundTrip)
  by_cases hfits : E.fileBytes f.checkpoint ≤ maxCheckpointBytes
  · rw [if_pos hfits] at hrecorded
    exact ⟨fun _ => ⟨f, hf, hfits⟩, fun _ => runWith_recorded hf hstr hrecorded⟩
  · rw [if_neg hfits] at hrecorded
    constructor
    · intro hkept
      have hcalls := hkept.once
      rw [(runWith_failed hstr hrecorded).1] at hcalls
      exact absurd hcalls (by simp)
    · rintro ⟨g, hg, hsmall⟩
      obtain rfl := Option.some.inj (hf.symm.trans hg)
      exact absurd hsmall hfits

/-- Bytes that are not a text stop the command. -/
theorem CutPipe.command_iff {E : Codec V} {S : Serde V T} {kind : JobKind} {payload : T}
    {d : Folder V} {name : String} {stdin : ByteArray} (hjson : OnlyJson S.fromStr)
    (hkind : kind ≠ .cbmIndex) (h : CutPipe E S kind payload d name stdin)
    (job : T → Except String Unit) :
    NotLost payload name job
        (command (runWith S (loadFile E d) d · (some name) job) d stdin) ↔
      Readable E d name ∧ stdin.IsValidUTF8 := by
  rw [command, readToString, ← fromUTF8?_isSome_iff]
  cases hread : String.fromUTF8? stdin with
  | none =>
      constructor
      · intro hkept
        exact absurd hkept.once (by simp)
      · rintro ⟨-, text, htext⟩
        exact absurd htext (by simp)
  | some piece =>
      obtain rfl := toByteArray_of_fromUTF8? hread
      rw [and_iff_left ⟨piece, rfl⟩]
      exact h.runWith_iff hjson hkind job

/-- **A broken pipe does not lose or change a detached job, exactly when its checkpoint
file is within the cap and the piece ends between two characters.** -/
theorem cutPipe_kept_iff {E : Codec V} {fromStr : String → Except String V} {S : Serde V T}
    (hvalue : OnlyJson fromStr) (hrecord : OnlyJson S.fromStr) (d : Folder V) (name : String)
    (stdin : ByteArray) :
    (∀ payload store, CutPipe E (valueSerde E fromStr) .icmStore payload d name stdin →
        ((∀ piece, piece.toByteArray = stdin →
            (NotLost payload name store (runIcmStoreWith E fromStr d piece (some name) store) ↔
              Readable E d name)) ∧
          (NotLost payload name store (icmStore E fromStr d name store stdin) ↔
            Readable E d name ∧ stdin.IsValidUTF8))) ∧
      ∀ payload record, CutPipe E S .sessionLogRecord payload d name stdin →
        ((∀ piece, piece.toByteArray = stdin →
            (NotLost payload name record (runRecordWith E S d piece (some name) record) ↔
              Readable E d name)) ∧
          (NotLost payload name record (sessionLogRecord E S d name record stdin) ↔
            Readable E d name ∧ stdin.IsValidUTF8)) := by
  constructor
  · intro payload store h
    refine ⟨?_, h.command_iff hvalue (by decide) store⟩
    rintro piece rfl
    exact h.runWith_iff hvalue (by decide) store
  · intro payload record h
    refine ⟨?_, h.command_iff hrecord (by decide) record⟩
    rintro piece rfl
    exact h.runWith_iff hrecord (by decide) record

end

/-! ## Payloads of one field -/

/-- Characters that a string holds as they are. -/
def plainChars (cs : List Char) : Bool := cs.all fun c => c != '"' && c != '\\' && ' ' ≤ c

theorem quoted_of_plain {cs : List Char} (h : plainChars cs = true) :
    Quoted ('"' :: (cs ++ ['"'])) := by
  refine ⟨cs, ?_, rfl⟩
  induction cs with
  | nil => exact .nil
  | cons c cs ih =>
      simp only [plainChars, List.all_cons, Bool.and_eq_true, bne_iff_ne, decide_eq_true_eq] at h
      obtain ⟨⟨⟨hquote, hslash⟩, hspace⟩, hcs⟩ := h
      exact .plain hquote hslash hspace (ih hcs)

theorem valueText_field (key value : String) :
    (objectCodec.valueText [(key, value)]).toList =
      '{' :: (('"' :: (key.toList ++ ['"']) ++ ':' :: ('"' :: (value.toList ++ ['"']))) ++
        ['}']) := by
  simp [objectCodec, objectCodec.objectText, objectCodec.quoted, String.toList_append]

theorem object_of_plain {key value : String} (hkey : plainChars key.toList = true)
    (hvalue : plainChars value.toList = true) :
    Is .object (objectCodec.valueText [(key, value)]).toList := by
  have hblank : Blank [] := fun c hc => absurd hc List.not_mem_nil
  have hmember := Is.member hblank (quoted_of_plain hkey) hblank hblank
    (.string (quoted_of_plain hvalue)) hblank
  rw [valueText_field]
  simpa using Is.fields hmember

/-- A reader that knows one text. -/
def knownText (payload : List (String × String)) (text : String) :
    Except String (List (String × String)) :=
  if text = objectCodec.valueText payload then .ok payload else .error "EOF while parsing an object"

theorem onlyJson_knownText {payload : List (String × String)}
    (h : Is .object (objectCodec.valueText payload).toList) : OnlyJson (knownText payload) := by
  intro text inputs hok
  rw [knownText] at hok
  split at hok
  · rename_i htext
    subst htext
    exact ⟨[], _, [], by simp [Blank], .object h, by simp [Blank], by simp⟩
  · exact absurd hok (by simp)

def objectSerde (payload : List (String × String)) :
    Serde (List (String × String)) (List (String × String)) :=
  valueSerde objectCodec (knownText payload)

/-- The folder after `begin`. -/
def begunFolder (payload : List (String × String)) (sessionId cwd : String) :
    Folder (List (String × String)) :=
  (beginJob objectCodec Keyed.empty .icmStore payload (some sessionId) (some cwd) 0).1

def storeFile : String := "icm-store-387ffb2dc26f79fd.json"

section

variable {key value session folder : String} {stdin : ByteArray}

theorem begin_field
    (hsize : (objectCodec.valueText [(key, value)]).utf8ByteSize ≤ maxInputBytes) :
    beginJob objectCodec Keyed.empty .icmStore [(key, value)] (some session) (some folder) 0 =
      (save Keyed.empty storeFile
        (Checkpoint.new objectCodec .icmStore [(key, value)] (some session) (some folder) 0) 0,
        some storeFile) := by
  rw [beginJob, beginCheckpoint, if_neg (by decide), write]
  exact if_neg (Nat.not_lt.mpr hsize)

variable (key value session folder) in
theorem cutPipe_field (hkey : plainChars key.toList = true)
    (hvalue : plainChars value.toList = true)
    (hsize : (objectCodec.valueText [(key, value)]).utf8ByteSize ≤ maxInputBytes)
    (hcut : CutOff (objectCodec.valueText [(key, value)]) stdin) :
    CutPipe objectCodec (objectSerde [(key, value)]) .icmStore [(key, value)]
      (begunFolder [(key, value)] session folder) storeFile stdin := by
  refine ⟨object_of_plain hkey hvalue, rfl, ?_, hcut⟩
  refine ⟨Keyed.empty, some session, some folder, 0, ?_⟩
  rw [begunFolder]
  show beginJob objectCodec Keyed.empty .icmStore [(key, value)] _ _ 0 = _
  rw [begin_field hsize]

/-- The session id and the working directory are in the file beside the payload. -/
theorem fileBytes_field : objectCodec.fileBytes
    (Checkpoint.new objectCodec .icmStore [(key, value)] (some session) (some folder) 0) =
      (objectCodec.valueText [(key, value)]).utf8ByteSize + session.utf8ByteSize +
        folder.utf8ByteSize + 126 := by
  have hfile : ∀ c, objectCodec.fileBytes c = (objectCodec.checkpointText c).utf8ByteSize :=
    fun c => by simp only [objectCodec]
  have htext : objectCodec.valueText = objectCodec.objectText := by simp only [objectCodec]
  have hkey : keyFor objectCodec .icmStore [(key, value)] = "387ffb2dc26f79fd" := by
    simp only [keyFor, objectCodec]
  rw [hfile, htext]
  -- its equation lemma is slow to make
  unfold objectCodec.checkpointText
  simp only [objectCodec.quotedOrNull, objectCodec.quoted, Checkpoint.new, hkey, JobKind.asStr,
    String.utf8ByteSize_append]
  have hnames : "\x7b\"kind\":".utf8ByteSize + ",\"key\":".utf8ByteSize +
      ",\"phase\":".utf8ByteSize + ",\"inputs\":".utf8ByteSize + ",\"started_at\":".utf8ByteSize +
      ",\"attempts\":".utf8ByteSize + ",\"session_id\":".utf8ByteSize + ",\"cwd\":".utf8ByteSize +
      "\x7d".utf8ByteSize = 82 := by decide
  have hvalues : "icm-store".utf8ByteSize + "387ffb2dc26f79fd".utf8ByteSize +
      "started".utf8ByteSize + (toString 0).utf8ByteSize + (toString 1).utf8ByteSize = 34 := by
    decide
  have hquote : "\"".utf8ByteSize = 1 := by decide
  omega

theorem readable_field
    (hsize : (objectCodec.valueText [(key, value)]).utf8ByteSize ≤ maxInputBytes) :
    Readable objectCodec (begunFolder [(key, value)] session folder) storeFile ↔
      (objectCodec.valueText [(key, value)]).utf8ByteSize + session.utf8ByteSize +
        folder.utf8ByteSize + 126 ≤ maxCheckpointBytes := by
  rw [begunFolder, begin_field hsize, ← fileBytes_field]
  constructor
  · rintro ⟨f, hf, hfits⟩
    rw [save, Keyed.find?_put, if_pos rfl] at hf
    obtain rfl := Option.some.inj hf
    exact hfits
  · intro hfits
    refine ⟨⟨storeFile, Checkpoint.new objectCodec .icmStore [(key, value)] (some session)
      (some folder) 0, 0⟩, ?_, hfits⟩
    rw [save, Keyed.find?_put, if_pos rfl]

end

theorem cutPipe_kept_iff_empty :
    NotLost [("content", "hi")] storeFile (fun _ => .ok ())
      (icmStore objectCodec (knownText [("content", "hi")])
        (begunFolder [("content", "hi")] "s1" "/w") storeFile (fun _ => .ok ())
        ByteArray.empty) := by
  have hcut : CutOff (objectCodec.valueText [("content", "hi")]) ByteArray.empty :=
    ⟨(objectCodec.valueText [("content", "hi")]).toByteArray, by decide, ByteArray.empty_append⟩
  have hpipe := cutPipe_field "content" "hi" "s1" "/w" rfl rfl (by decide) hcut
  have hjson := onlyJson_knownText hpipe.object
  have hkept := (cutPipe_kept_iff (S := objectSerde _) hjson hjson _ storeFile ByteArray.empty).1 _
    (fun _ => .ok ()) hpipe
  exact hkept.2.mpr ⟨(readable_field (by decide)).mpr (by decide), by decide⟩

/-! ## Two payloads that are lost -/

/-- A session id that fills the payload. -/
def longSession : String := String.ofList (List.replicate 65000 'x')

def longCwd : String := "/" ++ String.ofList (List.replicate 4000 'd')

theorem utf8ByteSize_replicate {c : Char} (hc : c.utf8Size = 1) (n : Nat) :
    (String.ofList (List.replicate n c)).utf8ByteSize = n := by
  rw [String.utf8ByteSize_ofList]
  induction n with
  | zero => rfl
  | succ n ih => rw [List.replicate_succ, String.utf8Len_cons, ih, hc]

theorem plainChars_replicate (n : Nat) :
    plainChars (String.ofList (List.replicate n 'x')).toList = true := by
  rw [String.toList_ofList]
  refine List.all_eq_true.mpr fun c hc => ?_
  rw [List.eq_of_mem_replicate hc]
  rfl

theorem utf8ByteSize_longSession : longSession.utf8ByteSize = 65000 :=
  utf8ByteSize_replicate (by decide) 65000

def longPayload : List (String × String) := [("llmenv_request_key", longSession)]

theorem utf8ByteSize_longPayload : (objectCodec.valueText longPayload).utf8ByteSize = 65025 := by
  simp only [longPayload, objectCodec, objectCodec.objectText, objectCodec.quoted, List.map_cons,
    List.map_nil, String.intercalate_singleton, String.utf8ByteSize_append,
    utf8ByteSize_longSession]
  decide

theorem longPayload_small : (objectCodec.valueText longPayload).utf8ByteSize ≤ maxInputBytes := by
  rw [utf8ByteSize_longPayload]
  decide

/-- The session id is in the file twice, and with a long working directory the file is
above the cap. -/
theorem longPayload_not_readable :
    ¬ Readable objectCodec (begunFolder longPayload longSession longCwd) storeFile := by
  have hcwd : longCwd.utf8ByteSize = 4001 := by
    rw [longCwd, String.utf8ByteSize_append, utf8ByteSize_replicate (by decide)]
    decide
  have hpayload := utf8ByteSize_longPayload
  rw [longPayload] at hpayload
  rw [longPayload, readable_field longPayload_small, hpayload, utf8ByteSize_longSession, hcwd]
  decide

/-- `{"content":"é"}`, cut inside of its last letter. -/
def accentPiece : ByteArray := "\x7b\"content\":\"".toByteArray ++ ⟨#[0xC3]⟩

/-- A payload of 65025 bytes with its checkpoint, and nothing on the standard input; and a
piece that ends inside of a character. -/
theorem cutPipe_lost :
    (CutPipe objectCodec (objectSerde longPayload) .icmStore longPayload
        (begunFolder longPayload longSession longCwd) storeFile "".toByteArray ∧
      (objectCodec.valueText longPayload).utf8ByteSize ≤ 64 * 1024 ∧
      ¬ NotLost longPayload storeFile (fun _ => .ok ())
        (runIcmStoreWith objectCodec (knownText longPayload)
          (begunFolder longPayload longSession longCwd) "" (some storeFile) fun _ => .ok ())) ∧
    (CutPipe objectCodec (objectSerde [("content", "é")]) .icmStore [("content", "é")]
        (begunFolder [("content", "é")] "s1" "/w") storeFile accentPiece ∧
      ¬ NotLost [("content", "é")] storeFile (fun _ => .ok ())
        (icmStore objectCodec (knownText [("content", "é")])
          (begunFolder [("content", "é")] "s1" "/w") storeFile (fun _ => .ok ()) accentPiece)) := by
  constructor
  · have hplain : plainChars longSession.toList = true := plainChars_replicate 65000
    have hrest : (objectCodec.valueText longPayload).toByteArray.size ≠ 0 := by
      rw [String.size_toByteArray, utf8ByteSize_longPayload]
      decide
    have hcut : CutOff (objectCodec.valueText longPayload) "".toByteArray := by
      refine ⟨(objectCodec.valueText longPayload).toByteArray, hrest, ?_⟩
      rw [String.toByteArray_empty, ByteArray.empty_append]
    have hkey : plainChars "llmenv_request_key".toList = true := rfl
    have hpipe := cutPipe_field "llmenv_request_key" longSession longSession longCwd hkey hplain
      longPayload_small hcut
    have hjson := onlyJson_knownText hpipe.object
    refine ⟨hpipe, longPayload_small, fun hkept => ?_⟩
    exact longPayload_not_readable ((hpipe.runWith_iff hjson (by decide) _).mp hkept)
  · have hcut : CutOff (objectCodec.valueText [("content", "é")]) accentPiece :=
      ⟨⟨#[0xA9]⟩ ++ "\"\x7d".toByteArray, by decide, by decide⟩
    have hpipe := cutPipe_field "content" "é" "s1" "/w" rfl rfl (by decide) hcut
    have hjson := onlyJson_knownText hpipe.object
    refine ⟨hpipe, fun hkept => ?_⟩
    exact absurd ((hpipe.command_iff hjson (by decide) _).mp hkept).2 (by decide)

end Llmenv.Checkpoints
