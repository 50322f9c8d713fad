/-
# `Llmenv.Launch.Handshake` — who may take a notice, and how often

The handshake of `src/launch/socket.rs` and its client,
`src/hook_run/launch_client.rs`.  Client and server prove to each other that
they hold the token, with an HMAC over a role, both nonces and, in the answer,
the notice; then the server hands out what is in the slot.

Every message goes through the hands of an attacker, who drops, repeats, changes
and invents messages on any number of connections.  It is assumed that a proof
that verifies was made with the token (`Unforged`) and that a drawn nonce is new
(`Drawn`).  Then a notice is given out only to a client that asked for it
(`served_of_run`), a client shows only what was taken out of the slot for it
(`told_of_run`), and a notice that is put in `k` times is shown at most `k`
times (`once_of_run`).

The attacker can move the border between the nonces: a nonce with a NUL in it
has the bytes of two.  So the two sides agree on the bytes of both nonces and
not on each of them.
-/
import Llmenv.Lib.HexBytes
import Llmenv.Lib.History
import Llmenv.Lib.Runs
import Llmenv.Lib.Separated

namespace Llmenv.Launch.Handshake

open Llmenv.Lib Llmenv.Lib.Encode Llmenv.Lib.HexBytes

/-! ## The code -/

def tokenBytes : Nat := 32

def nonceBytes : Nat := 16

def isWellFormedToken (candidate : String) : Bool :=
  (utf8 candidate).length == tokenBytes * 2 && (hexDecode candidate).isSome

/-- Both nonces, as they stand in a message. -/
def transcript (client_nonce server_nonce : String) : Bytes :=
  utf8 client_nonce ++ 0 :: utf8 server_nonce

def handshakeMessage (role client_nonce server_nonce : String) (extra : Bytes) : Bytes :=
  utf8 role ++ 0 :: (utf8 client_nonce ++ 0 :: (utf8 server_nonce ++ 0 :: extra))

def noticeBytes : Option String → Bytes
  | some text => 1 :: utf8 text
  | none => [0]

structure ClientHello where
  nonce : String

structure ServerHello where
  proof : String
  nonce : String

structure Request where
  verb : String
  proof : String

structure Response where
  notice : Option String
  proof : String

section Crypto

-- `mac` is HMAC-SHA256 of a key and a message.
variable (mac : Bytes → Bytes → Bytes)

def hmacHex (secret : String) (message : Bytes) : String := hexEncode (mac (utf8 secret) message)

def verifyHmacHex (secret : String) (message : Bytes) (candidate_hex : String) : Bool :=
  match hexDecode candidate_hex with
  | none => false
  | some candidate => candidate == mac (utf8 secret) message

variable (token : String)

/-- The server's answer to a `ClientHello`. -/
def serverHello (hello : ClientHello) (server_nonce : String) : ServerHello where
  proof := hmacHex mac token (handshakeMessage "server" hello.nonce server_nonce [])
  nonce := server_nonce

def response (client_nonce server_nonce : String) (notice : Option String) : Response where
  notice := notice
  proof := hmacHex mac token
    (handshakeMessage "response" client_nonce server_nonce (noticeBytes notice))

/-- The server's part after the request, with the slot before and after it. -/
def serveRequest (client_nonce server_nonce : String) (slot : Option String) (request : Request) :
    Except String (Option Response) × Option String :=
  if !verifyHmacHex mac token (handshakeMessage "client" client_nonce server_nonce [])
      request.proof then
    -- The connection is closed without an answer.
    (.ok none, slot)
  else if request.verb = "pending_events" then
    (.ok (some (response mac token client_nonce server_nonce slot)), none)
  else (.error s!"unknown launch socket verb: {request.verb}", slot)

/-- The client's part after the `ServerHello`. -/
def clientRequest (client_nonce : String) (hello : ServerHello) : Option Request :=
  if !verifyHmacHex mac token (handshakeMessage "server" client_nonce hello.nonce []) hello.proof
  then none
  else some ⟨"pending_events",
    hmacHex mac token (handshakeMessage "client" client_nonce hello.nonce [])⟩

/-- The client's part after the response. -/
def clientNotice (client_nonce server_nonce : String) (response : Response) : Option String :=
  if !verifyHmacHex mac token
      (handshakeMessage "response" client_nonce server_nonce (noticeBytes response.notice))
      response.proof then none
  else response.notice

end Crypto

/-! ## The system -/

/-- How far a call of `fetch` is. -/
inductive Client where
  | idle
  | greeted (nonce : String)
  | requested (client_nonce server_nonce : String)
  | finished

/-- How far a connection of the server is. -/
inductive Server where
  | idle
  | challenged (client_nonce server_nonce : String)
  | finished

/-- What a task, a client of `γ` or a connection of `δ` has done. -/
inductive Event (γ δ : Type) where
  | pushed (text : String)
  | greeted (c : γ) (nonce : String)
  | challenged (d : δ) (client_nonce server_nonce : String)
  | requested (c : γ) (client_nonce server_nonce : String)
  | answered (d : δ) (client_nonce server_nonce : String) (notice : Option String)
  /-- The notice that `fetch` returns. -/
  | told (c : γ) (notice : String)
deriving DecidableEq

structure World (γ δ : Type) where
  slot : Option String
  clients : γ → Client
  servers : δ → Server
  log : List (Event γ δ)

/-- What happens next: a task sets a notice, or a client or a connection reads a message. -/
inductive Act (γ δ : Type) where
  | push (text : String)
  | connect (c : γ) (nonce : String)
  | clientHello (d : δ) (hello : ClientHello) (nonce : String)
  | serverHello (c : γ) (hello : ServerHello)
  | request (d : δ) (request : Request)
  | response (c : γ) (response : Response)
  /-- It runs out of time, or its stream fails. -/
  | dropClient (c : γ)
  | dropServer (d : δ)

section Steps

variable {γ δ : Type} [DecidableEq γ] [DecidableEq δ]

def World.setClient (w : World γ δ) (c : γ) (client : Client) : World γ δ :=
  { w with clients := Function.update w.clients c client }

def World.setServer (w : World γ δ) (d : δ) (server : Server) : World γ δ :=
  { w with servers := Function.update w.servers d server }

def World.setSlot (w : World γ δ) (slot : Option String) : World γ δ := { w with slot := slot }

def World.note (w : World γ δ) (event : Event γ δ) : World γ δ := { w with log := event :: w.log }

def start : World γ δ := ⟨none, fun _ => .idle, fun _ => .idle, []⟩

variable (mac : Bytes → Bytes → Bytes) (token : String)

def stepConnect (w : World γ δ) (c : γ) (nonce : String) : World γ δ :=
  match w.clients c with
  | .idle =>
      if !isWellFormedToken token then w.setClient c .finished
      else (w.setClient c (.greeted nonce)).note (.greeted c nonce)
  | _ => w

def stepClientHello (w : World γ δ) (d : δ) (hello : ClientHello) (nonce : String) : World γ δ :=
  match w.servers d with
  | .idle =>
      (w.setServer d (.challenged hello.nonce (serverHello mac token hello nonce).nonce)).note
        (.challenged d hello.nonce (serverHello mac token hello nonce).nonce)
  | _ => w

def stepServerHello (w : World γ δ) (c : γ) (hello : ServerHello) : World γ δ :=
  match w.clients c with
  | .greeted nonce =>
      match clientRequest mac token nonce hello with
      | none => w.setClient c .finished
      | some _ => (w.setClient c (.requested nonce hello.nonce)).note
          (.requested c nonce hello.nonce)
  | _ => w

def stepRequest (w : World γ δ) (d : δ) (request : Request) : World γ δ :=
  match w.servers d with
  | .challenged client_nonce server_nonce =>
      match serveRequest mac token client_nonce server_nonce w.slot request with
      | (.ok (some response), slot) =>
          ((w.setServer d .finished).setSlot slot).note
            (.answered d client_nonce server_nonce response.notice)
      | (_, slot) => (w.setServer d .finished).setSlot slot
  | _ => w

def stepResponse (w : World γ δ) (c : γ) (response : Response) : World γ δ :=
  match w.clients c with
  | .requested client_nonce server_nonce =>
      match clientNotice mac token client_nonce server_nonce response with
      | none => w.setClient c .finished
      | some notice => (w.setClient c .finished).note (.told c notice)
  | _ => w

def step (w : World γ δ) : Act γ δ → World γ δ
  | .push text => (w.setSlot (some text)).note (.pushed text)
  | .connect c nonce => stepConnect token w c nonce
  | .clientHello d hello nonce => stepClientHello mac token w d hello nonce
  | .serverHello c hello => stepServerHello mac token w c hello
  | .request d request => stepRequest mac token w d request
  | .response c response => stepResponse mac token w c response
  | .dropClient c => w.setClient c .finished
  | .dropServer d => w.setServer d .finished

end Steps

/-! ## What the attacker cannot do -/

section Attacker

variable {γ δ : Type}

/-- The message whose HMAC is computed for it. -/
def Event.signed? : Event γ δ → Option Bytes
  | .challenged _ cn sn => some (handshakeMessage "server" cn sn [])
  | .requested _ cn sn => some (handshakeMessage "client" cn sn [])
  | .answered _ cn sn notice => some (handshakeMessage "response" cn sn (noticeBytes notice))
  | _ => none

/-- What happens at most once. -/
inductive Mark (γ δ : Type) where
  | nonce (nonce : String)
  | asks (c : γ)
  | tells (c : γ)
  | challenges (d : δ)

def Event.marks : Event γ δ → List (Mark γ δ)
  | .greeted _ nonce => [.nonce nonce]
  | .challenged d _ nonce => [.nonce nonce, .challenges d]
  | .requested c _ _ => [.asks c]
  | .told c _ => [.tells c]
  | _ => []

def World.signed (w : World γ δ) : List Bytes := w.log.filterMap Event.signed?

/-- A nonce as this program writes it. -/
def IsNonce (nonce : String) : Prop :=
  ∃ bytes : Bytes, bytes.length = nonceBytes ∧ nonce = hexEncode bytes

/-- A nonce that was not drawn before. -/
def Drawn (w : World γ δ) (nonce : String) : Prop :=
  IsNonce nonce ∧ .nonce nonce ∉ w.log.flatMap Event.marks

variable (mac : Bytes → Bytes → Bytes) (token : String)

/-- A proof that verifies for a message is one that was made for it. -/
def Unforged (w : World γ δ) (message : Bytes) (proof : String) : Prop :=
  verifyHmacHex mac token message proof = true → message ∈ w.signed

/-- What the crypto keeps the attacker from. -/
def Env (w : World γ δ) : Act γ δ → Prop
  | .connect _ nonce => Drawn w nonce
  | .clientHello _ _ nonce => Drawn w nonce
  | .serverHello c hello => ∀ cn, w.clients c = .greeted cn →
      Unforged mac token w (handshakeMessage "server" cn hello.nonce []) hello.proof
  | .request d request => ∀ cn sn, w.servers d = .challenged cn sn →
      Unforged mac token w (handshakeMessage "client" cn sn []) request.proof
  | .response c response => ∀ cn sn, w.clients c = .requested cn sn →
      Unforged mac token w (handshakeMessage "response" cn sn (noticeBytes response.notice))
        response.proof
  | _ => True

end Attacker

/-! ## What a step can do -/

section Moves

variable {γ δ : Type} [DecidableEq γ] [DecidableEq δ]

/-- All that can happen in one step. -/
inductive Moves (w : World γ δ) : World γ δ → Prop
  | stay : Moves w w
  | push (text : String) : Moves w ((w.setSlot (some text)).note (.pushed text))
  | quitClient (c : γ) : Moves w (w.setClient c .finished)
  | quitServer (d : δ) : Moves w (w.setServer d .finished)
  | greet {c : γ} {nonce : String} (before : w.clients c = .idle) (drawn : Drawn w nonce) :
      Moves w ((w.setClient c (.greeted nonce)).note (.greeted c nonce))
  | challenge {d : δ} {cn sn : String} (before : w.servers d = .idle) (drawn : Drawn w sn) :
      Moves w ((w.setServer d (.challenged cn sn)).note (.challenged d cn sn))
  | ask {c : γ} {cn sn : String} (before : w.clients c = .greeted cn)
      (proved : handshakeMessage "server" cn sn [] ∈ w.signed) :
      Moves w ((w.setClient c (.requested cn sn)).note (.requested c cn sn))
  | answer {d : δ} {cn sn : String} (before : w.servers d = .challenged cn sn)
      (proved : handshakeMessage "client" cn sn [] ∈ w.signed) :
      Moves w (((w.setServer d .finished).setSlot none).note (.answered d cn sn w.slot))
  | tell {c : γ} {cn sn notice : String} (before : w.clients c = .requested cn sn)
      (proved : handshakeMessage "response" cn sn (noticeBytes (some notice)) ∈ w.signed) :
      Moves w ((w.setClient c .finished).note (.told c notice))

variable {mac : Bytes → Bytes → Bytes} {token : String}

theorem stepRequest_moves {w : World γ δ} {d : δ} {request : Request}
    (henv : Env mac token w (.request d request)) :
    Moves w (stepRequest mac token w d request) := by
  unfold stepRequest
  cases hstage : w.servers d with
  | idle => exact .stay
  | finished => exact .stay
  | challenged cn sn =>
      by_cases hproof : verifyHmacHex mac token (handshakeMessage "client" cn sn [])
          request.proof = true
      · by_cases hverb : request.verb = "pending_events"
        · simp only [serveRequest, hproof, hverb, Bool.not_true, Bool.false_eq_true, if_false,
            if_true]
          exact .answer hstage (henv cn sn hstage hproof)
        · simp only [serveRequest, hproof, hverb, Bool.not_true, Bool.false_eq_true, if_false]
          exact .quitServer d
      · simp only [serveRequest, hproof, Bool.not_false, if_true]
        exact .quitServer d

theorem clientNotice_eq_some {cn sn notice : String} {response : Response}
    (h : clientNotice mac token cn sn response = some notice) :
    response.notice = some notice ∧ verifyHmacHex mac token
      (handshakeMessage "response" cn sn (noticeBytes (some notice))) response.proof = true := by
  unfold clientNotice at h
  split at h
  · exact absurd h (by simp)
  · rename_i hproof
    rw [h] at hproof
    exact ⟨h, by simpa using hproof⟩

theorem stepResponse_moves {w : World γ δ} {c : γ} {response : Response}
    (henv : Env mac token w (.response c response)) :
    Moves w (stepResponse mac token w c response) := by
  unfold stepResponse
  cases hstage : w.clients c with
  | idle => exact .stay
  | greeted nonce => exact .stay
  | finished => exact .stay
  | requested cn sn =>
      simp only
      cases hnotice : clientNotice mac token cn sn response with
      | none => exact .quitClient c
      | some notice =>
          obtain ⟨hsent, hproof⟩ := clientNotice_eq_some hnotice
          have hunforged := henv cn sn hstage
          rw [hsent] at hunforged
          exact .tell hstage (hunforged hproof)

theorem verify_of_clientRequest {cn : String} {hello : ServerHello} {request : Request}
    (h : clientRequest mac token cn hello = some request) :
    verifyHmacHex mac token (handshakeMessage "server" cn hello.nonce []) hello.proof = true := by
  unfold clientRequest at h
  split at h
  · exact absurd h (by simp)
  · rename_i hproof
    simpa using hproof

theorem stepServerHello_moves {w : World γ δ} {c : γ} {hello : ServerHello}
    (henv : Env mac token w (.serverHello c hello)) :
    Moves w (stepServerHello mac token w c hello) := by
  unfold stepServerHello
  cases hstage : w.clients c with
  | idle => exact .stay
  | requested cn sn => exact .stay
  | finished => exact .stay
  | greeted cn =>
      simp only
      cases hrequest : clientRequest mac token cn hello with
      | none => exact .quitClient c
      | some request => exact .ask hstage (henv cn hstage (verify_of_clientRequest hrequest))

theorem stepConnect_moves {w : World γ δ} {c : γ} {nonce : String} (hdrawn : Drawn w nonce) :
    Moves w (stepConnect token w c nonce) := by
  unfold stepConnect
  cases hstage : w.clients c with
  | greeted cn => exact .stay
  | requested cn sn => exact .stay
  | finished => exact .stay
  | idle =>
      simp only
      split
      · exact .quitClient c
      · exact .greet hstage hdrawn

theorem stepClientHello_moves {w : World γ δ} {d : δ} {hello : ClientHello} {nonce : String}
    (hdrawn : Drawn w nonce) : Moves w (stepClientHello mac token w d hello nonce) := by
  unfold stepClientHello
  cases hstage : w.servers d with
  | idle => exact .challenge hstage hdrawn
  | challenged cn sn => exact .stay
  | finished => exact .stay

theorem step_moves {w : World γ δ} {act : Act γ δ} (henv : Env mac token w act) :
    Moves w (step mac token w act) := by
  cases act with
  | push text => exact .push text
  | connect c nonce => exact stepConnect_moves henv
  | clientHello d hello nonce => exact stepClientHello_moves henv
  | serverHello c hello => exact stepServerHello_moves henv
  | request d request => exact stepRequest_moves henv
  | response c response => exact stepResponse_moves henv
  | dropClient c => exact .quitClient c
  | dropServer d => exact .quitServer d

end Moves

/-! ## Messages -/

def IsRole (role : String) : Prop := role = "server" ∨ role = "client" ∨ role = "response"

theorem IsRole.zero_notMem {role : String} (h : IsRole role) : (0 : UInt8) ∉ utf8 role := by
  rcases h with rfl | rfl | rfl <;> decide

theorem handshakeMessage_eq (role cn sn : String) (extra : Bytes) :
    handshakeMessage role cn sn extra = utf8 role ++ 0 :: (transcript cn sn ++ 0 :: extra) := by
  simp [handshakeMessage, transcript]

theorem noticeBytes_inj {a b : Option String} (h : noticeBytes a = noticeBytes b) : a = b := by
  cases a with
  | none =>
      cases b with
      | none => rfl
      | some text => exact absurd (List.cons.inj h).1 (by decide)
  | some s =>
      cases b with
      | none => exact absurd (List.cons.inj h).1 (by decide)
      | some t => rw [utf8_inj (List.cons.inj h).2]

/-- The role of a message can be read off. -/
theorem role_inj {role role' cn sn cn' sn' : String} {extra extra' : Bytes}
    (hrole : IsRole role) (hrole' : IsRole role')
    (h : handshakeMessage role cn sn extra = handshakeMessage role' cn' sn' extra') :
    role = role' ∧ transcript cn sn ++ 0 :: extra = transcript cn' sn' ++ 0 :: extra' := by
  rw [handshakeMessage_eq, handshakeMessage_eq] at h
  obtain ⟨hr, hrest⟩ := Separated.first_part_inj hrole.zero_notMem hrole'.zero_notMem h
  exact ⟨utf8_inj hr, hrest⟩

/-- Without an extra the bytes of the nonces can be read off. -/
theorem transcript_of_message {role cn sn cn' sn' : String}
    (hrole : IsRole role)
    (h : handshakeMessage role cn sn [] = handshakeMessage role cn' sn' []) :
    transcript cn sn = transcript cn' sn' :=
  List.append_cancel_right (role_inj hrole hrole h).2

theorem IsNonce.zero_notMem {nonce : String} (h : IsNonce nonce) : (0 : UInt8) ∉ utf8 nonce := by
  obtain ⟨bytes, -, rfl⟩ := h
  exact zero_notMem_hexEncode bytes

theorem client_nonce_of_transcript {cn sn cn' sn' : String} (hcn : IsNonce cn) (hcn' : IsNonce cn')
    (h : transcript cn sn = transcript cn' sn') : cn = cn' :=
  utf8_inj (Separated.first_part_inj hcn.zero_notMem hcn'.zero_notMem h).1

theorem server_nonce_of_transcript {cn sn cn' sn' : String} (hsn : IsNonce sn) (hsn' : IsNonce sn')
    (h : transcript cn sn = transcript cn' sn') : sn = sn' :=
  utf8_inj (Separated.last_part_inj hsn.zero_notMem hsn'.zero_notMem h).2

/-! ## The log -/

section Log

variable {γ δ : Type}

/-- What must have happened before. -/
def Cause (log : List (Event γ δ)) : Event γ δ → Prop
  | .requested c cn sn => .greeted c cn ∈ log ∧
      handshakeMessage "server" cn sn [] ∈ log.filterMap Event.signed?
  | .answered d cn sn _ => .challenged d cn sn ∈ log ∧
      handshakeMessage "client" cn sn [] ∈ log.filterMap Event.signed?
  | .told c notice => ∃ cn sn, .requested c cn sn ∈ log ∧
      handshakeMessage "response" cn sn (noticeBytes (some notice)) ∈ log.filterMap Event.signed?
  | _ => True

structure Justified (e : Event γ δ) (older : List (Event γ δ)) : Prop where
  nonce : ∀ nonce, .nonce nonce ∈ e.marks → IsNonce nonce
  fresh : ∀ m ∈ e.marks, m ∉ older.flatMap Event.marks
  cause : Cause older e

theorem Cause.mono {log log' : List (Event γ δ)} (hsub : log ⊆ log') {e : Event γ δ}
    (h : Cause log e) : Cause log' e := by
  have hsigned : log.filterMap Event.signed? ⊆ log'.filterMap Event.signed? := by
    intro m hm
    obtain ⟨e', he', hem⟩ := List.mem_filterMap.mp hm
    exact List.mem_filterMap.mpr ⟨e', hsub he', hem⟩
  cases e with
  | requested c cn sn => exact ⟨hsub h.1, hsigned h.2⟩
  | answered d cn sn notice => exact ⟨hsub h.1, hsigned h.2⟩
  | told c notice =>
      obtain ⟨cn, sn, hasked, hproof⟩ := h
      exact ⟨cn, sn, hsub hasked, hsigned hproof⟩
  | pushed | greeted | challenged => trivial

variable {log : List (Event γ δ)}

theorem cause_of_mem (hlog : Each Justified log) {e : Event γ δ} (he : e ∈ log) : Cause log e := by
  obtain ⟨older, hsub, h⟩ := hlog.of_mem he
  exact h.cause.mono hsub

theorem isNonce_of_mem (hlog : Each Justified log) {e : Event γ δ} (he : e ∈ log) {nonce : String}
    (hn : .nonce nonce ∈ e.marks) : IsNonce nonce := by
  obtain ⟨older, -, h⟩ := hlog.of_mem he
  exact h.nonce nonce hn

theorem eq_of_mark (hlog : Each Justified log) {e e' : Event γ δ} {m : Mark γ δ} (he : e ∈ log)
    (he' : e' ∈ log) (hm : m ∈ e.marks) (hm' : m ∈ e'.marks) : e = e' :=
  hlog.eq_of_mark (fun _ _ h => h.fresh) he he' hm hm'

/-- Only the server proves itself as the server. -/
theorem challenged_of_signed {cn sn : String}
    (h : handshakeMessage "server" cn sn [] ∈ log.filterMap Event.signed?) :
    ∃ d cn' sn', .challenged d cn' sn' ∈ log ∧ transcript cn' sn' = transcript cn sn := by
  obtain ⟨e, he, hsigned⟩ := List.mem_filterMap.mp h
  cases e with
  | challenged d cn' sn' =>
      exact ⟨d, cn', sn', he, transcript_of_message (.inl rfl) (Option.some.inj hsigned)⟩
  | requested c cn' sn' =>
      exact absurd (role_inj (.inr (.inl rfl)) (.inl rfl) (Option.some.inj hsigned)).1 (by decide)
  | answered d cn' sn' notice =>
      exact absurd (role_inj (.inr (.inr rfl)) (.inl rfl) (Option.some.inj hsigned)).1 (by decide)
  | pushed | greeted | told => exact absurd hsigned (by simp [Event.signed?])

theorem requested_of_signed {cn sn : String}
    (h : handshakeMessage "client" cn sn [] ∈ log.filterMap Event.signed?) :
    ∃ c cn' sn', .requested c cn' sn' ∈ log ∧ transcript cn' sn' = transcript cn sn := by
  obtain ⟨e, he, hsigned⟩ := List.mem_filterMap.mp h
  cases e with
  | challenged d cn' sn' =>
      exact absurd (role_inj (.inl rfl) (.inr (.inl rfl)) (Option.some.inj hsigned)).1 (by decide)
  | requested c cn' sn' =>
      exact ⟨c, cn', sn', he, transcript_of_message (.inr (.inl rfl)) (Option.some.inj hsigned)⟩
  | answered d cn' sn' notice =>
      exact absurd (role_inj (.inr (.inr rfl)) (.inr (.inl rfl)) (Option.some.inj hsigned)).1
        (by decide)
  | pushed | greeted | told => exact absurd hsigned (by simp [Event.signed?])

theorem answered_of_signed {cn sn : String} {notice : Option String}
    (h : handshakeMessage "response" cn sn (noticeBytes notice) ∈ log.filterMap Event.signed?) :
    ∃ d cn' sn' notice', .answered d cn' sn' notice' ∈ log ∧
      transcript cn' sn' ++ 0 :: noticeBytes notice' =
        transcript cn sn ++ 0 :: noticeBytes notice := by
  obtain ⟨e, he, hsigned⟩ := List.mem_filterMap.mp h
  cases e with
  | challenged d cn' sn' =>
      exact absurd (role_inj (.inl rfl) (.inr (.inr rfl)) (Option.some.inj hsigned)).1 (by decide)
  | requested c cn' sn' =>
      exact absurd (role_inj (.inr (.inl rfl)) (.inr (.inr rfl)) (Option.some.inj hsigned)).1
        (by decide)
  | answered d cn' sn' notice' =>
      exact ⟨d, cn', sn', notice', he,
        (role_inj (.inr (.inr rfl)) (.inr (.inr rfl)) (Option.some.inj hsigned)).2⟩
  | pushed | greeted | told => exact absurd hsigned (by simp [Event.signed?])

/-! ## Agreement -/

/-- Clients that asked on the same bytes are one client, with the same nonces. -/
theorem asker_unique (hlog : Each Justified log) {c c' : γ} {cn sn cn' sn' : String}
    (h : .requested c cn sn ∈ log) (h' : .requested c' cn' sn' ∈ log)
    (heq : transcript cn sn = transcript cn' sn') : c = c' := by
  have hgreet := (cause_of_mem hlog h).1
  have hgreet' := (cause_of_mem hlog h').1
  obtain rfl := client_nonce_of_transcript
    (isNonce_of_mem hlog hgreet (List.mem_singleton_self _))
    (isNonce_of_mem hlog hgreet' (List.mem_singleton_self _)) heq
  have hone := eq_of_mark hlog hgreet hgreet' (m := .nonce cn) (List.mem_singleton_self _)
    (List.mem_singleton_self _)
  exact (Event.greeted.inj hone).1

theorem challenger_unique (hlog : Each Justified log) {d d' : δ} {cn sn cn' sn' : String}
    (h : .challenged d cn sn ∈ log) (h' : .challenged d' cn' sn' ∈ log)
    (heq : transcript cn sn = transcript cn' sn') : d = d' := by
  obtain rfl := server_nonce_of_transcript (isNonce_of_mem hlog h List.mem_cons_self)
    (isNonce_of_mem hlog h' List.mem_cons_self) heq
  have hone := eq_of_mark hlog h h' (m := .nonce sn) List.mem_cons_self List.mem_cons_self
  exact (Event.challenged.inj hone).1

/-- A client shows what the connection that it asked took out of the slot. -/
theorem answered_of_told (hlog : Each Justified log) {c : γ} {notice : String}
    (h : .told c notice ∈ log) :
    ∃ d cn sn cn' sn', .requested c cn sn ∈ log ∧ .answered d cn' sn' (some notice) ∈ log ∧
      transcript cn' sn' = transcript cn sn := by
  obtain ⟨cn, sn, hasked, hproof⟩ := cause_of_mem hlog h
  obtain ⟨d, cn', sn', notice', hanswered, heq⟩ := answered_of_signed hproof
  obtain ⟨c₁, cn₁, sn₁, hasked₁, heq₁⟩ := requested_of_signed (cause_of_mem hlog hanswered).2
  -- The client's own nonce has no NUL, so it is the first part of both.
  have hfirst : cn₁ = cn := by
    have hparts : utf8 cn₁ ++ 0 :: (utf8 sn₁ ++ 0 :: noticeBytes notice') =
        utf8 cn ++ 0 :: (utf8 sn ++ 0 :: noticeBytes (some notice)) := by
      rw [← heq₁] at heq
      simpa [transcript] using heq
    exact utf8_inj (Separated.first_part_inj
      (isNonce_of_mem hlog (cause_of_mem hlog hasked₁).1 (List.mem_singleton_self _)).zero_notMem
      (isNonce_of_mem hlog (cause_of_mem hlog hasked).1 (List.mem_singleton_self _)).zero_notMem
      hparts).1
  subst hfirst
  have hgreets := eq_of_mark hlog (cause_of_mem hlog hasked₁).1 (cause_of_mem hlog hasked).1
    (m := .nonce cn₁) (List.mem_singleton_self _) (List.mem_singleton_self _)
  obtain rfl := (Event.greeted.inj hgreets).1
  have hasks := eq_of_mark hlog hasked₁ hasked (m := .asks c₁) (List.mem_singleton_self _)
    (List.mem_singleton_self _)
  obtain ⟨-, -, rfl⟩ := Event.requested.inj hasks
  rw [← heq₁] at heq
  have hnotice := noticeBytes_inj (List.cons.inj (List.append_cancel_left heq)).2
  rw [hnotice] at hanswered
  exact ⟨d, cn₁, sn₁, cn', sn', hasked, hanswered, heq₁.symm⟩

end Log

/-! ## Every run -/

section Runs

variable {γ δ : Type}

/-- What the log has about the stage of client `c`. -/
structure ClientOk (log : List (Event γ δ)) (c : γ) (stage : Client) : Prop where
  greeting : ∀ n, stage = .greeted n → .greeted c n ∈ log
  asking : ∀ cn sn, stage = .requested cn sn → .requested c cn sn ∈ log
  asked : .asks c ∈ log.flatMap Event.marks →
    stage = .finished ∨ ∃ cn sn, stage = .requested cn sn
  told : .tells c ∈ log.flatMap Event.marks → stage = .finished

structure ServerOk (log : List (Event γ δ)) (d : δ) (stage : Server) : Prop where
  challenging : ∀ cn sn, stage = .challenged cn sn → .challenged d cn sn ∈ log
  challenged : .challenges d ∈ log.flatMap Event.marks → stage ≠ .idle

structure Inv (w : World γ δ) : Prop where
  log : Each Justified w.log
  clients : ∀ c, ClientOk w.log c (w.clients c)
  servers : ∀ d, ServerOk w.log d (w.servers d)

section Log

variable {log : List (Event γ δ)} {e : Event γ δ}

theorem mem_marks_cons {m : Mark γ δ} (hm : m ∉ e.marks)
    (h : m ∈ (e :: log).flatMap Event.marks) : m ∈ log.flatMap Event.marks := by
  rw [List.flatMap_cons, List.mem_append] at h
  exact h.resolve_left hm

/-- An event of another one does not matter. -/
theorem ClientOk.cons {c : γ} {stage : Client} (h : ClientOk log c stage)
    (hasks : .asks c ∉ e.marks) (htells : .tells c ∉ e.marks) : ClientOk (e :: log) c stage where
  greeting n hn := List.mem_cons_of_mem _ (h.greeting n hn)
  asking cn sn hn := List.mem_cons_of_mem _ (h.asking cn sn hn)
  asked hm := h.asked (mem_marks_cons hasks hm)
  told hm := h.told (mem_marks_cons htells hm)

theorem ServerOk.cons {d : δ} {stage : Server} (h : ServerOk log d stage)
    (hmark : .challenges d ∉ e.marks) : ServerOk (e :: log) d stage where
  challenging cn sn hn := List.mem_cons_of_mem _ (h.challenging cn sn hn)
  challenged hm := h.challenged (mem_marks_cons hmark hm)

theorem ClientOk.finished (log : List (Event γ δ)) (c : γ) : ClientOk log c .finished where
  greeting _ h := absurd h (by simp)
  asking _ _ h := absurd h (by simp)
  asked _ := .inl rfl
  told _ := rfl

theorem ServerOk.finished (log : List (Event γ δ)) (d : δ) : ServerOk log d .finished where
  challenging _ _ h := absurd h (by simp)
  challenged _ := by simp

end Log

theorem inv_start : Inv (start : World γ δ) where
  log := trivial
  clients _ := ⟨by simp [start], by simp [start], by simp [start], by simp [start]⟩
  servers _ := ⟨by simp [start], by simp [start]⟩

variable [DecidableEq γ] [DecidableEq δ] {w w' : World γ δ}

theorem Moves.inv (hmoves : Moves w w') (hw : Inv w) : Inv w' := by
  cases hmoves with
  | stay => exact hw
  | push text =>
      exact ⟨⟨⟨by simp [Event.marks], by simp [Event.marks], trivial⟩, hw.log⟩,
        fun c => (hw.clients c).cons (by simp [Event.marks]) (by simp [Event.marks]),
        fun d => (hw.servers d).cons (by simp [Event.marks])⟩
  | quitClient c =>
      exact ⟨hw.log, (Function.forall_update_iff _ _).mpr ⟨.finished _ c, fun c' _ => hw.clients c'⟩,
        hw.servers⟩
  | quitServer d =>
      exact ⟨hw.log, hw.clients,
        (Function.forall_update_iff _ _).mpr ⟨.finished _ d, fun d' _ => hw.servers d'⟩⟩
  | @greet c nonce before drawn =>
      have hok := hw.clients c
      rw [before] at hok
      refine ⟨⟨⟨by simpa [Event.marks] using drawn.1, List.forall_mem_singleton.mpr drawn.2, trivial⟩,
        hw.log⟩, (Function.forall_update_iff _ _).mpr ⟨⟨?_, ?_, ?_, ?_⟩, ?_⟩,
        fun d => (hw.servers d).cons (by simp [Event.marks])⟩
      · intro n hn
        obtain rfl := Client.greeted.inj hn
        exact List.mem_cons_self
      · exact fun _ _ h => absurd h (by simp)
      · intro h
        exact absurd (hok.asked (mem_marks_cons (by simp [Event.marks]) h)) (by simp)
      · intro h
        exact absurd (hok.told (mem_marks_cons (by simp [Event.marks]) h)) (by simp)
      · exact fun c' _ => (hw.clients c').cons (by simp [Event.marks]) (by simp [Event.marks])
  | @challenge d cn sn before drawn =>
      have hfresh : .challenges d ∉ w.log.flatMap Event.marks :=
        fun h => (hw.servers d).challenged h before
      refine ⟨⟨⟨?_, ?_, trivial⟩, hw.log⟩,
        fun c => (hw.clients c).cons (by simp [Event.marks]) (by simp [Event.marks]),
        (Function.forall_update_iff _ _).mpr ⟨⟨?_, by simp⟩, ?_⟩⟩
      · simpa [Event.marks] using drawn.1
      · intro m hm
        simp only [Event.marks, List.mem_cons, List.not_mem_nil, or_false] at hm
        rcases hm with rfl | rfl
        · exact drawn.2
        · exact hfresh
      · intro cn' sn' hn
        obtain ⟨rfl, rfl⟩ := Server.challenged.inj hn
        exact List.mem_cons_self
      · intro d' hne
        exact (hw.servers d').cons (by simp [Event.marks, hne])
  | @ask c cn sn before proved =>
      have hok := hw.clients c
      rw [before] at hok
      have hfresh : .asks c ∉ w.log.flatMap Event.marks := fun h => by simpa using hok.asked h
      refine ⟨⟨⟨by simp [Event.marks], List.forall_mem_singleton.mpr hfresh,
        ⟨hok.greeting cn rfl, proved⟩⟩, hw.log⟩,
        (Function.forall_update_iff _ _).mpr ⟨⟨?_, ?_, ?_, ?_⟩, ?_⟩,
        fun d => (hw.servers d).cons (by simp [Event.marks])⟩
      · exact fun _ h => absurd h (by simp)
      · intro cn' sn' hn
        obtain ⟨rfl, rfl⟩ := Client.requested.inj hn
        exact List.mem_cons_self
      · exact fun _ => .inr ⟨cn, sn, rfl⟩
      · intro h
        exact absurd (hok.told (mem_marks_cons (by simp [Event.marks]) h)) (by simp)
      · exact fun c' hne => (hw.clients c').cons (by simp [Event.marks, hne]) (by simp [Event.marks])
  | @answer d cn sn before proved =>
      exact ⟨⟨⟨by simp [Event.marks], by simp [Event.marks],
          ⟨(hw.servers d).challenging cn sn before, proved⟩⟩, hw.log⟩,
        fun c => (hw.clients c).cons (by simp [Event.marks]) (by simp [Event.marks]),
        (Function.forall_update_iff _ _).mpr ⟨.finished _ d, fun d' _ =>
          (hw.servers d').cons (by simp [Event.marks])⟩⟩
  | @tell c cn sn notice before proved =>
      have hok := hw.clients c
      rw [before] at hok
      have hfresh : .tells c ∉ w.log.flatMap Event.marks := fun h => by simpa using hok.told h
      exact ⟨⟨⟨by simp [Event.marks], List.forall_mem_singleton.mpr hfresh,
          ⟨cn, sn, hok.asking cn sn rfl, proved⟩⟩, hw.log⟩,
        (Function.forall_update_iff _ _).mpr ⟨.finished _ c, fun c' hne =>
          (hw.clients c').cons (by simp [Event.marks]) (by simp [Event.marks, hne])⟩,
        fun d => (hw.servers d).cons (by simp [Event.marks])⟩

variable (mac : Bytes → Bytes → Bytes) (token : String)

theorem log_of_run {is : List (Act γ δ)}
    (henv : Guarded (step mac token) (Env mac token) start is) :
    Each Justified (runFrom (step mac token) start is).log :=
  (inv_of_guarded Inv (fun _ _ hw hG => (step_moves hG).inv hw) inv_start henv).log

end Runs

/-! ## A notice is shown once -/

section Once

variable {γ δ : Type}

/-- The client that is told this text. -/
def Event.toldOf? (text : String) : Event γ δ → Option γ
  | .told c notice => if notice = text then some c else none
  | _ => none

/-- The connection that gives this text out. -/
def Event.givenOf? (text : String) : Event γ δ → Option δ
  | .answered d _ _ notice => if notice = some text then some d else none
  | _ => none

/-- The clients that were told the text. -/
def shown (text : String) (log : List (Event γ δ)) : List γ := log.filterMap (Event.toldOf? text)

def given (text : String) (log : List (Event γ δ)) : List δ := log.filterMap (Event.givenOf? text)

variable {text : String} {log : List (Event γ δ)}

theorem mem_shown {c : γ} : c ∈ shown text log ↔ .told c text ∈ log := by
  rw [shown, List.mem_filterMap]
  constructor
  · rintro ⟨e, he, hc⟩
    cases e with
    | told c' notice =>
        simp only [Event.toldOf?] at hc
        split at hc
        · rename_i hn
          obtain rfl := Option.some.inj hc
          exact hn ▸ he
        · exact absurd hc (by simp)
    | pushed | greeted | challenged | requested | answered =>
        exact absurd hc (by simp [Event.toldOf?])
  · intro h
    exact ⟨_, h, by simp [Event.toldOf?]⟩

theorem mem_given_of_answered {d : δ} {cn sn : String}
    (h : .answered d cn sn (some text) ∈ log) : d ∈ given text log :=
  List.mem_filterMap.mpr ⟨_, h, by simp [Event.givenOf?]⟩

theorem nodup_shown (hlog : Each Justified log) : (shown text log).Nodup := by
  refine hlog.nodup_filterMap ?_
  intro e older c hjust hkey hmem
  have htold : .told c text ∈ older := mem_shown.mp hmem
  cases e with
  | told c' notice =>
      simp only [Event.toldOf?] at hkey
      split at hkey
      · obtain rfl := Option.some.inj hkey
        exact hjust.fresh (.tells c') (List.mem_singleton_self _)
          (List.mem_flatMap_of_mem htold (List.mem_singleton_self _))
      · exact absurd hkey (by simp)
  | pushed | greeted | challenged | requested | answered =>
      exact absurd hkey (by simp [Event.toldOf?])

/-- A connection that gave out the text told one client of it. -/
theorem length_shown_le (hlog : Each Justified log) :
    (shown text log).length ≤ (given text log).length := by
  have hsome : ∀ c ∈ shown text log, ∃ d, ∃ cn sn cn' sn', .requested c cn sn ∈ log ∧
      .answered d cn' sn' (some text) ∈ log ∧ transcript cn' sn' = transcript cn sn :=
    fun c hc => answered_of_told hlog (mem_shown.mp hc)
  rcases isEmpty_or_nonempty δ with hempty | hnonempty
  · have hnil : shown text log = [] := List.eq_nil_iff_forall_not_mem.mpr
      fun c hc => (hsome c hc).elim fun d _ => hempty.false d
    simp [hnil]
  choose! f hf using hsome
  have hinj : ∀ c ∈ shown text log, ∀ c' ∈ shown text log, f c = f c' → c = c' := by
    intro c hc c' hc' heq
    obtain ⟨cn, sn, dn, tn, hasked, hanswered, htrans⟩ := hf c hc
    obtain ⟨cn', sn', dn', tn', hasked', hanswered', htrans'⟩ := hf c' hc'
    have hchal := (cause_of_mem hlog hanswered).1
    have hchal' := (cause_of_mem hlog hanswered').1
    rw [← heq] at hchal'
    have hone := eq_of_mark hlog hchal hchal' (m := .challenges (f c)) (by simp [Event.marks])
      (by simp [Event.marks])
    obtain ⟨-, rfl, rfl⟩ := Event.challenged.inj hone
    exact asker_unique hlog hasked hasked' (htrans.symm.trans htrans')
  have hnodup : ((shown text log).map f).Nodup :=
    (nodup_shown hlog).map_on hinj
  have hsub : (shown text log).map f ⊆ given text log := by
    intro d hd
    obtain ⟨c, hc, rfl⟩ := List.mem_map.mp hd
    obtain ⟨_, _, _, _, -, hanswered, -⟩ := hf c hc
    exact mem_given_of_answered hanswered
  have hle := (List.subperm_of_subset hnodup hsub).length_le
  rwa [List.length_map] at hle

/-- One if the text is in the slot. -/
def pending (text : String) (slot : Option String) : Nat := if slot = some text then 1 else 0

variable [DecidableEq γ] [DecidableEq δ]

theorem budget_cons {e : Event γ δ} {k : Nat} (hgiven : e.givenOf? text = none)
    (hne : e ≠ .pushed text) (h : (given text log).length + k ≤ log.count (.pushed text)) :
    (given text (e :: log)).length + k ≤ (e :: log).count (.pushed text) := by
  rw [given, List.filterMap_cons_none hgiven, List.count_cons_of_ne hne]
  exact h

/-- What was given out or is in the slot was put there. -/
theorem Moves.given {w w' : World γ δ} (hmoves : Moves w w')
    (hw : (given text w.log).length + pending text w.slot ≤ w.log.count (.pushed text)) :
    (given text w'.log).length + pending text w'.slot ≤ w'.log.count (.pushed text) := by
  cases hmoves with
  | stay | quitClient | quitServer => exact hw
  | push t =>
      simp only [World.note, World.setSlot]
      by_cases ht : t = text
      · subst ht
        rw [Handshake.given, List.filterMap_cons_none rfl, List.count_cons_self, pending,
          if_pos rfl]
        exact Nat.succ_le_succ ((Nat.le_add_right _ _).trans hw)
      · have hpending : pending text (some t) = 0 := if_neg fun h => ht (Option.some.inj h)
        rw [hpending]
        exact budget_cons rfl (fun h => ht (Event.pushed.inj h)) ((Nat.le_add_right _ _).trans hw)
  | greet | challenge | ask | tell => exact budget_cons rfl (by simp) hw
  | @answer d cn sn before proved =>
      have hpending : pending text none = 0 := if_neg (by simp)
      simp only [World.note, World.setSlot, World.setServer, hpending]
      by_cases ht : w.slot = some text
      · have hgiven : (Event.answered d cn sn w.slot : Event γ δ).givenOf? text = some d := by
          simp [Event.givenOf?, ht]
        rw [Handshake.given, List.filterMap_cons_some hgiven, List.count_cons_of_ne (by simp)]
        rw [ht, pending, if_pos rfl] at hw
        exact hw
      · exact budget_cons (by simp [Event.givenOf?, ht]) (by simp)
          ((Nat.le_add_right _ _).trans hw)

end Once

/-! ## An undisturbed exchange -/

section Exchange

variable {γ δ : Type} [DecidableEq γ] [DecidableEq δ] {mac : Bytes → Bytes → Bytes} {token : String}

@[simp] theorem verifyHmacHex_hmacHex (message : Bytes) :
    verifyHmacHex mac token message (hmacHex mac token message) = true := by
  simp [verifyHmacHex, hmacHex]

/-- The request of a client that got the server's hello. -/
def requestOf (mac : Bytes → Bytes → Bytes) (token cn sn : String) : Request :=
  ⟨"pending_events", hmacHex mac token (handshakeMessage "client" cn sn [])⟩

theorem clientRequest_serverHello (cn sn : String) :
    clientRequest mac token cn (serverHello mac token ⟨cn⟩ sn) =
      some (requestOf mac token cn sn) := by
  simp [clientRequest, serverHello, requestOf]

theorem serveRequest_requestOf (cn sn : String) (slot : Option String) :
    serveRequest mac token cn sn slot (requestOf mac token cn sn) =
      (.ok (some (response mac token cn sn slot)), none) := by
  simp [serveRequest, requestOf]

theorem clientNotice_response (cn sn : String) (slot : Option String) :
    clientNotice mac token cn sn (response mac token cn sn slot) = slot := by
  simp [clientNotice, response]

/-- The steps of one client and one connection, when each message gets to the other side. -/
def exchange (mac : Bytes → Bytes → Bytes) (token : String) (c : γ) (d : δ) (cn sn : String)
    (slot : Option String) : List (Act γ δ) :=
  [.connect c cn, .clientHello d ⟨cn⟩ sn, .serverHello c (serverHello mac token ⟨cn⟩ sn),
    .request d (requestOf mac token cn sn), .response c (response mac token cn sn slot)]

def greetedWorld (w : World γ δ) (c : γ) (cn : String) : World γ δ :=
  (w.setClient c (.greeted cn)).note (.greeted c cn)

def challengedWorld (w : World γ δ) (c : γ) (d : δ) (cn sn : String) : World γ δ :=
  ((greetedWorld w c cn).setServer d (.challenged cn sn)).note (.challenged d cn sn)

def requestedWorld (w : World γ δ) (c : γ) (d : δ) (cn sn : String) : World γ δ :=
  ((challengedWorld w c d cn sn).setClient c (.requested cn sn)).note (.requested c cn sn)

def answeredWorld (w : World γ δ) (c : γ) (d : δ) (cn sn : String) : World γ δ :=
  (((requestedWorld w c d cn sn).setServer d .finished).setSlot none).note
    (.answered d cn sn w.slot)

variable {w : World γ δ} {c : γ} {d : δ} {cn sn : String}

theorem step_connect (htoken : isWellFormedToken token = true) (hc : w.clients c = .idle) :
    step mac token w (.connect c cn) = greetedWorld w c cn := by
  simp [step, stepConnect, hc, htoken, greetedWorld]

theorem step_clientHello (hd : w.servers d = .idle) :
    step mac token (greetedWorld w c cn) (.clientHello d ⟨cn⟩ sn) =
      challengedWorld w c d cn sn := by
  have hserver : (greetedWorld w c cn).servers d = .idle := hd
  simp [step, stepClientHello, hserver, challengedWorld, serverHello]

theorem step_serverHello :
    step mac token (challengedWorld w c d cn sn) (.serverHello c (serverHello mac token ⟨cn⟩ sn)) =
      requestedWorld w c d cn sn := by
  have hclient : (challengedWorld w c d cn sn).clients c = .greeted cn := Function.update_self ..
  simp only [step, stepServerHello, hclient, clientRequest_serverHello]
  rfl

theorem step_request :
    step mac token (requestedWorld w c d cn sn) (.request d (requestOf mac token cn sn)) =
      answeredWorld w c d cn sn := by
  have hserver : (requestedWorld w c d cn sn).servers d = .challenged cn sn :=
    Function.update_self ..
  simp only [step, stepRequest, hserver, serveRequest_requestOf]
  rfl

theorem step_response :
    step mac token (answeredWorld w c d cn sn) (.response c (response mac token cn sn w.slot)) =
      match w.slot with
      | none => (answeredWorld w c d cn sn).setClient c .finished
      | some text => ((answeredWorld w c d cn sn).setClient c .finished).note (.told c text) := by
  have hclient : (answeredWorld w c d cn sn).clients c = .requested cn sn := Function.update_self ..
  simp only [step, stepResponse, hclient, clientNotice_response]

theorem runFrom_exchange (htoken : isWellFormedToken token = true) (hc : w.clients c = .idle)
    (hd : w.servers d = .idle) :
    runFrom (step mac token) w (exchange mac token c d cn sn w.slot) =
      match w.slot with
      | none => (answeredWorld w c d cn sn).setClient c .finished
      | some text => ((answeredWorld w c d cn sn).setClient c .finished).note (.told c text) := by
  simp only [exchange, runFrom_cons, runFrom_nil, step_connect htoken hc, step_clientHello hd,
    step_serverHello, step_request, step_response]

/-- With two new nonces it is a run that the crypto allows. -/
theorem guarded_exchange (htoken : isWellFormedToken token = true) (hc : w.clients c = .idle)
    (hd : w.servers d = .idle) (hcn : Drawn w cn) (hsn : Drawn w sn) (hne : sn ≠ cn) :
    Guarded (step mac token) (Env mac token) w (exchange mac token c d cn sn w.slot) := by
  refine ⟨hcn, ?_⟩
  rw [step_connect htoken hc]
  refine ⟨⟨hsn.1, ?_⟩, ?_⟩
  · intro h
    exact hsn.2 (mem_marks_cons (e := .greeted c cn) (by simpa [Event.marks] using hne) h)
  rw [step_clientHello hd]
  refine ⟨fun cn' h _ => ?_, ?_⟩
  · have hclient : (challengedWorld w c d cn sn).clients c = .greeted cn := Function.update_self ..
    obtain rfl := Client.greeted.inj (hclient.symm.trans h)
    exact List.mem_cons_self
  rw [step_serverHello]
  refine ⟨fun cn' sn' h _ => ?_, ?_⟩
  · have hserver : (requestedWorld w c d cn sn).servers d = .challenged cn sn :=
      Function.update_self ..
    obtain ⟨rfl, rfl⟩ := Server.challenged.inj (hserver.symm.trans h)
    exact List.mem_cons_self
  rw [step_request]
  refine ⟨fun cn' sn' h _ => ?_, trivial⟩
  have hclient : (answeredWorld w c d cn sn).clients c = .requested cn sn := Function.update_self ..
  obtain ⟨rfl, rfl⟩ := Client.requested.inj (hclient.symm.trans h)
  exact List.mem_cons_self

/-! ## One notice, one client -/

def sampleToken : String := "000102030405060708090a0b0c0d0e0f101112131415161718191a1b1c1d1e1f"

def sampleNonce : String := "303132333435363738393a3b3c3d3e3f"

def sampleServerNonce : String := "505152535455565758595a5b5c5d5e5f"

/-- The messages of the sample and their HMAC-SHA256 under the sample token. -/
def samples : List (Bytes × String) :=
  [(handshakeMessage "server" sampleNonce sampleServerNonce [],
      "8dbf76d84e44240d477a57d51f88bd216dbc88eee5454ab7954db6614eaa194b"),
    (handshakeMessage "client" sampleNonce sampleServerNonce [],
      "556892097acec91282d1cf524e666c7ac582c0310f727d93de83d0b065e4dbce"),
    (handshakeMessage "response" sampleNonce sampleServerNonce (noticeBytes (some "config changed")),
      "ad8cedaa8a8ee7c3329ba60de8c3833fd0c86e02ddd3fa372eb812b3a5ddb85d")]

def sampleMac (key message : Bytes) : Bytes :=
  if key = utf8 sampleToken then ((samples.lookup message).bind hexDecode).getD [] else []

/-- The config has changed. -/
def sampleStart : World Nat Nat :=
  (start.setSlot (some "config changed")).note (.pushed "config changed")

/-- Client 0 asks on connection 0. -/
def sampleExchange : List (Act Nat Nat) :=
  exchange sampleMac sampleToken 0 0 sampleNonce sampleServerNonce sampleStart.slot

def sampleWorld : World Nat Nat :=
  runFrom (step sampleMac sampleToken) start (.push "config changed" :: sampleExchange)

theorem step_start : step sampleMac sampleToken start (.push "config changed") = sampleStart := rfl

theorem wellFormed_sampleToken : isWellFormedToken sampleToken = true := by decide

theorem drawn_sampleNonce : Drawn sampleStart sampleNonce :=
  ⟨⟨(List.range 16).map fun k => UInt8.ofNat (0x30 + k), rfl, by decide⟩, by
    simp [sampleStart, start, World.note, World.setSlot, Event.marks]⟩

theorem drawn_sampleServerNonce : Drawn sampleStart sampleServerNonce :=
  ⟨⟨(List.range 16).map fun k => UInt8.ofNat (0x50 + k), rfl, by decide⟩, by
    simp [sampleStart, start, World.note, World.setSlot, Event.marks]⟩

theorem guarded_sample : Guarded (step sampleMac sampleToken) (Env sampleMac sampleToken) start
    (.push "config changed" :: sampleExchange) := by
  refine ⟨trivial, ?_⟩
  rw [step_start]
  exact guarded_exchange wellFormed_sampleToken rfl rfl drawn_sampleNonce drawn_sampleServerNonce
    (by decide)

theorem told_sample : .told 0 "config changed" ∈ sampleWorld.log := by
  rw [sampleWorld, runFrom_cons, step_start, sampleExchange,
    runFrom_exchange wellFormed_sampleToken rfl rfl]
  exact List.mem_cons_self

end Exchange

/-! ## The results -/

section Results

variable {γ δ : Type} [DecidableEq γ] [DecidableEq δ] {mac : Bytes → Bytes → Bytes} {token : String}

/-- Who asks, asks a connection of the server, and who is answered is a client that asked: on the
same bytes, and one for one. -/
theorem agreement_of_run {is : List (Act γ δ)}
    (henv : Guarded (step mac token) (Env mac token) start is) :
    (∀ c cn sn, .requested c cn sn ∈ (runFrom (step mac token) start is).log →
      ∃ d cn' sn', .challenged d cn' sn' ∈ (runFrom (step mac token) start is).log ∧
        transcript cn' sn' = transcript cn sn ∧
        ∀ c₁ cn₁ sn₁, .requested c₁ cn₁ sn₁ ∈ (runFrom (step mac token) start is).log →
          transcript cn₁ sn₁ = transcript cn sn → c₁ = c) ∧
    (∀ d cn sn notice, .answered d cn sn notice ∈ (runFrom (step mac token) start is).log →
      ∃ c cn' sn', .requested c cn' sn' ∈ (runFrom (step mac token) start is).log ∧
        transcript cn' sn' = transcript cn sn ∧
        ∀ d₁ cn₁ sn₁ notice₁,
          .answered d₁ cn₁ sn₁ notice₁ ∈ (runFrom (step mac token) start is).log →
          transcript cn₁ sn₁ = transcript cn sn → d₁ = d) := by
  have hlog := log_of_run mac token henv
  refine ⟨?_, ?_⟩
  · intro c cn sn hasked
    obtain ⟨d, cn', sn', hd, heq⟩ := challenged_of_signed (cause_of_mem hlog hasked).2
    exact ⟨d, cn', sn', hd, heq, fun c₁ cn₁ sn₁ h₁ heq₁ => asker_unique hlog h₁ hasked heq₁⟩
  · intro d cn sn notice hanswered
    obtain ⟨c, cn', sn', hc, heq⟩ := requested_of_signed (cause_of_mem hlog hanswered).2
    exact ⟨c, cn', sn', hc, heq, fun d₁ cn₁ sn₁ notice₁ h₁ heq₁ =>
      challenger_unique hlog (cause_of_mem hlog h₁).1 (cause_of_mem hlog hanswered).1 heq₁⟩

theorem agreement_of_sample :
    (∀ c cn sn, .requested c cn sn ∈ sampleWorld.log →
      ∃ d cn' sn', .challenged d cn' sn' ∈ sampleWorld.log ∧
        transcript cn' sn' = transcript cn sn ∧
        ∀ c₁ cn₁ sn₁, .requested c₁ cn₁ sn₁ ∈ sampleWorld.log →
          transcript cn₁ sn₁ = transcript cn sn → c₁ = c) ∧
    (∀ d cn sn notice, .answered d cn sn notice ∈ sampleWorld.log →
      ∃ c cn' sn', .requested c cn' sn' ∈ sampleWorld.log ∧
        transcript cn' sn' = transcript cn sn ∧
        ∀ d₁ cn₁ sn₁ notice₁, .answered d₁ cn₁ sn₁ notice₁ ∈ sampleWorld.log →
          transcript cn₁ sn₁ = transcript cn sn → d₁ = d) :=
  agreement_of_run guarded_sample

/-- A notice is given out, or waits in the slot, at most as often as it was put there. -/
theorem given_of_run (text : String) {is : List (Act γ δ)}
    (henv : Guarded (step mac token) (Env mac token) start is) :
    (given text (runFrom (step mac token) start is).log).length +
        pending text (runFrom (step mac token) start is).slot ≤
      (runFrom (step mac token) start is).log.count (.pushed text) :=
  inv_of_guarded
    (fun w : World γ δ => (given text w.log).length + pending text w.slot ≤
      w.log.count (.pushed text))
    (fun _ _ hw hG => (step_moves hG).given hw) (Nat.zero_le _) henv

/-- A notice is shown, or waits in the slot, at most as often as it was put there. -/
theorem once_of_run (text : String) {is : List (Act γ δ)}
    (henv : Guarded (step mac token) (Env mac token) start is) :
    (shown text (runFrom (step mac token) start is).log).length +
        pending text (runFrom (step mac token) start is).slot ≤
      (runFrom (step mac token) start is).log.count (.pushed text) := by
  have hlog := log_of_run mac token henv
  exact (Nat.add_le_add_right (length_shown_le hlog) _).trans (given_of_run text henv)

theorem once_of_sample :
    (shown "config changed" sampleWorld.log).length + pending "config changed" sampleWorld.slot ≤
      sampleWorld.log.count (.pushed "config changed") := by
  rw [sampleWorld]
  exact once_of_run "config changed" guarded_sample

/-- What a client shows was put into the slot, and the connection that it asked took it out. -/
theorem told_of_run {is : List (Act γ δ)}
    (henv : Guarded (step mac token) (Env mac token) start is) {c : γ} {notice : String}
    (h : .told c notice ∈ (runFrom (step mac token) start is).log) :
    .pushed notice ∈ (runFrom (step mac token) start is).log ∧
    ∃ d cn sn cn' sn', .requested c cn sn ∈ (runFrom (step mac token) start is).log ∧
      .answered d cn' sn' (some notice) ∈ (runFrom (step mac token) start is).log ∧
      transcript cn' sn' = transcript cn sn := by
  have hlog := log_of_run mac token henv
  refine ⟨?_, answered_of_told hlog h⟩
  have hgiven := given_of_run notice henv
  have hpos := (List.length_pos_of_mem (mem_shown.mpr h)).trans_le (length_shown_le hlog)
  exact List.count_pos_iff.mp (by omega)

theorem told_of_sample :
    .pushed "config changed" ∈ sampleWorld.log ∧
    ∃ d cn sn cn' sn', .requested 0 cn sn ∈ sampleWorld.log ∧
      .answered d cn' sn' (some "config changed") ∈ sampleWorld.log ∧
      transcript cn' sn' = transcript cn sn :=
  told_of_run guarded_sample told_sample

end Results

end Llmenv.Launch.Handshake
