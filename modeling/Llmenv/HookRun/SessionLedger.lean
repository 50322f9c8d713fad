/-
# `Llmenv.HookRun.SessionLedger` — what one session has seen and waits for

The `Ledger` of `src/hook_run/session_ledger.rs`: the records each model context
was sent, the last tool calls and errors, and the subagent tasks that wait for
their `SubagentStart`.

Every collection stays in its bound in every run, the parent conversation is
never evicted, and a queued task is handed out at most once, in the order of its
type, and not after it was dropped or went stale (`ledger_holds`).  A task is
followed from the call that queued it, by `Llmenv.Lib.Queue`.
-/
import Mathlib.Data.String.Basic
import Llmenv.Lib.Fields
import Llmenv.Lib.Queue
import Llmenv.Lib.Runs
import Llmenv.Transcript.Link

namespace Llmenv.HookRun.SessionLedger

open Llmenv.Lib
open Llmenv.Transcript (saturatingSub)

/-! ## The code -/

/-- The agent key for the parent conversation. -/
def mainAgent : String := "main"

def activityCap : Nat := 20

def errorsCap : Nat := 5

def pendingCap : Nat := 8

def maxAgents : Nat := 32

def pendingTtlSecs : Int := 300

def errorHeadBytes : Nat := 300

def taskHeadChars : Nat := 600

/-- One injected-record set per model context. -/
structure AgentState where
  sent : Finset String
  scopeSent : Bool
deriving DecidableEq

def AgentState.default : AgentState := ⟨∅, false⟩

structure Activity where
  tool : String
  target : Option String
  at_ : Int
deriving DecidableEq

structure ToolError where
  tool : String
  head : String
  at_ : Int
deriving DecidableEq

structure PendingSubagent where
  toolUseId : String
  subagentType : String
  task : String
  at_ : Int
deriving DecidableEq

structure Ledger where
  epoch : Nat
  agents : SortedMap String AgentState
  activity : List Activity
  errors : List ToolError
  pendingSubagents : List PendingSubagent

def Ledger.default : Ledger := ⟨0, SortedMap.empty, [], [], []⟩

/-- `u64::saturating_add(1)`. -/
def saturatingSucc (n : Nat) : Nat := min (n + 1) (2 ^ 64 - 1)

/-- The newest `cap` entries of the ring with the new one. -/
def pushCapped {α : Type} (ring : List α) (entry : α) (cap : Nat) : List α :=
  (ring ++ [entry]).drop ((ring ++ [entry]).length - cap)

/-- The characters that fit in `max` bytes. -/
def headChars (max : Nat) : List Char → List Char
  | [] => []
  | c :: cs => if c.utf8Size ≤ max then c :: headChars (max - c.utf8Size) cs else []

def headBytes (text : String) (max : Nat) : String := String.ofList (headChars max text.toList)

namespace Ledger

/-- Start a new epoch: every context forgets what it was sent. -/
def reset (l : Ledger) : Ledger :=
  { l with epoch := saturatingSucc l.epoch, agents := SortedMap.empty }

def sentFor (l : Ledger) (agent : String) : Finset String :=
  ((Fields.get agent l.agents.items).map AgentState.sent).getD ∅

def knowsAgent (l : Ledger) (agent : String) : Bool := (Fields.get agent l.agents.items).isSome

def scopeSent (l : Ledger) (agent : String) : Bool :=
  ((Fields.get agent l.agents.items).map AgentState.scopeSent).getD false

/-- Make room for a new agent: the first key but `main` goes. -/
def makeRoom (l : Ledger) (agent : String) : Ledger :=
  if !l.knowsAgent agent && decide (maxAgents ≤ l.agents.items.length) then
    match (l.agents.items.map Prod.fst).find? (fun k => decide (k ≠ mainAgent)) with
    | some victim => { l with agents := l.agents.erase victim }
    | none => l
  else l

/-- `agent_mut`: the entry for `agent`, created if missing, after `f` has changed it. -/
def agentMut (l : Ledger) (agent : String) (f : AgentState → AgentState) : Ledger :=
  let l := l.makeRoom agent
  let entry := (Fields.get agent l.agents.items).getD AgentState.default
  { l with agents := l.agents.insert agent (f entry) }

def markSent (l : Ledger) (agent : String) (hashes : List String) : Ledger :=
  l.agentMut agent fun a => { a with sent := a.sent ∪ hashes.toFinset }

def setScopeSent (l : Ledger) (agent : String) : Ledger :=
  l.agentMut agent fun a => { a with scopeSent := true }

/-- Whether any activity arrived after `at_`. -/
def activitySince (l : Ledger) (at_ : Int) : Bool :=
  (l.activity.getLast?.map fun a => decide (at_ < a.at_)).getD false

def pushActivity (l : Ledger) (entry : Activity) : Ledger :=
  { l with activity := pushCapped l.activity entry activityCap }

def pushError (l : Ledger) (tool error : String) (now : Int) : Ledger :=
  { l with errors := pushCapped l.errors ⟨tool, headBytes error errorHeadBytes, now⟩ errorsCap }

/-- Whether a queued task is not stale yet. -/
def isFresh (now : Int) (p : PendingSubagent) : Bool :=
  decide (saturatingSub now p.at_ ≤ pendingTtlSecs)

def dropExpired (l : Ledger) (now : Int) : Ledger :=
  { l with pendingSubagents := l.pendingSubagents.filter (isFresh now) }

/-- The entry of one `Agent` call. -/
def queued (toolUseId subagentType prompt : String) (now : Int) : PendingSubagent :=
  ⟨toolUseId, subagentType, String.ofList (prompt.toList.take taskHeadChars), now⟩

/-- Queue a subagent task.  A repeat of the same tool-use id is ignored. -/
def queueSubagent (l : Ledger) (toolUseId subagentType prompt : String) (now : Int) : Ledger :=
  let l := l.dropExpired now
  if l.pendingSubagents.any (fun p => decide (p.toolUseId = toolUseId)) then l
  else { l with pendingSubagents :=
          pushCapped l.pendingSubagents (queued toolUseId subagentType prompt now) pendingCap }

/-- Remove and return the oldest queued task of a type. -/
def takeSubagent (l : Ledger) (agentType : String) (now : Int) :
    Ledger × Option PendingSubagent :=
  let l := l.dropExpired now
  let ofType := fun p : PendingSubagent => decide (p.subagentType = agentType)
  ({ l with pendingSubagents := l.pendingSubagents.eraseP ofType },
    l.pendingSubagents.find? ofType)

/-- Remove the queued task of one `Agent` call. -/
def dropSubagent (l : Ledger) (toolUseId : String) : Ledger :=
  { l with pendingSubagents :=
      l.pendingSubagents.filter fun p => decide (p.toolUseId ≠ toolUseId) }

end Ledger

/-! ## Runs -/

/-- One call of an operation that changes the ledger. -/
inductive Call where
  | reset
  | markSent (agent : String) (hashes : List String)
  | setScopeSent (agent : String)
  | pushActivity (entry : Activity)
  | pushError (tool error : String) (now : Int)
  | queueSubagent (toolUseId subagentType prompt : String) (now : Int)
  | takeSubagent (agentType : String) (now : Int)
  | dropSubagent (toolUseId : String)
deriving DecidableEq

def step (l : Ledger) : Call → Ledger
  | .reset => l.reset
  | .markSent agent hashes => l.markSent agent hashes
  | .setScopeSent agent => l.setScopeSent agent
  | .pushActivity entry => l.pushActivity entry
  | .pushError tool error now => l.pushError tool error now
  | .queueSubagent toolUseId subagentType prompt now =>
      l.queueSubagent toolUseId subagentType prompt now
  | .takeSubagent agentType now => (l.takeSubagent agentType now).1
  | .dropSubagent toolUseId => l.dropSubagent toolUseId

/-- The ledger of a session after its calls. -/
def run (calls : List Call) : Ledger := runFrom step Ledger.default calls

/-! ## The agents -/

section Agents

variable {l : Ledger} {agent : String}

theorem knowsAgent_iff : l.knowsAgent agent ↔ agent ∈ (Fields.keys l.agents.items).toFinset := by
  rw [List.mem_toFinset, Fields.mem_keys, Ledger.knowsAgent, Option.isSome_iff_ne_none]

theorem length_agents (l : Ledger) :
    l.agents.items.length = (Fields.keys l.agents.items).toFinset.card :=
  Fields.length_eq_card l.agents.sorted

/-- Nothing goes, or a known agent that is not `main` makes room for one that is not known. -/
theorem makeRoom_cases (l : Ledger) (agent : String) :
    (l.makeRoom agent = l ∧ (l.knowsAgent agent ∨ l.agents.items.length < maxAgents)) ∨
    ∃ victim, victim ≠ mainAgent ∧ l.knowsAgent victim ∧
      l.makeRoom agent = { l with agents := l.agents.erase victim } := by
  unfold Ledger.makeRoom
  split
  · rename_i hfull
    rw [Bool.and_eq_true, Bool.not_eq_true', decide_eq_true_eq] at hfull
    right
    split
    · rename_i victim hfind
      refine ⟨victim, by simpa using List.find?_some hfind, ?_, rfl⟩
      rw [knowsAgent_iff, List.mem_toFinset]
      exact List.mem_of_find?_eq_some hfind
    · -- More than one key, so one of them is not `main`.
      rename_i hfind
      have hmain : (Fields.keys l.agents.items).toFinset ⊆ {mainAgent} := by
        intro k hk
        have hkey := List.find?_eq_none.mp hfind k (List.mem_toFinset.mp hk)
        simpa using hkey
      have hcard := Finset.card_le_card hmain
      rw [← length_agents, Finset.card_singleton] at hcard
      exact absurd (hfull.2.trans hcard) (by decide)
  · rename_i hroom
    left
    refine ⟨rfl, ?_⟩
    rw [Bool.and_eq_true, Bool.not_eq_true', decide_eq_true_eq, not_and_or, not_le] at hroom
    simpa using hroom

theorem length_agentMut (agent : String) (f : AgentState → AgentState)
    (hl : l.agents.items.length ≤ maxAgents) :
    (l.agentMut agent f).agents.items.length ≤ maxAgents := by
  have hkeys : (Fields.keys (l.agentMut agent f).agents.items).toFinset =
      insert agent (Fields.keys (l.makeRoom agent).agents.items).toFinset :=
    Fields.keys_insert _ _ _
  rw [length_agents, hkeys]
  rw [length_agents] at hl
  rcases makeRoom_cases l agent with ⟨heq, hknown | hroom⟩ | ⟨victim, -, hvictim, heq⟩
  · rw [heq, Finset.insert_eq_of_mem (knowsAgent_iff.mp hknown)]
    exact hl
  · rw [heq]
    rw [length_agents] at hroom
    exact (Finset.card_insert_le _ _).trans hroom
  · have herase : (Fields.keys (l.makeRoom agent).agents.items).toFinset =
        (Fields.keys l.agents.items).toFinset.erase victim := by
      rw [heq]
      exact Fields.keys_erase _ _
    have hlt := Finset.card_erase_lt_of_mem (knowsAgent_iff.mp hvictim)
    rw [herase]
    exact (Finset.card_insert_le _ _).trans (lt_of_lt_of_le hlt hl)

theorem get_main_makeRoom (l : Ledger) (agent : String) :
    Fields.get mainAgent (l.makeRoom agent).agents.items =
      Fields.get mainAgent l.agents.items := by
  rcases makeRoom_cases l agent with ⟨heq, -⟩ | ⟨victim, hne, -, heq⟩
  · rw [heq]
  · rw [heq]
    exact (Fields.get_erase victim mainAgent l.agents.items).trans (if_neg hne)

/-- The parent conversation stays known, and its set only grows. -/
structure MainKept (l l' : Ledger) : Prop where
  known : l.knowsAgent mainAgent → l'.knowsAgent mainAgent
  sent : l.sentFor mainAgent ⊆ l'.sentFor mainAgent

theorem MainKept.of_agents {l l' : Ledger} (h : l'.agents = l.agents) : MainKept l l' := by
  refine ⟨?_, ?_⟩
  · rw [Ledger.knowsAgent, Ledger.knowsAgent, h]
    exact id
  · rw [Ledger.sentFor, Ledger.sentFor, h]

theorem MainKept.trans {l l' l'' : Ledger} (h : MainKept l l') (h' : MainKept l' l'') :
    MainKept l l'' :=
  ⟨fun hknown => h'.known (h.known hknown), h.sent.trans h'.sent⟩

theorem get_main_agentMut (f : AgentState → AgentState) :
    Fields.get mainAgent (l.agentMut agent f).agents.items =
      if agent = mainAgent then
        some (f ((Fields.get mainAgent l.agents.items).getD AgentState.default))
      else Fields.get mainAgent l.agents.items := by
  have hget := Fields.get_insert agent mainAgent
    (f ((Fields.get agent (l.makeRoom agent).agents.items).getD AgentState.default))
    (l.makeRoom agent).agents.items
  refine hget.trans ?_
  split
  · rename_i hagent
    rw [hagent, get_main_makeRoom]
  · exact get_main_makeRoom l agent

theorem mainKept_agentMut {f : AgentState → AgentState} (hf : ∀ a, a.sent ⊆ (f a).sent) :
    MainKept l (l.agentMut agent f) := by
  refine ⟨?_, ?_⟩
  · rw [Ledger.knowsAgent, Ledger.knowsAgent, get_main_agentMut]
    intro hknown
    split
    · rfl
    · exact hknown
  · rw [Ledger.sentFor, Ledger.sentFor, get_main_agentMut]
    split
    · cases Fields.get mainAgent l.agents.items with
      | none => exact Finset.empty_subset _
      | some a => exact hf a
    · exact Finset.Subset.refl _

theorem mainKept_step {c : Call} (hc : c ≠ .reset) : MainKept l (step l c) := by
  cases c with
  | reset => exact absurd rfl hc
  | markSent agent hashes =>
      exact mainKept_agentMut (f := fun a => { a with sent := a.sent ∪ hashes.toFinset })
        fun a => Finset.subset_union_left
  | setScopeSent agent =>
      exact mainKept_agentMut (f := fun a => { a with scopeSent := true })
        fun a => Finset.Subset.refl _
  | pushActivity entry => exact MainKept.of_agents rfl
  | pushError tool error now => exact MainKept.of_agents rfl
  | queueSubagent toolUseId subagentType prompt now =>
      refine MainKept.of_agents ?_
      show (l.queueSubagent toolUseId subagentType prompt now).agents = l.agents
      simp only [Ledger.queueSubagent]
      split
      · rfl
      · rfl
  | takeSubagent agentType now => exact MainKept.of_agents rfl
  | dropSubagent toolUseId => exact MainKept.of_agents rfl

theorem mainKept_run {calls : List Call} (hcalls : Call.reset ∉ calls) :
    MainKept l (runFrom step l calls) := by
  induction calls generalizing l with
  | nil => exact MainKept.of_agents rfl
  | cons c calls ih =>
      obtain ⟨hc, hrest⟩ := not_or.mp (fun h => hcalls (List.mem_cons.mpr h))
      exact (mainKept_step (Ne.symm hc)).trans (ih hrest)

end Agents

/-! ## The rings -/

theorem length_pushCapped {α : Type} (ring : List α) (entry : α) (cap : Nat) :
    (pushCapped ring entry cap).length ≤ cap := by
  rw [pushCapped, List.length_drop]
  omega

/-- A ring with room for one entry keeps the new one. -/
theorem pushCapped_eq {α : Type} (ring : List α) (entry : α) (cap : Nat) (hcap : 0 < cap) :
    ∃ kept, kept.Sublist ring ∧ pushCapped ring entry cap = kept ++ [entry] := by
  refine ⟨ring.drop ((ring ++ [entry]).length - cap), List.drop_sublist _ _, ?_⟩
  rw [pushCapped, List.drop_append_of_le_length]
  rw [List.length_append, List.length_singleton]
  omega

/-! ## The queue of subagent tasks -/

/-- The entry a call puts at the end of the queue. -/
def addedBy (l : Ledger) : Call → Option PendingSubagent
  | .queueSubagent toolUseId subagentType prompt now =>
      if (l.dropExpired now).pendingSubagents.any
          (fun p => decide (p.toolUseId = toolUseId)) then none
      else some (Ledger.queued toolUseId subagentType prompt now)
  | _ => none

/-- The entry a call hands out. -/
def handedBy (l : Ledger) : Call → Option PendingSubagent
  | .takeSubagent agentType now => (l.takeSubagent agentType now).2
  | _ => none

/-- The calls that take a time, and so drop what is stale. -/
def Call.now : Call → Option Int
  | .queueSubagent _ _ _ now => some now
  | .takeSubagent _ now => some now
  | _ => none

/-- Whether a call takes an entry out of the queue for good. -/
def Removes (c : Call) (p : PendingSubagent) : Prop :=
  c = .dropSubagent p.toolUseId ∨ ∃ now, c.now = some now ∧ Ledger.isFresh now p = false

theorem isFresh_queued (toolUseId subagentType prompt : String) (now : Int) :
    Ledger.isFresh now (Ledger.queued toolUseId subagentType prompt now) = true := by
  simp [Ledger.isFresh, Ledger.queued, saturatingSub, pendingTtlSecs]

theorem not_id_of_addedBy {l : Ledger} {c : Call} {p : PendingSubagent}
    (h : addedBy l c = some p) :
    ∃ now, c.now = some now ∧ Ledger.isFresh now p ∧
      ∀ p' ∈ (l.dropExpired now).pendingSubagents, p'.toolUseId ≠ p.toolUseId := by
  cases c with
  | queueSubagent toolUseId subagentType prompt now =>
      simp only [addedBy] at h
      split at h
      · exact absurd h (by simp)
      · rename_i hany
        obtain rfl := Option.some.inj h
        refine ⟨now, rfl, isFresh_queued _ _ _ _, ?_⟩
        intro p' hp' heq
        exact hany (List.any_eq_true.mpr ⟨p', hp', by simpa [Ledger.queued] using heq⟩)
  | _ => exact absurd h (by simp [addedBy])

/-- Only what is not stale stays, and only a new id comes, so it is a new entry. -/
theorem not_mem_of_addedBy {l : Ledger} {c : Call} {p : PendingSubagent}
    (h : addedBy l c = some p) : p ∉ l.pendingSubagents := by
  obtain ⟨now, -, hfresh, hids⟩ := not_id_of_addedBy h
  intro hp
  exact hids p (List.mem_filter.mpr ⟨hp, hfresh⟩) rfl

theorem agentMut_eq (l : Ledger) (agent : String) (f : AgentState → AgentState) :
    ∃ agents, l.agentMut agent f = ⟨l.epoch, agents, l.activity, l.errors, l.pendingSubagents⟩ := by
  rcases makeRoom_cases l agent with ⟨heq, -⟩ | ⟨victim, -, -, heq⟩
  · exact ⟨_, by rw [Ledger.agentMut, heq]⟩
  · exact ⟨_, by rw [Ledger.agentMut, heq]⟩

theorem pending_agentMut (l : Ledger) (agent : String) (f : AgentState → AgentState) :
    (l.agentMut agent f).pendingSubagents = l.pendingSubagents := by
  obtain ⟨agents, heq⟩ := agentMut_eq l agent f
  rw [heq]

theorem not_removes_of_now {c : Call} {now : Int} {p : PendingSubagent} (hc : c.now = some now)
    (hp : Ledger.isFresh now p) : ¬ Removes c p := by
  rintro (rfl | ⟨now', hc', hstale⟩)
  · exact absurd hc (by simp [Call.now])
  · obtain rfl : now = now' := Option.some.inj (hc.symm.trans hc')
    exact absurd (hp.symm.trans hstale) (by decide)

/-- What one call does to the queue: a part stays, without what the call removes, and the new
entry comes last. -/
theorem pending_step (l : Ledger) (c : Call) :
    ∃ kept, kept.Sublist l.pendingSubagents ∧ (∀ p ∈ kept, ¬ Removes c p) ∧
      (step l c).pendingSubagents = kept ++ (addedBy l c).toList := by
  have hall : ∀ {c : Call}, (∀ p, ¬ Removes c p) → addedBy l c = none →
      (step l c).pendingSubagents = l.pendingSubagents →
      ∃ kept, kept.Sublist l.pendingSubagents ∧ (∀ p ∈ kept, ¬ Removes c p) ∧
        (step l c).pendingSubagents = kept ++ (addedBy l c).toList := by
    intro c hremoves hadded hstep
    refine ⟨l.pendingSubagents, List.Sublist.refl _, fun p _ => hremoves p, ?_⟩
    rw [hadded, hstep, Option.toList_none, List.append_nil]
  cases c with
  | reset => exact hall (by simp [Removes, Call.now]) rfl rfl
  | markSent agent hashes =>
      exact hall (by simp [Removes, Call.now]) rfl (pending_agentMut l agent _)
  | setScopeSent agent =>
      exact hall (by simp [Removes, Call.now]) rfl (pending_agentMut l agent _)
  | pushActivity entry => exact hall (by simp [Removes, Call.now]) rfl rfl
  | pushError tool error now => exact hall (by simp [Removes, Call.now]) rfl rfl
  | queueSubagent toolUseId subagentType prompt now =>
      have hfresh : ∀ p ∈ (l.dropExpired now).pendingSubagents,
          ¬ Removes (.queueSubagent toolUseId subagentType prompt now) p :=
        fun p hp => not_removes_of_now rfl (List.mem_filter.mp hp).2
      have hsub : (l.dropExpired now).pendingSubagents.Sublist l.pendingSubagents :=
        List.filter_sublist
      simp only [step, Ledger.queueSubagent, addedBy]
      split
      · exact ⟨_, hsub, hfresh, (List.append_nil _).symm⟩
      · obtain ⟨kept, hkept, heq⟩ := pushCapped_eq (l.dropExpired now).pendingSubagents
          (Ledger.queued toolUseId subagentType prompt now) pendingCap (by decide)
        exact ⟨kept, hkept.trans hsub, fun p hp => hfresh p (hkept.subset hp), heq⟩
  | takeSubagent agentType now =>
      refine ⟨((l.dropExpired now).pendingSubagents).eraseP
        (fun p => decide (p.subagentType = agentType)), ?_, ?_, (List.append_nil _).symm⟩
      · exact List.eraseP_sublist.trans List.filter_sublist
      · intro p hp
        exact not_removes_of_now rfl (List.mem_filter.mp (List.eraseP_sublist.subset hp)).2
  | dropSubagent toolUseId =>
      refine ⟨l.pendingSubagents.filter fun p => decide (p.toolUseId ≠ toolUseId),
        List.filter_sublist, ?_, (List.append_nil _).symm⟩
      rintro p hp (heq | ⟨now, hnow, -⟩)
      · have hid : toolUseId = p.toolUseId := Call.dropSubagent.inj heq
        exact of_decide_eq_true (List.mem_filter.mp hp).2 hid.symm
      · exact absurd hnow (by simp [Call.now])

/-- What a call hands out is a queued entry that it does not remove, the first of its type that
is not stale, and it is in the queue no more. -/
theorem handedBy_some {l : Ledger} {c : Call} {p : PendingSubagent} (hl : l.pendingSubagents.Nodup)
    (h : handedBy l c = some p) :
    ∃ now, c = .takeSubagent p.subagentType now ∧ Ledger.isFresh now p ∧
      p ∈ l.pendingSubagents ∧ p ∉ (step l c).pendingSubagents ∧
      ∀ p', [p', p].Sublist l.pendingSubagents → p'.subagentType = p.subagentType →
        Ledger.isFresh now p' = false := by
  cases c with
  | takeSubagent agentType now =>
      have hfind : (l.dropExpired now).pendingSubagents.find?
          (fun p => decide (p.subagentType = agentType)) = some p := h
      obtain ⟨hp, xs, ys, heq, hxs⟩ := List.find?_eq_some_iff_append.mp hfind
      obtain rfl : p.subagentType = agentType := of_decide_eq_true hp
      have hmem : p ∈ (l.dropExpired now).pendingSubagents := List.mem_of_find?_eq_some hfind
      have hnodup : (l.dropExpired now).pendingSubagents.Nodup := hl.sublist List.filter_sublist
      refine ⟨now, rfl, (List.mem_filter.mp hmem).2, (List.mem_filter.mp hmem).1, ?_, ?_⟩
      · intro hstay
        have herase : (step l (.takeSubagent p.subagentType now)).pendingSubagents = xs ++ ys := by
          show ((l.dropExpired now).pendingSubagents).eraseP
            (fun p' => decide (p'.subagentType = p.subagentType)) = xs ++ ys
          rw [heq, List.eraseP_append_right _ (by simpa using hxs)]
          simp
        rw [heq] at hnodup
        rw [herase] at hstay
        exact (List.nodup_cons.mp (List.nodup_middle.mp hnodup)).1 hstay
      · intro p' hbefore htype
        by_contra hfresh
        have hmem' : p' ∈ (l.dropExpired now).pendingSubagents :=
          List.mem_filter.mpr ⟨hbefore.subset List.mem_cons_self, by simpa using hfresh⟩
        have hbefore' : [p', p].Sublist (l.dropExpired now).pendingSubagents :=
          before_of_sublist List.filter_sublist hl hbefore hmem' hmem
        rw [heq] at hbefore' hnodup
        have hnot := hxs p' (mem_left_of_before hnodup hbefore')
        simp [htype] at hnot
  | _ => exact absurd h (by simp [handedBy])

/-! ## Every run -/

/-- The bounds of the collections, and the ids of the queue. -/
structure Bounded (l : Ledger) : Prop where
  agents : l.agents.items.length ≤ maxAgents
  activity : l.activity.length ≤ activityCap
  errors : l.errors.length ≤ errorsCap
  pending : l.pendingSubagents.length ≤ pendingCap
  ids : (l.pendingSubagents.map PendingSubagent.toolUseId).Nodup

theorem bounded_default : Bounded Ledger.default :=
  ⟨Nat.zero_le _, Nat.zero_le _, Nat.zero_le _, Nat.zero_le _, List.nodup_nil⟩

theorem bounded_agentMut {l : Ledger} (h : Bounded l) (agent : String)
    (f : AgentState → AgentState) : Bounded (l.agentMut agent f) := by
  have hagents := length_agentMut agent f h.agents
  obtain ⟨agents, heq⟩ := agentMut_eq l agent f
  rw [heq] at hagents ⊢
  exact ⟨hagents, h.activity, h.errors, h.pending, h.ids⟩

theorem Bounded.of_sublist {l : Ledger} (h : Bounded l) {pending : List PendingSubagent}
    (hsub : pending.Sublist l.pendingSubagents) :
    Bounded { l with pendingSubagents := pending } :=
  ⟨h.agents, h.activity, h.errors, hsub.length_le.trans h.pending, h.ids.sublist (hsub.map _)⟩

theorem bounded_step {l : Ledger} (h : Bounded l) (c : Call) : Bounded (step l c) := by
  cases c with
  | reset => exact ⟨Nat.zero_le _, h.activity, h.errors, h.pending, h.ids⟩
  | markSent agent hashes =>
      exact bounded_agentMut h agent fun a => { a with sent := a.sent ∪ hashes.toFinset }
  | setScopeSent agent => exact bounded_agentMut h agent fun a => { a with scopeSent := true }
  | pushActivity entry =>
      exact ⟨h.agents, length_pushCapped _ _ _, h.errors, h.pending, h.ids⟩
  | pushError tool error now =>
      exact ⟨h.agents, h.activity, length_pushCapped _ _ _, h.pending, h.ids⟩
  | queueSubagent toolUseId subagentType prompt now =>
      have hfresh : Bounded (l.dropExpired now) := h.of_sublist List.filter_sublist
      show Bounded (l.queueSubagent toolUseId subagentType prompt now)
      simp only [Ledger.queueSubagent]
      split
      · exact hfresh
      · rename_i hany
        refine ⟨hfresh.agents, hfresh.activity, hfresh.errors, length_pushCapped _ _ _, ?_⟩
        obtain ⟨kept, hkept, heq⟩ := pushCapped_eq (l.dropExpired now).pendingSubagents
          (Ledger.queued toolUseId subagentType prompt now) pendingCap (by decide)
        rw [heq, List.map_append, List.map_singleton]
        refine (hfresh.ids.sublist (hkept.map _)).append (List.nodup_singleton _) ?_
        intro k hk hk'
        obtain ⟨p, hp, rfl⟩ := List.mem_map.mp hk
        have hid : p.toolUseId = toolUseId := List.mem_singleton.mp hk'
        exact hany (List.any_eq_true.mpr ⟨p, hkept.subset hp, decide_eq_true hid⟩)
  | takeSubagent agentType now =>
      exact h.of_sublist (List.eraseP_sublist.trans List.filter_sublist)
  | dropSubagent toolUseId => exact h.of_sublist List.filter_sublist

theorem bounded_run (calls : List Call) : Bounded (run calls) :=
  inv_of_run Bounded (fun _ c h => bounded_step h c) bounded_default calls

/-- The queue after the first `n` calls. -/
def queueAt (calls : List Call) (n : Nat) : List PendingSubagent :=
  (run (calls.take n)).pendingSubagents

/-- What call `n` puts in the queue. -/
def addedAt (calls : List Call) (n : Nat) : Option PendingSubagent :=
  (calls[n]?).bind (addedBy (run (calls.take n)))

/-- What call `n` hands out. -/
def handedAt (calls : List Call) (n : Nat) : Option PendingSubagent :=
  (calls[n]?).bind (handedBy (run (calls.take n)))

theorem run_take_succ {calls : List Call} {n : Nat} {c : Call} (h : calls[n]? = some c) :
    run (calls.take (n + 1)) = step (run (calls.take n)) c := by
  obtain ⟨hn, rfl⟩ := List.getElem?_eq_some_iff.mp h
  rw [List.take_add_one, List.getElem?_eq_getElem hn, Option.toList_some, run, runFrom_append]
  rfl

theorem served (calls : List Call) : Served (queueAt calls) (addedAt calls) := by
  refine ⟨rfl, ?_, ?_⟩
  · intro n p hadded
    obtain ⟨c, -, hc⟩ := Option.bind_eq_some_iff.mp hadded
    exact not_mem_of_addedBy hc
  · intro n
    cases hn : calls[n]? with
    | none =>
        have hlen := List.getElem?_eq_none_iff.mp hn
        refine ⟨queueAt calls n, List.Sublist.refl _, ?_⟩
        rw [queueAt, queueAt, addedAt, hn, List.take_of_length_le hlen,
          List.take_of_length_le (hlen.trans (Nat.le_succ n))]
        exact (List.append_nil _).symm
    | some c =>
        obtain ⟨kept, hkept, -, heq⟩ := pending_step (run (calls.take n)) c
        refine ⟨kept, hkept, ?_⟩
        rw [queueAt, run_take_succ hn, heq, addedAt, hn]
        rfl

/-- An entry that stays in the queue was not removed. -/
theorem not_removes_of_mem {calls : List Call} {n : Nat} {c : Call} {p : PendingSubagent}
    (hn : calls[n]? = some c) (hp : p ∈ queueAt calls n) (hp' : p ∈ queueAt calls (n + 1)) :
    ¬ Removes c p := by
  obtain ⟨kept, hkept, hnot, heq⟩ := pending_step (run (calls.take n)) c
  refine hnot p ((served calls).mem_kept ?_ hp hp')
  rw [queueAt, run_take_succ hn, heq, addedAt, hn]
  rfl

/-- The entry that call `i` queued waits before call `n`. -/
def Waiting (calls : List Call) (i n : Nat) (p : PendingSubagent) : Prop :=
  Waits (queueAt calls) (addedAt calls) i n p

theorem handedAt_some {calls : List Call} {n : Nat} {p : PendingSubagent}
    (h : handedAt calls n = some p) :
    ∃ now, calls[n]? = some (.takeSubagent p.subagentType now) ∧ Ledger.isFresh now p ∧
      p ∈ queueAt calls n ∧ p ∉ queueAt calls (n + 1) ∧
      ∀ p', [p', p].Sublist (queueAt calls n) → p'.subagentType = p.subagentType →
        Ledger.isFresh now p' = false := by
  obtain ⟨c, hc, hhanded⟩ := Option.bind_eq_some_iff.mp h
  obtain ⟨now, rfl, hfresh, hmem, hgone, hfirst⟩ :=
    handedBy_some ((served calls).nodup n) hhanded
  refine ⟨now, hc, hfresh, hmem, ?_, hfirst⟩
  rw [queueAt, run_take_succ hc]
  exact hgone

/-- After every run the collections are in their bounds, and `main` is known since it was, with
all it was sent.  What is handed out has waited in the queue since one call; it is handed out
once, before what a later call queued for its type unless it is stale by then, and no call has
dropped it or found it stale. -/
theorem ledger_holds (calls : List Call) :
    Bounded (run calls) ∧
    (∀ older newer, calls = older ++ newer → Call.reset ∉ newer →
      MainKept (run older) (run calls)) ∧
    (∀ n p, handedAt calls n = some p → ∃ i, Waiting calls i n p) ∧
    (∀ i m n p p', handedAt calls m = some p → Waiting calls i m p →
      handedAt calls n = some p' → Waiting calls i n p' → m = n) ∧
    (∀ i j n p p', Waiting calls i n p → Waiting calls j n p' → i < j →
      p.subagentType = p'.subagentType → handedAt calls n = some p' →
      ∃ c, calls[n]? = some c ∧ Removes c p) ∧
    (∀ i k n p c, handedAt calls n = some p → Waiting calls i n p → i < k → k ≤ n →
      calls[k]? = some c → ¬ Removes c p) := by
  have hserved := served calls
  refine ⟨bounded_run calls, ?_, ?_, ?_, ?_, ?_⟩
  · rintro older newer rfl hreset
    rw [run, run, runFrom_append]
    exact mainKept_run hreset
  · intro n p h
    obtain ⟨now, -, -, hmem, -, -⟩ := handedAt_some h
    exact hserved.exists_waits hmem
  · -- A second time would find it in the queue after the first.
    have hnot : ∀ {i m n : Nat} {p p' : PendingSubagent}, handedAt calls m = some p →
        Waiting calls i m p → Waiting calls i n p' → ¬ m < n := by
      intro i m n p p' h hm hn hlt
      obtain rfl : p = p' := Option.some.inj (hm.1.symm.trans hn.1)
      obtain ⟨now, -, -, -, hgone, -⟩ := handedAt_some h
      exact hgone (hn.2.2 (m + 1) (Nat.lt_succ_of_lt hm.2.1) hlt)
    intro i m n p p' h hm h' hn
    exact Nat.le_antisymm (not_lt.mp (hnot h' hn hm)) (not_lt.mp (hnot h hm hn))
  · intro i j n p p' hp hp' hij htype h
    obtain ⟨now, hc, -, -, -, hfirst⟩ := handedAt_some h
    exact ⟨_, hc, Or.inr ⟨now, rfl, hfirst p (Waits.before hserved hp hp' hij) htype⟩⟩
  · intro i k n p c h hp hik hkn hc
    rcases Nat.lt_or_eq_of_le hkn with hlt | rfl
    · exact not_removes_of_mem hc (hp.2.2 k hik hkn)
        (hp.2.2 (k + 1) (Nat.lt_succ_of_lt hik) hlt)
    · obtain ⟨now, hc', hfresh, -, -, -⟩ := handedAt_some h
      obtain rfl := Option.some.inj (hc.symm.trans hc')
      exact not_removes_of_now rfl hfresh

/-- The first task of the type goes first, and the queue no longer has it. -/
example : (List.range 4).map (handedAt [.queueSubagent "t1" "Explore" "find" 10,
    .queueSubagent "t2" "Explore" "read" 11, .takeSubagent "Explore" 12,
    .takeSubagent "Explore" 400]) = [none, none, some ⟨"t1", "Explore", "find", 10⟩, none] := by
  decide +kernel

end Llmenv.HookRun.SessionLedger
