/-
# `Llmenv.Transcript.Starts` — does one hook at a time start the transcript?

Any number of hook processes of one session run `ensure_transcript_session`.
Each samples the clock, looks at the link with that sample, claims with it,
starts the transcript, and then records the link or clears its marker.  The
clock never goes backward, and between any two steps of one process the others
may take theirs.

The marker of a claim carries the SAMPLE of the claimer, and a claimer reads
the marker with ITS sample.  So a claim can miss the marker of a running start
in two ways, a sample that is older than the marker and a marker that was old
when it was written; and a start that outlived its marker clears or records
over the marker of the next one.  `claim_refused_during_start` is the exclusion
for every run without these.
-/
import Llmenv.Lib.Runs
import Llmenv.Transcript.Link

namespace Llmenv.Transcript

open Llmenv.Lib

/-- Where a hook process is. -/
inductive Phase where
  | idle
  | sampled (now : Int)
  | looked (now : Int) (seen : Link)
  /-- Its claim was made with the sample `now`, at the time `claimedAt`. -/
  | claimed (now claimedAt : Int)
  | finished
deriving DecidableEq

/-- The clock (an `i64` of seconds since the epoch), the map, and the hooks. -/
structure Hooks where
  clock : Int
  clockRange : 0 ≤ clock ∧ clock < 9223372036854775808
  map : SessionMap
  phase : Nat → Phase

inductive Step where
  /-- Time passes. -/
  | tick (now : Int)
  | sample (p : Nat)
  | look (p : Nat)
  /-- The link is verified, or transcripts are off. -/
  | giveUp (p : Nat)
  | claim (p : Nat)
  | record (p : Nat) (icmId : String)
  | clear (p : Nat)

/-- Move one process. -/
def Hooks.goto (s : Hooks) (p : Nat) (phase : Phase) : Hooks :=
  { s with phase := Function.update s.phase p phase }

/-- The claim of `p`. -/
def Hooks.tryClaim (s : Hooks) (csid : String) (p : Nat) (now : Int) (seen : Link) : Hooks :=
  if (claimPendingAt s.map csid seen now).1 then
    { s with
      map := (claimPendingAt s.map csid seen now).2
      phase := Function.update s.phase p (.claimed now s.clock) }
  else s.goto p .finished

/-- One step of the system.  A step that its process cannot take, or a clock
that would go backward, changes nothing. -/
def step (csid : String) (s : Hooks) : Step → Hooks
  | .tick now =>
      if h : s.clock ≤ now ∧ now < 9223372036854775808 then
        { s with clock := now, clockRange := ⟨Int.le_trans s.clockRange.1 h.1, h.2⟩ }
      else s
  | .sample p =>
      match s.phase p with
      | .idle => s.goto p (.sampled s.clock)
      | _ => s
  | .look p =>
      match s.phase p with
      | .sampled now =>
          match linkAt s.map csid now with
          | .pending _ => s.goto p .finished
          | seen => s.goto p (.looked now seen)
      | _ => s
  | .giveUp p =>
      match s.phase p with
      | .looked _ _ => s.goto p .finished
      | _ => s
  | .claim p =>
      match s.phase p with
      | .looked now seen => s.tryClaim csid p now seen
      | _ => s
  | .record p icmId =>
      match s.phase p with
      | .claimed _ _ => { s.goto p .finished with map := recordAt s.map csid icmId s.clock }
      | _ => s
  | .clear p =>
      match s.phase p with
      | .claimed _ _ => { s.goto p .finished with map := clearPendingAt s.map csid }
      | _ => s

/-- `p` claimed less than 600 s ago with the sample `now`, and has neither
recorded nor cleared. -/
def Hooks.Starting (s : Hooks) (p : Nat) (now : Int) : Prop :=
  ∃ claimedAt, s.phase p = .claimed now claimedAt ∧ s.clock < claimedAt + pendingTtlSecs

/-- The step does not miss the marker of a running start: a claim samples no
earlier than the running claimer did, and less than 600 s later; and while a
start runs no other process records or clears. -/
def InOrder (s : Hooks) : Step → Prop
  | .claim q => ∀ p now now' seen, p ≠ q → s.Starting p now → s.phase q = .looked now' seen →
      now ≤ now' ∧ now' < now + pendingTtlSecs
  | .record q _ => ∀ p now, p ≠ q → (∃ n a, s.phase q = .claimed n a) → ¬ s.Starting p now
  | .clear q => ∀ p now, p ≠ q → (∃ n a, s.phase q = .claimed n a) → ¬ s.Starting p now
  | _ => True

/-- The map is below its cap. -/
def FewEntries (s : Hooks) (_ : Step) : Prop := s.map.len < maxCorrelationEntries

/-- The process that takes the step. -/
def Step.process? : Step → Option Nat
  | .tick _ => none
  | .sample p => some p
  | .look p => some p
  | .giveUp p => some p
  | .claim p => some p
  | .record p _ => some p
  | .clear p => some p

/-- A step moves its own process only. -/
theorem step_phase_of_ne {csid : String} {s : Hooks} {i : Step} {p : Nat}
    (h : i.process? ≠ some p) : (step csid s i).phase p = s.phase p := by
  have hgoto : ∀ q phase, some q ≠ some p → (s.goto q phase).phase p = s.phase p :=
    fun q phase hne => Function.update_of_ne (fun heq => hne (congrArg some heq.symm)) _ _
  cases i with
  | tick now =>
      simp only [step]
      split <;> rfl
  | sample q =>
      simp only [step]
      split
      · exact hgoto q _ h
      · rfl
  | look q =>
      simp only [step]
      split
      · split
        · exact hgoto q _ h
        · exact hgoto q _ h
      · rfl
  | giveUp q =>
      simp only [step]
      split
      · exact hgoto q _ h
      · rfl
  | claim q =>
      simp only [step]
      split
      · unfold Hooks.tryClaim
        split
        · exact hgoto q _ h
        · exact hgoto q _ h
      · rfl
  | record q icmId =>
      simp only [step]
      split
      · exact hgoto q _ h
      · rfl
  | clear q =>
      simp only [step]
      split
      · exact hgoto q _ h
      · rfl

theorem runFrom_phase_of_ne {csid : String} {p : Nat} {steps : List Step}
    (h : ∀ i ∈ steps, i.process? ≠ some p) (s : Hooks) :
    (runFrom (step csid) s steps).phase p = s.phase p := by
  induction steps generalizing s with
  | nil => rfl
  | cons i steps ih =>
      rw [runFrom_cons, ih (fun j hj => h j (List.mem_cons_of_mem _ hj)),
        step_phase_of_ne (h i List.mem_cons_self)]

/-! ## The invariant -/

/-- A sample that a process holds is in the past. -/
def Phase.SampledBefore (clock : Int) : Phase → Prop
  | .sampled now => 0 ≤ now ∧ now ≤ clock
  | .looked now _ => 0 ≤ now ∧ now ≤ clock
  | .claimed now claimedAt => 0 ≤ now ∧ now ≤ clock ∧ claimedAt ≤ clock
  | _ => True

/-- Samples are in the past, and while a start runs the map holds its marker. -/
structure Marked (csid : String) (s : Hooks) : Prop where
  samples : ∀ p, (s.phase p).SampledBefore s.clock
  marker : ∀ p now, s.Starting p now → s.map.get csid = some (pendingMarker now)

theorem Phase.SampledBefore.later {phase : Phase} {clock clock' : Int}
    (h : phase.SampledBefore clock) (hle : clock ≤ clock') : phase.SampledBefore clock' := by
  cases phase with
  | idle => trivial
  | sampled now => exact ⟨h.1, Int.le_trans h.2 hle⟩
  | looked now seen => exact ⟨h.1, Int.le_trans h.2 hle⟩
  | claimed now claimedAt => exact ⟨h.1, Int.le_trans h.2.1 hle, Int.le_trans h.2.2 hle⟩
  | finished => trivial

theorem samples_update {s : Hooks} (h : ∀ p, (s.phase p).SampledBefore s.clock) {q : Nat}
    {phase : Phase} (hphase : phase.SampledBefore s.clock) :
    ∀ p, (Function.update s.phase q phase p).SampledBefore s.clock := by
  intro p
  by_cases hp : p = q
  · subst hp
    rw [Function.update_self]
    exact hphase
  · rw [Function.update_of_ne hp]
    exact h p

/-- After `q` moves to a phase that is not a claim, a running start is another
process's, and was running before. -/
theorem starting_goto (s : Hooks) {q p : Nat} {now : Int} {phase : Phase}
    (hphase : ∀ n a, phase ≠ .claimed n a) (h : (s.goto q phase).Starting p now) :
    p ≠ q ∧ s.Starting p now := by
  obtain ⟨claimedAt, hp, hlt⟩ := h
  have hne : p ≠ q := by
    rintro rfl
    exact hphase now claimedAt (by simpa [Hooks.goto] using hp)
  exact ⟨hne, claimedAt, by simpa [Hooks.goto, hne] using hp, hlt⟩

/-- A move of one process that leaves the map alone. -/
theorem marked_goto {csid : String} {s : Hooks} (h : Marked csid s) {q : Nat} {phase : Phase}
    (hsample : phase.SampledBefore s.clock) (hphase : ∀ n a, phase ≠ .claimed n a) :
    Marked csid (s.goto q phase) where
  samples := samples_update h.samples hsample
  marker := fun p now hp => h.marker p now (starting_goto s hphase hp).2

/-- A marker in the range of a claim's sample refuses the claim. -/
theorem claim_refused {csid : String} {s : Hooks} (h : Marked csid s) {p : Nat} {now now' : Int}
    {seen : Link} (hp : s.Starting p now) (horder : now ≤ now' ∧ now' < now + pendingTtlSecs) :
    claimPendingAt s.map csid seen now' = (false, s.map) := by
  obtain ⟨claimedAt, hphase, -⟩ := id hp
  have hsample := h.samples p
  rw [hphase] at hsample
  have hrange := s.clockRange
  exact claimPendingAt_of_pending (h.marker p now hp) hsample.1
    (Int.lt_of_le_of_lt hsample.2.1 hrange.2) horder

/-- A claim that is made is made while no start runs, and its own marker is in
the map afterwards. -/
theorem marked_tryClaim {csid : String} {s : Hooks} (h : Marked csid s) {q : Nat} {now : Int}
    {seen : Link} (hq : s.phase q = .looked now seen) (horder : InOrder s (.claim q))
    (hfew : s.map.len < maxCorrelationEntries) : Marked csid (s.tryClaim csid q now seen) := by
  have hsample := h.samples q
  rw [hq] at hsample
  unfold Hooks.tryClaim
  split
  · rename_i hclaim
    refine ⟨samples_update h.samples ⟨hsample.1, hsample.2, Int.le_refl _⟩, ?_⟩
    rintro p now' ⟨claimedAt, hp, hlt⟩
    by_cases hpq : p = q
    · subst hpq
      have hnow : now = now' := by
        have : Phase.claimed now s.clock = .claimed now' claimedAt := by simpa using hp
        exact (Phase.claimed.inj this).1
      show (claimPendingAt s.map csid seen now).2.get csid = _
      rw [claimPendingAt_map hclaim, get_insertCapped hfew, hnow]
    · -- Another start that still runs would have refused this claim.
      have hstarting : s.Starting p now' := ⟨claimedAt, by simpa [hpq] using hp, hlt⟩
      rw [claim_refused h hstarting (horder p now' now seen hpq hstarting hq)] at hclaim
      exact absurd hclaim (by simp)
  · exact marked_goto h trivial (by simp)

/-- The end of a start while no other start runs. -/
theorem marked_end {csid : String} {s : Hooks} (h : Marked csid s) {q : Nat} (m : SessionMap)
    (hothers : ∀ p now, p ≠ q → ¬ s.Starting p now) :
    Marked csid { s.goto q .finished with map := m } where
  samples := samples_update h.samples trivial
  marker := fun p now hp => by
    obtain ⟨hne, hstarting⟩ := starting_goto s (fun n a => Phase.noConfusion) hp
    exact absurd hstarting (hothers p now hne)

theorem step_marked {csid : String} {s : Hooks} {i : Step} (h : Marked csid s)
    (horder : InOrder s i) (hfew : FewEntries s i) : Marked csid (step csid s i) := by
  cases i with
  | tick now =>
      simp only [step]
      split
      · rename_i hle
        refine ⟨fun p => (h.samples p).later hle.1, ?_⟩
        rintro p now' ⟨claimedAt, hp, hlt⟩
        exact h.marker p now' ⟨claimedAt, hp, Int.lt_of_le_of_lt hle.1 hlt⟩
      · exact h
  | sample p =>
      simp only [step]
      split
      · exact marked_goto h ⟨s.clockRange.1, Int.le_refl _⟩ (by simp)
      · exact h
  | look p =>
      simp only [step]
      split
      · rename_i now hphase
        have hsample := h.samples p
        rw [hphase] at hsample
        split
        · exact marked_goto h trivial (by simp)
        · exact marked_goto h hsample (by simp)
      · exact h
  | giveUp p =>
      simp only [step]
      split
      · exact marked_goto h trivial (by simp)
      · exact h
  | claim p =>
      simp only [step]
      split
      · rename_i now seen hphase
        exact marked_tryClaim h hphase horder hfew
      · exact h
  | record p icmId =>
      simp only [step]
      split
      · rename_i n a hphase
        exact marked_end h _ (fun q now hne => horder q now hne ⟨n, a, hphase⟩)
      · exact h
  | clear p =>
      simp only [step]
      split
      · rename_i n a hphase
        exact marked_end h _ (fun q now hne => horder q now hne ⟨n, a, hphase⟩)
      · exact h

/-! ## Every run -/

/-- In every run whose steps do not miss the marker of a running start: while
`p` has claimed and has neither recorded nor cleared, and less than 600 s have
passed since its claim, the claim of another process returns `false`. -/
theorem claim_refused_during_start (csid : String) {start : Hooks}
    (hidle : ∀ p, start.phase p = .idle) (steps : List Step) {p q : Nat} (hpq : p ≠ q)
    (horder : Guarded (step csid) InOrder start (steps ++ [.claim q]))
    (hfew : Guarded (step csid) FewEntries start (steps ++ [.claim q]))
    {sample sample' : Int} {seen : Link}
    (hp : (runFrom (step csid) start steps).Starting p sample)
    (hq : (runFrom (step csid) start steps).phase q = .looked sample' seen) :
    (claimPendingAt (runFrom (step csid) start steps).map csid seen sample').1 = false := by
  have hstart : Marked csid start := by
    refine ⟨fun r => by rw [hidle r]; trivial, ?_⟩
    rintro r now ⟨claimedAt, hr, -⟩
    rw [hidle r] at hr
    exact absurd hr (by simp)
  have horders := guarded_append.mp horder
  have hrun := inv_of_guarded (Marked csid) (fun s i h hg => step_marked h hg.1 hg.2) hstart
    (horders.1.and (guarded_append.mp hfew).1)
  have hlast := horders.2.1 p sample sample' seen hpq hp hq
  rw [claim_refused hrun hp hlast]

/-! ## Two runs -/

/-- An empty map at the time 100. -/
def atHundred : Hooks := ⟨100, by decide, Keyed.empty, fun _ => .idle⟩

/-- Two hooks look at the link before one of them claims. -/
def bothLook : List Step := [.sample 0, .look 0, .sample 1, .look 1, .claim 0]

/-- The second claim comes with a sample that is not older, and is refused. -/
theorem claim_refused_same_second :
    (runFrom (step "c") atHundred bothLook).Starting 0 100 ∧
      (runFrom (step "c") atHundred bothLook).phase 1 = .looked 100 .missing ∧
      (claimPendingAt (runFrom (step "c") atHundred bothLook).map "c" .missing 100).1 = false := by
  have hp : (runFrom (step "c") atHundred bothLook).Starting 0 100 := ⟨100, by decide, by decide⟩
  have hq : (runFrom (step "c") atHundred bothLook).phase 1 = .looked 100 .missing := by decide
  have hquiet : ∀ p now, p ≠ 0 →
      ¬ (runFrom (step "c") atHundred [.sample 0, .look 0, .sample 1, .look 1]).Starting p now := by
    rintro p now hne ⟨claimedAt, hclaimed, -⟩
    by_cases h1 : p = 1
    · subst h1
      exact absurd (hclaimed.symm.trans (show _ = Phase.looked 100 .missing by decide)) (by simp)
    · rw [runFrom_phase_of_ne (by simp [Step.process?, Ne.symm hne, Ne.symm h1])] at hclaimed
      exact absurd hclaimed (by simp [atHundred])
  have hlast : InOrder (runFrom (step "c") atHundred bothLook) (.claim 1) := by
    rintro p now now' seen hne ⟨claimedAt, hclaimed, -⟩ hlooked
    obtain ⟨rfl, -⟩ := Phase.looked.inj (hq.symm.trans hlooked)
    by_cases h0 : p = 0
    · subst h0
      obtain ⟨rfl, -⟩ := Phase.claimed.inj
        ((show _ = Phase.claimed 100 100 by decide).symm.trans hclaimed)
      decide
    · rw [runFrom_phase_of_ne (by simp [bothLook, Step.process?, Ne.symm h0, Ne.symm hne])]
        at hclaimed
      exact absurd hclaimed (by simp [atHundred])
  have horder : Guarded (step "c") InOrder atHundred (bothLook ++ [.claim 1]) :=
    ⟨trivial, trivial, trivial, trivial,
      fun p now now' seen hne hstarting _ => absurd hstarting (hquiet p now hne), hlast, trivial⟩
  have hfew : Guarded (step "c") FewEntries atHundred (bothLook ++ [.claim 1]) :=
    ⟨show _ < _ by decide, show _ < _ by decide, show _ < _ by decide, show _ < _ by decide,
      show _ < _ by decide, show _ < _ by decide, trivial⟩
  exact ⟨hp, hq, claim_refused_during_start "c" (fun _ => rfl) bothLook (by decide) horder hfew
    hp hq⟩

/-- Hook 1 samples at 100 and looks; hook 0 samples at 101, looks and claims. -/
def olderSample : List Step := [.sample 1, .look 1, .tick 101, .sample 0, .look 0, .claim 0]

/-- For the sample 100 the marker of 101 is in the future, so hook 1 claims in
the same second in which hook 0 did. -/
theorem second_claim_with_older_sample :
    (runFrom (step "c") atHundred olderSample).Starting 0 101 ∧
      (runFrom (step "c") atHundred olderSample).map.len < maxCorrelationEntries ∧
      (runFrom (step "c") atHundred olderSample).phase 1 = .looked 100 .missing ∧
      (claimPendingAt (runFrom (step "c") atHundred olderSample).map "c" .missing 100).1 = true :=
  ⟨⟨101, by decide, by decide⟩, by decide, by decide, by decide⟩

end Llmenv.Transcript
