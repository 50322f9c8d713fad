/-
# `Llmenv.Adapter.Opencode.GlobLoop` — the loop of the wildcard matcher ends

`glob_matches` of `src/adapter/opencode/permissions.rs` as it stands: a `while`
loop over two indices, with the index of the last star and the place in the
input to resume from, and nothing that bounds it.  `Llmenv.Adapter.Opencode.Patterns`
has the same loop on rests of lists and with fuel, and what its states decide.

A state is looked at through the rests behind its indices.  The variant counts
how often the loop can still go back, and between two of these the pattern gets
shorter; `globLoop_exact` is the loop rule for it, and `globMatches_returns`
says that the fuelled loop computes what this one returns.
-/
import Llmenv.Adapter.Opencode.Patterns
import Llmenv.Lib.Loop

namespace Llmenv.Adapter.Opencode

open Llmenv.Lib Llmenv.Lib.Glob

/-! ## The code -/

/-- The variables of the loop. -/
structure GlobState where
  p : Nat
  i : Nat
  star : Option Nat
  resume : Nat

/-- The arm of a mismatch. -/
def backRound (s : GlobState) : Round GlobState Bool :=
  match s.star with
  | some star => .again ⟨star + 1, s.resume + 1, some star, s.resume + 1⟩
  | none => .leave false

/-- One turn of the loop, and the check behind it when the input is used up. -/
def globRound (pat input : List Char) (s : GlobState) : Round GlobState Bool :=
  if s.i < input.length then
    match pat[s.p]? with
    | some c =>
        if c = '*' then .again ⟨s.p + 1, s.i, some s.p, s.i⟩
        else if c = '?' then .again ⟨s.p + 1, s.i + 1, s.star, s.resume⟩
        else if input[s.i]? = some c then .again ⟨s.p + 1, s.i + 1, s.star, s.resume⟩
        else backRound s
    | none => backRound s
  else .leave ((pat.drop s.p).all (· == '*'))

/-- The state the loop begins in. -/
def globStart : GlobState := ⟨0, 0, none, 0⟩

/-! ## States through their rests -/

section Rests

variable {pat input : List Char}

/-- The last star and the place to resume from, as the rests behind them. -/
def starRests (pat input : List Char) (s : GlobState) : Option (List Char × List Char) :=
  s.star.map fun star => (pat.drop (star + 1), input.drop s.resume)

/-- What the state has to decide. -/
def StateMatches (pat input : List Char) (s : GlobState) : Prop :=
  Pending (pat.drop s.p) (input.drop s.i) (starRests pat input s)

/-- The loop invariant. -/
def StateOnTrack (pat input : List Char) (s : GlobState) : Prop :=
  OnTrack (pat.drop s.p) (input.drop s.i) (starRests pat input s)

/-- How often the loop can still go back counts more than what is left of the pattern. -/
def globVariant (pat input : List Char) (s : GlobState) : Nat :=
  turns (input.drop s.i) (starRests pat input s) * (pat.length + 1) + (pat.drop s.p).length

/-- From a state of the loop the rule for loops applies. -/
abbrev LoopAdvances (pat input : List Char) (s : GlobState) : Prop :=
  Advances (globRound pat input) (StateOnTrack pat input) (globVariant pat input)
    (fun s r => r = true ↔ StateMatches pat input s) s

theorem drop_succ {l rest : List Char} {k : Nat} {c : Char} (h : l.drop k = c :: rest) :
    l.drop (k + 1) = rest := by
  rw [← List.tail_drop, h]
  rfl

/-- The input is used up: what is left of the pattern decides. -/
theorem advances_end {s : GlobState} (h : StateOnTrack pat input s)
    (hi : input.drop s.i = [])
    (hround : globRound pat input s = .leave ((pat.drop s.p).all (· == '*'))) :
    LoopAdvances pat input s := by
  refine .leave _ hround ?_
  rw [StateOnTrack, hi] at h
  rw [StateMatches, hi, pending_end h, matches_glob_nil]

/-- A star: from here on this is the last one. -/
theorem advances_star {s : GlobState} {rest : List Char} (h : StateOnTrack pat input s)
    (hp : pat.drop s.p = '*' :: rest)
    (hround : globRound pat input s = .again ⟨s.p + 1, s.i, some s.p, s.i⟩) :
    LoopAdvances pat input s := by
  have hrest := drop_succ hp
  rw [StateOnTrack, hp] at h
  refine .again _ hround ?_ ?_ fun r hr => hr.trans ?_
  · exact ⟨[], [], List.Forall₂.nil, rfl, rfl⟩
  · have hle := Nat.mul_le_mul_right (pat.length + 1) (length_le_turns h)
    simp only [globVariant, starRests, Option.map_some, turns, hrest, hp, List.length_cons]
    exact Nat.lt_succ_of_le (Nat.add_le_add_right hle _)
  · have hnext : StateMatches pat input ⟨s.p + 1, s.i, some s.p, s.i⟩ ↔
        Matches (.star :: glob (pat.drop (s.p + 1))) (input.drop s.i) := Iff.rfl
    rw [hnext, hrest, StateMatches, hp]
    exact pending_star h

/-- A character of the pattern that takes one of the input. -/
theorem advances_char {s : GlobState} {d c : Char} {rest more : List Char}
    (h : StateOnTrack pat input s) (hp : pat.drop s.p = d :: rest) (hi : input.drop s.i = c :: more)
    (hd : d ≠ '*') (hdc : d = '?' ∨ d = c)
    (hround : globRound pat input s = .again ⟨s.p + 1, s.i + 1, s.star, s.resume⟩) :
    LoopAdvances pat input s := by
  have hrest := drop_succ hp
  have hmore := drop_succ hi
  rw [StateOnTrack, hp, hi] at h
  obtain ⟨htrack, hpending⟩ := pending_step hd hdc h
  refine .again _ hround ?_ ?_ fun r hr => hr.trans ?_
  · rw [StateOnTrack, hrest, hmore]
    exact htrack
  · have hle := Nat.mul_le_mul_right (pat.length + 1) (turns_step (c := c) more (starRests pat input s))
    simp only [globVariant, hrest, hmore, hp, hi, List.length_cons]
    exact Nat.lt_succ_of_le (Nat.add_le_add_right hle _)
  · rw [StateMatches, StateMatches, hrest, hmore, hp, hi]
    exact hpending

/-- A mismatch: the last star takes one character more, or there is none and the match fails. -/
theorem advances_back {s : GlobState} {c : Char} {more : List Char}
    (h : StateOnTrack pat input s) (hi : input.drop s.i = c :: more)
    (hfail : ¬ Matches (glob (pat.drop s.p)) (c :: more))
    (hround : globRound pat input s = backRound s) : LoopAdvances pat input s := by
  rw [StateOnTrack, hi] at h
  cases hstar : s.star with
  | none =>
      have hrests : starRests pat input s = none := by rw [starRests, hstar]; rfl
      refine .leave false (by rw [hround, backRound, hstar]) ?_
      rw [StateMatches, hi, hrests]
      exact iff_of_false (by simp) hfail
  | some star =>
      have hrests : starRests pat input s = some (pat.drop (star + 1), input.drop s.resume) := by
        rw [starRests, hstar]
        rfl
      rw [hrests] at h
      obtain ⟨seg, u, halign, hafter, hresume⟩ := h
      have htail : input.drop (s.resume + 1) = (u ++ c :: more).tail := by
        rw [← List.tail_drop, hresume]
      refine .again ⟨star + 1, s.resume + 1, some star, s.resume + 1⟩
        (by rw [hround, backRound, hstar]) ?_ ?_ fun r hr => hr.trans ?_
      · exact ⟨[], [], List.Forall₂.nil, rfl, rfl⟩
      · have hshorter := tail_turns (pat.length + 1) u c more
        have hlen : (pat.drop (star + 1)).length ≤ pat.length := by
          rw [List.length_drop]
          exact Nat.sub_le _ _
        have hnext : globVariant pat input ⟨star + 1, s.resume + 1, some star, s.resume + 1⟩ =
            (u ++ c :: more).tail.length * (pat.length + 1) + (pat.drop (star + 1)).length := by
          simp only [globVariant, starRests, Option.map_some, turns, htail]
        have hhere : globVariant pat input s =
            (u ++ c :: more).length * (pat.length + 1) + (pat.drop s.p).length := by
          rw [globVariant, hrests, hresume]
          rfl
        omega
      · rw [StateMatches, StateMatches, hi, hrests]
        simp only [starRests, Option.map_some, Pending, htail, hafter, hresume]
        exact (matches_backtrack halign hfail).symm

/-- Every turn of the loop is one of these. -/
theorem advances {s : GlobState} (h : StateOnTrack pat input s) : LoopAdvances pat input s := by
  by_cases hi : s.i < input.length
  · have hinput : input.drop s.i = input[s.i] :: input.drop (s.i + 1) :=
      List.drop_eq_getElem_cons hi
    cases hp : pat[s.p]? with
    | none =>
        have hround : globRound pat input s = backRound s := by rw [globRound, if_pos hi, hp]
        have hnil : pat.drop s.p = [] := List.drop_eq_nil_of_le (List.getElem?_eq_none_iff.mp hp)
        have hfail : ¬ Matches (glob (pat.drop s.p)) (input[s.i] :: input.drop (s.i + 1)) := by
          rw [hnil]
          exact fun hm => List.cons_ne_nil _ _ (matches_nil.mp hm)
        exact advances_back h hinput hfail hround
    | some d =>
        obtain ⟨hlt, hd⟩ := List.getElem?_eq_some_iff.mp hp
        have hpat : pat.drop s.p = d :: pat.drop (s.p + 1) := hd ▸ List.drop_eq_getElem_cons hlt
        have hchar : input[s.i]? = some input[s.i] := List.getElem?_eq_getElem hi
        by_cases hstar : d = '*'
        · exact advances_star h (hstar ▸ hpat) (by rw [globRound, if_pos hi, hp]; exact if_pos hstar)
        · by_cases hdc : d = '?' ∨ d = input[s.i]
          · refine advances_char h hpat hinput hstar hdc ?_
            rw [globRound, if_pos hi, hp]
            dsimp only
            rw [if_neg hstar, hchar]
            rcases hdc with hq | hq
            · rw [if_pos hq]
            · rw [← hq, if_pos rfl, ite_self]
          · obtain ⟨hquery, hne⟩ := not_or.mp hdc
            have hround : globRound pat input s = backRound s := by
              rw [globRound, if_pos hi, hp]
              dsimp only
              rw [if_neg hstar, if_neg hquery, hchar,
                if_neg fun heq => hne (Option.some.inj heq).symm]
            refine advances_back h hinput ?_ hround
            rw [hpat]
            simp only [glob, List.map_cons, sym_lit hstar hquery, matches_lit]
            rintro ⟨v, heq, -⟩
            exact hne (List.cons.inj heq).1.symm
  · exact advances_end h (List.drop_eq_nil_of_le (Nat.le_of_not_lt hi)) (if_neg hi)

end Rests

/-- From its start the loop returns, and says whether the text is in the language. -/
theorem returns_globStart (pat input : List Char) :
    ∃ r, Returns (globRound pat input) globStart r ∧ (r = true ↔ Matches (glob pat) input) :=
  have htrack : StateOnTrack pat input globStart := trivial
  returns_of_advances (fun _ => advances) htrack

/-- The loop ends on every pattern and text, with the answer whether the text is in the language
of the pattern. -/
theorem globLoop_exact (pat input : List Char) :
    ∃ r, Returns (globRound pat input) globStart r ∧
      (∀ r', Returns (globRound pat input) globStart r' → r' = r) ∧
      (r = true ↔ Matches (glob pat) input) := by
  obtain ⟨r, hreturns, hr⟩ := returns_globStart pat input
  exact ⟨r, hreturns, fun r' h' => h'.unique hreturns, hr⟩

/-- The loop with fuel computes what the loop returns. -/
theorem globMatches_returns (pat input : List Char) :
    Returns (globRound pat input) globStart (globMatches pat input) := by
  obtain ⟨r, hreturns, hr⟩ := returns_globStart pat input
  have heq : globMatches pat input = r := Bool.eq_iff_iff.mpr (globMatches_iff.trans hr.symm)
  rwa [heq]

end Llmenv.Adapter.Opencode
