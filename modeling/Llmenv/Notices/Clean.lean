/-
# `Llmenv.Notices.Clean` — a notice is one short line that keeps its fix

`clean` of `src/crates/llmenv-util/src/agent_notice.rs` with
`strip_unsafe_chars`, and the list of notices of a process.  A text that is too
long loses the end of its cause and not the `Fix:` behind it (`clean_spec`).

A notice is cleaned by the process that raises it and once more by the one that
reads it from the spool, so it matters that the second time changes nothing.
-/
import Mathlib.Data.List.DropRight
import Llmenv.Adapter.Skills.QuoteScalar
import Llmenv.Lib.Text

namespace Llmenv.Notices

open Llmenv.Lib
open Llmenv.Adapter.Skills (isControl)

/-! ## The code -/

def maxNoticeChars : Nat := 1000

/-- Marks the next step in a notice. -/
def fixMarker : List Char := "Fix:".toList

def inRange (lo hi : Nat) (c : Char) : Bool := lo ≤ c.toNat && c.toNat ≤ hi

/-- The invisible and bidirectional format characters. -/
def isUnsafeFormatChar (c : Char) : Bool :=
  c.toNat == 0x061C || inRange 0x200B 0x200F c || inRange 0x202A 0x202E c ||
    inRange 0x2060 0x2064 c || inRange 0x2066 0x2069 c || c.toNat == 0xFEFF

def isSafe (c : Char) : Bool := !isControl c && !isUnsafeFormatChar c

def stripUnsafeChars (text : List Char) : List Char := text.filter isSafe

/-- The text in front of the last `Fix:`, and the text from there on. -/
def rfindFix : List Char → Option (List Char × List Char)
  | [] => none
  | c :: cs =>
      match rfindFix cs with
      | some (cause, fix) => some (c :: cause, fix)
      | none => if fixMarker.isPrefixOf (c :: cs) then some ([], c :: cs) else none

def trimEnd (text : List Char) : List Char := text.rdropWhile Text.isWhitespace

/-- The text when it has no fix that could be kept. -/
def cut (plain : List Char) : List Char := plain.take (maxNoticeChars - 1) ++ ['…']

/-- The text on one line, before it is cut. -/
def plainOf (text : List Char) : List Char :=
  stripUnsafeChars (text.map fun c => if c == '\n' || c == '\r' then ' ' else c)

/-- One line, at most `maxNoticeChars` characters. -/
def clean (text : List Char) : List Char :=
  let plain := plainOf text
  if plain.length ≤ maxNoticeChars then plain
  else
    match rfindFix plain with
    | some (before, fix) =>
        -- Room for the fix, one separating space, and the marker of the cut.
        if fix.length + 2 ≤ maxNoticeChars then
          let cause := trimEnd before
          let budget := maxNoticeChars - fix.length - 1
          if cause.length ≤ budget then cause ++ ' ' :: fix
          else trimEnd (cause.take (budget - 1)) ++ '…' :: ' ' :: fix
        else cut plain
    | none => cut plain

/-- The notices of one process, in the order they were first raised. -/
abbrev NoticeList := List (List Char)

def NoticeList.record (notices : NoticeList) (notice : List Char) : NoticeList :=
  if notices.contains (clean notice) then notices else notices ++ [clean notice]

/-! ## What a clean text is -/

/-- All characters are safe, so the text is one line. -/
def Safe (text : List Char) : Prop := ∀ c ∈ text, isSafe c = true

theorem safe_plainOf (text : List Char) : Safe (plainOf text) := by
  intro c hc
  exact (List.mem_filter.mp hc).2

theorem plainOf_of_safe {text : List Char} (h : Safe text) : plainOf text = text := by
  have hkeep : text.map (fun c => if c == '\n' || c == '\r' then ' ' else c) = text := by
    refine (List.map_congr_left ?_).trans (List.map_id _)
    intro c hc
    have hsafe := h c hc
    split
    · next hbreak =>
        rcases Bool.or_eq_true_iff.mp hbreak with hn | hr
        · obtain rfl := eq_of_beq hn
          exact absurd hsafe (by decide)
        · obtain rfl := eq_of_beq hr
          exact absurd hsafe (by decide)
    · rfl
  rw [plainOf, hkeep]
  exact List.filter_eq_self.mpr h

theorem rfindFix_append {text before fix : List Char} (h : rfindFix text = some (before, fix)) :
    text = before ++ fix := by
  induction text generalizing before with
  | nil => simp [rfindFix] at h
  | cons c cs ih =>
      simp only [rfindFix] at h
      cases hcs : rfindFix cs with
      | none =>
          simp only [hcs] at h
          split at h
          · obtain ⟨rfl, rfl⟩ := Prod.mk.inj (Option.some.inj h)
            rfl
          · exact absurd h (by simp)
      | some found =>
          simp only [hcs] at h
          obtain ⟨rfl, hfix⟩ := Prod.mk.inj (Option.some.inj h)
          have htail : rfindFix cs = some (found.1, fix) := by rw [hcs, ← hfix]
          rw [List.cons_append, ← ih htail]

theorem Safe.append {xs ys : List Char} (hx : Safe xs) (hy : Safe ys) : Safe (xs ++ ys) := by
  intro c hc
  exact (List.mem_append.mp hc).elim (hx c) (hy c)

theorem Safe.cons {c : Char} {cs : List Char} (hc : isSafe c = true) (hcs : Safe cs) :
    Safe (c :: cs) := by
  intro x hx
  rcases List.mem_cons.mp hx with rfl | hx
  · exact hc
  · exact hcs x hx

theorem Safe.take {text : List Char} (h : Safe text) (n : Nat) : Safe (text.take n) :=
  fun c hc => h c (List.mem_of_mem_take hc)

theorem trimEnd_isPrefix (text : List Char) : trimEnd text <+: text := List.rdropWhile_prefix _ text

theorem Safe.trimEnd {text : List Char} (h : Safe text) : Safe (trimEnd text) :=
  fun c hc => h c ((trimEnd_isPrefix text).subset hc)

theorem length_trimEnd_le (text : List Char) : (trimEnd text).length ≤ text.length :=
  (trimEnd_isPrefix text).length_le

theorem safe_ellipsis : isSafe '…' = true := by decide

theorem safe_space : isSafe ' ' = true := by decide

/-- A text in the cap only loses its unsafe characters. -/
theorem clean_of_le {text : List Char} (h : (plainOf text).length ≤ maxNoticeChars) :
    clean text = plainOf text := by
  simp only [clean, h, if_true]

/-- All that the cut of a text that is too long can give: its last part is the fix, when there is
room for it. -/
theorem clean_cases (text : List Char) :
    clean text = plainOf text ∧ (plainOf text).length ≤ maxNoticeChars ∨
      (∃ before fix cause, rfindFix (plainOf text) = some (before, fix) ∧
        fix.length + 2 ≤ maxNoticeChars ∧ clean text = cause ++ ' ' :: fix ∧
        cause.length + fix.length + 1 ≤ maxNoticeChars ∧ Safe cause) ∨
      (∀ before fix, rfindFix (plainOf text) = some (before, fix) →
        maxNoticeChars < fix.length + 2) ∧ clean text = cut (plainOf text) := by
  by_cases hlen : (plainOf text).length ≤ maxNoticeChars
  · exact Or.inl ⟨clean_of_le hlen, hlen⟩
  · refine Or.inr ?_
    cases hfind : rfindFix (plainOf text) with
    | none => exact Or.inr ⟨by simp, by simp only [clean, hlen, hfind, if_false]⟩
    | some found =>
        obtain ⟨before, fix⟩ := found
        by_cases hroom : fix.length + 2 ≤ maxNoticeChars
        · refine Or.inl ⟨before, fix, ?_⟩
          have hbefore : Safe before := by
            intro c hc
            refine safe_plainOf text c ?_
            rw [rfindFix_append hfind]
            exact List.mem_append_left _ hc
          by_cases hbudget : (trimEnd before).length ≤ maxNoticeChars - fix.length - 1
          · refine ⟨trimEnd before, rfl, hroom, ?_, by omega, hbefore.trimEnd⟩
            simp only [clean, hlen, hfind, hroom, hbudget, if_true, if_false]
          · refine ⟨trimEnd ((trimEnd before).take (maxNoticeChars - fix.length - 1 - 1)) ++ ['…'],
              rfl, hroom, ?_, ?_, ?_⟩
            · simp only [clean, hlen, hfind, hroom, hbudget, if_true, if_false, List.append_assoc,
                List.singleton_append]
            · have hle := length_trimEnd_le
                ((trimEnd before).take (maxNoticeChars - fix.length - 1 - 1))
              have htake := List.length_take_le (maxNoticeChars - fix.length - 1 - 1)
                (trimEnd before)
              simp only [List.length_append, List.length_singleton]
              omega
            · exact ((hbefore.trimEnd.take _).trimEnd).append
                (Safe.cons safe_ellipsis (by simp [Safe]))
        · refine Or.inr ⟨?_, by simp only [clean, hlen, hfind, hroom, if_false]⟩
          intro before' fix' heq
          obtain ⟨-, rfl⟩ := Prod.mk.inj (Option.some.inj heq)
          omega

theorem length_clean_le (text : List Char) : (clean text).length ≤ maxNoticeChars := by
  rcases clean_cases text with ⟨heq, hlen⟩ | ⟨_, fix, cause, -, -, heq, hlen, -⟩ | ⟨-, heq⟩
  · rw [heq]
    exact hlen
  · rw [heq]
    simp only [List.length_append, List.length_cons]
    omega
  · rw [heq, cut, List.length_append, List.length_take, List.length_singleton, maxNoticeChars]
    omega

theorem safe_clean (text : List Char) : Safe (clean text) := by
  have hplain := safe_plainOf text
  rcases clean_cases text with ⟨heq, -⟩ | ⟨before, fix, cause, hfind, -, heq, -, hcause⟩ | ⟨-, heq⟩
  · rw [heq]
    exact hplain
  · rw [heq]
    refine hcause.append (Safe.cons safe_space ?_)
    intro c hc
    refine hplain c ?_
    rw [rfindFix_append hfind]
    exact List.mem_append_right _ hc
  · rw [heq]
    exact (hplain.take _).append (Safe.cons safe_ellipsis (by simp [Safe]))

/-- The second time changes nothing. -/
theorem clean_clean (text : List Char) : clean (clean text) = clean text := by
  have hplain := plainOf_of_safe (safe_clean text)
  have hlen : (plainOf (clean text)).length ≤ maxNoticeChars := by
    rw [hplain]
    exact length_clean_le text
  exact (clean_of_le hlen).trans hplain

/-- A clean notice is one line of safe characters in the cap, cleaning it again changes nothing, a
text in the cap only loses its unsafe characters, and a text with a fix that leaves room for a
cause keeps it whole, at the end. -/
theorem clean_spec (text : List Char) :
    (clean text).length ≤ maxNoticeChars ∧ Safe (clean text) ∧ clean (clean text) = clean text ∧
      ((plainOf text).length ≤ maxNoticeChars → clean text = plainOf text) ∧
      ∀ before fix, rfindFix (plainOf text) = some (before, fix) →
        fix.length + 2 ≤ maxNoticeChars → fix <:+ clean text := by
  refine ⟨length_clean_le text, safe_clean text, clean_clean text, clean_of_le, ?_⟩
  intro before fix hfind hroom
  rcases clean_cases text with ⟨heq, -⟩ | ⟨_, _, cause, hfind', -, heq, -⟩ | ⟨hnone, -⟩
  · rw [heq, rfindFix_append hfind]
    exact List.suffix_append _ _
  · obtain ⟨-, rfl⟩ := Prod.mk.inj (Option.some.inj (hfind.symm.trans hfind'))
    exact ⟨cause ++ [' '], by simp [heq]⟩
  · exact absurd (hnone before fix hfind) (by omega)

end Llmenv.Notices
