/-
# `Llmenv.Scope.HostGlob` — the glob of a host name

`glob_matches` of `crates/llmenv-scope/src/matcher.rs`.  The text has to begin
with the part of the pattern before its first star and to end with the part
after its last one, and the parts between the stars are looked for one by one
behind the first part.

The search does not stop where the last part begins, so a part in between is
also found inside of the last one: `a*b*b` accepts `ab`.  `globMatches_exact_iff` says
for which patterns and texts that makes no difference.
-/
import Llmenv.Lib.GlobParts
import Llmenv.Lib.Text

namespace Llmenv.Scope.HostGlob

open Llmenv.Lib Llmenv.Lib.Glob

/-! ## The code -/

def parts (pattern : List Char) : List (List Char) := Text.split (· == '*') pattern

/-- `glob_matches` on texts that are in lower case. -/
def globMatchesLower (pattern text : List Char) : Bool :=
  if '*' ∉ pattern then pattern == text
  else
    let first := (parts pattern).headD []
    let last := (parts pattern).getLastD []
    if !first.isEmpty && !first.isPrefixOf text then false
    else if !last.isEmpty && !last.isSuffixOf text then false
    else if text.length < first.length + last.length then false
    else findInOrder (parts pattern).tail.dropLast (text.drop first.length)

def globMatches (pattern text : List Char) : Bool :=
  globMatchesLower (Text.toAsciiLowercase pattern) (Text.toAsciiLowercase text)

/-! ## The glob -/

/-- A star stands for any run of characters, any other character for itself. -/
def starSym (c : Char) : Sym Char := if c = '*' then .star else .lit c

/-- The pattern stands for the text, both in lower case. -/
def Stands (pattern text : List Char) : Prop :=
  Matches ((Text.toAsciiLowercase pattern).map starSym) (Text.toAsciiLowercase text)

/-- The parts of a pattern make its glob. -/
theorem map_starSym (pattern : List Char) : pattern.map starSym = ofParts (parts pattern) := by
  induction pattern with
  | nil => rfl
  | cons c cs ih =>
      rw [List.map_cons, ih]
      cases hparts : parts cs with
      | nil => exact absurd hparts (Text.split_ne_nil _ cs)
      | cons part rest =>
          have hsplit : Text.split (· == '*') cs = part :: rest := hparts
          by_cases hc : c = '*'
          · subst hc
            have hcons : parts ('*' :: cs) = [] :: part :: rest := by
              simp [parts, Text.split, hsplit]
            rw [hcons]
            rfl
          · have hne : (c == '*') = false := by simpa using hc
            have hcons : parts (c :: cs) = (c :: part) :: rest := by
              simp [parts, Text.split, hsplit, hne]
            rw [hcons]
            cases rest with
            | nil => simp [ofParts, starSym, hc]
            | cons next rest => simp [ofParts, starSym, hc]

/-- A pattern with a star has a first and a last part. -/
theorem exists_parts {pattern : List Char} (h : '*' ∈ pattern) :
    ∃ first mids last, parts pattern = first :: (mids ++ [last]) := by
  have hlong : ∀ {cs : List Char}, '*' ∈ cs →
      ∃ first next rest, parts cs = first :: next :: rest := by
    intro cs
    induction cs with
    | nil => exact fun h => absurd h List.not_mem_nil
    | cons c cs ih =>
        intro h
        by_cases hc : c = '*'
        · subst hc
          cases hparts : parts cs with
          | nil => exact absurd hparts (Text.split_ne_nil _ cs)
          | cons part rest =>
              have hsplit : Text.split (· == '*') cs = part :: rest := hparts
              exact ⟨[], part, rest, by simp [parts, Text.split, hsplit]⟩
        · obtain ⟨first, next, rest, hparts⟩ :=
            ih ((List.mem_cons.mp h).resolve_left fun heq => hc heq.symm)
          have hsplit : Text.split (· == '*') cs = first :: next :: rest := hparts
          have hne : (c == '*') = false := by simpa using hc
          exact ⟨c :: first, next, rest, by simp [parts, Text.split, hsplit, hne]⟩
  obtain ⟨first, next, rest, hparts⟩ := hlong h
  obtain ⟨mids, last, hrest⟩ := (List.eq_nil_or_concat' (next :: rest)).resolve_left (by simp)
  exact ⟨first, mids, last, by rw [hparts, hrest]⟩

/-! ## What the search accepts -/

/-- Between the first and the last part, and inside the last one. -/
theorem globMatchesLower_iff {pattern text first last : List Char} {mids : List (List Char)}
    (h : parts pattern = first :: (mids ++ [last])) (hstar : '*' ∈ pattern) :
    globMatchesLower pattern text = true ↔
      ∃ v, text = first ++ v ++ last ∧ InOrder mids (v ++ last) := by
  have hfirst : (parts pattern).headD [] = first := by rw [h]; rfl
  have hlast : (parts pattern).getLastD [] = last := by
    rw [h, ← List.cons_append, List.getLastD_concat]
  have hmids : (parts pattern).tail.dropLast = mids := by rw [h]; simp
  have hbegins : (!first.isEmpty && !first.isPrefixOf text) = true ↔ ¬ first <+: text := by
    rw [← List.isPrefixOf_iff_prefix]
    cases first with
    | nil => simp
    | cons c first => simp [-List.isPrefixOf_iff_prefix]
  have hends : (!last.isEmpty && !last.isSuffixOf text) = true ↔ ¬ last <:+ text := by
    rw [← List.isSuffixOf_iff_suffix]
    cases last with
    | nil => simp
    | cons c last => simp [-List.isSuffixOf_iff_suffix]
  simp only [globMatchesLower, hfirst, hlast, hmids, not_not.mpr hstar, if_false, hbegins, hends]
  constructor
  · intro hmatch
    split at hmatch
    · exact absurd hmatch (by simp)
    · rename_i hpre
      split at hmatch
      · exact absurd hmatch (by simp)
      · rename_i hsuf
        split at hmatch
        · exact absurd hmatch (by simp)
        · rename_i hlen
          obtain ⟨rest, rfl⟩ := not_not.mp hpre
          -- The last part is an end of what follows the first one.
          obtain ⟨v, rfl⟩ : last <:+ rest := by
            refine List.suffix_of_suffix_length_le (not_not.mp hsuf) ⟨first, rfl⟩ ?_
            rw [List.length_append] at hlen
            omega
          rw [List.drop_left, findInOrder_iff] at hmatch
          exact ⟨v, by simp, hmatch⟩
  · rintro ⟨v, rfl, hv⟩
    have hpre : first <+: first ++ v ++ last := ⟨v ++ last, by simp⟩
    have hsuf : last <:+ first ++ v ++ last := ⟨first ++ v, rfl⟩
    rw [if_neg (not_not.mpr hpre), if_neg (not_not.mpr hsuf), if_neg (by simp), List.append_assoc,
      List.drop_left, findInOrder_iff]
    exact hv

/-- The parts between the stars are found before the last part begins, if they
are found at all. -/
def FoundBeforeLast (pattern text : List Char) : Prop :=
  ∀ first mids last v, parts (Text.toAsciiLowercase pattern) = first :: (mids ++ [last]) →
    Text.toAsciiLowercase text = first ++ v ++ last → InOrder mids (v ++ last) → InOrder mids v

/-- `glob_matches` decides the glob of a pattern for a text exactly when the
search does not have to reach into the last part. -/
theorem globMatches_exact_iff (pattern text : List Char) :
    (globMatches pattern text = true ↔ Stands pattern text) ↔ FoundBeforeLast pattern text := by
  unfold globMatches Stands FoundBeforeLast
  generalize Text.toAsciiLowercase pattern = pattern
  generalize Text.toAsciiLowercase text = text
  by_cases hstar : '*' ∈ pattern
  · obtain ⟨first, mids, last, hparts⟩ := exists_parts hstar
    rw [globMatchesLower_iff hparts hstar, map_starSym, hparts, matches_ofParts]
    constructor
    · rintro hiff first' mids' last' v hparts' rfl hlong
      obtain ⟨rfl, hrest⟩ := List.cons.inj hparts'
      obtain ⟨rfl, hlast⟩ := List.append_inj' hrest rfl
      obtain ⟨rfl, -⟩ := List.cons.inj hlast
      obtain ⟨v', heq, hv'⟩ := hiff.mp ⟨v, rfl, hlong⟩
      rwa [List.append_cancel_left (List.append_cancel_right heq)]
    · intro hfound
      constructor
      · rintro ⟨v, rfl, hv⟩
        exact ⟨v, rfl, hfound first mids last v rfl rfl hv⟩
      · rintro ⟨v, rfl, hv⟩
        exact ⟨v, rfl, hv.append_right last⟩
  · have hone : parts pattern = [pattern] := Text.split_of_notMem hstar
    have hcode : globMatchesLower pattern text = true ↔ Matches (pattern.map starSym) text := by
      rw [globMatchesLower, if_pos hstar, beq_iff_eq, map_starSym, hone]
      exact eq_comm.trans matches_onePart.symm
    refine ⟨fun _ => ?_, fun _ => hcode⟩
    intro first mids last v hparts
    rw [hone] at hparts
    simp at hparts

/-- `a*b*b` accepts `ab`, in which one `b` would have to stand for two. -/
theorem last_part_found_twice :
    globMatches "a*b*b".toList "ab".toList = true ∧ ¬ Stands "a*b*b".toList "ab".toList := by
  refine ⟨by decide, ?_⟩
  intro h
  have hparts : parts (Text.toAsciiLowercase "a*b*b".toList) = [['a'], ['b'], ['b']] := by decide
  rw [Stands, map_starSym, hparts] at h
  have hex : ∃ v, _ = ['a'] ++ v ++ ['b'] ∧ InOrder [['b']] v := matches_ofParts.mp h
  obtain ⟨v, htext, u, w, rfl, -⟩ := hex
  -- The text has two characters, and three parts of one character each.
  have hlen : 2 = (['a'] ++ (u ++ ['b'] ++ w) ++ ['b']).length := congrArg List.length htext
  simp at hlen
  omega

end Llmenv.Scope.HostGlob
