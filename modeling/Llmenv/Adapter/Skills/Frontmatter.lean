/-
# `Llmenv.Adapter.Skills.Frontmatter` — the check of a skill's header

`validate_skill_frontmatter` of `src/adapter/skills.rs` with the second try
that quotes the values of `name` and `description`.  The header is the slice
from byte 3 to the place that one of two searches finds, and nothing looks at
the first three bytes.

`safe_iff` says for which texts this is right: those where no search finds a
place, and those that begin with a `---` line and have a later line that is
only `---`.  On every other text the slice is out of range, or a parser can
accept something that does not stand between two such lines.  The YAML parser
is a parameter.
-/
import Llmenv.Adapter.Skills.QuoteScalar
import Llmenv.Lib.Fence
import Llmenv.Lib.Lines

namespace Llmenv.Adapter.Skills

open Llmenv.Lib.Text

/-! ## The code -/

def fence : List Char := ['-', '-', '-']

/-- One line of `requote_name_and_description`, with the keys still to try. -/
def requoteLine (line : List Char) : List (List Char) → List Char
  | [] => line
  | key :: keys =>
      match (stripPrefix key line).bind (stripPrefix [':']) with
      | none => requoteLine line keys
      | some value =>
          match value.dropWhile isWhitespace with
          | [] => line
          | c :: cs =>
              if c = '"' || c = '\'' || c = '|' || c = '>' then line
              else key ++ [':', ' '] ++ quoteYamlScalar (c :: cs)

def requoteNameAndDescription (frontmatter : List Char) : List Char :=
  join ['\n'] ((lines frontmatter).map fun line =>
    requoteLine line ["name".toList, "description".toList])

/-- Where the header ends; `saturating_sub` for a closer at the end of the file. -/
def frontmatterEnd (content : List Char) : Option Nat :=
  match find ('\n' :: fence ++ ['\n']) content with
  | some end_ => some end_
  | none => if fence <:+ content then some (byteLen content - 3) else none

section Validate

variable {M : Type} (parse : List Char → Except String M) (has : M → String → Bool)
  (skillDir : String)

/-- The header as it is, or with quoted values; the error is that of the first try. -/
def parseHeader (frontmatter : List Char) : Except String M :=
  match parse frontmatter with
  | .ok mapping => .ok mapping
  | .error e =>
      match parse (requoteNameAndDescription frontmatter) with
      | .ok mapping => .ok mapping
      | .error _ => .error ("Skill " ++ skillDir ++
          " SKILL.md has invalid YAML frontmatter: " ++ e)

/-- The mapping that the check looks at; `none` is a slice out of range. -/
def readMapping (content : List Char) : Option (Except String M) :=
  match frontmatterEnd content with
  | none => some (.error ("Skill " ++ skillDir ++
      " SKILL.md missing YAML frontmatter (must start with --- and end with ---)"))
  | some end_ => (slice 3 end_ content).map (parseHeader parse skillDir)

def validateSkillFrontmatter (content : List Char) : Option (Except String Unit) :=
  (readMapping parse skillDir content).map fun r => r.bind fun mapping =>
    if !has mapping "name" || !has mapping "description" then
      .error ("Skill " ++ skillDir ++
        " SKILL.md missing required frontmatter fields (name and description)")
    else .ok ()

end Validate

/-! ## Headers by lines -/

/-- The text stands between the first line, which is a fence, and a later line that is only a
fence.  It begins behind the first fence and ends where the last line begins, or in front of the
newline there. -/
def Between (content text : List Char) : Prop :=
  ∃ eol mid after, rows content = (fence ++ eol) :: (mid ++ fence :: after) ∧
    (eol = [] ∨ eol = ['\r']) ∧
    (fence ++ text = unrows ((fence ++ eol) :: mid) ∨
      fence ++ text = unrows ((fence ++ eol) :: mid) ++ ['\n'])

/-- Whatever the parser does, no slice is out of range, and an accepted text has the mapping that
was checked between its fences. -/
def Safe (content : List Char) : Prop :=
  ∀ (M : Type) (parse : List Char → Except String M) (has : M → String → Bool)
    (skillDir : String),
    validateSkillFrontmatter parse has skillDir content ≠ none ∧
    (validateSkillFrontmatter parse has skillDir content = some (.ok ()) →
      ∃ mapping text, readMapping parse skillDir content = some (.ok mapping) ∧
        Between content text ∧
        (parse text = .ok mapping ∨ parse (requoteNameAndDescription text) = .ok mapping) ∧
        has mapping "name" = true ∧ has mapping "description" = true)

/-- The first line is a fence, with either line ending. -/
def OpensWithFence (content : List Char) : Prop :=
  ∃ eol rest, (eol = [] ∨ eol = ['\r']) ∧ content = fence ++ eol ++ '\n' :: rest

/-- The text has no closer, or it begins with a fence and a later line is a fence. -/
def Fenced (content : List Char) : Prop :=
  (¬ '\n' :: fence ++ ['\n'] <:+: content ∧ ¬ fence <:+ content) ∨
    (OpensWithFence content ∧
      ('\n' :: fence ++ ['\n'] <:+: content ∨ '\n' :: fence <:+ content))

theorem newline_notMem_skillFence : '\n' ∉ fence := by decide

/-- Where the two searches stop: in front of a fence between newlines, or in front of the fence
at the end. -/
theorem frontmatterEnd_cases (content : List Char) :
    (¬ '\n' :: fence ++ ['\n'] <:+: content ∧ ¬ fence <:+ content ∧
        frontmatterEnd content = none) ∨
      ∃ pre, frontmatterEnd content = some (byteLen pre) ∧
        ((∃ post, content = pre ++ ('\n' :: fence ++ ['\n']) ++ post) ∨
          (¬ '\n' :: fence ++ ['\n'] <:+: content ∧ content = pre ++ fence)) := by
  rcases find_cases ('\n' :: fence ++ ['\n']) content with ⟨pre, hfirst, hfind⟩ | ⟨hno, hfind⟩
  · obtain ⟨post, hpost⟩ := hfirst.here
    exact .inr ⟨pre, by rw [frontmatterEnd, hfind], .inl ⟨post, hpost.symm⟩⟩
  · by_cases hsuffix : fence <:+ content
    · obtain ⟨pre, rfl⟩ := hsuffix
      refine .inr ⟨pre, ?_, .inr ⟨hno, rfl⟩⟩
      have hfence : byteLen fence = 3 := rfl
      rw [frontmatterEnd, hfind, if_pos (List.suffix_append pre fence), byteLen_append, hfence,
        Nat.add_sub_cancel]
    · exact .inl ⟨hno, hsuffix, by rw [frontmatterEnd, hfind, if_neg hsuffix]⟩

theorem OpensWithFence.rows {content : List Char} (h : OpensWithFence content) :
    ∃ eol rs, (eol = [] ∨ eol = ['\r']) ∧ rows content = (fence ++ eol) :: rs := by
  obtain ⟨eol, rest, heol, rfl⟩ := h
  have hno : '\n' ∉ fence ++ eol := by rcases heol with rfl | rfl <;> decide
  exact ⟨eol, Lib.Text.rows rest, heol, split_append hno rest⟩

/-- The rows in front of the closer begin with the opener. -/
theorem OpensWithFence.front {content : List Char} (h : OpensWithFence content)
    {pre : List Char} {after : List (List Char)}
    (hrows : Lib.Text.rows content = Lib.Text.rows pre ++ fence :: after) :
    ∃ eol mid, (eol = [] ∨ eol = ['\r']) ∧
      Lib.Text.rows content = (fence ++ eol) :: (mid ++ fence :: after) ∧
      pre = unrows ((fence ++ eol) :: mid) := by
  obtain ⟨eol, rs, heol, hopen⟩ := h.rows
  obtain ⟨first, mid, hpre⟩ := List.exists_cons_of_ne_nil (rows_ne_nil pre)
  rw [hopen, hpre] at hrows
  obtain rfl : fence ++ eol = first := (List.cons.inj hrows).1
  exact ⟨eol, mid, heol, hopen.trans hrows, by rw [← hpre, unrows_rows]⟩

theorem slice_behind_fence {content text rest : List Char} (h : content = fence ++ text ++ rest) :
    slice 3 (byteLen (fence ++ text)) content = some text :=
  slice_eq_some.mpr ⟨fence, rest, h, rfl, rfl⟩

/-- The closer stands between newlines. -/
theorem between_within {content pre post : List Char} (h : OpensWithFence content)
    (hend : frontmatterEnd content = some (byteLen pre))
    (hpost : content = pre ++ ('\n' :: fence ++ ['\n']) ++ post) :
    ∃ end_ text, frontmatterEnd content = some end_ ∧ slice 3 end_ content = some text ∧
      Between content text := by
  have hrows : rows content = rows pre ++ fence :: rows post := by
    rw [hpost, rows_fenceRow newline_notMem_skillFence]
  obtain ⟨eol, mid, heol, hbetween, hfront⟩ := h.front hrows
  have htext : pre = fence ++ unrows (eol :: mid) :=
    hfront.trans (join_append_cons ['\n'] fence eol mid)
  refine ⟨byteLen pre, unrows (eol :: mid), hend, ?_, eol, mid, rows post, hbetween, heol,
    .inl (htext ▸ hfront)⟩
  rw [htext]
  exact slice_behind_fence (by rw [← htext, ← List.append_assoc, ← hpost])

/-- The closer is the last line, and its newline is still in the slice. -/
theorem between_atEnd {content front : List Char} (h : OpensWithFence content)
    (hend : frontmatterEnd content = some (byteLen (front ++ ['\n'])))
    (hlast : content = front ++ '\n' :: fence) :
    ∃ end_ text, frontmatterEnd content = some end_ ∧ slice 3 end_ content = some text ∧
      Between content text := by
  have hfence : rows fence = [fence] := split_of_notMem newline_notMem_skillFence
  have hrows : rows content = rows front ++ fence :: [] := by rw [hlast, rows_newline, hfence]
  obtain ⟨eol, mid, heol, hbetween, hunrows⟩ := h.front hrows
  have htext : front ++ ['\n'] = fence ++ (unrows (eol :: mid) ++ ['\n']) := by
    rw [hunrows, ← List.append_assoc]
    exact congrArg (· ++ ['\n']) (join_append_cons ['\n'] fence eol mid)
  refine ⟨byteLen (front ++ ['\n']), unrows (eol :: mid) ++ ['\n'], hend, ?_, eol, mid, [],
    hbetween, heol, .inr ?_⟩
  · have hcontent : content = fence ++ (unrows (eol :: mid) ++ ['\n']) ++ fence := by
      rw [← htext, hlast, List.append_assoc]
      rfl
    rw [htext]
    exact slice_behind_fence hcontent
  · rw [← htext, hunrows]

/-- A text with its fences has its header between them. -/
theorem exists_between {content : List Char} (h : OpensWithFence content)
    (hclose : '\n' :: fence ++ ['\n'] <:+: content ∨ '\n' :: fence <:+ content) :
    ∃ end_ text, frontmatterEnd content = some end_ ∧ slice 3 end_ content = some text ∧
      Between content text := by
  rcases frontmatterEnd_cases content with
    ⟨hno, hsuffix, -⟩ | ⟨pre, hend, ⟨post, hpost⟩ | ⟨hno, hlast⟩⟩
  · exact absurd hclose (not_or.mpr
      ⟨hno, fun hs => hsuffix ((List.suffix_cons '\n' fence).trans hs)⟩)
  · exact between_within h hend hpost
  · obtain ⟨front, hfront⟩ := hclose.resolve_left hno
    have hpre : front ++ ['\n'] = pre := by
      have happend : front ++ ['\n'] ++ fence = pre ++ fence := by
        rw [List.append_assoc, ← hlast]
        exact hfront
      exact List.append_cancel_right happend
    exact between_atEnd h (hpre ▸ hend) hfront.symm

theorem parseHeader_ok {M : Type} {parse : List Char → Except String M} {skillDir : String}
    {text : List Char} {mapping : M} (h : parseHeader parse skillDir text = .ok mapping) :
    parse text = .ok mapping ∨ parse (requoteNameAndDescription text) = .ok mapping := by
  unfold parseHeader at h
  split at h
  · rename_i m hm
    exact .inl (hm.trans h)
  · split at h
    · rename_i m hm
      exact .inr (hm.trans h)
    · exact absurd h (by simp)

/-- A text without closer is refused, and nothing is sliced. -/
theorem safe_of_noEnd {content : List Char} (hend : frontmatterEnd content = none) :
    Safe content := by
  intro M parse has skillDir
  rw [validateSkillFrontmatter, readMapping, hend]
  refine ⟨by simp, fun h => ?_⟩
  exact absurd (Option.some.inj h) (by simp [Except.bind])

/-- A header between the fences of a text is what the check reads. -/
theorem safe_of_between {content text : List Char} {end_ : Nat}
    (hend : frontmatterEnd content = some end_) (hslice : slice 3 end_ content = some text)
    (hbetween : Between content text) : Safe content := by
  intro M parse has skillDir
  have hread : readMapping parse skillDir content = some (parseHeader parse skillDir text) := by
    rw [readMapping, hend]
    dsimp only
    rw [hslice]
    rfl
  rw [validateSkillFrontmatter, hread]
  refine ⟨by simp, fun h => ?_⟩
  cases hheader : parseHeader parse skillDir text with
  | error e =>
      rw [hheader] at h
      exact absurd (Option.some.inj h) (by simp [Except.bind])
  | ok mapping =>
      rw [hheader] at h
      have hfields : ¬ (!has mapping "name" || !has mapping "description") = true := by
        intro hmissing
        have hcheck := Option.some.inj h
        simp only [Except.bind, hmissing, if_true] at hcheck
        exact absurd hcheck (by simp)
      simp only [Bool.or_eq_true, Bool.not_eq_true', not_or, Bool.not_eq_false] at hfields
      exact ⟨mapping, text, rfl, hbetween, parseHeader_ok hheader, hfields.1, hfields.2⟩

/-- A parser that takes everything shows what the check would take. -/
theorem between_of_safe {content : List Char} (h : Safe content) {end_ : Nat}
    (hend : frontmatterEnd content = some end_) : ∃ text, Between content text := by
  obtain ⟨hslice, haccept⟩ := h Unit (fun _ => .ok ()) (fun _ _ => true) ""
  cases htext : slice 3 end_ content with
  | none =>
      refine absurd ?_ hslice
      rw [validateSkillFrontmatter, readMapping, hend]
      dsimp only
      rw [htext]
      rfl
  | some text =>
      have hok : validateSkillFrontmatter (fun _ => .ok ()) (fun _ _ => true) "" content =
          some (.ok ()) := by
        rw [validateSkillFrontmatter, readMapping, hend]
        dsimp only
        rw [htext]
        rfl
      obtain ⟨mapping, text', -, hbetween, -⟩ := haccept hok
      exact ⟨text', hbetween⟩

theorem Between.fenced {content text : List Char} (h : Between content text) :
    OpensWithFence content ∧
      ('\n' :: fence ++ ['\n'] <:+: content ∨ '\n' :: fence <:+ content) := by
  obtain ⟨eol, mid, after, hrows, heol, -⟩ := h
  constructor
  · obtain ⟨-, tail, htail, -⟩ := (rows_cons_iff (by simp)).mp hrows
    exact ⟨eol, tail, heol, htail⟩
  · have hcontent : content = unrows ((fence ++ eol) :: mid) ++ '\n' :: unrows (fence :: after) := by
      rw [← unrows_rows content, hrows, ← List.cons_append,
        unrows_append (List.cons_ne_nil _ mid) (List.cons_ne_nil fence after)]
    by_cases ha : after = []
    · refine .inr ?_
      rw [hcontent, ha]
      exact List.suffix_append _ _
    · refine .inl ⟨unrows ((fence ++ eol) :: mid), unrows after, ?_⟩
      rw [hcontent, unrows_cons ha]
      simp

/-- The check is right on a text exactly when the text has no closer at all, or begins with a
`---` line and has a later line that is only `---`. -/
theorem safe_iff (content : List Char) : Safe content ↔ Fenced content := by
  constructor
  · intro h
    rcases frontmatterEnd_cases content with ⟨hno, hsuffix, -⟩ | ⟨pre, hend, -⟩
    · exact .inl ⟨hno, hsuffix⟩
    · obtain ⟨text, hbetween⟩ := between_of_safe h hend
      exact .inr hbetween.fenced
  · rintro (⟨hno, hsuffix⟩ | ⟨hopens, hclose⟩)
    · rcases frontmatterEnd_cases content with ⟨-, -, hend⟩ | ⟨pre, -, ⟨post, hpost⟩ | ⟨-, hlast⟩⟩
      · exact safe_of_noEnd hend
      · exact absurd ⟨pre, post, hpost.symm⟩ hno
      · exact absurd ⟨pre, hlast.symm⟩ hsuffix
    · obtain ⟨end_, text, hend, hslice, hbetween⟩ := exists_between hopens hclose
      exact safe_of_between hend hslice hbetween

/-- A file that is one line of three dashes: the slice runs from byte 3 to byte 0. -/
theorem not_safe_dashes : ¬ ∀ content, Safe content := by
  intro h
  obtain ⟨hslice, -⟩ := h fence Unit (fun _ => .ok ()) (fun _ _ => true) ""
  exact hslice rfl

/-- The three bytes in front of the header are not looked at. -/
example : readMapping (fun cs => .ok cs) "" "abcname: x\n---\n".toList =
    some (.ok "name: x".toList) := by decide

end Llmenv.Adapter.Skills
