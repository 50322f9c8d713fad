/-
# `Llmenv.Statusline.Template` — the tokens of a row template

`parse_template` of `src/cli/statusline/template.rs`.  The loop runs over the
characters with their byte offsets.  At an opening brace it searches the text
from the next byte on, slices the name out by the offset that the search gives,
and then moves its own iterator on by the number of characters of the name.

`parseTemplate_exact`: no slice is out of range, and the tokens printed one
after the other are the template.
-/
import Mathlib.Data.List.Chain
import Llmenv.Lib.Slice

namespace Llmenv.Statusline

open Llmenv.Lib.Text

/-! ## The code -/

inductive TemplateToken where
  | literal (text : List Char)
  | widget (name : List Char) (truncate : Bool)
deriving DecidableEq

/-- `literal`, when it is not empty, as a token. -/
def flush (literal : List Char) : List TemplateToken :=
  if literal.isEmpty then [] else [.literal literal]

/-- The widget between two braces. -/
def widgetOf (inner : List Char) : TemplateToken :=
  match splitOnce ':' inner with
  | some (name, ['t']) => .widget name true
  | _ => .widget inner false

/-- The loop, where the iterator has the characters `cs` left, which begin at the byte `pos`:
the tokens it pushes, and the literal it leaves with.  `skip` counts the calls of `chars.next()`
that are still to come before the next turn; `none` is a slice out of range. -/
def parseLoop (template : List Char) :
    List Char → Nat → Nat → List Char → Option (List TemplateToken × List Char)
  | [], _, _, literal => some ([], literal)
  | c :: cs, pos, skip + 1, literal => parseLoop template cs (pos + c.utf8Size) skip literal
  | c :: cs, start, 0, literal =>
      if c ≠ '{' then parseLoop template cs (start + c.utf8Size) 0 (literal ++ [c])
      else do
        let rest ← sliceFrom (start + 1) template
        match find ['}'] rest with
        | some end_ =>
            let inner ← sliceTo end_ rest
            let r ← parseLoop template cs (start + c.utf8Size) (inner.length + 1) []
            some (flush literal ++ widgetOf inner :: r.1, r.2)
        | none =>
            -- Without a closing brace the rest of the template is literal.
            let tail ← sliceFrom start template
            some ([], literal ++ tail)

def parseTemplate (template : List Char) : Option (List TemplateToken) :=
  (parseLoop template template 0 0 []).map fun r => r.1 ++ flush r.2

/-! ## Printing -/

def TemplateToken.print : TemplateToken → List Char
  | .literal text => text
  | .widget name true => '{' :: name ++ [':', 't', '}']
  | .widget name false => '{' :: name ++ ['}']

def TemplateToken.isLiteral : TemplateToken → Bool
  | .literal _ => true
  | .widget _ _ => false

/-- The tokens of a template: no literal is empty, no widget name has a closing brace, and no two
literals are adjacent. -/
structure Tokens (tokens : List TemplateToken) : Prop where
  literal_ne_nil : ∀ text, .literal text ∈ tokens → text ≠ []
  brace_notMem : ∀ name truncate, .widget name truncate ∈ tokens → '}' ∉ name
  apart : tokens.IsChain fun a b => ¬ (a.isLiteral = true ∧ b.isLiteral = true)

theorem print_flush (literal : List Char) : (flush literal).flatMap TemplateToken.print = literal := by
  cases literal with
  | nil => rfl
  | cons c cs => exact List.append_nil (c :: cs)

theorem tokens_flush (literal : List Char) : Tokens (flush literal) := by
  cases literal with
  | nil => exact ⟨by simp [flush], by simp [flush], .nil⟩
  | cons c cs => exact ⟨by simp [flush], by simp [flush], .singleton _⟩

theorem widgetOf_spec {inner : List Char} (h : '}' ∉ inner) :
    (widgetOf inner).print = '{' :: inner ++ ['}'] ∧
      ∃ name truncate, widgetOf inner = .widget name truncate ∧ '}' ∉ name := by
  unfold widgetOf
  split
  · rename_i name hsplit
    obtain ⟨rfl, -⟩ := splitOnce_eq_some.mp hsplit
    refine ⟨by simp [TemplateToken.print], name, true, rfl, ?_⟩
    exact fun hmem => h (List.mem_append_left _ hmem)
  · exact ⟨rfl, inner, false, rfl, h⟩

theorem tokens_widget {name : List Char} {truncate : Bool} {tokens : List TemplateToken}
    (hname : '}' ∉ name) (h : Tokens tokens) : Tokens (.widget name truncate :: tokens) := by
  refine ⟨fun text hmem => ?_, fun name' truncate' hmem => ?_, ?_⟩
  · exact h.literal_ne_nil text ((List.mem_cons.mp hmem).resolve_left (by simp))
  · rcases List.mem_cons.mp hmem with heq | hmem
    · obtain ⟨rfl, -⟩ := TemplateToken.widget.inj heq
      exact hname
    · exact h.brace_notMem name' truncate' hmem
  · refine List.isChain_cons.mpr ⟨fun next _ hboth => ?_, h.apart⟩
    exact absurd hboth.1 (by simp [TemplateToken.isLiteral])

/-- A literal and a widget in front of tokens. -/
theorem tokens_flush_widget {literal name : List Char} {truncate : Bool}
    {tokens : List TemplateToken} (hname : '}' ∉ name) (h : Tokens tokens) :
    Tokens (flush literal ++ .widget name truncate :: tokens) := by
  have hwidget : Tokens (.widget name truncate :: tokens) := tokens_widget hname h
  cases literal with
  | nil => exact hwidget
  | cons c cs =>
      refine ⟨fun text hmem => ?_, fun name' truncate' hmem => ?_, ?_⟩
      · rcases List.mem_cons.mp hmem with heq | hmem
        · rw [TemplateToken.literal.inj heq]
          exact List.cons_ne_nil c cs
        · exact hwidget.literal_ne_nil text hmem
      · exact hwidget.brace_notMem name' truncate'
          ((List.mem_cons.mp hmem).resolve_left (by simp))
      · refine List.isChain_cons.mpr ⟨fun next hnext hboth => ?_, hwidget.apart⟩
        obtain rfl : next = .widget name truncate := (Option.some.inj hnext).symm
        exact absurd hboth.2 (by simp [TemplateToken.isLiteral])

/-! ## The loop -/

section Loop

variable {template : List Char}

/-- Calls of `chars.next()` move past that many characters. -/
theorem parseLoop_skip (xs cs : List Char) (pos : Nat) (literal : List Char) :
    parseLoop template (xs ++ cs) pos xs.length literal =
      parseLoop template cs (pos + byteLen xs) 0 literal := by
  induction xs generalizing pos with
  | nil => rfl
  | cons x xs ih =>
      rw [List.cons_append, List.length_cons, parseLoop, ih, byteLen_cons, Nat.add_assoc]

/-- A turn at an opening brace that is closed: the iterator goes on behind the closing one. -/
theorem parseLoop_closed {pre inner cs : List Char} (literal : List Char)
    (h : template = pre ++ '{' :: (inner ++ '}' :: cs)) (hinner : '}' ∉ inner) :
    parseLoop template ('{' :: (inner ++ '}' :: cs)) (byteLen pre) 0 literal =
      (parseLoop template cs (byteLen (pre ++ '{' :: (inner ++ ['}']))) 0 []).map fun r =>
        (flush literal ++ widgetOf inner :: r.1, r.2) := by
  have hrest : sliceFrom (byteLen pre + 1) template = some (inner ++ '}' :: cs) :=
    sliceFrom_eq_some.mpr ⟨pre ++ ['{'], by rw [h]; simp, by rw [byteLen_append]; rfl⟩
  have hfind : find ['}'] (inner ++ '}' :: cs) = some (byteLen inner) := by
    rw [find_singleton, splitOnce_eq_some.mpr ⟨rfl, hinner⟩]
    rfl
  have hslice : sliceTo (byteLen inner) (inner ++ '}' :: cs) = some inner :=
    sliceTo_eq_some.mpr ⟨'}' :: cs, rfl, rfl⟩
  have hskip : parseLoop template (inner ++ '}' :: cs) (byteLen pre + '{'.utf8Size)
      (inner.length + 1) [] =
      parseLoop template cs (byteLen (pre ++ '{' :: (inner ++ ['}']))) 0 [] := by
    have happend : inner ++ '}' :: cs = (inner ++ ['}']) ++ cs := by simp
    have hlen : inner.length + 1 = (inner ++ ['}']).length := by simp
    rw [happend, hlen, parseLoop_skip, byteLen_append pre, byteLen_cons, Nat.add_assoc]
  rw [parseLoop, if_neg (by simp), hrest]
  simp only [Option.bind_eq_bind, Option.bind_some, hfind, hslice, hskip]
  rw [Option.map_eq_bind]
  rfl

/-- A turn at an opening brace that nothing closes. -/
theorem parseLoop_unclosed {pre cs : List Char} (literal : List Char)
    (h : template = pre ++ '{' :: cs) (hcs : '}' ∉ cs) :
    parseLoop template ('{' :: cs) (byteLen pre) 0 literal = some ([], literal ++ '{' :: cs) := by
  have hrest : sliceFrom (byteLen pre + 1) template = some cs :=
    sliceFrom_eq_some.mpr ⟨pre ++ ['{'], by rw [h]; simp, by rw [byteLen_append]; rfl⟩
  have hfind : find ['}'] cs = none := by
    rw [find_singleton, splitOnce_eq_none.mpr hcs]
    rfl
  have htail : sliceFrom (byteLen pre) template = some ('{' :: cs) :=
    sliceFrom_eq_some.mpr ⟨pre, h, rfl⟩
  rw [parseLoop, if_neg (by simp), hrest]
  simp only [Option.bind_eq_bind, Option.bind_some, hfind, htail]

/-- The loop from an offset where `cs` is what is left. -/
theorem parseLoop_spec : ∀ (n : Nat) {cs : List Char} (pre literal : List Char), cs.length ≤ n →
    template = pre ++ cs →
    ∃ tokens last, parseLoop template cs (byteLen pre) 0 literal = some (tokens, last) ∧
      (tokens ++ flush last).flatMap TemplateToken.print = literal ++ cs ∧
      Tokens (tokens ++ flush last)
  | _, [], _, literal, _, _ =>
      ⟨[], literal, rfl, by rw [List.nil_append, print_flush, List.append_nil], tokens_flush literal⟩
  | n + 1, c :: cs, pre, literal, hle, h => by
      have hlen : cs.length ≤ n := Nat.le_of_succ_le_succ hle
      by_cases hc : c = '{'
      · subst hc
        cases hsplit : splitOnce '}' cs with
        | none =>
            refine ⟨[], _, parseLoop_unclosed literal h (splitOnce_eq_none.mp hsplit), ?_,
              tokens_flush _⟩
            rw [List.nil_append, print_flush]
        | some parts =>
            obtain ⟨inner, rest⟩ := parts
            obtain ⟨rfl, hinner⟩ := splitOnce_eq_some.mp hsplit
            obtain ⟨hprint, name, truncate, hwidget, hname⟩ := widgetOf_spec hinner
            have hshort : rest.length ≤ n := by
              simp only [List.length_append, List.length_cons] at hlen
              omega
            obtain ⟨tokens, last, hloop, hback, htokens⟩ :=
              parseLoop_spec n (pre ++ '{' :: (inner ++ ['}'])) [] hshort (by rw [h]; simp)
            refine ⟨flush literal ++ widgetOf inner :: tokens, last, ?_, ?_, ?_⟩
            · rw [parseLoop_closed literal h hinner, hloop]
              rfl
            · rw [List.append_assoc, List.cons_append, List.flatMap_append, List.flatMap_cons,
                print_flush, hprint, hback]
              simp
            · rw [List.append_assoc, List.cons_append, hwidget]
              exact tokens_flush_widget hname htokens
      · obtain ⟨tokens, last, hloop, hback, htokens⟩ :=
          parseLoop_spec n (pre ++ [c]) (literal ++ [c]) hlen (by rw [h]; simp)
        refine ⟨tokens, last, ?_, by rw [hback]; simp, htokens⟩
        rw [parseLoop, if_pos hc, ← hloop, byteLen_append]
        rfl

end Loop

/-- Nothing of a template is lost: its tokens, printed in order, are the template. -/
theorem parseTemplate_exact (template : List Char) :
    ∃ tokens, parseTemplate template = some tokens ∧
      tokens.flatMap TemplateToken.print = template ∧ Tokens tokens := by
  obtain ⟨tokens, last, hloop, hprint, htokens⟩ :=
    parseLoop_spec template.length [] [] le_rfl (List.nil_append template).symm
  refine ⟨tokens ++ flush last, ?_, hprint, htokens⟩
  rw [parseTemplate]
  exact congrArg (Option.map _) hloop

example : parseTemplate "\x7ba→b:t\x7d│\x7bx:y\x7d\x7bz".toList = some [.widget "a→b".toList true,
    .literal "│".toList, .widget "x:y".toList false, .literal "\x7bz".toList] := by decide

end Llmenv.Statusline
