/-
# `Llmenv.HookRun.ShellQuote` — quoted words are split as they were

`single_quote` of `llmenv-util/src/shell.rs` against the two scanners of
`src/hook_run/shell_split.rs`.  Both scanners go through a quoted word and come
out where they went in, whatever the word has in it; so commands that are
rendered from quoted words are split into the same words (`split_render`).
-/
import Llmenv.HookRun.ShellJoin

namespace Llmenv.HookRun.ShellQuote

open Llmenv.Lib Llmenv.HookRun.ShellSplit

/-! ## Rendering -/

/-- The text of a character between single quotes: a quote is closed, escaped and opened again. -/
def quoteChar (c : Char) : List Char :=
  if c = ShellSplit.singleQuote then
    [ShellSplit.singleQuote, backslash, ShellSplit.singleQuote, ShellSplit.singleQuote]
  else [c]

/-- `single_quote`. -/
def singleQuote (s : Word) : List Char :=
  ShellSplit.singleQuote :: (s.flatMap quoteChar ++ [ShellSplit.singleQuote])

def renderCommand (words : List Word) : List Char := Text.join [' '] (words.map singleQuote)

/-- Commands with a `;` between them. -/
def render (commands : List (List Word)) : List Char :=
  Text.join [';'] (commands.map renderCommand)

theorem renderCommand_cons (word next : Word) (words : List Word) :
    renderCommand (word :: next :: words) =
      singleQuote word ++ ' ' :: renderCommand (next :: words) := by
  simp [renderCommand, Text.join]

theorem render_cons (command next : List Word) (commands : List (List Word)) :
    render (command :: next :: commands) =
      renderCommand command ++ ';' :: render (next :: commands) := by
  simp [render, Text.join]

/-! ## The first scanner -/

section

variable {inner : List Char → Except NestingTooDeep (List Char)}

/-- The loop with as much fuel as it needs. -/
def scan (inner : List Char → Except NestingTooDeep (List Char)) (cs : List Char)
    (s : SplitState) : Except NestingTooDeep (List Char) := splitLoop inner cs.length cs s

theorem scan_quote {s : SplitState} (hdouble : s.double = false) (cs : List Char) :
    scan inner (ShellSplit.singleQuote :: cs) s =
      scan inner cs { s.push [ShellSplit.singleQuote] with single := !s.single } := by
  simp [scan, splitLoop, hdouble]

theorem scan_escape {s : SplitState} (hsingle : s.single = false) (c : Char) (cs : List Char) :
    scan inner (backslash :: c :: cs) s = scan inner cs (s.push [backslash, c]) := by
  have hfuel : splitLoop inner (cs.length + 1) cs (s.push [backslash, c]) =
      splitLoop inner cs.length cs (s.push [backslash, c]) :=
    splitLoop_fuel inner _ (Nat.le_succ _) le_rfl
  have hne : backslash ≠ ShellSplit.singleQuote ∧ backslash ≠ doubleQuote := by decide
  rw [scan, scan, ← hfuel, List.length_cons, List.length_cons]
  simp [splitLoop, hsingle, hne]

/-- Between single quotes every other character is text. -/
theorem scan_text {s : SplitState} (hsingle : s.single = true) {c : Char}
    (hc : c ≠ ShellSplit.singleQuote) (cs : List Char) :
    scan inner (c :: cs) s = scan inner cs (s.push [c]) := by
  simp [scan, splitLoop, hsingle, hc]

theorem scan_space {s : SplitState} (cs : List Char) :
    scan inner (' ' :: cs) s = scan inner cs (s.push [' ']) := by
  simp [scan, splitLoop, ShellSplit.singleQuote, doubleQuote, backslash, backtick, isOperator]

/-- The state outside of all quotes. -/
def Top (s : SplitState) : Prop := s.single = false ∧ s.double = false

theorem SplitState.push_push (s : SplitState) (cs ds : List Char) :
    (s.push cs).push ds = s.push (cs ++ ds) := by
  simp [SplitState.push]

/-- Between single quotes the scanner goes through the text of a word and stays there. -/
theorem scan_body {s : SplitState} (hsingle : s.single = true) (hdouble : s.double = false)
    (word : Word) (cs : List Char) :
    scan inner (word.flatMap quoteChar ++ cs) s =
      scan inner cs (s.push (word.flatMap quoteChar)) := by
  induction word generalizing s with
  | nil => simp [SplitState.push]
  | cons c word ih =>
      rw [List.flatMap_cons, List.append_assoc]
      by_cases hc : c = ShellSplit.singleQuote
      · have hquoted : quoteChar c = [ShellSplit.singleQuote, backslash, ShellSplit.singleQuote,
            ShellSplit.singleQuote] := if_pos hc
        rw [hquoted]
        show scan inner (ShellSplit.singleQuote :: backslash :: ShellSplit.singleQuote ::
          ShellSplit.singleQuote :: (word.flatMap quoteChar ++ cs)) s = _
        rw [scan_quote hdouble, scan_escape (by simp [hsingle]), scan_quote (by exact hdouble), ih]
        · simp [SplitState.push, hsingle]
        · simp [SplitState.push, hsingle]
        · exact hdouble
      · have hplain : quoteChar c = [c] := if_neg hc
        rw [hplain, List.singleton_append, scan_text hsingle hc,
          ih (s := s.push [c]) hsingle hdouble, SplitState.push_push]

theorem scan_word {s : SplitState} (htop : Top s) (word : Word) (cs : List Char) :
    scan inner (singleQuote word ++ cs) s = scan inner cs (s.push (singleQuote word)) := by
  obtain ⟨hsingle, hdouble⟩ := htop
  have htext : singleQuote word ++ cs = ShellSplit.singleQuote ::
      (word.flatMap quoteChar ++ ShellSplit.singleQuote :: cs) := by
    simp [singleQuote]
  rw [htext, scan_quote hdouble]
  refine (scan_body (s := { s.push [ShellSplit.singleQuote] with single := !s.single })
    (by simp [hsingle]) hdouble word _).trans ((scan_quote ?_ cs).trans ?_)
  · exact hdouble
  · simp [SplitState.push, singleQuote, hsingle]

theorem scan_command {s : SplitState} (htop : Top s) {words : List Word} (hwords : words ≠ [])
    (cs : List Char) :
    scan inner (renderCommand words ++ cs) s = scan inner cs (s.push (renderCommand words)) := by
  induction words generalizing s with
  | nil => exact absurd rfl hwords
  | cons word words ih =>
      cases words with
      | nil => exact scan_word htop word cs
      | cons next words =>
          rw [renderCommand_cons, List.append_assoc, scan_word htop, List.cons_append, scan_space,
            SplitState.push_push, ih (s := s.push (singleQuote word ++ [' '])) htop (by simp),
            SplitState.push_push]
          simp

theorem scan_operator {s : SplitState} (htop : Top s) (cs : List Char) :
    scan inner (';' :: cs) s =
      scan inner cs ⟨s.flush ++ [';'], [], [], false, false⟩ :=
  splitLoop_operator inner s (by simp [htop.1, htop.2]) le_rfl

/-- Nothing of rendered commands is moved. -/
theorem scan_render {s : SplitState} (htop : Top s) {commands : List (List Word)}
    (hcommands : ∀ words ∈ commands, words ≠ []) :
    scan inner (render commands) s = .ok (s.flush ++ render commands) := by
  induction commands generalizing s with
  | nil => simp [render, Text.join, scan, splitLoop]
  | cons words commands ih =>
      obtain ⟨hwords, hcommands⟩ := List.forall_mem_cons.mp hcommands
      have hpush : (s.push (renderCommand words)).flush = s.flush ++ renderCommand words := by
        simp [SplitState.push, SplitState.flush]
      cases commands with
      | nil =>
          have hone : scan inner (renderCommand words ++ []) s = _ := scan_command htop hwords []
          rw [List.append_nil] at hone
          show scan inner (renderCommand words) s = .ok (s.flush ++ renderCommand words)
          rw [hone, ← hpush]
          rfl
      | cons next commands =>
          rw [render_cons, scan_command htop hwords,
            scan_operator (s := s.push (renderCommand words)) htop, hpush, ih ⟨rfl, rfl⟩ hcommands]
          simp [SplitState.flush]

end

/-! ## The second scanner -/

section

variable {s : WordState}

theorem words_open (hquote : s.quote = none) (cs : List Char) :
    splitWordsLoop (ShellSplit.singleQuote :: cs) s =
      splitWordsLoop cs
        { s with quote := some ShellSplit.singleQuote, word := some (s.word.getD []) } := by
  rw [splitWordsLoop.eq_def]
  simp [hquote]

theorem words_close (hquote : s.quote = some ShellSplit.singleQuote) (cs : List Char) :
    splitWordsLoop (ShellSplit.singleQuote :: cs) s =
      splitWordsLoop cs { s with quote := none } := by
  rw [splitWordsLoop.eq_def]
  simp [hquote]

theorem words_text (hquote : s.quote = some ShellSplit.singleQuote) {c : Char}
    (hc : c ≠ ShellSplit.singleQuote) (cs : List Char) :
    splitWordsLoop (c :: cs) s = splitWordsLoop cs (s.push c) := by
  have hne : ShellSplit.singleQuote ≠ doubleQuote := by decide
  rw [splitWordsLoop.eq_def]
  simp [hquote, hc, hne]

theorem words_escape (hquote : s.quote = none) (c : Char) (cs : List Char) :
    splitWordsLoop (backslash :: c :: cs) s = splitWordsLoop cs (s.push c) := by
  have hne : backslash ≠ ShellSplit.singleQuote ∧ backslash ≠ doubleQuote := by decide
  rw [splitWordsLoop.eq_def]
  simp [hquote, hne]

theorem words_space (hquote : s.quote = none) (cs : List Char) :
    splitWordsLoop (' ' :: cs) s = splitWordsLoop cs s.endWord := by
  rw [splitWordsLoop.eq_def]
  simp [hquote, ShellSplit.singleQuote, doubleQuote, backslash, isOperator, Text.isWhitespace]

end

/-- A state with a word that is being read. -/
def reading (segments : List (List Word)) (words : List Word) (word : Word)
    (quote : Option Char) : WordState := ⟨segments, words, some word, quote⟩

theorem words_body (segments : List (List Word)) (words : List Word) (word text : Word)
    (cs : List Char) :
    splitWordsLoop (text.flatMap quoteChar ++ cs)
        (reading segments words word (some ShellSplit.singleQuote)) =
      splitWordsLoop cs
        (reading segments words (word ++ text) (some ShellSplit.singleQuote)) := by
  induction text generalizing word with
  | nil => rw [List.flatMap_nil, List.nil_append, List.append_nil]
  | cons c text ih =>
      rw [List.flatMap_cons, List.append_assoc, List.append_cons word c text, ← ih]
      by_cases hc : c = ShellSplit.singleQuote
      · have hquoted : quoteChar c = [ShellSplit.singleQuote, backslash, ShellSplit.singleQuote,
            ShellSplit.singleQuote] := if_pos hc
        rw [hquoted, hc]
        show splitWordsLoop (ShellSplit.singleQuote :: backslash :: ShellSplit.singleQuote ::
          ShellSplit.singleQuote :: (text.flatMap quoteChar ++ cs)) _ = _
        rw [words_close rfl, words_escape rfl, words_open rfl]
        rfl
      · have hplain : quoteChar c = [c] := if_neg hc
        rw [hplain, List.singleton_append, words_text rfl hc]
        rfl

/-- A quoted word is read as the word. -/
theorem words_word (segments : List (List Word)) (words : List Word) (text : Word)
    (cs : List Char) :
    splitWordsLoop (singleQuote text ++ cs) ⟨segments, words, none, none⟩ =
      splitWordsLoop cs (reading segments words text none) := by
  have htext : singleQuote text ++ cs = ShellSplit.singleQuote ::
      (text.flatMap quoteChar ++ ShellSplit.singleQuote :: cs) := by
    simp [singleQuote]
  have hbody := words_body segments words [] text (ShellSplit.singleQuote :: cs)
  rw [htext, words_open rfl]
  refine Eq.trans hbody ?_
  rw [words_close rfl]
  rfl

theorem words_command {words : List Word} (hwords : words ≠ []) (before : List Word)
    (cs : List Char) :
    ∃ init last, init ++ [last] = before ++ words ∧
      splitWordsLoop (renderCommand words ++ cs) ⟨[], before, none, none⟩ =
        splitWordsLoop cs (reading [] init last none) := by
  induction words generalizing before with
  | nil => exact absurd rfl hwords
  | cons word words ih =>
      cases words with
      | nil => exact ⟨before, word, rfl, words_word [] before word cs⟩
      | cons next words =>
          obtain ⟨init, last, hinit, hrest⟩ := ih (by simp) (before ++ [word])
          refine ⟨init, last, by simpa using hinit, ?_⟩
          rw [renderCommand_cons, List.append_assoc, words_word, List.cons_append, words_space rfl,
            ← hrest]
          rfl

theorem splitWords_render {commands : List (List Word)}
    (hcommands : ∀ words ∈ commands, words ≠ []) : splitWords (render commands) = commands := by
  have hend : ∀ init last, splitWordsLoop [] (reading [] init last none) = [init ++ [last]] := by
    intro init last
    simp [splitWordsLoop, reading, WordState.endSegment, WordState.endWord]
  induction commands with
  | nil => rfl
  | cons words commands ih =>
      obtain ⟨hwords, hcommands⟩ := List.forall_mem_cons.mp hcommands
      cases commands with
      | nil =>
          obtain ⟨init, last, hinit, hrest⟩ := words_command hwords [] []
          rw [List.append_nil, hend, hinit] at hrest
          exact hrest
      | cons next commands =>
          obtain ⟨init, last, hinit, hrest⟩ :=
            words_command hwords [] (';' :: render (next :: commands))
          rw [splitWordsLoop_operator rfl, hend, hinit, ih hcommands] at hrest
          rw [render_cons]
          exact hrest

/-- Rendered commands are split into the same words, by the segment splitter and the word
splitter, at every depth that is split at all. -/
theorem split_render {commands : List (List Word)} (hcommands : ∀ words ∈ commands, words ≠ [])
    (room : Nat) :
    splitAtDepth (room + 1) (render commands) = .ok (render commands) ∧
      (splitAtDepth (room + 1) (render commands)).map splitWords = .ok commands := by
  have hsplit : splitAtDepth (room + 1) (render commands) = .ok (render commands) :=
    scan_render (s := ⟨[], [], [], false, false⟩) ⟨rfl, rfl⟩ hcommands
  refine ⟨hsplit, ?_⟩
  rw [hsplit, Except.map, splitWords_render hcommands]

/-- Text that would be a command outside of the quotes. -/
theorem split_render_commit :
    (splitAtDepth (maxSubstitutionDepth + 1)
        (render [["echo".toList, "it's; $(git commit) `git commit`".toList], ["ls".toList]])).map
      splitWords =
        .ok [["echo".toList, "it's; $(git commit) `git commit`".toList], ["ls".toList]] := by
  refine (split_render ?_ maxSubstitutionDepth).2
  intro words hwords
  rcases List.mem_pair.mp hwords with rfl | rfl <;> simp

end Llmenv.HookRun.ShellQuote
