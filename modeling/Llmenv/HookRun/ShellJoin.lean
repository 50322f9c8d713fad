/-
# `Llmenv.HookRun.ShellJoin` — two commands in one text

When the scanner of `split_at_depth` stands outside of quotes, escapes and
substitutions at the end of a command, a `;` and a second command are split as
if they stood alone (`splitAtDepth_join`).

The words are read by a second scanner, from the text that the first one makes.
In that text the command of a substitution stands in front of its segment, and a
quote left open in it goes on behind it.  So the segments of the two commands
follow each other exactly when the second scanner stands outside of quotes and
escapes as well (`joined_iff`).
-/
import Llmenv.HookRun.ShellSplit
import Llmenv.Lib.Result

namespace Llmenv.HookRun.ShellSplit

open Llmenv.Lib

/-! ## Where the scanner stands -/

/-- Whether `take_until_close` finds the `)`. -/
def closes : List Char → Nat → Bool → Bool → Bool
  | [], _, _, _ => false
  | c :: cs, depth, single, double =>
      if single then closes cs depth (c != singleQuote) double
      else if c = backslash then
        match cs with
        | [] => false
        | _ :: cs => closes cs depth single double
      else if c = ')' ∧ !double ∧ depth = 0 then true
      else
        let single := c == singleQuote && !double
        let depth :=
          if double then depth
          else if c = ')' then depth - 1
          else if c = '(' then depth + 1
          else depth
        let double := if c = doubleQuote then !double else double
        closes cs depth single double

/-- Whether the loop of `split_at_depth` ends outside of quotes, escapes and substitutions. -/
def endsAtTop : Nat → List Char → Bool → Bool → Bool
  | _, [], single, double => !single && !double
  | 0, _ :: _, _, _ => false
  | fuel + 1, c :: cs, single, double =>
      if c = singleQuote ∧ !double then endsAtTop fuel cs (!single) double
      else if c = doubleQuote ∧ !single then endsAtTop fuel cs single (!double)
      else if c = backslash ∧ !single then
        match cs with
        | [] => false
        | _ :: cs => endsAtTop fuel cs single double
      else if c = '$' ∧ !single ∧ cs.head? = some '(' then
        closes cs.tail 0 false false &&
          endsAtTop fuel (takeUntilClose cs.tail 0 false false).2 single double
      else if c = backtick ∧ !single then
        decide (backtick ∈ cs) && endsAtTop fuel (takeUntilBacktick cs).2 single double
      else if (c = '<' ∨ c = '>') ∧ (!single && !double) ∧ cs.head? = some '(' then
        closes cs.tail 0 false false &&
          endsAtTop fuel (takeUntilClose cs.tail 0 false false).2 single double
      else endsAtTop fuel cs single double

/-- The command ends with the scanner at top level. -/
def TopLevel (command : List Char) : Prop :=
  endsAtTop command.length command false false = true

instance (command : List Char) : Decidable (TopLevel command) :=
  inferInstanceAs (Decidable (_ = true))

theorem takeUntilClose_append {cs : List Char} {depth : Nat} {single double : Bool}
    (h : closes cs depth single double = true) (more : List Char) :
    takeUntilClose (cs ++ more) depth single double =
      ((takeUntilClose cs depth single double).1,
        (takeUntilClose cs depth single double).2 ++ more) := by
  fun_induction takeUntilClose cs depth single double with
  | case1 => exact absurd h (by simp [closes])
  | case2 c cs depth double inner rest heq ih =>
      rw [closes.eq_def] at h
      rw [List.cons_append, takeUntilClose.eq_def]
      simp only [if_true] at h ⊢
      rw [ih h, heq]
  | case3 depth single double hsingle =>
      rw [closes.eq_def] at h
      simp [hsingle] at h
  | case4 depth single double hsingle next cs inner rest heq ih =>
      rw [closes.eq_def] at h
      rw [List.cons_append, takeUntilClose.eq_def]
      simp only [if_neg hsingle, if_true, List.cons_append] at h ⊢
      rw [ih h, heq]
  | case5 c cs depth single double hsingle hescape hclose =>
      rw [List.cons_append, takeUntilClose.eq_def]
      simp only [if_neg hsingle, if_neg hescape, if_pos hclose]
  | case6 c cs depth single double hsingle hescape hclose single' depth' double' inner rest heq ih =>
      rw [closes.eq_def] at h
      rw [List.cons_append, takeUntilClose.eq_def]
      simp only [if_neg hsingle, if_neg hescape, if_neg hclose] at h ⊢
      rw [ih h, heq]

theorem takeUntilBacktick_append {cs : List Char} (h : backtick ∈ cs) (more : List Char) :
    takeUntilBacktick (cs ++ more) =
      ((takeUntilBacktick cs).1, (takeUntilBacktick cs).2 ++ more) := by
  induction cs with
  | nil => exact absurd h List.not_mem_nil
  | cons c cs ih =>
      rw [List.cons_append, takeUntilBacktick, takeUntilBacktick]
      by_cases hc : c = backtick
      · rw [if_pos hc, if_pos hc]
      · rw [if_neg hc, if_neg hc, ih ((List.mem_cons.mp h).resolve_left fun heq => hc heq.symm)]

/-! ## The first scanner -/

/-- What is done already stays in front. -/
theorem splitLoop_done (inner : List Char → Except NestingTooDeep (List Char)) (n : Nat)
    (cs before : List Char) (s : SplitState) :
    splitLoop inner n cs { s with done := before ++ s.done } =
      (splitLoop inner n cs s).map (before ++ ·) := by
  induction n generalizing cs s with
  | zero => cases cs <;> simp [splitLoop, SplitState.flush, Except.map]
  | succ n ih =>
      cases cs with
      | nil => simp [splitLoop, SplitState.flush, Except.map]
      | cons c cs =>
          simp only [splitLoop]
          split_ifs with h₁ h₂ h₃ h₄ h₅ h₆ h₇
          · exact ih cs { s.push [c] with single := !s.single }
          · exact ih cs { s.push [c] with double := !s.double }
          · cases cs with
            | nil => simp [SplitState.flush, SplitState.push, Except.map]
            | cons next cs => exact ih cs (s.push [c, next])
          · cases inner (takeUntilClose cs.tail 0 false false).1 with
            | error e => rfl
            | ok text => exact ih _ { s with hoisted := s.hoisted ++ part text }
          · cases inner (takeUntilBacktick cs).1 with
            | error e => rfl
            | ok text => exact ih _ { s with hoisted := s.hoisted ++ part text }
          · cases inner (takeUntilClose cs.tail 0 false false).1 with
            | error e => rfl
            | ok text =>
                have hstep := ih (takeUntilClose cs.tail 0 false false).2
                  { s with done := s.flush ++ part text, segment := [], hoisted := [] }
                simpa [SplitState.flush] using hstep
          · have hstep := ih cs { s with done := s.flush ++ [c], segment := [], hoisted := [] }
            simpa [SplitState.flush] using hstep
          · exact ih cs (s.push [c])

theorem head_append_operator (cs more : List Char) :
    (cs ++ ';' :: more).head? = some '(' ↔ cs.head? = some '(' := by
  cases cs with
  | nil => simp
  | cons c cs => simp

theorem tail_append_operator {cs : List Char} (h : cs.head? = some '(') (more : List Char) :
    (cs ++ ';' :: more).tail = cs.tail ++ ';' :: more := by
  cases cs with
  | nil => exact absurd h (by simp)
  | cons c cs => rfl

/-- At top level an operator ends the segment. -/
theorem splitLoop_operator (inner : List Char → Except NestingTooDeep (List Char)) {m : Nat}
    {more : List Char} (s : SplitState) (htop : (!s.single && !s.double) = true)
    (hm : (';' :: more).length ≤ m) :
    splitLoop inner m (';' :: more) s =
      splitLoop inner more.length more ⟨s.flush ++ [';'], [], [], false, false⟩ := by
  obtain ⟨m, rfl⟩ : ∃ k, m = k + 1 := ⟨m - 1, by simp at hm; omega⟩
  obtain ⟨hsingle, hdouble⟩ : s.single = false ∧ s.double = false := by simpa using htop
  have hm : more.length ≤ m := by simpa using hm
  rw [← splitLoop_fuel inner _ hm le_rfl]
  simp [splitLoop, hsingle, hdouble, isOperator, singleQuote, doubleQuote, backslash, backtick]

/-- A text that ends at top level, and what comes behind the next operator. -/
theorem splitLoop_append (inner : List Char → Except NestingTooDeep (List Char)) {n m : Nat}
    {cs more : List Char} (s : SplitState) (htop : endsAtTop n cs s.single s.double = true)
    (hm : (cs ++ ';' :: more).length ≤ m) :
    splitLoop inner m (cs ++ ';' :: more) s =
      (do
        let out ← splitLoop inner n cs s
        splitLoop inner more.length more ⟨out ++ [';'], [], [], false, false⟩) := by
  induction n generalizing cs s m with
  | zero =>
      cases cs with
      | nil => exact splitLoop_operator inner s htop hm
      | cons c cs => exact absurd htop (by simp [endsAtTop])
  | succ n ih =>
      cases cs with
      | nil => exact splitLoop_operator inner s htop hm
      | cons c cs =>
          obtain ⟨m, rfl⟩ : ∃ k, m = k + 1 := ⟨m - 1, by simp at hm; omega⟩
          have hm : (cs ++ ';' :: more).length ≤ m := by simpa using hm
          have hclose := length_takeUntilClose cs.tail 0 false false
          have htail : cs.tail.length ≤ cs.length := by simp
          have htick := length_takeUntilBacktick cs
          have hshort : ∀ {rest : List Char}, rest.length ≤ cs.length →
              (rest ++ ';' :: more).length ≤ m := by
            intro rest hrest
            rw [List.length_append] at hm ⊢
            omega
          simp only [endsAtTop] at htop
          simp only [List.cons_append, splitLoop, head_append_operator]
          split_ifs at htop ⊢ with h₁ h₂ h₃ h₄ h₅ h₆ h₇
          · exact ih { s.push [c] with single := !s.single } htop hm
          · exact ih { s.push [c] with double := !s.double } htop hm
          · cases cs with
            | nil => exact absurd htop (by simp)
            | cons next cs => exact ih (s.push [c, next]) htop (hshort (by simp))
          · obtain ⟨hfound, htop⟩ := Bool.and_eq_true_iff.mp htop
            rw [tail_append_operator h₄.2.2, takeUntilClose_append hfound]
            cases inner (takeUntilClose cs.tail 0 false false).1 with
            | error e => rfl
            | ok text =>
                exact ih { s with hoisted := s.hoisted ++ part text } htop
                  (hshort (hclose.trans htail))
          · obtain ⟨hfound, htop⟩ := Bool.and_eq_true_iff.mp htop
            rw [takeUntilBacktick_append (of_decide_eq_true hfound)]
            cases inner (takeUntilBacktick cs).1 with
            | error e => rfl
            | ok text =>
                exact ih { s with hoisted := s.hoisted ++ part text } htop (hshort htick)
          · obtain ⟨hfound, htop⟩ := Bool.and_eq_true_iff.mp htop
            rw [tail_append_operator h₆.2.2, takeUntilClose_append hfound]
            cases inner (takeUntilClose cs.tail 0 false false).1 with
            | error e => rfl
            | ok text =>
                exact ih { s with done := s.flush ++ part text, segment := [], hoisted := [] } htop
                  (hshort (hclose.trans htail))
          · exact ih { s with done := s.flush ++ [c], segment := [], hoisted := [] } htop hm
          · exact ih (s.push [c]) htop hm

/-- Two commands with an operator between them are scanned one by one. -/
theorem splitAtDepth_join (room : Nat) {command : List Char} (htop : TopLevel command)
    (more : List Char) :
    splitAtDepth room (command ++ ';' :: more) =
      (do
        let first ← splitAtDepth room command
        let second ← splitAtDepth room more
        .ok (first ++ ';' :: second)) := by
  cases room with
  | zero => rfl
  | succ room =>
      have happend := splitLoop_append (splitAtDepth room) ⟨[], [], [], false, false⟩ htop
        (le_refl (command ++ ';' :: more).length)
      rw [splitAtDepth, splitAtDepth, splitAtDepth, happend]
      cases splitLoop (splitAtDepth room) command.length command ⟨[], [], [], false, false⟩ with
      | error e => rfl
      | ok first =>
          have hdone := splitLoop_done (splitAtDepth room) more.length more (first ++ [';'])
            ⟨[], [], [], false, false⟩
          rw [List.append_nil] at hdone
          show splitLoop _ _ more ⟨first ++ [';'], [], [], false, false⟩ = _
          rw [hdone]
          cases splitLoop (splitAtDepth room) more.length more ⟨[], [], [], false, false⟩ with
          | error e => rfl
          | ok second => simp [Except.map, bind, Except.bind]

/-! ## The second scanner -/

/-- Whether `split_words` ends a text outside of quotes and escapes. -/
def closed : List Char → Option Char → Bool
  | [], quote => quote.isNone
  | c :: cs, some q =>
      if c = q then closed cs none
      else if q = doubleQuote ∧ c = backslash then
        match cs with
        | [] => false
        | _ :: cs => closed cs (some q)
      else closed cs (some q)
  | c :: cs, none =>
      if c = singleQuote ∨ c = doubleQuote then closed cs (some c)
      else if c = backslash then
        match cs with
        | [] => false
        | _ :: cs => closed cs none
      else closed cs none

theorem WordState.endSegment_segments (before : List (List Word)) (s : WordState) :
    ({ s with segments := before ++ s.segments } : WordState).endSegment =
      { s.endSegment with segments := before ++ s.endSegment.segments } := by
  cases hempty : (s.words ++ s.word.toList).isEmpty with
  | true => simp [WordState.endSegment, WordState.endWord, hempty]
  | false => simp [WordState.endSegment, WordState.endWord, hempty]

/-- A turn of the loop of `split_words`: what it reads, and where it stands then. -/
inductive WordState.Reads (s : WordState) : List Char → WordState → Prop
  | close {q : Char} : s.quote = some q → Reads s [q] { s with quote := none }
  | quotedEscape (next : Char) : s.quote = some doubleQuote →
      Reads s [backslash, next] (s.push next)
  | quoted {q c : Char} : s.quote = some q → c ≠ q → ¬(q = doubleQuote ∧ c = backslash) →
      Reads s [c] (s.push c)
  | quote {c : Char} : s.quote = none → c = singleQuote ∨ c = doubleQuote →
      Reads s [c] { s with quote := some c, word := some (s.word.getD []) }
  | escape (next : Char) : s.quote = none → Reads s [backslash, next] (s.push next)
  | operator {c : Char} : s.quote = none → ¬(c = singleQuote ∨ c = doubleQuote) →
      c ≠ backslash → isOperator c = true → Reads s [c] s.endSegment
  | blank {c : Char} : s.quote = none → ¬(c = singleQuote ∨ c = doubleQuote) →
      c ≠ backslash → ¬isOperator c = true → Text.isWhitespace c = true → Reads s [c] s.endWord
  | plain {c : Char} : s.quote = none → ¬(c = singleQuote ∨ c = doubleQuote) →
      c ≠ backslash → ¬isOperator c = true → ¬Text.isWhitespace c = true → Reads s [c] (s.push c)

theorem backslash_not_quote : ¬(backslash = singleQuote ∨ backslash = doubleQuote) := by decide

/-- The loop goes on behind what the turn read. -/
theorem WordState.Reads.loop {s t : WordState} {read : List Char} (h : s.Reads read t)
    (rest : List Char) : splitWordsLoop (read ++ rest) s = splitWordsLoop rest t := by
  cases h with
  | close hq => rw [List.singleton_append, splitWordsLoop.eq_def]; simp only [hq, if_true]
  | quotedEscape next hq =>
      have hne : backslash ≠ doubleQuote := by decide
      rw [List.cons_append, List.singleton_append, splitWordsLoop.eq_def]
      simp only [hq, if_neg hne, and_self, if_true]
  | quoted hq hend hescape =>
      rw [List.singleton_append, splitWordsLoop.eq_def]
      simp only [hq, if_neg hend, if_neg hescape]
  | quote hq hopen =>
      rw [List.singleton_append, splitWordsLoop.eq_def]
      simp only [hq, if_pos hopen]
  | escape next hq =>
      rw [List.cons_append, List.singleton_append, splitWordsLoop.eq_def]
      simp only [hq, if_neg backslash_not_quote, if_true]
  | operator hq hopen hescape hop =>
      rw [List.singleton_append, splitWordsLoop.eq_def]
      simp only [hq, if_neg hopen, if_neg hescape, if_pos hop]
  | blank hq hopen hescape hop hspace =>
      rw [List.singleton_append, splitWordsLoop.eq_def]
      simp only [hq, if_neg hopen, if_neg hescape, if_neg hop, if_pos hspace]
  | plain hq hopen hescape hop hspace =>
      rw [List.singleton_append, splitWordsLoop.eq_def]
      simp only [hq, if_neg hopen, if_neg hescape, if_neg hop, if_neg hspace]

/-- A lone `\` at the end is dropped. -/
theorem splitWordsLoop_backslash {s : WordState}
    (h : s.quote = none ∨ s.quote = some doubleQuote) :
    splitWordsLoop [backslash] s = splitWordsLoop [] s := by
  have hne : backslash ≠ doubleQuote := by decide
  rw [splitWordsLoop.eq_def]
  rcases h with h | h
  · simp only [h, if_neg backslash_not_quote, if_true]
  · simp only [h, if_neg hne, and_self, if_true]

/-- A text is read turn by turn, up to its end or to a lone `\` there. -/
theorem WordState.read_induct {motive : List Char → WordState → Prop}
    (ends : ∀ s, motive [] s)
    (lone : ∀ s : WordState, s.quote = none ∨ s.quote = some doubleQuote → motive [backslash] s)
    (turn : ∀ {s t : WordState} {read rest : List Char},
      s.Reads read t → motive rest t → motive (read ++ rest) s)
    (cs : List Char) (s : WordState) : motive cs s := by
  fun_induction splitWordsLoop cs s with
  | case1 s => exact ends s
  | case2 cs s q hquote ih => exact turn (.close hquote) ih
  | case3 c s q hquote hend hescape ih =>
      obtain ⟨rfl, rfl⟩ := hescape
      exact lone s (Or.inr hquote)
  | case4 c s q hquote hend hescape next cs ih =>
      obtain ⟨rfl, rfl⟩ := hescape
      exact turn (.quotedEscape next hquote) ih
  | case5 c cs s q hquote hend hescape ih => exact turn (.quoted hquote hend hescape) ih
  | case6 c cs s hquote hopen ih => exact turn (.quote hquote hopen) ih
  | case7 s hquote hopen ih => exact lone s (Or.inl hquote)
  | case8 s hquote next cs hopen ih => exact turn (.escape next hquote) ih
  | case9 c cs s hquote hopen hescape hop ih => exact turn (.operator hquote hopen hescape hop) ih
  | case10 c cs s hquote hopen hescape hop hspace ih =>
      exact turn (.blank hquote hopen hescape hop hspace) ih
  | case11 c cs s hquote hopen hescape hop hspace ih =>
      exact turn (.plain hquote hopen hescape hop hspace) ih

theorem WordState.Reads.behind {s t : WordState} {read : List Char} (h : s.Reads read t)
    (before : List (List Word)) :
    ({ s with segments := before ++ s.segments } : WordState).Reads read
      { t with segments := before ++ t.segments } := by
  cases h with
  | close hq => exact .close hq
  | quotedEscape next hq => exact .quotedEscape next hq
  | quoted hq hend hescape => exact .quoted hq hend hescape
  | quote hq hopen => exact .quote hq hopen
  | escape next hq => exact .escape next hq
  | operator hq hopen hescape hop =>
      rw [← WordState.endSegment_segments]
      exact .operator hq hopen hescape hop
  | blank hq hopen hescape hop hspace => exact .blank hq hopen hescape hop hspace
  | plain hq hopen hescape hop hspace => exact .plain hq hopen hescape hop hspace

/-- The segments that are done stay in front. -/
theorem splitWordsLoop_segments (cs : List Char) (before : List (List Word)) (s : WordState) :
    splitWordsLoop cs { s with segments := before ++ s.segments } =
      before ++ splitWordsLoop cs s := by
  induction cs, s using WordState.read_induct with
  | ends s => rw [splitWordsLoop, splitWordsLoop, WordState.endSegment_segments]
  | lone s hquote =>
      have hbefore := splitWordsLoop_backslash (s := { s with segments := before ++ s.segments }) hquote
      rw [hbefore, splitWordsLoop_backslash hquote, splitWordsLoop, splitWordsLoop,
        WordState.endSegment_segments]
  | turn hread ih => rw [hread.loop, (hread.behind before).loop, ih]

theorem WordState.endSegment_quote (s : WordState) : s.endSegment.quote = s.quote := by
  cases hempty : (s.words ++ s.word.toList).isEmpty with
  | true => simp [WordState.endSegment, WordState.endWord, hempty]
  | false => simp [WordState.endSegment, WordState.endWord, hempty]

/-- The end of a text is seen at its end only. -/
theorem WordState.Reads.closed {s t : WordState} {read : List Char} (h : s.Reads read t)
    (rest : List Char) :
    ShellSplit.closed (read ++ rest) s.quote = ShellSplit.closed rest t.quote := by
  cases h with
  | close hq => rw [List.singleton_append, ShellSplit.closed.eq_def]; simp only [hq, if_true]
  | quotedEscape next hq =>
      have hne : backslash ≠ doubleQuote := by decide
      rw [List.cons_append, List.singleton_append, ShellSplit.closed.eq_def]
      simp only [hq, if_neg hne, and_self, if_true]
      exact congrArg (ShellSplit.closed rest) hq.symm
  | quoted hq hend hescape =>
      rw [List.singleton_append, ShellSplit.closed.eq_def]
      simp only [hq, if_neg hend, if_neg hescape]
      exact congrArg (ShellSplit.closed rest) hq.symm
  | quote hq hopen =>
      rw [List.singleton_append, ShellSplit.closed.eq_def]
      simp only [hq, if_pos hopen]
  | escape next hq =>
      rw [List.cons_append, List.singleton_append, ShellSplit.closed.eq_def]
      simp only [hq, if_neg backslash_not_quote, if_true]
      exact congrArg (ShellSplit.closed rest) hq.symm
  | operator hq hopen hescape hop =>
      rw [List.singleton_append, ShellSplit.closed.eq_def, s.endSegment_quote]
      simp only [hq, if_neg hopen, if_neg hescape]
  | blank hq hopen hescape hop hspace =>
      rw [List.singleton_append, ShellSplit.closed.eq_def]
      simp only [hq, if_neg hopen, if_neg hescape]
      exact congrArg (ShellSplit.closed rest) hq.symm
  | plain hq hopen hescape hop hspace =>
      rw [List.singleton_append, ShellSplit.closed.eq_def]
      simp only [hq, if_neg hopen, if_neg hescape]
      exact congrArg (ShellSplit.closed rest) hq.symm

/-- Outside of quotes an operator ends the segment. -/
theorem splitWordsLoop_operator {s : WordState} (hquote : s.quote = none) (more : List Char) :
    splitWordsLoop (';' :: more) s = splitWordsLoop [] s ++ splitWords more := by
  have hend : s.endSegment = ⟨s.endSegment.segments ++ [], [], none, none⟩ := by
    cases hempty : (s.words ++ s.word.toList).isEmpty with
    | true =>
        simp only [List.isEmpty_iff] at hempty
        simp [WordState.endSegment, WordState.endWord, hempty, hquote]
    | false => simp [WordState.endSegment, WordState.endWord, hempty, hquote]
  have hstep : splitWordsLoop (';' :: more) s = splitWordsLoop more s.endSegment := by
    rw [splitWordsLoop.eq_def]
    simp [hquote, singleQuote, doubleQuote, backslash, isOperator]
  have hrest := splitWordsLoop_segments more s.endSegment.segments ⟨[], [], none, none⟩
  rw [hstep, splitWordsLoop, splitWords, ← hrest]
  exact congrArg (splitWordsLoop more) hend

/-- A text that ends outside of quotes and escapes, and what comes behind the next operator. -/
theorem splitWordsLoop_append {cs : List Char} {s : WordState} (h : closed cs s.quote = true)
    (more : List Char) :
    splitWordsLoop (cs ++ ';' :: more) s = splitWordsLoop cs s ++ splitWords more := by
  induction cs, s using WordState.read_induct with
  | ends s =>
      exact splitWordsLoop_operator (Option.isNone_iff_eq_none.mp (by simpa [closed] using h)) more
  | lone s hquote =>
      have hne : backslash ≠ doubleQuote := by decide
      rcases hquote with hquote | hquote
      · exact absurd h (by simp [hquote, closed])
      · exact absurd h (by simp [hquote, closed, hne])
  | turn hread ih => rw [List.append_assoc, hread.loop, hread.loop, ih (hread.closed _ ▸ h)]

/-- The words of two commands with an operator between them. -/
theorem splitWords_join {first : List Char} (h : closed first none = true) (second : List Char) :
    splitWords (first ++ ';' :: second) = splitWords first ++ splitWords second :=
  splitWordsLoop_append (s := ⟨[], [], none, none⟩) h second

/-! ## Segments -/

/-- The segments of the command that a segment hands to another shell. -/
def nestedSegments (nested : Word → Except NestingTooDeep (List (List Word)))
    (words : List Word) : Except NestingTooDeep (List (List Word)) :=
  match nestedCommand words with
  | some script => nested script
  | none => .ok []

theorem collect_cons (nested : Word → Except NestingTooDeep (List (List Word)))
    (words : List Word) (segments : List (List Word)) :
    collect nested (words :: segments) =
      (do
        let inner ← nestedSegments nested words
        let rest ← collect nested segments
        .ok (inner ++ words :: rest)) := by
  rw [collect, nestedSegments]
  cases nestedCommand words <;> rfl

theorem collect_append (nested : Word → Except NestingTooDeep (List (List Word)))
    (segments more : List (List Word)) :
    collect nested (segments ++ more) =
      (do
        let first ← collect nested segments
        let second ← collect nested more
        .ok (first ++ second)) := by
  induction segments with
  | nil =>
      rw [List.nil_append]
      show _ = (do
        let second ← collect nested more
        Except.ok ([] ++ second))
      cases collect nested more with
      | error e => rfl
      | ok second => rfl
  | cons words segments ih =>
      rw [List.cons_append, collect_cons, collect_cons, ih]
      cases nestedSegments nested words with
      | error e => rfl
      | ok inner =>
          cases collect nested segments with
          | error e => rfl
          | ok first =>
              cases collect nested more with
              | error e => rfl
              | ok second => simp [bind, Except.bind]

/-- The second scanner stands outside of quotes and escapes at the end of the command. -/
def Closed (command : String) : Prop :=
  ∀ first, splitAtDepth (maxSubstitutionDepth + 1) command.toList = .ok first →
    closed first none = true

/-- Both scanners stand outside: the segments of the commands follow each other. -/
theorem shellSegments_join {command : String} (htop : TopLevel command.toList)
    (hclosed : Closed command) (more : String) :
    shellSegments (command ++ ";" ++ more) =
      (do
        let first ← shellSegments command
        let second ← shellSegments more
        .ok (first ++ second)) := by
  have htext : (command ++ ";" ++ more).toList = command.toList ++ ';' :: more.toList := by
    simp [String.toList_append]
  rw [shellSegments, htext, shellSegments, shellSegments, segmentsAt, segmentsAt, segmentsAt,
    splitAtDepth_join _ htop]
  cases hfirst : splitAtDepth (maxSubstitutionDepth + 1) command.toList with
  | error e => rfl
  | ok first =>
      cases splitAtDepth (maxSubstitutionDepth + 1) more.toList with
      | error e =>
          show Except.error e = (do
            let first ← collect (segmentsAt maxSubstitutionDepth) (splitWords first)
            let second ← (Except.error e : Except NestingTooDeep (List (List Word)))
            Except.ok (first ++ second))
          cases collect (segmentsAt maxSubstitutionDepth) (splitWords first) with
          | error e' => cases e; cases e'; rfl
          | ok segments => rfl
      | ok second =>
          show collect _ (splitWords (first ++ ';' :: second)) = _
          rw [splitWords_join (hclosed first hfirst), collect_append]
          rfl

theorem runsCommitOrPr_join {command : String} (htop : TopLevel command.toList)
    (hclosed : Closed command) : runsCommitOrPr (command ++ ";" ++ " git commit") = true := by
  have hcommit : shellSegments " git commit" = .ok [["git".toList, "commit".toList]] := by
    decide +kernel
  rw [runsCommitOrPr, shellSegments_join htop hclosed, hcommit]
  cases shellSegments command with
  | error e => rfl
  | ok segments =>
      have hstarts : startsCommitOrPr ["git".toList, "commit".toList] = true := by decide +kernel
      show (segments ++ [["git".toList, "commit".toList]]).any startsCommitOrPr = true
      rw [List.any_append, List.any_cons, hstarts, Bool.true_or, Bool.or_true]

/-! ## A quote that stays open -/

/-- A word of `n` underscores. -/
def underscores (n : Nat) : Word := List.replicate n '_'

/-- Some word of some segment has at least `n` characters. -/
def HasLongWord (n : Nat) (segments : List (List Word)) : Prop :=
  ∃ words ∈ segments, ∃ word ∈ words, n ≤ word.length

/-- The open quote of a state is one of the two quotes. -/
def WordState.Quoted (s : WordState) : Prop :=
  ∀ q, s.quote = some q → q = singleQuote ∨ q = doubleQuote

theorem WordState.Reads.keepsQuoted {s t : WordState} {read : List Char} (h : s.Reads read t)
    (hquoted : s.Quoted) : t.Quoted := by
  cases h with
  | close _ => simp [WordState.Quoted]
  | quotedEscape _ _ => exact hquoted
  | quoted _ _ _ => exact hquoted
  | quote _ hopen => exact fun q hq => Option.some.inj hq ▸ hopen
  | escape _ _ => exact hquoted
  | operator _ _ _ _ => exact fun q hq => hquoted q (s.endSegment_quote ▸ hq)
  | blank _ _ _ _ _ => exact hquoted
  | plain _ _ _ _ _ => exact hquoted

/-- An underscore is text in every state. -/
theorem splitWordsLoop_underscore {s : WordState} (hquoted : s.Quoted) (cs : List Char) :
    splitWordsLoop ('_' :: cs) s = splitWordsLoop cs (s.push '_') := by
  have hread : s.Reads ['_'] (s.push '_') := by
    cases hquote : s.quote with
    | none => exact .plain hquote (by decide) (by decide) (by decide) (by decide)
    | some q =>
        have hq : '_' ≠ q := by
          rcases hquoted q hquote with rfl | rfl <;> decide
        exact .quoted hquote hq fun hboth => absurd hboth.2 (by decide)
  exact hread.loop cs

/-- A word that is being read takes all underscores. -/
theorem hasLongWord_underscores {s : WordState} (hquoted : s.Quoted) {word : Word}
    (hword : s.word = some word) (n : Nat) :
    HasLongWord (word.length + n) (splitWordsLoop (underscores n) s) := by
  induction n generalizing s word with
  | zero =>
      have hend : splitWordsLoop [] s = s.segments ++ [s.words ++ [word]] := by
        simp [splitWordsLoop, WordState.endSegment, WordState.endWord, hword]
      rw [underscores, List.replicate_zero, hend]
      exact ⟨s.words ++ [word], by simp, word, by simp, le_rfl⟩
  | succ n ih =>
      have hpush : (s.push '_').word = some (word ++ ['_']) := by
        simp [WordState.push, hword]
      have hstep := splitWordsLoop_underscore hquoted (underscores n)
      have hrest := ih (s := s.push '_') hquoted hpush
      rw [List.length_append, List.length_singleton, Nat.add_assoc, Nat.add_comm 1] at hrest
      rw [underscores, List.replicate_succ, ← underscores, hstep]
      exact hrest

/-- An operator in an open quote, or behind an escape, is text. -/
theorem hasLongWord_of_text {s : WordState} (hquoted : s.Quoted) (n : Nat) :
    HasLongWord (n + 1) (splitWordsLoop (underscores n) (s.push ';')) := by
  have hrest := hasLongWord_underscores (s := s.push ';') hquoted rfl n
  obtain ⟨words, hwords, word, hword, hlen⟩ := hrest
  refine ⟨words, hwords, word, hword, ?_⟩
  rw [List.length_append, List.length_singleton] at hlen
  omega

/-- Where the second scanner does not end outside of quotes and escapes, it reads the next command
as text. -/
theorem hasLongWord_of_open {cs : List Char} {s : WordState} (hquoted : s.Quoted)
    (h : closed cs s.quote = false) (n : Nat) :
    HasLongWord (n + 1) (splitWordsLoop (cs ++ ';' :: underscores n) s) := by
  have htext : ∀ {s : WordState} {read : List Char}, s.Quoted → s.Reads read (s.push ';') →
      HasLongWord (n + 1) (splitWordsLoop (read ++ underscores n) s) := fun hquoted hread =>
    hread.loop (underscores n) ▸ hasLongWord_of_text hquoted n
  induction cs, s using WordState.read_induct with
  | ends s =>
      cases hquote : s.quote with
      | none => exact absurd h (by simp [closed, hquote])
      | some q =>
          have hq : ';' ≠ q := by
            rcases hquoted q hquote with rfl | rfl <;> decide
          exact htext hquoted (.quoted hquote hq fun hboth => absurd hboth.2 (by decide))
  | lone s hquote =>
      rcases hquote with hquote | hquote
      · exact htext hquoted (.escape ';' hquote)
      · exact htext hquoted (.quotedEscape ';' hquote)
  | turn hread ih =>
      rw [List.append_assoc, hread.loop]
      exact ih (hread.keepsQuoted hquoted) (hread.closed _ ▸ h)

theorem splitLoop_underscores (inner : List Char → Except NestingTooDeep (List Char)) (n : Nat)
    (s : SplitState) :
    splitLoop inner n (underscores n) s = .ok (s.push (underscores n)).flush := by
  induction n generalizing s with
  | zero => simp [underscores, splitLoop, SplitState.push]
  | succ n ih =>
      have hstep : splitLoop inner (n + 1) (underscores (n + 1)) s =
          splitLoop inner n (underscores n) (s.push ['_']) := by
        simp [underscores, List.replicate_succ, splitLoop, singleQuote, doubleQuote, backslash,
          backtick, isOperator]
      rw [hstep, ih]
      simp [SplitState.push, SplitState.flush, underscores, List.replicate_succ]

theorem splitWords_underscores (n : Nat) :
    splitWords (underscores (n + 1)) = [[underscores (n + 1)]] := by
  have hloop : ∀ (n : Nat) (word : Word),
      splitWordsLoop (underscores n) ⟨[], [], some word, none⟩ = [[word ++ underscores n]] := by
    intro n
    induction n with
    | zero =>
        intro word
        simp [underscores, splitWordsLoop, WordState.endSegment, WordState.endWord]
    | succ n ih =>
        intro word
        have hquoted : WordState.Quoted ⟨[], [], some word, none⟩ := by simp [WordState.Quoted]
        have hstep := splitWordsLoop_underscore hquoted (underscores n)
        rw [underscores, List.replicate_succ, ← underscores, hstep]
        exact (ih (word ++ ['_'])).trans (by simp)
  have hquoted : WordState.Quoted ⟨[], [], none, none⟩ := by simp [WordState.Quoted]
  have hstep := splitWordsLoop_underscore hquoted (underscores n)
  rw [splitWords, underscores, List.replicate_succ, ← underscores, hstep]
  exact hloop n ['_']

theorem nestedCommand_underscores (n : Nat) : nestedCommand [underscores (n + 1)] = none := by
  have hsplit : ∀ n, Text.split (· == '/') (underscores n) = [underscores n] := by
    intro n
    induction n with
    | zero => rfl
    | succ n ih =>
        rw [underscores, List.replicate_succ, ← underscores, Text.split, ih]
        rfl
  have hprogram : program (underscores (n + 1)) = underscores (n + 1) := by
    rw [program, hsplit]
    rfl
  have hne : ∀ w : Word, w.head? ≠ some '_' → underscores (n + 1) ≠ w :=
    fun w hw heq => hw (heq ▸ rfl)
  have htrim : trimGroup (underscores (n + 1)) = underscores (n + 1) := rfl
  have hassign : isAssignment (underscores (n + 1)) = false := by
    simp [isAssignment, underscores, List.mem_replicate]
  have hwrapper : (wrappers.find? fun w => w.name == program (underscores (n + 1))) = none := by
    have hnames : ∀ w ∈ wrappers, w.name.head? ≠ some '_' := by decide
    rw [hprogram, List.find?_eq_none]
    intro w hw
    simpa using (hne w.name (hnames w hw)).symm
  have henv : envSplitString [underscores (n + 1)] = none := by
    have hname := hne "env".toList (by decide)
    simp only [envSplitString, List.map_cons, List.map_nil, htrim, List.dropWhile_cons, hassign,
      Bool.false_eq_true, if_false, hprogram, if_neg hname]
  have hwords : programWords [underscores (n + 1)] = [underscores (n + 1)] := by
    have hempty : (underscores (n + 1)).isEmpty = false := rfl
    simp only [programWords, List.map_cons, List.map_nil, htrim, List.filter_cons, hempty,
      Bool.not_false, if_true, List.filter_nil, skipWrappers, hassign, Bool.false_eq_true,
      if_false, hwrapper]
  have heval := hne "eval".toList (by decide)
  have hshell : underscores (n + 1) ∉ texts ["sh", "bash", "zsh"] := by
    intro hmem
    have hnames : ∀ w ∈ texts ["sh", "bash", "zsh"], w.head? ≠ some '_' := by decide
    exact hnames _ hmem rfl
  simp only [nestedCommand, henv, hwords, hprogram, if_neg heval, if_neg hshell]

theorem splitAtDepth_underscores (room n : Nat) :
    splitAtDepth (room + 1) (underscores n) = .ok (underscores n) := by
  have hlen : (underscores n).length = n := List.length_replicate
  rw [splitAtDepth, hlen, splitLoop_underscores]
  simp [SplitState.push, SplitState.flush]

theorem shellSegments_underscores (n : Nat) :
    shellSegments (String.ofList (underscores (n + 1))) = .ok [[underscores (n + 1)]] := by
  have hnested : nestedSegments (segmentsAt maxSubstitutionDepth) [underscores (n + 1)] = .ok [] := by
    rw [nestedSegments, nestedCommand_underscores]
  rw [shellSegments, String.toList_ofList, segmentsAt, splitAtDepth_underscores]
  show collect _ (splitWords (underscores (n + 1))) = _
  rw [splitWords_underscores, collect_cons, hnested]
  rfl

theorem mem_collect {nested : Word → Except NestingTooDeep (List (List Word))}
    {segments out : List (List Word)} (h : collect nested segments = .ok out) {words : List Word}
    (hmem : words ∈ segments) : words ∈ out := by
  induction segments generalizing out with
  | nil => exact absurd hmem List.not_mem_nil
  | cons first segments ih =>
      rw [collect_cons] at h
      obtain ⟨inner, -, h⟩ := bind_eq_ok.mp h
      obtain ⟨rest, hrest, h⟩ := bind_eq_ok.mp h
      obtain rfl := Except.ok.inj h
      rcases List.mem_cons.mp hmem with rfl | hmem
      · exact List.mem_append_right inner List.mem_cons_self
      · exact List.mem_append_right inner (List.mem_cons_of_mem _ (ih hrest hmem))

theorem exists_no_longWord (segments : List (List Word)) : ∃ n, ¬HasLongWord (n + 2) segments := by
  have hbound : ∀ words : List Word, ∃ n, ∀ word ∈ words, word.length ≤ n := by
    intro words
    induction words with
    | nil => exact ⟨0, by simp⟩
    | cons first words ih =>
        obtain ⟨n, hn⟩ := ih
        refine ⟨max first.length n, List.forall_mem_cons.mpr ⟨le_max_left _ _, ?_⟩⟩
        exact fun word hword => (hn word hword).trans (le_max_right _ _)
  obtain ⟨n, hn⟩ := hbound segments.flatten
  refine ⟨n, ?_⟩
  rintro ⟨words, hwords, word, hword, hlen⟩
  have hle := hn word (List.mem_flatten_of_mem hwords hword)
  omega

/-- The segments of the two commands are those of the text, in any order. -/
def Joined (command more : String) : Prop :=
  ∀ first second, shellSegments command = .ok first → shellSegments more = .ok second →
    ∃ segments, shellSegments (command ++ ";" ++ more) = .ok segments ∧
      segments.Perm (first ++ second)

theorem closed_of_joined {command : String} (htop : TopLevel command.toList)
    {first : List (List Word)} (hfirst : shellSegments command = .ok first)
    (h : ∀ more, Joined command more) : Closed command := by
  intro text htext
  by_contra hopen
  obtain ⟨n, hn⟩ := exists_no_longWord first
  obtain ⟨segments, hsegments, hperm⟩ := h _ first _ hfirst (shellSegments_underscores n)
  have hlong : HasLongWord (n + 2) segments := by
    have hlist : (command ++ ";" ++ String.ofList (underscores (n + 1))).toList =
        command.toList ++ ';' :: underscores (n + 1) := by
      simp [String.toList_append]
    rw [shellSegments, hlist, segmentsAt, splitAtDepth_join _ htop, htext,
      splitAtDepth_underscores] at hsegments
    have hquoted : WordState.Quoted ⟨[], [], none, none⟩ := by simp [WordState.Quoted]
    obtain ⟨words, hwords, word, hword, hlen⟩ :=
      hasLongWord_of_open hquoted (Bool.eq_false_iff.mpr hopen) (n + 1)
    exact ⟨words, mem_collect hsegments hwords, word, hword, hlen⟩
  obtain ⟨words, hwords, word, hword, hlen⟩ := hlong
  rcases List.mem_append.mp (hperm.mem_iff.mp hwords) with hin | hin
  · exact hn ⟨words, hin, word, hword, hlen⟩
  · obtain rfl := List.mem_singleton.mp hin
    obtain rfl := List.mem_singleton.mp hword
    rw [underscores, List.length_replicate] at hlen
    omega

end Llmenv.HookRun.ShellSplit
