/-
# `Llmenv.HookRun.ShellSplit` — the segments of a shell command

`src/hook_run/shell_split.rs` with `scan.rs` and `wrappers.rs`: a command is
cut at its operators into segments of words, the commands of substitutions, of
`eval` and of `sh -c` included.  All nesting shares one budget of 32 levels, and
a command that goes deeper is not split at all.

Texts are character lists here, so that a split can be evaluated.  The loop over
the characters takes the length of the text as its fuel; every round takes at
least one character, so more fuel changes nothing (`splitLoop_fuel`).
-/
import Llmenv.Lib.Text

namespace Llmenv.HookRun.ShellSplit

open Llmenv.Lib

abbrev Word := List Char

/-- The deepest nesting that the splitter follows. -/
def maxSubstitutionDepth : Nat := 32

inductive NestingTooDeep where
  | nestingTooDeep
deriving DecidableEq

def nestingReason : String :=
  "this command nests substitutions more than 32 levels deep, so " ++
    "llmenv cannot check it. Split the command into smaller commands and run each one."

def singleQuote : Char := Char.ofNat 39
def doubleQuote : Char := Char.ofNat 34
def backslash : Char := Char.ofNat 92
def backtick : Char := Char.ofNat 96

/-! ## Substitutions -/

/-- Take the text up to the `)` that closes a `$(`, and what follows it. -/
def takeUntilClose : List Char → Nat → Bool → Bool → List Char × List Char
  | [], _, _, _ => ([], [])
  | c :: cs, depth, single, double =>
      if single then
        let (inner, rest) := takeUntilClose cs depth (c != singleQuote) double
        (c :: inner, rest)
      else if c = backslash then
        match cs with
        | [] => ([c], [])
        | next :: cs =>
            let (inner, rest) := takeUntilClose cs depth single double
            (c :: next :: inner, rest)
      else if c = ')' ∧ !double ∧ depth = 0 then ([], cs)
      else
        let single := c == singleQuote && !double
        let depth :=
          if double then depth
          else if c = ')' then depth - 1
          else if c = '(' then depth + 1
          else depth
        let double := if c = doubleQuote then !double else double
        let (inner, rest) := takeUntilClose cs depth single double
        (c :: inner, rest)

/-- The text up to the next backtick, and what follows it. -/
def takeUntilBacktick : List Char → List Char × List Char
  | [] => ([], [])
  | c :: cs =>
      if c = backtick then ([], cs)
      else
        let (inner, rest) := takeUntilBacktick cs
        (c :: inner, rest)

/-- One substitution as a part of its own. -/
def part (inner : List Char) : List Char := ';' :: inner ++ [';']

/-- `out` up to the start of the segment, the segment so far, and the parts that
go in front of it. -/
structure SplitState where
  done : List Char
  segment : List Char
  hoisted : List Char
  single : Bool
  double : Bool

/-- `out.insert_str(segment_start, &hoisted)`. -/
def SplitState.flush (s : SplitState) : List Char := s.done ++ s.hoisted ++ s.segment

def SplitState.push (s : SplitState) (cs : List Char) : SplitState :=
  { s with segment := s.segment ++ cs }

/-- Whether the character ends a segment outside of quotes. -/
def isOperator (c : Char) : Bool := c == ';' || c == '|' || c == '&' || c == '\n'

/-- The loop of `split_at_depth`; `inner` splits the next level. -/
def splitLoop (inner : List Char → Except NestingTooDeep (List Char)) :
    Nat → List Char → SplitState → Except NestingTooDeep (List Char)
  | _, [], s => .ok s.flush
  | 0, _ :: _, s => .ok s.flush
  | fuel + 1, c :: cs, s =>
      let top := !s.single && !s.double
      if c = singleQuote ∧ !s.double then
        splitLoop inner fuel cs { s.push [c] with single := !s.single }
      else if c = doubleQuote ∧ !s.single then
        splitLoop inner fuel cs { s.push [c] with double := !s.double }
      else if c = backslash ∧ !s.single then
        match cs with
        | [] => splitLoop inner fuel [] (s.push [c])
        | next :: cs => splitLoop inner fuel cs (s.push [c, next])
      else if c = '$' ∧ !s.single ∧ cs.head? = some '(' then
        let (text, rest) := takeUntilClose cs.tail 0 false false
        match inner text with
        | .error e => .error e
        | .ok text => splitLoop inner fuel rest { s with hoisted := s.hoisted ++ part text }
      else if c = backtick ∧ !s.single then
        let (text, rest) := takeUntilBacktick cs
        match inner text with
        | .error e => .error e
        | .ok text => splitLoop inner fuel rest { s with hoisted := s.hoisted ++ part text }
      else if (c = '<' ∨ c = '>') ∧ top ∧ cs.head? = some '(' then
        let (text, rest) := takeUntilClose cs.tail 0 false false
        match inner text with
        | .error e => .error e
        | .ok text =>
            splitLoop inner fuel rest
              { s with done := s.flush ++ part text, segment := [], hoisted := [] }
      else if isOperator c ∧ top then
        splitLoop inner fuel cs { s with done := s.flush ++ [c], segment := [], hoisted := [] }
      else splitLoop inner fuel cs (s.push [c])

/-- `split_at_depth` with `room` levels left, this one included. -/
def splitAtDepth : Nat → List Char → Except NestingTooDeep (List Char)
  | 0, _ => .error .nestingTooDeep
  | room + 1, command =>
      splitLoop (splitAtDepth room) command.length command ⟨[], [], [], false, false⟩

theorem length_takeUntilClose (cs : List Char) (depth : Nat) (single double : Bool) :
    (takeUntilClose cs depth single double).2.length ≤ cs.length := by
  fun_induction takeUntilClose cs depth single double <;> simp_all <;> omega

theorem length_takeUntilBacktick (cs : List Char) :
    (takeUntilBacktick cs).2.length ≤ cs.length := by
  fun_induction takeUntilBacktick cs <;> simp_all
  omega

/-- Every round takes a character, so the fuel does not run out. -/
theorem splitLoop_fuel (inner : List Char → Except NestingTooDeep (List Char)) {n m : Nat}
    {cs : List Char} (s : SplitState) (hn : cs.length ≤ n) (hm : cs.length ≤ m) :
    splitLoop inner n cs s = splitLoop inner m cs s := by
  induction n generalizing m cs s with
  | zero =>
      obtain rfl := List.length_eq_zero_iff.mp (Nat.le_zero.mp hn)
      cases m <;> rfl
  | succ n ih =>
      cases cs with
      | nil => cases m <;> rfl
      | cons c cs =>
          obtain ⟨m, rfl⟩ : ∃ k, m = k + 1 := ⟨m - 1, by simp at hm; omega⟩
          have hn : cs.length ≤ n := Nat.le_of_succ_le_succ hn
          have hm : cs.length ≤ m := Nat.le_of_succ_le_succ hm
          have ih : ∀ cs' s', cs'.length ≤ cs.length →
              splitLoop inner n cs' s' = splitLoop inner m cs' s' :=
            fun cs' s' h => ih s' (h.trans hn) (h.trans hm)
          have hclose := length_takeUntilClose cs.tail 0 false false
          have htail : cs.tail.length ≤ cs.length := by simp
          have htick := length_takeUntilBacktick cs
          simp only [splitLoop]
          split_ifs with h₁ h₂ h₃ h₄ h₅ h₆ h₇
          · exact ih _ _ le_rfl
          · exact ih _ _ le_rfl
          · cases cs with
            | nil => rfl
            | cons next cs => exact ih _ _ (by simp)
          · cases inner (takeUntilClose cs.tail 0 false false).1 with
            | error e => rfl
            | ok text => exact ih _ _ (hclose.trans htail)
          · cases inner (takeUntilBacktick cs).1 with
            | error e => rfl
            | ok text => exact ih _ _ htick
          · cases inner (takeUntilClose cs.tail 0 false false).1 with
            | error e => rfl
            | ok text => exact ih _ _ (hclose.trans htail)
          · exact ih _ _ le_rfl
          · exact ih _ _ le_rfl

/-! ## Words -/

/-- The words that are done, the word that is being read, and the open quote. -/
structure WordState where
  segments : List (List Word)
  words : List Word
  word : Option Word
  quote : Option Char

def WordState.push (s : WordState) (c : Char) : WordState :=
  { s with word := some (s.word.getD [] ++ [c]) }

/-- `words.extend(word.take())`. -/
def WordState.endWord (s : WordState) : WordState :=
  { s with words := s.words ++ s.word.toList, word := none }

def WordState.endSegment (s : WordState) : WordState :=
  let s := s.endWord
  if s.words.isEmpty then s else { s with segments := s.segments ++ [s.words], words := [] }

def splitWordsLoop : List Char → WordState → List (List Word)
  | [], s => s.endSegment.segments
  | c :: cs, s =>
      match s.quote with
      | some q =>
          if c = q then splitWordsLoop cs { s with quote := none }
          else if q = doubleQuote ∧ c = backslash then
            match cs with
            | [] => splitWordsLoop [] s
            | next :: cs => splitWordsLoop cs (s.push next)
          else splitWordsLoop cs (s.push c)
      | none =>
          if c = singleQuote ∨ c = doubleQuote then
            splitWordsLoop cs { s with quote := some c, word := some (s.word.getD []) }
          else if c = backslash then
            match cs with
            | [] => splitWordsLoop [] s
            | next :: cs => splitWordsLoop cs (s.push next)
          else if isOperator c then splitWordsLoop cs s.endSegment
          else if Text.isWhitespace c then splitWordsLoop cs s.endWord
          else splitWordsLoop cs (s.push c)

def splitWords (command : List Char) : List (List Word) :=
  splitWordsLoop command ⟨[], [], none, none⟩

/-! ## The program of a segment -/

/-- The part of a word after its last slash. -/
def program (word : Word) : Word := ((Text.split (· == '/') word).getLast?).getD word

def startsWith (word : Word) (c : Char) : Bool := word.head? == some c

/-- `trim_start_matches(['(', '{'])`. -/
def trimGroup (word : Word) : Word := word.dropWhile fun c => c == '(' || c == Char.ofNat 123

def isAssignment (word : Word) : Bool := decide ('=' ∈ word) && !startsWith word '-'

def texts (l : List String) : List Word := l.map String.toList

/-- A wrapper: its name, the options that take a value, the operands before the command. -/
structure Wrapper where
  name : Word
  valueOpts : List Word
  operands : Nat

def timeoutOpts : List Word := texts ["-s", "--signal", "-k", "--kill-after"]

def stdbufOpts : List Word := texts ["-i", "--input", "-o", "--output", "-e", "--error"]

def wrappers : List Wrapper :=
  [⟨"env".toList, texts ["-u", "--unset", "-C", "--chdir", "-S", "--split-string"], 0⟩,
   ⟨"sudo".toList, texts ["-u", "--user", "-g", "--group", "-C", "--close-from", "-p", "--prompt",
      "-U", "--other-user", "-r", "--role", "-t", "--type", "-D", "--chdir", "-R", "--chroot", "-T",
      "--command-timeout"], 0⟩,
   ⟨"doas".toList, texts ["-u", "-C"], 0⟩,
   ⟨"nice".toList, texts ["-n", "--adjustment"], 0⟩,
   ⟨"gnice".toList, texts ["-n", "--adjustment"], 0⟩,
   ⟨"ionice".toList, texts ["-c", "--class", "-n", "--classdata", "-p", "--pid", "-P", "--pgid",
      "-u", "--uid"], 0⟩,
   ⟨"nohup".toList, [], 0⟩,
   ⟨"gnohup".toList, [], 0⟩,
   ⟨"time".toList, texts ["-f", "--format", "-o", "--output"], 0⟩,
   ⟨"exec".toList, texts ["-a"], 0⟩,
   ⟨"command".toList, [], 0⟩,
   ⟨"builtin".toList, [], 0⟩,
   ⟨"timeout".toList, timeoutOpts, 1⟩,
   ⟨"gtimeout".toList, timeoutOpts, 1⟩,
   ⟨"stdbuf".toList, stdbufOpts, 0⟩,
   ⟨"gstdbuf".toList, stdbufOpts, 0⟩,
   ⟨"setsid".toList, [], 0⟩,
   ⟨"xargs".toList, texts ["-a", "--arg-file", "-d", "--delimiter", "-E", "-I", "--replace", "-L",
      "--max-lines", "-n", "--max-args", "-P", "--max-procs", "-s", "--max-chars"], 0⟩,
   ⟨"caffeinate".toList, texts ["-t", "-w"], 0⟩,
   ⟨"flock".toList, texts ["-w", "--timeout", "-E", "--conflict-exit-code"], 1⟩]

/-- Whether an option takes the next word as its value. -/
def takesValue (word : Word) (valueOpts : List Word) : Bool :=
  if word ∈ valueOpts then true
  else
    match Text.stripPrefix ['-'] word with
    | some cluster =>
        !startsWith cluster '-' && cluster.getLast?.any fun last => decide (['-', last] ∈ valueOpts)
    | none => false

/-- The number of words that a wrapper takes after its name. -/
def wrapperArgs (valueOpts : List Word) : Nat → List Word → Nat
  | _, [] => 0
  | operands, word :: words =>
      if startsWith word '-' then
        match takesValue word valueOpts, words with
        | true, _ :: words => 2 + wrapperArgs valueOpts operands words
        | _, words => 1 + wrapperArgs valueOpts operands words
      else if '=' ∈ word ∨ 0 < operands then 1 + wrapperArgs valueOpts (operands - 1) words
      else 0

/-- `skip_wrappers`; the number says how many words of a wrapper come first. -/
def skipWrappers : Nat → List Word → List Word
  | _, [] => []
  | skip + 1, _ :: tail => skipWrappers skip tail
  | 0, word :: tail =>
      if isAssignment word then skipWrappers 0 tail
      else
        match wrappers.find? fun w => w.name == program word with
        | some w => skipWrappers (wrapperArgs w.valueOpts w.operands tail) tail
        | none => word :: tail

def programWords (words : List Word) : List Word :=
  skipWrappers 0 ((words.map trimGroup).filter fun w => !w.isEmpty)

/-! ## Nested commands -/

/-- The options of `env` up to its command, for `env -S`. -/
def envOptions : List Word → Option Word
  | [] => none
  | word :: rest =>
      if word = "-S".toList ∨ word = "--split-string".toList then rest.head?
      else if word ∈ texts ["-u", "--unset", "-C", "--chdir"] then
        match rest with
        | [] => none
        | _ :: rest => envOptions rest
      else
        match (Text.stripPrefix "-S".toList word).orElse
            fun _ => Text.stripPrefix "--split-string=".toList word with
        | some value => some value
        | none => if !startsWith word '-' && decide ('=' ∉ word) then none else envOptions rest

/-- The command string of `env -S`. -/
def envSplitString (words : List Word) : Option Word :=
  match (words.map trimGroup).dropWhile isAssignment with
  | [] => none
  | first :: rest => if program first = "env".toList then envOptions rest else none

/-- The script that a shell runs with `-c`. -/
def shellScript : List Word → Option Word
  | [] => none
  | arg :: rest =>
      match (Text.stripPrefix ['-'] arg).orElse fun _ => Text.stripPrefix ['+'] arg with
      | none => none
      | some flags =>
          let short := !startsWith flags '-'
          if startsWith arg '-' && short && decide ('c' ∈ flags) then rest.head?
          else if arg ∈ texts ["--rcfile", "--init-file"] ∨
              (short && (flags.getLast? == some 'o' || flags.getLast? == some 'O')) then
            match rest with
            | [] => none
            | _ :: rest => shellScript rest
          else shellScript rest

/-- The command that a segment hands to another shell. -/
def nestedCommand (words : List Word) : Option Word :=
  match envSplitString words with
  | some script => some script
  | none =>
      match programWords words with
      | [] => none
      | first :: tail =>
          if program first = "eval".toList then some (Text.join [' '] tail)
          else if program first ∈ texts ["sh", "bash", "zsh"] then shellScript tail
          else none

/-- The loop of `segments_at`; `nested` splits the next level. -/
def collect (nested : Word → Except NestingTooDeep (List (List Word))) :
    List (List Word) → Except NestingTooDeep (List (List Word))
  | [] => .ok []
  | words :: rest => do
      let inner ← match nestedCommand words with
        | some script => nested script
        | none => .ok []
      let rest ← collect nested rest
      .ok (inner ++ words :: rest)

/-- `segments_at` with `room` levels left, this one included. -/
def segmentsAt : Nat → List Char → Except NestingTooDeep (List (List Word))
  | 0, _ => .error .nestingTooDeep
  | room + 1, command => do
      let command ← splitAtDepth (room + 1) command
      collect (segmentsAt room) (splitWords command)

def shellSegments (command : String) : Except NestingTooDeep (List (List Word)) :=
  segmentsAt (maxSubstitutionDepth + 1) command.toList

/-! ## Commits and task ends -/

/-- The first two subcommand words of a `gh` call; `found` are those seen. -/
def ghSubcommands : List Word → List Word → List Word
  | found, [] => found
  | found, word :: rest =>
      if found.length = 2 then found
      else if word ∈ texts ["-R", "--repo"] then
        match rest with
        | [] => found
        | _ :: rest => ghSubcommands found rest
      else if startsWith word '-' then ghSubcommands found rest
      else ghSubcommands (found ++ [word]) rest

/-- The first subcommand word of a `git` call. -/
def gitSubcommand : List Word → Option Word
  | [] => none
  | word :: rest =>
      if word ∈ texts ["-C", "-c", "--git-dir", "--work-tree"] then
        match rest with
        | [] => none
        | _ :: rest => gitSubcommand rest
      else if startsWith word '-' then gitSubcommand rest
      else some word

def startsCommitOrPr (words : List Word) : Bool :=
  match programWords words with
  | [] => false
  | first :: tail =>
      if program first = "gh".toList then ghSubcommands [] tail == texts ["pr", "create"]
      else if program first = "git".toList then gitSubcommand tail == some "commit".toList
      else false

/-- The step boundary that one segment reaches: a push, or a pull request opened,
marked ready or merged. -/
def boundaryOf (words : List Word) : Option String :=
  match programWords words with
  | [] => none
  | first :: tail =>
      if program first = "git".toList then
        if gitSubcommand tail = some "push".toList then some "git push" else none
      else if program first = "gh".toList then
        let found := ghSubcommands [] tail
        if found = texts ["pr", "create"] then some "gh pr create"
        else if found = texts ["pr", "ready"] then some "gh pr ready"
        else if found = texts ["pr", "merge"] then some "gh pr merge"
        else none
      else none

/-- The first step boundary in a shell command. -/
def stepBoundary (command : String) : Except NestingTooDeep (Option String) :=
  match shellSegments command with
  | .error e => .error e
  | .ok segments => .ok (segments.findSome? boundaryOf)

/-- The task that a `llmenv task done` or `llmenv task wait` segment names. -/
def taskEndTarget (words : List Word) : Option Word :=
  match programWords words with
  | first :: task :: verb :: target :: _ =>
      if task = "task".toList ∧ verb ∈ texts ["done", "wait"] ∧ program first = "llmenv".toList then
        some target
      else none
  | _ => none

/-- Whether the command runs `git commit` or `gh pr create` in any of its parts. -/
def runsCommitOrPr (command : String) : Bool :=
  match shellSegments command with
  | .ok segments => segments.any startsCommitOrPr
  | .error _ => true

/-- The loop of `ends_task_before_commit`. -/
def endsBeforeCommit (wip : Word) : List (List Word) → Bool
  | [] => false
  | words :: rest =>
      if startsCommitOrPr words then false
      else if taskEndTarget words = some wip then true
      else endsBeforeCommit wip rest

def endsTaskBeforeCommit (command wip : String) : Bool :=
  match shellSegments command with
  | .error _ => true
  | .ok segments => endsBeforeCommit wip.toList segments

end Llmenv.HookRun.ShellSplit
