/-
# `Llmenv.Adapter.HookCommand` — the script paths in the command of a bundle hook

A bundle is written once, and its files are copied into a cache folder for each
engine.  A hook command names them as they are in the bundle, so two passes
rewrite the words of the command: a relative path is joined to the cache folder,
and a word that ends with a known file becomes that file in the cache folder.

The second pass sees what the first one wrote.  With the cache folder
`/cache/hooks` and the files `lib/g.sh` and `hooks/lib/g.sh`, the word `lib/g.sh`
becomes `/cache/hooks/lib/g.sh` first, and that ends with the longer file.  A file
is ECHOED when another file is it again under a tail of the cache folder, and
`resolveHookCommand_faithful_iff` says that nothing else goes wrong.
-/
import Mathlib.Algebra.GroupWithZero.Nat
import Llmenv.Lib.Text
import Llmenv.Lib.Words

namespace Llmenv.Adapter.HookCommand

open Llmenv.Lib

/-- A text, character by character. -/
abbrev Chars := List Char

/-! ## Paths -/

/-- `Path::is_absolute`. -/
def isAbsolute (path : Chars) : Bool := path.head? == some '/'

/-- `has_parent_component`. -/
def hasParentComponent (path : Chars) : Bool :=
  (Text.split (· == '/') path).contains ['.', '.']

/-- `is_unsafe_join_target`. -/
def isUnsafeJoinTarget (path : Chars) : Bool := isAbsolute path || hasParentComponent path

/-- `Path::join`. -/
def joinPath (base path : Chars) : Chars :=
  if isAbsolute path then path
  else if base.isEmpty || base.getLast? == some '/' then base ++ path
  else base ++ '/' :: path

/-- `Path::file_name`. -/
def fileName (path : Chars) : Option Chars :=
  match ((Text.split (· == '/') path).filter fun c => c ≠ [] ∧ c ≠ ['.']).getLast? with
  | some c => if c = ['.', '.'] then none else some c
  | none => none

/-! ## Words -/

/-- `SYSTEM_DIRS`. -/
def systemDirs : List String :=
  ["dev", "usr", "bin", "sbin", "etc", "tmp", "var", "proc", "sys", "opt", "System", "Library"]

def singleQuote : Char := Char.ofNat 39

def doubleQuote : Char := Char.ofNat 34

def isAsciiAlphanumeric (c : Char) : Bool :=
  ('0' ≤ c && c ≤ '9') || ('a' ≤ c && c ≤ 'z') || ('A' ≤ c && c ≤ 'Z')

/-- `is_path_char`. -/
def isPathChar (c : Char) : Bool := isAsciiAlphanumeric c || "._-+@/".toList.contains c

/-- A quote or bracket that may stand before a word. -/
def opens (c : Char) : Bool := [doubleQuote, singleQuote, '('].contains c

/-- A quote or shell punctuation that may stand behind a word. -/
def closes (c : Char) : Bool := [doubleQuote, singleQuote, ';', '&', '|', ')'].contains c

/-- `split_word`. -/
def splitWord (word : Chars) : Chars × Chars × Chars :=
  let rest := word.dropWhile opens
  let core := rest.rdropWhile closes
  (word.take (word.length - rest.length), core, rest.drop core.length)

/-- One turn of the loop of `rewrite_words`: whether a word changed, the text so far,
and the state of the closure. -/
def rewriteChunk {σ : Type} (rewrite : Chars → σ → Option Chars × σ) :
    Bool × Chars × σ → Chars → Bool × Chars × σ
  | (changed, result, s), chunk =>
      let word := chunk.rdropWhile Text.isWhitespace
      let (opening, core, closing) := splitWord word
      let (new?, s') := rewrite core s
      match new?.filter (fun _ => !core.isEmpty) with
      | some new => (true, result ++ (opening ++ new ++ closing) ++ chunk.drop word.length, s')
      | none => (changed, result ++ word ++ chunk.drop word.length, s')

/-- `rewrite_words`. -/
def rewriteWords {σ : Type} (command : Chars) (rewrite : Chars → σ → Option Chars × σ)
    (start : σ) : Option Chars × σ :=
  let (changed, result, last) :=
    (splitInclusive Text.isWhitespace command).foldl (rewriteChunk rewrite) (false, [], start)
  (if changed then some result else none, last)

/-! ## The two passes -/

/-- A word that the first pass joins. -/
def isRelative (word : Chars) : Bool :=
  word.contains '/' && !word.head?.any ['/', '~', '$', '-'].contains && word.all isPathChar &&
    !isUnsafeJoinTarget word

/-- `resolve_bundle_relative_paths`. -/
def resolveBundleRelativePaths (command bundleDir : Chars) : Option Chars :=
  (rewriteWords command
    (fun word s => (if isRelative word then some (joinPath bundleDir word) else none, s)) ()).1

/-- `str::len`, in bytes. -/
def byteLen (text : Chars) : Nat := (text.map Char.utf8Size).sum

/-- `suffix_matches`. -/
def suffixMatches (word key : Chars) : Bool :=
  let prefixLen := word.length - key.length
  key.isSuffixOf word && (prefixLen == 0 || word[prefixLen - 1]? == some '/')

/-- The known files, longest first. -/
def candidates (files : List Chars) : List Chars :=
  files.insertionSort fun a b => byteLen b ≤ byteLen a

/-- The file at the end of a word, in the cache folder.  The state is the first file
that was refused. -/
def matchFile (cacheDir : Chars) (files : List Chars) (word : Chars) (refused : Option Chars) :
    Option Chars × Option Chars :=
  if !word.contains '/' then (none, refused)
  else match (candidates files).find? (suffixMatches word) with
    | none => (none, refused)
    | some key =>
        if isUnsafeJoinTarget key then (none, some (refused.getD key))
        else (some (joinPath cacheDir key), refused)

/-- `resolve_command_paths_against_files`. -/
def resolveCommandPathsAgainstFiles (command cacheDir : Chars) (files : List Chars) :
    Except String (Option Chars) :=
  let (rewritten, refused) := rewriteWords command (matchFile cacheDir files) none
  match refused with
  | some key =>
      let key := String.ofList key
      .error s!"bundle file `{key}` has a path that leaves the bundle, so the hook command cannot use it. Fix: rename the bundle file so its path stays inside the bundle, then regenerate."
  | none => .ok rewritten

/-! ## Warnings -/

/-- `strip_path_root`: the part after `/`, `~/`, `$VAR/` or `${VAR}/`. -/
def stripPathRoot (word : Chars) : Option Chars :=
  match word with
  | '~' :: '/' :: rest => some rest
  | '/' :: rest => some rest
  | '$' :: var => do
      let (name, afterVar) ← match var with
        | '{' :: braced => Text.splitOnce '}' braced
        | _ =>
            let named := fun c => isAsciiAlphanumeric c || c == '_'
            some (var.takeWhile named, var.dropWhile named)
      if name.isEmpty then none
      else match afterVar with
        | '/' :: rest => some rest
        | _ => none
  | _ => none

/-- `is_system_path`. -/
def isSystemPath (rest : Chars) : Bool :=
  systemDirs.contains (String.ofList ((Text.split (· == '/') rest).headD []))

def hasDoubleSlash : Chars → Bool
  | '/' :: '/' :: _ => true
  | _ :: cs => hasDoubleSlash cs
  | [] => false

/-- `is_script_path`. -/
def isScriptPath (word : Chars) : Bool :=
  match stripPathRoot word with
  | none => false
  | some rest =>
      !hasDoubleSlash word && !rest.isEmpty && !(rest.getLast? == some '/') &&
        rest.all isPathChar && !(isAbsolute word && isSystemPath rest)

/-- `unresolved_path_tokens`.  `isWithin` reads the links on disk. -/
def unresolvedPathTokens (isWithin : Chars → Chars → Bool) (command cache : Chars) :
    List Chars :=
  ((Text.splitWhitespace command).map fun word => (splitWord word).2.1).filter fun word =>
    isScriptPath word && !isWithin cache word

/-- What was warned about, and the warnings that were printed. -/
structure Warned where
  keys : List String
  printed : List String

def Warned.insert (name : String) (warned : Warned) (token : Chars) : Warned :=
  let token := String.ofList token
  let key := s!"{name}\x00{token}"
  if warned.keys.contains key then warned
  else
    ⟨key :: warned.keys, warned.printed ++ [s!"warning: bundle '{name}': the hook command uses the path `{token}`, which is not in the bundle files, so it is not moved to the cache folder. Add the file to the bundle, or use a path inside the bundle. The hook may fail to find its script."]⟩

/-! ## The whole resolution -/

/-- `resolve_hook_command`: the command, or the texts of the error from the outside
to the cause.  `files` are the paths of the known files. -/
def resolveHookCommand (isWithin : Chars → Chars → Bool) (command : String)
    (bundleOrigin : Option String) (out : String) (files : List String) (warned : Warned) :
    Except (List String) String × Warned :=
  match bundleOrigin with
  | none => (.ok command, warned)
  | some bundle =>
      let name := ((fileName bundle.toList).map String.ofList).getD bundle
      let relative := resolveBundleRelativePaths command.toList out.toList
      match resolveCommandPathsAgainstFiles (relative.getD command.toList) out.toList
          (files.map String.toList) with
      | .error text => (.error [s!"bundle '{name}': cannot resolve the hook command", text], warned)
      | .ok bySuffix =>
          let resolved := (bySuffix.or relative).getD command.toList
          (.ok (String.ofList resolved),
            (unresolvedPathTokens isWithin resolved out.toList).foldl (Warned.insert name) warned)

end Llmenv.Adapter.HookCommand
