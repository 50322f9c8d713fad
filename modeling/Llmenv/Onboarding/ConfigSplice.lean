/-
# `Llmenv.Onboarding.ConfigSplice` — entries added to `config.yaml` as text

`splice` of `src/onboarding/config_splice.rs`.  The file is the user's, with
comments and an order of its own, so it is never written out again from its parsed
form: each addition finds its key in the lines, and puts its own lines at the end
of the block of that key.  A key whose value is empty is replaced by its block.

At the end the new text is parsed, and it must hold the old configuration with the
additions and nothing else.  The YAML reader and writer are a parameter.
-/
import Llmenv.Lib.Hunks
import Llmenv.Lib.Lines
import Llmenv.Lib.Text
import Llmenv.Merge.MergeYaml

namespace Llmenv.Onboarding

open Llmenv.Lib Llmenv.Merge

/-- A text, character by character. -/
abbrev Chars := List Char

/-- The texts of an error, from the outside to the cause. -/
abbrev Fault := List String

/-- `with_context`. -/
def withContext {β : Type} (text : String) (x : Except Fault β) : Except Fault β :=
  x.mapError (text :: ·)

/-- `serde_yaml::to_string` and `serde_yaml::from_str`. -/
structure Serde where
  toString : Yaml → Except String String
  fromStr : String → Except String Yaml

/-! ## Additions -/

/-- `Addition`. -/
inductive Addition where
  | items (key : String) (sub : Option String) (items : List Yaml)
  | keys (key : String) (sub : Option String) (keys : Entries)

namespace Addition

def key : Addition → String
  | .items key _ _ => key
  | .keys key _ _ => key

def sub : Addition → Option String
  | .items _ sub _ => sub
  | .keys _ sub _ => sub

/-- The added entries as one value. -/
def value : Addition → Yaml
  | .items _ _ added => .seq added
  | .keys _ _ added => .map added

/-- The added entries, wrapped in the sub key when there is one. -/
def underKey (a : Addition) : Yaml :=
  match a.sub with
  | some sub => .map [(.str sub, a.value)]
  | none => a.value

def name (a : Addition) : String :=
  match a.sub with
  | some sub => let key := a.key; s!"{key}.{sub}"
  | none => a.key

end Addition

/-! ## Lines -/

def trimStart (line : Chars) : Chars := line.dropWhile Text.isWhitespace

/-- The text in front of a comment. -/
def beforeComment : Chars → Chars
  | ' ' :: '#' :: _ => []
  | c :: cs => c :: beforeComment cs
  | [] => []

/-- `KeyValue`. -/
inductive KeyValue where
  | block
  | empty
  | inline
deriving DecidableEq

/-- `key_value`. -/
def keyValue (line : Chars) (key : String) : KeyValue :=
  let rest := (Text.stripPrefix key.toList (trimStart line)).getD []
  let rest := (Text.stripPrefix [':'] rest).getD []
  let value := Text.trim (beforeComment rest)
  if value = [] then .block
  else if ["null", "~", "[]", "{}"].contains (String.ofList value) then .empty
  else .inline

/-- `indent_of`. -/
def indentOf (line : Chars) : Nat := (line.takeWhile (· == ' ')).length

/-- `is_content`. -/
def isContent (line : Chars) : Bool :=
  !(trimStart line).isEmpty && !((trimStart line).head? == some '#')

/-- The line is `key:` at `indent`. -/
def isKeyLine (key : String) (indent : Nat) (line : Chars) : Bool :=
  indentOf line == indent &&
    ((Text.stripPrefix key.toList (trimStart line)).bind List.head?) == some ':'

/-- `find_key`. -/
def findKey (lines : List Chars) (start stop : Nat) (key : String) (indent : Nat) : Option Nat :=
  (List.range' start (stop - start)).find? fun i => (lines[i]?).any (isKeyLine key indent)

/-- A line that does not end the block of a key at `indent`. -/
def inBlock (indent : Nat) (line : Chars) : Bool :=
  !isContent line ||
    ((indentOf line > indent ||
        (indentOf line == indent && ['-', ' '].isPrefixOf (trimStart line))) &&
      !(['-', '-', '-'].isPrefixOf line))

/-- `block_end`. -/
def blockEnd (lines : List Chars) (start indent : Nat) : Nat :=
  start + 1 + ((lines.drop (start + 1)).takeWhile (inBlock indent)).length

/-- `after_content`. -/
def afterContent (lines : List Chars) (start stop : Nat) : Nat :=
  match (List.range' start (stop - start)).reverse.find? fun i => (lines[i]?).any isContent with
  | some i => i + 1
  | none => start + 1

/-- The first line of `lines[start..stop]` with content. -/
def firstContent (lines : List Chars) (start stop : Nat) : Option Chars :=
  (List.range' start (stop - start)).findSome? fun i => (lines[i]?).filter isContent

/-! ## The insertion -/

section

variable (Y : Serde)

/-- `yaml_lines`. -/
def yamlLines (value : Yaml) (indent : Nat) : Except Fault (List Chars) :=
  match Y.toString value with
  | .error e => .error ["encoding the addition as YAML", e]
  | .ok text => .ok ((Text.lines text.toList).map (List.replicate indent ' ' ++ ·))

/-- `keyed_lines`. -/
def keyedLines (name : String) (value : Yaml) (indent : Nat) : Except Fault (List Chars) :=
  yamlLines Y (.map [(.str name, value)]) indent

/-- `put`. -/
def put (lines : List Chars) (pos remove : Nat) (new : List Chars) : List Chars × Hunk Chars :=
  let pos := min pos lines.length
  let stop := min (pos + remove) lines.length
  (lines.take pos ++ new ++ lines.drop stop, ⟨pos + 1, (lines.drop pos).take (stop - pos), new⟩)

/-- The check of `insert_entries`: items go below items. -/
def checkTarget : Addition → Option Chars → Except Fault Unit
  | .items .., some l =>
      if ['-', ' '].isPrefixOf (trimStart l) then .ok () else .error ["the target is not a block list"]
  | _, _ => .ok ()

/-- `insert_entries`. -/
def insertEntries (lines : List Chars) (start stop indent : Nat) (addition : Addition) :
    Except Fault (List Chars × Hunk Chars) := do
  let first := firstContent lines (start + 1) stop
  let child := (first.map indentOf).getD (indent + 2)
  checkTarget addition first
  let new ← yamlLines Y addition.value child
  .ok (put lines (afterContent lines start stop) 0 new)

/-- `insert_sub`. -/
def insertSub (lines : List Chars) (start stop : Nat) (sub : String) (addition : Addition) :
    Except Fault (List Chars × Hunk Chars) :=
  let child := ((firstContent lines (start + 1) stop).map indentOf).getD 2
  match findKey lines (start + 1) stop sub child with
  | none => do
      let new ← keyedLines Y sub addition.value child
      .ok (put lines (afterContent lines start stop) 0 new)
  | some subAt =>
      match keyValue ((lines[subAt]?).getD []) sub with
      | .empty => do
          let new ← keyedLines Y sub addition.value child
          .ok (put lines subAt 1 new)
      | .inline => .error [s!"`{sub}` holds an inline value, and only a block is supported"]
      | .block => insertEntries Y lines subAt (blockEnd lines subAt child) child addition

/-- `insert`. -/
def insert (lines : List Chars) (addition : Addition) : Except Fault (List Chars × Hunk Chars) :=
  let key := addition.key
  match findKey lines 0 lines.length key 0 with
  | none => do
      let new ← keyedLines Y key addition.underKey 0
      .ok (put lines lines.length 0 new)
  | some start =>
      match keyValue ((lines[start]?).getD []) key with
      | .empty => do
          let new ← keyedLines Y key addition.underKey 0
          .ok (put lines start 1 new)
      | .inline => .error [s!"`{key}` holds an inline value, and only a block is supported"]
      | .block =>
          let stop := blockEnd lines start 0
          match addition.sub with
          | some sub => insertSub Y lines start stop sub addition
          | none => insertEntries Y lines start stop 0 addition

/-- `manual_fix`. -/
def manualFix (addition : Addition) : String :=
  let lines := match keyedLines Y addition.key addition.underKey 0 with
    | .ok lines => lines.map String.ofList
    | .error e =>
        let reason := Text.joinStr ": " e
        [s!"(the lines cannot be shown: {reason})"]
  let name := addition.name
  let text := Text.joinStr "\n" lines
  s!"llmenv cannot add to `{name}` in config.yaml safely. Fix: add these lines to config.yaml by hand, merged into the existing key:\n{text}"

/-! ## The check of the result -/

/-- `Mapping::insert`. -/
def insertEntry (entries : Entries) (e : Yaml × Yaml) : Entries :=
  match getEntry e.1 entries with
  | some _ => setEntry e.1 e.2 entries
  | none => entries ++ [e]

/-- Change the value under a key; one that is not there is null before. -/
def updateEntry (k : Yaml) (f : Yaml → Except Fault Yaml) (entries : Entries) :
    Except Fault Entries :=
  match getEntry k entries with
  | some v => do
      let v ← f v
      .ok (setEntry k v entries)
  | none => do
      let v ← f .null
      .ok (entries ++ [(k, v)])

/-- Change the entries of a mapping, also of a tagged one. -/
def updateMapping (f : Entries → Except Fault Entries) (reason : String) : Yaml → Except Fault Yaml
  | .map entries => (f entries).map .map
  | .tagged tag value => (updateMapping f reason value).map (.tagged tag)
  | _ => .error [reason]

/-- Add items to a list, also to a tagged one. -/
def extendList (items : List Yaml) : Yaml → Except Fault Yaml
  | .seq old => .ok (.seq (old ++ items))
  | .tagged tag value => (extendList items value).map (.tagged tag)
  | _ => .error ["the target is not a list"]

/-- The entries added to the value of the key. -/
def addToSlot (addition : Addition) (slot : Yaml) : Except Fault Yaml :=
  match addition with
  | .items _ _ items => extendList items (if isNull slot then .seq [] else slot)
  | .keys _ _ keys =>
      updateMapping (fun entries => .ok (keys.foldl insertEntry entries))
        "the target is not a mapping" (if isNull slot then .map [] else slot)

/-- `add_to_value`. -/
def addToValue (config : Yaml) (addition : Addition) : Except Fault Yaml :=
  updateMapping
    (updateEntry (.str addition.key) fun slot =>
      match addition.sub with
      | none => addToSlot addition slot
      | some sub =>
          let key := addition.key
          updateMapping (updateEntry (.str sub) (addToSlot addition)) s!"`{key}` is not a mapping"
            (if isNull slot then .map [] else slot))
    "config.yaml is not a mapping" config

/-- `parse`. -/
def parse (text : String) : Except Fault Yaml :=
  match Y.fromStr text with
  | .error e => .error [e]
  | .ok value => .ok (if isNull value then .map [] else value)

/-- `verify`. -/
def verify (old new : String) (additions : List Addition) : Except Fault Unit := do
  let expected ← withContext "the current config.yaml does not parse" (parse Y old)
  let expected ← additions.foldlM addToValue expected
  let got ← withContext "the changed config.yaml does not parse" (parse Y new)
  if eqv got expected then .ok ()
  else
    .error ["the changed config.yaml does not hold exactly the old configuration plus the additions"]

/-! ## The splice -/

/-- The `\r\n` of a text. -/
def countCrlf : Chars → Nat
  | '\r' :: '\n' :: cs => countCrlf cs + 1
  | _ :: cs => countCrlf cs
  | [] => 0

/-- `line_ending`. -/
def lineEnding (text : Chars) : Except Fault Chars :=
  if countCrlf text = 0 then .ok ['\n']
  else if countCrlf text = text.count '\n' then .ok ['\r', '\n']
  else
    .error ["config.yaml mixes CRLF and LF line endings. Fix: save it with one line ending, then apply the plan again"]

/-- `render`. -/
def render (hunks : List (Hunk Chars)) : String :=
  Text.joinStr "" (hunks.flatMap fun hunk =>
    let line := hunk.line
    s!"@@ line {line} of the new config.yaml @@\n" ::
      (hunk.removed.map (fun l => let l := String.ofList l; s!"- {l}\n") ++
        hunk.added.map (fun l => let l := String.ofList l; s!"+ {l}\n")))

/-- The additions, one after the other. -/
def insertAll (lines : List Chars) (hunks : List (Hunk Chars)) :
    List Addition → Except Fault (List Chars × List (Hunk Chars))
  | [] => .ok (lines, hunks)
  | addition :: additions => do
      let (lines, hunk) ← withContext (manualFix Y addition) (insert Y lines addition)
      insertAll lines (report hunks hunk) additions

/-- `splice`. -/
def splice (old : String) (additions : List Addition) : Except Fault (String × String) := do
  let eol ← lineEnding old.toList
  let (lines, hunks) ← insertAll Y (Text.lines old.toList) [] additions
  let text := String.ofList (Text.join eol lines ++ eol)
  withContext (Text.joinStr "\n" (additions.map (manualFix Y))) (verify Y old text additions)
  .ok (text, render hunks)

end

end Llmenv.Onboarding
