/-
# `Llmenv.Adapter.Skills.QuoteScalar` — a text as a quoted YAML scalar

`quote_yaml_scalar` of `src/adapter/skills.rs`.  Beside it stands a reader of
double-quoted scalars that is as strict as a YAML scanner can be: a quote ends
the scalar and the text, and no control character, noncharacter or line break
may stand in it unescaped.

The writer leaves U+2028 and U+2029 as they are.  Neither is a control
character, but the scanner folds both as line breaks, so the strict reader
takes back exactly the texts without them (`unquote_quoteYamlScalar_iff`).
-/
import Llmenv.Lib.Hex

namespace Llmenv.Adapter.Skills

open Llmenv.Lib.Text

/-! ## The code -/

/-- `char::is_control`: the Unicode category `Cc`. -/
def isControl (c : Char) : Bool := c.toNat ≤ 0x1F || (0x7F ≤ c.toNat && c.toNat ≤ 0x9F)

def isYamlNoncharacter (c : Char) : Bool :=
  let cp := c.toNat
  (0xFDD0 ≤ cp && cp ≤ 0xFDEF) || (cp &&& 0xFFFE) == 0xFFFE

/-- What the loop pushes for one character. -/
def quoteChar (c : Char) : List Char :=
  if c = '\\' then ['\\', '\\']
  else if c = '"' then ['\\', '"']
  else if c = '\n' then ['\\', 'n']
  else if c = '\r' then ['\\', 'r']
  else if c = '\t' then ['\\', 't']
  else if isControl c || isYamlNoncharacter c then
    let cp := c.toNat
    if 0xFFFF < cp then '\\' :: 'U' :: hexPadded 8 cp else '\\' :: 'u' :: hexPadded 4 cp
  else [c]

def quoteYamlScalar (value : List Char) : List Char := '"' :: value.flatMap quoteChar ++ ['"']

/-! ## A strict reader -/

/-- The line breaks that are folded inside quotes. -/
def isLineBreak (c : Char) : Bool :=
  c = '\n' || c = '\r' || c.toNat == 0x85 || c.toNat == 0x2028 || c.toNat == 0x2029

/-- What may not stand unescaped between the quotes. -/
def mustEscape (c : Char) : Bool := isControl c || isYamlNoncharacter c || isLineBreak c

/-- The escapes of one letter. -/
def escapeLetter (c : Char) : Option Char :=
  if c = '\\' then some '\\'
  else if c = '"' then some '"'
  else if c = 'n' then some '\n'
  else if c = 'r' then some '\r'
  else if c = 't' then some '\t'
  else none

def scalarValue (n : Nat) : Option Char := if n.isValidChar then some (Char.ofNat n) else none

/-- Where the reader stands: in plain text, behind a backslash, or with hex digits to come. -/
inductive Mode where
  | plain
  | escape
  | hex (left acc : Nat)

/-- The text up to the closing quote, which is the last character. -/
def decode : Mode → List Char → Option (List Char)
  | _, [] => none
  | .plain, c :: cs =>
      if c = '"' then if cs.isEmpty then some [] else none
      else if c = '\\' then decode .escape cs
      else if mustEscape c then none
      else (decode .plain cs).map (c :: ·)
  | .escape, c :: cs =>
      if c = 'u' then decode (.hex 4 0) cs
      else if c = 'U' then decode (.hex 8 0) cs
      else (escapeLetter c).bind fun d => (decode .plain cs).map (d :: ·)
  | .hex left acc, c :: cs =>
      (hexVal c).bind fun d =>
        if left = 1 then (scalarValue (16 * acc + d)).bind fun e => (decode .plain cs).map (e :: ·)
        else decode (.hex (left - 1) (16 * acc + d)) cs

/-- The value of a double-quoted scalar. -/
def unquote : List Char → Option (List Char)
  | c :: cs => if c = '"' then decode .plain cs else none
  | [] => none

/-! ## Reading back -/

/-- The folded line breaks that are not control characters. -/
def isSeparator (c : Char) : Bool := c.toNat == 0x2028 || c.toNat == 0x2029

theorem scalarValue_toNat (c : Char) : scalarValue c.toNat = some c := by
  have hvalid : c.toNat.isValidChar := c.valid
  rw [scalarValue, if_pos hvalid, Char.ofNat_toNat]

/-- The digits of an escape are read to the last one, and no further. -/
theorem decode_hex {c : Char} {rest : List Char} : ∀ {ds : List Char} {acc : Nat}, ds ≠ [] →
    hexNumber? acc ds = some c.toNat →
    decode (.hex ds.length acc) (ds ++ rest) = (decode .plain rest).map (c :: ·)
  | [], _, hne, _ => absurd rfl hne
  | d :: ds, acc, _, h => by
      obtain ⟨x, hx, hrest⟩ := Option.bind_eq_some_iff.mp h
      rw [List.cons_append, decode, hx, Option.bind_some]
      cases ds with
      | nil =>
          have hn : 16 * acc + x = c.toNat := Option.some.inj hrest
          rw [hn, scalarValue_toNat]
          rfl
      | cons d' ds =>
          rw [if_neg (by simp)]
          exact decode_hex (by simp) hrest

theorem decode_padded {k : Nat} {c : Char} (hk : 0 < k) (hc : c.toNat < 16 ^ k)
    (rest : List Char) :
    decode (.hex k 0) (hexPadded k c.toNat ++ rest) = (decode .plain rest).map (c :: ·) := by
  have hlen := length_hexPadded hk hc
  have hne : hexPadded k c.toNat ≠ [] := by
    intro hnil
    rw [hnil] at hlen
    exact hk.ne hlen
  have hread : decode (.hex (hexPadded k c.toNat).length 0) (hexPadded k c.toNat ++ rest) =
      (decode .plain rest).map (c :: ·) := decode_hex hne (hexNumber?_hexPadded k c.toNat)
  rwa [hlen] at hread

theorem toNat_lt (c : Char) : c.toNat < 16 ^ 8 := c.val.toNat_lt

/-- What the writer leaves as it is may stand in a scalar, separators apart. -/
theorem mustEscape_eq_false {c : Char} (hcode : (isControl c || isYamlNoncharacter c) = false)
    (hlf : c ≠ '\n') (hcr : c ≠ '\r') : mustEscape c = isSeparator c := by
  have hnel : (c.toNat == 0x85) = false := by
    rw [beq_eq_false_iff_ne]
    intro h
    rw [isControl, h] at hcode
    exact absurd hcode (by simp)
  rw [mustEscape, hcode, Bool.false_or, isLineBreak, decide_eq_false hlf, decide_eq_false hcr, hnel]
  rfl

/-- The five escapes with a letter of their own. -/
theorem decode_letter {c : Char} (hc : c = '\\' ∨ c = '"' ∨ c = '\n' ∨ c = '\r' ∨ c = '\t')
    (rest : List Char) :
    decode .plain (quoteChar c ++ rest) = (decode .plain rest).map (c :: ·) := by
  rcases hc with rfl | rfl | rfl | rfl | rfl <;> rfl

/-- What is written for a character that is not a separator reads back as that character. -/
theorem decode_quoteChar {c : Char} (hc : isSeparator c = false) (rest : List Char) :
    decode .plain (quoteChar c ++ rest) = (decode .plain rest).map (c :: ·) := by
  by_cases hletter : c = '\\' ∨ c = '"' ∨ c = '\n' ∨ c = '\r' ∨ c = '\t'
  · exact decode_letter hletter rest
  · simp only [not_or] at hletter
    obtain ⟨hslash, hquote, hlf, hcr, htab⟩ := hletter
    rw [quoteChar, if_neg hslash, if_neg hquote, if_neg hlf, if_neg hcr, if_neg htab]
    split
    · dsimp only
      split
      · exact decode_padded (by omega) (toNat_lt c) rest
      · rename_i hle
        exact decode_padded (by omega) (by omega) rest
    · rename_i hplain
      have hraw : mustEscape c = false :=
        (mustEscape_eq_false (Bool.eq_false_of_not_eq_true hplain) hlf hcr).trans hc
      rw [List.singleton_append, decode, if_neg hquote, if_neg hslash, hraw]
      rfl

/-- A separator is written as it is, and the reader refuses it. -/
theorem decode_separator {c : Char} (hc : isSeparator c = true) (rest : List Char) :
    decode .plain (quoteChar c ++ rest) = none := by
  have hof : c = Char.ofNat c.toNat := (Char.ofNat_toNat c).symm
  rw [isSeparator, Bool.or_eq_true, beq_iff_eq, beq_iff_eq] at hc
  rcases hc with hc | hc
  all_goals
    rw [hof, hc]
    rfl

theorem decode_flatMap_iff (v : List Char) :
    decode .plain (v.flatMap quoteChar ++ ['"']) = some v ↔ ∀ c ∈ v, isSeparator c = false := by
  induction v with
  | nil => exact iff_of_true rfl (by simp)
  | cons c v ih =>
      rw [List.flatMap_cons, List.append_assoc, List.forall_mem_cons, ← ih]
      cases hc : isSeparator c with
      | true =>
          rw [decode_separator hc]
          exact iff_of_false (by simp) (by simp)
      | false =>
          rw [decode_quoteChar hc, and_iff_right rfl]
          constructor
          · intro h
            obtain ⟨w, hw, heq⟩ := Option.map_eq_some_iff.mp h
            rw [hw, (List.cons.inj heq).2]
          · intro h
            rw [h]
            rfl

/-- The strict reader takes a quoted text back exactly when the text has neither U+2028 nor
U+2029. -/
theorem unquote_quoteYamlScalar_iff (v : List Char) :
    unquote (quoteYamlScalar v) = some v ↔ ∀ c ∈ v, c.toNat ≠ 0x2028 ∧ c.toNat ≠ 0x2029 := by
  have hsep : ∀ c : Char, isSeparator c = false ↔ c.toNat ≠ 0x2028 ∧ c.toNat ≠ 0x2029 := by
    intro c
    rw [isSeparator, Bool.or_eq_false_iff, beq_eq_false_iff_ne, beq_eq_false_iff_ne]
  simp only [← hsep]
  exact decode_flatMap_iff v

/-- A line separator stands in the scalar as it is. -/
theorem unquote_quoteYamlScalar_separator :
    ¬ ∀ v, unquote (quoteYamlScalar v) = some v := by
  intro h
  have hnone : unquote (quoteYamlScalar ['a', Char.ofNat 0x2028, 'b']) = none := by decide
  have hsome := h ['a', Char.ofNat 0x2028, 'b']
  rw [hnone] at hsome
  exact absurd hsome (by simp)

/-- A digit behind an escape is not read into it. -/
example : quoteYamlScalar ['"', Char.ofNat 0x7, '1', Char.ofNat 0x1FFFE, '2'] =
    "\"\\\"\\u00071\\U0001fffe2\"".toList := by decide

end Llmenv.Adapter.Skills
