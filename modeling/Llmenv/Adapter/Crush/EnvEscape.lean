/-
# `Llmenv.Adapter.Crush.EnvEscape` — a value of `env` is not expanded

Crush expands every value of the top-level `env` object like a word of a shell
document: `$` and a backtick start an expansion unless a backslash escapes them,
and a backslash is escaped by a backslash.  `escape_for_crush_expansion` of
`src/adapter/crush/render.rs` writes the escape in three replacements, each over
the output of the one before.

The backslash is replaced first, so the three are one pass
(`toList_escapeForCrushExpansion`), and the value that Crush reads is the value of
the bundle.
-/
import Llmenv.Adapter.Crush.Document
import Llmenv.Lib.Escape

namespace Llmenv.Adapter.Crush

open Llmenv.Lib

/-- The characters that start an expansion. -/
def expansionStarts : List Char := ['`', '$']

/-- The characters that are escaped. -/
def escapedChars : List Char := expansionStarts ++ ['\\']

/-- A reader that goes from left to right, with a backslash as the escape, meets
the start of an expansion. -/
def Expands (cs : List Char) : Prop :=
  ∃ pre c post, cs = pre ++ c :: post ∧ c ∈ expansionStarts ∧
    Escape.escapes '\\' false pre = false

/-- The three replacements are one pass. -/
theorem toList_escapeForCrushExpansion (value : String) :
    (escapeForCrushExpansion value).toList = Escape.escape '\\' escapedChars value.toList := by
  show (String.ofList (Escape.replace '`' ['\\', '`'] (Escape.replace '$' ['\\', '$']
    (Escape.replace '\\' ['\\', '\\'] value.toList)))).toList = _
  rw [String.toList_ofList, Escape.replace_eq_escape,
    Escape.replace_escape (by decide) (by decide), Escape.replace_escape (by decide) (by decide)]
  rfl

/-- Each start of an expansion has an odd run of backslashes before it. -/
theorem odd_trailing_of_expansionStart {value : String} {pre post : List Char} {c : Char}
    (h : (escapeForCrushExpansion value).toList = pre ++ c :: post) (hc : c ∈ expansionStarts) :
    Odd (Escape.trailing '\\' pre) := by
  have hne : c ≠ '\\' := by
    rintro rfl
    exact absurd hc (by decide)
  rw [toList_escapeForCrushExpansion] at h
  exact (Escape.escapes_iff pre).mp (Escape.escapes_escape_prefix (by decide) h
    (List.mem_append_left _ hc) hne)

/-- The escape is the one-pass escape, it can be taken back, and what it gives
expands to nothing. -/
theorem escapeForCrushExpansion_faithful (value : String) :
    (escapeForCrushExpansion value).toList = Escape.escape '\\' escapedChars value.toList ∧
      Escape.unescape '\\' (escapeForCrushExpansion value).toList = value.toList ∧
      (∀ pre c post, (escapeForCrushExpansion value).toList = pre ++ c :: post →
        c ∈ expansionStarts → Odd (Escape.trailing '\\' pre)) ∧
      ¬ Expands (escapeForCrushExpansion value).toList := by
  refine ⟨toList_escapeForCrushExpansion value, ?_, ?_, ?_⟩
  · rw [toList_escapeForCrushExpansion]
    exact Escape.unescape_escape (by decide) _
  · intro pre c post h hc
    exact odd_trailing_of_expansionStart h hc
  · rintro ⟨pre, c, post, h, hc, hread⟩
    have hodd := odd_trailing_of_expansionStart h hc
    rw [(Escape.escapes_iff pre).mpr hodd] at hread
    exact absurd hread (by decide)

/-- A value that reads as a command if it is not escaped. -/
example : (escapeForCrushExpansion "\\$(id)`").toList = "\\\\\\$(id)\\`".toList := by decide

end Llmenv.Adapter.Crush
