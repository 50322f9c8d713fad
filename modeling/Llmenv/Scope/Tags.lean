/-
# `Llmenv.Scope.Tags` — tags from untrusted sources

`crates/llmenv-scope/src/tags.rs`, and the parser of `$LLMENV_EXTRA_TAGS` from
`matcher.rs`.  Each source is cut to 64 valid tags, and the union of all
sources is cut to the 64 that come first in the alphabet.  The notices for the
agent that go with a dropped tag are output only and left out.
-/
import Mathlib.Data.String.Basic
import Llmenv.Lib.FirstN
import Llmenv.Lib.Text

namespace Llmenv.Scope

open Llmenv.Lib

/-- ASCII letters and digits, `-` and `_`, and at least one of them. -/
def isValidTagCharset (tag : String) : Bool :=
  !tag.toList.isEmpty && tag.toList.all (fun c => c.isAlphanum || c == '-' || c == '_')

def maxTagLen : Nat := 64

def maxTagsPerSource : Nat := 64

/-- Drop invalid and oversized tags, then cap the rest. -/
def sanitizeTags (raw : List String) : List String :=
  (raw.filter fun tag => isValidTagCharset tag && decide (tag.utf8ByteSize ≤ maxTagLen)).take
    maxTagsPerSource

/-- Keep the alphabetically first tags of the union. -/
def capAggregateTags (tags : Finset String) : Finset String :=
  if tags.card ≤ maxTagsPerSource then tags else firstN maxTagsPerSource tags

/-- The comma-separated format of `$LLMENV_EXTRA_TAGS`. -/
def parseExtraTags (raw : String) : List String :=
  sanitizeTags ((((Text.split (· == ',') raw.toList).map Text.trim).filter
    (fun part => !part.isEmpty)).map String.ofList)

/-- With at most 64 tags in all, fewer than 64 are below any one of them, so
the two branches of the cap are one. -/
theorem mem_capAggregateTags {tags : Finset String} {t : String} :
    t ∈ capAggregateTags tags ↔
      t ∈ tags ∧ (tags.filter (· < t)).card < maxTagsPerSource := by
  simp only [capAggregateTags]
  split
  · rename_i hcard
    refine ⟨fun ht => ⟨ht, ?_⟩, fun h => h.1⟩
    refine Nat.lt_of_lt_of_le (Finset.card_lt_card ?_) hcard
    refine (Finset.filter_subset _ _).ssubset_of_ne (fun heq => ?_)
    have hself : t ∈ tags.filter (· < t) := by
      rw [heq]
      exact ht
    exact lt_irrefl t (Finset.mem_filter.mp hself).2
  · exact mem_firstN

end Llmenv.Scope
