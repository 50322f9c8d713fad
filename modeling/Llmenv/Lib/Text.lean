/-
# `Llmenv.Lib.Text` — the string functions of the Rust standard library

The definitions follow the documented behaviour of `str` and `char`: white
space is the Unicode `White_Space` property, `split` always yields one part
more than it finds separators, `parse` for an integer takes an optional sign
and at least one ASCII digit and fails outside the range of the type.

Texts are worked on as character lists.  Lean's own iterator-based functions
do not reduce in the kernel; these do, so a definition built on them can be
evaluated on a concrete text.
-/
import Mathlib.Data.List.Sort

namespace Llmenv.Lib.Text

/-- `char::is_whitespace`: the Unicode property `White_Space`. -/
def isWhitespace (c : Char) : Bool :=
  (0x09 ≤ c.toNat && c.toNat ≤ 0x0D) || c.toNat == 0x20 || c.toNat == 0x85 ||
    c.toNat == 0xA0 || c.toNat == 0x1680 || (0x2000 ≤ c.toNat && c.toNat ≤ 0x200A) ||
    c.toNat == 0x2028 || c.toNat == 0x2029 || c.toNat == 0x202F ||
    c.toNat == 0x205F || c.toNat == 0x3000

/-- `str::split` on the characters that satisfy `p`. -/
def split (p : Char → Bool) : List Char → List (List Char)
  | [] => [[]]
  | c :: cs =>
      match p c, split p cs with
      | true, parts => [] :: parts
      | false, [] => [[c]]
      | false, part :: parts => (c :: part) :: parts

/-- `str::split_whitespace`: the non-empty parts between white space. -/
def splitWhitespace (cs : List Char) : List (List Char) :=
  (split isWhitespace cs).filter (fun part => !part.isEmpty)

/-- `[_]::join`. -/
def join (sep : List Char) : List (List Char) → List Char
  | [] => []
  | [part] => part
  | part :: parts => part ++ sep ++ join sep parts

/-- `[String]::join`. -/
def joinStr (sep : String) (parts : List String) : String :=
  String.ofList (join sep.toList (parts.map String.toList))

/-- `slice::sort` on strings: by code point, as UTF-8 bytes compare too. -/
def sortStrings (l : List String) : List String :=
  l.insertionSort (fun a b => compare a b ≠ .gt)

/-- `str::to_ascii_lowercase`. -/
def toAsciiLowercase (cs : List Char) : List Char := cs.map Char.toLower

/-- `str::trim`. -/
def trim (cs : List Char) : List Char :=
  ((cs.dropWhile isWhitespace).reverse.dropWhile isWhitespace).reverse

/-- `str::starts_with`. -/
def startsWith (s pre : String) : Bool := pre.toList.isPrefixOf s.toList

/-- `str::strip_prefix` on character lists. -/
def stripPrefix : List Char → List Char → Option (List Char)
  | [], cs => some cs
  | _ :: _, [] => none
  | p :: ps, c :: cs => if p = c then stripPrefix ps cs else none

theorem stripPrefix_append (pre cs : List Char) :
    stripPrefix pre (pre ++ cs) = some cs := by
  induction pre with
  | nil => rfl
  | cons p ps ih => simpa [stripPrefix] using ih

theorem eq_append_of_stripPrefix {pre cs rest : List Char} (h : stripPrefix pre cs = some rest) :
    cs = pre ++ rest := by
  induction pre generalizing cs with
  | nil => exact Option.some.inj h
  | cons p ps ih =>
      cases cs with
      | nil => exact absurd h (by simp [stripPrefix])
      | cons c cs =>
          simp only [stripPrefix] at h
          split at h
          · rename_i hpc
            rw [hpc, ih h, List.cons_append]
          · exact absurd h (by simp)

/-- A character outside the prefix does not complete it. -/
theorem stripPrefix_append_eq_none {pre cs : List Char} {c : Char} (hc : c ∉ pre)
    (h : stripPrefix pre cs = none) (rest : List Char) :
    stripPrefix pre (cs ++ c :: rest) = none := by
  induction pre generalizing cs with
  | nil => exact absurd h (by simp [stripPrefix])
  | cons p ps ih =>
      obtain ⟨hne, hps⟩ := not_or.mp (mt List.mem_cons.mpr hc)
      cases cs with
      | nil => simp [stripPrefix, Ne.symm hne]
      | cons d cs =>
          simp only [stripPrefix, List.cons_append] at h ⊢
          split
          · rename_i hpd
            rw [if_pos hpd] at h
            exact ih hps h
          · rfl

/-- `str::find` of a character: what stands before it, and what stands behind it. -/
def splitOnce (sep : Char) : List Char → Option (List Char × List Char)
  | [] => none
  | c :: cs => if c = sep then some ([], cs) else (splitOnce sep cs).map fun p => (c :: p.1, p.2)

/-! ## Parts of a text -/

theorem split_ne_nil (p : Char → Bool) (cs : List Char) : split p cs ≠ [] := by
  cases cs with
  | nil => simp [split]
  | cons c cs =>
      rw [split]
      cases p c with
      | true => simp
      | false => cases split p cs <;> simp

/-- A text without separator is one part. -/
theorem split_of_notMem {sep : Char} {part : List Char} (h : sep ∉ part) :
    split (· == sep) part = [part] := by
  induction part with
  | nil => rfl
  | cons c cs ih =>
      obtain ⟨hc, hcs⟩ := not_or.mp (mt List.mem_cons.mpr h)
      have hne : (c == sep) = false := by simpa using fun heq : c = sep => hc heq.symm
      simp [split, hne, ih hcs]

theorem split_append {sep : Char} {part : List Char} (h : sep ∉ part) (rest : List Char) :
    split (· == sep) (part ++ sep :: rest) = part :: split (· == sep) rest := by
  induction part with
  | nil => simp [split]
  | cons c cs ih =>
      obtain ⟨hc, hcs⟩ := not_or.mp (mt List.mem_cons.mpr h)
      have hne : (c == sep) = false := by simpa using fun heq : c = sep => hc heq.symm
      simp [split, hne, ih hcs]

theorem join_cons {sep part : List Char} {parts : List (List Char)} (h : parts ≠ []) :
    join sep (part :: parts) = part ++ sep ++ join sep parts := by
  cases parts with
  | nil => exact absurd rfl h
  | cons next parts => rfl

theorem join_append_cons (sep pre part : List Char) (parts : List (List Char)) :
    join sep ((pre ++ part) :: parts) = pre ++ join sep (part :: parts) := by
  cases parts with
  | nil => rfl
  | cons next parts => simp [join]

/-- Joined parts without separator are found again. -/
theorem split_join {sep : Char} {parts : List (List Char)} (hne : parts ≠ [])
    (h : ∀ part ∈ parts, sep ∉ part) : split (· == sep) (join [sep] parts) = parts := by
  induction parts with
  | nil => exact absurd rfl hne
  | cons part parts ih =>
      obtain ⟨hpart, hparts⟩ := List.forall_mem_cons.mp h
      cases parts with
      | nil => exact split_of_notMem hpart
      | cons next parts =>
          rw [join_cons (by simp), List.append_assoc, List.singleton_append, split_append hpart,
            ih (by simp) hparts]

theorem join_split (sep : Char) (cs : List Char) : join [sep] (split (· == sep) cs) = cs := by
  induction cs with
  | nil => rfl
  | cons c cs ih =>
      obtain ⟨part, parts, hsplit⟩ := List.exists_cons_of_ne_nil (split_ne_nil (· == sep) cs)
      rw [hsplit] at ih
      rw [split, hsplit]
      by_cases hc : c = sep
      · simp only [hc, beq_self_eq_true]
        rw [join_cons (by simp), ih]
        rfl
      · have hne : (c == sep) = false := by simpa using hc
        simp only [hne]
        exact (join_append_cons [sep] [c] part parts).trans (congrArg (c :: ·) ih)

theorem notMem_of_mem_split {sep : Char} {cs part : List Char}
    (h : part ∈ split (· == sep) cs) : sep ∉ part := by
  induction cs generalizing part with
  | nil =>
      rw [List.mem_singleton.mp h]
      exact List.not_mem_nil
  | cons c cs ih =>
      obtain ⟨first, parts, hsplit⟩ := List.exists_cons_of_ne_nil (split_ne_nil (· == sep) cs)
      rw [hsplit] at ih
      rw [split, hsplit] at h
      by_cases hc : c = sep
      · simp only [hc, beq_self_eq_true] at h
        rcases List.mem_cons.mp h with rfl | h
        · exact List.not_mem_nil
        · exact ih h
      · have hne : (c == sep) = false := by simpa using hc
        simp only [hne] at h
        rcases List.mem_cons.mp h with rfl | h
        · have hfirst : sep ∉ first := ih List.mem_cons_self
          exact mt List.mem_cons.mp (not_or.mpr ⟨fun heq => hc heq.symm, hfirst⟩)
        · exact ih (List.mem_cons_of_mem _ h)

theorem splitOnce_eq_some {sep : Char} {cs before after : List Char} :
    splitOnce sep cs = some (before, after) ↔ cs = before ++ sep :: after ∧ sep ∉ before := by
  induction cs generalizing before with
  | nil => simp [splitOnce]
  | cons c cs ih =>
      rw [splitOnce]
      by_cases hc : c = sep
      · rw [if_pos hc]
        cases before with
        | nil => simp [hc]
        | cons b before =>
            -- The separator is in front of everything.
            refine iff_of_false (by simp) ?_
            rintro ⟨heq, hnot⟩
            exact hnot ((hc ▸ (List.cons.inj heq).1) ▸ List.mem_cons_self)
      · rw [if_neg hc, Option.map_eq_some_iff]
        constructor
        · rintro ⟨⟨before', after'⟩, hsplit, heq⟩
          obtain ⟨rfl, rfl⟩ := Prod.mk.inj heq
          obtain ⟨rfl, hnot⟩ := ih.mp hsplit
          exact ⟨rfl, mt List.mem_cons.mp (not_or.mpr ⟨fun heq => hc heq.symm, hnot⟩)⟩
        · rintro ⟨heq, hnot⟩
          cases before with
          | nil => exact absurd (List.cons.inj heq).1 hc
          | cons b before =>
              obtain ⟨rfl, hcs⟩ := List.cons.inj heq
              have hbefore := (not_or.mp (mt List.mem_cons.mpr hnot)).2
              exact ⟨(before, after), ih.mpr ⟨hcs, hbefore⟩, rfl⟩

theorem splitOnce_eq_none {sep : Char} {cs : List Char} : splitOnce sep cs = none ↔ sep ∉ cs := by
  induction cs with
  | nil => simp [splitOnce]
  | cons c cs ih =>
      rw [splitOnce]
      by_cases hc : c = sep
      · simp [hc]
      · rw [if_neg hc, Option.map_eq_none_iff, ih, List.mem_cons, not_or]
        exact (and_iff_right fun heq : sep = c => hc heq.symm).symm

/-! ## Integers in text -/

/-- The value of a non-empty run of ASCII digits. -/
def digits? (cs : List Char) : Option Nat :=
  if !cs.isEmpty && cs.all Char.isDigit then some (Nat.ofDigitChars 10 cs 0) else none

/-- `str::parse::<u64>` and its kin: an optional `+`, digits, at most `max`. -/
def parseUnsigned (max : Nat) (cs : List Char) : Option Nat :=
  (digits? ((stripPrefix ['+'] cs).getD cs)).filter (fun n => decide (n ≤ max))

/-- `str::parse::<i64>`: an optional sign, digits, within the range. -/
def parseI64 (cs : List Char) : Option Int :=
  match stripPrefix ['-'] cs with
  | some rest => (digits? rest).bind
      (fun n => if n ≤ 9223372036854775808 then some (-(n : Int)) else none)
  | none => (digits? ((stripPrefix ['+'] cs).getD cs)).bind
      (fun n => if n < 9223372036854775808 then some (n : Int) else none)

/-- `i64::to_string`. -/
def i64ToString : Int → List Char
  | .ofNat n => Nat.toDigits 10 n
  | .negSucc n => '-' :: Nat.toDigits 10 (n + 1)

theorem digits?_toDigits (n : Nat) : digits? (Nat.toDigits 10 n) = some n := by
  have hne : (Nat.toDigits 10 n).isEmpty = false := by
    simp [Nat.toDigits_ne_nil]
  have hall : (Nat.toDigits 10 n).all Char.isDigit = true := by
    rw [List.all_eq_true]
    exact fun c hc => Nat.isDigit_of_mem_toDigits (by decide) (by decide) hc
  simp [digits?, hne, hall, Nat.ofDigitChars_toDigits]

/-- A digit string does not start with a sign. -/
theorem stripPrefix_sign_toDigits (sign : Char) (hs : sign.isDigit = false) (n : Nat) :
    stripPrefix [sign] (Nat.toDigits 10 n) = none := by
  cases h : Nat.toDigits 10 n with
  | nil => exact absurd h Nat.toDigits_ne_nil
  | cons c cs =>
      have hc : c.isDigit = true :=
        Nat.isDigit_of_mem_toDigits (b := 10) (n := n) (by decide) (by decide)
          (by rw [h]; exact List.mem_cons_self)
      have : sign ≠ c := by rintro rfl; simp [hs] at hc
      simp [stripPrefix, this]

/-- Printing and parsing an `i64` is the identity. -/
theorem parseI64_i64ToString {n : Int} (hlo : -9223372036854775808 ≤ n)
    (hhi : n < 9223372036854775808) :
    parseI64 (i64ToString n) = some n := by
  cases n with
  | ofNat n =>
      have hn : n < 9223372036854775808 := by
        have : (n : Int) < 9223372036854775808 := hhi
        omega
      have hminus := stripPrefix_sign_toDigits '-' (by decide) n
      have hplus := stripPrefix_sign_toDigits '+' (by decide) n
      simp only [i64ToString, parseI64, hminus, hplus, Option.getD_none, digits?_toDigits,
        Option.bind_some, if_pos hn, Int.ofNat_eq_natCast]
  | negSucc n =>
      have hn : n + 1 ≤ 9223372036854775808 := by
        have : -(9223372036854775808 : Int) ≤ Int.negSucc n := hlo
        omega
      have hstrip : stripPrefix ['-'] (i64ToString (Int.negSucc n)) =
          some (Nat.toDigits 10 (n + 1)) := rfl
      simp only [parseI64, hstrip, digits?_toDigits, Option.bind_some, if_pos hn]
      rfl

end Llmenv.Lib.Text
