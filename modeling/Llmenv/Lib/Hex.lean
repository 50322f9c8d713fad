/-
# `Llmenv.Lib.Hex` — numbers in base sixteen

A digit is read in either case and written in lower case.  Numbers of a fixed
width are written with zeros in front (`{:04x}`), and `hexNumber?_hexPadded`
reads them back.
-/
import Mathlib.Data.List.Basic
import Mathlib.Tactic.IntervalCases

namespace Llmenv.Lib.Text

/-- `char::to_digit(16)`. -/
def hexVal (c : Char) : Option Nat :=
  if 0x30 ≤ c.toNat ∧ c.toNat ≤ 0x39 then some (c.toNat - 0x30)
  else if 0x61 ≤ c.toNat ∧ c.toNat ≤ 0x66 then some (c.toNat - 0x57)
  else if 0x41 ≤ c.toNat ∧ c.toNat ≤ 0x46 then some (c.toNat - 0x37)
  else none

/-- `char::is_ascii_hexdigit`. -/
def isAsciiHexdigit (c : Char) : Bool := (hexVal c).isSome

/-- The digits `cs` behind a number `acc`. -/
def hexNumber? : Nat → List Char → Option Nat
  | acc, [] => some acc
  | acc, c :: cs => (hexVal c).bind fun d => hexNumber? (16 * acc + d) cs

/-- `format!` with `:0kx`. -/
def hexPadded (k n : Nat) : List Char := (Nat.toDigits 16 n).leftpad k '0'

/-! ## One digit -/

theorem hexVal_cases {c : Char} {d : Nat} (h : hexVal c = some d) :
    d < 16 ∧ (c.toNat = 0x30 + d ∧ d < 10 ∨ c.toNat = 0x57 + d ∧ 10 ≤ d ∨
      c.toNat = 0x37 + d ∧ 10 ≤ d) := by
  unfold hexVal at h
  split at h
  · have := Option.some.inj h
    omega
  · split at h
    · have := Option.some.inj h
      omega
    · split at h
      · have := Option.some.inj h
        omega
      · exact absurd h (by simp)

theorem hexVal_lt {c : Char} {d : Nat} (h : hexVal c = some d) : d < 16 := (hexVal_cases h).1

theorem hexVal_digitChar {d : Nat} (h : d < 16) : hexVal d.digitChar = some d := by
  interval_cases d <;> rfl

/-- A digit in lower case is the way its value is written. -/
theorem toLower_of_hexVal {c : Char} {d : Nat} (h : hexVal c = some d) :
    c.toLower = d.digitChar := by
  obtain ⟨hd, hc⟩ := hexVal_cases h
  have hof : c = Char.ofNat c.toNat := (Char.ofNat_toNat c).symm
  rcases hc with ⟨hc, hlo⟩ | ⟨hc, hlo⟩ | ⟨hc, hlo⟩
  all_goals
    rw [hof, hc]
    interval_cases d <;> rfl

/-! ## Several digits -/

theorem hexNumber?_append (acc : Nat) (xs ys : List Char) :
    hexNumber? acc (xs ++ ys) = (hexNumber? acc xs).bind fun n => hexNumber? n ys := by
  induction xs generalizing acc with
  | nil => rfl
  | cons c xs ih =>
      rw [List.cons_append, hexNumber?, hexNumber?, Option.bind_assoc]
      exact congrArg _ (funext fun d => ih _)

theorem hexNumber?_toDigits (n : Nat) : hexNumber? 0 (Nat.toDigits 16 n) = some n := by
  induction n using Nat.strongRecOn with
  | ind n ih =>
      by_cases hn : n < 16
      · rw [Nat.toDigits_of_lt_base hn, hexNumber?, hexVal_digitChar hn]
        simp [hexNumber?]
      · rw [Nat.toDigits_of_base_le (by omega) (by omega), hexNumber?_append, ih (n / 16) (by omega),
          Option.bind_some, hexNumber?, hexVal_digitChar (Nat.mod_lt n (by omega)),
          Option.bind_some, hexNumber?, Nat.div_add_mod]

theorem hexNumber?_zeros (k : Nat) (cs : List Char) :
    hexNumber? 0 (List.replicate k '0' ++ cs) = hexNumber? 0 cs := by
  induction k with
  | zero => rfl
  | succ k ih =>
      rw [List.replicate_succ, List.cons_append, hexNumber?]
      exact ih

theorem hexNumber?_hexPadded (k n : Nat) : hexNumber? 0 (hexPadded k n) = some n := by
  rw [hexPadded, List.leftpad, hexNumber?_zeros, hexNumber?_toDigits]

/-- A number that fits is written in the full width and no more. -/
theorem length_hexPadded {k n : Nat} (hk : 0 < k) (hn : n < 16 ^ k) : (hexPadded k n).length = k := by
  have hle := (Nat.length_toDigits_le_iff (by omega : 1 < 16) hk).mpr hn
  rw [hexPadded, List.length_leftpad]
  omega

/-- Two digits in full. -/
theorem hexPadded_two {x y : Nat} (hx : x < 16) (hy : y < 16) :
    hexPadded 2 (16 * x + y) = [x.digitChar, y.digitChar] := by
  cases x with
  | zero =>
      rw [Nat.mul_zero, Nat.zero_add, hexPadded, Nat.toDigits_of_lt_base hy]
      rfl
  | succ x =>
      rw [hexPadded, ← Nat.toDigits_append_toDigits (by omega) (Nat.succ_pos x) hy,
        Nat.toDigits_of_lt_base hx, Nat.toDigits_of_lt_base hy]
      rfl

/-- What reads as a number is made of digits. -/
theorem isAsciiHexdigit_of_hexNumber? {acc n : Nat} {cs : List Char}
    (h : hexNumber? acc cs = some n) : ∀ c ∈ cs, isAsciiHexdigit c = true := by
  induction cs generalizing acc with
  | nil => simp
  | cons c cs ih =>
      obtain ⟨d, hd, hrest⟩ := Option.bind_eq_some_iff.mp h
      refine List.forall_mem_cons.mpr ⟨?_, ih hrest⟩
      rw [isAsciiHexdigit, hd]
      rfl

end Llmenv.Lib.Text
