/-
# `Llmenv.Lib.Separated` — what stands between separators

Parts that are joined by a separator can be told apart when they do not have it:
the first part and the last one are found in the joined list.  The decimal
digits of a number are such a part: different numbers have different digits, and
a trim does not change them.
-/
import Llmenv.Lib.Text

namespace Llmenv.Lib.Separated

section Parts

variable {α : Type} {sep : α}

/-- What stands in front of the first separator. -/
theorem first_part_inj {xs ys ds es : List α} (hds : sep ∉ ds) (hes : sep ∉ es)
    (h : ds ++ sep :: xs = es ++ sep :: ys) : ds = es ∧ xs = ys := by
  induction ds generalizing es with
  | nil =>
      cases es with
      | nil => exact ⟨rfl, (List.cons.inj h).2⟩
      | cons e es => exact absurd ((List.cons.inj h).1 ▸ List.mem_cons_self) hes
  | cons d ds ih =>
      cases es with
      | nil => exact absurd ((List.cons.inj h).1 ▸ List.mem_cons_self) hds
      | cons e es =>
          obtain ⟨rfl, hrest⟩ := List.cons.inj h
          obtain ⟨rfl, hxy⟩ := ih (fun hm => hds (List.mem_cons_of_mem _ hm))
            (fun hm => hes (List.mem_cons_of_mem _ hm)) hrest
          exact ⟨rfl, hxy⟩

/-- What stands behind the last separator. -/
theorem last_part_inj {xs ys ds es : List α} (hds : sep ∉ ds) (hes : sep ∉ es)
    (h : xs ++ sep :: ds = ys ++ sep :: es) : xs = ys ∧ ds = es := by
  have hrev : ds.reverse ++ sep :: xs.reverse = es.reverse ++ sep :: ys.reverse := by
    simpa using congrArg List.reverse h
  obtain ⟨hde, hxy⟩ := first_part_inj (by simpa using hds) (by simpa using hes) hrev
  exact ⟨List.reverse_inj.mp hxy, List.reverse_inj.mp hde⟩

end Parts

/-! ## Decimal digits -/

theorem toDigits_inj {m n : Nat} (h : Nat.toDigits 10 m = Nat.toDigits 10 n) : m = n := by
  rw [← Nat.ofDigitChars_toDigits (n := m) (b := 10) (by decide) (by decide), h,
    Nat.ofDigitChars_toDigits (by decide) (by decide)]

theorem notMem_toDigits {c : Char} (hc : c.isDigit = false) (n : Nat) :
    c ∉ Nat.toDigits 10 n := by
  intro h
  have hdigit := Nat.isDigit_of_mem_toDigits (by decide) (by decide) h
  rw [hc] at hdigit
  exact absurd hdigit (by simp)

/-! ## Digits and white space -/

theorem isWhitespace_of_isDigit {c : Char} (h : c.isDigit = true) :
    Text.isWhitespace c = false := by
  obtain ⟨hlo, hhi⟩ : 48 ≤ c.toNat ∧ c.toNat ≤ 57 := by
    simpa [Char.isDigit, UInt32.le_iff_toNat_le] using h
  simp only [Text.isWhitespace]
  grind

theorem dropWhile_isWhitespace {cs : List Char} (h : ∀ c ∈ cs, Text.isWhitespace c = false) :
    cs.dropWhile Text.isWhitespace = cs := by
  cases cs with
  | nil => rfl
  | cons c cs => simp [h c List.mem_cons_self]

theorem trim_eq_self {cs : List Char} (h : ∀ c ∈ cs, Text.isWhitespace c = false) :
    Text.trim cs = cs := by
  rw [Text.trim, dropWhile_isWhitespace h, dropWhile_isWhitespace (by simpa using h),
    List.reverse_reverse]

theorem isWhitespace_of_mem_toDigits {n : Nat} {c : Char} (h : c ∈ Nat.toDigits 10 n) :
    Text.isWhitespace c = false :=
  isWhitespace_of_isDigit (Nat.isDigit_of_mem_toDigits (by decide) (by decide) h)

theorem trim_toDigits (n : Nat) : Text.trim (Nat.toDigits 10 n) = Nat.toDigits 10 n :=
  trim_eq_self fun _ => isWhitespace_of_mem_toDigits

theorem trim_i64ToString (n : Int) : Text.trim (Text.i64ToString n) = Text.i64ToString n := by
  cases n with
  | ofNat n => exact trim_toDigits n
  | negSucc n =>
      apply trim_eq_self
      intro c hc
      rcases List.mem_cons.mp hc with rfl | hc
      · decide
      · exact isWhitespace_of_mem_toDigits hc

end Llmenv.Lib.Separated
