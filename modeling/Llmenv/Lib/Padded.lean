/-
# `Llmenv.Lib.Padded` — numbers of a fixed width sort as texts

A number is printed with zeros in front up to a width.  Texts of one width sort
like their numbers (`padded_lt_iff`), so a record of such fields, each with a
separator behind it, sorts by its fields from the left (`padded_append_lt_iff`).
-/
import Mathlib.Data.Char
import Mathlib.Data.List.Lex
import Mathlib.Tactic.Ring

namespace Llmenv.Lib.Padded

section Append

variable {α : Type} [LT α]

/-- Lists that start with parts of one length are compared there first. -/
theorem append_lt_append_iff {x y : List α} :
    ∀ {a b : List α}, a.length = b.length → (a ++ x < b ++ y ↔ a < b ∨ a = b ∧ x < y)
  | [], [], _ => by simp
  | c :: a, d :: b, h => by
      have hrest := append_lt_append_iff (x := x) (y := y) (Nat.succ.inj h)
      simp only [List.cons_append, List.cons_lt_cons_iff, hrest, List.cons.injEq]
      constructor
      · rintro (hlt | ⟨rfl, hlt | ⟨rfl, hlt⟩⟩)
        · exact .inl (.inl hlt)
        · exact .inl (.inr ⟨rfl, hlt⟩)
        · exact .inr ⟨⟨rfl, rfl⟩, hlt⟩
      · rintro ((hlt | ⟨rfl, hlt⟩) | ⟨⟨rfl, rfl⟩, hlt⟩)
        · exact .inl hlt
        · exact .inr ⟨rfl, .inl hlt⟩
        · exact .inr ⟨rfl, .inr ⟨rfl, hlt⟩⟩

end Append

/-- `format!("{n:0width$}")`. -/
def padded (width n : Nat) : List Char := List.leftpad width '0' (Nat.toDigits 10 n)

theorem padded_one {n : Nat} (h : n < 10) : padded 1 n = [n.digitChar] := by
  rw [padded, Nat.toDigits_of_lt_base h]
  rfl

/-- One digit more is the last one. -/
theorem padded_succ (width n : Nat) :
    padded (width + 2) n = padded (width + 1) (n / 10) ++ [(n % 10).digitChar] := by
  by_cases h : n < 10
  · rw [padded, padded, Nat.div_eq_of_lt h, Nat.mod_eq_of_lt h, Nat.toDigits_of_lt_base h,
      Nat.toDigits_zero]
    simp [List.leftpad, List.replicate_succ']
  · have hle : 10 ≤ n := Nat.le_of_not_lt h
    rw [padded, padded, Nat.toDigits_of_base_le (by decide) hle]
    simp [List.leftpad]

theorem length_padded : ∀ {width n : Nat}, n < 10 ^ (width + 1) →
    (padded (width + 1) n).length = width + 1
  | 0, n, h => by rw [padded_one (by simpa using h)]; rfl
  | width + 1, n, h => by
      have hdiv : n / 10 < 10 ^ (width + 1) := Nat.div_lt_of_lt_mul (by rw [pow_succ] at h; omega)
      rw [padded_succ, List.length_append, length_padded hdiv]
      rfl

theorem digitChar_lt_iff {m n : Nat} (hm : m < 10) (hn : n < 10) :
    m.digitChar < n.digitChar ↔ m < n := by
  have hall : ∀ m n : Fin 10, m.val.digitChar < n.val.digitChar ↔ m.val < n.val := by decide
  exact hall ⟨m, hm⟩ ⟨n, hn⟩

theorem eq_iff_of_lt_iff {text : Nat → List Char} {m n : Nat} (h : text m < text n ↔ m < n)
    (h' : text n < text m ↔ n < m) : text m = text n ↔ m = n := by
  refine ⟨fun heq => ?_, congrArg text⟩
  rcases Nat.lt_trichotomy m n with hlt | heq' | hlt
  · exact absurd (h.mpr hlt) (heq ▸ List.lt_irrefl _)
  · exact heq'
  · exact absurd (h'.mpr hlt) (heq ▸ List.lt_irrefl _)

/-- Texts of one width sort like their numbers. -/
theorem padded_lt_iff : ∀ {width m n : Nat}, m < 10 ^ (width + 1) → n < 10 ^ (width + 1) →
    (padded (width + 1) m < padded (width + 1) n ↔ m < n)
  | 0, m, n, hm, hn => by
      have hm' : m < 10 := by simpa using hm
      have hn' : n < 10 := by simpa using hn
      rw [padded_one hm', padded_one hn', List.cons_lt_cons_iff, digitChar_lt_iff hm' hn']
      simp
  | width + 1, m, n, hm, hn => by
      have hm' : m / 10 < 10 ^ (width + 1) := Nat.div_lt_of_lt_mul (by rw [pow_succ] at hm; omega)
      have hn' : n / 10 < 10 ^ (width + 1) := Nat.div_lt_of_lt_mul (by rw [pow_succ] at hn; omega)
      have hlen : (padded (width + 1) (m / 10)).length = (padded (width + 1) (n / 10)).length := by
        rw [length_padded hm', length_padded hn']
      have hlast : [(m % 10).digitChar] < [(n % 10).digitChar] ↔ m % 10 < n % 10 := by
        rw [List.cons_lt_cons_iff,
          digitChar_lt_iff (Nat.mod_lt _ (by decide)) (Nat.mod_lt _ (by decide))]
        simp
      rw [padded_succ, padded_succ, append_lt_append_iff hlen, padded_lt_iff hm' hn',
        eq_iff_of_lt_iff (padded_lt_iff hm' hn') (padded_lt_iff hn' hm'), hlast]
      omega

theorem padded_inj {width m n : Nat} (hm : m < 10 ^ (width + 1)) (hn : n < 10 ^ (width + 1)) :
    padded (width + 1) m = padded (width + 1) n ↔ m = n :=
  eq_iff_of_lt_iff (padded_lt_iff hm hn) (padded_lt_iff hn hm)

/-- A field with a separator behind it is compared before the rest. -/
theorem padded_append_lt_iff {width m n : Nat} {sep : Char} {x y : List Char}
    (hm : m < 10 ^ (width + 1)) (hn : n < 10 ^ (width + 1)) :
    padded (width + 1) m ++ sep :: x < padded (width + 1) n ++ sep :: y ↔
      m < n ∨ m = n ∧ x < y := by
  have hlen : (padded (width + 1) m).length = (padded (width + 1) n).length := by
    rw [length_padded hm, length_padded hn]
  rw [append_lt_append_iff hlen, padded_lt_iff hm hn, padded_inj hm hn, List.cons_lt_cons_iff]
  simp

end Llmenv.Lib.Padded
