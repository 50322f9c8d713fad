/-
# `Llmenv.Lib.JsonText` — the texts that are JSON, and how they end

The grammar of RFC 8259 over lists of characters.  A text cut short is not JSON
when the whole of it is an object (`Is.not_isJson_of_cut`).

The grammar is ambiguous about where lists split, so the proof does not take
derivations apart.  It counts: a scanner goes over the text with the number of
open brackets and whether it is inside of a string.  Every part of the grammar
brings the scanner back to where it was and never below (`Is.balanced`), so the
brackets of an object are all closed at its end and not before.
-/
import Mathlib.Data.List.Basic

namespace Llmenv.Lib.JsonText

/-! ## The grammar -/

/-- `ws`. -/
def Blank (cs : List Char) : Prop := ∀ c ∈ cs, c ∈ [' ', '\t', '\n', '\r']

/-- One digit or more. -/
def Digits (cs : List Char) : Prop := cs ≠ [] ∧ ∀ c ∈ cs, c.isDigit = true

/-- `int`, without the sign. -/
def Whole (cs : List Char) : Prop := cs = ['0'] ∨ cs.head? ≠ some '0' ∧ Digits cs

/-- `frac`. -/
def Fraction (cs : List Char) : Prop := ∃ ds, Digits ds ∧ cs = '.' :: ds

/-- `exp`. -/
def Exponent (cs : List Char) : Prop :=
  ∃ e sign ds, e ∈ ['e', 'E'] ∧ sign ∈ [[], ['+'], ['-']] ∧ Digits ds ∧ cs = e :: (sign ++ ds)

/-- `number`. -/
def IsNumber (cs : List Char) : Prop :=
  ∃ sign whole fraction exponent, sign ∈ [[], ['-']] ∧ Whole whole ∧
    (fraction = [] ∨ Fraction fraction) ∧ (exponent = [] ∨ Exponent exponent) ∧
    cs = sign ++ whole ++ fraction ++ exponent

def isHex (c : Char) : Bool := c.isDigit || ('a' ≤ c && c ≤ 'f') || ('A' ≤ c && c ≤ 'F')

/-- The characters between the quotes. -/
inductive Inside : List Char → Prop
  | nil : Inside []
  | plain {c : Char} {cs : List Char} : c ≠ '"' → c ≠ '\\' → ' ' ≤ c → Inside cs → Inside (c :: cs)
  | escape {c : Char} {cs : List Char} : c ∈ ['"', '\\', '/', 'b', 'f', 'n', 'r', 't'] →
      Inside cs → Inside ('\\' :: c :: cs)
  | unicode {a b c d : Char} {cs : List Char} : isHex a = true → isHex b = true →
      isHex c = true → isHex d = true → Inside cs → Inside ('\\' :: 'u' :: a :: b :: c :: d :: cs)

/-- `string`. -/
def Quoted (cs : List Char) : Prop := ∃ body, Inside body ∧ cs = '"' :: (body ++ ['"'])

inductive Part where
  | value
  | object
  | elements
  | members

/-- The text is such a part of a JSON text. -/
inductive Is : Part → List Char → Prop
  | null : Is .value ['n', 'u', 'l', 'l']
  | yes : Is .value ['t', 'r', 'u', 'e']
  | no : Is .value ['f', 'a', 'l', 's', 'e']
  | number {cs : List Char} : IsNumber cs → Is .value cs
  | string {cs : List Char} : Quoted cs → Is .value cs
  | emptyArray {w : List Char} : Blank w → Is .value ('[' :: (w ++ [']']))
  | array {cs : List Char} : Is .elements cs → Is .value ('[' :: (cs ++ [']']))
  | object {cs : List Char} : Is .object cs → Is .value cs
  | emptyObject {w : List Char} : Blank w → Is .object ('{' :: (w ++ ['}']))
  | fields {cs : List Char} : Is .members cs → Is .object ('{' :: (cs ++ ['}']))
  | element {a v b : List Char} : Blank a → Is .value v → Blank b → Is .elements (a ++ v ++ b)
  | elements {xs ys : List Char} : Is .elements xs → Is .elements ys →
      Is .elements (xs ++ ',' :: ys)
  | member {a k b c v d : List Char} : Blank a → Quoted k → Blank b → Blank c → Is .value v →
      Blank d → Is .members (a ++ k ++ b ++ ':' :: (c ++ v ++ d))
  | members {xs ys : List Char} : Is .members xs → Is .members ys → Is .members (xs ++ ',' :: ys)

/-- `JSON-text`. -/
def IsJson (cs : List Char) : Prop :=
  ∃ a v b, Blank a ∧ Is .value v ∧ Blank b ∧ cs = a ++ v ++ b

/-! ## The scanner -/

inductive Mode where
  | plain
  | quoted
  | escaped
deriving DecidableEq

structure Scan where
  depth : Nat
  mode : Mode
deriving DecidableEq

def step (s : Scan) (c : Char) : Scan :=
  match s.mode with
  | .plain =>
      if c = '"' then ⟨s.depth, .quoted⟩
      else if c ∈ ['{', '['] then ⟨s.depth + 1, .plain⟩
      else if c ∈ ['}', ']'] then ⟨s.depth - 1, .plain⟩
      else ⟨s.depth, .plain⟩
  | .quoted =>
      if c = '"' then ⟨s.depth, .plain⟩
      else if c = '\\' then ⟨s.depth, .escaped⟩
      else ⟨s.depth, .quoted⟩
  | .escaped => ⟨s.depth, .quoted⟩

def scan (s : Scan) (cs : List Char) : Scan := cs.foldl step s

theorem scan_cons (s : Scan) (c : Char) (cs : List Char) : scan s (c :: cs) = scan (step s c) cs :=
  rfl

theorem scan_append (s : Scan) (xs ys : List Char) : scan s (xs ++ ys) = scan (scan s xs) ys :=
  List.foldl_append

/-- Wherever the text is cut, the scanner is not below `d`. -/
def Above (d : Nat) (s : Scan) (cs : List Char) : Prop := ∀ n, d ≤ (scan s (cs.take n)).depth

theorem above_nil {d : Nat} {s : Scan} (h : d ≤ s.depth) : Above d s [] := by
  intro n
  rw [List.take_nil]
  exact h

theorem above_cons {d : Nat} {s : Scan} {c : Char} {cs : List Char} (h : d ≤ s.depth)
    (hcs : Above d (step s c) cs) : Above d s (c :: cs) := by
  intro n
  cases n with
  | zero => exact h
  | succ n => exact hcs n

theorem above_append {d : Nat} {s : Scan} {xs ys : List Char} (hx : Above d s xs)
    (hy : Above d (scan s xs) ys) : Above d s (xs ++ ys) := by
  intro n
  rw [List.take_append, scan_append]
  rcases Nat.le_total n xs.length with hle | hle
  · rw [Nat.sub_eq_zero_of_le hle, List.take_zero]
    exact hx n
  · rw [List.take_of_length_le hle]
    exact hy _

/-- The text brings the scanner back to where it was, and never below. -/
structure Stays (mode : Mode) (cs : List Char) : Prop where
  back : ∀ d, scan ⟨d, mode⟩ cs = ⟨d, mode⟩
  above : ∀ d, Above d ⟨d, mode⟩ cs

/-- The same outside of strings. -/
abbrev Balanced (cs : List Char) : Prop := Stays .plain cs

theorem stays_nil {mode : Mode} : Stays mode [] := ⟨fun _ => rfl, fun _ => above_nil (Nat.le_refl _)⟩

theorem Stays.append {mode : Mode} {xs ys : List Char} (hx : Stays mode xs) (hy : Stays mode ys) :
    Stays mode (xs ++ ys) := by
  constructor
  · intro d
    rw [scan_append, hx.back, hy.back]
  · intro d
    refine above_append (hx.above d) ?_
    rw [hx.back]
    exact hy.above d

theorem Stays.cons {mode : Mode} {c : Char} {cs : List Char}
    (hc : ∀ d, step ⟨d, mode⟩ c = ⟨d, mode⟩) (h : Stays mode cs) : Stays mode (c :: cs) := by
  constructor
  · intro d
    rw [scan_cons, hc, h.back]
  · intro d
    refine above_cons (Nat.le_refl _) ?_
    rw [hc]
    exact h.above d

/-- Not a quote and not a bracket. -/
def neutral (c : Char) : Bool := !(['"', '{', '}', '[', ']'].contains c)

theorem balanced_cons {c : Char} {cs : List Char} (hc : neutral c = true) (h : Balanced cs) :
    Balanced (c :: cs) := by
  refine h.cons fun d => ?_
  simp only [neutral, List.contains_cons, List.contains_nil, Bool.or_false, Bool.not_or,
    Bool.and_eq_true, Bool.not_eq_true', beq_eq_false_iff_ne] at hc
  obtain ⟨hquote, hbrace, hbrace', hbracket, hbracket'⟩ := hc
  simp [step, hquote, hbrace, hbrace', hbracket, hbracket']

theorem balanced_of_neutral {cs : List Char} (h : ∀ c ∈ cs, neutral c = true) : Balanced cs := by
  induction cs with
  | nil => exact stays_nil
  | cons c cs ih =>
      exact balanced_cons (h c List.mem_cons_self) (ih fun b hb => h b (List.mem_cons_of_mem _ hb))

/-- Between brackets the scanner is one higher. -/
theorem above_wrap {o c : Char} {cs : List Char} (ho : ∀ d, step ⟨d, .plain⟩ o = ⟨d + 1, .plain⟩)
    (h : Balanced cs) (d n : Nat) (hpos : 0 < n) (hn : n < (o :: (cs ++ [c])).length) :
    d + 1 ≤ (scan ⟨d, .plain⟩ ((o :: (cs ++ [c])).take n)).depth := by
  obtain ⟨m, rfl⟩ := Nat.exists_eq_succ_of_ne_zero (Nat.ne_of_gt hpos)
  rw [List.length_cons, List.length_append, List.length_singleton] at hn
  rw [List.take_succ_cons, scan_cons, ho, List.take_append_of_le_length (by omega)]
  exact h.above (d + 1) m

theorem scan_wrap {o c : Char} {cs : List Char} (ho : ∀ d, step ⟨d, .plain⟩ o = ⟨d + 1, .plain⟩)
    (hc : ∀ d, step ⟨d + 1, .plain⟩ c = ⟨d, .plain⟩) (h : Balanced cs) (d : Nat) :
    scan ⟨d, .plain⟩ (o :: (cs ++ [c])) = ⟨d, .plain⟩ := by
  rw [scan_cons, ho, scan_append, h.back]
  exact hc d

theorem balanced_wrap {o c : Char} {cs : List Char} (ho : ∀ d, step ⟨d, .plain⟩ o = ⟨d + 1, .plain⟩)
    (hc : ∀ d, step ⟨d + 1, .plain⟩ c = ⟨d, .plain⟩) (h : Balanced cs) :
    Balanced (o :: (cs ++ [c])) := by
  refine ⟨scan_wrap ho hc h, fun d n => ?_⟩
  rcases Nat.eq_zero_or_pos n with rfl | hpos
  · exact Nat.le_refl _
  · rcases Nat.lt_or_ge n (o :: (cs ++ [c])).length with hlt | hge
    · exact Nat.le_of_succ_le (above_wrap ho h d n hpos hlt)
    · exact Nat.le_of_eq (by rw [List.take_of_length_le hge, scan_wrap ho hc h])

/-! ## Every part is balanced -/

theorem neutral_of_isDigit {c : Char} (h : c.isDigit = true) : neutral c = true := by
  by_contra hnot
  have hmem : c ∈ ['"', '{', '}', '[', ']'] := by
    rw [neutral, Bool.not_eq_true, Bool.not_eq_false'] at hnot
    exact List.contains_iff_mem.mp hnot
  have hall : ∀ b ∈ ['"', '{', '}', '[', ']'], (!b.isDigit) = true := List.all_eq_true.mp rfl
  exact absurd (hall c hmem) (by rw [h]; decide)

theorem Digits.neutral {cs : List Char} (h : Digits cs) : ∀ c ∈ cs, neutral c = true :=
  fun c hc => neutral_of_isDigit (h.2 c hc)

theorem Blank.neutral {cs : List Char} (h : Blank cs) : ∀ c ∈ cs, neutral c = true := by
  have hall : ∀ c ∈ [' ', '\t', '\n', '\r'], JsonText.neutral c = true :=
    List.all_eq_true.mp rfl
  exact fun c hc => hall c (h c hc)

theorem Blank.balanced {cs : List Char} (h : Blank cs) : Balanced cs := balanced_of_neutral h.neutral

theorem Whole.digits {cs : List Char} (h : Whole cs) : Digits cs := by
  rcases h with rfl | ⟨-, h⟩
  · exact ⟨by decide, List.all_eq_true.mp rfl⟩
  · exact h

theorem Fraction.balanced {cs : List Char} (h : Fraction cs) : Balanced cs := by
  obtain ⟨ds, hds, rfl⟩ := h
  exact balanced_cons (by decide) (balanced_of_neutral hds.neutral)

theorem Exponent.balanced {cs : List Char} (h : Exponent cs) : Balanced cs := by
  obtain ⟨e, sign, ds, he, hsign, hds, rfl⟩ := h
  have hexp : ∀ e ∈ ['e', 'E'], neutral e = true := List.all_eq_true.mp rfl
  have hsigns : ∀ sign ∈ [[], ['+'], ['-']], sign.all neutral = true := List.all_eq_true.mp rfl
  exact balanced_cons (hexp e he)
    ((balanced_of_neutral (List.all_eq_true.mp (hsigns sign hsign))).append (balanced_of_neutral hds.neutral))

theorem balanced_of_or {P : List Char → Prop} {cs : List Char} (hP : ∀ {cs}, P cs → Balanced cs)
    (h : cs = [] ∨ P cs) : Balanced cs := by
  rcases h with rfl | h
  · exact stays_nil
  · exact hP h

theorem IsNumber.balanced {cs : List Char} (h : IsNumber cs) : Balanced cs := by
  obtain ⟨sign, whole, fraction, exponent, hsign, hwhole, hfraction, hexponent, rfl⟩ := h
  have hsigns : ∀ sign ∈ [[], ['-']], sign.all neutral = true := List.all_eq_true.mp rfl
  have hfront := (balanced_of_neutral (List.all_eq_true.mp (hsigns sign hsign))).append
    (balanced_of_neutral hwhole.digits.neutral)
  exact (hfront.append (balanced_of_or Fraction.balanced hfraction)).append
    (balanced_of_or Exponent.balanced hexponent)

theorem stays_plain {c : Char} {cs : List Char} (hquote : c ≠ '"') (hslash : c ≠ '\\')
    (h : Stays .quoted cs) : Stays .quoted (c :: cs) :=
  h.cons fun d => by simp [step, hquote, hslash]

theorem stays_escape {c : Char} {cs : List Char} (h : Stays .quoted cs) :
    Stays .quoted ('\\' :: c :: cs) := by
  constructor
  · intro d
    exact h.back d
  · intro d
    exact above_cons (Nat.le_refl _) (above_cons (Nat.le_refl _) (h.above d))

theorem stays_hex {c : Char} {cs : List Char} (hc : isHex c = true) (h : Stays .quoted cs) :
    Stays .quoted (c :: cs) := by
  refine stays_plain ?_ ?_ h
  · rintro rfl
    exact absurd hc (by decide)
  · rintro rfl
    exact absurd hc (by decide)

/-- The text between quotes leaves the scanner where it is. -/
theorem Inside.stays {cs : List Char} (h : Inside cs) : Stays .quoted cs := by
  induction h with
  | nil => exact stays_nil
  | plain hquote hslash _ _ ih => exact stays_plain hquote hslash ih
  | escape _ _ ih => exact stays_escape ih
  | unicode ha hb hc hd _ ih =>
      exact stays_escape (stays_hex ha (stays_hex hb (stays_hex hc (stays_hex hd ih))))

theorem Quoted.balanced {cs : List Char} (h : Quoted cs) : Balanced cs := by
  obtain ⟨body, hbody, rfl⟩ := h
  have hstays := hbody.stays
  constructor
  · intro d
    show scan ⟨d, .quoted⟩ (body ++ ['"']) = _
    rw [scan_append, hstays.back]
    rfl
  · intro d
    refine above_cons (Nat.le_refl _) (above_append (hstays.above d) ?_)
    show Above d (scan ⟨d, .quoted⟩ body) ['"']
    rw [hstays.back]
    exact above_cons (Nat.le_refl _) (above_nil (Nat.le_refl _))

theorem Is.balanced {part : Part} {cs : List Char} (h : Is part cs) : Balanced cs := by
  induction h with
  | null => exact balanced_of_neutral (List.all_eq_true.mp rfl)
  | yes => exact balanced_of_neutral (List.all_eq_true.mp rfl)
  | no => exact balanced_of_neutral (List.all_eq_true.mp rfl)
  | number h => exact h.balanced
  | string h => exact h.balanced
  | emptyArray hw => exact balanced_wrap (fun _ => rfl) (fun _ => rfl) hw.balanced
  | array _ ih => exact balanced_wrap (fun _ => rfl) (fun _ => rfl) ih
  | object _ ih => exact ih
  | emptyObject hw => exact balanced_wrap (fun _ => rfl) (fun _ => rfl) hw.balanced
  | fields _ ih => exact balanced_wrap (fun _ => rfl) (fun _ => rfl) ih
  | element ha _ hb ih => exact (ha.balanced.append ih).append hb.balanced
  | elements _ _ ihx ihy => exact ihx.append (balanced_cons (by decide) ihy)
  | member ha hk hb hc _ hd ih =>
      have hfront := (ha.balanced.append hk.balanced).append hb.balanced
      exact hfront.append (balanced_cons (by decide) ((hc.balanced.append ih).append hd.balanced))
  | members _ _ ihx ihy => exact ihx.append (balanced_cons (by decide) ihy)

/-! ## An object ends at its last bracket -/

/-- An object is balanced text between braces. -/
theorem Is.braces {cs : List Char} (h : Is .object cs) :
    ∃ body, Balanced body ∧ cs = '{' :: (body ++ ['}']) := by
  cases h with
  | emptyObject hw => exact ⟨_, hw.balanced, rfl⟩
  | fields h => exact ⟨_, h.balanced, rfl⟩

theorem IsNumber.head {cs : List Char} (h : IsNumber cs) :
    ∃ c, cs.head? = some c ∧ (c = '-' ∨ c.isDigit = true) := by
  obtain ⟨sign, whole, fraction, exponent, hsign, hwhole, -, -, rfl⟩ := h
  obtain ⟨hne, hdigits⟩ := hwhole.digits
  obtain ⟨c, rest, rfl⟩ := List.exists_cons_of_ne_nil hne
  rcases List.mem_cons.mp hsign with rfl | hsign
  · exact ⟨c, rfl, Or.inr (hdigits c List.mem_cons_self)⟩
  · obtain rfl := List.mem_singleton.mp hsign
    exact ⟨'-', rfl, Or.inl rfl⟩

/-- A value that starts with a brace is an object. -/
theorem Is.object_of_head {cs : List Char} (h : Is .value cs) (hhead : cs.head? = some '{') :
    Is .object cs := by
  cases h with
  | null => exact absurd hhead (by decide)
  | yes => exact absurd hhead (by decide)
  | no => exact absurd hhead (by decide)
  | number h =>
      obtain ⟨c, hc, hfirst⟩ := h.head
      obtain rfl := Option.some.inj (hhead.symm.trans hc)
      exact absurd hfirst (by decide)
  | string h =>
      obtain ⟨body, -, rfl⟩ := h
      exact absurd (Option.some.inj hhead) (by decide)
  | emptyArray _ => exact absurd (Option.some.inj hhead) (by decide)
  | array _ => exact absurd (Option.some.inj hhead) (by decide)
  | object h => exact h

theorem Is.ne_nil {cs : List Char} (h : Is .value cs) : cs ≠ [] := by
  rintro rfl
  cases h with
  | number h =>
      obtain ⟨c, hc, -⟩ := h.head
      exact absurd hc (by simp)
  | string h =>
      obtain ⟨body, -, hshape⟩ := h
      exact absurd hshape (by simp)
  | object h =>
      obtain ⟨body, -, hshape⟩ := h.braces
      exact absurd hshape (by simp)

/-- No object goes on behind an object. -/
theorem Is.object_unique {xs ys : List Char} (hx : Is .object xs) (hy : Is .object ys)
    (h : xs <+: ys) : xs = ys := by
  obtain ⟨body, hbody, rfl⟩ := hy.braces
  obtain ⟨inner, -, hshape⟩ := hx.braces
  by_contra hne
  have hlen : xs.length < ('{' :: (body ++ ['}'])).length := by
    refine Nat.lt_of_le_of_ne h.length_le fun heq => hne (h.eq_of_length heq)
  have hpos : 0 < xs.length := by
    rw [hshape]
    exact Nat.succ_pos _
  have hopen := above_wrap (fun _ => rfl) hbody 0 xs.length hpos hlen
  rw [← List.prefix_iff_eq_take.mp h, hx.balanced.back] at hopen
  exact absurd hopen (by decide)

/-- An object that is cut short is not JSON. -/
theorem Is.not_isJson_of_cut {text cut : List Char} (h : Is .object text) (hcut : cut <+: text)
    (hne : cut ≠ text) : ¬ IsJson cut := by
  rintro ⟨a, v, b, ha, hv, -, rfl⟩
  obtain ⟨body, -, hshape⟩ := h.braces
  have hfront : a ++ v <+: text := (List.prefix_append _ b).trans hcut
  cases a with
  | cons c a =>
      rw [hshape] at hfront
      obtain rfl := (List.cons_prefix_cons.mp hfront).1
      exact absurd (ha _ List.mem_cons_self) (by decide)
  | nil =>
      rw [List.nil_append] at hfront
      have hvalue : Is .object v := by
        refine hv.object_of_head ?_
        cases v with
        | nil => exact absurd rfl hv.ne_nil
        | cons c v =>
            rw [hshape] at hfront
            rw [(List.cons_prefix_cons.mp hfront).1]
            rfl
      obtain rfl := hvalue.object_unique h hfront
      exact hne (hcut.eq_of_length_le (by simp))

end Llmenv.Lib.JsonText
