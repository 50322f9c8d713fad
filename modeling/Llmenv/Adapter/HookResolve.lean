/-
# `Llmenv.Adapter.HookResolve` — a hook command finds its files

A command is a list of words, each between its quotes and punctuation, with the
space behind it.  Both passes rewrite the middle of the words and nothing else
(`wordsOf_rewritten`), so the resolution is a function on words, and the question
is what it does to one word with a `/`.

A known file that ends the word is found, the longest one if there are several.
What can go wrong is the cache folder in front of it: the file `k` is ECHOED when
another known file is `t/k` for a tail `t` of the cache folder.
-/
import Llmenv.Adapter.HookCommand

namespace Llmenv.Adapter.HookCommand

open Llmenv.Lib

/-! ## The words of a command -/

/-- A word of a command and the space behind it. -/
structure Word where
  opening : Chars
  core : Chars
  closing : Chars
  space : Chars

def Word.ofChunk (chunk : Chars) : Word :=
  let word := chunk.rdropWhile Text.isWhitespace
  let (opening, core, closing) := splitWord word
  ⟨opening, core, closing, chunk.drop word.length⟩

def Word.text (w : Word) : Chars := w.opening ++ w.core ++ w.closing ++ w.space

def wordsOf (command : Chars) : List Word :=
  (splitInclusive Text.isWhitespace command).map Word.ofChunk

/-- A word in the middle: no quote before it and no punctuation behind it. -/
structure Solid (core : Chars) : Prop where
  nonempty : core ≠ []
  head : ∀ c, core.head? = some c → opens c = false
  last : ∀ c, core.getLast? = some c → closes c = false

theorem splitWord_eq (word : Chars) : splitWord word =
    (word.takeWhile opens, (word.dropWhile opens).rdropWhile closes,
      (word.dropWhile opens).rtakeWhile closes) := by
  have hlen : word.length - (word.dropWhile opens).length = (word.takeWhile opens).length := by
    have hsplit := congrArg List.length (List.takeWhile_append_dropWhile (p := opens) (l := word))
    rw [List.length_append] at hsplit
    omega
  have htake : word.take (word.takeWhile opens).length = word.takeWhile opens := by
    calc word.take (word.takeWhile opens).length
        = (word.takeWhile opens ++ word.dropWhile opens).take (word.takeWhile opens).length := by
          rw [List.takeWhile_append_dropWhile]
      _ = word.takeWhile opens := List.take_left
  show (word.take (word.length - (word.dropWhile opens).length), _, _) = _
  rw [hlen, htake, drop_rdropWhile]

theorem splitWord_append (word : Chars) :
    (splitWord word).1 ++ (splitWord word).2.1 ++ (splitWord word).2.2 = word := by
  rw [splitWord_eq, List.append_assoc, List.rdropWhile_append_rtakeWhile,
    List.takeWhile_append_dropWhile]

theorem solid_splitWord {word : Chars} (h : (splitWord word).2.1 ≠ []) :
    Solid (splitWord word).2.1 := by
  rw [splitWord_eq] at h ⊢
  refine ⟨h, ?_, ?_⟩
  · intro c hc
    obtain ⟨rest, hrest⟩ := List.rdropWhile_prefix closes (l := word.dropWhile opens)
    have hhead : (word.dropWhile opens).head? = some c := by
      rw [← hrest, List.head?_append, hc]
      rfl
    have hnot := List.head?_dropWhile_not opens word
    rw [hhead] at hnot
    simpa using hnot
  · intro c hc
    have hlast := List.rdropWhile_last_not closes (word.dropWhile opens) h
    rw [List.getLast?_eq_some_getLast h] at hc
    rw [Option.some.inj hc] at hlast
    simpa using hlast

theorem splitWord_rebuild {opening core closing : Chars} (ho : ∀ c ∈ opening, opens c = true)
    (hcore : Solid core) (hc : ∀ c ∈ closing, closes c = true) :
    splitWord (opening ++ core ++ closing) = (opening, core, closing) := by
  have hhead : ∃ c cs, core = c :: cs := List.exists_cons_of_ne_nil hcore.nonempty
  have hdrop : (opening ++ core ++ closing).dropWhile opens = core ++ closing := by
    rw [List.append_assoc, List.dropWhile_append_of_pos ho]
    obtain ⟨c, cs, rfl⟩ := hhead
    rw [List.cons_append, List.dropWhile_cons_of_neg]
    rw [hcore.head c rfl]
    decide
  have hcore' : core.rdropWhile closes = core := by
    refine List.rdropWhile_eq_self_iff.mpr ?_
    intro hne hlast
    rw [hcore.last _ (List.getLast?_eq_some_getLast hne)] at hlast
    exact absurd hlast (by decide)
  have hback : (core ++ closing).rdropWhile closes = core := by
    rw [List.rdropWhile, List.reverse_append,
      List.dropWhile_append_of_pos fun c h => hc c (List.mem_reverse.mp h)]
    exact hcore'
  have htake : (opening ++ core ++ closing).takeWhile opens = opening := by
    have hsplit := List.takeWhile_append_dropWhile (p := opens) (l := opening ++ core ++ closing)
    rw [hdrop] at hsplit
    exact List.append_cancel_right (hsplit.trans (List.append_assoc _ _ _))
  have hrest : (core ++ closing).rtakeWhile closes = closing := by
    have hsplit := List.rdropWhile_append_rtakeWhile (p := closes) (l := core ++ closing)
    rw [hback] at hsplit
    exact List.append_cancel_left hsplit
  rw [splitWord_eq, htake, hdrop, hback, hrest]

theorem Word.ofChunk_eq (chunk : Chars) : Word.ofChunk chunk =
    ⟨(splitWord (chunk.rdropWhile Text.isWhitespace)).1,
      (splitWord (chunk.rdropWhile Text.isWhitespace)).2.1,
      (splitWord (chunk.rdropWhile Text.isWhitespace)).2.2,
      chunk.rtakeWhile Text.isWhitespace⟩ := by
  rw [← drop_rdropWhile]
  rfl

theorem Word.text_ofChunk (chunk : Chars) : (Word.ofChunk chunk).text = chunk := by
  rw [Word.ofChunk_eq, Word.text, splitWord_append, List.rdropWhile_append_rtakeWhile]

/-- The words say the whole command. -/
theorem text_wordsOf (command : Chars) : ((wordsOf command).map Word.text).flatten = command := by
  have hmap : (wordsOf command).map Word.text = splitInclusive Text.isWhitespace command := by
    rw [wordsOf, List.map_map]
    calc (splitInclusive Text.isWhitespace command).map (Word.text ∘ Word.ofChunk)
        = (splitInclusive Text.isWhitespace command).map id :=
          List.map_congr_left fun chunk _ => Word.text_ofChunk chunk
      _ = splitInclusive Text.isWhitespace command := List.map_id _
  rw [hmap, splitInclusive_flatten]

theorem wordsOf_injective {a b : Chars} (h : wordsOf a = wordsOf b) : a = b := by
  rw [← text_wordsOf a, h, text_wordsOf]

/-! ## A rewrite, word by word -/

/-- What a rewrite does to the text of a word. -/
def rewriteWord (f : Chars → Option Chars) (word : Chars) : Chars :=
  let (opening, core, closing) := splitWord word
  match (f core).filter (fun _ => !core.isEmpty) with
  | some new => opening ++ new ++ closing
  | none => word

/-- The command with its words rewritten. -/
def rewritten (f : Chars → Option Chars) (command : Chars) : Chars :=
  ((splitInclusive Text.isWhitespace command).map
    (onWord Text.isWhitespace (rewriteWord f))).flatten

/-- The word in the middle, rewritten. -/
def Word.rewrite (f : Chars → Option Chars) (w : Word) : Word :=
  { w with core := (f w.core).getD w.core }

section

variable {f : Chars → Option Chars}

/-- The rewrite leaves the state alone. -/
def Stateless {σ : Type} (rewrite : Chars → σ → Option Chars × σ) (f : Chars → Option Chars)
    (s : σ) : Prop :=
  ∀ core, rewrite core s = (f core, s)

theorem rewriteChunk_eq {σ : Type} {rewrite : Chars → σ → Option Chars × σ} {s : σ}
    (h : Stateless rewrite f s) (changed : Bool) (result chunk : Chars) :
    ∃ changed', rewriteChunk rewrite (changed, result, s) chunk =
        (changed', result ++ onWord Text.isWhitespace (rewriteWord f) chunk, s) ∧
      (changed' = false → changed = false ∧
        onWord Text.isWhitespace (rewriteWord f) chunk = chunk) := by
  simp only [rewriteChunk, h (splitWord (chunk.rdropWhile Text.isWhitespace)).2.1, onWord,
    rewriteWord, drop_rdropWhile]
  cases (f (splitWord (chunk.rdropWhile Text.isWhitespace)).2.1).filter
      (fun _ => !(splitWord (chunk.rdropWhile Text.isWhitespace)).2.1.isEmpty) with
  | some new =>
      refine ⟨true, ?_, fun hc => absurd hc (by decide)⟩
      simp only [List.append_assoc]
  | none =>
      refine ⟨changed, ?_, fun hc => ⟨hc, List.rdropWhile_append_rtakeWhile⟩⟩
      simp only [List.append_assoc]

theorem rewriteChunks_eq {σ : Type} {rewrite : Chars → σ → Option Chars × σ} {s : σ}
    (h : Stateless rewrite f s) (chunks : List Chars) (changed : Bool) (result : Chars) :
    ∃ changed', chunks.foldl (rewriteChunk rewrite) (changed, result, s) =
        (changed', result ++ (chunks.map (onWord Text.isWhitespace (rewriteWord f))).flatten, s) ∧
      (changed' = false → changed = false ∧
        (chunks.map (onWord Text.isWhitespace (rewriteWord f))).flatten = chunks.flatten) := by
  induction chunks generalizing changed result with
  | nil => exact ⟨changed, by simp, fun hc => ⟨hc, rfl⟩⟩
  | cons chunk chunks ih =>
      obtain ⟨once, hchunk, hsame⟩ := rewriteChunk_eq h changed result chunk
      obtain ⟨last, hrest, hsames⟩ :=
        ih once (result ++ onWord Text.isWhitespace (rewriteWord f) chunk)
      refine ⟨last, ?_, ?_⟩
      · rw [List.foldl_cons, hchunk, hrest, List.map_cons, List.flatten_cons, List.append_assoc]
      · intro hlast
        obtain ⟨honce, hflat⟩ := hsames hlast
        obtain ⟨hchanged, heq⟩ := hsame honce
        exact ⟨hchanged, by rw [List.map_cons, List.flatten_cons, List.flatten_cons, heq, hflat]⟩

/-- `rewrite_words` gives the rewritten command, or nothing when that is the command. -/
theorem rewriteWords_eq {σ : Type} {rewrite : Chars → σ → Option Chars × σ} {s : σ}
    (h : Stateless rewrite f s) (command : Chars) :
    (rewriteWords command rewrite s).1.getD command = rewritten f command ∧
      (rewriteWords command rewrite s).2 = s := by
  obtain ⟨changed, hrun, hsame⟩ :=
    rewriteChunks_eq h (splitInclusive Text.isWhitespace command) false []
  rw [rewriteWords, hrun]
  refine ⟨?_, rfl⟩
  cases changed with
  | true => rfl
  | false =>
      obtain ⟨-, hflat⟩ := hsame rfl
      rw [splitInclusive_flatten] at hflat
      exact hflat.symm

/-- A rewrite that puts words in the place of words. -/
structure Keeps (f : Chars → Option Chars) : Prop where
  empty : f [] = none
  word : ∀ {core new : Chars}, f core = some new → Solid core →
    Unbroken Text.isWhitespace core → Solid new ∧ Unbroken Text.isWhitespace new

theorem unbroken_append {a b : Chars} (ha : Unbroken Text.isWhitespace a)
    (hb : Unbroken Text.isWhitespace b) : Unbroken Text.isWhitespace (a ++ b) := by
  intro c hc
  rcases List.mem_append.mp hc with hc | hc
  · exact ha c hc
  · exact hb c hc

/-- The parts of an unbroken word. -/
theorem unbroken_splitWord {word : Chars} (h : Unbroken Text.isWhitespace word) :
    Unbroken Text.isWhitespace (splitWord word).1 ∧
      Unbroken Text.isWhitespace (splitWord word).2.1 ∧
      Unbroken Text.isWhitespace (splitWord word).2.2 := by
  have hword : Unbroken Text.isWhitespace
      ((splitWord word).1 ++ (splitWord word).2.1 ++ (splitWord word).2.2) := by
    rwa [splitWord_append]
  refine ⟨fun c hc => hword c ?_, fun c hc => hword c ?_, fun c hc => hword c ?_⟩
  · exact List.mem_append_left _ (List.mem_append_left _ hc)
  · exact List.mem_append_left _ (List.mem_append_right _ hc)
  · exact List.mem_append_right _ hc

/-- A rewrite changes the middle of a word, or nothing. -/
theorem rewriteWord_cases (hf : Keeps f) {word : Chars}
    (hword : Unbroken Text.isWhitespace word) :
    (∃ new, f (splitWord word).2.1 = some new ∧ Solid new ∧ Unbroken Text.isWhitespace new ∧
        rewriteWord f word = (splitWord word).1 ++ new ++ (splitWord word).2.2) ∨
      f (splitWord word).2.1 = none ∧ rewriteWord f word = word := by
  cases hcore : f (splitWord word).2.1 with
  | none =>
      refine Or.inr ⟨rfl, ?_⟩
      simp only [rewriteWord, hcore, Option.filter_none]
  | some new =>
      have hne : (splitWord word).2.1 ≠ [] := by
        intro hnil
        rw [hnil, hf.empty] at hcore
        exact absurd hcore (by simp)
      obtain ⟨hsolid, hfree⟩ :=
        hf.word hcore (solid_splitWord hne) (unbroken_splitWord hword).2.1
      refine Or.inl ⟨new, rfl, hsolid, hfree, ?_⟩
      have hfilter : (some new).filter (fun _ => !(splitWord word).2.1.isEmpty) = some new := by
        simp [hne]
      simp only [rewriteWord, hcore, hfilter]

theorem unbroken_rewriteWord (hf : Keeps f) {word : Chars}
    (hword : Unbroken Text.isWhitespace word) :
    Unbroken Text.isWhitespace (rewriteWord f word) := by
  rcases rewriteWord_cases hf hword with ⟨new, -, -, hfree, heq⟩ | ⟨-, heq⟩
  · obtain ⟨ho, -, hc⟩ := unbroken_splitWord hword
    rw [heq]
    exact unbroken_append (unbroken_append ho hfree) hc
  · rwa [heq]

theorem splitWord_rewriteWord (hf : Keeps f) {word : Chars}
    (hword : Unbroken Text.isWhitespace word) :
    splitWord (rewriteWord f word) = ((splitWord word).1,
      (f (splitWord word).2.1).getD (splitWord word).2.1, (splitWord word).2.2) := by
  rcases rewriteWord_cases hf hword with ⟨new, hnew, hsolid, -, heq⟩ | ⟨hnone, heq⟩
  · rw [heq, hnew, splitWord_rebuild _ hsolid]
    · rfl
    · intro c hc
      rw [splitWord_eq] at hc
      exact List.mem_rtakeWhile_imp hc
    · intro c hc
      rw [splitWord_eq] at hc
      exact List.mem_takeWhile_imp hc
  · rw [heq, hnone]
    rfl

theorem rewriteWord_ne_nil (hf : Keeps f) {word : Chars}
    (hword : Unbroken Text.isWhitespace word) (hne : word ≠ []) : rewriteWord f word ≠ [] := by
  rcases rewriteWord_cases hf hword with ⟨new, -, hsolid, -, heq⟩ | ⟨-, heq⟩
  · rw [heq]
    intro hnil
    exact hsolid.nonempty (List.append_eq_nil_iff.mp (List.append_eq_nil_iff.mp hnil).1).2
  · rwa [heq]

/-- The words of the rewritten command are the rewritten words. -/
theorem wordsOf_rewritten (hf : Keeps f) (command : Chars) :
    wordsOf (rewritten f command) = (wordsOf command).map (Word.rewrite f) := by
  have hchunks : splitInclusive Text.isWhitespace (rewritten f command) =
      (splitInclusive Text.isWhitespace command).map
        (onWord Text.isWhitespace (rewriteWord f)) :=
    ((chunks_splitInclusive command).onWord (fun _ => unbroken_rewriteWord hf)
      (fun _ => rewriteWord_ne_nil hf)).splitInclusive
  rw [wordsOf, hchunks, wordsOf, List.map_map, List.map_map]
  refine List.map_congr_left fun chunk hchunk => ?_
  have hfree := (chunks_splitInclusive command).unbroken chunk hchunk
  have hspace : ∀ c ∈ chunk.rtakeWhile Text.isWhitespace, Text.isWhitespace c = true :=
    fun c hc => List.mem_rtakeWhile_imp hc
  have hdrop : (onWord Text.isWhitespace (rewriteWord f) chunk).rdropWhile Text.isWhitespace =
      rewriteWord f (chunk.rdropWhile Text.isWhitespace) :=
    (unbroken_rewriteWord hf hfree).rdropWhile_append hspace
  have htake : (onWord Text.isWhitespace (rewriteWord f) chunk).rtakeWhile Text.isWhitespace =
      chunk.rtakeWhile Text.isWhitespace :=
    (unbroken_rewriteWord hf hfree).rtakeWhile_append hspace
  show Word.ofChunk _ = Word.rewrite f (Word.ofChunk chunk)
  rw [Word.ofChunk_eq, Word.ofChunk_eq, hdrop, htake, splitWord_rewriteWord hf hfree]
  rfl

end

/-! ## The cache folder and the files in it -/

/-- An absolute folder made of path characters. -/
structure Folder (out : Chars) : Prop where
  absolute : isAbsolute out = true
  chars : ∀ c ∈ out, isPathChar c = true

/-- The folder without a `/` at its end. -/
def base (out : Chars) : Chars := if out.getLast? = some '/' then out.dropLast else out

theorem isWhitespace_of_isPathChar {c : Char} (h : isPathChar c = true) :
    Text.isWhitespace c = false := by
  have hrange : 0x2B ≤ c.toNat ∧ c.toNat ≤ 0x7A := by
    rcases Bool.or_eq_true_iff.mp h with h | h
    · simp only [isAsciiAlphanumeric, Bool.or_eq_true, Bool.and_eq_true, decide_eq_true_eq,
        Char.le_def] at h
      rcases h with (⟨hlo, hhi⟩ | ⟨hlo, hhi⟩) | ⟨hlo, hhi⟩ <;>
        exact ⟨Nat.le_trans (by decide) hlo, Nat.le_trans hhi (by decide)⟩
    · have hall : "._-+@/".toList.all (fun c => 0x2B ≤ c.toNat && c.toNat ≤ 0x7A) = true := rfl
      simpa using List.all_eq_true.mp hall c (List.contains_iff_mem.mp h)
  obtain ⟨hlo, hhi⟩ := hrange
  simp [Text.isWhitespace]
  omega

section

variable {out : Chars}

theorem joinPath_eq (hout : Folder out) {k : Chars} (hk : isAbsolute k = false) :
    joinPath out k = base out ++ '/' :: k := by
  have hne : out ≠ [] := by
    rintro rfl
    exact absurd hout.absolute (by decide)
  have hempty : out.isEmpty = false := by simpa using hne
  rw [joinPath, if_neg (by rw [hk]; decide), hempty, Bool.false_or, base]
  by_cases hlast : out.getLast? = some '/'
  · rw [if_pos (by rw [hlast]; rfl), if_pos hlast]
    have hsplit := List.dropLast_append_getLast? '/' hlast
    conv => lhs; rw [← hsplit]
    rw [List.append_assoc]
    rfl
  · rw [if_neg (by simpa using hlast), if_neg hlast]

theorem isAbsolute_joinPath (hout : Folder out) (k : Chars) :
    isAbsolute (joinPath out k) = true := by
  have hhead : out.head? = some '/' := by simpa [isAbsolute] using hout.absolute
  rw [joinPath]
  split
  · assumption
  · split
    · rw [isAbsolute, List.head?_append, hhead]
      rfl
    · rw [isAbsolute, List.head?_append, hhead]
      rfl

theorem unbroken_base (hout : Folder out) : Unbroken Text.isWhitespace (base out) := by
  intro c hc
  refine isWhitespace_of_isPathChar (hout.chars c ?_)
  rw [base] at hc
  split at hc
  · exact (List.dropLast_sublist out).mem hc
  · exact hc

/-- The path of a file in the folder stands as a word. -/
theorem joinPath_solid (hout : Folder out) {k : Chars} (hk : isAbsolute k = false)
    (hfree : Unbroken Text.isWhitespace k) (hlast : ∀ c, k.getLast? = some c → closes c = false) :
    Solid (joinPath out k) ∧ Unbroken Text.isWhitespace (joinPath out k) := by
  have habs := isAbsolute_joinPath hout k
  rw [joinPath_eq hout hk] at habs ⊢
  refine ⟨⟨by simp, ?_, ?_⟩, ?_⟩
  · intro c hc
    rw [isAbsolute, hc] at habs
    obtain rfl : c = '/' := by simpa using habs
    decide
  · intro c hc
    rw [List.getLast?_append, List.getLast?_cons] at hc
    cases hk : k.getLast? with
    | none =>
        rw [hk] at hc
        obtain rfl : '/' = c := by simpa using hc
        decide
    | some d =>
        rw [hk] at hc
        obtain rfl : d = c := by simpa using hc
        exact hlast d hk
  · intro c hc
    rcases List.mem_append.mp hc with hc | hc
    · exact unbroken_base hout c hc
    · rcases List.mem_cons.mp hc with rfl | hc
      · decide
      · exact hfree c hc

/-! ## The known files at the end of a word -/

theorem suffixMatches_iff {word key : Chars} :
    suffixMatches word key = true ↔ word = key ∨ ∃ pre, word = pre ++ '/' :: key := by
  rw [suffixMatches, Bool.and_eq_true, Bool.or_eq_true, List.isSuffixOf_iff_suffix]
  constructor
  · rintro ⟨⟨pre, rfl⟩, hboundary⟩
    have hlen : (pre ++ key).length - key.length = pre.length := by simp
    rw [hlen] at hboundary
    rcases List.eq_nil_or_concat pre with rfl | ⟨init, c, rfl⟩
    · exact Or.inl (List.nil_append key)
    · refine Or.inr ⟨init, ?_⟩
      have hc : c = '/' := by
        rcases hboundary with hzero | hget
        · simp at hzero
        · simpa [List.getElem?_append_left, List.getElem?_append_right] using hget
      rw [hc, List.concat_eq_append, List.append_assoc]
      rfl
  · rintro (rfl | ⟨pre, rfl⟩)
    · exact ⟨List.suffix_refl _, Or.inl (by simp)⟩
    · refine ⟨⟨pre ++ ['/'], by simp⟩, Or.inr ?_⟩
      have hlen : (pre ++ '/' :: key).length - key.length - 1 = pre.length := by
        simp only [List.length_append, List.length_cons]
        omega
      rw [hlen]
      simp

theorem isSuffix_of_suffixMatches {word key : Chars} (h : suffixMatches word key = true) :
    key <:+ word := by
  rcases suffixMatches_iff.mp h with rfl | ⟨pre, rfl⟩
  · exact List.suffix_refl _
  · exact ⟨pre ++ ['/'], by simp⟩

/-- `k` is the longest known file that ends the word `w`. -/
structure Longest (files : List Chars) (w k : Chars) : Prop where
  known : k ∈ files
  ends : suffixMatches w k = true
  longest : ∀ k' ∈ files, suffixMatches w k' = true → k'.length ≤ k.length

theorem Longest.unique {files : List Chars} {w k k' : Chars} (h : Longest files w k)
    (h' : Longest files w k') : k = k' := by
  have hle := h'.longest k h.known h.ends
  have hsuffix := List.suffix_of_suffix_length_le (isSuffix_of_suffixMatches h.ends)
    (isSuffix_of_suffixMatches h'.ends) hle
  exact hsuffix.eq_of_length (Nat.le_antisymm hle (h.longest k' h'.known h'.ends))

theorem byteLen_append (a b : Chars) : byteLen (a ++ b) = byteLen a + byteLen b := by
  rw [byteLen, List.map_append, List.sum_append, byteLen, byteLen]

theorem byteLen_pos {a : Chars} (h : a ≠ []) : 0 < byteLen a := by
  obtain ⟨c, cs, rfl⟩ := List.exists_cons_of_ne_nil h
  rw [byteLen, List.map_cons, List.sum_cons]
  exact Nat.add_pos_left (Char.utf8Size_pos c) _

/-- The first candidate that ends a word is the longest one. -/
theorem longest_of_find? {files : List Chars} {w k : Chars}
    (h : (candidates files).find? (suffixMatches w) = some k) : Longest files w k := by
  obtain ⟨hends, before, behind, hsplit, hbefore⟩ := List.find?_eq_some_iff_append.mp h
  have hmem : ∀ {k' : Chars}, k' ∈ candidates files ↔ k' ∈ files := List.mem_insertionSort _
  refine ⟨hmem.mp (hsplit ▸ List.mem_append_right _ List.mem_cons_self), hends, ?_⟩
  intro k' hk' hends'
  by_contra hlong
  have hk'' := hmem.mpr hk'
  rw [hsplit] at hk''
  rcases List.mem_append.mp hk'' with hin | hin
  · have hnot := hbefore k' hin
    rw [hends'] at hnot
    exact absurd hnot (by decide)
  · rcases List.mem_cons.mp hin with rfl | hin
    · exact hlong (Nat.le_refl _)
    · have hsorted : (candidates files).Pairwise (fun a b => byteLen b ≤ byteLen a) :=
        List.pairwise_insertionSort (fun a b => byteLen b ≤ byteLen a) files
      rw [hsplit] at hsorted
      have hle := (List.pairwise_cons.mp (List.pairwise_append.mp hsorted).2.1).1 k' hin
      obtain ⟨front, hfront⟩ := List.suffix_of_suffix_length_le (isSuffix_of_suffixMatches hends)
        (isSuffix_of_suffixMatches hends') (Nat.le_of_not_le hlong)
      have hne : front ≠ [] := by
        rintro rfl
        rw [List.nil_append] at hfront
        exact hlong (hfront ▸ Nat.le_refl _)
      have hpos := byteLen_pos hne
      rw [← hfront, byteLen_append] at hle
      omega

theorem exists_longest {files : List Chars} {w k : Chars} (hk : k ∈ files)
    (hends : suffixMatches w k = true) :
    ∃ k', Longest files w k' ∧ (candidates files).find? (suffixMatches w) = some k' := by
  cases h : (candidates files).find? (suffixMatches w) with
  | none =>
      have hnot := List.find?_eq_none.mp h k ((List.mem_insertionSort _).mpr hk)
      exact absurd hends hnot
  | some k' => exact ⟨k', longest_of_find? h, rfl⟩

/-- The file `k` is a file again under a tail of the cache folder. -/
def Echoed (out : Chars) (files : List Chars) (k : Chars) : Prop :=
  ∃ pre tail, base out = pre ++ '/' :: tail ∧ tail ++ '/' :: k ∈ files

/-- The paths that the bundle may be asked for. -/
def SafeFiles (files : List Chars) : Prop := ∀ k ∈ files, isUnsafeJoinTarget k = false

instance (files : List Chars) : Decidable (SafeFiles files) :=
  inferInstanceAs (Decidable (∀ k ∈ files, isUnsafeJoinTarget k = false))

theorem SafeFiles.relative {files : List Chars} (h : SafeFiles files) {k : Chars}
    (hk : k ∈ files) : isAbsolute k = false :=
  (Bool.or_eq_false_iff.mp (h k hk)).1

/-- A file in the cache folder ends with a longer file exactly when it is echoed. -/
theorem echoed_iff {files : List Chars} (hout : Folder out) (hfiles : SafeFiles files)
    {k : Chars} (hk : isAbsolute k = false) :
    Echoed out files k ↔
      ∃ k' ∈ files, suffixMatches (joinPath out k) k' = true ∧ k.length < k'.length := by
  constructor
  · rintro ⟨pre, tail, hbase, hmem⟩
    refine ⟨_, hmem, ?_, ?_⟩
    · rw [joinPath_eq hout hk, hbase, suffixMatches_iff]
      exact Or.inr ⟨pre, by simp⟩
    · rw [List.length_append, List.length_cons]
      omega
  · rintro ⟨k', hmem, hends, hlong⟩
    have hrel := hfiles.relative hmem
    rcases suffixMatches_iff.mp hends with heq | ⟨pre, heq⟩
    · rw [← heq, isAbsolute_joinPath hout] at hrel
      exact absurd hrel (by decide)
    · rw [joinPath_eq hout hk] at heq
      rcases List.append_eq_append_iff.mp heq with ⟨gap, -, hgap⟩ | ⟨gap, hpre, hgap⟩
      · have hlen := congrArg List.length hgap
        rw [List.length_append, List.length_cons, List.length_cons] at hlen
        omega
      · cases gap with
        | nil =>
            obtain rfl := (List.cons.inj hgap).2
            exact absurd hlong (Nat.lt_irrefl _)
        | cons c tail =>
            obtain ⟨rfl, rfl⟩ := List.cons.inj hgap
            exact ⟨pre, tail, hpre, hmem⟩

/-! ## One word -/

/-- What the first pass does to a word. -/
def joinWord (out core : Chars) : Option Chars :=
  if isRelative core then some (joinPath out core) else none

/-- What the second pass does to a word when no file is refused. -/
def matchWord (out : Chars) (files : List Chars) (core : Chars) : Option Chars :=
  if core.contains '/' then
    ((candidates files).find? (suffixMatches core)).map (joinPath out)
  else none

/-- A word as the second pass sees it. -/
def joined (out core : Chars) : Chars := if isRelative core then joinPath out core else core

/-- A word as the resolution leaves it. -/
def target (out : Chars) (files : List Chars) (core : Chars) : Chars :=
  (matchWord out files (joined out core)).getD (joined out core)

theorem isRelative_slash {core : Chars} (h : isRelative core = true) : '/' ∈ core := by
  simp only [isRelative, Bool.and_eq_true] at h
  exact List.contains_iff_mem.mp h.1.1.1

theorem isRelative_safe {core : Chars} (h : isRelative core = true) : isAbsolute core = false := by
  simp only [isRelative, isUnsafeJoinTarget, Bool.and_eq_true, Bool.not_eq_true',
    Bool.or_eq_false_iff] at h
  exact h.2.1

theorem slash_of_isAbsolute {w : Chars} (h : isAbsolute w = true) : '/' ∈ w := by
  rw [isAbsolute, beq_iff_eq] at h
  exact List.mem_of_mem_head? h

theorem joined_of_isAbsolute {w : Chars} (h : isAbsolute w = true) : joined out w = w := by
  refine if_neg fun hrel => ?_
  rw [isRelative_safe hrel] at h
  exact absurd h (by decide)

theorem slash_mem_joined (hout : Folder out) {core : Chars} (h : '/' ∈ core) :
    '/' ∈ joined out core := by
  rw [joined]
  split
  · exact slash_of_isAbsolute (isAbsolute_joinPath hout core)
  · exact h

theorem joined_joined (hout : Folder out) (core : Chars) :
    joined out (joined out core) = joined out core := by
  by_cases hrel : isRelative core = true
  · rw [joined, joined, if_pos hrel]
    exact joined_of_isAbsolute (isAbsolute_joinPath hout core)
  · have hsame : joined out core = core := if_neg hrel
    rw [hsame, hsame]

theorem target_of_bare {files : List Chars} {core : Chars} (h : '/' ∉ core) :
    target out files core = core := by
  have hsame : joined out core = core := if_neg fun hrel => h (isRelative_slash hrel)
  have hnone : matchWord out files core = none :=
    if_neg fun hc => h (List.contains_iff_mem.mp hc)
  rw [target, hsame, hnone]
  rfl

theorem matchWord_eq {files : List Chars} {w : Chars} (h : '/' ∈ w) :
    matchWord out files w = ((candidates files).find? (suffixMatches w)).map (joinPath out) :=
  if_pos (List.contains_iff_mem.mpr h)

theorem target_of_longest (hout : Folder out) {files : List Chars} {core k : Chars}
    (hc : '/' ∈ core) (hk : Longest files (joined out core) k) :
    target out files core = joinPath out k := by
  obtain ⟨k', hlongest, hfind⟩ := exists_longest hk.known hk.ends
  obtain rfl := hk.unique hlongest
  rw [target, matchWord_eq (slash_mem_joined hout hc), hfind]
  rfl

theorem target_of_none (hout : Folder out) {files : List Chars} {core : Chars} (hc : '/' ∈ core)
    (hnone : ∀ k, ¬ Longest files (joined out core) k) :
    target out files core = joined out core := by
  have hfind : (candidates files).find? (suffixMatches (joined out core)) = none := by
    cases h : (candidates files).find? (suffixMatches (joined out core)) with
    | none => rfl
    | some k => exact absurd (longest_of_find? h) (hnone k)
  rw [target, matchWord_eq (slash_mem_joined hout hc), hfind]
  rfl

theorem joinPath_injective (hout : Folder out) {k k' : Chars} (hk : isAbsolute k = false)
    (hk' : isAbsolute k' = false) (h : joinPath out k = joinPath out k') : k = k' := by
  rw [joinPath_eq hout hk, joinPath_eq hout hk'] at h
  exact (List.cons.inj (List.append_cancel_left h)).2

theorem joinPath_ends (hout : Folder out) {k : Chars} (hk : isAbsolute k = false) :
    suffixMatches (joinPath out k) k = true := by
  rw [joinPath_eq hout hk, suffixMatches_iff]
  exact Or.inr ⟨base out, rfl⟩

/-- A file in the cache folder is its own longest file exactly when it is not echoed. -/
theorem longest_joinPath_iff (hout : Folder out) {files : List Chars} (hfiles : SafeFiles files)
    {k : Chars} (hk : k ∈ files) :
    Longest files (joinPath out k) k ↔ ¬ Echoed out files k := by
  have hrel := hfiles.relative hk
  rw [echoed_iff hout hfiles hrel]
  constructor
  · rintro hlongest ⟨k', hmem, hends, hlong⟩
    exact absurd (hlongest.longest k' hmem hends) (Nat.not_le_of_lt hlong)
  · intro hnot
    refine ⟨hk, joinPath_ends hout hrel, fun k' hmem hends => ?_⟩
    exact Nat.le_of_not_lt fun hlong => hnot ⟨k', hmem, hends, hlong⟩

/-- A second resolution leaves a word alone exactly when the file it became is not
echoed. -/
theorem target_target_iff (hout : Folder out) {files : List Chars} (hfiles : SafeFiles files)
    {core : Chars} (hc : '/' ∈ core) :
    target out files (target out files core) = target out files core ↔
      ∀ k, Longest files (joined out core) k → ¬ Echoed out files k := by
  by_cases hex : ∃ k, Longest files (joined out core) k
  · obtain ⟨k, hk⟩ := hex
    have hrel := hfiles.relative hk.known
    have habs := isAbsolute_joinPath hout k
    have hsame : joined out (joinPath out k) = joinPath out k := joined_of_isAbsolute habs
    obtain ⟨k', hk', -⟩ := exists_longest hk.known (joinPath_ends hout hrel)
    have hagain : target out files (joinPath out k) = joinPath out k' :=
      target_of_longest hout (slash_of_isAbsolute habs) (by rwa [hsame])
    rw [target_of_longest hout hc hk, hagain]
    constructor
    · intro heq
      obtain rfl := joinPath_injective hout (hfiles.relative hk'.known) hrel heq
      intro k₂ hk₂
      obtain rfl := hk.unique hk₂
      exact (longest_joinPath_iff hout hfiles hk.known).mp hk'
    · intro hnot
      have hown := (longest_joinPath_iff hout hfiles hk.known).mpr (hnot k hk)
      rw [hk'.unique hown]
  · have hnone : ∀ k, ¬ Longest files (joined out core) k := fun k hk => hex ⟨k, hk⟩
    have hagain : ∀ k, ¬ Longest files (joined out (joined out core)) k := by
      rwa [joined_joined hout]
    rw [target_of_none hout hc hnone,
      target_of_none hout (slash_mem_joined hout hc) hagain, joined_joined hout]
    exact ⟨fun _ k hk => absurd hk (hnone k), fun _ => rfl⟩

/-- Nothing that the word becomes is echoed, nor the word if it is a file. -/
def Clear (out : Chars) (files : List Chars) (core : Chars) : Prop :=
  ∀ k, k = core ∧ core ∈ files ∨ Longest files (joined out core) k → ¬ Echoed out files k

theorem suffixMatches_joined (hout : Folder out) (core : Chars) :
    suffixMatches (joined out core) core = true := by
  rw [joined]
  split
  · rename_i hrel
    exact joinPath_ends hout (isRelative_safe hrel)
  · exact suffixMatches_iff.mpr (Or.inl rfl)

/-- The longest file at the end of a file is that file, or the file is echoed. -/
theorem longest_known_iff (hout : Folder out) {files : List Chars} (hfiles : SafeFiles files)
    {core : Chars} (hknown : core ∈ files) (hnot : ¬ Echoed out files core) :
    Longest files (joined out core) core := by
  refine ⟨hknown, suffixMatches_joined hout core, ?_⟩
  intro k' hmem hends
  rw [joined] at hends
  split at hends
  · exact ((longest_joinPath_iff hout hfiles hknown).mpr hnot).longest k' hmem hends
  · exact (isSuffix_of_suffixMatches hends).length_le

/-- What is asked of one word. -/
theorem clear_iff (hout : Folder out) {files : List Chars} (hfiles : SafeFiles files)
    {core : Chars} (hc : '/' ∈ core) :
    Clear out files core ↔
      target out files (target out files core) = target out files core ∧
        (core ∈ files → target out files core = joinPath out core) := by
  rw [target_target_iff hout hfiles hc]
  constructor
  · intro hclear
    refine ⟨fun k hk => hclear k (Or.inr hk), fun hknown => ?_⟩
    exact target_of_longest hout hc
      (longest_known_iff hout hfiles hknown (hclear core (Or.inl ⟨rfl, hknown⟩)))
  · rintro ⟨hstable, hfound⟩ k (⟨rfl, hknown⟩ | hk)
    · obtain ⟨k', hk', -⟩ := exists_longest hknown (suffixMatches_joined hout k)
      have heq := (target_of_longest hout hc hk').symm.trans (hfound hknown)
      obtain rfl := joinPath_injective hout (hfiles.relative hk'.known)
        (hfiles.relative hknown) heq
      exact hstable k' hk'
    · exact hstable k hk

end

/-! ## The whole command -/

theorem keeps_joinWord {out : Chars} (hout : Folder out) : Keeps (joinWord out) where
  empty := by
    refine if_neg ?_
    decide
  word := by
    intro core new hnew hsolid hfree
    rw [joinWord] at hnew
    split at hnew
    · rename_i hrel
      obtain rfl := Option.some.inj hnew
      exact joinPath_solid hout (isRelative_safe hrel) hfree hsolid.last
    · exact absurd hnew (by simp)

theorem keeps_matchWord {out : Chars} (hout : Folder out) {files : List Chars}
    (hfiles : SafeFiles files) : Keeps (matchWord out files) where
  empty := if_neg (by decide)
  word := by
    intro core new hnew hsolid hfree
    rw [matchWord] at hnew
    split at hnew
    · obtain ⟨k, hk, rfl⟩ := Option.map_eq_some_iff.mp hnew
      have hlongest := longest_of_find? hk
      obtain ⟨pre, rfl⟩ := isSuffix_of_suffixMatches hlongest.ends
      refine joinPath_solid hout (hfiles.relative hlongest.known) ?_ ?_
      · intro c hc
        exact hfree c (List.mem_append_right _ hc)
      · intro c hc
        refine hsolid.last c ?_
        rw [List.getLast?_append, hc]
        rfl
    · exact absurd hnew (by simp)

/-- The resolved command. -/
def resolved (out : Chars) (files : List Chars) (command : Chars) : Chars :=
  rewritten (matchWord out files) (rewritten (joinWord out) command)

theorem resolveBundleRelativePaths_eq (command out : Chars) :
    (resolveBundleRelativePaths command out).getD command = rewritten (joinWord out) command :=
  (rewriteWords_eq (f := joinWord out) (fun _ => rfl) command).1

theorem resolveCommandPathsAgainstFiles_eq {files : List Chars} (hfiles : SafeFiles files)
    (out command : Chars) :
    ∃ new?, resolveCommandPathsAgainstFiles command out files = .ok new? ∧
      new?.getD command = rewritten (matchWord out files) command := by
  have hstateless : Stateless (matchFile out files) (matchWord out files) none := by
    intro core
    simp only [matchFile, matchWord]
    cases core.contains '/' with
    | false => rfl
    | true =>
        cases hfind : (candidates files).find? (suffixMatches core) with
        | none => rfl
        | some key =>
            simp only [hfiles key (longest_of_find? hfind).known]
            rfl
  obtain ⟨htext, hstate⟩ := rewriteWords_eq hstateless command
  cases hrun : rewriteWords command (matchFile out files) none with
  | mk new? refused =>
      rw [hrun] at htext hstate
      obtain rfl : refused = none := hstate
      exact ⟨new?, by rw [resolveCommandPathsAgainstFiles, hrun], htext⟩

theorem resolveHookCommand_eq {isWithin : Chars → Chars → Bool} {bundle out : String}
    {files : List String} (hfiles : SafeFiles (files.map String.toList)) (command : String)
    (warned : Warned) :
    (resolveHookCommand isWithin command (some bundle) out files warned).1 =
      .ok (String.ofList (resolved out.toList (files.map String.toList) command.toList)) := by
  obtain ⟨new?, hnew, htext⟩ := resolveCommandPathsAgainstFiles_eq hfiles out.toList
    (rewritten (joinWord out.toList) command.toList)
  rw [← resolveBundleRelativePaths_eq] at hnew htext
  have hor : ∀ relative : Option Chars, (new?.or relative).getD command.toList =
      new?.getD (relative.getD command.toList) := by
    intro relative
    cases new? <;> rfl
  simp only [resolveHookCommand, hnew, hor, htext]
  rw [resolved, resolveBundleRelativePaths_eq]

/-- The resolution goes word by word. -/
theorem wordsOf_resolved {out : Chars} (hout : Folder out) {files : List Chars}
    (hfiles : SafeFiles files) (command : Chars) :
    wordsOf (resolved out files command) =
      (wordsOf command).map fun w => { w with core := target out files w.core } := by
  rw [resolved, wordsOf_rewritten (keeps_matchWord hout hfiles),
    wordsOf_rewritten (keeps_joinWord hout), List.map_map]
  refine List.map_congr_left fun w _ => ?_
  have hjoined : (joinWord out w.core).getD w.core = joined out w.core := by
    rw [joinWord, joined]
    split <;> rfl
  simp only [Function.comp_apply, Word.rewrite, hjoined]
  rfl

/-- What becomes of one word: its space, quotes and punctuation stay, and so does a
word without a `/`; a known file with a `/` becomes that file in the cache folder. -/
structure Kept (out : Chars) (files : List Chars) (w w' : Word) : Prop where
  opening : w'.opening = w.opening
  closing : w'.closing = w.closing
  space : w'.space = w.space
  bare : '/' ∉ w.core → w'.core = w.core
  known : '/' ∈ w.core → w.core ∈ files → w'.core = joinPath out w.core

/-- `r` is resolved already, and its words are those of the command. -/
structure Faithful (isWithin : Chars → Chars → Bool) (bundle out : String)
    (files : List String) (command r : String) : Prop where
  stable : ∀ warned, (resolveHookCommand isWithin r (some bundle) out files warned).1 = .ok r
  words : List.Forall₂ (Kept out.toList (files.map String.toList)) (wordsOf command.toList)
    (wordsOf r.toList)

/-- What a resolution must meet, word by word. -/
theorem faithful_iff (isWithin : Chars → Chars → Bool) (bundle : String) {out : String}
    {files : List String} (hout : Folder out.toList)
    (hfiles : SafeFiles (files.map String.toList)) (command : String) :
    Faithful isWithin bundle out files command
        (String.ofList (resolved out.toList (files.map String.toList) command.toList)) ↔
      ∀ w ∈ wordsOf command.toList, '/' ∈ w.core →
        Clear out.toList (files.map String.toList) w.core := by
  have hwords := wordsOf_resolved hout hfiles command.toList
  constructor
  · intro h w hw hslash
    refine (clear_iff hout hfiles hslash).mpr ⟨?_, fun hknown => ?_⟩
    · have hagain := h.stable ⟨[], []⟩
      rw [resolveHookCommand_eq hfiles, String.toList_ofList] at hagain
      have htext := congrArg wordsOf (String.ofList_injective (Except.ok.inj hagain))
      rw [wordsOf_resolved hout hfiles (resolved _ _ _), hwords, List.map_map] at htext
      have hw' := List.map_inj_left.mp htext w hw
      exact congrArg Word.core hw'
    · have hkept := h.words
      rw [String.toList_ofList, hwords, List.forall₂_map_right_iff, List.forall₂_same] at hkept
      exact (hkept w hw).known hslash hknown
  · intro h
    refine ⟨fun warned => ?_, ?_⟩
    · rw [resolveHookCommand_eq hfiles, String.toList_ofList]
      refine congrArg (fun text => Except.ok (String.ofList text)) (wordsOf_injective ?_)
      rw [wordsOf_resolved hout hfiles (resolved _ _ _), hwords, List.map_map]
      refine List.map_congr_left fun w hw => ?_
      by_cases hslash : '/' ∈ w.core
      · have hstable := ((clear_iff hout hfiles hslash).mp (h w hw hslash)).1
        simp only [Function.comp_apply, hstable]
      · simp only [Function.comp_apply, target_of_bare hslash]
    · rw [String.toList_ofList, hwords, List.forall₂_map_right_iff, List.forall₂_same]
      intro w hw
      exact ⟨rfl, rfl, rfl, fun hbare => target_of_bare hbare,
        fun hslash => ((clear_iff hout hfiles hslash).mp (h w hw hslash)).2⟩

/-- Without an echoed file every command of the bundle is resolved as it should be. -/
theorem faithful_of_not_echoed {isWithin : Chars → Chars → Bool} {bundle out : String}
    {files : List String} (hout : Folder out.toList)
    (hfiles : SafeFiles (files.map String.toList))
    (hnot : ∀ k ∈ files, ¬ Echoed out.toList (files.map String.toList) k.toList)
    (command : String) :
    Faithful isWithin bundle out files command
      (String.ofList (resolved out.toList (files.map String.toList) command.toList)) := by
  refine (faithful_iff isWithin bundle hout hfiles command).mpr fun w _ _ k hk => ?_
  have hmem : k ∈ files.map String.toList := by
    rcases hk with ⟨rfl, hknown⟩ | hlongest
    · exact hknown
    · exact hlongest.known
  obtain ⟨file, hfile, rfl⟩ := List.mem_map.mp hmem
  exact hnot file hfile

/-- **A resolved hook command stays as it is when it is resolved again, each word that
is a known file with a `/` becomes that file in the cache folder, and everything else
stays, exactly when no file that a word becomes, and no file that is a word, is echoed
under a tail of the cache folder.** -/
theorem resolveHookCommand_faithful_iff {isWithin : Chars → Chars → Bool}
    {command bundle out : String} {files : List String} {warned : Warned}
    (hout : Folder out.toList) (hfiles : SafeFiles (files.map String.toList)) :
    (∀ r, (resolveHookCommand isWithin command (some bundle) out files warned).1 = .ok r →
        Faithful isWithin bundle out files command r) ↔
      ∀ w ∈ wordsOf command.toList, '/' ∈ w.core →
        Clear out.toList (files.map String.toList) w.core := by
  rw [← faithful_iff isWithin bundle hout hfiles,
    resolveHookCommand_eq hfiles]
  constructor
  · intro h
    exact h _ rfl
  · intro h r hr
    obtain rfl := Except.ok.inj hr
    exact h

/-- One file, and a folder whose name is no part of its path. -/
theorem resolveHookCommand_faithful_iff_cache :
    Faithful (fun _ _ => true) "/bundles/mine" "/cache" ["lib/g.sh"] "sh lib/g.sh"
      "sh /cache/lib/g.sh" := by
  have hresult : (resolveHookCommand (fun _ _ => true) "sh lib/g.sh" (some "/bundles/mine") "/cache"
      ["lib/g.sh"] ⟨[], []⟩).1 = .ok "sh /cache/lib/g.sh" := rfl
  refine (resolveHookCommand_faithful_iff ⟨by decide, List.all_eq_true.mp rfl⟩ (by decide)).mpr ?_
    _ hresult
  rintro w - - k - ⟨pre, tail, hbase, hmem⟩
  have hpath : tail ++ '/' :: k = "lib/g.sh".toList := List.mem_singleton.mp hmem
  cases tail with
  | nil => exact absurd (List.cons.inj hpath).1 (by decide)
  | cons c cs =>
      obtain rfl : c = 'l' := (List.cons.inj hpath).1
      have hin : 'l' ∈ base "/cache".toList := by
        rw [hbase]
        simp
      exact absurd hin (by decide)

/-- The word is a file of the bundle, and the command runs another one. -/
theorem resolveHookCommand_wrong_file :
    Folder "/cache/hooks".toList ∧
      SafeFiles (["lib/g.sh", "hooks/lib/g.sh"].map String.toList) ∧
      (resolveHookCommand (fun _ _ => true) "sh lib/g.sh" (some "/bundles/mine") "/cache/hooks"
        ["lib/g.sh", "hooks/lib/g.sh"] ⟨[], []⟩).1 = .ok "sh /cache/hooks/hooks/lib/g.sh" ∧
      ¬ Faithful (fun _ _ => true) "/bundles/mine" "/cache/hooks" ["lib/g.sh", "hooks/lib/g.sh"]
        "sh lib/g.sh" "sh /cache/hooks/hooks/lib/g.sh" := by
  refine ⟨⟨by decide, List.all_eq_true.mp rfl⟩, by decide, rfl, ?_⟩
  intro h
  have hwords : List.Forall₂
      (Kept "/cache/hooks".toList (["lib/g.sh", "hooks/lib/g.sh"].map String.toList))
      [⟨[], ['s', 'h'], [], [' ']⟩, ⟨[], "lib/g.sh".toList, [], []⟩]
      [⟨[], ['s', 'h'], [], [' ']⟩, ⟨[], "/cache/hooks/hooks/lib/g.sh".toList, [], []⟩] := h.words
  obtain ⟨-, hrest⟩ := List.forall₂_cons.mp hwords
  obtain ⟨hkept, -⟩ := List.forall₂_cons.mp hrest
  exact absurd (hkept.known (by decide) (by decide)) (by decide)

end Llmenv.Adapter.HookCommand
