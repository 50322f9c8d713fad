/-
# `Llmenv.Onboarding.FaithfulDiff` — what a splice shows is what it did

The user is shown a diff and asked for a yes, so the diff must say which lines are
new and where.  A splice never changes a line of the user, and replaces only the
line of a key with an empty value.  Its additions go in one after another, and a
later one moves the reported lines of the earlier ones.

That is right for an addition above or below an earlier one.  It is wrong for one
that goes INTO the lines of an earlier one: below a key that the earlier addition
brought along with others.  `splice_faithful_iff` says when the diff is right.
-/
import Llmenv.Lib.Result
import Llmenv.Onboarding.ConfigSplice

namespace Llmenv.Onboarding

open Llmenv.Lib Llmenv.Merge

/-- What is known of the YAML writer: it writes something, and no carriage return. -/
structure WritesLines (Y : Serde) : Prop where
  nonempty : ∀ value text, Y.toString value = .ok text → text.toList ≠ []
  noReturn : ∀ value text, Y.toString value = .ok text → '\r' ∉ text.toList

section

variable {Y : Serde}

theorem withContext_eq_ok {β : Type} {text : String} {x : Except Fault β} {b : β} :
    withContext text x = .ok b ↔ x = .ok b := by
  cases x with
  | error e => simp [withContext, Except.mapError]
  | ok a => simp [withContext, Except.mapError]

/-! ## One insertion -/

/-- Lines that an addition can put into the file. -/
structure NewLines (new : List Chars) : Prop where
  nonempty : new ≠ []
  noFeed : ∀ l ∈ new, '\n' ∉ l
  noReturn : ∀ l ∈ new, '\r' ∉ l

theorem mem_of_mem_lines {cs l : Chars} (hl : l ∈ Text.lines cs) {c : Char} (hc : c ∈ l) :
    c ∈ cs := by
  obtain ⟨chunk, hchunk, rfl⟩ := List.mem_map.mp hl
  have hin : c ∈ chunk := by
    rw [Text.stripEol] at hc
    split at hc
    · exact (List.dropLast_sublist chunk).mem (Text.mem_of_mem_dropCr hc)
    · exact hc
  rw [← splitInclusive_flatten (p := (· == '\n')) cs]
  exact List.mem_flatten.mpr ⟨chunk, hchunk, hin⟩

theorem lines_ne_nil {cs : Chars} (h : cs ≠ []) : Text.lines cs ≠ [] := by
  intro hnil
  rw [Text.lines, List.map_eq_nil_iff] at hnil
  have hflat := splitInclusive_flatten (p := (· == '\n')) cs
  rw [hnil] at hflat
  exact h hflat.symm

theorem yamlLines_ok (hY : WritesLines Y) {value : Yaml} {indent : Nat} {new : List Chars}
    (h : yamlLines Y value indent = .ok new) : NewLines new := by
  rw [yamlLines] at h
  split at h
  · exact absurd h (by simp)
  · rename_i text htext
    obtain rfl := Except.ok.inj h
    have hpad : ∀ {l : Chars} {c : Char}, c ≠ ' ' → c ∈ List.replicate indent ' ' ++ l → c ∈ l := by
      intro l c hc hmem
      rcases List.mem_append.mp hmem with hmem | hmem
      · exact absurd (List.eq_of_mem_replicate hmem) hc
      · exact hmem
    refine ⟨?_, ?_, ?_⟩
    · rw [ne_eq, List.map_eq_nil_iff]
      exact lines_ne_nil (hY.nonempty value text htext)
    · intro l hl hmem
      obtain ⟨line, hline, rfl⟩ := List.mem_map.mp hl
      exact Text.notMem_of_mem_lines hline (hpad (by decide) hmem)
    · intro l hl hmem
      obtain ⟨line, hline, rfl⟩ := List.mem_map.mp hl
      exact hY.noReturn value text htext (mem_of_mem_lines hline (hpad (by decide) hmem))

/-- What an insertion does to the lines: it adds lines, and replaces none or the line of
a key with an empty value. -/
structure Inserted (lines : List Chars) (addition : Addition) (lines' : List Chars)
    (hunk : Hunk Chars) : Prop where
  applied : lines' = hunk.apply lines
  start : 0 < hunk.line
  inside : hunk.line - 1 ≤ lines.length
  removes : hunk.out lines = hunk.removed
  new : NewLines hunk.added
  emptyKey : hunk.removed = [] ∨ ∃ line key, hunk.removed = [line] ∧
    (key = addition.key ∨ addition.sub = some key) ∧ keyValue line key = .empty

theorem keyValue_nil (key : String) : keyValue [] key = .block := by
  have hstrip : ∀ pre : Chars, (Text.stripPrefix pre []).getD [] = [] := by
    intro pre
    cases pre <;> rfl
  have hrest : (Text.stripPrefix key.toList (trimStart [])).getD [] = [] := hstrip _
  simp only [keyValue, hrest]
  rfl

/-- New lines are put at a place. -/
theorem put_added {lines new : List Chars} {addition : Addition} (pos : Nat)
    (hnew : NewLines new) :
    Inserted lines addition (put lines pos 0 new).1 (put lines pos 0 new).2 := by
  have hstop : min (min pos lines.length + 0) lines.length = min pos lines.length := by omega
  have hput : put lines pos 0 new = (lines.take (min pos lines.length) ++ new ++
      lines.drop (min pos lines.length), ⟨min pos lines.length + 1, [], new⟩) := by
    rw [put]
    simp only [hstop, Nat.sub_self, List.take_zero]
  rw [hput]
  exact ⟨rfl, Nat.succ_pos _, Nat.min_le_right _ _, List.take_zero, hnew, Or.inl rfl⟩

/-- New lines are put in the place of a key with an empty value. -/
theorem put_replaced {lines new : List Chars} {addition : Addition} {pos : Nat} {key : String}
    (hnew : NewLines new) (hkey : key = addition.key ∨ addition.sub = some key)
    (hempty : keyValue ((lines[pos]?).getD []) key = .empty) :
    Inserted lines addition (put lines pos 1 new).1 (put lines pos 1 new).2 := by
  cases hline : lines[pos]? with
  | none =>
      rw [hline, Option.getD_none, keyValue_nil] at hempty
      exact absurd hempty (by decide)
  | some line =>
      rw [hline, Option.getD_some] at hempty
      obtain ⟨hpos, hget⟩ := List.getElem?_eq_some_iff.mp hline
      have hmin : min pos lines.length = pos := by omega
      have hstop : min (pos + 1) lines.length = pos + 1 := by omega
      have hone : (lines.drop pos).take (pos + 1 - pos) = [line] := by
        rw [Nat.add_sub_cancel_left, List.take_one, List.head?_drop, hline]
        rfl
      have hput : put lines pos 1 new =
          (lines.take pos ++ new ++ lines.drop (pos + 1), ⟨pos + 1, [line], new⟩) := by
        rw [put]
        simp only [hmin, hstop, hone]
      rw [hput]
      refine ⟨rfl, Nat.succ_pos _, Nat.le_of_lt hpos, ?_, hnew, Or.inr ⟨line, key, rfl, hkey, hempty⟩⟩
      rw [Nat.add_sub_cancel_left] at hone
      exact hone

theorem insertEntries_inserted (hY : WritesLines Y) {lines lines' : List Chars}
    {start stop indent : Nat} {addition : Addition} {hunk : Hunk Chars}
    (h : insertEntries Y lines start stop indent addition = .ok (lines', hunk)) :
    Inserted lines addition lines' hunk := by
  simp only [insertEntries, bind_eq_ok] at h
  obtain ⟨-, -, new, hnew, h⟩ := h
  obtain ⟨rfl, rfl⟩ := Prod.mk.inj (Except.ok.inj h)
  exact put_added _ (yamlLines_ok hY hnew)

theorem insertSub_inserted (hY : WritesLines Y) {lines lines' : List Chars}
    {start stop : Nat} {sub : String} {addition : Addition} {hunk : Hunk Chars}
    (hsub : addition.sub = some sub)
    (h : insertSub Y lines start stop sub addition = .ok (lines', hunk)) :
    Inserted lines addition lines' hunk := by
  rw [insertSub] at h
  split at h
  · simp only [bind_eq_ok] at h
    obtain ⟨new, hnew, h⟩ := h
    obtain ⟨rfl, rfl⟩ := Prod.mk.inj (Except.ok.inj h)
    exact put_added _ (yamlLines_ok hY hnew)
  · split at h
    · rename_i hempty
      simp only [bind_eq_ok] at h
      obtain ⟨new, hnew, h⟩ := h
      obtain ⟨rfl, rfl⟩ := Prod.mk.inj (Except.ok.inj h)
      exact put_replaced (yamlLines_ok hY hnew) (Or.inr hsub) hempty
    · exact absurd h (by simp)
    · exact insertEntries_inserted hY h

theorem insert_inserted (hY : WritesLines Y) {lines lines' : List Chars} {addition : Addition}
    {hunk : Hunk Chars} (h : insert Y lines addition = .ok (lines', hunk)) :
    Inserted lines addition lines' hunk := by
  rw [insert] at h
  split at h
  · simp only [bind_eq_ok] at h
    obtain ⟨new, hnew, h⟩ := h
    obtain ⟨rfl, rfl⟩ := Prod.mk.inj (Except.ok.inj h)
    exact put_added _ (yamlLines_ok hY hnew)
  · split at h
    · rename_i hempty
      simp only [bind_eq_ok] at h
      obtain ⟨new, hnew, h⟩ := h
      obtain ⟨rfl, rfl⟩ := Prod.mk.inj (Except.ok.inj h)
      exact put_replaced (yamlLines_ok hY hnew) (Or.inl rfl) hempty
    · exact absurd h (by simp)
    · simp only at h
      split at h
      · rename_i sub hsub
        exact insertSub_inserted hY hsub h
      · exact insertEntries_inserted hY h

/-! ## The run -/

/-- The hunks of the run, each as it is when it is made. -/
def steps (Y : Serde) : List Chars → List Addition → Except Fault (List (Hunk Chars))
  | _, [] => .ok []
  | lines, addition :: additions => do
      let (lines, hunk) ← withContext (manualFix Y addition) (insert Y lines addition)
      let hunks ← steps Y lines additions
      .ok (hunk :: hunks)

theorem Inserted.fits {l : List (Line Chars)} {addition : Addition} {lines' : List Chars}
    {hunk : Hunk Chars} (h : Inserted (l.map Line.text) addition lines' hunk) : hunk.Fits l := by
  refine ⟨h.start, ?_, ?_, ?_, h.new.nonempty⟩
  · have hinside := h.inside
    rwa [List.length_map] at hinside
  · rw [← h.removes, Hunk.out, Hunk.out, List.map_take, List.map_drop]
  · have hpos := List.length_pos_of_ne_nil h.new.nonempty
    rcases h.emptyKey with hnil | ⟨line, key, hone, -⟩
    · rw [hnil]
      exact Nat.zero_le _
    · rw [hone]
      exact hpos

/-- Each step of the run, with the lines before it. -/
inductive AllInserted : Nat → List (Line Chars) → List Addition → List (Hunk Chars) → Prop
  | nil {n : Nat} {l : List (Line Chars)} : AllInserted n l [] []
  | cons {n : Nat} {l : List (Line Chars)} {a : Addition} {additions : List Addition}
      {h : Hunk Chars} {hs : List (Hunk Chars)} :
      Inserted (l.map Line.text) a ((h.mark n l).map Line.text) h →
      AllInserted (n + 1) (h.mark n l) additions hs → AllInserted n l (a :: additions) (h :: hs)

theorem insertAll_eq (hY : WritesLines Y) {additions : List Addition} :
    ∀ {l : List (Line Chars)} {hunks : List (Hunk Chars)} {lines : List Chars}
      {reported : List (Hunk Chars)},
      insertAll Y (l.map Line.text) hunks additions = .ok (lines, reported) →
      ∃ hs, steps Y (l.map Line.text) additions = .ok hs ∧
        AllInserted hunks.length l additions hs ∧
        lines = (marks hunks.length l hs).map Line.text ∧ reported = reports hunks hs := by
  induction additions with
  | nil =>
      intro l hunks lines reported h
      obtain ⟨rfl, rfl⟩ := Prod.mk.inj (Except.ok.inj h)
      exact ⟨[], rfl, .nil, rfl, rfl⟩
  | cons a as ih =>
      intro l hunks lines reported h
      simp only [insertAll, bind_eq_ok] at h
      obtain ⟨⟨lines', hunk⟩, hinsert, h⟩ := h
      have hinserted := insert_inserted hY (withContext_eq_ok.mp hinsert)
      have hmark : lines' = (hunk.mark hunks.length l).map Line.text := by
        rw [hinserted.applied, Hunk.texts_mark]
      subst hmark
      obtain ⟨hs, hsteps, hall, rfl, rfl⟩ := ih h
      rw [report_size] at hall
      refine ⟨hunk :: hs, ?_, .cons hinserted hall, ?_, rfl⟩
      · simp only [steps, hinsert]
        show (do let hunks ← steps Y _ as; .ok (hunk :: hunks)) = _
        rw [hsteps]
        rfl
      · rw [report_size]
        rfl

theorem AllInserted.allFit {n : Nat} {l : List (Line Chars)} {additions : List Addition}
    {hs : List (Hunk Chars)} (h : AllInserted n l additions hs) : AllFit n l hs := by
  induction h with
  | nil => trivial
  | cons hinserted _ ih => exact ⟨hinserted.fits, ih⟩

theorem AllInserted.newLines {n : Nat} {l : List (Line Chars)} {additions : List Addition}
    {hs : List (Hunk Chars)} (h : AllInserted n l additions hs) : ∀ h ∈ hs, NewLines h.added := by
  induction h with
  | nil => exact fun g hg => absurd hg List.not_mem_nil
  | cons hinserted _ ih =>
      intro g hg
      rcases List.mem_cons.mp hg with rfl | hg
      · exact hinserted.new
      · exact ih g hg

/-- The line of a key with an empty value, which an addition gives a block. -/
def EmptyKeyLine (additions : List Addition) (line : Chars) : Prop :=
  ∃ a ∈ additions, ∃ key, (key = a.key ∨ a.sub = some key) ∧ keyValue line key = .empty

/-- A replaced line is the line of an empty key, and a hunk says so. -/
theorem AllInserted.replaced {x : Line Chars} {n : Nat} {l : List (Line Chars)}
    {additions : List Addition} {hs : List (Hunk Chars)} (h : AllInserted n l additions hs)
    (hr : Replaced x n l hs) :
    EmptyKeyLine additions x.text ∧ ∃ h ∈ hs, h.removed = [x.text] := by
  induction h with
  | nil => exact absurd hr not_false
  | @cons n l a additions g hs hinserted _ ih =>
      rcases hr with hout | hr
      · have htext : x.text ∈ g.removed := by
          rw [← hinserted.fits.removes]
          exact List.mem_map_of_mem hout
        rcases hinserted.emptyKey with hnil | ⟨line, key, hone, hkey, hempty⟩
        · rw [hnil] at htext
          exact absurd htext List.not_mem_nil
        · rw [hone] at htext
          obtain rfl := List.mem_singleton.mp htext
          exact ⟨⟨a, List.mem_cons_self, key, hkey, hempty⟩, g, List.mem_cons_self, hone⟩
      · obtain ⟨⟨b, hb, hkey⟩, k, hk, hone⟩ := ih hr
        exact ⟨⟨b, List.mem_cons_of_mem _ hb, hkey⟩, k, List.mem_cons_of_mem _ hk, hone⟩

/-! ## The new text -/

theorem join_append {eol : Chars} : ∀ {ls : List Chars}, ls ≠ [] →
    Text.join eol ls ++ eol = (ls.map (· ++ eol)).flatten
  | [], h => absurd rfl h
  | [l], _ => by simp [Text.join]
  | l :: m :: ls, _ => by
      have hrest : Text.join eol (m :: ls) ++ eol = ((m :: ls).map (· ++ eol)).flatten :=
        join_append (by simp)
      rw [Text.join_cons (by simp), List.append_assoc, hrest]
      simp

theorem lines_lf {ls : List Chars} (hne : ls ≠ []) (hfeed : ∀ l ∈ ls, '\n' ∉ l) :
    Text.lines (Text.join ['\n'] ls ++ ['\n']) = ls.map Text.dropCr := by
  rw [join_append hne, Text.lines_terminated hfeed]

theorem lines_crlf {ls : List Chars} (hne : ls ≠ []) (hfeed : ∀ l ∈ ls, '\n' ∉ l) :
    Text.lines (Text.join ['\r', '\n'] ls ++ ['\r', '\n']) = ls := by
  have hmap : ls.map (· ++ ['\r', '\n']) = (ls.map (· ++ ['\r'])).map (· ++ ['\n']) := by
    rw [List.map_map]
    exact List.map_congr_left fun l _ => by simp
  have hfeed' : ∀ l ∈ ls.map (· ++ ['\r']), '\n' ∉ l := by
    intro l hl hmem
    obtain ⟨line, hline, rfl⟩ := List.mem_map.mp hl
    rcases List.mem_append.mp hmem with hmem | hmem
    · exact hfeed line hline hmem
    · exact absurd (List.mem_singleton.mp hmem) (by decide)
  rw [join_append hne, hmap, Text.lines_terminated hfeed', List.map_map]
  calc ls.map (Text.dropCr ∘ (· ++ ['\r'])) = ls.map id := by
        refine List.map_congr_left fun l _ => ?_
        show Text.dropCr (l ++ ['\r']) = l
        rw [Text.dropCr, List.getLast?_concat, if_pos rfl, List.dropLast_concat]
    _ = ls := List.map_id ls

theorem dropCr_eq_self {l : Chars} : Text.dropCr l = l ↔ l.getLast? ≠ some '\r' := by
  rw [Text.dropCr]
  split
  · rename_i hlast
    refine ⟨fun heq => ?_, fun hnot => absurd hlast hnot⟩
    have hlen := congrArg List.length heq
    have hpos : 0 < l.length := List.length_pos_of_mem (List.mem_of_getLast? hlast)
    rw [List.length_dropLast] at hlen
    omega
  · rename_i hlast
    exact ⟨fun _ => hlast, fun _ => rfl⟩

/-- The lines of the new text are the lines of the run, when there are lines and no
carriage return gets in front of a line feed. -/
theorem lines_text_iff {old : Chars} {eol : Chars} (heol : lineEnding old = .ok eol)
    {ls : List Chars} (hfeed : ∀ l ∈ ls, '\n' ∉ l) :
    Text.lines (Text.join eol ls ++ eol) = ls ↔
      ls ≠ [] ∧ (countCrlf old = 0 → ∀ l ∈ ls, l.getLast? ≠ some '\r') := by
  rw [lineEnding] at heol
  split at heol
  · rename_i hzero
    obtain rfl := Except.ok.inj heol
    by_cases hne : ls = []
    · subst hne
      exact ⟨fun h => absurd h (by decide), fun h => absurd rfl h.1⟩
    · rw [lines_lf hne hfeed]
      constructor
      · intro heq
        refine ⟨hne, fun _ l hl => dropCr_eq_self.mp ?_⟩
        have hid : ls.map Text.dropCr = ls.map id := heq.trans (List.map_id ls).symm
        exact List.map_inj_left.mp hid l hl
      · rintro ⟨-, hnot⟩
        refine Eq.trans (List.map_congr_left fun l hl => ?_) (List.map_id ls)
        exact dropCr_eq_self.mpr (hnot hzero l hl)
  · rename_i hsome
    split at heol
    · obtain rfl := Except.ok.inj heol
      by_cases hne : ls = []
      · subst hne
        exact ⟨fun h => absurd h (by decide), fun h => absurd rfl h.1⟩
      · rw [lines_crlf hne hfeed]
        exact ⟨fun _ => ⟨hne, fun hzero => absurd hzero hsome⟩, fun _ => rfl⟩
    · exact absurd heol (by simp)

/-! ## The diff -/

/-- What the user may expect of the new text and the diff.  `hs` are the hunks of the
run as they were made; the elements of the new text know where they come from. -/
structure FaithfulDiff (old : Chars) (additions : List Addition) (hs : List (Hunk Chars))
    (text : String) : Prop where
  /-- The lines of the new text. -/
  shown : Text.lines text.toList = (marks 0 (oldLines (Text.lines old)) hs).map Line.text
  /-- The old lines that stay are in their order. -/
  kept : ((oldLines (Text.lines old)).filter
    (fun x => x ∈ marks 0 (oldLines (Text.lines old)) hs)).Sublist
      (marks 0 (oldLines (Text.lines old)) hs)
  /-- An old line that does not stay is the line of an empty key, and it is reported. -/
  dropped : ∀ x ∈ oldLines (Text.lines old), x ∉ marks 0 (oldLines (Text.lines old)) hs →
    EmptyKeyLine additions x.text ∧ ∃ hunk ∈ reports [] hs, hunk.removed = [x.text]
  /-- A new line is in exactly one reported hunk. -/
  covered : ∀ (p : Nat) (x : Line Chars), (marks 0 (oldLines (Text.lines old)) hs)[p]? = some x →
    x.isOld = false → ∃! n : Nat, ∃ hunk : Hunk Chars, (reports [] hs)[n]? = some hunk ∧
      hunk.line - 1 ≤ p ∧ p < hunk.line - 1 + hunk.added.length
  /-- The lines of a hunk stand together, from the line that it reports. -/
  placed : Placed (marks 0 (oldLines (Text.lines old)) hs) (reports [] hs)

/-- Every addition stays apart from the earlier ones, the file does not end in a
carriage return of its own, and there is a line at all. -/
structure Undisturbed (old : Chars) (additions : List Addition) (hs : List (Hunk Chars)) : Prop where
  apart : AllApart 0 (oldLines (Text.lines old)) hs
  noReturn : countCrlf old = 0 → ∀ x ∈ oldLines (Text.lines old), x.text.getLast? = some '\r' →
    Replaced x 0 (oldLines (Text.lines old)) hs
  something : Text.lines old ≠ [] ∨ additions ≠ []

theorem texts_oldLines (ls : List Chars) : (oldLines ls).map Line.text = ls := by
  refine List.ext_getElem? fun i => ?_
  rw [oldLines, List.getElem?_map, List.getElem?_mapIdx, Option.map_map]
  exact congrFun Option.map_id _

theorem steps_eq_nil_iff {additions : List Addition} {l : List (Line Chars)} {n : Nat}
    {hs : List (Hunk Chars)} (h : AllInserted n l additions hs) : hs = [] ↔ additions = [] := by
  cases h with
  | nil => exact ⟨fun _ => rfl, fun _ => rfl⟩
  | cons _ _ => exact ⟨fun h => absurd h (by simp), fun h => absurd h (by simp)⟩

theorem marks_ne_nil_iff {additions : List Addition} {ls : List Chars} {hs : List (Hunk Chars)}
    (h : AllInserted 0 (oldLines ls) additions hs) :
    marks 0 (oldLines ls) hs ≠ [] ↔ ls ≠ [] ∨ additions ≠ [] := by
  have hold : oldLines ls = [] ↔ ls = [] := List.mapIdx_eq_nil_iff
  constructor
  · intro hne
    by_contra hboth
    rw [not_or, not_not, not_not] at hboth
    obtain rfl := (steps_eq_nil_iff h).mpr hboth.2
    exact hne (hold.mpr hboth.1)
  · intro hsome
    refine marks_ne_nil h.allFit ?_
    rwa [ne_eq, ne_eq, hold, steps_eq_nil_iff h]

/-- No line of the run holds a line feed. -/
theorem notMem_marks {additions : List Addition} {old : Chars} {hs : List (Hunk Chars)}
    (h : AllInserted 0 (oldLines (Text.lines old)) additions hs) :
    ∀ l ∈ (marks 0 (oldLines (Text.lines old)) hs).map Line.text, '\n' ∉ l := by
  intro l hl
  obtain ⟨x, hx, rfl⟩ := List.mem_map.mp hl
  rcases mem_marks hx with hx | ⟨g, hg, hx⟩
  · have htext := List.mem_map_of_mem (f := Line.text) hx
    rw [texts_oldLines] at htext
    exact Text.notMem_of_mem_lines htext
  · exact (h.newLines g hg).noFeed _ hx

/-- A carriage return at the end of a line of the run is at the end of an old line. -/
theorem noReturn_marks_iff {additions : List Addition} {ls : List Chars} {hs : List (Hunk Chars)}
    (h : AllInserted 0 (oldLines ls) additions hs) :
    (∀ l ∈ (marks 0 (oldLines ls) hs).map Line.text, l.getLast? ≠ some '\r') ↔
      ∀ x ∈ oldLines ls, x.text.getLast? = some '\r' → Replaced x 0 (oldLines ls) hs := by
  constructor
  · intro hnone x hx hlast
    refine (mem_marks_or_replaced hx).resolve_left fun hstays => ?_
    exact hnone _ (List.mem_map_of_mem hstays) hlast
  · intro hreplaced l hl hlast
    obtain ⟨x, hx, rfl⟩ := List.mem_map.mp hl
    rcases mem_marks hx with hmem | ⟨g, hg, hmem⟩
    · have hgone := hreplaced x hmem hlast
      exact Replaced.not_mem (isOld_of_mem_oldLines hmem) (tidy_oldLines ls) hgone hx
    · exact (h.newLines g hg).noReturn _ hmem (List.mem_of_getLast? hlast)

/-- **The diff of a splice is right exactly when no addition goes into the lines of an
earlier one, no carriage return at the end of the file gets a line feed, and the file
or the additions are not empty.** -/
theorem splice_faithful_iff (hY : WritesLines Y) {old text diff : String}
    {additions : List Addition} (h : splice Y old additions = .ok (text, diff)) :
    ∃ hs, steps Y (Text.lines old.toList) additions = .ok hs ∧ diff = render (reports [] hs) ∧
      (FaithfulDiff old.toList additions hs text ↔ Undisturbed old.toList additions hs) := by
  simp only [splice, bind_eq_ok] at h
  obtain ⟨eol, heol, ⟨lines, hunks⟩, hinsert, -, -, h⟩ := h
  obtain ⟨rfl, rfl⟩ := Prod.mk.inj (Except.ok.inj h)
  have hstart := texts_oldLines (Text.lines old.toList)
  rw [← hstart] at hinsert
  obtain ⟨hs, hsteps, hall, rfl, rfl⟩ := insertAll_eq hY hinsert
  rw [hstart] at hsteps
  refine ⟨hs, hsteps, rfl, ?_⟩
  have htidy := tidy_oldLines (Text.lines old.toList)
  have hnone : Placed (oldLines (Text.lines old.toList)) ([] : List (Hunk Chars)) :=
    fun n g hg => absurd hg (by simp)
  have hadd : Adding ([] : List (Hunk Chars)) := fun g hg => absurd hg List.not_mem_nil
  have hplaced := placed_iff htidy hnone hadd hall.allFit
  have hshown := lines_text_iff heol (notMem_marks hall)
  rw [noReturn_marks_iff hall, ne_eq, List.map_eq_nil_iff, ← ne_eq, marks_ne_nil_iff hall] at hshown
  constructor
  · intro hf
    have hlines := hf.shown
    rw [String.toList_ofList] at hlines
    obtain ⟨hsomething, hnoReturn⟩ := hshown.mp hlines
    exact ⟨hplaced.mp hf.placed, hnoReturn, hsomething⟩
  · intro hu
    have hp := hplaced.mpr hu.apart
    refine ⟨?_, filter_mem_marks 0 _ hs, ?_, ?_, hp⟩
    · rw [String.toList_ofList]
      exact hshown.mpr ⟨hu.something, hu.noReturn⟩
    · intro x hx hgone
      obtain ⟨hempty, g, hg, hone⟩ := hall.replaced ((mem_marks_or_replaced hx).resolve_left hgone)
      obtain ⟨k, hk, hsame⟩ := exists_reported (Or.inr hg)
      exact ⟨hempty, k, hk, hsame.trans hone⟩
    · intro p x hx hnew
      have hfinal : Tidy (marks 0 (oldLines (Text.lines old.toList)) hs) (reports [] hs) := htidy.run
      exact hp.covered (hadd.run hall.allFit) hfinal hx hnew

end

/-! ## A key below a key that came along -/

/-- A writer and a reader that know a few values. -/
def table (writes reads : List (Yaml × String)) : Serde where
  toString value :=
    match writes.find? fun row => eqv value row.1 with
    | some row => .ok row.2
    | none => .error "unknown value"
  fromStr text :=
    match reads.find? fun row => row.2 == text with
    | some row => .ok row.1
    | none => .error "unknown text"

theorem writesLines_table {writes reads : List (Yaml × String)}
    (h : ∀ row ∈ writes, row.2.toList ≠ [] ∧ '\r' ∉ row.2.toList) :
    WritesLines (table writes reads) := by
  have hrow : ∀ value text, (table writes reads).toString value = .ok text →
      ∃ row ∈ writes, row.2 = text := by
    intro value text htext
    simp only [table] at htext
    split at htext
    · rename_i row hfind
      exact ⟨row, List.mem_of_find?_eq_some hfind, Except.ok.inj htext⟩
    · exact absurd htext (by simp)
  constructor
  · intro value text htext
    obtain ⟨row, hmem, rfl⟩ := hrow value text htext
    exact (h row hmem).1
  · intro value text htext
    obtain ⟨row, hmem, rfl⟩ := hrow value text htext
    exact (h row hmem).2

/-- The memory of `features`, with another feature behind it. -/
def featuresValue (memory : Entries) : Yaml :=
  .map [(.str "memory", .map memory), (.str "other", .str "on")]

def featuresTable : Serde :=
  table
    [(.map [(.str "features", featuresValue [(.str "a", .str "x")])],
        "features:\n  memory:\n    a: x\n  other: on\n"),
      (.map [(.str "b", .str "y")], "b: y\n")]
    [(.null, ""),
      (.map [(.str "features", featuresValue [(.str "a", .str "x")])],
        "features:\n  memory:\n    a: x\n  other: on\n"),
      (.map [(.str "features", featuresValue [(.str "a", .str "x"), (.str "b", .str "y")])],
        "features:\n  memory:\n    a: x\n    b: y\n  other: on\n")]

theorem featuresTable_writesLines : WritesLines featuresTable :=
  writesLines_table (by decide)

def addFeatures : Addition :=
  .keys "features" none [(.str "memory", .map [(.str "a", .str "x")]), (.str "other", .str "on")]

def addMemory : Addition := .keys "features" (some "memory") [(.str "b", .str "y")]

theorem splice_faithful_iff_features :
    ∃ hs, steps featuresTable (Text.lines "".toList) [addFeatures] = .ok hs ∧
      render [⟨1, [], ["features:", "  memory:", "    a: x", "  other: on"].map String.toList⟩] =
        render (reports [] hs) ∧
      (FaithfulDiff "".toList [addFeatures] hs "features:\n  memory:\n    a: x\n  other: on\n" ↔
        Undisturbed "".toList [addFeatures] hs) :=
  splice_faithful_iff featuresTable_writesLines rfl

/-- The second addition goes into the lines of the first, whose hunk stays as it was. -/
theorem splice_torn_hunk :
    ∃ text diff hs, splice featuresTable "" [addFeatures, addMemory] = .ok (text, diff) ∧
      steps featuresTable (Text.lines "".toList) [addFeatures, addMemory] = .ok hs ∧
      diff = render (reports [] hs) ∧ ¬ FaithfulDiff "".toList [addFeatures, addMemory] hs text ∧
      ∃ hunk ∈ reports [] hs,
        ((Text.lines text.toList).drop (hunk.line - 1)).take hunk.added.length ≠ hunk.added := by
  refine ⟨"features:\n  memory:\n    a: x\n    b: y\n  other: on\n", _,
    [⟨1, [], ["features:", "  memory:", "    a: x", "  other: on"].map String.toList⟩,
      ⟨4, [], ["    b: y".toList]⟩], rfl, rfl, rfl, ?_, ?_⟩
  · intro h
    obtain ⟨before, behind, hsplit, hline⟩ := h.placed 0 _ rfl
    obtain rfl : before = [] := List.eq_nil_of_length_eq_zero (Nat.succ.inj hline.symm)
    have hfourth : (some ⟨"    b: y".toList, .hunk 1 0⟩ : Option (Line Chars)) =
        some ⟨"  other: on".toList, .hunk 0 3⟩ := congrArg (·[3]?) hsplit
    exact absurd hfourth (by decide)
  · exact ⟨_, List.mem_cons_self, by decide⟩

end Llmenv.Onboarding
