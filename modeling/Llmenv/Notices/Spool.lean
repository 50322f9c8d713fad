/-
# `Llmenv.Notices.Spool` — a notice of a detached child is not lost on its way

`src/crates/llmenv-util/src/agent_notice/spool.rs`.  A detached child writes
each notice to a file of its own, and the next hook runs read the files into
their lists and remove them.

Children and hook runs take their steps in any order, every system call may
fail, and a hook run may end at any point.  In every such run a notice that was
written is in its file or some hook run has its text (`no_notice_lost`).  A file
is removed even when it could not be read, so after a failed system call a
message that names the file may be all that is left of the notice.  What a hook
run tells was written by a child or is a message about the folder
(`only_notices_told`).  The name of a file begins with its time in a fixed
width, and so the notices are read oldest first (`reads_oldest_first`).
-/
import Mathlib.Data.Char
import Mathlib.Data.List.Lex
import Mathlib.Data.List.Sort
import Llmenv.Lib.Padded
import Llmenv.Lib.Separated
import Llmenv.Lib.Runs
import Llmenv.Lib.Slice
import Llmenv.Notices.Clean

namespace Llmenv.Notices.Spool

open Llmenv.Lib
open Llmenv.Lib.Text (byteLen byteLen_cons)

/-! ## The code -/

/-- At most this many notices are read in one hook run. -/
def maxRead : Nat := 32

/-- At most this many entries are listed in one hook run. -/
def maxList : Nat := 1024

def maxNoticeBytes : Nat := 64 * 1024

/-- `{n:020}`. -/
def padded (n : Nat) : List Char :=
  List.replicate (20 - (Nat.toDigits 10 n).length) '0' ++ Nat.toDigits 10 n

def spoolName (nanos pid seq : Nat) : List Char :=
  padded nanos ++ '-' :: Nat.toDigits 10 pid ++ '-' :: Nat.toDigits 10 seq ++ ".txt".toList

inductive Entry where
  | notice (text : List Char)
  /-- A link or a folder. -/
  | other
deriving DecidableEq

section Messages

variable (dir : List Char)

def pathOf (name : List Char) : List Char := dir ++ '/' :: name

def cannotRead (name e : List Char) : List Char :=
  "llmenv: cannot read the detached job notice ".toList ++ pathOf dir name ++ ": ".toList ++ e ++
    ". Fix: remove the file.".toList

def notRegular (name : List Char) : List Char :=
  "llmenv: the detached job notice ".toList ++ pathOf dir name ++
    " is not a regular file, so it is removed unread.".toList

def cannotRemove (name e : List Char) : List Char :=
  "llmenv: cannot remove the detached job notice ".toList ++ pathOf dir name ++ ": ".toList ++ e ++
    ". Fix: remove the file.".toList

def cannotList (e : List Char) : List Char :=
  "llmenv: cannot list an entry of the detached job notices in ".toList ++ dir ++ ": ".toList ++ e ++
    ". Fix: check that the state folder is readable.".toList

end Messages

def tooLarge : List Char := "it holds more than 65536 bytes; make the file smaller".toList

/-- How far a hook run is. -/
inductive Stage where
  | ready
  /-- These files are still to be looked at. -/
  | look (todo : List (List Char))
  /-- The first one is a regular file. -/
  | read (name : List Char) (todo : List (List Char))
  | remove (name : List Char) (todo : List (List Char))

structure World (κ : Type) where
  files : List Char → Option Entry
  clock : Nat
  /-- The next number of each child. -/
  seqs : Nat → Nat
  stages : κ → Stage
  lists : κ → NoticeList
  /-- The notices that children have written, with their files. -/
  written : List (List Char × List Char)

/-- What the system answers: an error has a text. -/
abbrev Answer := Option (List Char)

inductive Act (κ : Type) where
  | tick (time : Nat)
  /-- A child records a notice. -/
  | record (pid : Nat) (text : List Char) (answer : Answer)
  /-- A hook run lists the folder. -/
  | list (k : κ) (entries : List (Except (List Char) (List Char)))
  | step (k : κ) (answer : Answer)
  /-- The hook run ends before its time. -/
  | stop (k : κ)
  /-- Something that is not a notice turns up in the folder. -/
  | plant (name : List Char)

section Steps

variable {κ : Type} [DecidableEq κ]

def World.setFile (w : World κ) (name : List Char) (entry : Option Entry) : World κ :=
  { w with files := Function.update w.files name entry }

def World.setStage (w : World κ) (k : κ) (stage : Stage) : World κ :=
  { w with stages := Function.update w.stages k stage }

/-- `super::record` in a hook run. -/
def World.tell (w : World κ) (k : κ) (text : List Char) : World κ :=
  { w with lists := Function.update w.lists k ((w.lists k).record text) }

/-- `write_in`: the whole file is there at once. -/
def recordChild (w : World κ) (pid : Nat) (text : List Char) (answer : Answer) : World κ :=
  let name := spoolName w.clock pid (w.seqs pid)
  let w := { w with seqs := Function.update w.seqs pid (w.seqs pid + 1) }
  match answer with
  | some _ => w
  | none =>
      { w.setFile name (some (.notice (clean text))) with
        written := (name, clean text) :: w.written }

def hasTxtExtension (name : List Char) : Bool := ".txt".toList.isSuffixOf name

/-- The order of paths in one folder. -/
def sortNames (names : List (List Char)) : List (List Char) :=
  names.insertionSort (· ≤ ·)

/-- The listing of the folder: an entry that cannot be listed becomes a notice. -/
def listFolder (dir : List Char) (w : World κ) (k : κ)
    (entries : List (Except (List Char) (List Char))) : World κ :=
  let seen := entries.take maxList
  let names := (seen.filterMap Except.toOption).filter hasTxtExtension
  let told := (seen.filterMap fun e => match e with
    | .error e => some (cannotList dir e)
    | .ok _ => none).foldl (fun w e => w.tell k e) w
  told.setStage k (.look ((sortNames names).take maxRead))

/-- `collect_one`, one system call at a time. -/
def stepCollect (dir : List Char) (w : World κ) (k : κ) (answer : Answer) : World κ :=
  match w.stages k with
  | .ready | .look [] => w
  | .look (name :: todo) =>
      match answer, w.files name with
      | some e, _ => (w.tell k (cannotRead dir name e)).setStage k (.remove name todo)
      -- Another hook run read it first.
      | none, none => w.setStage k (.look todo)
      | none, some .other => (w.tell k (notRegular dir name)).setStage k (.remove name todo)
      | none, some (.notice _) => w.setStage k (.read name todo)
  | .read name todo =>
      match answer, w.files name with
      | some e, _ => (w.tell k (cannotRead dir name e)).setStage k (.remove name todo)
      | none, none => w.setStage k (.look todo)
      | none, some .other =>
          (w.tell k (cannotRead dir name "it is not a regular file".toList)).setStage k
            (.remove name todo)
      | none, some (.notice text) =>
          if byteLen text ≤ maxNoticeBytes then (w.tell k text).setStage k (.remove name todo)
          else (w.tell k (cannotRead dir name tooLarge)).setStage k (.remove name todo)
  | .remove name todo =>
      match answer, w.files name with
      | some e, some _ => (w.tell k (cannotRemove dir name e)).setStage k (.look todo)
      | _, _ => (w.setFile name none).setStage k (.look todo)

/-- Names of this form are given to notices only. -/
def IsSpoolName (name : List Char) : Prop := ∃ nanos pid seq, name = spoolName nanos pid seq

def step (dir : List Char) (w : World κ) : Act κ → World κ
  | .tick time => { w with clock := w.clock + time }
  | .record pid text answer => recordChild w pid text answer
  | .list k entries => listFolder dir w k entries
  | .step k answer => stepCollect dir w k answer
  | .stop k => w.setStage k .ready
  | .plant name => w.setFile name (some .other)

end Steps

/-! ## What a hook run can do -/

section Moves

variable {κ : Type} [DecidableEq κ]

/-- There is something that cannot be read as a notice. -/
def Unfit : Option Entry → Prop
  | none => False
  | some .other => True
  | some (.notice text) => maxNoticeBytes < byteLen text

/-- All that a system call of hook run `k` can do. -/
inductive Moves (dir : List Char) (answer : Answer) (w : World κ) (k : κ) : World κ → Prop
  | stay : Moves dir answer w k w
  | skip {stage : Stage} (removes : ∀ name todo, stage ≠ .remove name todo) :
      Moves dir answer w k (w.setStage k stage)
  /-- The file is not read, and a message names it. -/
  | unread {name text : List Char} {todo : List (List Char)}
      (message : (∃ e, text = cannotRead dir name e) ∨ text = notRegular dir name)
      (cause : answer ≠ none ∨ Unfit (w.files name)) :
      Moves dir answer w k ((w.tell k text).setStage k (.remove name todo))
  | told {name text : List Char} {todo : List (List Char)}
      (file : w.files name = some (.notice text)) :
      Moves dir answer w k ((w.tell k text).setStage k (.remove name todo))
  | remove {name : List Char} {todo : List (List Char)}
      (before : w.stages k = .remove name todo) :
      Moves dir answer w k ((w.setFile name none).setStage k (.look todo))
  | keep {name e : List Char} {todo : List (List Char)} :
      Moves dir answer w k ((w.tell k (cannotRemove dir name e)).setStage k (.look todo))

theorem stepCollect_moves (dir : List Char) (w : World κ) (k : κ) (answer : Answer) :
    Moves dir answer w k (stepCollect dir w k answer) := by
  cases hstage : w.stages k with
  | ready =>
      simp only [stepCollect, hstage]
      exact .stay
  | look todo =>
      cases todo with
      | nil =>
          simp only [stepCollect, hstage]
          exact .stay
      | cons name todo =>
          cases answer with
          | some e =>
              simp only [stepCollect, hstage]
              exact .unread (Or.inl ⟨e, rfl⟩) (Or.inl (by simp))
          | none =>
              cases hfile : w.files name with
              | none =>
                  simp only [stepCollect, hstage, hfile]
                  exact .skip (by simp)
              | some entry =>
                  cases entry with
                  | other =>
                      simp only [stepCollect, hstage, hfile]
                      exact .unread (Or.inr rfl) (Or.inr (by rw [hfile]; trivial))
                  | notice text =>
                      simp only [stepCollect, hstage, hfile]
                      exact .skip (by simp)
  | read name todo =>
      cases answer with
      | some e =>
          simp only [stepCollect, hstage]
          exact .unread (Or.inl ⟨e, rfl⟩) (Or.inl (by simp))
      | none =>
          cases hfile : w.files name with
          | none =>
              simp only [stepCollect, hstage, hfile]
              exact .skip (by simp)
          | some entry =>
              cases entry with
              | other =>
                  simp only [stepCollect, hstage, hfile]
                  exact .unread (Or.inl ⟨_, rfl⟩) (Or.inr (by rw [hfile]; trivial))
              | notice text =>
                  simp only [stepCollect, hstage, hfile]
                  split
                  · exact .told hfile
                  · next hlarge =>
                      refine .unread (Or.inl ⟨_, rfl⟩) (Or.inr ?_)
                      rw [hfile]
                      exact Nat.lt_of_not_le hlarge
  | remove name todo =>
      cases answer with
      | none =>
          simp only [stepCollect, hstage]
          exact .remove hstage
      | some e =>
          cases hfile : w.files name with
          | none =>
              simp only [stepCollect, hstage, hfile]
              exact .remove hstage
          | some entry =>
              simp only [stepCollect, hstage, hfile]
              exact .keep

end Moves

/-! ## The names of the files -/

theorem dash_notMem_padded (n : Nat) : '-' ∉ padded n := by
  intro h
  rcases List.mem_append.mp h with h | h
  · exact absurd (List.eq_of_mem_replicate h) (by decide)
  · exact Separated.notMem_toDigits (by decide) n h

/-- The name of a file tells its child and its number. -/
theorem spoolName_inj {t t' p p' n n' : Nat} (h : spoolName t p n = spoolName t' p' n') :
    p = p' ∧ n = n' := by
  simp only [spoolName, List.cons_append, List.append_assoc] at h
  have hdash : ∀ m, '-' ∉ Nat.toDigits 10 m := Separated.notMem_toDigits (by decide)
  obtain ⟨-, hrest⟩ := Separated.first_part_inj (dash_notMem_padded t) (dash_notMem_padded t') h
  obtain ⟨hp, hn⟩ := Separated.first_part_inj (hdash p) (hdash p') hrest
  exact ⟨Separated.toDigits_inj hp, Separated.toDigits_inj (List.append_cancel_right hn)⟩

/-! ## No notice is lost -/

section Lost

variable {κ : Type} {dir : List Char}

/-- A hook run has a message that names the file. -/
def Named (dir : List Char) (list : NoticeList) (name : List Char) : Prop :=
  (∃ e, clean (cannotRead dir name e) ∈ list) ∨ clean (notRegular dir name) ∈ list

/-- Some hook run has the text, or, where a system call failed, a message that names its file. -/
def Told (dir : List Char) (failed : Prop) (w : World κ) (name text : List Char) : Prop :=
  ∃ k, text ∈ w.lists k ∨ failed ∧ Named dir (w.lists k) name

structure Inv (dir : List Char) (failed : Prop) (w : World κ) : Prop where
  numbered : ∀ name text, (name, text) ∈ w.written →
    ∃ nanos pid seq, name = spoolName nanos pid seq ∧ seq < w.seqs pid
  unique : ∀ name text text', (name, text) ∈ w.written → (name, text') ∈ w.written → text = text'
  clean : ∀ name text, (name, text) ∈ w.written → ∃ raw, text = clean raw
  files : ∀ name text, w.files name = some (.notice text) → (name, text) ∈ w.written
  others : ∀ name, w.files name = some .other → ¬ IsSpoolName name
  kept : ∀ name text, (name, text) ∈ w.written →
    w.files name = some (.notice text) ∨ Told dir failed w name text
  /-- A file that is about to be removed was told of, or it is no notice. -/
  removing : ∀ k name todo, w.stages k = .remove name todo →
    failed ∧ Named dir (w.lists k) name ∨ (∃ text, (name, text) ∈ w.written ∧ text ∈ w.lists k) ∨
      ¬ IsSpoolName name

theorem byteLen_le (text : List Char) : byteLen text ≤ 4 * text.length := by
  induction text with
  | nil => exact Nat.le_refl _
  | cons c cs ih =>
      have hc := c.utf8Size_le_four
      simp only [byteLen_cons, List.length_cons]
      omega

/-- A clean notice fits in what a hook run reads of a file. -/
theorem byteLen_clean_le (text : List Char) : byteLen (Notices.clean text) ≤ maxNoticeBytes := by
  have hlen := length_clean_le text
  have hbytes := byteLen_le (Notices.clean text)
  simp only [maxNoticeBytes, maxNoticeChars] at hlen ⊢
  omega

theorem mem_record {notices : NoticeList} {notice t : List Char} :
    t ∈ notices.record notice ↔ t ∈ notices ∨ t = Notices.clean notice := by
  unfold NoticeList.record
  split
  · next h =>
      constructor
      · exact Or.inl
      · rintro (ht | rfl)
        · exact ht
        · exact List.contains_iff_mem.mp h
  · simp

theorem Named.mono {list list' : NoticeList} {name : List Char} (h : Named dir list name)
    (hsub : list ⊆ list') : Named dir list' name :=
  h.imp (fun ⟨e, he⟩ => ⟨e, hsub he⟩) (fun he => hsub he)

theorem Told.mono {failed : Prop} {w w' : World κ} {name text : List Char}
    (h : Told dir failed w name text) (hsub : ∀ k, w.lists k ⊆ w'.lists k) :
    Told dir failed w' name text := by
  obtain ⟨k, ht | ⟨hf, hn⟩⟩ := h
  · exact ⟨k, Or.inl (hsub k ht)⟩
  · exact ⟨k, Or.inr ⟨hf, hn.mono (hsub k)⟩⟩

variable [DecidableEq κ] {failed : Prop} {w : World κ}

theorem lists_tell (w : World κ) (k k' : κ) (text : List Char) :
    w.lists k' ⊆ (w.tell k text).lists k' := by
  intro t ht
  by_cases hk : k' = k
  · subst hk
    simpa [World.tell, mem_record] using Or.inl ht
  · simpa [World.tell, hk] using ht

theorem mem_tell (w : World κ) (k : κ) (text : List Char) :
    Notices.clean text ∈ (w.tell k text).lists k := by
  simp [World.tell, mem_record]

theorem Inv.tell (h : Inv dir failed w) (k : κ) (text : List Char) :
    Inv dir failed (w.tell k text) where
  numbered := h.numbered
  unique := h.unique
  clean := h.clean
  files := h.files
  others := h.others
  kept name t ht :=
    (h.kept name t ht).imp_right fun told => told.mono fun k' => lists_tell w k k' text
  removing k' name todo hstage := by
    rcases h.removing k' name todo hstage with ⟨hf, hn⟩ | ⟨t, ht, hlist⟩ | hother
    · exact Or.inl ⟨hf, hn.mono (lists_tell w k k' text)⟩
    · exact Or.inr (Or.inl ⟨t, ht, lists_tell w k k' text hlist⟩)
    · exact Or.inr (Or.inr hother)

/-- A hook run goes on to a stage in which it removes nothing, or a file that was told of. -/
theorem Inv.setStage (h : Inv dir failed w) (k : κ) {stage : Stage}
    (hstage : ∀ name todo, stage = .remove name todo →
      failed ∧ Named dir (w.lists k) name ∨
        (∃ text, (name, text) ∈ w.written ∧ text ∈ w.lists k) ∨ ¬ IsSpoolName name) :
    Inv dir failed (w.setStage k stage) where
  numbered := h.numbered
  unique := h.unique
  clean := h.clean
  files := h.files
  others := h.others
  kept := h.kept
  removing k' name todo hk := by
    by_cases hne : k' = k
    · subst hne
      simp only [World.setStage, Function.update_self] at hk
      exact hstage name todo hk
    · exact h.removing k' name todo (by simpa [World.setStage, hne] using hk)

omit [DecidableEq κ] in
/-- What cannot be read as a notice is not one. -/
theorem Inv.unfit (h : Inv dir failed w) {name : List Char} (hunfit : Unfit (w.files name)) :
    ¬ IsSpoolName name := by
  cases hfile : w.files name with
  | none =>
      rw [hfile] at hunfit
      exact absurd hunfit id
  | some entry =>
      cases entry with
      | other => exact h.others name hfile
      | notice text =>
          rw [hfile] at hunfit
          obtain ⟨raw, rfl⟩ := h.clean name text (h.files name text hfile)
          exact absurd hunfit (Nat.not_lt.mpr (byteLen_clean_le raw))

theorem Inv.moves {w' : World κ} {k : κ} {answer : Answer} (h : Inv dir failed w)
    (hfailed : answer ≠ none → failed) (hmoves : Moves dir answer w k w') : Inv dir failed w' := by
  cases hmoves with
  | stay => exact h
  | skip hstage => exact h.setStage k (fun name todo heq => absurd heq (hstage name todo))
  | @unread name text todo message cause =>
      refine (h.tell k text).setStage k ?_
      intro name' todo' hstage
      obtain ⟨rfl, -⟩ := Stage.remove.inj hstage
      rcases cause with herror | hunfit
      · have hmem := mem_tell w k text
        refine Or.inl ⟨hfailed herror, ?_⟩
        rcases message with ⟨e, rfl⟩ | rfl
        · exact Or.inl ⟨e, hmem⟩
        · exact Or.inr hmem
      · exact Or.inr (Or.inr (h.unfit hunfit))
  | @told name text todo hfile =>
      refine (h.tell k text).setStage k ?_
      intro name' todo' heq
      obtain ⟨rfl, -⟩ := Stage.remove.inj heq
      have hwritten := h.files name text hfile
      obtain ⟨raw, rfl⟩ := h.clean name text hwritten
      have hmem := mem_tell w k (Notices.clean raw)
      rw [clean_clean] at hmem
      exact Or.inr (Or.inl ⟨_, hwritten, hmem⟩)
  | @remove name todo hstage =>
      have hremoved : Inv dir failed (w.setFile name none) := by
        refine ⟨h.numbered, h.unique, h.clean, ?_, ?_, ?_, h.removing⟩
        · intro name' text hfile
          by_cases hne : name' = name
          · subst hne
            simp [World.setFile] at hfile
          · exact h.files name' text (by simpa [World.setFile, hne] using hfile)
        · intro name' hfile
          by_cases hne : name' = name
          · subst hne
            simp [World.setFile] at hfile
          · exact h.others name' (by simpa [World.setFile, hne] using hfile)
        · intro name' text hwritten
          by_cases hne : name' = name
          · subst hne
            -- The file that goes was told of, and its text is the only one under its name.
            refine Or.inr ?_
            rcases h.removing k name' todo hstage with hn | ⟨text', hwritten', hlist⟩ | hother
            · exact ⟨k, Or.inr hn⟩
            · exact ⟨k, Or.inl (h.unique name' text text' hwritten hwritten' ▸ hlist)⟩
            · obtain ⟨nanos, pid, seq, hname, -⟩ := h.numbered name' text hwritten
              exact absurd ⟨nanos, pid, seq, hname⟩ hother
          · rcases h.kept name' text hwritten with hfile | htold
            · exact Or.inl (by simpa [World.setFile, hne] using hfile)
            · exact Or.inr htold
      exact hremoved.setStage k (fun _ _ heq => absurd heq (by simp))
  | keep => exact (h.tell k _).setStage k (fun _ _ heq => absurd heq (by simp))

omit [DecidableEq κ] in
/-- The next name of a child is new. -/
theorem Inv.new_name (h : Inv dir failed w) (pid : Nat) (t : List Char) :
    (spoolName w.clock pid (w.seqs pid), t) ∉ w.written := by
  intro ht
  obtain ⟨nanos, p, seq, hname, hlt⟩ := h.numbered _ t ht
  obtain ⟨rfl, rfl⟩ := spoolName_inj hname
  exact Nat.lt_irrefl _ hlt

omit [DecidableEq κ] in
theorem Inv.recordChild (h : Inv dir failed w) (pid : Nat) (text : List Char) (answer : Answer) :
    Inv dir failed (recordChild w pid text answer) := by
  have hle : ∀ p, w.seqs p ≤ Function.update w.seqs pid (w.seqs pid + 1) p := by
    intro p
    by_cases hp : p = pid
    · subst hp
      simp
    · simp [hp]
  have hnumbered : ∀ name t, (name, t) ∈ w.written → ∃ nanos p seq,
      name = spoolName nanos p seq ∧ seq < Function.update w.seqs pid (w.seqs pid + 1) p := by
    intro name t ht
    obtain ⟨nanos, p, seq, hname, hlt⟩ := h.numbered name t ht
    exact ⟨nanos, p, seq, hname, Nat.lt_of_lt_of_le hlt (hle p)⟩
  have hnew := h.new_name pid
  cases answer with
  | some e => exact ⟨hnumbered, h.unique, h.clean, h.files, h.others, h.kept, h.removing⟩
  | none =>
      simp only [Spool.recordChild]
      refine ⟨?_, ?_, ?_, ?_, ?_, ?_, ?_⟩
      · intro name t ht
        rcases List.mem_cons.mp ht with heq | ht
        · obtain ⟨rfl, -⟩ := Prod.mk.inj heq
          exact ⟨_, pid, w.seqs pid, rfl, by simp [World.setFile]⟩
        · exact hnumbered name t ht
      · intro name t t' ht ht'
        rcases List.mem_cons.mp ht with heq | ht <;> rcases List.mem_cons.mp ht' with heq' | ht'
        · exact (Prod.mk.inj heq).2.trans (Prod.mk.inj heq').2.symm
        · exact absurd ((Prod.mk.inj heq).1 ▸ ht') (hnew t')
        · exact absurd ((Prod.mk.inj heq').1 ▸ ht) (hnew t)
        · exact h.unique name t t' ht ht'
      · intro name t ht
        rcases List.mem_cons.mp ht with heq | ht
        · exact ⟨text, (Prod.mk.inj heq).2⟩
        · exact h.clean name t ht
      · intro name t hfile
        by_cases hne : name = spoolName w.clock pid (w.seqs pid)
        · subst hne
          obtain rfl : Notices.clean text = t := by simpa [World.setFile] using hfile
          exact List.mem_cons_self
        · exact List.mem_cons_of_mem _ (h.files name t (by simpa [World.setFile, hne] using hfile))
      · intro name hfile
        by_cases hne : name = spoolName w.clock pid (w.seqs pid)
        · subst hne
          simp [World.setFile] at hfile
        · exact h.others name (by simpa [World.setFile, hne] using hfile)
      · intro name t ht
        rcases List.mem_cons.mp ht with heq | ht
        · obtain ⟨rfl, rfl⟩ := Prod.mk.inj heq
          exact Or.inl (by simp [World.setFile])
        · have hne : name ≠ spoolName w.clock pid (w.seqs pid) := by
            rintro rfl
            exact hnew t ht
          rcases h.kept name t ht with hfile | htold
          · exact Or.inl (by simpa [World.setFile, hne] using hfile)
          · exact Or.inr htold
      · intro k name todo hstage
        rcases h.removing k name todo hstage with hn | ⟨t, ht, hlist⟩ | hother
        · exact Or.inl hn
        · exact Or.inr (Or.inl ⟨t, List.mem_cons_of_mem _ ht, hlist⟩)
        · exact Or.inr (Or.inr hother)

/-- The messages of a listing. -/
theorem Inv.listFolder (h : Inv dir failed w) (k : κ)
    (entries : List (Except (List Char) (List Char))) :
    Inv dir failed (listFolder dir w k entries) := by
  have htell : ∀ (told : List (List Char)) (w : World κ), Inv dir failed w →
      Inv dir failed (told.foldl (fun w e => w.tell k e) w) := by
    intro told
    induction told with
    | nil => exact fun _ hw => hw
    | cons e told ih => exact fun w hw => ih _ (hw.tell k e)
  exact (htell _ w h).setStage k (fun _ _ heq => absurd heq (by simp))

/-- Only notices get a name of the form of a notice, and a system call of a hook run that fails is
one. -/
def Fair (failed : Prop) : Act κ → Prop
  | .plant name => ¬ IsSpoolName name
  | .step _ answer => answer ≠ none → failed
  | _ => True

theorem step_inv (w : World κ) (act : Act κ) (h : Inv dir failed w) (hfair : Fair failed act) :
    Inv dir failed (step dir w act) := by
  cases act with
  | tick time => exact ⟨h.numbered, h.unique, h.clean, h.files, h.others, h.kept, h.removing⟩
  | record pid text answer => exact h.recordChild pid text answer
  | list k entries => exact h.listFolder k entries
  | step k answer => exact h.moves hfair (stepCollect_moves dir w k answer)
  | stop k => exact h.setStage k (fun _ _ heq => absurd heq (by simp))
  | plant name =>
      refine ⟨h.numbered, h.unique, h.clean, ?_, ?_, ?_, h.removing⟩
      · intro name' text hfile
        by_cases hne : name' = name
        · subst hne
          simp [step, World.setFile] at hfile
        · exact h.files name' text (by simpa [step, World.setFile, hne] using hfile)
      · intro name' hfile
        by_cases hne : name' = name
        · subst hne
          exact hfair
        · exact h.others name' (by simpa [step, World.setFile, hne] using hfile)
      · intro name' text hwritten
        obtain ⟨nanos, pid, seq, hname, -⟩ := h.numbered name' text hwritten
        have hne : name' ≠ name := by
          rintro rfl
          exact hfair ⟨nanos, pid, seq, hname⟩
        rcases h.kept name' text hwritten with hfile | htold
        · exact Or.inl (by simpa [step, World.setFile, hne] using hfile)
        · exact Or.inr htold

/-! ## The order in which notices are read -/

/-- The first of two names is not from a later time, where both are names of notices. -/
def NotLater (a b : List Char) : Prop :=
  ∀ nanos pid seq nanos' pid' seq', nanos < 10 ^ (19 + 1) → nanos' < 10 ^ (19 + 1) →
    a = spoolName nanos pid seq → b = spoolName nanos' pid' seq' → nanos ≤ nanos'

/-- The name of the later notice is the greater one. -/
theorem spoolName_lt {nanos nanos' : Nat} (h : nanos < nanos') (hlt : nanos' < 10 ^ (19 + 1))
    (pid seq pid' seq' : Nat) : spoolName nanos pid seq < spoolName nanos' pid' seq' := by
  have hpadded : ∀ n, padded n = Padded.padded (19 + 1) n := fun _ => rfl
  simp only [spoolName, hpadded, List.append_assoc, List.cons_append]
  exact (Padded.padded_append_lt_iff (h.trans hlt) hlt).mpr (.inl h)

theorem notLater_of_le {a b : List Char} (h : a ≤ b) : NotLater a b := by
  rintro nanos pid seq nanos' pid' seq' hlt hlt' rfl rfl
  refine Nat.le_of_not_lt fun hlater => ?_
  exact absurd (spoolName_lt hlater hlt pid' seq' pid seq) (not_lt_of_ge h)

/-- A hook run reads the notices that it lists oldest first. -/
theorem reads_oldest_first (dir : List Char) (w : World κ) (k : κ)
    (entries : List (Except (List Char) (List Char))) :
    ∃ todo, (listFolder dir w k entries).stages k = .look todo ∧ todo.length ≤ maxRead ∧
      todo.Pairwise NotLater := by
  refine ⟨_, Function.update_self .., List.length_take_le _ _, ?_⟩
  have hsorted := List.pairwise_insertionSort (fun a b : List Char => a ≤ b)
    (((entries.take maxList).filterMap Except.toOption).filter hasTxtExtension)
  exact (hsorted.sublist (List.take_sublist _ _)).imp notLater_of_le

/-- The folder is empty, and no hook run has begun; the hook runs have told something already. -/
def start (clock : Nat) (lists : κ → NoticeList) : World κ :=
  ⟨fun _ => none, clock, fun _ => 0, fun _ => .ready, lists, []⟩

/-- A system call of a hook run failed. -/
def Failed (acts : List (Act κ)) : Prop := ∃ k e, Act.step k (some e) ∈ acts

/-- A notice that a child wrote is in its file, or a hook run has its text, or a system call of a
hook run failed and a hook run has a message that names the file. -/
theorem no_notice_lost (dir : List Char) (clock : Nat) (lists : κ → NoticeList)
    (acts : List (Act κ)) (hplants : ∀ name, Act.plant name ∈ acts → ¬ IsSpoolName name)
    (name text : List Char) :
    let w := runFrom (step dir) (start clock lists) acts
    (name, text) ∈ w.written → w.files name = some (.notice text) ∨
      (∃ k, text ∈ w.lists k) ∨ Failed acts ∧ ∃ k, Named dir (w.lists k) name := by
  intro w hwritten
  have hfair : ∀ act ∈ acts, Fair (Failed acts) act := by
    intro act hact
    cases act with
    | plant name => exact hplants name hact
    | step k answer =>
        intro herror
        obtain ⟨e, rfl⟩ := Option.ne_none_iff_exists'.mp herror
        exact ⟨k, e, hact⟩
    | _ => trivial
  have h : Inv dir (Failed acts) w := by
    refine inv_of_guarded (Inv dir (Failed acts)) step_inv ?_ (guarded_of_forall hfair)
    exact ⟨by simp [start], by simp [start], by simp [start], by simp [start], by simp [start],
      by simp [start], by simp [start]⟩
  rcases h.kept name text hwritten with hfile | ⟨k, ht | ⟨hf, hn⟩⟩
  · exact Or.inl hfile
  · exact Or.inr (Or.inl ⟨k, ht⟩)
  · exact Or.inr (Or.inr ⟨hf, k, hn⟩)

end Lost

/-! ## Nothing else is told -/

section Told

variable {κ : Type} {dir : List Char}

/-- A message about the folder or one of its files. -/
inductive Message (dir : List Char) : List Char → Prop
  | cannotRead (name e : List Char) : Message dir (clean (cannotRead dir name e))
  | notRegular (name : List Char) : Message dir (clean (notRegular dir name))
  | cannotRemove (name e : List Char) : Message dir (clean (cannotRemove dir name e))
  | cannotList (e : List Char) : Message dir (clean (cannotList dir e))

/-- What a hook run tells it told before, or a child wrote it, or it is a message. -/
structure Sourced (dir : List Char) (lists : κ → NoticeList) (w : World κ) : Prop where
  clean : ∀ name text, (name, text) ∈ w.written → clean text = text
  files : ∀ name text, w.files name = some (.notice text) → (name, text) ∈ w.written
  told : ∀ k t, t ∈ w.lists k → t ∈ lists k ∨ (∃ name, (name, t) ∈ w.written) ∨ Message dir t

variable [DecidableEq κ] {w : World κ} {lists : κ → NoticeList}

theorem Sourced.tell (h : Sourced dir lists w) (k : κ) {text : List Char}
    (htext : (∃ name, (name, Notices.clean text) ∈ w.written) ∨ Message dir (Notices.clean text)) :
    Sourced dir lists (w.tell k text) := by
  refine ⟨h.clean, h.files, ?_⟩
  intro k' t ht
  by_cases hne : k' = k
  · subst hne
    rcases mem_record.mp (by simpa [World.tell] using ht) with hold | rfl
    · exact h.told k' t hold
    · exact Or.inr htext
  · exact h.told k' t (by simpa [World.tell, hne] using ht)

omit [DecidableEq κ] in
theorem Sourced.setFile (h : Sourced dir lists w) (name : List Char) {entry : Option Entry}
    (hentry : ∀ text, entry ≠ some (.notice text)) : Sourced dir lists (w.setFile name entry) := by
  refine ⟨h.clean, ?_, h.told⟩
  intro name' text hfile
  by_cases hne : name' = name
  · subst hne
    exact absurd (by simpa [World.setFile] using hfile) (hentry text)
  · exact h.files name' text (by simpa [World.setFile, hne] using hfile)

theorem Sourced.setStage (h : Sourced dir lists w) (k : κ) (stage : Stage) :
    Sourced dir lists (w.setStage k stage) := ⟨h.clean, h.files, h.told⟩

theorem Sourced.moves {w' : World κ} {k : κ} {answer : Answer} (h : Sourced dir lists w)
    (hmoves : Moves dir answer w k w') : Sourced dir lists w' := by
  cases hmoves with
  | stay => exact h
  | skip => exact h.setStage k _
  | unread message =>
      refine (h.tell k (Or.inr ?_)).setStage k _
      rcases message with ⟨e, rfl⟩ | rfl
      · exact .cannotRead _ e
      · exact .notRegular _
  | @told name text todo file =>
      have hwritten := h.files name text file
      refine (h.tell k (Or.inl ⟨name, ?_⟩)).setStage k _
      rw [h.clean name text hwritten]
      exact hwritten
  | remove => exact (h.setFile _ (by simp)).setStage k _
  | keep => exact (h.tell k (Or.inr (.cannotRemove _ _))).setStage k _

theorem Sourced.step (w : World κ) (act : Act κ) (h : Sourced dir lists w) :
    Sourced dir lists (step dir w act) := by
  cases act with
  | tick time => exact ⟨h.clean, h.files, h.told⟩
  | record pid text answer =>
      cases answer with
      | some e => exact ⟨h.clean, h.files, h.told⟩
      | none =>
          simp only [Spool.step, recordChild]
          refine ⟨?_, ?_, ?_⟩
          · intro name t ht
            rcases List.mem_cons.mp ht with heq | ht
            · rw [(Prod.mk.inj heq).2]
              exact clean_clean text
            · exact h.clean name t ht
          · intro name t hfile
            by_cases hne : name = spoolName w.clock pid (w.seqs pid)
            · subst hne
              obtain rfl : Notices.clean text = t := by simpa [World.setFile] using hfile
              exact List.mem_cons_self
            · exact List.mem_cons_of_mem _
                (h.files name t (by simpa [World.setFile, hne] using hfile))
          · intro k t ht
            rcases h.told k t ht with hl | ⟨name, hw⟩ | hm
            · exact Or.inl hl
            · exact Or.inr (Or.inl ⟨name, List.mem_cons_of_mem _ hw⟩)
            · exact Or.inr (Or.inr hm)
  | list k entries =>
      have htell : ∀ (told : List (List Char)) (w : World κ),
          (∀ t ∈ told, ∃ e, t = cannotList dir e) → Sourced dir lists w →
          Sourced dir lists (told.foldl (fun w e => w.tell k e) w) := by
        intro told
        induction told with
        | nil => exact fun _ _ hw => hw
        | cons t told ih =>
            intro w ht hw
            obtain ⟨e, rfl⟩ := ht t List.mem_cons_self
            exact ih _ (fun t' ht' => ht t' (List.mem_cons_of_mem _ ht'))
              (hw.tell k (Or.inr (.cannotList e)))
      refine (htell _ w ?_ h).setStage k _
      intro t ht
      obtain ⟨entry, -, hentry⟩ := List.mem_filterMap.mp ht
      cases entry with
      | ok name => exact absurd hentry (by simp)
      | error e => exact ⟨e, (Option.some.inj hentry).symm⟩
  | step k answer => exact h.moves (stepCollect_moves dir w k answer)
  | stop k => exact h.setStage k _
  | plant name => exact h.setFile name (by simp)

end Told

/-! ## One child and one hook run -/

/-- The hook run reads the notice and removes its file. -/
def oneChild : List (Act Unit) :=
  [.record 7 "backup failed.\nFix: run it again.".toList none, .tick 5,
    .list () [.ok (spoolName 0 7 0)], .step () none, .step () none, .step () none]

theorem no_notice_lost_one_child :
    let w := runFrom (step "spool".toList) (start 0 fun _ => []) oneChild
    let text := clean "backup failed.\nFix: run it again.".toList
    w.files (spoolName 0 7 0) = some (.notice text) ∨ (∃ k, text ∈ w.lists k) ∨
      Failed oneChild ∧ ∃ k, Named "spool".toList (w.lists k) (spoolName 0 7 0) :=
  no_notice_lost "spool".toList 0 (fun _ => []) oneChild (by simp [oneChild]) _ _
    List.mem_cons_self

end Llmenv.Notices.Spool
