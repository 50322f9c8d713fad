/-
# `Llmenv.Lib.Inodes` — names, and the files behind them

A name of a file system leads to a file, and the file is not its name: a program
that has opened a file keeps it when the name is removed or given to another
file.  So the files are numbered, a name holds a number, and an open file is a
number.  `rename` moves a name onto another one in one step, and neither it nor
`unlink` changes a file.

Each operation comes with what a name leads to afterwards and what a file has.
-/
import Mathlib.Data.List.Basic
import Mathlib.Logic.Function.Basic

namespace Llmenv.Lib

/-- A file system over names `ν` whose files have contents in `α`. -/
structure Inodes (ν α : Type) where
  names : ν → Option Nat
  files : List α
  ok : ∀ n i, names n = some i → i < files.length

namespace Inodes

section Files

variable {ν α : Type}

def empty : Inodes ν α := ⟨fun _ => none, [], by simp⟩

def file (d : Inodes ν α) (i : Nat) : Option α := d.files[i]?

/-- The file under a name. -/
def read (d : Inodes ν α) (n : ν) : Option α := (d.names n).bind d.file

def modify (d : Inodes ν α) (i : Nat) (f : α → α) : Inodes ν α where
  names := d.names
  files := d.files.modify i f
  ok n i h := by simpa using d.ok n i h

variable (d : Inodes ν α) {i j : Nat}

theorem names_ne_length (n : ν) : d.names n ≠ some d.files.length := by
  intro h
  exact Nat.lt_irrefl _ (d.ok n _ h)

theorem file_lt {a : α} (h : d.file i = some a) : i < d.files.length :=
  (List.getElem?_eq_some_iff.mp h).1

@[simp] theorem names_modify (f : α → α) : (d.modify i f).names = d.names := rfl

@[simp] theorem file_modify_self (f : α → α) : (d.modify i f).file i = (d.file i).map f := by
  simp [file, modify]

theorem file_modify_of_ne (h : i ≠ j) (f : α → α) : (d.modify i f).file j = d.file j := by
  simp [file, modify, h]

theorem read_modify_of_ne {n : ν} (h : d.names n ≠ some i) (f : α → α) :
    (d.modify i f).read n = d.read n := by
  cases hn : d.names n with
  | none => simp [read, hn]
  | some j =>
      have hne : i ≠ j := by
        rintro rfl
        exact h hn
      simp [read, hn, d.file_modify_of_ne hne]

end Files

section Names

variable {ν α : Type} [DecidableEq ν]

/-- A new file under the name. -/
def create (d : Inodes ν α) (n : ν) (a : α) : Inodes ν α where
  names := Function.update d.names n (some d.files.length)
  files := d.files ++ [a]
  ok m i h := by
    by_cases hm : m = n
    · subst hm
      simp only [Function.update_self, Option.some.injEq] at h
      simp [← h]
    · rw [Function.update_of_ne hm] at h
      simp only [List.length_append, List.length_singleton]
      exact Nat.lt_succ_of_lt (d.ok m i h)

def unlink (d : Inodes ν α) (n : ν) : Inodes ν α where
  names := Function.update d.names n none
  files := d.files
  ok m i h := by
    by_cases hm : m = n
    · subst hm
      simp at h
    · rw [Function.update_of_ne hm] at h
      exact d.ok m i h

/-- The file under `m` moves to the name `n`; nothing happens when there is none. -/
def rename (d : Inodes ν α) (m n : ν) : Inodes ν α where
  names := if (d.names m).isSome then
      Function.update (Function.update d.names m none) n (d.names m)
    else d.names
  files := d.files
  ok k i h := by
    split at h
    · by_cases hk : k = n
      · subst hk
        rw [Function.update_self] at h
        exact d.ok m i h
      · rw [Function.update_of_ne hk] at h
        by_cases hm : k = m
        · subst hm
          simp at h
        · rw [Function.update_of_ne hm] at h
          exact d.ok k i h
    · exact d.ok k i h

/-- The file under `m` gets the name `n` too. -/
def link (d : Inodes ν α) (m n : ν) : Inodes ν α where
  names := Function.update d.names n (d.names m)
  files := d.files
  ok k i h := by
    by_cases hk : k = n
    · subst hk
      rw [Function.update_self] at h
      exact d.ok m i h
    · rw [Function.update_of_ne hk] at h
      exact d.ok k i h

variable (d : Inodes ν α) {k m n : ν} {i : Nat}

@[simp] theorem names_create_self (a : α) : (d.create n a).names n = some d.files.length := by
  simp [create]

theorem names_create_of_ne (h : m ≠ n) (a : α) : (d.create n a).names m = d.names m := by
  simp [create, h]

@[simp] theorem names_unlink_self : (d.unlink n).names n = none := by simp [unlink]

theorem names_unlink_of_ne (h : m ≠ n) : (d.unlink n).names m = d.names m := by simp [unlink, h]

theorem names_rename_target (h : d.names m = some i) : (d.rename m n).names n = some i := by
  simp [rename, h]

theorem names_rename_source (h : d.names m = some i) (hne : m ≠ n) :
    (d.rename m n).names m = none := by
  simp [rename, h, hne]

theorem names_rename_of_ne (hm : k ≠ m) (hn : k ≠ n) : (d.rename m n).names k = d.names k := by
  unfold rename
  split <;> simp [hm, hn]

@[simp] theorem names_link_self : (d.link m n).names n = d.names m := by simp [link]

theorem names_link_of_ne (h : k ≠ n) : (d.link m n).names k = d.names k := by simp [link, h]

@[simp] theorem file_create_self (a : α) : (d.create n a).file d.files.length = some a := by
  simp [file, create]

theorem file_create_of_lt (h : i < d.files.length) (a : α) : (d.create n a).file i = d.file i := by
  simp [file, create, List.getElem?_append_left h]

theorem read_create_of_ne (h : m ≠ n) (a : α) : (d.create n a).read m = d.read m := by
  rw [read, d.names_create_of_ne h, read]
  cases hm : d.names m with
  | none => rfl
  | some i => exact d.file_create_of_lt (d.ok m i hm) a

theorem read_unlink_of_ne (h : m ≠ n) : (d.unlink n).read m = d.read m := by
  rw [read, d.names_unlink_of_ne h]
  rfl

theorem read_rename_target (h : d.names m = some i) : (d.rename m n).read n = d.file i := by
  rw [read, d.names_rename_target h]
  rfl

theorem read_rename_of_ne (hm : k ≠ m) (hn : k ≠ n) : (d.rename m n).read k = d.read k := by
  rw [read, d.names_rename_of_ne hm hn]
  rfl

@[simp] theorem file_unlink : (d.unlink n).file i = d.file i := rfl

@[simp] theorem file_rename : (d.rename m n).file i = d.file i := rfl

@[simp] theorem file_link : (d.link m n).file i = d.file i := rfl

end Names

end Inodes

end Llmenv.Lib
