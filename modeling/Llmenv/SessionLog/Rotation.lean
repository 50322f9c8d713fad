/-
# `Llmenv.SessionLog.Rotation` — the generations of the session log

`rotate_if_full` of `src/session_log/rotation.rs`, one file operation at a
time, with the appends of `src/session_log/file_sink.rs` in between.  A
rotation removes the oldest generation, moves each of the others up by one and
then the active file into the first place.  Any of these operations may fail;
the attempt stops there, and a later append starts the next one from the top.

The removal comes first, so when a file goes, the one that pushes it out is
still active: `keptRotations - 1` later files have been moved to generation 1
at that moment, not `keptRotations`.  An attempt that a failed rename stops has
moved some generations already, and the next attempt moves them again: each
stopped attempt counts like a file, and in every state the generations are in
order (`removed_after`).
-/
import Mathlib.Order.Nat
import Llmenv.Lib.History
import Llmenv.Lib.Runs

namespace Llmenv.SessionLog

open Llmenv.Lib

/-! ## The code -/

/-- Rotated generations kept beside the active file. -/
def keptRotations : Nat := 3

/-- A file, with the number of the file that this log created as its name. -/
structure LogFile where
  id : Nat
  bytes : Nat

/-- The operation of `rotate_if_full` that comes next. -/
inductive Phase where
  /-- No attempt is running. -/
  | idle
  /-- `remove_file` of the oldest generation. -/
  | remove
  /-- `rename` of generation `n` to `n + 1`. -/
  | shift (n : Nat)
  /-- `rename` of the active file to generation 1. -/
  | first
deriving DecidableEq

/-- What happened to a file. -/
inductive Record where
  | moved (id : Nat)
  | removed (id : Nat)
  | renameFailed
deriving DecidableEq

structure State where
  active : Option LogFile
  /-- The file at `rotation_path(path, n)`. -/
  gen : Nat → Option Nat
  /-- How many files the appends have created. -/
  created : Nat
  phase : Phase
  history : List Record

inductive Input where
  /-- One line is appended, by any process. -/
  | append (bytes : Nat)
  /-- `rotate_if_full` is called. -/
  | rotate (maxBytes : Nat)
  /-- The next operation of the attempt; `false` is an error other than "not found". -/
  | operation (succeeds : Bool)

def isFull (active : Option LogFile) (maxBytes : Nat) : Bool :=
  active.any fun f => decide (maxBytes ≤ f.bytes)

/-- The operation after the removal, and after the rename of generation `n + 1`. -/
def afterShift : Nat → Phase
  | 0 => .first
  | n + 1 => .shift (n + 1)

/-- Generation `n` takes the name of the next one; a missing file is no error. -/
def shiftGen (gen : Nat → Option Nat) (n : Nat) : Nat → Option Nat :=
  if (gen n).isSome then
    fun m => if m = n + 1 then gen n else if m = n then none else gen m
  else gen

def stop (s : State) : State :=
  { s with phase := .idle, history := .renameFailed :: s.history }

def operation (s : State) (succeeds : Bool) : State :=
  match s.phase with
  | .idle => s
  | .remove =>
      if succeeds then
        { s with
          gen := fun m => if m = keptRotations then none else s.gen m
          phase := afterShift (keptRotations - 1)
          history := match s.gen keptRotations with
            | some id => .removed id :: s.history
            | none => s.history }
      else { s with phase := .idle }
  | .shift n =>
      if succeeds then { s with gen := shiftGen s.gen n, phase := afterShift (n - 1) } else stop s
  | .first =>
      match s.active with
      | some f =>
          if succeeds then
            { s with
              active := none
              gen := fun m => if m = 1 then some f.id else s.gen m
              phase := .idle
              history := .moved f.id :: s.history }
          else stop s
      -- This rename does not take a missing file for done.
      | none => stop s

def step (s : State) : Input → State
  | .append bytes =>
      match s.active with
      | some f => { s with active := some { f with bytes := f.bytes + bytes } }
      | none => { s with active := some ⟨s.created, bytes⟩, created := s.created + 1 }
  | .rotate maxBytes =>
      -- The lock keeps a second attempt out.
      if s.phase = .idle ∧ isFull s.active maxBytes then { s with phase := .remove } else s
  | .operation succeeds => operation s succeeds

def start : State := ⟨none, fun _ => none, 0, .idle, []⟩

/-! ## What the history says of a removal -/

/-- A later file took generation 1. -/
def isMoved : Record → Bool
  | .moved _ => true
  | _ => false

/-- A later file took generation 1, or a failed rename stopped an attempt. -/
def isPush : Record → Bool
  | .moved _ => true
  | .renameFailed => true
  | .removed _ => false

/-- A file that was moved to generation 1 is removed after at least `k` records
of the kind `p`. -/
def RemovedAfter (k : Nat) (p : Record → Bool) (history : List Record) : Prop :=
  ∀ newer id older, history = newer ++ .removed id :: older → .moved id ∈ older →
    k ≤ countSince (· == .moved id) p older

/-- From low to high number the generations are from new to old. -/
def Ordered (s : State) : Prop :=
  ∀ i j a b, i < j → s.gen i = some a → s.gen j = some b → b < a

theorem removedAfter_cons {k : Nat} {p : Record → Bool} {r : Record} {history : List Record} :
    RemovedAfter k p (r :: history) ↔ RemovedAfter k p history ∧
      ∀ id, r = .removed id → .moved id ∈ history →
        k ≤ countSince (· == .moved id) p history := by
  constructor
  · intro h
    refine ⟨fun newer id older heq hmem => ?_, fun id hr hmem => ?_⟩
    · exact h (r :: newer) id older (by rw [heq, List.cons_append]) hmem
    · exact h [] id history (by rw [hr, List.nil_append]) hmem
  · rintro ⟨hrest, hr⟩ newer id older heq hmem
    cases newer with
    | nil =>
        obtain ⟨rfl, rfl⟩ := List.cons.inj heq
        exact hr id rfl hmem
    | cons x newer =>
        obtain ⟨-, rfl⟩ := List.cons.inj heq
        exact hrest newer id older rfl hmem

/-- How far a file is pushed: the generation it can have at most, from the
records after its move. -/
def pushes (id : Nat) (history : List Record) : Nat :=
  countSince (· == .moved id) isPush history

@[simp] theorem pushes_renameFailed (id : Nat) (history : List Record) :
    pushes id (.renameFailed :: history) = 1 + pushes id history := rfl

@[simp] theorem pushes_removed (id other : Nat) (history : List Record) :
    pushes id (.removed other :: history) = pushes id history := by
  simp [pushes, countSince, isPush]

theorem pushes_moved {id other : Nat} (h : other ≠ id) (history : List Record) :
    pushes id (.moved other :: history) = 1 + pushes id history := by
  simp [pushes, countSince, isPush, h]

/-! ## The invariant -/

/-- Whether the running attempt has moved the file at generation `g`. -/
def pending : Phase → Nat → Nat
  | .shift n, g => if n + 2 ≤ g then 1 else 0
  | .first, g => if 2 ≤ g then 1 else 0
  | _, _ => 0

/-- The place that the next rename of the attempt fills is empty. -/
def Room (s : State) : Prop :=
  match s.phase with
  | .shift n => 1 ≤ n ∧ n < keptRotations ∧ s.gen (n + 1) = none
  | .first => s.gen 1 = none
  | _ => True

/-- A file that was moved is at most as far up as the later files and the
stopped attempts have pushed it. -/
def Pushed (s : State) : Prop :=
  ∀ g id, s.gen g = some id → .moved id ∈ s.history ∧
    g ≤ 1 + pushes id s.history + pending s.phase g

structure Inv (s : State) : Prop where
  range : ∀ g id, s.gen g = some id → 1 ≤ g ∧ g ≤ keptRotations
  ordered : Ordered s
  created : ∀ g id, s.gen g = some id → id < s.created
  older : ∀ f ∈ s.active, f.id < s.created ∧ ∀ g id, s.gen g = some id → id < f.id
  room : Room s
  pushed : Pushed s
  law : RemovedAfter (keptRotations - 1) isPush s.history

theorem pending_le (phase : Phase) (g : Nat) : pending phase g ≤ 1 := by
  cases phase with
  | shift n =>
      simp only [pending]
      split <;> omega
  | first =>
      simp only [pending]
      split <;> omega
  | _ => simp [pending]

theorem inv_start : Inv start where
  range := by simp [start]
  ordered := by simp [Ordered, start]
  created := by simp [start]
  older := by simp [start]
  room := trivial
  pushed := by simp [Pushed, start]
  law := by
    intro newer id older heq
    exact absurd heq.symm (by simp [start])

/-- A stopped attempt leaves the files where they are. -/
theorem inv_stop {s : State} (h : Inv s) : Inv (stop s) where
  range := h.range
  ordered := h.ordered
  created := h.created
  older := h.older
  room := trivial
  pushed := by
    intro g id hg
    obtain ⟨hmem, hle⟩ := h.pushed g id hg
    refine ⟨List.mem_cons_of_mem _ hmem, ?_⟩
    have := pending_le s.phase g
    simp only [stop, pushes_renameFailed, pending]
    omega
  law := removedAfter_cons.mpr ⟨h.law, fun id hr => absurd hr (by simp)⟩

/-- The oldest generation goes, after the pushes that brought it there. -/
theorem inv_remove {s : State} (h : Inv s) (hphase : s.phase = .remove) :
    Inv (operation s true) := by
  have hgen : ∀ g id, (operation s true).gen g = some id → g ≠ keptRotations ∧ s.gen g = some id := by
    intro g id hg
    simp only [operation, hphase, if_true] at hg
    split at hg
    · exact absurd hg (by simp)
    · exact ⟨by assumption, hg⟩
  have hpushed : ∀ g id, s.gen g = some id → .moved id ∈ s.history ∧ g ≤ 1 + pushes id s.history := by
    intro g id hg
    have hle := h.pushed g id hg
    rw [hphase] at hle
    exact hle
  have hhistory : ∀ id, pushes id (operation s true).history = pushes id s.history ∧
      (.moved id ∈ s.history → .moved id ∈ (operation s true).history) := by
    intro id
    simp only [operation, hphase, if_true]
    split
    · exact ⟨pushes_removed _ _ _, List.mem_cons_of_mem _⟩
    · exact ⟨rfl, fun hmem => hmem⟩
  constructor
  case range => exact fun g id hg => h.range g id (hgen g id hg).2
  case ordered =>
    exact fun i j a b hij ha hb => h.ordered i j a b hij (hgen i a ha).2 (hgen j b hb).2
  case created =>
    intro g id hg
    simpa [operation, hphase] using h.created g id (hgen g id hg).2
  case older =>
    intro f hf
    have hf : f ∈ s.active := by simpa [operation, hphase] using hf
    refine ⟨by simpa [operation, hphase] using (h.older f hf).1, fun g id hg => ?_⟩
    exact (h.older f hf).2 g id (hgen g id hg).2
  case room => simp [Room, operation, hphase, afterShift, keptRotations]
  case pushed =>
    intro g id hg
    obtain ⟨hmem, hle⟩ := hpushed g id (hgen g id hg).2
    refine ⟨(hhistory id).2 hmem, ?_⟩
    rw [(hhistory id).1]
    exact hle.trans (Nat.le_add_right _ _)
  case law =>
    simp only [operation, hphase, if_true]
    split
    · rename_i id hid
      refine removedAfter_cons.mpr ⟨h.law, fun id' hr _ => ?_⟩
      obtain rfl := Record.removed.inj hr
      have hle := (hpushed keptRotations id hid).2
      exact Nat.sub_le_iff_le_add'.mpr hle
    · exact h.law

theorem shiftGen_eq {gen : Nat → Option Nat} {n : Nat} (hroom : gen (n + 1) = none) (m : Nat) :
    shiftGen gen n m = if m = n + 1 then gen n else if m = n then none else gen m := by
  rw [shiftGen]
  split
  · rfl
  · rename_i hnone
    rw [Bool.not_eq_true, Option.isSome_eq_false_iff, Option.isNone_iff_eq_none] at hnone
    split
    · rename_i hm
      rw [hm, hroom, hnone]
    · split
      · rename_i hm
        rw [hm, hnone]
      · rfl

theorem shiftGen_self {gen : Nat → Option Nat} {n : Nat} (hroom : gen (n + 1) = none) :
    shiftGen gen n n = none := by
  rw [shiftGen_eq hroom, if_neg (by omega), if_pos rfl]

/-- A file that is there after a shift came from `n`, or stays outside `n` and `n + 1`. -/
theorem shiftGen_some {gen : Nat → Option Nat} {n g id : Nat} (hroom : gen (n + 1) = none)
    (hg : shiftGen gen n g = some id) :
    (g = n + 1 ∧ gen n = some id) ∨ (g ≠ n ∧ g ≠ n + 1 ∧ gen g = some id) := by
  rw [shiftGen_eq hroom] at hg
  split at hg
  · exact Or.inl ⟨by assumption, hg⟩
  · split at hg
    · exact absurd hg (by simp)
    · exact Or.inr ⟨by assumption, by assumption, hg⟩

/-- After generation `n` the attempt has moved the files above it. -/
theorem pending_afterShift {n : Nat} (hpos : 1 ≤ n) (g : Nat) :
    pending (afterShift (n - 1)) g = if n + 1 ≤ g then 1 else 0 := by
  obtain ⟨n, rfl⟩ : ∃ k, n = k + 1 := ⟨n - 1, by omega⟩
  cases n with
  | zero => rfl
  | succ n => rfl

/-- The next rename fills the place that the last one left. -/
theorem room_afterShift {s : State} {n : Nat} (hpos : 1 ≤ n) (hlt : n < keptRotations)
    (hfree : s.gen n = none) (hphase : s.phase = afterShift (n - 1)) : Room s := by
  obtain ⟨n, rfl⟩ : ∃ k, n = k + 1 := ⟨n - 1, by omega⟩
  rw [Room, hphase]
  cases n with
  | zero => exact hfree
  | succ n => exact ⟨by omega, by omega, hfree⟩

/-- A generation moves into the free place above it. -/
theorem inv_shift {s : State} {n : Nat} (h : Inv s) (hphase : s.phase = .shift n) :
    Inv (operation s true) := by
  have hroom := h.room
  simp only [Room, hphase] at hroom
  obtain ⟨hpos, hlt, hfree⟩ := hroom
  have hafter : operation s true =
      { s with gen := shiftGen s.gen n, phase := afterShift (n - 1) } := by
    simp [operation, hphase]
  have hold : ∀ g id, shiftGen s.gen n g = some id → ∃ g', s.gen g' = some id := by
    intro g id hg
    rcases shiftGen_some hfree hg with ⟨-, hg⟩ | ⟨-, -, hg⟩
    · exact ⟨n, hg⟩
    · exact ⟨g, hg⟩
  rw [hafter]
  constructor
  case range =>
    intro g id hg
    rcases shiftGen_some hfree hg with ⟨rfl, -⟩ | ⟨-, -, hg⟩
    · exact ⟨by omega, by omega⟩
    · exact h.range g id hg
  case ordered =>
    intro i j a b hij ha hb
    rcases shiftGen_some hfree ha with ⟨rfl, ha'⟩ | ⟨hin, hin', ha'⟩
    · rcases shiftGen_some hfree hb with ⟨rfl, -⟩ | ⟨-, -, hb'⟩
      · exact absurd hij (lt_irrefl _)
      · exact h.ordered n j a b (by omega) ha' hb'
    · rcases shiftGen_some hfree hb with ⟨rfl, hb'⟩ | ⟨-, -, hb'⟩
      · exact h.ordered i n a b (by omega) ha' hb'
      · exact h.ordered i j a b hij ha' hb'
  case created =>
    intro g id hg
    obtain ⟨g', hg'⟩ := hold g id hg
    exact h.created g' id hg'
  case older =>
    intro f hf
    refine ⟨(h.older f hf).1, fun g id hg => ?_⟩
    obtain ⟨g', hg'⟩ := hold g id hg
    exact (h.older f hf).2 g' id hg'
  case room => exact room_afterShift hpos hlt (shiftGen_self hfree) rfl
  case pushed =>
    intro g id hg
    show .moved id ∈ s.history ∧ g ≤ 1 + pushes id s.history + pending (afterShift (n - 1)) g
    rw [pending_afterShift hpos]
    rcases shiftGen_some hfree hg with ⟨rfl, hg'⟩ | ⟨-, hne, hg'⟩
    · obtain ⟨hmem, hle⟩ := h.pushed n id hg'
      refine ⟨hmem, ?_⟩
      simp only [hphase, pending] at hle
      rw [if_neg (by omega)] at hle
      rw [if_pos le_rfl]
      omega
    · obtain ⟨hmem, hle⟩ := h.pushed g id hg'
      refine ⟨hmem, ?_⟩
      simp only [hphase, pending] at hle
      split at hle
      · rw [if_pos (by omega)]
        exact hle
      · exact hle.trans (by omega)
  case law => exact h.law

/-- The active file becomes generation 1. -/
theorem inv_first {s : State} {f : LogFile} (h : Inv s) (hphase : s.phase = .first)
    (hf : s.active = some f) : Inv (operation s true) := by
  have hroom := h.room
  simp only [Room, hphase] at hroom
  have hafter : operation s true =
      { s with
        active := none
        gen := fun m => if m = 1 then some f.id else s.gen m
        phase := .idle
        history := .moved f.id :: s.history } := by
    simp [operation, hphase, hf]
  have hgen : ∀ g id, (if g = 1 then some f.id else s.gen g) = some id →
      (g = 1 ∧ id = f.id) ∨ (2 ≤ g ∧ s.gen g = some id) := by
    intro g id hg
    split at hg
    · exact Or.inl ⟨by assumption, (Option.some.inj hg).symm⟩
    · rename_i hne
      have hpos := (h.range g id hg).1
      exact Or.inr ⟨by omega, hg⟩
  obtain ⟨hcreated, holder⟩ := h.older f hf
  rw [hafter]
  constructor
  case range =>
    intro g id hg
    rcases hgen g id hg with ⟨rfl, -⟩ | ⟨-, hg⟩
    · exact ⟨le_rfl, by decide⟩
    · exact h.range g id hg
  case ordered =>
    intro i j a b hij ha hb
    rcases hgen i a ha with ⟨rfl, rfl⟩ | ⟨hi, ha⟩
    · rcases hgen j b hb with ⟨rfl, -⟩ | ⟨-, hb⟩
      · exact absurd hij (lt_irrefl _)
      · exact holder j b hb
    · rcases hgen j b hb with ⟨rfl, -⟩ | ⟨-, hb⟩
      · omega
      · exact h.ordered i j a b hij ha hb
  case created =>
    intro g id hg
    rcases hgen g id hg with ⟨-, rfl⟩ | ⟨-, hg⟩
    · exact hcreated
    · exact h.created g id hg
  case older =>
    intro f' hf'
    exact absurd hf' (by simp)
  case room => trivial
  case pushed =>
    intro g id hg
    rcases hgen g id hg with ⟨rfl, rfl⟩ | ⟨-, hg⟩
    · exact ⟨List.mem_cons_self, by simp [pending]⟩
    · obtain ⟨hmem, hle⟩ := h.pushed g id hg
      have hne : f.id ≠ id := (holder g id hg).ne'
      have := pending_le s.phase g
      refine ⟨List.mem_cons_of_mem _ hmem, ?_⟩
      show g ≤ 1 + pushes id (.moved f.id :: s.history) + 0
      rw [pushes_moved hne]
      omega
  case law => exact removedAfter_cons.mpr ⟨h.law, fun id hr => absurd hr (by simp)⟩

theorem inv_operation {s : State} (h : Inv s) (succeeds : Bool) : Inv (operation s succeeds) := by
  cases hphase : s.phase with
  | idle => simpa [operation, hphase] using h
  | remove =>
      cases succeeds with
      | true => exact inv_remove h hphase
      | false =>
          have hafter : operation s false = { s with phase := .idle } := by
            simp [operation, hphase]
          rw [hafter]
          refine ⟨h.range, h.ordered, h.created, h.older, trivial, fun g id hg => ?_, h.law⟩
          have hle := h.pushed g id hg
          rw [hphase] at hle
          exact hle
  | shift n =>
      cases succeeds with
      | true => exact inv_shift h hphase
      | false =>
          have hafter : operation s false = stop s := by simp [operation, hphase]
          rw [hafter]
          exact inv_stop h
  | first =>
      cases hactive : s.active with
      | none =>
          have hafter : operation s succeeds = stop s := by simp [operation, hphase, hactive]
          rw [hafter]
          exact inv_stop h
      | some f =>
          cases succeeds with
          | true => exact inv_first h hphase hactive
          | false =>
              have hafter : operation s false = stop s := by simp [operation, hphase, hactive]
              rw [hafter]
              exact inv_stop h

theorem inv_append {s : State} (h : Inv s) (bytes : Nat) : Inv (step s (.append bytes)) := by
  cases hactive : s.active with
  | some f =>
      have hafter : step s (.append bytes) =
          { s with active := some { f with bytes := f.bytes + bytes } } := by
        simp [step, hactive]
      rw [hafter]
      refine ⟨h.range, h.ordered, h.created, fun f' hf' => ?_, h.room, h.pushed, h.law⟩
      obtain rfl := Option.some.inj hf'
      exact h.older f hactive
  | none =>
      have hafter : step s (.append bytes) =
          { s with active := some ⟨s.created, bytes⟩, created := s.created + 1 } := by
        simp [step, hactive]
      rw [hafter]
      refine ⟨h.range, h.ordered, fun g id hg => ?_, fun f hf => ?_, h.room, h.pushed, h.law⟩
      · exact (h.created g id hg).trans (Nat.lt_succ_self _)
      · obtain rfl := Option.some.inj hf
        exact ⟨Nat.lt_succ_self _, h.created⟩

theorem inv_step (s : State) (i : Input) (h : Inv s) : Inv (step s i) := by
  cases i with
  | append bytes => exact inv_append h bytes
  | operation succeeds => exact inv_operation h succeeds
  | rotate maxBytes =>
      rw [step]
      split
      · rename_i hidle
        refine ⟨h.range, h.ordered, h.created, h.older, trivial, fun g id hg => ?_, h.law⟩
        have hle := h.pushed g id hg
        rw [hidle.1] at hle
        exact hle
      · exact h

theorem inv_run (is : List Input) : Inv (runFrom step start is) :=
  inv_of_run Inv inv_step inv_start is

/-! ## Every run -/

/-- In every run of appends and attempts with any failures, a file that was
moved to generation 1 is removed only after `keptRotations - 1` later files were
moved there, each attempt that a failed rename stopped counted like a file; and
in every state the generations are from new to old. -/
theorem removed_after (is : List Input) :
    RemovedAfter (keptRotations - 1) isPush (runFrom step start is).history ∧
      Ordered (runFrom step start is) :=
  ⟨(inv_run is).law, (inv_run is).ordered⟩

/-- One line fills the file, and one attempt with the given results follows. -/
def round (results : List Bool) : List Input :=
  .append 10 :: .rotate 10 :: results.map .operation

/-- Four rotations without a failure. -/
def cleanRounds : List Input := (List.replicate 4 (round [true, true, true, true])).flatten

/-- Two rotations, an attempt that the last rename stops, and the start of the next. -/
def stoppedRounds : List Input :=
  (List.replicate 2 (round [true, true, true, true])).flatten ++
    round [true, true, true, false] ++ round [true]

/-- Without a failure the first file is removed when two later ones have been
moved to generation 1, the third follows in the same attempt.  After a stopped
attempt it is removed when one later file has been moved. -/
theorem not_removedAfter :
    ¬ RemovedAfter keptRotations isMoved (runFrom step start cleanRounds).history ∧
      ¬ RemovedAfter (keptRotations - 1) isMoved (runFrom step start stoppedRounds).history := by
  constructor
  · intro h
    exact absurd (h [.moved 3] 0 [.moved 2, .moved 1, .moved 0] rfl (by decide)) (by decide)
  · intro h
    exact absurd (h [] 0 [.renameFailed, .moved 1, .moved 0] rfl (by decide)) (by decide)

end Llmenv.SessionLog
