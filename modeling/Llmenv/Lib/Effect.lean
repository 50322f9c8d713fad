/-
# `Llmenv.Lib.Effect` — programs that look at a store and write to it

A program of this kind runs on a disk: the store as it is at the moment, and how
many writes were made so far.  A `check` looks at the store and may refuse, a
`write` may fail and then ends the program with the store as it was left, and
`settle` is a last step that cannot fail.

Most commands check first and write later.  Such a command is a PLAN, a function
of the store before it, and the writes of the plan in order (`execute`).
`check_bind_execute` turns a program into its plan, one check at a time, and the
two rules at the end say what an error of a plan leaves behind.
-/
import Llmenv.Lib.Result

namespace Llmenv.Lib

/-- The store, and the number of writes so far. -/
structure Disk (σ : Type) where
  store : σ
  written : Nat

/-- A program with results in `α` that may end with an error. -/
def Act (σ ε α : Type) : Type := Disk σ → Except ε α × Disk σ

namespace Act

variable {σ τ ε ω α β : Type}

instance : Monad (Act σ ε) where
  pure a := fun d => (.ok a, d)
  bind x f := fun d =>
    match x d with
    | (.ok a, d') => f a d'
    | (.error e, d') => (.error e, d')

theorem bind_of_ok {x : Act σ ε α} {f : α → Act σ ε β} {d d' : Disk σ} {a : α}
    (h : x d = (.ok a, d')) : (x >>= f) d = f a d' := by
  show (match x d with
    | (.ok a, d') => f a d'
    | (.error e, d') => (.error e, d')) = _
  rw [h]

theorem bind_of_error {x : Act σ ε α} {f : α → Act σ ε β} {d d' : Disk σ} {e : ε}
    (h : x d = (.error e, d')) : (x >>= f) d = (.error e, d') := by
  show (match x d with
    | (.ok a, d') => f a d'
    | (.error e, d') => (.error e, d')) = _
  rw [h]

theorem bind_assoc_act {γ : Type} (x : Act σ ε α) (f : α → Act σ ε β) (g : β → Act σ ε γ) :
    x >>= f >>= g = x >>= fun a => f a >>= g := by
  funext d
  cases hx : x d with
  | mk r d' =>
      cases r with
      | ok a =>
          rw [bind_of_ok hx]
          cases hf : f a d' with
          | mk r' d'' =>
              have hxf : (x >>= f) d = (r', d'') := (bind_of_ok hx).trans hf
              cases r' with
              | ok b => rw [bind_of_ok hxf, bind_of_ok hf]
              | error e => rw [bind_of_error hxf, bind_of_error hf]
      | error e => rw [bind_of_error hx, bind_of_error (bind_of_error hx)]

instance : LawfulMonad (Act σ ε) := LawfulMonad.mk' (Act σ ε)
  (fun x => by
    funext d
    show (match x d with
      | (.ok a, d') => (Except.ok a, d')
      | (.error e, d') => (.error e, d')) = x d
    rcases x d with ⟨_ | _, _⟩ <;> rfl)
  (fun _ _ => rfl)
  bind_assoc_act

/-- The program on a store to which nothing was written yet. -/
def run (x : Act σ ε α) (s : σ) : Except ε α × σ := ((x ⟨s, 0⟩).1, (x ⟨s, 0⟩).2.store)

/-- Look at the store. -/
def check (refuse : τ → ε) (f : σ → Except τ α) : Act σ ε α := fun d =>
  match f d.store with
  | .ok a => (.ok a, d)
  | .error t => (.error (refuse t), d)

/-- Make one write, unless it is one that fails. -/
def write (fails : Nat → Option ε) (apply : σ → ω → σ) (w : ω) : Act σ ε Unit := fun d =>
  match fails d.written with
  | some e => (.error e, d)
  | none => (.ok (), ⟨apply d.store w, d.written + 1⟩)

def writeAll (fails : Nat → Option ε) (apply : σ → ω → σ) : List ω → Act σ ε Unit
  | [] => pure ()
  | w :: ws => do
      write fails apply w
      writeAll fails apply ws

/-- A step that does what it can. -/
def settle (f : σ → σ) : Act σ ε Unit := fun d => (.ok (), ⟨f d.store, d.written⟩)

theorem writeAll_append (fails : Nat → Option ε) (apply : σ → ω → σ) (ws vs : List ω) :
    writeAll fails apply (ws ++ vs) =
      (do writeAll fails apply ws; writeAll fails apply vs) := by
  induction ws with
  | nil => rfl
  | cons w ws ih => rw [List.cons_append, writeAll, writeAll, ih, bind_assoc]

theorem settle_id : settle (fun s => s) = (pure () : Act σ ε Unit) := rfl

section Plan

variable (refuse : τ → ε) (fails : Nat → Option ε) (apply : σ → ω → σ) (after : α → σ → σ)

/-- Refuse, or make the writes of the plan and then the last step. -/
def execute (plan : Except τ (List ω × α)) : Act σ ε α :=
  match plan with
  | .error t => check refuse fun _ => .error t
  | .ok (ws, r) => do
      writeAll fails apply ws
      settle (after r)
      pure r

/-- A check in front of a plan belongs to the plan. -/
theorem check_bind_execute {f : σ → Except τ β} {g : β → Act σ ε α}
    {plan : β → Except τ (List ω × α)} {d : Disk σ}
    (h : ∀ b, f d.store = .ok b → g b d = execute refuse fails apply after (plan b) d) :
    (check refuse f >>= g) d = execute refuse fails apply after (f d.store >>= plan) d := by
  cases hf : f d.store with
  | ok b =>
      rw [bind_of_ok (show check refuse f d = (.ok b, d) by rw [check, hf])]
      exact h b hf
  | error t => exact bind_of_error (show check refuse f d = (.error (refuse t), d) by rw [check, hf])

end Plan

/-! ## What an error leaves behind -/

section Errors

variable {refuse : τ → ε} {fails : Nat → Option ε} {apply : σ → ω → σ} {after : α → σ → σ}

theorem writeAll_cons {w : ω} {ws : List ω} {d : Disk σ} (h : fails d.written = none) :
    writeAll fails apply (w :: ws) d =
      writeAll fails apply ws ⟨apply d.store w, d.written + 1⟩ :=
  bind_of_ok (show write fails apply w d = (.ok (), _) by rw [write, h])

variable (fails apply) in
/-- All the writes are made, or a beginning of them and the next one fails. -/
theorem writeAll_cases : ∀ (ws : List ω) (d : Disk σ),
    writeAll fails apply ws d = (.ok (), ⟨ws.foldl apply d.store, d.written + ws.length⟩) ∧
        (∀ i < ws.length, fails (d.written + i) = none) ∨
      ∃ k e, k < ws.length ∧ fails (d.written + k) = some e ∧
        (∀ i < k, fails (d.written + i) = none) ∧
        writeAll fails apply ws d = (.error e, ⟨(ws.take k).foldl apply d.store, d.written + k⟩)
  | [], d => Or.inl ⟨rfl, fun i hi => absurd hi (Nat.not_lt_zero i)⟩
  | w :: ws, d => by
      cases hf : fails d.written with
      | some e =>
          refine Or.inr ⟨0, e, Nat.zero_lt_succ _, hf, fun i hi => absurd hi (Nat.not_lt_zero i), ?_⟩
          exact bind_of_error (show write fails apply w d = (.error e, d) by rw [write, hf])
      | none =>
          rw [writeAll_cons hf]
          have hshift : ∀ i, d.written + 1 + i = d.written + (i + 1) := by
            intro i
            omega
          have hfirst : ∀ {k : Nat}, (∀ i < k, fails (d.written + 1 + i) = none) →
              ∀ i < k + 1, fails (d.written + i) = none := by
            intro k hk i hi
            cases i with
            | zero => exact hf
            | succ i => exact hshift i ▸ hk i (by omega)
          rcases writeAll_cases ws ⟨apply d.store w, d.written + 1⟩ with
            ⟨hok, hall⟩ | ⟨k, e, hk, he, hbefore, herr⟩
          · refine Or.inl ⟨?_, hfirst hall⟩
            rw [hok, List.foldl_cons, List.length_cons, hshift]
          · refine Or.inr ⟨k + 1, e, Nat.succ_lt_succ hk, hshift k ▸ he, hfirst hbefore, ?_⟩
            rw [herr, List.take_succ_cons, List.foldl_cons, hshift]

variable (refuse fails apply after) in
/-- What an execution does: it refuses and writes nothing, it makes all its writes,
or it makes a beginning of them. -/
theorem execute_cases (plan : Except τ (List ω × α)) (s : σ) :
    (∃ t, plan = .error t ∧
        (execute refuse fails apply after plan).run s = (.error (refuse t), s)) ∨
      (∃ ws r, plan = .ok (ws, r) ∧ (∀ i < ws.length, fails i = none) ∧
        (execute refuse fails apply after plan).run s = (.ok r, after r (ws.foldl apply s))) ∨
      ∃ ws r k e, plan = .ok (ws, r) ∧ k < ws.length ∧ fails k = some e ∧
        (∀ i < k, fails i = none) ∧
        (execute refuse fails apply after plan).run s = (.error e, (ws.take k).foldl apply s) := by
  cases plan with
  | error t => exact Or.inl ⟨t, rfl, rfl⟩
  | ok planned =>
      obtain ⟨ws, r⟩ := planned
      refine Or.inr ?_
      rcases writeAll_cases fails apply ws ⟨s, 0⟩ with
        ⟨hok, hall⟩ | ⟨k, e, hk, he, hbefore, herr⟩
      · refine Or.inl ⟨ws, r, rfl, fun i hi => Nat.zero_add i ▸ hall i hi, ?_⟩
        rw [run, execute, bind_of_ok hok]
        rfl
      · refine Or.inr ⟨ws, r, k, e, rfl, hk, Nat.zero_add k ▸ he,
          fun i hi => Nat.zero_add i ▸ hbefore i hi, ?_⟩
        rw [run, execute, bind_of_error herr]

/-- An error that no write gives was there before the first write. -/
theorem execute_refused {plan : Except τ (List ω × α)} {s : σ} {e : ε}
    (h : ((execute refuse fails apply after plan).run s).1 = .error e)
    (he : ∀ n, fails n ≠ some e) : ((execute refuse fails apply after plan).run s).2 = s := by
  rcases execute_cases refuse fails apply after plan s
    with ⟨t, -, hrun⟩ | ⟨ws, r, -, -, hrun⟩ | ⟨ws, r, k, e', -, -, hfail, -, hrun⟩
  · rw [hrun]
  · rw [hrun] at h
    exact absurd h (by simp)
  · rw [hrun] at h
    obtain rfl := Except.error.inj h
    exact absurd hfail (he k)

/-- An error that no check gives is the one of a write, and the writes before it
were made. -/
theorem execute_failed {plan : Except τ (List ω × α)} {s : σ} {e : ε}
    (h : ((execute refuse fails apply after plan).run s).1 = .error e)
    (he : ∀ t, refuse t ≠ e) : ∃ ws r k, plan = .ok (ws, r) ∧ k < ws.length ∧
      fails k = some e ∧
      ((execute refuse fails apply after plan).run s).2 = (ws.take k).foldl apply s := by
  rcases execute_cases refuse fails apply after plan s
    with ⟨t, -, hrun⟩ | ⟨ws, r, -, -, hrun⟩ | ⟨ws, r, k, e', hplan, hk, hfail, -, hrun⟩
  · rw [hrun] at h
    exact absurd (Except.error.inj h) (he t)
  · rw [hrun] at h
    exact absurd h (by simp)
  · rw [hrun] at h ⊢
    obtain rfl := Except.error.inj h
    exact ⟨ws, r, k, hplan, hk, hfail, rfl⟩

end Errors

end Act

end Llmenv.Lib
