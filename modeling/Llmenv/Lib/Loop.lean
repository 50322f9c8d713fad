/-
# `Llmenv.Lib.Loop` — a loop without a bound, and the fuel that is enough for it

A `loop` of a program is one round over its variables: it leaves with a result,
or it goes round again.  `Returns` says that it leaves after finitely many
rounds, with no bound in sight, so it is what "terminates with this result" means.

A walk that keeps the list of the nodes it has seen, and never goes round again
at one of them, returns when its nodes are among finitely many, and a recursion
over that many rounds computes its result (`returns_of_fuel`).  For other loops
there is the rule of an invariant and a variant (`returns_of_advances`).
-/
import Mathlib.Data.List.Perm.Subperm

namespace Llmenv.Lib

/-- How one round ends. -/
inductive Round (σ ρ : Type) where
  | leave (r : ρ)
  | again (s : σ)

/-- The result of a round whose further rounds give `F`. -/
def Round.result {σ ρ : Type} (F : σ → ρ) : Round σ ρ → ρ
  | .leave r => r
  | .again s => F s

section Loop

variable {σ ρ κ : Type} {round : σ → Round σ ρ}

/-- The loop leaves with a result after finitely many rounds. -/
inductive Returns (round : σ → Round σ ρ) : σ → ρ → Prop
  | leave {s : σ} {r : ρ} : round s = .leave r → Returns round s r
  | again {s t : σ} {r : ρ} : round s = .again t → Returns round t r → Returns round s r

theorem Returns.unique {s : σ} {r r' : ρ} (h : Returns round s r) (h' : Returns round s r') :
    r = r' := by
  induction h with
  | leave hr =>
      cases h' with
      | leave hr' => exact Round.leave.inj (hr.symm.trans hr')
      | again hr' _ => exact absurd (hr.symm.trans hr') (by simp)
  | again hr _ ih =>
      cases h' with
      | leave hr' => exact absurd (hr.symm.trans hr') (by simp)
      | again hr' ht' =>
          obtain rfl := Round.again.inj (hr.symm.trans hr')
          exact ih ht'

/-- A recursion that makes one round for each unit of fuel has enough of it when
every further round sees a new one of finitely many nodes. -/
theorem returns_of_fuel (F : Nat → σ → ρ) (seen : σ → List κ) (nodes : List κ)
    (hF : ∀ n s, F (n + 1) s = (round s).result (F n))
    (hseen : ∀ s t, round s = .again t → ∃ k ∈ nodes, k ∉ seen s ∧ seen t = k :: seen s) :
    ∀ (n : Nat) (s : σ), (seen s).Nodup → seen s ⊆ nodes →
      nodes.length < n + (seen s).length → Returns round s (F n s)
  | 0, s, hnodup, hsub, hlen => by
      have hle := (List.subperm_of_subset hnodup hsub).length_le
      omega
  | n + 1, s, hnodup, hsub, hlen => by
      have hround := hF n s
      cases hr : round s with
      | leave r =>
          rw [hr] at hround
          exact hround ▸ .leave hr
      | again t =>
          rw [hr] at hround
          obtain ⟨k, hk, hnew, hst⟩ := hseen s t hr
          rw [hround]
          refine .again hr (returns_of_fuel F seen nodes hF hseen n t ?_ ?_ ?_)
          · rw [hst]
            exact List.nodup_cons.mpr ⟨hnew, hnodup⟩
          · rw [hst]
            exact List.cons_subset.mpr ⟨hk, hsub⟩
          · rw [hst, List.length_cons]
            omega

/-- One round from a state of the invariant: it leaves with a result that is right for the state,
or goes round again at a smaller state of the invariant, for which the same results are right. -/
inductive Advances (round : σ → Round σ ρ) (Inv : σ → Prop) (variant : σ → Nat)
    (Post : σ → ρ → Prop) (s : σ) : Prop
  | leave (r : ρ) (leaves : round s = .leave r) (post : Post s r)
  | again (t : σ) (goes : round s = .again t) (inv : Inv t) (less : variant t < variant s)
      (post : ∀ r, Post t r → Post s r)

/-- A loop that advances from every state of the invariant returns a result that is right. -/
theorem returns_of_advances {Inv : σ → Prop} {variant : σ → Nat} {Post : σ → ρ → Prop}
    (h : ∀ s, Inv s → Advances round Inv variant Post s) {s : σ} (hs : Inv s) :
    ∃ r, Returns round s r ∧ Post s r := by
  induction hn : variant s using Nat.strongRecOn generalizing s with
  | ind n ih =>
      cases h s hs with
      | leave r leaves post => exact ⟨r, .leave leaves, post⟩
      | again t goes inv less post =>
          obtain ⟨r, hreturns, hpost⟩ := ih (variant t) (hn ▸ less) inv rfl
          exact ⟨r, .again goes hreturns, post r hpost⟩

end Loop

end Llmenv.Lib
