import Koh.Lib.Reach
import Mathlib.Order.WellFounded
import Mathlib.Order.RelClasses

/-!
# Runs that go on for ever

What a run that goes on for ever comes to, where a party that can go on is not kept from it for
ever.

## Main definitions

- `Forever`: a run without an end, with its moves
- `Fair`: a party that can move from some time on moves
- `LeadsTo`: where one thing holds, another does then or later

## Main results

- `Forever.leadsTo_of_rank`: a party whose every move lowers a rank that no other raises gets there
- `Forever.stays`: what every move keeps, or else brings about something, does so over a run
-/

namespace Koh.Lib

variable {σ μ : Type} {step : σ → μ → Option σ} {A : μ → Prop} {I P Q R : σ → Prop}
  {run : ℕ → σ} {moves : ℕ → μ}

/-- The run's moves are made one after another, without an end. -/
def Forever (step : σ → μ → Option σ) (run : ℕ → σ) (moves : ℕ → μ) : Prop :=
  ∀ n, step (run n) (moves n) = some (run (n + 1))

/-- Whoever's moves are `A` moves, if it can at every time from some time on. -/
def Fair (step : σ → μ → Option σ) (A : μ → Prop) (run : ℕ → σ) (moves : ℕ → μ) : Prop :=
  ∀ n, (∀ k ≥ n, ∃ m, A m ∧ step (run k) m ≠ none) → ∃ k ≥ n, A (moves k)

/-- Where `P` holds, `Q` does then or later. -/
def LeadsTo (run : ℕ → σ) (P Q : σ → Prop) : Prop :=
  ∀ n, P (run n) → ∃ k ≥ n, Q (run k)

/-- One lead after another. -/
theorem LeadsTo.trans (h : LeadsTo run P Q) (h' : LeadsTo run Q R) : LeadsTo run P R := by
  intro n hP
  obtain ⟨k, hk, hQ⟩ := h n hP
  obtain ⟨l, hl, hR⟩ := h' k hQ
  exact ⟨l, Nat.le_trans hk hl, hR⟩

namespace Forever

/-- Each state of a run is reached from its first. -/
theorem reaches (h : Forever step run moves) (n : ℕ) : Reachable step (run 0) (run n) := by
  induction n with
  | zero => exact .refl
  | succ n ih => exact ih.snoc trivial (h n)

/-- What every move keeps, or else brings about `Q`, holds as long as `Q` did not. -/
theorem stays (h : Forever step run moves) (hI : ∀ n, I (run n))
    (hstep : ∀ s m s', I s → P s → step s m = some s' → Q s' ∨ P s') {n k : ℕ} (hnk : n ≤ k)
    (hP : P (run n)) : (∃ l, n ≤ l ∧ l ≤ k ∧ Q (run l)) ∨ P (run k) := by
  induction k, hnk using Nat.le_induction with
  | base => exact .inr hP
  | succ k hnk ih =>
    rcases ih with ⟨l, hnl, hlk, hQ⟩ | hPk
    · exact .inl ⟨l, hnl, Nat.le_succ_of_le hlk, hQ⟩
    · rcases hstep _ _ _ (hI k) hPk (h k) with hQ | hPk'
      · exact .inl ⟨k + 1, Nat.le_succ_of_le hnk, Nat.le_refl _, hQ⟩
      · exact .inr hPk'

/-- The rule of the rank: no move raises it, each of the party's lowers it, and the party can move
until `Q` holds. -/
theorem leadsTo_of_rank {α : Type} [Preorder α] [WellFoundedLT α] (h : Forever step run moves)
    (hfair : Fair step A run moves) (hI : ∀ n, I (run n)) (rank : σ → α)
    (hstep : ∀ s m s', I s → P s → step s m = some s' →
      Q s' ∨ (P s' ∧ rank s' ≤ rank s ∧ (A m → rank s' < rank s)))
    (hcan : ∀ s, I s → P s → Q s ∨ ∃ m, A m ∧ step s m ≠ none) : LeadsTo run P Q := by
  intro n
  induction hrank : rank (run n) using WellFoundedLT.induction generalizing n with
  | ind r ih =>
    intro hP
    by_contra hnever
    have hnot : ∀ k ≥ n, ¬ Q (run k) := fun k hk hQ => hnever ⟨k, hk, hQ⟩
    have hkeep : ∀ k ≥ n, P (run k) ∧ rank (run k) ≤ r := by
      intro k hk
      induction k, hk using Nat.le_induction with
      | base => exact ⟨hP, hrank.le⟩
      | succ k hk ihk =>
        rcases hstep _ _ _ (hI k) ihk.1 (h k) with hQ | ⟨hP', hle, -⟩
        · exact absurd hQ (hnot (k + 1) (Nat.le_succ_of_le hk))
        · exact ⟨hP', hle.trans ihk.2⟩
    obtain ⟨k, hk, hA⟩ := hfair n fun k hk =>
      (hcan _ (hI k) (hkeep k hk).1).resolve_left (hnot k hk)
    rcases hstep _ _ _ (hI k) (hkeep k hk).1 (h k) with hQ | ⟨hP', -, hlt⟩
    · exact hnot (k + 1) (Nat.le_succ_of_le hk) hQ
    · obtain ⟨l, hl, hQ⟩ := ih _ ((hlt hA).trans_le (hkeep k hk).2) (k + 1) rfl hP'
      exact hnot l (by omega) hQ

end Forever

end Koh.Lib
