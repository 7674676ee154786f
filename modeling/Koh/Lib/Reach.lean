import Mathlib.Logic.Relation

/-!
# Runs of a machine that makes one move at a time

A machine is a function from a state and a move to the state after it, `none`
where the move cannot be made. What several parties do, in whatever order, is a
machine whose moves are theirs.

## Main definitions

- `Reaches`: the states that runs reach whose moves all meet a condition
- `Reachable`: the states that any run reaches
- `runWhile`: a run of given moves

## Main results

- `Reaches.invariant`: what every move keeps, a run keeps
- `reaches_of_run`, `reaches_of_run_of`: a run of given moves is a run
-/

namespace Koh.Lib

variable {σ μ : Type} {step : σ → μ → Option σ} {C C' : σ → μ → Prop}

/-- A move that meets `C` is made. -/
def Moves (step : σ → μ → Option σ) (C : σ → μ → Prop) (s s' : σ) : Prop :=
  ∃ m, C s m ∧ step s m = some s'

/-- One move after another, each meeting `C`. -/
def Reaches (step : σ → μ → Option σ) (C : σ → μ → Prop) : σ → σ → Prop :=
  Relation.ReflTransGen (Moves step C)

/-- One move after another. -/
abbrev Reachable (step : σ → μ → Option σ) : σ → σ → Prop := Reaches step fun _ _ => True

namespace Reaches

variable {s s' s'' : σ}

theorem refl : Reaches step C s s := Relation.ReflTransGen.refl

/-- A run with one step more. -/
theorem snoc {m : μ} (h : Reaches step C s s') (hC : C s' m) (hstep : step s' m = some s'') :
    Reaches step C s s'' :=
  Relation.ReflTransGen.tail h ⟨m, hC, hstep⟩

/-- Two runs, one after the other. -/
theorem trans (h : Reaches step C s s') (h' : Reaches step C s' s'') : Reaches step C s s'' :=
  Relation.ReflTransGen.trans h h'

/-- What holds at the start and is kept by every move holds of every state reached. -/
theorem invariant (h : Reaches step C s s') (I : σ → Prop) (hs : I s)
    (hstep : ∀ s m s', I s → C s m → step s m = some s' → I s') : I s' := by
  induction h with
  | refl => exact hs
  | tail _ hmove ih =>
    obtain ⟨m, hC, hm⟩ := hmove
    exact hstep _ m _ ih hC hm

/-- A run under a stronger condition is one under a weaker. -/
theorem mono (h : Reaches step C s s') (hC : ∀ s m, C s m → C' s m) : Reaches step C' s s' := by
  refine Relation.ReflTransGen.mono ?_ _ _ h
  rintro s₁ s₂ ⟨m, hm, hstep⟩
  exact ⟨m, hC s₁ m hm, hstep⟩

end Reaches

/-- `moves`, one after another, as long as each meets `C`. -/
def runWhile (step : σ → μ → Option σ) (C : σ → μ → Prop) [∀ s m, Decidable (C s m)] (s : σ)
    (moves : List μ) : Option σ :=
  moves.foldlM (fun s m => if C s m then step s m else none) s

/-- A run of given moves, each of which is `D`. -/
theorem reaches_of_run_of [∀ s m, Decidable (C s m)] {D : μ → Prop} {moves : List μ} {s s' : σ}
    (h : runWhile step C s moves = some s') (hD : ∀ m ∈ moves, D m) :
    Reaches step (fun s m => D m ∧ C s m) s s' := by
  induction moves generalizing s with
  | nil =>
    cases h
    exact .refl
  | cons m moves ih =>
    obtain ⟨hm, hmoves⟩ := List.forall_mem_cons.mp hD
    obtain ⟨s₁, hmove, hrest⟩ := Option.bind_eq_some_iff.mp h
    by_cases hC : C s m
    · simp only [hC, if_true] at hmove
      exact Relation.ReflTransGen.head ⟨m, ⟨hm, hC⟩, hmove⟩ (ih hrest hmoves)
    · simp only [hC, if_false] at hmove
      cases hmove

/-- What a run of moves ends in is reached. -/
theorem reaches_of_run [∀ s m, Decidable (C s m)] {moves : List μ} {s s' : σ}
    (h : runWhile step C s moves = some s') : Reaches step C s s' :=
  (reaches_of_run_of (D := fun _ => True) h fun _ _ => trivial).mono fun _ _ hC => hC.2

end Koh.Lib
