import Mathlib.Tactic.Common

/-!
# What is on its way between two machines

One machine writes labels, another reads them, and a queue is between: what is
in it leads from the state the reader has come to, to the state of the writer.
The reader is then never behind by anything but the queue, whatever order the
two take turns in.

## Main definitions

- `Way`: labels that lead from one state to another

## Main results

- `Way.snoc`: the writer writes one more
- `Way.uncons`: the reader reads the first
- `Way.split`: the reader reads some, and comes to a state between the two
- `Way.map`: all the states of a way are changed
-/

namespace Koh.Lib

variable {σ ι : Type} {T : σ → ι → σ → Prop}

/-- `T` leads from a state by labels, one after another, to a state. -/
inductive Way (T : σ → ι → σ → Prop) : σ → List ι → σ → Prop
  | nil (s : σ) : Way T s [] s
  | cons {s s₁ s' : σ} {i : ι} {is : List ι} : T s i s₁ → Way T s₁ is s' → Way T s (i :: is) s'

namespace Way

variable {s s' s'' : σ} {i : ι} {is is' : List ι}

/-- Two ways, one after the other. -/
theorem append (h : Way T s is s') (h' : Way T s' is' s'') : Way T s (is ++ is') s'' := by
  induction h with
  | nil => exact h'
  | cons hstep _ ih => exact .cons hstep (ih h')

/-- A way with one step more. -/
theorem snoc (h : Way T s is s') (hstep : T s' i s'') : Way T s (is ++ [i]) s'' :=
  h.append (.cons hstep (.nil _))

/-- The first step of a way. -/
theorem uncons (h : Way T s (i :: is) s') : ∃ s₁, T s i s₁ ∧ Way T s₁ is s' := by
  cases h with
  | cons hstep hrest => exact ⟨_, hstep, hrest⟩

/-- The state that a way comes to midway. -/
theorem split (h : Way T s (is ++ is') s'') : ∃ s', Way T s is s' ∧ Way T s' is' s'' := by
  induction is generalizing s with
  | nil => exact ⟨s, .nil s, h⟩
  | cons i is ih =>
    obtain ⟨s₁, hstep, hrest⟩ := h.uncons
    obtain ⟨s', hfirst, hlast⟩ := ih hrest
    exact ⟨s', .cons hstep hfirst, hlast⟩

theorem eq_of_nil (h : Way T s [] s') : s = s' := by
  cases h
  rfl

/-- What every label keeps, a way keeps. -/
theorem invariant (h : Way T s is s') (I : σ → Prop) (hstep : ∀ s i s', I s → T s i s' → I s')
    (hs : I s) : I s' := by
  induction h with
  | nil => exact hs
  | cons hT _ ih => exact ih (hstep _ _ _ hs hT)

/-- A change of the states that each label bears is borne by a way. -/
theorem map (h : Way T s is s') (f : σ → σ) (I : σ → Prop)
    (hstep : ∀ s i s', I s → T s i s' → I s' ∧ T (f s) i (f s')) (hs : I s) :
    Way T (f s) is (f s') := by
  induction h with
  | nil => exact .nil _
  | cons hT _ ih =>
    obtain ⟨hI, hT'⟩ := hstep _ _ _ hs hT
    exact .cons hT' (ih hI)

end Way

end Koh.Lib
