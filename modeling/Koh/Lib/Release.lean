import Mathlib.Data.List.Basic

/-!
# What nothing holds is released

Of what waits, the first that nothing holds is released, which may let go of another; and so on,
until all that waits is held.

## Main definitions

- `release`: what is released, in order, and what waits on

## Main results

- `release_perm`: all of it is released or waits on
- `release_free`: when one is released, nothing held it
- `release_held`: what waits on is held
-/

namespace Koh.Lib

variable {ν : Type} (held : List ν → ν → Bool) (drop : List ν → ℕ → List ν)

/-- What is released of `waiting`, in order, and what waits on: `drop` takes the one at an index. -/
def release : ℕ → List ν → List ν × List ν
  | 0, waiting => ([], waiting)
  | turns + 1, waiting =>
    match waiting.zipIdx.find? fun d => !held waiting d.1 with
    | none => ([], waiting)
    | some (d, i) =>
      let rest := release turns (drop waiting i)
      (d :: rest.1, rest.2)

variable {held drop} {waiting : List ν}

/-- The one released is where the search found it. -/
theorem find_free {d : ν} {i : ℕ}
    (h : (waiting.zipIdx.find? fun d => !held waiting d.1) = some (d, i)) :
    waiting[i]? = some d ∧ held waiting d = false := by
  refine ⟨?_, by simpa using List.find?_some h⟩
  simpa [List.mem_zipIdx_iff_getElem?] using List.mem_of_find?_eq_some h

/-- All is held that the search finds not. -/
theorem find_none (h : (waiting.zipIdx.find? fun d => !held waiting d.1) = none) :
    ∀ d ∈ waiting, held waiting d = true := by
  intro d hd
  obtain ⟨i, hi⟩ := List.mem_iff_getElem?.mp hd
  have hmem : (d, i) ∈ waiting.zipIdx := by
    simpa [List.mem_zipIdx_iff_getElem?] using hi
  simpa using List.find?_eq_none.mp h (d, i) hmem

variable (hdrop : ∀ {l : List ν} {i : ℕ} {d : ν}, l[i]? = some d → l.Perm (d :: drop l i))
include hdrop

/-- What waited is released or waits on. -/
theorem release_perm (turns : ℕ) :
    waiting.Perm ((release held drop turns waiting).1 ++ (release held drop turns waiting).2) := by
  induction turns generalizing waiting with
  | zero => exact .refl _
  | succ turns ih =>
    unfold release
    split
    · exact .refl _
    · next d i hfind => exact (hdrop (find_free hfind).1).trans (ih.cons d)

/-- When one is released, nothing held it of what is not yet released. -/
theorem release_free {turns : ℕ} {before after : List ν} {d : ν}
    (h : (release held drop turns waiting).1 = before ++ d :: after) :
    ∃ l, l.Perm (d :: (after ++ (release held drop turns waiting).2)) ∧ held l d = false := by
  induction turns generalizing waiting before with
  | zero => simp [release] at h
  | succ turns ih =>
    unfold release at h ⊢
    split at h
    · simp at h
    · next d' i hfind =>
      dsimp only
      cases before with
      | nil =>
        obtain ⟨rfl, hafter⟩ := List.cons.inj h
        obtain ⟨hat, hfree⟩ := find_free hfind
        refine ⟨waiting, (hdrop hat).trans (.cons d' ?_), hfree⟩
        rw [← hafter]
        exact release_perm hdrop turns
      | cons _ before => exact ih (List.cons.inj h).2

/-- Once there was a turn for each, what waits on is held. -/
theorem release_held {turns : ℕ} (hturns : waiting.length ≤ turns) :
    ∀ d ∈ (release held drop turns waiting).2,
      held (release held drop turns waiting).2 d = true := by
  induction turns generalizing waiting with
  | zero =>
    rw [List.length_eq_zero_iff.mp (Nat.le_zero.mp hturns)]
    simp [release]
  | succ turns ih =>
    unfold release
    split
    · next hnone => exact find_none hnone
    · next d i hfind =>
      have hlen := (hdrop (find_free hfind).1).length_eq
      simp only [List.length_cons] at hlen
      exact ih (by omega)

end Koh.Lib
