import Mathlib.Data.List.Basic
import Mathlib.Data.List.Induction

/-!
# Logs

What happened, the oldest first. A law of a log says of each happening something of what was before
it and of what came after.

## Main definitions

- `Law`: a law holds of a log

## Main results

- `Law.snoc`: a law holds of one happening more
- `Law.induct`: induction on a log, where the law does not look ahead
-/

namespace Koh.Lib

variable {α : Type} {log before after : List α} {x y : α}

/-- A happening of a log is its last, or of the log before. -/
theorem snoc_cases (h : log ++ [x] = before ++ y :: after) :
    (log = before ∧ x = y ∧ after = []) ∨
      ∃ after', log = before ++ y :: after' ∧ after = after' ++ [x] := by
  rcases List.eq_nil_or_concat' after with rfl | ⟨after', z, rfl⟩
  · obtain ⟨hlog, hlast⟩ := List.append_singleton_inj.mp h
    exact .inl ⟨hlog, hlast, rfl⟩
  · have hassoc : log ++ [x] = (before ++ y :: after') ++ [z] := by simpa using h
    obtain ⟨hlog, hlast⟩ := List.append_singleton_inj.mp hassoc
    exact .inr ⟨after', hlog, by rw [hlast]⟩

/-- Of each happening, with what was before it and what came after, `P`. -/
def Law (P : List α → α → List α → Prop) (log : List α) : Prop :=
  ∀ before y after, log = before ++ y :: after → P before y after

variable {P : List α → α → List α → Prop}

theorem Law.nil : Law P [] := by
  intro before y after h
  simp at h

/-- One happening more: the law holds of it, and still of those before. -/
theorem Law.snoc (h : Law P log) (hlast : P log x [])
    (hmore : ∀ before y after, log = before ++ y :: after → P before y after →
      P before y (after ++ [x])) : Law P (log ++ [x]) := by
  intro before y after heq
  rcases snoc_cases heq with ⟨rfl, rfl, rfl⟩ | ⟨after', hlog, rfl⟩
  · exact hlast
  · exact hmore before y after' hlog (h before y after' hlog)

/-- Induction on a lawful log, where the law does not look ahead. -/
@[elab_as_elim]
theorem Law.induct {motive : List α → Prop} (h : Law P log)
    (hback : ∀ before y after x, P before y (after ++ [x]) → P before y after) (nil : motive [])
    (snoc : ∀ log x, Law P log → P log x [] → motive log → motive (log ++ [x])) : motive log := by
  induction log using List.reverseRecOn with
  | nil => exact nil
  | append_singleton log x ih =>
    have hlog : Law P log := by
      intro before y after heq
      refine hback before y after x (h before y (after ++ [x]) ?_)
      rw [heq, List.append_assoc, List.cons_append]
    exact snoc log x hlog (h log x [] rfl) (ih hlog)

end Koh.Lib
