import Koh.Input.Queue
import Koh.Lib.Fair
import Mathlib.Data.Prod.Lex

/-!
# What is accepted is written

What comes of input that waits for its stream's writer: as long as the writer goes on and its stream
takes writes, all of it is written.

## Main definitions

- `Wire.toWrite`: how far the writer is from having written so many messages

## Main results

- `accepted_written`: what is accepted is written, or the stream failed
-/

namespace Koh.Input

open Koh.Lib

variable {K C : Type} {code : Code K C} {w w' : Wire} {m : Move K C} {n : ℕ}

def Move.ofWriter : Move K C → Bool
  | .opens | .recv | .write | .settle | .fail => true
  | _ => false

/-- How many moves the writer has before it writes a message. -/
def Writer.toWrite : Writer → ℕ
  | .wrote _ => 3
  | .opening => 2
  | .waiting => 1
  | _ => 0

/-- How far the writer is from having written `n` messages. -/
def Wire.toWrite (w : Wire) (n : ℕ) : ℕ ×ₗ ℕ :=
  toLex (n - (written w.log).length, w.writer.toWrite)

/-- What a step does to the writer's work: it writes, or comes nearer to it, or its stream failed;
and what is accepted stays so. -/
structure Onward (n : ℕ) (m : Move K C) (w w' : Wire) : Prop where
  grows : (accepted w.log).length ≤ (accepted w'.log).length
  nearer : w'.writer = .gone ∨ n ≤ (written w'.log).length ∨
    (w'.toWrite n ≤ w.toWrite n ∧ (m.ofWriter = true → w'.toWrite n < w.toWrite n))

/-- The step is `send`'s: the writer is as it was. -/
theorem Onward.of_send (hm : m.ofWriter = false) (hwriter : w'.writer = w.writer)
    (haccepted : (accepted w.log).length ≤ (accepted w'.log).length)
    (hwritten : written w'.log = written w.log) : Onward n m w w' := by
  have hsame : w'.toWrite n = w.toWrite n := by rw [Wire.toWrite, hwriter, hwritten, Wire.toWrite]
  refine ⟨haccepted, .inr (.inr ⟨hsame.le, fun htrue => ?_⟩)⟩
  rw [hm] at htrue
  cases htrue

/-- The writer comes nearer to writing a message. -/
theorem Onward.of_writer (hwriter : w'.writer.toWrite < w.writer.toWrite) (hlog : w'.log = w.log) :
    Onward n m w w' := by
  have hless : w'.toWrite n < w.toWrite n := by
    rw [Wire.toWrite, hlog]
    exact Prod.Lex.toLex_lt_toLex.mpr (.inr ⟨rfl, hwriter⟩)
  exact ⟨by rw [hlog], .inr (.inr ⟨hless.le, fun _ => hless⟩)⟩

/-- The writer writes one message more. -/
theorem Onward.of_write {frame : Frame} : Onward n m w
    { w with writer := .wrote frame, log := w.log ++ [.written frame] } := by
  have hmore : (written (w.log ++ [.written frame])).length = (written w.log).length + 1 := by
    rw [written_append, List.length_append]
    rfl
  refine ⟨by simp, .inr ?_⟩
  by_cases hn : n ≤ (written w.log).length
  · exact .inl (hmore ▸ Nat.le_succ_of_le hn)
  · have hless : Wire.toWrite { w with
        writer := .wrote frame, log := w.log ++ [.written frame] } n < w.toWrite n := by
      refine Prod.Lex.toLex_lt_toLex.mpr (.inl ?_)
      change n - (written (w.log ++ [.written frame])).length < n - (written w.log).length
      omega
    exact .inr ⟨hless.le, fun _ => hless⟩

/-- What is accepted stays so, and every access of the writer's brings the writing nearer. -/
theorem onward_of_step (hstep : w.step code m = some w') : Onward n m w w' := by
  cases Wire.steps_of_step hstep with
  | other => exact .of_send rfl rfl (Nat.le_refl _) rfl
  | refuse => exact .of_send rfl rfl (by simp) (by simp [written])
  | send => exact .of_send rfl rfl (Nat.le_refl _) rfl
  | add => exact .of_send rfl rfl (Nat.le_refl _) rfl
  | miss => exact .of_send rfl rfl (Nat.le_refl _) rfl
  | attempt => exact .of_send rfl rfl (by simp) (by simp [written])
  | undo => exact .of_send rfl rfl (by simp) (by simp [written])
  | opens hwriter => exact .of_writer (by simp [hwriter, Writer.toWrite]) rfl
  | recv hwriter => exact .of_writer (by simp [hwriter, Writer.toWrite]) rfl
  | write => exact .of_write
  | settle hwriter => exact .of_writer (by simp [hwriter, Writer.toWrite]) rfl
  | fail => exact ⟨Nat.le_refl _, .inl rfl⟩

/-- With a message to write, the writer can go on. -/
theorem writer_can {waiting : List Frame} (h : Kept w waiting) (hlive : w.writer ≠ .gone)
    (hmore : (written w.log).length < (accepted w.log).length) :
    ∃ m : Move K C, m.ofWriter = true ∧ w.step code m ≠ none := by
  cases hwriter : w.writer with
  | opening => exact ⟨.opens, rfl, by simp [Wire.step, hwriter]⟩
  | waiting =>
    cases hqueue : w.queue with
    | nil =>
      have hnone := h.live hlive
      rw [hwriter, hqueue] at hnone
      rw [h.accepted, hnone] at hmore
      simp [Writer.unwritten] at hmore
    | cons frame queue => exact ⟨.recv, rfl, by simp [Wire.step, hwriter, hqueue]⟩
  | writing frame => exact ⟨.write, rfl, by simp [Wire.step, hwriter]⟩
  | wrote frame => exact ⟨.settle, rfl, by simp [Wire.step, hwriter]⟩
  | gone => exact absurd hwriter hlive

structure Goes (code : Code K C) (run : ℕ → Wire) (moves : ℕ → Move K C) : Prop where
  opened : run 0 = .opened
  forever : Forever (Wire.step code) run moves
  writes : Fair (Wire.step code) (fun m => m.ofWriter = true) run moves

/-- In every run in which the writer goes on, what is accepted is written, or the stream failed. -/
theorem accepted_written {run : ℕ → Wire} {moves : ℕ → Move K C} (h : Goes code run moves) (n : ℕ) :
    LeadsTo run (fun w => n ≤ (accepted w.log).length)
      fun w => w.writer = .gone ∨ n ≤ (written w.log).length := by
  have hreach : ∀ k, Reachable (Wire.step code) .opened (run k) := fun k =>
    h.opened ▸ h.forever.reaches k
  refine h.forever.leadsTo_of_rank h.writes hreach (fun w => w.toWrite n) ?_ ?_
  · intro w m w' _ hn hstep
    have honward : Onward n m w w' := onward_of_step hstep
    obtain ⟨hgrows, hgone | hwritten | hnearer⟩ := honward
    · exact .inl (.inl hgone)
    · exact .inl (.inr hwritten)
    · exact .inr ⟨Nat.le_trans hn hgrows, hnearer⟩
  · intro w hw hn
    obtain ⟨waiting, hkept⟩ := Kept.reached hw
    by_cases hdone : w.writer = .gone ∨ n ≤ (written w.log).length
    · exact .inl hdone
    · obtain ⟨hlive, hmore⟩ := not_or.mp hdone
      exact .inr (writer_can hkept hlive (by omega))

/-- Keys are sent and written; then only messages of the control stream are sent. -/
def writing : ℕ → Move Unit Unit
  | 0 => .opens
  | 1 => .send (.keys 1 [()])
  | 2 => .add
  | 3 => .attempt
  | 4 => .recv
  | 5 => .write
  | 6 => .settle
  | _ => .send .redraw

def course (moves : ℕ → Move Unit Unit) : ℕ → Wire
  | 0 => .opened
  | n + 1 => ((course moves n).step oneByte (moves n)).getD (course moves n)

/-- Then only messages of the control stream are sent. -/
theorem writing_later (n : ℕ) : writing (7 + n) = .send .redraw := by
  rw [Nat.add_comm]
  rfl

/-- In the end nothing is to be written. -/
theorem course_later (n : ℕ) : course writing (7 + n) = course writing 7 := by
  have hidle : (course writing 7).sending = .idle := by decide +kernel
  have hsame : ∀ w : Wire, w.sending = .idle → w.step oneByte (.send .redraw) = some w := by
    intro w hw
    simp [Wire.step, hw, onInput]
  induction n with
  | zero => rfl
  | succ n ih =>
    rw [← Nat.add_assoc, course, writing_later, ih, hsame _ hidle, Option.getD_some]

/-- The moves are a run. -/
theorem forever_writing : Forever (Wire.step oneByte) (course writing) writing := by
  intro n
  have hsome : ((course writing n).step oneByte (writing n)).isSome = true := by
    by_cases hn : n < 7
    · have hearly : ∀ n < 7, ((course writing n).step oneByte (writing n)).isSome = true := by
        decide +kernel
      exact hearly n hn
    · obtain ⟨k, rfl⟩ := Nat.exists_eq_add_of_le (Nat.le_of_not_lt hn)
      rw [writing_later, course_later]
      decide +kernel
  obtain ⟨w, hw⟩ := Option.isSome_iff_exists.mp hsome
  rw [course, hw]
  rfl

/-- The writer goes on in it. -/
theorem goes_writing : Goes oneByte (course writing) writing where
  opened := rfl
  forever := forever_writing
  writes n hcan := by
    obtain ⟨m, hm, hstep⟩ := hcan (7 + n) (by omega)
    have hwriter : (course writing 7).writer = .waiting := by decide +kernel
    have hqueue : (course writing 7).queue = [] := by decide +kernel
    rw [course_later] at hstep
    cases m with
    | opens => simp [Wire.step, hwriter] at hstep
    | recv => simp [Wire.step, hwriter, hqueue] at hstep
    | write => simp [Wire.step, hwriter] at hstep
    | settle => simp [Wire.step, hwriter] at hstep
    | fail => simp [Wire.step, hwriter] at hstep
    | _ => cases hm

/-- What was accepted is written. -/
theorem accepted_written_one :
    ∃ k ≥ 4, (course writing k).writer = .gone ∨ 1 ≤ (written (course writing k).log).length :=
  accepted_written goes_writing 1 4 (by decide +kernel)

end Koh.Input
