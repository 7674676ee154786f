import Koh.Jobs.Log
import Koh.Lib.Reach
import Koh.Lib.Search

/-!
# Waiting for a job's text

`waited`, from `server/wait.rs`, on a job, and `Job::find`, from `server/jobs.rs`: a wait
that looks at how the job stands, searches what it wrote since, and looks again.

## Main definitions

- `Log.find`: whether a text is in what is kept from a place on
- `Watched`, `Watched.step`: a job and a wait on it, and what either does next
- `Watched.holds`: what the text could begin in is kept until it is searched

## Main results

- `Watched.waited_text`: the wait answers that the text came exactly if it did
- `Watched.waited_misses`: though all was searched, half a text may be dropped

## Design notes

A wait's snapshot of how the job stands and its search are two moves, and the job's may
come between. It sleeps until the job stands otherwise, a tenth of a second at most, so
it may look again whenever it is not searching.
-/

namespace Koh.Jobs

open Koh.Lib

def maxWaitText : ℕ := 4096

/-- Text to wait for: 1 to 4096 bytes. -/
structure WaitText where
  bytes : Bytes
  pos : bytes ≠ []
  le : bytes.length ≤ maxWaitText
  deriving DecidableEq

inductive Until where
  | fin
  | text (text : WaitText)
  | file
  | reading
  deriving DecidableEq

inductive Waited where
  | ended (status : Option ℕ)
  | text
  | file
  | reading
  deriving DecidableEq

/-- Whether `text` is in the output from byte `pos` on, and where it could now begin:
`Job::find`. -/
def Log.find (log : Log) (text : Bytes) (pos : ℕ) : Bool × ℕ :=
  -- All that is kept is read.
  let (skipped, kept) := log.read pos log.kept.length
  let start := pos + skipped
  let overlap := text.length - 1
  (text ≠ [] && (windows text.length kept).any (· = text),
    max start (start + kept.length - overlap))

inductive WaitPhase where
  /-- To look at how the job stands. -/
  | looking
  /-- It saw the job's status, and is to search. -/
  | searching (exit : Option ℕ)
  | answered (waited : Waited)
  deriving DecidableEq

def WaitPhase.over : WaitPhase → Bool
  | .answered _ => true
  | _ => false

structure Watched where
  log : Log
  exit : Option ℕ
  /-- All the job wrote. -/
  output : Bytes
  «until» : Until
  /-- Where the text is looked for from. -/
  pos : ℕ
  /-- The bytes written when it was looked for last. -/
  seen : ℕ
  phase : WaitPhase
  deriving DecidableEq

inductive WaitMove where
  | append (bytes : Bytes)
  | finish (code : ℕ)
  /-- The wait looks at how the job stands, -/
  | look
  /-- and searches; a file may be there. -/
  | search (there : Bool)
  deriving DecidableEq

namespace Watched

/-- A job that wrote nothing, its log kept to `budget`, and a wait. -/
def init (budget : ℕ) (until' : Until) : Watched := ⟨.new budget, none, [], until', 0, 0, .looking⟩

def step (s : Watched) : WaitMove → Option Watched
  | .append bytes =>
    if s.exit = none then some { s with log := s.log.append bytes, output := s.output ++ bytes }
    else none
  | .finish code => if s.exit = none then some { s with exit := some code } else none
  | .look => if s.phase = .looking then some { s with phase := .searching s.exit } else none
  | .search there => match s.phase with
    | .searching exit =>
      let (found, pos) := match s.until with
        | .text text => s.log.find text.bytes s.pos
        | _ => (false, s.pos)
      let phase := if found then .answered .text
        else if s.until = .file ∧ there then .answered .file
        else match exit with
          | some code => .answered (.ended (some code))
          | none => .looking
      some { s with pos := pos, seen := s.output.length, phase := phase }
    | _ => none

/-- While it waits, what the text could begin in is kept until it is searched with what
comes after. -/
def holds (s : Watched) : WaitMove → Bool
  | .append bytes => s.phase.over || (s.log.append bytes).dropped ≤ s.pos
  | _ => true

/-- While it waits, what was written is kept until it is searched. -/
def searches (s : Watched) : WaitMove → Bool
  | .append bytes => s.phase.over || (s.log.append bytes).dropped ≤ s.seen
  | _ => true

end Watched

/-! ### A search -/

/-- A search finds the text if it was written, and else passes all it could not begin in. -/
theorem Log.Keeps.find {log : Log} {output text : Bytes} {pos : ℕ} (h : log.Keeps output)
    (htext : text ≠ []) (hkept : log.dropped ≤ pos) (hpassed : Passed text output pos) :
    ((log.find text pos).1 = true ↔ text <:+: output) ∧
    pos ≤ (log.find text pos).2 ∧
    (¬ text <:+: output → Passed text output (log.find text pos).2) := by
  have hlen : 0 < text.length := List.length_pos_iff.mpr htext
  have hle : pos ≤ output.length := by
    cases pos with
    | zero => exact Nat.zero_le _
    | succ before =>
      have := (hpassed before (Nat.lt_succ_self _)).1
      omega
  -- Nothing was dropped that is looked for: all from `pos` on is searched.
  have hskipped : (log.read pos log.kept.length).1 = 0 := Nat.sub_eq_zero_of_le hkept
  have hread : (log.read pos log.kept.length).2 = output.drop pos := by
    rw [h.read_snd, hskipped, Nat.add_zero]
    refine List.take_of_length_le ?_
    have hdropped := h.dropped
    have hkeptlen := h.length_le
    rw [List.length_drop]
    omega
  have hfind : log.find text pos =
      (text ≠ [] && (windows text.length (output.drop pos)).any (· = text),
        max pos (pos + (output.drop pos).length - (text.length - 1))) := by
    simp only [Log.find, hskipped, hread, Nat.add_zero]
  rw [hfind]
  refine ⟨?_, Nat.le_max_left _ _, fun hnot => ?_⟩
  · rw [hpassed.infix_iff, ← mem_windows_iff htext]
    simp [htext]
  · refine hpassed.either ?_
    have hend : pos + (output.drop pos).length = output.length := by
      rw [List.length_drop]
      omega
    rw [hend]
    exact .of_not_found hnot

namespace Watched

variable {s s' : Watched} {t : WaitText}

/-- What holds of a wait for `t` in runs that keep what it could begin in. -/
structure Waits (t : WaitText) (s : Watched) : Prop where
  keeps : s.log.Keeps s.output
  «until» : s.until = .text t
  kept : s.phase.over = false → s.log.dropped ≤ s.pos
  passed : s.phase.over = false → Passed t.bytes s.output s.pos
  searching : ∀ code, s.phase = .searching (some code) → s.exit = some code
  answered : ∀ w, s.phase = .answered w → w = .text ∧ t.bytes <:+: s.output ∨
    ∃ code, w = .ended (some code) ∧ s.exit = some code ∧ ¬ t.bytes <:+: s.output

/-- Nothing is searched yet. -/
theorem init_waits (budget : ℕ) (t : WaitText) : (init budget (.text t)).Waits t where
  keeps := Log.new_keeps budget
  «until» := rfl
  kept := fun _ => Nat.le_refl 0
  passed := fun _ => .zero _ _
  searching := by rintro code ⟨⟩
  answered := by rintro w ⟨⟩

/-- What a search answers, while the wait waits. -/
theorem Waits.search (h : s.Waits t) {exit : Option ℕ} {there : Bool}
    (hphase : s.phase = .searching exit) (hstep : s.step (.search there) = some s') :
    s'.Waits t ∧ (s'.phase = .answered .text ↔ t.bytes <:+: s.output) ∧
    (s'.phase.over = false → exit = none) := by
  have hover : s.phase.over = false := by rw [hphase]; rfl
  obtain ⟨hfound, hpos, hpassed⟩ := h.keeps.find t.pos (h.kept hover) (h.passed hover)
  simp only [step, hphase, h.until, reduceCtorEq, false_and, if_false, Option.some.injEq] at hstep
  by_cases hinfix : t.bytes <:+: s.output
  · rw [if_pos (hfound.mpr hinfix)] at hstep
    subst hstep
    refine ⟨⟨h.keeps, rfl, by rintro ⟨⟩, by rintro ⟨⟩, by rintro _ ⟨⟩, ?_⟩, ?_, by rintro ⟨⟩⟩
    · rintro w ⟨⟩
      exact .inl ⟨rfl, hinfix⟩
    · exact ⟨fun _ => hinfix, fun _ => rfl⟩
  · rw [if_neg (fun hf => hinfix (hfound.mp hf))] at hstep
    subst hstep
    cases exit with
    | some code =>
      have hexit := h.searching code hphase
      refine ⟨⟨h.keeps, rfl, by rintro ⟨⟩, by rintro ⟨⟩, by rintro _ ⟨⟩, ?_⟩, ?_, by rintro ⟨⟩⟩
      · rintro w ⟨⟩
        exact .inr ⟨code, rfl, hexit, hinfix⟩
      · exact ⟨by rintro ⟨⟩, fun hin => absurd hin hinfix⟩
    | none =>
      refine ⟨⟨h.keeps, rfl, fun _ => (h.kept hover).trans hpos, fun _ => hpassed hinfix,
        by rintro _ ⟨⟩, by rintro _ ⟨⟩⟩, ?_, fun _ => rfl⟩
      exact ⟨by rintro ⟨⟩, fun hin => absurd hin hinfix⟩

/-- A step under a bounded log keeps what was passed over. -/
theorem step_waits {m : WaitMove} (h : s.Waits t) (hholds : s.holds m = true)
    (hstep : s.step m = some s') : s'.Waits t := by
  cases m with
  | append bytes =>
    simp only [step] at hstep
    split at hstep
    · next hexit =>
      obtain rfl := Option.some.inj hstep
      refine ⟨h.keeps.append bytes, h.until, fun hover => ?_, fun hover => ?_, h.searching, ?_⟩
      · replace hover : s.phase.over = false := hover
        simpa [holds, hover] using hholds
      · exact (h.passed hover).append bytes
      · intro w hw
        rcases h.answered w hw with ⟨rfl, hin⟩ | ⟨code, -, hsome, -⟩
        · exact .inl ⟨rfl, hin.trans (List.prefix_append _ _).isInfix⟩
        · rw [hexit] at hsome
          cases hsome
    · cases hstep
  | finish code =>
    simp only [step] at hstep
    split at hstep
    · next hexit =>
      obtain rfl := Option.some.inj hstep
      refine ⟨h.keeps, h.until, h.kept, h.passed, fun code' hsearch => ?_, fun w hw => ?_⟩
      · have hsome := h.searching code' hsearch
        rw [hexit] at hsome
        cases hsome
      · rcases h.answered w hw with hin | ⟨code', -, hsome, -⟩
        · exact .inl hin
        · rw [hexit] at hsome
          cases hsome
    · cases hstep
  | look =>
    simp only [step] at hstep
    split at hstep
    · next hphase =>
      obtain rfl := Option.some.inj hstep
      have hover : s.phase.over = false := by rw [hphase]; rfl
      refine ⟨h.keeps, h.until, fun _ => h.kept hover, fun _ => h.passed hover, ?_, by rintro _ ⟨⟩⟩
      intro code hsearch
      exact WaitPhase.searching.inj hsearch
    · cases hstep
  | search there =>
    cases hphase : s.phase with
    | searching exit => exact (h.search hphase hstep).1
    | looking =>
      simp only [step, hphase] at hstep
      cases hstep
    | answered w =>
      simp only [step, hphase] at hstep
      cases hstep

/-- The wait is over once it is answered. -/
theorem over_iff {phase : WaitPhase} : phase.over = true ↔ ∃ w, phase = .answered w := by
  cases phase <;> simp [WaitPhase.over]

/-- A wait that saw how the job ended answers once it searched. -/
theorem Waits.answers_searching (h : s.Waits t) {code : ℕ}
    (hphase : s.phase = .searching (some code)) :
    ∃ s' w, Reaches step (holds · ·) s s' ∧ s'.output = s.output ∧ s'.phase = .answered w := by
  obtain ⟨s', hstep, houtput⟩ : ∃ s', s.step (.search false) = some s' ∧ s'.output = s.output := by
    simp only [step, hphase]
    exact ⟨_, rfl, rfl⟩
  obtain ⟨-, -, hnone⟩ := h.search hphase hstep
  have hover : s'.phase.over = true := by
    by_contra hover
    cases hnone (Bool.eq_false_iff.mpr hover)
  obtain ⟨w, hw⟩ := over_iff.mp hover
  exact ⟨s', w, Reaches.refl.snoc rfl hstep, houtput, hw⟩

/-- A wait that is to look at a job that ended answers once it did, and searched. -/
theorem Waits.answers_looking (h : s.Waits t) {code : ℕ} (hexit : s.exit = some code)
    (hphase : s.phase = .looking) :
    ∃ s' w, Reaches step (holds · ·) s s' ∧ s'.output = s.output ∧ s'.phase = .answered w := by
  have hstep : s.step .look = some { s with phase := .searching (some code) } := by
    rw [← hexit]
    exact if_pos hphase
  obtain ⟨s', w, hreach, houtput, hw⟩ := (step_waits h rfl hstep).answers_searching rfl
  have hlook : Reaches step (holds · ·) s { s with phase := .searching (some code) } :=
    Reaches.refl.snoc rfl hstep
  exact ⟨s', w, hlook.trans hreach, houtput, hw⟩

/-- A wait on a job that ended comes to answer. -/
theorem Waits.answers (h : s.Waits t) {code : ℕ} (hexit : s.exit = some code) :
    ∃ s' w, Reaches step (holds · ·) s s' ∧ s'.output = s.output ∧ s'.phase = .answered w := by
  cases hphase : s.phase with
  | answered w => exact ⟨s, w, .refl, rfl, hphase⟩
  | looking => exact h.answers_looking hexit hphase
  | searching exit =>
    cases exit with
    | some code' => exact h.answers_searching hphase
    | none =>
      -- It looked before the job ended: unless it finds the text, it looks again.
      obtain ⟨s', hstep, houtput, hexit'⟩ : ∃ s', s.step (.search false) = some s' ∧
          s'.output = s.output ∧ s'.exit = s.exit := by
        simp only [step, hphase]
        exact ⟨_, rfl, rfl, rfl⟩
      have hs' : s'.Waits t := step_waits h rfl hstep
      have hreach : Reaches step (holds · ·) s s' := Reaches.refl.snoc rfl hstep
      cases hphase' : s'.phase with
      | answered w => exact ⟨s', w, hreach, houtput, hphase'⟩
      | looking =>
        obtain ⟨s'', w, hreach', houtput', hw⟩ := hs'.answers_looking (hexit'.trans hexit) hphase'
        exact ⟨s'', w, hreach.trans hreach', houtput'.trans houtput, hw⟩
      | searching exit =>
        cases exit with
        | some code' =>
          obtain ⟨s'', w, hreach', houtput', hw⟩ := hs'.answers_searching hphase'
          exact ⟨s'', w, hreach.trans hreach', houtput'.trans houtput, hw⟩
        | none =>
          simp only [step, hphase, h.until, reduceCtorEq, false_and, if_false,
            Option.some.injEq] at hstep
          subst hstep
          simp only at hphase'
          split at hphase' <;> cases hphase'

/-- **Waiting for a text sees it exactly if it is written**, in runs in which what the
text could begin in is kept until it is searched with what comes after: what the wait
answers is that the text came, if the output has it, and that the job ended, if it did
without it; each search finds the text if it was written by then; and once the job ended
the wait answers. -/
theorem waited_text {budget : ℕ} (h : Reaches step (holds · ·) (init budget (.text t)) s) :
    (∀ w, s.phase = .answered w → (w = .text ↔ t.bytes <:+: s.output) ∧
      (w ≠ .text → ∃ code, w = .ended (some code) ∧ s.exit = some code)) ∧
    (∀ exit there s', s.phase = .searching exit → s.step (.search there) = some s' →
      (s'.phase = .answered .text ↔ t.bytes <:+: s.output)) ∧
    (s.exit.isSome → ∃ s' w, Reaches step (holds · ·) s s' ∧ s'.output = s.output ∧
      s'.phase = .answered w) := by
  have hs : s.Waits t := h.invariant (Waits t) (init_waits budget t)
    fun _ _ _ hs hholds hstep => step_waits hs hholds hstep
  refine ⟨fun w hw => ?_, fun exit there s' hphase hstep => ?_, fun hexit => ?_⟩
  · rcases hs.answered w hw with ⟨rfl, hin⟩ | ⟨code, rfl, hexit, hnot⟩
    · exact ⟨⟨fun _ => hin, fun _ => rfl⟩, fun hne => absurd rfl hne⟩
    · exact ⟨⟨by rintro ⟨⟩, fun hin => absurd hin hnot⟩, fun _ => ⟨code, rfl, hexit⟩⟩
  · exact (hs.search hphase hstep).2.1
  · obtain ⟨code, hcode⟩ := Option.isSome_iff_exists.mp hexit
    exact hs.answers hcode

def abText : WaitText := ⟨[0x61, 0x62], by decide, by decide⟩

/-- A job writes `x`, `a`, which is searched, then `b`, and ends. -/
def halfMoves : List WaitMove :=
  [.append [0x78, 0x61], .look, .search false, .append [0x62], .finish 0, .look, .search false]

/-- In `waited_text`, a log that keeps all of it. -/
theorem waited_text_ab : ∃ s, Reaches step (holds · ·) (init 10 (.text abText)) s ∧
    s.phase = .answered .text ∧ (Waited.text = .text ↔ abText.bytes <:+: s.output) := by
  obtain ⟨s, hs, hphase⟩ := Option.map_eq_some_iff.mp
    (show (runWhile step (holds · ·) (init 10 (.text abText)) halfMoves).map Watched.phase =
      some (.answered .text) by decide +kernel)
  have hreach := reaches_of_run hs
  exact ⟨s, hreach, hphase, ((waited_text hreach).1 _ hphase).1⟩

/-- Though all that is dropped was searched, the wait may answer that the job ended
without a text that its output has: its first half was searched and is dropped before the
second is. -/
theorem waited_misses : ∃ s, Reaches step (searches · ·) (init 1 (.text abText)) s ∧
    s.phase = .answered (.ended (some 0)) ∧ abText.bytes <:+: s.output := by
  obtain ⟨s, hs, hends⟩ := Option.map_eq_some_iff.mp
    (show (runWhile step (searches · ·) (init 1 (.text abText)) halfMoves).map
      (fun s => (s.phase, s.output)) = some (.answered (.ended (some 0)), [0x78, 0x61, 0x62]) by
      decide +kernel)
  obtain ⟨hphase, houtput⟩ := Prod.mk.inj hends
  exact ⟨s, reaches_of_run hs, hphase, ⟨[0x78], [], by rw [houtput]; rfl⟩⟩

end Watched

end Koh.Jobs
