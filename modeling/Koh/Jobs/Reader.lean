import Koh.Jobs.Log
import Koh.Lib.Reach

/-!
# The reader of a job's log

`logs`, from `server/jobs.rs`, beside the runner that appends to the log and says
how the job stands: what is sent of the log, whatever the order of their steps.

## Main definitions

- `LogMsg`: what is sent
- `Reader`: where the reader is
- `Logging`, `Logging.step`: a job and a reader of its log, and what either does next
- `Logging.Steps`: what a move does, and when it is made
- `covered`: how far into an output messages go, if they are it
- `Logging.Looked`: how much was written when the reader looked

## Main results

- `Logging.sent_accounts`: what is sent accounts for the output, each byte once

## Design notes

`Job::append` locks the log, and then says how much was written: `append` and
`tell` are two moves, and a reader's may come between. A reader looks at how the
job stands, then reads the log a chunk at a time, locking it for each; it sends
with no lock held. The seconds a job ran come from the clock, and are given to
`conclude`. A lock is never poisoned: nothing panics that holds one.
-/

namespace Koh.Jobs

open Koh.Lib

def maxLogChunk : ℕ := 64 * 1024

inductive LogMsg where
  /-- The output that went before was dropped, this many bytes. -/
  | dropped (bytes : ℕ)
  /-- This many lines of what is kept went before what is sent. -/
  | cut (lines : ℕ)
  | data (bytes : Bytes)
  | fin (exit : Option ℕ) (secs : ℕ)
  deriving DecidableEq

structure Status where
  written : ℕ
  exit : Option ℕ
  version : ℕ
  deriving DecidableEq

inductive Phase where
  | opening
  | cutting (lines : ℕ)
  /-- To look at how the job stands. -/
  | looking
  | reading (now : Status)
  /-- It read so many bytes dropped, and a chunk. -/
  | dropping (now : Status) (skipped : ℕ) (chunk : Bytes)
  | sending (now : Status) (chunk : Bytes)
  /-- All there was is sent. -/
  | concluding (now : Status)
  /-- For the job to stand otherwise. -/
  | waiting (version : ℕ)
  | done
  deriving DecidableEq

structure Reader where
  follow : Bool
  tail : Option ℕ
  /-- Where it began. -/
  start : ℕ
  /-- Where it is in the output. -/
  pos : ℕ
  sent : List LogMsg
  phase : Phase
  deriving DecidableEq

structure Logging where
  log : Log
  status : Status
  /-- The runner appended, and has yet to say so. -/
  telling : Bool
  /-- All the job wrote. -/
  output : Bytes
  reader : Reader
  deriving DecidableEq

inductive LogMove where
  /-- The runner appends what the job wrote, -/
  | append (bytes : Bytes)
  /-- and says how much that makes. -/
  | tell
  | finish (code : ℕ)
  /-- The reader goes on. -/
  | start
  | cut
  | look
  | read
  | drop
  | send
  | conclude (secs : ℕ)
  /-- The job stands otherwise than when it looked. -/
  | changed
  /-- The connection is lost. -/
  | lose
  deriving DecidableEq

namespace Logging

def init (budget : ℕ) (follow : Bool) (tail : Option ℕ) : Logging :=
  ⟨.new budget, ⟨0, none, 0⟩, false, [], ⟨follow, tail, 0, 0, [], .opening⟩⟩

/-- The status at the end of what is sent: the job's, if all its output was sent. -/
def exitAt (now : Status) (pos : ℕ) : Option ℕ := now.exit.filter fun _ => now.written ≤ pos

def step (s : Logging) : LogMove → Option Logging
  | .append bytes =>
    if s.telling = false ∧ s.status.exit = none then
      some { s with log := s.log.append bytes, telling := true, output := s.output ++ bytes }
    else none
  | .tell =>
    if s.telling then
      some { s with
        telling := false
        status := ⟨s.log.total, s.status.exit, s.status.version + 1⟩ }
    else none
  | .finish code =>
    if s.telling = false ∧ s.status.exit = none then
      some { s with status := ⟨s.status.written, some code, s.status.version + 1⟩ }
    else none
  | .start => match s.reader.phase, s.reader.tail with
    | .opening, some lines =>
      let (pos, cut) := s.log.tail lines
      some { s with reader := { s.reader with start := pos, pos := pos, phase := .cutting cut } }
    | .opening, none => some { s with reader := { s.reader with phase := .cutting 0 } }
    | _, _ => none
  | .cut => match s.reader.phase with
    | .cutting lines => some { s with reader := { s.reader with
        sent := if 0 < lines then s.reader.sent ++ [.cut lines] else s.reader.sent
        phase := .looking } }
    | _ => none
  | .look => match s.reader.phase with
    | .looking => some { s with reader := { s.reader with phase := .reading s.status } }
    | _ => none
  | .read => match s.reader.phase with
    | .reading now =>
      let (skipped, chunk) := s.log.read s.reader.pos maxLogChunk
      some { s with reader := { s.reader with phase := .dropping now skipped chunk } }
    | _ => none
  | .drop => match s.reader.phase with
    | .dropping now skipped chunk => some { s with reader := { s.reader with
        pos := s.reader.pos + skipped
        sent := if 0 < skipped then s.reader.sent ++ [.dropped skipped] else s.reader.sent
        phase := if chunk.isEmpty then .concluding now else .sending now chunk } }
    | _ => none
  | .send => match s.reader.phase with
    | .sending now chunk => some { s with reader := { s.reader with
        pos := s.reader.pos + chunk.length
        sent := s.reader.sent ++ [.data chunk]
        phase := .reading now } }
    | _ => none
  | .conclude secs => match s.reader.phase with
    | .concluding now =>
      if (now.exit.isSome ∧ now.written ≤ s.reader.pos) ∨ s.reader.follow = false then
        some { s with reader := { s.reader with
          sent := s.reader.sent ++ [.fin (exitAt now s.reader.pos) secs]
          phase := .done } }
      else some { s with reader := { s.reader with phase := .waiting now.version } }
    | _ => none
  | .changed => match s.reader.phase with
    | .waiting version =>
      if s.status.version ≠ version then
        some { s with reader := { s.reader with phase := .looking } }
      else none
    | _ => none
  | .lose => some { s with reader := { s.reader with phase := .done } }

end Logging

/-! ### What a move does -/

inductive Logging.Steps (s : Logging) : LogMove → Logging → Prop where
  | append {bytes : Bytes} (htelling : s.telling = false) (hruns : s.status.exit = none) :
    Steps s (.append bytes)
      { s with log := s.log.append bytes, telling := true, output := s.output ++ bytes }
  | tell (htelling : s.telling = true) : Steps s .tell { s with
      telling := false
      status := ⟨s.log.total, s.status.exit, s.status.version + 1⟩ }
  | finish {code : ℕ} (htelling : s.telling = false) (hruns : s.status.exit = none) :
    Steps s (.finish code)
      { s with status := ⟨s.status.written, some code, s.status.version + 1⟩ }
  | startTail {lines : ℕ} (hphase : s.reader.phase = .opening)
      (htail : s.reader.tail = some lines) : Steps s .start { s with reader := { s.reader with
        start := (s.log.tail lines).1
        pos := (s.log.tail lines).1
        phase := .cutting (s.log.tail lines).2 } }
  | start (hphase : s.reader.phase = .opening) (htail : s.reader.tail = none) :
    Steps s .start { s with reader := { s.reader with phase := .cutting 0 } }
  | cut {lines : ℕ} (hphase : s.reader.phase = .cutting lines) :
    Steps s .cut { s with reader := { s.reader with
      sent := if 0 < lines then s.reader.sent ++ [.cut lines] else s.reader.sent
      phase := .looking } }
  | look (hphase : s.reader.phase = .looking) :
    Steps s .look { s with reader := { s.reader with phase := .reading s.status } }
  | read {now : Status} (hphase : s.reader.phase = .reading now) :
    Steps s .read { s with reader := { s.reader with
      phase := .dropping now (s.log.read s.reader.pos maxLogChunk).1
        (s.log.read s.reader.pos maxLogChunk).2 } }
  | drop {now : Status} {skipped : ℕ} {chunk : Bytes}
      (hphase : s.reader.phase = .dropping now skipped chunk) :
    Steps s .drop { s with reader := { s.reader with
      pos := s.reader.pos + skipped
      sent := if 0 < skipped then s.reader.sent ++ [.dropped skipped] else s.reader.sent
      phase := if chunk.isEmpty then .concluding now else .sending now chunk } }
  | send {now : Status} {chunk : Bytes} (hphase : s.reader.phase = .sending now chunk) :
    Steps s .send { s with reader := { s.reader with
      pos := s.reader.pos + chunk.length
      sent := s.reader.sent ++ [.data chunk]
      phase := .reading now } }
  | ends {now : Status} {secs : ℕ} (hphase : s.reader.phase = .concluding now)
      (hends : (now.exit.isSome ∧ now.written ≤ s.reader.pos) ∨ s.reader.follow = false) :
    Steps s (.conclude secs) { s with reader := { s.reader with
      sent := s.reader.sent ++ [.fin (Logging.exitAt now s.reader.pos) secs]
      phase := .done } }
  | waits {now : Status} {secs : ℕ} (hphase : s.reader.phase = .concluding now) :
    Steps s (.conclude secs) { s with reader := { s.reader with phase := .waiting now.version } }
  | changed {version : ℕ} (hphase : s.reader.phase = .waiting version)
      (hchanged : s.status.version ≠ version) :
    Steps s .changed { s with reader := { s.reader with phase := .looking } }
  | lose : Steps s .lose { s with reader := { s.reader with phase := .done } }

/-- The inversion of `step`. -/
theorem Logging.steps_of_step {s s' : Logging} {m : LogMove} (hstep : s.step m = some s') :
    s.Steps m s' := by
  cases m with
  | append | tell | finish =>
    simp only [step] at hstep
    split at hstep <;> cases hstep
    next h => first | exact .tell h | exact .append h.1 h.2 | exact .finish h.1 h.2
  | start =>
    simp only [step] at hstep
    split at hstep <;> cases hstep
    · next hphase htail => exact .startTail hphase htail
    · next hphase htail => exact .start hphase htail
  | cut | look | read | drop | send =>
    simp only [step] at hstep
    split at hstep <;> cases hstep
    next hphase =>
      first
        | exact .cut hphase
        | exact .look hphase
        | exact .read hphase
        | exact .drop hphase
        | exact .send hphase
  | conclude =>
    simp only [step] at hstep
    split at hstep
    · next hphase =>
      split at hstep <;> cases hstep
      · next hends => exact .ends hphase hends
      · exact .waits hphase
    · cases hstep
  | changed =>
    simp only [step] at hstep
    split at hstep
    · next hphase =>
      split at hstep <;> cases hstep
      next hchanged => exact .changed hphase hchanged
    · cases hstep
  | lose =>
    cases hstep
    exact .lose

/-! ### What messages account for -/

/-- Where in `output` a message goes to, from `pos`, if it is the output, the bytes before
`gone` being kept no longer. -/
def advance (output : Bytes) (gone pos : ℕ) : LogMsg → Option ℕ
  | .data chunk => if chunk <+: output.drop pos then some (pos + chunk.length) else none
  | .dropped bytes => if pos + bytes ≤ gone then some (pos + bytes) else none
  | .cut _ => some pos
  | .fin _ _ => some pos

/-- Where in `output` messages go to, from `pos`, if they are the output. -/
def covered (output : Bytes) (gone pos : ℕ) (msgs : List LogMsg) : Option ℕ :=
  msgs.foldlM (advance output gone) pos

/-- One covering after another. -/
theorem covered_append {output : Bytes} {gone pos pos' : ℕ} {msgs msgs' : List LogMsg}
    (h : covered output gone pos msgs = some pos') :
    covered output gone pos (msgs ++ msgs') = covered output gone pos' msgs' := by
  rw [covered, List.foldlM_append]
  exact congrArg (· >>= fun pos => msgs'.foldlM (advance output gone) pos) h

/-- What is the output so far is, however much more is written and less is kept. -/
theorem advance_grow {output bytes : Bytes} {gone gone' pos pos' : ℕ} {m : LogMsg}
    (hgone : gone ≤ gone') (h : advance output gone pos m = some pos') :
    advance (output ++ bytes) gone' pos m = some pos' := by
  cases m with
  | data chunk =>
    simp only [advance] at h ⊢
    split at h
    · next hpre =>
      have hgrow : output.drop pos <+: (output ++ bytes).drop pos := by
        rw [List.drop_append]
        exact List.prefix_append _ _
      rw [if_pos (hpre.trans hgrow)]
      exact h
    · cases h
  | dropped n =>
    simp only [advance] at h ⊢
    split at h
    · rw [if_pos (by omega)]
      exact h
    · cases h
  | cut => exact h
  | fin => exact h

/-- More output, and more dropped of it, leave what was covered. -/
theorem covered_grow {output bytes : Bytes} {gone gone' pos pos' : ℕ} {msgs : List LogMsg}
    (hgone : gone ≤ gone') (h : covered output gone pos msgs = some pos') :
    covered (output ++ bytes) gone' pos msgs = some pos' := by
  induction msgs generalizing pos with
  | nil => exact h
  | cons m msgs ih =>
    simp only [covered, List.foldlM_cons] at h ⊢
    obtain ⟨pos₁, hm, hrest⟩ := Option.bind_eq_some_iff.mp h
    exact Option.bind_eq_some_iff.mpr ⟨pos₁, advance_grow hgone hm, ih hrest⟩

/-! ### The invariant -/

/-- What a reader knows of the job, having looked: so much was written by then, and it
stands so still if it did not change; how it ended, and that it wrote no more since. -/
structure Status.Knows (now status : Status) (output : Bytes) : Prop where
  written : now.written ≤ output.length
  version : now.version ≤ status.version
  same : now.version = status.version → now = status
  ended : ∀ code, now.exit = some code → status.exit = some code ∧ now.written = output.length

def Phase.Holds (s : Logging) : Phase → Prop
  | .reading now => now.Knows s.status s.output
  | .dropping now skipped chunk => now.Knows s.status s.output ∧
      chunk <+: s.output.drop (s.reader.pos + skipped) ∧
      (skipped = 0 ∨ s.reader.pos + skipped ≤ s.log.dropped) ∧
      s.reader.pos + skipped ≤ s.output.length ∧ (chunk = [] → now.written ≤ s.reader.pos + skipped)
  | .sending now chunk => now.Knows s.status s.output ∧ chunk <+: s.output.drop s.reader.pos
  | .concluding now => now.Knows s.status s.output ∧ now.written ≤ s.reader.pos
  | .waiting version => version ≤ s.status.version ∧
      (version = s.status.version → s.status.written ≤ s.reader.pos)
  | _ => True

/-- The reader began where the last `lines` lines of the log did, as it was then. -/
def Logging.BeganAt (s : Logging) (lines : ℕ) : Prop :=
  ∃ (log : Log) (output : Bytes), log.Keeps output ∧ output <+: s.output ∧
    s.reader.start = (log.tail lines).1

/-- What holds of a job and a reader, whatever either did. -/
structure Logging.Sound (s : Logging) : Prop where
  log : s.log.Keeps s.output
  /-- What was said to be written is. -/
  told : s.status.written ≤ s.output.length
  written : s.telling = false → s.status.written = s.output.length
  ended : s.status.exit.isSome → s.telling = false
  covered : covered s.output s.log.dropped s.reader.start s.reader.sent = some s.reader.pos
  pos : s.reader.pos ≤ s.output.length
  holds : s.reader.phase.Holds s
  /-- The end is sent last, and says how the job ended once all it wrote is sent. -/
  fin : ∀ exit secs, .fin exit secs ∈ s.reader.sent → s.reader.phase = .done ∧
    (exit = none → s.reader.follow = false) ∧
    ∀ code, exit = some code → s.status.exit = some code ∧ s.reader.pos = s.output.length
  start : s.reader.tail = none → s.reader.start = 0
  opening : s.reader.phase = .opening → s.reader.sent = [] ∧ s.reader.pos = 0
  /-- It began where the lines it asked for did, or nothing was sent. -/
  began : ∀ lines, s.reader.tail = some lines →
    (s.reader.phase = .opening ∨ s.reader.phase = .done ∧ s.reader.sent = []) ∨ s.BeganAt lines

/-- What a reader holds is true of the output as it grows, while the job runs. -/
theorem Phase.Holds.grow {s : Logging} {phase : Phase} (h : phase.Holds s)
    (hlog : s.log.Keeps s.output) (hrun : s.status.exit = none) (bytes : Bytes) (telling : Bool) :
    phase.Holds { s with
      log := s.log.append bytes, telling := telling, output := s.output ++ bytes } := by
  have hlen : s.output.length ≤ (s.output ++ bytes).length := by simp
  have hknows : ∀ {now : Status}, now.Knows s.status s.output →
      now.Knows s.status (s.output ++ bytes) := by
    intro now hnow
    refine ⟨Nat.le_trans hnow.written hlen, hnow.version, hnow.same, fun code hcode => ?_⟩
    have hended := (hnow.ended code hcode).1
    rw [hrun] at hended
    cases hended
  have hgrow : ∀ n, s.output.drop n <+: (s.output ++ bytes).drop n := fun n => by
    rw [List.drop_append]
    exact List.prefix_append _ _
  cases phase with
  | reading now => exact hknows h
  | dropping now skipped chunk =>
    obtain ⟨hnow, hchunk, hgone, hskip, hnil⟩ := h
    refine ⟨hknows hnow, hchunk.trans (hgrow _), ?_, Nat.le_trans hskip hlen, hnil⟩
    exact hgone.imp_right fun hle => Nat.le_trans hle (hlog.dropped_le_append bytes)
  | sending now chunk => exact ⟨hknows h.1, h.2.trans (hgrow _)⟩
  | concluding now => exact ⟨hknows h.1, h.2⟩
  | waiting version => exact h
  | opening | cutting | looking | done => trivial

/-- What a reader holds is true however the job stands next, if it says so of how it
ended. -/
theorem Phase.Holds.stand {s : Logging} {phase : Phase} (h : phase.Holds s) {status : Status}
    (telling : Bool) (hversion : status.version = s.status.version + 1)
    (hexit : ∀ code, s.status.exit = some code → status.exit = some code) :
    phase.Holds { s with status := status, telling := telling } := by
  have hknows : ∀ {now : Status}, now.Knows s.status s.output → now.Knows status s.output := by
    intro now hnow
    have hlt := hnow.version
    refine ⟨hnow.written, by omega, fun heq => by omega, fun code hcode => ?_⟩
    exact ⟨hexit code (hnow.ended code hcode).1, (hnow.ended code hcode).2⟩
  cases phase with
  | reading now => exact hknows h
  | dropping now skipped chunk => exact ⟨hknows h.1, h.2⟩
  | sending now chunk => exact ⟨hknows h.1, h.2⟩
  | concluding now => exact ⟨hknows h.1, h.2⟩
  | waiting version =>
    have hlt := h.1
    refine ⟨?_, fun heq => ?_⟩
    · show version ≤ status.version
      omega
    · replace heq : version = status.version := heq
      omega
  | opening | cutting | looking | done => trivial

namespace Logging

variable {s s' : Logging}

/-- Nothing was sent. -/
theorem init_sound (budget : ℕ) (follow : Bool) (tail : Option ℕ) : (init budget follow tail).Sound where
  log := Log.new_keeps budget
  told := Nat.le_refl _
  written := fun _ => rfl
  ended := by simp [init]
  covered := rfl
  pos := Nat.le_refl _
  holds := trivial
  fin := by simp [init]
  start := fun _ => rfl
  opening := fun _ => ⟨rfl, rfl⟩
  began := fun _ _ => .inl (.inl rfl)

/-- A reader that is not done sent no end. -/
theorem Sound.not_fin (h : s.Sound) (hphase : s.reader.phase ≠ .done) {exit : Option ℕ} {secs : ℕ} :
    .fin exit secs ∉ s.reader.sent := fun hmem => hphase (h.fin exit secs hmem).1

/-- At the end of the output the exit is the program's. -/
theorem exitAt_of_le {now : Status} {pos : ℕ} (h : now.written ≤ pos) : exitAt now pos = now.exit := by
  unfold exitAt
  cases now.exit with
  | none => rfl
  | some code => exact Option.filter_some_pos (decide_eq_true h)

/-- What the reader holds where it is. -/
theorem Sound.holds_at (h : s.Sound) {phase : Phase} (hphase : s.reader.phase = phase) :
    phase.Holds s := hphase ▸ h.holds

/-- What the reader's next move leaves, if it goes on in the output from where it was. -/
theorem Sound.goes_on (h : s.Sound) (hphase : s.reader.phase ≠ .done)
    (hbegan : s.reader.phase = .opening → s.reader.tail = none) {r : Reader}
    (htail : r.tail = s.reader.tail) (hstart : r.start = s.reader.start)
    {msgs : List LogMsg} (hsent : r.sent = s.reader.sent ++ msgs)
    (hcovered : Jobs.covered s.output s.log.dropped s.reader.pos msgs = some r.pos)
    (hpos : r.pos ≤ s.output.length) (hfin : ∀ exit secs, .fin exit secs ∉ msgs)
    (hholds : r.phase.Holds { s with reader := r }) (hopening : r.phase ≠ .opening) :
    Sound { s with reader := r } where
  log := h.log
  told := h.told
  written := h.written
  ended := h.ended
  covered := by
    show Jobs.covered s.output s.log.dropped r.start r.sent = some r.pos
    rw [hstart, hsent, covered_append h.covered]
    exact hcovered
  pos := hpos
  holds := hholds
  fin := by
    intro exit secs hmem
    have hmem' : .fin exit secs ∈ s.reader.sent ++ msgs := hsent ▸ hmem
    rcases List.mem_append.mp hmem' with hold | hnew
    · exact absurd hold (h.not_fin hphase)
    · exact absurd hnew (hfin exit secs)
  start := fun hnone => hstart.trans (h.start (htail ▸ hnone))
  opening := fun heq => absurd heq hopening
  began := by
    intro lines hlines
    have hlines' : s.reader.tail = some lines := htail ▸ hlines
    rcases h.began lines hlines' with (hopen | ⟨hdone, -⟩) | ⟨log, output, hkeeps, hpre, heq⟩
    · rw [hbegan hopen] at hlines'
      cases hlines'
    · exact absurd hdone hphase
    · exact .inr ⟨log, output, hkeeps, hpre, hstart.trans heq⟩

/-- The reader goes on and sends nothing. -/
theorem Sound.turns (h : s.Sound) (hphase : s.reader.phase ≠ .done)
    (hbegan : s.reader.phase = .opening → s.reader.tail = none) {phase : Phase}
    (hholds : phase.Holds { s with reader := { s.reader with phase := phase } })
    (hopening : phase ≠ .opening) : Sound { s with reader := { s.reader with phase := phase } } :=
  h.goes_on hphase hbegan rfl rfl (List.append_nil _).symm rfl h.pos (by simp) hholds hopening

/-- Output more leaves what was sent sound. -/
theorem Sound.append (h : s.Sound) (hrun : s.status.exit = none) (bytes : Bytes) :
    Sound { s with log := s.log.append bytes, telling := true, output := s.output ++ bytes } where
  log := h.log.append bytes
  told := by
    simp only [List.length_append]
    exact Nat.le_add_right_of_le h.told
  written := by simp
  ended := by simp [hrun]
  covered := covered_grow (h.log.dropped_le_append bytes) h.covered
  pos := by
    simp only [List.length_append]
    exact Nat.le_add_right_of_le h.pos
  holds := h.holds.grow h.log hrun bytes true
  fin exit secs hmem := by
    obtain ⟨hdone, hnone, hsome⟩ := h.fin exit secs hmem
    refine ⟨hdone, hnone, fun code hcode => ?_⟩
    have hended := (hsome code hcode).1
    rw [hrun] at hended
    cases hended
  start := h.start
  opening := h.opening
  began lines hlines := by
    refine (h.began lines hlines).imp_right ?_
    rintro ⟨log, output, hkeeps, hpre, heq⟩
    exact ⟨log, output, hkeeps, hpre.trans (List.prefix_append _ _), heq⟩

/-- The job stands otherwise, and says of its end what it said. -/
theorem Sound.stands (h : s.Sound) {status : Status}
    (hversion : status.version = s.status.version + 1) (hwritten : status.written = s.output.length)
    (hexit : ∀ code, s.status.exit = some code → status.exit = some code) :
    Sound { s with status := status, telling := false } where
  log := h.log
  told := Nat.le_of_eq hwritten
  written _ := hwritten
  ended _ := rfl
  covered := h.covered
  pos := h.pos
  holds := h.holds.stand false hversion hexit
  fin exit secs hmem := by
    obtain ⟨hdone, hnone, hsome⟩ := h.fin exit secs hmem
    exact ⟨hdone, hnone, fun code hcode =>
      ⟨hexit code (hsome code hcode).1, (hsome code hcode).2⟩⟩
  start := h.start
  opening := h.opening
  began := h.began

/-- The reader begins where the lines that it asked for do. -/
theorem Sound.startTail (h : s.Sound) (hphase : s.reader.phase = .opening) {lines : ℕ}
    (htail : s.reader.tail = some lines) : Sound { s with reader := { s.reader with
      start := (s.log.tail lines).1
      pos := (s.log.tail lines).1
      phase := .cutting (s.log.tail lines).2 } } where
  log := h.log
  told := h.told
  written := h.written
  ended := h.ended
  covered := by
    show Jobs.covered s.output s.log.dropped (s.log.tail lines).1 s.reader.sent =
      some (s.log.tail lines).1
    rw [(h.opening hphase).1]
    rfl
  pos := (h.log.tail_le lines).2
  holds := trivial
  fin exit secs hmem := absurd hmem (h.not_fin (by simp [hphase]))
  start hnone := by
    rw [htail] at hnone
    cases hnone
  opening := by simp
  began lines' hlines' := by
    rw [htail] at hlines'
    cases hlines'
    exact .inr ⟨s.log, s.output, h.log, List.prefix_rfl, rfl⟩

/-- The reader is done, having sent `msgs` last. -/
theorem Sound.done (h : s.Sound) {msgs : List LogMsg}
    (hcovered : Jobs.covered s.output s.log.dropped s.reader.pos msgs = some s.reader.pos)
    (hfin : ∀ exit secs, .fin exit secs ∈ s.reader.sent ++ msgs →
      (exit = none → s.reader.follow = false) ∧
      ∀ code, exit = some code → s.status.exit = some code ∧ s.reader.pos = s.output.length)
    (hmsgs : s.reader.phase = .opening → msgs = [])
    (hdone : s.reader.phase = .done → msgs = []) :
    Sound { s with reader := { s.reader with sent := s.reader.sent ++ msgs, phase := .done } } where
  log := h.log
  told := h.told
  written := h.written
  ended := h.ended
  covered := (covered_append h.covered).trans hcovered
  pos := h.pos
  holds := trivial
  fin exit secs hmem := ⟨rfl, hfin exit secs hmem⟩
  start := h.start
  opening := by simp
  began lines hlines := by
    rcases h.began lines hlines with (hopen | ⟨hover, hsent⟩) | hbegan
    · refine .inl (.inr ⟨rfl, ?_⟩)
      rw [hmsgs hopen, (h.opening hopen).1]
      rfl
    · refine .inl (.inr ⟨rfl, ?_⟩)
      rw [hdone hover, hsent]
      rfl
    · exact .inr hbegan

/-- Whatever either does, what holds of them is kept. -/
theorem step_sound {m : LogMove} (h : s.Sound) (hstep : s.step m = some s') : s'.Sound := by
  cases steps_of_step hstep with
  | append _ hrun => exact h.append hrun _
  | tell =>
    exact h.stands rfl h.log.total fun _ => id
  | @finish code htelling hrun =>
    have hstands := @Sound.stands s h ⟨s.status.written, some code, s.status.version + 1⟩ rfl
      (h.written htelling) fun code' hcode => by rw [hrun] at hcode; cases hcode
    rwa [← htelling] at hstands
  | startTail hphase htail => exact h.startTail hphase htail
  | start hphase htail => exact h.turns (by simp [hphase]) (fun _ => htail) trivial (by simp)
  | @cut lines hphase =>
    by_cases hlines : 0 < lines
    · simp only [hlines, if_true]
      exact h.goes_on (by simp [hphase]) (by simp [hphase]) rfl rfl rfl rfl h.pos (by simp) trivial
        (by simp)
    · simp only [hlines, if_false]
      exact h.turns (by simp [hphase]) (by simp [hphase]) trivial (by simp)
  | look hphase =>
    refine h.turns (by simp [hphase]) (by simp [hphase]) ?_ (by simp)
    exact ⟨h.told, Nat.le_refl _, fun _ => rfl, fun code hcode =>
      ⟨hcode, h.written (h.ended (by simp [hcode]))⟩⟩
  | read hphase =>
    have hnow := h.holds_at hphase
    refine h.turns (by simp [hphase]) (by simp [hphase]) ⟨hnow, ?_, ?_, ?_, fun hnil => ?_⟩ (by simp)
    · show (s.log.read s.reader.pos maxLogChunk).2 <+: _
      rw [h.log.read_snd]
      exact List.take_prefix _ _
    · show (s.log.read s.reader.pos maxLogChunk).1 = 0 ∨ _ ≤ s.log.dropped
      simp only [Log.read]
      omega
    · exact h.log.read_fst_le h.pos
    · rw [h.log.read_nil h.pos (by decide) hnil]
      exact hnow.written
  | @drop now skipped chunk hphase =>
    obtain ⟨hnow, hchunk, hgone, hskip, hnil⟩ := h.holds_at hphase
    have hholds : (if chunk.isEmpty then Phase.concluding now else .sending now chunk).Holds
        { s with reader := { s.reader with
          pos := s.reader.pos + skipped
          sent := if 0 < skipped then s.reader.sent ++ [.dropped skipped] else s.reader.sent
          phase := if chunk.isEmpty then .concluding now else .sending now chunk } } := by
      cases chunk with
      | nil => exact ⟨hnow, hnil rfl⟩
      | cons b rest => exact ⟨hnow, hchunk⟩
    have hopening : (if chunk.isEmpty then Phase.concluding now else .sending now chunk) ≠
        .opening := by
      split <;> simp
    by_cases hskipped : 0 < skipped
    · have hcovered : Jobs.covered s.output s.log.dropped s.reader.pos [.dropped skipped] =
          some (s.reader.pos + skipped) := by
        have hle := hgone.resolve_left (by omega)
        simp [Jobs.covered, advance, hle]
      refine h.goes_on (by simp [hphase]) (by simp [hphase]) rfl rfl ?_ hcovered hskip (by simp) hholds
        hopening
      simp only [hskipped, if_true]
    · have hzero : skipped = 0 := by omega
      have hcovered : Jobs.covered s.output s.log.dropped s.reader.pos [] =
          some (s.reader.pos + skipped) := by
        simp [Jobs.covered, hzero]
      refine h.goes_on (by simp [hphase]) (by simp [hphase]) rfl rfl ?_ hcovered hskip (by simp) hholds
        hopening
      simp only [hskipped, if_false, List.append_nil]
  | @send now chunk hphase =>
    obtain ⟨hnow, hchunk⟩ := h.holds_at hphase
    have hlen := hchunk.length_le
    rw [List.length_drop] at hlen
    have hpos := h.pos
    have hcovered : Jobs.covered s.output s.log.dropped s.reader.pos [.data chunk] =
        some (s.reader.pos + chunk.length) := by
      simp [Jobs.covered, advance, hchunk]
    refine h.goes_on (by simp [hphase]) (by simp [hphase]) rfl rfl rfl hcovered ?_ (by simp) hnow
      (by simp)
    show s.reader.pos + chunk.length ≤ s.output.length
    omega
  | @ends now secs hphase hends =>
    obtain ⟨hnow, hwritten⟩ := h.holds_at hphase
    refine h.done rfl (fun exit secs' hmem => ?_) (by simp [hphase]) (by simp [hphase])
    rcases List.mem_append.mp hmem with hold | hnew
    · exact absurd hold (h.not_fin (by simp [hphase]))
    · simp only [List.mem_singleton, LogMsg.fin.injEq] at hnew
      obtain ⟨rfl, -⟩ := hnew
      rw [exitAt_of_le hwritten]
      refine ⟨fun hnone => hends.resolve_left (by simp [hnone]), fun code hcode => ?_⟩
      obtain ⟨hended, hall⟩ := hnow.ended code hcode
      exact ⟨hended, Nat.le_antisymm h.pos (hall ▸ hwritten)⟩
  | @waits now secs hphase =>
    obtain ⟨hnow, hwritten⟩ := h.holds_at hphase
    refine h.turns (by simp [hphase]) (by simp [hphase]) ⟨hnow.version, fun hsame => ?_⟩ (by simp)
    exact hnow.same hsame ▸ hwritten
  | changed hphase => exact h.turns (by simp [hphase]) (by simp [hphase]) trivial (by simp)
  | lose =>
    have hcovered : Jobs.covered s.output s.log.dropped s.reader.pos [] = some s.reader.pos := rfl
    have hdone := h.done hcovered (fun exit secs hmem => ?_) (fun _ => rfl) fun _ => rfl
    · simpa using hdone
    · rw [List.append_nil] at hmem
      exact (h.fin exit secs hmem).2

/-- The reader, to which the job stood as `now`, read the log when `pos` bytes were
written. -/
def Looked (s₀ s : Logging) (now : Status) (pos : ℕ) : Prop :=
  ∃ s₁, Reachable step s₀ s₁ ∧ Reachable step s₁ s ∧ s₁.reader.phase = .reading now ∧
    s₁.output.length = pos

/-- What a look saw stays true of the log as it was. -/
theorem Looked.later {s₀ : Logging} {now : Status} {pos : ℕ} {m : LogMove}
    (h : Looked s₀ s now pos) (hstep : s.step m = some s') : Looked s₀ s' now pos := by
  obtain ⟨s₁, hreach, hlater, hphase, hpos⟩ := h
  exact ⟨s₁, hreach, hlater.snoc trivial hstep, hphase, hpos⟩

/-- A reader that read no more, and one that sent the end, has sent all there was when it
looked last. -/
structure Looks (s₀ s : Logging) : Prop where
  dropping : ∀ now skipped, s.reader.phase = .dropping now skipped [] →
    Looked s₀ s now (s.reader.pos + skipped)
  concluding : ∀ now, s.reader.phase = .concluding now → Looked s₀ s now s.reader.pos
  fin : ∀ exit secs, .fin exit secs ∈ s.reader.sent →
    ∃ now, exit = now.exit ∧ Looked s₀ s now s.reader.pos

/-- The reader goes on, having sent no end, to where it neither read no more nor sends one. -/
theorem Looks.turns {s₀ : Logging} (hnot : ∀ exit secs, .fin exit secs ∉ s'.reader.sent)
    (hdropping : ∀ now skipped, s'.reader.phase ≠ .dropping now skipped [])
    (hconcluding : ∀ now, s'.reader.phase ≠ .concluding now) : Looks s₀ s' where
  dropping now skipped hphase := absurd hphase (hdropping now skipped)
  concluding now hphase := absurd hphase (hconcluding now)
  fin exit secs hmem := absurd hmem (hnot exit secs)

/-- Whether a move is the reader's as it reads the log and sends what it read. -/
def reads : LogMove → Bool
  | .read | .drop | .send => true
  | _ => false

end Logging

end Koh.Jobs
