import Koh.Lib.Log
import Koh.Lib.Reach
import Koh.Server.Typing
import Koh.Wire.Frame

/-!
# The client's input queue

`Wire::send` and `write_stream` from `client/mod.rs`: input waits in a queue for its stream's
writer, and what would make too much wait is dropped, and what follows it, until nothing waits.

## Main definitions

- `encodeClient`: a message with its length before it
- `Wire`, `Wire.step`: the two tasks, one access of what they share at a time
- `Wire.Steps`: what an access does, and when it is made
- `Settled`, `Clean`: nothing is accepted after a refusal until what was accepted is written

## Main results

- `queue_kept`: the count, the order and the clean points, in every run

## Design notes

`send` is `send`, `add`, `attempt` and `undo`; the writer is `opens`, `recv`, `write` and `settle`,
or `fail`, where a call of its stream fails. Messages of the control stream go to a queue of their
own, which is no part of this. `log`, and the count that was loaded (`seen`), are no part of the
code: what became of messages, the oldest first.
-/

namespace Koh.Input

open Koh.Lib
open Koh.Server (ClientMsg)

variable {K C : Type}

/-! ### Messages -/

def maxClientMessage : ℕ := 1024 * 1024 + 64 * 1024

def onInput : ClientMsg K C → Bool
  | .resize _ _ => true
  | .keys _ _ => true
  | .colours _ => true
  | .read _ _ => false
  | .redraw => false

/-- How messages are encoded: a message's body, and which events are within the wire's bounds. -/
structure Code (K C : Type) where
  body : ClientMsg K C → List UInt8
  check : List K → Bool

def Code.checks (code : Code K C) : ClientMsg K C → Bool
  | .keys _ events => code.check events
  | _ => true

abbrev Frame := { bytes : List UInt8 // 0 < bytes.length }

def Frame.len (frame : Frame) : ℕ := frame.1.length

def encodeClient (code : Code K C) (msg : ClientMsg K C) : Option Frame :=
  if code.checks msg = false then none
  else
    match h : Wire.encode (code.body msg) maxClientMessage with
    | .error _ => none
    | .ok bytes => some ⟨bytes, by
        rw [Wire.encode] at h
        split at h
        · cases h
        · cases h
          simp⟩

def total (frames : List Frame) : ℕ := (frames.map Frame.len).sum

@[simp] theorem total_nil : total [] = 0 := rfl

@[simp] theorem total_cons (frame : Frame) (frames : List Frame) :
    total (frame :: frames) = frame.len + total frames := by
  simp [total]

@[simp] theorem total_append (frames frames' : List Frame) :
    total (frames ++ frames') = total frames + total frames' := by
  simp [total]

theorem Frame.len_pos (frame : Frame) : 0 < frame.len := frame.2

/-- No frame has no bytes. -/
theorem eq_nil_of_total {frames : List Frame} (h : total frames = 0) : frames = [] := by
  cases frames with
  | nil => rfl
  | cons frame frames =>
    have hpos := frame.len_pos
    rw [total_cons] at h
    omega

/-! ### The queue and its two tasks -/

def maxQueuedInput : ℕ := 1024 * 1024

def queuedMessages : ℕ := 4096

/-- What became of a message. -/
inductive Happening where
  /-- It was accepted, with so many bytes counted before it. -/
  | accepted (seen : ℕ) (frame : Frame)
  | refused (frame : Frame)
  | written (frame : Frame)
  deriving DecidableEq

inductive Sending where
  | idle
  /-- It loaded the count, and there is room. -/
  | adding (seen : ℕ) (frame : Frame)
  /-- The message is counted. -/
  | trying (seen : ℕ) (frame : Frame)
  /-- The channel did not take it. -/
  | undoing (frame : Frame)
  deriving DecidableEq

inductive Writer where
  | opening
  | waiting
  | writing (frame : Frame)
  /-- The message is written, and still counted. -/
  | wrote (frame : Frame)
  /-- A call of its stream failed. -/
  | gone
  deriving DecidableEq

structure Wire where
  /-- The bytes of input sent and not yet written to the stream. -/
  queued : ℕ
  /-- Input was dropped since the queue was last empty. -/
  paused : Bool
  /-- The channel. -/
  queue : List Frame
  sending : Sending
  writer : Writer
  log : List Happening
  deriving DecidableEq

inductive Move (K C : Type) where
  | send (msg : ClientMsg K C)
  | add
  | attempt
  | undo
  | opens
  | recv
  | write
  | settle
  | fail

namespace Wire

def opened : Wire := ⟨0, false, [], .idle, .opening, []⟩

def isPaused (w : Wire) : Bool := w.paused && decide (0 < w.queued)

/-- `send` of input, up to its check. -/
def offer (w : Wire) (frame : Frame) : Wire :=
  let paused := w.paused && decide (0 < w.queued)
  if paused = true ∨ (0 < w.queued ∧ maxQueuedInput < w.queued + frame.len) then
    { w with paused := true, log := w.log ++ [.refused frame] }
  else { w with paused := paused, sending := .adding w.queued frame }

def step (code : Code K C) (w : Wire) : Move K C → Option Wire
  | .send msg =>
    match w.sending with
    | .idle =>
      if onInput msg = false then some w
      else
        match encodeClient code msg with
        -- A message that cannot be encoded is dropped, with a warning.
        | none => some w
        | some frame => some (w.offer frame)
    | _ => none
  | .add =>
    match w.sending with
    | .adding seen frame =>
      some { w with queued := w.queued + frame.len, sending := .trying seen frame }
    | _ => none
  | .attempt =>
    match w.sending with
    | .trying seen frame =>
      if w.writer = .gone ∨ queuedMessages ≤ w.queue.length then
        some { w with sending := .undoing frame }
      else
        some { w with
          queue := w.queue ++ [frame]
          sending := .idle
          log := w.log ++ [.accepted seen frame] }
    | _ => none
  | .undo =>
    match w.sending with
    | .undoing frame =>
      some { w with
        queued := w.queued - frame.len
        paused := true
        sending := .idle
        log := w.log ++ [.refused frame] }
    | _ => none
  | .opens => if w.writer = .opening then some { w with writer := .waiting } else none
  | .recv =>
    match w.writer, w.queue with
    | .waiting, frame :: queue => some { w with queue := queue, writer := .writing frame }
    | _, _ => none
  | .write =>
    match w.writer with
    | .writing frame => some { w with writer := .wrote frame, log := w.log ++ [.written frame] }
    | _ => none
  | .settle =>
    match w.writer with
    | .wrote frame => some { w with queued := w.queued - frame.len, writer := .waiting }
    | _ => none
  | .fail =>
    -- The channel goes with the writer, and all that is in it.
    match w.writer with
    | .opening => some { w with queue := [], writer := .gone }
    | .writing _ => some { w with queue := [], writer := .gone }
    | _ => none

inductive Steps (code : Code K C) (w : Wire) : Move K C → Wire → Prop where
  | other {msg : ClientMsg K C} (hidle : w.sending = .idle)
      (hnone : onInput msg = false ∨ encodeClient code msg = none) : Steps code w (.send msg) w
  | refuse {msg : ClientMsg K C} {frame : Frame} (hidle : w.sending = .idle)
      (hinput : onInput msg = true) (hframe : encodeClient code msg = some frame)
      (hfull : w.isPaused = true ∨ 0 < w.queued ∧ maxQueuedInput < w.queued + frame.len) :
      Steps code w (.send msg) { w with paused := true, log := w.log ++ [.refused frame] }
  | send {msg : ClientMsg K C} {frame : Frame} (hidle : w.sending = .idle)
      (hinput : onInput msg = true) (hframe : encodeClient code msg = some frame)
      (hgoes : w.isPaused = false) (hroom : 0 < w.queued → w.queued + frame.len ≤ maxQueuedInput) :
      Steps code w (.send msg)
        { w with paused := w.isPaused, sending := .adding w.queued frame }
  | add {seen : ℕ} {frame : Frame} (hsending : w.sending = .adding seen frame) :
      Steps code w .add { w with queued := w.queued + frame.len, sending := .trying seen frame }
  | miss {seen : ℕ} {frame : Frame} (hsending : w.sending = .trying seen frame)
      (hmiss : w.writer = .gone ∨ queuedMessages ≤ w.queue.length) :
      Steps code w .attempt { w with sending := .undoing frame }
  | attempt {seen : ℕ} {frame : Frame} (hsending : w.sending = .trying seen frame)
      (hlive : w.writer ≠ .gone) (hroom : w.queue.length < queuedMessages) :
      Steps code w .attempt { w with
        queue := w.queue ++ [frame]
        sending := .idle
        log := w.log ++ [.accepted seen frame] }
  | undo {frame : Frame} (hsending : w.sending = .undoing frame) : Steps code w .undo { w with
      queued := w.queued - frame.len
      paused := true
      sending := .idle
      log := w.log ++ [.refused frame] }
  | opens (hwriter : w.writer = .opening) : Steps code w .opens { w with writer := .waiting }
  | recv {frame : Frame} {queue : List Frame} (hwriter : w.writer = .waiting)
      (hqueue : w.queue = frame :: queue) :
      Steps code w .recv { w with queue := queue, writer := .writing frame }
  | write {frame : Frame} (hwriter : w.writer = .writing frame) :
      Steps code w .write { w with writer := .wrote frame, log := w.log ++ [.written frame] }
  | settle {frame : Frame} (hwriter : w.writer = .wrote frame) :
      Steps code w .settle { w with queued := w.queued - frame.len, writer := .waiting }
  | fail (hwriter : w.writer = .opening ∨ ∃ frame, w.writer = .writing frame) :
      Steps code w .fail { w with queue := [], writer := .gone }

/-- The inversion of `step`. -/
theorem steps_of_step {code : Code K C} {w w' : Wire} {m : Move K C}
    (hstep : w.step code m = some w') : w.Steps code m w' := by
  cases m with
  | send msg =>
    simp only [step] at hstep
    split at hstep
    · next hidle =>
      split at hstep
      · next hother => cases hstep; exact .other hidle (.inl hother)
      · next hinput =>
        rw [Bool.not_eq_false] at hinput
        split at hstep
        · next hnone => cases hstep; exact .other hidle (.inr hnone)
        · next frame hframe =>
          simp only [offer] at hstep
          split at hstep
          · next hfull => cases hstep; exact .refuse hidle hinput hframe hfull
          · next hroom =>
            cases hstep
            obtain ⟨hgoes, hroom⟩ := not_or.mp hroom
            exact .send hidle hinput hframe ((Bool.not_eq_true _).mp hgoes)
              fun hpos => Nat.le_of_not_lt fun hlt => hroom ⟨hpos, hlt⟩
    · cases hstep
  | add =>
    simp only [step] at hstep
    split at hstep
    · next hsending => cases hstep; exact .add hsending
    · cases hstep
  | attempt =>
    simp only [step] at hstep
    split at hstep
    · next hsending =>
      split at hstep
      · next hmiss => cases hstep; exact .miss hsending hmiss
      · next htaken =>
        cases hstep
        obtain ⟨hlive, hroom⟩ := not_or.mp htaken
        exact .attempt hsending hlive (Nat.lt_of_not_le hroom)
    · cases hstep
  | undo =>
    simp only [step] at hstep
    split at hstep
    · next hsending => cases hstep; exact .undo hsending
    · cases hstep
  | opens =>
    simp only [step] at hstep
    split at hstep
    · next hwriter => cases hstep; exact .opens hwriter
    · cases hstep
  | recv =>
    simp only [step] at hstep
    split at hstep
    · next hwriter hqueue => cases hstep; exact .recv hwriter hqueue
    · cases hstep
  | write =>
    simp only [step] at hstep
    split at hstep
    · next hwriter => cases hstep; exact .write hwriter
    · cases hstep
  | settle =>
    simp only [step] at hstep
    split at hstep
    · next hwriter => cases hstep; exact .settle hwriter
    · cases hstep
  | fail =>
    simp only [step] at hstep
    split at hstep
    · next hwriter => cases hstep; exact .fail (.inl hwriter)
    · next frame hwriter => cases hstep; exact .fail (.inr ⟨frame, hwriter⟩)
    · cases hstep

end Wire

/-! ### What is asked of it -/

def accepted (log : List Happening) : List Frame :=
  log.filterMap fun
    | .accepted _ frame => some frame
    | _ => none

def written (log : List Happening) : List Frame :=
  log.filterMap fun
    | .written frame => some frame
    | _ => none

/-- All that was accepted before a refusal is written. -/
def Settled (log : List Happening) : Prop :=
  ∀ before frame after, log = before ++ .refused frame :: after →
    accepted before <+: written log

/-- What is accepted after a refusal is accepted once all that was accepted before that is
written. -/
def Clean (log : List Happening) : Prop :=
  ∀ before seen frame after, log = before ++ .accepted seen frame :: after → Settled before

/-- The message in `send`'s hand that is counted. -/
def Sending.frames : Sending → List Frame
  | .idle => []
  | .adding _ _ => []
  | .trying _ frame => [frame]
  | .undoing frame => [frame]

/-- The message in `send`'s hand that passed the check, and the count that was loaded. -/
def Sending.passed : Sending → Option (ℕ × Frame)
  | .idle => none
  | .adding seen frame => some (seen, frame)
  | .trying seen frame => some (seen, frame)
  | .undoing _ => none

/-- What the writer has in hand that is not written. -/
def Writer.unwritten : Writer → List Frame
  | .writing frame => [frame]
  | _ => []

/-- What the writer has written and not settled. -/
def Writer.settling : Writer → List Frame
  | .wrote frame => [frame]
  | _ => []

variable {code : Code K C} {w w' : Wire} {log : List Happening} {x : Happening} {frame : Frame}
  {seen : ℕ} {waiting : List Frame}

/-! ### The log, one happening more -/

@[simp] theorem accepted_append (log log' : List Happening) :
    accepted (log ++ log') = accepted log ++ accepted log' := List.filterMap_append

@[simp] theorem written_append (log log' : List Happening) :
    written (log ++ log') = written log ++ written log' := List.filterMap_append

/-- A happening that is no refusal leaves a log settled. -/
theorem Settled.snoc (h : Settled log) (hx : ∀ frame, x ≠ .refused frame) :
    Settled (log ++ [x]) := by
  intro before frame after heq
  rcases snoc_cases heq with ⟨-, hlast, -⟩ | ⟨after', hlog, -⟩
  · exact absurd hlast (hx frame)
  · rw [written_append]
    exact (h before frame after' hlog).trans (List.prefix_append _ _)

/-- Where all that was accepted is written, a log is settled. -/
theorem settled_of_written (h : accepted log = written log) : Settled log := by
  rintro before frame after rfl
  rw [← h, accepted_append]
  exact List.prefix_append _ _

/-- A log stays clean with what is accepted only once it is settled. -/
theorem Clean.snoc (h : Clean log) (hx : ∀ seen frame, x = .accepted seen frame → Settled log) :
    Clean (log ++ [x]) := by
  intro before seen frame after heq
  rcases snoc_cases heq with ⟨rfl, hlast, -⟩ | ⟨after', hlog, -⟩
  · exact hx seen frame hlast
  · exact h before seen frame after' hlog

/-! ### What every access keeps -/

/-- What is counted: written and not settled, accepted and waiting, and in `send`'s hand. -/
def Wire.counted (w : Wire) (waiting : List Frame) : List Frame :=
  w.writer.settling ++ waiting ++ w.sending.frames

/-- The count is what waits, in order, and nothing is accepted that should not be. -/
structure Kept (w : Wire) (waiting : List Frame) : Prop where
  accepted : accepted w.log = written w.log ++ waiting
  queued : w.queued = total (w.counted waiting)
  live : w.writer ≠ .gone → waiting = w.writer.unwritten ++ w.queue
  gone : w.writer = .gone → w.queue = []
  /-- More than most is one message. -/
  single : maxQueuedInput < w.queued → ∃ frame, w.counted waiting = [frame]
  adding : ∀ seen frame, w.sending = .adding seen frame → w.queued ≤ seen
  /-- What passed the check: the queue was empty, or there is room. -/
  checked : ∀ seen frame, w.sending.passed = some (seen, frame) →
    w.paused = false ∧ (seen = 0 ∨ seen + frame.len ≤ maxQueuedInput)
  room : ∀ seen frame, .accepted seen frame ∈ w.log → seen = 0 ∨ seen + frame.len ≤ maxQueuedInput
  settled : w.paused = false → Settled w.log
  clean : Clean w.log

namespace Kept

/-- Where nothing is counted, all that was accepted is written. -/
theorem settled_of_zero (h : Kept w waiting) (hzero : w.queued = 0) : Settled w.log := by
  have hcounted := eq_nil_of_total (h.queued.symm.trans hzero)
  have hwaiting : waiting = [] := by
    have hboth := (List.append_eq_nil_iff.mp hcounted).1
    exact (List.append_eq_nil_iff.mp hboth).2
  refine settled_of_written ?_
  rw [h.accepted, hwaiting, List.append_nil]

/-- Nothing waits at first. -/
theorem opened : Kept .opened [] where
  accepted := rfl
  queued := rfl
  live _ := rfl
  gone h := by cases h
  single h := absurd h (by decide)
  adding _ _ h := by cases h
  checked _ _ h := by cases h
  room _ _ h := by cases h
  settled _ := settled_of_written rfl
  clean before seen frame after h := by simp [Wire.opened] at h

/-- A message is refused at once. -/
theorem refuse (h : Kept w waiting) (hsending : w.sending = .idle) (frame : Frame) :
    Kept { w with paused := true, log := w.log ++ [.refused frame] } waiting := by
  exact { h with
    accepted := by simpa [Koh.Input.accepted, written] using h.accepted
    adding := h.adding
    checked := by
      intro seen frame hchecked
      rw [hsending] at hchecked
      cases hchecked
    room := by simpa using h.room
    settled := fun hpaused => by cases hpaused
    clean := h.clean.snoc (by simp) }

/-- A message passes the check. -/
theorem pass (h : Kept w waiting) (frame : Frame)
    (hpaused : (w.paused && decide (0 < w.queued)) = false)
    (hroom : 0 < w.queued → w.queued + frame.len ≤ maxQueuedInput) (hsending : w.sending = .idle) :
    Kept { w with
      paused := w.paused && decide (0 < w.queued), sending := .adding w.queued frame } waiting := by
  exact { h with
    queued := by simpa [Wire.counted, hsending, Sending.frames] using h.queued
    single := by simpa [Wire.counted, hsending, Sending.frames] using h.single
    adding := by
      rintro _ _ ⟨⟩
      exact Nat.le_refl _
    checked := by
      rintro _ _ ⟨⟩
      refine ⟨hpaused, ?_⟩
      by_cases hzero : w.queued = 0
      · exact .inl hzero
      · exact .inr (hroom (Nat.pos_of_ne_zero hzero))
    settled := by
      intro _
      by_cases hzero : w.queued = 0
      · exact h.settled_of_zero hzero
      · have hnot : w.paused = false := by simpa [Nat.pos_of_ne_zero hzero] using hpaused
        exact h.settled hnot }

/-- The message is counted. -/
theorem add (h : Kept w waiting) (hsending : w.sending = .adding seen frame) :
    Kept { w with queued := w.queued + frame.len, sending := .trying seen frame } waiting := by
  have hseen := h.adding seen frame hsending
  obtain ⟨hpaused, hroom⟩ := h.checked seen frame (by rw [hsending]; rfl)
  have hcounted : w.counted waiting = w.writer.settling ++ waiting := by
    simp [Wire.counted, hsending, Sending.frames]
  exact { h with
    queued := by
      have hqueued := h.queued
      rw [hcounted] at hqueued
      simp [Wire.counted, Sending.frames, hqueued, Nat.add_assoc]
    single := by
      intro hmost
      refine ⟨frame, ?_⟩
      rcases hroom with rfl | hroom
      · have hnone := eq_nil_of_total (h.queued.symm.trans (Nat.le_zero.mp hseen))
        rw [hcounted] at hnone
        simp [Wire.counted, Sending.frames, hnone]
      · simp only at hmost
        omega
    adding := by rintro _ _ ⟨⟩
    checked := by
      rintro _ _ ⟨⟩
      exact ⟨hpaused, hroom⟩ }

/-- The channel takes the message. -/
theorem accept (h : Kept w waiting) (hsending : w.sending = .trying seen frame)
    (hlive : w.writer ≠ .gone) :
    Kept { w with
      queue := w.queue ++ [frame], sending := .idle, log := w.log ++ [.accepted seen frame] }
      (waiting ++ [frame]) := by
  obtain ⟨hpaused, hroom⟩ := h.checked seen frame (by rw [hsending]; rfl)
  have hsame : w.writer.settling ++ (waiting ++ [frame]) ++ [] = w.counted waiting := by
    simp [Wire.counted, hsending, Sending.frames]
  exact {
    accepted := by
      rw [accepted_append, written_append, h.accepted]
      simp [Koh.Input.accepted, written]
    queued := h.queued.trans (congrArg total hsame.symm)
    live := fun _ => by
      rw [h.live hlive]
      simp
    gone := fun hgone => absurd hgone hlive
    single := fun hmost => by
      obtain ⟨one, hone⟩ := h.single hmost
      exact ⟨one, hsame.trans hone⟩
    adding := by rintro _ _ ⟨⟩
    checked := by rintro _ _ ⟨⟩
    room := by
      intro seen' frame' hmem
      rcases List.mem_append.mp hmem with hmem | hmem
      · exact h.room seen' frame' hmem
      · cases List.mem_singleton.mp hmem
        exact hroom
    settled := fun _ => (h.settled hpaused).snoc (by simp)
    clean := h.clean.snoc fun _ _ _ => h.settled hpaused }

/-- The channel does not take it. -/
theorem miss (h : Kept w waiting) (hsending : w.sending = .trying seen frame) :
    Kept { w with sending := .undoing frame } waiting := by
  exact { h with
    queued := by simpa [Wire.counted, hsending, Sending.frames] using h.queued
    single := by simpa [Wire.counted, hsending, Sending.frames] using h.single
    adding := by rintro _ _ ⟨⟩
    checked := by rintro _ _ ⟨⟩ }

/-- What is counted less. -/
theorem sub {frames more : List Frame} (h : w.queued = total frames)
    (hsingle : maxQueuedInput < w.queued → ∃ frame, frames = [frame])
    (hframes : frames = more ++ [frame] ∨ frames = frame :: more) :
    w.queued - frame.len = total more ∧
      (maxQueuedInput < w.queued - frame.len → ∃ frame, more = [frame]) := by
  have hcount : w.queued - frame.len = total more := by
    rw [h]
    rcases hframes with rfl | rfl <;> simp
  refine ⟨hcount, fun hmost => ?_⟩
  obtain ⟨one, hone⟩ := hsingle (by omega)
  have hlength : more.length + 1 = 1 := by
    rcases hframes with rfl | rfl <;> simpa using congrArg List.length hone
  have hnil : more = [] := List.length_eq_zero_iff.mp (by omega)
  rw [hcount, hnil] at hmost
  exact absurd hmost (by decide)

/-- What the channel did not take is counted no more. -/
theorem undo (h : Kept w waiting) (hsending : w.sending = .undoing frame) :
    Kept { w with
      queued := w.queued - frame.len, paused := true, sending := .idle
      log := w.log ++ [.refused frame] } waiting := by
  have hcounted : w.counted waiting = (w.writer.settling ++ waiting) ++ [frame] := by
    simp [Wire.counted, hsending, Sending.frames]
  obtain ⟨hqueued, hsingle⟩ := sub h.queued h.single (.inl hcounted)
  exact {
    accepted := by simpa [Koh.Input.accepted, written] using h.accepted
    queued := by simpa [Wire.counted, Sending.frames] using hqueued
    live := h.live
    gone := h.gone
    single := by simpa [Wire.counted, Sending.frames] using hsingle
    adding := by rintro _ _ ⟨⟩
    checked := by rintro _ _ ⟨⟩
    room := by simpa using h.room
    settled := fun hpaused => by cases hpaused
    clean := h.clean.snoc (by simp) }

/-- The stream is opened. -/
theorem opens (h : Kept w waiting) (hwriter : w.writer = .opening) :
    Kept { w with writer := .waiting } waiting := by
  have hlive := h.live (by simp [hwriter])
  exact { h with
    queued := by simpa [Wire.counted, hwriter, Writer.settling] using h.queued
    live := fun _ => by simpa [hwriter, Writer.unwritten] using hlive
    gone := fun hgone => by cases hgone
    single := by simpa [Wire.counted, hwriter, Writer.settling] using h.single }

/-- The writer takes a message. -/
theorem recv (h : Kept w waiting) (hwriter : w.writer = .waiting) {queue : List Frame}
    (hqueue : w.queue = frame :: queue) :
    Kept { w with queue := queue, writer := .writing frame } waiting := by
  have hlive := h.live (by simp [hwriter])
  exact { h with
    queued := by simpa [Wire.counted, hwriter, Writer.settling] using h.queued
    live := fun _ => by simpa [hwriter, hqueue, Writer.unwritten] using hlive
    gone := fun hgone => by cases hgone
    single := by simpa [Wire.counted, hwriter, Writer.settling] using h.single }

/-- The message is written. -/
theorem write (h : Kept w waiting) (hwriter : w.writer = .writing frame) :
    Kept { w with writer := .wrote frame, log := w.log ++ [.written frame] } w.queue := by
  have hlive : waiting = frame :: w.queue := by
    have hlive := h.live (by simp [hwriter])
    rwa [hwriter] at hlive
  have hsame : [frame] ++ w.queue ++ w.sending.frames = w.counted waiting := by
    simp [Wire.counted, hwriter, Writer.settling, hlive]
  exact {
    accepted := by
      rw [accepted_append, written_append, h.accepted, hlive]
      simp [Koh.Input.accepted, written]
    queued := h.queued.trans (congrArg total hsame.symm)
    live := fun _ => rfl
    gone := fun hgone => by cases hgone
    single := fun hmost => by
      obtain ⟨one, hone⟩ := h.single hmost
      exact ⟨one, hsame.trans hone⟩
    adding := h.adding
    checked := h.checked
    room := by simpa using h.room
    settled := fun hpaused => (h.settled hpaused).snoc (by simp)
    clean := h.clean.snoc (by simp) }

/-- What is written is counted no more. -/
theorem settle (h : Kept w waiting) (hwriter : w.writer = .wrote frame) :
    Kept { w with queued := w.queued - frame.len, writer := .waiting } waiting := by
  have hlive := h.live (by simp [hwriter])
  have hcounted : w.counted waiting = frame :: (waiting ++ w.sending.frames) := by
    simp [Wire.counted, hwriter, Writer.settling]
  obtain ⟨hqueued, hsingle⟩ := sub h.queued h.single (.inr hcounted)
  exact { h with
    queued := by simpa [Wire.counted, Writer.settling] using hqueued
    live := fun _ => by simpa [hwriter, Writer.unwritten] using hlive
    gone := fun hgone => by cases hgone
    single := by simpa [Wire.counted, Writer.settling] using hsingle
    adding := fun seen frame' hadding => (Nat.sub_le _ _).trans (h.adding seen frame' hadding) }

/-- A call of the stream fails, with nothing written that is not settled. -/
theorem fail (h : Kept w waiting) (hwriter : w.writer.settling = []) :
    Kept { w with queue := [], writer := .gone } waiting := by
  have hsame : [] ++ waiting ++ w.sending.frames = w.counted waiting := by
    rw [Wire.counted, hwriter]
  exact { h with
    queued := h.queued.trans (congrArg total hsame.symm)
    live := fun hlive => absurd rfl hlive
    gone := fun _ => rfl
    single := fun hmost => by
      obtain ⟨one, hone⟩ := h.single hmost
      exact ⟨one, hsame.trans hone⟩ }

/-- Every access of what the tasks share. -/
theorem step (h : Kept w waiting) {m : Move K C} (hstep : w.step code m = some w') :
    ∃ waiting', Kept w' waiting' := by
  cases Wire.steps_of_step hstep with
  | other => exact ⟨waiting, h⟩
  | refuse hidle => exact ⟨waiting, h.refuse hidle _⟩
  | send hidle _ _ hgoes hroom => exact ⟨waiting, h.pass _ hgoes hroom hidle⟩
  | add hsending => exact ⟨waiting, h.add hsending⟩
  | miss hsending => exact ⟨waiting, h.miss hsending⟩
  | attempt hsending hlive => exact ⟨_, h.accept hsending hlive⟩
  | undo hsending => exact ⟨waiting, h.undo hsending⟩
  | opens hwriter => exact ⟨waiting, h.opens hwriter⟩
  | recv hwriter hqueue => exact ⟨waiting, h.recv hwriter hqueue⟩
  | write hwriter => exact ⟨w.queue, h.write hwriter⟩
  | settle hwriter => exact ⟨waiting, h.settle hwriter⟩
  | fail hwriter =>
    refine ⟨waiting, h.fail ?_⟩
    rcases hwriter with hwriter | ⟨frame, hwriter⟩ <;> rw [hwriter] <;> rfl

/-- Every run. -/
theorem reached (h : Reachable (Wire.step code) .opened w) : ∃ waiting, Kept w waiting :=
  h.invariant (fun w => ∃ waiting, Kept w waiting) ⟨[], opened⟩
    fun _ _ _ ⟨_, hkept⟩ _ hstep => hkept.step hstep

end Kept

/-- Once the stream failed, nothing is accepted. -/
theorem gone_step (hgone : w.writer = .gone) {m : Move K C} (hstep : w.step code m = some w') :
    w'.writer = .gone ∧ accepted w'.log = accepted w.log := by
  have hrefused : ∀ frame, accepted (w.log ++ [.refused frame]) = accepted w.log := by
    intro frame
    simp [accepted]
  cases Wire.steps_of_step hstep with
  | other => exact ⟨hgone, rfl⟩
  | refuse => exact ⟨hgone, hrefused _⟩
  | send => exact ⟨hgone, rfl⟩
  | add => exact ⟨hgone, rfl⟩
  | miss => exact ⟨hgone, rfl⟩
  | attempt _ hlive => exact absurd hgone hlive
  | undo => exact ⟨hgone, hrefused _⟩
  | opens hwriter => simp [hgone] at hwriter
  | recv hwriter => simp [hgone] at hwriter
  | write hwriter => simp [hgone] at hwriter
  | settle hwriter => simp [hgone] at hwriter
  | fail => exact ⟨rfl, rfl⟩

/-- In every run: what was accepted is what was written and then what waits, in the order of the
messages; as long as the stream takes writes, that is what the queue and the writer hold, and the
count is its bytes, what is written and not settled and what `send` has counted included; the count
is past the most only of a single message, which is accepted only if nothing was counted; a message
is accepted after a refusal only once all that was accepted before that is written; and input is
said to be dropped until then. Once the stream failed, nothing is accepted. -/
theorem queue_kept (h : Reachable (Wire.step code) .opened w) :
    (∃ waiting, accepted w.log = written w.log ++ waiting ∧
      w.queued = total (w.counted waiting) ∧
      (w.writer ≠ .gone → waiting = w.writer.unwritten ++ w.queue) ∧
      (maxQueuedInput < w.queued → ∃ frame, w.counted waiting = [frame])) ∧
    (∀ seen frame, .accepted seen frame ∈ w.log →
      seen = 0 ∨ seen + frame.len ≤ maxQueuedInput) ∧
    Clean w.log ∧ (w.isPaused = false → Settled w.log) ∧
    (w.writer = .gone → ∀ (m : Move K C) w', w.step code m = some w' →
      w'.writer = .gone ∧ accepted w'.log = accepted w.log) := by
  obtain ⟨waiting, hkept⟩ := Kept.reached h
  refine ⟨⟨waiting, hkept.accepted, hkept.queued, hkept.live, hkept.single⟩, hkept.room,
    hkept.clean, fun hpaused => ?_, fun hgone m w' hstep => gone_step hgone hstep⟩
  by_cases hzero : w.queued = 0
  · exact hkept.settled_of_zero hzero
  · refine hkept.settled ?_
    simpa [Wire.isPaused, Nat.pos_of_ne_zero hzero] using hpaused

def oneByte : Code Unit Unit := ⟨fun _ => [0], fun _ => true⟩

/-- Keys are sent, and the stream fails as they are written. -/
def failingMoves : List (Move Unit Unit) :=
  [.opens, .send (.keys 1 [()]), .add, .attempt, .recv, .fail]

def leftOver : Wire where
  queued := 5
  paused := false
  queue := []
  sending := .idle
  writer := .gone
  log := [.accepted 0 ⟨[0, 0, 0, 1, 0], by decide⟩]

/-- The run of `failingMoves` ends with the count left over. -/
theorem leftOver_reached : Reachable (Wire.step oneByte) .opened leftOver := by
  have hrun : runWhile (Wire.step oneByte) (fun _ _ => True) .opened failingMoves =
      some leftOver := by decide +kernel
  exact reaches_of_run hrun

/-- The run's stream fails. -/
theorem queue_kept_failing : Reachable (Wire.step oneByte) .opened leftOver ∧
    Clean leftOver.log ∧ (leftOver.isPaused = false → Settled leftOver.log) :=
  ⟨leftOver_reached, (queue_kept leftOver_reached).2.2.1, (queue_kept leftOver_reached).2.2.2.1⟩

/-- Where the stream failed, nothing is queued or being written, and the count stays. -/
theorem count_stays : ∃ w, Reachable (Wire.step oneByte) .opened w ∧
    w.queued ≠ total (w.writer.settling ++ w.writer.unwritten ++ w.queue ++ w.sending.frames) :=
  ⟨leftOver, leftOver_reached, by decide⟩

end Koh.Input
