import Koh.Lib.Log
import Koh.Lib.Reach
import Koh.Server.Pace

/-!
# An epoch's queue

What `Epoch::send` of `server/attach.rs` comes to, `try_send` failing where the writer is gone or
there is no place, in every order of the loop's events and beats, of what the client says it read,
and of the writer, a task of its own.

## Main definitions

- `Epoch.trySend`: a message is queued, or why it was not
- `Writing`: one epoch, from its redraw on
- `Writing.step`: what the loop does next, or the writer

## Main results

- `Writing.Paced.step`: what every step keeps
- `Writing.tells_sends`: while the loop takes events, `Epoch.send` is what queues a message
- `Writing.epoch_keeps_pace`: no message finds the queue full, and all but the redraw keep to the
  budget, in bytes of the messages that wait
-/

namespace Koh.Server

open Koh.Lib

/-! ### Queueing a message -/

inductive Tried where
  | queued
  /-- It did not encode. -/
  | unencoded
  /-- There is no place. -/
  | full
  /-- The writer is gone. -/
  | gone
  deriving DecidableEq

/-- The bytes that a message adds to what is written. -/
def encoded (body : Shown → ℕ) (msg : Shown) : ℕ := (encodeShown body msg).getD 0

/-- A message is written in a length and its bytes. -/
theorem encoded_le (body : Shown → ℕ) (msg : Shown) : encoded body msg ≤ 4 + maxShown := by
  unfold encoded encodeShown framed
  split
  · simpa using Nat.add_le_add_left ‹_› 4
  · exact Nat.zero_le _

namespace Epoch

/-- `Epoch::send`: the bytes are counted whether they find a place or not. -/
def trySend (body : Shown → ℕ) (gone : Bool) (e : Epoch) (msg : Shown) (now : ℕ) : Tried × Epoch :=
  match encodeShown body msg with
  | none => (.unencoded, e)
  | some bytes =>
    let e := { e with
      pace := { e.pace with written := e.pace.written + bytes }
      lastWrite := now }
    if gone || e.finished then (.gone, e)
    else if e.queue.length < e.capacity then (.queued, { e with queue := e.queue ++ [msg] })
    else (.full, e)

/-- With a place and a writer, a message is queued as `send` has it. -/
theorem trySend_eq_send (body : Shown → ℕ) {e : Epoch} (hfinished : e.finished = false)
    (hplace : e.queue.length < e.capacity) (msg : Shown) (now : ℕ) :
    (e.trySend body false msg now).2 = e.send body msg now := by
  unfold trySend send
  cases encodeShown body msg with
  | none => rfl
  | some bytes => simp [hfinished, hplace]

/-- All that a message changes, but for its place. -/
theorem trySend_keeps (body : Shown → ℕ) (gone : Bool) (e : Epoch) (msg : Shown) (now : ℕ) :
    let e' := (e.trySend body gone msg now).2
    e'.pace.written = e.pace.written + encoded body msg ∧ e'.pace.read = e.pace.read ∧
      e'.pace.budget = e.pace.budget ∧ e'.capacity = e.capacity ∧ e'.finished = e.finished := by
  unfold trySend encoded
  split
  · next hnone => simp [hnone]
  · next bytes hbytes =>
    dsimp only
    split
    · simp [hbytes]
    · split <;> simp [hbytes]

/-- A message is queued last, and all of it counted then; or nothing is queued. -/
theorem trySend_queue (body : Shown → ℕ) (gone : Bool) (e : Epoch) (msg : Shown) (now : ℕ) :
    let r := e.trySend body gone msg now
    (r.1 = .queued ∧ encoded body msg = framed body msg ∧ r.2.queue = e.queue ++ [msg]) ∨
      (r.1 ≠ .queued ∧ r.2.queue = e.queue) := by
  unfold trySend encoded
  split
  · simp
  · next bytes hbytes =>
    have hframed : bytes = framed body msg := by
      unfold encodeShown at hbytes
      split at hbytes <;> cases hbytes
      rfl
    dsimp only
    split
    · simp
    · split
      · exact .inl ⟨rfl, by rw [hbytes, hframed]; rfl, rfl⟩
      · simp

/-- A message that finds a place fails only for want of a writer. -/
theorem trySend_tried (body : Shown → ℕ) (gone : Bool) {e : Epoch}
    (hplace : e.queue.length < e.capacity) (msg : Shown) (now : ℕ) :
    (e.trySend body gone msg now).1 ≠ .full ∧
      ((e.trySend body gone msg now).1 = .gone → gone = true ∨ e.finished = true) := by
  unfold trySend
  split
  · simp
  · dsimp only
    split
    · next hgone => simpa using hgone
    · simp

end Epoch

/-! ### One epoch -/

structure Try where
  msg : Shown
  outcome : Tried
  /-- It is the redraw's. -/
  redraw : Bool
  /-- What the client had read then, and the budget. -/
  read : ℕ
  budget : ℕ
  deriving DecidableEq

/-- One epoch, from its redraw on. -/
structure Writing where
  /-- What is left of the redraw. -/
  left : List Shown
  epoch : Epoch
  /-- The writer is gone. -/
  gone : Bool
  exited : Bool
  /-- The loop is left. -/
  «over» : Bool
  /-- Each message that was queued, or not, and those that the writer took: no part of the
  code. -/
  tries : List Try
  taken : List Shown
  deriving DecidableEq

inductive WritingMove where
  /-- The next of the redraw is queued. -/
  | redraw (now : ℕ)
  | event (now : ℕ) (event : Event)
  | beat (now : ℕ)
  /-- The client says how much it read. -/
  | read (bytes now rtt : ℕ)
  /-- The writer takes a message; it is gone. -/
  | write
  | fail

def Event.said (attach : ℕ) : Event → Option Shown
  | .show shown => some shown
  | .top _ => none
  | .echo whose seq => if whose = attach then some (.echo seq) else none

namespace Writing

/-- Epoch `n` is opened, to begin with `shown`. -/
def init (n : ℕ) (shown : List Shown) (now : ℕ) : Writing where
  left := shown
  epoch := ⟨n, [], writerQueue + shown.length, false, .new now, now⟩
  gone := false
  exited := false
  «over» := false
  tries := []
  taken := []

def unread (s : Writing) : ℕ := s.epoch.pace.written - s.epoch.pace.read

def listens (s : Writing) : Bool := s.left.isEmpty && !s.exited && !s.over && s.epoch.room

/-- A message is queued, or not. -/
def tried (body : Shown → ℕ) (s : Writing) (redraw : Bool) (msg : Shown) (now : ℕ) :
    Tried × Writing :=
  let (outcome, epoch) := s.epoch.trySend body s.gone msg now
  (outcome, { s with
    epoch := epoch
    tries := s.tries ++ [⟨msg, outcome, redraw, s.epoch.pace.read, s.epoch.pace.budget⟩] })

/-- The loop queues `msg`: it is left if that failed. -/
def tells (body : Shown → ℕ) (s : Writing) (msg : Shown) (now : ℕ) : Writing :=
  let (outcome, s) := s.tried body false msg now
  { s with «over» := outcome = .full ∨ outcome = .gone }

/-- The program's end is the epoch's last: the writer finishes the stream. -/
def ends (s : Writing) (msg : Shown) : Writing :=
  match msg with
  | .exit .. => { s with exited := true, epoch := { s.epoch with finished := !s.over } }
  | _ => s

def step (body : Shown → ℕ) (attach : ℕ) (s : Writing) : WritingMove → Option Writing
  | .redraw now => match s.left with
    | msg :: left => some { (s.tried body true msg now).2 with left := left }
    | [] => none
  | .event now event => if s.listens then
      match event.said attach with
      | some msg => some ((s.tells body msg now).ends msg)
      | none => some s
    else none
  | .beat now => if s.listens && s.epoch.lastWrite + heartbeat ≤ now then
      some (s.tells body .beat now)
    else none
  | .read bytes now rtt => if s.left.isEmpty then
      some { s with epoch := { s.epoch with pace := s.epoch.pace.readTo bytes now rtt } }
    else none
  | .write => match s.gone, s.epoch.queue with
    | false, msg :: queue =>
      some { s with epoch := { s.epoch with queue := queue }, taken := s.taken ++ [msg] }
    | _, _ => none
  | .fail => some { s with gone := true }

end Writing

/-! ### What every step keeps -/

/-- The budget is the first, or within its bounds. -/
def Budgeted (budget : ℕ) : Prop :=
  budget = firstBudget ∨ leastBudget ≤ budget ∧ budget ≤ mostBudget

/-- A budget is the most at most. -/
theorem Budgeted.le {budget : ℕ} (h : Budgeted budget) : budget ≤ mostBudget := by
  rcases h with rfl | h
  · decide
  · exact h.2

/-- A `Read` leaves a budget. -/
theorem Budgeted.readTo {p : Pace} (h : Budgeted p.budget) (bytes now rtt : ℕ) :
    Budgeted (p.readTo bytes now rtt).budget := by
  unfold Pace.readTo
  dsimp only
  split
  · dsimp only
    split
    · exact .inr ⟨le_min (le_max_right _ _) (by decide), min_le_right _ _⟩
    · exact h
  · exact h

def triedBytes (body : Shown → ℕ) (tries : List Try) : ℕ := total (fun t => encoded body t.msg) tries

def queuedMsgs (tries : List Try) : List Shown :=
  (tries.filter (·.outcome = .queued)).map Try.msg

/-- The bytes of one try more. -/
theorem triedBytes_snoc (body : Shown → ℕ) (tries : List Try) (t : Try) :
    triedBytes body (tries ++ [t]) = triedBytes body tries + encoded body t.msg := by
  simp [triedBytes]

/-- What one try more queues. -/
theorem queuedMsgs_snoc (tries : List Try) (t : Try) :
    queuedMsgs (tries ++ [t]) = queuedMsgs tries ++ if t.outcome = .queued then [t.msg] else [] := by
  by_cases hqueued : t.outcome = .queued <;> simp [queuedMsgs, hqueued]

/-- A message found a place, and all of it was counted if it was queued; unless it was the
redraw's, fewer bytes of those `before` it were unread than the budget. -/
structure Try.Paced (body : Shown → ℕ) (gone : Bool) (before : List Try) (t : Try) : Prop where
  place : t.outcome ≠ .full
  writer : t.outcome = .gone → gone = true
  room : t.redraw = false → triedBytes body before - t.read < t.budget
  budget : Budgeted t.budget
  counted : t.outcome = .queued → encoded body t.msg = framed body t.msg

/-- What was queued was counted. -/
theorem queuedMsgs_le {body : Shown → ℕ} {tries : List Try}
    (h : ∀ t ∈ tries, t.outcome = .queued → encoded body t.msg = framed body t.msg) :
    total (framed body) (queuedMsgs tries) ≤ triedBytes body tries := by
  induction tries using List.reverseRecOn with
  | nil => exact Nat.le_refl 0
  | append_singleton tries t ih =>
    obtain ⟨hbefore, hlast⟩ := List.forall_mem_append.mp h
    rw [queuedMsgs_snoc, triedBytes_snoc, total_append]
    refine Nat.add_le_add (ih hbefore) ?_
    split
    · next hqueued => simp [hlast t (List.mem_singleton_self t) hqueued]
    · exact Nat.zero_le _

namespace Writing

variable {body : Shown → ℕ} {attach : ℕ} {shown : List Shown} {s s' : Writing}

/-- What every step keeps, of an epoch that begins with `shown`. -/
structure Paced (body : Shown → ℕ) (shown : List Shown) (s : Writing) : Prop where
  /-- There is a place for what is left of the redraw. -/
  places : s.epoch.queue.length + s.left.length ≤ s.epoch.capacity
  budget : Budgeted s.epoch.pace.budget
  /-- What is written is the bytes of all messages, and what was queued is with the writer, or
  waits for it. -/
  written : s.epoch.pace.written = triedBytes body s.tries
  queued : queuedMsgs s.tries = s.taken ++ s.epoch.queue
  redraw : s.left ≠ [] →
    s.epoch.pace.written + total (encoded body) s.left = total (encoded body) shown
  unread : s.unread ≤ max (total (encoded body) shown) (mostBudget + (4 + maxShown))
  ended : s.epoch.finished = true → s.left = [] ∧ s.exited = true
  tries : Law (fun before t _ => t.Paced body s.gone before) s.tries

/-- The messages of a start are written, whatever they take. -/
theorem init_paced (body : Shown → ℕ) (n : ℕ) (shown : List Shown) (now : ℕ) :
    (init n shown now).Paced body shown where
  places := by simp [init]
  budget := .inl rfl
  written := rfl
  queued := rfl
  redraw := fun _ => Nat.zero_add _
  unread := by simp [init, Writing.unread, Pace.new]
  ended := fun h => by cases h
  tries := .nil

/-- A message queued, or not, is one more that found a place. -/
theorem Paced.tried (h : s.Paced body shown) {redraw : Bool} (msg : Shown) (now : ℕ)
    (hplace : s.epoch.queue.length < s.epoch.capacity) (hgoing : s.epoch.finished = false)
    (hroom : redraw = false → s.unread < s.epoch.pace.budget) :
    let s' := (s.tried body redraw msg now).2
    s'.epoch.pace.written = triedBytes body s'.tries ∧
      queuedMsgs s'.tries = s'.taken ++ s'.epoch.queue ∧
      s'.epoch.queue.length ≤ s.epoch.queue.length + 1 ∧
      Law (fun before t _ => t.Paced body s'.gone before) s'.tries := by
  obtain ⟨hwritten, -⟩ := Epoch.trySend_keeps body s.gone s.epoch msg now
  have hqueue := Epoch.trySend_queue body s.gone s.epoch msg now
  obtain ⟨hfull, hgone⟩ := Epoch.trySend_tried body s.gone hplace msg now
  simp only [Writing.tried]
  generalize s.epoch.trySend body s.gone msg now = r at hwritten hqueue hfull hgone ⊢
  obtain ⟨outcome, epoch⟩ := r
  dsimp only at hwritten hqueue hfull hgone
  refine ⟨?_, ?_, ?_, h.tries.snoc ⟨hfull, fun hwas => ?_, fun hnot => ?_, h.budget, fun hwas => ?_⟩
    fun _ _ _ _ hold => hold⟩
  · rw [triedBytes_snoc, ← h.written]
    exact hwritten
  · rw [queuedMsgs_snoc, h.queued, List.append_assoc]
    rcases hqueue with ⟨houtcome, -, hqueue⟩ | ⟨houtcome, hqueue⟩
    · rw [if_pos houtcome, hqueue]
    · rw [if_neg houtcome, hqueue, List.append_nil]
  · rcases hqueue with ⟨-, -, hqueue⟩ | ⟨-, hqueue⟩
    · simp [hqueue]
    · simp [hqueue]
  · rcases hgone hwas with hwriter | hfinished
    · exact hwriter
    · rw [hgoing] at hfinished
      cases hfinished
  · rw [← h.written]
    exact hroom hnot
  · rcases hqueue with ⟨-, hcounted, -⟩ | ⟨houtcome, -⟩
    · exact hcounted
    · exact absurd hwas houtcome

/-- The next message of a start is tried. -/
theorem Paced.redraws (h : s.Paced body shown) {msg : Shown} {left : List Shown} (now : ℕ)
    (hleft : s.left = msg :: left) :
    Paced body shown { (s.tried body true msg now).2 with left := left } := by
  obtain ⟨hbytes, hread, hbudget, hcapacity, hfinished⟩ :=
    Epoch.trySend_keeps body s.gone s.epoch msg now
  have hplaces := h.places
  rw [hleft, List.length_cons] at hplaces
  have hgoing : s.epoch.finished = false := by
    rw [Bool.eq_false_iff]
    intro hended
    rw [(h.ended hended).1] at hleft
    cases hleft
  obtain ⟨hwritten, hqueued, hlength, htries⟩ :=
    h.tried msg now (by omega) hgoing fun h : true = false => by cases h
  have hredraw := h.redraw (by simp [hleft])
  rw [hleft, total_cons] at hredraw
  have hall : (s.epoch.trySend body s.gone msg now).2.pace.written + total (encoded body) left =
      total (encoded body) shown := by
    rw [hbytes]
    omega
  refine ⟨?_, ?_, hwritten, hqueued, fun _ => hall, le_max_of_le_left ?_, fun hended => ?_, htries⟩
  · show (s.epoch.trySend body s.gone msg now).2.queue.length + left.length ≤
      (s.epoch.trySend body s.gone msg now).2.capacity
    have hlength' : (s.epoch.trySend body s.gone msg now).2.queue.length ≤ _ := hlength
    omega
  · exact hbudget ▸ h.budget
  · show (s.epoch.trySend body s.gone msg now).2.pace.written - _ ≤ _
    omega
  · have hended' : (s.epoch.trySend body s.gone msg now).2.finished = true := hended
    rw [hfinished, hgoing] at hended'
    cases hended'

/-- The loop queues a message only when there is room. -/
theorem Paced.tells (h : s.Paced body shown) (hlistens : s.listens = true) (msg : Shown)
    (now : ℕ) : (s.tells body msg now).Paced body shown := by
  simp only [listens, Epoch.room, Pace.room, Bool.and_eq_true, List.isEmpty_iff,
    Bool.not_eq_true', decide_eq_true_eq] at hlistens
  obtain ⟨⟨⟨hleft, hexited⟩, -⟩, hroom, hplace⟩ := hlistens
  obtain ⟨hbytes, hread, hbudget, hcapacity, hfinished⟩ :=
    Epoch.trySend_keeps body s.gone s.epoch msg now
  have hgoing : s.epoch.finished = false := by
    rw [Bool.eq_false_iff]
    intro hended
    rw [(h.ended hended).2] at hexited
    cases hexited
  have hmost := h.budget.le
  have hone := encoded_le body msg
  obtain ⟨hwritten, hqueued, hlength, htries⟩ := h.tried msg now hplace hgoing fun _ => hroom
  refine ⟨?_, ?_, hwritten, hqueued, fun hnot => absurd hleft hnot, le_max_of_le_right ?_,
    fun hended => ?_, htries⟩
  · show (s.epoch.trySend body s.gone msg now).2.queue.length + s.left.length ≤
      (s.epoch.trySend body s.gone msg now).2.capacity
    have hlength' : (s.epoch.trySend body s.gone msg now).2.queue.length ≤ _ := hlength
    rw [hcapacity, hleft, List.length_nil]
    omega
  · exact hbudget ▸ h.budget
  · show (s.epoch.trySend body s.gone msg now).2.pace.written -
      (s.epoch.trySend body s.gone msg now).2.pace.read ≤ _
    omega
  · have hended' : (s.epoch.trySend body s.gone msg now).2.finished = true := hended
    rw [hfinished, hgoing] at hended'
    cases hended'

/-- A message that ends the epoch is tried. -/
theorem Paced.ends (h : s.Paced body shown) (hleft : s.left = []) (msg : Shown) :
    (s.ends msg).Paced body shown := by
  cases msg with
  | exit code read =>
    exact ⟨h.places, h.budget, h.written, h.queued, h.redraw, h.unread, fun _ => ⟨hleft, rfl⟩,
      h.tries⟩
  | _ => exact h

/-- Every step keeps an epoch paced. -/
theorem Paced.step {m : WritingMove} (h : s.Paced body shown)
    (hstep : s.step body attach m = some s') : s'.Paced body shown := by
  cases m with
  | redraw now =>
    simp only [Writing.step] at hstep
    split at hstep
    · next hleft =>
      cases hstep
      exact h.redraws now hleft
    · cases hstep
  | event now event =>
    simp only [Writing.step] at hstep
    split at hstep
    · next hlistens =>
      split at hstep
      · next msg _ =>
        cases hstep
        refine (h.tells hlistens msg now).ends ?_ msg
        simp only [listens, Bool.and_eq_true, List.isEmpty_iff] at hlistens
        exact hlistens.1.1.1
      · cases hstep
        exact h
    · cases hstep
  | beat now =>
    simp only [Writing.step] at hstep
    split at hstep
    · next hbeat =>
      cases hstep
      rw [Bool.and_eq_true] at hbeat
      exact h.tells hbeat.1 .beat now
    · cases hstep
  | read bytes now rtt =>
    simp only [Writing.step] at hstep
    split at hstep
    · cases hstep
      have hwritten := Pace.readTo_written s.epoch.pace bytes now rtt
      refine ⟨h.places, h.budget.readTo bytes now rtt, hwritten.trans h.written, h.queued,
        fun hnot => ?_, h.unread.trans' ?_, h.ended, h.tries⟩
      · dsimp only
        rw [hwritten]
        exact h.redraw hnot
      · -- What is read only grows.
        simp only [Writing.unread, Pace.readTo_written, Pace.readTo_read]
        omega
    · cases hstep
  | write =>
    simp only [Writing.step] at hstep
    split at hstep
    · next hqueue =>
      cases hstep
      refine ⟨?_, h.budget, h.written, ?_, h.redraw, h.unread, h.ended, h.tries⟩
      · have hplaces := h.places
        rw [hqueue, List.length_cons] at hplaces
        dsimp only
        omega
      · have hqueued := h.queued
        rw [hqueue] at hqueued
        simpa using hqueued
    · cases hstep
  | fail =>
    cases hstep
    exact ⟨h.places, h.budget, h.written, h.queued, h.redraw, h.unread, h.ended,
      fun before t after hsplit =>
        have hpaced := h.tries before t after hsplit
        ⟨hpaced.place, fun _ => rfl, hpaced.room, hpaced.budget, hpaced.counted⟩⟩

/-- Every run keeps it so. -/
theorem reachable_paced {n now : ℕ} (h : Reachable (Writing.step body attach) (init n shown now) s) :
    s.Paced body shown :=
  h.invariant (Paced body shown) (init_paced body n shown now) fun _ _ _ hs _ hstep => hs.step hstep

/-- While the loop takes events and the writer is there, a message is queued as `Epoch.send` has
it. -/
theorem tells_sends {n now : ℕ} (h : Reachable (Writing.step body attach) (init n shown now) s)
    (hlistens : s.listens = true) (hgone : s.gone = false) (msg : Shown) (later : ℕ) :
    (s.tells body msg later).epoch = s.epoch.send body msg later := by
  have hpaced := reachable_paced h
  simp only [listens, Epoch.room, Bool.and_eq_true, Bool.not_eq_true', decide_eq_true_eq] at hlistens
  obtain ⟨⟨⟨-, hexited⟩, -⟩, -, hplace⟩ := hlistens
  have hgoing : s.epoch.finished = false := by
    rw [Bool.eq_false_iff]
    intro hended
    rw [(hpaced.ended hended).2] at hexited
    cases hexited
  rw [← Epoch.trySend_eq_send body hgoing hplace, ← hgone]
  rfl

/-- **The queue never overflows, and the budget holds**, whatever the redraw is, and in whatever
order the loop, the client and the writer take turns. A message fails to be queued only if its
writer is gone; all but the redraw's were tried when fewer bytes of the messages before were
unread than the budget then in force, which is the first or within its bounds; what was queued is
with the writer or waits for it, and all of it that was not read counts as unread, what waits
alone if no more was read than the writer took; and beyond the redraw, no more is unread than the
most, and one message. -/
theorem epoch_keeps_pace (body : Shown → ℕ) (attach n : ℕ) (shown : List Shown) (now : ℕ)
    {s : Writing} (h : Reachable (step body attach) (init n shown now) s) :
    (∀ before t after, s.tries = before ++ t :: after →
      t.outcome ≠ .full ∧ (t.outcome = .gone → s.gone = true) ∧
      (t.redraw = false → triedBytes body before - t.read < t.budget) ∧
      (t.budget = firstBudget ∨ leastBudget ≤ t.budget ∧ t.budget ≤ mostBudget)) ∧
    s.epoch.pace.written = triedBytes body s.tries ∧
    queuedMsgs s.tries = s.taken ++ s.epoch.queue ∧
    total (framed body) (s.taken ++ s.epoch.queue) - s.epoch.pace.read ≤ s.unread ∧
    (s.epoch.pace.read ≤ total (framed body) s.taken →
      total (framed body) s.epoch.queue ≤ s.unread) ∧
    s.unread ≤ max (total (encoded body) shown) (mostBudget + (4 + maxShown)) := by
  have hpaced := reachable_paced h
  have hbytes : total (framed body) (queuedMsgs s.tries) ≤ triedBytes body s.tries :=
    queuedMsgs_le fun t hmem => by
      obtain ⟨before, after, hsplit⟩ := List.append_of_mem hmem
      exact (hpaced.tries before t after hsplit).counted
  rw [hpaced.queued, ← hpaced.written] at hbytes
  refine ⟨fun before t after hsplit => ?_, hpaced.written, hpaced.queued,
    Nat.sub_le_sub_right hbytes _, fun hread => ?_, hpaced.unread⟩
  · have ht := hpaced.tries before t after hsplit
    exact ⟨ht.place, ht.writer, ht.room, ht.budget⟩
  · rw [total_append] at hbytes
    unfold Writing.unread
    omega

/-- In `epoch_keeps_pace`, a beat that follows an echo finds the writer gone. -/
theorem epoch_keeps_pace_gone : ∃ s, Reachable (step postcard 7) (init 1 [.out [0x61]] 0) s ∧
    s.tries.map Try.outcome = [.queued, .queued, .gone] ∧ s.epoch.queue = [.echo 3] ∧
    s.epoch.pace.written = triedBytes postcard s.tries ∧
    total (framed postcard) s.epoch.queue ≤ s.unread ∧
    s.unread ≤ max (total (encoded postcard) [.out [0x61]]) (mostBudget + (4 + maxShown)) := by
  have hrun : (runWhile (step postcard 7) (fun _ _ => True) (init 1 [.out [0x61]] 0)
      [.redraw 0, .event 1 (.echo 7 3), .write, .read 7 300000000 50000000, .fail,
        .beat 3000000001]).map (fun s => (s.tries.map Try.outcome, s.epoch.queue,
          decide (s.epoch.pace.read ≤ total (framed postcard) s.taken))) =
      some ([.queued, .queued, .gone], [.echo 3], true) := by decide +kernel
  obtain ⟨s, hs, hsees⟩ := Option.map_eq_some_iff.mp hrun
  simp only [Prod.mk.injEq, decide_eq_true_eq] at hsees
  obtain ⟨htries, hqueue, hread⟩ := hsees
  have hreach := reaches_of_run hs
  obtain ⟨-, hwritten, -, -, hwaits, hunread⟩ := epoch_keeps_pace postcard 7 1 [.out [0x61]] 0 hreach
  exact ⟨s, hreach, htries, hqueue, hwritten, hwaits hread, hunread⟩

end Writing

end Koh.Server
