import Koh.Lib.Framed
import Koh.Server.Session

/-!
# What a client is shown, and at what pace

The half of `serve`'s loop that shows a client what the program does, from
`server/attach.rs`: an epoch is a stream that begins with the screen as it is, and no more
is queued on it than the client's pace allows.

## Main definitions

- `Pace`: how much the client may have in flight past what it read
- `Epoch`: an epoch's stream, as far as it was queued
- `TopMark`: a top row of the screen, and the bytes it follows
- `Serving`: the loop's variables

## Design notes

Times and round trips are in nanoseconds, and come with the moves. An epoch's messages go
from its queue to a writer of its own, which is no part of this module. Counters are not
bounded (the source's saturate at 2^64, or wrap at 2^32 epochs). The length of a message's
body is `body`'s to say: the source leaves it to `postcard`.
-/

namespace Koh.Server

open Koh.Stream Koh.Lib

/-! ### Messages on the wire -/

def maxShown : ℕ := maxOut + 1024

/-- The bytes of a message with its 4-byte length before it. -/
def framed (body : Shown → ℕ) (msg : Shown) : ℕ := 4 + body msg

/-- The bytes a message is encoded in, `none` if it is too large. -/
def encodeShown (body : Shown → ℕ) (msg : Shown) : Option ℕ :=
  if body msg ≤ maxShown then some (framed body msg) else none

/-- The bytes of a number in 7-bit groups. -/
def varint (n : ℕ) : ℕ := Nat.log2 n / 7 + 1

/-- The length of a body as `postcard` encodes it: the variant, then its fields. -/
def postcard : Shown → ℕ
  | .out bytes => 1 + (varint bytes.length + bytes.length)
  | .mark text => 1 + (varint text.bytes.length + text.bytes.length)
  | .report _ input => 1 + 1 + varint input
  | .tty _ => 1 + 2
  | .echo seq => 1 + varint seq
  | .bell count => 1 + varint count
  | .title text => 1 + (varint text.utf8ByteSize + text.utf8ByteSize)
  | .exit code none => 1 + varint code + 1
  | .exit code (some read) => 1 + varint code + 1 + varint read
  | .beat => 1

/-! ### The pace -/

/-- The bytes in flight past what the client read, before its rate is known. -/
def firstBudget : ℕ := 256 * 1024

def leastBudget : ℕ := 64 * 1024

def mostBudget : ℕ := 4 * 2 ^ 20

/-- How far apart two readings of the client's progress are taken to judge its rate. -/
def rateSpan : ℕ := 250 * 1000000

/-- How much the client may have in flight past what it read. -/
structure Pace where
  /-- Bytes of the epoch written, and read by the client. -/
  written : ℕ
  read : ℕ
  /-- When the last reading of the client's progress was, and what it was. -/
  since : ℕ × ℕ
  budget : ℕ
  deriving DecidableEq

namespace Pace

def new (now : ℕ) : Pace := ⟨0, 0, (now, 0), firstBudget⟩

/-- The client read `bytes` of the epoch by `now`, the round trip being `rtt`. -/
def readTo (p : Pace) (bytes now rtt : ℕ) : Pace :=
  let read := max p.read (min bytes p.written)
  let span := now - p.since.1
  if rateSpan ≤ span then
    let rate := (read - p.since.2) * 1000000000 / span
    let carried := 2 * (rate * (rtt + 100 * 1000000) / 1000000000)
    -- A link that went quiet says nothing of its rate: the budget stays.
    { p with
      read := read
      since := (now, read)
      budget := if p.since.2 < read then min (max carried leastBudget) mostBudget else p.budget }
  else { p with read := read }

def room (p : Pace) : Bool := p.written - p.read < p.budget

/-- A `Read` writes nothing. -/
@[simp] theorem readTo_written (p : Pace) (bytes now rtt : ℕ) :
    (p.readTo bytes now rtt).written = p.written := by
  unfold readTo
  dsimp only
  split <;> rfl

/-- It says no more than was written, and takes nothing back. -/
@[simp] theorem readTo_read (p : Pace) (bytes now rtt : ℕ) :
    (p.readTo bytes now rtt).read = max p.read (min bytes p.written) := by
  unfold readTo
  dsimp only
  split <;> rfl

/-- It never leaves no budget. -/
theorem readTo_budget_pos {p : Pace} (h : 0 < p.budget) (bytes now rtt : ℕ) :
    0 < (p.readTo bytes now rtt).budget := by
  unfold readTo
  dsimp only
  split
  · dsimp only
    split
    · exact Nat.lt_min.mpr ⟨(show 0 < leastBudget by decide).trans_le (Nat.le_max_right _ _),
        by decide⟩
    · exact h
  · exact h

end Pace

/-! ### An epoch -/

/-- How many messages may wait for an epoch's stream beside its redraw. -/
def writerQueue : ℕ := 4096

/-- How long the stream is quiet before a beat. -/
def heartbeat : ℕ := 3 * 1000000000

/-- An epoch's stream, as far as it was queued. -/
structure Epoch where
  n : ℕ
  /-- Messages that wait for the writer, and how many may. -/
  queue : List Shown
  capacity : ℕ
  /-- Nothing more is queued: the writer ends the stream. -/
  finished : Bool
  pace : Pace
  lastWrite : ℕ
  deriving DecidableEq

namespace Epoch

def send (body : Shown → ℕ) (e : Epoch) (msg : Shown) (now : ℕ) : Epoch :=
  match encodeShown body msg with
  | none => e
  | some bytes => { e with
      queue := e.queue ++ [msg]
      pace := { e.pace with written := e.pace.written + bytes }
      lastWrite := now }

/-- Epoch `n`, beginning with `shown`: the redraw is sent whatever the budget. -/
def open_ (body : Shown → ℕ) (n : ℕ) (shown : List Shown) (now : ℕ) : Epoch :=
  shown.foldl (fun e msg => e.send body msg now)
    ⟨n, [], writerQueue + shown.length, false, .new now, now⟩

/-- Whether more may be queued now: within the budget, and the queue has room. -/
def room (e : Epoch) : Bool := e.pace.room && e.queue.length < e.capacity

end Epoch

/-! ### The loop -/

/-- Most tops of the primary screen kept ahead of what the client read. -/
def maxTops : ℕ := 1024

/-- A top row of the screen, further on in what was written. -/
structure TopMark where
  /-- The bytes of the epoch it follows. -/
  bytes : ℕ
  row : RowId
  /-- The messages queued before it. -/
  before : List Shown
  deriving DecidableEq

/-- Keep `mark`: past the bound the oldest goes. -/
def pushTop (tops : List TopMark) (mark : TopMark) : List TopMark :=
  (if maxTops ≤ tops.length then tops.tail else tops) ++ [mark]

inductive ServeTurn where
  | top
  /-- A redraw is to be asked of the session; it was, and its start is awaited. -/
  | asking
  | awaiting
  | select
  /-- The session is to be told that the client has its end. -/
  | telling
  | over
  deriving DecidableEq

structure Serving where
  /-- Which of the session's attachments it is. -/
  attach : ℕ
  turn : ServeTurn
  epoch : Epoch
  /-- The top row that the client has read up to, and the tops further on. -/
  seen : Option RowId
  tops : List TopMark
  /-- A new epoch is asked, redrawn. -/
  redraw : Bool
  exited : Bool
  /-- The session was told. -/
  told : Bool
  deriving DecidableEq

namespace Serving

/-- Epoch `n` begins, with `shown` and then `top`. -/
def begin_ (body : Shown → ℕ) (s : Serving) (n : ℕ) (shown : List Shown) (top : Option RowId)
    (now : ℕ) : Serving :=
  let epoch := Epoch.open_ body n shown now
  { s with
    turn := .select
    epoch := epoch
    tops := (top.map fun row => ⟨epoch.pace.written, row, epoch.queue⟩).toList }

/-- Attachment `attach` is served, from `shown` and `top`. -/
def serve (body : Shown → ℕ) (attach : ℕ) (shown : List Shown) (top : Option RowId) (now : ℕ) :
    Serving :=
  { begin_ body ⟨attach, .top, ⟨0, [], 0, false, .new now, now⟩, none, [], false, false, false⟩ 1
      shown top now with turn := .top }

def passed (s : Serving) : List TopMark := s.tops.takeWhile (·.bytes ≤ s.epoch.pace.read)

/-- The top of the loop: where the client's terminal stands, and whether to redraw. -/
def atTop (s : Serving) : Serving where
  attach := s.attach
  turn := if s.redraw && !s.exited then .asking else .select
  epoch := s.epoch
  seen := (s.passed.getLast?.map TopMark.row).or s.seen
  tops := s.tops.dropWhile (·.bytes ≤ s.epoch.pace.read)
  redraw := false
  exited := s.exited
  told := s.told

/-- An event of the session's is told; `before` is what was queued so far. -/
def event (body : Shown → ℕ) (s : Serving) (before : List Shown) (now : ℕ) : Event → Serving
  | .show (.exit code read) =>
    -- The end is the epoch's last: the writer finishes the stream.
    { s with
      turn := .top
      exited := true
      epoch := { s.epoch.send body (.exit code read) now with finished := true } }
  | .show shown => { s with turn := .top, epoch := s.epoch.send body shown now }
  | .top row => { s with
      turn := .top
      tops := pushTop s.tops ⟨s.epoch.pace.written, row, before⟩ }
  | .echo attach seq =>
    if attach = s.attach then { s with turn := .top, epoch := s.epoch.send body (.echo seq) now }
    else { s with turn := .top }

end Serving

end Koh.Server
