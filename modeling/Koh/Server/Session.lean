import Koh.Server.Shown
import Koh.Server.Sessions

/-!
# A session

`Session::run`, from `server/session.rs`, with what it holds: the program's emulator and
the filter its output goes through, input waiting for the program's terminal, the inputs
awaiting their echo, what it reported (`server/session/reports.rs`), and how the program
ends.

## Main definitions

- `Emulator`: what a session asks of the program's emulator
- `PendingInput`, `EchoAck`, `Reports`, `Ending`
- `Session`: the session, its loop's variables, its channels, and what it published
- `Session.step`: what it does next, or what those around it do
- `Session.Steps`: what a move does, and when it is made

## Design notes

A turn of the loop is two moves: `top`, up to the `select!`, and the arm that it takes. The
answers of the system (whether the PTY took a write, the PTY's modes, what the program is
doing, its exit, the time) come with the moves. Time is in milliseconds. The registry's end
of the session and its time to live are the move `stop`. What the session says of itself
for listings and waits is left out. Each event and start is kept with the newest attachment
then; `inputs` and `read` keep what was handed to the session and what it read.
-/

namespace Koh.Server

open Koh.Stream Koh.Lib

abbrev RowId := ℕ

/-- What a session asks of an emulator with states `E`, which encodes inputs `K`, is told of
colours `C`, and keeps the shell's marks as `M`. -/
structure Emulator (E K C M : Type) where
  process : E → Bytes → E
  /-- The answers to the program's questions since last taken. -/
  takeHostReplies : E → Bytes × E
  encodeInput : E → List K → Bytes
  setColours : E → C → Bytes × E
  /-- `none` where the size is the same. -/
  resize : E → Size → Option E
  resizeReport : E → Option Bytes
  title : E → String
  bellCount : E → ℕ
  commands : E → M
  /-- Whether the marks say the shell is at its prompt. -/
  prompt : M → Bool
  /-- The primary screen's rows, the history above it first, and the screen's height. -/
  mainRows : E → List RowId
  height : E → ℕ
  redraw : E → String → ℕ → List Piece

/-- An emulator that keeps the bytes it was given and draws them again. -/
def Emulator.plain : Emulator Bytes Bytes Unit Unit where
  process e chunk := e ++ chunk
  takeHostReplies e := ([], e)
  encodeInput _ keys := keys.flatten
  setColours e _ := ([], e)
  resize _ _ := none
  resizeReport _ := none
  title _ := ""
  bellCount _ := 0
  commands _ := ()
  prompt _ := false
  mainRows _ := []
  height _ := 0
  redraw e _ _ := [.out e]

/-! ### Input that waits for the program -/

inductive Wrote where
  | ok
  | full
  | closed
  deriving DecidableEq

/-- One pending input batch, then the terminal's replies generated while it waits. -/
structure PendingInput where
  bytes : Bytes
  replies : ℕ
  overflowReported : Bool
  /-- The input it holds. -/
  seq : Option InputSeq
  deriving DecidableEq

namespace PendingInput

def empty : PendingInput := ⟨[], 0, false, none⟩

def isEmpty (p : PendingInput) : Bool := p.bytes = []

def replyBudget : ℕ := 64 * 1024

def reply (p : PendingInput) (bytes : Bytes) : PendingInput :=
  if replyBudget < p.replies + bytes.length then { p with overflowReported := true }
  else { p with bytes := p.bytes ++ bytes, replies := p.replies + bytes.length }

/-- Write what is pending; once all of it is written, the input it held, if any. -/
def flush (p : PendingInput) (wrote : Wrote) : PendingInput × Option (Option InputSeq) :=
  if p.isEmpty then (p, none)
  else match wrote with
    | .ok => (empty, some p.seq)
    | .full => (p, none)
    | .closed => (empty, none)

end PendingInput

/-! ### Echoes -/

/-- How long the program gets to show a keystroke. -/
def echoTimeout : ℕ := 50

/-- Most inputs awaiting their echo. -/
def echoPending : ℕ := 256

/-- Which of the newest attachment's inputs the program has had time to show. -/
structure EchoAck where
  /-- Inputs written and not yet promoted, with when, oldest first. -/
  pending : List (InputSeq × ℕ)
  deriving DecidableEq

namespace EchoAck

def empty : EchoAck := ⟨[]⟩

def written (echo : EchoAck) (seq : InputSeq) (now : ℕ) : EchoAck :=
  if echo.pending.length < echoPending then ⟨echo.pending ++ [(seq, now)]⟩
  else match echo.pending.getLast? with
    | some (_, since) => ⟨echo.pending.dropLast ++ [(seq, since)]⟩
    | none => echo

/-- The newest input that had its time to show by `now`. -/
def promote (echo : EchoAck) (now : ℕ) : EchoAck × Option InputSeq :=
  let shown := fun e : InputSeq × ℕ => decide (echoTimeout ≤ now - e.2)
  (⟨echo.pending.dropWhile shown⟩, ((echo.pending.takeWhile shown).getLast?).map Prod.fst)

def next (echo : EchoAck) : Option ℕ := echo.pending.head?.map (·.2 + echoTimeout)

end EchoAck

/-! ### Reports -/

/-- The least time between two reports of an unchanged state. -/
def spacing : ℕ := 10

/-- What a session reported, and whether it owes a report. -/
structure Reports where
  last : Option (Activity × ℕ)
  owed : Bool
  deriving DecidableEq

/-- Why the program is probed. -/
inductive Probe where
  | poll
  | marked
  deriving DecidableEq

namespace Reports

def owe (r : Reports) : Reports := { r with owed := true }

/-- When to probe for the report owed, if one is. -/
def due (r : Reports) (now : ℕ) : Option ℕ :=
  if r.owed then some ((r.last.map fun l => max (l.2 + spacing) now).getD now) else none

/-- The program was probed: the report to make, if one is due. -/
def probed (r : Reports) (now : ℕ) (why : Probe) (activity : Activity) : Reports × Option Activity :=
  let changed := r.last.all (·.1 ≠ activity)
  let spaced := (r.due now).any (· ≤ now)
  if changed || spaced || why = .marked then (⟨some (activity, now), false⟩, some activity)
  else (r, none)

end Reports

/-! ### How the program ends -/

def ttyTick : ℕ := 100

/-- How long the output must be quiet after the exit to count as drained. -/
def drained : ℕ := ttyTick

/-- The longest the output may go on after the exit. -/
def drainMost : ℕ := 5000

/-- How long the session waits for the exit once the output ended. -/
def endingGrace : ℕ := 1000

inductive Exit where
  | status (code : ℕ)
  | hungUp
  deriving DecidableEq

def Exit.code : Exit → ℕ
  | .status code => code
  | .hungUp => 129

structure Ending where
  exit : Option (Exit × ℕ)
  outputEnded : Option ℕ
  lastOutput : Option ℕ
  deriving DecidableEq

namespace Ending

/-- When the program counts as ended, and how. -/
def deadline (e : Ending) : Option (ℕ × Exit) :=
  match e.exit, e.outputEnded with
  | some (exit, _), some ended => some (ended, exit)
  | some (exit, seen), none =>
    let quietFrom := (e.lastOutput.map fun last => max last seen).getD seen
    some (min (quietFrom + drained) (seen + drainMost), exit)
  | none, some ended => some (ended + endingGrace, .hungUp)
  | none, none => none

def ended (e : Ending) (now : ℕ) : Option Exit :=
  (e.deadline.filter fun d => d.1 ≤ now).map Prod.snd

/-- The exit is known, if it was not. -/
def seen (e : Ending) (exit : Option Exit) (now : ℕ) : Ending :=
  { e with exit := e.exit.or (exit.map (·, now)) }

end Ending

/-! ### The session -/

/-- How soon after output the PTY's modes are read again. -/
def ttySettle : ℕ := 10

/-- Most bytes of output held for the modes' read. -/
def heldMost : ℕ := 2 ^ 20

/-- Most output chunks read at once beyond the first. -/
def outputChunksAtOnce : ℕ := 64

def inputQueue : ℕ := 256

def askQueue : ℕ := 64

/-- Rows of history a client attaching afresh is sent. -/
def attachHistory : ℕ := 1000

/-- What a connection hands its session, in the order the client sent it. -/
inductive ToSession (K C : Type) where
  | events (seq : InputSeq) (events : List K)
  | colours (colours : C)
  deriving DecidableEq

/-- Input for the program, from the attachment numbered `attach`. -/
structure Input (K C : Type) where
  attach : ℕ
  input : ToSession K C
  deriving DecidableEq

/-- What a session publishes, in order, to every client attached. -/
inductive Event where
  | show (shown : Shown)
  /-- The input up to `seq` of attachment `attach` had its time to show. -/
  | echo (attach : ℕ) (seq : InputSeq)
  | top (row : RowId)
  deriving DecidableEq

/-- What a client is sent from where it begins. -/
structure Start (E : Type) where
  shown : List Shown
  top : Option RowId
  /-- Which event its receiver is given first. -/
  events : ℕ
  /-- The newest attachment then, how many chunks were read, and what the redraw was
  made from. -/
  newest : ℕ
  read : ℕ
  emu : E

/-- What a connection asks its session beside input. -/
inductive Ask where
  | redraw (seen : Option RowId)
  | ended
  | resize (attach : ℕ) (size : Size)
  /-- How it stands, or its text. -/
  | other
  deriving DecidableEq

inductive Turn where
  | top
  | select
  | over
  deriving DecidableEq

/-- A session: what it holds, its loop's variables, its channels, and what it published. -/
structure Session (E K C : Type) where
  emu : E
  filter : Filter
  attaches : ℕ
  reports : Reports
  tty : Option TtyModes
  title : String
  bells : ℕ
  top : Option RowId
  echo : EchoAck
  /-- The newest attachment's newest input written to the program. -/
  written : InputSeq
  exited : Option ℕ
  typedAt : Option ℕ
  answered : Bool
  pending : PendingInput
  ending : Ending
  /-- The next read of the PTY's modes after output, and the wait before it. -/
  settle : Option (ℕ × ℕ)
  /-- Output waiting for the modes' read. -/
  held : List Shown
  probing : Bool
  turn : Turn
  ptyRx : List Bytes
  ptyEnded : Bool
  inputRx : List (Input K C)
  asksRx : List Ask
  control : List Attach
  events : List (ℕ × Event)
  starts : List (Start E)
  /-- Every input handed to the session. -/
  inputs : List (Input K C)
  /-- Every chunk of output read. -/
  read : List Bytes
  /-- Whose input is in `pending`. -/
  source : ℕ

inductive SessionMove (K C : Type) where
  /-- The program writes; its output ends. -/
  | program (chunk : Bytes)
  | programEnds
  /-- A connection hands input, asks, attaches. -/
  | send (input : Input K C)
  | ask (ask : Ask)
  | request (attach : Attach)
  /-- Up to the `select!`. -/
  | top (now : ℕ) (wrote : Wrote) (keysLeft : Option Bool)
  /-- The arms. -/
  | output (now more : ℕ) (modes : Option TtyModes) (activity : Option ℕ → Bool → Bool → Activity)
  | outputEnd (now : ℕ) (exit : Option Exit)
  | wake
  | settled (now : ℕ) (modes : Option TtyModes)
  | echoed (now : ℕ)
  | takeInput
  | takeAsk
  | takeAttach
  | tick (now : ℕ) (exit : Option Exit) (modes : Option TtyModes)
  | poll (now : ℕ) (activity : Option ℕ → Bool → Bool → Activity)
  | stop

namespace Session

variable {E K C M : Type}

def publish (s : Session E K C) (event : Event) : Session E K C :=
  { s with events := s.events ++ [(s.attaches, event)] }

def show_ (s : Session E K C) (shown : Shown) : Session E K C := s.publish (.show shown)

/-- The PTY's modes are `modes`: told if they changed. -/
def refreshTty (s : Session E K C) (modes : Option TtyModes) : Session E K C :=
  match modes with
  | some tty => if s.tty = some tty then s else { s with tty := some tty }.show_ (.tty tty)
  | none => s

/-- The program was probed: told if a report is due. Output waiting is still to come: it is
busy. -/
def probe (vt : Emulator E K C M) (s : Session E K C) (now : ℕ) (why : Probe)
    (activity : Option ℕ → Bool → Bool → Activity) : Session E K C :=
  let prompt := vt.prompt (vt.commands s.emu)
  let activity := activity (s.typedAt.map (now - ·)) s.answered prompt
  let activity := if s.ptyRx = [] then activity else .busy
  let probed := s.reports.probed now why activity
  let s := { s with reports := probed.1 }
  match probed.2 with
  | some activity => s.show_ (.report activity s.written)
  | none => s

/-- Feed `chunk` to the emulator and the filter; what passes is held. -/
def output (vt : Emulator E K C M) (s : Session E K C) (chunk : Bytes) : Session E K C :=
  let fed := s.filter.feed chunk
  { s with
    emu := vt.process s.emu chunk
    filter := fed.filter
    held := s.held ++ fed.pieces.filterMap shownOf
    read := s.read ++ [chunk] }

/-- The primary screen's top row: below the history. -/
def topRow (vt : Emulator E K C M) (emu : E) : Option RowId :=
  (vt.mainRows emu)[(vt.mainRows emu).length - vt.height emu]?

/-- The title, the top row and the bells are told where they changed. -/
def tellTitle (vt : Emulator E K C M) (s : Session E K C) : Session E K C :=
  let title := vt.title s.emu
  if title = s.title then s else { s with title := title }.show_ (.title title)

def tellTop (vt : Emulator E K C M) (s : Session E K C) : Session E K C :=
  let top := topRow vt s.emu
  if top = s.top then s
  else match top with
    | some row => { s with top := top }.publish (.top row)
    | none => { s with top := top }

def tellBells (vt : Emulator E K C M) (s : Session E K C) : Session E K C :=
  let bells := vt.bellCount s.emu
  if bells = s.bells then s else { s with bells := bells }.show_ (.bell bells)

/-- What is held is told, joined. -/
def tellHeld (s : Session E K C) : Session E K C :=
  (coalesce s.held).foldl show_ { s with held := [] }

/-- Tell what was held, after the side channels the output changed. -/
def release (vt : Emulator E K C M) (s : Session E K C) : Session E K C :=
  (((s.tellTitle vt).tellHeld).tellTop vt).tellBells vt

/-- Where a client begins: the screen, the modes, the last report, then the events after. -/
def start (vt : Emulator E K C M) (s : Session E K C) (history : ℕ) : Start E where
  shown := (vt.redraw s.emu (vt.title s.emu) history).flatMap cut ++
    (s.tty.map .tty).toList ++ [.title (vt.title s.emu), .bell (vt.bellCount s.emu)] ++
    (s.reports.last.map fun l => .report l.1 s.written).toList ++
    (s.exited.map fun code => .exit code none).toList
  top := topRow vt s.emu
  events := s.events.length
  newest := s.attaches
  read := s.read.length
  emu := s.emu

def begin (vt : Emulator E K C M) (s : Session E K C) (history : ℕ) : Session E K C :=
  { s with starts := s.starts ++ [s.start vt history] }

/-- The window is now `size`; what a program that asked for it hears of it goes in
`pending`. -/
def resize (vt : Emulator E K C M) (s : Session E K C) (size : Size) (pending : PendingInput) :
    Option (Session E K C × PendingInput) :=
  (vt.resize s.emu size).map fun emu =>
    ({ s with emu := emu, reports := s.reports.owe },
      ((vt.resizeReport emu).map pending.reply).getD pending)

/-- A new attachment, the newest; a resize report owed the program is written, if it can
be. -/
def client (vt : Emulator E K C M) (s : Session E K C) (size : Size) (history : ℕ) :
    Session E K C :=
  let s := { s with attaches := s.attaches + 1, echo := .empty, written := 0 }
  let s := ((s.resize vt size .empty).map Prod.fst).getD s
  s.begin vt history

/-- Rows of history a client whose terminal holds the rows above `seen` lacks. -/
def historySince (vt : Emulator E K C M) (s : Session E K C) (seen : Option RowId) : ℕ :=
  match seen with
  | none => 0
  | some seen =>
    let rows := vt.mainRows s.emu
    let kept := rows.length - vt.height s.emu
    min (if seen ∈ rows then kept - rows.idxOf seen else kept) attachHistory

/-- Queue what the program gets of `input`. -/
def apply (vt : Emulator E K C M) (s : Session E K C) (input : Input K C) : Session E K C :=
  match input.input with
  | .events seq events => { s with
      pending := { s.pending with
        bytes := s.pending.bytes ++ vt.encodeInput s.emu events
        seq := some seq }
      source := input.attach }
  | .colours colours =>
    let set := vt.setColours s.emu colours
    { s with emu := set.2, pending := { s.pending with bytes := s.pending.bytes ++ set.1 } }

/-- The program counts as ended: what is held goes first, then the end. -/
def finish (vt : Emulator E K C M) (s : Session E K C) (exit : Exit) (keysLeft : Option Bool) :
    Session E K C :=
  let s := s.release vt
  let read := if s.pending.isEmpty && keysLeft = some false then some s.written else none
  { s.show_ (.exit exit.code read) with exited := some exit.code, pending := .empty }

def flush (s : Session E K C) (now : ℕ) (wrote : Wrote) : Session E K C :=
  let flushed := s.pending.flush wrote
  let s := { s with pending := flushed.1 }
  match flushed.2 with
  | some (some seq) => { s with
      typedAt := some now
      answered := false
      reports := s.reports.owe
      echo := s.echo.written seq now
      written := seq }
  | _ => s

/-- The end is told, once the program counts as ended. -/
def checkEnd (vt : Emulator E K C M) (s : Session E K C) (now : ℕ) (keysLeft : Option Bool) :
    Session E K C :=
  match s.exited, s.ending.ended now with
  | none, some exit => s.finish vt exit keysLeft
  | _, _ => s

/-- What may be taken next is settled. -/
def select (s : Session E K C) : Session E K C :=
  let reading := s.exited.isNone && s.ending.outputEnded.isNone
  { s with
    turn := .select
    probing := s.exited.isNone && s.held = [] && (s.ptyRx = [] || !reading) }

/-- A turn of the loop, up to the `select!`. -/
def turnTop (vt : Emulator E K C M) (s : Session E K C) (now : ℕ) (wrote : Wrote)
    (keysLeft : Option Bool) : Session E K C :=
  let s := s.checkEnd vt now keysLeft
  (if s.exited.isNone then s.flush now wrote else s).select

def heldBytes (s : Session E K C) : ℕ :=
  (s.held.map fun shown => match shown with | .out bytes => bytes.length | _ => 0).sum

/-- A chunk, and at most `more` that wait behind it, are read. -/
def readChunks (vt : Emulator E K C M) (s : Session E K C) (now more : ℕ) : Session E K C :=
  (s.ptyRx.take (more + 1)).foldl (output vt)
    { s with ending := { s.ending with lastOutput := some now }, ptyRx := s.ptyRx.drop (more + 1) }

/-- Query answers go to the program, not the screen. -/
def answerHost (vt : Emulator E K C M) (s : Session E K C) : Session E K C :=
  let replies := vt.takeHostReplies s.emu
  { s with answered := true, emu := replies.2, pending := s.pending.reply replies.1 }

/-- The modes are read now, then the output told; or they are to be read soon. -/
def settleOutput (vt : Emulator E K C M) (s : Session E K C) (now : ℕ) (modes : Option TtyModes)
    (atOnce : Bool) : Session E K C :=
  if atOnce then { (s.refreshTty modes).release vt with settle := some (now + ttySettle, ttySettle) }
  else if s.settle.isNone then { s with settle := some (now + ttySettle, ttySettle) }
  else s

def readOutput [DecidableEq M] (vt : Emulator E K C M) (s : Session E K C) (now more : ℕ)
    (modes : Option TtyModes) (activity : Option ℕ → Bool → Bool → Activity) : Session E K C :=
  let heldBytes := s.heldBytes
  let marks := vt.commands s.emu
  let s := (s.readChunks vt now more).answerHost vt
  let echo := s.typedAt.any (now - · < ttySettle)
  let marked := decide (vt.commands s.emu ≠ marks)
  -- An echo, or a mark: the modes now, then the output.
  let s := s.settleOutput vt now modes (echo || marked || heldMost < heldBytes)
  if marked then s.probe vt now .marked activity else s

def serveAsk (vt : Emulator E K C M) (s : Session E K C) : Ask → Session E K C
  | .redraw seen =>
    -- What is held goes first: the redraw shows it, and the events after it must not.
    let s := s.release vt
    s.begin vt (s.historySince vt seen)
  | .ended => if s.exited.isSome then { s with turn := .over } else s
  | .resize attach size =>
    if attach = s.attaches && s.exited.isNone then
      match s.resize vt size s.pending with
      | some (s, pending) => { s with pending := pending }
      | none => s
    else s
  | .other => s

def again (s : Session E K C) : Session E K C := { s with turn := .top }

def blank (emu : E) (policy : Policy) : Session E K C where
  emu := emu
  filter := .new policy
  attaches := 0
  reports := ⟨none, false⟩
  tty := none
  title := ""
  bells := 0
  top := none
  echo := .empty
  written := 0
  exited := none
  typedAt := none
  answered := false
  pending := .empty
  ending := ⟨none, none, none⟩
  settle := none
  held := []
  probing := false
  turn := .top
  ptyRx := []
  ptyEnded := false
  inputRx := []
  asksRx := []
  control := []
  events := []
  starts := []
  inputs := []
  read := []
  source := 0

/-- A session as it starts, its first client attached at `size`. -/
def init (vt : Emulator E K C M) (emu : E) (policy : Policy) (size : Size) (history : ℕ)
    (modes : Option TtyModes) : Session E K C :=
  ((blank emu policy).client vt size history).refreshTty modes

/-- What happens around the session, and what it does at the top of its loop and in the arm
of the `select!` that it takes. -/
def step [DecidableEq M] (vt : Emulator E K C M) (s : Session E K C) :
    SessionMove K C → Option (Session E K C)
  | .program chunk => if s.ptyEnded then none else some { s with ptyRx := s.ptyRx ++ [chunk] }
  | .programEnds => some { s with ptyEnded := true }
  | .send input => if s.inputRx.length < inputQueue then
      some { s with inputRx := s.inputRx ++ [input], inputs := s.inputs ++ [input] } else none
  | .ask ask => if s.asksRx.length < askQueue then some { s with asksRx := s.asksRx ++ [ask] }
    else none
  | .request attach => if s.control.length < controlQueue then
      some { s with control := s.control ++ [attach] } else none
  | .top now wrote keysLeft =>
    if s.turn = .top then some (s.turnTop vt now wrote keysLeft) else none
  | move => if s.turn ≠ .select then none
    else match move with
    | .output now more modes activity =>
      if s.exited.isNone && s.ending.outputEnded.isNone && s.ptyRx ≠ [] && more ≤ outputChunksAtOnce
      then some (s.again.readOutput vt now more modes activity) else none
    | .outputEnd now exit =>
      if s.exited.isNone && s.ending.outputEnded.isNone && s.ptyRx = [] && s.ptyEnded then
        some { s with turn := .top, ending := { s.ending with outputEnded := some now }.seen exit now }
      else none
    | .wake => some s.again
    | .settled now modes => match s.settle with
      | some (due, wait) =>
        if s.exited.isNone && due ≤ now then
          let settle := if 2 * wait < ttyTick then some (now + 2 * wait, 2 * wait) else none
          some (({ s with turn := .top, settle := settle }.refreshTty modes).release vt)
        else none
      | none => none
    | .echoed now =>
      if s.held = [] && s.echo.next.any (· ≤ now) then
        let promoted := s.echo.promote now
        let s := { s with turn := .top, echo := promoted.1 }
        match promoted.2 with
        | some seq =>
          let s := s.release vt
          some (s.publish (.echo s.attaches seq))
        | none => some s
      else none
    | .takeInput => match s.inputRx with
      | input :: inputs =>
        if s.pending.isEmpty || s.exited.isSome then
          let s := { s with turn := .top, inputRx := inputs }
          if input.attach = s.attaches && s.exited.isNone then some (s.apply vt input) else some s
        else none
      | [] => none
    | .takeAsk => match s.asksRx with
      | ask :: asks => some ({ s with turn := .top, asksRx := asks }.serveAsk vt ask)
      | [] => none
    | .takeAttach => match s.control with
      | attach :: control =>
        let s := { s with turn := .top, control := control }.release vt
        some (s.client vt attach.size attach.history)
      | [] => none
    | .tick now exit modes =>
      if s.exited.isNone then
        some ({ s with turn := .top, ending := s.ending.seen exit now }.refreshTty modes)
      else none
    | .poll now activity =>
      if s.probing then some (s.again.probe vt now .poll activity) else some s.again
    | .stop => some { s with turn := .over }
    | _ => none

inductive Steps [DecidableEq M] (vt : Emulator E K C M) (s : Session E K C) :
    SessionMove K C → Session E K C → Prop where
  | program {chunk : Bytes} (hopen : s.ptyEnded = false) :
      Steps vt s (.program chunk) { s with ptyRx := s.ptyRx ++ [chunk] }
  | programEnds : Steps vt s .programEnds { s with ptyEnded := true }
  | send {input : Input K C} (hroom : s.inputRx.length < inputQueue) : Steps vt s (.send input)
      { s with inputRx := s.inputRx ++ [input], inputs := s.inputs ++ [input] }
  | ask {ask : Ask} (hroom : s.asksRx.length < askQueue) :
      Steps vt s (.ask ask) { s with asksRx := s.asksRx ++ [ask] }
  | request {attach : Attach} (hroom : s.control.length < controlQueue) :
      Steps vt s (.request attach) { s with control := s.control ++ [attach] }
  | top {now : ℕ} {wrote : Wrote} {keysLeft : Option Bool} (htop : s.turn = .top) :
      Steps vt s (.top now wrote keysLeft) (s.turnTop vt now wrote keysLeft)
  | output {now more : ℕ} {modes : Option TtyModes} {activity : Option ℕ → Bool → Bool → Activity}
      (hselect : s.turn = .select) (hruns : s.exited = none)
      (hgoing : s.ending.outputEnded = none) (hrx : s.ptyRx ≠ [])
      (hmore : more ≤ outputChunksAtOnce) : Steps vt s (.output now more modes activity)
        (s.again.readOutput vt now more modes activity)
  | outputEnd {now : ℕ} {exit : Option Exit} (hselect : s.turn = .select) (hruns : s.exited = none)
      (hgoing : s.ending.outputEnded = none) (hrx : s.ptyRx = []) (hended : s.ptyEnded = true) :
      Steps vt s (.outputEnd now exit) { s with
        turn := .top
        ending := { s.ending with outputEnded := some now }.seen exit now }
  | wake (hselect : s.turn = .select) : Steps vt s .wake s.again
  | settled {now due wait : ℕ} {modes : Option TtyModes} (hselect : s.turn = .select)
      (hsettle : s.settle = some (due, wait)) (hruns : s.exited = none) (hdue : due ≤ now) :
      Steps vt s (.settled now modes) (release vt (refreshTty { s with
        turn := .top
        settle := if 2 * wait < ttyTick then some (now + 2 * wait, 2 * wait) else none } modes))
  | echoed {now : ℕ} {seq : InputSeq} (hselect : s.turn = .select) (hheld : s.held = [])
      (hdue : s.echo.next.any (· ≤ now) = true) (hseq : (s.echo.promote now).2 = some seq) :
      Steps vt s (.echoed now)
        (let s := release vt { s with turn := .top, echo := (s.echo.promote now).1 }
        s.publish (.echo s.attaches seq))
  | unechoed {now : ℕ} (hselect : s.turn = .select) (hheld : s.held = [])
      (hdue : s.echo.next.any (· ≤ now) = true) (hseq : (s.echo.promote now).2 = none) :
      Steps vt s (.echoed now) { s with turn := .top, echo := (s.echo.promote now).1 }
  | takeInput {input : Input K C} {inputs : List (Input K C)} (hselect : s.turn = .select)
      (hrx : s.inputRx = input :: inputs) (hfree : (s.pending.isEmpty || s.exited.isSome) = true)
      (hown : (input.attach = s.attaches && s.exited.isNone) = true) :
      Steps vt s .takeInput (apply vt { s with turn := .top, inputRx := inputs } input)
  | dropInput {input : Input K C} {inputs : List (Input K C)} (hselect : s.turn = .select)
      (hrx : s.inputRx = input :: inputs) (hfree : (s.pending.isEmpty || s.exited.isSome) = true)
      (hnot : (input.attach = s.attaches && s.exited.isNone) = false) :
      Steps vt s .takeInput { s with turn := .top, inputRx := inputs }
  | takeAsk {ask : Ask} {asks : List Ask} (hselect : s.turn = .select)
      (hrx : s.asksRx = ask :: asks) :
      Steps vt s .takeAsk (serveAsk vt { s with turn := .top, asksRx := asks } ask)
  | takeAttach {attach : Attach} {control : List Attach} (hselect : s.turn = .select)
      (hrx : s.control = attach :: control) : Steps vt s .takeAttach
        (client vt (release vt { s with turn := .top, control := control }) attach.size
          attach.history)
  | tick {now : ℕ} {exit : Option Exit} {modes : Option TtyModes} (hselect : s.turn = .select)
      (hruns : s.exited = none) : Steps vt s (.tick now exit modes)
        (refreshTty { s with turn := .top, ending := s.ending.seen exit now } modes)
  | probe {now : ℕ} {activity : Option ℕ → Bool → Bool → Activity} (hselect : s.turn = .select)
      (hprobing : s.probing = true) :
      Steps vt s (.poll now activity) (s.again.probe vt now .poll activity)
  | poll {now : ℕ} {activity : Option ℕ → Bool → Bool → Activity} (hselect : s.turn = .select)
      (hprobing : s.probing = false) : Steps vt s (.poll now activity) s.again
  | stop (hselect : s.turn = .select) : Steps vt s .stop { s with turn := .over }

/-- The inversion of `step`. -/
theorem steps_of_step [DecidableEq M] {vt : Emulator E K C M} {s s' : Session E K C}
    {m : SessionMove K C} (hstep : s.step vt m = some s') : s.Steps vt m s' := by
  cases m with
  | program | send | ask | request | top =>
    simp only [step] at hstep
    split at hstep <;> cases hstep
    next h =>
    constructor
    simpa using h
  | programEnds =>
    cases hstep
    exact .programEnds
  | wake | stop =>
    simp only [step] at hstep
    split at hstep <;> cases hstep
    next hselect =>
    constructor
    exact not_not.mp hselect
  | output now more modes activity =>
    simp only [step] at hstep
    split at hstep
    · cases hstep
    · next hselect =>
      split at hstep <;> cases hstep
      next h =>
      simp only [Bool.and_eq_true, Option.isNone_iff_eq_none, decide_eq_true_eq] at h
      exact .output (not_not.mp hselect) h.1.1.1 h.1.1.2 h.1.2 h.2
  | outputEnd now exit =>
    simp only [step] at hstep
    split at hstep
    · cases hstep
    · next hselect =>
      split at hstep <;> cases hstep
      next h =>
      simp only [Bool.and_eq_true, Option.isNone_iff_eq_none, decide_eq_true_eq] at h
      exact .outputEnd (not_not.mp hselect) h.1.1.1 h.1.1.2 h.1.2 h.2
  | settled now modes =>
    simp only [step] at hstep
    split at hstep
    · cases hstep
    · next hselect =>
      split at hstep
      · next due wait hsettle =>
        split at hstep <;> cases hstep
        next h =>
        simp only [Bool.and_eq_true, Option.isNone_iff_eq_none, decide_eq_true_eq] at h
        exact .settled (not_not.mp hselect) hsettle h.1 h.2
      · cases hstep
  | echoed now =>
    simp only [step] at hstep
    split at hstep
    · cases hstep
    · next hselect =>
      split at hstep
      · next h =>
        simp only [Bool.and_eq_true, decide_eq_true_eq] at h
        split at hstep <;> cases hstep
        · next seq hseq => exact .echoed (not_not.mp hselect) h.1 h.2 hseq
        · next hseq => exact .unechoed (not_not.mp hselect) h.1 h.2 hseq
      · cases hstep
  | takeInput =>
    simp only [step] at hstep
    split at hstep
    · cases hstep
    · next hselect =>
      split at hstep
      · next input inputs hrx =>
        split at hstep
        · next hfree =>
          split at hstep <;> cases hstep
          · next hown => exact .takeInput (not_not.mp hselect) hrx hfree hown
          · next hnot =>
            exact .dropInput (not_not.mp hselect) hrx hfree (Bool.not_eq_true _ ▸ hnot)
        · cases hstep
      · cases hstep
  | takeAsk =>
    simp only [step] at hstep
    split at hstep
    · cases hstep
    · next hselect =>
      split at hstep <;> cases hstep
      next ask asks hrx => exact .takeAsk (not_not.mp hselect) hrx
  | takeAttach =>
    simp only [step] at hstep
    split at hstep
    · cases hstep
    · next hselect =>
      split at hstep <;> cases hstep
      next attach control hrx => exact .takeAttach (not_not.mp hselect) hrx
  | tick now exit modes =>
    simp only [step] at hstep
    split at hstep
    · cases hstep
    · next hselect =>
      split at hstep <;> cases hstep
      next hruns => exact .tick (not_not.mp hselect) (Option.isNone_iff_eq_none.mp hruns)
  | poll now activity =>
    simp only [step] at hstep
    split at hstep
    · cases hstep
    · next hselect =>
      split at hstep <;> cases hstep
      · next hprobing => exact .probe (not_not.mp hselect) hprobing
      · next hprobing => exact .poll (not_not.mp hselect) (Bool.not_eq_true _ ▸ hprobing)

end Session

end Koh.Server
