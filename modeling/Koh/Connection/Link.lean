import Koh.Client.Wire

/-!
# A connection, and both its ends

What a client is shown on one connection: the server's loop and an epoch's writer at one
end, the reader and the loop of the client at the other, the epochs' streams and the control
stream between them.

## Main definitions

- `Closed`: who closed the connection
- `Link`: both ends, and what is between them
- `Link.step`: what either end does next, or the network
- `Link.Steps`: what a move does, and when it is made

## Design notes

The session is outside: its events and the starts of redraws come with the moves. The
connection closes once, for both ends: nothing more is written then, but what was written may
still be read. `told` and `log` are no part of the code: whether
the session was told of the end, and for each top seen the messages queued before it, and
those the client had then.
-/

namespace Koh.Connection

open Koh.Lib Koh.Server Koh.Client

variable {K C : Type}

inductive Closed where
  /-- The client, saying the session ended; or leaving. -/
  | ended
  | left
  | server
  | lost
  deriving DecidableEq

structure Link (K C : Type) where
  server : Serving
  client : Wire K C
  /-- What each epoch's stream carries. -/
  streams : ℕ → List Shown
  /-- Written on the control stream, and not read. -/
  coming : List (ClientMsg K C)
  closed : Option Closed
  log : List (List Shown × List Shown)

inductive LinkMove (K C : Type) where
  /-- The server's loop, at the top; a redraw is asked of the session, and answered. -/
  | top
  | ask
  | redrawn (now : ℕ) (shown : List Shown) (top : Option RowId)
  /-- The arms of its `select!`: an event, or its receiver fell behind; the writer is done;
  the end was not delivered in time; a beat; the control stream; the connection or the
  session is gone; another. -/
  | event (now : ℕ) (event : Event)
  | lagged
  | delivered (all : Bool)
  | undelivered
  | beat (now : ℕ)
  | take (now rtt count : ℕ)
  | gone
  | other
  /-- The session is told that the client has its end. -/
  | tell
  /-- An epoch's writer. -/
  | write
  /-- The client: a stream is taken, a chunk of it read, what was read handed to the loop
  and taken; the window is resized, or a redraw asked; control messages are written; the
  run ends. -/
  | accept (epoch : ℕ)
  | chunk (count : ℕ)
  | hand
  | hear
  | resize (n : ℕ) (size : Size)
  | askRedraw
  | control
  | quit
  | lose

namespace Link

/-- A connection of attachment `attach`, from `shown` and `top`. -/
def init (body : Shown → ℕ) (attach : ℕ) (shown : List Shown) (top : Option RowId) (now : ℕ) :
    Link K C where
  server := .serve body attach shown top now
  client := .open_
  streams := fun _ => []
  coming := []
  closed := none
  log := []

/-- The messages of an epoch that the client had. -/
def decoded (s : Link K C) (epoch : ℕ) : List Shown :=
  if s.client.reader.epoch = epoch then s.client.reader.decoded else []

/-- The bytes of an epoch's messages that the client took off its stream. -/
def taken (s : Link K C) (epoch : ℕ) : ℕ :=
  if s.client.reader.epoch = epoch then s.client.reader.taken else 0

def queued (s : Link K C) : List Shown := s.streams s.server.epoch.n ++ s.server.epoch.queue

def turned (s : Link K C) (turn : ServeTurn) : Link K C :=
  { s with server := { s.server with turn := turn } }

def close (s : Link K C) (why : Closed) : Link K C := { s with closed := s.closed.or (some why) }

/-- The server's loop is left: a client that has the end closes saying so. -/
def leave (s : Link K C) : Link K C :=
  if s.server.exited && !s.server.told && s.closed = some .ended then s.turned .telling
  else (s.turned .over).close .server

/-- What the control stream brought is taken. -/
def takeMsg (now rtt : ℕ) (server : Serving) : ClientMsg K C → Serving
  | .read n bytes =>
    if n = server.epoch.n then { server with
      epoch := { server.epoch with pace := server.epoch.pace.readTo bytes now rtt } }
    else server
  | .redraw => { server with redraw := true }
  | _ => server

def listens (s : Link K C) : Bool :=
  s.server.turn = .select && !s.server.exited && s.server.epoch.room

def step (body : Shown → ℕ) (s : Link K C) : LinkMove K C → Option (Link K C)
  | .top => if s.server.turn = .top then
      some { s with
        server := s.server.atTop
        log := s.log ++ s.server.passed.map fun mark => (mark.before, s.decoded s.server.epoch.n) }
    else none
  | .ask => if s.server.turn = .asking then some (s.turned .awaiting) else none
  | .redrawn now shown top => if s.server.turn = .awaiting then
      some { s with
        server := s.server.begin_ body (s.server.epoch.n + 1) shown top now }
    else none
  | .event now event => if s.listens then
      some { s with server := s.server.event body s.queued now event } else none
  | .lagged => if s.listens then
      some { s with server := { s.server with turn := .top, redraw := true } } else none
  -- The writer is done, or the client closed saying that it has the end.
  | .delivered true =>
    if s.server.turn = .select && s.server.exited &&
        (s.closed = some .ended || s.server.epoch.queue = [] && s.server.epoch.finished) then
      some (s.turned .telling)
    else none
  | .delivered false =>
    if s.server.turn = .select && s.server.exited && s.closed ≠ some .ended then
      some (s.close .server).leave
    else none
  | .undelivered => if s.server.turn = .select && s.server.exited then
      some (s.close .server).leave else none
  | .beat now =>
    if s.listens && s.server.epoch.lastWrite + heartbeat ≤ now then
      some { s with server := { s.server with
        turn := .top
        epoch := s.server.epoch.send body .beat now } }
    else none
  | .take now rtt count => if s.server.turn = .select then
      some { s with
        server := (s.coming.take count).foldl (takeMsg now rtt) { s.server with turn := .top }
        coming := s.coming.drop count }
    else none
  | .gone => match s.server.turn with
    | .asking | .awaiting | .select => some s.leave
    | _ => none
  | .other => if s.server.turn = .select then some (s.turned .top) else none
  | .tell => if s.server.turn = .telling then
      some ({ s with server := { s.server with turn := .over, told := true } }.close .server)
    else none
  | .write => match s.server.epoch.queue with
    | msg :: queue => if s.closed.isSome then none else
      some { s with
        server := { s.server with epoch := { s.server.epoch with queue := queue } }
        streams := Function.update s.streams s.server.epoch.n
          (s.streams s.server.epoch.n ++ [msg]) }
    | [] => none
  | .accept epoch =>
    if s.client.reader.epoch < epoch && epoch ≤ s.server.epoch.n then
      some { s with client := { s.client with reader := .new epoch } } else none
  | .chunk count =>
    let r := s.client.reader
    if r.pending = [] && 0 < count && count ≤ chunkMost &&
        r.taken + count ≤ total (framed body) (s.streams r.epoch) then
      some { s with client := { s.client with reader := r.chunk body (s.streams r.epoch) count } }
    else none
  | .hand => match s.client.reader.pending with
    | item :: pending => if s.client.rx.length < readerQueue then
        some { s with client := { s.client with
          reader := { s.client.reader with pending := pending }
          rx := s.client.rx ++ [item] } }
      else none
    | [] => none
  | .hear => if s.client.left then none else match s.client.rx with
    | item :: rx =>
      let s' : Link K C := { s with client := { s.client with rx := rx }.heard item }
      some (if item.isEnd s.client.epoch then s'.close .ended else s')
    | [] => none
  | .resize n size => if s.client.left then none else
      some { s with client := s.client.send (.resize n size) }
  | .askRedraw => if s.client.left then none else some { s with client := s.client.send .redraw }
  | .control => match s.client.control with
    | msg :: control => if s.closed.isSome then none else
      some { s with client := { s.client with control := control }, coming := s.coming ++ [msg] }
    | [] => none
  | .quit => if s.client.left then none else
      some ({ s with client := { s.client with left := true } }.close .left)
  | .lose => some (s.close .lost)

/-- The loop listens only in its `select!`. -/
theorem turn_of_listens {s : Link K C} (h : s.listens = true) : s.server.turn = .select := by
  simp only [listens, Bool.and_eq_true, decide_eq_true_eq] at h
  exact h.1.1

inductive Steps (body : Shown → ℕ) (s : Link K C) : LinkMove K C → Link K C → Prop where
  | top (htop : s.server.turn = .top) : Steps body s .top { s with
      server := s.server.atTop
      log := s.log ++ s.server.passed.map fun mark => (mark.before, s.decoded s.server.epoch.n) }
  | ask (hasking : s.server.turn = .asking) : Steps body s .ask (s.turned .awaiting)
  | redrawn {now : ℕ} {shown : List Shown} {top : Option RowId}
      (hawaiting : s.server.turn = .awaiting) : Steps body s (.redrawn now shown top) { s with
        server := s.server.begin_ body (s.server.epoch.n + 1) shown top now }
  | event {now : ℕ} {event : Event} (hlistens : s.listens = true) :
      Steps body s (.event now event) { s with server := s.server.event body s.queued now event }
  | lagged (hlistens : s.listens = true) :
      Steps body s .lagged { s with server := { s.server with turn := .top, redraw := true } }
  | delivered (hselect : s.server.turn = .select) (hexited : s.server.exited = true)
      (hdone : s.closed = some .ended ∨ s.server.epoch.queue = [] ∧ s.server.epoch.finished = true) :
      Steps body s (.delivered true) (s.turned .telling)
  | failed (hselect : s.server.turn = .select) (hexited : s.server.exited = true)
      (hnot : s.closed ≠ some .ended) : Steps body s (.delivered false) (s.close .server).leave
  | undelivered (hselect : s.server.turn = .select) (hexited : s.server.exited = true) :
      Steps body s .undelivered (s.close .server).leave
  | beat {now : ℕ} (hlistens : s.listens = true)
      (hlate : s.server.epoch.lastWrite + heartbeat ≤ now) :
      Steps body s (.beat now) { s with server := { s.server with
        turn := .top
        epoch := s.server.epoch.send body .beat now } }
  | take {now rtt count : ℕ} (hselect : s.server.turn = .select) :
      Steps body s (.take now rtt count) { s with
        server := (s.coming.take count).foldl (takeMsg now rtt) { s.server with turn := .top }
        coming := s.coming.drop count }
  | gone (hturn : s.server.turn = .asking ∨ s.server.turn = .awaiting ∨ s.server.turn = .select) :
      Steps body s .gone s.leave
  | other (hselect : s.server.turn = .select) : Steps body s .other (s.turned .top)
  | tell (htelling : s.server.turn = .telling) : Steps body s .tell
      ({ s with server := { s.server with turn := .over, told := true } }.close .server)
  | write {msg : Shown} {queue : List Shown} (hqueue : s.server.epoch.queue = msg :: queue)
      (hopen : s.closed.isSome = false) : Steps body s .write { s with
        server := { s.server with epoch := { s.server.epoch with queue := queue } }
        streams := Function.update s.streams s.server.epoch.n
          (s.streams s.server.epoch.n ++ [msg]) }
  | accept {epoch : ℕ} (hnewer : s.client.reader.epoch < epoch)
      (hopened : epoch ≤ s.server.epoch.n) : Steps body s (.accept epoch)
        { s with client := { s.client with reader := .new epoch } }
  | chunk {count : ℕ} (hpending : s.client.reader.pending = []) (hpos : 0 < count)
      (hmost : count ≤ chunkMost) (hthere : s.client.reader.taken + count ≤
        total (framed body) (s.streams s.client.reader.epoch)) :
      Steps body s (.chunk count) { s with client := { s.client with
        reader := s.client.reader.chunk body (s.streams s.client.reader.epoch) count } }
  | hand {item : FromServer} {pending : List FromServer}
      (hpending : s.client.reader.pending = item :: pending)
      (hroom : s.client.rx.length < readerQueue) :
      Steps body s .hand { s with client := { s.client with
        reader := { s.client.reader with pending := pending }
        rx := s.client.rx ++ [item] } }
  | hear {item : FromServer} {rx : List FromServer} (hleft : s.client.left = false)
      (hrx : s.client.rx = item :: rx) (hmore : item.isEnd s.client.epoch = false) :
      Steps body s .hear { s with client := { s.client with rx := rx }.heard item }
  | ended {item : FromServer} {rx : List FromServer} (hleft : s.client.left = false)
      (hrx : s.client.rx = item :: rx) (hend : item.isEnd s.client.epoch = true) :
      Steps body s .hear
        ({ s with client := { s.client with rx := rx }.heard item }.close .ended)
  | resize {n : ℕ} {size : Size} (hleft : s.client.left = false) :
      Steps body s (.resize n size) { s with client := s.client.send (.resize n size) }
  | askRedraw (hleft : s.client.left = false) :
      Steps body s .askRedraw { s with client := s.client.send .redraw }
  | control {msg : ClientMsg K C} {control : List (ClientMsg K C)}
      (hcontrol : s.client.control = msg :: control) (hopen : s.closed.isSome = false) :
      Steps body s .control { s with
        client := { s.client with control := control }
        coming := s.coming ++ [msg] }
  | quit (hleft : s.client.left = false) :
      Steps body s .quit ({ s with client := { s.client with left := true } }.close .left)
  | lose : Steps body s .lose (s.close .lost)

/-- The inversion of `step`. -/
theorem steps_of_step {body : Shown → ℕ} {s s' : Link K C} {m : LinkMove K C}
    (hstep : s.step body m = some s') : s.Steps body m s' := by
  cases m with
  | top | ask | redrawn | event | lagged | other | tell | take =>
    simp only [step] at hstep
    split at hstep <;> cases hstep
    next hturn =>
    constructor
    exact hturn
  | beat now =>
    simp only [step] at hstep
    split at hstep <;> cases hstep
    next hbeat =>
    rw [Bool.and_eq_true, decide_eq_true_eq] at hbeat
    exact .beat hbeat.1 hbeat.2
  | delivered all =>
    cases all
    · simp only [step] at hstep
      split at hstep <;> cases hstep
      next hselect =>
      simp only [Bool.and_eq_true, decide_eq_true_eq] at hselect
      exact .failed hselect.1.1 hselect.1.2 hselect.2
    · simp only [step] at hstep
      split at hstep <;> cases hstep
      next hselect =>
      simp only [Bool.and_eq_true, Bool.or_eq_true, decide_eq_true_eq] at hselect
      exact .delivered hselect.1.1 hselect.1.2 hselect.2
  | undelivered =>
    simp only [step] at hstep
    split at hstep <;> cases hstep
    next hselect =>
    simp only [Bool.and_eq_true, decide_eq_true_eq] at hselect
    exact .undelivered hselect.1 hselect.2
  | gone =>
    simp only [step] at hstep
    split at hstep <;> cases hstep
    all_goals
      next hturn => exact .gone (by simp [hturn])
  | write =>
    simp only [step] at hstep
    split at hstep
    · next msg queue hqueue =>
      split at hstep <;> cases hstep
      next hopen => exact .write hqueue (Bool.not_eq_true _ ▸ hopen)
    · cases hstep
  | accept epoch =>
    simp only [step] at hstep
    split at hstep <;> cases hstep
    next haccept =>
    simp only [Bool.and_eq_true, decide_eq_true_eq] at haccept
    exact .accept haccept.1 haccept.2
  | chunk count =>
    simp only [step] at hstep
    split at hstep <;> cases hstep
    next hchunk =>
    simp only [Bool.and_eq_true, decide_eq_true_eq] at hchunk
    exact .chunk hchunk.1.1.1 hchunk.1.1.2 hchunk.1.2 hchunk.2
  | hand =>
    simp only [step] at hstep
    split at hstep
    · next item pending hpending =>
      split at hstep <;> cases hstep
      next hroom => exact .hand hpending hroom
    · cases hstep
  | hear =>
    simp only [step] at hstep
    split at hstep
    · cases hstep
    · next hleft =>
      rw [Bool.not_eq_true] at hleft
      split at hstep
      · next item rx hrx =>
        split at hstep <;> cases hstep
        · next hend => exact .ended hleft hrx hend
        · next hmore => exact .hear hleft hrx (by simpa using hmore)
      · cases hstep
  | resize | askRedraw | quit =>
    simp only [step] at hstep
    split at hstep <;> cases hstep
    next hleft =>
    constructor
    simpa using hleft
  | control =>
    simp only [step] at hstep
    split at hstep
    · next msg control hcontrol =>
      split at hstep <;> cases hstep
      next hopen => exact .control hcontrol (by simpa using hopen)
    · cases hstep
  | lose =>
    cases hstep
    exact .lose

end Link

end Koh.Connection
