import Koh.Server.Echo
import Koh.Server.Queues
import Mathlib.Logic.Function.Basic

/-!
# Typing and resizes

A client's streams as `serve` takes them, from `server/attach.rs`, together with the
session they are for: resizes go to the session's asks, keys to its input, and its
`select!` takes from either.

## Main definitions

- `ClientMsg`, `FromClient`, `Asked`: what a client writes, and what the server makes of it
- `Conn`: an attachment's loop, as far as its client's streams go
- `Typing`, `Typing.step`: a session and its attachments, and what any of them does next
- `Typing.Steps`: what a move does, and when it is made
- `Typing.Waits`: the window that brings a resize waits to be taken
- `Typing.inOrder`: the session takes no keys before that window

## Main results

- `Typing.takeAsk_logs`, `Typing.takeInput_logs`: what is logged is what the session applies
- `Typing.keys_after_resize`: in runs in order, keys are taken after the resizes before them
- `Typing.keys_overtake`: a run in which they are not

## Design notes

Attachment `a`'s loop is `conns a`. What the client is shown is no part of it (`Read`
messages change only that), nor is the wait for a redraw's start. Resizes are numbered from 1.
`behind`, `handed`, `asks`, `keys` and `log` are no part of the code: the newest resize taken off a
stream, the newest whose window was handed on, which resizes an ask in the session's queue brings,
which one the keys in its queue are behind, and what the session took.
-/

namespace Koh.Server

open Koh.Stream Koh.Lib

variable {E K C M : Type}

inductive ClientMsg (K C : Type) where
  | resize (n : ℕ) (size : Size)
  | keys (seq : InputSeq) (events : List K)
  | colours (colours : C)
  | read (epoch bytes : ℕ)
  | redraw
  deriving DecidableEq

/-- Bounds on a peer-controlled geometry. -/
def minDim : ℕ := 2

def maxDim : ℕ := 1000

def clampDims (size : Size) : Size where
  rows := min (max size.rows minDim) maxDim
  cols := min (max size.cols minDim) maxDim

/-- What the client asked beside input. -/
structure Asked where
  /-- The newest resize's number. -/
  resized : ℕ
  /-- A window the session has yet to take. -/
  window : Option Size
  /-- A new epoch, redrawn. -/
  redraw : Bool
  deriving DecidableEq

/-- One of the client's streams as the server reads it. -/
structure FromClient (K C : Type) where
  /-- Written by the client, and not read. -/
  coming : List (ClientMsg K C)
  /-- Read, and not taken. -/
  decoder : List (ClientMsg K C)
  /-- Input decoded when the session had no room for it. -/
  waiting : Option (ToSession K C)
  /-- The newest resize taken off the stream. -/
  behind : ℕ
  deriving DecidableEq

namespace FromClient

def empty : FromClient K C := ⟨[], [], none, 0⟩

/-- Take the messages decoded, up to the first that is input. -/
def takeFrom : List (ClientMsg K C) → FromClient K C → Asked → FromClient K C × Asked
  | [], f, asked => ({ f with decoder := [] }, asked)
  | msg :: rest, f, asked => match msg with
    | .read _ _ => takeFrom rest f asked
    | .resize n size =>
      takeFrom rest { f with behind := max f.behind n }
        (if asked.resized < n then { asked with resized := n, window := some (clampDims size) }
        else asked)
    | .redraw => takeFrom rest f { asked with redraw := true }
    | .keys seq events => ({ f with decoder := rest, waiting := some (.events seq events) }, asked)
    | .colours colours => ({ f with decoder := rest, waiting := some (.colours colours) }, asked)

def take (f : FromClient K C) (asked : Asked) : FromClient K C × Asked :=
  takeFrom f.decoder f asked

end FromClient

inductive ConnTurn where
  | top
  | select
  | over
  deriving DecidableEq

structure Conn (K C : Type) where
  /-- The client's first stream, and the one for input. -/
  control : FromClient K C
  input : FromClient K C
  asked : Asked
  turn : ConnTurn
  /-- The newest resize whose window was handed to the session. -/
  handed : ℕ
  deriving DecidableEq

namespace Conn

def new : Conn K C := ⟨.empty, .empty, ⟨0, none, false⟩, .top, 0⟩

/-- One of the two streams: the second if `second`. -/
def stream (c : Conn K C) (second : Bool) : FromClient K C := if second then c.input else c.control

def setStream (c : Conn K C) (second : Bool) (f : FromClient K C) : Conn K C :=
  if second then { c with input := f } else { c with control := f }

def takeStream (c : Conn K C) (second : Bool) (f : FromClient K C) : Conn K C :=
  let taken := f.take c.asked
  { c.setStream second taken.1 with asked := taken.2, turn := .top }

/-- The stream whose input waits, the first if both have some. -/
def waiting (c : Conn K C) : Option (Bool × ToSession K C) :=
  (c.control.waiting.map (false, ·)).or (c.input.waiting.map (true, ·))

end Conn

/-- What the session took of an attachment's. -/
inductive Applied where
  /-- A window, which resize `n` brought. -/
  | resized (attach n : ℕ)
  /-- Keys that the client wrote behind resize `behind`. -/
  | keys (attach behind : ℕ)
  deriving DecidableEq

structure Typing (E K C : Type) where
  session : Session E K C
  conns : ℕ → Conn K C
  /-- For each ask in the session's queue, the resizes it brings: from after one up to the
  other. -/
  asks : List (ℕ × ℕ)
  /-- For each input in the session's queue, the resize it is behind. -/
  keys : List ℕ
  log : List Applied

inductive TypingMove (K C : Type) where
  /-- The session does, or those around it but its attachments. -/
  | session (m : SessionMove K C)
  /-- Something else is asked of the session. -/
  | ask (ask : Ask)
  /-- Attachment `a`'s client writes a message. -/
  | write (a : ℕ) (second : Bool) (msg : ClientMsg K C)
  /-- At the top of its loop: it asks a redraw (none once it told the end), and hands on
  the window. -/
  | redraw (a : ℕ) (exited : Bool)
  | window (a : ℕ)
  /-- The arms of its `select!`: input is handed on, a stream is read, or another, which may
  find that it fell behind. -/
  | reserve (a : ℕ)
  | read (a : ℕ) (second : Bool) (count : ℕ)
  | other (a : ℕ) (lagged : Bool)
  | close (a : ℕ)

def ToSession.isKeys : ToSession K C → Bool
  | .events _ _ => true
  | .colours _ => false

namespace Typing

/-- A session with its first client, none of whose messages came yet. -/
def init (session : Session E K C) : Typing E K C where
  session := session
  conns := fun _ => .new
  asks := []
  keys := []
  log := []

/-- An ask that is a window of attachment `a`'s. -/
def isWindow (a : ℕ) : Ask → Bool
  | .resize attach _ => attach = a
  | _ => false

def setConn (s : Typing E K C) (a : ℕ) (c : Conn K C) : Typing E K C :=
  { s with conns := Function.update s.conns a c }

/-- Whether there is an attachment `a`, its loop at `turn`. -/
def at_ (s : Typing E K C) (a : ℕ) (turn : ConnTurn) : Bool :=
  0 < a && a ≤ s.session.attaches && (s.conns a).turn = turn

/-- What the session takes next is noted. -/
def noted (s : Typing E K C) : SessionMove K C → Typing E K C
  | .takeInput => match s.session.inputRx, s.keys with
    | input :: _, behind :: keys =>
      if input.attach = s.session.attaches && s.session.exited.isNone && input.input.isKeys then
        { s with keys := keys, log := s.log ++ [.keys input.attach behind] }
      else { s with keys := keys }
    | _, _ => s
  | .takeAsk => match s.session.asksRx, s.asks with
    | ask :: _, brings :: asks =>
      if isWindow s.session.attaches ask && s.session.exited.isNone then
        { s with asks := asks, log := s.log ++ [.resized s.session.attaches brings.2] }
      else { s with asks := asks }
    | _, _ => s
  | _ => s

/-- Whether a move is the session's, or of those around it but its attachments. -/
def isSessions : SessionMove K C → Bool
  | .send _ | .ask _ => false
  | _ => true

def step [DecidableEq M] (vt : Emulator E K C M) (s : Typing E K C) :
    TypingMove K C → Option (Typing E K C)
  | .session m =>
    if isSessions m then
      (s.session.step vt m).map fun session => { s.noted m with session := session }
    else none
  | .ask ask =>
    if (match ask with | .resize _ _ => true | _ => false) then none
    else (s.session.step vt (.ask ask)).map fun session =>
      { s with session := session, asks := s.asks ++ [(0, 0)] }
  | .write a second msg =>
    if 0 < a && a ≤ s.session.attaches then
      let c := s.conns a
      let f := c.stream second
      some (s.setConn a (c.setStream second { f with coming := f.coming ++ [msg] }))
    else none
  | .redraw a exited =>
    let c := s.conns a
    if s.at_ a .top && c.asked.redraw then
      let s := s.setConn a { c with asked := { c.asked with redraw := false } }
      if exited then some s
      else (s.session.step vt (.ask (.redraw none))).map fun session =>
        { s with session := session, asks := s.asks ++ [(0, 0)] }
    else none
  | .window a =>
    let c := s.conns a
    if s.at_ a .top && !c.asked.redraw then
      match c.asked.window with
      | none => some (s.setConn a { c with turn := .select })
      | some size => match s.session.step vt (.ask (.resize a size)) with
        -- Taken at the next pass if the session's asks are full.
        | none => some (s.setConn a { c with turn := .select })
        | some session => some ({ s with
            session := session
            asks := s.asks ++ [(c.handed, c.asked.resized)] }.setConn a { c with
              asked := { c.asked with window := none }
              handed := c.asked.resized
              turn := .select })
    else none
  | .reserve a =>
    let c := s.conns a
    if s.at_ a .select then
      match c.waiting with
      | some (second, input) =>
        (s.session.step vt (.send ⟨a, input⟩)).map fun session =>
          let f := c.stream second
          { s with session := session, keys := s.keys ++ [f.behind] }.setConn a
            (c.takeStream second { f with waiting := none })
      | none => none
    else none
  | .read a second count =>
    let c := s.conns a
    let f := c.stream second
    if s.at_ a .select && f.waiting.isNone then
      some (s.setConn a (c.takeStream second { f with
        coming := f.coming.drop count
        decoder := f.decoder ++ f.coming.take count }))
    else none
  | .other a lagged =>
    let c := s.conns a
    if s.at_ a .select then
      some (s.setConn a { c with
        asked := { c.asked with redraw := c.asked.redraw || lagged }
        turn := .top })
    else none
  | .close a =>
    if s.at_ a .select || s.at_ a .top then some (s.setConn a { s.conns a with turn := .over })
    else none

inductive Steps [DecidableEq M] (vt : Emulator E K C M) (s : Typing E K C) :
    TypingMove K C → Typing E K C → Prop where
  | session {m : SessionMove K C} {session : Session E K C} (hown : isSessions m = true)
      (hsession : s.session.step vt m = some session) :
      Steps vt s (.session m) { s.noted m with session := session }
  | ask {ask : Ask} {session : Session E K C} (hother : ∀ a size, ask ≠ .resize a size)
      (hsession : s.session.step vt (.ask ask) = some session) :
      Steps vt s (.ask ask) { s with session := session, asks := s.asks ++ [(0, 0)] }
  | write {a : ℕ} {second : Bool} {msg : ClientMsg K C} (hpos : 0 < a)
      (hattach : a ≤ s.session.attaches) : Steps vt s (.write a second msg)
        (s.setConn a ((s.conns a).setStream second { (s.conns a).stream second with
          coming := ((s.conns a).stream second).coming ++ [msg] }))
  | told {a : ℕ} (htop : s.at_ a .top = true) (hredraw : (s.conns a).asked.redraw = true) :
      Steps vt s (.redraw a true) (s.setConn a { s.conns a with
        asked := { (s.conns a).asked with redraw := false } })
  | redraw {a : ℕ} {session : Session E K C} (htop : s.at_ a .top = true)
      (hredraw : (s.conns a).asked.redraw = true)
      (hsession : s.session.step vt (.ask (.redraw none)) = some session) :
      Steps vt s (.redraw a false) { s.setConn a { s.conns a with
          asked := { (s.conns a).asked with redraw := false } } with
        session := session
        asks := s.asks ++ [(0, 0)] }
  | pass {a : ℕ} (htop : s.at_ a .top = true) (hredraw : (s.conns a).asked.redraw = false)
      (hnone : ∀ size ∈ (s.conns a).asked.window, s.session.step vt (.ask (.resize a size)) = none) :
      Steps vt s (.window a) (s.setConn a { s.conns a with turn := .select })
  | window {a : ℕ} {size : Size} {session : Session E K C} (htop : s.at_ a .top = true)
      (hredraw : (s.conns a).asked.redraw = false) (hwindow : (s.conns a).asked.window = some size)
      (hsession : s.session.step vt (.ask (.resize a size)) = some session) :
      Steps vt s (.window a) ({ s with
          session := session
          asks := s.asks ++ [((s.conns a).handed, (s.conns a).asked.resized)] }.setConn a
        { s.conns a with
          asked := { (s.conns a).asked with window := none }
          handed := (s.conns a).asked.resized
          turn := .select })
  | reserve {a : ℕ} {second : Bool} {input : ToSession K C} {session : Session E K C}
      (hselect : s.at_ a .select = true) (hwaiting : (s.conns a).waiting = some (second, input))
      (hsession : s.session.step vt (.send ⟨a, input⟩) = some session) :
      Steps vt s (.reserve a) ({ s with
          session := session
          keys := s.keys ++ [((s.conns a).stream second).behind] }.setConn a
        ((s.conns a).takeStream second { (s.conns a).stream second with waiting := none }))
  | read {a count : ℕ} {second : Bool} (hselect : s.at_ a .select = true)
      (hnone : ((s.conns a).stream second).waiting.isNone = true) :
      Steps vt s (.read a second count)
        (s.setConn a ((s.conns a).takeStream second { (s.conns a).stream second with
          coming := ((s.conns a).stream second).coming.drop count
          decoder := ((s.conns a).stream second).decoder ++
            ((s.conns a).stream second).coming.take count }))
  | other {a : ℕ} {lagged : Bool} (hselect : s.at_ a .select = true) :
      Steps vt s (.other a lagged) (s.setConn a { s.conns a with
        asked := { (s.conns a).asked with redraw := (s.conns a).asked.redraw || lagged }
        turn := .top })
  | close {a : ℕ} (hturn : s.at_ a .select = true ∨ s.at_ a .top = true) :
      Steps vt s (.close a) (s.setConn a { s.conns a with turn := .over })

/-- The inversion of `step`. -/
theorem steps_of_step [DecidableEq M] {vt : Emulator E K C M} {s s' : Typing E K C}
    {m : TypingMove K C} (hstep : s.step vt m = some s') : s.Steps vt m s' := by
  cases m with
  | session m =>
    simp only [step] at hstep
    split at hstep
    · next hown =>
      obtain ⟨session, hsession, rfl⟩ := Option.map_eq_some_iff.mp hstep
      exact .session hown hsession
    · cases hstep
  | ask ask =>
    simp only [step] at hstep
    split at hstep
    · cases hstep
    · next hnot =>
      obtain ⟨session, hsession, rfl⟩ := Option.map_eq_some_iff.mp hstep
      exact .ask hnot hsession
  | write a second msg =>
    simp only [step] at hstep
    split at hstep
    · next hattach =>
      cases hstep
      simp only [Bool.and_eq_true, decide_eq_true_eq] at hattach
      exact .write hattach.1 hattach.2
    · cases hstep
  | redraw a exited =>
    simp only [step] at hstep
    split at hstep
    · next htop =>
      obtain ⟨htop, hredraw⟩ := Bool.and_eq_true_iff.mp htop
      split at hstep
      · next hexited =>
        subst hexited
        cases hstep
        exact .told htop hredraw
      · next hgoes =>
        rw [Bool.not_eq_true] at hgoes
        subst hgoes
        obtain ⟨session, hsession, rfl⟩ := Option.map_eq_some_iff.mp hstep
        exact .redraw htop hredraw hsession
    · cases hstep
  | window a =>
    simp only [step] at hstep
    split at hstep
    · next htop =>
      obtain ⟨htop, hredraw⟩ := Bool.and_eq_true_iff.mp htop
      rw [Bool.not_eq_true'] at hredraw
      split at hstep
      · next hwindow =>
        cases hstep
        exact .pass htop hredraw (by simp [hwindow])
      · next size hwindow =>
        split at hstep
        · next hfull =>
          cases hstep
          exact .pass htop hredraw (by simpa [hwindow] using hfull)
        · next hsession => cases hstep; exact .window htop hredraw hwindow hsession
    · cases hstep
  | reserve a =>
    simp only [step] at hstep
    split at hstep
    · next hselect =>
      split at hstep
      · next hwaiting =>
        obtain ⟨session, hsession, rfl⟩ := Option.map_eq_some_iff.mp hstep
        exact .reserve hselect hwaiting hsession
      · cases hstep
    · cases hstep
  | read a second count =>
    simp only [step] at hstep
    split at hstep
    · next hselect =>
      cases hstep
      obtain ⟨hselect, hnone⟩ := Bool.and_eq_true_iff.mp hselect
      exact .read hselect hnone
    · cases hstep
  | other a lagged =>
    simp only [step] at hstep
    split at hstep
    · next hselect => cases hstep; exact .other hselect
    · cases hstep
  | close a =>
    simp only [step] at hstep
    split at hstep
    · next hturn => cases hstep; exact .close (Bool.or_eq_true_iff.mp hturn)
    · cases hstep

/-- An ask in the session's queue brings resize `k` of attachment `a`'s. -/
def Brings (a k : ℕ) (e : Ask × ℕ × ℕ) : Prop := isWindow a e.1 = true ∧ e.2.1 < k ∧ k ≤ e.2.2

instance (a k : ℕ) (e : Ask × ℕ × ℕ) : Decidable (Brings a k e) :=
  inferInstanceAs (Decidable (_ ∧ _ ∧ _))

/-- The window that brings resize `k` of attachment `a`'s waits: in its loop, or in the
session's queue. -/
def Waits (s : Typing E K C) (a k : ℕ) : Prop :=
  (s.conns a).handed < k ∧ k ≤ (s.conns a).asked.resized ∨
    ∃ e ∈ s.session.asksRx.zip s.asks, Brings a k e

instance (s : Typing E K C) (a k : ℕ) : Decidable (s.Waits a k) :=
  inferInstanceAs (Decidable (_ ∨ ∃ e ∈ _, Brings a k e))

/-- Whether the session takes no keys whose resize waits. -/
def inOrder (s : Typing E K C) : TypingMove K C → Bool
  | .session .takeInput => match s.session.inputRx, s.keys with
    | input :: _, behind :: _ =>
      !(input.attach = s.session.attaches && s.session.exited.isNone && input.input.isKeys) ||
        !decide (s.Waits input.attach behind)
    | _, _ => true
  | _ => true

end Typing

/-! ### Keys and the resizes before them -/

/-- The resizes only go up, and without a window there was none to hand on. -/
theorem FromClient.takeFrom_spec (msgs : List (ClientMsg K C)) (f : FromClient K C) (asked : Asked)
    (hbehind : f.behind ≤ asked.resized) :
    (takeFrom msgs f asked).1.behind ≤ (takeFrom msgs f asked).2.resized ∧
      asked.resized ≤ (takeFrom msgs f asked).2.resized ∧
      ((takeFrom msgs f asked).2.window = none →
        asked.window = none ∧ (takeFrom msgs f asked).2.resized = asked.resized) := by
  induction msgs generalizing f asked with
  | nil => exact ⟨hbehind, le_refl _, fun h => ⟨h, rfl⟩⟩
  | cons msg rest ih =>
    cases msg with
    | read epoch bytes => exact ih f asked hbehind
    | redraw => exact ih f { asked with redraw := true } hbehind
    | keys seq events => exact ⟨hbehind, le_refl _, fun h => ⟨h, rfl⟩⟩
    | colours colours => exact ⟨hbehind, le_refl _, fun h => ⟨h, rfl⟩⟩
    | resize n size =>
      simp only [takeFrom]
      split
      · next hnew =>
        obtain ⟨hle, hmono, hnone⟩ := ih { f with behind := max f.behind n }
          { asked with resized := n, window := some (clampDims size) } (by simp only; omega)
        exact ⟨hle, by simp only at hmono; omega, fun h => by cases (hnone h).1⟩
      · next hold => exact ih { f with behind := max f.behind n } asked (by simp only; omega)

namespace Typing

variable {vt : Emulator E K C M} {s s' : Typing E K C}

/-- What holds of the resizes an attachment's loop took, and of those its streams are
behind. -/
structure Handing (c : Conn K C) : Prop where
  handed : c.handed ≤ c.asked.resized
  settled : c.asked.window = none → c.handed = c.asked.resized
  control : c.control.behind ≤ c.asked.resized
  input : c.input.behind ≤ c.asked.resized

/-- What holds of the keys and the resizes under way, and of what the session took. -/
structure Ordered (s : Typing E K C) : Prop where
  asks : s.asks.length = s.session.asksRx.length
  keys : s.keys.length = s.session.inputRx.length
  conns : ∀ a, Handing (s.conns a)
  fresh : ∀ a, s.session.attaches < a → (s.conns a).handed = 0
  queued : ∀ e ∈ s.session.inputRx.zip s.keys, e.2 ≤ (s.conns e.1.attach).asked.resized
  covered : ∀ a k, 0 < k → k ≤ (s.conns a).handed →
    (∃ e ∈ s.session.asksRx.zip s.asks, Brings a k e) ∨
      (a = s.session.attaches → s.session.exited = none → ∃ n, k ≤ n ∧ .resized a n ∈ s.log)
  log : ∀ l₁ a k l₂, s.log = l₁ ++ .keys a k :: l₂ → k = 0 ∨ ∃ n, k ≤ n ∧ .resized a n ∈ l₁

/-- One attachment's loop is set. -/
theorem setConn_conns (s : Typing E K C) (a : ℕ) (c : Conn K C) (b : ℕ) :
    (s.setConn a c).conns b = if b = a then c else s.conns b := by
  simp only [setConn, Function.update_apply]

/-- An entry of a list with one more at its end. -/
theorem snoc_eq_append_cons {α : Type} {l l₁ l₂ : List α} {x y : α}
    (h : l ++ [x] = l₁ ++ y :: l₂) :
    (l₁ = l ∧ y = x) ∨ ∃ l', l₂ = l' ++ [x] ∧ l = l₁ ++ y :: l' := by
  rcases List.eq_nil_or_concat l₂ with rfl | ⟨l', z, rfl⟩
  · obtain ⟨heq, hlast⟩ := List.append_inj' h rfl
    exact .inl ⟨heq.symm, (List.singleton_injective hlast).symm⟩
  · rw [List.concat_eq_append] at h ⊢
    rw [← List.cons_append, ← List.append_assoc] at h
    obtain ⟨heq, hlast⟩ := List.append_inj' h rfl
    exact .inr ⟨l', by rw [List.singleton_injective hlast], heq⟩

namespace Ordered

/-- An attachment's loop goes on, handing nothing on. -/
theorem setConn (h : s.Ordered) {a : ℕ} {c : Conn K C} (hc : Handing c)
    (hhanded : c.handed = (s.conns a).handed)
    (hmono : (s.conns a).asked.resized ≤ c.asked.resized) : (s.setConn a c).Ordered := by
  have hhanded' : ∀ b, ((s.setConn a c).conns b).handed = (s.conns b).handed := by
    intro b
    rw [setConn_conns]
    split
    · next heq => rw [hhanded, heq]
    · rfl
  refine ⟨h.asks, h.keys, fun b => ?_, fun b hb => ?_, fun e he => ?_, fun b k hk hle => ?_, h.log⟩
  · rw [setConn_conns]
    split
    · exact hc
    · exact h.conns b
  · rw [hhanded']
    exact h.fresh b hb
  · have hold := h.queued e he
    rw [setConn_conns]
    split
    · next heq => exact (heq ▸ hold).trans hmono
    · exact hold
  · rw [hhanded'] at hle
    exact h.covered b k hk hle

/-- The window that waits is handed on: an ask brings every resize since the one before. -/
theorem hand (h : s.Ordered) {a : ℕ} {c : Conn K C} (hc : Handing c)
    (hresized : c.asked.resized = (s.conns a).asked.resized) (ha : a ≤ s.session.attaches)
    (hbrings : ∀ k, (s.conns a).handed < k → k ≤ c.handed →
      ∃ e ∈ s.session.asksRx.zip s.asks, Brings a k e) : (s.setConn a c).Ordered := by
  refine ⟨h.asks, h.keys, fun b => ?_, fun b hb => ?_, fun e he => ?_, fun b k hk hle => ?_, h.log⟩
  · rw [setConn_conns]
    split
    · exact hc
    · exact h.conns b
  · rw [setConn_conns]
    split
    · next heq => exact absurd ha (heq ▸ Nat.not_le.mpr hb)
    · exact h.fresh b hb
  · have hold := h.queued e he
    rw [setConn_conns]
    split
    · next heq => exact (heq ▸ hold).trans hresized.ge
    · exact hold
  · rw [setConn_conns] at hle
    split at hle
    · next heq =>
      subst heq
      by_cases hold : k ≤ (s.conns b).handed
      · exact h.covered b k hk hold
      · exact .inl (hbrings k (Nat.not_le.mp hold) hle)
    · exact h.covered b k hk hle

/-- An ask goes into the session's queue. -/
theorem pushAsk (h : s.Ordered) {session : Session E K C} {ask : Ask} (brings : ℕ × ℕ)
    (hin : session.inputRx = s.session.inputRx) (hasks : session.asksRx = s.session.asksRx ++ [ask])
    (hattaches : session.attaches = s.session.attaches)
    (hexited : session.exited = none → s.session.exited = none) :
    Ordered { s with session := session, asks := s.asks ++ [brings] } := by
  have hzip : session.asksRx.zip (s.asks ++ [brings]) =
      s.session.asksRx.zip s.asks ++ [(ask, brings)] := by
    rw [hasks, List.zip_append h.asks.symm]
    rfl
  refine ⟨?_, ?_, h.conns, ?_, ?_, fun a k hk hle => ?_, h.log⟩
  · simp [hasks, h.asks]
  · simp [hin, h.keys]
  · exact hattaches ▸ h.fresh
  · exact hin ▸ h.queued
  · rcases h.covered a k hk hle with ⟨e, he, hbrings⟩ | htaken
    · exact .inl ⟨e, hzip ▸ List.mem_append_left _ he, hbrings⟩
    · exact .inr fun ha hnone => htaken (ha.trans hattaches) (hexited hnone)

/-- Input goes into the session's queue. -/
theorem pushKeys (h : s.Ordered) {session : Session E K C} {input : Input K C} {behind : ℕ}
    (hin : session.inputRx = s.session.inputRx ++ [input])
    (hasks : session.asksRx = s.session.asksRx) (hattaches : session.attaches = s.session.attaches)
    (hexited : session.exited = none → s.session.exited = none)
    (hbehind : behind ≤ (s.conns input.attach).asked.resized) :
    Ordered { s with session := session, keys := s.keys ++ [behind] } := by
  refine ⟨?_, ?_, h.conns, ?_, fun e he => ?_, fun a k hk hle => ?_, h.log⟩
  · simp [hasks, h.asks]
  · simp [hin, h.keys]
  · exact hattaches ▸ h.fresh
  · simp only [hin, List.zip_append h.keys.symm, List.mem_append] at he
    rcases he with hold | hnew
    · exact h.queued e hold
    · rw [List.zip_cons_cons, List.zip_nil_left, List.mem_singleton] at hnew
      exact hnew ▸ hbehind
  · rcases h.covered a k hk hle with ⟨e, he, hbrings⟩ | htaken
    · exact .inl ⟨e, hasks ▸ he, hbrings⟩
    · exact .inr fun ha hnone => htaken (ha.trans hattaches) (hexited hnone)

/-- The session goes on, its queues as they are. -/
theorem session (h : s.Ordered) {session : Session E K C}
    (hin : session.inputRx = s.session.inputRx) (hasks : session.asksRx = s.session.asksRx)
    (hattaches : s.session.attaches ≤ session.attaches)
    (hexited : session.exited = none → s.session.exited = none) :
    Ordered { s with session := session } := by
  refine ⟨?_, ?_, h.conns, fun a ha => h.fresh a (hattaches.trans_lt ha), hin ▸ h.queued,
    fun a k hk hle => ?_, h.log⟩
  · simp [hasks, h.asks]
  · simp [hin, h.keys]
  · rcases h.covered a k hk hle with ⟨e, he, hbrings⟩ | htaken
    · exact .inl ⟨e, hasks ▸ he, hbrings⟩
    · refine .inr fun ha hnone => htaken ?_ (hexited hnone)
      -- An attachment newer than any was handed nothing.
      have ha' : a = session.attaches := ha
      by_contra hne
      have hfresh : (s.conns a).handed = 0 := h.fresh a (by omega)
      exact absurd hle (hfresh ▸ Nat.not_le.mpr hk)

/-- The session takes input: if it is keys that it applies, the resize they are behind was
applied. -/
theorem takeInput (h : s.Ordered) {session : Session E K C}
    (hin : ∃ input, s.session.inputRx = input :: session.inputRx)
    (hasks : session.asksRx = s.session.asksRx) (hattaches : session.attaches = s.session.attaches)
    (hexited : session.exited = none → s.session.exited = none)
    (hinOrder : s.inOrder (.session .takeInput) = true) :
    Ordered { s.noted .takeInput with session := session } := by
  obtain ⟨input, hrx⟩ := hin
  obtain ⟨behind, keys, hkeys⟩ : ∃ behind keys, s.keys = behind :: keys := by
    have hlen := h.keys
    rw [hrx, List.length_cons] at hlen
    exact List.exists_cons_of_length_eq_add_one hlen
  have hlen : keys.length = session.inputRx.length := by
    have hlen := h.keys
    rw [hrx, hkeys, List.length_cons, List.length_cons] at hlen
    omega
  have hqueued : ∀ e ∈ session.inputRx.zip keys, e.2 ≤ (s.conns e.1.attach).asked.resized := by
    intro e he
    apply h.queued e
    rw [hrx, hkeys, List.zip_cons_cons]
    exact List.mem_cons_of_mem _ he
  have hcovered : ∀ log : List Applied, (∀ x ∈ s.log, x ∈ log) → ∀ a k, 0 < k →
      k ≤ (s.conns a).handed → (∃ e ∈ session.asksRx.zip s.asks, Brings a k e) ∨
        (a = session.attaches → session.exited = none → ∃ n, k ≤ n ∧ .resized a n ∈ log) := by
    intro log hlog a k hk hle
    rw [hasks]
    refine (h.covered a k hk hle).imp_right fun htaken ha hnone => ?_
    obtain ⟨n, hn, hmem⟩ := htaken (ha.trans hattaches) (hexited hnone)
    exact ⟨n, hn, hlog _ hmem⟩
  simp only [inOrder, hrx, hkeys, Bool.or_eq_true, Bool.not_eq_true', decide_eq_false_iff_not]
    at hinOrder
  simp only [noted, hrx, hkeys]
  split
  · next happlied =>
    refine ⟨?_, hlen, h.conns, hattaches ▸ h.fresh, hqueued,
      hcovered _ fun _ => List.mem_append_left _, fun l₁ a k l₂ hlog => ?_⟩
    · simp [hasks, h.asks]
    · simp only [Bool.and_eq_true, decide_eq_true_eq, Option.isNone_iff_eq_none] at happlied
      obtain ⟨⟨hnewest, hnone⟩, hiskeys⟩ := happlied
      rcases snoc_eq_append_cons hlog with ⟨rfl, heq⟩ | ⟨l, rfl, hold⟩
      · cases heq
        rcases Nat.eq_zero_or_pos behind with hzero | hpos
        · exact .inl hzero
        have hwaits : ¬ s.Waits input.attach behind := by
          simpa [hnewest, hnone, hiskeys] using hinOrder
        have hle : behind ≤ (s.conns input.attach).asked.resized := by
          apply h.queued (input, behind)
          rw [hrx, hkeys, List.zip_cons_cons]
          exact List.mem_cons_self
        have hhanded : behind ≤ (s.conns input.attach).handed := by
          by_contra hlate
          exact hwaits (.inl ⟨Nat.not_le.mp hlate, hle⟩)
        rcases h.covered input.attach behind hpos hhanded with hbrings | htaken
        · exact absurd (.inr hbrings) hwaits
        · exact .inr (htaken hnewest hnone)
      · exact h.log l₁ a k l hold
  · next hnot =>
    refine ⟨?_, hlen, h.conns, hattaches ▸ h.fresh, hqueued, hcovered _ fun _ => id, h.log⟩
    simp [hasks, h.asks]

/-- The session takes an ask. -/
theorem takeAsk (h : s.Ordered) {session : Session E K C}
    (hin : session.inputRx = s.session.inputRx)
    (hasks : ∃ ask, s.session.asksRx = ask :: session.asksRx)
    (hattaches : session.attaches = s.session.attaches)
    (hexited : session.exited = none → s.session.exited = none) :
    Ordered { s.noted .takeAsk with session := session } := by
  obtain ⟨ask, hrx⟩ := hasks
  obtain ⟨brings, asks, hbrings⟩ : ∃ brings asks, s.asks = brings :: asks := by
    have hlen := h.asks
    rw [hrx, List.length_cons] at hlen
    exact List.exists_cons_of_length_eq_add_one hlen
  have hlen : asks.length = session.asksRx.length := by
    have hlen := h.asks
    rw [hrx, hbrings, List.length_cons, List.length_cons] at hlen
    omega
  -- What the ask brought is no longer under way, or was not for the newest attachment.
  have hcovered : ∀ log : List Applied, (∀ x ∈ s.log, x ∈ log) →
      (isWindow s.session.attaches ask = true → s.session.exited = none →
        .resized s.session.attaches brings.2 ∈ log) →
      ∀ a k, 0 < k → k ≤ (s.conns a).handed → (∃ e ∈ session.asksRx.zip asks, Brings a k e) ∨
        (a = session.attaches → session.exited = none → ∃ n, k ≤ n ∧ .resized a n ∈ log) := by
    intro log hlog hnew a k hk hle
    rcases h.covered a k hk hle with ⟨e, he, hbring⟩ | htaken
    · rw [hrx, hbrings, List.zip_cons_cons] at he
      rcases List.mem_cons.mp he with rfl | he
      · refine .inr fun ha hnone => ⟨brings.2, hbring.2.2, ?_⟩
        subst ha
        rw [hattaches] at hbring ⊢
        exact hnew hbring.1 (hexited hnone)
      · exact .inl ⟨e, he, hbring⟩
    · refine .inr fun ha hnone => ?_
      obtain ⟨n, hn, hmem⟩ := htaken (ha.trans hattaches) (hexited hnone)
      exact ⟨n, hn, hlog _ hmem⟩
  simp only [noted, hrx, hbrings]
  split
  · next htaken =>
    simp only [Bool.and_eq_true, Option.isNone_iff_eq_none] at htaken
    refine ⟨hlen, ?_, h.conns, hattaches ▸ h.fresh, hin ▸ h.queued,
      hcovered _ (fun _ => List.mem_append_left _) fun _ _ => by simp, fun l₁ a k l₂ hlog => ?_⟩
    · simp [hin, h.keys]
    · rcases snoc_eq_append_cons hlog with ⟨-, heq⟩ | ⟨l, rfl, hold⟩
      · cases heq
      · exact h.log l₁ a k l hold
  · next hnot =>
    refine ⟨hlen, ?_, h.conns, hattaches ▸ h.fresh, hin ▸ h.queued,
      hcovered _ (fun _ => id) fun hwindow hnone => ?_, h.log⟩
    · simp [hin, h.keys]
    · exact absurd (by simp [hwindow, hnone]) hnot

end Ordered

/-- A stream that is taken leaves the loop handing on in order. -/
theorem Handing.takeStream {c : Conn K C} (h : Handing c) (second : Bool) {f : FromClient K C}
    (hbehind : f.behind ≤ c.asked.resized) :
    Handing (c.takeStream second f) ∧ (c.takeStream second f).handed = c.handed ∧
      c.asked.resized ≤ (c.takeStream second f).asked.resized := by
  obtain ⟨hle, hmono, hnone⟩ := FromClient.takeFrom_spec f.decoder f c.asked hbehind
  have hsettled : (FromClient.takeFrom f.decoder f c.asked).2.window = none →
      c.handed = (FromClient.takeFrom f.decoder f c.asked).2.resized := by
    intro hwindow
    obtain ⟨hwindow, heq⟩ := hnone hwindow
    rw [heq]
    exact h.settled hwindow
  have hhanded := h.handed.trans hmono
  cases second
  · exact ⟨⟨hhanded, hsettled, hle, h.input.trans hmono⟩, rfl, hmono⟩
  · exact ⟨⟨hhanded, hsettled, h.control.trans hmono, hle⟩, rfl, hmono⟩

/-- A stream's keys are behind no resize to come. -/
theorem Handing.behind {c : Conn K C} (h : Handing c) (second : Bool) :
    (c.stream second).behind ≤ c.asked.resized := by
  cases second
  · exact h.control
  · exact h.input

variable [DecidableEq M]

/-- The session makes a move of its own, or none, and only what it takes is noted. -/
theorem step_session {m : TypingMove K C} (hstep : s.step vt m = some s') :
    (s'.session = s.session ∨ ∃ m, s.session.step vt m = some s'.session) ∧
      (s'.log = s.log ∨ ∃ m', m = .session m' ∧ s'.log = (s.noted m').log) := by
  cases steps_of_step hstep with
  | session _ hsession => exact ⟨.inr ⟨_, hsession⟩, .inr ⟨_, rfl, rfl⟩⟩
  | ask _ hsession => exact ⟨.inr ⟨_, hsession⟩, .inl rfl⟩
  | redraw _ _ hsession => exact ⟨.inr ⟨_, hsession⟩, .inl rfl⟩
  | window _ _ _ hsession => exact ⟨.inr ⟨_, hsession⟩, .inl rfl⟩
  | reserve _ _ hsession => exact ⟨.inr ⟨_, hsession⟩, .inl rfl⟩
  | _ => exact ⟨.inl rfl, .inl rfl⟩

/-- What is logged of an ask taken: a window of the newest client's, which the session resizes
to unless the program ended. Any other window it drops. -/
theorem takeAsk_logs (h : s.Ordered) (hstep : s.step vt (.session .takeAsk) = some s') :
    ∃ ask asks brings, s.session.asksRx = ask :: asks ∧ s.asks.head? = some brings ∧
      match ask with
      | .resize a size =>
        let taken := { s.session with turn := .top, asksRx := asks }
        if a = s.session.attaches ∧ s.session.exited = none then
          s'.log = s.log ++ [.resized a brings.2] ∧
            s'.session = ((taken.resize vt size taken.pending).map fun resized =>
              { resized.1 with pending := resized.2 }).getD taken
        else s'.log = s.log ∧ s'.session = taken
      | _ => s'.log = s.log := by
  simp only [step, isSessions, if_true] at hstep
  obtain ⟨session, hsession, rfl⟩ := Option.map_eq_some_iff.mp hstep
  cases Session.steps_of_step hsession with
  | @takeAsk ask asks _ hrx =>
    obtain ⟨brings, more, hbrings⟩ : ∃ brings more, s.asks = brings :: more := by
      have hlen := h.asks
      rw [hrx, List.length_cons] at hlen
      exact List.exists_cons_of_length_eq_add_one hlen
    refine ⟨ask, asks, brings, hrx, by rw [hbrings]; rfl, ?_⟩
    simp only [noted, hrx, hbrings]
    cases ask with
    | resize a size =>
      by_cases hnewest : a = s.session.attaches ∧ s.session.exited = none
      · simp only [isWindow, Session.serveAsk, hnewest, decide_true, Option.isNone_none,
          Bool.and_self, if_true, and_self, true_and]
        generalize Session.resize vt _ size _ = resized
        cases resized <;> rfl
      · have hno : (decide (a = s.session.attaches) && s.session.exited.isNone) = false :=
          Bool.eq_false_iff.mpr fun hyes => hnewest (by simpa using hyes)
        simp only [isWindow, Session.serveAsk, hno, if_neg hnewest, Bool.false_eq_true, if_false,
          and_self]
    | _ => rfl

/-- What is logged of an input taken: keys of the newest client's, which the session has
pending unless the program ended. Any other keys it drops. -/
theorem takeInput_logs (h : s.Ordered) (hstep : s.step vt (.session .takeInput) = some s') :
    ∃ input inputs behind, s.session.inputRx = input :: inputs ∧ s.keys.head? = some behind ∧
      match input.input with
      | .events seq events =>
        let taken := { s.session with turn := .top, inputRx := inputs }
        if input.attach = s.session.attaches ∧ s.session.exited = none then
          s'.log = s.log ++ [.keys input.attach behind] ∧ s'.session = { taken with
            pending := { taken.pending with
              bytes := taken.pending.bytes ++ vt.encodeInput taken.emu events
              seq := some seq }
            source := input.attach }
        else s'.log = s.log ∧ s'.session = taken
      | .colours _ => s'.log = s.log := by
  simp only [step, isSessions, if_true] at hstep
  obtain ⟨session, hsession, rfl⟩ := Option.map_eq_some_iff.mp hstep
  have hsplits : ∀ input inputs, s.session.inputRx = input :: inputs →
      ∃ behind, s.keys.head? = some behind ∧ ∃ more, s.keys = behind :: more := by
    intro input inputs hrx
    have hlen := h.keys
    rw [hrx, List.length_cons] at hlen
    obtain ⟨behind, more, hbehind⟩ := List.exists_cons_of_length_eq_add_one hlen
    exact ⟨behind, by rw [hbehind]; rfl, more, hbehind⟩
  cases Session.steps_of_step hsession with
  | @takeInput input inputs _ hrx _ hown =>
    obtain ⟨behind, hhead, more, hbehind⟩ := hsplits input inputs hrx
    refine ⟨input, inputs, behind, hrx, hhead, ?_⟩
    simp only [noted, hrx, hbehind]
    have hnewest : input.attach = s.session.attaches ∧ s.session.exited = none := by
      simpa using hown
    obtain ⟨attach, taken⟩ := input
    cases taken with
    | events seq events =>
      dsimp only at hown hnewest ⊢
      simp only [ToSession.isKeys, hnewest, if_true, decide_true, Option.isNone_none,
        Bool.and_self, and_self, true_and]
      rfl
    | colours colours => simp [ToSession.isKeys]
  | @dropInput input inputs _ hrx _ hnot =>
    obtain ⟨behind, hhead, more, hbehind⟩ := hsplits input inputs hrx
    refine ⟨input, inputs, behind, hrx, hhead, ?_⟩
    simp only [noted, hrx, hbehind]
    have hold : ¬ (input.attach = s.session.attaches ∧ s.session.exited = none) := by
      rintro ⟨hattach, hnone⟩
      simp [hattach, hnone] at hnot
    obtain ⟨attach, taken⟩ := input
    cases taken with
    | events seq events =>
      dsimp only at hnot hold ⊢
      simp only [hnot, if_neg hold, Bool.false_and, Bool.false_eq_true, if_false, and_self]
    | colours colours => simp [ToSession.isKeys]

/-- Nothing else is logged. -/
theorem step_logs_nothing {m : TypingMove K C} (hask : m ≠ .session .takeAsk)
    (hinput : m ≠ .session .takeInput) (hstep : s.step vt m = some s') : s'.log = s.log := by
  rcases (step_session hstep).2 with hlog | ⟨m', rfl, hlog⟩
  · exact hlog
  · rw [hlog]
    cases m' <;> first | rfl | exact absurd rfl hask | exact absurd rfl hinput

/-- Every move leaves the session sober. -/
theorem step_sober {m : TypingMove K C} (hs : s.session.Sober) (hstep : s.step vt m = some s') :
    s'.session.Sober := by
  rcases (step_session hstep).1 with heq | ⟨m', hsession⟩
  · exact heq ▸ hs
  · exact Session.step_sober hs hsession

/-- Every move in order keeps the queues so. -/
theorem step_ordered {m : TypingMove K C} (hs : s.session.Sober) (h : s.Ordered)
    (hinOrder : s.inOrder m = true) (hstep : s.step vt m = some s') : s'.Ordered := by
  cases steps_of_step hstep with
  | @session m session hown hsession =>
    obtain ⟨hexited, hqueues⟩ := Session.step_queues hs hsession
    cases m with
    | takeInput => exact h.takeInput hqueues.1 hqueues.2.1 hqueues.2.2 hexited hinOrder
    | takeAsk => exact h.takeAsk hqueues.1 hqueues.2.1 hqueues.2.2 hexited
    | takeAttach => exact h.session hqueues.1 hqueues.2.1 (by omega) hexited
    | send | ask => cases hown
    | _ => exact h.session hqueues.1 hqueues.2.1 hqueues.2.2.ge hexited
  | ask _ hsession =>
    obtain ⟨hexited, hqueues⟩ := Session.step_queues hs hsession
    exact h.pushAsk (0, 0) hqueues.1 hqueues.2.1 hqueues.2.2 hexited
  | @write a second =>
    have hc := h.conns a
    cases second
    · exact h.setConn ⟨hc.handed, hc.settled, hc.control, hc.input⟩ rfl (le_refl _)
    · exact h.setConn ⟨hc.handed, hc.settled, hc.control, hc.input⟩ rfl (le_refl _)
  | @told a =>
    have hc := h.conns a
    exact h.setConn ⟨hc.handed, hc.settled, hc.control, hc.input⟩ rfl (le_refl _)
  | @redraw a _ _ _ hsession =>
    have hc := h.conns a
    have hset : (s.setConn a { s.conns a with
        asked := { (s.conns a).asked with redraw := false } }).Ordered :=
      h.setConn ⟨hc.handed, hc.settled, hc.control, hc.input⟩ rfl (le_refl _)
    obtain ⟨hexited, hqueues⟩ := Session.step_queues hs hsession
    exact hset.pushAsk (0, 0) hqueues.1 hqueues.2.1 hqueues.2.2 hexited
  | @pass a =>
    have hc := h.conns a
    exact h.setConn ⟨hc.handed, hc.settled, hc.control, hc.input⟩ rfl (le_refl _)
  | @window a size session htop _ _ hsession =>
    have hc := h.conns a
    obtain ⟨hexited, hqueues⟩ := Session.step_queues hs hsession
    have hpushed := h.pushAsk ((s.conns a).handed, (s.conns a).asked.resized) hqueues.1
      hqueues.2.1 hqueues.2.2 hexited
    have ha : a ≤ session.attaches := by
      simp only [at_, Bool.and_eq_true, decide_eq_true_eq] at htop
      omega
    refine hpushed.hand ⟨le_refl _, fun _ => rfl, hc.control, hc.input⟩ rfl ha
      fun k hlt hle => ⟨(.resize a size, (s.conns a).handed, (s.conns a).asked.resized), ?_,
        by simp [isWindow], hlt, hle⟩
    simp [hqueues.2.1, List.zip_append h.asks.symm]
  | @reserve a second _ _ _ _ hsession =>
    obtain ⟨hexited, hqueues⟩ := Session.step_queues hs hsession
    have hbehind := (h.conns a).behind second
    have hpushed := h.pushKeys hqueues.1 hqueues.2.1 hqueues.2.2 hexited hbehind
    obtain ⟨hc, hhanded, hmono⟩ := (h.conns a).takeStream second
      (f := { (s.conns a).stream second with waiting := none }) hbehind
    exact hpushed.setConn hc hhanded hmono
  | @read a count second =>
    obtain ⟨hc, hhanded, hmono⟩ := (h.conns a).takeStream second
      (f := { (s.conns a).stream second with
        coming := ((s.conns a).stream second).coming.drop count
        decoder := ((s.conns a).stream second).decoder ++
          ((s.conns a).stream second).coming.take count }) ((h.conns a).behind second)
    exact h.setConn hc hhanded hmono
  | @other a =>
    have hc := h.conns a
    exact h.setConn ⟨hc.handed, hc.settled, hc.control, hc.input⟩ rfl (le_refl _)
  | @close a =>
    have hc := h.conns a
    exact h.setConn ⟨hc.handed, hc.settled, hc.control, hc.input⟩ rfl (le_refl _)

omit [DecidableEq M] in
/-- The queues are empty at the start. -/
theorem init_ordered (vt : Emulator E K C M) (emu : E) (policy : Policy) (size : Size)
    (history : ℕ) (modes : Option TtyModes) :
    (init (Session.init vt emu policy size history modes)).Ordered := by
  have hqueues := (Session.client_calm vt (Session.blank emu policy) size history).trans
    (Session.refreshTty_calm _ modes)
  refine ⟨?_, ?_, fun a => ⟨le_refl 0, fun _ => rfl, le_refl 0, le_refl 0⟩, fun a _ => rfl,
    fun e he => ?_, fun a k hk hle => absurd hle (Nat.not_le.mpr hk), fun l₁ a k l₂ hlog => ?_⟩
  · exact (congrArg List.length hqueues.asksRx).symm
  · exact (congrArg List.length hqueues.inputRx).symm
  · simp [init] at he
  · simp [init] at hlog

/-- **Keys are taken after the resizes before them**, in every run in which the session takes
no keys while the window that brings the resize they were written behind waits in the
attachment's loop or among the session's asks. -/
theorem keys_after_resize {vt : Emulator E K C M} {emu : E} {policy : Policy} {size : Size}
    {history : ℕ} {modes : Option TtyModes} {s : Typing E K C}
    (h : Reaches (step vt) (inOrder · ·) (init (Session.init vt emu policy size history modes)) s) :
    ∀ l₁ a k l₂, s.log = l₁ ++ .keys a k :: l₂ → k = 0 ∨ ∃ n, k ≤ n ∧ .resized a n ∈ l₁ := by
  have hordered : s.session.Sober ∧ s.Ordered := by
    refine h.invariant (fun s => s.session.Sober ∧ s.Ordered)
      ⟨Session.init_sober vt emu policy size history modes,
        init_ordered vt emu policy size history modes⟩ fun s m s' hs hinOrder hstep => ?_
    exact ⟨step_sober hs.1 hstep, step_ordered hs.1 hs.2 hinOrder hstep⟩
  exact hordered.2.log

/-- A client of the plain emulator's writes a resize and then keys on its input stream, and
both are read and handed on. -/
def resizeThenKeys : List (TypingMove Bytes Unit) :=
  [.write 1 true (.resize 1 ⟨30, 100⟩), .write 1 true (.keys 7 [[0x61]]), .window 1,
    .read 1 true 2, .window 1, .reserve 1]

/-- In `keys_after_resize`, the session takes the window, then the keys. -/
theorem keys_after_resize_one :
    ∃ s, Reaches (step .plain) (inOrder · ·) (init Session.plainSession) s ∧
      s.log = [.resized 1 1, .keys 1 1] ∧
      ∀ l₁ a k l₂, s.log = l₁ ++ .keys a k :: l₂ → k = 0 ∨ ∃ n, k ≤ n ∧ .resized a n ∈ l₁ := by
  obtain ⟨s, hs, hlog⟩ := Option.map_eq_some_iff.mp
    (show (runWhile (step .plain) (inOrder · ·) (init Session.plainSession) (resizeThenKeys ++
      [.session (.top 0 .ok none), .session .takeAsk, .session (.top 0 .ok none),
        .session .takeInput])).map Typing.log = some [.resized 1 1, .keys 1 1] by decide +kernel)
  have hreach := reaches_of_run hs
  exact ⟨s, hreach, hlog, keys_after_resize hreach⟩

/-- **Keys overtake a resize**: both are queued, and the session's `select!` takes the keys
first. -/
theorem keys_overtake :
    ∃ s, Reachable (step .plain) (init Session.plainSession) s ∧
      ¬ ∀ l₁ a k l₂, s.log = l₁ ++ .keys a k :: l₂ → k = 0 ∨ ∃ n, k ≤ n ∧ .resized a n ∈ l₁ := by
  obtain ⟨s, hs, hlog⟩ := Option.map_eq_some_iff.mp
    (show (runWhile (step .plain) (fun _ _ => True) (init Session.plainSession) (resizeThenKeys ++
      [.session (.top 0 .ok none), .session .takeInput])).map Typing.log =
        some [.keys 1 1] by decide +kernel)
  refine ⟨s, reaches_of_run hs, fun hall => ?_⟩
  rcases hall [] 1 1 [] hlog with hzero | ⟨n, -, hmem⟩
  · cases hzero
  · cases hmem

end Typing

end Koh.Server
