import Koh.Server.Allow
import Koh.Lib.Reach
import Mathlib.Data.List.MinMax
import Mathlib.Algebra.GroupWithZero.Nat

/-!
# The session registry

`Sessions`, from `server/session/sessions.rs`, and the registry task that asks it, from
`server/session.rs`: every peer's sessions by number, attaches handed to them, and the
end of the sessions of each key that a change of the list drops or rescopes.

## Main definitions

- `Sessions`: the live sessions and their tasks; `Sessions.attach`, `Sessions.list`,
  `Sessions.ended`, `Sessions.stop`
- `Registry`, `Registry.step`: the list, what is asked, the sessions and their tasks, and
  what any of them does next

## Main results

- `Registry.keeps_promises`: what holds over whole runs
- `Registry.resumed_anew`: an attach of another run's session that starts one

## Design notes

A session's task runs beside the registry and may close its control channel at any time,
also as an attach is handed to it: `closing` are those that do then. A reply goes back
with what an attach came to. `log` and `started` are no part of the code: they keep which
session each attach went to, and whose each session is.
-/

namespace Koh.Server

open Koh.Lib

/-- The most a count can say. -/
def u64Max : ℕ := 2 ^ 64 - 1

def saturatingAdd (a b : ℕ) : ℕ := min (a + b) u64Max

abbrev SessionNum := ℕ

abbrev RunId := ℕ

structure Resume where
  run : RunId
  session : SessionNum
  deriving DecidableEq

inductive Pick where
  | latest
  | new
  | id (session : SessionNum)
  | resume (back : Resume)
  deriving DecidableEq

/-- What a new session runs, and where. -/
structure Launch where
  program : Option (List String)
  cwd : Option PathBytes
  deriving DecidableEq

def Launch.anew (launch : Launch) : Bool := launch.program.isSome || launch.cwd.isSome

structure Size where
  rows : ℕ
  cols : ℕ
  deriving DecidableEq

/-- A connection attaches at a window size, with history above the redraw if it attaches
afresh. -/
structure Attach where
  size : Size
  history : ℕ
  launch : Launch
  /-- Whom it answers. -/
  reply : ℕ
  deriving DecidableEq

inductive Close where
  | notAuthorized
  | noSuchSession
  | atCapacity
  deriving DecidableEq

/-- How many attaches may wait for one session. -/
def controlQueue : ℕ := 8

inductive Phase where
  | running
  /-- Its control channel is closed. -/
  | closing
  | ended
  /-- The registry knows. -/
  | joined
  deriving DecidableEq

structure Task where
  waiting : List Attach
  phase : Phase
  deriving DecidableEq

structure Live where
  peer : Peer
  /-- Its control channel. -/
  control : ℕ
  /-- When an attach last went to it, as the registry counts them. -/
  attached : ℕ
  deriving DecidableEq

inductive Outcome where
  | refused (why : Close)
  | handed (session : SessionNum)
  | started (session : SessionNum)
  deriving DecidableEq

inductive TrySend where
  | ok
  | full
  | closed
  deriving DecidableEq

/-- Every session task the registry started, and the ones still live, by number. -/
structure Sessions where
  live : Dict SessionNum Live
  /-- The number the last session took. -/
  last : SessionNum
  /-- How many attaches went to a session. -/
  attaches : ℕ
  tasks : List Task
  maxSessions : ℕ
  run : RunId
  deriving DecidableEq

namespace Sessions

def new (maxSessions : ℕ) (run : RunId) : Sessions := ⟨[], 0, 0, [], maxSessions, run⟩

def isClosed (s : Sessions) (control : ℕ) : Bool := s.tasks[control]?.all (·.phase ≠ .running)

/-- The sessions whose control channels are closed are forgotten. -/
def retain (s : Sessions) : Sessions :=
  { s with live := s.live.filter fun e => !s.isClosed e.2.control }

/-- The task at `control` drops its end of its channel, and what waits there. -/
def shut (s : Sessions) (control : ℕ) : Sessions :=
  { s with tasks := s.tasks.modify control fun t =>
      if t.phase = .running then ⟨[], .closing⟩ else t }

/-- What waits in a control channel. -/
def waits (s : Sessions) (control : ℕ) : List Attach := (s.tasks[control]?.map Task.waiting).getD []

def trySend (s : Sessions) (control : ℕ) : TrySend :=
  match s.tasks[control]? with
  | some ⟨waiting, .running⟩ => if waiting.length < controlQueue then .ok else .full
  | _ => .closed

/-- The session of `peer`'s that `pick` names, if it names one. -/
def named (s : Sessions) (peer : Peer) (pick : Pick) (launch : Launch) :
    Except Close (Option SessionNum) :=
  if launch.anew then .ok none
  else match pick with
    | .latest => .ok (((s.live.filter (·.2.peer = peer)).reverse.argmax (·.2.attached)).map Prod.fst)
    | .new => .ok none
    | .resume back =>
      if back.run ≠ s.run then .error .noSuchSession
      else if (s.live.lookup back.session).all (·.peer ≠ peer) then .error .noSuchSession
      else .ok (some back.session)
    | .id session =>
      if (s.live.lookup session).all (·.peer ≠ peer) then .error .noSuchSession
      else .ok (some session)

/-- A new session, unless there are too many. -/
def start (s : Sessions) (peer : Peer) : Sessions × Outcome :=
  if s.maxSessions ≤ s.live.length then (s, .refused .atCapacity)
  else
    let session := saturatingAdd s.last 1
    let attaches := saturatingAdd s.attaches 1
    ({ s with
        live := Dict.insert (fun a b => a < b) s.live session ⟨peer, s.tasks.length, attaches⟩
        last := session
        attaches := attaches
        tasks := s.tasks ++ [⟨[], .running⟩] }, .started session)

def hand (s : Sessions) (session : SessionNum) (control : ℕ) (attach : Attach) : Sessions × Outcome :=
  let attaches := saturatingAdd s.attaches 1
  ({ s with
      live := Dict.update s.live session fun live => { live with attached := attaches }
      attaches := attaches
      tasks := s.tasks.modify control fun t => { t with waiting := t.waiting ++ [attach] } },
    .handed session)

/-- Hand `attach` to the session of `peer`'s that `pick` names, or start one. -/
def attach (allows : Bool) (closing : List ℕ) (peer : Peer) (pick : Pick) (attach : Attach)
    (s : Sessions) : Sessions × Outcome :=
  if !allows then (s, .refused .notAuthorized)
  else
    let s := s.retain
    match s.named peer pick attach.launch with
    | .error why => (s, .refused why)
    | .ok named =>
      -- Meanwhile tasks end.
      let s := closing.foldl shut s
      match named.bind fun session => (s.live.lookup session).map (session, ·) with
      | some (session, live) =>
        match s.trySend live.control with
        | .ok => s.hand session live.control attach
        | .full => (s, .refused .atCapacity)
        | .closed => if pick = .latest then s.start peer else (s, .refused .noSuchSession)
      | none => s.start peer

def list (peer : Peer) (s : Sessions) : Sessions × List SessionNum :=
  (s.retain, (s.retain.live.filter (·.2.peer = peer)).map Prod.fst)

def ended (s : Sessions) (control : ℕ) : Option Sessions :=
  match s.tasks[control]? with
  | some ⟨_, .ended⟩ =>
    some { s with tasks := s.tasks.modify control fun t => { t with phase := .joined } }.retain
  | _ => none

def stop (peer : Peer) (s : Sessions) : Sessions :=
  { s with live := s.live.filter (·.2.peer ≠ peer) }

end Sessions

inductive Request where
  | attach (peer : Peer) (pick : Pick) (attach : Attach)
  | list (peer : Peer)
  | stop (peer : Peer)
  deriving DecidableEq

def requestQueue : ℕ := 64

structure Registry where
  /-- Who may connect, as published. -/
  allowed : Clients
  /-- The keys a change dropped or rescoped whose sessions' end is to be asked. -/
  due : List Peer
  queue : List Request
  sessions : Sessions
  /-- Which session each attach went to. -/
  log : List SessionNum
  /-- The sessions started, and whose they are. -/
  started : List (SessionNum × Peer)
  deriving DecidableEq

inductive RegistryMove where
  /-- A list is published, once what the last change ended was asked. -/
  | publish (clients : Clients)
  /-- The end of the sessions of the next key that is due is asked. -/
  | askEnd
  /-- A connection asks. -/
  | ask (peer : Peer) (attach : Option (Pick × Attach))
  /-- The registry does what it is asked; the tasks at `closing` end meanwhile. -/
  | handle (closing : List ℕ)
  /-- The task at `control` answers an attach, closes its channel, ends, is joined. -/
  | answer (control : ℕ)
  | shut (control : ℕ)
  | finish (control : ℕ)
  | join (control : ℕ)
  deriving DecidableEq

namespace Registry

def init (clients : Clients) (maxSessions : ℕ) (run : RunId) : Registry :=
  ⟨clients, [], [], .new maxSessions run, [], []⟩

/-- Whether `peer` may attach: only a key that may do everything gets a session. -/
def allows (s : Registry) (peer : Peer) : Bool := (s.allowed.get peer).any Scope.isFull

/-- An attach of `peer`'s came to `outcome`. -/
def noted (s : Registry) (peer : Peer) : Outcome → Registry
  | .refused _ => s
  | .handed session => { s with log := s.log ++ [session] }
  | .started session =>
    { s with log := s.log ++ [session], started := s.started ++ [(session, peer)] }

def step (s : Registry) : RegistryMove → Option Registry
  | .publish clients =>
    if s.due = [] then some { s with allowed := clients, due := s.allowed.gone clients } else none
  | .askEnd => match s.due with
    | peer :: due => if s.queue.length < requestQueue then
        some { s with due := due, queue := s.queue ++ [.stop peer] } else none
    | [] => none
  | .ask peer attach => if s.queue.length < requestQueue then
      some { s with queue := s.queue ++ [match attach with
        | some (pick, attach) => .attach peer pick attach
        | none => .list peer] }
    else none
  | .handle closing => match s.queue with
    | .attach peer pick attach :: queue =>
      let done := s.sessions.attach (s.allows peer) closing peer pick attach
      some ({ s with queue := queue, sessions := done.1 }.noted peer done.2)
    | .list peer :: queue => some { s with queue := queue, sessions := (s.sessions.list peer).1 }
    | .stop peer :: queue => some { s with queue := queue, sessions := s.sessions.stop peer }
    | [] => none
  | .answer control => match s.sessions.tasks[control]? with
    | some ⟨_ :: waiting, .running⟩ => some { s with sessions := { s.sessions with
        tasks := s.sessions.tasks.modify control fun t => { t with waiting := waiting } } }
    | _ => none
  | .shut control => some { s with sessions := s.sessions.shut control }
  | .finish control => match s.sessions.tasks[control]? with
    | some ⟨_, .closing⟩ => some { s with sessions := { s.sessions with
        tasks := s.sessions.tasks.modify control fun t => { t with phase := .ended } } }
    | _ => none
  | .join control => (s.sessions.ended control).map fun sessions => { s with sessions := sessions }

/-- `peer`'s own sessions: those started for it whose control channels are open. -/
def Own (s : Registry) (peer : Peer) (session : SessionNum) : Prop :=
  (session, peer) ∈ s.started ∧
    ∃ live, (session, live) ∈ s.sessions.live ∧ s.sessions.isClosed live.control = false

/-- The one of `peer`'s own sessions that an attach last went to. -/
def Last (s : Registry) (peer : Peer) (session : SessionNum) : Prop :=
  s.Own peer session ∧
    ∃ l₁ l₂, s.log = l₁ ++ session :: l₂ ∧ ∀ other ∈ l₂, ¬ s.Own peer other

def Names (s : Registry) (peer : Peer) (session : SessionNum) : Pick → Prop
  | .latest => s.Last peer session
  | .new => False
  | .id named => s.Own peer session ∧ session = named
  | .resume back => s.Own peer session ∧ back = ⟨s.sessions.run, session⟩

/-- The control channel of `session` closes as an attach comes. -/
def Closes (s : Registry) (closing : List ℕ) (session : SessionNum) : Prop :=
  ∃ live, (session, live) ∈ s.sessions.live ∧ live.control ∈ closing

/-- A session is to be started: a new one is asked for, or the latest where `peer` has none
of its own or the one last attached to ends as it is asked for. -/
def Anew (s : Registry) (closing : List ℕ) (peer : Peer) (pick : Pick) (launch : Launch) : Prop :=
  launch.anew = true ∨ pick = .new ∨
    pick = .latest ∧ ((∀ n, ¬ s.Own peer n) ∨ ∃ n, s.Last peer n ∧ s.Closes closing n)

def Right (s : Registry) (allows : Bool) (closing : List ℕ) (peer : Peer) (pick : Pick)
    (launch : Launch) : Outcome → Prop
  | .refused .notAuthorized => allows = false
  | .refused .noSuchSession =>
    launch.anew = false ∧ pick ≠ .new ∧ pick ≠ .latest ∧
      ∀ n, s.Names peer n pick → s.Closes closing n
  | .refused .atCapacity =>
    (s.Anew closing peer pick launch ∧ s.sessions.maxSessions ≤ s.sessions.retain.live.length) ∨
      launch.anew = false ∧ ∃ n live, s.Names peer n pick ∧ (n, live) ∈ s.sessions.live ∧
        s.sessions.trySend live.control = .full
  | .handed session => allows = true ∧ launch.anew = false ∧ s.Names peer session pick
  | .started session =>
    allows = true ∧ s.Anew closing peer pick launch ∧ ∀ e ∈ s.started, e.1 < session

/-- What an attach of `peer`'s leaves in the control channels: it waits last in that of the session
it is handed to, or a new session of `peer`'s has begun; and it is in no other. -/
def Sends (s s' : Sessions) (peer : Peer) (a : Attach) : Outcome → Prop
  | .refused _ => ∀ c, s'.waits c <+: s.waits c
  | .handed session =>
    ∃ live, (session, live) ∈ s.live ∧ s'.waits live.control = s.waits live.control ++ [a] ∧
      ∀ c ≠ live.control, s'.waits c <+: s.waits c
  | .started session =>
    (∃ live, (session, live) ∈ s'.live ∧ live.peer = peer ∧
      s'.tasks[live.control]? = some ⟨[], .running⟩) ∧ ∀ c, s'.waits c <+: s.waits c

/-- No list is published that allows `peer` to attach. -/
def Forbids (peer : Peer) : RegistryMove → Prop
  | .publish clients => (clients.get peer).any Scope.isFull = false
  | _ => True

end Registry

/-! ### What each call does to the live sessions -/

namespace Sessions

variable {s s' : Sessions}

/-- Sessions may be forgotten; nothing else changes but tasks. -/
structure Forgets (s s' : Sessions) : Prop where
  live : s'.live.Sublist s.live
  last : s'.last = s.last
  attaches : s'.attaches = s.attaches
  maxSessions : s'.maxSessions = s.maxSessions
  run : s'.run = s.run

theorem Forgets.of_tasks (s : Sessions) (tasks : List Task) : Forgets s { s with tasks := tasks } :=
  ⟨List.Sublist.refl _, rfl, rfl, rfl, rfl⟩

/-- Sessions that are dropped are forgotten. -/
theorem Forgets.of_filter (s : Sessions) (p : SessionNum × Live → Bool) :
    Forgets s { s with live := s.live.filter p } :=
  ⟨List.filter_sublist, rfl, rfl, rfl, rfl⟩

/-- What is forgotten twice. -/
theorem Forgets.trans {s'' : Sessions} (h : Forgets s s') (h' : Forgets s' s'') : Forgets s s'' :=
  ⟨h'.live.trans h.live, h'.last.trans h.last, h'.attaches.trans h.attaches,
    h'.maxSessions.trans h.maxSessions, h'.run.trans h.run⟩

/-- Closing channels drops no session. -/
theorem shut_all_live (closing : List ℕ) (s : Sessions) :
    (closing.foldl shut s).live = s.live ∧ Forgets s (closing.foldl shut s) := by
  induction closing generalizing s with
  | nil => exact ⟨rfl, .of_tasks s s.tasks⟩
  | cons control closing ih =>
    obtain ⟨hlive, hforgets⟩ := ih (s.shut control)
    exact ⟨hlive, (Forgets.of_tasks s _).trans hforgets⟩

/-- Sessions may be forgotten and control channels closed, with what waits there; nothing else
changes. -/
structure Shuts (s s' : Sessions) : Prop extends Forgets s s' where
  task : ∀ c : ℕ, s'.tasks[c]? = s.tasks[c]? ∨ s'.tasks[c]? = some ⟨[], .closing⟩

/-- What closes meanwhile changes no other channel. -/
theorem shut_all_shuts (closing : List ℕ) (s : Sessions) : Shuts s (closing.foldl shut s) := by
  refine ⟨(shut_all_live closing s).2, fun c => ?_⟩
  induction closing generalizing s with
  | nil => exact .inl rfl
  | cons control closing ih =>
    rcases ih (s.shut control) with heq | hclosing
    · have hshut : (s.shut control).tasks[c]? = s.tasks[c]? ∨
          (s.shut control).tasks[c]? = some ⟨[], .closing⟩ := by
        simp only [shut, List.getElem?_modify]
        by_cases hc : control = c
        · subst hc
          rcases s.tasks[control]? with _ | ⟨waiting, _ | _ | _ | _⟩ <;> simp
        · simp [hc]
      rw [List.foldl_cons, heq]
      exact hshut
    · exact .inr hclosing

/-- A channel waits for no more than it did. -/
theorem Shuts.waits (h : Shuts s s') (c : ℕ) : s'.waits c <+: s.waits c := by
  rcases h.task c with heq | heq
  · rw [Sessions.waits, heq]
    exact List.prefix_rfl
  · rw [Sessions.waits, heq]
    exact List.nil_prefix

/-- An open channel holds what it held. -/
theorem Shuts.waits_of_ok (h : Shuts s s') {c : ℕ} (hok : s'.trySend c = .ok) :
    s'.waits c = s.waits c := by
  rcases h.task c with heq | heq
  · rw [Sessions.waits, heq, Sessions.waits]
  · rw [trySend, heq] at hok
    cases hok

/-- What is retained is what is not closed. -/
theorem mem_retain {e : SessionNum × Live} :
    e ∈ s.retain.live ↔ e ∈ s.live ∧ s.isClosed e.2.control = false := by
  simp [retain]

/-- A channel that closes meanwhile takes nothing; the others take what they took. -/
theorem trySend_shut_all (closing : List ℕ) (s : Sessions) (control : ℕ) :
    (closing.foldl shut s).trySend control =
      if control ∈ closing then .closed else s.trySend control := by
  induction closing generalizing s with
  | nil => simp
  | cons c closing ih =>
    have hshut : (s.shut c).trySend control =
        if control = c then .closed else s.trySend control := by
      simp only [trySend, shut, List.getElem?_modify]
      by_cases heq : c = control
      · subst heq
        simp only [↓reduceIte]
        rcases s.tasks[c]? with _ | ⟨waiting, _ | _ | _ | _⟩ <;> rfl
      · simp [heq, Ne.symm heq]
    rw [List.foldl_cons, ih, hshut]
    by_cases heq : control = c <;> simp [heq]

/-- A send fails as closed where the channel is. -/
theorem trySend_closed_iff {control : ℕ} :
    s.trySend control = .closed ↔ s.isClosed control = true := by
  unfold trySend isClosed
  rcases s.tasks[control]? with _ | ⟨waiting, _ | _ | _ | _⟩
  · simp
  · by_cases hroom : waiting.length < controlQueue <;> simp [hroom]
  · simp
  · simp
  · simp

structure Picked (s : Sessions) (peer : Peer) (pick : Pick) (launch : Launch)
    (session : SessionNum) (live : Live) : Prop where
  anew : launch.anew = false
  mem : (session, live) ∈ s.live
  owner : live.peer = peer
  named : match pick with
    | .latest => ∀ e ∈ s.live, e.2.peer = peer → e.2.attached ≤ live.attached
    | .new => False
    | .id named => session = named
    | .resume back => back = ⟨s.run, session⟩

/-- By number, one session is named. -/
theorem Picked.unique {peer : Peer} {pick : Pick} {launch : Launch} {session session' : SessionNum}
    {live live' : Live} (hkeys : (s.live.map Prod.fst).Nodup) (hlatest : pick ≠ .latest)
    (h : s.Picked peer pick launch session live) (h' : s.Picked peer pick launch session' live') :
    live = live' := by
  have hsame : session = session' := by
    have hnamed := h.named
    have hnamed' := h'.named
    cases pick with
    | latest => exact absurd rfl hlatest
    | new => exact hnamed.elim
    | id named => exact hnamed.trans hnamed'.symm
    | resume back => exact (Resume.mk.inj (hnamed.symm.trans hnamed')).2
  subst hsame
  exact Dict.value_unique hkeys h.mem h'.mem

/-- No session is named: a new one is asked for, or `peer` has none. -/
def Unnamed (s : Sessions) (peer : Peer) (pick : Pick) (launch : Launch) : Prop :=
  launch.anew = true ∨ pick = .new ∨ pick = .latest ∧ ∀ e ∈ s.live, e.2.peer ≠ peer

/-- A session that is named is the one picked. -/
theorem named_some {peer : Peer} {pick : Pick} {launch : Launch} {session : SessionNum}
    (h : s.named peer pick launch = .ok (some session)) :
    ∃ live, s.Picked peer pick launch session live := by
  unfold named at h
  split at h
  · cases h
  · next hanew =>
    rw [Bool.not_eq_true] at hanew
    cases pick with
    | latest =>
      simp only [Except.ok.injEq, Option.map_eq_some_iff] at h
      obtain ⟨e, he, rfl⟩ := h
      have hmem : e ∈ s.live.filter (·.2.peer = peer) := List.mem_reverse.mp (List.argmax_mem he)
      obtain ⟨hlive, hpeer⟩ := List.mem_filter.mp hmem
      refine ⟨e.2, hanew, hlive, by simpa using hpeer, fun e' he' hpeer' => ?_⟩
      have hmem' : e' ∈ s.live.filter (·.2.peer = peer) :=
        List.mem_filter.mpr ⟨he', by simpa using hpeer'⟩
      exact List.le_of_mem_argmax (f := fun e : SessionNum × Live => e.2.attached)
        (List.mem_reverse.mpr hmem') he
    | new => cases h
    | id named =>
      dsimp only at h
      split at h
      · cases h
      · next hpeer =>
        simp only [Except.ok.injEq, Option.some.injEq] at h
        subst h
        simp only [Option.all_eq_true, not_forall] at hpeer
        obtain ⟨live, hlookup, hpeer⟩ := hpeer
        exact ⟨live, hanew, Dict.mem_of_lookup hlookup, by simpa using hpeer, rfl⟩
    | resume back =>
      dsimp only at h
      split at h
      · cases h
      · next hrun =>
        split at h
        · cases h
        · next hpeer =>
          simp only [Except.ok.injEq, Option.some.injEq] at h
          subst h
          simp only [Option.all_eq_true, not_forall] at hpeer
          obtain ⟨live, hlookup, hpeer⟩ := hpeer
          refine ⟨live, hanew, Dict.mem_of_lookup hlookup, by simpa using hpeer, ?_⟩
          show back = ⟨s.run, back.session⟩
          rw [← not_ne_iff.mp hrun]

/-- None is named where none is to be. -/
theorem named_none {peer : Peer} {pick : Pick} {launch : Launch}
    (h : s.named peer pick launch = .ok none) : s.Unnamed peer pick launch := by
  unfold named at h
  split at h
  · next hanew => exact .inl hanew
  · right
    cases pick with
    | latest =>
      simp only [Except.ok.injEq, Option.map_eq_none_iff, List.argmax_eq_none,
        List.reverse_eq_nil_iff, List.filter_eq_nil_iff, decide_eq_true_eq] at h
      exact .inr ⟨rfl, h⟩
    | new => exact .inl rfl
    | id named =>
      dsimp only at h
      split at h <;> cases h
    | resume back =>
      dsimp only at h
      split at h
      · cases h
      · split at h <;> cases h

/-- It is refused only where no session is picked. -/
theorem named_error {peer : Peer} {pick : Pick} {launch : Launch} {why : Close}
    (hkeys : (s.live.map Prod.fst).Nodup) (h : s.named peer pick launch = .error why) :
    why = .noSuchSession ∧ launch.anew = false ∧ pick ≠ .new ∧ pick ≠ .latest ∧
      ∀ session live, ¬ s.Picked peer pick launch session live := by
  -- An entry of another peer's, or none, at a number: no session of `peer`'s has it.
  have hnot : ∀ {session : SessionNum} {live : Live}, (s.live.lookup session).all (·.peer ≠ peer) →
      (session, live) ∈ s.live → live.peer ≠ peer := by
    intro session live hall hmem
    rw [Dict.lookup_of_mem hkeys hmem] at hall
    simpa using hall
  unfold named at h
  split at h
  · cases h
  · next hanew =>
    rw [Bool.not_eq_true] at hanew
    cases pick with
    | latest => cases h
    | new => cases h
    | id named =>
      dsimp only at h
      split at h
      · next hall =>
        cases h
        refine ⟨rfl, hanew, by simp, by simp, fun session live hpicked => ?_⟩
        obtain ⟨-, hmem, hpeer, rfl⟩ := hpicked
        exact hnot hall hmem hpeer
      · cases h
    | resume back =>
      dsimp only at h
      split at h
      · next hrun =>
        cases h
        refine ⟨rfl, hanew, by simp, by simp, fun session live hpicked => ?_⟩
        obtain ⟨-, -, -, rfl⟩ := hpicked
        exact hrun rfl
      · split at h
        · next hall =>
          cases h
          refine ⟨rfl, hanew, by simp, by simp, fun session live hpicked => ?_⟩
          obtain ⟨-, hmem, hpeer, rfl⟩ := hpicked
          exact hnot hall hmem hpeer
        · cases h

/-- Why `attach` refuses, before it would start a session. -/
def Refuses (s : Sessions) (allows : Bool) (closing : List ℕ) (peer : Peer) (pick : Pick)
    (launch : Launch) : Close → Prop
  | .notAuthorized => allows = false
  | .noSuchSession => launch.anew = false ∧ pick ≠ .new ∧ pick ≠ .latest ∧
      ∀ session live, s.retain.Picked peer pick launch session live → live.control ∈ closing
  | .atCapacity => ∃ session live, s.retain.Picked peer pick launch session live ∧
      s.trySend live.control = .full

/-- What `attach` does: it refuses, hands the attach to a session that it picks, or
starts one; of the others it forgets some. -/
theorem attach_cases (allows : Bool) (closing : List ℕ) (peer : Peer) (pick : Pick) (a : Attach)
    (hkeys : (s.live.map Prod.fst).Nodup) :
    (∃ s' why, s.attach allows closing peer pick a = (s', .refused why) ∧ Shuts s s' ∧
      s.Refuses allows closing peer pick a.launch why) ∨
    allows = true ∧
      ((∃ s' session live, s.attach allows closing peer pick a = s'.hand session live.control a ∧
          Shuts s s' ∧ s'.trySend live.control = .ok ∧
          s.retain.Picked peer pick a.launch session live) ∨
        ∃ s', s.attach allows closing peer pick a = s'.start peer ∧ Shuts s s' ∧
          s'.live = s.retain.live ∧ (s.retain.Unnamed peer pick a.launch ∨ pick = .latest ∧
            ∃ session live, s.retain.Picked peer pick a.launch session live ∧
              live.control ∈ closing)) := by
  have hretain : Shuts s s.retain := ⟨.of_filter s _, fun _ => .inl rfl⟩
  have hkeys' : (s.retain.live.map Prod.fst).Nodup :=
    hkeys.sublist (List.filter_sublist.map _)
  have hlive := (shut_all_live closing s.retain).1
  have hshuts : Shuts s (closing.foldl shut s.retain) :=
    ⟨hretain.toForgets.trans (shut_all_live closing s.retain).2,
      (shut_all_shuts closing s.retain).task⟩
  unfold attach
  split
  · next hallows =>
    exact .inl ⟨s, .notAuthorized, rfl, ⟨.of_tasks s s.tasks, fun _ => .inl rfl⟩,
      by simpa [Refuses] using hallows⟩
  · next hallows =>
    replace hallows : allows = true := by simpa using hallows
    dsimp only
    cases hnamed : s.retain.named peer pick a.launch with
    | error why =>
      obtain ⟨rfl, hanew, hnew, hlatest, hnone⟩ := named_error hkeys' hnamed
      exact .inl ⟨_, _, rfl, hretain, hanew, hnew, hlatest,
        fun session live hpicked => absurd hpicked (hnone session live)⟩
    | ok named =>
      dsimp only
      cases named with
      | none =>
        exact .inr ⟨hallows, .inr ⟨_, rfl, hshuts, hlive, .inl (named_none hnamed)⟩⟩
      | some session =>
        obtain ⟨live, hpicked⟩ := named_some hnamed
        have hlookup : (closing.foldl shut s.retain).live.lookup session = some live := by
          rw [hlive]
          exact Dict.lookup_of_mem hkeys' hpicked.mem
        have hopen : s.trySend live.control ≠ .closed := by
          rw [Ne, trySend_closed_iff, (mem_retain.mp hpicked.mem).2]
          exact Bool.false_ne_true
        have htry := trySend_shut_all closing s.retain live.control
        replace hopen : s.retain.trySend live.control ≠ .closed := hopen
        simp only [Option.bind_some, hlookup, Option.map_some]
        cases hsent : (closing.foldl shut s.retain).trySend live.control with
        | ok => exact .inr ⟨hallows, .inl ⟨_, session, live, rfl, hshuts, hsent, hpicked⟩⟩
        | full =>
          rw [hsent] at htry
          split at htry
          · cases htry
          · exact .inl ⟨_, _, rfl, hshuts, session, live, hpicked, htry.symm⟩
        | closed =>
          rw [hsent] at htry
          split at htry
          · next hclosing =>
            dsimp only
            split
            · next hlatest =>
              exact .inr ⟨hallows, .inr ⟨_, rfl, hshuts, hlive,
                .inr ⟨hlatest, session, live, hpicked, hclosing⟩⟩⟩
            · next hlatest =>
              refine .inl ⟨_, _, rfl, hshuts, hpicked.anew, ?_, hlatest, ?_⟩
              · rintro rfl
                exact hpicked.named
              · intro session' live' hpicked'
                rwa [hpicked'.unique hkeys' hlatest hpicked]
          · exact absurd htry.symm hopen

/-- A session that is handed an attach is dated by it. -/
theorem hand_live (s : Sessions) (session : SessionNum) (control : ℕ) (a : Attach) :
    (s.hand session control a).1.live = Dict.update s.live session fun live =>
      { live with attached := saturatingAdd s.attaches 1 } :=
  rfl

/-- With room a session is started under the next number. -/
theorem start_of_room {peer : Peer} (h : s.live.length < s.maxSessions) :
    s.start peer = ({ s with
      live := Dict.insert (fun a b => a < b) s.live (saturatingAdd s.last 1)
        ⟨peer, s.tasks.length, saturatingAdd s.attaches 1⟩
      last := saturatingAdd s.last 1
      attaches := saturatingAdd s.attaches 1
      tasks := s.tasks ++ [⟨[], .running⟩] }, .started (saturatingAdd s.last 1)) := by
  rw [start, if_neg (by omega)]

/-- An attach that is handed on waits last in its session's channel. -/
theorem waits_hand {session : SessionNum} {control : ℕ} {a : Attach}
    (hok : s.trySend control = .ok) (c : ℕ) : (s.hand session control a).1.waits c =
      if c = control then s.waits c ++ [a] else s.waits c := by
  simp only [waits, hand, List.getElem?_modify]
  by_cases hc : control = c
  · subst hc
    cases htask : s.tasks[control]? with
    | none =>
      rw [trySend, htask] at hok
      cases hok
    | some task => simp
  · simp [hc, Ne.symm hc]

/-- Nothing waits for a new task. -/
theorem waits_append {live : Dict SessionNum Live} {last : SessionNum} {attaches : ℕ} (c : ℕ) :
    Sessions.waits { s with
      live := live, last := last, attaches := attaches, tasks := s.tasks ++ [⟨[], .running⟩] } c =
    s.waits c := by
  rcases Nat.lt_or_ge c s.tasks.length with hc | hc
  · simp only [waits, List.getElem?_append_left hc]
  · simp only [waits, List.getElem?_append_right hc, List.getElem?_eq_none hc]
    rcases c - s.tasks.length with _ | _ <;> rfl

/-- An attach that is handed on changes no session's peer. -/
theorem hand_peers {session : SessionNum} {control : ℕ} {a : Attach} {e : SessionNum × Live}
    (he : e ∈ (s.hand session control a).1.live) : ∃ e' ∈ s.live, e'.2.peer = e.2.peer := by
  rw [hand_live] at he
  obtain ⟨live, hmem, ⟨-, hv⟩ | ⟨-, hv⟩⟩ := Dict.mem_update he
  · exact ⟨_, hmem, by rw [hv]⟩
  · exact ⟨_, hmem, by rw [hv]⟩

/-- A session that is started is its peer's. -/
theorem start_peers {peer : Peer} {e : SessionNum × Live} (he : e ∈ (s.start peer).1.live) :
    (∃ e' ∈ s.live, e'.2.peer = e.2.peer) ∨ e.2.peer = peer := by
  unfold start at he
  split at he
  · exact .inl ⟨e, he, rfl⟩
  · dsimp only at he
    rcases Dict.mem_insert he with rfl | he
    · exact .inr rfl
    · exact .inl ⟨e, he, rfl⟩

end Sessions

/-! ### What holds in every run -/

theorem saturatingAdd_min (a : ℕ) : saturatingAdd (min a u64Max) 1 = saturatingAdd a 1 := by
  simp only [saturatingAdd]
  omega

/-- What holds of the sessions in every run: the counts, the numbers, and that an entry is
of a session started for its peer, attached to when the log has it last. -/
structure Kept (maxSessions : ℕ) (run : RunId) (s : Sessions) (log : List SessionNum)
    (started : List (SessionNum × Peer)) : Prop where
  maxSessions : s.maxSessions = maxSessions
  run : s.run = run
  attaches : s.attaches = min log.length u64Max
  last : s.last = min started.length u64Max
  numbers : started.map Prod.fst = (List.range started.length).map (saturatingAdd · 1)
  fewer : started.length ≤ log.length
  room : s.live.length ≤ s.maxSessions
  keys : (s.live.map Prod.fst).Nodup
  owned : ∀ e ∈ s.live, (e.1, e.2.peer) ∈ started
  attached : ∀ e ∈ s.live, ∃ l₁ l₂, log = l₁ ++ e.1 :: l₂ ∧ e.1 ∉ l₂ ∧
    e.2.attached = saturatingAdd l₁.length 1

namespace Kept

variable {maxSessions : ℕ} {run : RunId} {s s' : Sessions} {log : List SessionNum}
  {started : List (SessionNum × Peer)}

/-- What forgets sessions keeps the log. -/
theorem forgets (h : Kept maxSessions run s log started) (hs : s.Forgets s') :
    Kept maxSessions run s' log started where
  maxSessions := hs.maxSessions.trans h.maxSessions
  run := hs.run.trans h.run
  attaches := hs.attaches.trans h.attaches
  last := hs.last.trans h.last
  numbers := h.numbers
  fewer := h.fewer
  room := by
    rw [hs.maxSessions]
    exact hs.live.length_le.trans h.room
  keys := h.keys.sublist (hs.live.map _)
  owned e he := h.owned e (hs.live.subset he)
  attached e he := h.attached e (hs.live.subset he)

/-- Another session was attached to: an entry says what it said. -/
theorem attached_other {e : SessionNum × Live} {session : SessionNum} (hne : e.1 ≠ session)
    (h : ∃ l₁ l₂, log = l₁ ++ e.1 :: l₂ ∧ e.1 ∉ l₂ ∧ e.2.attached = saturatingAdd l₁.length 1) :
    ∃ l₁ l₂, log ++ [session] = l₁ ++ e.1 :: l₂ ∧ e.1 ∉ l₂ ∧
      e.2.attached = saturatingAdd l₁.length 1 := by
  obtain ⟨l₁, l₂, rfl, hnot, hat⟩ := h
  refine ⟨l₁, l₂ ++ [session], by simp, ?_, hat⟩
  simpa [hnot] using hne

/-- An attach that is handed is logged. -/
theorem hand (h : Kept maxSessions run s log started) {session : SessionNum} (control : ℕ)
    (a : Attach) :
    Kept maxSessions run (s.hand session control a).1 (log ++ [session]) started where
  maxSessions := h.maxSessions
  run := h.run
  attaches := by
    show saturatingAdd s.attaches 1 = _
    rw [h.attaches, saturatingAdd_min, List.length_append]
    rfl
  last := h.last
  numbers := h.numbers
  fewer := by
    rw [List.length_append]
    exact h.fewer.trans (Nat.le_add_right _ _)
  room := by
    rw [Sessions.hand_live, Dict.length_update]
    exact h.room
  keys := by
    rw [Sessions.hand_live, Dict.keys_update]
    exact h.keys
  owned e he := by
    rw [Sessions.hand_live] at he
    obtain ⟨live, hmem, ⟨-, hv⟩ | ⟨-, hv⟩⟩ := Dict.mem_update he
    · rw [hv]
      exact h.owned _ hmem
    · rw [hv]
      exact h.owned _ hmem
  attached e he := by
    rw [Sessions.hand_live] at he
    obtain ⟨live, hmem, ⟨hk, hv⟩ | ⟨hk, hv⟩⟩ := Dict.mem_update he
    · refine ⟨log, [], by rw [hk], by simp, ?_⟩
      rw [hv]
      show saturatingAdd s.attaches 1 = _
      rw [h.attaches, saturatingAdd_min]
    · refine attached_other hk ?_
      rw [hv]
      exact h.attached _ hmem

/-- A session that is started is logged, under a number of its own. -/
theorem start (h : Kept maxSessions run s log started) (peer : Peer)
    (hroom : s.live.length < s.maxSessions) :
    Kept maxSessions run (s.start peer).1 (log ++ [saturatingAdd s.last 1])
      (started ++ [(saturatingAdd s.last 1, peer)]) := by
  have hkeys := @Dict.nodup_insert _ _ _ (fun a b => decide (a < b)) (by simp) _ h.keys
    (saturatingAdd s.last 1) ⟨peer, s.tasks.length, saturatingAdd s.attaches 1⟩
  have hlive := congrArg (·.1.live) (@Sessions.start_of_room s peer hroom)
  dsimp only at hlive
  rw [← hlive] at hkeys
  refine ⟨?_, ?_, ?_, ?_, ?_, ?_, ?_, hkeys, fun e he => ?_, fun e he => ?_⟩
  · rw [Sessions.start_of_room hroom]
    exact h.maxSessions
  · rw [Sessions.start_of_room hroom]
    exact h.run
  · rw [Sessions.start_of_room hroom, List.length_append]
    show saturatingAdd s.attaches 1 = _
    rw [h.attaches, saturatingAdd_min]
    rfl
  · rw [Sessions.start_of_room hroom, List.length_append]
    show saturatingAdd s.last 1 = _
    rw [h.last, saturatingAdd_min]
    rfl
  · rw [List.map_append, h.numbers, List.length_append, List.length_singleton, List.range_succ,
      List.map_append, h.last, saturatingAdd_min]
    rfl
  · rw [List.length_append, List.length_append]
    exact Nat.add_le_add_right h.fewer _
  · rw [hlive, Sessions.start_of_room hroom]
    exact (Dict.length_insert_le _ _ _ _).trans hroom
  · rw [hlive] at he
    rcases Dict.mem_insert he with rfl | he
    · exact List.mem_append_right _ (List.mem_singleton_self _)
    · exact List.mem_append_left _ (h.owned e he)
  · by_cases hk : e.1 = saturatingAdd s.last 1
    · have hself := Dict.mem_insert_self (fun a b : SessionNum => decide (a < b)) s.live
        (saturatingAdd s.last 1) ⟨peer, s.tasks.length, saturatingAdd s.attaches 1⟩
      rw [← hlive, ← hk] at hself
      refine ⟨log, [], by rw [hk], by simp, ?_⟩
      rw [Dict.value_unique hkeys he hself]
      show saturatingAdd s.attaches 1 = _
      rw [h.attaches, saturatingAdd_min]
    · rw [hlive] at he
      rcases Dict.mem_insert he with rfl | he
      · exact absurd rfl hk
      · exact attached_other hk (h.attached e he)

end Kept

namespace Registry

open Sessions (Forgets attach_cases)

variable {maxSessions : ℕ} {run : RunId} {s s' : Registry}

/-- An attach leaves the table right, whatever it comes to; a session it adds is of a key
that may attach. -/
theorem attach_kept (h : Kept maxSessions run s.sessions s.log s.started) (closing : List ℕ)
    (peer : Peer) (pick : Pick) (a : Attach) {done : Sessions × Outcome}
    (hdone : s.sessions.attach (s.allows peer) closing peer pick a = done) (queue : List Request) :
    let s' := { s with queue := queue, sessions := done.1 }.noted peer done.2
    Kept maxSessions run s'.sessions s'.log s'.started ∧ s'.allowed = s.allowed ∧
      ∀ e ∈ s'.sessions.live, (∃ e' ∈ s.sessions.live, e'.2.peer = e.2.peer) ∨
        s.allows e.2.peer = true := by
  subst hdone
  have hold : ∀ {mid : Sessions} {peer' : Peer}, s.sessions.Forgets mid →
      (∃ e' ∈ mid.live, e'.2.peer = peer') → ∃ e' ∈ s.sessions.live, e'.2.peer = peer' :=
    fun hmid ⟨e', he', hpeer⟩ => ⟨e', hmid.live.subset he', hpeer⟩
  rcases attach_cases (s.allows peer) closing peer pick a h.keys with
    ⟨mid, why, heq, ⟨hmid, -⟩, -⟩ |
    ⟨hallows, ⟨mid, session, live, heq, ⟨hmid, -⟩, -⟩ | ⟨mid, heq, ⟨hmid, -⟩, -⟩⟩
  · rw [heq]
    exact ⟨h.forgets hmid, rfl, fun e he => .inl (hold hmid ⟨e, he, rfl⟩)⟩
  · rw [heq]
    refine ⟨(h.forgets hmid).hand live.control a, rfl, fun e he => .inl (hold hmid ?_)⟩
    exact @Sessions.hand_peers mid session live.control a e he
  · rw [heq]
    have hlive : ∀ e ∈ (mid.start peer).1.live, (∃ e' ∈ s.sessions.live, e'.2.peer = e.2.peer) ∨
        s.allows e.2.peer = true := by
      intro e he
      rcases Sessions.start_peers he with hmem | rfl
      · exact .inl (hold hmid hmem)
      · exact .inr hallows
    by_cases hroom : mid.live.length < mid.maxSessions
    · have hkept := (h.forgets hmid).start peer hroom
      rw [Sessions.start_of_room hroom] at hkept hlive ⊢
      exact ⟨hkept, rfl, hlive⟩
    · rw [Sessions.start, if_pos (by omega)]
      exact ⟨h.forgets hmid, rfl, fun e he => .inl (hold hmid ⟨e, he, rfl⟩)⟩

/-- What one move does: the table stays right, the list changes only where one is
published, and a session that is added is of a key that may attach. -/
theorem step_kept (h : Kept maxSessions run s.sessions s.log s.started) {m : RegistryMove}
    (hstep : s.step m = some s') :
    Kept maxSessions run s'.sessions s'.log s'.started ∧
      (s'.allowed = s.allowed ∨ m = .publish s'.allowed) ∧
      ∀ e ∈ s'.sessions.live, (∃ e' ∈ s.sessions.live, e'.2.peer = e.2.peer) ∨
        s.allows e.2.peer = true := by
  have hforgets : ∀ {sessions : Sessions}, s.sessions.Forgets sessions →
      Kept maxSessions run sessions s.log s.started ∧ ∀ e ∈ sessions.live,
        (∃ e' ∈ s.sessions.live, e'.2.peer = e.2.peer) ∨ s.allows e.2.peer = true :=
    fun hs => ⟨h.forgets hs, fun e he => .inl ⟨e, hs.live.subset he, rfl⟩⟩
  have hsame := hforgets (.of_tasks s.sessions s.sessions.tasks)
  cases m with
  | publish clients =>
    simp only [step] at hstep
    split at hstep
    · cases hstep
      exact ⟨h, .inr rfl, hsame.2⟩
    · cases hstep
  | askEnd =>
    simp only [step] at hstep
    split at hstep
    · split at hstep
      · cases hstep
        exact ⟨h, .inl rfl, hsame.2⟩
      · cases hstep
    · cases hstep
  | ask peer attach =>
    simp only [step] at hstep
    split at hstep
    · cases hstep
      exact ⟨h, .inl rfl, hsame.2⟩
    · cases hstep
  | handle closing =>
    simp only [step] at hstep
    split at hstep
    · next peer pick a queue _ =>
      cases hstep
      obtain ⟨hkept, hallowed, hlive⟩ := attach_kept h closing peer pick a rfl queue
      exact ⟨hkept, .inl hallowed, hlive⟩
    · next peer _ _ =>
      cases hstep
      obtain ⟨hkept, hlive⟩ := hforgets (.of_filter s.sessions _)
      exact ⟨hkept, .inl rfl, hlive⟩
    · next peer _ _ =>
      cases hstep
      obtain ⟨hkept, hlive⟩ := hforgets (.of_filter s.sessions _)
      exact ⟨hkept, .inl rfl, hlive⟩
    · cases hstep
  | answer control =>
    simp only [step] at hstep
    split at hstep
    · cases hstep
      obtain ⟨hkept, hlive⟩ := hforgets (.of_tasks s.sessions _)
      exact ⟨hkept, .inl rfl, hlive⟩
    · cases hstep
  | shut control =>
    cases hstep
    obtain ⟨hkept, hlive⟩ := hforgets (.of_tasks s.sessions _)
    exact ⟨hkept, .inl rfl, hlive⟩
  | finish control =>
    simp only [step] at hstep
    split at hstep
    · cases hstep
      obtain ⟨hkept, hlive⟩ := hforgets (.of_tasks s.sessions _)
      exact ⟨hkept, .inl rfl, hlive⟩
    · cases hstep
  | join control =>
    obtain ⟨sessions, hended, rfl⟩ := Option.map_eq_some_iff.mp hstep
    unfold Sessions.ended at hended
    split at hended
    · cases hended
      obtain ⟨hkept, hlive⟩ := hforgets ((Forgets.of_tasks s.sessions _).trans (.of_filter _ _))
      exact ⟨hkept, .inl rfl, hlive⟩
    · cases hended

/-- Every run keeps the registry. -/
theorem reachable_kept {clients : Clients} (h : Reachable step (init clients maxSessions run) s) :
    Kept maxSessions run s.sessions s.log s.started := by
  have hinit : Kept maxSessions run (Sessions.new maxSessions run) [] [] :=
    ⟨rfl, rfl, rfl, rfl, rfl, Nat.le_refl 0, Nat.zero_le _, List.nodup_nil, by simp [Sessions.new],
      by simp [Sessions.new]⟩
  exact h.invariant (fun s => Kept maxSessions run s.sessions s.log s.started) hinit
    fun _ _ _ hs _ hstep => (step_kept hs hstep).1

/-- Sessions are numbered upwards. -/
theorem numbers_rise (h : Kept maxSessions run s.sessions s.log s.started)
    (hlog : s.log.length < u64Max) : (s.started.map Prod.fst).Pairwise (· < ·) := by
  have hfewer := h.fewer
  rw [h.numbers, List.pairwise_map]
  refine List.pairwise_lt_range.imp_of_mem fun {i j} hi hj hij => ?_
  rw [List.mem_range] at hi hj
  show min (i + 1) u64Max < min (j + 1) u64Max
  omega

/-- No number is given twice. -/
theorem numbers_nodup (h : Kept maxSessions run s.sessions s.log s.started)
    (hlog : s.log.length < u64Max) : (s.started.map Prod.fst).Nodup :=
  (numbers_rise h hlog).imp Nat.ne_of_lt

/-- What is attached to after a place in the log was attached to last after it. -/
theorem attached_after (h : Kept maxSessions run s.sessions s.log s.started)
    (hlog : s.log.length < u64Max) {l₁ l₂ : List SessionNum} {n : SessionNum}
    (hsplit : s.log = l₁ ++ n :: l₂) {e : SessionNum × Live} (he : e ∈ s.sessions.live)
    (hmem : e.1 ∈ l₂) : saturatingAdd l₁.length 1 < e.2.attached := by
  obtain ⟨m₁, m₂, hlast, hnot, hat⟩ := h.attached e he
  have hlt : m₂.length < l₂.length := by
    by_contra hle
    have hl : l₂ <:+ s.log := ⟨l₁ ++ [n], by simp [hsplit]⟩
    have hm : m₂ <:+ s.log := ⟨m₁ ++ [e.1], by simp [hlast]⟩
    exact hnot ((List.suffix_of_suffix_length_le hl hm (not_lt.mp hle)).subset hmem)
  have hlen : l₁.length + 1 + l₂.length = s.log.length := by
    simp only [hsplit, List.length_append, List.length_cons]
    omega
  have hlen' : m₁.length + 1 + m₂.length = s.log.length := by
    simp only [hlast, List.length_append, List.length_cons]
    omega
  rw [hat]
  simp only [saturatingAdd]
  omega

/-- A peer's live session is its own. -/
theorem own_of_mem (h : Kept maxSessions run s.sessions s.log s.started) {e : SessionNum × Live}
    (he : e ∈ s.sessions.retain.live) : s.Own e.2.peer e.1 := by
  obtain ⟨hlive, hopen⟩ := Sessions.mem_retain.mp he
  exact ⟨h.owned e hlive, e.2, hlive, hopen⟩

/-- A peer's own session has an open entry, which says it is the peer's. -/
theorem own_iff (h : Kept maxSessions run s.sessions s.log s.started)
    (hlog : s.log.length < u64Max) {peer : Peer} {session : SessionNum} :
    s.Own peer session ↔ ∃ live, (session, live) ∈ s.sessions.retain.live ∧ live.peer = peer := by
  constructor
  · rintro ⟨hstarted, live, hlive, hopen⟩
    exact ⟨live, Sessions.mem_retain.mpr ⟨hlive, hopen⟩,
      Dict.value_unique (numbers_nodup h hlog) (h.owned _ hlive) hstarted⟩
  · rintro ⟨live, hmem, rfl⟩
    exact own_of_mem h hmem

/-- What the table picks is what `pick` names. -/
theorem names_of_picked (h : Kept maxSessions run s.sessions s.log s.started)
    (hlog : s.log.length < u64Max) {peer : Peer} {pick : Pick} {launch : Launch}
    {session : SessionNum} {live : Live}
    (hpicked : s.sessions.retain.Picked peer pick launch session live) :
    s.Names peer session pick := by
  obtain ⟨-, hmem, hpeer, hnamed⟩ := hpicked
  have hown := (own_iff h hlog).mpr ⟨live, hmem, hpeer⟩
  cases pick with
  | latest =>
    obtain ⟨hlive, -⟩ := Sessions.mem_retain.mp hmem
    obtain ⟨l₁, l₂, hsplit, -, hat⟩ := h.attached _ hlive
    refine ⟨hown, l₁, l₂, hsplit, fun other hother hother' => ?_⟩
    obtain ⟨live', hmem', hpeer'⟩ := (own_iff h hlog).mp hother'
    have hle : live'.attached ≤ live.attached := hnamed (other, live') hmem' hpeer'
    have hlt := attached_after h hlog hsplit (Sessions.mem_retain.mp hmem').1 hother
    dsimp only at hat hlt
    omega
  | new => exact hnamed.elim
  | id named => exact ⟨hown, hnamed⟩
  | resume back => exact ⟨hown, hnamed⟩

/-- What `pick` names by number, the table picks. -/
theorem picked_of_names (h : Kept maxSessions run s.sessions s.log s.started)
    (hlog : s.log.length < u64Max) {peer : Peer} {pick : Pick} {launch : Launch}
    {session : SessionNum} (hanew : launch.anew = false) (hlatest : pick ≠ .latest)
    (hnames : s.Names peer session pick) :
    ∃ live, s.sessions.retain.Picked peer pick launch session live := by
  cases pick with
  | latest => exact absurd rfl hlatest
  | new => exact hnames.elim
  | id named =>
    obtain ⟨hown, hnamed⟩ := hnames
    obtain ⟨live, hmem, hpeer⟩ := (own_iff h hlog).mp hown
    exact ⟨live, hanew, hmem, hpeer, hnamed⟩
  | resume back =>
    obtain ⟨hown, hnamed⟩ := hnames
    obtain ⟨live, hmem, hpeer⟩ := (own_iff h hlog).mp hown
    exact ⟨live, hanew, hmem, hpeer, hnamed⟩

/-- A picked session whose channel is closing is closed. -/
theorem closes_of_picked {peer : Peer} {pick : Pick} {launch : Launch} {session : SessionNum}
    {live : Live} {closing : List ℕ}
    (hpicked : s.sessions.retain.Picked peer pick launch session live)
    (hclosing : live.control ∈ closing) : s.Closes closing session :=
  ⟨live, (Sessions.mem_retain.mp hpicked.mem).1, hclosing⟩

/-- An attach is refused for a reason. -/
theorem refused_right (h : Kept maxSessions run s.sessions s.log s.started)
    (hlog : s.log.length < u64Max) {allows : Bool} {closing : List ℕ} {peer : Peer} {pick : Pick}
    {launch : Launch} {why : Close}
    (hwhy : s.sessions.Refuses allows closing peer pick launch why) :
    s.Right allows closing peer pick launch (.refused why) := by
  cases why with
  | notAuthorized => exact hwhy
  | noSuchSession =>
    obtain ⟨hanew, hnew, hlatest, hcloses⟩ := hwhy
    refine ⟨hanew, hnew, hlatest, fun n hnames => ?_⟩
    obtain ⟨live, hpicked⟩ := picked_of_names h hlog hanew hlatest hnames
    exact closes_of_picked hpicked (hcloses n live hpicked)
  | atCapacity =>
    obtain ⟨session, live, hpicked, hfull⟩ := hwhy
    exact .inr ⟨hpicked.anew, session, live, names_of_picked h hlog hpicked,
      (Sessions.mem_retain.mp hpicked.mem).1, hfull⟩

/-- What the table starts a session for. -/
theorem anew_of_unnamed (h : Kept maxSessions run s.sessions s.log s.started)
    (hlog : s.log.length < u64Max) {closing : List ℕ} {peer : Peer} {pick : Pick} {launch : Launch}
    (hpick : s.sessions.retain.Unnamed peer pick launch ∨ pick = .latest ∧
      ∃ session live, s.sessions.retain.Picked peer pick launch session live ∧
        live.control ∈ closing) : s.Anew closing peer pick launch := by
  rcases hpick with (hanew | hnew | ⟨hlatest, hnone⟩) | ⟨hlatest, session, live, hpicked, hclosing⟩
  · exact .inl hanew
  · exact .inr (.inl hnew)
  · refine .inr (.inr ⟨hlatest, .inl fun n hown => ?_⟩)
    obtain ⟨live, hmem, hpeer⟩ := (own_iff h hlog).mp hown
    exact hnone _ hmem hpeer
  · have hnames := names_of_picked h hlog hpicked
    rw [hlatest] at hnames
    exact .inr (.inr ⟨hlatest, .inr ⟨session, hnames, closes_of_picked hpicked hclosing⟩⟩)

/-- An attach comes to what it may. -/
theorem attach_right (h : Kept maxSessions run s.sessions s.log s.started)
    (hlog : s.log.length < u64Max) (allows : Bool) (closing : List ℕ) (peer : Peer) (pick : Pick)
    (a : Attach) : s.Right allows closing peer pick a.launch
      (s.sessions.attach allows closing peer pick a).2 := by
  rcases attach_cases allows closing peer pick a h.keys with
    ⟨mid, why, heq, -, hwhy⟩ |
    ⟨hallows, ⟨mid, session, live, heq, -, -, hpicked⟩ | ⟨mid, heq, hmid, hlive, hpick⟩⟩
  · rw [heq]
    exact refused_right h hlog hwhy
  · rw [heq]
    exact ⟨hallows, hpicked.anew, names_of_picked h hlog hpicked⟩
  · rw [heq]
    have hanew := anew_of_unnamed h hlog hpick
    by_cases hroom : mid.live.length < mid.maxSessions
    · rw [Sessions.start_of_room hroom]
      refine ⟨hallows, hanew, fun e he => ?_⟩
      have hfewer := h.fewer
      have hnum : e.1 ∈ s.started.map Prod.fst := List.mem_map_of_mem he
      rw [h.numbers, List.mem_map] at hnum
      obtain ⟨i, hi, heq⟩ := hnum
      rw [List.mem_range] at hi
      rw [hmid.last, h.last, ← heq]
      show min (i + 1) u64Max < min (min s.started.length u64Max + 1) u64Max
      omega
    · rw [not_lt, hmid.maxSessions, hlive] at hroom
      rw [Sessions.start, if_pos (by rw [hmid.maxSessions, hlive]; exact hroom)]
      exact .inl ⟨hanew, hroom⟩

/-- An attach goes where its outcome says, and nowhere else. -/
theorem attach_sends (h : Kept maxSessions run s.sessions s.log s.started) (allows : Bool)
    (closing : List ℕ) (peer : Peer) (pick : Pick) (a : Attach) :
    Sends s.sessions (s.sessions.attach allows closing peer pick a).1 peer a
      (s.sessions.attach allows closing peer pick a).2 := by
  rcases attach_cases allows closing peer pick a h.keys with
    ⟨mid, why, heq, hmid, -⟩ |
    ⟨-, ⟨mid, session, live, heq, hmid, hok, hpicked⟩ | ⟨mid, heq, hmid, -⟩⟩
  · rw [heq]
    exact hmid.waits
  · rw [heq]
    refine ⟨live, (Sessions.mem_retain.mp hpicked.mem).1, ?_, fun c hc => ?_⟩
    · rw [Sessions.waits_hand hok, if_pos rfl, hmid.waits_of_ok hok]
    · rw [Sessions.waits_hand hok, if_neg hc]
      exact hmid.waits c
  · rw [heq]
    by_cases hroom : mid.live.length < mid.maxSessions
    · rw [Sessions.start_of_room hroom]
      refine ⟨⟨_, Dict.mem_insert_self (fun a b => decide (a < b)) mid.live _ _, rfl,
        List.getElem?_concat_length⟩, fun c => ?_⟩
      rw [Sessions.waits_append]
      exact hmid.waits c
    · rw [Sessions.start, if_pos (by omega)]
      exact hmid.waits

/-- Once the end of the sessions of a key was handled that may not attach, it has no live
session until a list is published that allows it to. -/
theorem stays_ended {peer : Peer} (h : Kept maxSessions run s.sessions s.log s.started)
    (hallows : s.allows peer = false) (hnone : ∀ e ∈ s.sessions.live, e.2.peer ≠ peer)
    (hreach : Reaches step (fun _ m => Forbids peer m) s s') :
    ∀ e ∈ s'.sessions.live, e.2.peer ≠ peer := by
  refine (hreach.invariant (fun s => Kept maxSessions run s.sessions s.log s.started ∧
    s.allows peer = false ∧ ∀ e ∈ s.sessions.live, e.2.peer ≠ peer) ⟨h, hallows, hnone⟩ ?_).2.2
  rintro s m s' ⟨h, hallows, hnone⟩ hforbids hstep
  obtain ⟨hkept, hallowed, hlive⟩ := step_kept h hstep
  refine ⟨hkept, ?_, fun e he hpeer => ?_⟩
  · rcases hallowed with heq | rfl
    · rw [allows, heq]
      exact hallows
    · exact hforbids
  · rcases hlive e he with ⟨e', he', hsame⟩ | hallow
    · exact hnone e' he' (hsame.trans hpeer)
    · rw [hpeer, hallows] at hallow
      cases hallow

/-- **The registry keeps its promises**, in every run in which fewer than `2 ^ 64 - 1`
attaches went to a session: there are never too many live sessions; numbers rise; an
attach comes to what it may and goes to that session alone, and a listing tells all the peer's
own sessions and no other;
and a key whose sessions were ended, which may not attach, has none until it may. -/
theorem keeps_promises {clients : Clients} {maxSessions : ℕ} {run : RunId} {s : Registry}
    (h : Reachable step (init clients maxSessions run) s) (hlog : s.log.length < u64Max) :
    (s.sessions.live.length ≤ maxSessions ∧ s.sessions.run = run) ∧
    (s.started.map Prod.fst).Pairwise (· < ·) ∧
    (∀ allows closing peer pick a, s.Right allows closing peer pick a.launch
        (s.sessions.attach allows closing peer pick a).2 ∧
      Sends s.sessions (s.sessions.attach allows closing peer pick a).1 peer a
        (s.sessions.attach allows closing peer pick a).2) ∧
    (∀ peer n, n ∈ (s.sessions.list peer).2 ↔ s.Own peer n) ∧
    ∀ peer queue closing s₁ s₂, s.queue = .stop peer :: queue → s.allows peer = false →
      s.step (.handle closing) = some s₁ → Reaches step (fun _ m => Forbids peer m) s₁ s₂ →
      ∀ e ∈ s₂.sessions.live, e.2.peer ≠ peer := by
  have hkept := reachable_kept h
  refine ⟨⟨?_, hkept.run⟩, numbers_rise hkept hlog, ?_, ?_, ?_⟩
  · rw [← hkept.maxSessions]
    exact hkept.room
  · exact fun allows closing peer pick a =>
      ⟨attach_right hkept hlog allows closing peer pick a,
        attach_sends hkept allows closing peer pick a⟩
  · intro peer n
    rw [own_iff hkept hlog]
    simp [Sessions.list]
  · intro peer queue closing s₁ s₂ hqueue hallows hstep hreach
    obtain ⟨hkept₁, hallowed, -⟩ := step_kept hkept hstep
    simp only [step, hqueue] at hstep
    cases hstep
    refine stays_ended hkept₁ hallows (fun e he => ?_) hreach
    simpa using (List.mem_filter.mp he).2

/-- An attach that names no program and no directory. -/
def plain : Attach := ⟨⟨24, 80⟩, 0, ⟨none, none⟩, 0⟩

/-- In `keeps_promises`, a session is started and attached to again. -/
theorem keeps_promises_twice :
    ∃ s, Reachable step (init (.alone 7) 2 0) s ∧ s.log = [1, 1] ∧
      (s.sessions.live.length ≤ 2 ∧ s.sessions.run = 0) ∧
      (s.started.map Prod.fst).Pairwise (· < ·) ∧
      ∀ allows closing peer pick a, s.Right allows closing peer pick a.launch
          (s.sessions.attach allows closing peer pick a).2 ∧
        Sends s.sessions (s.sessions.attach allows closing peer pick a).1 peer a
          (s.sessions.attach allows closing peer pick a).2 := by
  obtain ⟨s, hs, hlog⟩ := Option.map_eq_some_iff.mp
    (show (runWhile step (fun _ _ => True) (init (.alone 7) 2 0)
      [.ask 7 (some (.new, plain)), .handle [], .ask 7 (some (.latest, plain)), .handle []]).map
        Registry.log = some [1, 1] by decide +kernel)
  have hreach := reaches_of_run hs
  obtain ⟨hroom, hrise, hright, -⟩ := keeps_promises hreach (by rw [hlog]; decide)
  exact ⟨s, hreach, hlog, hroom, hrise, hright⟩

/-- A session that is asked for and started, and ends, leaves room for the next. -/
theorem started_again (k : ℕ) : ∃ s, Reachable step (init (.alone 7) 1 0) s ∧
    s.started.length = k ∧ s.queue = [] ∧ s.sessions.live = [] ∧ s.allowed = .alone 7 ∧
    s.sessions.maxSessions = 1 := by
  induction k with
  | zero => exact ⟨_, .refl, rfl, rfl, rfl, rfl, rfl⟩
  | succ k ih =>
    obtain ⟨⟨_, due, _, ⟨_, last, attaches, tasks, _, run⟩, log, started⟩, hreach, hlen, hqueue, hlive,
      hallowed, hmax⟩ := ih
    subst hqueue hlive hallowed hmax
    have hrun : runWhile step (fun _ _ => True)
        ⟨.alone 7, due, [], ⟨[], last, attaches, tasks, 1, run⟩, log, started⟩
        [.ask 7 (some (.new, plain)), .handle [], .shut tasks.length, .ask 7 none, .handle []] =
      some ⟨.alone 7, due, [], ⟨[], saturatingAdd last 1, saturatingAdd attaches 1,
        tasks ++ [⟨[], .closing⟩], 1, run⟩, log ++ [saturatingAdd last 1],
        started ++ [(saturatingAdd last 1, 7)]⟩ := by
      simp [runWhile, step, requestQueue, allows, Clients.alone, Clients.get, Scope.isFull,
        Scope.full, Sessions.attach, Sessions.named, Launch.anew, plain, Sessions.retain,
        Sessions.start, noted, Sessions.shut, Sessions.list, Sessions.isClosed, Dict.insert,
        List.modify_eq_take_cons_drop]
    refine ⟨_, Relation.ReflTransGen.trans hreach (reaches_of_run hrun), ?_, rfl, rfl, rfl, rfl⟩
    simpa using hlen

/-- Another run's session is asked for, with a program. -/
def elsewhere : Attach := ⟨⟨24, 80⟩, 0, ⟨some ["vi"], none⟩, 0⟩

/-- **An attach of another run's session attaches**, where it names a program: a new
session is started for it. And a number is used again once `2 ^ 64 - 1` were. -/
theorem resumed_anew :
    (∃ s, Reachable step (init (.alone 7) 1 0) s ∧ ∃ session,
      (s.sessions.attach (s.allows 7) [] 7 (.resume ⟨1, 1⟩) elsewhere).2 = .started session ∧
        s.sessions.run ≠ 1) ∧
    ∃ s, Reachable step (init (.alone 7) 1 0) s ∧ ¬ (s.started.map Prod.fst).Pairwise (· < ·) := by
  constructor
  · exact ⟨_, .refl, 1, by decide +kernel, by decide⟩
  · obtain ⟨s, hreach, hlen, -⟩ := started_again (u64Max + 1)
    refine ⟨s, hreach, fun hrise => ?_⟩
    rw [(reachable_kept hreach).numbers, hlen, List.pairwise_map, List.pairwise_iff_getElem] at hrise
    have hpos : 0 < u64Max := by decide
    have hlt := hrise (u64Max - 1) u64Max (by rw [List.length_range]; omega)
      (by rw [List.length_range]; omega) (by omega)
    rw [List.getElem_range, List.getElem_range] at hlt
    replace hlt : min (u64Max - 1 + 1) u64Max < min (u64Max + 1) u64Max := hlt
    omega

end Registry

end Koh.Server
