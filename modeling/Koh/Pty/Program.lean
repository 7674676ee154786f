import Koh.Lib.Log
import Koh.Lib.Reach
import Mathlib.Algebra.GroupWithZero.Nat
import Mathlib.Logic.Function.Basic

/-!
# Programs, hung up and reaped

`Program`, `Stopping` and `Reaper` from `pty.rs`: a program that koh started is signalled and
reaped by who owns it, hung up when it is dropped, and then killed and reaped by the reaper's
thread.

## Main definitions

- `Child`: a process that koh started, and where its `Running` is
- `World`, `World.step`: the owners, the reaper and the system, one call at a time
- `World.Steps`: what a call does, and when it is made
- `Laws`: what is asked of what happened to a child

## Main results

- `Kept.step`: what every call keeps, so that every child's story is lawful

## Design notes

A child's `Running` is owned by one of its `Program`, the reaper's channel and the reaper, so
`place` says which. What uses a `Program` (a PTY, `koh exec`'s `finish`) is any order of its calls.
A number of the system's (`pids`) is a process's until that is reaped, or that of a process that
is not koh's. Time goes on between any two calls; it is a natural number, so `checked_add` does not
fail. Whom the reaper tells that none is left is no part of this.
-/

namespace Koh.Pty

open Koh.Lib

/-- Nanoseconds that a hung-up program has to exit, before it is killed. -/
def hangupGrace : ℕ := 10 ^ 9

inductive Signal where
  | hup
  | int
  | term
  | kill
  deriving DecidableEq

/-- Whom a hang-up reaches. -/
inductive Whom where
  /-- The program alone. -/
  | leader
  /-- Its whole process group, whose number is the program's. -/
  | group
  deriving DecidableEq

inductive Holder where
  | child (c : ℕ)
  | other
  deriving DecidableEq

inductive Happening where
  /-- A signal was sent to its number, or its group's, then of `holder`. -/
  | signalled (signal : Signal) (holder : Option Holder) (time : ℕ)
  /-- Its `Program` was dropped. -/
  | dropped (time : ℕ)
  | reaped
  deriving DecidableEq

inductive Place where
  | unstarted
  /-- In its `Program`. -/
  | program
  /-- Its `Program` reaped it. -/
  | ended
  /-- Its `Program` is being dropped, and has hung it up. -/
  | dropping
  /-- On the way to the reaper. -/
  | sent (killAt : Option ℕ)
  /-- Among the reaper's. -/
  | stopping (killAt : Option ℕ)
  | gone
  deriving DecidableEq

structure Child where
  pid : ℕ
  whom : Whom
  /-- It ended, and is a zombie until it is reaped. -/
  exited : Bool
  place : Place
  story : List Happening
  deriving DecidableEq

/-- What the reaper is given. -/
inductive Reap where
  | child (c : ℕ)
  | drain
  deriving DecidableEq

inductive Phase where
  /-- It waits to receive. -/
  | waiting (children : List ℕ)
  /-- It looks at one after another, and keeps who is not reaped. -/
  | passing (todo kept : List ℕ)
  /-- It waits for a child. -/
  | trying (c : ℕ) (todo kept : List ℕ)
  | stopped
  deriving DecidableEq

structure World where
  now : ℕ
  pids : ℕ → Option Holder
  /-- How many were started. -/
  next : ℕ
  children : ℕ → Child
  /-- Handles of the reaper that are in no `Program`. -/
  handles : ℕ
  channel : List Reap
  reaper : Phase

inductive Move where
  /-- A program is started, and gets a number that is free. -/
  | start (whom : Whom) (pid : ℕ)
  | clone
  | release
  | drain
  /-- `Program::signal`. -/
  | signal (c : ℕ) (signal : Signal)
  /-- `Program::try_wait`, which may fail. -/
  | tryWait (c : ℕ) (fails : Bool)
  /-- A `Program` is dropped, and then hands its child to the reaper. -/
  | drop (c : ℕ)
  | handOver (c : ℕ)
  /-- The reaper receives, or its wait is over. -/
  | receive
  | timeout
  /-- `Stopping::reaped`, up to its wait, and that, which may fail. -/
  | judge
  | wait (fails : Bool)
  | stop
  /-- A child ends. -/
  | exit (c : ℕ)
  /-- Another process starts, and is gone. -/
  | fork (pid : ℕ)
  | forkGone (pid : ℕ)
  | tick (time : ℕ)

def Place.inProgram : Place → Bool
  | .program | .ended | .dropping => true
  | _ => false

def Phase.held : Phase → List ℕ
  | .waiting children => children
  | .passing todo kept => todo ++ kept
  | .trying c todo kept => c :: todo ++ kept
  | .stopped => []

/-- Who the reaper has yet to look at. -/
def Phase.todo : Phase → List ℕ
  | .passing todo _ => todo
  | .trying _ todo _ => todo
  | _ => []

namespace World

/-- A server's start: no program, and one handle of the reaper. -/
def started : World where
  now := 0
  pids _ := none
  next := 0
  children _ := ⟨0, .leader, false, .unstarted, []⟩
  handles := 1
  channel := []
  reaper := .waiting []

def set (w : World) (c : ℕ) (child : Child) : World :=
  { w with children := Function.update w.children c child }

def put (w : World) (c : ℕ) (place : Place) : World :=
  w.set c { w.children c with place := place }

/-- `Running::signal`, of a child that is then at `place`. -/
def kill (w : World) (c : ℕ) (signal : Signal) (place : Place) : World :=
  let child := w.children c
  w.set c { child with
    place := place, story := child.story ++ [.signalled signal (w.pids child.pid) w.now] }

/-- A child is reaped, and its number is free. -/
def reap (w : World) (c : ℕ) (place : Place) : World :=
  let child := w.children c
  { w.set c { child with place := place, story := child.story ++ [.reaped] } with
    pids := Function.update w.pids child.pid none }

/-- No `Program` is there, and no other handle: the channel has no sender. -/
def disconnected (w : World) : Bool :=
  w.handles = 0 && (List.range w.next).all fun c => !(w.children c).place.inProgram

def step (w : World) : Move → Option World
  | .start whom pid =>
    if w.handles = 0 ∨ w.pids pid ≠ none then none
    else some { w.set w.next ⟨pid, whom, false, .program, []⟩ with
      pids := Function.update w.pids pid (some (.child w.next)), next := w.next + 1 }
  | .clone => if w.handles = 0 then none else some { w with handles := w.handles + 1 }
  | .release => if w.handles = 0 then none else some { w with handles := w.handles - 1 }
  | .drain =>
    if w.handles = 0 then none
    else if w.reaper = .stopped then some w
    else some { w with channel := w.channel ++ [.drain] }
  | .signal c signal =>
    match (w.children c).place with
    | .program => some (w.kill c signal .program)
    | .ended => some w
    | _ => none
  | .tryWait c fails =>
    match (w.children c).place with
    | .program => if fails = false ∧ (w.children c).exited then some (w.reap c .ended) else some w
    | .ended => some w
    | _ => none
  | .drop c =>
    match (w.children c).place with
    | .program =>
      let child := w.children c
      some ((w.set c { child with story := child.story ++ [.dropped w.now] }).kill c .hup .dropping)
    | .ended => some (w.put c .gone)
    | _ => none
  | .handOver c =>
    if (w.children c).place = .dropping then
      -- With no reaper left, the child would be left alone.
      if w.reaper = .stopped then some (w.put c .gone)
      else some { w.put c (.sent (some (w.now + hangupGrace))) with
        channel := w.channel ++ [.child c] }
    else none
  | .receive =>
    match w.reaper, w.channel with
    | .waiting children, .child c :: channel =>
      match (w.children c).place with
      | .sent killAt => some { w.put c (.stopping killAt) with
          channel := channel, reaper := .passing (children ++ [c]) [] }
      | _ => none
    | .waiting children, .drain :: channel =>
      some { w with channel := channel, reaper := .passing children [] }
    | _, _ => none
  | .timeout =>
    match w.reaper, w.channel with
    | .waiting (c :: children), [] => some { w with reaper := .passing (c :: children) [] }
    | _, _ => none
  | .stop =>
    if w.reaper = .waiting [] ∧ w.channel = [] ∧ w.disconnected = true then
      some { w with reaper := .stopped }
    else none
  | .judge =>
    match w.reaper with
    | .passing (c :: todo) kept =>
      match (w.children c).place with
      | .stopping killAt =>
        if killAt.any (· ≤ w.now) = true then
          some { w.kill c .kill (.stopping none) with reaper := .trying c todo kept }
        -- A group's leader is reaped only once the group is killed.
        else if (w.children c).whom = .group ∧ killAt.isSome = true then
          some { w with reaper := .passing todo (kept ++ [c]) }
        else some { w with reaper := .trying c todo kept }
      | _ => none
    | .passing [] kept => some { w with reaper := .waiting kept }
    | _ => none
  | .wait fails =>
    match w.reaper with
    | .trying c todo kept =>
      match (w.children c).place with
      | .stopping _ =>
        -- What cannot be waited for is given up.
        if fails = true then some { w.put c .gone with reaper := .passing todo kept }
        else if (w.children c).exited = true then
          some { w.reap c .gone with reaper := .passing todo kept }
        else some { w with reaper := .passing todo (kept ++ [c]) }
      | _ => none
    | _ => none
  | .exit c =>
    if c < w.next ∧ (w.children c).exited = false then
      some (w.set c { w.children c with exited := true })
    else none
  | .fork pid =>
    if w.pids pid = none then some { w with pids := Function.update w.pids pid (some .other) }
    else none
  | .forkGone pid =>
    if w.pids pid = some .other then some { w with pids := Function.update w.pids pid none }
    else none
  | .tick time => some { w with now := w.now + time }

/-- A signal to a child that was changed just before. -/
theorem kill_set (w : World) (c : ℕ) (child : Child) (signal : Signal) (place : Place) :
    (w.set c child).kill c signal place = w.set c { child with
      place := place
      story := child.story ++ [.signalled signal (w.pids child.pid) w.now] } := by
  simp [kill, set]

inductive Steps (w : World) : Move → World → Prop where
  | start {whom : Whom} {pid : ℕ} (hhandles : w.handles ≠ 0) (hpid : w.pids pid = none) :
      Steps w (.start whom pid) { w.set w.next ⟨pid, whom, false, .program, []⟩ with
        pids := Function.update w.pids pid (some (.child w.next)), next := w.next + 1 }
  | clone (hhandles : w.handles ≠ 0) : Steps w .clone { w with handles := w.handles + 1 }
  | release (hhandles : w.handles ≠ 0) : Steps w .release { w with handles := w.handles - 1 }
  | drainStopped (hhandles : w.handles ≠ 0) (hstopped : w.reaper = .stopped) : Steps w .drain w
  | drain (hhandles : w.handles ≠ 0) (hlive : w.reaper ≠ .stopped) :
      Steps w .drain { w with channel := w.channel ++ [.drain] }
  | signal {c : ℕ} {signal : Signal} (hplace : (w.children c).place = .program) :
      Steps w (.signal c signal) (w.kill c signal .program)
  | signalEnded {c : ℕ} {signal : Signal} (hplace : (w.children c).place = .ended) :
      Steps w (.signal c signal) w
  | tryWait {c : ℕ} (hplace : (w.children c).place = .program)
      (hexited : (w.children c).exited = true) : Steps w (.tryWait c false) (w.reap c .ended)
  | tryWaitNone {c : ℕ} {fails : Bool}
      (hplace : (w.children c).place = .program ∨ (w.children c).place = .ended) :
      Steps w (.tryWait c fails) w
  | drop {c : ℕ} (hplace : (w.children c).place = .program) : Steps w (.drop c) (w.set c
      { w.children c with
        place := .dropping
        story := (w.children c).story ++ [.dropped w.now] ++
          [.signalled .hup (w.pids (w.children c).pid) w.now] })
  | dropEnded {c : ℕ} (hplace : (w.children c).place = .ended) : Steps w (.drop c) (w.put c .gone)
  | leave {c : ℕ} (hplace : (w.children c).place = .dropping) (hstopped : w.reaper = .stopped) :
      Steps w (.handOver c) (w.put c .gone)
  | handOver {c : ℕ} (hplace : (w.children c).place = .dropping) (hlive : w.reaper ≠ .stopped) :
      Steps w (.handOver c) { w.put c (.sent (some (w.now + hangupGrace))) with
        channel := w.channel ++ [.child c] }
  | receive {c : ℕ} {children : List ℕ} {channel : List Reap} {killAt : Option ℕ}
      (hreaper : w.reaper = .waiting children) (hchannel : w.channel = .child c :: channel)
      (hplace : (w.children c).place = .sent killAt) :
      Steps w .receive { w.put c (.stopping killAt) with
        channel := channel, reaper := .passing (children ++ [c]) [] }
  | receiveDrain {children : List ℕ} {channel : List Reap}
      (hreaper : w.reaper = .waiting children) (hchannel : w.channel = .drain :: channel) :
      Steps w .receive { w with channel := channel, reaper := .passing children [] }
  | timeout {c : ℕ} {children : List ℕ} (hreaper : w.reaper = .waiting (c :: children))
      (hchannel : w.channel = []) :
      Steps w .timeout { w with reaper := .passing (c :: children) [] }
  | kill {c t : ℕ} {todo kept : List ℕ} (hreaper : w.reaper = .passing (c :: todo) kept)
      (hplace : (w.children c).place = .stopping (some t)) (hover : t ≤ w.now) :
      Steps w .judge { w.kill c .kill (.stopping none) with reaper := .trying c todo kept }
  | spare {c t : ℕ} {todo kept : List ℕ} (hreaper : w.reaper = .passing (c :: todo) kept)
      (hplace : (w.children c).place = .stopping (some t)) (hgroup : (w.children c).whom = .group)
      (hearly : w.now < t) : Steps w .judge { w with reaper := .passing todo (kept ++ [c]) }
  | judge {c : ℕ} {killAt : Option ℕ} {todo kept : List ℕ}
      (hreaper : w.reaper = .passing (c :: todo) kept)
      (hplace : (w.children c).place = .stopping killAt) (hearly : ∀ t ∈ killAt, w.now < t)
      (hleader : (w.children c).whom = .group → killAt = none) :
      Steps w .judge { w with reaper := .trying c todo kept }
  | passed {kept : List ℕ} (hreaper : w.reaper = .passing [] kept) :
      Steps w .judge { w with reaper := .waiting kept }
  | giveUp {c : ℕ} {killAt : Option ℕ} {todo kept : List ℕ}
      (hreaper : w.reaper = .trying c todo kept)
      (hplace : (w.children c).place = .stopping killAt) :
      Steps w (.wait true) { w.put c .gone with reaper := .passing todo kept }
  | reap {c : ℕ} {killAt : Option ℕ} {todo kept : List ℕ}
      (hreaper : w.reaper = .trying c todo kept)
      (hplace : (w.children c).place = .stopping killAt)
      (hexited : (w.children c).exited = true) :
      Steps w (.wait false) { w.reap c .gone with reaper := .passing todo kept }
  | keep {c : ℕ} {killAt : Option ℕ} {todo kept : List ℕ}
      (hreaper : w.reaper = .trying c todo kept)
      (hplace : (w.children c).place = .stopping killAt)
      (hruns : (w.children c).exited = false) :
      Steps w (.wait false) { w with reaper := .passing todo (kept ++ [c]) }
  | stop (hreaper : w.reaper = .waiting []) (hchannel : w.channel = [])
      (hdisconnected : w.disconnected = true) : Steps w .stop { w with reaper := .stopped }
  | exit {c : ℕ} (hc : c < w.next) (hruns : (w.children c).exited = false) :
      Steps w (.exit c) (w.set c { w.children c with exited := true })
  | fork {pid : ℕ} (hfree : w.pids pid = none) :
      Steps w (.fork pid) { w with pids := Function.update w.pids pid (some .other) }
  | forkGone {pid : ℕ} (hother : w.pids pid = some .other) :
      Steps w (.forkGone pid) { w with pids := Function.update w.pids pid none }
  | tick {time : ℕ} : Steps w (.tick time) { w with now := w.now + time }

/-- The inversion of `step`. -/
theorem steps_of_step {w w' : World} {m : Move} (hstep : w.step m = some w') : w.Steps m w' := by
  cases m with
  | start whom pid =>
    simp only [step] at hstep
    split at hstep
    · cases hstep
    · next hfree =>
      cases hstep
      exact .start (fun hhandles => hfree (.inl hhandles))
        (not_not.mp fun hpid => hfree (.inr hpid))
  | clone =>
    simp only [step] at hstep
    split at hstep
    · cases hstep
    · next hhandles => cases hstep; exact .clone hhandles
  | release =>
    simp only [step] at hstep
    split at hstep
    · cases hstep
    · next hhandles => cases hstep; exact .release hhandles
  | drain =>
    simp only [step] at hstep
    split at hstep
    · cases hstep
    · next hhandles =>
      split at hstep
      · next hstopped => cases hstep; exact .drainStopped hhandles hstopped
      · next hlive => cases hstep; exact .drain hhandles hlive
  | signal c signal =>
    simp only [step] at hstep
    split at hstep
    · next hplace => cases hstep; exact .signal hplace
    · next hplace => cases hstep; exact .signalEnded hplace
    · cases hstep
  | tryWait c fails =>
    simp only [step] at hstep
    split at hstep
    · next hplace =>
      split at hstep
      · next hexited =>
        obtain ⟨rfl, hexited⟩ := hexited
        cases hstep
        exact .tryWait hplace hexited
      · cases hstep
        exact .tryWaitNone (.inl hplace)
    · next hplace => cases hstep; exact .tryWaitNone (.inr hplace)
    · cases hstep
  | drop c =>
    simp only [step] at hstep
    split at hstep
    · next hplace =>
      cases hstep
      rw [kill_set]
      exact .drop hplace
    · next hplace => cases hstep; exact .dropEnded hplace
    · cases hstep
  | handOver c =>
    simp only [step] at hstep
    split at hstep
    · next hplace =>
      split at hstep
      · next hstopped => cases hstep; exact .leave hplace hstopped
      · next hlive => cases hstep; exact .handOver hplace hlive
    · cases hstep
  | receive =>
    simp only [step] at hstep
    split at hstep
    · next hreaper hchannel =>
      split at hstep
      · next hplace => cases hstep; exact .receive hreaper hchannel hplace
      · cases hstep
    · next hreaper hchannel => cases hstep; exact .receiveDrain hreaper hchannel
    · cases hstep
  | timeout =>
    simp only [step] at hstep
    split at hstep
    · next hreaper hchannel => cases hstep; exact .timeout hreaper hchannel
    · cases hstep
  | judge =>
    simp only [step] at hstep
    split at hstep
    · next c todo kept hreaper =>
      split at hstep
      · next killAt hplace =>
        split at hstep
        · next hdue =>
          cases hstep
          obtain ⟨t, rfl, ht⟩ := (Option.any_eq_true _ _).mp hdue
          exact .kill hreaper hplace (of_decide_eq_true ht)
        · next hundue =>
          have hearly : ∀ t ∈ killAt, w.now < t := by
            rintro t rfl
            exact Nat.lt_of_not_le fun hover => hundue (decide_eq_true hover)
          split at hstep
          · next hwait =>
            obtain ⟨hgroup, hsome⟩ := hwait
            obtain ⟨t, rfl⟩ := Option.isSome_iff_exists.mp hsome
            cases hstep
            exact .spare hreaper hplace hgroup (hearly t rfl)
          · next hwait =>
            cases hstep
            refine .judge hreaper hplace hearly fun hgroup => ?_
            exact Option.not_isSome_iff_eq_none.mp fun hsome => hwait ⟨hgroup, hsome⟩
      · cases hstep
    · next hreaper => cases hstep; exact .passed hreaper
    · cases hstep
  | wait fails =>
    simp only [step] at hstep
    split at hstep
    · next hreaper =>
      split at hstep
      · next hplace =>
        split at hstep
        · next hfails =>
          subst hfails
          cases hstep
          exact .giveUp hreaper hplace
        · next hwaited =>
          rw [Bool.not_eq_true] at hwaited
          subst hwaited
          split at hstep
          · next hexited => cases hstep; exact .reap hreaper hplace hexited
          · next hruns =>
            cases hstep
            exact .keep hreaper hplace (Bool.not_eq_true _ ▸ hruns)
      · cases hstep
    · cases hstep
  | stop =>
    simp only [step] at hstep
    split at hstep
    · next hstop => cases hstep; exact .stop hstop.1 hstop.2.1 hstop.2.2
    · cases hstep
  | exit c =>
    simp only [step] at hstep
    split at hstep
    · next hexit => cases hstep; exact .exit hexit.1 hexit.2
    · cases hstep
  | fork pid =>
    simp only [step] at hstep
    split at hstep
    · next hfree => cases hstep; exact .fork hfree
    · cases hstep
  | forkGone pid =>
    simp only [step] at hstep
    split at hstep
    · next hother => cases hstep; exact .forkGone hother
    · cases hstep
  | tick time =>
    cases hstep
    exact .tick

end World

/-! ### What is asked of a child's story -/

def Killed (story : List Happening) (time : ℕ) : Prop :=
  ∃ holder time', .signalled .kill holder time' ∈ story ∧ time + hangupGrace ≤ time'

/-- What is asked of what happened to the child `c`. -/
structure Laws (c : ℕ) (whom : Whom) (story : List Happening) : Prop where
  /-- Every signal is sent to the child itself: its number is its own. -/
  reached : ∀ signal holder time, .signalled signal holder time ∈ story → holder = some (.child c)
  /-- Once it is reaped, nothing happens to it. -/
  quiet : ∀ before after, story = before ++ .reaped :: after → after = []
  /-- When it is dropped, it is hung up at once. -/
  hungUp : ∀ before time after, story = before ++ .dropped time :: after →
    ∃ rest, after = .signalled .hup (some (.child c)) time :: rest
  /-- A group that was dropped is killed before its leader is reaped. -/
  killed : whom = .group → ∀ before after, story = before ++ .reaped :: after →
    ∀ time, .dropped time ∈ before → Killed before time
  /-- It is not killed, once it was dropped, before its grace is over. -/
  graced : ∀ before time after, story = before ++ .dropped time :: after →
    ∀ holder time', .signalled .kill holder time' ∈ after → time + hangupGrace ≤ time'

variable {c now time : ℕ} {whom : Whom} {story : List Happening} {pids : ℕ → Option Holder}
  {child : Child} {w w' : World}

/-- What was killed stays so. -/
theorem Killed.append (h : Killed story time) (more : List Happening) :
    Killed (story ++ more) time := by
  obtain ⟨holder, time', hmem, htime⟩ := h
  exact ⟨holder, time', List.mem_append_left _ hmem, htime⟩

theorem not_mem_of_split {x : Happening} {before after : List Happening} (h : x ∉ story) :
    story ≠ before ++ x :: after := by
  rintro rfl
  exact h (by simp)

namespace Laws

/-- Nothing happened. -/
theorem nil (c : ℕ) (whom : Whom) : Laws c whom [] where
  reached _ _ _ h := by cases h
  quiet _ _ h := by simp at h
  hungUp _ _ _ h := by simp at h
  killed _ _ _ h := by simp at h
  graced _ _ _ h := by simp at h

/-- A signal is sent to a child that is not reaped. -/
theorem signalled (h : Laws c whom story) (hunreaped : .reaped ∉ story) (signal : Signal)
    (hgrace : signal = .kill → ∀ time, .dropped time ∈ story → time + hangupGrace ≤ now) :
    Laws c whom (story ++ [.signalled signal (some (.child c)) now]) where
  reached signal' holder time' hmem := by
    rcases List.mem_append.mp hmem with hmem | hmem
    · exact h.reached signal' holder time' hmem
    · cases List.mem_singleton.mp hmem
      rfl
  quiet before after heq := by
    rcases snoc_cases heq with ⟨-, hlast, -⟩ | ⟨after', hstory, -⟩
    · cases hlast
    · exact absurd hstory (not_mem_of_split hunreaped)
  hungUp before time after heq := by
    rcases snoc_cases heq with ⟨-, hlast, -⟩ | ⟨after', hstory, rfl⟩
    · cases hlast
    · obtain ⟨rest, rfl⟩ := h.hungUp before time after' hstory
      exact ⟨rest ++ [.signalled signal (some (.child c)) now], rfl⟩
  killed hgroup before after heq := by
    rcases snoc_cases heq with ⟨-, hlast, -⟩ | ⟨after', hstory, -⟩
    · cases hlast
    · exact absurd hstory (not_mem_of_split hunreaped)
  graced before time after heq holder time' hmem := by
    rcases snoc_cases heq with ⟨-, hlast, -⟩ | ⟨after', hstory, rfl⟩
    · cases hlast
    · rcases List.mem_append.mp hmem with hmem | hmem
      · exact h.graced before time after' hstory holder time' hmem
      · cases List.mem_singleton.mp hmem
        exact hgrace rfl time (by rw [hstory]; simp)

/-- It is reaped, which a group that was dropped is once it was killed. -/
theorem reaped (h : Laws c whom story) (hunreaped : .reaped ∉ story)
    (hkilled : whom = .group → ∀ time, .dropped time ∈ story → Killed story time) :
    Laws c whom (story ++ [.reaped]) where
  reached signal holder time hmem := by
    rcases List.mem_append.mp hmem with hmem | hmem
    · exact h.reached signal holder time hmem
    · cases List.mem_singleton.mp hmem
  quiet before after heq := by
    rcases snoc_cases heq with ⟨-, -, hafter⟩ | ⟨after', hstory, -⟩
    · exact hafter
    · exact absurd hstory (not_mem_of_split hunreaped)
  hungUp before time after heq := by
    rcases snoc_cases heq with ⟨-, hlast, -⟩ | ⟨after', hstory, rfl⟩
    · cases hlast
    · obtain ⟨rest, rfl⟩ := h.hungUp before time after' hstory
      exact ⟨rest ++ [.reaped], rfl⟩
  killed hgroup before after heq time hdropped := by
    rcases snoc_cases heq with ⟨rfl, -, -⟩ | ⟨after', hstory, -⟩
    · exact hkilled hgroup time hdropped
    · exact absurd hstory (not_mem_of_split hunreaped)
  graced before time after heq holder time' hmem := by
    rcases snoc_cases heq with ⟨-, hlast, -⟩ | ⟨after', hstory, rfl⟩
    · cases hlast
    · rcases List.mem_append.mp hmem with hmem | hmem
      · exact h.graced before time after' hstory holder time' hmem
      · cases List.mem_singleton.mp hmem

/-- It is dropped for the first time, and hung up. -/
theorem dropped (h : Laws c whom story) (hunreaped : .reaped ∉ story)
    (hundropped : ∀ time, .dropped time ∉ story) :
    Laws c whom (story ++ [.dropped now, .signalled .hup (some (.child c)) now]) := by
  have hunreaped' : ∀ before after,
      story ++ [.dropped now, .signalled .hup (some (.child c)) now] ≠ before ++ .reaped :: after :=
    fun before after => not_mem_of_split (by simpa using hunreaped)
  have hlast : ∀ before time after,
      story ++ [.dropped now, .signalled .hup (some (.child c)) now] =
        before ++ .dropped time :: after →
      time = now ∧ after = [.signalled .hup (some (.child c)) now] := by
    intro before time after heq
    have heq' : (story ++ [.dropped now]) ++ [.signalled .hup (some (.child c)) now] =
        before ++ .dropped time :: after := by simpa using heq
    rcases snoc_cases heq' with ⟨-, hlast, -⟩ | ⟨after', hstory, rfl⟩
    · cases hlast
    · rcases snoc_cases hstory with ⟨-, hlast, rfl⟩ | ⟨after'', hstory, -⟩
      · cases hlast
        exact ⟨rfl, rfl⟩
      · exact absurd hstory (not_mem_of_split (hundropped time))
  exact {
    reached := by
      intro signal holder time hmem
      rcases List.mem_append.mp hmem with hmem | hmem
      · exact h.reached signal holder time hmem
      · rcases List.mem_cons.mp hmem with hmem | hmem
        · cases hmem
        · cases List.mem_singleton.mp hmem
          rfl
    quiet := fun before after heq => absurd heq (hunreaped' before after)
    hungUp := by
      intro before time after heq
      obtain ⟨rfl, rfl⟩ := hlast before time after heq
      exact ⟨[], rfl⟩
    killed := fun _ before after heq => absurd heq (hunreaped' before after)
    graced := by
      intro before time after heq holder time' hmem
      obtain ⟨rfl, rfl⟩ := hlast before time after heq
      cases List.mem_singleton.mp hmem }

end Laws

/-! ### What a child keeps -/

def Place.owns : Place → Bool
  | .program | .dropping | .sent _ | .stopping _ => true
  | _ => false

/-- When the child is to be killed, if it was handed over and is not killed. -/
def Place.killAt : Place → Option (Option ℕ)
  | .sent killAt | .stopping killAt => some killAt
  | _ => none

structure Sound (now : ℕ) (pids : ℕ → Option Holder) (c : ℕ) (child : Child) : Prop where
  laws : Laws c child.whom child.story
  /-- As long as its `Running` is there, its number is its own. -/
  number : child.place.owns = true → pids child.pid = some (.child c)
  unreaped : child.place.owns = true → .reaped ∉ child.story
  undropped : child.place = .program → ∀ time, .dropped time ∉ child.story
  past : ∀ time, .dropped time ∈ child.story → time ≤ now
  /-- It is to be killed once its grace is over. -/
  due : ∀ t, child.place.killAt = some (some t) → ∀ time, .dropped time ∈ child.story →
    time + hangupGrace ≤ t
  /-- A group that was dropped is killed, or on its way to be. -/
  way : child.whom = .group → ∀ time, .dropped time ∈ child.story →
    Killed child.story time ∨ child.place = .dropping ∨ ∃ t, child.place.killAt = some (some t)

namespace Sound

/-- Time goes on, and the numbers of others change. -/
theorem mono {now' : ℕ} {pids' : ℕ → Option Holder} (h : Sound now pids c child)
    (hnow : now ≤ now') (hpids : pids child.pid = some (.child c) →
      pids' child.pid = some (.child c)) : Sound now' pids' c child :=
  { h with
    number := fun howns => hpids (h.number howns)
    past := fun time hmem => Nat.le_trans (h.past time hmem) hnow }

/-- Of a child whose `Running` is gone, the numbers do not matter. -/
theorem free (h : Sound now pids c child) (hgone : child.place.owns = false)
    (pids' : ℕ → Option Holder) : Sound now pids' c child :=
  { h with number := fun howns => by rw [hgone] at howns; cases howns }

/-- A child's program starts. -/
theorem started (now : ℕ) {pid : ℕ} (hpid : pids pid = some (.child c)) (whom : Whom) :
    Sound now pids c ⟨pid, whom, false, .program, []⟩ where
  laws := .nil c whom
  number _ := hpid
  unreaped _ h := by cases h
  undropped _ _ h := by cases h
  past _ h := by cases h
  due _ h := by cases h
  way _ _ h := by cases h

/-- Its `Program` signals it. -/
theorem signalled (h : Sound now pids c child) (hplace : child.place = .program)
    (signal : Signal) :
    Sound now pids c { child with
      place := .program
      story := child.story ++ [.signalled signal (pids child.pid) now] } := by
  have howns : child.place.owns = true := by rw [hplace]; rfl
  have hundropped : ∀ time,
      .dropped time ∉ child.story ++ [.signalled signal (pids child.pid) now] := by
    intro time hmem
    rcases List.mem_append.mp hmem with hmem | hmem
    · exact h.undropped hplace time hmem
    · cases List.mem_singleton.mp hmem
  exact {
    laws := by
      rw [h.number howns]
      refine h.laws.signalled (h.unreaped howns) signal fun _ time hmem => ?_
      exact absurd hmem (h.undropped hplace time)
    number := fun _ => h.number howns
    unreaped := fun _ => by simpa using h.unreaped howns
    undropped := fun _ => hundropped
    past := fun time hmem => absurd hmem (hundropped time)
    due := fun t hkill => by cases hkill
    way := fun _ time hmem => absurd hmem (hundropped time) }

/-- Its `Program` reaps it. -/
theorem reapedByProgram (h : Sound now pids c child) (hplace : child.place = .program) :
    Sound now pids c { child with place := .ended, story := child.story ++ [.reaped] } := by
  have howns : child.place.owns = true := by rw [hplace]; rfl
  have hundropped : ∀ time, .dropped time ∉ child.story ++ [.reaped] := by
    intro time hmem
    rcases List.mem_append.mp hmem with hmem | hmem
    · exact h.undropped hplace time hmem
    · cases List.mem_singleton.mp hmem
  exact {
    laws := h.laws.reaped (h.unreaped howns) fun _ time hmem =>
      absurd hmem (h.undropped hplace time)
    number := fun howns => by cases howns
    unreaped := fun howns => by cases howns
    undropped := fun hplace => by cases hplace
    past := fun time hmem => absurd hmem (hundropped time)
    due := fun t hkill => by cases hkill
    way := fun _ time hmem => absurd hmem (hundropped time) }

/-- Its `Program` is dropped. -/
theorem dropped (h : Sound now pids c child) (hplace : child.place = .program) :
    Sound now pids c { child with
      place := .dropping
      story := child.story ++ [.dropped now] ++ [.signalled .hup (pids child.pid) now] } := by
  have howns : child.place.owns = true := by rw [hplace]; rfl
  have hlaws := @Laws.dropped c now child.whom child.story h.laws (h.unreaped howns)
    (h.undropped hplace)
  have hpast : ∀ time, .dropped time ∈
      child.story ++ [.dropped now] ++ [.signalled .hup (pids child.pid) now] → time ≤ now := by
    intro time hmem
    simp only [List.append_assoc, List.mem_append, List.mem_singleton, reduceCtorEq,
      or_false, Happening.dropped.injEq] at hmem
    rcases hmem with hmem | rfl
    · exact h.past time hmem
    · exact Nat.le_refl _
  exact {
    laws := by
      rw [h.number howns]
      simpa using hlaws
    number := fun _ => h.number howns
    unreaped := fun _ => by simpa using h.unreaped howns
    undropped := fun hplace => by cases hplace
    past := hpast
    due := fun t hkill => by cases hkill
    way := fun _ _ _ => .inr (.inl rfl) }

/-- The `Program` of a child that it reaped is dropped. -/
theorem goneEnded (h : Sound now pids c child) (hplace : child.place = .ended) :
    Sound now pids c { child with place := .gone } :=
  { h with
    number := fun howns => by cases howns
    unreaped := fun howns => by cases howns
    undropped := fun hplace => by cases hplace
    due := fun t hkill => by cases hkill
    way := fun hgroup time hmem => by
      rcases h.way hgroup time hmem with hkilled | hdropping | ⟨t, hkill⟩
      · exact .inl hkilled
      · rw [hplace] at hdropping
        cases hdropping
      · rw [hplace] at hkill
        cases hkill }

/-- It is handed over. -/
theorem handedOver (h : Sound now pids c child) (hplace : child.place = .dropping) :
    Sound now pids c { child with place := .sent (some (now + hangupGrace)) } := by
  have howns : child.place.owns = true := by rw [hplace]; rfl
  exact { h with
    number := fun _ => h.number howns
    unreaped := fun _ => h.unreaped howns
    undropped := fun hplace => by cases hplace
    due := by
      rintro _ ⟨⟩ time hmem
      have hpast := h.past time hmem
      omega
    way := fun _ _ _ => .inr (.inr ⟨_, rfl⟩) }

/-- The reaper receives it. -/
theorem received (h : Sound now pids c child) {killAt : Option ℕ}
    (hplace : child.place = .sent killAt) :
    Sound now pids c { child with place := .stopping killAt } := by
  have howns : child.place.owns = true := by rw [hplace]; rfl
  have hkill : child.place.killAt = some killAt := by rw [hplace]; rfl
  exact { h with
    number := fun _ => h.number howns
    unreaped := fun _ => h.unreaped howns
    undropped := fun hplace => by cases hplace
    due := fun t ht => h.due t (hkill.trans ht)
    way := fun hgroup time hmem => by
      rcases h.way hgroup time hmem with hkilled | hdropping | ⟨t, ht⟩
      · exact .inl hkilled
      · rw [hplace] at hdropping
        cases hdropping
      · exact .inr (.inr ⟨t, hkill.symm.trans ht⟩) }

/-- Its grace is over. -/
theorem killed (h : Sound now pids c child) {t : ℕ} (hplace : child.place = .stopping (some t))
    (ht : t ≤ now) :
    Sound now pids c { child with
      place := .stopping none
      story := child.story ++ [.signalled .kill (pids child.pid) now] } := by
  have howns : child.place.owns = true := by rw [hplace]; rfl
  have hgrace : ∀ time, .dropped time ∈ child.story → time + hangupGrace ≤ now :=
    fun time hmem => Nat.le_trans (h.due t (by rw [hplace]; rfl) time hmem) ht
  have hdropped : ∀ time, .dropped time ∈
      child.story ++ [.signalled .kill (pids child.pid) now] → .dropped time ∈ child.story := by
    intro time hmem
    simpa using hmem
  exact {
    laws := by
      rw [h.number howns]
      exact h.laws.signalled (h.unreaped howns) .kill fun _ => hgrace
    number := fun _ => h.number howns
    unreaped := fun _ => by simpa using h.unreaped howns
    undropped := fun hplace => by cases hplace
    past := fun time hmem => h.past time (hdropped time hmem)
    due := fun t hkill => by cases hkill
    way := fun _ time hmem =>
      .inl ⟨_, now, List.mem_append_right _ List.mem_cons_self, hgrace time (hdropped time hmem)⟩ }

/-- What the reaper waits for: a group only once it is killed. -/
theorem killed_of_trying (h : Sound now pids c child) {killAt : Option ℕ}
    (hplace : child.place = .stopping killAt) (hgroup : child.whom = .group → killAt = none)
    (hwhom : child.whom = .group) {time : ℕ} (hmem : .dropped time ∈ child.story) :
    Killed child.story time := by
  rcases h.way hwhom time hmem with hkilled | hdropping | ⟨t, ht⟩
  · exact hkilled
  · rw [hplace] at hdropping
    cases hdropping
  · rw [hplace, hgroup hwhom] at ht
    cases ht

/-- The reaper gives it up. -/
theorem givenUp (h : Sound now pids c child) {killAt : Option ℕ}
    (hplace : child.place = .stopping killAt) (hgroup : child.whom = .group → killAt = none) :
    Sound now pids c { child with place := .gone } :=
  { h with
    number := fun howns => by cases howns
    unreaped := fun howns => by cases howns
    undropped := fun hplace => by cases hplace
    due := fun t hkill => by cases hkill
    way := fun hwhom _ hmem => .inl (h.killed_of_trying hplace hgroup hwhom hmem) }

/-- The reaper reaps it. -/
theorem reapedByReaper (h : Sound now pids c child) {killAt : Option ℕ}
    (hplace : child.place = .stopping killAt) (hgroup : child.whom = .group → killAt = none) :
    Sound now pids c { child with place := .gone, story := child.story ++ [.reaped] } := by
  have howns : child.place.owns = true := by rw [hplace]; rfl
  have hdropped : ∀ time, .dropped time ∈ child.story ++ [.reaped] →
      .dropped time ∈ child.story := by
    intro time hmem
    simpa using hmem
  exact {
    laws := h.laws.reaped (h.unreaped howns) fun hwhom _ hmem =>
      h.killed_of_trying hplace hgroup hwhom hmem
    number := fun howns => by cases howns
    unreaped := fun howns => by cases howns
    undropped := fun hplace => by cases hplace
    past := fun time hmem => h.past time (hdropped time hmem)
    due := fun t hkill => by cases hkill
    way := fun hwhom time hmem =>
      .inl ((h.killed_of_trying hplace hgroup hwhom (hdropped time hmem)).append _) }

end Sound

/-! ### What every call keeps -/

def Reap.child? : Reap → Option ℕ
  | .child c => some c
  | .drain => none

/-- The children on the way to the reaper. -/
def World.coming (w : World) : List ℕ := w.channel.filterMap Reap.child?

structure Kept (w : World) : Prop where
  sound : ∀ c, Sound w.now w.pids c (w.children c)
  fresh : ∀ c, w.next ≤ c → (w.children c).place = .unstarted
  /-- A group is waited for once it is killed. -/
  trying : ∀ c todo kept, w.reaper = .trying c todo kept → (w.children c).whom = .group →
    ∀ t, (w.children c).place ≠ .stopping (some t)
  coming : ∀ c, c ∈ w.coming ↔ ∃ killAt, (w.children c).place = .sent killAt
  comingOnce : w.coming.Nodup
  held : ∀ c, c ∈ w.reaper.held ↔ ∃ killAt, (w.children c).place = .stopping killAt
  heldOnce : w.reaper.held.Nodup
  /-- Once the reaper stopped, there is no one to send it anything. -/
  stopped : w.reaper = .stopped →
    w.handles = 0 ∧ w.channel = [] ∧ ∀ c, (w.children c).place.inProgram = false

namespace Kept

variable {child' : Child} {pids' : ℕ → Option Holder} {channel' : List Reap} {reaper' : Phase}

theorem started : Kept .started where
  sound c := {
    laws := .nil c .leader
    number := fun h => by cases h
    unreaped := fun h => by cases h
    undropped := fun h => by cases h
    past := fun _ h => by cases h
    due := fun _ h => by cases h
    way := fun h => by cases h }
  fresh _ _ := rfl
  trying _ _ _ h := by cases h
  coming c := by simp [World.coming, World.started]
  comingOnce := List.nodup_nil
  held c := by simp [Phase.held, World.started]
  heldOnce := List.nodup_nil
  stopped h := by cases h

/-- Who is somewhere was started. -/
theorem lt_next (h : Kept w) (hplace : (w.children c).place ≠ .unstarted) : c < w.next := by
  by_contra hlt
  exact hplace (h.fresh c (Nat.le_of_not_lt hlt))

/-- The reaper goes on with the same children. -/
theorem turn (h : Kept w) (hheld : reaper'.held.Perm w.reaper.held) (hlive : reaper' ≠ .stopped)
    (htrying : ∀ c todo kept, reaper' = .trying c todo kept → (w.children c).whom = .group →
      ∀ t, (w.children c).place ≠ .stopping (some t)) : Kept { w with reaper := reaper' } :=
  { h with
    trying := htrying
    held := fun c => hheld.mem_iff.trans (h.held c)
    heldOnce := hheld.nodup_iff.mpr h.heldOnce
    stopped := fun hstopped => absurd hstopped hlive }

/-- One child changes, and the reaper and its channel with it. -/
theorem update (h : Kept w) (hc : c < w.next) (hsound : Sound w.now pids' c child')
    (hpids : ∀ c' ≠ c, ∀ pid, w.pids pid = some (.child c') → pids' pid = some (.child c'))
    (hcoming : ∀ c', c' ∈ channel'.filterMap Reap.child? ↔
      if c' = c then ∃ killAt, child'.place = .sent killAt else c' ∈ w.coming)
    (hcomingOnce : (channel'.filterMap Reap.child?).Nodup)
    (hheld : ∀ c', c' ∈ reaper'.held ↔
      if c' = c then ∃ killAt, child'.place = .stopping killAt else c' ∈ w.reaper.held)
    (hheldOnce : reaper'.held.Nodup)
    (htrying : ∀ c' todo kept, reaper' = .trying c' todo kept →
      (Function.update w.children c child' c').whom = .group →
        ∀ t, (Function.update w.children c child' c').place ≠ .stopping (some t))
    (hlive : reaper' ≠ .stopped) :
    Kept { w with
      children := Function.update w.children c child', pids := pids'
      channel := channel', reaper := reaper' } where
  sound c' := by
    by_cases hne : c' = c
    · subst hne
      simpa using hsound
    · simp only [Function.update_of_ne hne]
      exact (h.sound c').mono (Nat.le_refl _) (hpids c' hne _)
  fresh c' hc' := by
    have hne : c' ≠ c := by
      simp only at hc'
      omega
    simp only [Function.update_of_ne hne]
    exact h.fresh c' hc'
  trying := htrying
  coming c' := by
    rw [World.coming, hcoming]
    by_cases hne : c' = c
    · subst hne
      simp
    · simp only [if_neg hne, Function.update_of_ne hne]
      exact h.coming c'
  comingOnce := hcomingOnce
  held c' := by
    rw [hheld]
    by_cases hne : c' = c
    · subst hne
      simp
    · simp only [if_neg hne, Function.update_of_ne hne]
      exact h.held c'
  heldOnce := hheldOnce
  stopped hstopped := absurd hstopped hlive

/-- One child changes, that is not on its way to the reaper. -/
theorem change (h : Kept w) (hplace : (w.children c).place.inProgram = true)
    (hsound : Sound w.now pids' c child')
    (hpids : ∀ c' ≠ c, ∀ pid, w.pids pid = some (.child c') → pids' pid = some (.child c'))
    (hkill : child'.place.killAt = none) :
    Kept { w with children := Function.update w.children c child', pids := pids' } := by
  have hnot : ∀ place : Place, place.killAt = none →
      (¬ ∃ killAt, place = .sent killAt) ∧ ¬ ∃ killAt, place = .stopping killAt := by
    intro place hnone
    cases place <;> simp_all [Place.killAt]
  have hold : (w.children c).place.killAt = none := by
    cases hold : (w.children c).place <;> simp_all [Place.killAt, Place.inProgram]
  have hcoming : c ∉ w.coming := fun hmem => (hnot _ hold).1 ((h.coming c).mp hmem)
  have hheld : c ∉ w.reaper.held := fun hmem => (hnot _ hold).2 ((h.held c).mp hmem)
  refine h.update (h.lt_next ?_) hsound hpids (fun c' => ?_) h.comingOnce (fun c' => ?_) h.heldOnce
    (fun c' todo kept hreaper => ?_) fun hstopped => ?_
  · intro hunstarted
    rw [hunstarted] at hplace
    cases hplace
  · split
    · next heq =>
      subst heq
      exact iff_of_false hcoming (hnot _ hkill).1
    · rfl
  · split
    · next heq =>
      subst heq
      exact iff_of_false hheld (hnot _ hkill).2
    · rfl
  · have hne : c' ≠ c := by
      rintro rfl
      exact hheld (by rw [hreaper]; simp [Phase.held])
    rw [Function.update_of_ne hne]
    exact h.trying c' todo kept hreaper
  · have hgone := (h.stopped hstopped).2.2 c
    rw [hplace] at hgone
    cases hgone

/-- A child more. -/
theorem start (h : Kept w) (hhandles : w.handles ≠ 0) {pid : ℕ} (hpid : w.pids pid = none)
    (whom : Whom) :
    Kept { w.set w.next ⟨pid, whom, false, .program, []⟩ with
      pids := Function.update w.pids pid (some (.child w.next)), next := w.next + 1 } where
  sound c := by
    by_cases hne : c = w.next
    · subst hne
      simp only [World.set, Function.update_self]
      exact .started w.now (Function.update_self _ _ _) whom
    · simp only [World.set, Function.update_of_ne hne]
      refine (h.sound c).mono (Nat.le_refl _) fun hown => ?_
      have hfree : (w.children c).pid ≠ pid := by
        rintro rfl
        rw [hpid] at hown
        cases hown
      rwa [Function.update_of_ne hfree]
  fresh c hc := by
    have hne : c ≠ w.next := by
      simp only at hc
      omega
    simp only [World.set, Function.update_of_ne hne]
    exact h.fresh c (by simp only at hc; omega)
  trying c todo kept hreaper := by
    have hne : c ≠ w.next := by
      rintro rfl
      have hheld : w.next ∈ w.reaper.held := by
        change w.reaper = _ at hreaper
        rw [hreaper]
        simp [Phase.held]
      obtain ⟨killAt, hplace⟩ := (h.held _).mp hheld
      rw [h.fresh _ (Nat.le_refl _)] at hplace
      cases hplace
    simp only [World.set, Function.update_of_ne hne]
    exact h.trying c todo kept hreaper
  coming c := by
    by_cases hne : c = w.next
    · subst hne
      have hnot : ¬ w.next ∈ w.coming := by
        rw [h.coming, h.fresh _ (Nat.le_refl _)]
        simp
      simpa [World.set, World.coming] using hnot
    · simp only [World.set, Function.update_of_ne hne]
      exact h.coming c
  comingOnce := h.comingOnce
  held c := by
    by_cases hne : c = w.next
    · subst hne
      have hnot : ¬ w.next ∈ w.reaper.held := by
        rw [h.held, h.fresh _ (Nat.le_refl _)]
        simp
      simpa [World.set] using hnot
    · simp only [World.set, Function.update_of_ne hne]
      exact h.held c
  heldOnce := h.heldOnce
  stopped hstopped := absurd (h.stopped hstopped).1 hhandles

/-- The number of a child that is reaped is no other child's. -/
theorem pids_reap (h : Kept w) (howns : (w.children c).place.owns = true) :
    ∀ c' ≠ c, ∀ pid, w.pids pid = some (.child c') →
      Function.update w.pids (w.children c).pid none pid = some (.child c') := by
  intro c' hne pid hpid
  have hother : pid ≠ (w.children c).pid := by
    rintro rfl
    rw [(h.sound c).number howns] at hpid
    cases hpid
    exact hne rfl
  rwa [Function.update_of_ne hother]

/-- What the reaper tries for is one that it may wait for. -/
theorem group_none (h : Kept w) {todo kept : List ℕ} (hreaper : w.reaper = .trying c todo kept)
    {killAt : Option ℕ} (hplace : (w.children c).place = .stopping killAt)
    (hgroup : (w.children c).whom = .group) : killAt = none := by
  cases killAt with
  | none => rfl
  | some t => exact absurd hplace (h.trying c todo kept hreaper hgroup t)

/-- A child that the reaper has done with goes. -/
theorem finish (h : Kept w) {todo kept : List ℕ} (hreaper : w.reaper = .trying c todo kept)
    {killAt : Option ℕ} (hplace : (w.children c).place = .stopping killAt)
    (hsound : Sound w.now pids' c child') (hchild : child'.place = .gone)
    (hpids : ∀ c' ≠ c, ∀ pid, w.pids pid = some (.child c') → pids' pid = some (.child c')) :
    Kept { w with
      children := Function.update w.children c child', pids := pids'
      reaper := .passing todo kept } := by
  have honce := h.heldOnce
  rw [hreaper] at honce
  have hnot : c ∉ todo ++ kept := (List.nodup_cons.mp honce).1
  refine h.update (h.lt_next ?_) hsound hpids (fun c' => ?_) h.comingOnce (fun c' => ?_)
    (List.nodup_cons.mp honce).2 ?_ (by simp)
  · rw [hplace]
    simp
  · split
    · next heq =>
      subst heq
      have hcoming := h.coming c'
      rw [hplace] at hcoming
      simpa [hchild, World.coming] using hcoming
    · rfl
  · split
    · next heq =>
      subst heq
      simpa [hchild, Phase.held] using hnot
    · next hne => simp [hreaper, Phase.held, hne]
  · rintro c' todo' kept' ⟨⟩

/-- A child is handed over. -/
theorem handOver (h : Kept w) (hplace : (w.children c).place = .dropping) :
    w.reaper ≠ .stopped ∧ Kept { w.put c (.sent (some (w.now + hangupGrace))) with
      channel := w.channel ++ [.child c] } := by
  have hlive : w.reaper ≠ .stopped := by
    intro hstopped
    have hgone := (h.stopped hstopped).2.2 c
    rw [hplace] at hgone
    cases hgone
  have hcoming : c ∉ w.coming := by
    rw [h.coming, hplace]
    simp
  have hheld : c ∉ w.reaper.held := by
    rw [h.held, hplace]
    simp
  refine ⟨hlive, h.update (h.lt_next ?_) ((h.sound c).handedOver hplace) (fun _ _ _ hpid => hpid)
    (fun c' => ?_) ?_ (fun c' => ?_) h.heldOnce (fun c' todo kept hreaper => ?_) hlive⟩
  · rw [hplace]
    simp
  · rw [List.filterMap_append, List.mem_append]
    split
    · next heq =>
      subst heq
      exact iff_of_true (.inr (by simp [Reap.child?])) ⟨_, rfl⟩
    · next hne =>
      change c' ∈ w.coming ∨ _ ↔ _
      simp [Reap.child?, hne]
  · rw [List.filterMap_append]
    change (w.coming ++ [c]).Nodup
    rw [List.nodup_append]
    refine ⟨h.comingOnce, by simp, ?_⟩
    rintro c' hc' _ hmem rfl
    rw [List.mem_singleton.mp hmem] at hc'
    exact hcoming hc'
  · split
    · next heq =>
      subst heq
      exact iff_of_false hheld (by simp)
    · rfl
  · have hne : c' ≠ c := by
      rintro rfl
      change w.reaper = _ at hreaper
      exact hheld (by rw [hreaper]; simp [Phase.held])
    rw [Function.update_of_ne hne]
    exact h.trying c' todo kept hreaper

/-- The reaper receives a child. -/
theorem receive (h : Kept w) {children : List ℕ} (hreaper : w.reaper = .waiting children)
    {channel : List Reap} (hchannel : w.channel = .child c :: channel) {killAt : Option ℕ}
    (hplace : (w.children c).place = .sent killAt) :
    Kept { w.put c (.stopping killAt) with
      channel := channel, reaper := .passing (children ++ [c]) [] } := by
  have hcoming : w.coming = c :: channel.filterMap Reap.child? := by
    rw [World.coming, hchannel]
    rfl
  have honce := h.comingOnce
  rw [hcoming] at honce
  have hheld : w.reaper.held = children := by rw [hreaper]; rfl
  have hnot : c ∉ children := by
    rw [← hheld, h.held, hplace]
    simp
  refine h.update (h.lt_next ?_) ((h.sound c).received hplace) (fun _ _ _ hpid => hpid)
    (fun c' => ?_) (List.nodup_cons.mp honce).2 (fun c' => ?_) ?_ ?_ (by simp)
  · rw [hplace]
    simp
  · split
    · next heq =>
      subst heq
      exact iff_of_false (List.nodup_cons.mp honce).1 (by simp)
    · next hne => simp [hcoming, hne]
  · split
    · next heq =>
      subst heq
      exact iff_of_true (by simp [Phase.held]) ⟨_, rfl⟩
    · next hne =>
      rw [hheld]
      simp [Phase.held, hne]
  · simp only [Phase.held, List.append_nil]
    rw [List.nodup_append]
    refine ⟨hheld ▸ h.heldOnce, by simp, ?_⟩
    rintro c' hc' _ hmem rfl
    rw [List.mem_singleton.mp hmem] at hc'
    exact hnot hc'
  · rintro c' todo kept ⟨⟩

/-- The reaper kills a child. -/
theorem kill (h : Kept w) {todo kept : List ℕ} (hreaper : w.reaper = .passing (c :: todo) kept)
    {t : ℕ} (hplace : (w.children c).place = .stopping (some t)) (ht : t ≤ w.now) :
    Kept { w.kill c .kill (.stopping none) with reaper := .trying c todo kept } := by
  have hheld : w.reaper.held = c :: todo ++ kept := by rw [hreaper]; rfl
  have honce := h.heldOnce
  rw [hheld] at honce
  refine h.update (h.lt_next ?_) ((h.sound c).killed hplace ht) (fun _ _ _ hpid => hpid)
    (fun c' => ?_) h.comingOnce (fun c' => ?_) honce ?_ (by simp)
  · rw [hplace]
    simp
  · split
    · next heq =>
      subst heq
      have hcoming := h.coming c'
      rw [hplace] at hcoming
      simpa [World.coming, World.kill, World.set] using hcoming
    · rfl
  · split
    · next heq =>
      subst heq
      exact iff_of_true (by simp [Phase.held]) ⟨_, rfl⟩
    · rw [hheld]
      rfl
  · rintro c' todo' kept' ⟨⟩ _ t
    simp

/-- A child ends. -/
theorem exit (h : Kept w) (c : ℕ) :
    Kept (w.set c { w.children c with exited := true }) := by
  have hchild : ∀ c', ∃ exited, (w.set c { w.children c with exited := true }).children c' =
      { w.children c' with exited := exited } := by
    intro c'
    by_cases hne : c' = c
    · subst hne
      exact ⟨true, Function.update_self _ _ _⟩
    · exact ⟨(w.children c').exited, Function.update_of_ne hne _ _⟩
  have hplace : ∀ c', ((w.set c { w.children c with exited := true }).children c').place =
      (w.children c').place := by
    intro c'
    obtain ⟨exited, heq⟩ := hchild c'
    rw [heq]
  have hwhom : ∀ c', ((w.set c { w.children c with exited := true }).children c').whom =
      (w.children c').whom := by
    intro c'
    obtain ⟨exited, heq⟩ := hchild c'
    rw [heq]
  exact {
    sound := by
      intro c'
      obtain ⟨exited, heq⟩ := hchild c'
      have hsound := h.sound c'
      rw [heq]
      exact ⟨hsound.laws, hsound.number, hsound.unreaped, hsound.undropped, hsound.past, hsound.due,
        hsound.way⟩
    fresh := fun c' hc' => (hplace c').trans (h.fresh c' hc')
    trying := by
      intro c' todo kept hreaper
      rw [hplace, hwhom]
      exact h.trying c' todo kept hreaper
    coming := by
      intro c'
      rw [hplace]
      exact h.coming c'
    comingOnce := h.comingOnce
    held := by
      intro c'
      rw [hplace]
      exact h.held c'
    heldOnce := h.heldOnce
    stopped := by
      intro hstopped
      obtain ⟨hhandles, hchannel, hgone⟩ := h.stopped hstopped
      exact ⟨hhandles, hchannel, fun c' => by rw [hplace]; exact hgone c'⟩ }

/-- Numbers of processes that are no children of koh's, and time, go on. -/
theorem outside (h : Kept w) {now' : ℕ} (hnow : w.now ≤ now')
    (hpids : ∀ pid c, w.pids pid = some (.child c) → pids' pid = some (.child c)) :
    Kept { w with now := now', pids := pids' } :=
  { h with sound := fun c => (h.sound c).mono hnow (hpids _ c) }

/-- The reaper stops. -/
theorem stop (h : Kept w) (hreaper : w.reaper = .waiting []) (hchannel : w.channel = [])
    (hdisconnected : w.disconnected = true) : Kept { w with reaper := .stopped } := by
  simp only [World.disconnected, Bool.and_eq_true, decide_eq_true_eq, List.all_eq_true,
    List.mem_range, Bool.not_eq_true'] at hdisconnected
  have hgone : ∀ c, (w.children c).place.inProgram = false := by
    intro c
    by_cases hlt : c < w.next
    · exact hdisconnected.2 c hlt
    · rw [h.fresh c (Nat.le_of_not_lt hlt)]
      rfl
  have hheld : w.reaper.held = [] := by rw [hreaper]; rfl
  exact { h with
    trying := by rintro _ _ _ ⟨⟩
    held := fun c => by
      rw [← h.held, hheld]
      rfl
    heldOnce := List.nodup_nil
    stopped := fun _ => ⟨hdisconnected.1, hchannel, hgone⟩ }

/-- Who is looked at goes from the front to the end. -/
theorem perm_last (c : ℕ) (todo kept : List ℕ) :
    (todo ++ (kept ++ [c])).Perm (c :: todo ++ kept) := by
  rw [← List.append_assoc]
  exact List.perm_append_comm

/-- What every call keeps. -/
theorem step (h : Kept w) {m : Move} (hstep : w.step m = some w') : Kept w' := by
  cases World.steps_of_step hstep with
  | start hhandles hpid => exact h.start hhandles hpid _
  | clone hhandles =>
    exact { h with stopped := fun hstopped => absurd (h.stopped hstopped).1 hhandles }
  | release hhandles =>
    exact { h with stopped := fun hstopped => absurd (h.stopped hstopped).1 hhandles }
  | drainStopped => exact h
  | drain _ hlive =>
    have hcoming : World.coming { w with channel := w.channel ++ [.drain] } = w.coming := by
      simp [World.coming, Reap.child?]
    exact { h with
      coming := fun c => by
        rw [hcoming]
        exact h.coming c
      comingOnce := by
        rw [hcoming]
        exact h.comingOnce
      stopped := fun hstopped => absurd hstopped hlive }
  | @signal c signal hplace =>
    exact h.change (by rw [hplace]; rfl) ((h.sound c).signalled hplace signal)
      (fun _ _ _ hpid => hpid) rfl
  | signalEnded => exact h
  | @tryWait c hplace =>
    have hpids := h.pids_reap (by rw [hplace]; rfl)
    exact h.change (by rw [hplace]; rfl) (((h.sound c).reapedByProgram hplace).free rfl _) hpids rfl
  | tryWaitNone => exact h
  | @drop c hplace =>
    exact h.change (by rw [hplace]; rfl) ((h.sound c).dropped hplace) (fun _ _ _ hpid => hpid) rfl
  | @dropEnded c hplace =>
    exact h.change (by rw [hplace]; rfl) ((h.sound c).goneEnded hplace) (fun _ _ _ hpid => hpid) rfl
  | leave hplace hstopped => exact absurd hstopped (h.handOver hplace).1
  | handOver hplace => exact (h.handOver hplace).2
  | receive hreaper hchannel hplace => exact h.receive hreaper hchannel hplace
  | @receiveDrain children channel hreaper hchannel =>
    have hcoming : w.coming = channel.filterMap Reap.child? := by
      rw [World.coming, hchannel]
      rfl
    have hheld : w.reaper.held = children := by rw [hreaper]; rfl
    exact { h with
      trying := by rintro _ _ _ ⟨⟩
      coming := fun c => by
        rw [← h.coming, hcoming]
        rfl
      comingOnce := by
        have honce := h.comingOnce
        rw [hcoming] at honce
        exact honce
      held := fun c => by
        rw [← h.held, hheld]
        simp [Phase.held]
      heldOnce := by
        have honce := h.heldOnce
        rw [hheld] at honce
        simpa [Phase.held] using honce
      stopped := fun hstopped => by cases hstopped }
  | timeout hreaper =>
    refine h.turn ?_ (by simp) (by rintro _ _ _ ⟨⟩)
    simp [hreaper, Phase.held]
  | kill hreaper hplace hover => exact h.kill hreaper hplace hover
  | spare hreaper =>
    refine h.turn ?_ (by simp) (by rintro _ _ _ ⟨⟩)
    rw [hreaper]
    exact perm_last _ _ _
  | judge hreaper hplace _ hleader =>
    refine h.turn ?_ (by simp) ?_
    · rw [hreaper]
      rfl
    · rintro _ _ _ ⟨⟩ hgroup t hkill
      rw [hplace, hleader hgroup] at hkill
      cases hkill
  | passed hreaper =>
    refine h.turn ?_ (by simp) (by rintro _ _ _ ⟨⟩)
    rw [hreaper]
    rfl
  | @giveUp c _ _ _ hreaper hplace =>
    have hgroup := h.group_none hreaper hplace
    exact h.finish hreaper hplace ((h.sound c).givenUp hplace hgroup) rfl fun _ _ _ hpid => hpid
  | @reap c _ _ _ hreaper hplace =>
    have hgroup := h.group_none hreaper hplace
    exact h.finish hreaper hplace (((h.sound c).reapedByReaper hplace hgroup).free rfl _) rfl
      (h.pids_reap (by rw [hplace]; rfl))
  | keep hreaper =>
    refine h.turn ?_ (by simp) (by rintro _ _ _ ⟨⟩)
    rw [hreaper]
    exact perm_last _ _ _
  | stop hreaper hchannel hdisconnected => exact h.stop hreaper hchannel hdisconnected
  | @exit c => exact h.exit c
  | @fork pid hfree =>
    refine h.outside (Nat.le_refl _) fun pid' c hpid => ?_
    have hne : pid' ≠ pid := by
      rintro rfl
      rw [hfree] at hpid
      cases hpid
    rwa [Function.update_of_ne hne]
  | @forkGone pid hother =>
    refine h.outside (Nat.le_refl _) fun pid' c hpid => ?_
    have hne : pid' ≠ pid := by
      rintro rfl
      rw [hother] at hpid
      cases hpid
    rwa [Function.update_of_ne hne]
  | tick => exact h.outside (Nat.le_add_right _ _) fun _ _ hpid => hpid

end Kept

end Koh.Pty
