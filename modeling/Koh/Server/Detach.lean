import Koh.Server.Sessions

/-!
# How long a session lives with no client

The arms of `Session::run` that keep since when no client is attached, from
`server/session.rs`: attaches, descriptions, the presence channel and the timer. A client may
drop, a requester go and time pass between any two of their statements.

## Main definitions

- `Arm`: where the session is in its loop
- `Lifetime`, `Lifetime.step`: the session and its clients, and what happens next
- `Lifetime.Steps`: what a move does, and when it is made
- `Lifetime.Dated`: what `detached` says of the clients

## Main results

- `Lifetime.ttl_honest`: what ends a session by its time to live, and what moves its deadline

## Design notes

Times are numbers, and `latest` is the last an `Instant` can say. An attach is known by its
number, and is its client's once delivered. `seen` is no part of the code: when one of the arms
first saw that no client is attached, since the last was.
-/

namespace Koh.Server

open Koh.Lib

inductive Arm where
  /-- At its `select!`. -/
  | select
  /-- Taking an attach, `since` dated: its client is not made yet, or not sent. -/
  | attach (request : ℕ) (since : Option ℕ)
  | made (request : ℕ) (since : Option ℕ)
  /-- The attach is answered, its client taken or not. -/
  | answered (taken : Bool) (since : Option ℕ)
  /-- The loop is left, by the timer at some time, or otherwise. -/
  | ended (expired : Option ℕ)
  deriving DecidableEq

/-- A session, as far as it dates when its clients left. -/
structure Lifetime where
  now : ℕ
  /-- How many attaches were asked. -/
  asked : ℕ
  /-- Those that wait. -/
  control : List ℕ
  /-- The requesters that are gone. -/
  gone : List ℕ
  /-- The attachments that hold a receiver of the session's presence. -/
  clients : List ℕ
  /-- Since when no client is attached; `none` while one is, or left unseen. -/
  detached : Option ℕ
  arm : Arm
  seen : Option ℕ
  deriving DecidableEq

inductive LifetimeMove where
  | pass (time : ℕ)
  /-- An attach is asked; a requester is gone, and its client with it. -/
  | ask
  | leave (request : ℕ)
  /-- The session takes an attach, makes its client, answers, and goes on. -/
  | attach
  | make
  | answer
  | settle
  | describe
  /-- The presence channel has no receiver. -/
  | closed
  | ttl
  /-- The program's end was told, or the registry ends the session. -/
  | stop
  deriving DecidableEq

namespace Lifetime

/-- `Session::detached`: since when no client is attached. -/
def since (s : Lifetime) : Option ℕ :=
  s.detached.or (if s.clients = [] then some s.now else none)

/-- An arm looked whether a client is attached. -/
def looked (s : Lifetime) : Option ℕ :=
  s.seen.or (if s.clients = [] then some s.now else none)

/-- A session whose first attach is answered: its requester is there, or gone. -/
def start (now : ℕ) (isGone : Bool) : Lifetime where
  now := now
  asked := 1
  control := []
  gone := if isGone then [0] else []
  clients := if isGone then [] else [0]
  detached := none
  arm := .select
  seen := none

/-- `Instant::checked_add`, of the time to live. -/
def deadline (ttl latest since : ℕ) : Option ℕ :=
  if since + ttl ≤ latest then some (since + ttl) else none

def step (ttl latest : ℕ) (s : Lifetime) : LifetimeMove → Option Lifetime
  | .pass time => some { s with now := s.now + time }
  | .ask =>
    if s.control.length < controlQueue then
      some { s with asked := s.asked + 1, control := s.control ++ [s.asked] }
    else none
  | .leave request =>
    some { s with gone := request :: s.gone, clients := s.clients.filter (· ≠ request) }
  | .attach =>
    match s.arm, s.control with
    | .select, request :: control =>
      -- Dated before this attach.
      some { s with control := control, arm := .attach request s.since, seen := s.looked }
    | _, _ => none
  | .make =>
    match s.arm with
    | .attach request since => some { s with arm := .made request since }
    | _ => none
  | .answer =>
    match s.arm with
    | .made request since =>
      -- A connection already gone drops its client.
      if request ∈ s.gone then some { s with arm := .answered false since }
      else some { s with
        clients := request :: s.clients
        arm := .answered true since
        seen := none }
    | _ => none
  | .settle =>
    match s.arm with
    | .answered taken since =>
      some { s with detached := if taken then none else since, arm := .select }
    | _ => none
  | .describe =>
    match s.arm with
    | .select => some { s with detached := s.since, seen := s.looked }
    | _ => none
  | .closed =>
    match s.arm with
    | .select =>
      if s.detached = none ∧ s.clients = [] then
        some { s with detached := some s.now, seen := s.looked }
      else none
    | _ => none
  | .ttl =>
    match s.arm, s.detached.bind (deadline ttl latest) with
    | .select, some at_ => if at_ ≤ s.now then some { s with arm := .ended (some s.now) } else none
    | _, _ => none
  | .stop =>
    match s.arm with
    | .select => some { s with arm := .ended none }
    | _ => none

inductive Steps (ttl latest : ℕ) (s : Lifetime) : LifetimeMove → Lifetime → Prop where
  | pass {time : ℕ} : Steps ttl latest s (.pass time) { s with now := s.now + time }
  | ask (hroom : s.control.length < controlQueue) : Steps ttl latest s .ask
      { s with asked := s.asked + 1, control := s.control ++ [s.asked] }
  | leave {request : ℕ} : Steps ttl latest s (.leave request)
      { s with gone := request :: s.gone, clients := s.clients.filter (· ≠ request) }
  | attach {request : ℕ} {control : List ℕ} (harm : s.arm = .select)
      (hcontrol : s.control = request :: control) : Steps ttl latest s .attach
      { s with control := control, arm := .attach request s.since, seen := s.looked }
  | make {request : ℕ} {since : Option ℕ} (harm : s.arm = .attach request since) :
      Steps ttl latest s .make { s with arm := .made request since }
  | dropped {request : ℕ} {since : Option ℕ} (harm : s.arm = .made request since)
      (hgone : request ∈ s.gone) :
      Steps ttl latest s .answer { s with arm := .answered false since }
  | answer {request : ℕ} {since : Option ℕ} (harm : s.arm = .made request since)
      (hthere : request ∉ s.gone) : Steps ttl latest s .answer
      { s with clients := request :: s.clients, arm := .answered true since, seen := none }
  | settle {taken : Bool} {since : Option ℕ} (harm : s.arm = .answered taken since) :
      Steps ttl latest s .settle
        { s with detached := if taken then none else since, arm := .select }
  | describe (harm : s.arm = .select) :
      Steps ttl latest s .describe { s with detached := s.since, seen := s.looked }
  | closed (harm : s.arm = .select) (hdetached : s.detached = none) (hclients : s.clients = []) :
      Steps ttl latest s .closed { s with detached := some s.now, seen := s.looked }
  | ttl {since : ℕ} (harm : s.arm = .select) (hdetached : s.detached = some since)
      (hlatest : since + ttl ≤ latest) (hdue : since + ttl ≤ s.now) :
      Steps ttl latest s .ttl { s with arm := .ended (some s.now) }
  | stop (harm : s.arm = .select) : Steps ttl latest s .stop { s with arm := .ended none }

/-- The inversion of `step`. -/
theorem steps_of_step {ttl latest : ℕ} {s s' : Lifetime} {m : LifetimeMove}
    (hstep : s.step ttl latest m = some s') : s.Steps ttl latest m s' := by
  cases m with
  | pass time =>
    cases hstep
    exact .pass
  | ask =>
    simp only [step] at hstep
    split at hstep
    · next hroom => cases hstep; exact .ask hroom
    · cases hstep
  | leave request =>
    cases hstep
    exact .leave
  | attach =>
    simp only [step] at hstep
    split at hstep
    · next harm hcontrol => cases hstep; exact .attach harm hcontrol
    · cases hstep
  | make =>
    simp only [step] at hstep
    split at hstep
    · next harm => cases hstep; exact .make harm
    · cases hstep
  | answer =>
    simp only [step] at hstep
    split at hstep
    · next harm =>
      split at hstep
      · next hgone => cases hstep; exact .dropped harm hgone
      · next hthere => cases hstep; exact .answer harm hthere
    · cases hstep
  | settle =>
    simp only [step] at hstep
    split at hstep
    · next harm => cases hstep; exact .settle harm
    · cases hstep
  | describe =>
    simp only [step] at hstep
    split at hstep
    · next harm => cases hstep; exact .describe harm
    · cases hstep
  | closed =>
    simp only [step] at hstep
    split at hstep
    · next harm =>
      split at hstep
      · next hnone => cases hstep; exact .closed harm hnone.1 hnone.2
      · cases hstep
    · cases hstep
  | ttl =>
    simp only [step] at hstep
    split at hstep
    · next at_ harm hdeadline =>
      split at hstep
      · next hdue =>
        obtain ⟨since, hdetached, hat⟩ := Option.bind_eq_some_iff.mp hdeadline
        simp only [deadline] at hat
        split at hat <;> cases hat
        next hlatest =>
        cases hstep
        exact .ttl harm hdetached hlatest hdue
      · cases hstep
    · cases hstep
  | stop =>
    simp only [step] at hstep
    split at hstep
    · next harm => cases hstep; exact .stop harm
    · cases hstep

def delivers (s : Lifetime) (m : LifetimeMove) : Prop :=
  m = .answer ∧ ∃ request since, s.arm = .made request since ∧ request ∉ s.gone

/-! ### What is known of the clients -/

/-- What the session's dates say: one is kept only while no client is attached, and is when that
was first seen. -/
structure Dated (s : Lifetime) : Prop where
  hclients : s.seen.isSome → s.clients = []
  harm : match s.arm with
    | .select => s.detached = s.seen
    | .attach _ since | .made _ since | .answered false since => since = s.seen
    | .answered true _ => s.seen = none
    | .ended none => True
    | .ended (some _) => s.clients = []

variable {ttl latest : ℕ} {s s' : Lifetime} {m : LifetimeMove}

/-- At its `select!` the session keeps the date that was seen. -/
theorem Dated.select (h : s.Dated) (harm : s.arm = .select) : s.detached = s.seen := by
  have := h.harm
  simpa only [harm] using this

/-- What it would say is what it would see. -/
theorem Dated.since_eq (h : s.Dated) (harm : s.arm = .select) : s.since = s.looked := by
  simp only [since, looked, h.select harm]

/-- It sees no client only where there is none. -/
theorem Dated.looked_clients (h : s.Dated) (hlook : s.looked.isSome) : s.clients = [] := by
  cases hseen : s.seen with
  | some d => exact h.hclients (by simp [hseen])
  | none =>
    simp only [looked, hseen, Option.none_or] at hlook
    split at hlook
    · assumption
    · cases hlook

/-- The first attach. -/
theorem start_dated (now : ℕ) (isGone : Bool) : (start now isGone).Dated :=
  ⟨by simp [start], rfl⟩

/-- Every move keeps what the dates say. -/
theorem step_dated (h : s.Dated) (hstep : step ttl latest s m = some s') : s'.Dated := by
  cases steps_of_step hstep with
  | pass => exact ⟨h.hclients, h.harm⟩
  | ask => exact ⟨h.hclients, h.harm⟩
  | @leave request =>
    have hnil : s.clients = [] → s.clients.filter (· ≠ request) = [] := by
      intro hnil
      rw [hnil, List.filter_nil]
    refine ⟨fun hseen => hnil (h.hclients hseen), ?_⟩
    have harm := h.harm
    cases hs : s.arm with
    | ended expired =>
      cases expired with
      | none => trivial
      | some t => exact hnil (by simpa only [hs] using harm)
    | answered taken since => cases taken <;> simpa only [hs] using harm
    | _ => simpa only [hs] using harm
  | attach harm => exact ⟨h.looked_clients, h.since_eq harm⟩
  | make harm => exact ⟨h.hclients, by simpa only [harm] using h.harm⟩
  | dropped harm => exact ⟨h.hclients, by simpa only [harm] using h.harm⟩
  | answer => exact ⟨by simp, rfl⟩
  | @settle taken since harm =>
    refine ⟨h.hclients, ?_⟩
    have hold := h.harm
    cases taken with
    | true => exact (by simpa only [harm] using hold : s.seen = none).symm
    | false => exact (by simpa only [harm] using hold : since = s.seen)
  | describe harm => exact ⟨h.looked_clients, by simpa only [harm] using h.since_eq harm⟩
  | closed harm hdetached hclients =>
    have hseen : s.seen = none := by rw [← h.select harm, hdetached]
    refine ⟨fun _ => hclients, ?_⟩
    simp [harm, looked, hseen, hclients]
  | ttl harm hdetached =>
    have hclients := h.hclients (by rw [← h.select harm, hdetached]; rfl)
    exact ⟨fun _ => hclients, hclients⟩
  | stop => exact ⟨h.hclients, trivial⟩

/-- What a move makes of the clock, the date and the end. -/
theorem step_dates (hstep : step ttl latest s m = some s') :
    s.now ≤ s'.now ∧ (s'.seen = s.seen ∨ s'.seen = s.looked ∨ s'.seen = none) ∧
      ∀ t, s'.arm = .ended (some t) → s.arm = .ended (some t) ∨
        t = s.now ∧ s.arm = .select ∧ ∃ d, s.detached = some d ∧ d + ttl ≤ s.now := by
  cases steps_of_step hstep with
  | pass => exact ⟨Nat.le_add_right _ _, .inl rfl, fun t ht => .inl ht⟩
  | ask => exact ⟨le_rfl, .inl rfl, fun t ht => .inl ht⟩
  | leave => exact ⟨le_rfl, .inl rfl, fun t ht => .inl ht⟩
  | attach => exact ⟨le_rfl, .inr (.inl rfl), by simp⟩
  | answer => exact ⟨le_rfl, .inr (.inr rfl), by simp⟩
  | describe => exact ⟨le_rfl, .inr (.inl rfl), fun t ht => .inl ht⟩
  | closed => exact ⟨le_rfl, .inr (.inl rfl), fun t ht => .inl ht⟩
  | ttl harm hdetached _ hdue =>
    refine ⟨le_rfl, .inl rfl, fun t ht => .inr ⟨?_, harm, _, hdetached, hdue⟩⟩
    cases ht
    rfl
  | _ => exact ⟨le_rfl, .inl rfl, by simp⟩

/-- A client was attached at `moment`: whatever is dated since, is dated after. -/
structure After (moment ttl : ℕ) (s : Lifetime) : Prop where
  hdated : s.Dated
  hnow : moment ≤ s.now
  hseen : ∀ d, s.seen = some d → moment ≤ d
  hended : ∀ t, s.arm = .ended (some t) → moment + ttl ≤ t

/-- With a client attached there is no date yet. -/
theorem Dated.after (h : s.Dated) (hclients : s.clients ≠ []) : After s.now ttl s := by
  have hnone : s.seen = none := by
    rw [← Option.not_isSome_iff_eq_none]
    exact fun hsome => hclients (h.hclients hsome)
  refine ⟨h, le_rfl, by simp [hnone], fun t ht => absurd ?_ hclients⟩
  have := h.harm
  simpa only [ht] using this

/-- Whatever is dated later is dated after. -/
theorem After.step {moment : ℕ} (h : After moment ttl s)
    (hstep : Lifetime.step ttl latest s m = some s') : After moment ttl s' := by
  obtain ⟨hnow, hseen, hended⟩ := step_dates hstep
  have hlooked : ∀ d, s.looked = some d → moment ≤ d := by
    intro d hd
    cases hold : s.seen with
    | some d' =>
      have hsame : s.looked = some d' := by simp [looked, hold]
      exact h.hseen d (hold.trans (hsame.symm.trans hd))
    | none =>
      simp only [looked, hold, Option.none_or] at hd
      split at hd <;> cases hd
      exact h.hnow
  refine ⟨step_dated h.hdated hstep, h.hnow.trans hnow, fun d hd => ?_, fun t ht => ?_⟩
  · rcases hseen with hs | hs | hs
    · exact h.hseen d (hs.symm.trans hd)
    · exact hlooked d (hs.symm.trans hd)
    · rw [hs] at hd
      cases hd
  · rcases hended t ht with hs | ⟨rfl, hs, d, hd, hdue⟩
    · exact h.hended t hs
    · have := h.hseen d ((h.hdated.select hs).symm.trans hd)
      omega

/-- `detached` and what was seen stay as they were. -/
structure Stays (since : ℕ) (s : Lifetime) : Prop where
  hdated : s.Dated
  hdetached : s.detached = some since
  hseen : s.seen = some since

/-- A move that delivers no client leaves the deadline where it is. -/
theorem Stays.step {since : ℕ} (h : Stays since s) (hm : ¬ s.delivers m)
    (hstep : Lifetime.step ttl latest s m = some s') : Stays since s' := by
  have hlooked : s.looked = some since := by simp [looked, h.hseen]
  have hsince : s.since = some since := by simp [Lifetime.since, h.hdetached]
  have hdated := step_dated h.hdated hstep
  cases steps_of_step hstep with
  | attach => exact ⟨hdated, h.hdetached, hlooked⟩
  | answer harm hthere => exact absurd ⟨rfl, _, _, harm, hthere⟩ hm
  | settle => exact ⟨hdated, (hdated.select rfl).trans h.hseen, h.hseen⟩
  | describe => exact ⟨hdated, hsince, hlooked⟩
  | closed _ hdetached =>
    rw [h.hdetached] at hdetached
    cases hdetached
  | _ => exact ⟨hdated, h.hdetached, h.hseen⟩

/-- A session that ends by its time to live had no client in all of it: whenever one was attached,
the end comes a time to live later or more. Its deadline counts from when an arm first saw that no
client is attached, and stays there until a client is delivered, whatever attaches are asked whose
requesters are gone when they are answered. -/
theorem ttl_honest {now : ℕ} {isGone : Bool} {s₁ s₂ : Lifetime}
    (h₁ : Reachable (step ttl latest) (start now isGone) s₁)
    (h₂ : Reachable (step ttl latest) s₁ s₂) :
    (∀ t, s₂.arm = .ended (some t) → s₁.clients ≠ [] → s₁.now + ttl ≤ t) ∧
      (s₁.arm = .select → s₁.detached = s₁.seen) ∧
      ∀ d, s₁.arm = .select → s₁.detached = some d →
        Reaches (step ttl latest) (fun s m => ¬ s.delivers m) s₁ s₂ → s₂.detached = some d := by
  have hdated : s₁.Dated := h₁.invariant Dated (start_dated now isGone) fun _ _ _ h _ hstep =>
    step_dated h hstep
  refine ⟨fun t ht hclients => ?_, hdated.select, fun d harm hd hrun => ?_⟩
  · have hafter := h₂.invariant (After s₁.now ttl) (hdated.after hclients)
      fun _ _ _ h _ hstep => h.step hstep
    exact hafter.hended t ht
  · have hstays := hrun.invariant (Stays d) ⟨hdated, hd, (hdated.select harm).symm.trans hd⟩
      fun _ _ _ h hm hstep => h.step hm hstep
    exact hstays.hdetached

/-- The client leaves unseen, a description sees it, and an attach whose requester is gone is
answered before the end. -/
def renewed : List LifetimeMove :=
  [.pass 5, .leave 0, .pass 2, .describe, .ask, .leave 1, .pass 20, .attach, .make, .answer,
    .settle, .pass 80, .ttl]

/-- A session whose attach was given up ends by its first date. -/
theorem ttl_honest_renewed : ∃ s, Reachable (step 100 1000) (start 0 false) s ∧
    s.detached = some 7 ∧ s.arm = .ended (some 107) ∧ (start 0 false).now + 100 ≤ 107 := by
  have hrun : (runWhile (step 100 1000) (fun _ _ => True) (start 0 false) renewed).map
      (fun s => (s.detached, s.arm)) = some (some 7, .ended (some 107)) := by
    decide +kernel
  obtain ⟨s, hs, hall⟩ := Option.map_eq_some_iff.mp hrun
  simp only [Prod.mk.injEq] at hall
  have hreach := reaches_of_run hs
  exact ⟨s, hreach, hall.1, hall.2, (ttl_honest .refl hreach).1 107 hall.2 (by decide)⟩

end Lifetime

end Koh.Server
