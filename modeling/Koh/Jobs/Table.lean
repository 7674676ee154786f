import Koh.Server.Allow
import Koh.Lib.Dict
import Koh.Lib.Reach
import Mathlib.Data.List.MinMax

/-!
# Every peer's jobs, and revocation

`Jobs`, from `server/jobs.rs`: the table of jobs, the requests that start them, the
runners that run them, and `watch_allowlist`, which ends the jobs of each key that a
change of the list drops or rescopes.

## Main definitions

- `Job`, `Table`: the jobs there are
- `reserve`: take a job's place in the table
- `Hosting`, `Hosting.step`: the list, the requests, the table and the runners, and
  what any of them does next
- `Hosting.Steps`: what a move does, and when it is made
- `Hosting.heeded`: no request takes a job's place, or leaves it, once its key is revoked

## Main results

- `Hosting.revoked_leaves_none`: revocation leaves no job, in runs that heed it
- `Hosting.revoked_leaves_one`: a run that does not

## Design notes

A request is served by a future that is raced with the revocation of its key
(`Gate::serve`): the future may be polled first, and it is dropped at one of its
awaits, where `drop` comes. A job is one whose runner runs until the runner says how
it ended. The clock is a number of seconds. A list is published whatever the reads of
it settled.
-/

namespace Koh.Jobs

open Koh.Server Koh.Lib

def maxJobs : ℕ := 64

def maxJobName : ℕ := 64

/-- The status of a job that did not start. -/
def notStarted : ℕ := 127

/-- Whether a name fits: 1 to 64 letters, digits, `.`, `_` and `-`, not first `-`. -/
def validJobName (name : List Char) : Bool :=
  name ≠ [] && name.length ≤ maxJobName && name.head? ≠ some '-' &&
    name.all fun c => c.isAlphanum || c = '.' || c = '_' || c = '-'

structure JobName where
  text : List Char
  valid : validJobName text = true
  deriving DecidableEq

def JobName.new (text : List Char) : Option JobName :=
  if h : validJobName text = true then some ⟨text, h⟩ else none

structure Job where
  /-- Which it is: a name may be used again. -/
  id : ℕ
  started : ℕ
  exit : Option ℕ
  ended : Option ℕ
  /-- The scope of the key that started it. -/
  scope : Scope
  deriving DecidableEq

namespace Job

def running (job : Job) : Bool := job.exit.isNone

def endedBefore (job : Job) (cutoff : ℕ) : Bool := job.ended.any (· < cutoff)

def finish (job : Job) (code now : ℕ) : Job := { job with exit := some code, ended := some now }

end Job

abbrev Key := Peer × JobName

/-- A map's order. -/
def Key.before (a b : Key) : Bool := a.1 < b.1 || (a.1 = b.1 && decide (a.2.text < b.2.text))

abbrev Table := Dict Key Job

namespace Table

def insert (table : Table) (key : Key) (job : Job) : Table := Dict.insert Key.before table key job

def remove (table : Table) (key : Key) : Table := table.filter (·.1 ≠ key)

/-- The jobs that ended longer ago than `ttl` are forgotten. -/
def retain (ttl now : ℕ) (table : Table) : Table :=
  if ttl ≤ now then table.filter fun e => !e.2.endedBefore (now - ttl) else table

/-- The oldest job that ended: the first of them, if several are. -/
def oldestEnded (table : Table) : Option Key :=
  ((table.filter fun e => e.2.running = false).argmin (·.2.started)).map Prod.fst

/-- Job `id` is now what `f` makes of it, if it is kept. -/
def alter (table : Table) (id : ℕ) (f : Job → Job) : Table :=
  table.map fun e => if e.2.id = id then (e.1, f e.2) else e

/-- The next number free as a name of `peer`'s. -/
def freeName (table : Table) (peer : Peer) : Option JobName :=
  ((List.range (maxJobs + 1)).filterMap fun n => JobName.new (toString (n + 1)).toList).find?
    fun name => (table.lookup (peer, name)).isNone

end Table

inductive Refusal where
  | tooManyJobs
  | nameTaken
  deriving DecidableEq

/-- Take `peer`'s job `name` (else the next number free), room made from the oldest job
that ended if need be; and what becomes of the table, taken or not. -/
def reserve (ttl now : ℕ) (peer : Peer) (name : Option JobName) (job : Job) (table : Table) :
    Except Refusal Key × Table :=
  let table := table.retain ttl now
  match name.or (Table.freeName table peer) with
  | none => (.error .tooManyJobs, table)
  | some name =>
    if (table.lookup (peer, name)).any Job.running then (.error .nameTaken, table)
    else
      let table := Table.remove table (peer, name)
      if maxJobs ≤ table.length then
        match Table.oldestEnded table with
        | some key => (.ok (peer, name), Table.insert (Table.remove table key) (peer, name) job)
        | none => (.error .tooManyJobs, table)
      else (.ok (peer, name), Table.insert table (peer, name) job)

/-- Hang up and forget `peer`'s jobs: `Jobs::end`. -/
def endJobs (peer : Peer) (table : Table) : Table := table.filter (·.1.1 ≠ peer)

inductive Serving where
  /-- It awaits the request. -/
  | opening
  /-- It awaits the start of job `id`'s program. -/
  | starting (key : Key) (id : ℕ)
  | over
  deriving DecidableEq

/-- A request: its key, the scope it was let in with, and its future. -/
structure Request where
  peer : Peer
  scope : Scope
  serving : Serving
  deriving DecidableEq

/-- The list, the requests, the table and the runners. -/
structure Hosting where
  /-- Who may connect, as published. -/
  allowed : Clients
  /-- The keys a change dropped or rescoped whose jobs are to be ended. -/
  due : List Peer
  requests : List Request
  table : Table
  /-- The jobs whose runners run. -/
  runners : List ℕ
  /-- The jobs that are to be hung up. -/
  stopped : List ℕ
  /-- The next job. -/
  next : ℕ
  ttl : ℕ
  deriving DecidableEq

inductive JobMove where
  /-- A list is published, once the jobs that the last change ended are. -/
  | publish (clients : Clients)
  /-- The jobs of the next key that is due are ended. -/
  | endDue
  /-- A connection is let in. -/
  | admits (peer : Peer)
  /-- Request `i` asks to start a job: it takes its place. -/
  | reserve (i : ℕ) (name : Option JobName) (now : ℕ)
  /-- Its program starts, or does not. -/
  | started (i : ℕ)
  | failed (i : ℕ) (now : ℕ)
  /-- Its key is revoked: its future is dropped. -/
  | drop (i : ℕ)
  /-- Job `id`'s runner has its end. -/
  | finish (id code now : ℕ)
  deriving DecidableEq

namespace Hosting

def init (clients : Clients) (ttl : ℕ) : Hosting := ⟨clients, [], [], [], [], [], 0, ttl⟩

def serve (s : Hosting) (i : ℕ) (serving : Serving) : Hosting :=
  { s with requests := s.requests.modify i fun r => { r with serving := serving } }

def step (s : Hosting) : JobMove → Option Hosting
  | .publish clients =>
    if s.due = [] then some { s with allowed := clients, due := s.allowed.gone clients } else none
  | .endDue => match s.due with
    | peer :: due => some { s with
        due := due
        table := endJobs peer s.table
        stopped := s.stopped ++ (s.table.filter (·.1.1 = peer)).map (·.2.id) }
    | [] => none
  | .admits peer => match s.allowed.get peer with
    | some scope => some { s with requests := s.requests ++ [⟨peer, scope, .opening⟩] }
    | none => none
  | .reserve i name now => match s.requests[i]? with
    | some ⟨peer, scope, .opening⟩ =>
      if scope.permitsStart then
        match Jobs.reserve s.ttl now peer name ⟨s.next, now, none, none, scope⟩ s.table with
        | (.ok key, table) =>
          some ({ s with table := table, next := s.next + 1 }.serve i (.starting key s.next))
        | (.error _, table) => some ({ s with table := table }.serve i .over)
      else some (s.serve i .over)
    | _ => none
  | .started i => match s.requests[i]? with
    | some ⟨_, _, .starting _ id⟩ =>
      some ({ s with runners := s.runners ++ [id] }.serve i .over)
    | _ => none
  | .failed i now => match s.requests[i]? with
    | some ⟨_, _, .starting key id⟩ =>
      let table := Table.alter s.table id (·.finish notStarted now)
      some ({ s with table := table.filter fun e => ¬ (e.1 = key ∧ e.2.id = id) }.serve i .over)
    | _ => none
  | .drop i => match s.requests[i]? with
    | some r => if s.allowed.get r.peer ≠ some r.scope then some (s.serve i .over) else none
    | none => none
  | .finish id code now =>
    if id ∈ s.runners then
      some { s with
        table := Table.alter s.table id (·.finish code now)
        runners := s.runners.filter (· ≠ id) }
    else none

inductive Steps (s : Hosting) : JobMove → Hosting → Prop where
  | publish {clients : Clients} (hdue : s.due = []) :
      Steps s (.publish clients) { s with allowed := clients, due := s.allowed.gone clients }
  | endDue {peer : Peer} {due : List Peer} (hdue : s.due = peer :: due) :
      Steps s .endDue { s with
        due := due
        table := endJobs peer s.table
        stopped := s.stopped ++ (s.table.filter (·.1.1 = peer)).map (·.2.id) }
  | admits {peer : Peer} {scope : Scope} (hscope : s.allowed.get peer = some scope) :
      Steps s (.admits peer) { s with requests := s.requests ++ [⟨peer, scope, .opening⟩] }
  | reserve {i now : ℕ} {name : Option JobName} {peer : Peer} {scope : Scope} {key : Key}
      {table : Table} (hi : s.requests[i]? = some ⟨peer, scope, .opening⟩)
      (hpermits : scope.permitsStart = true)
      (hreserve : Jobs.reserve s.ttl now peer name ⟨s.next, now, none, none, scope⟩ s.table =
        (.ok key, table)) :
      Steps s (.reserve i name now)
        ({ s with table := table, next := s.next + 1 }.serve i (.starting key s.next))
  | refuse {i now : ℕ} {name : Option JobName} {peer : Peer} {scope : Scope} {why : Refusal}
      {table : Table} (hi : s.requests[i]? = some ⟨peer, scope, .opening⟩)
      (hpermits : scope.permitsStart = true)
      (hreserve : Jobs.reserve s.ttl now peer name ⟨s.next, now, none, none, scope⟩ s.table =
        (.error why, table)) :
      Steps s (.reserve i name now) ({ s with table := table }.serve i .over)
  | notPermitted {i now : ℕ} {name : Option JobName} {peer : Peer} {scope : Scope}
      (hi : s.requests[i]? = some ⟨peer, scope, .opening⟩)
      (hpermits : scope.permitsStart = false) : Steps s (.reserve i name now) (s.serve i .over)
  | started {i id : ℕ} {peer : Peer} {scope : Scope} {key : Key}
      (hi : s.requests[i]? = some ⟨peer, scope, .starting key id⟩) :
      Steps s (.started i) ({ s with runners := s.runners ++ [id] }.serve i .over)
  | failed {i id now : ℕ} {peer : Peer} {scope : Scope} {key : Key}
      (hi : s.requests[i]? = some ⟨peer, scope, .starting key id⟩) :
      Steps s (.failed i now) ({ s with
        table := (Table.alter s.table id (·.finish notStarted now)).filter
          fun e => ¬ (e.1 = key ∧ e.2.id = id) }.serve i .over)
  | drop {i : ℕ} {r : Request} (hi : s.requests[i]? = some r)
      (hrevoked : s.allowed.get r.peer ≠ some r.scope) : Steps s (.drop i) (s.serve i .over)
  | finish {id code now : ℕ} (hruns : id ∈ s.runners) : Steps s (.finish id code now) { s with
      table := Table.alter s.table id (·.finish code now)
      runners := s.runners.filter (· ≠ id) }

/-- The inversion of `step`. -/
theorem steps_of_step {s s' : Hosting} {m : JobMove} (hstep : s.step m = some s') :
    s.Steps m s' := by
  cases m with
  | publish clients =>
    simp only [step] at hstep
    split at hstep
    · next hdue => cases hstep; exact .publish hdue
    · cases hstep
  | endDue =>
    simp only [step] at hstep
    split at hstep
    · next hdue => cases hstep; exact .endDue hdue
    · cases hstep
  | admits peer =>
    simp only [step] at hstep
    split at hstep
    · next hscope => cases hstep; exact .admits hscope
    · cases hstep
  | reserve i name now =>
    simp only [step] at hstep
    split at hstep
    · next hi =>
      split at hstep
      · next hpermits =>
        split at hstep
        · next hreserve => cases hstep; exact .reserve hi hpermits hreserve
        · next hreserve => cases hstep; exact .refuse hi hpermits hreserve
      · next hpermits =>
        cases hstep
        exact .notPermitted hi ((Bool.not_eq_true _).mp hpermits)
    · cases hstep
  | started i =>
    simp only [step] at hstep
    split at hstep
    · next hi => cases hstep; exact .started hi
    · cases hstep
  | failed i now =>
    simp only [step] at hstep
    split at hstep
    · next hi => cases hstep; exact .failed hi
    · cases hstep
  | drop i =>
    simp only [step] at hstep
    split at hstep
    · next hi =>
      split at hstep
      · next hrevoked => cases hstep; exact .drop hi hrevoked
      · cases hstep
    · cases hstep
  | finish id code now =>
    simp only [step] at hstep
    split at hstep
    · next hruns => cases hstep; exact .finish hruns
    · cases hstep

/-- Whether a key's revocation is heeded: no request that may start a job asks to once
its key's jobs were ended, and none is dropped whose job is in the table, not started
yet. -/
def heeded (s : Hosting) : JobMove → Bool
  | .reserve i _ _ => s.requests[i]?.all fun r => !r.scope.permitsStart ||
      (s.allowed.get r.peer = some r.scope || decide (r.peer ∈ s.due))
  | .drop i => s.requests[i]?.all fun r => match r.serving with
    | .starting _ id => s.table.all fun e => e.2.id ≠ id
    | _ => true
  | _ => true

end Hosting

/-! ### What each call does to the table -/

/-- What is retained was there. -/
theorem Table.mem_retain {ttl now : ℕ} {table : Table} {e : Key × Job}
    (h : e ∈ table.retain ttl now) : e ∈ table := by
  unfold retain at h
  split at h
  · exact (List.mem_filter.mp h).1
  · exact h

/-- A place that is taken is the job's, and no other job is new. -/
theorem mem_of_reserve {ttl now : ℕ} {peer : Peer} {name : Option JobName} {job : Job}
    {table table' : Table} {taken : Except Refusal Key}
    (h : reserve ttl now peer name job table = (taken, table')) :
    (∀ key, taken = .ok key → key.1 = peer) ∧
    ∀ e ∈ table', (∃ key, taken = .ok key ∧ e = (key, job)) ∨ e ∈ table := by
  simp only [reserve] at h
  split at h
  · cases h
    exact ⟨by rintro _ ⟨⟩, fun e he => .inr (Table.mem_retain he)⟩
  · next name _ =>
    split at h
    · cases h
      exact ⟨by rintro _ ⟨⟩, fun e he => .inr (Table.mem_retain he)⟩
    · split at h
      · split at h
        · cases h
          refine ⟨by rintro _ ⟨⟩; rfl, fun e he => ?_⟩
          refine (Dict.mem_insert he).imp (fun heq => ⟨_, rfl, heq⟩) fun he => ?_
          exact Table.mem_retain (List.mem_filter.mp (List.mem_filter.mp he).1).1
        · cases h
          exact ⟨by rintro _ ⟨⟩, fun e he => .inr (Table.mem_retain (List.mem_filter.mp he).1)⟩
      · cases h
        refine ⟨by rintro _ ⟨⟩; rfl, fun e he => ?_⟩
        refine (Dict.mem_insert he).imp (fun heq => ⟨_, rfl, heq⟩) fun he => ?_
        exact Table.mem_retain (List.mem_filter.mp he).1

/-- A job whose status changes is the same but for that. -/
theorem Table.mem_alter {table : Table} {id : ℕ} {f : Job → Job} {e : Key × Job}
    (h : e ∈ Table.alter table id f) :
    ∃ e' ∈ table, e'.1 = e.1 ∧ (e'.2.id ≠ id ∧ e = e' ∨ e'.2.id = id ∧ e.2 = f e'.2) := by
  obtain ⟨e', he', rfl⟩ := List.mem_map.mp h
  refine ⟨e', he', ?_, ?_⟩
  · split <;> rfl
  · by_cases hid : e'.2.id = id
    · exact .inr ⟨hid, by simp [hid]⟩
    · exact .inl ⟨hid, by simp [hid]⟩

namespace Hosting

variable {s s' : Hosting}

/-- A job that says it runs has a runner, or its start is under way. -/
def Alive (s : Hosting) (id : ℕ) : Prop :=
  id ∈ s.runners ∨ ∃ r ∈ s.requests, ∃ key, r.serving = .starting key id

/-- What holds of the table in runs that heed revocation. -/
structure Settled (s : Hosting) : Prop where
  /-- A job's key is allowed what it was when it started the job, or its jobs are due. -/
  allowed : ∀ e ∈ s.table, s.allowed.get e.1.1 = some e.2.scope ∨ e.1.1 ∈ s.due
  alive : ∀ e ∈ s.table, e.2.running = true → s.Alive e.2.id

/-- A request that was not at a start, or whose job has a runner now, leaves every job
alive. -/
theorem Alive.serve {runners : List ℕ} {table : Table} {next i id : ℕ} {r : Request} {serving : Serving}
    (h : s.Alive id) (hi : s.requests[i]? = some r) (hrunners : ∀ id ∈ s.runners, id ∈ runners)
    (hr : ∀ key, r.serving = .starting key id → id ∈ runners) :
    Alive ({ s with runners := runners, table := table, next := next }.serve i serving) id := by
  rcases h with hrun | ⟨r', hr', key, hstarting⟩
  · exact .inl (hrunners id hrun)
  · obtain ⟨j, hj⟩ := List.mem_iff_getElem?.mp hr'
    by_cases hij : i = j
    · subst hij
      rw [hi] at hj
      cases hj
      exact .inl (hr key hstarting)
    · refine .inr ⟨r', List.mem_iff_getElem?.mpr ⟨j, ?_⟩, key, hstarting⟩
      show (s.requests.modify i _)[j]? = some r'
      rw [List.getElem?_modify, hj]
      simp [hij]

/-- What a job's end leaves of the table, it or another's. -/
theorem Settled.alter (h : s.Settled) (id code now : ℕ) {e : Key × Job}
    (he : e ∈ Table.alter s.table id (·.finish code now)) :
    (s.allowed.get e.1.1 = some e.2.scope ∨ e.1.1 ∈ s.due) ∧
      (e.2.running = true → e ∈ s.table ∧ e.2.id ≠ id) := by
  obtain ⟨e', hmem, hkey, halter⟩ := Table.mem_alter he
  rw [← hkey]
  rcases halter with ⟨hne, rfl⟩ | ⟨-, heq⟩
  · exact ⟨h.allowed e hmem, fun _ => ⟨hmem, hne⟩⟩
  · rw [heq]
    exact ⟨h.allowed e' hmem, fun hrun => by cases hrun⟩

/-- Every heeded move keeps the table settled. -/
theorem step_settled {m : JobMove} (h : s.Settled) (hheeded : s.heeded m = true)
    (hstep : s.step m = some s') : s'.Settled := by
  have halive : ∀ {i : ℕ} {peer : Peer} {scope : Scope} {table : Table} {next : ℕ}
      {serving : Serving}, s.requests[i]? = some ⟨peer, scope, .opening⟩ → ∀ id, s.Alive id →
      Alive ({ s with table := table, next := next }.serve i serving) id := fun hi id hid =>
    hid.serve hi (fun _ hin => hin) (by simp)
  cases steps_of_step hstep with
  | publish hdue =>
    refine ⟨fun e he => ?_, h.alive⟩
    rcases h.allowed e he with hget | hmem
    · exact Clients.get_or_gone hget
    · rw [hdue] at hmem
      cases hmem
  | endDue hdue =>
    refine ⟨fun e he => ?_, fun e he hrun => h.alive e (List.mem_filter.mp he).1 hrun⟩
    obtain ⟨hmem, hne⟩ := List.mem_filter.mp he
    refine (h.allowed e hmem).imp_right fun hin => ?_
    rw [hdue] at hin
    rcases List.mem_cons.mp hin with heq | hin
    · simp [heq] at hne
    · exact hin
  | admits =>
    refine ⟨h.allowed, fun e he hrun => ?_⟩
    refine (h.alive e he hrun).imp_right ?_
    rintro ⟨r, hr, hstarting⟩
    exact ⟨r, List.mem_append_left _ hr, hstarting⟩
  | @reserve i now name peer scope key table hi hpermits hreserve =>
    obtain ⟨hkey, hmem⟩ := mem_of_reserve hreserve
    refine ⟨fun e he => ?_, fun e he hrun => ?_⟩
    · rcases hmem e he with ⟨_, ⟨⟩, rfl⟩ | hold
      · show s.allowed.get key.1 = some scope ∨ key.1 ∈ s.due
        rw [hkey key rfl]
        simpa [heeded, hi, hpermits] using hheeded
      · exact h.allowed e hold
    · rcases hmem e he with ⟨_, ⟨⟩, rfl⟩ | hold
      · refine .inr ⟨⟨peer, scope, .starting key s.next⟩, ?_, key, rfl⟩
        refine List.mem_iff_getElem?.mpr ⟨i, ?_⟩
        show (s.requests.modify i _)[i]? = _
        rw [List.getElem?_modify, hi]
        simp
      · exact halive hi _ (h.alive e hold hrun)
  | @refuse _ _ _ _ _ _ table hi _ hreserve =>
    have hold : ∀ e ∈ table, e ∈ s.table := by
      intro e he
      rcases (mem_of_reserve hreserve).2 e he with ⟨_, ⟨⟩, -⟩ | hold
      exact hold
    exact ⟨fun e he => h.allowed e (hold e he),
      fun e he hrun => halive hi _ (h.alive e (hold e he) hrun)⟩
  | notPermitted hi => exact ⟨h.allowed, fun e he hrun => halive hi _ (h.alive e he hrun)⟩
  | started hi =>
    refine ⟨h.allowed, fun e he hrun => (h.alive e he hrun).serve hi ?_ ?_⟩
    · exact fun _ hin => List.mem_append_left _ hin
    · rintro _ ⟨⟩
      exact List.mem_append_right _ (List.mem_singleton_self _)
  | @failed _ id now _ _ _ hi =>
    refine ⟨fun e he => (h.alter id notStarted now (List.mem_filter.mp he).1).1,
      fun e he hrun => ?_⟩
    obtain ⟨hmem, hne⟩ := (h.alter id notStarted now (List.mem_filter.mp he).1).2 hrun
    refine (h.alive e hmem hrun).serve hi (fun _ hin => hin) ?_
    rintro _ ⟨⟩
    exact absurd rfl hne
  | drop hi =>
    refine ⟨h.allowed, fun e he hrun => (h.alive e he hrun).serve hi (fun _ hin => hin) ?_⟩
    intro key hstarting
    simp only [heeded, hi, Option.all_some, hstarting, List.all_eq_true] at hheeded
    simpa using hheeded e he
  | @finish id code now =>
    refine ⟨fun e he => (h.alter id code now he).1, fun e he hrun => ?_⟩
    obtain ⟨hmem, hne⟩ := (h.alter id code now he).2 hrun
    refine (h.alive e hmem hrun).imp_left fun hin => ?_
    exact List.mem_filter.mpr ⟨hin, by simpa using hne⟩

/-- **Revocation leaves no job**, in a run in which no request takes a job's place once
its key's jobs were ended, and none is dropped that is starting one: once a key's jobs
were ended, none is in the table that the list does not allow it; and every job that
says it runs has a runner, or its start is under way. -/
theorem revoked_leaves_none {clients : Clients} {ttl : ℕ} {s : Hosting}
    (h : Reaches step (heeded · ·) (init clients ttl) s) :
    (∀ e ∈ s.table, e.1.1 ∉ s.due → s.allowed.get e.1.1 = some e.2.scope) ∧
    ∀ e ∈ s.table, e.2.running = true → s.Alive e.2.id := by
  have hs : s.Settled := h.invariant Settled ⟨by simp [init], by simp [init]⟩
    fun _ _ _ hs hheeded hstep => step_settled hs hheeded hstep
  exact ⟨fun e he hdue => (hs.allowed e he).resolve_right hdue, hs.alive⟩

/-- Of two requests of one key's, one runs a job; the key is dropped, and its jobs ended;
then the other takes a job's place. -/
def lateMoves : List JobMove :=
  [.admits 7, .admits 7, .reserve 0 none 10, .started 0, .publish .none, .endDue, .reserve 1 none 11]

/-- In `revoked_leaves_none`, a key is dropped while its job runs. -/
theorem revoked_leaves_none_one :
    ∃ s, Reaches step (heeded · ·) (init (.alone 7) 5) s ∧ s.stopped = [0] ∧
      (∀ e ∈ s.table, e.1.1 ∉ s.due → s.allowed.get e.1.1 = some e.2.scope) ∧
      ∀ e ∈ s.table, e.2.running = true → s.Alive e.2.id := by
  obtain ⟨s, hs, hstopped⟩ := Option.map_eq_some_iff.mp
    (show (runWhile step (heeded · ·) (init (.alone 7) 5) (lateMoves.take 6)).map
      Hosting.stopped = some [0] by decide +kernel)
  have hreach := reaches_of_run hs
  exact ⟨s, hreach, hstopped, revoked_leaves_none hreach⟩

set_option synthInstance.maxSize 1000 in
/-- **Revocation leaves a job**, where a request takes its place late: the key's jobs
were ended, it is not allowed, and it has a job in the table; then the request is dropped,
and the job says that it runs, though it has no runner and no start under way. -/
theorem revoked_leaves_one :
    ∃ s, Reachable step (init (.alone 7) 5) s ∧
      (∃ e ∈ s.table, e.1.1 ∉ s.due ∧ s.allowed.get e.1.1 = none) ∧
      ∃ e ∈ s.table, e.2.running = true ∧ ¬ s.Alive e.2.id := by
  obtain ⟨s, hs, hsees⟩ := Option.map_eq_some_iff.mp
    (show (runWhile step (fun _ _ => True) (init (.alone 7) 5) (lateMoves ++ [.drop 1])).map
      (fun s => (s.table.map fun e => (e.1.1, e.2.id, e.2.running), s.due, s.allowed.entries,
        s.runners, s.requests.map Request.serving))
      = some ([(7, 1, true)], [], [], [0], [.over, .over]) by decide +kernel)
  simp only [Prod.mk.injEq] at hsees
  obtain ⟨htable, hdue, hallowed, hrunners, hrequests⟩ := hsees
  obtain ⟨e, he, hjob⟩ := List.map_eq_singleton_iff.mp htable
  simp only [Prod.mk.injEq] at hjob
  obtain ⟨hpeer, hid, hrun⟩ := hjob
  have hmem : e ∈ s.table := he ▸ List.mem_singleton_self e
  refine ⟨s, reaches_of_run hs, ⟨e, hmem, ?_, ?_⟩, e, hmem, hrun, ?_⟩
  · simp [hdue]
  · simp [Clients.get, hallowed]
  · rintro (hin | ⟨r, hr, key, hstarting⟩)
    · rw [hrunners, hid] at hin
      simp at hin
    · have hover : r.serving ∈ s.requests.map Request.serving := List.mem_map_of_mem hr
      rw [hrequests, hstarting] at hover
      simp at hover

end Hosting

end Koh.Jobs
