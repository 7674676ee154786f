import Koh.Jobs.Places
import Koh.Wire.Answer

/-!
# Listings, sent whole

`SessionInfo`, `SessionList`, `JobInfo` and `JobList`, from `request.rs`, how the server makes
them (`Session::run` and `dispatch` in `server`, `Jobs::list` and `Job::info` in `jobs.rs`), and
whether a client gets them.

## Main definitions

- `Standing.info`, `listed`: the sessions, as listed
- `info`, `list`: the jobs, as listed
- `putSessions`, `takeSessions`, `putJobs`, `takeJobs`: a listing's body
- `Arrives`: an answer goes out and is read back

## Main results

- `jobs_arrive`: a listing of jobs always arrives
- `sessions_arrive_of_few`: so does one of few enough sessions
- `listings_arrive_iff`: when they both do

## Design notes

A title is cut to its characters where a session says it, and the listing to its entries where
it is answered. Nothing cuts the listing to the bytes of an answer.
-/

namespace Koh.Wire

open Koh.Lib Koh.Stream Koh.Server Koh.Jobs

variable {α : Type}

def maxReply : ℕ := 2 ^ 20

def maxListed : ℕ := 1024

def maxCommand : ℕ := 256 * 1024

/-! ### Sessions -/

/-- Whether a client is attached to a session. -/
inductive Presence where
  | attached
  /-- No client for these seconds. -/
  | detached (secs : UInt64)
  deriving DecidableEq

/-- What a session's shell is doing, and what its program does. -/
structure ShellState where
  /-- `none` before it was probed. -/
  activity : Option Activity
  running : Bool
  /-- How many commands ended. -/
  finished : UInt64
  lastStatus : Option Int32
  deriving DecidableEq

structure SessionInfo where
  session : UInt64
  ageSecs : UInt64
  presence : Presence
  rows : UInt16
  cols : UInt16
  title : List Char
  exited : Option UInt32
  state : ShellState
  deriving DecidableEq

structure Standing where
  session : UInt64
  started : ℕ
  /-- Since when no client is attached. -/
  detached : Option ℕ
  rows : UInt16
  cols : UInt16
  title : List Char
  exited : Option UInt32
  state : ShellState

/-- The whole seconds since. -/
def secs (since now : ℕ) : UInt64 := UInt64.ofNat (now - since)

/-- How it describes itself: its title is cut. -/
def Standing.info (now : ℕ) (s : Standing) : SessionInfo where
  session := s.session
  ageSecs := secs s.started now
  presence := match s.detached with
    | none => .attached
    | some since => .detached (secs since now)
  rows := s.rows
  cols := s.cols
  title := s.title.take maxTitle
  exited := s.exited
  state := s.state

def listed (now : ℕ) (sessions : List Standing) : List SessionInfo :=
  (sessions.map (·.info now)).take maxListed

/-- What the client makes of a session: its title loses its control characters. -/
def SessionInfo.received (s : SessionInfo) : SessionInfo :=
  { s with title := (cleanTitle s.title).toList }

def putPresence (vt : Varint) : Presence → List UInt8
  | .attached => vt.put 0
  | .detached secs => vt.put 1 ++ putU64 vt secs

def putState (vt : Varint) (state : ShellState) : List UInt8 :=
  putOption (fun activity => vt.put activity.place) state.activity ++
    (putBool state.running ++ (putU64 vt state.finished ++ putOption (putI32 vt) state.lastStatus))

def putSession (vt : Varint) (s : SessionInfo) : List UInt8 :=
  putU64 vt s.session ++ (putU64 vt s.ageSecs ++ (putPresence vt s.presence ++
    (putU16 vt s.rows ++ (putU16 vt s.cols ++ (putText vt s.title ++
      (putOption (putU32 vt) s.exited ++ putState vt s.state))))))

def putSessions (vt : Varint) : List SessionInfo → List UInt8 := putSeq vt (putSession vt)

def takePresence (vt : Varint) : Take Presence := do
  match ← vt.take 32 with
  | 0 => pure .attached
  | 1 => do
    let secs ← takeU64 vt
    pure (.detached secs)
  | _ => failure

def takeState (vt : Varint) : Take ShellState := do
  let activity ← takeOption (takeActivity vt)
  let running ← takeBool
  let finished ← takeU64 vt
  let lastStatus ← takeOption (takeI32 vt)
  pure ⟨activity, running, finished, lastStatus⟩

def takeSession (vt : Varint) : Take SessionInfo := do
  let session ← takeU64 vt
  let ageSecs ← takeU64 vt
  let presence ← takePresence vt
  let rows ← takeU16 vt
  let cols ← takeU16 vt
  let title ← takeTitle vt
  let exited ← takeOption (takeU32 vt)
  let state ← takeState vt
  pure ⟨session, ageSecs, presence, rows, cols, title.toList, exited, state⟩

def takeSessions (vt : Varint) : Take (List SessionInfo) := atMost vt maxListed (takeSession vt)

/-! ### Jobs -/

inductive JobState where
  | running
  | exited (status : UInt32)
  deriving DecidableEq

structure Usage where
  processes : UInt32
  cpuMs : UInt64
  deriving DecidableEq

structure JobInfo where
  name : JobName
  command : List Char
  ageSecs : UInt64
  /-- Seconds it ran, once it ended. -/
  ranSecs : Option UInt64
  state : JobState
  outputBytes : UInt64
  droppedBytes : UInt64
  usage : Option Usage
  deriving DecidableEq

/-- What is told of a job beside how it stands in the table. -/
structure Told where
  command : List Char
  written : UInt64
  dropped : UInt64
  /-- What the processes of its session use, if the system says. -/
  usage : Option Usage

/-- `Job::info`: how it stands, its command whole or cut for a listing. -/
def info (told : Told) (now : ℕ) (whole : Bool) (name : JobName) (job : Job) : JobInfo where
  name := name
  command := if whole then Sync.withinBytes maxCommand told.command
    else told.command.take maxTitle
  ageSecs := secs job.started now
  ranSecs := job.ended.map (secs job.started)
  state := match job.exit with
    | none => .running
    | some status => .exited (UInt32.ofNat status)
  outputBytes := told.written
  droppedBytes := told.dropped
  usage := if job.running then told.usage else none

/-- `Jobs::list`: the one of the name asked for, or all of `peer`'s, oldest first. -/
def list (told : Job → Told) (now : ℕ) (table : Table) (peer : Peer) (only : Option JobName) :
    Answer (List JobInfo) :=
  match only with
  | some name =>
    match table.lookup (peer, name) with
    | none => .error (Problem.new .noSuchJob name.text)
    | some job => .ok [info (told job) now true name job]
  | none =>
    .ok (((table.filter (·.1.1 = peer)).mergeSort fun a b => a.2.started ≤ b.2.started).map
      fun e => info (told e.2) now false e.1.2 e.2)

def putJobState (vt : Varint) : JobState → List UInt8
  | .running => vt.put 0
  | .exited status => vt.put 1 ++ putU32 vt status

def putUsage (vt : Varint) (usage : Usage) : List UInt8 :=
  putU32 vt usage.processes ++ putU64 vt usage.cpuMs

def putJob (vt : Varint) (job : JobInfo) : List UInt8 :=
  putText vt job.name.text ++ (putText vt job.command ++ (putU64 vt job.ageSecs ++
    (putOption (putU64 vt) job.ranSecs ++ (putJobState vt job.state ++
      (putU64 vt job.outputBytes ++ (putU64 vt job.droppedBytes ++
        putOption (putUsage vt) job.usage))))))

def putJobs (vt : Varint) : List JobInfo → List UInt8 := putSeq vt (putJob vt)

def takeJobState (vt : Varint) : Take JobState := do
  match ← vt.take 32 with
  | 0 => pure .running
  | 1 => do
    let status ← takeU32 vt
    pure (.exited status)
  | _ => failure

def takeUsage (vt : Varint) : Take Usage := do
  let processes ← takeU32 vt
  let cpuMs ← takeU64 vt
  pure ⟨processes, cpuMs⟩

def takeJob (vt : Varint) : Take JobInfo := do
  let name ← takeJobName vt
  let command ← takeLossy vt maxCommand
  let ageSecs ← takeU64 vt
  let ranSecs ← takeOption (takeU64 vt)
  let state ← takeJobState vt
  let outputBytes ← takeU64 vt
  let droppedBytes ← takeU64 vt
  let usage ← takeOption (takeUsage vt)
  pure ⟨name, command, ageSecs, ranSecs, state, outputBytes, droppedBytes, usage⟩

def takeJobs (vt : Varint) : Take (List JobInfo) := atMost vt maxListed (takeJob vt)

/-- The answer to a request for the jobs: the listing is cut as the sessions' is. -/
def jobsAnswer (told : Job → Told) (now : ℕ) (table : Table) (peer : Peer)
    (only : Option JobName) : Answer (List JobInfo) :=
  (list told now table peer only).map (·.take maxListed)

/-- An answer goes out, and is read back as `b`. -/
def Arrives (vt : Varint) (put : α → List UInt8) (item : Take α) (a b : Answer α) : Prop :=
  ∃ bytes, encode (putAnswer vt put a) maxReply = .ok bytes ∧
    decodeFramed (takeAnswer vt item) bytes maxReply = .ok b

/-- An answer that is read back arrives if it is short enough. -/
theorem arrives_iff {vt : Varint} {put : α → List UInt8} {item : Take α} {a b : Answer α}
    (h : Reads (takeAnswer vt item) (putAnswer vt put a) b) :
    Arrives vt put item a b ↔ (putAnswer vt put a).length ≤ maxReply := by
  constructor
  · rintro ⟨bytes, hbytes, -⟩
    unfold encode at hbytes
    split at hbytes
    · cases hbytes
    next hlen => exact Nat.not_lt.mp hlen
  · intro hlen
    have hbytes := encode_ok hlen
    exact ⟨_, hbytes, decodeFramed_encode (by decide) h hbytes⟩

/-! ### A listing is read back -/

theorem reads_putPresence (vt : Varint) (presence : Presence) :
    Reads (takePresence vt) (putPresence vt presence) presence := by
  cases presence with
  | attached => exact (vt.reads (by decide)).andThen (.pure _)
  | detached secs =>
    exact (vt.reads (by decide)).bind ((reads_putU64 vt secs).andThen (.pure _))

theorem reads_putState (vt : Varint) (state : ShellState) :
    Reads (takeState vt) (putState vt state) state := by
  refine (reads_putOption fun activity _ => reads_place vt activity).bind ?_
  refine (reads_putBool state.running).bind ?_
  refine (reads_putU64 vt state.finished).bind ?_
  exact (reads_putOption fun status _ => reads_putI32 vt status).andThen (.pure _)

/-- A session is read back, its title cleaned. -/
theorem reads_putSession (vt : Varint) {s : SessionInfo} (h : s.title.length ≤ maxTitle) :
    Reads (takeSession vt) (putSession vt s) s.received := by
  refine (reads_putU64 vt s.session).bind ?_
  refine (reads_putU64 vt s.ageSecs).bind ?_
  refine (reads_putPresence vt s.presence).bind ?_
  refine (reads_putU16 vt s.rows).bind ?_
  refine (reads_putU16 vt s.cols).bind ?_
  refine (reads_takeTitle vt h).bind ?_
  refine (reads_putOption fun status _ => reads_putU32 vt status).bind ?_
  exact (reads_putState vt s.state).andThen (.pure _)

theorem length_title_info (now : ℕ) (s : Standing) : (s.info now).title.length ≤ maxTitle :=
  List.length_take_le _ _

/-- No more sessions are listed than may be. -/
theorem length_listed_le (now : ℕ) (sessions : List Standing) :
    (listed now sessions).length ≤ maxListed :=
  List.length_take_le _ _

/-- Each of them stands. -/
theorem mem_listed {now : ℕ} {sessions : List Standing} {s : SessionInfo}
    (h : s ∈ listed now sessions) : ∃ standing ∈ sessions, standing.info now = s :=
  List.mem_map.mp (List.mem_of_mem_take h)

/-- They are read back. -/
theorem reads_putSessions (vt : Varint) (now : ℕ) (sessions : List Standing) :
    Reads (takeSessions vt) (putSessions vt (listed now sessions))
      ((listed now sessions).map SessionInfo.received) := by
  refine reads_atMost_map vt (by decide) (length_listed_le now sessions) fun s hs => ?_
  obtain ⟨standing, -, rfl⟩ := mem_listed hs
  exact reads_putSession vt (length_title_info now standing)

theorem reads_putJobState (vt : Varint) (state : JobState) :
    Reads (takeJobState vt) (putJobState vt state) state := by
  cases state with
  | running => exact (vt.reads (by decide)).andThen (.pure _)
  | exited status =>
    exact (vt.reads (by decide)).bind ((reads_putU32 vt status).andThen (.pure _))

theorem reads_putUsage (vt : Varint) (usage : Usage) :
    Reads (takeUsage vt) (putUsage vt usage) usage :=
  (reads_putU32 vt usage.processes).bind ((reads_putU64 vt usage.cpuMs).andThen (.pure _))

/-- A job is read back. -/
theorem reads_putJob (vt : Varint) {job : JobInfo}
    (h : (Stream.encode job.command).length ≤ maxCommand) :
    Reads (takeJob vt) (putJob vt job) job := by
  refine (reads_takeJobName vt job.name).bind ?_
  refine (reads_takeLossy vt (by decide) h).bind ?_
  refine (reads_putU64 vt job.ageSecs).bind ?_
  refine (reads_putOption fun secs _ => reads_putU64 vt secs).bind ?_
  refine (reads_putJobState vt job.state).bind ?_
  refine (reads_putU64 vt job.outputBytes).bind ?_
  refine (reads_putU64 vt job.droppedBytes).bind ?_
  exact (reads_putOption fun usage _ => reads_putUsage vt usage).andThen (.pure _)

/-! ### How long a listing is -/

def Presence.size (vt : Varint) : Presence → ℕ
  | .attached => width vt 0
  | .detached secs => width vt 1 + width vt secs.toNat

/-- The bytes of a session's entry: its title's, and its numbers'. -/
def SessionInfo.size (vt : Varint) (s : SessionInfo) : ℕ :=
  width vt s.session.toNat + width vt s.ageSecs.toNat + s.presence.size vt +
    width vt s.rows.toNat + width vt s.cols.toNat + textSize vt s.title +
    optionSize (fun status : UInt32 => width vt status.toNat) s.exited +
    optionSize (fun activity : Activity => width vt activity.place) s.state.activity + 1 +
    width vt s.state.finished.toNat +
    optionSize (fun status : Int32 => width vt (zigzag status)) s.state.lastStatus

/-- The bytes of the answer that lists these sessions. -/
def listingSize (vt : Varint) (sessions : List SessionInfo) : ℕ :=
  width vt 0 + width vt sessions.length + (sessions.map (·.size vt)).sum

theorem length_putPresence (vt : Varint) (presence : Presence) :
    (putPresence vt presence).length = presence.size vt := by
  cases presence with
  | attached => rfl
  | detached secs => exact List.length_append

/-- A session takes the bytes that were counted. -/
theorem length_putSession (vt : Varint) (s : SessionInfo) :
    (putSession vt s).length = s.size vt := by
  have hexited : (putOption (putU32 vt) s.exited).length =
      optionSize (fun status : UInt32 => width vt status.toNat) s.exited :=
    length_putOption (fun _ => rfl) _
  have hactivity :
      (putOption (fun activity : Activity => vt.put activity.place) s.state.activity).length =
        optionSize (fun activity : Activity => width vt activity.place) s.state.activity :=
    length_putOption (fun _ => rfl) _
  have hstatus : (putOption (putI32 vt) s.state.lastStatus).length =
      optionSize (fun status : Int32 => width vt (zigzag status)) s.state.lastStatus :=
    length_putOption (fun _ => rfl) _
  simp only [putSession, putState, putBool, List.length_append, List.length_singleton,
    length_putText, length_putPresence, hexited, hactivity, hstatus, SessionInfo.size, putU64,
    putU16, ← width.eq_def]
  omega

/-- So does the listing. -/
theorem length_putAnswer_sessions (vt : Varint) (sessions : List SessionInfo) :
    (putAnswer vt (putSessions vt) (.ok sessions)).length = listingSize vt sessions := by
  rw [putAnswer, List.length_append, putSessions, length_putSeq, listingSize, Nat.add_assoc]
  simp only [length_putSession]
  rfl

section

variable (vt : Varint)

theorem Presence.size_le (presence : Presence) : presence.size vt ≤ 15 := by
  have hplace (n : ℕ) (h : n < 2 ^ 32) : width vt n ≤ 5 := width_le_of_lt_u32 vt h
  cases presence with
  | attached => exact (hplace 0 (by decide)).trans (by decide)
  | detached secs => exact Nat.add_le_add (hplace 1 (by decide)) (width_u64_le vt secs)

/-- Most bytes of a session's entry. -/
theorem SessionInfo.size_le {s : SessionInfo} (h : s.title.length ≤ maxTitle) :
    s.size vt ≤ 1104 := by
  have htitle : textSize vt s.title ≤ 10 + 1024 := textSize_le vt (by decide) (length_title h)
  have hactivity : ∀ activity : Activity, width vt activity.place ≤ 5 := fun activity =>
    width_le_of_lt_u32 vt (by cases activity <;> decide)
  have h₁ := width_u64_le vt s.session
  have h₂ := width_u64_le vt s.ageSecs
  have h₃ := s.presence.size_le vt
  have h₄ := width_u16_le vt s.rows
  have h₅ := width_u16_le vt s.cols
  have h₆ := optionSize_le (fun status : UInt32 => width_u32_le vt status) s.exited
  have h₇ := optionSize_le hactivity s.state.activity
  have h₈ := width_u64_le vt s.state.finished
  have h₉ := optionSize_le (fun status : Int32 => width_le_of_lt_u32 vt (zigzag_lt status))
    s.state.lastStatus
  unfold SessionInfo.size
  omega

/-- Few enough sessions are listed within an answer, whatever their titles. -/
theorem listingSize_le {now : ℕ} {sessions : List Standing} (h : sessions.length ≤ 900) :
    listingSize vt (listed now sessions) ≤ maxReply := by
  have hlen : (listed now sessions).length ≤ 900 := by
    rw [listed, List.length_take, List.length_map]
    exact (Nat.min_le_right _ _).trans h
  have hentry : ∀ n ∈ (listed now sessions).map (·.size vt), n ≤ 1104 := by
    intro n hn
    obtain ⟨s, hs, rfl⟩ := List.mem_map.mp hn
    obtain ⟨standing, -, rfl⟩ := mem_listed hs
    exact SessionInfo.size_le vt (length_title_info now standing)
  have hsum := List.sum_le_card_nsmul _ _ hentry
  rw [List.length_map, Nat.nsmul_eq_mul] at hsum
  have hvariant : width vt 0 ≤ 5 := width_le_of_lt_u32 vt (by decide)
  have hcount : width vt (listed now sessions).length ≤ 10 := width_le_of_lt vt (by omega)
  have hmax : maxReply = 1048576 := rfl
  unfold listingSize
  omega

/-- Most bytes of a job's entry beside its command. -/
theorem length_putJob_le {job : JobInfo} {most : ℕ} (hmost : most ≤ maxCommand)
    (h : (Stream.encode job.command).length ≤ most) : (putJob vt job).length ≤ 200 + most := by
  have hlt : most < 2 ^ 64 := Nat.lt_of_le_of_lt hmost (by decide)
  have hname : textSize vt job.name.text ≤ 10 + 64 :=
    textSize_le vt (by decide) (length_encode_jobName job.name)
  have hcommand : textSize vt job.command ≤ 10 + most := textSize_le vt hlt h
  have hplace (n : ℕ) (h : n < 2 ^ 32) : (vt.put n).length ≤ 5 := vt.length_le h
  have hage : (putU64 vt job.ageSecs).length ≤ 10 := width_u64_le vt job.ageSecs
  have hout : (putU64 vt job.outputBytes).length ≤ 10 := width_u64_le vt job.outputBytes
  have hdropped : (putU64 vt job.droppedBytes).length ≤ 10 := width_u64_le vt job.droppedBytes
  have hran : (putOption (putU64 vt) job.ranSecs).length ≤ 10 + 1 := by
    rw [length_putOption (fun _ => rfl)]
    exact optionSize_le (fun secs : UInt64 => width_u64_le vt secs) job.ranSecs
  have hstate : (putJobState vt job.state).length ≤ 10 := by
    cases job.state with
    | running => exact (hplace 0 (by decide)).trans (by decide)
    | exited status =>
      rw [putJobState, List.length_append]
      exact Nat.add_le_add (hplace 1 (by decide)) (width_u32_le vt status)
  have husage : (putOption (putUsage vt) job.usage).length ≤ 15 + 1 := by
    rw [length_putOption (fun _ => rfl)]
    refine optionSize_le (fun usage => ?_) job.usage
    rw [putUsage, List.length_append]
    exact Nat.add_le_add (width_u32_le vt usage.processes) (width_u64_le vt usage.cpuMs)
  simp only [putJob, List.length_append, length_putText]
  omega

/-- The jobs fit. -/
theorem length_putJobs_le {jobs : List JobInfo} {count most : ℕ} (hcount : jobs.length ≤ count)
    (hlt : count < 2 ^ 64) (hmost : most ≤ maxCommand)
    (h : ∀ job ∈ jobs, (Stream.encode job.command).length ≤ most) :
    (putJobs vt jobs).length ≤ 10 + count * (200 + most) := by
  have hentry : ∀ n ∈ jobs.map fun job => (putJob vt job).length, n ≤ 200 + most := by
    intro n hn
    obtain ⟨job, hjob, rfl⟩ := List.mem_map.mp hn
    exact length_putJob_le vt hmost (h job hjob)
  have hsum := List.sum_le_card_nsmul _ _ hentry
  rw [List.length_map, Nat.nsmul_eq_mul] at hsum
  have hwidth : width vt jobs.length ≤ 10 :=
    width_le_of_lt vt (Nat.lt_of_le_of_lt hcount hlt)
  rw [putJobs, length_putSeq]
  exact Nat.add_le_add hwidth (hsum.trans (Nat.mul_le_mul_right _ hcount))

end

/-! ### Whether a listing arrives -/

/-- A listing of sessions arrives if its entries, in bytes, are within an answer. -/
theorem sessions_arrive_iff (vt : Varint) (now : ℕ) (sessions : List Standing) :
    Arrives vt (putSessions vt) (takeSessions vt) (.ok (listed now sessions))
      (.ok ((listed now sessions).map SessionInfo.received)) ↔
    listingSize vt (listed now sessions) ≤ maxReply := by
  rw [arrives_iff (reads_putAnswer vt (reads_putSessions vt now sessions)),
    length_putAnswer_sessions]

/-- What `Jobs::list` gives of few enough jobs: one whole, or a few with their commands cut,
or why not. -/
theorem list_cases (told : Job → Told) (now : ℕ) {table : Table} (peer : Peer)
    (only : Option JobName) (h : table.length ≤ maxJobs) :
    (∃ detail, jobsAnswer told now table peer only = .error (Problem.new .noSuchJob detail)) ∨
    ∃ jobs, jobsAnswer told now table peer only = .ok jobs ∧
      ((jobs.length ≤ 1 ∧ ∀ job ∈ jobs, (Stream.encode job.command).length ≤ maxCommand) ∨
        jobs.length ≤ maxJobs ∧
          ∀ job ∈ jobs, (Stream.encode job.command).length ≤ maxTitle * 4) := by
  unfold jobsAnswer list
  split
  · next name =>
    split
    · exact .inl ⟨name.text, rfl⟩
    · refine .inr ⟨_, rfl, .inl ⟨Nat.le_refl 1, fun job hjob => ?_⟩⟩
      obtain rfl := List.mem_singleton.mp hjob
      exact Sync.length_withinBytes _ _
  · refine .inr ⟨_, rfl, .inr ⟨?_, fun job hjob => ?_⟩⟩
    · rw [List.length_take, List.length_map, List.length_mergeSort]
      exact (Nat.min_le_right _ _).trans ((List.length_filter_le _ _).trans h)
    · obtain ⟨e, -, rfl⟩ := List.mem_map.mp (List.mem_of_mem_take hjob)
      exact length_title (List.length_take_le _ _)

/-- A listing of jobs always arrives. -/
theorem jobs_arrive (vt : Varint) {told : Job → Told} {now : ℕ} {table : Table} {peer : Peer}
    {only : Option JobName} (h : table.length ≤ maxJobs) :
    Arrives vt (putJobs vt) (takeJobs vt) (jobsAnswer told now table peer only)
      (jobsAnswer told now table peer only) := by
  have hmax : maxReply = 1048576 := rfl
  have hplace (n : ℕ) (h : n < 2 ^ 32) : (vt.put n).length ≤ 5 := vt.length_le h
  obtain ⟨detail, hanswer⟩ | ⟨jobs, hanswer, hjobs⟩ := list_cases told now peer only h
  · have hdetail : (Stream.encode (Problem.new .noSuchJob detail).detail).length ≤ 4096 :=
      Sync.length_withinBytes _ _
    rw [hanswer, arrives_iff (reads_putAnswer_error vt hdetail)]
    have htext : textSize vt (Problem.new .noSuchJob detail).detail ≤ 10 + 4096 :=
      textSize_le vt (by decide) hdetail
    have hkind : (vt.put (Problem.new .noSuchJob detail).kind.place).length ≤ 5 :=
      hplace ProblemKind.noSuchJob.place (by decide)
    have hvariant := hplace 1 (by decide)
    simp only [putAnswer, putProblem, List.length_append, length_putText]
    omega
  · have hcommand : ∀ job ∈ jobs, (Stream.encode job.command).length ≤ maxCommand := by
      rcases hjobs with hjobs | hjobs
      · exact hjobs.2
      · exact fun job hjob => (hjobs.2 job hjob).trans (by decide)
    have hlisted : jobs.length ≤ maxListed := by
      rcases hjobs with hjobs | hjobs
      · exact hjobs.1.trans (by decide)
      · exact hjobs.1.trans (by decide)
    have hreads : Reads (takeJobs vt) (putJobs vt jobs) jobs :=
      reads_atMost vt (by decide) hlisted fun job hjob => reads_putJob vt (hcommand job hjob)
    rw [hanswer, arrives_iff (reads_putAnswer vt hreads), putAnswer, List.length_append]
    have hvariant := hplace 0 (by decide)
    rcases hjobs with hjobs | hjobs
    · have hlen := length_putJobs_le vt hjobs.1 (by decide) (Nat.le_refl _) hjobs.2
      simp only [maxCommand] at hlen
      omega
    · have hlen := length_putJobs_le vt hjobs.1 (by decide) (by decide) hjobs.2
      simp only [maxJobs, maxTitle] at hlen
      omega

/-- **When listings arrive**: whatever the run left in the table of jobs, and whatever sessions
there are, the listing of the jobs is read back as it is; and so is that of the sessions, but
for their titles' control characters, exactly if the bytes of its entries are within an
answer. -/
theorem listings_arrive_iff (vt : Varint) {clients : Clients} {ttl : ℕ} {s : Hosting}
    (h : Reachable Hosting.step (Hosting.init clients ttl) s) (told : Job → Told) (now : ℕ)
    (peer : Peer) (only : Option JobName) (sessions : List Standing) :
    Arrives vt (putSessions vt) (takeSessions vt) (.ok (listed now sessions))
        (.ok ((listed now sessions).map SessionInfo.received)) ∧
      Arrives vt (putJobs vt) (takeJobs vt) (jobsAnswer told now s.table peer only)
        (jobsAnswer told now s.table peer only) ↔
    listingSize vt (listed now sessions) ≤ maxReply := by
  have hkept : s.table.Kept := h.invariant (·.table.Kept)
    ⟨by simp [Hosting.init], by simp [Hosting.init], by simp [Hosting.init]⟩
    fun _ _ _ hs _ hstep => Hosting.step_kept hs hstep
  rw [sessions_arrive_iff]
  exact and_iff_left (jobs_arrive vt hkept.length)

def quietShell : ShellState := ⟨none, false, 0, none⟩

/-- A session of so long a title that each of its characters takes four bytes. -/
def loud : Standing :=
  ⟨1, 0, none, 24, 80, List.replicate maxTitle (Char.ofNat 0x1f600), none, quietShell⟩

/-- A session that no client was attached to for a while, whose program ended. -/
def ended : Standing := ⟨2, 1, some 3, 30, 100, ['v', 'i', '\n'], some 1, quietShell⟩

/-- `sh`, which wrote three bytes. -/
def toldSh : Job → Told := fun _ => ⟨['s', 'h'], 3, 0, none⟩

/-- In `listings_arrive_iff`, a job runs, and of two sessions one is loud. -/
theorem listings_arrive_two :
    ∃ s, Reachable Hosting.step (Hosting.init (.alone 7) 5) s ∧
      s.table.map (fun e => (e.1.1, e.2.running)) = [(7, true)] ∧
      Arrives leb128 (putSessions leb128) (takeSessions leb128) (.ok (listed 11 [loud, ended]))
        (.ok ((listed 11 [loud, ended]).map SessionInfo.received)) ∧
      Arrives leb128 (putJobs leb128) (takeJobs leb128) (jobsAnswer toldSh 11 s.table 7 none)
        (jobsAnswer toldSh 11 s.table 7 none) := by
  obtain ⟨s, hs, hruns⟩ := Option.map_eq_some_iff.mp
    (show (runWhile Hosting.step (fun _ _ => True) (Hosting.init (.alone 7) 5)
      [.admits 7, .reserve 0 none 10, .started 0]).map
        (fun s => s.table.map fun e => (e.1.1, e.2.running)) = some [(7, true)] by decide +kernel)
  have hreach : Reachable Hosting.step (Hosting.init (.alone 7) 5) s := reaches_of_run hs
  exact ⟨s, hreach, hruns, (listings_arrive_iff leb128 hreach toldSh 11 7 none [loud, ended]).mpr
    (listingSize_le leb128 (by decide))⟩

theorem encode_replicate (c : Char) (n : ℕ) :
    (Stream.encode (List.replicate n c)).length = n * c.utf8Size := by
  induction n with
  | zero => rw [Nat.zero_mul]; rfl
  | succ n ih =>
    rw [List.replicate_succ, Stream.encode_cons, List.length_append, ih,
      String.length_utf8EncodeChar, Nat.succ_mul, Nat.add_comm]

/-- A listing of as many sessions as it may hold, each as loud as it may be, is not sent. -/
theorem listing_unsent :
    ¬ ∀ (now : ℕ) (sessions : List Standing),
      Arrives leb128 (putSessions leb128) (takeSessions leb128) (.ok (listed now sessions))
        (.ok ((listed now sessions).map SessionInfo.received)) := by
  intro h
  have hsize := (sessions_arrive_iff leb128 0 _).mp (h 0 (List.replicate maxListed loud))
  have hlisted : listed 0 (List.replicate maxListed loud) =
      List.replicate maxListed (loud.info 0) := by
    rw [listed, List.map_replicate, List.take_replicate, Nat.min_self]
  have htitle : 1024 < (loud.info 0).size leb128 := by
    have htake : (loud.info 0).title = List.replicate maxTitle (Char.ofNat 0x1f600) :=
      List.take_of_length_le (by rw [loud, List.length_replicate])
    have hbytes : (Stream.encode (loud.info 0).title).length = 1024 := by
      rw [htake, encode_replicate]
      decide
    simp only [SessionInfo.size, textSize, hbytes]
    omega
  rw [hlisted, listingSize, List.map_replicate, List.sum_replicate, Nat.nsmul_eq_mul] at hsize
  have hmany : maxListed * 1025 ≤ maxListed * (loud.info 0).size leb128 :=
    Nat.mul_le_mul_left _ htitle
  simp only [maxReply, maxListed] at hsize hmany
  omega

end Koh.Wire
