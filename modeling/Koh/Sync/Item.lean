import Koh.Stream.Utf8

/-!
# What the two ends of a copy say to each other

The names, items, answers and replies of `sync/mod.rs`. A name, a mode, a time
and a chunk carry what their constructors check, so that a wrong one cannot be
made; a path is the list of its names.

## Main definitions

- `Name`, `Mode`, `Time`, `Chunk`: the checked values
- `Item`: one step of what the sender sends
- `Answer`, `Reply`: what the receiver says
- `Summary`: what a copy did

## Design notes

`Item.chunk` brings the bytes that follow it on the stream. The hash (BLAKE3)
is a function `digest` from bytes to bytes, a parameter of what uses it.
-/

namespace Koh.Sync

abbrev Bytes := List UInt8

/-! ### Bounds -/

/-- Most bytes one chunk brings. -/
def CHUNK : ℕ := 64 * 1024

def maxItem : ℕ := 8 * 1024

/-- Most directories deep a tree goes, counting the top. -/
def maxDepth : ℕ := 128

/-- How many files' headers run ahead of their answers. -/
def WINDOW : ℕ := 64

/-- How many messages wait between a blocking end and its stream's task. -/
def pipeDepth : ℕ := 8

/-- How many replies wait between the receiver and its stream. -/
def replyDepth : ℕ := WINDOW + 8

def maxName : ℕ := 1024

def maxPath : ℕ := 4096

def maxLink : ℕ := maxPath - 1

/-- How many of a dry run's changes a summary lists. -/
def changesShown : ℕ := 1000

/-- How many bytes of their paths, at most. -/
def changesShownBytes : ℕ := 256 * 1024

def satAdd (a b : ℕ) : ℕ := min (a + b) (2 ^ 64 - 1)

/-! ### Names and paths -/

/-- Not empty, `.` or `..`, and holding no `/` or NUL. -/
def validName (bytes : Bytes) : Bool :=
  bytes ≠ [] && bytes ≠ [0x2e] && bytes ≠ [0x2e, 0x2e] && bytes.length ≤ maxName
    && !bytes.contains 0x2f && !bytes.contains 0

structure Name where
  bytes : Bytes
  valid : validName bytes
  deriving DecidableEq

abbrev Path := List Name

def Path.bytes (p : Path) : Bytes := List.intercalate [0x2f] (p.map Name.bytes)

/-- The path from `tree`, if it is in it (`Path::strip_prefix`), else all of it. -/
def Path.within (tree p : Path) : Path := if tree.isPrefixOf p then p.drop tree.length else p

/-- A symlink's target: any bytes but NUL, and some. -/
structure LinkTarget where
  bytes : Bytes
  valid : bytes ≠ [] ∧ 0 ∉ bytes ∧ bytes.length ≤ maxLink
  deriving DecidableEq

/-! ### Modes and times -/

/-- Permission bits, with setuid, setgid and sticky. -/
structure Mode where
  bits : ℕ
  le : bits ≤ 0o7777
  deriving DecidableEq

/-- The bits an entry lands with: all but setuid and setgid. -/
def Mode.landed (m : Mode) : ℕ := m.bits &&& 0o1777

/-- A modification time at or after 1970, to the nanosecond. -/
structure Time where
  secs : ℕ
  nanos : ℕ
  lt : nanos < 1000000000
  deriving DecidableEq

/-! ### Failures -/

inductive FailKind where
  | notFound | permissionDenied | notADirectory | isADirectory | isASymlink | noSpace | readOnly
  | nameTooLong | tooDeep | notCopyable | noName | severalIntoOne | noHome | outOfScope | tooMany
  | truncated | malformed | other
  deriving DecidableEq

/-- Why a copy failed, and where. -/
structure Failure where
  kind : FailKind
  path : Bytes
  deriving DecidableEq

def Failure.new (kind : FailKind) (path : Bytes) : Failure := ⟨kind, path.take maxPath⟩

/-- The stream ended before the copy was done. -/
def cut : Failure := .new .truncated []

def malformed : Failure := .new .malformed []

/-! ### Items, answers and replies -/

/-- A file in flight: the sender's number for it. -/
abbrev FileId := UInt32

structure FileHeader where
  id : FileId
  name : Name
  mode : Mode
  mtime : Option Time
  size : ℕ
  deriving DecidableEq

/-- The bytes a chunk brings: one at least, and at most `CHUNK`. -/
structure Chunk where
  bytes : Bytes
  valid : 1 ≤ bytes.length ∧ bytes.length ≤ CHUNK
  deriving DecidableEq

inductive Item where
  | dir (name : Name) (mode : Mode) (mtime : Option Time)
  | contents (mode : Mode) (mtime : Option Time)
  | file (header : FileHeader)
  | symlink (name : Name) (target : LinkTarget)
  | allDone
  | dirEnd
  | skipped (name : Name)
  | data (id : FileId) (start : ℕ)
  | chunk (chunk : Chunk)
  | sent
  | same (id : FileId)
  | failed (failure : Failure)
  | differs (id : FileId) (start : ℕ)
  deriving DecidableEq

/-- The receiver's answer to a file's header. -/
inductive Answer where
  /-- Send it: from byte `kept` if the file's first `kept` bytes hash to `head`. -/
  | want (id : FileId) (kept : ℕ) (head : Option Bytes)
  /-- The receiver has a file of the same size, of this hash. -/
  | check (id : FileId) (hash : Bytes)
  deriving DecidableEq

def Answer.id : Answer → FileId
  | .want id _ _ => id
  | .check id _ => id

inductive ChangeKind where
  | new | replaced | deleted | dir | link
  deriving DecidableEq

structure Change where
  kind : ChangeKind
  path : List Char
  size : Option ℕ
  was : Option ℕ
  deriving DecidableEq

/-- What a copy did, as the receiver counts it. -/
structure Summary where
  new : ℕ
  replaced : ℕ
  unchanged : ℕ
  resumed : ℕ
  bytes : ℕ
  dirs : ℕ
  links : ℕ
  deleted : ℕ
  skipped : ℕ
  changes : List Change
  changesUnshown : ℕ
  deriving DecidableEq

inductive Reply where
  | answer (answer : Answer)
  /-- The copy is over, and how it went. -/
  | over (outcome : Except Failure Summary)

end Koh.Sync
