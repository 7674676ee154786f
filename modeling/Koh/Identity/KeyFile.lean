import Koh.Lib.Disk
import Koh.Lib.Reach
import Mathlib.Algebra.GroupWithZero.Nat

/-!
# Loading and creating a key

`load` and `load_existing` from `identity.rs`, and what they call of
`identity/key_file.rs`, one system call at a time: any number of processes load
or create the key of one file, each going on, failing or dying at any call.

## Main definitions

- `Key`, `Answer`: a key, and what a load comes to
- `Phase`, `Proc`: where a process is in its load
- `call`: what its next call does
- `World`, `World.step`: the processes, the directory and the lock

## Design notes

`open_private` is `stat`, `opens`, `check`, `tighten` and `recheck`, for the key
and for the lock's file. A process of `create` runs `load`, any other
`load_existing`. `Outcome` is what a call's outside decides: how many bytes it
moves, the random numbers, and whether it fails. `published` is no part of the
code: the keys that were put at the path, the newest first.
-/

namespace Koh.Identity

open Koh.Lib

def keyLen : ℕ := 32

abbrev Key := { bytes : List UInt8 // bytes.length = keyLen }

/-! ### Names -/

def lockName : FileName := ".koh-dir-lock".toList

/-- `Path::file_stem`, of a file's name. -/
def fileStem (name : FileName) : FileName :=
  let before := (name.reverse.dropWhile (· ≠ '.')).tail.reverse
  if before = [] then name else before

/-- `Path::with_extension`, of a file's name. -/
def withExtension (name extension : FileName) : FileName := fileStem name ++ '.' :: extension

def hex16 (r : UInt64) : FileName :=
  (List.range 16).reverse.map fun place => Nat.digitChar (r.toNat / 16 ^ place % 16)

/-- The temporary name beside `target` that process `pid` draws. -/
def tmpName (target : FileName) (pid : ℕ) (r : UInt64) : FileName :=
  withExtension target ("tmp.".toList ++ Nat.toDigits 10 pid ++ '.' :: hex16 r)

/-! ### A process -/

/-- Which file `open_private` opens. -/
inductive Which where
  | key
  | lock
  deriving DecidableEq

def Which.name (key : FileName) : Which → FileName
  | .key => key
  | .lock => lockName

inductive Error where
  | io
  /-- The file is not a regular private one of this user's. -/
  | refused (which : Which)
  | notAKey
  | noKey
  /-- The process died. -/
  | killed
  deriving DecidableEq

/-- What a load comes to; `none` is `load_existing`'s. -/
abbrev Answer := Except Error (Option Key)

inductive Phase where
  /-- `open_existing`'s look. -/
  | existing
  | stat (which : Which)
  | opens (which : Which)
  | check (which : Which) (file : ℕ)
  | tighten (which : Which) (file : ℕ)
  | recheck (which : Which) (file : ℕ)
  /-- `read_to_end`, these bytes read. -/
  | read (file : ℕ) (bytes : List UInt8)
  | generate
  | lock (file : ℕ)
  /-- `create_secret`'s look, the directory locked. -/
  | look
  /-- `publish` draws a name and makes the file. -/
  | make
  | write (tmp : FileName) (file : ℕ) (left : List UInt8)
  | sync (tmp : FileName)
  | rename (tmp : FileName)
  | remove (tmp : FileName)
  /-- The lock is dropped, and the load returns. -/
  | leave (answer : Answer)
  | done (answer : Answer)

structure Proc where
  create : Bool
  /-- What `create_secret` generated. -/
  secret : Option Key
  /-- The lock's file, once locked. -/
  locked : Option ℕ
  phase : Phase

/-- What is up to a call's outside. -/
inductive Outcome where
  | go
  | fail
  /-- A filesystem that ignores modes. -/
  | ignored
  /-- So many bytes are read or written. -/
  | moves (n : ℕ)
  /-- `generate_secret_key` gives this. -/
  | draws (key : Key)
  /-- The process's number, and a random one. -/
  | picks (pid : ℕ) (r : UInt64)
  | kill

namespace Proc

variable (proc : Proc)

def next (phase : Phase) : Proc := { proc with phase := phase }

def fails (e : Error) : Proc := proc.next (.leave (.error e))

/-- `read_secret` found this: with no file the first time, `load` goes on to create the key. -/
def found (r : Option Key) : Proc :=
  match r with
  | some key => proc.next (.leave (.ok (some key)))
  | none =>
    if proc.create ∧ proc.secret = none then proc.next .generate else proc.fails .noKey

/-- `read_secret` read `bytes` to the end. -/
def whole (bytes : List UInt8) : Proc :=
  if h : bytes.length = keyLen then proc.found (some ⟨bytes, h⟩) else proc.fails .notAKey

def opened (which : Which) (file : ℕ) : Proc :=
  match which with
  | .key => proc.next (.read file [])
  | .lock => proc.next (.lock file)

def gave : Option Key :=
  match proc.phase with
  | .done (.ok r) => r
  | _ => none

end Proc

/-- `check_owned` and the link count: what a private file must be, its mode apart. -/
def File.isOwn (f : File) : Bool := f.kind = .regular && f.owned && f.links = 1

def Proc.failed (proc : Proc) : Proc :=
  match proc.phase with
  | .write tmp _ _ | .sync tmp | .rename tmp => proc.next (.remove tmp)
  | .tighten which _ => proc.fails (.refused which)
  | _ => proc.fails .io

/-- What the process's next call does, of those that leave the lock alone: `none` where it does
not come to this. -/
def call (key : FileName) (d : Disk) (proc : Proc) : Outcome → Option (Disk × Proc)
  | .fail => some (d, proc.failed)
  | .ignored =>
    match proc.phase with
    | .tighten which file => some (d, proc.next (.recheck which file))
    | _ => none
  | .go =>
    match proc.phase with
    | .existing =>
      if d.stat key = none then some (d, proc.next (.leave (.ok none)))
      else some (d, proc.next (.stat .key))
    | .stat which =>
      if (d.stat (which.name key)).any (·.kind ≠ .regular) then
        some (d, proc.fails (.refused which))
      else some (d, proc.next (.opens which))
    | .opens which =>
      match d.names (which.name key), which with
      | some file, _ =>
        if (d.files file).kind = .symlink then some (d, proc.fails (.refused which))
        else some (d, proc.next (.check which file))
      | none, .key => some (d, proc.found none)
      | none, .lock => some (d.create lockName, proc.next (.check .lock d.next))
    | .check which file =>
      if ¬ File.isOwn (d.files file) then some (d, proc.fails (.refused which))
      else if (d.files file).loose then some (d, proc.next (.tighten which file))
      else some (d, proc.opened which file)
    | .tighten which file => some (d.tighten file, proc.next (.recheck which file))
    | .recheck which file =>
      if (d.files file).loose then some (d, proc.fails (.refused which))
      else some (d, proc.opened which file)
    | .look =>
      if d.stat key = none then some (d, proc.next .make) else some (d, proc.next (.stat .key))
    | .sync tmp => some (d, proc.next (.rename tmp))
    | .remove tmp => some (d.remove tmp, proc.fails .io)
    | _ => none
  | .moves n =>
    match proc.phase with
    | .read file bytes =>
      -- One byte past a key is read, so an oversized file is detected.
      let chunk := (((d.files file).bytes.drop bytes.length).take (keyLen + 1 - bytes.length)).take n
      if n = 0 then none
      else if chunk = [] then some (d, proc.whole bytes)
      else some (d, proc.next (.read file (bytes ++ chunk)))
    | .write tmp file left =>
      if n = 0 ∨ left.length < n then none
      else if left.length = n then some (d.write file left, proc.next (.sync tmp))
      else some (d.write file (left.take n), proc.next (.write tmp file (left.drop n)))
    | _ => none
  | .draws secret =>
    match proc.phase with
    | .generate => some (d, { proc with secret := some secret, phase := .stat .lock })
    | _ => none
  | .picks pid r =>
    match proc.phase, proc.secret with
    | .make, some secret =>
      let tmp := tmpName key pid r
      -- A name that is taken: another is drawn.
      if d.names tmp ≠ none then some (d, proc)
      else some (d.create tmp, proc.next (.write tmp d.next secret))
    | _, _ => none
  | .kill => none

/-! ### All of them -/

structure World (ι : Type) where
  disk : Disk
  /-- Which process holds the lock of a file. -/
  locks : ℕ → Option ι
  procs : ι → Proc
  published : List Key

namespace World

variable {ι : Type} [DecidableEq ι]

def put (w : World ι) (me : ι) (proc : Proc) : World ι :=
  { w with procs := Function.update w.procs me proc }

/-- A process's locks go when it drops them, or dies. -/
def unlock (w : World ι) (me : ι) : World ι :=
  { w with locks := fun file => (w.locks file).filter (· ≠ me) }

def step (key : FileName) (w : World ι) (m : ι × Outcome) : Option (World ι) :=
  let proc := w.procs m.1
  let ends (answer : Answer) : World ι :=
    (w.unlock m.1).put m.1 { proc with locked := none, phase := .done answer }
  match proc.phase, m.2 with
  | .done _, _ => none
  | _, .kill => some (ends (.error .killed))
  | .leave answer, .go => some (ends answer)
  | .leave _, _ => none
  | .lock file, .go =>
    -- It waits while another has the lock.
    if w.locks file = none then
      some { w with
        locks := Function.update w.locks file (some m.1)
        procs := Function.update w.procs m.1 { proc with locked := some file, phase := .look } }
    else none
  | .rename tmp, .go =>
    match proc.secret with
    | some secret =>
      some { w with
        disk := w.disk.rename tmp key
        procs := Function.update w.procs m.1 (proc.next (.leave (.ok (some secret))))
        published := secret :: w.published }
    | none => none
  | _, outcome =>
    (call key w.disk proc outcome).map fun (d, proc) => { w.put m.1 proc with disk := d }

end World

end Koh.Identity
