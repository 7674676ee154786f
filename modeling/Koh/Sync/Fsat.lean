import Koh.Lib.Wp
import Koh.Sync.Glob
import Mathlib.Logic.Function.Basic

/-!
# The destination's tree, and what is done to it

The calls of `sync/fsat.rs`, on a tree of directories that are reached by their
descriptors. Every one takes a directory and the name of an entry of it, and
none follows a symlink.

## Main definitions

- `Disk`: the directories there are, by number; files and symlinks are in the
  directory that has them
- `World`: the disk, and the trace of what was done to it
- `stat`, `openDir`, `create`, `remove` and the other calls

## Design notes

A directory removed stays as it is under its number, but `gone`: nothing can be
made in it, as in a directory whose descriptor is still held. Calls fail as the
tree has them fail (an entry missing, or of another kind); a full disk and
refused permissions are left out. A file written has no time until it is given
one. The trace is not the system's: it says what each call was made on.
-/

namespace Koh.Sync

abbrev DirId := ℕ

inductive Entry where
  | file (content : Bytes) (mode : ℕ) (mtime : Option Time)
  | dir (id : DirId)
  | link (target : Bytes)
  /-- A fifo, socket or device. -/
  | other
  deriving DecidableEq

structure Directory where
  entries : List (Name × Entry)
  mode : ℕ
  mtime : Option Time
  /-- It was removed: a descriptor may still be held. -/
  gone : Bool

/-- The directories there are; those from `next` on are not made yet. -/
structure Disk where
  dirs : DirId → Directory
  next : DirId

namespace Disk

def entry (disk : Disk) (d : DirId) (n : Name) : Option Entry := (disk.dirs d).entries.lookup n

def alter (disk : Disk) (d : DirId) (f : Directory → Directory) : Disk :=
  { disk with dirs := Function.update disk.dirs d (f (disk.dirs d)) }

/-- `disk` without entry `n` of `d`. -/
def erase (disk : Disk) (d : DirId) (n : Name) : Disk :=
  disk.alter d fun dir => { dir with entries := dir.entries.filter (·.1 ≠ n) }

/-- `disk` with `e` as entry `n` of `d`. -/
def put (disk : Disk) (d : DirId) (n : Name) (e : Entry) : Disk :=
  disk.alter d fun dir => { dir with entries := (n, e) :: dir.entries.filter (·.1 ≠ n) }

/-- `disk` with a new directory as entry `n` of `d`. -/
def makeDir (disk : Disk) (d : DirId) (n : Name) : Disk :=
  let made := { disk with
    dirs := Function.update disk.dirs disk.next ⟨[], 0o700, none, false⟩, next := disk.next + 1 }
  made.put d n (.dir disk.next)

/-- `disk` without directory `id`, entry `n` of `d`. -/
def removeDir (disk : Disk) (d : DirId) (n : Name) (id : DirId) : Disk :=
  (disk.erase d n).alter id fun dir => { dir with gone := true }

end Disk

/-! ### The trace -/

inductive Act where
  | opened (id : DirId)
  | made (mode : ℕ)
  | wrote
  | renamed (onto : Name)
  | removed
  | moded (mode : ℕ)
  | timed
  deriving DecidableEq

/-- What a call is made on: an entry of a directory, or the directory that was
there first, which it knows no entry for. -/
inductive Place where
  | entry (dir : DirId) (name : Name)
  | target (dir : DirId)
  deriving DecidableEq

/-- A call: the disk it was made on, on what, and what it did. -/
structure Event where
  disk : Disk
  place : Place
  act : Act

/-- The disk, and what was done so far, the last of it first. -/
structure World where
  disk : Disk
  trace : List Event

/-! ### The calls -/

inductive Errno where
  | notFound | permissionDenied | notADirectory | isADirectory | storageFull | quotaExceeded
  | readOnlyFilesystem | invalidFilename | other
  deriving DecidableEq

def FailKind.of : Errno → FailKind
  | .notFound => .notFound
  | .permissionDenied => .permissionDenied
  | .notADirectory => .notADirectory
  | .isADirectory => .isADirectory
  | .storageFull => .noSpace
  | .quotaExceeded => .noSpace
  | .readOnlyFilesystem => .readOnly
  | .invalidFilename => .nameTooLong
  | .other => .other

inductive Kind where
  | dir | file | link | other
  deriving DecidableEq

def Entry.kind : Entry → Kind
  | .file .. => .file
  | .dir _ => .dir
  | .link _ => .link
  | .other => .other

/-- An entry as `lstat` sees it; the size is a file's. -/
structure Stat where
  kind : Kind
  size : ℕ
  mode : ℕ
  mtime : Option Time
  deriving DecidableEq

def Disk.statOf (disk : Disk) : Entry → Stat
  | .file content mode mtime => ⟨.file, content.length, mode, mtime⟩
  | .dir id => ⟨.dir, 0, (disk.dirs id).mode, (disk.dirs id).mtime⟩
  | .link target => ⟨.link, target.length, 0o777, none⟩
  | .other => ⟨.other, 0, 0, none⟩

/-- A directory's descriptor, and what it was opened as. -/
structure Fd where
  id : DirId
  place : Place
  deriving DecidableEq

/-- What a file is opened as: `O_RDONLY` opens a directory too. -/
inductive Opened where
  | file (dir : DirId) (name : Name)
  | dir (fd : Fd)
  deriving DecidableEq

def Opened.place : Opened → Place
  | .file d n => .entry d n
  | .dir fd => fd.place

/-- A call's program. -/
abbrev Fs := EStateM Errno World

/-- Note `act` on `place`, and change the disk by `f`. -/
def act (place : Place) (a : Act) (f : Disk → Disk) : Fs Unit :=
  modify fun w => ⟨f w.disk, ⟨w.disk, place, a⟩ :: w.trace⟩

/-- The entry `name` of `dir`, not followed; `none` if there is none. -/
def stat (dir : Fd) (name : Name) : Fs (Option Stat) := do
  let w ← get
  return (w.disk.entry dir.id name).map w.disk.statOf

/-- Directory `name` of `dir`, refused if it is a symlink. -/
def openDir (dir : Fd) (name : Name) : Fs Fd := do
  let w ← get
  match w.disk.entry dir.id name with
  | none => throw .notFound
  | some (.dir sub) =>
    act (.entry dir.id name) (.opened sub) id
    return ⟨sub, .entry dir.id name⟩
  | some _ => throw .notADirectory

/-- File `name` of `dir`, to read, refused if it is a symlink. -/
def openFile (dir : Fd) (name : Name) : Fs Opened := do
  let w ← get
  match w.disk.entry dir.id name with
  | none => throw .notFound
  | some (.dir sub) =>
    act (.entry dir.id name) (.opened sub) id
    return .dir ⟨sub, .entry dir.id name⟩
  | some (.link _) => throw .other
  | some (.file ..) | some .other => return .file dir.id name

def content (file : Opened) : Fs Bytes := do
  let w ← get
  match file with
  | .dir _ => throw .isADirectory
  | .file d n =>
    match w.disk.entry d n with
    | some (.file bytes _ _) => return bytes
    | _ => return []

def statOpened (file : Opened) : Fs Stat := do
  let w ← get
  match file with
  | .dir fd => return w.disk.statOf (.dir fd.id)
  | .file d n => return ((w.disk.entry d n).map w.disk.statOf).getD ⟨.other, 0, 0, none⟩

/-- File `name` of `dir`, to write, made (mode 0600) if it is not there, emptied
if `truncate`; refused if it is a symlink. -/
def create (dir : Fd) (name : Name) (truncate : Bool) : Fs Opened := do
  let w ← get
  match w.disk.entry dir.id name with
  | none =>
    onlyIf (w.disk.dirs dir.id).gone (throw .notFound)
    act (.entry dir.id name) (.made 0o600) (·.put dir.id name (.file [] 0o600 none))
    return .file dir.id name
  | some (.file _ mode mtime) =>
    onlyIf truncate (act (.entry dir.id name) .wrote (·.put dir.id name (.file [] mode mtime)))
    return .file dir.id name
  | some (.dir _) => throw .isADirectory
  | some _ => throw .other

def edit (file : Opened) (f : Bytes → Bytes) : Fs Unit := do
  let w ← get
  match file with
  | .dir _ => throw .isADirectory
  | .file d n =>
    match w.disk.entry d n with
    | some (.file bytes mode _) => act (.entry d n) .wrote (·.put d n (.file (f bytes) mode none))
    | _ => throw .other

/-- `bytes` cut to `len`, or filled up to it with zeros. -/
def resized (len : ℕ) (bytes : Bytes) : Bytes :=
  bytes.take len ++ List.replicate (len - bytes.length) 0

def setLen (file : Opened) (len : ℕ) : Fs Unit := edit file (resized len)

/-- `bytes` with `data` written over it from byte `start` on. -/
def overwritten (start : ℕ) (data bytes : Bytes) : Bytes :=
  resized start bytes ++ data ++ bytes.drop (start + data.length)

def writeAt (file : Opened) (data : Bytes) (start : ℕ) : Fs Unit := edit file (overwritten start data)

/-- Make directory `name` in `dir`, mode 0700 until its own is set. -/
def makeDir (dir : Fd) (name : Name) : Fs Unit := do
  let w ← get
  onlyIf (w.disk.entry dir.id name).isSome (throw .other)
  onlyIf (w.disk.dirs dir.id).gone (throw .notFound)
  act (.entry dir.id name) (.made 0o700) (·.makeDir dir.id name)

/-- Rename entry `old` of `dir`, not a directory, to `new`. -/
def rename (dir : Fd) (old new : Name) : Fs Unit := do
  let w ← get
  match w.disk.entry dir.id old, w.disk.entry dir.id new with
  | none, _ => throw .notFound
  | some (.dir _), _ => throw .other
  | some _, some (.dir _) => throw .isADirectory
  | some e, _ =>
    act (.entry dir.id old) (.renamed new) fun disk => (disk.erase dir.id old).put dir.id new e

def symlinkAt (target : Bytes) (dir : Fd) (name : Name) : Fs Unit := do
  let w ← get
  onlyIf (w.disk.entry dir.id name).isSome (throw .other)
  onlyIf (w.disk.dirs dir.id).gone (throw .notFound)
  act (.entry dir.id name) .wrote (·.put dir.id name (.link target))

def readLink (dir : Fd) (name : Name) : Fs Bytes := do
  let w ← get
  match w.disk.entry dir.id name with
  | none => throw .notFound
  | some (.link target) => return target
  | some _ => throw .other

/-- Set the mode of `file` (a file or a directory). -/
def chmod (file : Opened) (mode : ℕ) : Fs Unit :=
  act file.place (.moded (mode &&& 0o7777)) fun disk =>
    match file with
    | .dir fd => disk.alter fd.id fun dir => { dir with mode := mode &&& 0o7777 }
    | .file d n => match disk.entry d n with
      | some (.file bytes _ mtime) => disk.put d n (.file bytes (mode &&& 0o7777) mtime)
      | _ => disk

/-- Set the modification time of `file` (a file or a directory). -/
def setMtime (file : Opened) (time : Time) : Fs Unit :=
  act file.place .timed fun disk =>
    match file with
    | .dir fd => disk.alter fd.id fun dir => { dir with mtime := some time }
    | .file d n => match disk.entry d n with
      | some (.file bytes mode _) => disk.put d n (.file bytes mode (some time))
      | _ => disk

def names (dir : Fd) : Fs (List Name) := do
  let w ← get
  return (w.disk.dirs dir.id).entries.map (·.1)

def unlink (dir : Fd) (name : Name) : Fs Unit := do
  let w ← get
  match w.disk.entry dir.id name with
  | none => throw .notFound
  | some (.dir _) => throw .isADirectory
  | some _ => act (.entry dir.id name) .removed (·.erase dir.id name)

def removeDir (dir : Fd) (name : Name) : Fs Unit := do
  let w ← get
  match w.disk.entry dir.id name with
  | none => throw .notFound
  | some (.dir id) =>
    onlyIf ((w.disk.dirs id).entries.isEmpty = false) (throw .other)
    act (.entry dir.id name) .removed (·.removeDir dir.id name id)
  | some _ => throw .notADirectory

/-- Remove `entries` of directory `sub` by `remove`; how many entries went. -/
def removeAll (remove : Fd → Name → Fs ℕ) (sub : Fd) (entries : List Name) : Fs ℕ :=
  entries.foldlM (fun removed entry => satAdd removed <$> remove sub entry) 0

/-- Remove entry `name` of `dir`, a directory with all it holds as `inner`
removes each of its entries; a directory is refused if there is no `inner`. -/
def removeWith (dry : Bool) (inner : Option (Fd → Name → Fs ℕ)) (dir : Fd) (name : Name) :
    Fs ℕ := do
  match (← stat dir name).map Stat.kind, inner with
  | none, _ => return 0
  | some .dir, none => throw .other
  | some .dir, some remove =>
    let sub ← openDir dir name
    -- A read-only directory is made writable first, so what is in it can go.
    onlyIf (dry = false) (chmod (.dir sub) 0o700)
    let entries ← names sub
    let removed ← removeAll remove sub entries
    onlyIf (dry = false) (removeDir dir name)
    return satAdd removed 1
  | some _, _ =>
    onlyIf (dry = false) (unlink dir name)
    return 1

/-- Remove entry `name` of `dir`, a directory with all it holds, never following
a symlink; how many entries went. `more` directories deep at most. -/
def remove (dry : Bool) : ℕ → Fd → Name → Fs ℕ
  | 0 => removeWith dry none
  | more + 1 => removeWith dry (some (remove dry more))

/-- `x`, its failure ignored. -/
def ignore {α : Type} (x : Fs α) : Fs Unit := fun w =>
  match x w with
  | .ok _ w' => .ok () w'
  | .error _ w' => .ok () w'

/-! ### The calls that change nothing -/

section

variable {α : Type} {E : Errno → World → Prop} {w : World} (dir : Fd) (name : Name)

@[simp] theorem wp_stat {Q : Option Stat → World → Prop} :
    wp (stat dir name) Q E w ↔ Q ((w.disk.entry dir.id name).map w.disk.statOf) w := Iff.rfl

@[simp] theorem wp_names {Q : List Name → World → Prop} :
    wp (names dir) Q E w ↔ Q ((w.disk.dirs dir.id).entries.map (·.1)) w := Iff.rfl

@[simp] theorem wp_act {Q : Unit → World → Prop} (place : Place) (a : Act)
    (f : Disk → Disk) :
    wp (act place a f) Q E w ↔ Q () ⟨f w.disk, ⟨w.disk, place, a⟩ :: w.trace⟩ := Iff.rfl

/-- What is ignored may fail. -/
theorem wp_ignore {Q : Unit → World → Prop} {x : Fs α}
    (h : wp x (fun _ => Q ()) (fun _ => Q ()) w) : wp (ignore x) Q E w := by
  simp only [wp, ignore] at h ⊢
  cases hx : x w with
  | ok a t => rwa [hx] at h
  | error e t => rwa [hx] at h

end

end Koh.Sync
