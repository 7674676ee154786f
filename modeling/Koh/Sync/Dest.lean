import Koh.Lib.Namei
import Koh.Server.Place
import Koh.Sync.Receive

/-!
# Where a copy lands

`Target::resolve`, from `sync/receive.rs`: a destination is a path, as the system finds it, or
beneath a scoped key's directory; the directories missing on the way are made, or, in a dry run,
counted.

## Main definitions

- `Site`: from where paths are looked up
- `mkdir`, `createDirAll`, `openDirPath`: the calls that take a path
- `walkMaking`: names walked from a directory, each made where it is missing
- `Dest`, `resolve`: a destination, and the target that it comes to

## Design notes

A path's components are the standard library's (`Path::components`); one rebuilt of them has one
`/` between two. `..` leads to a directory that has the one it is in as an entry. The umask is left
out of `mkdir`'s mode, and so is what refuses a directory to be searched, as in `Fsat`.
-/

namespace Koh.Sync

open Koh.Namei (Tree lookup)
open Koh.Server (Component components)

/-! ### Paths -/

/-- From where paths are looked up: the root, and the working directory. -/
structure Site where
  top : DirId
  cwd : DirId

def Entry.found : Entry → Namei.Entry DirId Entry
  | .dir id => .dir id
  | .link target => .link target
  | e => .file e

/-- A directory that has directory `d`, `top` if none does. -/
def Disk.above (disk : Disk) (top d : DirId) : DirId :=
  ((List.range disk.next).find? fun p => (disk.dirs p).entries.any (·.2 = .dir d)).getD top

/-- The disk, as paths are looked up in it. -/
def Site.tree (site : Site) (disk : Disk) : Tree DirId Entry Errno where
  top := site.top
  parent := disk.above site.top
  entry d bytes := match Name.new bytes with
    | none => .error .invalidFilename
    | some name => .ok ((disk.entry d name).map Entry.found)
  missing := .notFound
  notDir := .notADirectory
  loop := .other

/-- What `path` leads to, its last symlink followed or not. -/
def Site.find (site : Site) (disk : Disk) (follows : Bool) (path : Bytes) :
    Except Errno (Namei.Entry DirId Entry) :=
  lookup (site.tree disk) follows site.cwd path

def foundDir : Except Errno (Namei.Entry DirId Entry) → Bool
  | .ok (.dir _) => true
  | _ => false

def Site.exists (site : Site) (disk : Disk) (path : Bytes) : Bool := (site.find disk true path).isOk

def Site.isDir (site : Site) (disk : Disk) (path : Bytes) : Bool :=
  foundDir (site.find disk true path)

def Component.bytes : Component → Bytes
  | .rootDir => []
  | .curDir => [0x2e]
  | .parentDir => [0x2e, 0x2e]
  | .normal name => name

def pathOf (parts : List Component) : Bytes :=
  if parts = [.rootDir] then [0x2f] else List.intercalate [0x2f] (parts.map Component.bytes)

def fileName (parts : List Component) : Option Bytes :=
  match parts.getLast? with
  | some (.normal name) => some name
  | _ => none

def parent (parts : List Component) : Option (List Component) :=
  match parts.getLast? with
  | none | some .rootDir => none
  | some _ => some parts.dropLast

/-! ### The calls that take a path -/

/-- The directory at `path`, as the system finds it, symlinks followed. -/
def openDirPath (site : Site) (path : Bytes) : Fs Fd := do
  let w ← get
  match site.find w.disk true path with
  | .error e => throw e
  | .ok (.dir id) =>
    act (.target id) (.opened id) (fun disk => disk)
    return ⟨id, .target id⟩
  | .ok _ => throw .notADirectory

/-- `mkdir`: refused where there is something, a symlink that leads nowhere too. -/
def mkdir (site : Site) (parts : List Component) : Fs Unit := do
  let w ← get
  match site.find w.disk false (pathOf parts) with
  | .ok _ => throw .other
  | .error e =>
    onlyIf (e ≠ .notFound) (throw e)
    match (parent parts).map fun p => site.find w.disk true (pathOf p),
        (fileName parts).bind Name.new with
    | some (.ok (.dir id)), some name => act (.entry id name) (.made 0o777) (·.makeDir id name)
    | _, _ => throw .notFound

/-- `mkdir`, an error being none where there is a directory. -/
def mkdirUnless (site : Site) (parts : List Component) : Fs Unit := fun w =>
  match mkdir site parts w with
  | .ok _ w => .ok () w
  | .error e w => if site.isDir w.disk (pathOf parts) then .ok () w else .error e w

/-- `mkdir`, once its parent is made by `inner` where it is not found for want of it. -/
def createDirWith (site : Site) (inner : List Component → Fs Unit) (parts : List Component) :
    Fs Unit := fun w =>
  match mkdir site parts w with
  | .ok _ w => .ok () w
  | .error e w =>
    if e = .notFound then
      match parent parts with
      | none => .error .other w
      | some up => (do
        inner up
        mkdirUnless site parts) w
    else if site.isDir w.disk (pathOf parts) then .ok () w
    else .error e w

/-- `create_dir_all`: the path's parents are made where it is not found for want of them. -/
def createDirAll (site : Site) : ℕ → List Component → Fs Unit
  | 0, _ => throw .other
  | more + 1, parts =>
    if parts.isEmpty then return () else createDirWith site (createDirAll site more) parts

/-- How many of a path and its parents are missing, which making it makes. -/
def madeDirs (site : Site) (disk : Disk) : ℕ → List Component → ℕ
  | 0, _ => 0
  | more + 1, parts =>
    if parts.isEmpty || site.exists disk (pathOf parts) then 0
    else 1 + ((parent parts).map (madeDirs site disk more)).getD 0

/-- The directory at a path, made with its parents where missing; `none` if `dry`, which makes
nothing. -/
def madePath (site : Site) (parts : List Component) (dry : Bool) : Fs (Option Fd) :=
  if dry then return none
  else do
    createDirAll site (parts.length + 1) parts
    some <$> openDirPath site (pathOf parts)

/-- Names walked from `dir`, each directory missing made (mode 0755), and counted; in a dry run only
counted, `none` from the first missing. -/
def walkMaking (dry : Bool) : Fd → List Name → ℕ → Fs (Option Fd × ℕ)
  | dir, [], made => return (some dir, made)
  | dir, name :: names, made => fun w =>
    match openDir dir name w with
    | .ok next w => walkMaking dry next names made w
    | .error .notFound w =>
      if dry then .ok (none, made + (names.length + 1)) w
      else (do
        makeDir dir name
        let next ← openDir dir name
        chmod (.dir next) 0o755
        walkMaking dry next names (made + 1)) w
    | .error e w => .error e w

/-! ### A destination -/

/-- Where a copy's destination is, before it is resolved. -/
inductive Dest where
  /-- A path, as the system finds it; `/` at its end names a directory. -/
  | path (path : Bytes)
  /-- Beneath a scoped key's directory, reached from it without following a symlink. -/
  | beneath (root : Bytes) (path : Path) (dir : Bool)

/-- What resolving changes, and may fail with. -/
abbrev Resolving := EStateM Failure World

/-- A call at `path`, its failure said with it. -/
def ioAt {α : Type} (path : Bytes) (x : Fs α) : Resolving α := fun w =>
  match x w with
  | .ok a w => .ok a w
  | .error e w => .error (.new (.of e) path) w

/-- The directory that a descriptor is of. -/
def landing (fd : Option Fd) : Option DirId := fd.map Fd.id

/-- A path that there is nothing at, or a file to be replaced: what it names is in its parent. -/
def resolveNamed (site : Site) (path : Bytes) (dry : Bool) : Resolving (Target × ℕ) := do
  let parts := components path
  match (fileName parts).bind Name.new with
  | none => throw (.new .noName path)
  | some name =>
    let up := ((parent parts).filter (·.isEmpty = false)).getD [.curDir]
    let made := madeDirs site (← get).disk (up.length + 1) up
    let fd ← ioAt path (madePath site up (dry && decide (0 < made)))
    return (.named (landing fd) name, made)

/-- A path that names a directory, where there is none: it is made. -/
def resolveInto (site : Site) (path : Bytes) (dry : Bool) : Resolving (Target × ℕ) := do
  let parts := components path
  let made := madeDirs site (← get).disk (parts.length + 1) parts
  let fd ← ioAt path (madePath site parts dry)
  return (.into (landing fd), made)

/-- `Target::resolve`, of a path: where `count` items land. -/
def resolvePath (site : Site) (path : Bytes) (count : ℕ) (dry : Bool) : Resolving (Target × ℕ) := do
  let namesDir := path.getLast? = some 0x2f ∨ 1 < count
  match site.find (← get).disk true path with
  | .ok (.dir _) => do
    let fd ← ioAt path (openDirPath site path)
    return (.into (some fd.id), 0)
  | .ok _ =>
    if 1 < count then throw (.new .severalIntoOne path)
    else if namesDir then throw (.new .notADirectory path)
    else resolveNamed site path dry
  | .error e =>
    if e ≠ .notFound then throw (.new (.of e) path)
    else if namesDir then resolveInto site path dry
    else resolveNamed site path dry

/-- What there is at the last name of a path beneath a directory. -/
def statLast (shown : Bytes) (last : Name) : Option Fd → Resolving (Option Stat)
  | some fd => ioAt shown (stat fd last)
  | none => return none

/-- The target that the last name of a path beneath a directory is, or names. -/
def resolveLast (dry : Bool) (shown : Bytes) (last : Name) (count : ℕ) (namesDir : Bool)
    (up : Option Fd) (made : ℕ) : Resolving (Target × ℕ) := do
  let there ← statLast shown last up
  match there.map Stat.kind, up with
  | some .dir, some fd => do
    let sub ← ioAt shown (openDir fd last)
    return (.into (some sub.id), made)
  | some .dir, none => return (.into none, made)
  | some .link, _ => throw (.new .isASymlink shown)
  | some _, _ =>
    if 1 < count then throw (.new .severalIntoOne shown)
    else if namesDir then throw (.new .notADirectory shown)
    else return (.named (landing up) last, made)
  | none, some fd =>
    if namesDir then do
      let r ← ioAt shown (walkMaking dry fd [last] made)
      return (.into (landing r.1), r.2)
    else return (.named (some fd.id) last, made)
  | none, none =>
    if namesDir then return (.into none, made + 1) else return (.named none last, made)

def resolveBeneath (site : Site) (root : Bytes) (path : Path) (dir : Bool) (count : ℕ)
    (dry : Bool) : Resolving (Target × ℕ) := do
  let fd ← ioAt path.bytes (openDirPath site root)
  match path.getLast? with
  | none => return (.into (some fd.id), 0)
  | some last =>
    let r ← ioAt path.bytes (walkMaking dry fd path.dropLast 0)
    resolveLast dry path.bytes last count (dir || decide (1 < count)) r.1 r.2

/-- `Target::resolve`: where `count` items for `dest` land, and how many directories are made for
them (only counted, if `dry`). -/
def resolve (site : Site) (dest : Dest) (count : ℕ) (dry : Bool) : Resolving (Target × ℕ) :=
  match dest with
  | .path path => resolvePath site path count dry
  | .beneath root path dir => resolveBeneath site root path dir count dry

/-- A copy lands: its target is resolved, then the items received. -/
def land (digest : Digest) (site : Site) (dest : Dest) (count : ℕ) (opts : Opts)
    (items : List Item) : World → Except Failure Summary × World := fun w =>
  match resolve site dest count opts.dryRun w with
  | .error e w => (.error e, w)
  | .ok (target, made) w =>
    match Receiver.feed digest items (Receiver.start w target opts) with
    | .ok (.over summary) r => (.ok { summary with dirs := satAdd summary.dirs made }, r.world)
    | .ok _ r => (.error cut, r.world)
    | .error e r => (.error e, r.world)

end Koh.Sync
