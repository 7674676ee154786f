import Koh.Sync.Fsat

/-!
# The sending end

`Sender` and its methods, from `sync/send.rs`: walk the sources, send each
entry's header, and answer each file's answer with its bytes or with that it is
the same.

## Main definitions

- `Node`, `Forest`, `Source`: what the sender finds
- `walk`: the entries it sends, in order
- `Sender.step`: what its thread does next

## Design notes

The sources do not change during the copy, and the walk never looks at a reply:
so `walk` is a list of commands, each carried out by `Sender.step`. A directory
is given as `names.sort()` leaves its listing. What cannot be opened or read is
`Node.failing`; a file may have a byte that cannot be read (`bad`). `Phase` is
where the thread is; a step is enabled once its channel has room or a reply. No
item of an honest sender is over `maxItem` long: its name, its link's target and
its failure's path are bounded.
-/

namespace Koh.Sync

/-! ### Checked values -/

def Name.new (bytes : Bytes) : Option Name := if h : validName bytes then some ⟨bytes, h⟩ else none

def LinkTarget.new (bytes : Bytes) : Option LinkTarget :=
  if h : bytes ≠ [] ∧ 0 ∉ bytes ∧ bytes.length ≤ maxLink then some ⟨bytes, h⟩ else none

def Mode.new (bits : ℕ) : Option Mode := if h : bits ≤ 0o7777 then some ⟨bits, h⟩ else none

def Mode.dirDefault : Mode := ⟨0o755, by decide⟩

def Mode.fileDefault : Mode := ⟨0o644, by decide⟩

/-! ### What the sender finds -/

/-- A file of a source: what `fstat` says of it, its bytes, and the first that
cannot be read, if there is one. -/
structure SourceFile where
  content : Bytes
  size : ℕ
  mode : ℕ
  mtime : Option Time
  bad : Option ℕ
  deriving DecidableEq

mutual

inductive Node where
  | dir (mode : ℕ) (mtime : Option Time) (entries : Forest)
  | file (file : SourceFile)
  | link (target : Bytes)
  /-- A fifo, socket or device. -/
  | other
  /-- Its `lstat`, opening or listing fails. -/
  | failing (error : Errno)

/-- The entries of a directory, in order of name. -/
inductive Forest where
  | nil
  | cons (name : Bytes) (node : Node) (rest : Forest)

end

/-- A source of a copy, and what is found there. -/
inductive Source where
  /-- A path, as the system finds it, symlinks followed. -/
  | path (path : Bytes) (found : Node)
  /-- A path beneath a scoped key's directory. -/
  | beneath (path : Path) (found : Node)

/-- `hash_of`, unless it meets a byte that cannot be read. -/
def SourceFile.hash (digest : Bytes → Bytes) (file : SourceFile) (len : Option ℕ) : Option Bytes :=
  let head := file.content.take (len.getD file.content.length)
  if file.bad.any (· < head.length) then none else some (digest head)

inductive ReadAt where
  | bytes (chunk : Chunk)
  | eof
  | failed

/-- `read_at`, into a buffer of `CHUNK` bytes; it brings `n` bytes if there are as
many, and one at least. -/
def SourceFile.readAt (file : SourceFile) (offset n : ℕ) : ReadAt :=
  if file.content.length ≤ offset then .eof
  else if file.bad.any (· ≤ offset) then .failed
  else
    let readable := (file.content.take (file.bad.getD file.content.length)).drop offset
    let bytes := readable.take (min (max 1 n) CHUNK)
    if h : 1 ≤ bytes.length ∧ bytes.length ≤ CHUNK then .bytes ⟨bytes, h⟩ else .failed

/-! ### The walk -/

/-- What the sender does at an entry. -/
inductive Cmd where
  /-- Send an item. -/
  | item (item : Item)
  /-- Send a symlink, and take the answers there are. -/
  | symlink (name : Name) (target : LinkTarget)
  /-- Send a file's header, and take answers. -/
  | file (file : SourceFile) (name : Name) (path : Bytes)
  /-- Stop. -/
  | fail (failure : Failure)

namespace Sender

/-- `rel.join(entry)`, as bytes. -/
def joined (rel : Path) (entry : Bytes) : Bytes :=
  if rel.isEmpty then entry else rel.bytes ++ 0x2f :: entry

/-- A directory's own item: `Dir`, or `Contents` if it has no name to land as. -/
def headItem (name : Option Name) (mode : ℕ) (mtime : Option Time) : Item :=
  let mode := (Mode.new mode).getD .dirDefault
  match name with
  | some name => .dir name mode mtime
  | none => .contents mode mtime

/-- A directory's item, what is `inside` it, and its end. -/
def framed (name : Option Name) (rel : Path) (depth : ℕ) (mode : ℕ) (mtime : Option Time)
    (inside : List Cmd) : List Cmd :=
  if maxDepth < depth then [.fail (.new .tooDeep rel.bytes)]
  else .item (headItem name mode mtime) :: (inside ++ [.item .dirEnd])

mutual

/-- `Sender::entry`: entry `name`, at `rel` from the top, `depth` deep. -/
def entry (opts : Opts) (tree : Path) (name : Name) (rel : Path) (depth : ℕ) : Node → List Cmd
  | .failing error => [.fail (.new (.of error) rel.bytes)]
  | .dir mode mtime entries =>
    framed (some name) rel depth mode mtime
      (inside opts (if depth = 1 then rel else tree) rel depth entries)
  | .file file => [.file file name rel.bytes]
  | .link target => match LinkTarget.new target with
    | some target => [.symlink name target]
    | none => [.fail (.new .nameTooLong rel.bytes)]
  | .other => if depth = 1 then [.fail (.new .notCopyable rel.bytes)] else [.item (.skipped name)]

/-- The entries of a directory, those excluded left out. -/
def inside (opts : Opts) (tree : Path) (rel : Path) (depth : ℕ) : Forest → List Cmd
  | .nil => []
  | .cons bytes node rest =>
    match Name.new bytes with
    | none => [.fail (.new .nameTooLong (joined rel bytes))]
    | some name =>
      let path := rel ++ [name]
      let excluded := opts.excludes.excludes name.bytes (Path.within tree path).bytes
      (if excluded then [] else entry opts tree name path (depth + 1) node)
        ++ inside opts tree rel depth rest

end

/-- `Sender::dir`: a directory at the top, and what is in it. -/
def dir (opts : Opts) (name : Option Name) (rel : Path) (mode : ℕ) (mtime : Option Time)
    (entries : Forest) : List Cmd :=
  framed name rel 1 mode mtime (inside opts rel rel 1 entries)

def fileName (path : Bytes) : Option Bytes :=
  match ((path.splitOn 0x2f).filter fun c => c ≠ [] ∧ c ≠ [0x2e]).getLast? with
  | some name => if name = [0x2e, 0x2e] then none else some name
  | none => none

/-- Whether a path brings what is in a directory: it is `.`, or ends in `/.`. -/
def bringsContents (path : Bytes) : Bool := [0x2f, 0x2e].isSuffixOf path || path == [0x2e]

def source (opts : Opts) : Source → List Cmd
  | .path path found =>
    let named := (fileName path).bind Name.new
    if bringsContents path = false ∧ named = none then [.fail (.new .noName path)]
    else
      let name := if bringsContents path then none else named
      match found, name with
      | .failing error, _ => [.fail (.new (.of error) path)]
      | .dir mode mtime entries, _ => dir opts name name.toList mode mtime entries
      | _, none => [.fail (.new .notADirectory path)]
      | .file file, some name => [.file file name path]
      | _, some _ => [.fail (.new .notCopyable path)]
  | .beneath path found =>
    match path.getLast?, found with
    | _, .failing error => [.fail (.new (.of error) path.bytes)]
    | none, .dir mode mtime entries => dir opts none path mode mtime entries
    | none, _ => [.fail (.new .notADirectory path.bytes)]
    | some last, node => entry opts [] last path 1 node

def walk (opts : Opts) (sources : List Source) : List Cmd := sources.flatMap (source opts)

end Sender

/-! ### What is written -/

/-- What is written and not yet handed to the stream's task, and the channel to it. -/
structure Out where
  buf : List Item
  pipe : List (List Item)

inductive Handed where
  | went (out : Out)
  /-- The channel is full. -/
  | full
  /-- The stream is gone. -/
  | gone

namespace Out

def flush (there : Bool) (out : Out) : Handed :=
  if out.buf.isEmpty then .went out
  else if there = false then .gone
  else if out.pipe.length < pipeDepth then .went ⟨[], out.pipe ++ [out.buf]⟩
  else .full

def push (out : Out) (i : Item) : Out := { out with buf := out.buf ++ [i] }

/-- `Out::item`; `size` is how long an item is written, with the data it brings. -/
def item (size : Item → ℕ) (there : Bool) (i : Item) (out : Out) : Handed :=
  if CHUNK < (out.buf.map size).sum + size i then
    match flush there out with
    | .went out => .went (out.push i)
    | h => h
  else .went (out.push i)

end Out

/-! ### The thread -/

/-- A file whose header went: its file, and its path to say. -/
structure Awaiting where
  id : FileId
  file : SourceFile
  path : Bytes

inductive Phase where
  /-- Between entries. -/
  | walking
  /-- In `answers`, to wait for a reply: what was written goes first. -/
  | flushing
  | waiting
  /-- In `answers`, to take a reply if there is one. -/
  | polling
  | acting (answer : Answer)
  /-- In `answer`, to send a file's bytes from `offset` on. -/
  | reading (file : SourceFile) (path : Bytes) (offset : ℕ)
  /-- In `send`, to write the last item. -/
  | ending (sent : Except Failure Unit)
  | closing (sent : Except Failure Unit)
  /-- In `send`, to wait for the receiver's word. -/
  | listening (sent : Except Failure Unit)
  | over (outcome : Except Failure Summary)

structure Sender where
  dryRun : Bool
  todo : List Cmd
  /-- The files whose headers went, awaiting their answers. -/
  pending : List Awaiting
  next : FileId
  phase : Phase

namespace Sender

/-- What a file's header says. -/
def header (id : FileId) (name : Name) (file : SourceFile) : FileHeader :=
  ⟨id, name, (Mode.new file.mode).getD .fileDefault, file.mtime, file.size⟩

/-- The byte a file is to be sent from, or `none` if it is the same, as `answer`
has it; nothing if the file cannot be read to see. -/
def startOf (digest : Bytes → Bytes) (file : SourceFile) : Answer → Option (Option ℕ)
  | .want _ kept (some head) =>
    if 0 < kept then
      (file.hash digest (some kept)).map fun hash => some (if hash = head then kept else 0)
    else some (some 0)
  | .want _ _ none => some (some 0)
  | .check _ theirs => (file.hash digest none).map fun hash => if hash = theirs then none else some 0

/-- The last item: `Done`, or `Failed` on a failure. -/
def lastItem : Except Failure Unit → Item
  | .ok () => .allDone
  | .error failure => .failed failure

variable (size : Item → ℕ) (digest : Bytes → Bytes) (there : Bool)

/-- Write `i` and go on as `next`, once there is room; with the stream gone, the
copy is cut short. -/
def put (s : Sender) (out : Out) (i : Item) (next : Sender) : Option (Sender × Out) :=
  match out.item size there i with
  | .went out => some (next, out)
  | .full => none
  | .gone => some ({ s with phase := .ending (.error cut) }, out)

/-- Take up a reply. -/
def hear (s : Sender) : Reply → Sender
  | .answer answer => { s with phase := .acting answer }
  | .over outcome => { s with phase := .over outcome }

/-- `Sender::answer`, up to the bytes. -/
def act (s : Sender) (out : Out) (answer : Answer) : Option (Sender × Out) :=
  match s.pending.find? (·.id = answer.id) with
  | none => some ({ s with phase := .ending (.error malformed) }, out)
  | some ⟨id, file, path⟩ =>
    let s := { s with pending := s.pending.filter (·.id ≠ answer.id) }
    match startOf digest file answer with
    | none => some ({ s with phase := .ending (.error (.new .other path)) }, out)
    | some none => put size there s out (.same id) { s with phase := .polling }
    | some (some start) =>
      if s.dryRun then put size there s out (.differs id start) { s with phase := .polling }
      else put size there s out (.data id start) { s with phase := .reading file path start }

def walkOn (s : Sender) (out : Out) : Option (Sender × Out) :=
  match s.todo with
  | [] =>
    some ({ s with phase := if s.pending.isEmpty then .ending (.ok ()) else .flushing }, out)
  | .item i :: todo => put size there s out i { s with todo := todo }
  | .symlink name target :: todo =>
    put size there s out (.symlink name target) { s with todo := todo, phase := .polling }
  | .file file name path :: todo =>
    put size there s out (.file (header s.next name file)) { s with
      todo := todo
      pending := s.pending ++ [⟨s.next, file, path⟩]
      next := s.next + 1
      phase := if WINDOW ≤ s.pending.length + 1 then .flushing else .polling }
  | .fail failure :: _ => some ({ s with phase := .ending (.error failure) }, out)

/-- What the thread does next, if it need not wait: `sees` says whether a reply
that is there is seen by one that does not wait for it, and `n` how many bytes
are read. -/
def step (sees : Bool) (n : ℕ) (s : Sender) (out : Out) (replies : List Reply) :
    Option ((Sender × Out) × List Reply) :=
  match s.phase with
  | .walking => (walkOn size there s out).map (·, replies)
  | .flushing => match out.flush there with
    | .went out => some (({ s with phase := .waiting }, out), replies)
    | .full => none
    | .gone => some (({ s with phase := .ending (.error cut) }, out), replies)
  | .waiting => match replies with
    | reply :: replies => some ((s.hear reply, out), replies)
    | [] => none
  | .polling => match sees, replies with
    | true, reply :: replies => some ((s.hear reply, out), replies)
    | _, _ => some (({ s with phase := .walking }, out), replies)
  | .acting answer => (act size digest there s out answer).map (·, replies)
  | .reading file path offset => match file.readAt offset n with
    | .failed => some (({ s with phase := .ending (.error (.new .other path)) }, out), replies)
    | .eof => (put size there s out .sent { s with phase := .polling }).map (·, replies)
    | .bytes chunk =>
      (put size there s out (.chunk chunk)
        { s with phase := .reading file path (offset + chunk.bytes.length) }).map (·, replies)
  | .ending sent => match out.item size there (lastItem sent) with
    | .went out => some (({ s with phase := .closing sent }, out), replies)
    | .full => none
    | .gone => some (({ s with phase := .listening sent }, out), replies)
  | .closing sent => match out.flush there with
    | .went out => some (({ s with phase := .listening sent }, out), replies)
    | .full => none
    | .gone => some (({ s with phase := .listening sent }, out), replies)
  | .listening sent => match replies with
    | .answer _ :: replies => some (({ s with phase := .listening sent }, out), replies)
    | .over outcome :: replies => some (({ s with phase := .over outcome }, out), replies)
    | [] => none
  | .over _ => none

end Sender

end Koh.Sync
