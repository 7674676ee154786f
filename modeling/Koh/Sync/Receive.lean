import Koh.Sync.Fsat
import Mathlib.Data.String.Basic

/-!
# The receiving end

`Receiver` and its methods, from `sync/receive.rs`: land each entry where it
goes, answer each file's header, and count what was done.

## Main definitions

- `Receiver`: the receiver's state, with the destination's disk
- `Receiver.item`: what it does with one item
- `Receiver.feed`: with one item after another

## Design notes

`Receiver::data` reads a file's chunks in a loop of its own. Here the receiver
keeps that it is in it (`receiving`), and `item` reads each chunk as it comes.
A directory's `Rc` is its `tag`, and its count whether anything else holds it
(`held`): a file under way, or a directory in it. What a header is answered is
what `item` gives back (`Heard`), for its caller to hand to the channel.
-/

namespace Koh.Sync

/-- Most names `--delete` keeps of what the sender sent. -/
def maxSeen : ℕ := 4000000

/-- Where what is copied lands: a directory, `none` in a dry run where one would
be made. -/
inductive Target where
  /-- Each item inside this directory, under its own name. -/
  | into (dir : Option DirId)
  /-- The one item, as `name` in this directory. -/
  | named (dir : Option DirId) (name : Name)

def Target.dir : Target → Option DirId
  | .into dir => dir
  | .named dir _ => dir

def Target.name : Target → Option Name
  | .into _ => none
  | .named _ name => some name

abbrev Digest := Bytes → Bytes

/-! ### The name of a part -/

def hexDigit (n : UInt8) : UInt8 := if n < 10 then 0x30 + n else 0x61 + (n - 10)

def hex (b : UInt8) : Bytes := [hexDigit (b >>> 4), hexDigit (b &&& 0x0f)]

/-- The bytes of `part_name`: `.koh-`, the first eight bytes of the name's hash
in hex, and `.part`. -/
def partBytes (digest : Digest) (name : Bytes) : Bytes :=
  [0x2e, 0x6b, 0x6f, 0x68, 0x2d] ++ ((digest name).take 8).flatMap hex
    ++ [0x2e, 0x70, 0x61, 0x72, 0x74]

theorem hexDigit_plain (n : UInt8) (hn : n < 16) : hexDigit n ≠ 0x2f ∧ hexDigit n ≠ 0 := by
  simp only [hexDigit]
  split <;> constructor <;> grind

theorem hex_plain (b : UInt8) : 0x2f ∉ hex b ∧ 0 ∉ hex b := by
  have hlow : b &&& 0x0f < 16 := by
    have : b &&& 0x0f ≤ 0x0f := UInt8.and_le_right
    grind
  have hhigh : b >>> 4 < 16 := by
    rw [UInt8.lt_iff_toNat_lt, UInt8.toNat_shiftRight]
    have := b.toNat_lt
    simp [Nat.shiftRight_eq_div_pow]
    omega
  have h := hexDigit_plain _ hlow
  have h' := hexDigit_plain _ hhigh
  simp [hex, h.1.symm, h.2.symm, h'.1.symm, h'.2.symm]

/-- A part's name is a name. -/
theorem partBytes_valid (digest : Digest) (name : Bytes) : validName (partBytes digest name) := by
  have hlen : (((digest name).take 8).flatMap hex).length ≤ 16 := by
    have hsum : ∀ l : Bytes, (l.flatMap hex).length = 2 * l.length := by
      intro l
      induction l with
      | nil => rfl
      | cons b l ih => simp only [List.flatMap_cons, List.length_append, ih, List.length_cons, hex,
          List.length_nil]; omega
    rw [hsum]
    have := List.length_take_le 8 (digest name)
    omega
  have hplain : 0x2f ∉ ((digest name).take 8).flatMap hex ∧ 0 ∉ ((digest name).take 8).flatMap hex :=
    ⟨fun h => by
      obtain ⟨b, -, hb⟩ := List.mem_flatMap.mp h
      exact (hex_plain b).1 hb, fun h => by
      obtain ⟨b, -, hb⟩ := List.mem_flatMap.mp h
      exact (hex_plain b).2 hb⟩
  have hmax : (partBytes digest name).length ≤ maxName := by
    simp only [partBytes, List.length_append, List.length_cons, List.length_nil, maxName]
    omega
  simp only [validName, Bool.and_eq_true, decide_eq_true_eq, Bool.not_eq_true', hmax]
  simp [partBytes, hplain]

def partName (digest : Digest) (name : Name) : Name :=
  ⟨partBytes digest name.bytes, partBytes_valid digest name.bytes⟩

/-! ### The receiver -/

structure Dir where
  /-- Which it is: two of the same tag are one. -/
  tag : ℕ
  /-- `none` in a dry run, where one would be made: nothing is in it. -/
  fd : Option Fd
  /-- Its path from the target, to say. -/
  rel : Path
  /-- What it gets once nothing under it is under way. -/
  mode : Option Mode
  mtime : Option Time
  /-- The directory it is in, held until then. -/
  parent : Option ℕ

/-- A directory the sender sends entries into. -/
structure Open where
  dir : Dir
  /-- With `--delete`, the names sent into it (and the parts of files under way). -/
  seen : Option (List Name)

/-- A file whose header came, awaiting its bytes or `Item.same`. -/
structure Pending where
  dir : Dir
  header : FileHeader
  rel : Path
  /-- Something was there, which this replaces. -/
  existed : Bool
  /-- Its size, if it was a file. -/
  was : Option ℕ

/-- The file whose chunks come. -/
structure Receiving where
  file : Pending
  fd : Fd
  part : Opened
  start : ℕ
  offset : ℕ

structure Receiver where
  world : World
  opts : Opts
  /-- The target's directory, and the name the one item lands as there. -/
  top : Dir
  named : Option Name
  /-- How many items came at the top. -/
  placed : ℕ
  /-- The innermost first. -/
  opened : List Open
  /-- The path of the directory opened at the top. -/
  tree : Path
  pending : List Pending
  receiving : Option Receiving
  /-- Directories ended while files under them are under way. -/
  closing : List Dir
  seen : ℕ
  summary : Summary
  /-- The next directory's tag. -/
  tags : ℕ

abbrev Rx := EStateM Failure Receiver

/-- What came of an item: an answer, or the end of the copy. -/
inductive Heard where
  | nothing
  | answer (answer : Answer)
  | over (summary : Summary)

/-- The path that excludes match of an entry of a directory. -/
def Receiver.path (r : Receiver) (dir : Dir) (entry : Name) : Path :=
  Path.within r.tree (dir.rel ++ [entry])

def Summary.zero : Summary := ⟨0, 0, 0, 0, 0, 0, 0, 0, 0, [], 0⟩

/-- `cs` up to the last character that ends within `n` bytes. -/
def withinBytes : ℕ → List Char → List Char
  | _, [] => []
  | n, c :: cs => if c.utf8Size ≤ n then c :: withinBytes (n - c.utf8Size) cs else []

/-- A text is cut within its bytes. -/
theorem length_withinBytes (n : ℕ) (cs : List Char) :
    (Stream.encode (withinBytes n cs)).length ≤ n := by
  induction cs generalizing n with
  | nil => exact Nat.zero_le n
  | cons c cs ih =>
    unfold withinBytes
    split
    · have hrest := ih (n - c.utf8Size)
      rw [Stream.encode_cons, List.length_append, String.length_utf8EncodeChar]
      omega
    · exact Nat.zero_le n

/-- Note a dry run's change of `path`. -/
def Summary.change (s : Summary) (kind : ChangeKind) (path : Path) (size was : Option ℕ) :
    Summary :=
  let bytes := (s.changes.map fun c => (Stream.encode c.path).length).sum
  if changesShown ≤ s.changes.length ∨ changesShownBytes ≤ bytes then
    { s with changesUnshown := satAdd s.changesUnshown 1 }
  else
    let shown := withinBytes maxPath (Stream.fromUtf8Lossy path.bytes)
    { s with changes := s.changes ++ [⟨kind, shown, size, was⟩] }

/-- A dry run's changes are listed in order of path. -/
def Summary.sorted (s : Summary) : Summary :=
  { s with changes := s.changes.mergeSort fun a b => decide (a.path ≤ b.path) }

namespace Receiver

def start (world : World) (target : Target) (opts : Opts) : Receiver where
  world := world
  opts := opts
  top := ⟨0, target.dir.map fun id => ⟨id, .target id⟩, [], none, none, none⟩
  named := target.name
  placed := 0
  opened := []
  tree := []
  pending := []
  receiving := none
  closing := []
  seen := 0
  summary := .zero
  tags := 1

def io {α : Type} (rel : Path) (x : Fs α) : Rx α := fun r =>
  match x r.world with
  | .ok a w => .ok a { r with world := w }
  | .error e w => .error (.new (.of e) rel.bytes) { r with world := w }

theorem wp_io {α : Type} {Q : α → Receiver → Prop} {E : Failure → Receiver → Prop} (rel : Path)
    (x : Fs α) (r : Receiver) :
    wp (io rel x) Q E r ↔ wp x (fun a w => Q a { r with world := w })
      (fun e w => E (.new (.of e) rel.bytes) { r with world := w }) r.world := by
  simp only [wp, io]
  cases x r.world <;> rfl

def count (f : Summary → Summary) : Rx Unit := modify fun r => { r with summary := f r.summary }

/-- Entry `name` of `dir`, if it has one. -/
def statIn (dir : Dir) (name : Name) : Fs (Option Stat) :=
  match dir.fd with
  | none => return none
  | some fd => stat fd name

/-- The directory an entry named `name` goes in, and the name it lands as. -/
def place (name : Name) : Rx (Dir × Name) := do
  let r ← get
  match r.opened with
  | top :: _ => return (top.dir, name)
  | [] =>
    set { r with placed := r.placed + 1 }
    match r.named with
    | none => return (r.top, name)
    | some named =>
      onlyIf (r.placed + 1 ≠ 1) (throw malformed)
      return (r.top, named)

/-- Note `name` as sent into the open directory, for `--delete`. -/
def saw (name : Name) : Rx Unit := do
  let r ← get
  match r.opened with
  | ⟨dir, some seen⟩ :: more =>
    if name ∈ seen then return ()
    else do
      set { r with opened := ⟨dir, some (name :: seen)⟩ :: more, seen := r.seen + 1 }
      onlyIf (maxSeen < r.seen + 1) (throw (.new .tooMany []))
  | _ => return ()

/-- Open a directory for what follows. -/
def open_ (fd : Option Fd) (rel : Path) (mode : Option Mode) (mtime : Option Time) (parent : ℕ) :
    Rx Unit :=
  modify fun r => { r with
    tree := if r.opened.isEmpty then rel else r.tree
    opened := ⟨⟨r.tags, fd, rel, mode, mtime, some parent⟩,
      if r.opts.delete then some [] else none⟩ :: r.opened
    tags := r.tags + 1 }

/-- Remove entry `name` of `dir` (`--delete`), with all it holds; in a dry run,
count and list it. -/
def removeEntry (dir : Fd) (name : Name) (rel : Path) : Rx Unit := do
  let dry := (← get).opts.dryRun
  let removed ← io rel (remove dry (maxDepth + 1) dir name)
  count fun s => { s with deleted := satAdd s.deleted removed }
  onlyIf dry (count (·.change .deleted rel none none))

/-- Whether directory `name` of `parent` is to be made: something else there is
removed, if it may be. -/
def clearWay (parent : Dir) (name : Name) (rel : Path) : Rx Bool := do
  let delete := (← get).opts.delete
  match (← io rel (statIn parent name)).map Stat.kind, parent.fd with
  | none, _ => return true
  | some .dir, _ => return false
  | some .link, _ => throw (.new .isASymlink rel.bytes)
  | some _, some fd =>
    onlyIf (delete = false) (throw (.new .notADirectory rel.bytes))
    removeEntry fd name rel
    return true
  | some _, none => throw (.new .notADirectory rel.bytes)

/-- Directory `name` of `parent`, opened, once it is made if it is to be; none
in a dry run that would make it. -/
def openMade (parent : Dir) (name : Name) (rel : Path) (made : Bool) : Rx (Option Fd) := do
  let dry := (← get).opts.dryRun
  match parent.fd, dry && made with
  | some dir, false =>
    onlyIf made (io rel (makeDir dir name))
    some <$> io rel (openDir dir name)
  | _, _ => return none

/-- Open directory `name` of `parent` for what follows, made if it is not there. -/
def enter (parent : Dir) (name : Name) (mode : Mode) (mtime : Option Time) : Rx Unit := do
  let rel := parent.rel ++ [name]
  let opts := (← get).opts
  onlyIf (maxDepth ≤ (← get).opened.length) (throw (.new .tooDeep rel.bytes))
  saw name
  let made ← clearWay parent name rel
  onlyIf made (count fun s => { s with dirs := satAdd s.dirs 1 })
  onlyIf (made && opts.dryRun) (count (·.change .dir rel none none))
  let fd ← openMade parent name rel made
  open_ fd rel (if made || opts.keepTimes then some mode else none)
    (mtime.filter fun _ => opts.keepTimes) parent.tag

/-- Whether anything but `closing` holds directory `d`. -/
def held (r : Receiver) (d : Dir) : Bool :=
  (r.pending.map Pending.dir ++ r.opened.map Open.dir).any (fun e => e.tag = d.tag || e.parent = some d.tag)
    || r.closing.any (·.parent = some d.tag)

/-- `Vec::swap_remove`: the last takes its place. -/
def swapRemove {α : Type} (l : List α) (i : ℕ) : List α :=
  match l.getLast? with
  | none => []
  | some last => (l.set i last).dropLast

/-- Give directory `dir`, with nothing under it under way, its mode and time. -/
def settle (dir : Dir) : Rx Unit :=
  onSome dir.fd fun fd => do
    onSome dir.mode fun mode => io dir.rel (chmod (.dir fd) mode.landed)
    onSome dir.mtime fun time => io dir.rel (setMtime (.dir fd) time)

/-- Give each directory ended with nothing under it under way its mode and time;
`turns` are as many as there are directories waiting. -/
def closeReady : ℕ → Rx Unit
  | 0 => return ()
  | turns + 1 => do
    let r ← get
    match r.closing.zipIdx.find? (fun d => !r.held d.1) with
    | none => return ()
    | some (dir, i) =>
      set { r with closing := swapRemove r.closing i }
      settle dir
      closeReady turns

/-- Remove `entry` of the directory that ends, unless the sender sent it or it
is excluded. -/
def prune (dir : Dir) (fd : Fd) (seen : List Name) (entry : Name) : Rx Unit := do
  let r ← get
  let excluded := r.opts.excludes.excludes entry.bytes (r.path dir entry).bytes
  onlyIf (excluded = false ∧ entry ∉ seen) (removeEntry fd entry (dir.rel ++ [entry]))

/-- Remove what the sender did not send into `dir`, its names being `seen`. -/
def pruneAll (dir : Dir) (seen : List Name) : Rx Unit := do
  modify fun r => { r with seen := r.seen - seen.length }
  onSome dir.fd fun fd => do
    let entries ← io dir.rel (names fd)
    entries.forM (prune dir fd seen)

def closeAll : Rx Unit := do closeReady (← get).closing.length

/-- The open directory is done: remove what the sender did not send, if asked. -/
def leave : Rx Unit := do
  let r ← get
  match r.opened with
  | [] => throw malformed
  | ⟨dir, seen⟩ :: more =>
    set { r with opened := more }
    onSome seen (pruneAll dir)
    onlyIf (r.opts.dryRun = false) (modify fun r => { r with closing := r.closing ++ [dir] })
    closeAll

/-- `hash_of` the file `name` of `dir`. -/
def hashIn (digest : Digest) (dir : Fd) (name : Name) (len : Option ℕ) : Fs Bytes := do
  let file ← openFile dir name
  let bytes ← content file
  return digest (match len with | some n => bytes.take n | none => bytes)

/-- The part of a file that is not here: what is kept of it. -/
def want (digest : Digest) (dir : Dir) (header : FileHeader) (rel : Path) : Rx Answer := do
  let part := partName digest header.name
  saw part
  match ← io rel (statIn dir part), dir.fd with
  | some p, some fd =>
    if p.kind = .file ∧ 0 < p.size ∧ p.size ≤ header.size then do
      let head ← io rel (hashIn digest fd part (some p.size))
      return .want header.id p.size (some head)
    else return .want header.id 0 none
  | _, _ => return .want header.id 0 none

/-- What a file's header is answered, `there` being the entry of its name. -/
def answerTo (digest : Digest) (dir : Dir) (header : FileHeader) (rel : Path)
    (there : Option Stat) : Rx Answer :=
  match there, dir.fd with
  | some e, some fd =>
    if e.kind = .dir then throw (.new .isADirectory rel.bytes)
    else if e.kind = .file ∧ e.size = header.size then
      .check header.id <$> io rel (hashIn digest fd header.name none)
    else want digest dir header rel
  | some e, none =>
    if e.kind = .dir then throw (.new .isADirectory rel.bytes) else want digest dir header rel
  | none, _ => want digest dir header rel

def file (digest : Digest) (dir : Dir) (header : FileHeader) : Rx Answer := do
  let r ← get
  -- A sender keeps at most a window's headers unanswered.
  onlyIf (WINDOW ≤ r.pending.length ∨ header.id ∈ r.pending.map (·.header.id)) (throw malformed)
  let rel := dir.rel ++ [header.name]
  saw header.name
  let there ← io rel (statIn dir header.name)
  let answer ← answerTo digest dir header rel there
  let was := (there.filter fun e => e.kind = .file).map Stat.size
  modify fun r => { r with pending := r.pending ++ [⟨dir, header, rel, there.isSome, was⟩] }
  return answer

def take (id : FileId) : Rx Pending := do
  let r ← get
  match r.pending.find? (·.header.id = id) with
  | none => throw malformed
  | some p =>
    set { r with pending := r.pending.filter (·.header.id ≠ id) }
    return p

/-- File `p` was written, from byte `start` on, or would be, in a dry run. -/
def wrote (p : Pending) (start : ℕ) : Rx Unit := do
  let dry := (← get).opts.dryRun
  count fun s =>
    if p.existed then { s with replaced := satAdd s.replaced 1 }
    else { s with new := satAdd s.new 1 }
  onlyIf (0 < start) (count fun s => { s with resumed := satAdd s.resumed 1 })
  onlyIf dry
    (count (·.change (if p.existed then .replaced else .new) p.rel (some p.header.size) p.was))

/-- File `id`'s bytes from `start` follow: into its part. -/
def data (digest : Digest) (id : FileId) (start : ℕ) : Rx Unit := do
  let p ← take id
  match p.dir.fd with
  | none => throw malformed
  | some fd =>
    let part ← io p.rel (create fd (partName digest p.header.name) (start = 0))
    io p.rel (setLen part start)
    modify fun r => { r with receiving := some ⟨p, fd, part, start, start⟩ }

def chunk (rc : Receiving) (bytes : Bytes) : Rx Unit := do
  count fun s => { s with bytes := satAdd s.bytes bytes.length }
  io rc.file.rel (writeAt rc.part bytes rc.offset)
  modify fun r => { r with receiving := some { rc with offset := rc.offset + bytes.length } }

/-- The file is all sent: it goes into place. -/
def finish (digest : Digest) (rc : Receiving) : Rx Unit := do
  let p := rc.file
  let r ← get
  set { r with receiving := none }
  io p.rel (chmod rc.part p.header.mode.landed)
  onSome (p.header.mtime.filter fun _ => r.opts.keepTimes) fun time =>
    io p.rel (setMtime rc.part time)
  io p.rel (rename rc.fd (partName digest p.header.name) p.header.name)
  wrote p rc.start
  closeAll

/-- In a dry run, file `id` differs from the one here, or there is none. -/
def differs (id : FileId) (start : ℕ) : Rx Unit := do
  let p ← take id
  count fun s => { s with bytes := satAdd s.bytes (p.header.size - start) }
  wrote p start

/-- The file here takes the source's mode, and its time if asked. -/
def touch (fd : Fd) (p : Pending) (keepTimes : Bool) : Rx Unit := do
  let file ← io p.rel (openFile fd p.header.name)
  let here ← io p.rel (statOpened file)
  let mode := p.header.mode.landed
  onlyIf (here.mode ≠ mode) (io p.rel (chmod file mode))
  onSome (p.header.mtime.filter fun t => keepTimes && decide (here.mtime ≠ some t)) fun time =>
    io p.rel (setMtime file time)
  closeAll

/-- File `id` is the same as the one here: it keeps its time, unless asked for
the source's, and takes the source's mode. -/
def same (id : FileId) : Rx Unit := do
  let p ← take id
  count fun s => { s with unchanged := satAdd s.unchanged 1 }
  let opts := (← get).opts
  match opts.dryRun, p.dir.fd with
  | true, _ => return ()
  | false, none => throw malformed
  | false, some fd => touch fd p opts.keepTimes

/-- A symlink put in place of what is there, by way of the part. -/
def replaceLink (digest : Digest) (fd : Fd) (name : Name) (link : LinkTarget) : Fs Unit := do
  let part := partName digest name
  ignore (remove false 1 fd part)
  symlinkAt link.bytes fd part
  rename fd part name

/-- Whether `link` is there already. -/
def linked (dir : Dir) (name : Name) (link : LinkTarget) (there : Option Kind) : Fs Bool :=
  match dir.fd, there with
  | some fd, some .link => (fun target => decide (target = link.bytes)) <$> readLink fd name
  | _, _ => return false

/-- `link` as entry `name` of `dir`, which was `there`. -/
def layLink (digest : Digest) (dir : Dir) (name : Name) (link : LinkTarget) (rel : Path)
    (there : Option Kind) : Rx Unit := do
  match (← get).opts.dryRun, dir.fd, there with
  | true, _, _ => count (·.change .link rel none none)
  | false, some fd, none => io rel (symlinkAt link.bytes fd name)
  | false, some fd, some _ => io rel (replaceLink digest fd name link)
  | false, none, _ => throw malformed

def symlink (digest : Digest) (dir : Dir) (name : Name) (link : LinkTarget) : Rx Unit := do
  let rel := dir.rel ++ [name]
  saw name
  let there := (← io rel (statIn dir name)).map Stat.kind
  onlyIf (there = some .dir) (throw (.new .isADirectory rel.bytes))
  let same ← io rel (linked dir name link there)
  onlyIf (same = false) do
    layLink digest dir name link rel there
    count fun s => { s with links := satAdd s.links 1 }

/-- What is in a directory, landing in the target itself, or as the one item. -/
def contents (mode : Mode) (mtime : Option Time) : Rx Unit := do
  let r ← get
  match r.named with
  | some named =>
    let (parent, name) ← place named
    enter parent name mode mtime
  | none =>
    -- Into the target itself: it keeps its mode, and takes the source's time if asked.
    open_ r.top.fd [] none (mtime.filter fun _ => r.opts.keepTimes) r.top.tag

def itemBetween (digest : Digest) : Item → Rx Heard
  | .allDone => do
    let r ← get
    onlyIf (r.opened.isEmpty = false ∨ r.pending.isEmpty = false) (throw malformed)
    return .over r.summary.sorted
  | .failed failure => throw failure
  | .dirEnd => do
    leave
    return .nothing
  | .skipped name => do
    onlyIf ((← get).opened.isEmpty) (throw malformed)
    saw name
    count fun s => { s with skipped := satAdd s.skipped 1 }
    return .nothing
  | .data id start => do
    onlyIf (← get).opts.dryRun (throw malformed)
    data digest id start
    return .nothing
  | .differs id start => do
    onlyIf ((← get).opts.dryRun = false) (throw malformed)
    differs id start
    return .nothing
  | .same id => do
    same id
    return .nothing
  | .contents mode mtime => do
    onlyIf ((← get).opened.isEmpty = false) (throw malformed)
    contents mode mtime
    return .nothing
  | .dir name mode mtime => do
    let (parent, name) ← place name
    enter parent name mode mtime
    return .nothing
  | .file header => do
    let (parent, name) ← place header.name
    .answer <$> file digest parent { header with name := name }
  | .symlink name target => do
    let (parent, name) ← place name
    symlink digest parent name target
    return .nothing
  | .chunk _ => throw malformed
  | .sent => throw malformed

def itemWithin (digest : Digest) (rc : Receiving) : Item → Rx Heard
  | .chunk c => do
    chunk rc c.bytes
    return .nothing
  | .sent => do
    finish digest rc
    return .nothing
  | _ => throw malformed

def item (digest : Digest) (i : Item) : Rx Heard := do
  match (← get).receiving with
  | some rc => itemWithin digest rc i
  | none => itemBetween digest i

/-- One item after another, until they are all read, or it is over or failed. -/
def feed (digest : Digest) : List Item → Rx Heard
  | [] => throw cut
  | i :: items => do
    match ← item digest i with
    | .over summary => return .over summary
    | _ => feed digest items

end Receiver

end Koh.Sync
