import Koh.Lib.Namei
import Koh.Sync.Send

/-!
# What a copy's sender finds

The host's tree, with symlinks anywhere, and what `Sender::source` and `exists_beneath` find in it:
by a path as the system finds it, or beneath a scoped key's directory.

## Main definitions

- `Host`: the host's tree
- `stat`, `openDir`, `openFile`, `readLink`: the calls of `sync/fsat.rs` that read
- `found`, `existsBeneath`: what is found beneath a directory
- `Agree`: two trees that look alike from a directory, through directories alone

## Main results

- `found_eq`, `existsBeneath_eq`: what is found is what is seen so

## Design notes

A host's directories are of any type, and its calls fail as the tree has them fail: a directory may
not be searched, opened or listed, and a file may not be opened. `stat` is made with
`AT_SYMLINK_NOFOLLOW` and each file or directory of a directory opened with `O_NOFOLLOW`: each is a
lookup that does not follow the last name. What a sender finds is a `Node`; below the deepest
directory that it goes into, nothing is listed.
-/

namespace Koh.Sync.Beneath

open Koh.Namei (Tree lookup Same view IsName)

/-- What is no directory and no symlink: a file, with the error that opening it gives, if it does,
or a fifo, socket or device. -/
inductive Leaf where
  | file (denied : Option Errno) (file : SourceFile)
  | other

/-- What a directory is, but for its entries: the errors that opening and listing it give, if they
do, and the names that it lists, in any order, but `.` and `..`. -/
structure Dir where
  mode : ℕ
  mtime : Option Time
  denied : Option Errno
  listing : Except Errno (List Bytes)

/-- The host's tree. -/
structure Host (D : Type) where
  top : D
  parent : D → D
  entry : D → Bytes → Except Errno (Option (Namei.Entry D Leaf))
  dir : D → Dir

variable {D : Type}

def Host.tree (h : Host D) : Tree D Leaf Errno where
  top := h.top
  parent := h.parent
  entry := h.entry
  missing := .notFound
  notDir := .notADirectory
  loop := .other

/-! ### The calls -/

def kindOf : Namei.Entry D Leaf → Kind
  | .dir _ => .dir
  | .file (.file ..) => .file
  | .file .other => .other
  | .link _ => .link

/-- The kind of entry `name` of `d`, not followed; `none` if there is none. -/
def stat (h : Host D) (d : D) (name : Name) : Except Errno (Option Kind) :=
  match lookup h.tree false d name.bytes with
  | .error .notFound => .ok none
  | .error e => .error e
  | .ok e => .ok (some (kindOf e))

def opened (h : Host D) : Except Errno (Namei.Entry D Leaf) → Except Errno D
  | .error e => .error e
  | .ok (.dir d) => match (h.dir d).denied with
    | some e => .error e
    | none => .ok d
  | .ok _ => .error .notADirectory

/-- Directory `name` of `d`, refused if it is a symlink. -/
def openDir (h : Host D) (d : D) (name : Name) : Except Errno D :=
  opened h (lookup h.tree false d name.bytes)

/-- The directory at `path`, as the system finds it, symlinks followed. -/
def openDirPath (h : Host D) (path : Bytes) : Except Errno D :=
  opened h (lookup h.tree true h.top path)

/-- Open the file that a lookup led to, to read. -/
def openedFile : Except Errno (Namei.Entry D Leaf) → Node
  | .error e => .failing e
  | .ok (.file (.file none file)) => .file file
  | .ok (.file (.file (some e) _)) => .failing e
  | .ok (.file .other) => .other
  | .ok (.dir _) => .failing .isADirectory
  -- `O_NOFOLLOW`: a symlink is an error.
  | .ok (.link _) => .failing .other

/-- File `name` of `d`, refused if it is a symlink. -/
def openFile (h : Host D) (d : D) (name : Name) : Node :=
  openedFile (lookup h.tree false d name.bytes)

def readLink (h : Host D) (d : D) (name : Name) : Except Errno Bytes :=
  match lookup h.tree false d name.bytes with
  | .error e => .error e
  | .ok (.link target) => .ok target
  | .ok _ => .error .other

/-- The directory that names reach from `d`, each opened from the last, none a symlink. -/
def walk (h : Host D) (d : D) (names : List Name) : Except Errno D := names.foldlM (openDir h) d

/-! ### What a sender finds -/

/-- The entries of a directory, as they are listed. -/
def forestOf : List (Bytes × Node) → Forest
  | [] => .nil
  | (name, node) :: rest => .cons name node (forestOf rest)

/-- The names of a directory, as `names.sort()` leaves them. -/
def sorted (listing : List Bytes) : List Bytes := listing.mergeSort

/-- What `Sender::entry` finds of an entry; `inner` is what is found of a directory. -/
def entryNode (h : Host D) (inner : D → Node) (d : D) (name : Name) : Node :=
  match stat h d name with
  | .error e => .failing e
  | .ok none => .failing .notFound
  | .ok (some .dir) => match openDir h d name with
    | .error e => .failing e
    | .ok sub => inner sub
  | .ok (some .file) => openFile h d name
  | .ok (some .link) => match readLink h d name with
    | .error e => .failing e
    | .ok target => .link target
  | .ok (some .other) => .other

/-- What `Sender::dir` finds of a directory, so many deep. -/
def dirNode (h : Host D) : ℕ → D → Node
  | 0, d => .dir (h.dir d).mode (h.dir d).mtime .nil
  | more + 1, d => match (h.dir d).listing with
    | .error e => .failing e
    | .ok listing =>
      .dir (h.dir d).mode (h.dir d).mtime <| forestOf <| (sorted listing).map fun bytes =>
        (bytes, match Name.new bytes with
          | some name => entryNode h (dirNode h more) d name
          -- The copy stops there.
          | none => .failing .invalidFilename)

/-- What `Sender::source` finds at names beneath a directory. -/
def found (h : Host D) (root : Bytes) (path : Path) : Node :=
  match openDirPath h root with
  | .error e => .failing e
  | .ok d => match path.getLast? with
    -- The key's directory itself: what is in it.
    | none => dirNode h maxDepth d
    | some last => match walk h d path.dropLast with
      | .error e => .failing e
      | .ok parent => entryNode h (dirNode h maxDepth) parent last

/-- What `Sender::source` finds at a path, as the system finds it. -/
def foundPath (h : Host D) (path : Bytes) : Node :=
  match lookup h.tree true h.top path with
  | .ok (.dir d) => match opened h (.ok (.dir d)) with
    | .error e => .failing e
    | .ok d => dirNode h maxDepth d
  | e => openedFile e

def isDir (h : Host D) (path : Bytes) : Bool :=
  match lookup h.tree true h.top path with
  | .ok (.dir _) => true
  | _ => false

def existsBeneath (h : Host D) (root : Bytes) (path : Path) : Bool :=
  match path.getLast? with
  | none => isDir h root
  | some last =>
    match openDirPath h root >>= fun d => walk h d path.dropLast >>= fun d => stat h d last with
    | .ok (some _) => true
    | _ => false

/-! ### What is seen beneath a directory -/

/-- What is said of a directory, and its names in order. -/
def Host.about (h : Host D) (d : D) : ℕ × Option Time × Option Errno × Except Errno (List Bytes) :=
  ((h.dir d).mode, (h.dir d).mtime, (h.dir d).denied, (h.dir d).listing.map sorted)

/-- What is seen from a directory, through directories alone. -/
def Host.sees (h : Host D) (d : D) := view h.tree h.about d

/-- The trees look alike from `d` and `d'`, through directories alone. -/
def Alike {D' : Type} (h : Host D) (h' : Host D') (d : D) (d' : D') : Prop := h.sees d = h'.sees d'

/-- `path` leads to directories of which the trees look alike from, or to the same in both. -/
def Agree {D' : Type} (h : Host D) (h' : Host D') (path : Bytes) : Prop :=
  Same (Alike h h') ((lookup h.tree true h.top path).map some)
    ((lookup h'.tree true h'.top path).map some)

section

variable {D' : Type} {h : Host D} {h' : Host D'} {d : D} {d' : D'}

theorem Name.isName (name : Name) : IsName name.bytes := by
  have hvalid := name.valid
  simp only [validName, Bool.and_eq_true, decide_eq_true_eq, Bool.not_eq_true',
    List.contains_eq_mem, decide_eq_false_iff_not] at hvalid
  exact ⟨hvalid.1.1.1.1.1, hvalid.1.1.1.1.2, hvalid.1.1.1.2, hvalid.1.2⟩

/-- One name of directories that look alike, not followed, is the same, or leads to directories
that look alike. -/
theorem Alike.lookup (halike : Alike h h' d d') (name : Name) :
    Same (Alike h h') ((lookup h.tree false d name.bytes).map some)
      ((lookup h'.tree false d' name.bytes).map some) := by
  rw [Namei.lookup_name (Name.isName name), Namei.lookup_name (Name.isName name)]
  have hsame := Namei.same_of_view halike name.bytes
  generalize h.tree.entry d name.bytes = x at hsame ⊢
  generalize h'.tree.entry d' name.bytes = y at hsame ⊢
  cases hsame with
  | error e => exact .error e
  | none => exact .error Errno.notFound
  | dir hsub => exact .dir hsub
  | file f => exact .file f
  | link target => exact .link target

/-- Directories that look alike are opened alike. -/
theorem Alike.opened {x : Except Errno (Namei.Entry D Leaf)}
    {y : Except Errno (Namei.Entry D' Leaf)}
    (hsame : Same (Alike h h') (x.map some) (y.map some)) :
    (∃ e, opened h x = .error e ∧ opened h' y = .error e) ∨
      ∃ d d', opened h x = .ok d ∧ opened h' y = .ok d' ∧ Alike h h' d d' := by
  rcases x with e | (d | f | target) <;> rcases y with e' | (d' | f' | target') <;> cases hsame
  · exact .inl ⟨_, rfl, rfl⟩
  · next hsub =>
    have habout := Namei.about_of_view hsub
    simp only [Host.about, Prod.mk.injEq] at habout
    simp only [Beneath.opened, ← habout.2.2.1]
    cases (h.dir d).denied with
    | some e => exact .inl ⟨e, rfl, rfl⟩
    | none => exact .inr ⟨d, d', rfl, rfl, hsub⟩
  · exact .inl ⟨_, rfl, rfl⟩
  · exact .inl ⟨_, rfl, rfl⟩

/-- A directory is opened in both, or in neither. -/
theorem Alike.openDir (halike : Alike h h' d d') (name : Name) :
    (∃ e, openDir h d name = .error e ∧ openDir h' d' name = .error e) ∨
      ∃ sub sub', openDir h d name = .ok sub ∧ openDir h' d' name = .ok sub' ∧
        Alike h h' sub sub' :=
  Alike.opened (halike.lookup name)

/-- What is said of a name is the same. -/
theorem Alike.stat (halike : Alike h h' d d') (name : Name) : stat h d name = stat h' d' name := by
  have hsame := halike.lookup name
  unfold Beneath.stat
  generalize Namei.lookup h.tree false d name.bytes = x at hsame ⊢
  generalize Namei.lookup h'.tree false d' name.bytes = y at hsame ⊢
  rcases x with e | (d | f | target) <;> rcases y with e' | (d' | f' | target') <;> cases hsame
  · cases e <;> rfl
  · rfl
  · cases f <;> rfl
  · rfl

/-- So is what is read of a file. -/
theorem Alike.openFile (halike : Alike h h' d d') (name : Name) :
    openFile h d name = openFile h' d' name := by
  have hsame := halike.lookup name
  unfold Beneath.openFile
  generalize Namei.lookup h.tree false d name.bytes = x at hsame ⊢
  generalize Namei.lookup h'.tree false d' name.bytes = y at hsame ⊢
  rcases x with e | (d | f | target) <;> rcases y with e' | (d' | f' | target') <;> cases hsame
  · rfl
  · rfl
  · rcases f with ⟨denied, file⟩ | _
    · cases denied <;> rfl
    · rfl
  · rfl

/-- And of a link. -/
theorem Alike.readLink (halike : Alike h h' d d') (name : Name) :
    readLink h d name = readLink h' d' name := by
  have hsame := halike.lookup name
  unfold Beneath.readLink
  generalize Namei.lookup h.tree false d name.bytes = x at hsame ⊢
  generalize Namei.lookup h'.tree false d' name.bytes = y at hsame ⊢
  rcases x with e | (d | f | target) <;> rcases y with e' | (d' | f' | target') <;> cases hsame
  all_goals rfl

/-- Names walked from directories that look alike. -/
theorem Alike.walk (halike : Alike h h' d d') (names : List Name) :
    (∃ e, walk h d names = .error e ∧ walk h' d' names = .error e) ∨
      ∃ sub sub', walk h d names = .ok sub ∧ walk h' d' names = .ok sub' ∧ Alike h h' sub sub' := by
  induction names generalizing d d' with
  | nil => exact .inr ⟨d, d', rfl, rfl, halike⟩
  | cons name names ih =>
    simp only [Beneath.walk, List.foldlM_cons]
    rcases halike.openDir name with ⟨e, he, he'⟩ | ⟨sub, sub', hsub, hsub', halike'⟩
    · rw [he, he']
      exact .inl ⟨e, rfl, rfl⟩
    · rw [hsub, hsub']
      exact ih halike'

/-- And all that is below it. -/
theorem Alike.entryNode {inner : D → Node} {inner' : D' → Node} (halike : Alike h h' d d')
    (hinner : ∀ d d', Alike h h' d d' → inner d = inner' d') (name : Name) :
    entryNode h inner d name = entryNode h' inner' d' name := by
  unfold Beneath.entryNode
  rw [halike.stat name, halike.openFile name, halike.readLink name]
  rcases halike.openDir name with ⟨e, he, he'⟩ | ⟨sub, sub', hsub, hsub', halike'⟩
  · rw [he, he']
  · simp only [hsub, hsub', hinner sub sub' halike']

/-- Directories that look alike are found alike, however deep. -/
theorem Alike.dirNode (halike : Alike h h' d d') (more : ℕ) :
    dirNode h more d = dirNode h' more d' := by
  induction more generalizing d d' with
  | zero =>
    have habout := Namei.about_of_view halike
    simp only [Host.about, Prod.mk.injEq] at habout
    simp only [Beneath.dirNode, habout.1, habout.2.1]
  | succ more ih =>
    have habout := Namei.about_of_view halike
    simp only [Host.about, Prod.mk.injEq] at habout
    obtain ⟨hmode, hmtime, -, hlisting⟩ := habout
    simp only [Beneath.dirNode, hmode, hmtime]
    cases hnames : (h.dir d).listing with
    | error e =>
      cases hnames' : (h'.dir d').listing with
      | error e' =>
        rw [hnames, hnames'] at hlisting
        cases hlisting
        rfl
      | ok listing' =>
        rw [hnames, hnames'] at hlisting
        cases hlisting
    | ok listing =>
      cases hnames' : (h'.dir d').listing with
      | error e' =>
        rw [hnames, hnames'] at hlisting
        cases hlisting
      | ok listing' =>
        rw [hnames, hnames'] at hlisting
        have hsorted : sorted listing = sorted listing' := Except.ok.inj hlisting
        simp only [hsorted]
        refine congrArg (fun entries => Node.dir _ _ (forestOf entries)) ?_
        refine List.map_congr_left fun bytes _ => congrArg (Prod.mk bytes) ?_
        cases Name.new bytes with
        | none => rfl
        | some name => exact halike.entryNode (fun d d' halike' => ih halike') name

/-- What is found beneath a directory is what is seen from it, through directories alone. -/
theorem found_eq {root : Bytes} (hagree : Agree h h' root) (path : Path) :
    found h root path = found h' root path := by
  unfold found openDirPath
  rcases Alike.opened hagree with ⟨e, he, he'⟩ | ⟨d, d', hd, hd', halike⟩
  · rw [he, he']
  · rw [hd, hd']
    cases path.getLast? with
    | none => exact halike.dirNode maxDepth
    | some last =>
      dsimp only
      rcases halike.walk path.dropLast with ⟨e, he, he'⟩ | ⟨sub, sub', hsub, hsub', halike'⟩
      · rw [he, he']
      · rw [hsub, hsub']
        exact halike'.entryNode (fun d d' halike => halike.dirNode maxDepth) last

/-- Hosts that agree on a root agree on what exists beneath it. -/
theorem existsBeneath_eq {root : Bytes} (hagree : Agree h h' root) (path : Path) :
    existsBeneath h root path = existsBeneath h' root path := by
  unfold existsBeneath
  cases path.getLast? with
  | none =>
    unfold Agree at hagree
    unfold isDir
    generalize Namei.lookup h.tree true h.top root = x at hagree ⊢
    generalize Namei.lookup h'.tree true h'.top root = y at hagree ⊢
    rcases x with e | (d | f | target) <;> rcases y with e' | (d' | f' | target') <;> cases hagree
    all_goals rfl
  | some last =>
    dsimp only
    unfold openDirPath
    rcases Alike.opened hagree with ⟨e, he, he'⟩ | ⟨d, d', hd, hd', halike⟩
    · rw [he, he']
      rfl
    · rw [hd, hd']
      rcases halike.walk path.dropLast with ⟨e, he, he'⟩ | ⟨sub, sub', hsub, hsub', halike'⟩
      · simp only [bind, Except.bind, he, he']
      · simp only [bind, Except.bind, hsub, hsub', halike'.stat last]

end

end Koh.Sync.Beneath
