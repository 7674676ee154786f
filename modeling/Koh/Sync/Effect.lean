import Koh.Sync.Tree

/-!
# What the receiver does with an item

Each method of the receiver, if it ends well: what it found, and what it left
of the receiver's state and of the tree. `item_does` says it of an item, once
for all that is proved of runs.

## Main definitions

- `Still`: two receivers that differ in their world and counts alone
- `Does`: what an item did
- `Receiver.item_does`: an item does what `Does` says

## Design notes

`Does` takes over the source's words for each item, and not its reasons: what a
summary counts, and when a directory gets its mode and time, is left out of it.
-/

namespace Koh.Sync

open Names

/-- The names sent into the innermost directory, with one more. -/
def sawIn (name : Name) : List Open → List Open
  | ⟨dir, some seen⟩ :: more => ⟨dir, some (if name ∈ seen then seen else name :: seen)⟩ :: more
  | opened => opened

/-- A name that is seen opens no directory. -/
@[simp] theorem sawIn_dirs (name : Name) (opened : List Open) :
    (sawIn name opened).map Open.dir = opened.map Open.dir := by
  cases opened with
  | nil => rfl
  | cons o more => obtain ⟨dir, _ | seen⟩ := o <;> rfl

@[simp] theorem sawIn_eq_nil {name : Name} {opened : List Open} :
    sawIn name opened = [] ↔ opened = [] := by
  cases opened with
  | nil => simp [sawIn]
  | cons o more => obtain ⟨dir, _ | seen⟩ := o <;> simp [sawIn]

/-- The names noted with a file's header that is answered `answer`: its part's too,
if it may come to be. -/
def sawFor (digest : Digest) (name : Name) (answer : Answer) (opened : List Open) : List Open :=
  match answer with
  | .check _ _ => sawIn name opened
  | .want _ _ _ => sawIn (partName digest name) (sawIn name opened)

/-- `r'` is `r` but for its world, its counts, and the directories that wait to
be closed. -/
structure Still (r r' : Receiver) : Prop where
  opts : r'.opts = r.opts
  top : r'.top = r.top
  named : r'.named = r.named
  placed : r'.placed = r.placed
  opened : r'.opened = r.opened
  tree : r'.tree = r.tree
  pending : r'.pending = r.pending
  receiving : r'.receiving = r.receiving

theorem Still.refl (r : Receiver) : Still r r := ⟨rfl, rfl, rfl, rfl, rfl, rfl, rfl, rfl⟩

/-- Twice nothing else. -/
theorem Still.trans {r r' r'' : Receiver} (h : Still r r') (h' : Still r' r'') : Still r r'' :=
  ⟨h'.opts.trans h.opts, h'.top.trans h.top, h'.named.trans h.named, h'.placed.trans h.placed,
    h'.opened.trans h.opened, h'.tree.trans h.tree, h'.pending.trans h.pending,
    h'.receiving.trans h.receiving⟩

namespace Receiver

abbrev disk (r : Receiver) : Disk := r.world.disk

/-- The directory an entry named `name` goes in, and the name it lands as. -/
def spot (r : Receiver) (name : Name) : Dir × Name :=
  match r.opened with
  | top :: _ => (top.dir, name)
  | [] => (r.top, r.named.getD name)

/-- One more item at the top, if it is at the top. -/
def stepped (r : Receiver) : Receiver :=
  if r.opened.isEmpty then { r with placed := r.placed + 1 } else r

/-- `name` is to be pruned of a directory that ends: neither sent nor excluded. -/
def Prunes (r : Receiver) (dir : Dir) (seen : List Name) (name : Name) : Prop :=
  r.opts.excludes.excludes name.bytes (r.path dir name).bytes = false ∧ name ∉ seen

end Receiver

/-- What a directory's end left: some of what was at or below the entries pruned
is gone. -/
structure Pruned (r : Receiver) (dir : Dir) (seen : List Name) (disk disk' : Disk) : Prop where
  entry : ∀ d n, disk'.entry d n = disk.entry d n ∨ disk'.entry d n = none ∧
    ∃ fd m, dir.fd = some fd ∧ r.Prunes dir seen m ∧ Under Entry.sub disk.entry fd.id m d n
  next : disk'.next = disk.next
  dry : r.opts.dryRun = true → disk.Alike disk'

/-- What a header is answered, landing in `d`. -/
inductive Answered (digest : Digest) (disk : Disk) (d : DirId) (header : FileHeader) : Answer → Prop
  | check {bytes : Bytes} {mode : ℕ} {mtime : Option Time} :
      disk.entry d header.name = some (.file bytes mode mtime) → bytes.length = header.size →
      Answered digest disk d header (.check header.id (digest bytes))
  | fresh : (∀ bytes mode mtime, disk.entry d header.name = some (.file bytes mode mtime) →
        bytes.length ≠ header.size) →
      (∀ bytes mode mtime, disk.entry d (partName digest header.name) =
        some (.file bytes mode mtime) → bytes = [] ∨ header.size < bytes.length) →
      Answered digest disk d header (.want header.id 0 none)
  | kept {bytes : Bytes} {mode : ℕ} {mtime : Option Time} :
      (∀ bytes mode mtime, disk.entry d header.name = some (.file bytes mode mtime) →
        bytes.length ≠ header.size) →
      disk.entry d (partName digest header.name) = some (.file bytes mode mtime) →
      0 < bytes.length → bytes.length ≤ header.size →
      Answered digest disk d header (.want header.id bytes.length (some (digest bytes)))

/-- What a symlink's item left, landing as entry `n` of `d`. -/
inductive Linked (digest : Digest) (disk disk' : Disk) (d : DirId) (n : Name) (link : LinkTarget) :
    Prop where
  | there : disk.entry d n = some (.link link.bytes) → disk.Alike disk' →
      Linked digest disk disk' d n link
  | made : disk.entry d n = none → disk.Sets disk' d n (some (.link link.bytes)) →
      Linked digest disk disk' d n link
  | replaced (mid : Disk) : (disk.entry d n).isSome → NoDir (disk.entry d n) →
      disk.entry d n ≠ some (.link link.bytes) → disk.Went mid d (partName digest n) → mid.entry d (partName digest n) = none →
      mid.Sets disk' d n (some (.link link.bytes)) → Linked digest disk disk' d n link

/-- What opening directory `n` of `parent` left, `fd` being its descriptor. -/
def EnteredIn (parent : Dir) (n : Name) (dry : Bool) (disk disk' : Disk) (fd : Option Fd) : Prop :=
  match parent.fd with
  | none => disk.Alike disk' ∧ fd = none
  | some p =>
    if dry then disk.Alike disk' ∧ ∀ f, fd = some f → disk.entry p.id n = some (.dir f.id)
    else ∃ f, fd = some f ∧ disk.Entered disk' p.id n f.id

inductive Does (digest : Digest) (r r' : Receiver) : Item → Heard → Prop
  | allDone : r.receiving = none → r.opened = [] → r.pending = [] → r' = r →
      Does digest r r' .allDone (.over r.summary.sorted)
  | dirEnd {dir : Dir} {seen : Option (List Name)} {more : List Open} : r.receiving = none →
      r.opened = ⟨dir, seen⟩ :: more → Still { r with opened := more } r' →
      (seen = none → r.disk.Alike r'.disk) →
      (∀ names, seen = some names → Pruned r dir names r.disk r'.disk) →
      Does digest r r' .dirEnd .nothing
  | skipped {name : Name} : r.receiving = none → r.opened ≠ [] →
      Still { r with opened := sawIn name r.opened } r' → r'.disk = r.disk →
      Does digest r r' (.skipped name) .nothing
  | data {id : FileId} {start : ℕ} {p : Pending} {fd : Fd} {old : Bytes} {mode : ℕ}
      {mtime : Option Time} : r.receiving = none → r.opts.dryRun = false →
      r.pending.find? (·.header.id = id) = some p → p.dir.fd = some fd →
      Still { r with
        pending := r.pending.filter (·.header.id ≠ id)
        receiving := some ⟨p, fd, .file fd.id (partName digest p.header.name), start, start⟩ } r' →
      createdFrom (start = 0) (r.disk.entry fd.id (partName digest p.header.name)) = some old →
      r.disk.Sets r'.disk fd.id (partName digest p.header.name)
        (some (.file (resized start old) mode mtime)) →
      Does digest r r' (.data id start) .nothing
  | differs {id : FileId} {start : ℕ} {p : Pending} : r.receiving = none → r.opts.dryRun = true →
      r.pending.find? (·.header.id = id) = some p →
      Still { r with pending := r.pending.filter (·.header.id ≠ id) } r' → r'.disk = r.disk →
      Does digest r r' (.differs id start) .nothing
  | same {id : FileId} {p : Pending} : r.receiving = none →
      r.pending.find? (·.header.id = id) = some p →
      Still { r with pending := r.pending.filter (·.header.id ≠ id) } r' →
      r'.disk.next = r.disk.next →
      (∀ d n, SameBytes (r.disk.entry d n) (r'.disk.entry d n)) →
      (r.opts.dryRun = true → r.disk.Alike r'.disk) →
      (r.opts.dryRun = false → ∃ fd, p.dir.fd = some fd ∧
        (r.disk.entry fd.id p.header.name).isSome) →
      Does digest r r' (.same id) .nothing
  | contents {mode : Mode} {mtime : Option Time} {dir : Dir} : r.receiving = none →
      r.opened = [] → r.named = none → dir.fd = r.top.fd → dir.rel = [] →
      Still { r with
        opened := [⟨dir, if r.opts.delete then some [] else none⟩]
        tree := [] } r' → r'.disk = r.disk →
      Does digest r r' (.contents mode mtime) .nothing
  | contentsNamed {mode : Mode} {mtime : Option Time} {name : Name} {dir : Dir} :
      r.receiving = none → r.opened = [] → r.named = some name → r.placed = 0 →
      dir.rel = r.top.rel ++ [name] →
      Still { r with
        placed := r.placed + 1
        opened := [⟨dir, if r.opts.delete then some [] else none⟩]
        tree := dir.rel } r' →
      EnteredIn r.top name r.opts.dryRun r.disk r'.disk dir.fd →
      Does digest r r' (.contents mode mtime) .nothing
  | dir {name : Name} {mode : Mode} {mtime : Option Time} {dir : Dir} : r.receiving = none →
      dir.rel = (r.spot name).1.rel ++ [(r.spot name).2] →
      Still { r.stepped with
        opened := ⟨dir, if r.opts.delete then some [] else none⟩ :: sawIn (r.spot name).2 r.opened
        tree := if r.opened.isEmpty then dir.rel else r.tree } r' →
      EnteredIn (r.spot name).1 (r.spot name).2 r.opts.dryRun r.disk r'.disk dir.fd →
      Does digest r r' (.dir name mode mtime) .nothing
  | file {header : FileHeader} {answer : Answer} {p : Pending} : r.receiving = none →
      r.pending.length < WINDOW → header.id ∉ r.pending.map (·.header.id) →
      p.dir = (r.spot header.name).1 → p.header = { header with name := (r.spot header.name).2 } →
      Still { r.stepped with
        opened := sawFor digest p.header.name answer r.opened
        pending := r.pending ++ [p] } r' →
      r'.disk = r.disk → answer.id = header.id →
      (∀ fd, p.dir.fd = some fd → NoDir (r.disk.entry fd.id p.header.name) ∧
        Answered digest r.disk fd.id p.header answer) →
      Does digest r r' (.file header) (.answer answer)
  | symlink {name : Name} {target : LinkTarget} : r.receiving = none →
      Still { r.stepped with opened := sawIn (r.spot name).2 r.opened } r' →
      (r.opts.dryRun = true → r.disk.Alike r'.disk) →
      (r.opts.dryRun = false → ∃ fd, (r.spot name).1.fd = some fd ∧
        Linked digest r.disk r'.disk fd.id (r.spot name).2 target) →
      Does digest r r' (.symlink name target) .nothing
  | chunk {rc : Receiving} {c : Chunk} : r.receiving = some rc →
      Still { r with receiving := some { rc with offset := rc.offset + c.bytes.length } } r' →
      (∀ d n, rc.part = .file d n → ∃ bytes mode mtime,
        r.disk.entry d n = some (.file bytes mode mtime) ∧
        r.disk.Sets r'.disk d n (some (.file (overwritten rc.offset c.bytes bytes) mode none))) →
      Does digest r r' (.chunk c) .nothing
  | sent {rc : Receiving} : r.receiving = some rc → Still { r with receiving := none } r' →
      r'.disk.next = r.disk.next →
      (rc.part = .file rc.fd.id (partName digest rc.file.header.name) → ∃ e e',
        r.disk.entry rc.fd.id (partName digest rc.file.header.name) = some e ∧
        SameBytes (some e) (some e') ∧ NoDir (some e) ∧
        NoDir (r.disk.entry rc.fd.id rc.file.header.name) ∧
        r'.disk.entry = setAt (setAt r.disk.entry rc.fd.id
          (partName digest rc.file.header.name) none) rc.fd.id rc.file.header.name (some e')) →
      Does digest r r' .sent .nothing

namespace Receiver

/-! ### Methods -/

section

variable {r : Receiver} (digest : Digest)

/-- A call of the disk changes nothing but the disk. -/
theorem io_gives {α : Type} {x : Fs α} {Q : α → World → Prop} (rel : Path)
    (h : Gives x Q r.world) :
    Gives (io rel x) (fun a r' => r' = { r with world := r'.world } ∧ Q a r'.world) r := by
  rw [Gives, wp_io]
  exact wp_mono h (fun a w hw => ⟨rfl, hw⟩) fun _ _ _ => trivial

theorem still_world (w : World) : Still r { r with world := w } :=
  ⟨rfl, rfl, rfl, rfl, rfl, rfl, rfl, rfl⟩

theorem count_gives (f : Summary → Summary) :
    Gives (count f) (fun _ r' => Still r r' ∧ r'.world = r.world) r :=
  ⟨⟨rfl, rfl, rfl, rfl, rfl, rfl, rfl, rfl⟩, rfl⟩

theorem onlyIf_still {p : Prop} [Decidable p] {x : Rx Unit}
    (h : p → Gives x (fun _ r' => Still r r' ∧ r'.world = r.world) r) :
    Gives (onlyIf p x) (fun _ r' => Still r r' ∧ r'.world = r.world) r := by
  rw [Gives, wp_onlyIf]
  exact ⟨h, fun _ => ⟨.refl r, rfl⟩⟩

/-- A name is seen, and nothing else changes. -/
theorem saw_gives (name : Name) : Gives (saw name) (fun _ r' =>
    Still { r with opened := sawIn name r.opened } r' ∧ r'.world = r.world) r := by
  simp only [Gives, saw, wp_bind, wp_get]
  split
  · next dir seen more hopened =>
    rw [wp_ite]
    refine ⟨fun hmem => ?_, fun hmem => ?_⟩
    · refine ⟨⟨rfl, rfl, rfl, rfl, ?_, rfl, rfl, rfl⟩, rfl⟩
      simp [hopened, sawIn, hmem]
    · simp only [wp_bind, wp_set, wp_onlyIf, wp_throw, implies_true, true_and]
      refine fun _ => ⟨⟨rfl, rfl, rfl, rfl, ?_, rfl, rfl, rfl⟩, trivial⟩
      simp [hopened, sawIn, hmem]
  · next hno =>
    refine ⟨⟨rfl, rfl, rfl, rfl, ?_, rfl, rfl, rfl⟩, rfl⟩
    cases hopened : r.opened with
    | nil => rfl
    | cons o more =>
      obtain ⟨dir, _ | seen⟩ := o
      · rfl
      · exact absurd hopened (hno dir seen more)

/-- An entry's place is its spot, and the step is taken. -/
theorem place_gives (name : Name) : Gives (place name) (fun out r' =>
    out = r.spot name ∧ r' = r.stepped ∧
      (r.opened = [] → r.named.isSome → r.placed = 0)) r := by
  simp only [Gives, place, wp_bind, wp_get]
  split
  · next top more hopened =>
    simp only [wp_pure]
    exact ⟨by simp [spot, hopened], by simp [stepped, hopened], by simp [hopened]⟩
  · next hopened =>
    rw [wp_bind, wp_set]
    split
    · next hnamed =>
      exact ⟨by simp [spot, hopened, hnamed], by simp [stepped, hopened], by simp [hnamed]⟩
    · next named hnamed =>
      simp only [wp_bind, wp_onlyIf, wp_throw, wp_pure, implies_true, true_and]
      intro hplaced
      exact ⟨by simp [spot, hopened, hnamed], by simp [stepped, hopened],
        fun _ _ => by simpa using hplaced⟩

/-- An entry is taken away, and what is in it. -/
theorem removeEntry_gives (dir : Fd) (name : Name) (rel : Path) :
    Gives (removeEntry dir name rel) (fun _ r' => Still r r' ∧
      r.disk.RemovedIn r'.disk r.opts.dryRun dir.id name) r := by
  rw [Gives, removeEntry, wp_bind, wp_get, wp_bind, wp_io]
  refine wp_mono (remove_removes r.opts.dryRun (maxDepth + 1) dir name r.world) ?_
    fun _ _ _ => trivial
  intro removed w hw
  rw [wp_bind]
  refine wp_mono (count_gives (r := { r with world := w }) _) ?_ fun _ _ h => h
  rintro - r₁ ⟨hstill, hworld⟩
  have hnext := onlyIf_still (r := r₁) (p := r.opts.dryRun = true)
    (x := count (·.change .deleted rel none none)) fun _ => count_gives _
  refine Gives.mono hnext ?_
  rintro - r₂ ⟨hstill', hworld'⟩
  refine ⟨((still_world w).trans hstill).trans hstill', ?_⟩
  have hdisk : r₂.disk = w.disk := congrArg World.disk (hworld'.trans hworld)
  exact hdisk ▸ hw

/-- What there is where directory `name` of `parent` is to be, and that it is gone
if the directory is to be made. -/
theorem clearWay_gives (parent : Dir) (name : Name) (rel : Path) :
    Gives (clearWay parent name rel) (fun made r' => Still r r' ∧
      match parent.fd with
      | none => made = true ∧ r'.disk = r.disk
      | some fd =>
        if made then NoDir (r.disk.entry fd.id name) ∧
          r.disk.RemovedIn r'.disk r.opts.dryRun fd.id name
        else r'.disk = r.disk ∧ ∃ id, r.disk.entry fd.id name = some (.dir id)) r := by
  rw [Gives, clearWay, wp_bind, wp_get, wp_bind, wp_io]
  cases hfd : parent.fd with
  | none =>
    simp only [statIn, hfd, wp_pure, Option.map_none]
    exact ⟨.refl r, trivial, trivial⟩
  | some fd =>
    simp only [statIn, hfd, wp_stat]
    cases hentry : r.disk.entry fd.id name with
    | none =>
      simp only [Option.map_none, wp_pure, if_true]
      exact ⟨.refl r, by simp [NoDir], .refl⟩
    | some e =>
      have hremove : NoDir (some e) → wp
          (do onlyIf (r.opts.delete = false) (throw (.new .notADirectory rel.bytes))
              removeEntry fd name rel
              return true)
          (fun made r' => Still r r' ∧
            if made = true then NoDir (some e) ∧
              r.disk.RemovedIn r'.disk r.opts.dryRun fd.id name
            else r'.disk = r.disk ∧ ∃ id, some e = some (.dir id)) (fun _ _ => True) r := by
        intro hno
        simp only [wp_bind, wp_onlyIf, wp_throw, implies_true, true_and, wp_pure, if_true]
        refine fun _ => Gives.mono (removeEntry_gives fd name rel) ?_
        exact fun _ r' h => ⟨h.1, hno, h.2⟩
      cases e with
      | dir id =>
        simp only [Option.map_some, Disk.statOf, wp_pure, Bool.false_eq_true, if_false]
        exact ⟨.refl r, trivial, id, rfl⟩
      | link => trivial
      | file bytes mode mtime => exact hremove (by simp [NoDir])
      | other => exact hremove (by simp [NoDir])

/-- A directory that is entered is there, made or found. -/
theorem openMade_gives {parent : Dir} {name : Name} {rel : Path} {made : Bool} {d₀ : Disk} {top : DirId}
    (hs : d₀.Sound top)
    (hr : match parent.fd with
      | none => made = true ∧ r.disk = d₀
      | some fd =>
        if made then NoDir (d₀.entry fd.id name) ∧ d₀.RemovedIn r.disk r.opts.dryRun fd.id name
        else r.disk = d₀ ∧ ∃ id, d₀.entry fd.id name = some (.dir id)) :
    Gives (openMade parent name rel made) (fun fd r' => Still r r' ∧
      EnteredIn parent name r.opts.dryRun d₀ r'.disk fd) r := by
  rw [Gives, openMade, wp_bind, wp_get]
  cases hfd : parent.fd with
  | none =>
    rw [hfd] at hr
    simp only [EnteredIn, hfd, wp_pure, and_true]
    exact ⟨.refl r, by rw [hr.2], by rw [hr.2]⟩
  | some fd =>
    rw [hfd] at hr
    simp only [EnteredIn, hfd]
    cases made with
    | false =>
      simp only [Bool.false_eq_true, if_false] at hr
      simp only [Bool.and_false, wp_bind, wp_onlyIf, Bool.false_eq_true, false_implies, true_and,
        not_false_eq_true, forall_const, wp_map, wp_io]
      refine Gives.mono (openDir_gives fd name) ?_
      rintro f w ⟨hdisk, hentry⟩
      refine ⟨still_world w, ?_⟩
      have hd : w.disk = d₀ := hdisk.trans hr.1
      rw [← disk, hr.1] at hentry
      split
      · exact ⟨⟨by rw [disk, hd], by rw [disk, hd]⟩, fun f' hf' => Option.some_inj.mp hf' ▸ hentry⟩
      · exact ⟨f, rfl, .there hentry ⟨by rw [disk, hd], by rw [disk, hd]⟩⟩
    | true =>
      simp only [if_true] at hr
      obtain ⟨hno, hremoved⟩ := hr
      cases hdry : r.opts.dryRun with
      | true =>
        simp only [Bool.and_self, wp_pure, if_true]
        rw [hdry] at hremoved
        exact ⟨.refl r, hremoved.dry rfl, by simp⟩
      | false =>
        simp only [Bool.false_and, wp_bind, wp_onlyIf, Bool.false_eq_true, if_false]
        refine ⟨fun _ => ?_, fun h => absurd trivial h⟩
        rw [wp_io]
        refine Gives.mono (makeDir_gives fd name) ?_
        rintro - w ⟨hnone, hmade⟩
        rw [wp_map, wp_io]
        refine Gives.mono (openDir_gives fd name) ?_
        rintro f w' ⟨hdisk, hentry⟩
        refine ⟨(still_world w).trans (still_world w'), f, rfl, ?_⟩
        have hs₁ := hs.went hremoved.went
        have hmake := Disk.makeDir_entry r.disk fd.id name fun m => hs₁.fresh (le_refl _)
        -- What was removed was no directory, so no other entry went with it.
        have hsame : setAt r.disk.entry fd.id name (some (.dir r.disk.next)) =
            setAt d₀.entry fd.id name (some (.dir r.disk.next)) := by
          funext d m
          by_cases hm : d = fd.id ∧ m = name
          · rw [hm.1, hm.2, setAt_self, setAt_self]
          · rw [setAt_ne _ hm, setAt_ne _ hm]
            rcases hremoved.went.entry d m with heq | ⟨hunder, -⟩
            · exact heq
            · cases hunder with
              | here => exact absurd ⟨rfl, rfl⟩ hm
              | inside he hsub => exact absurd (he.trans (by rw [Entry.sub_eq_some.mp hsub])) (hno _)
        rw [hmade, hmake, setAt_self] at hentry
        have hid : r.disk.next = f.id := by simpa using hentry
        have hdisk' : w'.disk = r.disk.makeDir fd.id name := hdisk.trans hmade
        refine .made hno (hid.symm.trans hremoved.went.next) ?_ ?_
        · rw [← hid, ← hsame, ← hmake, ← hdisk']
        · show w'.disk.next = _
          rw [hdisk', Disk.makeDir_next, hremoved.went.next]

/-- A directory is entered: it is open, and at its place. -/
theorem enter_gives {parent : Dir} {name : Name} {mode : Mode} {mtime : Option Time} {top : DirId}
    (hs : r.disk.Sound top) :
    Gives (enter parent name mode mtime) (fun _ r' => ∃ dir : Dir,
      dir.rel = parent.rel ++ [name] ∧
      Still { r with
        opened := ⟨dir, if r.opts.delete then some [] else none⟩ :: sawIn name r.opened
        tree := if r.opened.isEmpty then dir.rel else r.tree } r' ∧
      EnteredIn parent name r.opts.dryRun r.disk r'.disk dir.fd) r := by
  rw [Gives, enter, wp_bind, wp_get, wp_bind, wp_get, wp_bind, wp_onlyIf]
  refine ⟨fun _ => trivial, fun _ => ?_⟩
  refine Gives.bind (saw_gives name) ?_
  rintro _ r₁ ⟨hstill₁, hworld₁⟩
  have hdisk₁ : r₁.disk = r.disk := congrArg World.disk hworld₁
  refine Gives.bind (clearWay_gives parent name _) ?_
  rintro made r₂ ⟨hstill₂, hclear⟩
  rw [hdisk₁, hstill₁.opts] at hclear
  refine Gives.bind (onlyIf_still fun _ => count_gives _) ?_
  rintro _ r₃ ⟨hstill₃, hworld₃⟩
  refine Gives.bind (onlyIf_still fun _ => count_gives _) ?_
  rintro _ r₄ ⟨hstill₄, hworld₄⟩
  have hdisk₄ : r₄.disk = r₂.disk := congrArg World.disk (hworld₄.trans hworld₃)
  have hstill := ((hstill₁.trans hstill₂).trans hstill₃).trans hstill₄
  rw [← hdisk₄] at hclear
  have hopts : r₄.opts = r.opts := hstill.opts
  rw [← hopts] at hclear
  refine Gives.bind (openMade_gives hs hclear) ?_
  rintro fd r₅ ⟨hstill₅, hentered⟩
  have hend := hstill.trans hstill₅
  have hempty : r₅.opened.isEmpty = r.opened.isEmpty := by
    rw [hend.opened]
    cases r.opened with
    | nil => rfl
    | cons o more => obtain ⟨dir, _ | seen⟩ := o <;> rfl
  refine ⟨⟨r₅.tags, fd, parent.rel ++ [name], if made || r.opts.keepTimes then some mode else none,
    mtime.filter fun _ => r.opts.keepTimes, some parent.tag⟩, rfl, ?_, hopts ▸ hentered⟩
  refine ⟨hend.opts, hend.top, hend.named, hend.placed, ?_, ?_, hend.pending, hend.receiving⟩
  · show _ :: r₅.opened = _
    rw [hend.opened, hend.opts]
  · show (if r₅.opened.isEmpty then _ else _) = _
    rw [hempty, hend.tree]

/-! #### Ends of directories -/

/-- A directory that settles changes no entry. -/
theorem settle_gives (dir : Dir) :
    Gives (settle dir) (fun _ r' => Still r r' ∧ r.disk.Alike r'.disk) r := by
  have hrefl : Still r r ∧ r.disk.Alike r.disk := ⟨.refl r, .refl⟩
  rw [Gives, settle, wp_onSome]
  refine ⟨fun fd _ => ?_, fun _ => hrefl⟩
  have htime : ∀ r₁ : Receiver, Still r r₁ ∧ r.disk.Alike r₁.disk →
      Gives (onSome dir.mtime fun time => io dir.rel (setMtime (.dir fd) time))
        (fun _ r' => Still r r' ∧ r.disk.Alike r'.disk) r₁ := by
    intro r₁ h₁
    rw [Gives, wp_onSome]
    refine ⟨fun time _ => ?_, fun _ => h₁⟩
    rw [wp_io]
    refine wp_mono (setMtime_gives (.dir fd) time) ?_ fun _ _ _ => trivial
    exact fun _ w hw => ⟨h₁.1.trans (still_world w), h₁.2.trans hw.alike⟩
  rw [wp_bind, wp_onSome]
  refine ⟨fun mode _ => ?_, fun _ => htime r hrefl⟩
  rw [wp_io]
  refine wp_mono (chmod_gives (.dir fd) mode.landed) ?_ fun _ _ _ => trivial
  exact fun _ w hw => htime _ ⟨still_world w, hw.alike⟩

/-- Nor do those that are ready. -/
theorem closeReady_gives (turns : ℕ) :
    Gives (closeReady turns) (fun _ r' => Still r r' ∧ r.disk.Alike r'.disk) r := by
  induction turns generalizing r with
  | zero => exact ⟨.refl r, .refl⟩
  | succ turns ih =>
    rw [Gives, closeReady, wp_bind, wp_get]
    split
    · exact ⟨.refl r, .refl⟩
    · next dir i _ =>
      rw [wp_bind, wp_set, wp_bind]
      refine wp_mono (settle_gives dir) ?_ fun _ _ h => h
      rintro - r₁ ⟨hstill, halike⟩
      refine Gives.mono ih ?_
      rintro - r₂ ⟨hstill', halike'⟩
      have hset : Still r { r with closing := swapRemove r.closing i } :=
        ⟨rfl, rfl, rfl, rfl, rfl, rfl, rfl, rfl⟩
      exact ⟨(hset.trans hstill).trans hstill', halike.trans halike'⟩

/-- Nor all of them. -/
theorem closeAll_gives :
    Gives closeAll (fun _ r' => Still r r' ∧ r.disk.Alike r'.disk) r := by
  rw [Gives, closeAll, wp_bind, wp_get]
  exact closeReady_gives _

/-- An entry is pruned only if it was not sent. -/
theorem prune_gives (dir : Dir) (fd : Fd) (seen : List Name) (entry : Name) :
    Gives (prune dir fd seen entry) (fun _ r' => Still r r' ∧
      (r'.disk = r.disk ∨ r.Prunes dir seen entry ∧
        r.disk.RemovedIn r'.disk r.opts.dryRun fd.id entry)) r := by
  rw [Gives, prune, wp_bind, wp_get, wp_onlyIf]
  refine ⟨fun hprunes => ?_, fun _ => ⟨.refl r, .inl rfl⟩⟩
  refine Gives.mono (removeEntry_gives fd entry _) ?_
  exact fun _ r' h => ⟨h.1, .inr ⟨hprunes, h.2⟩⟩

/-- Which it is, is up to what was seen. -/
theorem Prunes.still {r' : Receiver} {dir : Dir} {seen : List Name} {name : Name}
    (h : Still r r') : r'.Prunes dir seen name ↔ r.Prunes dir seen name := by
  rw [Prunes, Prunes, path, path, h.opts, h.tree]

/-- A directory is pruned of what was not sent to it. -/
theorem pruneAll_gives (dir : Dir) (seen : List Name) :
    Gives (pruneAll dir seen) (fun _ r' => Still r r' ∧ Pruned r dir seen r.disk r'.disk) r := by
  have hrefl : ∀ r₁ : Receiver, r₁.disk = r.disk → Pruned r dir seen r.disk r₁.disk := fun r₁ h =>
    ⟨fun d n => .inl (by rw [h]), by rw [h], fun _ => ⟨by rw [h], by rw [h]⟩⟩
  rw [Gives, pruneAll, wp_bind, wp_modify, wp_onSome]
  refine ⟨fun fd hfd => ?_, fun _ => ⟨⟨rfl, rfl, rfl, rfl, rfl, rfl, rfl, rfl⟩, hrefl _ rfl⟩⟩
  rw [wp_bind, wp_io, wp_names]
  -- Along the names, with what was pruned so far.
  suffices hall : ∀ (entries : List Name) (r₁ : Receiver), Still r r₁ →
      Pruned r dir seen r.disk r₁.disk → Gives (entries.forM (prune dir fd seen))
        (fun _ r' => Still r r' ∧ Pruned r dir seen r.disk r'.disk) r₁ from
    hall _ _ ⟨rfl, rfl, rfl, rfl, rfl, rfl, rfl, rfl⟩ (hrefl _ rfl)
  intro entries
  induction entries with
  | nil => exact fun r₁ hstill hpruned => ⟨hstill, hpruned⟩
  | cons entry entries ih =>
    intro r₁ hstill hpruned
    refine Gives.bind (prune_gives dir fd seen entry) ?_
    rintro _ r₂ ⟨hstill₂, h₂⟩
    refine ih r₂ (hstill.trans hstill₂) ?_
    rcases h₂ with hsame | ⟨hprunes, hremoved⟩
    · rw [hsame]
      exact hpruned
    · refine ⟨fun d n => ?_, hremoved.went.next.trans hpruned.next, fun hdry => ?_⟩
      · rcases hremoved.went.entry d n with heq | ⟨hunder, hnone⟩
        · rw [heq]
          exact hpruned.entry d n
        · refine .inr ⟨hnone, fd, entry, hfd, (Prunes.still hstill).mp hprunes, ?_⟩
          exact hunder.mono fun d' m => (hpruned.entry d' m).imp_right And.left
      · exact (hpruned.dry hdry).trans (hremoved.dry (hstill.opts ▸ hdry))

/-- A directory is left, pruned if it is to be. -/
theorem leave_gives : Gives leave (fun _ r' => ∃ dir seen more,
    r.opened = ⟨dir, seen⟩ :: more ∧ Still { r with opened := more } r' ∧
    (seen = none → r.disk.Alike r'.disk) ∧
    ∀ names, seen = some names → Pruned r dir names r.disk r'.disk) r := by
  rw [Gives, leave, wp_bind, wp_get]
  split
  · trivial
  · next dir seen more hopened =>
    rw [wp_bind, wp_set, wp_bind]
    have hrest : ∀ r₁ : Receiver, Still { r with opened := more } r₁ →
        Gives (do
          onlyIf (r.opts.dryRun = false) (modify fun r => { r with closing := r.closing ++ [dir] })
          closeAll)
          (fun _ r' => Still { r with opened := more } r' ∧ r₁.disk.Alike r'.disk) r₁ := by
      intro r₁ hstill
      have hclose : ∀ r₂ : Receiver, Still r₁ r₂ → r₂.disk = r₁.disk → Gives closeAll
          (fun _ r' => Still { r with opened := more } r' ∧ r₁.disk.Alike r'.disk) r₂ := by
        intro r₂ hstill₂ hdisk
        refine Gives.mono closeAll_gives ?_
        rintro - r' ⟨hstill', halike⟩
        exact ⟨(hstill.trans hstill₂).trans hstill', hdisk ▸ halike⟩
      rw [Gives, wp_bind, wp_onlyIf]
      exact ⟨fun _ => hclose _ ⟨rfl, rfl, rfl, rfl, rfl, rfl, rfl, rfl⟩ rfl,
        fun _ => hclose r₁ (.refl _) rfl⟩
    rw [wp_onSome]
    refine ⟨fun names hnames => ?_, fun hnone => ?_⟩
    · refine Gives.mono (pruneAll_gives dir names) ?_
      rintro - r₁ ⟨hstill, hpruned⟩
      refine Gives.mono (hrest r₁ hstill) ?_
      rintro - r₂ ⟨hstill₂, halike⟩
      refine ⟨dir, seen, more, hopened, hstill₂, by simp [hnames], ?_⟩
      intro names' hnames'
      rw [hnames] at hnames'
      cases hnames'
      exact ⟨fun d n => by rw [halike.entry]; exact hpruned.entry d n,
        halike.next.trans hpruned.next, fun hdry => (hpruned.dry hdry).trans halike⟩
    · refine Gives.mono (hrest _ (.refl _)) ?_
      rintro - r₂ ⟨hstill₂, halike⟩
      exact ⟨dir, seen, more, hopened, hstill₂, fun _ => halike, by simp [hnone]⟩

/-! #### Files -/

/-- A hash is of the file's bytes, up to the length. -/
theorem hashIn_gives (dir : Fd) (name : Name) (len : Option ℕ) :
    Gives (hashIn digest dir name len) (fun hash w' => w'.disk = r.disk ∧
      ∀ bytes mode mtime, r.disk.entry dir.id name = some (.file bytes mode mtime) →
        hash = digest (bytes.take (len.getD bytes.length))) r.world := by
  refine Gives.bind (openFile_gives dir name) ?_
  rintro file w ⟨hdisk, _, hfile⟩
  refine Gives.bind (content_gives file) ?_
  rintro bytes w' ⟨hw, hbytes⟩
  refine ⟨hw ▸ hdisk, fun bytes' mode mtime hentry => ?_⟩
  rcases hfile with ⟨fd, rfl, hdir⟩ | rfl
  · rw [← disk] at hdir
    rw [hdir] at hentry
    cases hentry
  · rw [hbytes dir.id name bytes' mode mtime rfl (hdisk ▸ hentry)]
    cases len with
    | none => simp
    | some n => rfl

/-- What an entry's `lstat` says of it. -/
theorem statOf_file {disk : Disk} {e : Entry} (hkind : (disk.statOf e).kind = .file) :
    ∃ bytes mode mtime, e = .file bytes mode mtime ∧ (disk.statOf e).size = bytes.length := by
  cases e with
  | file bytes mode mtime => exact ⟨bytes, mode, mtime, rfl, rfl⟩
  | dir => cases hkind
  | link => cases hkind
  | other => cases hkind

/-- What is there is what the disk has. -/
theorem statIn_gives (dir : Dir) (name : Name) (rel : Path) :
    Gives (io rel (statIn dir name)) (fun there r' => Still r r' ∧ r'.world = r.world ∧
      there = dir.fd.bind fun fd => (r.disk.entry fd.id name).map r.disk.statOf) r := by
  rw [Gives, wp_io, statIn]
  cases hfd : dir.fd with
  | none => exact ⟨.refl r, rfl, rfl⟩
  | some fd => exact ⟨.refl r, rfl, rfl⟩

/-- Not a file of the size a header says. -/
def NoSuchFile (disk : Disk) (d : DirId) (name : Name) (size : ℕ) : Prop :=
  ∀ bytes mode mtime, disk.entry d name = some (.file bytes mode mtime) → bytes.length ≠ size

/-- What is wanted of a file that is not there: all of it, or the rest of a part. -/
theorem want_gives {dir : Dir} {header : FileHeader} {rel : Path}
    (hno : ∀ fd, dir.fd = some fd → NoSuchFile r.disk fd.id header.name header.size) :
    Gives (want digest dir header rel) (fun answer r' =>
      Still { r with opened := sawIn (partName digest header.name) r.opened } r' ∧
      r'.disk = r.disk ∧ (∃ kept head, answer = .want header.id kept head) ∧
      ∀ fd, dir.fd = some fd → Answered digest r.disk fd.id header answer) r := by
  refine Gives.bind (saw_gives _) fun _ r₁ h₁ => ?_
  obtain ⟨hstill₁, hworld₁⟩ := h₁
  refine Gives.bind (statIn_gives dir _ rel) fun there r₂ h₂ => ?_
  obtain ⟨hstill₂, hworld₂, hthere⟩ := h₂
  have hstill := hstill₁.trans hstill₂
  have hdisk₁ : r₁.disk = r.disk := congrArg World.disk hworld₁
  have hdisk₂ : r₂.disk = r.disk := (congrArg World.disk hworld₂).trans hdisk₁
  rw [hdisk₁] at hthere
  have hfresh : (∀ fd, dir.fd = some fd → ∀ bytes mode mtime,
      r.disk.entry fd.id (partName digest header.name) = some (.file bytes mode mtime) →
        bytes = [] ∨ header.size < bytes.length) →
      Gives (pure (.want header.id 0 none) : Rx Answer) (fun answer r' =>
        Still { r with opened := sawIn (partName digest header.name) r.opened } r' ∧
        r'.disk = r.disk ∧ (∃ kept head, answer = .want header.id kept head) ∧
        ∀ fd, dir.fd = some fd → Answered digest r.disk fd.id header answer) r₂ := fun hpart =>
    ⟨hstill, hdisk₂, ⟨0, none, rfl⟩, fun fd hfd => .fresh (hno fd hfd) (hpart fd hfd)⟩
  split
  · next st fd hfd =>
    rw [hfd, Option.bind_some] at hthere
    obtain ⟨e, he, hst⟩ := Option.map_eq_some_iff.mp hthere.symm
    rw [Gives, wp_ite]
    refine ⟨fun hkept => ?_, fun hnot => hfresh ?_⟩
    · obtain ⟨bytes, mode, mtime, rfl, hsize⟩ := statOf_file (by rw [hst]; exact hkept.1)
      rw [hst] at hsize
      refine Gives.bind (io_gives rel (hashIn_gives digest fd _ _)) ?_
      rintro head r₃ ⟨hr₃, hdisk₃, hhead⟩
      have hbytes := hhead bytes mode mtime (hdisk₂ ▸ he)
      simp only [Option.getD_some, hsize, List.take_length] at hbytes
      refine ⟨?_, ?_, ⟨_, _, rfl⟩, fun fd' hfd' => ?_⟩
      · rw [hr₃]
        exact hstill.trans (still_world _)
      · rw [disk, hdisk₃, hdisk₂]
      · cases hfd.symm.trans hfd'
        rw [hbytes, hsize]
        rw [hsize] at hkept
        exact .kept (hno fd hfd) he hkept.2.1 hkept.2.2
    · intro fd' hfd' bytes mode mtime hentry
      cases hfd.symm.trans hfd'
      rw [he] at hentry
      cases hentry
      rw [← hst] at hnot
      simp only [Disk.statOf, true_and, not_and_or, not_lt, not_le] at hnot
      exact hnot.imp (fun h => List.eq_nil_of_length_eq_zero (Nat.le_zero.mp h)) id
  · next hnone =>
    refine hfresh fun fd hfd bytes mode mtime hentry => ?_
    rw [hfd, Option.bind_some, hentry] at hthere
    exact absurd hfd (hnone _ fd hthere)

/-- An answer says what is there. -/
theorem answerTo_gives {dir : Dir} {header : FileHeader} {rel : Path} {there : Option Stat}
    (hthere : there = dir.fd.bind fun fd => (r.disk.entry fd.id header.name).map r.disk.statOf) :
    Gives (answerTo digest dir header rel there) (fun answer r' =>
      (Still { r with opened := match answer with
        | .check _ _ => r.opened
        | .want _ _ _ => sawIn (partName digest header.name) r.opened } r' ∧
      r'.disk = r.disk) ∧ answer.id = header.id ∧
      ∀ fd, dir.fd = some fd → NoDir (r.disk.entry fd.id header.name) ∧
        Answered digest r.disk fd.id header answer) r := by
  have hwant : (∀ fd, dir.fd = some fd → NoDir (r.disk.entry fd.id header.name) ∧
      NoSuchFile r.disk fd.id header.name header.size) →
      Gives (want digest dir header rel) (fun answer r' =>
        (Still { r with opened := match answer with
          | .check _ _ => r.opened
          | .want _ _ _ => sawIn (partName digest header.name) r.opened } r' ∧
        r'.disk = r.disk) ∧ answer.id = header.id ∧
        ∀ fd, dir.fd = some fd → NoDir (r.disk.entry fd.id header.name) ∧
          Answered digest r.disk fd.id header answer) r := by
    intro hno
    refine Gives.mono (want_gives digest fun fd hfd => (hno fd hfd).2) ?_
    rintro answer r' ⟨hstill, hdisk, ⟨kept, head, rfl⟩, hanswered⟩
    exact ⟨⟨hstill, hdisk⟩, rfl, fun fd hfd => ⟨(hno fd hfd).1, hanswered fd hfd⟩⟩
  unfold answerTo
  split
  · next st fd hfd =>
    rw [hfd, Option.bind_some] at hthere
    obtain ⟨e, he, hst⟩ := Option.map_eq_some_iff.mp hthere.symm
    split
    · trivial
    · next hdir =>
      have hno : NoDir (r.disk.entry fd.id header.name) := by
        rw [he]
        rintro id hid
        cases hid
        exact hdir (hst ▸ rfl)
      split
      · next hfile =>
        obtain ⟨bytes, mode, mtime, rfl, hsize⟩ := statOf_file (by rw [hst]; exact hfile.1)
        rw [Gives, wp_map]
        refine Gives.mono (io_gives rel (hashIn_gives digest fd _ _)) ?_
        rintro hash r₁ ⟨hr₁, hdisk₁, hhash⟩
        refine ⟨⟨hr₁ ▸ still_world _, hdisk₁⟩, rfl, fun fd' hfd' => ?_⟩
        cases hfd.symm.trans hfd'
        rw [hhash bytes mode mtime he, Option.getD_none, List.take_length]
        exact ⟨hno, .check he (by rw [← hsize, hst, hfile.2])⟩
      · next hfile =>
        refine hwant fun fd' hfd' => ?_
        cases hfd.symm.trans hfd'
        refine ⟨hno, fun bytes mode mtime hentry hlen => ?_⟩
        rw [he] at hentry
        cases hentry
        rw [← hst] at hfile
        exact hfile ⟨rfl, hlen⟩
  · next hfd =>
    split
    · trivial
    · exact hwant fun fd hfd' => by rw [hfd] at hfd'; cases hfd'
  · refine hwant fun fd hfd => ?_
    rw [hfd, Option.bind_some] at hthere
    have hnone : r.disk.entry fd.id header.name = none := by
      rw [← Option.map_eq_none_iff]
      exact hthere.symm
    exact ⟨by simp [hnone, NoDir], fun _ _ _ h => by rw [hnone] at h; cases h⟩

/-- A file is answered, and waits. -/
theorem file_gives (dir : Dir) (header : FileHeader) :
    Gives (file digest dir header) (fun answer r' => r.pending.length < WINDOW ∧
      header.id ∉ r.pending.map (·.header.id) ∧ ∃ p : Pending, p.dir = dir ∧ p.header = header ∧
      Still { r with
        opened := sawFor digest header.name answer r.opened
        pending := r.pending ++ [p] } r' ∧
      r'.disk = r.disk ∧ answer.id = header.id ∧
      ∀ fd, dir.fd = some fd → NoDir (r.disk.entry fd.id header.name) ∧
        Answered digest r.disk fd.id header answer) r := by
  rw [Gives, file, wp_bind, wp_get, wp_bind, wp_onlyIf]
  refine ⟨fun _ => trivial, fun hroom => ?_⟩
  rw [not_or, not_le] at hroom
  refine Gives.bind (saw_gives _) ?_
  rintro _ r₁ ⟨hstill₁, hworld₁⟩
  refine Gives.bind (statIn_gives dir _ _) ?_
  rintro there r₂ ⟨hstill₂, hworld₂, hthere⟩
  have hdisk₂ : r₂.disk = r.disk := congrArg World.disk (hworld₂.trans hworld₁)
  rw [show r₁.disk = r₂.disk from congrArg World.disk hworld₂.symm] at hthere
  refine Gives.bind (answerTo_gives digest hthere) ?_
  rintro answer r₃ ⟨⟨hstill₃, hdisk₃⟩, hid, hanswered⟩
  have hstill := hstill₁.trans hstill₂
  rw [hdisk₂] at hanswered
  refine ⟨hroom.1, hroom.2, ⟨dir, header, dir.rel ++ [header.name], there.isSome,
    (there.filter fun e => e.kind = .file).map Stat.size⟩, rfl, rfl,
    ⟨hstill₃.opts.trans hstill.opts, hstill₃.top.trans hstill.top,
      hstill₃.named.trans hstill.named, hstill₃.placed.trans hstill.placed, ?_,
      hstill₃.tree.trans hstill.tree, ?_, hstill₃.receiving.trans hstill.receiving⟩,
    hdisk₃.trans hdisk₂, hid, hanswered⟩
  · show r₃.opened = _
    rw [hstill₃.opened]
    cases answer with
    | check => exact hstill.opened
    | want => exact congrArg (sawIn _) hstill.opened
  · show r₃.pending ++ _ = _
    rw [hstill₃.pending]
    exact congrArg (· ++ _) hstill.pending

/-- A file is taken of those that wait. -/
theorem take_gives (id : FileId) : Gives (take id) (fun p r' =>
    r.pending.find? (·.header.id = id) = some p ∧
    r' = { r with pending := r.pending.filter (·.header.id ≠ id) }) r := by
  simp only [Gives, take, wp_bind, wp_get]
  split
  · trivial
  · next p hfind =>
    simp only [wp_bind, wp_set, wp_pure]
    exact ⟨hfind, trivial⟩

/-- A file that is written is counted. -/
theorem wrote_gives (p : Pending) (start : ℕ) :
    Gives (wrote p start) (fun _ r' => Still r r' ∧ r'.world = r.world) r := by
  rw [Gives, wrote, wp_bind, wp_get]
  refine Gives.bind (count_gives _) ?_
  rintro _ r₁ ⟨hstill₁, hworld₁⟩
  refine Gives.bind (onlyIf_still fun _ => count_gives _) ?_
  rintro _ r₂ ⟨hstill₂, hworld₂⟩
  refine Gives.mono (onlyIf_still fun _ => count_gives _) ?_
  rintro - r₃ ⟨hstill₃, hworld₃⟩
  exact ⟨(hstill₁.trans hstill₂).trans hstill₃, hworld₃.trans (hworld₂.trans hworld₁)⟩

/-- A file's part is opened. -/
theorem data_gives (id : FileId) (start : ℕ) : Gives (data digest id start) (fun _ r' =>
    ∃ p fd old mode mtime, r.pending.find? (·.header.id = id) = some p ∧ p.dir.fd = some fd ∧
      Still { r with
        pending := r.pending.filter (·.header.id ≠ id)
        receiving := some ⟨p, fd, .file fd.id (partName digest p.header.name), start, start⟩ } r' ∧
      createdFrom (start = 0) (r.disk.entry fd.id (partName digest p.header.name)) = some old ∧
      r.disk.Sets r'.disk fd.id (partName digest p.header.name)
        (some (.file (resized start old) mode mtime))) r := by
  refine Gives.bind (take_gives id) ?_
  rintro p r₁ ⟨hfind, hr₁⟩
  split
  · trivial
  · next fd hfd =>
    refine Gives.bind (io_gives p.rel (create_gives fd _ _)) ?_
    rintro part r₂ ⟨hr₂, rfl, old, mode, mtime, hold, hsets⟩
    refine Gives.bind (io_gives p.rel (edit_gives fd.id _ _)) ?_
    rintro - r₃ ⟨hr₃, old', mode', mtime', hold', hsets'⟩
    rw [hsets.entry, setAt_self] at hold'
    obtain ⟨rfl, rfl, rfl⟩ : old = old' ∧ mode = mode' ∧ mtime = mtime' := by simpa using hold'
    rw [hr₁] at hold hsets
    refine ⟨p, fd, old, mode, none, hfind, hfd, ?_, by simpa using hold, hsets.again hsets'⟩
    rw [hr₃, hr₂, hr₁]
    exact ⟨rfl, rfl, rfl, rfl, rfl, rfl, rfl, rfl⟩

/-- A chunk is added to it. -/
theorem chunk_gives (rc : Receiving) (bytes : Bytes) : Gives (chunk rc bytes) (fun _ r' =>
    Still { r with receiving := some { rc with offset := rc.offset + bytes.length } } r' ∧
    ∀ d n, rc.part = .file d n → ∃ old mode mtime,
      r.disk.entry d n = some (.file old mode mtime) ∧
      r.disk.Sets r'.disk d n (some (.file (overwritten rc.offset bytes old) mode none))) r := by
  refine Gives.bind (count_gives _) ?_
  rintro _ r₁ ⟨hstill₁, hworld₁⟩
  have hdisk₁ : r₁.disk = r.disk := congrArg World.disk hworld₁
  have hwrite : Gives (writeAt rc.part bytes rc.offset) (fun _ w' => ∀ d n, rc.part = .file d n →
      ∃ old mode mtime, r.disk.entry d n = some (.file old mode mtime) ∧
        r.disk.Sets w'.disk d n (some (.file (overwritten rc.offset bytes old) mode none))) r₁.world := by
    cases hpart : rc.part with
    | dir fd => trivial
    | file d n =>
      refine Gives.mono (edit_gives d n _) fun _ w h d' n' hfile => ?_
      cases hfile
      rw [← hdisk₁]
      exact h
  refine Gives.bind (io_gives rc.file.rel hwrite) ?_
  rintro _ r₂ ⟨hr₂, hsets⟩
  refine ⟨?_, hsets⟩
  rw [hr₂]
  exact ⟨hstill₁.opts, hstill₁.top, hstill₁.named, hstill₁.placed, hstill₁.opened, hstill₁.tree,
    hstill₁.pending, rfl⟩

/-- A part that was touched is renamed. -/
theorem touched_rename {disk disk₁ : Disk} {d : DirId} {part name : Name} {e' : Entry}
    {f : DirId → Name → Option Entry} (htouched : disk.Touched disk₁ (.file d part))
    (hpart : disk₁.entry d part = some e') (hno : NoDir (some e'))
    (hname : NoDir (disk₁.entry d name))
    (hf : f = setAt (setAt disk₁.entry d part none) d name (some e')) :
    ∃ e e', disk.entry d part = some e ∧ SameBytes (some e) (some e') ∧ NoDir (some e) ∧
      NoDir (disk.entry d name) ∧ f = setAt (setAt disk.entry d part none) d name (some e') := by
  have hdir : ∀ {o o' : Option Entry}, SameBytes o o' → NoDir o' → NoDir o := by
    rintro o o' (rfl | ⟨bytes, mode, mtime, mode', mtime', rfl, -⟩) ho
    · exact ho
    · simp [NoDir]
  have hsame := htouched.same d part
  rw [hpart] at hsame
  obtain ⟨e, he⟩ : ∃ e, disk.entry d part = some e := by
    rcases hsame with heq | ⟨bytes, mode, mtime, mode', mtime', heq, -⟩
    · exact ⟨e', heq.symm⟩
    · exact ⟨_, heq⟩
  rw [he] at hsame
  refine ⟨e, e', he, hsame, hdir hsame hno, hdir (htouched.same d name) hname, ?_⟩
  rw [hf]
  refine congrArg (fun g => setAt g d name (some e')) (funext fun d' => funext fun m => ?_)
  by_cases hm : d' = d ∧ m = part
  · obtain ⟨rfl, rfl⟩ := hm
    rw [setAt_self, setAt_self]
  · rw [setAt_ne _ hm, setAt_ne _ hm]
    rcases htouched.entry d' m with heq | ⟨hfile, -⟩
    · exact heq
    · cases hfile
      exact absurd ⟨rfl, rfl⟩ hm

/-- The part gets the file's name. -/
theorem finish_gives (rc : Receiving) : Gives (finish digest rc) (fun _ r' =>
    Still { r with receiving := none } r' ∧ r'.disk.next = r.disk.next ∧
    (rc.part = .file rc.fd.id (partName digest rc.file.header.name) → ∃ e e',
      r.disk.entry rc.fd.id (partName digest rc.file.header.name) = some e ∧
      SameBytes (some e) (some e') ∧ NoDir (some e) ∧
      NoDir (r.disk.entry rc.fd.id rc.file.header.name) ∧
      r'.disk.entry = setAt (setAt r.disk.entry rc.fd.id
        (partName digest rc.file.header.name) none) rc.fd.id rc.file.header.name (some e'))) r := by
  rw [Gives, finish, wp_bind, wp_get, wp_bind, wp_set, wp_bind, wp_io]
  refine wp_mono (chmod_gives rc.part _) ?_ fun _ _ h => h.elim
  rintro - w₁ htouched₁
  have htime : Gives (onSome (rc.file.header.mtime.filter fun _ => r.opts.keepTimes) fun time =>
      io rc.file.rel (setMtime rc.part time))
      (fun _ r' => Still { r with receiving := none } r' ∧ r.disk.Touched r'.disk rc.part)
      { r with receiving := none, world := w₁ } := by
    rw [Gives, wp_onSome]
    refine ⟨fun time _ => ?_, fun _ => ⟨still_world w₁, htouched₁⟩⟩
    rw [wp_io]
    refine wp_mono (setMtime_gives rc.part time) ?_ fun _ _ _ => trivial
    exact fun _ w₂ htouched₂ => ⟨still_world w₂, htouched₁.trans htouched₂⟩
  refine Gives.bind htime ?_
  rintro _ r₂ ⟨hstill₂, htouched⟩
  refine Gives.bind (io_gives rc.file.rel (rename_gives rc.fd _ _)) ?_
  rintro - r₃ ⟨hr₃, e, he, hno, hname, hentry, hnext⟩
  refine Gives.bind (wrote_gives rc.file rc.start) ?_
  rintro _ r₄ ⟨hstill₄, hworld₄⟩
  refine Gives.mono closeAll_gives ?_
  rintro - r₅ ⟨hstill₅, halike₅⟩
  have hdisk₄ : r₄.disk = r₃.disk := congrArg World.disk hworld₄
  rw [hdisk₄] at halike₅
  refine ⟨?_, halike₅.next.trans (hnext.trans htouched.next), fun hpart => ?_⟩
  · have hstill₃ : Still r₂ r₃ := hr₃ ▸ still_world _
    exact ((hstill₂.trans hstill₃).trans hstill₄).trans hstill₅
  · rw [hpart] at htouched
    exact touched_rename htouched he hno hname (halike₅.entry.trans hentry)

/-- A file that differs waits no more. -/
theorem differs_gives (id : FileId) (start : ℕ) : Gives (differs id start) (fun _ r' => ∃ p,
    r.pending.find? (·.header.id = id) = some p ∧
    Still { r with pending := r.pending.filter (·.header.id ≠ id) } r' ∧ r'.disk = r.disk) r := by
  refine Gives.bind (take_gives id) ?_
  rintro p r₁ ⟨hfind, hr₁⟩
  refine Gives.bind (count_gives _) ?_
  rintro _ r₂ ⟨hstill₂, hworld₂⟩
  refine Gives.mono (wrote_gives p start) ?_
  rintro - r₃ ⟨hstill₃, hworld₃⟩
  rw [hr₁] at hstill₂ hworld₂
  exact ⟨p, hfind, hstill₂.trans hstill₃, congrArg World.disk (hworld₃.trans hworld₂)⟩

/-- A file's mode and time are set, and its bytes stay. -/
theorem touch_gives (fd : Fd) (p : Pending) (keepTimes : Bool) :
    Gives (touch fd p keepTimes) (fun _ r' => Still r r' ∧ r'.disk.next = r.disk.next ∧
      (r.disk.entry fd.id p.header.name).isSome ∧
      ∀ d n, SameBytes (r.disk.entry d n) (r'.disk.entry d n)) r := by
  refine Gives.bind (io_gives p.rel (openFile_gives fd _)) ?_
  rintro file r₁ ⟨hr₁, hdisk₁, hsome, -⟩
  refine Gives.bind (io_gives p.rel (statOpened_gives file)) ?_
  rintro here r₂ ⟨hr₂, hworld₂⟩
  have hdisk₂ : r₂.disk = r.disk := (congrArg World.disk hworld₂).trans hdisk₁
  have hstill₂ : Still r r₂ :=
    (show Still r r₁ from hr₁ ▸ still_world _).trans (hr₂ ▸ still_world _)
  have hmode : Gives (onlyIf (here.mode ≠ p.header.mode.landed)
      (io p.rel (chmod file p.header.mode.landed)))
      (fun _ r' => Still r r' ∧ r.disk.Touched r'.disk file) r₂ := by
    rw [Gives, wp_onlyIf]
    refine ⟨fun _ => ?_, fun _ => ⟨hstill₂, hdisk₂ ▸ .refl⟩⟩
    rw [wp_io]
    refine wp_mono (chmod_gives file _) ?_ fun _ _ h => h.elim
    exact fun _ w hw => ⟨hstill₂.trans (still_world w), hdisk₂ ▸ hw⟩
  refine Gives.bind hmode ?_
  rintro _ r₃ ⟨hstill₃, htouched₃⟩
  have htime : Gives (onSome (p.header.mtime.filter fun t =>
      keepTimes && decide (here.mtime ≠ some t)) fun time => io p.rel (setMtime file time))
      (fun _ r' => Still r r' ∧ r.disk.Touched r'.disk file) r₃ := by
    rw [Gives, wp_onSome]
    refine ⟨fun time _ => ?_, fun _ => ⟨hstill₃, htouched₃⟩⟩
    rw [wp_io]
    refine wp_mono (setMtime_gives file time) ?_ fun _ _ _ => trivial
    exact fun _ w hw => ⟨hstill₃.trans (still_world w), htouched₃.trans hw⟩
  refine Gives.bind htime ?_
  rintro _ r₄ ⟨hstill₄, htouched₄⟩
  refine Gives.mono closeAll_gives ?_
  rintro - r₅ ⟨hstill₅, halike₅⟩
  refine ⟨hstill₄.trans hstill₅, halike₅.next.trans htouched₄.next, hsome, fun d n => ?_⟩
  rw [halike₅.entry]
  exact htouched₄.same d n

/-- A file that is the same waits no more, and keeps its bytes. -/
theorem same_gives (id : FileId) : Gives (same id) (fun _ r' => ∃ p,
    r.pending.find? (·.header.id = id) = some p ∧
    Still { r with pending := r.pending.filter (·.header.id ≠ id) } r' ∧
    r'.disk.next = r.disk.next ∧ (∀ d n, SameBytes (r.disk.entry d n) (r'.disk.entry d n)) ∧
    (r.opts.dryRun = true → r.disk.Alike r'.disk) ∧
    (r.opts.dryRun = false → ∃ fd, p.dir.fd = some fd ∧
      (r.disk.entry fd.id p.header.name).isSome)) r := by
  refine Gives.bind (take_gives id) ?_
  rintro p r₁ ⟨hfind, hr₁⟩
  refine Gives.bind (count_gives _) ?_
  rintro _ r₂ ⟨hstill₂, hworld₂⟩
  rw [hr₁] at hstill₂ hworld₂
  have hdisk₂ : r₂.disk = r.disk := congrArg World.disk hworld₂
  rw [Gives, wp_bind, wp_get]
  dsimp only
  split
  · next hdry =>
    rw [hstill₂.opts] at hdry
    exact ⟨p, hfind, hstill₂, by rw [hdisk₂], fun d n => .inl (by rw [hdisk₂]),
      fun _ => ⟨by rw [hdisk₂], by rw [hdisk₂]⟩, fun h => absurd (hdry.symm.trans h) (by simp)⟩
  · trivial
  · next fd hdry hfd =>
    rw [hstill₂.opts] at hdry
    refine Gives.mono (touch_gives fd p _) ?_
    rintro - r₃ ⟨hstill₃, hnext, hsome, hsame⟩
    rw [hdisk₂] at hnext hsome hsame
    exact ⟨p, hfind, hstill₂.trans hstill₃, hnext, hsame,
      fun h => absurd (hdry.symm.trans h) (by simp), fun _ => ⟨fd, hfd, hsome⟩⟩

/-! #### Symlinks -/

/-- A link takes another's place at once. -/
theorem replaceLink_gives {w : World} (fd : Fd) (name : Name) (link : LinkTarget) :
    Gives (replaceLink digest fd name link) (fun _ w' => ∃ mid : Disk,
      w.disk.Went mid fd.id (partName digest name) ∧ mid.entry fd.id (partName digest name) = none ∧
      mid.Sets w'.disk fd.id name (some (.link link.bytes))) w := by
  have hignore : Gives (ignore (remove false 1 fd (partName digest name)))
      (fun _ w₁ => w.disk.Went w₁.disk fd.id (partName digest name)) w := by
    refine wp_ignore (wp_mono (remove_removes false 1 fd _ w) ?_ ?_)
    · exact fun _ _ h => h.went
    · exact fun _ _ h => h.went
  refine Gives.bind hignore fun _ w₁ hwent => ?_
  refine Gives.bind (symlinkAt_gives fd _ link.bytes) ?_
  rintro _ w₂ ⟨hnone, hsets⟩
  refine Gives.mono (rename_gives fd _ name) ?_
  rintro - w₃ ⟨e, he, -, -, hentry, hnext⟩
  rw [hsets.entry, setAt_self] at he
  cases he
  refine ⟨w₁.disk, hwent, hnone, ?_, hnext.trans hsets.next⟩
  rw [hentry, hsets.entry, setAt_setAt]
  refine congrArg (fun g => setAt g fd.id name (some (Entry.link link.bytes)))
    (funext fun d => funext fun m => ?_)
  by_cases hm : d = fd.id ∧ m = partName digest name
  · rw [hm.1, hm.2, setAt_self, hnone]
  · rw [setAt_ne _ hm]

/-- A link is laid, where it is not there. -/
theorem layLink_gives {dir : Dir} {name : Name} {link : LinkTarget} {rel : Path}
    {there : Option Kind}
    (hthere : there = dir.fd.bind fun fd => (r.disk.entry fd.id name).map Entry.kind)
    (hdir : there ≠ some .dir)
    (hother : ∀ fd, dir.fd = some fd → r.disk.entry fd.id name ≠ some (.link link.bytes)) :
    Gives (layLink digest dir name link rel there) (fun _ r' => Still r r' ∧
      (r.opts.dryRun = true → r.disk.Alike r'.disk) ∧
      (r.opts.dryRun = false → ∃ fd, dir.fd = some fd ∧
        Linked digest r.disk r'.disk fd.id name link)) r := by
  rw [Gives, layLink, wp_bind, wp_get]
  split
  · next hdry =>
    refine Gives.mono (count_gives _) ?_
    rintro - r₁ ⟨hstill, hworld⟩
    have hdisk : r₁.disk = r.disk := congrArg World.disk hworld
    exact ⟨hstill, fun _ => ⟨by rw [hdisk], by rw [hdisk]⟩, by simp [hdry]⟩
  · next fd hdry hfd =>
    rw [wp_io]
    refine Gives.mono (symlinkAt_gives fd name link.bytes) ?_
    rintro - w ⟨hentry, hsets⟩
    exact ⟨still_world w, by simp [hdry], fun _ => ⟨fd, hfd, .made hentry hsets⟩⟩
  · next fd kind hdry hfd =>
    rw [wp_io]
    refine Gives.mono (replaceLink_gives digest fd name link) ?_
    rintro - w ⟨mid, hwent, hnone, hsets⟩
    rw [hfd, Option.bind_some] at hthere
    obtain ⟨e, he, hkind⟩ := Option.map_eq_some_iff.mp hthere.symm
    refine ⟨still_world w, by simp [hdry],
      fun _ => ⟨fd, hfd, .replaced mid ?_ ?_ (hother fd hfd) hwent hnone hsets⟩⟩
    · simp [he]
    · rw [he]
      rintro id hid
      cases hid
      exact hdir (congrArg some hkind.symm)
  · trivial

/-- A link is looked for. -/
theorem linked_gives {dir : Dir} {name : Name} {link : LinkTarget} {there : Option Kind} {w : World}
    (hthere : there = dir.fd.bind fun fd => (w.disk.entry fd.id name).map Entry.kind) :
    Gives (linked dir name link there) (fun same w' => w' = w ∧ (same = true ↔ ∃ fd,
      dir.fd = some fd ∧ w.disk.entry fd.id name = some (.link link.bytes))) w := by
  unfold linked
  split
  · next fd hfd =>
    rw [Gives, wp_map]
    refine Gives.mono (readLink_gives fd name) ?_
    rintro target w' ⟨hw, hentry⟩
    refine ⟨hw, fun hsame => ⟨fd, hfd, of_decide_eq_true hsame ▸ hentry⟩, ?_⟩
    rintro ⟨fd', hfd', hentry'⟩
    cases hfd.symm.trans hfd'
    rw [hentry] at hentry'
    exact decide_eq_true (Entry.link.inj (Option.some_inj.mp hentry'))
  · next hno =>
    refine ⟨rfl, by simp, ?_⟩
    rintro ⟨fd, hfd, hentry⟩
    rw [hfd, Option.bind_some, hentry] at hthere
    exact absurd hthere (hno fd hfd)

theorem statOf_kind (disk : Disk) (e : Entry) : (disk.statOf e).kind = e.kind := by
  cases e <;> rfl

/-- A link that is sent is there. -/
theorem symlink_gives (dir : Dir) (name : Name) (link : LinkTarget) :
    Gives (symlink digest dir name link) (fun _ r' =>
      Still { r with opened := sawIn name r.opened } r' ∧
      (r.opts.dryRun = true → r.disk.Alike r'.disk) ∧
      (r.opts.dryRun = false → ∃ fd, dir.fd = some fd ∧
        Linked digest r.disk r'.disk fd.id name link)) r := by
  refine Gives.bind (saw_gives name) ?_
  rintro _ r₁ ⟨hstill₁, hworld₁⟩
  have hdisk₁ : r₁.disk = r.disk := congrArg World.disk hworld₁
  refine Gives.bind (statIn_gives dir name _) ?_
  rintro there r₂ ⟨hstill₂, hworld₂, hthere⟩
  have hdisk₂ : r₂.disk = r.disk := (congrArg World.disk hworld₂).trans hdisk₁
  have hkind : there.map Stat.kind =
      dir.fd.bind fun fd => (r.disk.entry fd.id name).map Entry.kind := by
    rw [hthere, hdisk₁]
    cases dir.fd with
    | none => rfl
    | some fd => cases h : r.disk.entry fd.id name <;> simp [h, statOf_kind]
  rw [Gives, wp_bind, wp_onlyIf]
  refine ⟨fun _ => trivial, fun hdir => ?_⟩
  -- Nothing is changed to see whether it is there already.
  rw [← hdisk₂] at hkind
  refine Gives.bind (io_gives _ (linked_gives hkind)) ?_
  rintro same r₃ ⟨hr₃, hworld₃, hsame⟩
  have hdisk₃ : r₃.disk = r.disk := (congrArg World.disk hworld₃).trans hdisk₂
  have hstill₃ : Still { r with opened := sawIn name r.opened } r₃ :=
    (hstill₁.trans hstill₂).trans (hr₃ ▸ still_world _)
  have hopts : r₃.opts = r.opts := hstill₃.opts
  rw [← disk, hdisk₂] at hsame
  rw [Gives, wp_onlyIf]
  refine ⟨fun hfalse => ?_, fun htrue => ?_⟩
  · rw [hdisk₂, ← hdisk₃] at hkind
    have hother : ∀ fd, dir.fd = some fd → r₃.disk.entry fd.id name ≠ some (.link link.bytes) := by
      intro fd hfd hentry
      rw [hsame.mpr ⟨fd, hfd, hdisk₃ ▸ hentry⟩] at hfalse
      cases hfalse
    refine Gives.bind (layLink_gives digest hkind hdir hother) ?_
    rintro _ r₄ ⟨hstill₄, hdry₄, hlinked₄⟩
    rw [hdisk₃, hopts] at hdry₄ hlinked₄
    exact ⟨(hstill₃.trans hstill₄).trans ⟨rfl, rfl, rfl, rfl, rfl, rfl, rfl, rfl⟩, hdry₄, hlinked₄⟩
  · have halike : r.disk.Alike r₃.disk := ⟨by rw [hdisk₃], by rw [hdisk₃]⟩
    obtain ⟨fd, hfd, hentry⟩ := hsame.mp (by simpa using htrue)
    exact ⟨hstill₃, fun _ => halike, fun _ => ⟨fd, hfd, .there hentry halike⟩⟩

/-! #### Items -/

/-- The target's own contents. -/
theorem contents_gives {mode : Mode} {mtime : Option Time} {top : DirId} (hs : r.disk.Sound top)
    (hrc : r.receiving = none) (hopened : r.opened = []) :
    Gives (contents mode mtime) (fun _ r' => Does digest r r' (.contents mode mtime) .nothing) r := by
  rw [Gives, contents, wp_bind, wp_get]
  split
  · next named hnamed =>
    refine Gives.bind (place_gives named) ?_
    rintro ⟨parent, name⟩ r₁ ⟨hout, hr₁, hplaced⟩
    simp only [spot, hopened, hnamed, Option.getD_some, Prod.mk.injEq] at hout
    obtain ⟨rfl, rfl⟩ := hout
    simp only [stepped, hopened, List.isEmpty_nil, if_true] at hr₁
    have hdisk : r₁.disk = r.disk := by rw [hr₁]
    refine Gives.mono (enter_gives (hdisk.symm ▸ hs)) ?_
    rintro - r₂ ⟨dir, hrel, hstill, hentered⟩
    rw [hr₁] at hstill hentered
    refine .contentsNamed hrc hopened hnamed (hplaced hopened (by simp [hnamed])) hrel ?_ hentered
    simpa [hopened, sawIn] using hstill
  · next hnamed =>
    simp only [open_, wp_modify, hopened, List.isEmpty_nil, if_true]
    let dir : Dir := ⟨r.tags, r.top.fd, [], none, mtime.filter fun _ => r.opts.keepTimes,
      some r.top.tag⟩
    have hfd : dir.fd = r.top.fd := rfl
    exact .contents hrc hopened hnamed hfd rfl ⟨rfl, rfl, rfl, rfl, rfl, rfl, rfl, rfl⟩ rfl

/-- What comes after a place was found. -/
theorem place_bind_gives {α : Type} {name : Name} {f : Dir × Name → Rx α} {Q : α → Receiver → Prop}
    (h : Gives (f (r.spot name)) Q r.stepped) : Gives (place name >>= f) Q r := by
  refine Gives.bind (place_gives name) ?_
  rintro out r₁ ⟨rfl, rfl, -⟩
  exact h

@[simp] theorem stepped_disk : r.stepped.disk = r.disk := by
  unfold stepped
  split <;> rfl

@[simp] theorem stepped_opts : r.stepped.opts = r.opts := by
  unfold stepped
  split <;> rfl

@[simp] theorem stepped_opened : r.stepped.opened = r.opened := by
  unfold stepped
  split <;> rfl

@[simp] theorem stepped_tree : r.stepped.tree = r.tree := by
  unfold stepped
  split <;> rfl

@[simp] theorem stepped_pending : r.stepped.pending = r.pending := by
  unfold stepped
  split <;> rfl

@[simp] theorem stepped_receiving : r.stepped.receiving = r.receiving := by
  unfold stepped
  split <;> rfl

@[simp] theorem stepped_top : r.stepped.top = r.top := by
  unfold stepped
  split <;> rfl

@[simp] theorem stepped_named : r.stepped.named = r.named := by
  unfold stepped
  split <;> rfl

/-- Every item between files does what it should. -/
theorem itemBetween_does {top : DirId} (hs : r.disk.Sound top) (hrc : r.receiving = none) (i : Item) :
    Gives (itemBetween digest i) (fun h r' => Does digest r r' i h) r := by
  have hthen : ∀ {x : Rx Unit} {i : Item} {r₀ : Receiver},
      Gives x (fun _ r' => Does digest r r' i .nothing) r₀ →
      Gives (do x; return Heard.nothing) (fun h r' => Does digest r r' i h) r₀ := by
    intro x i r₀ hx
    exact Gives.bind hx fun _ r' h => h
  cases i with
  | allDone =>
    rw [Gives, itemBetween, wp_bind, wp_get, wp_bind, wp_onlyIf]
    refine ⟨fun _ => trivial, fun hno => ?_⟩
    rw [not_or, Bool.not_eq_false, Bool.not_eq_false, List.isEmpty_iff, List.isEmpty_iff] at hno
    exact .allDone hrc hno.1 hno.2 rfl
  | failed failure => trivial
  | dirEnd =>
    refine hthen (Gives.mono leave_gives ?_)
    rintro - r' ⟨dir, seen, more, hopened, hstill, halike, hpruned⟩
    exact .dirEnd hrc hopened hstill halike hpruned
  | skipped name =>
    rw [Gives, itemBetween, wp_bind, wp_get, wp_bind, wp_onlyIf]
    refine ⟨fun _ => trivial, fun hno => ?_⟩
    rw [List.isEmpty_iff] at hno
    refine Gives.bind (saw_gives name) ?_
    rintro _ r₁ ⟨hstill₁, hworld₁⟩
    refine Gives.bind (count_gives _) ?_
    rintro _ r₂ ⟨hstill₂, hworld₂⟩
    exact .skipped hrc hno (hstill₁.trans hstill₂) (congrArg World.disk (hworld₂.trans hworld₁))
  | data id start =>
    rw [Gives, itemBetween, wp_bind, wp_get, wp_bind, wp_onlyIf]
    refine ⟨fun _ => trivial, fun hdry => hthen (Gives.mono (data_gives digest id start) ?_)⟩
    rintro - r' ⟨p, fd, old, mode, mtime, hfind, hfd, hstill, hold, hsets⟩
    exact .data hrc (by simpa using hdry) hfind hfd hstill hold hsets
  | differs id start =>
    rw [Gives, itemBetween, wp_bind, wp_get, wp_bind, wp_onlyIf]
    refine ⟨fun _ => trivial, fun hdry => hthen (Gives.mono (differs_gives id start) ?_)⟩
    rintro - r' ⟨p, hfind, hstill, hdisk⟩
    exact .differs hrc (by simpa using hdry) hfind hstill hdisk
  | same id =>
    refine hthen (Gives.mono (same_gives id) ?_)
    rintro - r' ⟨p, hfind, hstill, hnext, hsame, hdry, hwet⟩
    exact .same hrc hfind hstill hnext hsame hdry hwet
  | contents mode mtime =>
    rw [Gives, itemBetween, wp_bind, wp_get, wp_bind, wp_onlyIf]
    refine ⟨fun _ => trivial, fun hno => hthen ?_⟩
    rw [Bool.not_eq_false, List.isEmpty_iff] at hno
    exact contents_gives digest hs hrc hno
  | dir name mode mtime =>
    refine place_bind_gives (hthen (x := enter (r.spot name).1 (r.spot name).2 mode mtime) ?_)
    refine Gives.mono (enter_gives (stepped_disk.symm ▸ hs)) ?_
    rintro - r' ⟨dir, hrel, hstill, hentered⟩
    rw [stepped_disk, stepped_opts] at hentered
    refine .dir hrc hrel ?_ hentered
    simpa using hstill
  | file header =>
    refine place_bind_gives ?_
    rw [Gives, wp_map]
    refine Gives.mono (file_gives digest _ _) ?_
    rintro answer r' ⟨hroom, hnew, p, hdir, hheader, hstill, hdisk, hid, hanswered⟩
    rw [stepped_disk] at hdisk hanswered
    rw [stepped_pending] at hroom hnew
    refine .file hrc hroom hnew hdir hheader ?_ hdisk hid ?_
    · simpa [hheader] using hstill
    · rw [hdir, hheader]
      exact hanswered
  | symlink name target =>
    refine place_bind_gives (hthen (x := symlink digest (r.spot name).1 (r.spot name).2 target) ?_)
    refine Gives.mono (symlink_gives digest _ _ target) ?_
    rintro - r' ⟨hstill, hdry, hlinked⟩
    rw [stepped_disk, stepped_opts] at hdry hlinked
    refine .symlink hrc ?_ hdry hlinked
    simpa using hstill
  | chunk c => trivial
  | sent => trivial

end

/-- An item that ends well did what `Does` says of it. -/
theorem item_does {digest : Digest} {r r' : Receiver} {i : Item} {h : Heard} {top : DirId}
    (hs : r.disk.Sound top) (hitem : item digest i r = .ok h r') : Does digest r r' i h := by
  have hgives : Gives (item digest i) (fun h r' => Does digest r r' i h) r := by
    rw [Gives, item, wp_bind, wp_get]
    cases hrc : r.receiving with
    | none => exact itemBetween_does digest hs hrc i
    | some rc =>
      cases i with
      | chunk c =>
        refine Gives.bind (chunk_gives rc c.bytes) ?_
        rintro _ r' ⟨hstill, hsets⟩
        exact .chunk hrc hstill hsets
      | sent =>
        refine Gives.bind (finish_gives digest rc) ?_
        rintro _ r' ⟨hstill, hnext, hentry⟩
        exact .sent hrc hstill hnext hentry
      | _ => trivial
  exact wp_of_ok (x := item digest i) hgives hitem

end Receiver

end Koh.Sync
