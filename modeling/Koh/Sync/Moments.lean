import Koh.Lib.Release
import Koh.Sync.Dated
import Koh.Sync.Levels
import Mathlib.Data.List.Perm.Basic

/-!
# When directories get their mode and time

What becomes of each directory that the receiver opens, one moment after another: it is entered,
entries of it come and land, and once it ended and nothing holds it, it gets its mode and time.

## Main definitions

- `Moment`, `Receiver.moments`: what becomes of directories, and what an item makes of them
- `Told`: the items read, and the moments they made
- `Receiver.Waits`: nothing was settled yet, and directories that stay keep their mode and time
- `Receiver.Moves`: what an item does to the directories open and waiting, and the files under way
- `Receiver.LandedOn`: the directories that are where something landed

## Main results

- `Receiver.closeReady_eq`: the directories that nothing holds are settled, one after another
- `Receiver.item_moves`: an item does what its moments say
- `Receiver.Moves.world`: and no other directory's mode or time changes

## Design notes

Moments are no part of the code: they say in which order the receiver comes to do what its methods
do. Those of directories that are settled come last in their item, as `close_ready` does.
-/

namespace Koh.Sync

open Koh.Lib

/-- What becomes of a directory that entries land in. -/
inductive Moment where
  /-- It is opened for what follows, and made if it is not there: the source's mode and time. -/
  | entered (dir : Dir) (made : Bool) (mode : Mode) (mtime : Option Time)
  /-- It is the target itself, opened for what follows. -/
  | target (dir : Dir)
  /-- An entry of it came, a file's header or a symlink. -/
  | came (dir : Dir) (name : Name)
  /-- An entry of it is in place. -/
  | landed (dir : Dir) (name : Name)
  /-- It gets its mode and time. -/
  | settled (dir : Dir)

def Moment.dir : Moment → Dir
  | .entered dir _ _ _ | .target dir | .came dir _ | .landed dir _ | .settled dir => dir

/-- The world once a directory has its mode and time. -/
def Dir.given (dir : Dir) (w : World) : World :=
  match dir.fd with
  | none => w
  | some fd =>
    let w := match dir.mode with
      | none => w
      | some mode => ⟨w.disk.alter fd.id fun d => { d with mode := mode.landed &&& 0o7777 },
          ⟨w.disk, fd.place, .moded (mode.landed &&& 0o7777)⟩ :: w.trace⟩
    match dir.mtime with
    | none => w
    | some time => ⟨w.disk.alter fd.id fun d => { d with mtime := some time },
        ⟨w.disk, fd.place, .timed⟩ :: w.trace⟩

def givenAll (dirs : List Dir) (w : World) : World := dirs.foldl (fun w dir => dir.given w) w

namespace Receiver

/-- Whether anything holds `d`, `waiting` being those ended. -/
def holds (r : Receiver) (waiting : List Dir) (d : Dir) : Bool :=
  ({ r with closing := waiting }).held d

/-- What `close_ready` settles of `waiting`, in order, and what waits on. -/
def released (r : Receiver) (waiting : List Dir) : List Dir × List Dir :=
  release r.holds swapRemove waiting.length waiting

/-- The moments at which those are settled that nothing holds. -/
def settlements (r : Receiver) (waiting : List Dir) : List Moment :=
  (r.released waiting).1.map .settled

/-- Whether an entry of `dir` is not there, as a directory. -/
def lacks (r : Receiver) (dir : Dir) (name : Name) : Bool :=
  match dir.fd with
  | none => true
  | some fd => match r.disk.entry fd.id name with
    | some (.dir _) => false
    | _ => true

/-- The directory opened last, entry `name` of `parent`. -/
def entered (r r' : Receiver) (parent : Dir) (name : Name) (mode : Mode) (mtime : Option Time) :
    List Moment :=
  r'.opened.head?.toList.map fun o => .entered o.dir (r.lacks parent name) mode mtime

/-- What an item that leaves the receiver as `r'` opens, brings and lands. -/
def brings (r r' : Receiver) : Item → List Moment
  | .dir name mode mtime => r.entered r' (r.spot name).1 (r.spot name).2 mode mtime
  | .contents mode mtime => match r.named with
    | some name => r.entered r' (r.spot name).1 (r.spot name).2 mode mtime
    | none => r'.opened.head?.toList.map fun o => .target o.dir
  | .file header => [.came (r.spot header.name).1 (r.spot header.name).2]
  | .symlink name _ =>
    [.came (r.spot name).1 (r.spot name).2, .landed (r.spot name).1 (r.spot name).2]
  | .sent => r.receiving.toList.map fun rc => .landed rc.file.dir rc.file.header.name
  | .same id => (r.pending.find? (·.header.id = id)).toList.map fun p =>
      .landed p.dir p.header.name
  | _ => []

/-- Those that wait when an item has `close_ready` look for what nothing holds. -/
def waits (r : Receiver) : Item → List Dir
  | .dirEnd => if r.opts.dryRun then r.closing else r.closing ++ r.opened.head?.toList.map Open.dir
  | .sent | .same _ => r.closing
  | _ => []

/-- What an item that leaves the receiver as `r'` makes of directories. -/
def moments (r r' : Receiver) (i : Item) : List Moment :=
  r.brings r' i ++ r'.settlements (r.waits i)

end Receiver

/-- Those that get their mode and time among moments, in order. -/
def settledIn (moments : List Moment) : List Dir :=
  moments.filterMap fun
    | .settled dir => some dir
    | _ => none

/-- The items read so far, none of which was the last, and the moments they made. -/
inductive Told (digest : Digest) (r₀ : Receiver) : List Item → List Moment → Receiver → Prop
  | nil : Told digest r₀ [] [] r₀
  | snoc {items : List Item} {history : List Moment} {r r' : Receiver} {i : Item} {h : Heard} :
      Told digest r₀ items history r → Receiver.item digest i r = .ok h r' →
      (∀ s, h ≠ .over s) → Told digest r₀ (items ++ [i]) (history ++ r.moments r' i) r'

/-! ### What is settled -/

namespace Receiver

variable {r r' : Receiver} {c : List Dir} {t : ℕ}

/-- What is taken out of a list, and what is left. -/
theorem swapRemove_perm {α : Type} {l : List α} {i : ℕ} {a : α} (h : l[i]? = some a) :
    l.Perm (a :: swapRemove l i) := by
  rcases List.eq_nil_or_concat' l with rfl | ⟨init, last, rfl⟩
  · simp at h
  · obtain ⟨hi, rfl⟩ := List.getElem?_eq_some_iff.mp h
    rw [List.length_append, List.length_singleton] at hi
    simp only [swapRemove, List.getLast?_append, List.getLast?_singleton, Option.some_or]
    refine List.perm_append_comm.trans ?_
    rcases Nat.lt_or_ge i init.length with hlt | hge
    · rw [List.set_append_left _ _ hlt, List.dropLast_concat, List.getElem_append_left hlt]
      -- The last is where the one taken was.
      have hset := List.set_perm_cons_eraseIdx hlt last
      have hget := List.getElem_cons_eraseIdx_perm hlt
      exact ((hget.symm.cons last).trans (.swap _ _ _)).trans (hset.symm.cons _)
    · obtain rfl : i = init.length := by omega
      rw [List.set_append_right _ _ le_rfl, Nat.sub_self, List.set_cons_zero,
        List.dropLast_concat, List.getElem_concat_length rfl]
      exact .refl _

/-- A directory that settles is given its mode and time. -/
theorem settle_eq (dir : Dir) : settle dir r = .ok () { r with world := dir.given r.world } := by
  unfold settle Dir.given
  cases dir.fd with
  | none => rfl
  | some fd => cases dir.mode <;> cases dir.mtime <;> rfl

/-- Those that nothing holds are settled, one after another, until all that wait are held. -/
theorem closeReady_eq (turns : ℕ) (r : Receiver) :
    closeReady turns r = .ok () { r with
      closing := (release r.holds swapRemove turns r.closing).2
      world := givenAll (release r.holds swapRemove turns r.closing).1 r.world } := by
  induction turns generalizing r with
  | zero => rfl
  | succ turns ih =>
    unfold closeReady release
    have hholds : r.holds r.closing = r.held := rfl
    rw [get_bind, hholds]
    cases hfind : r.closing.zipIdx.find? fun d => !r.held d.1 with
    | none => rfl
    | some found =>
      obtain ⟨dir, i⟩ := found
      dsimp only
      rw [set_bind]
      simp only [bind, EStateM.bind, settle_eq]
      exact ih _

/-- Nothing that closing does changes what is held. -/
theorem closeAll_gives_released : Gives closeAll (fun _ r' =>
    r'.closing = (r'.released r.closing).2 ∧ r'.tags = r.tags ∧
      r'.world = givenAll (r'.released r.closing).1 r.world) r := by
  rw [Gives, closeAll, wp_bind, wp_get, wp, closeReady_eq]
  exact ⟨rfl, rfl, rfl⟩

/-! ### What settles nothing -/

/-- These directories wait, this many were opened, and the directories of `disk` that stayed have
their modes and times. -/
structure Waits (X : DirId → Prop) (disk : Disk) (c : List Dir) (t : ℕ) (r : Receiver) : Prop where
  closing : r.closing = c
  tags : r.tags = t
  dates : disk.Dated X r.disk

/-- What ends well leaves those waiting, and those that stayed as they were. -/
abbrev Idles (X : DirId → Prop) (disk : Disk) (c : List Dir) (t : ℕ) {α : Type} (x : Rx α) : Prop :=
  Stays (Waits X disk c t) (fun _ => True) x

/-- Nothing changed yet. -/
theorem Waits.self (X : DirId → Prop) (r : Receiver) : Waits X r.disk r.closing r.tags r :=
  ⟨rfl, rfl, .refl X _⟩

variable {X : DirId → Prop} {disk : Disk}

theorem io_idles {α : Type} (rel : Path) {x : Fs α}
    (hx : Stays (Leaves X disk) (fun _ => True) x) : Idles X disk c t (io rel x) := by
  intro r hr
  rw [wp_io]
  exact wp_mono (hx r.world hr.dates) (fun _ _ h => ⟨hr.closing, hr.tags, h⟩) fun _ _ _ => trivial

/-- A call that leaves the directories as they were, however it ends. -/
theorem call_idles {α : Type} (rel : Path) {x : Fs α} (hx : Keeps (Leaves X disk) x) :
    Idles X disk c t (io rel x) := io_idles rel (.of_keeps hx)

theorem modify_idles {f : Receiver → Receiver} (hclosing : ∀ r, (f r).closing = r.closing)
    (htags : ∀ r, (f r).tags = r.tags) (hdisk : ∀ r, (f r).disk = r.disk) :
    Idles X disk c t (modify f) :=
  .modify fun r hr => ⟨(hclosing r).trans hr.closing, (htags r).trans hr.tags, hdisk r ▸ hr.dates⟩

theorem count_idles (f : Summary → Summary) : Idles X disk c t (count f) :=
  modify_idles (fun _ => rfl) (fun _ => rfl) fun _ => rfl

theorem saw_idles (name : Name) : Idles X disk c t (saw name) := by
  refine .get_bind fun r hr => ?_
  split
  · refine .ite (.pure _) (.bind (.set ⟨hr.closing, hr.tags, hr.dates⟩) fun _ => ?_)
    exact .onlyIf (.throw trivial)
  · exact .pure _

theorem removeEntry_idles (dir : Fd) (name : Name) (rel : Path) :
    Idles X disk c t (removeEntry dir name rel) := by
  refine .get_bind fun r _ => .bind (io_idles rel (remove_leaves _ _ dir name)) fun removed => ?_
  exact .bind (count_idles _) fun _ => .onlyIf (count_idles _)

theorem clearWay_idles (parent : Dir) (name : Name) (rel : Path) :
    Idles X disk c t (clearWay parent name rel) := by
  refine .get_bind fun r _ => .bind (call_idles rel (statIn_leaves parent name)) fun there => ?_
  split
  · exact .pure _
  · exact .pure _
  · exact .throw trivial
  · next fd _ _ _ _ =>
    refine .bind (.onlyIf (.throw trivial)) fun _ => ?_
    exact .bind (removeEntry_idles fd name rel) fun _ => .pure _
  · exact .throw trivial

theorem openMade_idles (parent : Dir) (name : Name) (rel : Path) (made : Bool) :
    Idles X disk c t (openMade parent name rel made) := by
  refine .get_bind fun r _ => ?_
  dsimp only
  split
  · refine .bind (.onlyIf (call_idles rel (makeDir_leaves _ name))) fun _ => ?_
    exact .map (call_idles rel (openDir_leaves _ name)) some
  · exact .pure _

theorem pruneAll_idles (dir : Dir) (seen : List Name) : Idles X disk c t (pruneAll dir seen) := by
  refine .bind (modify_idles (fun _ => rfl) (fun _ => rfl) fun _ => rfl) fun _ => ?_
  refine .onSome fun fd => .bind (call_idles dir.rel (names_leaves fd)) fun entries => ?_
  refine .forM (fun entry => ?_) entries
  exact .get_bind fun _ _ => .onlyIf (removeEntry_idles fd entry _)

theorem want_idles (digest : Digest) (dir : Dir) (header : FileHeader) (rel : Path) :
    Idles X disk c t (want digest dir header rel) := by
  refine .bind (saw_idles _) fun _ => .bind (call_idles rel (statIn_leaves dir _)) fun part => ?_
  split
  · exact .ite (.bind (call_idles rel (hashIn_leaves digest _ _ _)) fun _ => .pure _) (.pure _)
  · exact .pure _

theorem answerTo_idles (digest : Digest) (dir : Dir) (header : FileHeader) (rel : Path)
    (there : Option Stat) : Idles X disk c t (answerTo digest dir header rel there) := by
  have hwant : Idles X disk c t (want digest dir header rel) := want_idles digest dir header rel
  unfold answerTo
  split
  · refine .ite (.throw trivial) (.ite ?_ hwant)
    exact .map (call_idles rel (hashIn_leaves digest _ _ none)) _
  · exact .ite (.throw trivial) hwant
  · exact hwant

theorem file_idles (digest : Digest) (dir : Dir) (header : FileHeader) :
    Idles X disk c t (file digest dir header) := by
  refine .get_bind fun r _ => .bind (.onlyIf (.throw trivial)) fun _ => ?_
  refine .bind (saw_idles header.name) fun _ => ?_
  refine .bind (call_idles _ (statIn_leaves dir header.name)) fun there => ?_
  refine .bind (answerTo_idles digest dir header _ there) fun answer => ?_
  exact .bind (modify_idles (fun _ => rfl) (fun _ => rfl) fun _ => rfl) fun _ => .pure _

theorem take_idles (id : FileId) : Idles X disk c t (take id) := by
  refine .get_bind fun r hr => ?_
  split
  · exact .throw trivial
  · exact .bind (.set ⟨hr.closing, hr.tags, hr.dates⟩) fun _ => .pure _

theorem wrote_idles (p : Pending) (start : ℕ) : Idles X disk c t (wrote p start) := by
  refine .get_bind fun r _ => .bind (count_idles _) fun _ => ?_
  exact .bind (.onlyIf (count_idles _)) fun _ => .onlyIf (count_idles _)

theorem data_idles (digest : Digest) (id : FileId) (start : ℕ) :
    Idles X disk c t (data digest id start) := by
  refine .bind (take_idles id) fun p => ?_
  split
  · exact .throw trivial
  · refine .bind (call_idles _ (create_leaves _ _ _)) fun part => ?_
    refine .bind (call_idles _ (edit_leaves part _)) fun _ => ?_
    exact modify_idles (fun _ => rfl) (fun _ => rfl) fun _ => rfl

theorem chunk_idles (rc : Receiving) (bytes : Bytes) : Idles X disk c t (chunk rc bytes) := by
  refine .bind (count_idles _) fun _ => .bind (call_idles _ (edit_leaves rc.part _)) fun _ => ?_
  exact modify_idles (fun _ => rfl) (fun _ => rfl) fun _ => rfl

theorem symlink_idles (digest : Digest) (dir : Dir) (name : Name) (link : LinkTarget) :
    Idles X disk c t (symlink digest dir name link) := by
  refine .bind (saw_idles name) fun _ => .bind (call_idles _ (statIn_leaves dir name)) fun there => ?_
  refine .bind (.onlyIf (.throw trivial)) fun _ => ?_
  refine .bind (call_idles _ (linked_leaves dir name link _)) fun same => ?_
  refine .onlyIf (.bind ?_ fun _ => count_idles _)
  refine .get_bind fun r _ => ?_
  split
  · exact count_idles _
  · exact call_idles _ (symlinkAt_leaves link.bytes _ name)
  · exact io_idles _ (replaceLink_leaves digest _ name link)
  · exact .throw trivial

/-- A program that leaves those waiting, before one that comes to `Q`. -/
theorem Waits.bind {α β : Type} {x : Rx α} {f : α → Rx β} {Q : β → Receiver → Prop}
    (h : Waits X disk c t r) (hx : Idles X disk c t x)
    (hf : ∀ a r₁, Waits X disk c t r₁ → Gives (f a) Q r₁) : Gives (x >>= f) Q r :=
  Gives.bind (wp_mono (hx r h) (fun _ _ h => h) fun _ _ _ => trivial) hf

/-- What a program that leaves those waiting comes to. -/
theorem Waits.gives {α : Type} {x : Rx α} {Q : α → Receiver → Prop} (h : Waits X disk c t r)
    (hx : Gives x Q r) (hidles : Idles X disk c t x) :
    Gives x (fun a r' => Q a r' ∧ Waits X disk c t r') r :=
  wp_mono (wp_and hx (hidles r h)) (fun _ _ h => h) fun _ _ _ => trivial

/-! ### What settles -/

/-- Of `waiting`, those that nothing holds were settled, last of all that was done: till then the
directories of `disk` that stayed had their modes and times. -/
structure Closed (X : DirId → Prop) (disk : Disk) (waiting : List Dir) (t : ℕ) (r' : Receiver) :
    Prop where
  closing : r'.closing = (r'.released waiting).2
  tags : r'.tags = t
  world : ∃ w, r'.world = givenAll (r'.released waiting).1 w ∧ disk.Dated X w.disk

/-- All that can settle do. -/
theorem closeAll_closes (h : Waits X disk c t r) :
    Gives closeAll (fun _ => Closed X disk c t) r := by
  obtain ⟨rfl, rfl, hdates⟩ := h
  refine Gives.mono closeAll_gives_released ?_
  rintro - r' ⟨hclosing, htags, hworld⟩
  exact ⟨hclosing, htags, r.world, hworld, hdates⟩

/-- A directory that is left settles if it can. -/
theorem leave_closes (hdry : r.opts.dryRun = false) : Gives leave (fun _ r' =>
    ∃ o more, r.opened = o :: more ∧
      Closed (fun _ => False) r.disk (r.closing ++ [o.dir]) r.tags r') r := by
  rw [Gives, leave, wp_bind, wp_get]
  split
  · trivial
  · next dir seen more hopened =>
    rw [wp_bind, wp_set]
    have hstart : Waits (fun _ => False) r.disk r.closing r.tags { r with opened := more } :=
      ⟨rfl, rfl, .refl _ _⟩
    refine hstart.bind (.onSome fun names => pruneAll_idles dir names) fun _ r₁ h₁ => ?_
    rw [Gives, wp_bind, wp_onlyIf, wp_modify]
    refine ⟨fun _ => ?_, fun hwet => absurd hdry hwet⟩
    have hwaits : Waits (fun _ => False) r.disk (r.closing ++ [dir]) r.tags
        { r₁ with closing := r₁.closing ++ [dir] } :=
      ⟨congrArg (· ++ [dir]) h₁.closing, h₁.tags, h₁.dates⟩
    exact Gives.mono (closeAll_closes hwaits) fun _ r' h => ⟨_, more, hopened, h⟩

/-- A file that lands settles those that waited for it. -/
theorem finish_closes (digest : Digest) {rc : Receiving} (hpart : ∀ fd, rc.part ≠ .dir fd) :
    Gives (finish digest rc) (fun _ => Closed X r.disk r.closing r.tags) r := by
  rw [Gives, finish, wp_bind, wp_get, wp_bind, wp_set]
  have hstart : Waits X r.disk r.closing r.tags { r with receiving := none } :=
    ⟨rfl, rfl, .refl _ _⟩
  have hfile : ∀ fd, rc.part = .dir fd → X fd.id := fun fd heq => absurd heq (hpart fd)
  refine hstart.bind (call_idles _ (chmod_leaves _ hfile)) fun _ r₁ h₁ => ?_
  refine h₁.bind (.onSome fun time => call_idles _ (setMtime_leaves time hfile)) fun _ r₂ h₂ => ?_
  refine h₂.bind (call_idles _ (rename_leaves _ _ _)) fun _ r₃ h₃ => ?_
  exact h₃.bind (wrote_idles _ _) fun _ r₄ h₄ => closeAll_closes h₄

/-- The directory that is where `name` is to land. -/
def At (r : Receiver) (dir : Dir) (name : Name) (id : DirId) : Prop :=
  ∃ fd, dir.fd = some fd ∧ r.disk.entry fd.id name = some (.dir id)

/-- So does one that is touched. -/
theorem touch_closes {fd : Fd} {p : Pending} (keepTimes : Bool) (h : Waits X disk c t r)
    (hX : ∀ id, r.disk.entry fd.id p.header.name = some (.dir id) → X id) :
    Gives (touch fd p keepTimes) (fun _ => Closed X disk c t) r := by
  refine Gives.bind (h.gives (io_gives p.rel (openFile_gives fd p.header.name))
    (call_idles _ (openFile_leaves fd _))) ?_
  rintro file r₁ ⟨⟨-, -, -, hopened⟩, h₁⟩
  have hfile : ∀ sub, file = .dir sub → X sub.id := by
    rintro sub rfl
    rcases hopened with ⟨_, heq, hentry⟩ | heq
    · cases heq
      exact hX _ hentry
    · cases heq
  refine h₁.bind (call_idles _ (statOpened_leaves file)) fun here r₂ h₂ => ?_
  refine h₂.bind (.onlyIf (call_idles _ (chmod_leaves _ hfile))) fun _ r₃ h₃ => ?_
  refine h₃.bind (.onSome fun time => call_idles _ (setMtime_leaves time hfile)) fun _ r₄ h₄ => ?_
  exact closeAll_closes h₄

/-- So does one that is the same. -/
theorem same_closes (hdry : r.opts.dryRun = false) (id : FileId) :
    Gives (same id) (fun _ r' => ∃ p, r.pending.find? (·.header.id = id) = some p ∧
      Closed (r.At p.dir p.header.name) r.disk r.closing r.tags r') r := by
  refine Gives.bind ((Waits.self (fun _ => False) r).gives (take_gives id) (take_idles id)) ?_
  rintro p r₁ ⟨⟨hfind, hr₁⟩, h₁⟩
  refine Gives.bind (h₁.gives (count_gives _) (count_idles _)) ?_
  rintro _ r₂ ⟨⟨hstill₂, hworld₂⟩, h₂⟩
  have hopts : r₂.opts.dryRun = false := by rw [hstill₂.opts, hr₁, hdry]
  rw [Gives, wp_bind, wp_get]
  dsimp only
  rw [hopts]
  split
  · next h => cases h
  · trivial
  · next fd _ hfd =>
    have hwaits : Waits (r.At p.dir p.header.name) r.disk r.closing r.tags r₂ :=
      ⟨h₂.closing, h₂.tags, h₂.dates.mono fun _ h => h.elim⟩
    refine Gives.mono (touch_closes _ hwaits fun id hentry => ⟨fd, hfd, ?_⟩) fun _ r' h =>
      ⟨p, hfind, h⟩
    rwa [disk, hworld₂, hr₁] at hentry

/-! ### What is opened -/

/-- The directories that entries may land in, the innermost first. -/
def dirs (r : Receiver) : List Dir := r.opened.map Open.dir

/-- The directory that entries land in. -/
def inner (r : Receiver) : Dir := r.dirs.head?.getD r.top

/-- The way is cleared of what is no directory. -/
theorem clearWay_lacks (parent : Dir) (name : Name) (rel : Path) :
    Gives (clearWay parent name rel)
      (fun made r' => Still r r' ∧ made = r.lacks parent name) r := by
  refine Gives.mono (clearWay_gives parent name rel) ?_
  rintro made r' ⟨hstill, hclear⟩
  refine ⟨hstill, ?_⟩
  unfold lacks
  cases hfd : parent.fd with
  | none =>
    rw [hfd] at hclear
    exact hclear.1
  | some fd =>
    simp only [hfd] at hclear ⊢
    cases made with
    | false =>
      obtain ⟨-, id, hentry⟩ := hclear
      rw [hentry]
    | true =>
      split
      · next id hentry => exact absurd hentry (hclear.1 id)
      · rfl

/-- `r'` has as many waiting as `r`, and the directories that stayed as they were. -/
abbrev Rests (r : Receiver) (t : ℕ) (r' : Receiver) : Prop :=
  Waits (fun _ => False) r.disk r.closing t r'

/-- A directory entered is opened, with the mode it gets if it is made, or times are kept, and the
time. -/
theorem enter_opened (parent : Dir) (name : Name) (mode : Mode) (mtime : Option Time) :
    Gives (enter parent name mode mtime) (fun _ r' => ∃ fd,
      r'.dirs = ⟨r.tags, fd, parent.rel ++ [name],
        if r.lacks parent name || r.opts.keepTimes then some mode else none,
        mtime.filter fun _ => r.opts.keepTimes, some parent.tag⟩ :: r.dirs ∧
      r'.underWay = r.underWay ∧ r.Rests (r.tags + 1) r') r := by
  rw [Gives, enter, wp_bind, wp_get, wp_bind, wp_get, wp_bind, wp_onlyIf]
  refine ⟨fun _ => trivial, fun _ => ?_⟩
  have hstart : r.Rests r.tags r := .self _ r
  refine Gives.bind (hstart.gives (saw_gives name) (saw_idles name)) ?_
  rintro _ r₁ ⟨⟨h₁, hworld₁⟩, hw₁⟩
  refine Gives.bind (hw₁.gives (clearWay_lacks parent name _) (clearWay_idles parent name _)) ?_
  rintro made r₂ ⟨⟨h₂, hmade⟩, hw₂⟩
  have hlacks : r₁.lacks parent name = r.lacks parent name := by
    rw [lacks, lacks, Receiver.disk, hworld₁]
  refine Gives.bind (hw₂.gives (onlyIf_still fun _ => count_gives _) (.onlyIf (count_idles _))) ?_
  rintro _ r₃ ⟨⟨h₃, -⟩, hw₃⟩
  refine Gives.bind (hw₃.gives (onlyIf_still fun _ => count_gives _) (.onlyIf (count_idles _))) ?_
  rintro _ r₄ ⟨⟨h₄, -⟩, hw₄⟩
  refine Gives.bind (hw₄.gives (openMade_still parent name _ made)
    (openMade_idles parent name _ made)) ?_
  rintro fd r₅ ⟨h₅, hw₅⟩
  have hstill := (((h₁.trans h₂).trans h₃).trans h₄).trans h₅
  have hdirs : r₅.dirs = r.dirs := by
    rw [dirs, dirs, hstill.opened]
    exact sawIn_dirs name r.opened
  refine ⟨fd, ?_, ?_, hw₅.closing, congrArg (· + 1) hw₅.tags, hw₅.dates⟩
  · rw [← hlacks, ← hmade, ← hw₅.tags, ← hdirs]
    rfl
  · show r₅.underWay = _
    rw [underWay, underWay, hstill.pending, hstill.receiving]

/-! ### What an item does -/

/-- What an item does to the directories open and waiting, and to the files under way. -/
inductive Moves (r r' : Receiver) : List Moment → Prop
  | still : r'.dirs = r.dirs → r'.underWay.Perm r.underWay → r.Rests r.tags r' → Moves r r' []
  | entered {dir : Dir} {name : Name} {made : Bool} {mode : Mode} {mtime : Option Time} :
      dir.tag = r.tags → dir.parent = some r.inner.tag → (∃ n, dir.rel = r.inner.rel ++ [n]) →
      dir.mode = (if made || r.opts.keepTimes then some mode else none) →
      dir.mtime = (mtime.filter fun _ => r.opts.keepTimes) → r'.dirs = dir :: r.dirs →
      r'.underWay = r.underWay → r.Rests (r.tags + 1) r' →
      Moves r r' [.entered dir made mode mtime]
  | target {dir : Dir} : r.dirs = [] → dir.tag = r.tags → dir.parent = some r.top.tag →
      dir.rel = [] → r'.dirs = [dir] → r'.underWay = r.underWay → r.Rests (r.tags + 1) r' →
      Moves r r' [.target dir]
  | came {p : Pending} : p.dir = r.inner → r.receiving = none → r'.receiving = none →
      p.header.id ∉ r.underWay.map (·.header.id) → r'.dirs = r.dirs →
      r'.underWay = r.underWay ++ [p] → r.Rests r.tags r' →
      Moves r r' [.came p.dir p.header.name]
  | linked {name : Name} : r'.dirs = r.dirs → r'.underWay = r.underWay → r.Rests r.tags r' →
      Moves r r' [.came r.inner name, .landed r.inner name]
  | done {p : Pending} : r.underWay.Perm (p :: r'.underWay) → r'.receiving = none →
      r'.dirs = r.dirs → Closed (r.At p.dir p.header.name) r.disk r.closing r.tags r' →
      Moves r r' (.landed p.dir p.header.name :: r'.settlements r.closing)
  | ended {dir : Dir} : r.dirs = dir :: r'.dirs → r'.receiving = none →
      r'.underWay = r.underWay →
      Closed (fun _ => False) r.disk (r.closing ++ [dir]) r.tags r' →
      Moves r r' (r'.settlements (r.closing ++ [dir]))

theorem settledIn_settled (dirs : List Dir) : settledIn (dirs.map .settled) = dirs := by
  induction dirs with
  | nil => rfl
  | cons dir dirs ih => exact congrArg (dir :: ·) ih

/-- The directories that are where something landed. -/
def LandedOn (r : Receiver) (moments : List Moment) (id : DirId) : Prop :=
  ∃ dir name, .landed dir name ∈ moments ∧ r.At dir name id

/-- What an item settles, it settles last; till then the directories that stayed had their modes and
times. -/
theorem Moves.world {moments : List Moment} (h : r.Moves r' moments) :
    ∃ w, r'.world = givenAll (settledIn moments) w ∧ r.disk.Dated (r.LandedOn moments) w.disk := by
  have hrests : ∀ {t}, r.Rests t r' → r.disk.Dated (r.LandedOn moments) r'.world.disk :=
    fun h => h.dates.mono fun _ h => h.elim
  cases h with
  | done _ _ _ hclosed =>
    obtain ⟨w, hw, hdates⟩ := hclosed.world
    exact ⟨w, hw.trans (congrArg (givenAll · w) (settledIn_settled _).symm),
      hdates.mono fun id hat => ⟨_, _, List.mem_cons_self, hat⟩⟩
  | ended _ _ _ hclosed =>
    obtain ⟨w, hw, hdates⟩ := hclosed.world
    exact ⟨w, hw.trans (congrArg (givenAll · w) (settledIn_settled _).symm),
      hdates.mono fun _ h => h.elim⟩
  | still _ _ hwaits => exact ⟨r'.world, rfl, hrests hwaits⟩
  | entered _ _ _ _ _ _ _ hwaits => exact ⟨r'.world, rfl, hrests hwaits⟩
  | target _ _ _ _ _ _ hwaits => exact ⟨r'.world, rfl, hrests hwaits⟩
  | came _ _ _ _ _ _ hwaits => exact ⟨r'.world, rfl, hrests hwaits⟩
  | linked _ _ hwaits => exact ⟨r'.world, rfl, hrests hwaits⟩

/-- The file taken is one of those pending, which have numbers of their own. -/
theorem pending_perm {ps : List Pending} {id : FileId} {p : Pending}
    (hids : (ps.map (·.header.id)).Nodup) (h : ps.find? (·.header.id = id) = some p) :
    ps.Perm (p :: ps.filter (·.header.id ≠ id)) := by
  induction ps with
  | nil => cases h
  | cons q ps ih =>
    rw [List.map_cons, List.nodup_cons] at hids
    by_cases hq : q.header.id = id
    · rw [List.find?_cons_of_pos (by simpa using hq)] at h
      obtain rfl := Option.some.inj h
      have hself : ps.filter (·.header.id ≠ id) = ps := by
        refine List.filter_eq_self.mpr fun p hp => ?_
        have hne : p.header.id ≠ id := fun heq =>
          hids.1 (List.mem_map.mpr ⟨p, hp, heq.trans hq.symm⟩)
        simpa using hne
      rw [List.filter_cons_of_neg (by simpa using hq), hself]
    · rw [List.find?_cons_of_neg (by simpa using hq)] at h
      rw [List.filter_cons_of_pos (by simpa using hq)]
      exact ((ih hids.2 h).cons q).trans (.swap _ _ _)

theorem inner_spot (name : Name) : (r.spot name).1 = r.inner := by
  unfold spot inner dirs
  cases r.opened <;> rfl

@[simp] theorem stepped_closing : r.stepped.closing = r.closing := by
  unfold stepped
  split <;> rfl

@[simp] theorem stepped_tags : r.stepped.tags = r.tags := by
  unfold stepped
  split <;> rfl

@[simp] theorem stepped_underWay : r.stepped.underWay = r.underWay := by
  simp [underWay]

@[simp] theorem stepped_dirs : r.stepped.dirs = r.dirs := by
  simp [dirs]

/-- A directory that is entered is of the moment. -/
theorem spot_entered (name : Name) (mode : Mode) (mtime : Option Time) :
    Gives (enter (r.spot name).1 (r.spot name).2 mode mtime) (fun _ r' =>
      r.Moves r' (r.entered r' (r.spot name).1 (r.spot name).2 mode mtime)) r.stepped := by
  refine Gives.mono (enter_opened _ _ mode mtime) ?_
  rintro - r' ⟨fd, hdirs, hfiles, hwaits⟩
  simp only [stepped_tags, stepped_dirs, stepped_opts] at hdirs
  simp only [Rests, stepped_tags, stepped_closing, stepped_disk] at hwaits
  rw [stepped_underWay] at hfiles
  have hlacks : r.stepped.lacks (r.spot name).1 (r.spot name).2 =
      r.lacks (r.spot name).1 (r.spot name).2 := by simp only [lacks, stepped_disk]
  rw [hlacks] at hdirs
  obtain ⟨o, more, hopened, hdir, -⟩ := List.map_eq_cons_iff.mp hdirs
  simp only [entered, hopened, List.head?_cons, Option.toList_some, List.map_cons, List.map_nil,
    hdir]
  exact @Moves.entered r r' _ name _ mode mtime rfl (by rw [inner_spot]) ⟨_, by rw [inner_spot]⟩ rfl
    rfl hdirs hfiles hwaits

/-- An item after which none is looked for only does what it does. -/
theorem moments_quiet {i : Item} (h : r.waits i = []) : r.moments r' i = r.brings r' i := by
  rw [moments, h]
  exact List.append_nil _

/-- So is the target's own. -/
theorem contents_moves (mode : Mode) (mtime : Option Time) (hopened : r.opened = []) :
    Gives (contents mode mtime)
      (fun _ r' => r.Moves r' (r.moments r' (.contents mode mtime))) r := by
  rw [Gives, contents, wp_bind, wp_get]
  split
  · next named hnamed =>
    refine place_bind_gives (f := fun at_ => enter at_.1 at_.2 mode mtime) ?_
    refine Gives.mono (spot_entered named mode mtime) fun _ r' h => ?_
    rw [moments_quiet rfl]
    simpa only [brings, hnamed] using h
  · next hnamed =>
    have hdirs : r.dirs = [] := by simp [dirs, hopened]
    rw [open_, wp_modify, moments_quiet rfl]
    simp only [brings, hnamed, List.head?_cons, Option.toList_some, List.map_cons, List.map_nil]
    refine .target hdirs rfl rfl rfl ?_ rfl ⟨rfl, rfl, .refl _ _⟩
    simp [dirs, hopened]

variable (digest : Digest)

/-- Every item between files moves so. -/
theorem itemBetween_moves (hdry : r.opts.dryRun = false) (hrc : r.receiving = none)
    (hids : (r.pending.map (·.header.id)).Nodup) (i : Item) :
    Gives (itemBetween digest i) (fun h r' => (∀ s, h ≠ .over s) → r.Moves r' (r.moments r' i))
      r := by
  have hthen : ∀ {x : Rx Unit} {r₀ : Receiver},
      Gives x (fun _ r' => r.Moves r' (r.moments r' i)) r₀ → Gives (do x; return Heard.nothing)
        (fun h r' => (∀ s, h ≠ .over s) → r.Moves r' (r.moments r' i)) r₀ := by
    intro x r₀ hx
    exact Gives.bind hx fun _ r' h _ => h
  have hfiles := underWay_between hrc
  have hstart : r.Rests r.tags r := .self _ r
  cases i with
  | allDone =>
    rw [Gives, itemBetween, wp_bind, wp_get, wp_bind, wp_onlyIf]
    exact ⟨fun _ => trivial, fun _ hover => absurd rfl (hover _)⟩
  | failed failure => trivial
  | dirEnd =>
    refine hthen (wp_mono (wp_and leave_gives (leave_closes hdry)) ?_ fun _ _ _ => trivial)
    rintro - r' ⟨⟨dir, seen, more, hopened, hstill, -⟩, o, more', hopened', hclosed⟩
    rw [hopened] at hopened'
    cases hopened'
    have hwaits : r.waits .dirEnd = r.closing ++ [dir] := by simp [waits, hdry, hopened]
    rw [moments, hwaits]
    have hnone : r'.receiving = none := hstill.receiving.trans hrc
    refine .ended ?_ hnone ?_ hclosed
    · rw [dirs, dirs, hopened, hstill.opened]
      rfl
    · rw [hfiles, underWay_between hnone, hstill.pending]
  | skipped name =>
    rw [Gives, itemBetween, wp_bind, wp_get, wp_bind, wp_onlyIf]
    refine ⟨fun _ => trivial, fun _ => ?_⟩
    refine Gives.bind (hstart.gives (saw_gives name) (saw_idles name)) ?_
    rintro _ r₁ ⟨⟨h₁, -⟩, hw₁⟩
    refine Gives.bind (hw₁.gives (count_gives _) (count_idles _)) ?_
    rintro _ r₂ ⟨⟨h₂, -⟩, hw₂⟩
    have hstill := h₁.trans h₂
    refine fun _ => .still ?_ ?_ hw₂
    · rw [dirs, hstill.opened]
      exact sawIn_dirs name r.opened
    · rw [underWay, hstill.pending, hstill.receiving]
      exact .refl _
  | data id start =>
    rw [Gives, itemBetween, wp_bind, wp_get, wp_bind, wp_onlyIf]
    refine ⟨fun _ => trivial, fun _ => hthen ?_⟩
    refine Gives.mono (hstart.gives (data_gives digest id start) (data_idles digest id start)) ?_
    rintro - r' ⟨⟨p, fd, old, mode, mtime, hfind, -, hstill, -⟩, hwaits⟩
    refine .still (by rw [dirs, hstill.opened]; rfl) ?_ hwaits
    rw [hfiles, underWay, hstill.pending, hstill.receiving]
    exact List.perm_append_comm.trans (pending_perm hids hfind).symm
  | differs id start =>
    rw [Gives, itemBetween, wp_bind, wp_get, wp_bind, wp_onlyIf]
    exact ⟨fun _ => trivial, fun hno => absurd hdry hno⟩
  | same id =>
    refine hthen (wp_mono (wp_and (same_gives id) (same_closes hdry id)) ?_ fun _ _ _ => trivial)
    rintro - r' ⟨⟨p, hfind, hstill, -⟩, p', hfind', hclosed⟩
    obtain rfl : p = p' := Option.some.inj (hfind.symm.trans hfind')
    have hbrings : r.brings r' (.same id) = [.landed p.dir p.header.name] := by
      simp only [brings, hfind, Option.toList_some, List.map_cons, List.map_nil]
    rw [moments, hbrings]
    have hnone : r'.receiving = none := hstill.receiving.trans hrc
    refine .done ?_ hnone (by rw [dirs, hstill.opened]; rfl) hclosed
    rw [hfiles, underWay_between hnone, hstill.pending]
    exact pending_perm hids hfind
  | contents mode mtime =>
    rw [Gives, itemBetween, wp_bind, wp_get, wp_bind, wp_onlyIf]
    refine ⟨fun _ => trivial, fun hno => hthen ?_⟩
    rw [Bool.not_eq_false, List.isEmpty_iff] at hno
    exact contents_moves mode mtime hno
  | dir name mode mtime =>
    refine place_bind_gives (hthen (x := enter (r.spot name).1 (r.spot name).2 mode mtime) ?_)
    refine Gives.mono (spot_entered name mode mtime) fun _ r' h => ?_
    rwa [moments_quiet rfl]
  | file header =>
    refine place_bind_gives ?_
    rw [Gives, wp_map]
    have hplaced : r.stepped.Rests r.stepped.tags r.stepped := .self _ _
    refine Gives.mono (hplaced.gives (file_gives digest _ _) (file_idles digest _ _)) ?_
    rintro answer r' ⟨⟨-, hid, p, hdir, hheader, hstill, -⟩, hwaits⟩ -
    simp only [stepped_pending, stepped_opened] at hid hstill
    simp only [stepped_closing, stepped_tags, stepped_disk] at hwaits
    have hnone : r'.receiving = none := by
      rw [hstill.receiving]
      exact stepped_receiving.trans hrc
    have hname : p.header.name = (r.spot header.name).2 := congrArg FileHeader.name hheader
    have hbrings : r.brings r' (.file header) = [.came p.dir p.header.name] := by
      rw [brings, hdir, hname]
    rw [moments_quiet rfl, hbrings]
    refine .came (by rw [hdir, inner_spot]) hrc hnone ?_ ?_ ?_ hwaits
    · rw [hfiles, hheader]
      exact hid
    · rw [dirs, hstill.opened]
      cases answer <;> simp [sawFor, dirs]
    · rw [hfiles, underWay_between hnone, hstill.pending]
  | symlink name target =>
    refine place_bind_gives (hthen (x := symlink digest (r.spot name).1 (r.spot name).2 target) ?_)
    have hplaced : r.stepped.Rests r.stepped.tags r.stepped := .self _ _
    refine Gives.mono (hplaced.gives (symlink_gives digest _ _ target)
      (symlink_idles digest _ _ target)) ?_
    rintro - r' ⟨⟨hstill, -⟩, hwaits⟩
    simp only [stepped_closing, stepped_tags, stepped_disk] at hwaits
    rw [moments_quiet rfl, brings, inner_spot]
    refine .linked ?_ ?_ hwaits
    · rw [dirs, hstill.opened]
      simp [dirs]
    · rw [underWay, underWay, hstill.pending, hstill.receiving]
      simp
  | chunk c => trivial
  | sent => trivial

/-- What an item that ends well, in a copy that is no dry run, does to the directories. -/
theorem item_moves (hdry : r.opts.dryRun = false) (hids : (r.underWay.map (·.header.id)).Nodup)
    (hpart : ∀ rc, r.receiving = some rc → ∀ fd, rc.part ≠ .dir fd) {i : Item} {h : Heard} (hitem : item digest i r = .ok h r') (hover : ∀ s, h ≠ .over s) :
    r.Moves r' (r.moments r' i) := by
  have hgives : Gives (item digest i)
      (fun h r' => (∀ s, h ≠ .over s) → r.Moves r' (r.moments r' i)) r := by
    rw [Gives, item, wp_bind, wp_get]
    split
    · next rc hrc =>
      cases i with
      | chunk c =>
        refine Gives.bind ((Waits.self (fun _ => False) r).gives (chunk_gives rc c.bytes)
          (chunk_idles rc c.bytes)) ?_
        rintro _ r' ⟨⟨hstill, -⟩, hwaits⟩ -
        refine .still (by rw [dirs, hstill.opened]; rfl) ?_ hwaits
        rw [underWay, underWay, hstill.pending, hstill.receiving, hrc]
        exact .refl _
      | sent =>
        have hcloses := finish_closes (r := r) (X := r.At rc.file.dir rc.file.header.name)
          digest (hpart rc hrc)
        refine Gives.bind (wp_mono (wp_and (finish_gives digest rc) hcloses) (fun _ _ h => h)
          fun _ _ _ => trivial) ?_
        rintro _ r' ⟨⟨hstill, -⟩, hclosed⟩ -
        have hbrings : r.brings r' .sent = [.landed rc.file.dir rc.file.header.name] := by
          simp only [brings, hrc, Option.toList_some, List.map_cons, List.map_nil]
        rw [moments, hbrings]
        have hnone : r'.receiving = none := hstill.receiving
        refine .done ?_ hnone (by rw [dirs, hstill.opened]; rfl) hclosed
        rw [underWay_between hnone, hstill.pending, underWay, hrc]
        exact List.perm_append_comm
      | _ => trivial
    · next hrc =>
      rw [underWay_between hrc] at hids
      exact itemBetween_moves digest hdry hrc hids i
  exact wp_of_ok (x := item digest i) hgives hitem hover

end Receiver

end Koh.Sync
