import Koh.Server.Scoped
import Koh.Sync.Dest
import Koh.Sync.Encoded
import Koh.Sync.Follows

/-!
# What a copy has to say fits

Whatever a copy comes to, the receiver's end is within a reply and is read back, and whatever the
sender finds, each item that it makes is within an item.

## Main definitions

- `Said`: a failure that may be said
- `Sender.Made`: all that the sender wrote, or has still to, may be said
- `Sender.turned`: a sender's turn, whatever it is answered

## Main results

- `Receiver.feed_stays`: a receiver's summary is within its bounds, and so are its failures
- `land_speakable`: what a copy comes to may be said
- `Sender.reaches_made`: what a sender writes may be said
- `copy_says_all`: the end and every item are encoded, and the end is read back
-/

namespace Koh.Sync

open Koh.Lib

/-! ### A summary -/

namespace Summary

variable {s s' : Summary}

theorem Within.zero : Summary.zero.Within := ⟨by decide, by decide, by decide⟩

/-- Counts that are added to stay within their bound. -/
theorem Within.count (h : s.Within) (hchanges : s'.changes = s.changes)
    (hcounts : ∀ n ∈ s'.counts, n ∈ s.counts ∨ n < 2 ^ 64) : s'.Within where
  counts n hn := (hcounts n hn).elim (h.counts n) id
  few := hchanges ▸ h.few
  bytes := hchanges ▸ h.bytes

/-- A change is listed only while there is room. -/
theorem Within.change (h : s.Within) (kind : ChangeKind) (path : Path) (size was : Option ℕ) :
    (s.change kind path size was).Within := by
  unfold Summary.change
  dsimp only
  split
  · exact h.count rfl (by simp [Summary.counts, satAdd])
  · next hroom =>
    obtain ⟨hfew, hbytes⟩ := not_or.mp hroom
    refine ⟨h.counts, ?_, ?_⟩
    · rw [List.length_append, List.length_singleton]
      exact Nat.not_le.mp hfew
    · have hpath := length_withinBytes maxPath (Stream.fromUtf8Lossy path.bytes)
      rw [List.map_append, List.sum_append, List.map_singleton, List.sum_singleton]
      exact Nat.add_le_add (Nat.le_of_lt (Nat.not_le.mp hbytes)) hpath

/-- Sorted, a summary says no more. -/
theorem Within.sorted (h : s.Within) : s.sorted.Within := by
  have hperm := List.mergeSort_perm s.changes fun a b => decide (a.path ≤ b.path)
  refine ⟨h.counts, ?_, ?_⟩
  · exact hperm.length_eq.le.trans h.few
  · exact (hperm.map Change.bytes).sum_eq.le.trans h.bytes

end Summary

/-- A failure that may be said. -/
def Said (failure : Failure) : Prop := failure.path.length ≤ maxItem

/-- A failure of the receiver's is short. -/
theorem said_new (kind : FailKind) (path : Bytes) : Said (.new kind path) :=
  (List.length_take_le _ _).trans (by decide)

namespace Receiver

variable {α : Type}

/-- Its summary stays within its bounds, and a failure of it may be said. -/
abbrev Speaks (x : Rx α) : Prop := Stays (fun r : Receiver => r.summary.Within) Said x

/-! ### The steps of an item -/

theorem io_speaks (rel : Path) (x : Fs α) : Speaks (io rel x) := by
  intro r hr
  rw [wp_io]
  simp only [wp]
  cases x r.world with
  | ok a w => exact hr
  | error e w => exact said_new _ _

theorem count_speaks {f : Summary → Summary} (hf : ∀ s, s.Within → (f s).Within) :
    Speaks (count f) := .modify fun r hr => hf r.summary hr

theorem change_speaks (kind : ChangeKind) (path : Path) (size was : Option ℕ) :
    Speaks (count (·.change kind path size was)) :=
  count_speaks fun _ hs => hs.change kind path size was

theorem place_speaks (name : Name) : Speaks (place name) := by
  refine .get_bind fun r hr => ?_
  split
  · exact .pure _
  · refine .bind (.set hr) fun _ => ?_
    split
    · exact .pure _
    · exact .bind (.onlyIf (.throw (said_new _ _))) fun _ => .pure _

theorem saw_speaks (name : Name) : Speaks (saw name) := by
  refine .get_bind fun r hr => ?_
  split
  · exact .ite (.pure _) (.bind (.set hr) fun _ => .onlyIf (.throw (said_new _ _)))
  · exact .pure _

theorem open_speaks (fd : Option Fd) (rel : Path) (mode : Option Mode) (mtime : Option Time)
    (parent : ℕ) : Speaks (open_ fd rel mode mtime parent) := .modify fun _ hr => hr

theorem removeEntry_speaks (dir : Fd) (name : Name) (rel : Path) :
    Speaks (removeEntry dir name rel) := by
  refine .get_bind fun r _ => .bind (io_speaks rel _) fun removed => ?_
  refine .bind (count_speaks fun s hs => ?_) fun _ => .onlyIf (change_speaks _ _ _ _)
  exact hs.count rfl (by simp [Summary.counts, satAdd])

theorem clearWay_speaks (parent : Dir) (name : Name) (rel : Path) :
    Speaks (clearWay parent name rel) := by
  refine .get_bind fun r _ => .bind (io_speaks rel _) fun there => ?_
  split
  · exact .pure _
  · exact .pure _
  · exact .throw (said_new _ _)
  · next fd _ _ _ _ =>
    refine .bind (.onlyIf (.throw (said_new _ _))) fun _ => ?_
    exact .bind (removeEntry_speaks fd name rel) fun _ => .pure _
  · exact .throw (said_new _ _)

theorem openMade_speaks (parent : Dir) (name : Name) (rel : Path) (made : Bool) :
    Speaks (openMade parent name rel made) := by
  refine .get_bind fun r _ => ?_
  dsimp only
  split
  · exact .bind (.onlyIf (io_speaks rel _)) fun _ => .map (io_speaks rel _) _
  · exact .pure _

theorem enter_speaks (parent : Dir) (name : Name) (mode : Mode) (mtime : Option Time) :
    Speaks (enter parent name mode mtime) := by
  refine .get_bind fun r _ => .get_bind fun _ _ => ?_
  refine .bind (.onlyIf (.throw (said_new _ _))) fun _ => .bind (saw_speaks name) fun _ => ?_
  refine .bind (clearWay_speaks parent name _) fun made => ?_
  refine .bind (.onlyIf (count_speaks fun s hs => ?_)) fun _ => ?_
  · exact hs.count rfl (by simp [Summary.counts, satAdd])
  refine .bind (.onlyIf (change_speaks _ _ _ _)) fun _ => ?_
  exact .bind (openMade_speaks parent name _ made) fun fd => open_speaks fd _ _ _ _

theorem contents_speaks (mode : Mode) (mtime : Option Time) : Speaks (contents mode mtime) := by
  refine .get_bind fun r _ => ?_
  split
  · next named _ => exact .bind (place_speaks named) fun at_ => enter_speaks at_.1 at_.2 mode mtime
  · exact open_speaks _ _ _ _ _

/-! #### Directories ended -/

theorem settle_speaks (dir : Dir) : Speaks (settle dir) :=
  .onSome fun _ => .bind (.onSome fun _ => io_speaks dir.rel _) fun _ =>
    .onSome fun _ => io_speaks dir.rel _

theorem closeReady_speaks (turns : ℕ) : Speaks (closeReady turns) := by
  induction turns with
  | zero => exact .pure ()
  | succ turns ih =>
    refine .get_bind fun r hr => ?_
    split
    · exact .pure ()
    · exact .bind (.set hr) fun _ => .bind (settle_speaks _) fun _ => ih

theorem closeAll_speaks : Speaks closeAll := .get_bind fun _ _ => closeReady_speaks _

theorem pruneAll_speaks (dir : Dir) (seen : List Name) : Speaks (pruneAll dir seen) := by
  refine .bind (.modify fun _ hr => hr) fun _ => .onSome fun fd => ?_
  refine .bind (io_speaks dir.rel _) fun entries => .forM (fun entry => ?_) entries
  exact .get_bind fun _ _ => .onlyIf (removeEntry_speaks fd entry _)

theorem leave_speaks : Speaks leave := by
  refine .get_bind fun r hr => ?_
  split
  · exact .throw (said_new _ _)
  · next dir seen more _ =>
    refine .bind (.set hr) fun _ => .bind (.onSome fun seen => pruneAll_speaks dir seen) fun _ => ?_
    exact .bind (.onlyIf (.modify fun _ hr => hr)) fun _ => closeAll_speaks

/-! #### Files and symlinks -/

theorem want_speaks (digest : Digest) (dir : Dir) (header : FileHeader) (rel : Path) :
    Speaks (want digest dir header rel) := by
  refine .bind (saw_speaks _) fun _ => .bind (io_speaks rel _) fun part => ?_
  split
  · exact .ite (.bind (io_speaks rel _) fun _ => .pure _) (.pure _)
  · exact .pure _

theorem answerTo_speaks (digest : Digest) (dir : Dir) (header : FileHeader) (rel : Path)
    (there : Option Stat) : Speaks (answerTo digest dir header rel there) := by
  unfold answerTo
  split
  · refine .ite (.throw (said_new _ _)) (.ite ?_ (want_speaks digest dir header rel))
    exact .map (io_speaks rel _) _
  · exact .ite (.throw (said_new _ _)) (want_speaks digest dir header rel)
  · exact want_speaks digest dir header rel

theorem file_speaks (digest : Digest) (dir : Dir) (header : FileHeader) :
    Speaks (file digest dir header) := by
  refine .get_bind fun r _ => .bind (.onlyIf (.throw (said_new _ _))) fun _ => ?_
  refine .bind (saw_speaks header.name) fun _ => .bind (io_speaks _ _) fun there => ?_
  refine .bind (answerTo_speaks digest dir header _ there) fun answer => ?_
  exact .bind (.modify fun _ hr => hr) fun _ => .pure _

theorem take_speaks (id : FileId) : Speaks (take id) := by
  refine .get_bind fun r hr => ?_
  split
  · exact .throw (said_new _ _)
  · exact .bind (.set hr) fun _ => .pure _

theorem wrote_speaks (p : Pending) (start : ℕ) : Speaks (wrote p start) := by
  refine .get_bind fun r _ => .bind (count_speaks fun s hs => ?_) fun _ => ?_
  · split
    · exact hs.count rfl (by simp [Summary.counts, satAdd])
    · exact hs.count rfl (by simp [Summary.counts, satAdd])
  refine .bind (.onlyIf (count_speaks fun s hs => ?_)) fun _ => .onlyIf (change_speaks _ _ _ _)
  exact hs.count rfl (by simp [Summary.counts, satAdd])

theorem data_speaks (digest : Digest) (id : FileId) (start : ℕ) :
    Speaks (data digest id start) := by
  refine .bind (take_speaks id) fun p => ?_
  split
  · exact .throw (said_new _ _)
  · refine .bind (io_speaks _ _) fun part => .bind (io_speaks _ _) fun _ => ?_
    exact .modify fun _ hr => hr

theorem chunk_speaks (rc : Receiving) (bytes : Bytes) : Speaks (chunk rc bytes) := by
  refine .bind (count_speaks fun s hs => ?_) fun _ => ?_
  · exact hs.count rfl (by simp [Summary.counts, satAdd])
  exact .bind (io_speaks _ _) fun _ => .modify fun _ hr => hr

theorem finish_speaks (digest : Digest) (rc : Receiving) : Speaks (finish digest rc) := by
  refine .get_bind fun r hr => .bind (.set hr) fun _ => .bind (io_speaks _ _) fun _ => ?_
  refine .bind (.onSome fun _ => io_speaks _ _) fun _ => .bind (io_speaks _ _) fun _ => ?_
  exact .bind (wrote_speaks _ _) fun _ => closeAll_speaks

theorem differs_speaks (id : FileId) (start : ℕ) : Speaks (differs id start) := by
  refine .bind (take_speaks id) fun p => .bind (count_speaks fun s hs => ?_) fun _ => ?_
  · exact hs.count rfl (by simp [Summary.counts, satAdd])
  exact wrote_speaks p start

theorem touch_speaks (fd : Fd) (p : Pending) (keepTimes : Bool) :
    Speaks (touch fd p keepTimes) := by
  refine .bind (io_speaks _ _) fun _ => .bind (io_speaks _ _) fun _ => ?_
  refine .bind (.onlyIf (io_speaks _ _)) fun _ => ?_
  exact .bind (.onSome fun _ => io_speaks _ _) fun _ => closeAll_speaks

theorem same_speaks (id : FileId) : Speaks (same id) := by
  refine .bind (take_speaks id) fun p => .bind (count_speaks fun s hs => ?_) fun _ => ?_
  · exact hs.count rfl (by simp [Summary.counts, satAdd])
  refine .get_bind fun r _ => ?_
  dsimp only
  split
  · exact .pure ()
  · exact .throw (said_new _ _)
  · exact touch_speaks _ p _

theorem layLink_speaks (digest : Digest) (dir : Dir) (name : Name) (link : LinkTarget)
    (rel : Path) (there : Option Kind) : Speaks (layLink digest dir name link rel there) := by
  refine .get_bind fun r _ => ?_
  split
  · exact change_speaks _ _ _ _
  · exact io_speaks rel _
  · exact io_speaks rel _
  · exact .throw (said_new _ _)

theorem symlink_speaks (digest : Digest) (dir : Dir) (name : Name) (link : LinkTarget) :
    Speaks (symlink digest dir name link) := by
  refine .bind (saw_speaks name) fun _ => .bind (io_speaks _ _) fun there => ?_
  refine .bind (.onlyIf (.throw (said_new _ _))) fun _ => .bind (io_speaks _ _) fun same => ?_
  refine .onlyIf (.bind (layLink_speaks digest dir name link _ _) fun _ => ?_)
  exact count_speaks fun s hs => hs.count rfl (by simp [Summary.counts, satAdd])

/-! ### An item -/

/-- So does an item, and so may the summary that it ends with, if it ends the copy. -/
def Tells (x : Rx Heard) : Prop :=
  ∀ r : Receiver, r.summary.Within →
    wp x (fun heard r' => r'.summary.Within ∧ ∀ s, heard = .over s → s.Within)
      (fun failure _ => Said failure) r

theorem Tells.bind {x : Rx α} {f : α → Rx Heard} (hx : Speaks x) (hf : ∀ a, Tells (f a)) :
    Tells (x >>= f) := by
  intro r hr
  rw [wp_bind]
  exact wp_mono (hx r hr) (fun a r' hr' => hf a r' hr') fun _ _ h => h

theorem Tells.get_bind {f : Receiver → Rx Heard} (hf : ∀ r, r.summary.Within → Tells (f r)) :
    Tells (get >>= f) := fun r hr => hf r hr r hr

theorem Tells.pure {heard : Heard} (h : ∀ s, heard = .over s → s.Within) : Tells (pure heard) :=
  fun _ hr => ⟨hr, h⟩

theorem Tells.nothing : Tells (Pure.pure .nothing) := .pure fun _ h => by cases h

theorem Tells.throw {failure : Failure} (h : Said failure) : Tells (throw failure) := fun _ _ => h

/-- Every item between files tells what can be said. -/
theorem itemBetween_tells (digest : Digest) {i : Item}
    (hi : ∀ failure, i = .failed failure → Said failure) : Tells (itemBetween digest i) := by
  cases i with
  | allDone =>
    refine .get_bind fun r hr => .bind (.onlyIf (.throw (said_new _ _))) fun _ => ?_
    exact .pure fun s hs => by
      cases hs
      exact hr.sorted
  | failed failure => exact .throw (hi failure rfl)
  | dirEnd => exact .bind leave_speaks fun _ => .nothing
  | skipped name =>
    refine .get_bind fun r _ => .bind (.onlyIf (.throw (said_new _ _))) fun _ => ?_
    refine .bind (saw_speaks name) fun _ => .bind (count_speaks fun s hs => ?_) fun _ => .nothing
    exact hs.count rfl (by simp [Summary.counts, satAdd])
  | data id start =>
    refine .get_bind fun r _ => .bind (.onlyIf (.throw (said_new _ _))) fun _ => ?_
    exact .bind (data_speaks digest id start) fun _ => .nothing
  | differs id start =>
    refine .get_bind fun r _ => .bind (.onlyIf (.throw (said_new _ _))) fun _ => ?_
    exact .bind (differs_speaks id start) fun _ => .nothing
  | same id => exact .bind (same_speaks id) fun _ => .nothing
  | contents mode mtime =>
    refine .get_bind fun r _ => .bind (.onlyIf (.throw (said_new _ _))) fun _ => ?_
    exact .bind (contents_speaks mode mtime) fun _ => .nothing
  | dir name mode mtime =>
    refine .bind (place_speaks name) fun at_ => ?_
    exact .bind (enter_speaks at_.1 at_.2 mode mtime) fun _ => .nothing
  | file header =>
    refine .bind (place_speaks header.name) fun at_ r hr => ?_
    rw [wp_map]
    exact wp_mono (file_speaks digest at_.1 _ r hr) (fun _ _ hr' => ⟨hr', fun _ h => by cases h⟩)
      fun _ _ h => h
  | symlink name target =>
    refine .bind (place_speaks name) fun at_ => ?_
    exact .bind (symlink_speaks digest at_.1 at_.2 target) fun _ => .nothing
  | chunk c => exact .throw (said_new _ _)
  | sent => exact .throw (said_new _ _)

/-- So does every item of a file. -/
theorem itemWithin_tells (digest : Digest) (rc : Receiving) (i : Item) :
    Tells (itemWithin digest rc i) := by
  cases i with
  | chunk c => exact .bind (chunk_speaks rc c.bytes) fun _ => .nothing
  | sent => exact .bind (finish_speaks digest rc) fun _ => .nothing
  | _ => exact .throw (said_new _ _)

/-- So every item does. -/
theorem item_tells (digest : Digest) {i : Item}
    (hi : ∀ failure, i = .failed failure → Said failure) : Tells (item digest i) := by
  refine .get_bind fun r _ => ?_
  split
  · exact itemWithin_tells digest _ i
  · exact itemBetween_tells digest hi

/-- And all of them. -/
theorem feed_tells (digest : Digest) {items : List Item}
    (hitems : ∀ failure, .failed failure ∈ items → Said failure) : Tells (feed digest items) := by
  induction items with
  | nil => exact .throw (said_new _ _)
  | cons i items ih =>
    intro r hr
    have hitem := item_tells digest (fun failure h => hitems failure (h ▸ List.mem_cons_self)) r hr
    rw [feed, wp_bind]
    refine wp_mono hitem (fun heard r' hr' => ?_) fun _ _ h => h
    split
    · next summary => exact ⟨hr'.1, fun s hs => hr'.2 s (by cases hs; rfl)⟩
    · exact ih (fun failure h => hitems failure (List.mem_cons_of_mem _ h)) r' hr'.1

end Receiver

/-! ### A copy -/

theorem ioAt_said {α : Type} (path : Bytes) (x : Fs α) : Fails Said (ioAt path x) := by
  intro w
  simp only [wp, ioAt]
  cases x w with
  | ok a w => trivial
  | error e w => exact said_new _ _

theorem resolveNamed_said (site : Site) (path : Bytes) (dry : Bool) :
    Fails Said (resolveNamed site path dry) := by
  unfold resolveNamed
  dsimp only
  split
  · exact .throw (said_new _ _)
  · exact .bind .get fun _ => .bind (ioAt_said _ _) fun _ => .pure _

theorem resolvePath_said (site : Site) (path : Bytes) (count : ℕ) (dry : Bool) :
    Fails Said (resolvePath site path count dry) := by
  refine .bind .get fun w => ?_
  split
  · exact .bind (ioAt_said _ _) fun _ => .pure _
  · refine .ite (.throw (said_new _ _)) (.ite (.throw (said_new _ _)) ?_)
    exact resolveNamed_said site path dry
  · refine .ite (.throw (said_new _ _)) (.ite ?_ (resolveNamed_said site path dry))
    exact .bind .get fun _ => .bind (ioAt_said _ _) fun _ => .pure _

theorem resolveLast_said (dry : Bool) (shown : Bytes) (last : Name) (count : ℕ) (namesDir : Bool)
    (up : Option Fd) (made : ℕ) :
    Fails Said (resolveLast dry shown last count namesDir up made) := by
  have hthere : Fails Said (statLast shown last up) := by
    cases up with
    | some fd => exact ioAt_said shown (stat fd last)
    | none => exact .pure _
  refine .bind hthere fun there => ?_
  split
  · exact .bind (ioAt_said _ _) fun _ => .pure _
  · exact .pure _
  · exact .throw (said_new _ _)
  · exact .ite (.throw (said_new _ _)) (.ite (.throw (said_new _ _)) (.pure _))
  · exact .ite (.bind (ioAt_said _ _) fun _ => .pure _) (.pure _)
  · exact .ite (.pure _) (.pure _)

/-- What is said of a target that cannot be is short. -/
theorem resolve_said (site : Site) (dest : Dest) (count : ℕ) (dry : Bool) :
    Fails Said (resolve site dest count dry) := by
  cases dest with
  | path path => exact resolvePath_said site path count dry
  | beneath root path dir =>
    refine .bind (ioAt_said _ _) fun fd => ?_
    split
    · exact .pure _
    · exact .bind (ioAt_said _ _) fun r => resolveLast_said _ _ _ _ _ _ _

/-- What a copy comes to may be said, whatever its destination and whatever items come. -/
theorem land_speakable (digest : Digest) (site : Site) (dest : Dest) (count : ℕ) (opts : Opts)
    {items : List Item} (hitems : ∀ failure, .failed failure ∈ items → Said failure) (w : World) :
    Speakable (land digest site dest count opts items w).1 := by
  have hresolve := resolve_said site dest count opts.dryRun w
  simp only [wp] at hresolve
  unfold land
  cases hr : resolve site dest count opts.dryRun w with
  | error e w' =>
    rw [hr] at hresolve
    exact hresolve
  | ok landed w' =>
    have hfeed := Receiver.feed_tells digest hitems (Receiver.start w' landed.1 opts)
      Summary.Within.zero
    simp only [wp] at hfeed
    dsimp only
    split
    · next summary r hf =>
      rw [hf] at hfeed
      exact (hfeed.2 summary rfl).count rfl (by simp [Summary.counts, satAdd])
    · exact said_new _ _
    · next e r hf =>
      rw [hf] at hfeed
      exact hfeed

/-! ### What the sender writes -/

/-- An item that is a failure says one of the sender's own. -/
def Item.Short (i : Item) : Prop := ∀ failure, i = .failed failure → failure.path.length ≤ maxPath

def Cmd.Short : Cmd → Prop
  | .item i => i.Short
  | .fail failure => failure.path.length ≤ maxPath
  | _ => True

def Phase.Short : Phase → Prop
  | .ending (.error failure) => failure.path.length ≤ maxPath
  | _ => True

theorem short_new (kind : FailKind) (path : Bytes) :
    (Failure.new kind path).path.length ≤ maxPath :=
  List.length_take_le _ _

namespace Sender

/-- All that the sender wrote and the receiver has not taken, and all that it has still to write,
is its own. -/
structure Made (s : Sender) (out : Out) : Prop where
  todo : ∀ c ∈ s.todo, c.Short
  phase : s.phase.Short
  items : ∀ i ∈ out.items, i.Short

/-! #### The walk -/

theorem framed_short {name : Option Name} {rel : Path} {depth mode : ℕ} {mtime : Option Time}
    {inside : List Cmd} (h : ∀ c ∈ inside, c.Short) :
    ∀ c ∈ framed name rel depth mode mtime inside, c.Short := by
  have hhead : (headItem name mode mtime).Short := by
    intro failure heq
    cases name <;> cases heq
  unfold framed
  split
  · exact List.forall_mem_singleton.mpr (short_new _ _)
  · refine List.forall_mem_cons.mpr ⟨hhead, List.forall_mem_append.mpr ⟨h, ?_⟩⟩
    exact List.forall_mem_singleton.mpr fun _ heq => by cases heq

mutual

/-- Every item of an entry is short. -/
theorem entry_short (opts : Opts) (tree : Path) (name : Name) (rel : Path) (depth : ℕ)
    (node : Node) : ∀ c ∈ entry opts tree name rel depth node, c.Short := by
  cases node with
  | failing error => exact List.forall_mem_singleton.mpr (short_new _ _)
  | dir mode mtime entries => exact framed_short (inside_short opts _ rel depth entries)
  | file file => exact List.forall_mem_singleton.mpr trivial
  | link target =>
    simp only [entry]
    split
    · exact List.forall_mem_singleton.mpr trivial
    · exact List.forall_mem_singleton.mpr (short_new _ _)
  | other =>
    simp only [entry]
    split
    · exact List.forall_mem_singleton.mpr (short_new _ _)
    · exact List.forall_mem_singleton.mpr fun _ heq => by cases heq

/-- And of a directory. -/
theorem inside_short (opts : Opts) (tree : Path) (rel : Path) (depth : ℕ) (entries : Forest) :
    ∀ c ∈ inside opts tree rel depth entries, c.Short := by
  cases entries with
  | nil => exact fun c hc => by cases hc
  | cons bytes node rest =>
    have hrest := inside_short opts tree rel depth rest
    cases hname : Name.new bytes with
    | none =>
      simp only [inside, hname]
      exact List.forall_mem_singleton.mpr (short_new _ _)
    | some name =>
      have hentry := entry_short opts tree name (rel ++ [name]) (depth + 1) node
      simp only [inside, hname]
      refine List.forall_mem_append.mpr ⟨?_, hrest⟩
      split
      · exact fun c hc => by cases hc
      · exact hentry

end

/-- And of a source. -/
theorem source_short (opts : Opts) (s : Source) : ∀ c ∈ source opts s, c.Short := by
  have hdir (name : Option Name) (rel : Path) (mode : ℕ) (mtime : Option Time)
      (entries : Forest) : ∀ c ∈ dir opts name rel mode mtime entries, c.Short :=
    framed_short (inside_short opts rel rel 1 entries)
  have hfail (kind : FailKind) (path : Bytes) : ∀ c ∈ [Cmd.fail (.new kind path)], c.Short :=
    List.forall_mem_singleton.mpr (short_new _ _)
  cases s with
  | path path found =>
    simp only [source]
    split
    · exact hfail _ _
    · split
      · exact hfail _ _
      · exact hdir _ _ _ _ _
      · exact hfail _ _
      · exact List.forall_mem_singleton.mpr trivial
      · exact hfail _ _
  | beneath path found =>
    simp only [source]
    split
    · exact hfail _ _
    · exact hdir _ _ _ _ _
    · exact hfail _ _
    · exact entry_short opts [] _ path 1 _

/-- So every item of a walk is. -/
theorem walk_short (opts : Opts) (sources : List Source) : ∀ c ∈ walk opts sources, c.Short := by
  intro c hc
  obtain ⟨s, -, hs⟩ := List.mem_flatMap.mp hc
  exact source_short opts s c hs

/-! #### A step -/

variable {size : Item → ℕ} {digest : Bytes → Bytes} {there : Bool} {s s' : Sender} {out out' : Out}

/-- Either the item is written, or the stream is gone. -/
theorem put_made {i : Item} {next : Sender} {x : Sender × Out} (hm : s.Made out)
    (h : put size there s out i next = some x) (hi : i.Short)
    (htodo : ∀ c ∈ next.todo, c.Short) (hphase : next.phase.Short) : x.1.Made x.2 := by
  unfold put at h
  split at h
  · next hwent =>
    cases h
    refine ⟨htodo, hphase, ?_⟩
    rw [Out.item_went hwent]
    exact List.forall_mem_append.mpr ⟨hm.items, List.forall_mem_singleton.mpr hi⟩
  · cases h
  · cases h
    exact ⟨hm.todo, short_new _ _, hm.items⟩

/-- The walk writes what it made. -/
theorem walkOn_made {x : Sender × Out} (hm : s.Made out) (hphase : s.phase = .walking)
    (h : walkOn size there s out = some x) : x.1.Made x.2 := by
  have hshort : s.phase.Short := by rw [hphase]; trivial
  unfold walkOn at h
  split at h
  · cases h
    refine ⟨hm.todo, ?_, hm.items⟩
    dsimp only
    split <;> trivial
  · next i todo htodo =>
    have htodos := hm.todo
    rw [htodo] at htodos
    obtain ⟨hi, hmore⟩ := List.forall_mem_cons.mp htodos
    exact put_made hm h hi hmore hshort
  · next htodo =>
    have htodos := hm.todo
    rw [htodo] at htodos
    exact put_made hm h (fun _ heq => by cases heq) (List.forall_mem_cons.mp htodos).2 trivial
  · next htodo =>
    have htodos := hm.todo
    rw [htodo] at htodos
    refine put_made hm h (fun _ heq => by cases heq) (List.forall_mem_cons.mp htodos).2 ?_
    dsimp only
    split <;> trivial
  · next htodo =>
    cases h
    have htodos := hm.todo
    rw [htodo] at htodos
    exact ⟨hm.todo, (List.forall_mem_cons.mp htodos).1, hm.items⟩

/-- So do answers that are heard. -/
theorem act_made {answer : Answer} {x : Sender × Out} (hm : s.Made out)
    (h : act size digest there s out answer = some x) : x.1.Made x.2 := by
  unfold act at h
  split at h
  · cases h
    exact ⟨hm.todo, short_new _ _, hm.items⟩
  · dsimp only at h
    have hm' : Made { s with pending := s.pending.filter (·.id ≠ answer.id) } out :=
      ⟨hm.todo, hm.phase, hm.items⟩
    split at h
    · cases h
      exact ⟨hm.todo, short_new _ _, hm.items⟩
    · exact put_made hm' h (fun _ heq => by cases heq) hm.todo trivial
    · split at h
      · exact put_made hm' h (fun _ heq => by cases heq) hm.todo trivial
      · exact put_made hm' h (fun _ heq => by cases heq) hm.todo trivial

theorem hear_made (hm : s.Made out) (reply : Reply) : (s.hear reply).Made out := by
  cases reply <;> exact ⟨hm.todo, trivial, hm.items⟩

/-- Whatever a sender does next, what it writes is its own. -/
theorem step_made {sees : Bool} {k : ℕ} {replies replies' : List Reply} (hm : s.Made out)
    (h : s.step size digest there sees k out replies = some ((s', out'), replies')) :
    s'.Made out' := by
  unfold step at h
  split at h
  · next hphase =>
    obtain ⟨x, hx, heq⟩ := Option.map_eq_some_iff.mp h
    cases heq
    exact walkOn_made hm hphase hx
  · split at h
    · next hflush =>
      cases h
      exact ⟨hm.todo, trivial, (Out.flush_went hflush).1 ▸ hm.items⟩
    · cases h
    · cases h
      exact ⟨hm.todo, short_new _ _, hm.items⟩
  · split at h
    · cases h
      exact hear_made hm _
    · cases h
  · split at h
    · cases h
      exact hear_made hm _
    · cases h
      exact ⟨hm.todo, trivial, hm.items⟩
  · obtain ⟨x, hx, heq⟩ := Option.map_eq_some_iff.mp h
    cases heq
    exact act_made hm hx
  · split at h
    · cases h
      exact ⟨hm.todo, short_new _ _, hm.items⟩
    · obtain ⟨x, hx, heq⟩ := Option.map_eq_some_iff.mp h
      cases heq
      exact put_made hm hx (fun _ heq => by cases heq) hm.todo trivial
    · obtain ⟨x, hx, heq⟩ := Option.map_eq_some_iff.mp h
      cases heq
      exact put_made hm hx (fun _ heq => by cases heq) hm.todo trivial
  · next sent hphase =>
    split at h
    · next hwent =>
      cases h
      refine ⟨hm.todo, trivial, ?_⟩
      rw [Out.item_went hwent]
      refine List.forall_mem_append.mpr ⟨hm.items, List.forall_mem_singleton.mpr ?_⟩
      -- The last item says the failure that the phase has.
      intro failure heq
      have hsaid := hm.phase
      cases sent with
      | ok done => cases heq
      | error e =>
        cases heq
        rw [hphase] at hsaid
        exact hsaid
    · cases h
    · cases h
      exact ⟨hm.todo, trivial, hm.items⟩
  · split at h
    · next hflush =>
      cases h
      exact ⟨hm.todo, trivial, (Out.flush_went hflush).1 ▸ hm.items⟩
    · cases h
    · cases h
      exact ⟨hm.todo, trivial, hm.items⟩
  · split at h
    · cases h
      exact ⟨hm.todo, trivial, hm.items⟩
    · cases h
      exact ⟨hm.todo, trivial, hm.items⟩
    · cases h
  · cases h

/-! #### A run -/

/-- A sender's turn: its stream takes messages, replies come, and it goes on. -/
def turned (size : Item → ℕ) (digest : Bytes → Bytes) (x : (Sender × Out) × List Reply)
    (turn : Turn) : Option ((Sender × Out) × List Reply) :=
  x.1.1.step size digest turn.there turn.sees turn.read
    { x.1.2 with pipe := x.1.2.pipe.drop turn.taken } (x.2 ++ turn.heard)

/-- What the stream takes leaves what was written after it. -/
theorem Made.drop (hm : s.Made out) (taken : ℕ) :
    s.Made { out with pipe := out.pipe.drop taken } := by
  refine ⟨hm.todo, hm.phase, fun i hi => hm.items i ?_⟩
  rcases List.mem_append.mp hi with hi | hi
  · obtain ⟨message, hmessage, hi⟩ := List.mem_flatten.mp hi
    exact List.mem_append_left _ (List.mem_flatten.mpr ⟨message, List.mem_of_mem_drop hmessage, hi⟩)
  · exact List.mem_append_right _ hi

/-- In every run what is written was made of the walk. -/
theorem reaches_made {opts : Opts} {sources : List Source} {x : (Sender × Out) × List Reply}
    (h : Lib.Reachable (turned size digest) ((start opts sources, ⟨[], []⟩), []) x) :
    x.1.1.Made x.1.2 := by
  refine h.invariant (fun x => x.1.1.Made x.1.2)
    ⟨walk_short opts sources, trivial, fun i hi => by cases hi⟩ fun x turn x' hx _ hstep => ?_
  exact step_made (hx.drop turn.taken) hstep

end Sender

/-! ### Both ends -/

def EndSaid (vt : Varint) (outcome : Except Failure Summary) : Prop :=
  ∃ bytes, Wire.encode (putReply vt (.over outcome)) maxReplyItem = .ok bytes ∧
    ∀ rest, readReply vt (bytes ++ rest) = some (.over (outcome.map Summary.sized), rest)

def ItemSaid (vt : Varint) (i : Item) : Prop :=
  ∃ bytes, Wire.encode (putItem vt i) maxItem = .ok bytes

/-- An end that can be said fits. -/
theorem endSaid_of_speakable (vt : Varint) {outcome : Except Failure Summary}
    (h : Speakable outcome) : EndSaid vt outcome := by
  have hbytes := Wire.encode_ok (length_putReply_over_le vt h)
  exact ⟨_, hbytes, fun rest => readReply_encode vt rest (reads_putReply_over vt h) hbytes⟩

/-- So does a short item. -/
theorem itemSaid_of_short (vt : Varint) {i : Item} (h : i.Short) : ItemSaid vt i :=
  ⟨_, Wire.encode_ok (length_putItem_le vt h)⟩

/-- **What a copy has to say fits**: whatever the destination is and whatever items come, the end
is encoded and is read back; in every run of a sender, whatever it is answered, each item that it
wrote is encoded; and so is a failure before either began, at either end. -/
theorem copy_says_all (vt : Varint) (digest : Digest) (site : Site) (dest : Dest) (count : ℕ)
    (opts : Opts) {items : List Item} (hitems : ∀ failure, .failed failure ∈ items → Said failure)
    (w : World) (size : Item → ℕ) (sources : List Source) {x : (Sender × Out) × List Reply}
    (hx : Lib.Reachable (Sender.turned size digest) ((.start opts sources, ⟨[], []⟩), []) x) :
    EndSaid vt (land digest site dest count opts items w).1 ∧ (∀ i ∈ x.1.2.items, ItemSaid vt i) ∧
      ∀ kind path, EndSaid vt (.error (.new kind path)) ∧
        ItemSaid vt (.failed (.new kind path)) := by
  refine ⟨endSaid_of_speakable vt (land_speakable digest site dest count opts hitems w), ?_, ?_⟩
  · exact fun i hi => itemSaid_of_short vt ((Sender.reaches_made hx).items i hi)
  · refine fun kind path => ⟨endSaid_of_speakable vt (said_new kind path), ?_⟩
    exact itemSaid_of_short vt fun failure heq => by
      cases heq
      exact short_new kind path

/-- In `copy_says_all`, a sender sends a file, and a receiver is told of a failure. -/
theorem copy_says_all_failed :
    let opts : Opts := ⟨false, false, false, ⟨[], Nat.zero_le maxExcludes⟩⟩
    let sources : List Source := [.path [0x61] (.file ⟨[1, 2], 2, 0o644, none, none⟩)]
    ∃ x, Lib.Reachable (Sender.turned (fun _ => 1) id) ((.start opts sources, ⟨[], []⟩), []) x ∧
      x.1.2.items.length = 1 ∧ (∀ i ∈ x.1.2.items, ItemSaid leb128 i) ∧
      EndSaid leb128 (land id ⟨0, 0⟩ (.path [0x2f]) 1 opts [.failed ⟨.notFound, [0x61]⟩]
        ⟨⟨fun _ => ⟨[], 0o755, none, false⟩, 1⟩, []⟩).1 := by
  intro opts sources
  obtain ⟨x, hturn, hlen⟩ : ∃ x, Sender.turned (fun _ => 1) id ((.start opts sources, ⟨[], []⟩), [])
      ⟨[], true, 0, true, 0⟩ = some x ∧ x.1.2.items.length = 1 := ⟨_, rfl, rfl⟩
  have hx : Lib.Reachable (Sender.turned (fun _ => 1) id) ((.start opts sources, ⟨[], []⟩), []) x :=
    Lib.Reaches.refl.snoc trivial hturn
  have hitems : ∀ failure, Item.failed failure ∈ [Item.failed ⟨.notFound, [0x61]⟩] →
      Said failure := by simp [Said, maxItem]
  have hsaid := copy_says_all leb128 id ⟨0, 0⟩ (.path [0x2f]) 1 opts hitems
    ⟨⟨fun _ => ⟨[], 0o755, none, false⟩, 1⟩, []⟩ (fun _ => 1) sources hx
  exact ⟨x, hx, hlen, hsaid.2.1, hsaid.1⟩

end Koh.Sync
