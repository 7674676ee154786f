import Koh.Sync.Dest

/-!
# A dry run changes nothing

Whatever the destination is, and whatever items come, a dry run makes, writes, renames and
removes nothing, and changes no mode and no time: all that it does is to open directories.

## Main definitions

- `Untouched`: the disk as it was, but for directories opened
- `Receiver.Dry`: a receiver of a dry run, which has nothing under way

## Main results

- `remove_untouched`: an entry removed in a dry run is only counted
- `resolve_untouched`: resolving the target makes no directory
- `Receiver.item_dry`: nor does an item do anything, whatever it is
- `dry_run_untouched`: nor does a copy
-/

namespace Koh.Sync

open Koh.Server (Component components)

/-- Nothing was done to the disk since `w₀`: directories were opened. -/
structure Untouched (w₀ w : World) : Prop where
  disk : w.disk = w₀.disk
  trace : ∃ new, w.trace = new ++ w₀.trace ∧ ∀ e ∈ new, ∃ id, e.act = .opened id

theorem Untouched.refl (w : World) : Untouched w w := ⟨rfl, [], rfl, by simp⟩

/-- An open is no touch. -/
theorem Untouched.opened {w₀ w : World} (h : Untouched w₀ w) (place : Place) (id : DirId) :
    Untouched w₀ ⟨w.disk, ⟨w.disk, place, .opened id⟩ :: w.trace⟩ := by
  obtain ⟨new, htrace, hnew⟩ := h.trace
  refine ⟨h.disk, ⟨w.disk, place, .opened id⟩ :: new, by simp [htrace], ?_⟩
  exact List.forall_mem_cons.mpr ⟨⟨id, rfl⟩, hnew⟩

section

variable {w₀ : World}

/-! ### The calls that read -/

theorem act_untouched (place : Place) (id : DirId) :
    Keeps (Untouched w₀) (act place (.opened id) (fun disk => disk)) :=
  fun _ hw => hw.opened place id

theorem stat_untouched (dir : Fd) (name : Name) : Keeps (Untouched w₀) (stat dir name) :=
  fun _ hw => hw

theorem names_untouched (dir : Fd) : Keeps (Untouched w₀) (names dir) := fun _ hw => hw

theorem openDir_untouched (dir : Fd) (name : Name) : Keeps (Untouched w₀) (openDir dir name) := by
  refine .get_bind fun w _ => ?_
  split
  · exact .throw _
  · exact .bind (act_untouched _ _) fun _ => .pure _
  · exact .throw _

theorem openFile_untouched (dir : Fd) (name : Name) : Keeps (Untouched w₀) (openFile dir name) := by
  refine .get_bind fun w _ => ?_
  split
  · exact .throw _
  · exact .bind (act_untouched _ _) fun _ => .pure _
  · exact .throw _
  · exact .pure _
  · exact .pure _

theorem content_untouched (file : Opened) : Keeps (Untouched w₀) (content file) := by
  refine .get_bind fun w _ => ?_
  split
  · exact .throw _
  · split
    · exact .pure _
    · exact .pure _

theorem readLink_untouched (dir : Fd) (name : Name) : Keeps (Untouched w₀) (readLink dir name) := by
  refine .get_bind fun w _ => ?_
  split
  · exact .throw _
  · exact .pure _
  · exact .throw _

theorem hashIn_untouched (digest : Digest) (dir : Fd) (name : Name) (len : Option ℕ) :
    Keeps (Untouched w₀) (Receiver.hashIn digest dir name len) := by
  refine .bind (openFile_untouched dir name) fun file => ?_
  exact .bind (content_untouched file) fun _ => .pure _

/-- An entry removed in a dry run is only counted, with all it holds. -/
theorem remove_untouched (more : ℕ) (dir : Fd) (name : Name) :
    Keeps (Untouched w₀) (remove true more dir name) := by
  -- What is not dry is not done.
  have hwith : ∀ (inner : Option (Fd → Name → Fs ℕ)),
      (∀ f, inner = some f → ∀ dir name, Keeps (Untouched w₀) (f dir name)) → ∀ dir name,
        Keeps (Untouched w₀) (removeWith true inner dir name) := by
    intro inner hinner dir name
    refine .bind (stat_untouched dir name) fun there => ?_
    split
    · exact .pure _
    · exact .throw _
    · next remove _ =>
      refine .bind (openDir_untouched dir name) fun sub => ?_
      refine .bind (.onlyIf fun h => by cases h) fun _ => ?_
      refine .bind (names_untouched sub) fun entries => ?_
      refine .bind (.foldlM (fun n entry => .map (hinner remove rfl sub entry) _) _ _) fun _ => ?_
      exact .bind (.onlyIf fun h => by cases h) fun _ => .pure _
    · exact .bind (.onlyIf fun h => by cases h) fun _ => .pure _
  induction more generalizing dir name with
  | zero => exact hwith none (fun _ h => by cases h) dir name
  | succ more ih =>
    refine hwith _ (fun f hf dir name => ?_) dir name
    cases hf
    exact ih dir name

/-! ### The target -/

theorem openDirPath_untouched (site : Site) (path : Bytes) :
    Keeps (Untouched w₀) (openDirPath site path) := by
  refine .get_bind fun w _ => ?_
  split
  · exact .throw _
  · exact .bind (act_untouched _ _) fun _ => .pure _
  · exact .throw _

/-- Nothing is made where there is something: `mkdir` is refused, and that is all. -/
theorem createDirAll_untouched {site : Site} {parts : List Component} {w : World} (more : ℕ)
    (hexists : site.exists w.disk (pathOf parts) = true) (hw : Untouched w₀ w) :
    wp (createDirAll site more parts) (fun _ => Untouched w₀) (fun _ => Untouched w₀) w := by
  have hmkdir : mkdir site parts w = .error .other w := by
    have hfound := Namei.lookup_unfollowed hexists
    rw [mkdir, get_bind]
    cases hlookup : site.find w.disk false (pathOf parts) with
    | error e =>
      simp only [Site.find] at hlookup
      simp [hlookup, Except.isOk, Except.toBool] at hfound
    | ok found => rfl
  cases more with
  | zero => exact hw
  | succ more =>
    rw [createDirAll, wp_ite]
    refine ⟨fun _ => hw, fun _ => ?_⟩
    simp only [wp, createDirWith, hmkdir]
    cases site.isDir w.disk (pathOf parts) with
    | true => exact hw
    | false => exact hw

/-- In a dry run only what exists is opened: what is missing is counted, and nothing opened. -/
theorem madePath_untouched {site : Site} {parts : List Component} {w : World} {dry : Bool}
    (hdry : dry = false → site.exists w.disk (pathOf parts) = true) (hw : Untouched w₀ w) :
    wp (madePath site parts dry) (fun _ => Untouched w₀) (fun _ => Untouched w₀) w := by
  unfold madePath
  cases dry with
  | true => exact hw
  | false =>
    simp only [Bool.false_eq_true, if_false, wp_bind]
    refine wp_mono (createDirAll_untouched _ (hdry rfl) hw) (fun _ t ht => ?_) fun _ _ h => h
    exact Keeps.map (openDirPath_untouched site _) some t ht

/-- Where none of a path and its parents counts as missing, it exists. -/
theorem exists_of_madeDirs {site : Site} {disk : Disk} {more : ℕ} {parts : List Component}
    (hne : parts ≠ []) (h : madeDirs site disk (more + 1) parts = 0) :
    site.exists disk (pathOf parts) = true := by
  unfold madeDirs at h
  split at h
  · next hfound => simpa [hne] using hfound
  · omega

theorem walkMaking_untouched (dir : Fd) (names : List Name) (made : ℕ) :
    Keeps (Untouched w₀) (walkMaking true dir names made) := by
  induction names generalizing dir made with
  | nil => exact .pure _
  | cons name names ih =>
    intro w hw
    have hopen := openDir_untouched dir name w hw
    simp only [wp, walkMaking] at hopen ⊢
    cases hdir : openDir dir name w with
    | ok next w' =>
      rw [hdir] at hopen
      exact ih next made w' hopen
    | error e w' =>
      rw [hdir] at hopen
      cases e <;> exact hopen

theorem ioAt_untouched {α : Type} {x : Fs α} {w : World} (path : Bytes)
    (h : wp x (fun _ => Untouched w₀) (fun _ => Untouched w₀) w) :
    wp (ioAt path x) (fun _ => Untouched w₀) (fun _ => Untouched w₀) w := by
  simp only [wp, ioAt] at h ⊢
  cases hx : x w with
  | ok a t => rwa [hx] at h
  | error e t => rwa [hx] at h

theorem resolveNamed_untouched (site : Site) (path : Bytes) :
    Keeps (Untouched w₀) (resolveNamed site path true) := by
  unfold resolveNamed
  dsimp only
  split
  · exact .throw _
  · intro w hw
    rw [wp_bind, wp_get, wp_bind]
    refine wp_mono (ioAt_untouched path (madePath_untouched (fun hmade => ?_) hw))
      (fun _ _ h => h) fun _ _ h => h
    -- It is opened only if nothing is missing.
    refine exists_of_madeDirs ?_ (by simpa using hmade)
    cases hup : parent (components path) with
    | none => simp
    | some up =>
      cases up with
      | nil => simp [Option.filter]
      | cons part up => simp [Option.filter]

theorem resolvePath_untouched (site : Site) (path : Bytes) (count : ℕ) :
    Keeps (Untouched w₀) (resolvePath site path count true) := by
  refine .get_bind fun w _ => ?_
  split
  · refine .bind (fun w hw => ioAt_untouched path ?_) fun _ => .pure _
    exact openDirPath_untouched site path w hw
  · exact .ite (.throw _) (.ite (.throw _) (resolveNamed_untouched site path))
  · refine .ite (.throw _) (.ite ?_ (resolveNamed_untouched site path))
    refine .get_bind fun w _ => .bind (fun w hw => ioAt_untouched path ?_) fun _ => .pure _
    exact madePath_untouched (fun h => by cases h) hw

theorem ioAt_keeps {α : Type} {x : Fs α} (shown : Bytes) (hx : Keeps (Untouched w₀) x) :
    Keeps (Untouched w₀) (ioAt shown x) := fun w hw => ioAt_untouched shown (hx w hw)

theorem resolveLast_untouched (shown : Bytes) (last : Name) (count : ℕ) (namesDir : Bool)
    (up : Option Fd) (made : ℕ) :
    Keeps (Untouched w₀) (resolveLast true shown last count namesDir up made) := by
  have hthere : Keeps (Untouched w₀) (statLast shown last up) := by
    cases up with
    | some fd => exact ioAt_keeps shown (stat_untouched fd last)
    | none => exact .pure _
  refine .bind hthere fun there => ?_
  split
  · exact .bind (ioAt_keeps shown (openDir_untouched _ last)) fun _ => .pure _
  · exact .pure _
  · exact .throw _
  · exact .ite (.throw _) (.ite (.throw _) (.pure _))
  · exact .ite (.bind (ioAt_keeps shown (walkMaking_untouched _ _ _)) fun _ => .pure _) (.pure _)
  · exact .ite (.pure _) (.pure _)

/-- Resolving a scoped target touches nothing. -/
theorem resolveBeneath_untouched (site : Site) (root : Bytes) (path : Path) (dir : Bool)
    (count : ℕ) : Keeps (Untouched w₀) (resolveBeneath site root path dir count true) := by
  refine .bind (ioAt_keeps path.bytes (openDirPath_untouched site root)) fun fd => ?_
  split
  · exact .pure _
  · next last _ =>
    refine .bind (ioAt_keeps path.bytes (walkMaking_untouched fd _ 0)) fun r => ?_
    exact resolveLast_untouched path.bytes last count _ r.1 r.2

/-- Resolving the target of a dry run makes no directory. -/
theorem resolve_untouched (site : Site) (dest : Dest) (count : ℕ) :
    Keeps (Untouched w₀) (resolve site dest count true) := by
  cases dest with
  | path path => exact resolvePath_untouched site path count
  | beneath root path dir => exact resolveBeneath_untouched site root path dir count

end

namespace Receiver

/-- A receiver of a dry run that has done nothing to the disk since `w₀`: no file's bytes come, and
no directory awaits its mode. -/
structure Dry (w₀ : World) (r : Receiver) : Prop where
  dry : r.opts.dryRun = true
  closing : r.closing = []
  receiving : r.receiving = none
  untouched : Untouched w₀ r.world

section

variable {w₀ : World}

/-! ### The steps of an item -/

theorem io_dry {α : Type} {x : Fs α} (rel : Path) (hx : Keeps (Untouched w₀) x) :
    Keeps (Dry w₀) (io rel x) := by
  intro r hr
  rw [wp_io]
  exact wp_mono (hx r.world hr.untouched)
    (fun _ w hw => ⟨hr.dry, hr.closing, hr.receiving, hw⟩)
    fun _ w hw => ⟨hr.dry, hr.closing, hr.receiving, hw⟩

theorem count_dry (f : Summary → Summary) : Keeps (Dry w₀) (count f) :=
  .modify fun _ hr => ⟨hr.dry, hr.closing, hr.receiving, hr.untouched⟩

theorem statIn_untouched (dir : Dir) (name : Name) : Keeps (Untouched w₀) (statIn dir name) := by
  unfold statIn
  split
  · exact .pure _
  · exact stat_untouched _ name

theorem place_dry (name : Name) : Keeps (Dry w₀) (place name) := by
  refine .get_bind fun r hr => ?_
  split
  · exact .pure _
  · refine .bind (.set ⟨hr.dry, hr.closing, hr.receiving, hr.untouched⟩) fun _ => ?_
    split
    · exact .pure _
    · exact .bind (.onlyIf fun _ => .throw _) fun _ => .pure _

theorem saw_dry (name : Name) : Keeps (Dry w₀) (saw name) := by
  refine .get_bind fun r hr => ?_
  split
  · refine .ite (.pure _) ?_
    refine .bind (.set ⟨hr.dry, hr.closing, hr.receiving, hr.untouched⟩) fun _ => ?_
    exact .onlyIf fun _ => .throw _
  · exact .pure _

theorem open_dry (fd : Option Fd) (rel : Path) (mode : Option Mode) (mtime : Option Time)
    (parent : ℕ) : Keeps (Dry w₀) (open_ fd rel mode mtime parent) :=
  .modify fun _ hr => ⟨hr.dry, hr.closing, hr.receiving, hr.untouched⟩

theorem removeEntry_dry (dir : Fd) (name : Name) (rel : Path) :
    Keeps (Dry w₀) (removeEntry dir name rel) := by
  refine .get_bind fun r hr => ?_
  rw [hr.dry]
  refine .bind (io_dry rel (remove_untouched _ dir name)) fun removed => ?_
  exact .bind (count_dry _) fun _ => .onlyIf fun _ => count_dry _

theorem clearWay_dry (parent : Dir) (name : Name) (rel : Path) :
    Keeps (Dry w₀) (clearWay parent name rel) := by
  refine .get_bind fun r hr => .bind (io_dry rel (statIn_untouched parent name)) fun there => ?_
  split
  · exact .pure _
  · exact .pure _
  · exact .throw _
  · next fd _ _ _ _ =>
    refine .bind (.onlyIf fun _ => .throw _) fun _ => ?_
    exact .bind (removeEntry_dry fd name rel) fun _ => .pure _
  · exact .throw _

/-- A directory that is not there is not made. -/
theorem openMade_dry (parent : Dir) (name : Name) (rel : Path) (made : Bool) :
    Keeps (Dry w₀) (openMade parent name rel made) := by
  refine .get_bind fun r hr => ?_
  dsimp only
  rw [hr.dry]
  split
  · next dir _ hmade =>
    have hmade : made = false := hmade
    refine .bind (.onlyIf fun h => ?_) fun _ => .map (io_dry rel (openDir_untouched dir name)) some
    rw [hmade] at h
    cases h
  · exact .pure _

theorem enter_dry (parent : Dir) (name : Name) (mode : Mode) (mtime : Option Time) :
    Keeps (Dry w₀) (enter parent name mode mtime) := by
  refine .get_bind fun r _ => .get_bind fun _ _ => ?_
  refine .bind (.onlyIf fun _ => .throw _) fun _ => .bind (saw_dry name) fun _ => ?_
  refine .bind (clearWay_dry parent name _) fun made => ?_
  refine .bind (.onlyIf fun _ => count_dry _) fun _ => ?_
  refine .bind (.onlyIf fun _ => count_dry _) fun _ => ?_
  exact .bind (openMade_dry parent name _ made) fun fd => open_dry fd _ _ _ _

theorem contents_dry (mode : Mode) (mtime : Option Time) :
    Keeps (Dry w₀) (contents mode mtime) := by
  refine .get_bind fun r _ => ?_
  split
  · next named _ => exact .bind (place_dry named) fun at_ => enter_dry at_.1 at_.2 mode mtime
  · exact open_dry _ _ _ _ _

/-! #### Directories ended -/

/-- No directory awaits its mode. -/
theorem closeAll_dry : Keeps (Dry w₀) closeAll := by
  refine .get_bind fun r hr => ?_
  rw [hr.closing]
  exact .pure _

theorem prune_dry (dir : Dir) (fd : Fd) (seen : List Name) (entry : Name) :
    Keeps (Dry w₀) (prune dir fd seen entry) :=
  .get_bind fun _ _ => .onlyIf fun _ => removeEntry_dry fd entry _

theorem pruneAll_dry (dir : Dir) (seen : List Name) : Keeps (Dry w₀) (pruneAll dir seen) := by
  refine .bind (.modify fun _ hr => ⟨hr.dry, hr.closing, hr.receiving, hr.untouched⟩) fun _ => ?_
  refine .onSome fun fd _ => .bind (io_dry dir.rel (names_untouched fd)) fun entries => ?_
  exact .forM (prune_dry dir fd seen) entries

theorem leave_dry : Keeps (Dry w₀) leave := by
  refine .get_bind fun r hr => ?_
  split
  · exact .throw _
  · next dir seen _ _ =>
    refine .bind (.set ⟨hr.dry, hr.closing, hr.receiving, hr.untouched⟩) fun _ => ?_
    refine .bind (.onSome fun seen _ => pruneAll_dry dir seen) fun _ => ?_
    refine .bind (.onlyIf fun hwet => ?_) fun _ => closeAll_dry
    rw [hr.dry] at hwet
    cases hwet

/-! #### Files and symlinks -/

theorem want_dry (digest : Digest) (dir : Dir) (header : FileHeader) (rel : Path) :
    Keeps (Dry w₀) (want digest dir header rel) := by
  refine .bind (saw_dry _) fun _ => .bind (io_dry rel (statIn_untouched dir _)) fun part => ?_
  split
  · next fd _ =>
    exact .ite (.bind (io_dry rel (hashIn_untouched digest fd _ _)) fun _ => .pure _) (.pure _)
  · exact .pure _

theorem answerTo_dry (digest : Digest) (dir : Dir) (header : FileHeader) (rel : Path)
    (there : Option Stat) : Keeps (Dry w₀) (answerTo digest dir header rel there) := by
  unfold answerTo
  split
  · next fd _ =>
    refine .ite (.throw _) (.ite ?_ (want_dry digest dir header rel))
    exact .map (io_dry rel (hashIn_untouched digest fd header.name none)) _
  · exact .ite (.throw _) (want_dry digest dir header rel)
  · exact want_dry digest dir header rel

theorem file_dry (digest : Digest) (dir : Dir) (header : FileHeader) :
    Keeps (Dry w₀) (file digest dir header) := by
  refine .get_bind fun r _ => .bind (.onlyIf fun _ => .throw _) fun _ => ?_
  refine .bind (saw_dry header.name) fun _ => ?_
  refine .bind (io_dry _ (statIn_untouched dir header.name)) fun there => ?_
  refine .bind (answerTo_dry digest dir header _ there) fun answer => ?_
  refine .bind (.modify fun _ hr => ?_) fun _ => .pure _
  exact ⟨hr.dry, hr.closing, hr.receiving, hr.untouched⟩

theorem take_dry (id : FileId) : Keeps (Dry w₀) (take id) := by
  refine .get_bind fun r hr => ?_
  split
  · exact .throw _
  · exact .bind (.set ⟨hr.dry, hr.closing, hr.receiving, hr.untouched⟩) fun _ => .pure _

theorem differs_dry (id : FileId) (start : ℕ) : Keeps (Dry w₀) (differs id start) := by
  refine .bind (take_dry id) fun p => .bind (count_dry _) fun _ => ?_
  -- What would be written is counted and listed.
  refine .get_bind fun r _ => .bind (count_dry _) fun _ => ?_
  exact .bind (.onlyIf fun _ => count_dry _) fun _ => .onlyIf fun _ => count_dry _

/-- A file that is the same takes neither the source's mode nor its time. -/
theorem same_dry (id : FileId) : Keeps (Dry w₀) (same id) := by
  refine .bind (take_dry id) fun p => .bind (count_dry _) fun _ => .get_bind fun r hr => ?_
  dsimp only
  rw [hr.dry]
  exact .pure _

theorem linked_untouched (dir : Dir) (name : Name) (link : LinkTarget) (there : Option Kind) :
    Keeps (Untouched w₀) (linked dir name link there) := by
  unfold linked
  split
  · exact .map (readLink_untouched _ name) _
  · exact .pure _

theorem layLink_dry (digest : Digest) (dir : Dir) (name : Name) (link : LinkTarget) (rel : Path)
    (there : Option Kind) : Keeps (Dry w₀) (layLink digest dir name link rel there) := by
  refine .get_bind fun r hr => ?_
  rw [hr.dry]
  exact count_dry _

theorem symlink_dry (digest : Digest) (dir : Dir) (name : Name) (link : LinkTarget) :
    Keeps (Dry w₀) (symlink digest dir name link) := by
  refine .bind (saw_dry name) fun _ => .bind (io_dry _ (statIn_untouched dir name)) fun there => ?_
  refine .bind (.onlyIf fun _ => .throw _) fun _ => ?_
  refine .bind (io_dry _ (linked_untouched dir name link _)) fun same => .onlyIf fun _ => ?_
  exact .bind (layLink_dry digest dir name link _ _) fun _ => count_dry _

/-! ### An item -/

/-- No item between files touches anything. -/
theorem itemBetween_dry (digest : Digest) (i : Item) : Keeps (Dry w₀) (itemBetween digest i) := by
  cases i with
  | allDone => exact .get_bind fun _ _ => .bind (.onlyIf fun _ => .throw _) fun _ => .pure _
  | failed failure => exact .throw _
  | dirEnd => exact .bind leave_dry fun _ => .pure _
  | skipped name =>
    refine .get_bind fun _ _ => .bind (.onlyIf fun _ => .throw _) fun _ => ?_
    exact .bind (saw_dry name) fun _ => .bind (count_dry _) fun _ => .pure _
  | data id start =>
    -- No file's bytes are to come.
    refine .get_bind fun r hr => ?_
    rw [hr.dry]
    exact fun r hr => hr
  | differs id start =>
    refine .get_bind fun _ _ => .bind (.onlyIf fun _ => .throw _) fun _ => ?_
    exact .bind (differs_dry id start) fun _ => .pure _
  | same id => exact .bind (same_dry id) fun _ => .pure _
  | contents mode mtime =>
    refine .get_bind fun _ _ => .bind (.onlyIf fun _ => .throw _) fun _ => ?_
    exact .bind (contents_dry mode mtime) fun _ => .pure _
  | dir name mode mtime =>
    refine .bind (place_dry name) fun at_ => ?_
    exact .bind (enter_dry at_.1 at_.2 mode mtime) fun _ => .pure _
  | file header =>
    exact .bind (place_dry header.name) fun at_ => .map (file_dry digest at_.1 _) _
  | symlink name target =>
    refine .bind (place_dry name) fun at_ => ?_
    exact .bind (symlink_dry digest at_.1 at_.2 target) fun _ => .pure _
  | chunk c => exact .throw _
  | sent => exact .throw _

/-- No item of a dry run does anything to the disk, well formed or not. -/
theorem item_dry (digest : Digest) (i : Item) : Keeps (Dry w₀) (item digest i) := by
  refine .get_bind fun r hr => ?_
  rw [hr.receiving]
  exact itemBetween_dry digest i

/-- Nor do all items. -/
theorem feed_dry (digest : Digest) (items : List Item) : Keeps (Dry w₀) (feed digest items) := by
  induction items with
  | nil => exact .throw _
  | cons i items ih =>
    refine .bind (item_dry digest i) fun heard => ?_
    split
    · exact .pure _
    · exact ih

end

end Receiver

/-! ### A copy -/

/-- A dry run does nothing to the disk, whatever its destination, and whatever items come: what
there is stays as it is, and all that was done is that directories were opened. -/
theorem dry_run_untouched (digest : Digest) (site : Site) (dest : Dest) (count : ℕ) (opts : Opts)
    (items : List Item) (w : World) (hdry : opts.dryRun = true) :
    Untouched w (land digest site dest count opts items w).2 := by
  have hresolve := resolve_untouched site dest count w (Untouched.refl w)
  simp only [wp] at hresolve
  simp only [land, hdry]
  cases hr : resolve site dest count true w with
  | error e w' =>
    rw [hr] at hresolve
    exact hresolve
  | ok landed w' =>
    rw [hr] at hresolve
    have hstart : (Receiver.start w' landed.1 opts).Dry w := ⟨hdry, rfl, rfl, hresolve⟩
    have hfeed := Receiver.feed_dry digest items _ hstart
    simp only [wp] at hfeed
    cases hf : Receiver.feed digest items (Receiver.start w' landed.1 opts) with
    | error e r =>
      rw [hf] at hfeed
      simpa only [hf] using hfeed.untouched
    | ok heard r =>
      rw [hf] at hfeed
      cases heard <;> simpa only [hf] using hfeed.untouched

/-- A file where a directory comes, which `--delete` would remove, is there after a dry run. -/
theorem dry_run_keeps_file :
    let w : World := ⟨⟨fun _ => ⟨[(⟨[0x61], by decide⟩, .file [1, 2] 0o644 none)], 0o755, none,
      false⟩, 1⟩, []⟩
    (land id ⟨0, 0⟩ (.path [0x2f]) 1 ⟨false, true, true, ⟨[], by decide⟩⟩
      [.dir ⟨[0x61], by decide⟩ ⟨0o755, by decide⟩ none, .dirEnd, .allDone] w).2.disk = w.disk :=
  (dry_run_untouched id ⟨0, 0⟩ (.path [0x2f]) 1 ⟨false, true, true, ⟨[], by decide⟩⟩
    [.dir ⟨[0x61], by decide⟩ ⟨0o755, by decide⟩ none, .dirEnd, .allDone] _ rfl).disk

end Koh.Sync
