import Koh.Sync.Effect

/-!
# What the receiver fails with

A receiver fails with `Malformed` for what it is sent alone: no call that fails,
no bound that is met, and nothing it finds in the destination makes it say so.

## Main definitions

- `Civil`: a failure other than `Malformed`
- `Receiver.Ready`: an item that is in its place

## Main results

- `Receiver.item_civil`: an item in its place fails with a `Civil` failure, if it fails
-/

namespace Koh.Sync

def Civil (failure : Failure) : Prop := failure.kind ≠ .malformed

namespace Receiver

variable {α : Type}

theorem io_civil (rel : Path) (x : Fs α) : Fails Civil (io rel x) := by
  intro r
  rw [wp_io]
  simp only [wp]
  cases x r.world with
  | ok a w => trivial
  | error e w => cases e <;> simp [Civil, Failure.new, FailKind.of]

theorem count_civil (f : Summary → Summary) : Fails Civil (count f) := .modify _

/-! ### Methods that are civil whatever they are called with -/

theorem saw_civil (name : Name) : Fails Civil (saw name) := by
  refine .bind .get fun r => ?_
  split
  · refine .ite (.pure ()) (.bind (.set _) fun _ => .onlyIf (.throw ?_))
    simp [Civil, Failure.new]
  · exact .pure ()

theorem open_civil (fd : Option Fd) (rel : Path) (mode : Option Mode) (mtime : Option Time)
    (parent : ℕ) : Fails Civil (open_ fd rel mode mtime parent) := .modify _

theorem removeEntry_civil (dir : Fd) (name : Name) (rel : Path) :
    Fails Civil (removeEntry dir name rel) :=
  .bind .get fun _ => .bind (io_civil rel _) fun _ => .bind (count_civil _) fun _ =>
    .onlyIf (count_civil _)

theorem clearWay_civil (parent : Dir) (name : Name) (rel : Path) :
    Fails Civil (clearWay parent name rel) := by
  refine .bind .get fun r => .bind (io_civil rel _) fun there => ?_
  split
  · exact .pure _
  · exact .pure _
  · exact .throw (by simp [Civil, Failure.new])
  · refine .bind (.onlyIf (.throw (by simp [Civil, Failure.new]))) fun _ => ?_
    exact .bind (removeEntry_civil _ name rel) fun _ => .pure _
  · exact .throw (by simp [Civil, Failure.new])

theorem openMade_civil (parent : Dir) (name : Name) (rel : Path) (made : Bool) :
    Fails Civil (openMade parent name rel made) := by
  refine .bind .get fun r => ?_
  dsimp only
  split
  · exact .bind (.onlyIf (io_civil rel _)) fun _ => .map (io_civil rel _) _
  · exact .pure _

theorem enter_civil (parent : Dir) (name : Name) (mode : Mode) (mtime : Option Time) :
    Fails Civil (enter parent name mode mtime) :=
  .bind .get fun _ => .bind .get fun _ =>
    .bind (.onlyIf (.throw (by simp [Civil, Failure.new]))) fun _ =>
    .bind (saw_civil name) fun _ => .bind (clearWay_civil parent name _) fun _ =>
    .bind (.onlyIf (count_civil _)) fun _ => .bind (.onlyIf (count_civil _)) fun _ =>
    .bind (openMade_civil parent name _ _) fun _ => open_civil _ _ _ _ _

theorem settle_civil (dir : Dir) : Fails Civil (settle dir) :=
  .onSome fun _ => .bind (.onSome fun _ => io_civil dir.rel _) fun _ =>
    .onSome fun _ => io_civil dir.rel _

theorem closeReady_civil (turns : ℕ) : Fails Civil (closeReady turns) := by
  induction turns with
  | zero => exact .pure ()
  | succ turns ih =>
    refine .bind .get fun r => ?_
    split
    · exact .pure ()
    · exact .bind (.set _) fun _ => .bind (settle_civil _) fun _ => ih

theorem closeAll_civil : Fails Civil closeAll := .bind .get fun _ => closeReady_civil _

theorem pruneAll_civil (dir : Dir) (seen : List Name) : Fails Civil (pruneAll dir seen) :=
  .bind (.modify _) fun _ => .onSome fun fd => .bind (io_civil dir.rel _) fun entries =>
    .forM (fun entry => .bind .get fun _ => .onlyIf (removeEntry_civil fd entry _)) entries

theorem want_civil (digest : Digest) (dir : Dir) (header : FileHeader) (rel : Path) :
    Fails Civil (want digest dir header rel) := by
  refine .bind (saw_civil _) fun _ => .bind (io_civil rel _) fun kept => ?_
  split
  · exact .ite (.bind (io_civil rel _) fun _ => .pure _) (.pure _)
  · exact .pure _

theorem answerTo_civil (digest : Digest) (dir : Dir) (header : FileHeader) (rel : Path)
    (there : Option Stat) : Fails Civil (answerTo digest dir header rel there) := by
  have hdir : Civil (.new .isADirectory rel.bytes) := by simp [Civil, Failure.new]
  unfold answerTo
  split
  · exact .ite (.throw hdir) (.ite (.map (io_civil rel _) _) (want_civil digest dir header rel))
  · exact .ite (.throw hdir) (want_civil digest dir header rel)
  · exact want_civil digest dir header rel

theorem wrote_civil (p : Pending) (start : ℕ) : Fails Civil (wrote p start) :=
  .bind .get fun _ => .bind (count_civil _) fun _ => .bind (.onlyIf (count_civil _)) fun _ =>
    .onlyIf (count_civil _)

theorem chunk_civil (rc : Receiving) (bytes : Bytes) : Fails Civil (chunk rc bytes) :=
  .bind (count_civil _) fun _ => .bind (io_civil _ _) fun _ => .modify _

theorem finish_civil (digest : Digest) (rc : Receiving) : Fails Civil (finish digest rc) :=
  .bind .get fun _ => .bind (.set _) fun _ => .bind (io_civil _ _) fun _ =>
    .bind (.onSome fun _ => io_civil _ _) fun _ => .bind (io_civil _ _) fun _ =>
    .bind (wrote_civil _ _) fun _ => closeAll_civil

theorem touch_civil (fd : Fd) (p : Pending) (keepTimes : Bool) : Fails Civil (touch fd p keepTimes) :=
  .bind (io_civil _ _) fun _ => .bind (io_civil _ _) fun _ => .bind (.onlyIf (io_civil _ _)) fun _ =>
    .bind (.onSome fun _ => io_civil _ _) fun _ => closeAll_civil

/-! ### Items in their place -/

/-- Item `i` is in its place: the directory it ends is open, the file it is of is
pending, and what it lands in has a descriptor, but in a dry run. -/
def Ready (r : Receiver) : Item → Prop
  | .allDone => r.receiving = none ∧ r.opened = [] ∧ r.pending = []
  | .failed failure => r.receiving = none ∧ Civil failure
  | .dirEnd => r.receiving = none ∧ r.opened ≠ []
  | .skipped _ => r.receiving = none ∧ r.opened ≠ []
  | .data id _ => r.receiving = none ∧ r.opts.dryRun = false ∧
    ∃ p, r.pending.find? (·.header.id = id) = some p ∧ p.dir.fd.isSome
  | .differs id _ => r.receiving = none ∧ r.opts.dryRun = true ∧
    (r.pending.find? (·.header.id = id)).isSome
  | .same id => r.receiving = none ∧ ∃ p, r.pending.find? (·.header.id = id) = some p ∧
    (r.opts.dryRun = false → p.dir.fd.isSome)
  | .contents _ _ => r.receiving = none ∧ r.opened = [] ∧ (r.named.isSome → r.placed = 0)
  | .dir _ _ _ => r.receiving = none ∧ (r.opened = [] → r.named.isSome → r.placed = 0)
  | .file header => r.receiving = none ∧ (r.opened = [] → r.named.isSome → r.placed = 0) ∧
    r.pending.length < WINDOW ∧ header.id ∉ r.pending.map (·.header.id)
  | .symlink name _ => r.receiving = none ∧ (r.opened = [] → r.named.isSome → r.placed = 0) ∧
    (r.opts.dryRun = false → (r.spot name).1.fd.isSome)
  | .chunk _ => r.receiving.isSome
  | .sent => r.receiving.isSome

variable {r : Receiver}

/-- The entry at the top that has a name to land as is the first there. -/
theorem place_ok {name : Name} (htop : r.opened = [] → r.named.isSome → r.placed = 0) :
    place name r = .ok (r.spot name) r.stepped := by
  cases hopened : r.opened with
  | cons top more =>
    simp only [place, get_bind, hopened, spot, stepped]
    rfl
  | nil =>
    cases hnamed : r.named with
    | none =>
      simp only [place, get_bind, set_bind, hopened, hnamed, spot, stepped]
      rfl
    | some named =>
      have hplaced := htop hopened (by simp [hnamed])
      simp only [place, get_bind, set_bind, hopened, hnamed, spot, stepped]
      rw [hplaced]
      rfl

theorem place_civil {name : Name} {f : Dir × Name → Rx α}
    (htop : r.opened = [] → r.named.isSome → r.placed = 0)
    (hf : wp (f (r.spot name)) (fun _ _ => True) (fun e _ => Civil e) r.stepped) :
    wp (place name >>= f) (fun _ _ => True) (fun e _ => Civil e) r := by
  rw [wp_bind]
  simpa only [wp, place_ok htop] using hf

theorem take_civil {id : FileId} {p : Pending} {f : Pending → Rx α}
    (hfind : r.pending.find? (·.header.id = id) = some p)
    (hf : wp (f p) (fun _ _ => True) (fun e _ => Civil e)
      { r with pending := r.pending.filter (·.header.id ≠ id) }) :
    wp (take id >>= f) (fun _ _ => True) (fun e _ => Civil e) r := by
  rw [wp_bind, take, wp_bind, wp_get]
  simp only [hfind, wp_bind, wp_set, wp_pure]
  exact hf

theorem data_civil (digest : Digest) {id : FileId} {start : ℕ} {p : Pending}
    (hfind : r.pending.find? (·.header.id = id) = some p) (hfd : p.dir.fd.isSome) :
    wp (data digest id start) (fun _ _ => True) (fun e _ => Civil e) r := by
  obtain ⟨fd, hfd⟩ := Option.isSome_iff_exists.mp hfd
  refine take_civil hfind ?_
  simp only [hfd]
  exact (Fails.bind (io_civil _ _) fun _ => .bind (io_civil _ _) fun _ => .modify _) _

theorem same_civil {id : FileId} {p : Pending} (hfind : r.pending.find? (·.header.id = id) = some p)
    (hfd : r.opts.dryRun = false → p.dir.fd.isSome) :
    wp (same id) (fun _ _ => True) (fun e _ => Civil e) r := by
  refine take_civil hfind ?_
  rw [wp_bind, count, wp_modify, wp_bind, wp_get]
  cases hdry : r.opts.dryRun with
  | true =>
    simp only [hdry]
    trivial
  | false =>
    obtain ⟨fd, hfd⟩ := Option.isSome_iff_exists.mp (hfd hdry)
    simp only [hdry, hfd]
    exact touch_civil fd p _ _

theorem leave_civil (hopened : r.opened ≠ []) :
    wp leave (fun _ _ => True) (fun e _ => Civil e) r := by
  rw [leave, wp_bind, wp_get]
  obtain ⟨⟨dir, seen⟩, more, hopened⟩ := List.exists_cons_of_ne_nil hopened
  simp only [hopened]
  exact (Fails.bind (.set _) fun _ => .bind (.onSome fun _ => pruneAll_civil dir _) fun _ =>
    .bind (.onlyIf (.modify _)) fun _ => closeAll_civil) r

theorem file_civil (digest : Digest) {dir : Dir} {header : FileHeader}
    (hroom : r.pending.length < WINDOW) (hnew : header.id ∉ r.pending.map (·.header.id)) :
    wp (file digest dir header) (fun _ _ => True) (fun e _ => Civil e) r := by
  rw [file, wp_bind, wp_get, wp_bind, wp_onlyIf]
  refine ⟨fun hno => absurd hno (by simp [hnew, hroom]), fun _ => ?_⟩
  exact (Fails.bind (saw_civil _) fun _ => .bind (io_civil _ _) fun _ =>
    .bind (answerTo_civil digest dir header _ _) fun _ => .bind (.modify _) fun _ => .pure _) r

/-- A call fails civilly, and leaves the receiver's options. -/
theorem io_opts (rel : Path) (x : Fs α) :
    wp (io rel x) (fun _ r' => r'.opts = r.opts) (fun e _ => Civil e) r := by
  have hcivil := io_civil rel x r
  rw [wp_io] at hcivil ⊢
  exact wp_mono hcivil (fun _ _ _ => rfl) fun _ _ h => h

theorem layLink_civil (digest : Digest) {dir : Dir} {name : Name} {link : LinkTarget} {rel : Path}
    {there : Option Kind} (hfd : r.opts.dryRun = false → dir.fd.isSome) :
    wp (layLink digest dir name link rel there) (fun _ _ => True) (fun e _ => Civil e) r := by
  rw [layLink, wp_bind, wp_get]
  cases hdry : r.opts.dryRun with
  | true => trivial
  | false =>
    obtain ⟨fd, hfd⟩ := Option.isSome_iff_exists.mp (hfd hdry)
    cases there <;> simp only [hfd] <;> exact io_civil _ _ r

theorem symlink_civil (digest : Digest) {dir : Dir} {name : Name} {link : LinkTarget}
    (hfd : r.opts.dryRun = false → dir.fd.isSome) :
    wp (symlink digest dir name link) (fun _ _ => True) (fun e _ => Civil e) r := by
  rw [symlink, wp_bind]
  refine wp_mono (wp_and (saw_gives (r := r) name) (saw_civil name r)) ?_ fun _ _ h => h.2
  rintro - r₁ ⟨⟨hstill, -⟩, -⟩
  rw [wp_bind]
  refine wp_mono (io_opts _ _) (fun there r₂ hopts₂ => ?_) fun _ _ h => h
  rw [wp_bind, wp_onlyIf]
  refine ⟨fun _ => by simp [Civil, Failure.new], fun _ => ?_⟩
  rw [wp_bind]
  refine wp_mono (io_opts _ _) (fun same r₃ hopts₃ => ?_) fun _ _ h => h
  rw [wp_onlyIf]
  refine ⟨fun _ => ?_, fun _ => trivial⟩
  have hopts : r₃.opts = r.opts := hopts₃.trans (hopts₂.trans hstill.opts)
  exact Fails.bind_of (layLink_civil digest (hopts.symm ▸ hfd)) fun _ => count_civil _

theorem contents_civil {mode : Mode} {mtime : Option Time} (htop : r.named.isSome → r.placed = 0) :
    wp (contents mode mtime) (fun _ _ => True) (fun e _ => Civil e) r := by
  rw [contents, wp_bind, wp_get]
  cases hnamed : r.named with
  | none => exact open_civil _ _ _ _ _ r
  | some named =>
    exact place_civil (fun _ => htop) (enter_civil _ _ mode mtime _)

/-- An item in its place fails, if it fails, with what is not its own fault. -/
theorem item_civil (digest : Digest) {i : Item} (h : r.Ready i) :
    wp (item digest i) (fun _ _ => True) (fun e _ => Civil e) r := by
  have hthen : ∀ {x : Rx Unit} {r₀ : Receiver},
      wp x (fun _ _ => True) (fun e _ => Civil e) r₀ →
      wp (do x; return Heard.nothing) (fun _ _ => True) (fun e _ => Civil e) r₀ :=
    fun hx => Fails.bind_of hx fun _ => .pure _
  rw [item, wp_bind, wp_get]
  cases i with
  | allDone =>
    obtain ⟨hrc, hopened, hpending⟩ := h
    simp only [hrc, itemBetween, wp_bind, wp_get, wp_onlyIf, wp_throw, wp_pure]
    simp [hopened, hpending]
  | failed failure =>
    obtain ⟨hrc, hcivil⟩ := h
    simp only [hrc]
    exact hcivil
  | dirEnd =>
    obtain ⟨hrc, hopened⟩ := h
    simp only [hrc]
    exact hthen (leave_civil hopened)
  | skipped name =>
    obtain ⟨hrc, hopened⟩ := h
    simp only [hrc, itemBetween]
    rw [wp_bind, wp_get, wp_bind, wp_onlyIf]
    refine ⟨fun hno => absurd (List.isEmpty_iff.mp hno) hopened, fun _ => ?_⟩
    exact (Fails.bind (saw_civil name) fun _ => .bind (count_civil _) fun _ => .pure _) r
  | data id start =>
    obtain ⟨hrc, hdry, p, hfind, hfd⟩ := h
    simp only [hrc, itemBetween]
    rw [wp_bind, wp_get, wp_bind, wp_onlyIf]
    exact ⟨fun hno => absurd hno (by simp [hdry]), fun _ => hthen (data_civil digest hfind hfd)⟩
  | differs id start =>
    obtain ⟨hrc, hdry, hfind⟩ := h
    obtain ⟨p, hfind⟩ := Option.isSome_iff_exists.mp hfind
    simp only [hrc, itemBetween]
    rw [wp_bind, wp_get, wp_bind, wp_onlyIf]
    refine ⟨fun hno => absurd hno (by simp [hdry]), fun _ => hthen (take_civil hfind ?_)⟩
    exact (Fails.bind (count_civil _) fun _ => wrote_civil p start) _
  | same id =>
    obtain ⟨hrc, p, hfind, hfd⟩ := h
    simp only [hrc]
    exact hthen (same_civil hfind hfd)
  | contents mode mtime =>
    obtain ⟨hrc, hopened, htop⟩ := h
    simp only [hrc, itemBetween]
    rw [wp_bind, wp_get, wp_bind, wp_onlyIf]
    exact ⟨fun hno => absurd hno (by simp [hopened]), fun _ => hthen (contents_civil htop)⟩
  | dir name mode mtime =>
    obtain ⟨hrc, htop⟩ := h
    simp only [hrc]
    exact place_civil htop (hthen (enter_civil _ _ mode mtime _))
  | file header =>
    obtain ⟨hrc, htop, hroom, hnew⟩ := h
    simp only [hrc]
    refine place_civil htop ?_
    rw [wp_map]
    refine file_civil digest ?_ ?_
    · rwa [stepped_pending]
    · rwa [stepped_pending]
  | symlink name target =>
    obtain ⟨hrc, htop, hfd⟩ := h
    simp only [hrc]
    refine place_civil htop (hthen (symlink_civil digest ?_))
    rwa [stepped_opts]
  | chunk c =>
    obtain ⟨rc, hrc⟩ := Option.isSome_iff_exists.mp h
    simp only [hrc]
    exact hthen (chunk_civil rc c.bytes r)
  | sent =>
    obtain ⟨rc, hrc⟩ := Option.isSome_iff_exists.mp h
    simp only [hrc]
    exact hthen (finish_civil digest rc r)

end Receiver

end Koh.Sync
