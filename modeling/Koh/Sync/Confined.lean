import Koh.Sync.Receive

/-!
# The receiver is confined

Whatever items come, each call the receiver makes is on an entry of a directory
it reached from the target's by opening real directories only, and no mode it
sets has the set-user-id or set-group-id bit. There is one call that is on no
entry: the time of the target's own directory, when the source's contents go
into it and times are kept.

## Main definitions

- `Reached`: the directories reached from the target's
- `Event.Confined`: what is said of each call
-/

namespace Koh.Sync

/-- Where a receiver was let in, and whether it keeps times. -/
structure Scope where
  target : Option DirId
  keepTimes : Bool

/-- The directories reached from the target: each opened as a real directory, an
entry of one reached before. -/
inductive Reached (top : Scope) (trace : List Event) : DirId → Prop where
  | top {d : DirId} : top.target = some d → Reached top trace d
  | opened {d id : DirId} {n : Name} {disk : Disk} : Reached top trace d →
      ⟨disk, .entry d n, .opened id⟩ ∈ trace → disk.entry d n = some (.dir id) →
      Reached top trace id

/-- Neither the set-user-id nor the set-group-id bit. -/
def plainMode (mode : ℕ) : Prop := mode &&& 0o6000 = 0

/-- A call made where it may be: on an entry of a directory reached, or on the
target itself, to set its time if times are kept. -/
def Place.Allowed (top : Scope) (trace : List Event) (act : Act) : Place → Prop
  | .entry d _ => Reached top trace d
  | .target d => top.target = some d ∧ top.keepTimes = true ∧ act = .timed

/-- `e`, the calls before it being `before`, is made where it may be, and what
mode it sets is plain. -/
structure Event.Confined (top : Scope) (before : List Event) (e : Event) : Prop where
  place : e.place.Allowed top before e.act
  mode : ∀ mode, e.act = .moded mode ∨ e.act = .made mode → plainMode mode

/-- Every call of `trace`, after those before it. -/
def Calls (top : Scope) : List Event → Prop
  | [] => True
  | e :: before => e.Confined top before ∧ Calls top before

/-- What was reached stays so. -/
theorem Reached.mono {top : Scope} {d : DirId} {trace new : List Event} (h : Reached top trace d) :
    Reached top (new ++ trace) d := by
  induction h with
  | top h => exact .top h
  | opened _ hmem hentry ih => exact .opened ih (List.mem_append_right _ hmem) hentry

theorem Reached.cons {top : Scope} {d : DirId} {trace : List Event} {e : Event}
    (h : Reached top trace d) : Reached top (e :: trace) d := by
  rw [← List.singleton_append]
  exact h.mono

/-! ### Descriptors -/

/-- A place the receiver may know: an entry of a directory reached, or the target. -/
def Place.Ok (top : Scope) (trace : List Event) : Place → Prop
  | .entry d _ => Reached top trace d
  | .target d => top.target = some d

theorem Place.Ok.mono {top : Scope} {trace new : List Event} {place : Place}
    (h : place.Ok top trace) : place.Ok top (new ++ trace) := by
  cases place with
  | entry d n => exact Reached.mono h
  | target d => exact h

structure Fd.Ok (top : Scope) (trace : List Event) (fd : Fd) : Prop where
  reached : Reached top trace fd.id
  place : fd.place.Ok top trace

theorem Fd.Ok.mono {top : Scope} {trace new : List Event} {fd : Fd} (h : fd.Ok top trace) :
    fd.Ok top (new ++ trace) :=
  ⟨h.reached.mono, h.place.mono⟩

def Place.IsEntry : Place → Prop
  | .entry _ _ => True
  | .target _ => False

theorem Place.Ok.allowed {top : Scope} {trace : List Event} {place : Place} {act : Act}
    (h : place.Ok top trace) (hentry : place.IsEntry) : place.Allowed top trace act := by
  cases place with
  | entry d n => exact h
  | target d => cases hentry

/-- What a call leaves: more calls, all confined. -/
structure Grown (top : Scope) (w w' : World) : Prop where
  more : ∃ new, w'.trace = new ++ w.trace
  calls : Calls top w'.trace

theorem Grown.refl {top : Scope} {w : World} (h : Calls top w.trace) : Grown top w w :=
  ⟨⟨[], rfl⟩, h⟩

/-- One call after another. -/
theorem Grown.trans {top : Scope} {w w' w'' : World} (h : Grown top w w') (h' : Grown top w' w'') :
    Grown top w w'' := by
  obtain ⟨new, hnew⟩ := h.more
  obtain ⟨new', hnew'⟩ := h'.more
  exact ⟨⟨new' ++ new, by rw [hnew', hnew, List.append_assoc]⟩, h'.calls⟩

/-- A descriptor stays good. -/
theorem Grown.ok {top : Scope} {w w' : World} (h : Grown top w w') {fd : Fd}
    (hfd : fd.Ok top w.trace) : fd.Ok top w'.trace := by
  obtain ⟨new, hnew⟩ := h.more
  rw [hnew]
  exact hfd.mono

/-- `x` from `w` makes confined calls only, whether it ends well or fails. -/
def Confines (top : Scope) {α : Type} (x : Fs α) (w : World) : Prop :=
  wp x (fun _ => Grown top w) (fun _ => Grown top w) w

/-! ### The calls -/

variable {top : Scope} {w : World}

/-- A call at an allowed place is confined. -/
theorem act_confines {place : Place} {a : Act} {f : Disk → Disk}
    (hc : Calls top w.trace) (hplace : place.Allowed top w.trace a)
    (hmode : ∀ mode, a = .moded mode ∨ a = .made mode → plainMode mode) :
    Confines top (act place a f) w :=
  ⟨⟨[⟨w.disk, place, a⟩], rfl⟩, ⟨hplace, hmode⟩, hc⟩

/-- A call on an entry of a directory reached that sets no mode. -/
theorem act_on_confines {d : DirId} {n : Name} {a : Act} {f : Disk → Disk}
    (hc : Calls top w.trace) (hd : Reached top w.trace d)
    (hmode : ∀ mode, a = .moded mode ∨ a = .made mode → plainMode mode) :
    Confines top (act (.entry d n) a f) w :=
  have hplace : (Place.entry d n).Allowed top w.trace a := hd
  act_confines hc hplace hmode

theorem Confines.bind {α β : Type} {x : Fs α} {f : α → Fs β} (hx : Confines top x w)
    (hf : ∀ a w', Grown top w w' → Confines top (f a) w') : Confines top (x >>= f) w := by
  rw [Confines, wp_bind]
  refine wp_mono hx (fun a w' hw => ?_) fun _ _ h => h
  exact wp_mono (hf a w' hw) (fun _ _ h => hw.trans h) fun _ _ h => hw.trans h

/-- What an opened file was opened as is an entry of a directory reached. -/
structure Opened.Ok (top : Scope) (trace : List Event) (file : Opened) : Prop where
  place : file.place.Ok top trace
  entry : file.place.IsEntry

theorem Opened.Ok.mono {trace new : List Event} {file : Opened} (h : file.Ok top trace) :
    file.Ok top (new ++ trace) :=
  ⟨h.place.mono, h.entry⟩

theorem Grown.opened {w' : World} (h : Grown top w w') {file : Opened}
    (hfile : file.Ok top w.trace) : file.Ok top w'.trace := by
  obtain ⟨new, hnew⟩ := h.more
  exact hnew ▸ hfile.mono

section

variable {dir : Fd} {n : Name} (hc : Calls top w.trace) (hd : Reached top w.trace dir.id)

include hc

theorem content_confines (file : Opened) : Confines top (content file) w := by
  simp only [Confines, content, wp_bind, wp_get]
  cases file with
  | dir => exact .refl hc
  | file d n => simp only; split <;> exact .refl hc

theorem statOpened_confines (file : Opened) : Confines top (statOpened file) w := by
  simp only [Confines, statOpened, wp_bind, wp_get]
  cases file <;> exact .refl hc

theorem readLink_confines : Confines top (readLink dir n) w := by
  simp only [Confines, readLink, wp_bind, wp_get]
  split <;> exact .refl hc

theorem names_confines : Confines top (names dir) w := .refl hc

theorem chmod_confines {file : Opened} (hfile : file.Ok top w.trace) {mode : ℕ}
    (hmode : plainMode (mode &&& 0o7777)) : Confines top (chmod file mode) w := by
  refine act_confines hc (hfile.place.allowed hfile.entry) fun m hm => ?_
  rcases hm with hm | hm
  · obtain rfl : mode &&& 0o7777 = m := by simpa using hm
    exact hmode
  · cases hm

theorem setMtime_confines {file : Opened} (hfile : file.place.Ok top w.trace)
    (hkeep : top.keepTimes = true) (time : Time) : Confines top (setMtime file time) w := by
  refine act_confines hc ?_ (by simp)
  cases hplace : file.place with
  | entry d n =>
    rw [hplace] at hfile
    exact hfile
  | target d =>
    rw [hplace] at hfile
    exact ⟨hfile, hkeep, rfl⟩

theorem edit_confines {file : Opened} (hfile : file.Ok top w.trace) (f : Bytes → Bytes) :
    Confines top (edit file f) w := by
  simp only [Confines, edit, wp_bind, wp_get]
  cases file with
  | dir => exact .refl hc
  | file d n =>
    simp only
    split
    · exact act_confines hc (hfile.place.allowed hfile.entry) (by simp)
    · exact .refl hc

include hd

theorem openDir_confines :
    wp (openDir dir n) (fun fd w' => Grown top w w' ∧ fd.Ok top w'.trace ∧ fd.place.IsEntry)
      (fun _ => Grown top w) w := by
  simp only [openDir, wp_bind, wp_get]
  cases hentry : w.disk.entry dir.id n with
  | none => exact .refl hc
  | some e =>
    cases e with
    | dir sub =>
      have hact := act_on_confines (n := n) (a := .opened sub) (f := id) hc hd (by simp)
      exact ⟨hact, ⟨.opened hd.cons List.mem_cons_self hentry, hd.cons⟩, trivial⟩
    | file => exact .refl hc
    | link => exact .refl hc
    | other => exact .refl hc

theorem openFile_confines :
    wp (openFile dir n) (fun file w' => Grown top w w' ∧ file.Ok top w'.trace)
      (fun _ => Grown top w) w := by
  simp only [openFile, wp_bind, wp_get]
  cases hentry : w.disk.entry dir.id n with
  | none => exact .refl hc
  | some e =>
    cases e with
    | dir sub =>
      have hact := act_on_confines (n := n) (a := .opened sub) (f := id) hc hd (by simp)
      exact ⟨hact, hd.cons, trivial⟩
    | file => exact ⟨.refl hc, hd, trivial⟩
    | link => exact .refl hc
    | other => exact ⟨.refl hc, hd, trivial⟩

theorem create_confines (truncate : Bool) :
    wp (create dir n truncate) (fun file w' => Grown top w w' ∧ file.Ok top w'.trace)
      (fun _ => Grown top w) w := by
  simp only [create, wp_bind, wp_get]
  cases hentry : w.disk.entry dir.id n with
  | none =>
    simp only [wp_bind, wp_onlyIf, wp_throw, wp_pure]
    refine ⟨fun _ => .refl hc, fun _ => ?_⟩
    have hact := act_on_confines (n := n) (a := .made 0o600)
      (f := (·.put dir.id n (.file [] 0o600 none))) hc hd (by simp [plainMode])
    exact ⟨hact, hd.cons, trivial⟩
  | some e =>
    cases e with
    | dir sub => exact .refl hc
    | link => exact .refl hc
    | other => exact .refl hc
    | file bytes mode mtime =>
      simp only [wp_bind, wp_onlyIf, wp_pure]
      refine ⟨fun _ => ?_, fun _ => ⟨.refl hc, hd, trivial⟩⟩
      have hact := act_on_confines (n := n) (a := .wrote)
        (f := (·.put dir.id n (.file [] mode mtime))) hc hd (by simp)
      exact ⟨hact, hd.cons, trivial⟩

theorem makeDir_confines : Confines top (makeDir dir n) w := by
  simp only [Confines, makeDir, wp_bind, wp_get, wp_onlyIf, wp_throw]
  refine ⟨fun _ => .refl hc, fun _ => ⟨fun _ => .refl hc, fun _ => ?_⟩⟩
  exact act_on_confines hc hd (by simp [plainMode])

theorem rename_confines (old new : Name) : Confines top (rename dir old new) w := by
  simp only [Confines, rename, wp_bind, wp_get]
  split
  · exact .refl hc
  · exact .refl hc
  · exact .refl hc
  · exact act_on_confines hc hd (by simp)

theorem symlinkAt_confines (target : Bytes) : Confines top (symlinkAt target dir n) w := by
  simp only [Confines, symlinkAt, wp_bind, wp_get, wp_onlyIf, wp_throw]
  refine ⟨fun _ => .refl hc, fun _ => ⟨fun _ => .refl hc, fun _ => ?_⟩⟩
  exact act_on_confines hc hd (by simp)

theorem unlink_confines : Confines top (unlink dir n) w := by
  simp only [Confines, unlink, wp_bind, wp_get]
  split
  · exact .refl hc
  · exact .refl hc
  · exact act_on_confines hc hd (by simp)

theorem removeDir_confines : Confines top (removeDir dir n) w := by
  simp only [Confines, removeDir, wp_bind, wp_get]
  split
  · exact .refl hc
  · simp only [wp_bind, wp_onlyIf, wp_throw]
    refine ⟨fun _ => .refl hc, fun _ => ?_⟩
    exact act_on_confines hc hd (by simp)
  · exact .refl hc

end

theorem Confines.grown {α : Type} {x : Fs α} {w' : World} (hw : Grown top w w')
    (hx : Confines top x w') : wp x (fun _ => Grown top w) (fun _ => Grown top w) w' :=
  wp_mono hx (fun _ _ h => hw.trans h) fun _ _ h => hw.trans h

theorem removeAll_confines {remove : Fd → Name → Fs ℕ} {sub : Fd} (hsub : sub.Ok top w.trace)
    (hc : Calls top w.trace) (entries : List Name)
    (hremove : ∀ entry w', Calls top w'.trace → Reached top w'.trace sub.id →
      Confines top (remove sub entry) w') :
    Confines top (removeAll remove sub entries) w := by
  have hkeeps : Keeps (Grown top w) (removeAll remove sub entries) := by
    refine Keeps.foldlM (fun removed entry w' hw' => ?_) entries 0
    rw [wp_map]
    exact (hremove entry w' hw'.calls (hw'.ok hsub).reached).grown hw'
  exact hkeeps w (.refl hc)

/-- A removal is confined, if that of what is inside is. -/
theorem removeWith_confines (dry : Bool) {inner : Option (Fd → Name → Fs ℕ)} {dir : Fd} {name : Name}
    (hc : Calls top w.trace) (hd : Reached top w.trace dir.id)
    (hinner : ∀ remove, inner = some remove → ∀ sub entry w', Calls top w'.trace →
      Reached top w'.trace sub.id → Confines top (remove sub entry) w') :
    Confines top (removeWith dry inner dir name) w := by
  simp only [Confines, removeWith, wp_bind, wp_stat]
  split
  · exact .refl hc
  · exact .refl hc
  · next remove _ =>
    rw [wp_bind]
    refine wp_mono (openDir_confines hc hd) ?_ fun _ _ h => h
    rintro sub w₁ ⟨hw₁, hsub, hplace⟩
    have hfile : (Opened.dir sub).Ok top w₁.trace := ⟨hsub.place, hplace⟩
    have hchmod : Confines top (onlyIf (dry = false) (chmod (.dir sub) 0o700)) w₁ := by
      rw [Confines, wp_onlyIf]
      exact ⟨fun _ => chmod_confines hw₁.calls hfile (by simp [plainMode]),
        fun _ => .refl hw₁.calls⟩
    refine (Confines.bind hchmod fun _ w₂ hw₂ => ?_).grown hw₁
    refine Confines.bind (names_confines hw₂.calls) fun entries w₃ hw₃ => ?_
    have hw₃' := hw₂.trans hw₃
    refine Confines.bind (removeAll_confines (hw₃'.ok hsub) hw₃.calls entries
      fun entry w' => hinner remove rfl sub entry w') fun removed w₄ hw₄ => ?_
    have hw₄' := (hw₁.trans hw₃').trans hw₄
    obtain ⟨new, hnew⟩ := hw₄'.more
    simp only [Confines, wp_bind, wp_onlyIf, wp_pure]
    exact ⟨fun _ => removeDir_confines hw₄.calls (hnew ▸ hd.mono), fun _ => .refl hw₄.calls⟩
  · simp only [wp_bind, wp_onlyIf, wp_pure]
    exact ⟨fun _ => unlink_confines hc hd, fun _ => .refl hc⟩

/-- So every removal is, however deep. -/
theorem remove_confines (dry : Bool) (more : ℕ) {dir : Fd} {n : Name} (hc : Calls top w.trace)
    (hd : Reached top w.trace dir.id) : Confines top (remove dry more dir n) w := by
  induction more generalizing dir n w with
  | zero => exact removeWith_confines dry hc hd (by simp)
  | succ more ih =>
    refine removeWith_confines dry hc hd ?_
    intro _ hremove sub entry w' hc' hsub
    cases hremove
    exact ih hc' hsub

theorem hashIn_confines (digest : Digest) {dir : Fd} {name : Name} (hc : Calls top w.trace)
    (hd : Reached top w.trace dir.id) (len : Option ℕ) :
    Confines top (Receiver.hashIn digest dir name len) w := by
  have hopen := openFile_confines (n := name) hc hd
  refine Confines.bind (wp_mono hopen (fun _ _ h => h.1) fun _ _ h => h) fun file w₁ hw₁ => ?_
  exact Confines.bind (content_confines hw₁.calls file) fun _ _ hw₂ => .refl hw₂.calls

theorem replaceLink_confines (digest : Digest) {dir : Fd} {name : Name} (hc : Calls top w.trace)
    (hd : Reached top w.trace dir.id) (link : LinkTarget) :
    Confines top (Receiver.replaceLink digest dir name link) w := by
  have hremove := remove_confines false 1 (n := partName digest name) hc hd
  refine Confines.bind (wp_ignore (wp_mono hremove (fun _ _ h => h) fun _ _ h => h))
    fun _ w₁ hw₁ => ?_
  obtain ⟨new, hnew⟩ := hw₁.more
  have hd₁ : Reached top w₁.trace dir.id := hnew ▸ hd.mono
  refine Confines.bind (symlinkAt_confines hw₁.calls hd₁ _) fun _ w₂ hw₂ => ?_
  obtain ⟨new, hnew⟩ := hw₂.more
  exact rename_confines hw₂.calls (hnew ▸ hd₁.mono) _ _

/-! ### The receiver -/

/-- A directory's descriptor is of one reached; the target's own gets no mode,
and a time only if times are kept. -/
def Dir.Ok (top : Scope) (trace : List Event) (dir : Dir) : Prop :=
  ∀ fd, dir.fd = some fd → fd.Ok top trace ∧
    (fd.place.IsEntry ∨ dir.mode = none) ∧ (dir.mtime ≠ none → top.keepTimes = true)

/-- What the receiver holds: calls confined so far, and descriptors of directories reached. -/
structure Receiver.Confined (top : Scope) (r : Receiver) : Prop where
  calls : Calls top r.world.trace
  keepTimes : r.opts.keepTimes = top.keepTimes
  target : r.top.Ok top r.world.trace
  opened : ∀ o ∈ r.opened, o.dir.Ok top r.world.trace
  pending : ∀ p ∈ r.pending, p.dir.Ok top r.world.trace
  closing : ∀ d ∈ r.closing, d.Ok top r.world.trace
  receiving : ∀ rc, r.receiving = some rc →
    rc.fd.Ok top r.world.trace ∧ rc.part.Ok top r.world.trace

theorem Dir.Ok.mono {trace new : List Event} {dir : Dir} (h : dir.Ok top trace) :
    dir.Ok top (new ++ trace) :=
  fun fd hfd => ⟨(h fd hfd).1.mono, (h fd hfd).2⟩

namespace Receiver

/-- `r'` is `r` further on, and confined. -/
structure Onward (top : Scope) (r r' : Receiver) : Prop where
  confined : r'.Confined top
  more : ∃ new, r'.world.trace = new ++ r.world.trace

/-- `x` from `r` keeps the receiver confined, whether it ends well or fails. -/
def Sure (top : Scope) {α : Type} (x : Rx α) (r : Receiver) : Prop :=
  wp x (fun _ => Onward top r) (fun _ => Onward top r) r

variable {r : Receiver}

theorem Onward.refl (h : r.Confined top) : Onward top r r := ⟨h, [], rfl⟩

theorem Onward.trans {r' r'' : Receiver} (h : Onward top r r') (h' : Onward top r' r'') :
    Onward top r r'' := by
  obtain ⟨new, hnew⟩ := h.more
  obtain ⟨new', hnew'⟩ := h'.more
  exact ⟨h'.confined, new' ++ new, by rw [hnew', hnew, List.append_assoc]⟩

theorem Onward.dir {r' : Receiver} (h : Onward top r r') {dir : Dir}
    (hdir : dir.Ok top r.world.trace) : dir.Ok top r'.world.trace := by
  obtain ⟨new, hnew⟩ := h.more
  exact hnew ▸ hdir.mono

theorem Onward.fd {r' : Receiver} (h : Onward top r r') {fd : Fd}
    (hfd : fd.Ok top r.world.trace) : fd.Ok top r'.world.trace := by
  obtain ⟨new, hnew⟩ := h.more
  exact hnew ▸ hfd.mono

/-- Only the world changed, by confined calls. -/
theorem Confined.world (h : r.Confined top) {w : World} (hw : Grown top r.world w) :
    Onward top r { r with world := w } := by
  obtain ⟨new, hnew⟩ := hw.more
  have hdir : ∀ {dir : Dir}, dir.Ok top r.world.trace → dir.Ok top w.trace :=
    fun hdir => hnew ▸ hdir.mono
  refine ⟨⟨hw.calls, h.keepTimes, hdir h.target, fun o ho => hdir (h.opened o ho),
    fun p hp => hdir (h.pending p hp), fun d hd => hdir (h.closing d hd), fun rc hrc => ?_⟩, new, hnew⟩
  obtain ⟨hfd, hpart⟩ := h.receiving rc hrc
  exact ⟨hw.ok hfd, hw.opened hpart⟩

namespace Sure

variable {α β : Type}

theorem bind {x : Rx α} {f : α → Rx β} (hx : Sure top x r)
    (hf : ∀ a r', Onward top r r' → Sure top (f a) r') : Sure top (x >>= f) r := by
  rw [Sure, wp_bind]
  refine wp_mono hx (fun a r' hr' => ?_) fun _ _ h => h
  exact wp_mono (hf a r' hr') (fun _ _ h => hr'.trans h) fun _ _ h => hr'.trans h

theorem map {x : Rx α} (hx : Sure top x r) (f : α → β) : Sure top (f <$> x) r := by
  rw [Sure, wp_map]
  exact hx

theorem pure (h : r.Confined top) (a : α) : Sure top (Pure.pure a) r := .refl h

theorem throw (h : r.Confined top) (e : Failure) : Sure top (MonadExcept.throw e : Rx α) r := .refl h

theorem get_bind {f : Receiver → Rx β} (hf : Sure top (f r) r) : Sure top (get >>= f) r := hf

theorem onlyIf {p : Prop} [Decidable p] {x : Rx Unit} (h : r.Confined top)
    (hx : p → Sure top x r) : Sure top (onlyIf p x) r := by
  rw [Sure, wp_onlyIf]
  exact ⟨hx, fun _ => .refl h⟩

theorem onSome {o : Option α} {f : α → Rx Unit} (h : r.Confined top)
    (hf : ∀ a, o = some a → Sure top (f a) r) : Sure top (onSome o f) r := by
  rw [Sure, wp_onSome]
  exact ⟨hf, fun _ => .refl h⟩

theorem io (h : r.Confined top) {x : Fs α} (rel : Path) (hx : Confines top x r.world) :
    Sure top (Receiver.io rel x) r := by
  rw [Sure, wp_io]
  exact wp_mono hx (fun _ _ hw => h.world hw) fun _ _ hw => h.world hw

theorem forM {f : α → Rx Unit} (l : List α) (h : r.Confined top)
    (hf : ∀ a r', Onward top r r' → Sure top (f a) r') : Sure top (l.forM f) r := by
  have hkeeps : Keeps (Onward top r) (l.forM f) := by
    refine Keeps.forM (fun a r' hr' => ?_) l
    exact wp_mono (hf a r' hr') (fun _ _ h => hr'.trans h) fun _ _ h => hr'.trans h
  exact hkeeps r (.refl h)

theorem count (h : r.Confined top) (f : Summary → Summary) : Sure top (count f) r :=
  ⟨⟨h.calls, h.keepTimes, h.target, h.opened, h.pending, h.closing, h.receiving⟩, [], rfl⟩

end Sure

/-! ### Each of its methods -/

/-- What lands has a plain mode. -/
theorem plain_landed (mode : Mode) : plainMode (mode.landed &&& 0o7777) := by
  simp only [plainMode, Mode.landed, Nat.and_assoc]
  simp

/-- What is left of a list was in it. -/
theorem mem_swapRemove {α : Type} {l : List α} {i : ℕ} {a : α} (h : a ∈ swapRemove l i) : a ∈ l := by
  simp only [swapRemove] at h
  split at h
  · cases h
  · next last hlast =>
    rcases List.mem_or_eq_of_mem_set (List.mem_of_mem_dropLast h) with h | rfl
    · exact h
    · exact List.mem_of_getLast? hlast

section

variable (hr : r.Confined top)

include hr

theorem saw_sure (name : Name) : Sure top (saw name) r := by
  refine Sure.get_bind ?_
  split
  · next dir seen more hopened =>
    split
    · exact .pure hr _
    · have hnext : Confined top { r with
          opened := ⟨dir, some (name :: seen)⟩ :: more, seen := r.seen + 1 } := by
        refine ⟨hr.calls, hr.keepTimes, hr.target, fun o ho => ?_, hr.pending, hr.closing, hr.receiving⟩
        rcases List.mem_cons.mp ho with rfl | ho
        · exact hr.opened ⟨dir, some seen⟩ (by simp [hopened])
        · exact hr.opened o (by simp [hopened, ho])
      refine Sure.bind (x := set _) ⟨hnext, [], rfl⟩ fun _ r' hr' => ?_
      exact .onlyIf hr'.confined fun _ => .throw hr'.confined _
  · exact .pure hr _

theorem place_sure (name : Name) :
    wp (place name) (fun t r' => Onward top r r' ∧ t.1.Ok top r'.world.trace)
      (fun _ => Onward top r) r := by
  simp only [place, wp_bind, wp_get]
  split
  · next o _ hopened => exact ⟨.refl hr, hr.opened o (by simp [hopened])⟩
  · have hnext : Onward top r { r with placed := r.placed + 1 } :=
      ⟨⟨hr.calls, hr.keepTimes, hr.target, hr.opened, hr.pending, hr.closing, hr.receiving⟩, [], rfl⟩
    simp only [wp_bind, wp_set]
    split
    · exact ⟨hnext, hr.target⟩
    · simp only [wp_bind, wp_onlyIf, wp_throw, wp_pure]
      exact ⟨fun _ => hnext, fun _ => ⟨hnext, hr.target⟩⟩

theorem open_sure {fd : Option Fd} (rel : Path) (mode : Option Mode) {mtime : Option Time}
    (parent : ℕ) (hfd : ∀ f, fd = some f → f.Ok top r.world.trace ∧ (f.place.IsEntry ∨ mode = none))
    (hkeep : mtime ≠ none → top.keepTimes = true) :
    Sure top (open_ fd rel mode mtime parent) r := by
  refine ⟨⟨hr.calls, hr.keepTimes, hr.target, fun o ho => ?_, hr.pending, hr.closing, hr.receiving⟩, [], rfl⟩
  rcases List.mem_cons.mp ho with rfl | ho
  · exact fun f hf => ⟨(hfd f hf).1, (hfd f hf).2, hkeep⟩
  · exact hr.opened o ho

theorem removeEntry_sure {dir : Fd} (hdir : dir.Ok top r.world.trace) (name : Name) (rel : Path) :
    Sure top (removeEntry dir name rel) r := by
  refine Sure.get_bind (Sure.bind (.io hr rel (remove_confines _ _ hr.calls hdir.reached)) ?_)
  intro removed r₁ hr₁
  refine Sure.bind (.count hr₁.confined _) fun _ r₂ hr₂ => ?_
  exact .onlyIf hr₂.confined fun _ => .count hr₂.confined _

theorem statIn_confines (dir : Dir) (name : Name) : Confines top (statIn dir name) r.world := by
  simp only [statIn]
  cases dir.fd <;> exact .refl hr.calls

theorem clearWay_sure {parent : Dir} (hparent : parent.Ok top r.world.trace) (name : Name)
    (rel : Path) : Sure top (clearWay parent name rel) r := by
  refine Sure.get_bind (Sure.bind (.io hr rel (statIn_confines hr parent name)) ?_)
  intro there r₁ hr₁
  split
  · exact .pure hr₁.confined _
  · exact .pure hr₁.confined _
  · exact .throw hr₁.confined _
  · next fd _ _ _ hfd =>
    refine Sure.bind (.onlyIf hr₁.confined fun _ => .throw hr₁.confined _) fun _ r₂ hr₂ => ?_
    have hok := ((hr₁.trans hr₂).dir hparent fd hfd).1
    exact Sure.bind (removeEntry_sure hr₂.confined hok name rel) fun _ r₃ hr₃ =>
      .pure hr₃.confined _
  · exact .throw hr₁.confined _

theorem openMade_sure {parent : Dir} (hparent : parent.Ok top r.world.trace) (name : Name)
    (rel : Path) (made : Bool) :
    wp (openMade parent name rel made) (fun fd r' => Onward top r r' ∧
      ∀ f, fd = some f → f.Ok top r'.world.trace ∧ f.place.IsEntry) (fun _ => Onward top r) r := by
  simp only [openMade, wp_bind, wp_get]
  split
  · next dir hfd _ =>
    have hdir := (hparent dir hfd).1
    have hmake : Sure top (Koh.onlyIf (made = true) (io rel (makeDir dir name))) r :=
      .onlyIf hr fun _ => .io hr rel (makeDir_confines hr.calls hdir.reached)
    rw [wp_bind]
    refine wp_mono hmake (fun _ r₁ hr₁ => ?_) fun _ _ h => h
    rw [wp_map, wp_io]
    refine wp_mono (openDir_confines (n := name) hr₁.confined.calls (hr₁.fd hdir).reached)
      ?_ fun _ w hw => hr₁.trans (hr₁.confined.world hw)
    rintro fd w ⟨hw, hfd, hplace⟩
    refine ⟨hr₁.trans (hr₁.confined.world hw), fun f hf => ?_⟩
    cases hf
    exact ⟨hfd, hplace⟩
  · exact ⟨.refl hr, by simp⟩

/-- A time is kept only if times are. -/
theorem keep_of_filter (mtime : Option Time) :
    (mtime.filter fun _ => r.opts.keepTimes) ≠ none → top.keepTimes = true := by
  rw [← hr.keepTimes]
  cases mtime <;> simp [Option.filter]

theorem enter_sure {parent : Dir} (hparent : parent.Ok top r.world.trace) (name : Name)
    (mode : Mode) (mtime : Option Time) : Sure top (enter parent name mode mtime) r := by
  refine Sure.get_bind (Sure.get_bind (Sure.bind (.onlyIf hr fun _ => .throw hr _) ?_))
  intro _ r₁ hr₁
  refine Sure.bind (saw_sure hr₁.confined name) fun _ r₂ hr₂ => ?_
  refine Sure.bind (clearWay_sure hr₂.confined ((hr₁.trans hr₂).dir hparent) name _)
    fun made r₃ hr₃ => ?_
  refine Sure.bind (.onlyIf hr₃.confined fun _ => .count hr₃.confined _) fun _ r₄ hr₄ => ?_
  refine Sure.bind (.onlyIf hr₄.confined fun _ => .count hr₄.confined _) fun _ r₅ hr₅ => ?_
  have hparent₅ := ((((hr₁.trans hr₂).trans hr₃).trans hr₄).trans hr₅).dir hparent
  rw [Sure, wp_bind]
  refine wp_mono (openMade_sure hr₅.confined hparent₅ name _ made) ?_ fun _ _ h => h
  rintro fd r₆ ⟨hr₆, hfd⟩
  have hopen := open_sure hr₆.confined (parent.rel ++ [name])
    (if made || r.opts.keepTimes then some mode else none)
    parent.tag (fun f hf => ⟨(hfd f hf).1, Or.inl (hfd f hf).2⟩)
    (keep_of_filter hr mtime)
  exact wp_mono hopen (fun _ _ h => hr₆.trans h) fun _ _ h => hr₆.trans h

theorem contents_sure (mode : Mode) (mtime : Option Time) : Sure top (contents mode mtime) r := by
  refine Sure.get_bind ?_
  split
  · rw [Sure, wp_bind]
    refine wp_mono (place_sure hr _) ?_ fun _ _ h => h
    rintro ⟨parent, name⟩ r₁ ⟨hr₁, hparent⟩
    have henter := enter_sure hr₁.confined hparent name mode mtime
    exact wp_mono henter (fun _ _ h => hr₁.trans h) fun _ _ h => hr₁.trans h
  · exact open_sure hr [] _ _ (fun f hf => ⟨(hr.target f hf).1, Or.inr rfl⟩) (keep_of_filter hr mtime)

/-! #### Directories ended -/

theorem settle_sure {dir : Dir} (hdir : dir.Ok top r.world.trace) : Sure top (settle dir) r := by
  refine .onSome hr fun fd hfd => ?_
  obtain ⟨hok, hmode, hmtime⟩ := hdir fd hfd
  refine Sure.bind (.onSome hr fun mode hsome => .io hr _ ?_) fun _ r₁ hr₁ =>
    .onSome hr₁.confined fun time hsome => .io hr₁.confined _ ?_
  · rcases hmode with hentry | hnone
    · have hfile : (Opened.dir fd).Ok top r.world.trace := ⟨hok.place, hentry⟩
      exact chmod_confines hr.calls hfile (plain_landed mode)
    · rw [hnone] at hsome
      cases hsome
  · have hplace : (Opened.dir fd).place.Ok top r₁.world.trace := (hr₁.fd hok).place
    exact setMtime_confines hr₁.confined.calls hplace (hmtime (by simp [hsome])) time

theorem closeReady_sure (turns : ℕ) : Sure top (closeReady turns) r := by
  induction turns generalizing r with
  | zero => exact .pure hr _
  | succ turns ih =>
    refine Sure.get_bind ?_
    split
    · exact .pure hr _
    · next dir i hfind =>
      have hmem : dir ∈ r.closing := by
        have := List.mem_of_find?_eq_some hfind
        exact (List.mem_zipIdx' this).2 ▸ List.getElem_mem _
      have hnext : Onward top r { r with closing := swapRemove r.closing i } :=
        ⟨⟨hr.calls, hr.keepTimes, hr.target, hr.opened, hr.pending,
          fun d hd => hr.closing d (mem_swapRemove hd), hr.receiving⟩, [], rfl⟩
      refine Sure.bind (x := set _) hnext fun _ r₁ hr₁ => ?_
      refine Sure.bind (settle_sure hr₁.confined (hr₁.dir (hr.closing dir hmem))) fun _ r₂ hr₂ => ?_
      exact ih hr₂.confined

theorem closeAll_sure : Sure top closeAll r := Sure.get_bind (closeReady_sure hr _)

theorem prune_sure {dir : Dir} {fd : Fd} (hfd : fd.Ok top r.world.trace) (seen : List Name)
    (entry : Name) : Sure top (prune dir fd seen entry) r :=
  Sure.get_bind (.onlyIf hr fun _ => removeEntry_sure hr hfd entry _)

theorem pruneAll_sure {dir : Dir} (hdir : dir.Ok top r.world.trace) (seen : List Name) :
    Sure top (pruneAll dir seen) r := by
  have hnext : Onward top r { r with seen := r.seen - seen.length } :=
    ⟨⟨hr.calls, hr.keepTimes, hr.target, hr.opened, hr.pending, hr.closing, hr.receiving⟩, [], rfl⟩
  refine Sure.bind (x := modify _) hnext fun _ r₁ hr₁ => .onSome hr₁.confined fun fd hfd => ?_
  refine Sure.bind (.io hr₁.confined _ (names_confines hr₁.confined.calls)) fun entries r₂ hr₂ => ?_
  have hok := ((hr₁.trans hr₂).dir hdir fd hfd).1
  exact .forM entries hr₂.confined fun entry r₃ hr₃ => prune_sure hr₃.confined (hr₃.fd hok) seen entry

theorem leave_sure : Sure top leave r := by
  refine Sure.get_bind ?_
  split
  · exact .throw hr _
  · next dir seen more hopened =>
    have hdir : dir.Ok top r.world.trace := hr.opened ⟨dir, seen⟩ (by simp [hopened])
    have hnext : Onward top r { r with opened := more } :=
      ⟨⟨hr.calls, hr.keepTimes, hr.target, fun o ho => hr.opened o (by simp [hopened, ho]), hr.pending, hr.closing,
        hr.receiving⟩, [], rfl⟩
    refine Sure.bind (x := set _) hnext fun _ r₁ hr₁ => ?_
    refine Sure.bind (.onSome hr₁.confined fun seen _ =>
      pruneAll_sure hr₁.confined (hr₁.dir hdir) seen) fun _ r₂ hr₂ => ?_
    refine Sure.bind (.onlyIf hr₂.confined fun _ => ?_) fun _ r₃ hr₃ => closeAll_sure hr₃.confined
    refine ⟨⟨hr₂.confined.calls, hr₂.confined.keepTimes, hr₂.confined.target, hr₂.confined.opened, hr₂.confined.pending,
      fun d hd => ?_, hr₂.confined.receiving⟩, [], rfl⟩
    rcases List.mem_append.mp hd with hd | hd
    · exact hr₂.confined.closing d hd
    · obtain rfl : d = dir := by simpa using hd
      exact (hr₁.trans hr₂).dir hdir

/-! #### Files -/

theorem want_sure (digest : Digest) {dir : Dir} (hdir : dir.Ok top r.world.trace)
    (header : FileHeader) (rel : Path) : Sure top (want digest dir header rel) r := by
  refine Sure.bind (saw_sure hr _) fun _ r₁ hr₁ => ?_
  refine Sure.bind (.io hr₁.confined rel (statIn_confines hr₁.confined dir _)) fun there r₂ hr₂ => ?_
  split
  · next fd hfd =>
    split
    · have hok := ((hr₁.trans hr₂).dir hdir fd hfd).1
      exact Sure.bind (.io hr₂.confined rel (hashIn_confines digest hr₂.confined.calls hok.reached _))
        fun head r₃ hr₃ => .pure hr₃.confined _
    · exact .pure hr₂.confined _
  · exact .pure hr₂.confined _

theorem answerTo_sure (digest : Digest) {dir : Dir} (hdir : dir.Ok top r.world.trace)
    (header : FileHeader) (rel : Path) (there : Option Stat) :
    Sure top (answerTo digest dir header rel there) r := by
  unfold answerTo
  split
  · next fd hfd =>
    split
    · exact .throw hr _
    · split
      · exact Sure.map (.io hr rel (hashIn_confines digest hr.calls (hdir fd hfd).1.reached _)) _
      · exact want_sure hr digest hdir header rel
  · split
    · exact .throw hr _
    · exact want_sure hr digest hdir header rel
  · exact want_sure hr digest hdir header rel

theorem file_sure (digest : Digest) {dir : Dir} (hdir : dir.Ok top r.world.trace)
    (header : FileHeader) : Sure top (file digest dir header) r := by
  refine Sure.get_bind (Sure.bind (.onlyIf hr fun _ => .throw hr _) fun _ r₁ hr₁ => ?_)
  refine Sure.bind (saw_sure hr₁.confined _) fun _ r₂ hr₂ => ?_
  refine Sure.bind (.io hr₂.confined _ (statIn_confines hr₂.confined dir _)) fun there r₃ hr₃ => ?_
  have hdir₃ := ((hr₁.trans hr₂).trans hr₃).dir hdir
  refine Sure.bind (answerTo_sure hr₃.confined digest hdir₃ header _ there) fun answer r₄ hr₄ => ?_
  have hc := hr₄.confined
  refine Sure.bind (x := modify _) ⟨⟨hc.calls, hc.keepTimes, hc.target, hc.opened, fun p hp => ?_, hc.closing,
    hc.receiving⟩, [], rfl⟩ fun _ r₅ hr₅ => .pure hr₅.confined _
  rcases List.mem_append.mp hp with hp | hp
  · exact hc.pending p hp
  · obtain rfl := List.mem_singleton.mp hp
    exact hr₄.dir hdir₃

theorem take_sure (id : FileId) :
    wp (take id) (fun p r' => Onward top r r' ∧ p.dir.Ok top r'.world.trace)
      (fun _ => Onward top r) r := by
  simp only [take, wp_bind, wp_get]
  split
  · exact .refl hr
  · next p hfind =>
    refine ⟨⟨⟨hr.calls, hr.keepTimes, hr.target, hr.opened, fun q hq => ?_, hr.closing, hr.receiving⟩, [], rfl⟩, ?_⟩
    · exact hr.pending q (List.mem_filter.mp hq).1
    · exact hr.pending p (List.mem_of_find?_eq_some hfind)

theorem wrote_sure (p : Pending) (start : ℕ) : Sure top (wrote p start) r := by
  refine Sure.get_bind (Sure.bind (.count hr _) fun _ r₁ hr₁ => ?_)
  refine Sure.bind (.onlyIf hr₁.confined fun _ => .count hr₁.confined _) fun _ r₂ hr₂ => ?_
  exact .onlyIf hr₂.confined fun _ => .count hr₂.confined _

theorem data_sure (digest : Digest) (id : FileId) (start : ℕ) : Sure top (data digest id start) r := by
  rw [Sure, data, wp_bind]
  refine wp_mono (take_sure hr id) ?_ fun _ _ h => h
  rintro p r₁ ⟨hr₁, hdir⟩
  split
  · exact hr₁
  · next fd hfd =>
    have hok := (hdir fd hfd).1
    rw [wp_bind, wp_io]
    refine wp_mono (create_confines (n := partName digest p.header.name) hr₁.confined.calls
      hok.reached _) ?_ fun _ w hw => hr₁.trans (hr₁.confined.world hw)
    rintro part w ⟨hw, hpart⟩
    have hr₂ := hr₁.confined.world hw
    have hset : Sure top (io p.rel (setLen part start)) { r₁ with world := w } :=
      .io hr₂.confined _ (edit_confines hr₂.confined.calls hpart _)
    rw [wp_bind]
    refine wp_mono hset (fun _ r₃ hr₃ => ?_) fun _ _ h => (hr₁.trans hr₂).trans h
    have hc := hr₃.confined
    refine ((hr₁.trans hr₂).trans hr₃).trans ⟨⟨hc.calls, hc.keepTimes, hc.target, hc.opened, hc.pending, hc.closing,
      fun rc hrc => ?_⟩, [], rfl⟩
    cases hrc
    obtain ⟨new, hnew⟩ := hr₃.more
    exact ⟨(hr₂.trans hr₃).fd hok, hnew ▸ hpart.mono⟩

theorem chunk_sure {rc : Receiving} (hrc : r.receiving = some rc) (bytes : Bytes) :
    Sure top (chunk rc bytes) r := by
  refine Sure.bind (.count hr _) fun _ r₁ hr₁ => ?_
  obtain ⟨hfd, hrcpart⟩ := hr.receiving rc hrc
  obtain ⟨new, hnew⟩ := hr₁.more
  have hpart : rc.part.Ok top r₁.world.trace := hnew ▸ hrcpart.mono
  refine Sure.bind (.io hr₁.confined _ (edit_confines hr₁.confined.calls hpart _)) fun _ r₂ hr₂ => ?_
  have hc := hr₂.confined
  refine ⟨⟨hc.calls, hc.keepTimes, hc.target, hc.opened, hc.pending, hc.closing, fun rc' hrc' => ?_⟩, [], rfl⟩
  cases hrc'
  obtain ⟨new, hnew⟩ := (hr₁.trans hr₂).more
  exact ⟨(hr₁.trans hr₂).fd hfd, hnew ▸ hrcpart.mono⟩

theorem finish_sure (digest : Digest) {rc : Receiving} (hrc : r.receiving = some rc) :
    Sure top (finish digest rc) r := by
  obtain ⟨hfd, hrcpart⟩ := hr.receiving rc hrc
  have hpart : ∀ {r'}, Onward top r r' → rc.part.Ok top r'.world.trace := by
    intro r' hr'
    obtain ⟨new, hnew⟩ := hr'.more
    exact hnew ▸ hrcpart.mono
  have hnext : Onward top r { r with receiving := none } :=
    ⟨⟨hr.calls, hr.keepTimes, hr.target, hr.opened, hr.pending, hr.closing, by simp⟩, [], rfl⟩
  refine Sure.get_bind (Sure.bind (x := set _) hnext fun _ r₁ hr₁ => ?_)
  refine Sure.bind (.io hr₁.confined _ (chmod_confines hr₁.confined.calls (hpart hr₁)
    (plain_landed _))) fun _ r₂ hr₂ => ?_
  have hr₂' := hr₁.trans hr₂
  have htime : ∀ time, rc.file.header.mtime.filter (fun _ => r.opts.keepTimes) = some time →
      Confines top (setMtime rc.part time) r₂.world := fun time hsome =>
    setMtime_confines hr₂.confined.calls (hpart hr₂').place
      (keep_of_filter hr rc.file.header.mtime (by simp [hsome])) time
  refine Sure.bind (.onSome hr₂.confined fun time hsome => .io hr₂.confined _ (htime time hsome))
    fun _ r₃ hr₃ => ?_
  have hr₃' := hr₂'.trans hr₃
  refine Sure.bind (.io hr₃.confined _ (rename_confines hr₃.confined.calls (hr₃'.fd hfd).reached _ _))
    fun _ r₄ hr₄ => ?_
  exact Sure.bind (wrote_sure hr₄.confined _ _) fun _ r₅ hr₅ => closeAll_sure hr₅.confined

theorem differs_sure (id : FileId) (start : ℕ) : Sure top (differs id start) r := by
  have htake := take_sure hr id
  refine Sure.bind (wp_mono htake (fun _ _ h => h.1) fun _ _ h => h) fun p r₁ hr₁ => ?_
  exact Sure.bind (.count hr₁.confined _) fun _ r₂ hr₂ => wrote_sure hr₂.confined _ _

theorem touch_sure {fd : Fd} (hfd : fd.Ok top r.world.trace) (p : Pending) {keepTimes : Bool}
    (hkeep : keepTimes = true → top.keepTimes = true) : Sure top (touch fd p keepTimes) r := by
  rw [Sure, touch, wp_bind, wp_io]
  refine wp_mono (openFile_confines (n := p.header.name) hr.calls hfd.reached) ?_
    fun _ w hw => hr.world hw
  rintro file w ⟨hw, hopened⟩
  have hr₁ := hr.world hw
  have hfile : ∀ {r'}, Onward top { r with world := w } r' → file.Ok top r'.world.trace := by
    intro r' hr'
    obtain ⟨new, hnew⟩ := hr'.more
    exact hnew ▸ hopened.mono
  refine wp_mono (Q := fun _ => Onward top { r with world := w })
    (E := fun _ => Onward top { r with world := w }) ?_ (fun _ _ h => hr₁.trans h)
    fun _ _ h => hr₁.trans h
  refine Sure.bind (.io hr₁.confined _ (statOpened_confines hr₁.confined.calls file))
    fun here r₂ hr₂ => ?_
  refine Sure.bind (.onlyIf hr₂.confined fun _ => .io hr₂.confined _
    (chmod_confines hr₂.confined.calls (hfile hr₂) (plain_landed _))) fun _ r₃ hr₃ => ?_
  refine Sure.bind (.onSome hr₃.confined fun time hsome => .io hr₃.confined _ ?_) fun _ r₄ hr₄ =>
    closeAll_sure hr₄.confined
  have htrue : keepTimes = true := by
    cases keepTimes with
    | true => rfl
    | false => simp at hsome
  exact setMtime_confines hr₃.confined.calls (hfile (hr₂.trans hr₃)).place (hkeep htrue) time

theorem same_sure (id : FileId) : Sure top (same id) r := by
  rw [Sure, same, wp_bind]
  refine wp_mono (take_sure hr id) ?_ fun _ _ h => h
  rintro p r₁ ⟨hr₁, hdir⟩
  refine wp_mono (Q := fun _ => Onward top r₁) (E := fun _ => Onward top r₁) ?_
    (fun _ _ h => hr₁.trans h) fun _ _ h => hr₁.trans h
  refine Sure.bind (.count hr₁.confined _) fun _ r₂ hr₂ => Sure.get_bind ?_
  dsimp only
  split
  · exact .pure hr₂.confined _
  · exact .throw hr₂.confined _
  · next fd _ hfd =>
    exact touch_sure hr₂.confined (hr₂.dir hdir fd hfd).1 p fun h => hr₂.confined.keepTimes ▸ h

/-! #### Symlinks -/

theorem linked_confines (dir : Dir) (name : Name) (link : LinkTarget) (there : Option Kind) :
    Confines top (linked dir name link there) r.world := by
  unfold linked
  split
  · rw [Confines, wp_map]
    exact readLink_confines hr.calls
  · exact .refl hr.calls

theorem layLink_sure (digest : Digest) {dir : Dir} (hdir : dir.Ok top r.world.trace) (name : Name)
    (link : LinkTarget) (rel : Path) (there : Option Kind) :
    Sure top (layLink digest dir name link rel there) r := by
  refine Sure.get_bind ?_
  split
  · exact .count hr _
  · next fd _ hfd => exact .io hr _ (symlinkAt_confines hr.calls (hdir fd hfd).1.reached _)
  · next fd _ _ hfd => exact .io hr _ (replaceLink_confines digest hr.calls (hdir fd hfd).1.reached _)
  · exact .throw hr _

theorem symlink_sure (digest : Digest) {dir : Dir} (hdir : dir.Ok top r.world.trace) (name : Name)
    (link : LinkTarget) : Sure top (symlink digest dir name link) r := by
  refine Sure.bind (saw_sure hr name) fun _ r₁ hr₁ => ?_
  refine Sure.bind (.io hr₁.confined _ (statIn_confines hr₁.confined dir name)) fun there r₂ hr₂ => ?_
  refine Sure.bind (.onlyIf hr₂.confined fun _ => .throw hr₂.confined _) fun _ r₃ hr₃ => ?_
  refine Sure.bind (.io hr₃.confined _ (linked_confines hr₃.confined dir name link _))
    fun same r₄ hr₄ => .onlyIf hr₄.confined fun _ => ?_
  have hdir₄ := (((hr₁.trans hr₂).trans hr₃).trans hr₄).dir hdir
  exact Sure.bind (layLink_sure hr₄.confined digest hdir₄ name link _ _) fun _ r₅ hr₅ =>
    .count hr₅.confined _

/-! #### Items -/

/-- What comes after a place was found, whose directory is one reached. -/
theorem place_bind {α : Type} (name : Name) {f : Dir × Name → Rx α}
    (hf : ∀ dir name r', Onward top r r' → dir.Ok top r'.world.trace → Sure top (f (dir, name)) r') :
    Sure top (place name >>= f) r := by
  rw [Sure, wp_bind]
  refine wp_mono (place_sure hr name) ?_ fun _ _ h => h
  rintro ⟨dir, name⟩ r₁ ⟨hr₁, hdir⟩
  exact wp_mono (hf dir name r₁ hr₁ hdir) (fun _ _ h => hr₁.trans h) fun _ _ h => hr₁.trans h

/-- Every item between files is confined. -/
theorem itemBetween_sure (digest : Digest) (i : Item) : Sure top (itemBetween digest i) r := by
  have hthen : ∀ {x : Rx Unit}, Sure top x r → Sure top (do x; return Heard.nothing) r :=
    fun hx => Sure.bind hx fun _ r₁ hr₁ => .pure hr₁.confined _
  cases i with
  | allDone =>
    exact Sure.get_bind (Sure.bind (.onlyIf hr fun _ => .throw hr _) fun _ r₁ hr₁ =>
      .pure hr₁.confined _)
  | failed failure => exact .throw hr _
  | dirEnd => exact hthen (leave_sure hr)
  | skipped name =>
    refine Sure.get_bind (Sure.bind (.onlyIf hr fun _ => .throw hr _) fun _ r₁ hr₁ => ?_)
    refine Sure.bind (saw_sure hr₁.confined name) fun _ r₂ hr₂ => ?_
    exact Sure.bind (.count hr₂.confined _) fun _ r₃ hr₃ => .pure hr₃.confined _
  | data id start =>
    refine Sure.get_bind (Sure.bind (.onlyIf hr fun _ => .throw hr _) fun _ r₁ hr₁ => ?_)
    exact Sure.bind (data_sure hr₁.confined digest id start) fun _ r₂ hr₂ => .pure hr₂.confined _
  | differs id start =>
    refine Sure.get_bind (Sure.bind (.onlyIf hr fun _ => .throw hr _) fun _ r₁ hr₁ => ?_)
    exact Sure.bind (differs_sure hr₁.confined id start) fun _ r₂ hr₂ => .pure hr₂.confined _
  | same id => exact hthen (same_sure hr id)
  | contents mode mtime =>
    refine Sure.get_bind (Sure.bind (.onlyIf hr fun _ => .throw hr _) fun _ r₁ hr₁ => ?_)
    exact Sure.bind (contents_sure hr₁.confined mode mtime) fun _ r₂ hr₂ => .pure hr₂.confined _
  | dir name mode mtime =>
    refine place_bind hr name fun dir name r₁ hr₁ hdir => ?_
    exact Sure.bind (enter_sure hr₁.confined hdir name mode mtime) fun _ r₂ hr₂ => .pure hr₂.confined _
  | file header =>
    exact place_bind hr header.name fun dir name r₁ hr₁ hdir =>
      Sure.map (file_sure hr₁.confined digest hdir _) _
  | symlink name target =>
    refine place_bind hr name fun dir name r₁ hr₁ hdir => ?_
    exact Sure.bind (symlink_sure hr₁.confined digest hdir name target) fun _ r₂ hr₂ =>
      .pure hr₂.confined _
  | chunk c => exact .throw hr _
  | sent => exact .throw hr _

/-- One item, whatever it is, keeps the receiver confined. -/
theorem item_sure (digest : Digest) (i : Item) : Sure top (item digest i) r := by
  refine Sure.get_bind ?_
  cases hrc : r.receiving with
  | none => exact itemBetween_sure hr digest i
  | some rc =>
    cases i with
    | chunk c =>
      exact Sure.bind (chunk_sure hr hrc c.bytes) fun _ r₁ hr₁ => .pure hr₁.confined _
    | sent =>
      exact Sure.bind (finish_sure hr digest hrc) fun _ r₁ hr₁ => .pure hr₁.confined _
    | _ => exact .throw hr _

/-- So are all items. -/
theorem feed_sure (digest : Digest) (items : List Item) : Sure top (feed digest items) r := by
  induction items generalizing r with
  | nil => exact .throw hr _
  | cons i items ih =>
    refine Sure.bind (item_sure hr digest i) fun heard r₁ hr₁ => ?_
    split
    · exact .pure hr₁.confined _
    · exact ih hr₁.confined

end

/-- What the receiver is once it was fed `items`. -/
def after (digest : Digest) (items : List Item) (r : Receiver) : Receiver :=
  match feed digest items r with
  | .ok _ r' => r'
  | .error _ r' => r'

/-- Nothing was called at the start. -/
theorem start_confined (disk : Disk) (target : Target) (opts : Opts) :
    (start ⟨disk, []⟩ target opts).Confined ⟨target.dir, opts.keepTimes⟩ := by
  refine ⟨trivial, rfl, fun fd hfd => ?_, by simp [start], by simp [start], by simp [start],
    by simp [start]⟩
  obtain ⟨id, hid, rfl⟩ := Option.map_eq_some_iff.mp hfd
  exact ⟨⟨.top hid, hid⟩, Or.inr rfl, fun h => absurd rfl h⟩

/-- **The receiver is confined**, whatever items come: each of its calls is on an
entry of a directory reached from the target's, each by opening a real
directory, or sets the time of the target itself when times are kept; and each
mode it sets is plain. -/
theorem calls_confined (digest : Digest) (disk : Disk) (target : Target) (opts : Opts)
    (items : List Item) :
    Calls ⟨target.dir, opts.keepTimes⟩
      ((start ⟨disk, []⟩ target opts).after digest items).world.trace := by
  have hsure := feed_sure (start_confined disk target opts) digest items
  simp only [Sure, wp] at hsure
  simp only [after]
  cases hfeed : feed digest items (start ⟨disk, []⟩ target opts) with
  | ok heard r' =>
    rw [hfeed] at hsure
    exact hsure.confined.calls
  | error failure r' =>
    rw [hfeed] at hsure
    exact hsure.confined.calls

/-- The time of the target itself is set, on no entry, when a directory's
contents go into it and times are kept. -/
theorem target_timed :
    ¬ ∀ e ∈ ((start ⟨⟨fun _ => ⟨[], 0o755, none, false⟩, 1⟩, []⟩ (.into (some 0))
        ⟨true, false, false, ⟨[], by decide⟩⟩).after id
          [.contents ⟨0o755, by decide⟩ (some ⟨1, 0, by decide⟩), .dirEnd]).world.trace,
      e.place.IsEntry := by
  have htrace : (((start ⟨⟨fun _ => ⟨[], 0o755, none, false⟩, 1⟩, []⟩ (.into (some 0))
      ⟨true, false, false, ⟨[], by decide⟩⟩).after id
        [.contents ⟨0o755, by decide⟩ (some ⟨1, 0, by decide⟩), .dirEnd]).world.trace).map
          Event.place = [.target 0] := rfl
  intro h
  obtain ⟨e, he, hplace⟩ := List.mem_map.mp (htrace ▸ List.mem_singleton_self (Place.target 0))
  have := h e he
  rw [hplace] at this
  exact this

end Receiver

end Koh.Sync
