import Koh.Sync.Effect

/-!
# Runs of the receiver

What holds along a run of the receiver, whatever items it is fed: the
directories it has open are where their paths say, and an item takes away only
what it prunes and the part it uses.

## Main definitions

- `Receiver.Takes`: the paths an item takes away
- `Rooted`: what holds of a receiver's directories
- `Along`: a property of every step of a run

## Main results

- `Does.treads`: what an item did to the tree
- `Does.rooted`: `Rooted` holds after every item
- `feed_invariant`: what every step keeps, a run keeps
-/

namespace Koh.Sync

open Names

/-! ### Steps on the tree -/

abbrev Disk.reach (disk : Disk) (top : DirId) (p : Path) : Option DirId :=
  Names.reach Entry.sub disk.entry top p

abbrev Disk.Stands (disk : Disk) (top : DirId) (p : Path) : Prop :=
  Names.Stands Entry.sub disk.entry top p

/-- Outside of `L` nothing went, and no directory there before is anywhere new. -/
structure Disk.Treads (L : DirId → Name → Prop) (disk disk' : Disk) : Prop where
  spared : Spared Entry.sub L disk.entry disk'.entry
  old : ∀ {d n id}, disk'.entry d n = some (.dir id) → id < disk.next →
    disk.entry d n = some (.dir id)
  next_le : disk.next ≤ disk'.next

namespace Disk.Treads

variable {L : DirId → Name → Prop} {disk disk' disk'' : Disk} {d : DirId} {n : Name} {top : DirId}

/-- More may be lost. -/
theorem mono {L' : DirId → Name → Prop} (h : disk.Treads L disk') (hL : ∀ d n, L d n → L' d n) :
    disk.Treads L' disk' :=
  ⟨h.spared.mono hL, h.old, h.next_le⟩

theorem alike (h : disk.Alike disk') : disk.Treads L disk' :=
  ⟨.of_eq h.entry, fun he _ => h.entry ▸ he, h.next.ge⟩

theorem of_eq (h : disk' = disk) : disk.Treads L disk' := alike (h ▸ .refl)

/-- One change after another. -/
theorem trans (h : disk.Treads L disk') (h' : disk'.Treads L disk'') : disk.Treads L disk'' :=
  ⟨h.spared.trans h'.spared, fun he hid => h.old (h'.old he (hid.trans_le h.next_le)) hid,
    h.next_le.trans h'.next_le⟩

/-- An entry that is no directory, put where none was. -/
theorem sets {e : Entry} (h : disk.Sets disk' d n (some e)) (he : NoDir (some e))
    (hno : NoDir (disk.entry d n)) : disk.Treads L disk' := by
  refine ⟨h.entry ▸ spared_setAt hno.sub, fun {d' m id} hid _ => ?_, h.next.ge⟩
  rw [h.entry] at hid
  by_cases hm : d' = d ∧ m = n
  · obtain ⟨rfl, rfl⟩ := hm
    rw [setAt_self] at hid
    exact absurd hid (he id)
  · rwa [setAt_ne _ hm] at hid

/-- Entries that go are those that may be lost. -/
theorem shrunk (hspared : Spared Entry.sub L disk.entry disk'.entry)
    (hentry : ∀ d n, disk'.entry d n = disk.entry d n ∨ disk'.entry d n = none)
    (hnext : disk'.next = disk.next) : disk.Treads L disk' := by
  refine ⟨hspared, fun {d n id} he _ => ?_, hnext.ge⟩
  rcases hentry d n with hsame | hnone
  · exact hsame ▸ he
  · rw [hnone] at he
    cases he

/-- A removal loses what is under it. -/
theorem went (h : disk.Went disk' d n) (hL : ∀ d' m, Under Entry.sub disk.entry d n d' m → L d' m) :
    disk.Treads L disk' :=
  shrunk (h.entry.spared.mono hL) h.entry.shrunk h.next

/-- A directory that is entered loses nothing. -/
theorem entered {id : DirId} (h : disk.Entered disk' d n id) : disk.Treads L disk' := by
  cases h with
  | there _ h => exact alike h
  | made hno hid hentry hnext =>
    refine ⟨hentry ▸ spared_setAt (NoDir.sub hno), fun {d' m id'} he hlt => ?_,
      hnext ▸ Nat.le_succ _⟩
    rw [hentry] at he
    by_cases hm : d' = d ∧ m = n
    · obtain ⟨rfl, rfl⟩ := hm
      rw [setAt_self] at he
      cases he
      exact absurd hid hlt.ne
    · rwa [setAt_ne _ hm] at he

/-- A directory there before is still reached by the path it was, if by any. -/
theorem reach_old (h : disk.Treads L disk') (hs : disk.Sound top) {p : Path} {id : DirId}
    (hp : disk'.reach top p = some id) (hid : id < disk.next) : disk.reach top p = some id := by
  induction p using List.reverseRecOn generalizing id with
  | nil => exact hp
  | append_singleton p n ih =>
    obtain ⟨d, e, hd, he, hsub⟩ := reach_snoc_some.mp hp
    rw [Entry.sub_eq_some] at hsub
    subst hsub
    have hold := h.old he hid
    have hlt : d < disk.next := by
      by_contra hge
      rw [hs.fresh (not_lt.mp hge)] at hold
      cases hold
    exact reach_snoc_some.mpr ⟨d, _, ih hd hlt, hold, rfl⟩

end Disk.Treads

/-- What a path to a directory goes through are directories. -/
theorem dir_of_on {f : DirId → Name → Option Entry} {top d id : DirId} {p : Path} {n : Name}
    (h : On Entry.sub f top p d n) (hp : reach Entry.sub f top p = some id) :
    ∃ id', f d n = some (.dir id') := by
  obtain ⟨q, rest, rfl, hq⟩ := h
  rw [show q ++ n :: rest = (q ++ [n]) ++ rest by simp] at hp
  obtain ⟨id', hid', -⟩ := reach_of_append hp
  obtain ⟨d', e, hd', he, hsub⟩ := reach_snoc_some.mp hid'
  rw [Entry.sub_eq_some] at hsub
  rw [hq] at hd'
  cases hd'
  exact ⟨id', hsub ▸ he⟩

/-! ### What an item takes away -/

namespace Receiver

/-- The paths that item `i` takes away, with all that is below them: what the end
of a directory prunes, the part that becomes a file, and what is in the way of
the part of a symlink that is put in place of something. -/
inductive Takes (digest : Digest) (r : Receiver) : Item → Path → Prop
  | pruned {dir : Dir} {seen : List Name} {more : List Open} {name : Name} :
      r.opts.dryRun = false → r.opened = ⟨dir, some seen⟩ :: more → r.Prunes dir seen name →
      Takes digest r .dirEnd (dir.rel ++ [name])
  | part {rc : Receiving} : r.receiving = some rc →
      partName digest rc.file.header.name ≠ rc.file.header.name →
      Takes digest r .sent (rc.file.dir.rel ++ [partName digest rc.file.header.name])
  | linked {name : Name} {target : LinkTarget} {fd : Fd} {e : Entry} : r.opts.dryRun = false →
      (r.spot name).1.fd = some fd → r.disk.entry fd.id (r.spot name).2 = some e →
      e ≠ .link target.bytes →
      Takes digest r (.symlink name target) ((r.spot name).1.rel ++ [partName digest (r.spot name).2])

/-- An entry that item `i` may take away: one pruned, the part that becomes a
file, one in the way of a symlink's part, or what is below them. -/
inductive Loses (digest : Digest) (r : Receiver) : Item → DirId → Name → Prop
  | pruned {dir : Dir} {fd : Fd} {seen : List Name} {more : List Open} {name : Name} {d : DirId}
      {n : Name} : r.opts.dryRun = false → r.opened = ⟨dir, some seen⟩ :: more →
      r.Prunes dir seen name → dir.fd = some fd → Under Entry.sub r.disk.entry fd.id name d n →
      Loses digest r .dirEnd d n
  | part {rc : Receiving} : r.receiving = some rc →
      partName digest rc.file.header.name ≠ rc.file.header.name →
      Loses digest r .sent rc.fd.id (partName digest rc.file.header.name)
  | linked {name : Name} {target : LinkTarget} {fd : Fd} {e : Entry} {d : DirId} {n : Name} :
      r.opts.dryRun = false → (r.spot name).1.fd = some fd →
      r.disk.entry fd.id (r.spot name).2 = some e → e ≠ .link target.bytes →
      Under Entry.sub r.disk.entry fd.id (partName digest (r.spot name).2) d n →
      Loses digest r (.symlink name target) d n

end Receiver

/-! ### The receiver's directories -/

def Dir.Located (disk : Disk) (top : DirId) (dir : Dir) : Prop :=
  ∀ fd, dir.fd = some fd → disk.reach top dir.rel = some fd.id

/-- A directory is where its path says, or nowhere. -/
def Dir.Held (disk : Disk) (top : DirId) (dir : Dir) : Prop :=
  ∀ fd, dir.fd = some fd → fd.id < disk.next ∧ ∀ p, disk.reach top p = some fd.id → p = dir.rel

theorem Dir.Located.held {disk : Disk} {top : DirId} {dir : Dir} (h : dir.Located disk top)
    (hs : disk.Sound top) : dir.Held disk top := fun fd hfd =>
  ⟨hs.reach_lt (h fd hfd), fun _ hp => hs.once.reach_eq hp (h fd hfd)⟩

/-- A directory that is held stays so. -/
theorem Dir.Held.treads {L : DirId → Name → Prop} {disk disk' : Disk} {top : DirId} {dir : Dir}
    (h : dir.Held disk top) (hs : disk.Sound top) (ht : disk.Treads L disk') :
    dir.Held disk' top := fun fd hfd =>
  ⟨(h fd hfd).1.trans_le ht.next_le, fun p hp => (h fd hfd).2 p (ht.reach_old hs hp (h fd hfd).1)⟩

/-- The files under way. -/
def Receiver.underWay (r : Receiver) : List Pending :=
  r.pending ++ (r.receiving.map Receiving.file).toList

/-- What holds of a receiver that was let into `top`, whatever items came. -/
structure Rooted (digest : Digest) (top : DirId) (r : Receiver) : Prop where
  sound : r.disk.Sound top
  topFd : ∀ fd, r.top.fd = some fd → fd.id = top
  topRel : r.top.rel = []
  opened : ∀ dir ∈ r.opened.map Open.dir, dir.Located r.disk top
  chain : (r.opened.map Open.dir).Pairwise fun dir dir' => dir'.rel <+: dir.rel
  held : ∀ p ∈ r.underWay, p.dir.Held r.disk top
  receiving : ∀ rc, r.receiving = some rc → rc.file.dir.fd = some rc.fd ∧
    rc.part = .file rc.fd.id (partName digest rc.file.header.name)
  ids : (r.pending.map (·.header.id)).Nodup

namespace Rooted

variable {digest : Digest} {top : DirId} {r r' : Receiver}

/-- The target's directory is where it is. -/
theorem topLocated (h : Rooted digest top r) : r.top.Located r.disk top := by
  intro fd hfd
  rw [h.topRel, h.topFd fd hfd]
  rfl

/-- What bytes come into is no directory. -/
theorem part (h : Rooted digest top r) (rc : Receiving) (hrc : r.receiving = some rc) (fd : Fd) :
    rc.part ≠ .dir fd := by
  rw [(h.receiving rc hrc).2]
  simp

/-- So is every place of an entry. -/
theorem spotLocated (h : Rooted digest top r) (name : Name) :
    (r.spot name).1.Located r.disk top := by
  unfold Receiver.spot
  split
  · next o more hopened => exact h.opened o.dir (by simp [hopened])
  · exact h.topLocated

/-- What is at or below entry `m` of a directory has its path through it. -/
theorem prefix_of_under {dir : Dir} {fd : Fd} {d : DirId} {m n : Name} {p : Path}
    (h : Rooted digest top r) (hdir : dir.Located r.disk top) (hfd : dir.fd = some fd)
    (hunder : Under Entry.sub r.disk.entry fd.id m d n) (hon : On Entry.sub r.disk.entry top p d n) :
    dir.rel ++ [m] <+: p := by
  obtain ⟨q, hq, hpre⟩ := hunder.path (hdir fd hfd)
  obtain ⟨q', hq', hpre'⟩ := hon.prefix_path
  rw [h.sound.once.reach_eq hq hq'] at hpre
  exact hpre.trans hpre'

/-- A path that goes through an entry an item may take away goes through one of
the paths it takes away. -/
theorem takes_of_loses {i : Item} {d : DirId} {n : Name} {p : Path} (h : Rooted digest top r)
    (hlose : r.Loses digest i d n) (hon : On Entry.sub r.disk.entry top p d n) :
    ∃ q, r.Takes digest i q ∧ q <+: p := by
  cases hlose with
  | pruned hdry hopened hprunes hfd hunder =>
    have hloc := h.opened _ (by rw [hopened]; exact List.mem_cons_self)
    exact ⟨_, .pruned hdry hopened hprunes, h.prefix_of_under hloc hfd hunder hon⟩
  | @part rc hrc hne =>
    refine ⟨_, .part hrc hne, ?_⟩
    obtain ⟨q, hq, hpre⟩ := hon.prefix_path
    have hheld := h.held rc.file (by simp [Receiver.underWay, hrc])
    rwa [(hheld rc.fd (h.receiving rc hrc).1).2 q hq] at hpre
  | linked hdry hfd he hother hunder =>
    exact ⟨_, .linked hdry hfd he hother, h.prefix_of_under (h.spotLocated _) hfd hunder hon⟩

end Rooted

/-- What was taken of those under way. -/
theorem mem_of_find {ps : List Pending} {id : FileId} {p : Pending}
    (h : ps.find? (·.header.id = id) = some p) : p ∈ ps ∧ p.header.id = id :=
  ⟨List.mem_of_find?_eq_some h, by simpa using List.find?_some h⟩

theorem createdFrom_noDir {truncate : Bool} {e : Option Entry} {old : Bytes}
    (h : createdFrom truncate e = some old) : NoDir e := by
  rintro id rfl
  cases h

theorem noDir_file {bytes : Bytes} {mode : ℕ} {mtime : Option Time} :
    NoDir (some (.file bytes mode mtime)) := by
  simp [NoDir]

theorem noDir_link {target : Bytes} : NoDir (some (.link target)) := by
  simp [NoDir]

/-- Bytes as they were: what stands, and where the directories are, is as it was. -/
theorem treads_of_same {L : DirId → Name → Prop} {disk disk' : Disk}
    (hsame : ∀ d n, SameBytes (disk.entry d n) (disk'.entry d n)) (hnext : disk'.next = disk.next) :
    disk.Treads L disk' := by
  refine ⟨fun d n _ => ?_, fun {d n id} he _ => ?_, hnext.ge⟩
  · rcases hsame d n with heq | ⟨bytes, mode, mtime, mode', mtime', he, he'⟩
    · exact .inl heq
    · exact .inr ⟨by simp [he'], fun e h => by rw [he] at h; cases h; rfl⟩
  · rcases hsame d n with heq | ⟨bytes, mode, mtime, mode', mtime', -, he'⟩
    · exact heq ▸ he
    · rw [he'] at he
      cases he

/-- Bytes and modes are no part of a tree's soundness. -/
theorem sound_of_same {disk disk' : Disk} {top : DirId} (hs : disk.Sound top)
    (hsame : ∀ d n, SameBytes (disk.entry d n) (disk'.entry d n)) (hnext : disk'.next = disk.next) :
    disk'.Sound top := by
  have hold : ∀ {d n e id}, disk'.entry d n = some e → e.sub = some id → disk.entry d n = some e := by
    intro d n e id he hid
    rcases hsame d n with heq | ⟨bytes, mode, mtime, mode', mtime', -, he'⟩
    · exact heq ▸ he
    · rw [he'] at he
      cases he
      cases hid
  refine ⟨hs.once.mono hold, fun he => hnext ▸ hs.made (hold he rfl), fun hle => ?_,
    hnext ▸ hs.top⟩
  rename_i d n
  rcases hsame d n with heq | ⟨bytes, mode, mtime, mode', mtime', he, -⟩
  · rw [heq, hs.fresh (hnext ▸ hle)]
  · rw [hs.fresh (hnext ▸ hle)] at he
    cases he

section

variable {digest : Digest} {top : DirId} {r r' : Receiver}

/-- With a descriptor to make it in, a directory is opened. -/
theorem EnteredIn.isSome {parent : Dir} {name : Name} {disk disk' : Disk} {fd : Option Fd}
    (hentered : EnteredIn parent name false disk disk' fd) (hparent : parent.fd.isSome) :
    fd.isSome := by
  obtain ⟨p, hp⟩ := Option.isSome_iff_exists.mp hparent
  unfold EnteredIn at hentered
  rw [hp] at hentered
  simp only [Bool.false_eq_true, if_false] at hentered
  obtain ⟨f, rfl, -⟩ := hentered
  rfl

/-- Opening a directory takes nothing away. -/
theorem EnteredIn.treads {parent dir : Dir} {name : Name} {dry : Bool} {disk disk' : Disk} (h : EnteredIn parent name dry disk disk' dir.fd) (hs : disk.Sound top)
    (hparent : parent.Located disk top) (hrel : dir.rel = parent.rel ++ [name]) :
    disk.Treads (fun _ _ => False) disk' ∧ disk'.Sound top ∧ dir.Located disk' top := by
  unfold EnteredIn at h
  cases hfd : parent.fd with
  | none =>
    rw [hfd] at h
    exact ⟨.alike h.1, hs.alike h.1, fun fd hdir => by rw [h.2] at hdir; cases hdir⟩
  | some p =>
    rw [hfd] at h
    have hp := hparent p hfd
    cases dry with
    | true =>
      simp only [if_true] at h
      refine ⟨.alike h.1, hs.alike h.1, fun fd hdir => ?_⟩
      rw [hrel, Disk.reach, h.1.entry]
      exact reach_snoc_some.mpr ⟨p.id, _, hp, h.2 fd hdir, rfl⟩
    | false =>
      simp only [Bool.false_eq_true, if_false] at h
      obtain ⟨f, hf, hentered⟩ := h
      have htreads : disk.Treads (fun _ _ => False) disk' := .entered hentered
      refine ⟨.entered hentered, hs.entered (hs.reach_lt hp) hentered, fun fd hdir => ?_⟩
      rw [hf] at hdir
      cases hdir
      rw [hrel]
      have hp' := htreads.spared.reach hp fun _ _ _ hno => hno
      exact reach_snoc_some.mpr ⟨p.id, _, hp', hentered.entry, rfl⟩

/-- A link loses what was in its place. -/
theorem Linked.treads {fd : Fd} {name : Name} {target : LinkTarget}
    (h : Linked digest r.disk r'.disk fd.id (r.spot name).2 target) (hr : Rooted digest top r)
    (hfd : (r.spot name).1.fd = some fd) (hdry : r.opts.dryRun = false) :
    r.disk.Treads (r.Loses digest (.symlink name target)) r'.disk ∧ r'.disk.Sound top := by
  have hlt := hr.sound.reach_lt (hr.spotLocated name fd hfd)
  cases h with
  | there _ halike => exact ⟨.alike halike, hr.sound.alike halike⟩
  | made hnone hsets =>
    exact ⟨.sets hsets noDir_link (by simp [hnone, NoDir]), hr.sound.sets hsets hlt noDir_link.sub⟩
  | replaced mid hsome hno hother hwent _ hsets =>
    obtain ⟨e, he⟩ := Option.isSome_iff_exists.mp hsome
    have hmid : NoDir (mid.entry fd.id (r.spot name).2) := by
      rcases hwent.entry fd.id (r.spot name).2 with heq | ⟨-, hnone⟩
      · rw [heq]
        exact hno
      · simp [hnone, NoDir]
    refine ⟨Disk.Treads.trans (.went hwent fun d' m hunder => ?_) (.sets hsets noDir_link hmid), ?_⟩
    · exact .linked hdry hfd he (fun hsame => hother (hsame ▸ he)) hunder
    · exact (hr.sound.went hwent).sets hsets (hwent.next ▸ hlt) noDir_link.sub

theorem noDir_of_same {e e' : Option Entry} (h : SameBytes e e') (he : NoDir e) : NoDir e' := by
  rcases h with rfl | ⟨bytes, mode, mtime, mode', mtime', -, rfl⟩
  · exact he
  · exact noDir_file

/-- A file renamed: its part is gone, and what was there is replaced. -/
theorem rename_treads {disk disk' : Disk} {L : DirId → Name → Prop} {d : DirId} {part name : Name}
    {e' : Entry} (hs : disk.Sound top) (hlt : d < disk.next) (he' : NoDir (some e')) (hname : NoDir (disk.entry d name))
    (hL : part ≠ name → L d part)
    (hentry : disk'.entry = setAt (setAt disk.entry d part none) d name (some e'))
    (hnext : disk'.next = disk.next) : disk.Treads L disk' ∧ disk'.Sound top := by
  by_cases hne : part = name
  · subst hne
    rw [setAt_setAt] at hentry
    have hsets : disk.Sets disk' d part (some e') := ⟨hentry, hnext⟩
    exact ⟨.sets hsets he' hname, hs.sets hsets hlt he'.sub⟩
  · have hmid : disk.Sets (disk.erase d part) d part none := ⟨by simp, rfl⟩
    have hsets : (disk.erase d part).Sets disk' d name (some e') := ⟨by rw [hentry]; simp, hnext⟩
    have hno : NoDir ((disk.erase d part).entry d name) := by
      rw [hmid.entry, setAt_ne _ fun h => hne h.2.symm]
      exact hname
    refine ⟨Disk.Treads.trans (.shrunk ?_ hmid.went.entry.shrunk rfl) (.sets hsets he' hno),
      (hs.went hmid.went).sets hsets hlt he'.sub⟩
    rw [hmid.entry]
    exact spared_setAt_none (hL hne)

/-- What an item did to the tree: nothing went but what it may take away. -/
theorem Does.treads {i : Item} {h : Heard} (hr : Rooted digest top r) (hdoes : Does digest r r' i h) :
    r.disk.Treads (r.Loses digest i) r'.disk ∧ r'.disk.Sound top := by
  have hs := hr.sound
  have hsame : ∀ {disk' : Disk}, disk' = r.disk →
      r.disk.Treads (r.Loses digest i) disk' ∧ disk'.Sound top := fun heq =>
    ⟨.of_eq heq, heq ▸ hs⟩
  cases hdoes with
  | allDone _ _ _ heq => exact hsame (by rw [heq])
  | @dirEnd dir seen more _ hopened _ hnone hpruned =>
    cases seen with
    | none => exact ⟨.alike (hnone rfl), hs.alike (hnone rfl)⟩
    | some names =>
      have hp := hpruned names rfl
      cases hdry : r.opts.dryRun with
      | true => exact ⟨.alike (hp.dry hdry), hs.alike (hp.dry hdry)⟩
      | false =>
        have hentry : ∀ d n, r'.disk.entry d n = r.disk.entry d n ∨ r'.disk.entry d n = none :=
          fun d n => (hp.entry d n).imp_right And.left
        refine ⟨.shrunk (fun d n hno => .inl ?_) hentry hp.next, hs.shrunk hp.next hentry⟩
        rcases hp.entry d n with heq | ⟨-, fd, m, hfd, hprunes, hunder⟩
        · exact heq
        · exact absurd (.pruned hdry hopened hprunes hfd hunder) hno
  | skipped _ _ _ hdisk => exact hsame hdisk
  | @data id start p fd old mode mtime _ _ hfind hfd _ hold hsets =>
    have hlt := (hr.held p (by simp [Receiver.underWay, (mem_of_find hfind).1]) fd hfd).1
    exact ⟨.sets hsets noDir_file (createdFrom_noDir hold), hs.sets hsets hlt noDir_file.sub⟩
  | differs _ _ _ _ hdisk => exact hsame hdisk
  | same _ _ _ hnext hbytes _ _ => exact ⟨treads_of_same hbytes hnext, sound_of_same hs hbytes hnext⟩
  | contents _ _ _ _ _ _ hdisk => exact hsame hdisk
  | contentsNamed _ _ _ _ hrel _ hentered =>
    obtain ⟨htreads, hsound, -⟩ := hentered.treads hs hr.topLocated hrel
    exact ⟨htreads.mono fun _ _ => False.elim, hsound⟩
  | dir _ hrel _ hentered =>
    obtain ⟨htreads, hsound, -⟩ := hentered.treads hs (hr.spotLocated _) hrel
    exact ⟨htreads.mono fun _ _ => False.elim, hsound⟩
  | file _ _ _ _ _ _ hdisk _ _ => exact hsame hdisk
  | symlink _ _ hdry hlinked =>
    cases hd : r.opts.dryRun with
    | true => exact ⟨.alike (hdry hd), hs.alike (hdry hd)⟩
    | false =>
      obtain ⟨fd, hfd, hl⟩ := hlinked hd
      exact hl.treads hr hfd hd
  | @chunk rc c hrc _ hsets =>
    obtain ⟨hfd, hpart⟩ := hr.receiving rc hrc
    obtain ⟨bytes, mode, mtime, he, hset⟩ := hsets _ _ hpart
    have hlt := (hr.held _ (by simp [Receiver.underWay, hrc]) _ hfd).1
    exact ⟨.sets hset noDir_file (he ▸ noDir_file), hs.sets hset hlt noDir_file.sub⟩
  | @sent rc hrc _ hnext hentry =>
    obtain ⟨hfd, hpart⟩ := hr.receiving rc hrc
    obtain ⟨e, e', he, hbytes, hno, hname, hset⟩ := hentry hpart
    have hlt := (hr.held _ (by simp [Receiver.underWay, hrc]) _ hfd).1
    exact rename_treads hs hlt (noDir_of_same hbytes hno) hname (fun hne => .part hrc hne)
      hset hnext

/-- A directory whose path goes through nothing taken away stays where it was. -/
theorem Dir.Located.treads {dir : Dir} {L : DirId → Name → Prop} {disk disk' : Disk}
    (h : dir.Located disk top) (ht : disk.Treads L disk')
    (hno : ∀ d n id, On Entry.sub disk.entry top dir.rel d n → disk.entry d n = some (.dir id) →
      ¬ L d n) : dir.Located disk' top := by
  intro fd hfd
  refine ht.spared.reach (h fd hfd) fun d n hon => ?_
  obtain ⟨id, hid⟩ := dir_of_on hon (h fd hfd)
  exact hno d n id hon hid

/-- The directories still open stay where they were. -/
theorem Rooted.opened_spared (hr : Rooted digest top r) {dir : Dir} {i : Item}
    (hdir : dir ∈ r.opened.map Open.dir) (hend : i = .dirEnd → dir ∈ (r.opened.map Open.dir).tail)
    {d id : DirId} {n : Name} (hon : On Entry.sub r.disk.entry top dir.rel d n)
    (hid : r.disk.entry d n = some (.dir id))
    (hpart : ∀ rc, r.receiving = some rc → i = .sent →
      NoDir (r.disk.entry rc.fd.id (partName digest rc.file.header.name))) :
    ¬ r.Loses digest i d n := by
  intro hlose
  have hlong : ∀ {p q : Path} {m : Name}, p <+: q → ¬ q ++ [m] <+: p := by
    intro p q m hpq hqp
    have := hpq.length_le
    have := hqp.length_le
    simp only [List.length_append, List.length_cons, List.length_nil] at this
    omega
  cases hlose with
  | pruned hdry hopened hprunes hfd hunder =>
    have hloc := hr.opened _ (by rw [hopened]; exact List.mem_cons_self)
    have hpre := hr.prefix_of_under hloc hfd hunder hon
    have hmem := hend rfl
    have hchain := hr.chain
    rw [hopened] at hmem hchain
    exact hlong ((List.pairwise_cons.mp hchain).1 dir hmem) hpre
  | part hrc hne => exact hpart _ hrc rfl _ hid
  | linked hdry hfd he hother hunder =>
    have hpre := hr.prefix_of_under (hr.spotLocated _) hfd hunder hon
    refine hlong ?_ hpre
    have hchain := hr.chain
    cases hopened : r.opened with
    | nil =>
      rw [hopened] at hdir
      cases hdir
    | cons o more =>
      rw [hopened] at hdir hchain
      rw [Receiver.spot, hopened]
      rcases List.mem_cons.mp hdir with rfl | hmem
      · exact List.prefix_refl _
      · exact (List.pairwise_cons.mp hchain).1 dir hmem

/-- What holds of the directories after an item, from what it changed of them. -/
theorem Rooted.next {i : Item} {h : Heard} (hr : Rooted digest top r) (hdoes : Does digest r r' i h)
    (htop : r'.top = r.top)
    (hopened : ∀ dir ∈ r'.opened.map Open.dir,
      dir ∈ r.opened.map Open.dir ∧ (i = .dirEnd → dir ∈ (r.opened.map Open.dir).tail) ∨
        dir.Located r'.disk top)
    (hchain : (r'.opened.map Open.dir).Pairwise fun dir dir' => dir'.rel <+: dir.rel)
    (hunder : ∀ p ∈ r'.underWay, p ∈ r.underWay ∨ p.dir.Located r.disk top)
    (hreceiving : ∀ rc, r'.receiving = some rc → rc.file.dir.fd = some rc.fd ∧
      rc.part = .file rc.fd.id (partName digest rc.file.header.name))
    (hids : (r'.pending.map (·.header.id)).Nodup) : Rooted digest top r' := by
  obtain ⟨htreads, hsound⟩ := hdoes.treads hr
  refine ⟨hsound, htop ▸ hr.topFd, htop ▸ hr.topRel, fun dir hdir => ?_, hchain, fun p hp => ?_,
    hreceiving, hids⟩
  · rcases hopened dir hdir with ⟨hmem, hend⟩ | hloc
    · refine (hr.opened dir hmem).treads htreads fun d n id hon hid => ?_
      refine hr.opened_spared hmem hend hon hid fun rc hrc hi => ?_
      subst hi
      cases hdoes with
      | sent hrc' _ _ hentry =>
        rw [hrc] at hrc'
        cases hrc'
        obtain ⟨e, e', he, -, hno, -⟩ := hentry (hr.receiving rc hrc).2
        exact he ▸ hno
    · exact hloc
  · rcases hunder p hp with hmem | hloc
    · exact (hr.held p hmem).treads hr.sound htreads
    · exact (hloc.held hr.sound).treads hr.sound htreads

/-- Between files' bytes, the files under way are those pending. -/
theorem Receiver.underWay_between (hrc : r.receiving = none) : r.underWay = r.pending := by
  simp [Receiver.underWay, hrc]

/-- Files pending are under way. -/
theorem Receiver.underWay_of_pending {p : Pending} (hp : p ∈ r.pending) : p ∈ r.underWay :=
  List.mem_append_left _ hp

/-- After an item that opens and ends no directory, with no file under way that was not. -/
theorem Rooted.keep {i : Item} {h : Heard} (hr : Rooted digest top r) (hdoes : Does digest r r' i h)
    (hi : i ≠ .dirEnd) (htop : r'.top = r.top)
    (hdirs : r'.opened.map Open.dir = r.opened.map Open.dir)
    (hpending : r'.pending.Sublist r.pending)
    (hfile : ∀ rc, r'.receiving = some rc → rc.file ∈ r.underWay)
    (hreceiving : ∀ rc, r'.receiving = some rc → rc.file.dir.fd = some rc.fd ∧
      rc.part = .file rc.fd.id (partName digest rc.file.header.name)) : Rooted digest top r' := by
  refine hr.next hdoes htop (fun dir hdir => .inl ⟨hdirs ▸ hdir, fun h => absurd h hi⟩)
    (hdirs ▸ hr.chain) (fun p hp => .inl ?_) hreceiving (hr.ids.sublist (hpending.map _))
  rcases List.mem_append.mp hp with hmem | hmem
  · exact Receiver.underWay_of_pending (hpending.subset hmem)
  · rw [Option.mem_toList, Option.map_eq_some_iff] at hmem
    obtain ⟨rc, hrc, rfl⟩ := hmem
    exact hfile rc hrc

/-- And if no file's bytes come. -/
theorem Rooted.between {i : Item} {h : Heard} (hr : Rooted digest top r)
    (hdoes : Does digest r r' i h) (hi : i ≠ .dirEnd) (htop : r'.top = r.top)
    (hdirs : r'.opened.map Open.dir = r.opened.map Open.dir) (hnone : r'.receiving = none)
    (hpending : r'.pending.Sublist r.pending) : Rooted digest top r' :=
  hr.keep hdoes hi htop hdirs hpending (by simp [hnone]) (by simp [hnone])

/-- After an item that opens a directory, below those there were. -/
theorem Rooted.open {i : Item} {h : Heard} (hr : Rooted digest top r) (hdoes : Does digest r r' i h)
    (hi : i ≠ .dirEnd) (htop : r'.top = r.top) {dir : Dir}
    (hdirs : r'.opened.map Open.dir = dir :: r.opened.map Open.dir)
    (hloc : dir.Located r'.disk top)
    (hbelow : ∀ dir' ∈ r.opened.map Open.dir, dir'.rel <+: dir.rel) (hnone : r'.receiving = none)
    (hpending : r'.pending = r.pending) : Rooted digest top r' := by
  refine hr.next hdoes htop (fun dir' hdir' => ?_) ?_ (fun p hp => .inl ?_) (by simp [hnone])
    (hpending ▸ hr.ids)
  · rw [hdirs] at hdir'
    rcases List.mem_cons.mp hdir' with rfl | hmem
    · exact .inr hloc
    · exact .inl ⟨hmem, fun h => absurd h hi⟩
  · rw [hdirs]
    exact List.pairwise_cons.mpr ⟨hbelow, hr.chain⟩
  · rw [Receiver.underWay_between hnone, hpending] at hp
    exact Receiver.underWay_of_pending hp

/-- The directory that an entry comes into is the innermost, or no directory is open. -/
theorem Rooted.below_spot (hr : Rooted digest top r) (name : Name) {dir : Dir}
    (hdir : dir ∈ r.opened.map Open.dir) : dir.rel <+: (r.spot name).1.rel := by
  have hchain := hr.chain
  cases hopened : r.opened with
  | nil =>
    rw [hopened] at hdir
    cases hdir
  | cons o more =>
    rw [hopened] at hdir hchain
    rw [Receiver.spot, hopened]
    rcases List.mem_cons.mp hdir with rfl | hmem
    · exact List.prefix_refl _
    · exact (List.pairwise_cons.mp hchain).1 dir hmem

/-- An item keeps the receiver's directories where their paths say. -/
theorem Does.rooted {i : Item} {h : Heard} (hr : Rooted digest top r) (hdoes : Does digest r r' i h) :
    Rooted digest top r' := by
  have hdoes' := hdoes
  cases hdoes with
  | allDone _ _ _ heq => exact heq ▸ hr
  | @dirEnd dir seen more hrc hopened hstill _ _ =>
    have hnone : r'.receiving = none := hstill.receiving.trans hrc
    have hchain := hr.chain
    rw [hopened] at hchain
    refine hr.next hdoes' hstill.top (fun dir hdir => .inl ?_) ?_ (fun p hp => .inl ?_)
      (by simp [hnone]) (hstill.pending ▸ hr.ids)
    · rw [hstill.opened] at hdir
      rw [hopened]
      exact ⟨List.mem_cons_of_mem _ hdir, fun _ => hdir⟩
    · rw [hstill.opened]
      exact (List.pairwise_cons.mp hchain).2
    · rw [Receiver.underWay_between hnone, hstill.pending] at hp
      exact Receiver.underWay_of_pending hp
  | skipped hrc _ hstill _ =>
    exact hr.between hdoes' (by simp) hstill.top (by rw [hstill.opened, sawIn_dirs])
      (hstill.receiving.trans hrc) (hstill.pending ▸ .refl _)
  | @data id start p fd old mode mtime hrc _ hfind hfd hstill _ _ =>
    refine hr.keep hdoes' (by simp) hstill.top (by rw [hstill.opened])
      (hstill.pending ▸ List.filter_sublist) ?_ ?_
    · rw [hstill.receiving]
      rintro _ ⟨⟩
      exact Receiver.underWay_of_pending (mem_of_find hfind).1
    · rw [hstill.receiving]
      rintro _ ⟨⟩
      exact ⟨hfd, rfl⟩
  | differs hrc _ _ hstill _ =>
    exact hr.between hdoes' (by simp) hstill.top (by rw [hstill.opened])
      (hstill.receiving.trans hrc) (hstill.pending ▸ List.filter_sublist)
  | same hrc _ hstill _ _ _ _ =>
    exact hr.between hdoes' (by simp) hstill.top (by rw [hstill.opened])
      (hstill.receiving.trans hrc) (hstill.pending ▸ List.filter_sublist)
  | @contents mode mtime dir hrc hopened _ hdirfd hdirrel hstill _ =>
    have hdirs : r'.opened.map Open.dir = dir :: r.opened.map Open.dir := by
      rw [hstill.opened, hopened]
      rfl
    refine hr.open hdoes' (by simp) hstill.top hdirs (fun fd hfd => ?_) (by simp [hopened])
      (hstill.receiving.trans hrc) hstill.pending
    rw [hdirrel, hr.topFd fd (hdirfd ▸ hfd)]
    rfl
  | @contentsNamed mode mtime name dir hrc hopened _ _ hrel hstill hentered =>
    have hdirs : r'.opened.map Open.dir = dir :: r.opened.map Open.dir := by
      rw [hstill.opened, hopened]
      rfl
    exact hr.open hdoes' (by simp) hstill.top hdirs
      (hentered.treads hr.sound hr.topLocated hrel).2.2 (by simp [hopened])
      (hstill.receiving.trans hrc) hstill.pending
  | @dir name mode mtime dir hrc hrel hstill hentered =>
    have hdirs : r'.opened.map Open.dir = dir :: r.opened.map Open.dir := by
      rw [hstill.opened, List.map_cons, sawIn_dirs]
    refine hr.open hdoes' (by simp) (by simpa using hstill.top) hdirs
      (hentered.treads hr.sound (hr.spotLocated name) hrel).2.2 (fun dir' hdir' => ?_)
      (by simpa [hrc] using hstill.receiving) (by simpa using hstill.pending)
    rw [hrel]
    exact (hr.below_spot name hdir').trans (List.prefix_append _ _)
  | @file header answer p hrc _ hnew hdir hheader hstill _ _ _ =>
    have hp' : r'.pending = r.pending ++ [p] := by simpa using hstill.pending
    have hdirs : r'.opened.map Open.dir = r.opened.map Open.dir := by
      rw [hstill.opened]
      cases answer <;> simp [sawFor]
    have hnone : r'.receiving = none := by simpa [hrc] using hstill.receiving
    refine hr.next hdoes' (by simpa using hstill.top)
      (fun dir hdir => .inl ⟨hdirs ▸ hdir, by rintro ⟨⟩⟩) (hdirs ▸ hr.chain) (fun q hq => ?_)
      (by simp [hnone]) ?_
    · rw [Receiver.underWay_between hnone, hp', List.mem_append, List.mem_singleton] at hq
      rcases hq with hq | rfl
      · exact .inl (Receiver.underWay_of_pending hq)
      · exact .inr (hdir ▸ hr.spotLocated header.name)
    · rw [hp', List.map_append, List.nodup_append]
      refine ⟨hr.ids, by simp, ?_⟩
      simp only [List.map_cons, List.map_nil, List.mem_singleton]
      rintro id hid _ rfl rfl
      rw [hheader] at hid
      exact hnew hid
  | symlink hrc hstill _ _ =>
    have hpending : r'.pending = r.pending := by simpa using hstill.pending
    exact hr.between hdoes' (by simp) (by simpa using hstill.top)
      (by rw [hstill.opened, sawIn_dirs]) (by simpa [hrc] using hstill.receiving)
      (hpending ▸ .refl _)
  | @chunk rc c hrc hstill _ =>
    refine hr.keep hdoes' (by simp) hstill.top (by rw [hstill.opened]) (hstill.pending ▸ .refl _)
      ?_ ?_
    · rw [hstill.receiving]
      rintro _ ⟨⟩
      simp [Receiver.underWay, hrc]
    · rw [hstill.receiving]
      rintro _ ⟨⟩
      exact hr.receiving rc hrc
  | @sent rc hrc hstill _ _ =>
    exact hr.between hdoes' (by simp) hstill.top (by rw [hstill.opened]) hstill.receiving
      (hstill.pending ▸ .refl _)

/-- What no item changes. -/
theorem Does.fixed {i : Item} {h : Heard} (hdoes : Does digest r r' i h) : r'.opts = r.opts ∧ r'.top = r.top ∧ r'.named = r.named := by
  have hstill : ∀ {r₀ : Receiver}, Still r₀ r' → r₀.opts = r.opts → r₀.top = r.top →
      r₀.named = r.named → r'.opts = r.opts ∧ r'.top = r.top ∧ r'.named = r.named :=
    fun h hopts htop hnamed => ⟨h.opts.trans hopts, h.top.trans htop, h.named.trans hnamed⟩
  cases hdoes with
  | allDone _ _ _ heq => exact heq ▸ ⟨rfl, rfl, rfl⟩
  | dirEnd _ _ h _ _ => exact hstill h rfl rfl rfl
  | skipped _ _ h _ => exact hstill h rfl rfl rfl
  | data _ _ _ _ h _ _ => exact hstill h rfl rfl rfl
  | differs _ _ _ h _ => exact hstill h rfl rfl rfl
  | same _ _ h _ _ _ _ => exact hstill h rfl rfl rfl
  | contents _ _ _ _ _ h _ => exact hstill h rfl rfl rfl
  | contentsNamed _ _ _ _ _ h _ => exact hstill h rfl rfl rfl
  | dir _ _ h _ =>
    exact hstill h Receiver.stepped_opts Receiver.stepped_top Receiver.stepped_named
  | file _ _ _ _ _ h _ _ _ =>
    exact hstill h Receiver.stepped_opts Receiver.stepped_top Receiver.stepped_named
  | symlink _ h _ _ =>
    exact hstill h Receiver.stepped_opts Receiver.stepped_top Receiver.stepped_named
  | chunk _ h _ => exact hstill h rfl rfl rfl
  | sent _ h _ _ => exact hstill h rfl rfl rfl

/-- The receiver starts at the target. -/
theorem start_rooted {disk : Disk} {target : Target} {opts : Opts} (hs : disk.Sound top)
    (htarget : ∀ id, target.dir = some id → id = top) :
    Rooted digest top (.start ⟨disk, []⟩ target opts) := by
  refine ⟨hs, fun fd hfd => ?_, rfl, by simp [Receiver.start], by simp [Receiver.start],
    by simp [Receiver.start, Receiver.underWay], by simp [Receiver.start], by simp [Receiver.start]⟩
  obtain ⟨id, hid, rfl⟩ := Option.map_eq_some_iff.mp hfd
  exact htarget id hid

end

/-! ### Runs -/

section

variable {γ : Type} (digest : Digest) (note : γ → Receiver → Item → γ)

/-- `P` holds before every item that is read, `note` keeping what there is to know
of those before it. -/
def Along (P : γ → Receiver → Item → Prop) : γ → Receiver → List Item → Prop
  | _, _, [] => True
  | g, r, i :: items => P g r i ∧
    ∀ h r', Receiver.item digest i r = .ok h r' → (∀ s, h ≠ .over s) →
      Along P (note g r i) r' items

variable {digest note} in
theorem Along.and {P Q : γ → Receiver → Item → Prop} {g : γ} {r : Receiver} {items : List Item}
    (hP : Along digest note P g r items) (hQ : Along digest note Q g r items) :
    Along digest note (fun g r i => P g r i ∧ Q g r i) g r items := by
  induction items generalizing g r with
  | nil => trivial
  | cons i items ih =>
    exact ⟨⟨hP.1, hQ.1⟩, fun h r' hitem hover => ih (hP.2 h r' hitem hover) (hQ.2 h r' hitem hover)⟩

/-- What each item that is read is read at. -/
def passed : γ → Receiver → List Item → List (γ × Receiver × Item)
  | _, _, [] => []
  | g, r, i :: items => (g, r, i) ::
    match Receiver.item digest i r with
    | .ok (.over _) _ => []
    | .ok _ r' => passed (note g r i) r' items
    | .error _ _ => []

variable {digest note} in
/-- What holds along a run holds wherever it passed. -/
theorem along_iff_passed {P : γ → Receiver → Item → Prop} {g : γ} {r : Receiver} {items : List Item} :
    Along digest note P g r items ↔ ∀ x ∈ passed digest note g r items, P x.1 x.2.1 x.2.2 := by
  induction items generalizing g r with
  | nil => simp [Along, passed]
  | cons i items ih =>
    simp only [Along, passed, List.mem_cons, forall_eq_or_imp]
    refine and_congr_right fun _ => ?_
    cases hitem : Receiver.item digest i r with
    | error e r₁ => simp
    | ok h₁ r₁ =>
      cases h₁ with
      | «over» s => simp
      | nothing => simp [ih]
      | answer a => simp [ih]

variable {digest note} in
/-- A run seen through `view`: what holds of all that is seen holds along it. -/
theorem along_of_view {α : Type} {P : γ → Receiver → Item → Prop} {g : γ} {r : Receiver}
    {items : List Item} {l : List α} (view : γ × Receiver × Item → α)
    (hview : (passed digest note g r items).map view = l)
    (h : ∀ g r i, view (g, r, i) ∈ l → P g r i) : Along digest note P g r items :=
  along_iff_passed.mpr fun _ hx => h _ _ _ (hview ▸ List.mem_map_of_mem hx)

/-- What `f` says of the receiver once a run ended well. -/
def endsAs {β : Type} (f : Receiver → β) (r : Receiver) (items : List Item) : Option β :=
  match Receiver.feed digest items r with
  | .ok _ r' => some (f r')
  | .error _ _ => none

/-- A run that ends well gives what it ends with, and what is said of that. -/
theorem feed_of_endsAs {β : Type} {f : Receiver → β} {r : Receiver} {items : List Item} {b : β}
    (hends : endsAs digest f r items = some b) :
    ∃ h r', Receiver.feed digest items r = .ok h r' ∧ f r' = b := by
  unfold endsAs at hends
  cases hfeed : Receiver.feed digest items r with
  | ok h r' =>
    rw [hfeed] at hends
    exact ⟨h, r', rfl, Option.some_inj.mp hends⟩
  | error e r' => simp [hfeed] at hends

/-- What is known when the run ends. -/
def noted : γ → Receiver → List Item → γ
  | g, _, [] => g
  | g, r, i :: items =>
    match Receiver.item digest i r with
    | .ok (.over _) _ => note g r i
    | .ok _ r' => noted (note g r i) r' items
    | .error _ _ => g

variable {digest note}

/-- What every item keeps holds when the run ends, and the last item was `allDone`. -/
theorem feed_invariant {P : γ → Receiver → Item → Prop} (Inv : γ → Receiver → Prop)
    {top : DirId} (hstep : ∀ g r i h r', Rooted digest top r → Inv g r → P g r i →
      Does digest r r' i h → Inv (note g r i) r')
    {g : γ} {r r' : Receiver} {items : List Item} {h : Heard} (hr : Rooted digest top r)
    (hinv : Inv g r) (halong : Along digest note P g r items)
    (hfeed : Receiver.feed digest items r = .ok h r') :
    Inv (noted digest note g r items) r' ∧ Rooted digest top r' ∧ r'.opened = [] ∧ r'.pending = [] ∧
      r'.receiving = none := by
  induction items generalizing g r with
  | nil => cases hfeed
  | cons i items ih =>
    obtain ⟨hP, hrest⟩ := halong
    simp only [Receiver.feed, bind, EStateM.bind] at hfeed
    simp only [noted]
    cases hitem : Receiver.item digest i r with
    | error e r₁ =>
      rw [hitem] at hfeed
      cases hfeed
    | ok h₁ r₁ =>
      rw [hitem] at hfeed
      have hdoes := Receiver.item_does hr.sound hitem
      have hinv₁ := hstep g r i h₁ r₁ hr hinv hP hdoes
      have hr₁ := hdoes.rooted hr
      cases h₁ with
      | «over» s =>
        cases hfeed
        cases hdoes with
        | allDone hrc hopened hpending heq =>
          subst heq
          exact ⟨hinv₁, hr₁, hopened, hpending, hrc⟩
      | nothing => exact ih hr₁ hinv₁ (hrest _ _ hitem (by simp)) hfeed
      | answer a => exact ih hr₁ hinv₁ (hrest _ _ hitem (by simp)) hfeed

end

end Koh.Sync
