import Koh.Sync.DryRun
import Koh.Sync.Effect

/-!
# The modes and times of directories

Which calls change the mode or the time of a directory: those made on one that is open, and
`remove`, for one that it is about to take away. The others leave both as they are.

## Main definitions

- `Disk.Dated`: directories whose entries stayed have the mode and the time they had

## Main results

- `remove_leaves`: an entry removed leaves the directories that stay as they were
- `replaceLink_leaves`: so does a symlink put in place of what was there
-/

namespace Koh.Sync

open Names

/-- Each directory of `disk`, but those of `X`, whose entries all stayed has the mode and the time
that it had; and none was moved. -/
structure Disk.Dated (X : DirId → Prop) (disk disk' : Disk) : Prop where
  next : disk.next ≤ disk'.next
  old : ∀ {d n id}, id < disk.next → disk'.entry d n = some (.dir id) →
    disk.entry d n = some (.dir id)
  same : ∀ {id}, id < disk.next → ¬ X id →
    (∀ d n, disk.entry d n = some (.dir id) → disk'.entry d n = some (.dir id)) →
    (disk'.dirs id).mode = (disk.dirs id).mode ∧ (disk'.dirs id).mtime = (disk.dirs id).mtime

namespace Disk

variable {X Y : DirId → Prop} {disk mid disk' : Disk} {d : DirId} {n : Name}

namespace Dated

theorem refl (X : DirId → Prop) (disk : Disk) : disk.Dated X disk :=
  ⟨le_rfl, fun _ h => h, fun _ _ _ => ⟨rfl, rfl⟩⟩

/-- More directories may change. -/
theorem mono (h : disk.Dated X disk') (hX : ∀ id, X id → Y id) : disk.Dated Y disk' :=
  ⟨h.next, h.old, fun hid hno => h.same hid fun hx => hno (hX _ hx)⟩

/-- A call that changes no directory's mode or time, and puts no directory anywhere. -/
theorem calm (h : disk.Dated X mid) (hnext : disk'.next = mid.next)
    (hdirs : ∀ {d n id}, disk'.entry d n = some (.dir id) → mid.entry d n = some (.dir id))
    (hdates : ∀ id, (disk'.dirs id).mode = (mid.dirs id).mode ∧
      (disk'.dirs id).mtime = (mid.dirs id).mtime) : disk.Dated X disk' := by
  refine ⟨hnext ▸ h.next, fun hid he => h.old hid (hdirs he), fun {id} hid hno hstays => ?_⟩
  obtain ⟨hmode, hmtime⟩ := h.same hid hno fun d n he => hdirs (hstays d n he)
  exact ⟨(hdates id).1.trans hmode, (hdates id).2.trans hmtime⟩

/-- A directory that is not where it was is none of those that stayed. -/
theorem erased {sub : DirId} (h : disk.Dated (fun id => X id ∨ id = sub) disk')
    (hsub : sub < disk.next → disk.entry d n = some (.dir sub))
    (hgone : disk'.entry d n ≠ some (.dir sub)) : disk.Dated X disk' := by
  refine ⟨h.next, h.old, fun {id} hid hno hstays => h.same hid ?_ hstays⟩
  rintro (hx | rfl)
  · exact hno hx
  · exact hgone (hstays d n (hsub hid))

end Dated

/-- What changes neither mode nor time of a directory. -/
theorem alter_dates {f : Directory → Directory}
    (hf : ∀ dir, (f dir).mode = dir.mode ∧ (f dir).mtime = dir.mtime) (id : DirId) :
    ((disk.alter d f).dirs id).mode = (disk.dirs id).mode ∧
      ((disk.alter d f).dirs id).mtime = (disk.dirs id).mtime := by
  simp only [alter, Function.update_apply]
  split
  · next h => exact h ▸ hf _
  · exact ⟨rfl, rfl⟩

/-- An entry that is put changes none. -/
theorem put_dates (disk : Disk) (d : DirId) (n : Name) (e : Entry) (id : DirId) :
    ((disk.put d n e).dirs id).mode = (disk.dirs id).mode ∧
      ((disk.put d n e).dirs id).mtime = (disk.dirs id).mtime := by
  have hkept : ∀ dir : Directory, ∀ entries, { dir with entries := entries }.mode = dir.mode ∧
      { dir with entries := entries }.mtime = dir.mtime := fun _ _ => ⟨rfl, rfl⟩
  exact alter_dates (fun dir => hkept dir _) id

/-- Nor does it make a directory of a name. -/
theorem put_dated {e : Entry} (h : disk.Dated X mid) (he : e.sub = none) :
    disk.Dated X (mid.put d n e) := by
  refine h.calm rfl (fun {d' n' id} hdir => ?_) (put_dates _ _ _ _)
  rw [put_entry] at hdir
  by_cases hat : d' = d ∧ n' = n
  · obtain ⟨rfl, rfl⟩ := hat
    rw [setAt_self] at hdir
    cases Option.some.inj hdir
    cases he
  · rwa [setAt_ne _ hat] at hdir

/-- Nor does an entry that is taken away. -/
theorem erase_dated (h : disk.Dated X mid) : disk.Dated X (mid.erase d n) := by
  refine h.calm rfl (fun {d' n' id} hdir => ?_) (alter_dates fun _ => ⟨rfl, rfl⟩)
  rw [erase_entry] at hdir
  by_cases hat : d' = d ∧ n' = n
  · obtain ⟨rfl, rfl⟩ := hat
    rw [setAt_self] at hdir
    cases hdir
  · rwa [setAt_ne _ hat] at hdir

/-- Nor a directory. -/
theorem removeDir_dated {sub : DirId} (h : disk.Dated X mid) :
    disk.Dated X (mid.removeDir d n sub) := by
  refine (erase_dated (d := d) (n := n) h).calm rfl (fun {d' n' id} hdir => ?_)
    (alter_dates fun _ => ⟨rfl, rfl⟩)
  rwa [removeDir_entry, ← erase_entry] at hdir

/-- A directory made is none of those that were there. -/
theorem makeDir_dated (h : disk.Dated X mid) : disk.Dated X (mid.makeDir d n) := by
  have hdirs : ∀ {d' n' id}, id < disk.next → (mid.makeDir d n).entry d' n' = some (.dir id) →
      mid.entry d' n' = some (.dir id) := by
    intro d' n' id hid hdir
    rw [makeDir, put_entry] at hdir
    by_cases hat : d' = d ∧ n' = n
    · obtain ⟨rfl, rfl⟩ := hat
      rw [setAt_self] at hdir
      cases Option.some.inj hdir
      exact absurd hid (not_lt.mpr h.next)
    · rw [setAt_ne _ hat] at hdir
      simp only [entry, Function.update_apply] at hdir ⊢
      split at hdir
      · cases hdir
      · exact hdir
  refine ⟨h.next.trans (Nat.le_succ _), fun hid he => h.old hid (hdirs hid he),
    fun {id} hid hno hstays => ?_⟩
  have hsame := h.same hid hno fun d n he => hdirs hid (hstays d n he)
  have hne : id ≠ mid.next := (lt_of_lt_of_le hid h.next).ne
  have hmade : Function.update mid.dirs mid.next ⟨[], 0o700, none, false⟩ id = mid.dirs id :=
    Function.update_of_ne hne _ _
  obtain ⟨hmode, hmtime⟩ := put_dates { mid with
    dirs := Function.update mid.dirs mid.next ⟨[], 0o700, none, false⟩, next := mid.next + 1 } d n
    (.dir mid.next) id
  exact ⟨(hmode.trans (congrArg Directory.mode hmade)).trans hsame.1,
    (hmtime.trans (congrArg Directory.mtime hmade)).trans hsame.2⟩

/-- The mode or the time of a directory of `X` changes. -/
theorem alter_dated {id : DirId} {f : Directory → Directory} (h : disk.Dated X mid)
    (hf : ∀ dir, (f dir).entries = dir.entries) (hid : X id) : disk.Dated X (mid.alter id f) := by
  have hentry := alter_entry mid id hf
  refine ⟨h.next, fun hlt he => h.old hlt (hentry ▸ he), fun {id'} hlt hno hstays => ?_⟩
  have hne : id' ≠ id := by
    rintro rfl
    exact hno hid
  simp only [alter, Function.update_of_ne hne]
  exact h.same hlt hno fun d n he => hentry ▸ hstays d n he

end Disk

/-! ### The calls -/

section

variable {X : DirId → Prop} {disk : Disk}

/-- The directories of `disk` that stayed have their modes and times. -/
abbrev Leaves (X : DirId → Prop) (disk : Disk) (w : World) : Prop := disk.Dated X w.disk

/-- A call leaves what its change of the disk does. -/
theorem act_leaves {place : Place} {a : Act} {f : Disk → Disk}
    (hf : ∀ mid, disk.Dated X mid → disk.Dated X (f mid)) :
    Keeps (Leaves X disk) (act place a f) := fun w hw => hf w.disk hw

theorem stat_leaves (dir : Fd) (name : Name) : Keeps (Leaves X disk) (stat dir name) :=
  fun _ hw => hw

theorem names_leaves (dir : Fd) : Keeps (Leaves X disk) (names dir) := fun _ hw => hw

theorem openDir_leaves (dir : Fd) (name : Name) : Keeps (Leaves X disk) (openDir dir name) := by
  refine .get_bind fun w _ => ?_
  split
  · exact .throw _
  · exact .bind (act_leaves fun _ h => h) fun _ => .pure _
  · exact .throw _

theorem openFile_leaves (dir : Fd) (name : Name) : Keeps (Leaves X disk) (openFile dir name) := by
  refine .get_bind fun w _ => ?_
  split
  · exact .throw _
  · exact .bind (act_leaves fun _ h => h) fun _ => .pure _
  · exact .throw _
  · exact .pure _
  · exact .pure _

theorem statOpened_leaves (file : Opened) : Keeps (Leaves X disk) (statOpened file) := by
  refine .get_bind fun w _ => ?_
  split
  · exact .pure _
  · exact .pure _

theorem content_leaves (file : Opened) : Keeps (Leaves X disk) (content file) := by
  refine .get_bind fun w _ => ?_
  split
  · exact .throw _
  · split
    · exact .pure _
    · exact .pure _

theorem readLink_leaves (dir : Fd) (name : Name) : Keeps (Leaves X disk) (readLink dir name) := by
  refine .get_bind fun w _ => ?_
  split
  · exact .throw _
  · exact .pure _
  · exact .throw _

theorem create_leaves (dir : Fd) (name : Name) (truncate : Bool) :
    Keeps (Leaves X disk) (create dir name truncate) := by
  refine .get_bind fun w _ => ?_
  split
  · refine .bind (.onlyIf fun _ => .throw _) fun _ => ?_
    exact .bind (act_leaves fun _ h => Disk.put_dated h rfl) fun _ => .pure _
  · refine .bind (.onlyIf fun _ => ?_) fun _ => .pure _
    exact act_leaves fun _ h => Disk.put_dated h rfl
  · exact .throw _
  · exact .throw _

theorem edit_leaves (file : Opened) (f : Bytes → Bytes) : Keeps (Leaves X disk) (edit file f) := by
  refine .get_bind fun w _ => ?_
  split
  · exact .throw _
  · split
    · exact act_leaves fun _ h => Disk.put_dated h rfl
    · exact .throw _

theorem makeDir_leaves (dir : Fd) (name : Name) : Keeps (Leaves X disk) (makeDir dir name) := by
  refine .get_bind fun w _ => .bind (.onlyIf fun _ => .throw _) fun _ => ?_
  refine .bind (.onlyIf fun _ => .throw _) fun _ => ?_
  exact act_leaves fun _ h => Disk.makeDir_dated h

theorem symlinkAt_leaves (target : Bytes) (dir : Fd) (name : Name) :
    Keeps (Leaves X disk) (symlinkAt target dir name) := by
  refine .get_bind fun w _ => .bind (.onlyIf fun _ => .throw _) fun _ => ?_
  refine .bind (.onlyIf fun _ => .throw _) fun _ => ?_
  exact act_leaves fun _ h => Disk.put_dated h rfl

/-- What is renamed is no directory. -/
theorem rename_leaves (dir : Fd) (old new : Name) : Keeps (Leaves X disk) (rename dir old new) := by
  refine .get_bind fun w _ => ?_
  split
  · exact .throw _
  · exact .throw _
  · exact .throw _
  · next hno _ _ =>
    refine act_leaves fun _ h => Disk.put_dated (Disk.erase_dated h) ?_
    rw [Option.eq_none_iff_forall_ne_some]
    exact fun id hsub => hno id (Entry.sub_eq_some.mp hsub)

theorem unlink_leaves (dir : Fd) (name : Name) : Keeps (Leaves X disk) (unlink dir name) := by
  refine .get_bind fun w _ => ?_
  split
  · exact .throw _
  · exact .throw _
  · exact act_leaves fun _ h => Disk.erase_dated h

/-- A file gets a mode, or a directory of `X`. -/
theorem chmod_leaves {file : Opened} (mode : ℕ) (hfile : ∀ fd, file = .dir fd → X fd.id) :
    Keeps (Leaves X disk) (chmod file mode) := by
  refine act_leaves fun mid h => ?_
  split
  · next fd => exact Disk.alter_dated h (fun _ => rfl) (hfile fd rfl)
  · split
    · exact Disk.put_dated h rfl
    · exact h

/-- A file gets a time, or a directory of `X`. -/
theorem setMtime_leaves {file : Opened} (time : Time) (hfile : ∀ fd, file = .dir fd → X fd.id) :
    Keeps (Leaves X disk) (setMtime file time) := by
  refine act_leaves fun mid h => ?_
  split
  · next fd => exact Disk.alter_dated h (fun _ => rfl) (hfile fd rfl)
  · split
    · exact Disk.put_dated h rfl
    · exact h

/-! ### What is removed -/

/-- An entry that is no directory is removed. -/
theorem removeOne_leaves (dir : Fd) (name : Name) :
    Keeps (Leaves X disk) (removeWith false none dir name) := by
  refine .bind (stat_leaves dir name) fun there => ?_
  split
  · exact .pure _
  · exact .throw _
  · next h => cases h
  · exact .bind (.onlyIf fun _ => unlink_leaves dir name) fun _ => .pure _

theorem removeAll_leaves {inner : Fd → Name → Fs ℕ} {E : (DirId → Prop) → World → Prop}
    (hinner : ∀ X sub entry w, Leaves X disk w → wp (inner sub entry) (fun _ => Leaves X disk)
      (fun _ => E X) w) (sub : Fd) (entries : List Name) {w : World} (hw : Leaves X disk w) :
    wp (removeAll inner sub entries) (fun _ => Leaves X disk) (fun _ => E X) w := by
  unfold removeAll
  generalize 0 = removed
  induction entries generalizing removed w with
  | nil => exact hw
  | cons entry entries ih =>
    rw [List.foldlM_cons, wp_bind, wp_map]
    exact wp_mono (hinner X sub entry w hw) (fun n w' h => ih h _) fun _ _ h => h

/-- A directory removed is where it was no longer. -/
theorem removeDir_leaves {sub : Fd} {dir : Fd} {name : Name} {w : World}
    (hw : Leaves (fun id => X id ∨ id = sub.id) disk w)
    (hsub : sub.id < disk.next → disk.entry dir.id name = some (.dir sub.id)) :
    wp (removeDir dir name) (fun _ => Leaves X disk)
      (fun _ => Leaves (fun id => X id ∨ id = sub.id) disk) w := by
  rw [removeDir, wp_bind, wp_get]
  split
  · exact hw
  · rw [wp_bind, wp_onlyIf]
    refine ⟨fun _ => hw, fun _ => ?_⟩
    refine (Disk.removeDir_dated hw).erased hsub ?_
    rw [Disk.removeDir_entry, setAt_self]
    simp
  · exact hw

/-- A directory removed, its entries as `inner` does it, is none of those that stay; if that fails,
it may have stayed with another mode. -/
theorem removeWith_leaves {inner : Fd → Name → Fs ℕ} {E : (DirId → Prop) → World → Prop}
    (hinner : ∀ X sub entry w, Leaves X disk w → wp (inner sub entry) (fun _ => Leaves X disk)
      (fun _ => E X) w)
    (hE : ∀ X w, Leaves X disk w → E X w) (dir : Fd) (name : Name) {w : World}
    (hw : Leaves X disk w) :
    wp (removeWith false (some inner) dir name) (fun _ => Leaves X disk)
      (fun _ => E fun id => X id ∨ w.disk.entry dir.id name = some (.dir id)) w := by
  have hmore : Leaves (fun id => X id ∨ w.disk.entry dir.id name = some (.dir id)) disk w :=
    hw.mono fun _ => .inl
  rw [removeWith, wp_bind, wp_stat]
  split
  · exact hw
  · next h => cases h
  · next remove _ hsome =>
    cases hsome
    rw [wp_bind]
    refine wp_mono (wp_and (openDir_leaves dir name w hmore) (openDir_gives (w := w) dir name)) ?_
      fun _ t ht => hE _ _ ht.1
    rintro sub w₁ ⟨h₁, -, hentry⟩
    -- What may change is the mode of this directory.
    have honly : (fun id => X id ∨ w.disk.entry dir.id name = some (.dir id)) =
        fun id => X id ∨ id = sub.id := by
      funext id
      simp [hentry, eq_comm]
    rw [honly] at h₁ ⊢
    have hsub : sub.id < disk.next → disk.entry dir.id name = some (.dir sub.id) :=
      fun hlt => hw.old hlt hentry
    rw [wp_bind, wp_onlyIf]
    refine ⟨fun _ => ?_, fun h => absurd rfl h⟩
    refine wp_mono (chmod_leaves 0o700 (fun fd heq => ?_) w₁ h₁) (fun _ w₂ h₂ => ?_)
      fun _ t ht => hE _ _ ht
    · cases heq
      exact .inr rfl
    · rw [wp_bind, wp_names, wp_bind]
      refine wp_mono (removeAll_leaves hinner sub _ h₂) (fun _ w₃ h₃ => ?_) fun _ _ h => h
      rw [wp_bind, wp_onlyIf]
      refine ⟨fun _ => ?_, fun h => absurd rfl h⟩
      exact wp_mono (removeDir_leaves h₃ hsub) (fun _ _ h => h) fun _ _ h => hE _ _ h
  · rw [wp_bind, wp_onlyIf]
    refine ⟨fun _ => ?_, fun h => absurd rfl h⟩
    exact wp_mono (unlink_leaves dir name w hw) (fun _ _ h => h)
      fun _ _ h => hE _ _ (h.mono fun _ => .inl)

/-- An entry removed, with all it holds, leaves the directories that stay as they were. -/
theorem remove_leaves (dry : Bool) (more : ℕ) (dir : Fd) (name : Name) :
    Stays (Leaves X disk) (fun _ => True) (remove dry more dir name) := by
  intro w hw
  cases dry with
  | true =>
    refine wp_mono (remove_untouched more dir name w (.refl w)) (fun _ w' h => ?_) fun _ _ _ => trivial
    show disk.Dated X w'.disk
    rw [h.disk]
    exact hw
  | false =>
    induction more generalizing X dir name w with
    | zero => exact wp_mono (removeOne_leaves dir name w hw) (fun _ _ h => h) fun _ _ _ => trivial
    | succ more ih =>
      exact removeWith_leaves (E := fun _ _ => True) (fun X sub entry w hw => ih sub entry w hw)
        (fun _ _ _ => trivial) dir name hw

namespace Receiver

theorem statIn_leaves (dir : Dir) (name : Name) : Keeps (Leaves X disk) (statIn dir name) := by
  unfold statIn
  split
  · exact .pure _
  · exact stat_leaves _ name

theorem hashIn_leaves (digest : Digest) (dir : Fd) (name : Name) (len : Option ℕ) :
    Keeps (Leaves X disk) (hashIn digest dir name len) := by
  refine .bind (openFile_leaves dir name) fun file => ?_
  exact .bind (content_leaves file) fun _ => .pure _

theorem linked_leaves (dir : Dir) (name : Name) (link : LinkTarget) (there : Option Kind) :
    Keeps (Leaves X disk) (linked dir name link there) := by
  unfold linked
  split
  · exact .map (readLink_leaves _ name) _
  · exact .pure _

/-- What was in the way of a symlink's part is gone, or the symlink fails. -/
theorem replaceLink_leaves (digest : Digest) (fd : Fd) (name : Name) (link : LinkTarget) :
    Stays (Leaves X disk) (fun _ => True) (replaceLink digest fd name link) := by
  intro w hw
  have hone := removeWith_leaves (E := fun X w => Leaves X disk w)
    (fun X sub entry w hw => removeOne_leaves sub entry w hw) (fun _ _ h => h) fd
    (partName digest name) hw
  have hignore : Gives (ignore (remove false 1 fd (partName digest name)))
      (fun _ => Leaves (fun id => X id ∨
        w.disk.entry fd.id (partName digest name) = some (.dir id)) disk) w :=
    wp_ignore (wp_mono hone (fun _ _ h => h.mono fun _ => .inl) fun _ _ h => h)
  refine Gives.bind hignore fun _ w₁ h₁ => ?_
  refine Gives.bind (wp_mono (wp_and (symlinkAt_leaves link.bytes fd (partName digest name) w₁ h₁)
    (symlinkAt_gives fd _ link.bytes)) (fun _ _ h => h) fun _ _ _ => trivial) ?_
  rintro _ w₂ ⟨h₂, hnone, hsets⟩
  refine wp_mono (rename_leaves fd _ name w₂ ?_) (fun _ _ h => h) fun _ _ _ => trivial
  cases hthere : w.disk.entry fd.id (partName digest name) with
  | none => exact h₂.mono fun id h => h.resolve_right (by simp [hthere])
  | some e =>
    cases e with
    | dir sub =>
      refine Disk.Dated.erased (h₂.mono fun id h => ?_) (fun hlt => hw.old hlt hthere) ?_
      · simpa [hthere, eq_comm] using h
      · rw [hsets.entry, setAt_self]
        simp
    | _ => exact h₂.mono fun id h => h.resolve_right (by simp [hthere])

end Receiver

end

end Koh.Sync
