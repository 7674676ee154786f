import Koh.Lib.Names
import Koh.Sync.Receive
import Mathlib.Data.List.Nodup

/-!
# What each call does to the tree

The disk's entries, as directories of named entries: what each call that ends
well found, and what it left.

## Main definitions

- `Entry.sub`: the directory an entry is
- `Disk.Sound`: a disk that is a tree, from its top
- `Disk.Sets`, `Disk.Alike`, `Disk.Went`: what a call left
-/

namespace Koh.Sync

open Names

def Entry.sub : Entry → Option DirId
  | .dir id => some id
  | _ => none

@[simp] theorem Entry.sub_eq_some {e : Entry} {id : DirId} : e.sub = some id ↔ e = .dir id := by
  cases e <;> simp [Entry.sub]

/-- `x`, if it ends well, gives a value and a state of `Q`. -/
abbrev Gives {ε σ α : Type} (x : EStateM ε σ α) (Q : α → σ → Prop) (s : σ) : Prop :=
  wp x Q (fun _ _ => True) s

theorem Gives.bind {ε σ α β : Type} {x : EStateM ε σ α} {f : α → EStateM ε σ β}
    {Q : α → σ → Prop} {R : β → σ → Prop} {s : σ} (h : Gives x Q s)
    (hf : ∀ a t, Q a t → Gives (f a) R t) : Gives (x >>= f) R s := by
  rw [Gives, wp_bind]
  exact wp_mono h hf fun _ _ _ => trivial

theorem Gives.mono {ε σ α : Type} {x : EStateM ε σ α} {Q Q' : α → σ → Prop} {s : σ}
    (h : Gives x Q s) (hQ : ∀ a t, Q a t → Q' a t) : Gives x Q' s :=
  wp_mono h hQ fun _ _ _ => trivial

/-! ### Entries -/

namespace Disk

variable (disk : Disk) (d : DirId) (n : Name)

theorem lookup_filter_ne {l : List (Name × Entry)} {m : Name} :
    (l.filter (·.1 ≠ n)).lookup m = if m = n then none else l.lookup m := by
  induction l with
  | nil => simp
  | cons a l ih =>
    obtain ⟨k, e⟩ := a
    by_cases hk : k = n
    · subst hk
      simp only [ne_eq, not_true_eq_false, decide_false, Bool.false_eq_true, not_false_eq_true,
        List.filter_cons_of_neg]
      rw [ih]
      by_cases hm : m = k
      · simp [hm]
      · simp [hm, List.lookup_cons, beq_eq_false_iff_ne.mpr hm]
    · simp only [ne_eq, hk, not_false_eq_true, decide_true, List.filter_cons_of_pos,
        List.lookup_cons]
      rw [ih]
      by_cases hm : m = k
      · simp [hm, hk]
      · simp [beq_eq_false_iff_ne.mpr hm]

/-- Modes and times are no entries. -/
theorem alter_entry {f : Directory → Directory} (hf : ∀ dir, (f dir).entries = dir.entries) :
    (disk.alter d f).entry = disk.entry := by
  funext d' m
  simp only [entry, alter, Function.update_apply]
  split
  · next h => rw [hf, h]
  · rfl

/-- An entry is taken away. -/
@[simp] theorem erase_entry : (disk.erase d n).entry = setAt disk.entry d n none := by
  funext d' m
  simp only [entry, erase, alter, Function.update_apply, setAt]
  by_cases h : d' = d
  · subst h
    simp only [if_true, lookup_filter_ne, true_and]
  · simp [h]

/-- An entry is put. -/
@[simp] theorem put_entry (e : Entry) : (disk.put d n e).entry = setAt disk.entry d n (some e) := by
  funext d' m
  simp only [entry, put, alter, Function.update_apply, setAt]
  by_cases h : d' = d
  · subst h
    simp only [if_true, true_and, List.lookup_cons, lookup_filter_ne]
    by_cases hm : m = n
    · simp [hm]
    · simp [hm, beq_eq_false_iff_ne.mpr hm]
  · simp [h]

@[simp] theorem erase_next : (disk.erase d n).next = disk.next := rfl

@[simp] theorem put_next (e : Entry) : (disk.put d n e).next = disk.next := rfl

@[simp] theorem alter_next (f : Directory → Directory) : (disk.alter d f).next = disk.next := rfl

@[simp] theorem makeDir_next : (disk.makeDir d n).next = disk.next + 1 := rfl

/-- A directory is made, with nothing in it. -/
theorem makeDir_entry (hfresh : ∀ m, disk.entry disk.next m = none) :
    (disk.makeDir d n).entry = setAt disk.entry d n (some (.dir disk.next)) := by
  rw [makeDir, put_entry]
  refine congrArg (fun f => setAt f d n (some (Entry.dir disk.next))) ?_
  funext d' m
  simp only [entry, Function.update_apply]
  split
  · next h => exact h ▸ (hfresh m).symm
  · rfl

@[simp] theorem removeDir_entry (id : DirId) :
    (disk.removeDir d n id).entry = setAt disk.entry d n none := by
  rw [removeDir, alter_entry]
  · exact erase_entry disk d n
  · exact fun _ => rfl

/-! ### A tree -/

/-- A disk whose directories are a tree from `top`; those not made yet are empty. -/
structure Sound (disk : Disk) (top : DirId) : Prop where
  once : Once Entry.sub disk.entry top
  made : ∀ {d n id}, disk.entry d n = some (.dir id) → id < disk.next
  fresh : ∀ {d n}, disk.next ≤ d → disk.entry d n = none
  top : top < disk.next

/-- `disk'` is `disk` with `v` as entry `n` of `d`. -/
structure Sets (disk disk' : Disk) (d : DirId) (n : Name) (v : Option Entry) : Prop where
  entry : disk'.entry = setAt disk.entry d n v
  next : disk'.next = disk.next

/-- `disk'` has the entries of `disk`. -/
structure Alike (disk disk' : Disk) : Prop where
  entry : disk'.entry = disk.entry
  next : disk'.next = disk.next

/-- `disk'` is `disk` but for some of what was at or below entry `n` of `d`, gone. -/
structure Went (disk disk' : Disk) (d : DirId) (n : Name) : Prop where
  entry : Removed Entry.sub d n disk.entry disk'.entry
  next : disk'.next = disk.next

variable {disk d n} {disk' disk'' : Disk} {top : DirId}

theorem Alike.refl : Alike disk disk := ⟨rfl, rfl⟩

theorem Alike.trans (h : Alike disk disk') (h' : Alike disk' disk'') : Alike disk disk'' :=
  ⟨h'.entry.trans h.entry, h'.next.trans h.next⟩

theorem Alike.sets {v : Option Entry} (h : Alike disk disk') (h' : Sets disk' disk'' d n v) :
    Sets disk disk'' d n v :=
  ⟨by rw [h'.entry, h.entry], h'.next.trans h.next⟩

theorem Sets.alike {v : Option Entry} (h : Sets disk disk' d n v) (h' : Alike disk' disk'') :
    Sets disk disk'' d n v :=
  ⟨h'.entry.trans h.entry, h'.next.trans h.next⟩

/-- An entry is set twice. -/
theorem Sets.again {v v' : Option Entry} (h : Sets disk disk' d n v) (h' : Sets disk' disk'' d n v') :
    Sets disk disk'' d n v' :=
  ⟨by rw [h'.entry, h.entry, setAt_setAt], h'.next.trans h.next⟩

theorem Alike.went (h : Alike disk disk') : Went disk disk' d n :=
  ⟨fun d' m => .inl (by rw [h.entry]), h.next⟩

/-- An entry is gone in two steps. -/
theorem Went.trans (h : Went disk disk' d n) (h' : Went disk' disk'' d n) : Went disk disk'' d n :=
  ⟨h.entry.trans h'.entry, h'.next.trans h.next⟩

theorem Sets.went (h : Sets disk disk' d n none) : Went disk disk' d n := by
  refine ⟨fun d' m => ?_, h.next⟩
  rw [h.entry]
  by_cases hm : d' = d ∧ m = n
  · obtain ⟨rfl, rfl⟩ := hm
    exact .inr ⟨.here _ _, setAt_self none⟩
  · exact .inl (setAt_ne none hm)

/-- What went of a directory's entry went of the directory. -/
theorem Went.inside {id : DirId} {m : Name} (h : Went disk disk' d n)
    (hid : disk.entry d n = some (.dir id)) (h' : Went disk' disk'' id m) : Went disk disk'' d n := by
  refine ⟨fun d' k => ?_, h'.next.trans h.next⟩
  rcases h'.entry d' k with hsame | ⟨hunder, hnone⟩
  · rw [hsame]
    exact h.entry d' k
  · exact .inr ⟨.inside hid rfl (hunder.mono h.entry.shrunk), hnone⟩

/-! ### A tree stays one -/

/-- With entries gone a tree is sound. -/
theorem Sound.shrunk (h : Sound disk top) (hnext : disk'.next = disk.next)
    (hentry : ∀ d n, disk'.entry d n = disk.entry d n ∨ disk'.entry d n = none) :
    Sound disk' top := by
  have hold : ∀ {d n e}, disk'.entry d n = some e → disk.entry d n = some e := by
    intro d n e he
    rcases hentry d n with hsame | hnone
    · rw [← hsame, he]
    · rw [hnone] at he
      cases he
  refine ⟨h.once.mono fun he _ => hold he, fun he => hnext ▸ h.made (hold he), fun hle => ?_,
    hnext ▸ h.top⟩
  rcases hentry _ _ with hsame | hnone
  · rw [hsame]
    exact h.fresh (hnext ▸ hle)
  · exact hnone

/-- So it is after a removal. -/
theorem Sound.went (h : Sound disk top) (hwent : Went disk disk' d n) : Sound disk' top :=
  h.shrunk hwent.next hwent.entry.shrunk

theorem Sound.alike (h : Sound disk top) (halike : Alike disk disk') : Sound disk' top :=
  h.shrunk halike.next fun _ _ => .inl (by rw [halike.entry])

/-- An entry that is no directory is put, or taken away. -/
theorem Sound.sets {v : Option Entry} (h : Sound disk top) (hsets : Sets disk disk' d n v)
    (hd : d < disk.next) (hv : ∀ e, v = some e → e.sub = none) : Sound disk' top := by
  have hold : ∀ {d' m e id}, disk'.entry d' m = some e → e.sub = some id →
      disk.entry d' m = some e := by
    intro d' m e id he hid
    rw [hsets.entry] at he
    by_cases hm : d' = d ∧ m = n
    · obtain ⟨rfl, rfl⟩ := hm
      rw [setAt_self] at he
      rw [hv e he] at hid
      cases hid
    · rwa [setAt_ne _ hm] at he
  refine ⟨h.once.mono hold, fun he => hsets.next ▸ h.made (hold he rfl), fun {d' m} hle => ?_,
    hsets.next ▸ h.top⟩
  rw [hsets.next] at hle
  rw [hsets.entry, setAt_ne]
  · exact h.fresh hle
  · rintro ⟨rfl, -⟩
    exact absurd hd (not_lt.mpr hle)

/-- Directory `name` of `d`, which is `id`, was there, or is made, nothing in it. -/
inductive Entered (disk disk' : Disk) (d : DirId) (n : Name) (id : DirId) : Prop where
  | there : disk.entry d n = some (.dir id) → Alike disk disk' → Entered disk disk' d n id
  | made : (∀ id, disk.entry d n ≠ some (.dir id)) → id = disk.next →
      disk'.entry = setAt disk.entry d n (some (.dir id)) → disk'.next = disk.next + 1 →
      Entered disk disk' d n id

/-- A directory that is entered is there. -/
theorem Entered.entry {id : DirId} (h : Entered disk disk' d n id) :
    disk'.entry d n = some (.dir id) := by
  cases h with
  | there hold halike => rw [halike.entry, hold]
  | made _ _ hentry => rw [hentry, setAt_self]

theorem Entered.next_le {id : DirId} (h : Entered disk disk' d n id) : disk.next ≤ disk'.next := by
  cases h with
  | there _ halike => exact halike.next.ge
  | made _ _ _ hnext => exact hnext ▸ Nat.le_succ _

/-- No other entry changes. -/
theorem Entered.other {id d' : DirId} {m : Name} (h : Entered disk disk' d n id)
    (hne : ¬ (d' = d ∧ m = n)) : disk'.entry d' m = disk.entry d' m := by
  cases h with
  | there _ halike => rw [halike.entry]
  | made _ _ hentry => rw [hentry, setAt_ne _ hne]

/-- And the tree sound. -/
theorem Sound.entered {id : DirId} (h : Sound disk top) (hd : d < disk.next)
    (henter : Entered disk disk' d n id) : Sound disk' top := by
  cases henter with
  | there _ halike => exact h.alike halike
  | made _ hid hentry hnext =>
    have hcases : ∀ {d' m e}, disk'.entry d' m = some e →
        d' = d ∧ m = n ∧ e = .dir id ∨ disk.entry d' m = some e := by
      intro d' m e he
      rw [hentry] at he
      by_cases hm : d' = d ∧ m = n
      · obtain ⟨rfl, rfl⟩ := hm
        rw [setAt_self] at he
        exact .inl ⟨rfl, rfl, (Option.some_inj.mp he).symm⟩
      · exact .inr (by rwa [setAt_ne _ hm] at he)
    have hnew : ∀ {d' m}, disk.entry d' m ≠ some (.dir id) := fun he =>
      absurd (h.made he) (by rw [hid]; exact lt_irrefl _)
    refine ⟨⟨fun {d₁ d₂ n₁ n₂ e₁ e₂ id'} he he' hs hs' => ?_, fun {p} hp => ?_⟩,
      fun {d' m id'} he => ?_, fun {d' m} hle => ?_, ?_⟩
    · rw [Entry.sub_eq_some] at hs hs'
      subst hs hs'
      rcases hcases he with ⟨hd₁, hn₁, heq⟩ | hold
      · rcases hcases he' with ⟨hd₂, hn₂, -⟩ | hold'
        · exact ⟨hd₁.trans hd₂.symm, hn₁.trans hn₂.symm⟩
        · cases heq
          exact absurd hold' hnew
      · rcases hcases he' with ⟨-, -, heq⟩ | hold'
        · cases heq
          exact absurd hold hnew
        · exact h.once.one hold hold' rfl rfl
    · have hnone : ∀ m, disk'.entry id m = none := fun m => by
        rw [hentry, setAt_ne]
        · exact h.fresh hid.ge
        · rintro ⟨rfl, -⟩
          exact hid.not_lt hd
      have hold : ∀ {d' m e id'}, disk'.entry d' m = some e → e.sub = some id' →
          id' = id ∨ disk.entry d' m = some e := by
        intro d' m e id' he hs
        rcases hcases he with ⟨-, -, rfl⟩ | hold
        · exact .inl (Option.some_inj.mp hs).symm
        · exact .inr hold
      rcases reach_grown hnone hold hp with htop | hreach
      · exact absurd h.top (not_lt.mpr (htop.trans hid).ge)
      · exact h.once.top hreach
    · rw [hnext]
      rcases hcases he with ⟨-, -, heq⟩ | hold
      · cases heq
        exact hid ▸ Nat.lt_succ_self _
      · exact Nat.lt_succ_of_lt (h.made hold)
    · rw [hnext] at hle
      rw [hentry, setAt_ne]
      · exact h.fresh (Nat.le_of_succ_le hle)
      · rintro ⟨rfl, -⟩
        exact absurd (Nat.lt_succ_of_lt hd) (not_lt.mpr hle)
    · rw [hnext]
      exact Nat.lt_succ_of_lt h.top

/-- What is reached is of the tree. -/
theorem Sound.reach_lt (h : Sound disk top) {p : Path} {id : DirId}
    (hp : reach Entry.sub disk.entry top p = some id) : id < disk.next := by
  rcases List.eq_nil_or_concat p with rfl | ⟨p, n, rfl⟩
  · cases hp
    exact h.top
  · rw [List.concat_eq_append] at hp
    obtain ⟨d, e, -, he, hsub⟩ := reach_snoc_some.mp hp
    rw [Entry.sub_eq_some] at hsub
    exact h.made (hsub ▸ he)

end Disk

/-! ### The calls -/

section

variable {w : World} (dir : Fd) (name : Name)

/-- A directory that is opened is there. -/
theorem openDir_gives : Gives (openDir dir name) (fun fd w' => w'.disk = w.disk ∧
    w.disk.entry dir.id name = some (.dir fd.id)) w := by
  simp only [Gives, openDir, wp_bind, wp_get]
  split
  · trivial
  · next sub hentry => exact ⟨rfl, hentry⟩
  · trivial

/-- So is a file. -/
theorem openFile_gives : Gives (openFile dir name) (fun file w' => w'.disk = w.disk ∧
    (w.disk.entry dir.id name).isSome ∧
    ((∃ fd, file = .dir fd ∧ w.disk.entry dir.id name = some (.dir fd.id)) ∨
      file = .file dir.id name)) w := by
  simp only [Gives, openFile, wp_bind, wp_get]
  split
  · trivial
  · next sub hentry =>
    simp only [wp_bind, wp_act, wp_pure]
    exact ⟨rfl, by simp [hentry], .inl ⟨_, rfl, hentry⟩⟩
  · trivial
  · next hentry => exact ⟨rfl, by simp [hentry], .inr rfl⟩
  · next hentry => exact ⟨rfl, by simp [hentry], .inr rfl⟩

/-- A file's content is its bytes. -/
theorem content_gives (file : Opened) : Gives (content file) (fun bytes w' => w' = w ∧
    ∀ d n b mode mtime, file = .file d n → w.disk.entry d n = some (.file b mode mtime) →
      bytes = b) w := by
  simp only [Gives, content, wp_bind, wp_get]
  cases file with
  | dir fd => trivial
  | file d n =>
    dsimp only
    split
    · next b mode mtime hentry =>
      refine ⟨rfl, fun d' n' b' mode' mtime' hfile hentry' => ?_⟩
      cases hfile
      rw [hentry] at hentry'
      cases hentry'
      rfl
    · next hno =>
      refine ⟨rfl, fun d' n' b' mode' mtime' hfile hentry' => ?_⟩
      cases hfile
      exact absurd hentry' (hno b' mode' mtime')

theorem statOpened_gives (file : Opened) :
    Gives (statOpened file) (fun _ w' => w' = w) w := by
  simp only [Gives, statOpened, wp_bind, wp_get]
  cases file <;> rfl

theorem readLink_gives : Gives (readLink dir name) (fun target w' => w' = w ∧
    w.disk.entry dir.id name = some (.link target)) w := by
  simp only [Gives, readLink, wp_bind, wp_get]
  split
  · trivial
  · next target hentry => exact ⟨rfl, hentry⟩
  · trivial

/-- The bytes a file made or opened to write has. -/
def createdFrom (truncate : Bool) : Option Entry → Option Bytes
  | none => some []
  | some (.file bytes _ _) => some (if truncate then [] else bytes)
  | _ => none

/-- A file that is created is there, empty or as it was. -/
theorem create_gives (truncate : Bool) : Gives (create dir name truncate) (fun file w' =>
    file = .file dir.id name ∧ ∃ bytes mode mtime,
      createdFrom truncate (w.disk.entry dir.id name) = some bytes ∧
      w.disk.Sets w'.disk dir.id name (some (.file bytes mode mtime))) w := by
  simp only [Gives, create, wp_bind, wp_get]
  split
  · next hentry =>
    simp only [wp_bind, wp_onlyIf, wp_throw, wp_act, wp_pure, implies_true, true_and, hentry]
    exact fun _ => ⟨[], 0o600, none, rfl, by simp, rfl⟩
  · next bytes mode mtime hentry =>
    simp only [wp_bind, wp_onlyIf, wp_act, wp_pure, true_and, hentry, createdFrom]
    refine ⟨fun ht => ?_, fun ht => ?_⟩
    · exact ⟨_, mode, mtime, rfl, by simp [ht], rfl⟩
    · refine ⟨_, mode, mtime, rfl, ?_, rfl⟩
      rw [if_neg ht, ← hentry]
      funext d m
      simp only [setAt]
      split
      · next h => rw [h.1, h.2]
      · rfl
  · trivial
  · trivial

/-- A file's bytes are changed. -/
theorem edit_gives (d : DirId) (n : Name) (f : Bytes → Bytes) :
    Gives (edit (.file d n) f) (fun _ w' => ∃ bytes mode mtime,
      w.disk.entry d n = some (.file bytes mode mtime) ∧
      w.disk.Sets w'.disk d n (some (.file (f bytes) mode none))) w := by
  simp only [Gives, edit, wp_bind, wp_get]
  split
  · next bytes mode mtime hentry =>
    exact ⟨bytes, mode, mtime, hentry, by simp, rfl⟩
  · trivial

/-- A directory is made where nothing was. -/
theorem makeDir_gives : Gives (makeDir dir name) (fun _ w' =>
    w.disk.entry dir.id name = none ∧ w'.disk = w.disk.makeDir dir.id name) w := by
  simp only [Gives, makeDir, wp_bind, wp_get, wp_onlyIf, wp_throw, wp_act, implies_true, true_and]
  intro hnone _
  exact ⟨by simpa using hnone, trivial⟩

def NoDir (e : Option Entry) : Prop := ∀ id, e ≠ some (.dir id)

theorem NoDir.sub {o : Option Entry} (h : NoDir o) : ∀ e, o = some e → e.sub = none := by
  rintro e rfl
  cases e <;> first | rfl | exact absurd rfl (h _)

/-- A file takes another's place. -/
theorem rename_gives (old new : Name) : Gives (rename dir old new) (fun _ w' => ∃ e,
    w.disk.entry dir.id old = some e ∧ NoDir (some e) ∧ NoDir (w.disk.entry dir.id new) ∧
    w'.disk.entry = setAt (setAt w.disk.entry dir.id old none) dir.id new (some e) ∧
    w'.disk.next = w.disk.next) w := by
  simp only [Gives, rename, wp_bind, wp_get]
  split
  · trivial
  · trivial
  · trivial
  · next e hno hold hnew =>
    refine ⟨e, hold, fun id hid => ?_, fun id hid => ?_, by simp, rfl⟩
    · exact hno id (Option.some_inj.mp hid)
    · exact hnew id hid

/-- A link is made where nothing was. -/
theorem symlinkAt_gives (target : Bytes) : Gives (symlinkAt target dir name) (fun _ w' =>
    w.disk.entry dir.id name = none ∧
    w.disk.Sets w'.disk dir.id name (some (.link target))) w := by
  simp only [Gives, symlinkAt, wp_bind, wp_get, wp_onlyIf, wp_throw, wp_act, implies_true, true_and]
  intro hnone _
  exact ⟨by simpa using hnone, by simp, rfl⟩

/-- A file's bytes, or another entry as it is, whatever its mode and time. -/
def SameBytes (e e' : Option Entry) : Prop :=
  e' = e ∨ ∃ bytes mode mtime mode' mtime', e = some (.file bytes mode mtime) ∧
    e' = some (.file bytes mode' mtime')

theorem SameBytes.refl (e : Option Entry) : SameBytes e e := .inl rfl

/-- The same bytes twice. -/
theorem SameBytes.trans {e e' e'' : Option Entry} (h : SameBytes e e') (h' : SameBytes e' e'') :
    SameBytes e e'' := by
  rcases h' with rfl | ⟨bytes, mode, mtime, mode', mtime', he', he''⟩
  · exact h
  · subst he''
    rcases h with rfl | ⟨bytes₀, mode₀, mtime₀, mode₁, mtime₁, he, hmid⟩
    · exact .inr ⟨bytes, mode, mtime, mode', mtime', he', rfl⟩
    · subst hmid
      cases he'
      exact .inr ⟨bytes, mode₀, mtime₀, mode', mtime', he, rfl⟩

/-- A mode or a time was set: no entry but the file's own changed, and not its bytes. -/
structure Disk.Touched (disk disk' : Disk) (file : Opened) : Prop where
  entry : ∀ d n, disk'.entry d n = disk.entry d n ∨
    file = .file d n ∧ SameBytes (disk.entry d n) (disk'.entry d n)
  next : disk'.next = disk.next

/-- A touch leaves the bytes. -/
theorem Disk.Touched.same {disk disk' : Disk} {file : Opened} (h : disk.Touched disk' file)
    (d : DirId) (n : Name) : SameBytes (disk.entry d n) (disk'.entry d n) := by
  rcases h.entry d n with heq | ⟨-, hsame⟩
  · exact .inl heq
  · exact hsame

theorem Disk.Touched.refl {disk : Disk} {file : Opened} : disk.Touched disk file :=
  ⟨fun _ _ => .inl rfl, rfl⟩

theorem Disk.Touched.trans {disk disk' disk'' : Disk} {file : Opened} (h : disk.Touched disk' file)
    (h' : disk'.Touched disk'' file) : disk.Touched disk'' file := by
  refine ⟨fun d n => ?_, h'.next.trans h.next⟩
  rcases h'.entry d n with heq | ⟨hfile, hsame⟩
  · rw [heq]
    exact h.entry d n
  · exact .inr ⟨hfile, (h.same d n).trans hsame⟩

/-- What a mode or a time is set to, in the entry it is set in. -/
theorem put_touched {disk : Disk} {d : DirId} {n : Name} {bytes : Bytes} {mode mode' : ℕ}
    {mtime mtime' : Option Time} (h : disk.entry d n = some (.file bytes mode mtime)) :
    disk.Touched (disk.put d n (.file bytes mode' mtime')) (.file d n) := by
  refine ⟨fun d' m => ?_, rfl⟩
  rw [Disk.put_entry]
  by_cases hm : d' = d ∧ m = n
  · obtain ⟨rfl, rfl⟩ := hm
    exact .inr ⟨rfl, .inr ⟨bytes, mode, mtime, mode', mtime', h, setAt_self _⟩⟩
  · exact .inl (setAt_ne _ hm)

/-- A change of a directory's mode or time is a touch. -/
theorem alter_touched (disk : Disk) (d : DirId) {file : Opened} {f : Directory → Directory}
    (hf : ∀ dir, (f dir).entries = dir.entries) : disk.Touched (disk.alter d f) file :=
  ⟨fun d' n => .inl (by rw [disk.alter_entry d hf]), rfl⟩

theorem chmod_gives (file : Opened) (mode : ℕ) :
    wp (chmod file mode) (fun _ w' => w.disk.Touched w'.disk file) (fun _ _ => False) w := by
  simp only [chmod, wp_act]
  cases file with
  | dir fd => exact alter_touched w.disk fd.id fun _ => rfl
  | file d n =>
    dsimp only
    split
    · next bytes mode' mtime hentry => exact put_touched hentry
    · exact .refl

theorem setMtime_gives (file : Opened) (time : Time) :
    wp (setMtime file time) (fun _ w' => w.disk.Touched w'.disk file) (fun _ _ => False) w := by
  simp only [setMtime, wp_act]
  cases file with
  | dir fd => exact alter_touched w.disk fd.id fun _ => rfl
  | file d n =>
    dsimp only
    split
    · next bytes mode' mtime hentry => exact put_touched hentry
    · exact .refl

theorem Disk.Touched.alike {disk disk' : Disk} {fd : Fd} (h : disk.Touched disk' (.dir fd)) :
    disk.Alike disk' := by
  refine ⟨funext fun d => funext fun n => ?_, h.next⟩
  rcases h.entry d n with heq | ⟨hfile, -⟩
  · exact heq
  · cases hfile

end

/-! ### Removing -/

/-- What removing entry `n` of `d` may leave: nothing changes if it is only counted. -/
structure Disk.RemovedIn (disk disk' : Disk) (dry : Bool) (d : DirId) (n : Name) : Prop where
  went : disk.Went disk' d n
  dry : dry = true → disk.Alike disk'

theorem Disk.RemovedIn.refl {disk : Disk} {dry : Bool} {d : DirId} {n : Name} :
    disk.RemovedIn disk dry d n := ⟨Disk.Alike.refl.went, fun _ => .refl⟩

theorem Disk.RemovedIn.trans {disk disk' disk'' : Disk} {dry : Bool} {d : DirId} {n : Name}
    (h : disk.RemovedIn disk' dry d n) (h' : disk'.RemovedIn disk'' dry d n) :
    disk.RemovedIn disk'' dry d n :=
  ⟨h.went.trans h'.went, fun hdry => (h.dry hdry).trans (h'.dry hdry)⟩

/-- `x` removes at or below entry `n` of `d` alone, however it ends. -/
def Removes (dry : Bool) (d : DirId) (n : Name) {α : Type} (x : Fs α) (w : World) : Prop :=
  wp x (fun _ w' => w.disk.RemovedIn w'.disk dry d n) (fun _ w' => w.disk.RemovedIn w'.disk dry d n) w

/-- All entries of a directory go. -/
theorem removeAll_removes {remove : Fd → Name → Fs ℕ} {dry : Bool} {disk : Disk} {d : DirId}
    {n : Name} {sub : Fd} (hsub : disk.entry d n = some (.dir sub.id))
    (hremove : ∀ entry w, Removes dry sub.id entry (remove sub entry) w) (entries : List Name) :
    Keeps (fun w' => disk.RemovedIn w'.disk dry d n) (removeAll remove sub entries) := by
  refine Keeps.foldlM (fun removed entry w hw => ?_) entries 0
  rw [wp_map]
  have hthen : ∀ w' : World, w.disk.RemovedIn w'.disk dry sub.id entry → disk.RemovedIn w'.disk dry d n :=
    fun w' h => ⟨hw.went.inside hsub h.went, fun hdry => (hw.dry hdry).trans (h.dry hdry)⟩
  exact wp_mono (hremove entry w) (fun _ w' h => hthen w' h) fun _ w' h => hthen w' h

/-- An entry that is unlinked is gone. -/
theorem unlink_removes (dir : Fd) (name : Name) (w : World) :
    wp (unlink dir name) (fun _ w' => w.disk.Sets w'.disk dir.id name none)
      (fun _ w' => w' = w) w := by
  simp only [unlink, wp_bind, wp_get]
  split
  · rfl
  · rfl
  · exact ⟨by simp, rfl⟩

/-- So is a directory that is removed. -/
theorem removeDir_removes (dir : Fd) (name : Name) (w : World) :
    wp (removeDir dir name) (fun _ w' => w.disk.Sets w'.disk dir.id name none)
      (fun _ w' => w' = w) w := by
  simp only [removeDir, wp_bind, wp_get]
  split
  · rfl
  · simp only [wp_bind, wp_onlyIf, wp_throw, wp_act, implies_true, true_and]
    exact fun _ => ⟨by simp, rfl⟩
  · rfl

theorem Disk.Sets.removedIn {disk disk' : Disk} {dry : Bool} {d : DirId} {n : Name}
    (h : disk.Sets disk' d n none) (hdry : dry = false) : disk.RemovedIn disk' dry d n :=
  ⟨h.went, fun h' => by rw [hdry] at h'; cases h'⟩

/-- And all in it. -/
theorem removeWith_removes (dry : Bool) {inner : Option (Fd → Name → Fs ℕ)} (dir : Fd) (name : Name)
    (w : World) (hinner : ∀ remove, inner = some remove → ∀ sub entry w,
      Removes dry sub.id entry (remove sub entry) w) :
    Removes dry dir.id name (removeWith dry inner dir name) w := by
  simp only [Removes, removeWith, wp_bind, wp_stat]
  split
  · exact .refl
  · exact .refl
  · next remove _ =>
    rw [wp_bind, openDir, wp_bind, wp_get]
    split
    · exact .refl
    · next id hid =>
      simp only [wp_bind, wp_act, wp_pure, wp_onlyIf]
      have hgo : ∀ w₁ : World, w.disk.Alike w₁.disk →
          wp (names ⟨id, .entry dir.id name⟩) (fun entries w₂ =>
            wp (removeAll remove ⟨id, .entry dir.id name⟩ entries) (fun removed w₃ =>
              (dry = false → wp (removeDir dir name)
                  (fun _ w₄ => w.disk.RemovedIn w₄.disk dry dir.id name)
                  (fun _ w₄ => w.disk.RemovedIn w₄.disk dry dir.id name) w₃) ∧
                (¬ dry = false → w.disk.RemovedIn w₃.disk dry dir.id name))
              (fun _ w₃ => w.disk.RemovedIn w₃.disk dry dir.id name) w₂)
            (fun _ w₂ => w.disk.RemovedIn w₂.disk dry dir.id name) w₁ := by
        intro w₁ hw₁
        rw [wp_names]
        have hsub : w.disk.entry dir.id name = some (.dir (Fd.mk id (.entry dir.id name)).id) := hid
        have hall := removeAll_removes hsub
          (fun entry w => hinner remove rfl _ entry w)
          ((w₁.disk.dirs id).entries.map (·.1)) w₁ ⟨hw₁.went, fun _ => hw₁⟩
        refine wp_mono hall (fun removed w₃ hw₃ => ⟨fun hdry => ?_, fun _ => hw₃⟩) fun _ _ h => h
        refine wp_mono (removeDir_removes dir name w₃) (fun _ w₄ hw₄ => ?_) fun _ w₄ hw₄ => ?_
        · exact hw₃.trans (hw₄.removedIn hdry)
        · exact hw₄ ▸ hw₃
      refine ⟨fun _ => ?_, fun _ => hgo _ .refl⟩
      refine wp_mono (chmod_gives (.dir ⟨id, .entry dir.id name⟩) 0o700)
        (fun _ w₁ hw₁ => hgo w₁ ?_) fun _ _ h => h.elim
      exact hw₁.alike
    · exact .refl
  · simp only [wp_bind, wp_onlyIf, wp_pure]
    refine ⟨fun hdry => ?_, fun _ => .refl⟩
    refine wp_mono (unlink_removes dir name w) (fun _ w' hw' => hw'.removedIn hdry) fun _ w' hw' => ?_
    exact hw' ▸ .refl

/-- An entry is removed with all it holds, and nothing else is. -/
theorem remove_removes (dry : Bool) (more : ℕ) (dir : Fd) (name : Name) (w : World) :
    Removes dry dir.id name (remove dry more dir name) w := by
  induction more generalizing dir name w with
  | zero => exact removeWith_removes dry dir name w (by simp)
  | succ more ih =>
    refine removeWith_removes dry dir name w ?_
    intro _ hremove sub entry w'
    cases hremove
    exact ih sub entry w'

/-! ### A tree written out -/

def Name.letter (b : UInt8) (h : validName [b] = true := by decide) : Name := ⟨[b], h⟩

namespace Disk

/-- The disk of the directories that `dirs` lists, by number. -/
def listed (dirs : List (List (Name × Entry))) : Disk :=
  ⟨fun d => ⟨dirs.getD d [], 0o755, none, false⟩, dirs.length⟩

/-- The directories' entries that are directories, and which. -/
def subs (dirs : List (List (Name × Entry))) : List ((DirId × Name) × DirId) :=
  dirs.zipIdx.flatMap fun dir => dir.1.filterMap fun e => e.2.sub.map fun id => ((dir.2, e.1), id)

theorem listed_empty {dirs : List (List (Name × Entry))} {d : DirId} (hd : dirs.length ≤ d) :
    dirs.getD d [] = [] := by
  simp [List.getD, List.getElem?_eq_none hd]

/-- The directories that are listed. -/
theorem mem_subs {dirs : List (List (Name × Entry))} {d : DirId} {n : Name} {e : Entry} {id : DirId}
    (he : (listed dirs).entry d n = some e) (hid : e.sub = some id) : ((d, n), id) ∈ subs dirs := by
  obtain ⟨l₁, l₂, heq, -⟩ := List.lookup_eq_some_iff.mp he
  have hmem : (n, e) ∈ dirs.getD d [] := by
    show (n, e) ∈ ((listed dirs).dirs d).entries
    rw [heq]
    simp
  have hd : d < dirs.length := by
    by_contra hge
    rw [listed_empty (not_lt.mp hge)] at hmem
    cases hmem
  have hdir : (dirs.getD d [], d) ∈ dirs.zipIdx := by
    rw [List.mem_zipIdx_iff_getElem?]
    simp [List.getD, List.getElem?_eq_getElem hd]
  exact List.mem_flatMap.mpr ⟨_, hdir, List.mem_filterMap.mpr ⟨_, hmem, by simp [hid]⟩⟩

/-- What is to be seen of a disk written out: that its directories are a tree. -/
theorem listed_sound {dirs : List (List (Name × Entry))} {top : DirId}
    (hnodup : ((subs dirs).map Prod.snd).Nodup) (htop : top ∉ (subs dirs).map Prod.snd)
    (hlt : ∀ x ∈ (subs dirs).map Prod.snd, x < dirs.length) (hlen : top < dirs.length) :
    (listed dirs).Sound top := by
  have hsub : ∀ {d n e id}, (listed dirs).entry d n = some e → e.sub = some id →
      id ∈ (subs dirs).map Prod.snd := fun he hid => List.mem_map_of_mem (mem_subs he hid)
  refine ⟨⟨fun he he' hid hid' => ?_, fun {p} hp => ?_⟩, fun he => hlt _ (hsub he rfl),
    fun {d n} hle => ?_, hlen⟩
  · have heq := List.inj_on_of_nodup_map hnodup (mem_subs he hid) (mem_subs he' hid') rfl
    simp only [Prod.mk.injEq, and_true] at heq
    exact heq
  · rcases List.eq_nil_or_concat p with rfl | ⟨p, n, rfl⟩
    · rfl
    · rw [List.concat_eq_append] at hp
      obtain ⟨d, e, -, he, hid⟩ := reach_snoc_some.mp hp
      exact absurd (hsub he hid) htop
  · show (dirs.getD d []).lookup n = none
    rw [listed_empty hle]
    rfl

end Disk

end Koh.Sync
