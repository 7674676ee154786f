import Koh.Sync.Dest
import Koh.Sync.Tree

/-!
# What resolving a target gives

A target that was resolved is one that a copy may land in: its directory is the top of a tree, there
unless the run is dry, and it is a name only for one item.

## Main definitions

- `Disk.Forest`: directories that are trees, whichever of them is the top
- `Site.Holds`: what is asked of the disk that paths are looked up in
- `Target.Lands`: what a copy asks of its target

## Main results

- `resolve_gives`: a target that was resolved lands

## Design notes

A disk has directories above a target's, and beside it. That none is below itself is enough for each
to be the top of a tree, so nothing is asked of the path that led to it.
-/

namespace Koh.Sync

open Names
open Koh.Server (Component)

/-- Directories, each one entry at most, and none below itself; those not made yet are empty. -/
structure Disk.Forest (disk : Disk) : Prop where
  one : ∀ {d d' n n' id}, disk.entry d n = some (.dir id) → disk.entry d' n' = some (.dir id) →
    d = d' ∧ n = n'
  apart : ∀ {d p}, reach Entry.sub disk.entry d p = some d → p = []
  made : ∀ {d n id}, disk.entry d n = some (.dir id) → id < disk.next
  fresh : ∀ {d n}, disk.next ≤ d → disk.entry d n = none

/-- What is asked of the disk that paths are looked up in. -/
structure Site.Holds (site : Site) (disk : Disk) : Prop where
  forest : disk.Forest
  top : site.top < disk.next
  cwd : site.cwd < disk.next

/-- What a copy of `count` sources asks of its target. -/
structure Target.Lands (target : Target) (disk : Disk) (dry : Bool) (count : ℕ) (top : DirId) :
    Prop where
  sound : disk.Sound top
  top : ∀ id, target.dir = some id → id = top
  wet : dry = false → target.dir.isSome
  one : target.name.isSome → count ≤ 1

namespace Disk.Forest

variable {disk disk' : Disk} {d : DirId} {n : Name}

/-- A forest is sound from every directory of it. -/
theorem sound (h : disk.Forest) {top : DirId} (htop : top < disk.next) : disk.Sound top := by
  refine ⟨⟨fun he he' hs hs' => ?_, h.apart⟩, h.made, h.fresh, htop⟩
  rw [Entry.sub_eq_some] at hs hs'
  exact h.one (hs ▸ he) (hs' ▸ he')

/-- A directory is made, in place of what was there. -/
theorem makeDir (h : disk.Forest) (hd : d < disk.next) : (disk.makeDir d n).Forest := by
  have hentry := disk.makeDir_entry d n fun m => h.fresh le_rfl
  have hcases : ∀ {d' m e}, (disk.makeDir d n).entry d' m = some e →
      d' = d ∧ m = n ∧ e = .dir disk.next ∨ disk.entry d' m = some e := by
    intro d' m e he
    rw [hentry] at he
    by_cases hm : d' = d ∧ m = n
    · obtain ⟨rfl, rfl⟩ := hm
      rw [setAt_self] at he
      exact .inl ⟨rfl, rfl, (Option.some_inj.mp he).symm⟩
    · exact .inr (by rwa [setAt_ne _ hm] at he)
  have hnone : ∀ {d' m}, disk.next ≤ d' → (disk.makeDir d n).entry d' m = none := by
    intro d' m hle
    rw [hentry, setAt_ne]
    · exact h.fresh hle
    · rintro ⟨rfl, -⟩
      exact absurd hd (not_lt.mpr hle)
  have hnew : ∀ {d' m}, disk.entry d' m ≠ some (.dir disk.next) := fun he =>
    absurd (h.made he) (lt_irrefl _)
  refine ⟨fun he he' => ?_, fun {x p} hp => ?_, fun he => ?_, fun hle => hnone (Nat.le_of_succ_le hle)⟩
  · rcases hcases he with ⟨rfl, rfl, heq⟩ | hold
    · rcases hcases he' with ⟨rfl, rfl, -⟩ | hold'
      · exact ⟨rfl, rfl⟩
      · cases heq
        exact absurd hold' hnew
    · rcases hcases he' with ⟨-, -, heq⟩ | hold'
      · cases heq
        exact absurd hold hnew
      · exact h.one hold hold'
  · have hold : ∀ {d' m e id}, (disk.makeDir d n).entry d' m = some e → e.sub = some id →
        id = disk.next ∨ disk.entry d' m = some e := by
      intro d' m e id he hs
      rcases hcases he with ⟨-, -, rfl⟩ | hold
      · exact .inl (Option.some_inj.mp hs).symm
      · exact .inr hold
    rcases reach_grown (fun m => hnone le_rfl) hold hp with rfl | hreach
    · -- From the new directory nothing is reached.
      cases p with
      | nil => rfl
      | cons m p =>
        rw [reach_cons, hnone le_rfl] at hp
        cases hp
    · exact h.apart hreach
  · rw [makeDir_next]
    rcases hcases he with ⟨-, -, heq⟩ | hold
    · cases heq
      exact Nat.lt_succ_self _
    · exact Nat.lt_succ_of_lt (h.made hold)

/-- What has the same entries is a forest. -/
theorem alike (h : disk.Forest) (halike : disk.Alike disk') : disk'.Forest := by
  obtain ⟨hone, hapart, hmade, hfresh⟩ := h
  rw [← halike.entry] at hone hapart hmade hfresh
  rw [← halike.next] at hmade hfresh
  exact ⟨hone, hapart, hmade, hfresh⟩

end Disk.Forest

namespace Site.Holds

variable {site : Site} {disk disk' : Disk}

theorem alike (h : site.Holds disk) (halike : disk.Alike disk') : site.Holds disk' :=
  ⟨h.forest.alike halike, halike.next ▸ h.top, halike.next ▸ h.cwd⟩

theorem makeDir (h : site.Holds disk) {d : DirId} {n : Name} (hd : d < disk.next) :
    site.Holds (disk.makeDir d n) :=
  ⟨h.forest.makeDir hd, Nat.lt_succ_of_lt h.top, Nat.lt_succ_of_lt h.cwd⟩

/-- A path leads to a directory that there is. -/
theorem find_lt (h : site.Holds disk) {follows : Bool} {path : Bytes} {id : DirId}
    (hfind : site.find disk follows path = .ok (.dir id)) : id < disk.next := by
  refine Namei.lookup_dir (P := (· < disk.next)) h.top (fun d _ => ?_) (fun d name sub _ he => ?_)
    h.cwd hfind
  · show disk.above site.top d < disk.next
    unfold Disk.above
    cases hup : (List.range disk.next).find? fun p => (disk.dirs p).entries.any (·.2 = .dir d) with
    | none => exact h.top
    | some up => exact List.mem_range.mp (List.mem_of_find?_eq_some hup)
  · simp only [Site.tree] at he
    split at he
    · cases he
    · next n _ =>
      cases hentry : disk.entry d n with
      | none => simp [hentry] at he
      | some e =>
        rw [hentry] at he
        cases e with
        | dir id' =>
          cases he
          exact h.forest.made hentry
        | _ => cases he

end Site.Holds

/-! ### The calls that take a path -/

section

variable {site : Site} {w : World} {dry : Bool}

theorem mkdir_holds (site : Site) (parts : List Component) :
    Keeps (fun w => site.Holds w.disk) (mkdir site parts) := by
  intro w hw
  rw [mkdir, wp_bind, wp_get]
  split
  · exact hw
  · rw [wp_bind, wp_onlyIf]
    refine ⟨fun _ => hw, fun _ => ?_⟩
    split
    · next id name hparent _ =>
      obtain ⟨p, -, hfind⟩ := Option.map_eq_some_iff.mp hparent
      exact hw.makeDir (hw.find_lt hfind)
    · exact hw

theorem mkdirUnless_holds (site : Site) (parts : List Component) :
    Keeps (fun w => site.Holds w.disk) (mkdirUnless site parts) := by
  intro w hw
  have hmkdir := mkdir_holds site parts w hw
  simp only [wp, mkdirUnless] at hmkdir ⊢
  cases hmade : mkdir site parts w with
  | ok a w₁ =>
    rw [hmade] at hmkdir
    exact hmkdir
  | error e w₁ =>
    rw [hmade] at hmkdir
    dsimp only
    cases site.isDir w₁.disk (pathOf parts) <;> exact hmkdir

/-- Directories that are made keep a site. -/
theorem createDirAll_holds (site : Site) (more : ℕ) (parts : List Component) :
    Keeps (fun w => site.Holds w.disk) (createDirAll site more parts) := by
  induction more generalizing parts with
  | zero => exact .throw _
  | succ more ih =>
    refine .ite (.pure _) fun w hw => ?_
    have hmkdir := mkdir_holds site parts w hw
    simp only [wp, createDirWith] at hmkdir ⊢
    cases hmade : mkdir site parts w with
    | ok a w₁ =>
      rw [hmade] at hmkdir
      exact hmkdir
    | error e w₁ =>
      rw [hmade] at hmkdir
      dsimp only
      by_cases he : e = .notFound
      · rw [if_pos he]
        cases parent parts with
        | none => exact hmkdir
        | some up => exact Keeps.bind (ih up) (fun _ => mkdirUnless_holds site parts) w₁ hmkdir
      · rw [if_neg he]
        cases site.isDir w₁.disk (pathOf parts) <;> exact hmkdir

/-- A directory that there is, opened unless the run is dry. -/
structure Site.Opens (site : Site) (dry : Bool) (fd : Option Fd) (disk : Disk) : Prop where
  holds : site.Holds disk
  lt : ∀ f, fd = some f → f.id < disk.next
  wet : dry = false → fd.isSome

theorem Site.Holds.opens {disk : Disk} (h : site.Holds disk) {fd : Fd} (hlt : fd.id < disk.next) :
    site.Opens dry (some fd) disk := by
  refine ⟨h, fun f hf => ?_, fun _ => rfl⟩
  cases hf
  exact hlt

/-- A path that is opened leads to a directory of the disk. -/
theorem openDirPath_opens (hw : site.Holds w.disk) (path : Bytes) :
    Gives (openDirPath site path) (fun fd w' => site.Opens dry (some fd) w'.disk) w := by
  rw [Gives, openDirPath, wp_bind, wp_get]
  split
  · trivial
  · next id hfind => exact hw.opens (hw.find_lt hfind)
  · trivial

theorem openDir_opens (hw : site.Holds w.disk) (dir : Fd) (name : Name) :
    Gives (openDir dir name) (fun fd w' => site.Opens dry (some fd) w'.disk) w := by
  refine (openDir_gives dir name).mono fun fd w' h => ?_
  rw [h.1]
  exact hw.opens (hw.forest.made h.2)

/-- So does one that is made. -/
theorem madePath_opens (hw : site.Holds w.disk) (parts : List Component) :
    Gives (madePath site parts dry) (fun fd w' => site.Opens dry fd w'.disk) w := by
  unfold madePath
  cases dry with
  | true =>
    refine ⟨hw, fun f hf => ?_, fun h => ?_⟩
    · cases hf
    · cases h
  | false =>
    have hmade := createDirAll_holds site (parts.length + 1) parts w hw
    refine Gives.bind (wp_mono hmade (fun _ _ h => h) fun _ _ _ => trivial) fun _ w₁ hw₁ => ?_
    rw [Gives, wp_map]
    exact openDirPath_opens hw₁ _

/-- A call that cannot open a directory changes nothing. -/
theorem openDir_error (dir : Fd) (name : Name) :
    wp (openDir dir name) (fun _ _ => True) (fun _ w' => w' = w) w := by
  rw [openDir, wp_bind, wp_get]
  split
  · rfl
  · trivial
  · rfl

/-- So does a walk that makes what is not there. -/
theorem walkMaking_opens (hw : site.Holds w.disk) {dir : Fd} (hdir : dir.id < w.disk.next)
    (names : List Name) (made : ℕ) :
    Gives (walkMaking dry dir names made) (fun r w' => site.Opens dry r.1 w'.disk) w := by
  induction names generalizing dir made w with
  | nil => exact hw.opens hdir
  | cons name names ih =>
    have hopens : Gives (openDir dir name) (fun fd w' => site.Opens dry (some fd) w'.disk) w :=
      openDir_opens hw dir name
    simp only [Gives, wp, walkMaking] at hopens ih ⊢
    cases hopen : openDir dir name w with
    | ok next w₁ =>
      rw [hopen] at hopens
      exact ih hopens.holds (hopens.lt next rfl) made
    | error e w₁ =>
      obtain rfl := wp_of_error (openDir_error dir name) hopen
      cases e with
      | notFound =>
        cases dry with
        | true =>
          refine ⟨hw, fun f hf => ?_, fun h => ?_⟩
          · cases hf
          · cases h
        | false =>
          have hmake : Gives (makeDir dir name >>= fun _ => openDir dir name >>= fun next =>
              chmod (.dir next) 0o755 >>= fun _ => walkMaking false next names (made + 1))
              (fun r w' => site.Opens false r.1 w'.disk) w₁ := by
            refine Gives.bind (makeDir_gives dir name) fun _ w₂ hmade => ?_
            have hw₂ : site.Holds w₂.disk := hmade.2 ▸ hw.makeDir hdir
            have hopen : Gives (openDir dir name)
                (fun fd w' => site.Opens false (some fd) w'.disk) w₂ := openDir_opens hw₂ dir name
            refine Gives.bind hopen fun next w₃ hnext => ?_
            refine Gives.bind (wp_mono (chmod_gives (.dir next) 0o755) (fun _ _ h => h.alike)
              fun _ _ h => h.elim) fun _ w₄ halike => ?_
            exact ih (hnext.holds.alike halike) (halike.next ▸ hnext.lt next rfl) (made + 1)
          exact hmake
      | _ => trivial

/-! ### The target -/

theorem ioAt_gives {α : Type} {x : Fs α} {Q : α → World → Prop} (path : Bytes) (h : Gives x Q w) :
    Gives (ioAt path x) Q w := by
  simp only [Gives, wp, ioAt] at h ⊢
  cases hx : x w with
  | ok a w' => rwa [hx] at h
  | error e w' => trivial

theorem Site.Holds.lands {disk : Disk} {target : Target} {count : ℕ} (h : site.Holds disk)
    (hlt : ∀ id, target.dir = some id → id < disk.next) (hwet : dry = false → target.dir.isSome)
    (hone : target.name.isSome → count ≤ 1) : ∃ top, target.Lands disk dry count top := by
  cases hdir : target.dir with
  | none => exact ⟨site.top, h.forest.sound h.top, fun id hid => by simp [hdir] at hid, hwet, hone⟩
  | some id =>
    refine ⟨id, h.forest.sound (hlt id hdir), fun id' hid => ?_, hwet, hone⟩
    exact (Option.some_inj.mp (hdir.symm.trans hid)).symm

namespace Site.Opens

variable {fd : Option Fd} {disk : Disk} {count : ℕ}

theorem landing_lt (h : site.Opens dry fd disk) {id : DirId} (hid : landing fd = some id) :
    id < disk.next := by
  obtain ⟨f, hf, rfl⟩ := Option.map_eq_some_iff.mp hid
  exact h.lt f hf

theorem into (h : site.Opens dry fd disk) :
    ∃ top, (Target.into (landing fd)).Lands disk dry count top :=
  h.holds.lands (fun _ => h.landing_lt) (fun hdry => by simpa [Target.dir, landing] using h.wet hdry)
    fun hname => by cases hname

theorem named (h : site.Opens dry fd disk) (hcount : count ≤ 1) (name : Name) :
    ∃ top, (Target.named (landing fd) name).Lands disk dry count top :=
  h.holds.lands (fun _ => h.landing_lt) (fun hdry => by simpa [Target.dir, landing] using h.wet hdry)
    fun _ => hcount

end Site.Opens

variable {count : ℕ}

/-- A name's target lands beside it. -/
theorem resolveNamed_gives (hw : site.Holds w.disk) (hcount : count ≤ 1) (path : Bytes) :
    Gives (resolveNamed site path dry) (fun r w' => ∃ top, r.1.Lands w'.disk dry count top) w := by
  unfold resolveNamed
  dsimp only
  split
  · trivial
  · next name _ =>
    rw [Gives, wp_bind, wp_get]
    refine Gives.bind (ioAt_gives path (madePath_opens hw _)) fun fd w₁ hopens => ?_
    have hopens' : site.Opens dry fd w₁.disk :=
      ⟨hopens.holds, hopens.lt, fun hdry => hopens.wet (by rw [hdry]; rfl)⟩
    exact hopens'.named hcount name

/-- A directory's target lands in it. -/
theorem resolveInto_gives (hw : site.Holds w.disk) (path : Bytes) :
    Gives (resolveInto site path dry) (fun r w' => ∃ top, r.1.Lands w'.disk dry count top) w := by
  rw [Gives, resolveInto, wp_bind, wp_get]
  exact Gives.bind (ioAt_gives path (madePath_opens hw _)) fun fd w₁ hopens => hopens.into

/-- A path's target lands where it leads. -/
theorem resolvePath_gives (hw : site.Holds w.disk) (path : Bytes) :
    Gives (resolvePath site path count dry) (fun r w' => ∃ top, r.1.Lands w'.disk dry count top) w := by
  rw [Gives, resolvePath, wp_bind, wp_get]
  -- It is a name only where it does not name a directory, as it does of two or more.
  have hone : ¬ (path.getLast? = some 0x2f ∨ 1 < count) → count ≤ 1 := fun h =>
    not_lt.mp fun hlt => h (.inr hlt)
  split
  · exact Gives.bind (ioAt_gives path (openDirPath_opens hw path)) fun fd w₁ hopens => hopens.into
  · simp only [wp_ite, wp_throw, implies_true, true_and]
    exact fun _ hname => resolveNamed_gives hw (hone hname) path
  · simp only [wp_ite, wp_throw, implies_true, true_and]
    exact fun _ => ⟨fun _ => resolveInto_gives hw path,
      fun hname => resolveNamed_gives hw (hone hname) path⟩

theorem statLast_gives (shown : Bytes) (last : Name) (up : Option Fd) :
    Gives (statLast shown last up) (fun _ w' => w' = w) w := by
  cases up with
  | some fd => exact ioAt_gives shown ((wp_stat fd last).mpr rfl)
  | none => rfl

/-- The last name of a path lands in or beside it. -/
theorem resolveLast_gives {up : Option Fd} (hup : site.Opens dry up w.disk) (shown : Bytes)
    (last : Name) {namesDir : Bool} (hone : namesDir = false → count ≤ 1) (made : ℕ) :
    Gives (resolveLast dry shown last count namesDir up made)
      (fun r w' => ∃ top, r.1.Lands w'.disk dry count top) w := by
  refine Gives.bind (statLast_gives shown last up) ?_
  intro there w' hw'
  obtain rfl : w = w' := hw'.symm
  have hnamed : ∀ {up : Option Fd}, ¬ namesDir = true → site.Opens dry up w.disk →
      ∃ top, (Target.named (landing up) last).Lands w.disk dry count top := fun hname hup =>
    hup.named (hone (by simpa using hname)) last
  split
  · next _ _ fd _ =>
    exact Gives.bind (ioAt_gives shown (openDir_opens hup.holds fd last)) fun sub w₁ hopens =>
      hopens.into
  · exact hup.into
  · trivial
  · simp only [Gives, wp_ite, wp_throw, implies_true, true_and]
    exact fun _ hname => hnamed hname hup
  · next _ _ fd _ =>
    rw [Gives, wp_ite]
    refine ⟨fun _ => ?_, fun hname => hnamed hname hup⟩
    exact Gives.bind (ioAt_gives shown (walkMaking_opens hup.holds (hup.lt fd rfl) _ _))
      fun r w₁ hopens => hopens.into
  · rw [Gives, wp_ite]
    exact ⟨fun _ => hup.into, fun hname => hnamed hname hup⟩

/-- A scoped target lands beneath its root. -/
theorem resolveBeneath_gives (hw : site.Holds w.disk) (root : Bytes) (path : Path) (dir : Bool) :
    Gives (resolveBeneath site root path dir count dry)
      (fun r w' => ∃ top, r.1.Lands w'.disk dry count top) w := by
  have hroot : Gives (openDirPath site root) (fun fd w' => site.Opens dry (some fd) w'.disk) w :=
    openDirPath_opens hw root
  refine Gives.bind (ioAt_gives path.bytes hroot) fun fd w₁ hopens => ?_
  split
  · exact hopens.into
  · next last _ =>
    refine Gives.bind (ioAt_gives path.bytes
      (walkMaking_opens hopens.holds (hopens.lt fd rfl) _ 0)) fun r w₂ hopens₂ => ?_
    refine resolveLast_gives hopens₂ path.bytes last (fun hname => ?_) r.2
    simp only [Bool.or_eq_false_iff, decide_eq_false_iff_not, not_lt] at hname
    exact hname.2

/-- **A target that was resolved is one that a copy may land in**: its directory is the top of a
tree, it has one unless the run is dry, and it is a name only for one item. This is what `Net.agrees`,
`Net.modes_last` and `Net.tree_kept` ask of where they start. -/
theorem resolve_gives (hw : site.Holds w.disk) (dest : Dest) :
    Gives (resolve site dest count dry) (fun r w' => ∃ top, r.1.Lands w'.disk dry count top) w := by
  cases dest with
  | path path => exact resolvePath_gives hw path
  | beneath root path dir => exact resolveBeneath_gives hw root path dir

end

end Koh.Sync
