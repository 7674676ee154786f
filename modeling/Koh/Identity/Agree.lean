import Koh.Identity.KeyFile
import Mathlib.Tactic.IntervalCases

/-!
# Racing processes agree on one key

Whatever the processes that load or create a key do between each other's calls,
one of them at most publishes a key, and every other one reads it.

## Main definitions

- `Holds`: the file at the path is all of a key
- `Knows`: what a process knows from where it is in its load
- `Inv`: the invariant of all of them

## Main results

- `call_did`: what a call changes, and what its process then knows
- `World.step_inv`: every call keeps the invariant
-/

namespace Koh.Identity

open Koh.Lib

/-! ### The temporary name -/

theorem digitChar_ne_dot (n : ℕ) (h : n < 16) : Nat.digitChar n ≠ '.' := by
  interval_cases n <;> decide

theorem dot_not_mem_hex16 (r : UInt64) : '.' ∉ hex16 r := by
  intro h
  obtain ⟨place, -, hplace⟩ := List.mem_map.mp h
  exact digitChar_ne_dot _ (Nat.mod_lt _ (by decide)) hplace

/-- What is before the last dot of a name is its stem. -/
theorem fileStem_append {stem extension : FileName} (hstem : stem ≠ [])
    (hdot : '.' ∉ extension) : fileStem (stem ++ '.' :: extension) = stem := by
  have hrev : (stem ++ '.' :: extension).reverse = extension.reverse ++ '.' :: stem.reverse := by
    simp
  have hall : ∀ c ∈ extension.reverse, decide (c ≠ '.') = true := by
    intro c hc
    rw [decide_eq_true_eq]
    rintro rfl
    exact hdot (List.mem_reverse.mp hc)
  simp only [fileStem, hrev, List.dropWhile_append_of_pos hall]
  simp [hstem]

/-- No name is a temporary name beside itself. -/
theorem tmpName_ne (key : FileName) (pid : ℕ) (r : UInt64) : tmpName key pid r ≠ key := by
  intro h
  have hshape : tmpName key pid r =
      (fileStem key ++ '.' :: ("tmp.".toList ++ Nat.toDigits 10 pid)) ++ '.' :: hex16 r := by
    simp [tmpName, withExtension]
  have hstem : fileStem key =
      fileStem key ++ '.' :: ("tmp.".toList ++ Nat.toDigits 10 pid) := by
    conv_lhs => rw [← h, hshape]
    exact fileStem_append (by simp) (dot_not_mem_hex16 r)
  have := congrArg List.length hstem
  simp at this

/-! ### What a process knows -/

def Holds (key : FileName) (d : Disk) (k : Key) : Prop :=
  ∃ file, d.names key = some file ∧ (d.files file).bytes = k.1

/-- The file that is to become the key: beside it, private, `left` yet to be written. -/
structure Drafts (key : FileName) (d : Disk) (secret : Option Key) (tmp : FileName) (file : ℕ)
    (left : List UInt8) : Prop where
  hname : d.names tmp = some file
  hkey : tmp ≠ key
  hlock : tmp ≠ lockName
  hother : d.names lockName ≠ some file
  hfile : ∃ written k, d.files file = .born written ∧ secret = some k ∧ written ++ left = k.1

/-- What a process knows of the directory from where it is. -/
def Knows (key : FileName) (d : Disk) (proc : Proc) : Prop :=
  match proc.phase with
  | .check which file | .tighten which file | .recheck which file =>
    d.names (which.name key) = some file
  | .read file bytes => d.names key = some file ∧ bytes <+: (d.files file).bytes
  | .lock file => d.names lockName = some file
  | .look => proc.locked.isSome
  | .make => proc.locked.isSome ∧ d.names key = none
  | .write tmp file left =>
    (proc.locked.isSome ∧ d.names key = none) ∧ Drafts key d proc.secret tmp file left
  | .sync tmp | .rename tmp =>
    (proc.locked.isSome ∧ d.names key = none) ∧ ∃ file, Drafts key d proc.secret tmp file []
  | .remove tmp => (proc.locked.isSome ∧ d.names key = none) ∧ tmp ≠ key ∧ tmp ≠ lockName
  | .leave answer | .done answer => ∀ k, answer = .ok (some k) → Holds key d k
  | .existing | .stat _ | .opens _ | .generate => True

/-- What keeps a name keeps the key it holds. -/
theorem Holds.keeps {key : FileName} {d d' : Disk} {k : Key} (h : Holds key d k)
    (hkeeps : Disk.Keeps key d d') : Holds key d' k := by
  obtain ⟨file, hname, hbytes⟩ := h
  obtain ⟨hname', hsame⟩ := hkeeps file hname
  exact ⟨file, hname', hsame.bytes.trans hbytes⟩

/-- What a call of a process without the lock leaves to one that has it. -/
def Quiet (key : FileName) (d d' : Disk) : Prop :=
  d.names lockName ≠ none → d'.names = d.names ∧
    ∀ file, d.names key ≠ some file → d.names lockName ≠ some file → d'.files file = d.files file

theorem Quiet.refl (key : FileName) (d : Disk) : Quiet key d d := fun _ => ⟨rfl, fun _ _ _ => rfl⟩

/-- A draft is its process's own: others leave it as it is. -/
theorem Drafts.quiet {key tmp : FileName} {d d' : Disk} {secret : Option Key} {file : ℕ}
    {left : List UInt8} (h : Drafts key d secret tmp file left) (hkey : d.names key = none)
    (hlock : d.names lockName ≠ none) (hquiet : Quiet key d d') :
    Drafts key d' secret tmp file left := by
  obtain ⟨hnames, hfiles⟩ := hquiet hlock
  obtain ⟨written, k, hfile, hsecret, hk⟩ := h.hfile
  refine ⟨hnames ▸ h.hname, h.hkey, h.hlock, hnames ▸ h.hother, written, k, ?_, hsecret, hk⟩
  rw [hfiles file (by simp [hkey]) h.hother, hfile]

/-- A write to a draft leaves the rest of the key to be written. -/
theorem Drafts.write {key tmp : FileName} {d : Disk} {secret : Option Key} {file : ℕ}
    {left : List UInt8} (n : ℕ) (h : Drafts key d secret tmp file left) :
    Drafts key (d.write file (left.take n)) secret tmp file (left.drop n) := by
  obtain ⟨written, k, hfile, hsecret, hk⟩ := h.hfile
  refine ⟨h.hname, h.hkey, h.hlock, h.hother, written ++ left.take n, k, ?_, hsecret, ?_⟩
  · simp [Disk.write, Disk.set, hfile, File.born]
  · rw [List.append_assoc, List.take_append_drop, hk]

/-- What a process knows outlasts another's call: if it has the lock, the other has not. -/
theorem Knows.others {key : FileName} {d d' : Disk} {proc : Proc} (h : Knows key d proc)
    (hlocked : ∀ file, proc.locked = some file → d.names lockName = some file)
    (hkey : Disk.Keeps key d d') (hlock : Disk.Keeps lockName d d')
    (hquiet : proc.locked.isSome → Quiet key d d') : Knows key d' proc := by
  have hpresent : proc.locked.isSome → d.names lockName ≠ none := by
    intro hsome
    obtain ⟨file, hfile⟩ := Option.isSome_iff_exists.mp hsome
    simp [hlocked file hfile]
  have habsent : proc.locked.isSome → d.names key = none → d'.names key = none := by
    intro hsome hnone
    rw [(hquiet hsome (hpresent hsome)).1, hnone]
  have hkeeps : ∀ which : Which, Disk.Keeps (which.name key) d d' := by
    rintro (_ | _)
    · exact hkey
    · exact hlock
  have hbusy : proc.locked.isSome ∧ d.names key = none →
      proc.locked.isSome ∧ d'.names key = none := fun h => ⟨h.1, habsent h.1 h.2⟩
  have hdrafts : ∀ tmp file left, proc.locked.isSome ∧ d.names key = none →
      Drafts key d proc.secret tmp file left → Drafts key d' proc.secret tmp file left :=
    fun _ _ _ h hd => hd.quiet h.2 (hpresent h.1) (hquiet h.1)
  cases hphase : proc.phase <;> simp only [Knows, hphase] at h ⊢
  case check which file => exact (hkeeps which file h).1
  case tighten which file => exact (hkeeps which file h).1
  case recheck which file => exact (hkeeps which file h).1
  case read file bytes =>
    obtain ⟨hname, hsame⟩ := hkey file h.1
    exact ⟨hname, hsame.bytes ▸ h.2⟩
  case lock file => exact (hlock file h).1
  case look => exact h
  case make => exact hbusy h
  case write tmp file left => exact ⟨hbusy h.1, hdrafts _ _ _ h.1 h.2⟩
  case sync tmp => exact ⟨hbusy h.1, h.2.imp fun _ => hdrafts _ _ _ h.1⟩
  case rename tmp => exact ⟨hbusy h.1, h.2.imp fun _ => hdrafts _ _ _ h.1⟩
  case remove tmp => exact ⟨hbusy h.1, h.2⟩
  case leave answer => exact fun k hk => (h k hk).keeps hkey
  case done answer => exact fun k hk => (h k hk).keeps hkey

/-- The file of the lock is made, empty, where the key's own name is the lock's. -/
def LockMade (key : FileName) (d : Disk) : Prop :=
  key = lockName ∧ ∃ file, d.names key = some file ∧ d.files file = .born []

/-- What a call does to the directory, and what its process then knows. -/
structure Did (key : FileName) (d : Disk) (proc : Proc) (d' : Disk) (proc' : Proc) : Prop where
  hknows : Knows key d' proc'
  hlocked : proc'.locked = proc.locked
  hkey : Disk.Keeps key d d'
  hlock : Disk.Keeps lockName d d'
  hquiet : proc.locked = none → Quiet key d d'
  hnew : d.names key = none → d'.names key = none ∨ LockMade key d'

theorem Did.still {key : FileName} {d : Disk} {proc proc' : Proc} (hknows : Knows key d proc')
    (hlocked : proc'.locked = proc.locked) : Did key d proc d proc' :=
  ⟨hknows, hlocked, .refl _ _, .refl _ _, fun _ => .refl _ _, .inl⟩

/-- A process that fails has done nothing. -/
theorem did_fails {key : FileName} {d : Disk} (proc : Proc) (e : Error) :
    Did key d proc d (proc.fails e) :=
  .still (by simp [Knows, Proc.fails, Proc.next]) rfl

/-- What is found is held. -/
theorem did_found {key : FileName} {d : Disk} (proc : Proc) (r : Option Key)
    (h : ∀ k, r = some k → Holds key d k) : Did key d proc d (proc.found r) := by
  cases r with
  | some k =>
    refine .still ?_ rfl
    intro k' hk'
    cases hk'
    exact h k rfl
  | none =>
    simp only [Proc.found]
    split
    · exact .still trivial rfl
    · exact did_fails proc .noKey

/-- A name that is there was opened. -/
theorem did_opened {key : FileName} {d : Disk} (proc : Proc) {which : Which} {file : ℕ}
    (h : d.names (which.name key) = some file) : Did key d proc d (proc.opened which file) := by
  cases which with
  | key => exact .still ⟨h, List.nil_prefix⟩ rfl
  | lock => exact .still h rfl

/-- A process that was failed knows what it did. -/
theorem did_failed {key : FileName} {d : Disk} {proc : Proc} (h : Knows key d proc) :
    Did key d proc d proc.failed := by
  cases hphase : proc.phase <;> simp only [Knows, hphase] at h <;>
    simp only [Proc.failed, hphase]
  case write tmp file left => exact .still ⟨h.1, h.2.hkey, h.2.hlock⟩ rfl
  case sync tmp =>
    obtain ⟨hbusy, file, hdrafts⟩ := h
    exact .still ⟨hbusy, hdrafts.hkey, hdrafts.hlock⟩ rfl
  case rename tmp =>
    obtain ⟨hbusy, file, hdrafts⟩ := h
    exact .still ⟨hbusy, hdrafts.hkey, hdrafts.hlock⟩ rfl
  all_goals exact did_fails _ _

/-- A name has no file where there is none to look at. -/
theorem stat_eq_none {d : Disk} {name : FileName} : d.stat name = none ↔ d.names name = none := by
  simp [Disk.stat]

/-- What is known to a process of `phase`, of a directory it left alone. -/
theorem did_next {key : FileName} {d : Disk} (proc : Proc) {phase : Phase}
    (h : Knows key d (proc.next phase)) : Did key d proc d (proc.next phase) := .still h rfl

/-- A file is made private, and no name changes. -/
theorem did_tighten {key : FileName} {d : Disk} (proc : Proc) {which : Which} {file : ℕ}
    (h : d.names (which.name key) = some file) :
    Did key d proc (d.tighten file) (proc.next (.recheck which file)) := by
  refine ⟨h, rfl, Disk.keeps_tighten file, Disk.keeps_tighten file, fun _ _ => ⟨rfl, ?_⟩, .inl⟩
  intro other hkey hlock
  have hne : other ≠ file := by
    rintro rfl
    cases which with
    | key => exact hkey h
    | lock => exact hlock h
  simp [Disk.tighten, Disk.set, Function.update_of_ne hne]

/-- The lock is made where there is none. -/
theorem did_create_lock {key : FileName} {d : Disk} (proc : Proc)
    (h : d.names lockName = none) :
    Did key d proc (d.create lockName) (proc.next (.check .lock d.next)) := by
  refine ⟨?_, rfl, Disk.keeps_create h, Disk.keeps_create h, fun _ hpresent => absurd h hpresent,
    fun hnone => ?_⟩
  · simp [Knows, Proc.next, Disk.create, Which.name]
  · by_cases hkey : key = lockName
    · exact .inr ⟨hkey, d.next, by simp [Disk.create, hkey], by simp [Disk.create]⟩
    · exact .inl (by simp [Disk.create, Function.update_of_ne hkey, hnone])

/-- Each call that goes through keeps what others hold. -/
theorem did_go {key : FileName} {d d' : Disk} {proc proc' : Proc} (h : Knows key d proc)
    (hcall : call key d proc .go = some (d', proc')) : Did key d proc d' proc' := by
  cases hphase : proc.phase <;> simp only [Knows, hphase] at h <;>
    simp only [call, hphase] at hcall
  case existing =>
    split at hcall <;> cases hcall <;> exact did_next proc (by simp [Knows, Proc.next])
  case stat which =>
    split at hcall <;> cases hcall
    · exact did_fails _ _
    · exact did_next proc trivial
  case opens which =>
    split at hcall
    · next file hfile =>
      split at hcall <;> cases hcall
      · exact did_fails _ _
      · exact did_next proc hfile
    · cases hcall
      exact did_found proc none (by simp)
    · next hnone =>
      cases hcall
      exact did_create_lock proc hnone
  case check which file =>
    split at hcall
    · cases hcall
      exact did_fails _ _
    · split at hcall <;> cases hcall
      · exact did_next proc h
      · exact did_opened proc h
  case tighten which file =>
    cases hcall
    exact did_tighten proc h
  case recheck which file =>
    split at hcall <;> cases hcall
    · exact did_fails _ _
    · exact did_opened proc h
  case look =>
    split at hcall <;> cases hcall
    · next hnone => exact did_next proc ⟨h, stat_eq_none.mp hnone⟩
    · exact did_next proc trivial
  case sync tmp =>
    cases hcall
    exact did_next proc h
  case remove tmp =>
    cases hcall
    refine ⟨by simp [Knows, Proc.fails, Proc.next], rfl, Disk.keeps_remove (Ne.symm h.2.1),
      Disk.keeps_remove (Ne.symm h.2.2), fun hnone => ?_, fun hnone => .inl ?_⟩
    · simp [hnone] at h
    · simp [Disk.remove, Function.update_of_ne (Ne.symm h.2.1), hnone]
  all_goals cases hcall

/-- A read that gets nothing has read the file to its end, or a byte past a key. -/
theorem eq_of_chunk_nil {bytes whole : List UInt8} {n : ℕ} (hfrom : bytes <+: whole)
    (hn : n ≠ 0) (hlen : bytes.length = keyLen)
    (h : ((whole.drop bytes.length).take (keyLen + 1 - bytes.length)).take n = []) :
    whole = bytes := by
  obtain ⟨rest, rfl⟩ := hfrom
  cases rest with
  | nil => simp
  | cons b rest =>
    obtain ⟨n, rfl⟩ := Nat.exists_eq_succ_of_ne_zero hn
    simp [hlen] at h

/-- So does each that moves bytes. -/
theorem did_moves {key : FileName} {d d' : Disk} {proc proc' : Proc} {n : ℕ}
    (h : Knows key d proc) (hcall : call key d proc (.moves n) = some (d', proc')) :
    Did key d proc d' proc' := by
  cases hphase : proc.phase <;> simp only [Knows, hphase] at h <;>
    simp only [call, hphase] at hcall
  case read file bytes =>
    obtain ⟨hname, hfrom⟩ := h
    split at hcall
    · cases hcall
    next hn =>
    split at hcall <;> cases hcall
    · next hchunk =>
      simp only [Proc.whole]
      split
      · next hlen =>
        refine did_found proc _ fun k hk => ⟨file, hname, ?_⟩
        cases hk
        exact eq_of_chunk_nil hfrom hn hlen hchunk
      · exact did_fails _ _
    · refine did_next proc ⟨hname, ?_⟩
      obtain ⟨rest, hrest⟩ := hfrom
      rw [← hrest, List.drop_left]
      exact (List.prefix_append_right_inj bytes).mpr
        ((List.take_prefix _ _).trans (List.take_prefix _ _))
  case write tmp file left =>
    obtain ⟨hbusy, hdrafts⟩ := h
    have hdid : ∀ proc' : Proc, proc'.locked = proc.locked →
        Knows key (d.write file (left.take n)) proc' →
        Did key d proc (d.write file (left.take n)) proc' := by
      intro proc' hlocked hknows
      refine ⟨hknows, hlocked, Disk.keeps_write _ (by simp [hbusy.2]),
        Disk.keeps_write _ hdrafts.hother, fun hnone => ?_, .inl⟩
      simp [hnone] at hbusy
    split at hcall
    · cases hcall
    split at hcall <;> cases hcall
    · next hall =>
      have hdone := hdrafts.write n
      rw [List.take_of_length_le hall.le, List.drop_of_length_le hall.le] at hdone
      rw [List.take_of_length_le hall.le] at hdid
      exact hdid _ rfl ⟨hbusy, file, hdone⟩
    · exact hdid _ rfl ⟨hbusy, hdrafts.write n⟩
  all_goals cases hcall

/-- So does one that picks a draft's name. -/
theorem did_picks {key : FileName} {d d' : Disk} {proc proc' : Proc} {pid : ℕ} {r : UInt64}
    (h : Knows key d proc)
    (hlocked : ∀ file, proc.locked = some file → d.names lockName = some file)
    (hcall : call key d proc (.picks pid r) = some (d', proc')) : Did key d proc d' proc' := by
  cases hphase : proc.phase <;> simp only [Knows, hphase] at h <;>
    simp only [call, hphase] at hcall
  case make =>
    cases hsecret : proc.secret with
    | none => simp [hsecret] at hcall
    | some secret =>
      simp only [hsecret] at hcall
      split at hcall <;> cases hcall
      · exact .still (by simpa [Knows, hphase] using h) rfl
      next htaken =>
      have hfree : d.names (tmpName key pid r) = none := not_not.mp htaken
      obtain ⟨file, hfile⟩ := Option.isSome_iff_exists.mp h.1
      have hlock := hlocked file hfile
      have hnotlock : tmpName key pid r ≠ lockName := by
        intro heq
        rw [heq, hlock] at hfree
        cases hfree
      have hkey := tmpName_ne key pid r
      have habsent : (d.create (tmpName key pid r)).names key = none := by
        simpa [Disk.create, Function.update_of_ne (Ne.symm hkey)] using h.2
      refine ⟨⟨⟨h.1, habsent⟩, ?_⟩, rfl, Disk.keeps_create hfree, Disk.keeps_create hfree,
        fun hnone => by simp [hnone] at h, fun _ => .inl habsent⟩
      refine ⟨by simp [Disk.create], hkey, hnotlock, ?_, [], secret, by simp [Disk.create],
        hsecret, rfl⟩
      simp only [Disk.create, Function.update_of_ne (Ne.symm hnotlock), hlock, ne_eq,
        Option.some.injEq]
      exact Nat.ne_of_lt (d.hnext _ _ hlock)
  all_goals cases hcall

/-- What a call does, of those that leave the lock alone. -/
theorem call_did {key : FileName} {d d' : Disk} {proc proc' : Proc} {o : Outcome}
    (h : Knows key d proc)
    (hlocked : ∀ file, proc.locked = some file → d.names lockName = some file)
    (hcall : call key d proc o = some (d', proc')) : Did key d proc d' proc' := by
  cases o with
  | go => exact did_go h hcall
  | fail =>
    cases hcall
    exact did_failed h
  | ignored =>
    cases hphase : proc.phase <;> simp only [Knows, hphase] at h <;>
      simp only [call, hphase] at hcall
    case tighten which file =>
      cases hcall
      exact did_next proc h
    all_goals cases hcall
  | moves n => exact did_moves h hcall
  | draws k =>
    cases hphase : proc.phase <;> simp only [call, hphase] at hcall
    case generate =>
      cases hcall
      exact .still trivial rfl
    all_goals cases hcall
  | picks pid r => exact did_picks h hlocked hcall
  | kill => cases hcall

/-! ### All of them -/

def Proc.new (create : Bool) : Proc :=
  ⟨create, none, none, if create then .stat .key else .existing⟩

namespace World

variable {ι : Type}

/-- No process has made a call yet. -/
structure Start (w : World ι) : Prop where
  hprocs : ∀ p, ∃ create, w.procs p = .new create
  hlocks : ∀ file, w.locks file = none
  hpublished : w.published = []

structure Inv (key : FileName) (w : World ι) : Prop where
  hknows : ∀ p, Knows key w.disk (w.procs p)
  hlocks : ∀ p file, (w.procs p).locked = some file ↔ w.locks file = some p
  hlockFile : ∀ p file, (w.procs p).locked = some file → w.disk.names lockName = some file
  hpublished : w.published = [] ∨ ∃ k, w.published = [k] ∧ Holds key w.disk k

/-- The invariant holds at the start. -/
theorem Start.inv {key : FileName} {w : World ι} (h : w.Start) : w.Inv key where
  hknows p := by
    obtain ⟨create, hp⟩ := h.hprocs p
    rw [hp]
    cases create <;> trivial
  hlocks p file := by
    obtain ⟨create, hp⟩ := h.hprocs p
    simp [hp, Proc.new, h.hlocks]
  hlockFile p file := by
    obtain ⟨create, hp⟩ := h.hprocs p
    simp [hp, Proc.new]
  hpublished := .inl h.hpublished

/-- One process has the lock at a time. -/
theorem Inv.alone {key : FileName} {w : World ι} (h : w.Inv key) {p q : ι}
    (hp : (w.procs p).locked.isSome) (hq : (w.procs q).locked.isSome) : p = q := by
  obtain ⟨file, hfile⟩ := Option.isSome_iff_exists.mp hp
  obtain ⟨file', hfile'⟩ := Option.isSome_iff_exists.mp hq
  have hsame : file = file' := Option.some.inj
    ((h.hlockFile p file hfile).symm.trans (h.hlockFile q file' hfile'))
  subst hsame
  exact Option.some.inj (((h.hlocks p file).mp hfile).symm.trans ((h.hlocks q file).mp hfile'))

variable [DecidableEq ι]

/-- What one call comes to: the load ends, the lock is taken, the key is published, or a call is
made that leaves the lock alone. -/
theorem step_cases {key : FileName} {w w' : World ι} {m : ι × Outcome}
    (h : step key w m = some w') :
    (∃ answer, ((w.procs m.1).phase = .leave answer ∨ answer = .error .killed) ∧
      w' = (w.unlock m.1).put m.1
        { w.procs m.1 with locked := none, phase := .done answer }) ∨
    (∃ file, (w.procs m.1).phase = .lock file ∧ w.locks file = none ∧
      w' = { w with
        locks := Function.update w.locks file (some m.1)
        procs := Function.update w.procs m.1
          { w.procs m.1 with locked := some file, phase := .look } }) ∨
    (∃ tmp secret, (w.procs m.1).phase = .rename tmp ∧ (w.procs m.1).secret = some secret ∧
      w' = { w with
        disk := w.disk.rename tmp key
        procs := Function.update w.procs m.1 ((w.procs m.1).next (.leave (.ok (some secret))))
        published := secret :: w.published }) ∨
    ∃ d' proc', call key w.disk (w.procs m.1) m.2 = some (d', proc') ∧
      w' = { w.put m.1 proc' with disk := d' } := by
  simp only [step] at h
  split at h
  · cases h
  · exact .inl ⟨_, .inr rfl, (Option.some.inj h).symm⟩
  · next answer hphase ho => exact .inl ⟨answer, .inl hphase, (Option.some.inj h).symm⟩
  · cases h
  · next file hphase ho =>
    split at h
    · next hfree => exact .inr (.inl ⟨file, hphase, hfree, (Option.some.inj h).symm⟩)
    · cases h
  · next tmp hphase ho =>
    split at h
    · next secret hsecret =>
      exact .inr (.inr (.inl ⟨tmp, secret, hphase, hsecret, (Option.some.inj h).symm⟩))
    · cases h
  · obtain ⟨⟨d', proc'⟩, hcall, hw⟩ := Option.map_eq_some_iff.mp h
    exact .inr (.inr (.inr ⟨d', proc', hcall, hw.symm⟩))

/-- A load that ends keeps the invariant. -/
theorem Inv.ends {key : FileName} {w : World ι} (h : w.Inv key) (me : ι) {answer : Answer}
    (hanswer : (w.procs me).phase = .leave answer ∨ answer = .error .killed) :
    ((w.unlock me).put me
      { w.procs me with locked := none, phase := .done answer }).Inv key := by
  refine ⟨fun p => ?_, fun p file => ?_, fun p file hp => ?_, h.hpublished⟩
  · by_cases hp : p = me
    · subst hp
      simp only [put, unlock, Function.update_self, Knows]
      rcases hanswer with hphase | rfl
      · have hknows := h.hknows p
        simpa [Knows, hphase] using hknows
      · simp
    · simpa [put, unlock, Function.update_of_ne hp] using h.hknows p
  · by_cases hp : p = me
    · subst hp
      simp [put, unlock, Option.filter_eq_some_iff]
    · simp [put, unlock, Option.filter_eq_some_iff, h.hlocks, hp]
  · by_cases hme : p = me
    · subst hme
      simp [put] at hp
    · exact h.hlockFile p file (by simpa [put, unlock, Function.update_of_ne hme] using hp)

/-- The lock, taken while no process has it, keeps the invariant. -/
theorem Inv.locking {key : FileName} {w : World ι} (h : w.Inv key) {me : ι} {file : ℕ}
    (hphase : (w.procs me).phase = .lock file) (hfree : w.locks file = none) :
    Inv key { w with
      locks := Function.update w.locks file (some me)
      procs := Function.update w.procs me
        { w.procs me with locked := some file, phase := .look } } := by
  have hname : w.disk.names lockName = some file := by
    have hknows := h.hknows me
    simpa [Knows, hphase] using hknows
  -- The lock's file is one, so whoever else has locked it holds this lock.
  have hnone : ∀ p file', (w.procs p).locked ≠ some file' := by
    intro p file' hp
    have hsame : file' = file := Option.some.inj ((h.hlockFile p file' hp).symm.trans hname)
    rw [h.hlocks, hsame, hfree] at hp
    cases hp
  have hfree' : ∀ p file', w.locks file' ≠ some p := fun p file' hp =>
    hnone p file' ((h.hlocks p file').mpr hp)
  refine ⟨fun p => ?_, fun p file' => ?_, fun p file' hp => ?_, h.hpublished⟩
  · by_cases hp : p = me
    · subst hp
      simp [Knows]
    · simpa [Function.update_of_ne hp] using h.hknows p
  · by_cases hp : p = me <;> by_cases hf : file' = file
    · subst hp hf
      simp
    · subst hp
      simpa [Function.update_of_ne hf, hfree'] using Ne.symm hf
    · subst hf
      simpa [Function.update_of_ne hp, hnone] using Ne.symm hp
    · simp [Function.update_of_ne hp, Function.update_of_ne hf, hnone, hfree']
  · by_cases hme : p = me
    · subst hme
      simp only [Function.update_self, Option.some.injEq] at hp
      exact hp ▸ hname
    · exact h.hlockFile p file' (by simpa [Function.update_of_ne hme] using hp)

/-- What a call keeps of the directory, the other processes know still. -/
theorem Inv.after {key : FileName} {w : World ι} (h : w.Inv key) {me : ι} {d' : Disk} {proc' : Proc}
    {published : List Key} (hknows : Knows key d' proc')
    (hlocked : proc'.locked = (w.procs me).locked) (hkey : Disk.Keeps key w.disk d')
    (hlock : Disk.Keeps lockName w.disk d')
    (hquiet : (w.procs me).locked = none → Quiet key w.disk d')
    (hpublished : published = [] ∨ ∃ k, published = [k] ∧ Holds key d' k) :
    Inv key ⟨d', w.locks, Function.update w.procs me proc', published⟩ := by
  refine ⟨fun p => ?_, fun p file => ?_, fun p file hp => ?_, hpublished⟩
  · by_cases hp : p = me
    · subst hp
      simpa using hknows
    · change Knows key d' (Function.update w.procs me proc' p)
      rw [Function.update_of_ne hp]
      refine (h.hknows p).others (h.hlockFile p) hkey hlock fun hsome => hquiet ?_
      by_contra hme
      exact hp (h.alone hsome (Option.isSome_iff_ne_none.mpr hme))
  · by_cases hp : p = me
    · subst hp
      simp [hlocked, h.hlocks]
    · simp [Function.update_of_ne hp, h.hlocks]
  · by_cases hme : p = me
    · subst hme
      simp only [Function.update_self, hlocked] at hp
      exact (hlock file (h.hlockFile p file hp)).1
    · simp only [Function.update_of_ne hme] at hp
      exact (hlock file (h.hlockFile p file hp)).1

/-- A key put at the path keeps the invariant: there was none. -/
theorem Inv.publishing {key : FileName} {w : World ι} (h : w.Inv key) {me : ι} {tmp : FileName}
    {secret : Key} (hphase : (w.procs me).phase = .rename tmp)
    (hsecret : (w.procs me).secret = some secret) :
    Disk.Keeps key w.disk (w.disk.rename tmp key) ∧
    Inv key { w with
      disk := w.disk.rename tmp key
      procs := Function.update w.procs me ((w.procs me).next (.leave (.ok (some secret))))
      published := secret :: w.published } ∧
    w.published = [] ∧ w.disk.names key = none ∧
    ∃ file, (w.disk.rename tmp key).names key = some file ∧
      (w.disk.rename tmp key).files file = .born secret := by
  have hknows := h.hknows me
  simp only [Knows, hphase] at hknows
  obtain ⟨⟨hlocked, habsent⟩, file, hdrafts⟩ := hknows
  obtain ⟨written, k, hfile, hsecret', hk⟩ := hdrafts.hfile
  obtain rfl : k = secret := Option.some.inj (hsecret'.symm.trans hsecret)
  obtain ⟨lock, hlock⟩ := Option.isSome_iff_exists.mp hlocked
  have hkeyNe : lockName ≠ key := by
    intro heq
    have hname := h.hlockFile me lock hlock
    rw [heq, habsent] at hname
    cases hname
  have hnew : (w.disk.rename tmp key).names key = some file := by
    simp [Disk.rename, hdrafts.hkey, Function.update_of_ne (Ne.symm hdrafts.hkey), hdrafts.hname]
  have hwhole : (w.disk.rename tmp key).files file = .born k.1 := by
    rw [← hk, List.append_nil]
    exact hfile
  have hholds : Holds key (w.disk.rename tmp key) k := ⟨file, hnew, by rw [hwhole]; rfl⟩
  have hnone : w.published = [] := by
    rcases h.hpublished with hnil | ⟨k', -, file', hname', -⟩
    · exact hnil
    · rw [habsent] at hname'
      cases hname'
  refine ⟨Disk.keeps_of_absent habsent, h.after ?_ rfl (Disk.keeps_of_absent habsent)
    (Disk.keeps_rename (Ne.symm hdrafts.hlock) hkeyNe) (fun hnone => ?_)
    (.inr ⟨k, by rw [hnone], hholds⟩), hnone, habsent, file, hnew, hwhole⟩
  · intro k' hk'
    cases hk'
    exact hholds
  · simp [hnone] at hlocked

/-- A call that leaves the lock alone keeps the invariant. -/
theorem Inv.calls {key : FileName} {w : World ι} (h : w.Inv key) {me : ι} {d' : Disk} {proc' : Proc}
    {o : Outcome} (hcall : call key w.disk (w.procs me) o = some (d', proc')) :
    Inv key { w.put me proc' with disk := d' } := by
  have hdid := call_did (h.hknows me) (h.hlockFile me) hcall
  refine h.after hdid.hknows hdid.hlocked hdid.hkey hdid.hlock hdid.hquiet ?_
  exact h.hpublished.imp_right fun ⟨k, hk, hholds⟩ => ⟨k, hk, hholds.keeps hdid.hkey⟩

/-- Every call keeps the invariant, and the file at the path. -/
theorem step_inv {key : FileName} {w w' : World ι} {m : ι × Outcome} (h : w.Inv key)
    (hstep : step key w m = some w') : w'.Inv key ∧ Disk.Keeps key w.disk w'.disk := by
  rcases step_cases hstep with ⟨answer, hanswer, rfl⟩ | ⟨file, hphase, hfree, rfl⟩ |
    ⟨tmp, secret, hphase, hsecret, rfl⟩ | ⟨d', proc', hcall, rfl⟩
  · exact ⟨h.ends m.1 hanswer, .refl _ _⟩
  · exact ⟨h.locking hphase hfree, .refl _ _⟩
  · obtain ⟨hkeeps, hinv, -⟩ := h.publishing hphase hsecret
    exact ⟨hinv, hkeeps⟩
  · exact ⟨h.calls hcall, (call_did (h.hknows m.1) (h.hlockFile m.1) hcall).hkey⟩

/-! ### A path with no file at the start -/

/-- Nothing is at the path, or the one key published is, or its name is the lock's. -/
def Clear (key : FileName) (w : World ι) : Prop :=
  (w.disk.names key = none ∧ w.published = []) ∨
    (∃ k file, w.published = [k] ∧ w.disk.names key = some file ∧
      w.disk.files file = .born k.1) ∨
    (w.published = [] ∧ LockMade key w.disk)

omit [DecidableEq ι] in
/-- The file at a path with none at the start is a private one. -/
theorem Clear.born {key : FileName} {w : World ι} (h : w.Clear key) {file : ℕ}
    (hname : w.disk.names key = some file) :
    ∃ bytes, w.disk.files file = .born bytes ∧ (bytes.length = keyLen ∨ key = lockName) := by
  rcases h with ⟨hnone, -⟩ | ⟨k, file', -, hname', hfile⟩ | ⟨-, hkey, file', hname', hfile⟩
  · rw [hnone] at hname
    cases hname
  · rw [hname'] at hname
    cases hname
    exact ⟨k.1, hfile, .inl k.2⟩
  · rw [hname'] at hname
    cases hname
    exact ⟨[], hfile, .inr hkey⟩

/-- Where nothing was there before, each step leaves only what was born here. -/
theorem Clear.step {key : FileName} {w w' : World ι} {m : ι × Outcome} (h : w.Clear key)
    (hinv : w.Inv key) (hstep : step key w m = some w') : w'.Clear key := by
  rcases step_cases hstep with ⟨answer, hanswer, rfl⟩ | ⟨file, hphase, hfree, rfl⟩ |
    ⟨tmp, secret, hphase, hsecret, rfl⟩ | ⟨d', proc', hcall, rfl⟩
  · exact h
  · exact h
  · obtain ⟨-, -, hnone, -, file, hname, hfile⟩ := hinv.publishing hphase hsecret
    exact .inr (.inl ⟨secret, file, by rw [hnone], hname, hfile⟩)
  · have hdid := call_did (hinv.hknows m.1) (hinv.hlockFile m.1) hcall
    rcases h with ⟨hnone, hpublished⟩ | ⟨k, file, hpublished, hname, hfile⟩ |
      ⟨hpublished, hkey, file, hname, hfile⟩
    · rcases hdid.hnew hnone with hnone' | hmade
      · exact .inl ⟨hnone', hpublished⟩
      · exact .inr (.inr ⟨hpublished, hmade⟩)
    · obtain ⟨hname', hsame⟩ := hdid.hkey file hname
      exact .inr (.inl ⟨k, file, hpublished, hname', (hfile ▸ hsame).born⟩)
    · obtain ⟨hname', hsame⟩ := hdid.hkey file hname
      exact .inr (.inr ⟨hpublished, hkey, file, hname', (hfile ▸ hsame).born⟩)

/-- No load blames the file at the path, but an empty lock's. -/
def Blameless (key : FileName) (proc : Proc) : Prop :=
  match proc.phase with
  | .tighten .key _ => False
  | .leave (.error e) | .done (.error e) => e ≠ .refused .key ∧ (e = .notAKey → key = lockName)
  | _ => True

/-- A file that the path leads to, of those a key's path with no file at the start leads to. -/
def BornAt (key : FileName) (d : Disk) : Prop :=
  ∀ file, d.names key = some file →
    ∃ bytes, d.files file = .born bytes ∧ (bytes.length = keyLen ∨ key = lockName)

theorem blameless_fails {key : FileName} (proc : Proc) {e : Error} (h : e ≠ .refused .key)
    (h' : e = .notAKey → key = lockName) : Blameless key (proc.fails e) := ⟨h, h'⟩

/-- To find a key is no fault. -/
theorem blameless_found {key : FileName} (proc : Proc) (r : Option Key) :
    Blameless key (proc.found r) := by
  cases r with
  | some k => trivial
  | none =>
    simp only [Proc.found]
    split
    · trivial
    · exact blameless_fails proc (by simp) (by simp)

/-- Nor is to open a file. -/
theorem blameless_opened {key : FileName} (proc : Proc) (which : Which) (file : ℕ) :
    Blameless key (proc.opened which file) := by
  cases which <;> trivial

/-- A file that was born here is not refused. -/
theorem blameless_refused {key : FileName} {d : Disk} (hborn : BornAt key d) (proc : Proc)
    {which : Which} {file : ℕ} (hname : d.names (which.name key) = some file)
    (hbad : ∀ bytes, d.files file ≠ .born bytes) : Blameless key (proc.fails (.refused which)) := by
  cases which with
  | key =>
    obtain ⟨bytes, hfile, -⟩ := hborn file hname
    exact absurd hfile (hbad bytes)
  | lock => exact blameless_fails proc (by simp) (by simp)

/-- A published key is whole. -/
theorem blameless_whole {key : FileName} {d : Disk} (hborn : BornAt key d) (proc : Proc)
    {file n : ℕ} {bytes : List UInt8} (hname : d.names key = some file)
    (hfrom : bytes <+: (d.files file).bytes) (hn : n ≠ 0)
    (hchunk : (((d.files file).bytes.drop bytes.length).take
      (keyLen + 1 - bytes.length)).take n = []) : Blameless key (proc.whole bytes) := by
  simp only [Proc.whole]
  split
  · exact blameless_found proc _
  · next hlen =>
    refine blameless_fails proc (by simp) fun _ => ?_
    obtain ⟨whole, hfile, hwhole | hlock⟩ := hborn file hname
    · -- The file is a whole key, so its end is not short of one.
      exfalso
      rw [hfile] at hfrom hchunk
      simp only [File.born] at hfrom hchunk
      have hle := hfrom.length_le
      have hshort := congrArg List.length hchunk
      simp only [List.length_take, List.length_drop, List.length_nil] at hshort
      omega
    · exact hlock

/-- A call that goes through is no fault. -/
theorem go_blameless {key : FileName} {d d' : Disk} {proc proc' : Proc} (hborn : BornAt key d)
    (hknows : Knows key d proc) (hcall : call key d proc .go = some (d', proc')) :
    Blameless key proc' := by
  cases hphase : proc.phase <;> simp only [Knows, hphase] at hknows <;>
    simp only [call, hphase] at hcall
  case existing => split at hcall <;> cases hcall <;> trivial
  case stat which =>
    split at hcall <;> cases hcall
    · next hbad =>
      obtain ⟨f, hf, hkind⟩ := (Option.any_eq_true _ _).mp hbad
      obtain ⟨file, hname, rfl⟩ := Option.map_eq_some_iff.mp hf
      refine blameless_refused hborn proc hname fun bytes hfile => ?_
      simp [hfile, File.born] at hkind
    · trivial
  case opens which =>
    split at hcall
    · next file hname =>
      split at hcall <;> cases hcall
      · next hlink =>
        refine blameless_refused hborn proc hname fun bytes hfile => ?_
        simp [hfile, File.born] at hlink
      · trivial
    · cases hcall
      exact blameless_found proc none
    · cases hcall
      trivial
  case check which file =>
    split at hcall
    · next hbad =>
      cases hcall
      refine blameless_refused hborn proc hknows fun bytes hfile => ?_
      simp [hfile, File.born, File.isOwn] at hbad
    · split at hcall <;> cases hcall
      · next hloose =>
        cases which with
        | key =>
          obtain ⟨bytes, hfile, -⟩ := hborn file hknows
          simp [hfile, File.born] at hloose
        | lock => trivial
      · exact blameless_opened proc which file
  case tighten which file =>
    cases hcall
    trivial
  case recheck which file =>
    split at hcall <;> cases hcall
    · next hloose =>
      refine blameless_refused hborn proc hknows fun bytes hfile => ?_
      simp [hfile, File.born] at hloose
    · exact blameless_opened proc which file
  case look => split at hcall <;> cases hcall <;> trivial
  case sync tmp =>
    cases hcall
    trivial
  case remove tmp =>
    cases hcall
    exact blameless_fails proc (by simp) (by simp)
  all_goals cases hcall

/-- Nor is any other. -/
theorem call_blameless {key : FileName} {d d' : Disk} {proc proc' : Proc} {o : Outcome}
    (hborn : BornAt key d) (hknows : Knows key d proc) (h : Blameless key proc)
    (hcall : call key d proc o = some (d', proc')) : Blameless key proc' := by
  cases o with
  | go => exact go_blameless hborn hknows hcall
  | fail =>
    cases hcall
    cases hphase : proc.phase <;> simp only [Proc.failed, hphase]
    case fail.refl.tighten which file =>
      cases which with
      | key => simp [Blameless, hphase] at h
      | lock => exact blameless_fails proc (by simp) (by simp)
    all_goals first | trivial | exact blameless_fails proc (by simp) (by simp)
  | ignored =>
    cases hphase : proc.phase <;> simp only [call, hphase] at hcall <;> cases hcall
    trivial
  | moves n =>
    cases hphase : proc.phase <;> simp only [call, hphase] at hcall
    case read file bytes =>
      simp only [Knows, hphase] at hknows
      split at hcall
      · cases hcall
      next hn =>
      split at hcall <;> cases hcall
      · next hchunk => exact blameless_whole hborn proc hknows.1 hknows.2 hn hchunk
      · trivial
    case write tmp file left =>
      split at hcall
      · cases hcall
      · split at hcall <;> cases hcall <;> trivial
    all_goals cases hcall
  | draws k =>
    cases hphase : proc.phase <;> simp only [call, hphase] at hcall <;> cases hcall
    trivial
  | picks pid r =>
    cases hphase : proc.phase <;> simp only [call, hphase] at hcall
    case make =>
      cases hsecret : proc.secret with
      | none => simp [hsecret] at hcall
      | some secret =>
        simp only [hsecret] at hcall
        split at hcall <;> cases hcall
        · exact h
        · trivial
    all_goals cases hcall
  | kill => cases hcall

/-- So no process is ever at fault. -/
theorem step_blameless {key : FileName} {w w' : World ι} {m : ι × Outcome} (hclear : w.Clear key)
    (hinv : w.Inv key) (h : ∀ p, Blameless key (w.procs p)) (hstep : step key w m = some w') :
    ∀ p, Blameless key (w'.procs p) := by
  have hput : ∀ proc, Blameless key proc →
      ∀ p, Blameless key (Function.update w.procs m.1 proc p) := by
    intro proc hproc p
    by_cases hp : p = m.1
    · rw [hp, Function.update_self]
      exact hproc
    · rw [Function.update_of_ne hp]
      exact h p
  rcases step_cases hstep with ⟨answer, hanswer, rfl⟩ | ⟨file, hphase, hfree, rfl⟩ |
    ⟨tmp, secret, hphase, hsecret, rfl⟩ | ⟨d', proc', hcall, rfl⟩
  · refine hput _ ?_
    rcases hanswer with hphase | rfl
    · have hme := h m.1
      simp only [Blameless, hphase] at hme
      cases answer with
      | ok r => trivial
      | error e => exact hme
    · simp [Blameless]
  · exact hput _ trivial
  · exact hput _ trivial
  · exact hput _ (call_blameless (fun _ => hclear.born) (hinv.hknows m.1) (h m.1) hcall)

/-! ### Whole runs -/

/-- A run keeps the invariant, and what the key's name holds. -/
theorem Inv.run {key : FileName} {w w' : World ι} (h : w.Inv key)
    (hrun : Reachable (step key) w w') : w'.Inv key ∧ Disk.Keeps key w.disk w'.disk := by
  refine hrun.invariant (fun v => v.Inv key ∧ Disk.Keeps key w.disk v.disk) ⟨h, .refl _ _⟩ ?_
  rintro v m v' ⟨hinv, hkeeps⟩ - hstep
  obtain ⟨hinv', hkeeps'⟩ := step_inv hinv hstep
  exact ⟨hinv', hkeeps.trans hkeeps'⟩

omit [DecidableEq ι] in
/-- No process is at fault before it begins. -/
theorem Start.blameless {key : FileName} {w : World ι} (h : w.Start) (p : ι) :
    Blameless key (w.procs p) := by
  obtain ⟨create, hp⟩ := h.hprocs p
  rw [hp]
  cases create <;> trivial

/-- A run from where nothing was leaves only what was born in it, and no process at fault. -/
theorem Start.clear_run {key : FileName} {w w' : World ι} (h : w.Start)
    (hnone : w.disk.names key = none) (hrun : Reachable (step key) w w') :
    w'.Clear key ∧ ∀ p, Blameless key (w'.procs p) := by
  have hall := hrun.invariant
    (fun v => v.Inv key ∧ v.Clear key ∧ ∀ p, Blameless key (v.procs p))
    ⟨h.inv, .inl ⟨hnone, h.hpublished⟩, h.blameless⟩ ?_
  · exact hall.2
  rintro v m v' ⟨hinv, hclear, hblame⟩ - hstep
  exact ⟨(step_inv hinv hstep).1, hclear.step hinv hstep, step_blameless hclear hinv hblame hstep⟩

/-- At one time the file at the path is all of one key. -/
theorem holds_unique {key : FileName} {d : Disk} {k k' : Key}
    (h : Holds key d k) (h' : Holds key d k') : k = k' := by
  obtain ⟨file, hname, hbytes⟩ := h
  obtain ⟨file', hname', hbytes'⟩ := h'
  obtain rfl : file = file' := Option.some.inj (hname.symm.trans hname')
  exact Subtype.ext (hbytes.symm.trans hbytes')

/-- However the calls of any number of processes interleave, one key at most is published, the
file at the path is never replaced, and every load that succeeds gives the whole key that is there,
and goes on being there. With nothing at the path at the start, whoever looks finds nothing or all
of the key published (where the path's name is not the lock's), and no load blames the file. -/
theorem racing_loads_agree {key : FileName} {w₀ w₁ w₂ : World ι} (h₀ : w₀.Start)
    (h₁ : Reachable (step key) w₀ w₁) (h₂ : Reachable (step key) w₁ w₂) :
    w₂.published.length ≤ 1 ∧ (∀ k ∈ w₂.published, Holds key w₂.disk k) ∧
      Disk.Keeps key w₁.disk w₂.disk ∧
      (∀ p k, (w₁.procs p).gave = some k →
        Holds key w₂.disk k ∧ ∀ k' ∈ w₂.published, k' = k) ∧
      (w₀.disk.names key = none → w₂.Clear key ∧
        ∀ p e, (w₂.procs p).phase = .done (.error e) →
          e ≠ .refused .key ∧ (e = .notAKey → key = lockName)) := by
  obtain ⟨hinv₁, -⟩ := (h₀.inv : w₀.Inv key).run h₁
  obtain ⟨hinv₂, hkeeps⟩ := hinv₁.run h₂
  have hpublished : ∀ k ∈ w₂.published, Holds key w₂.disk k := by
    rcases hinv₂.hpublished with hnil | ⟨k, hone, hholds⟩
    · simp [hnil]
    · simpa [hone] using hholds
  refine ⟨?_, hpublished, hkeeps, fun p k hp => ?_, fun hnone => ?_⟩
  · rcases hinv₂.hpublished with hnil | ⟨k, hone, -⟩
    · simp [hnil]
    · simp [hone]
  · have hknows := hinv₁.hknows p
    have hphase : (w₁.procs p).phase = .done (.ok (some k)) := by
      unfold Proc.gave at hp
      split at hp
      · next r hr => rw [hr, hp]
      · cases hp
    simp only [Knows, hphase] at hknows
    have hholds := (hknows k rfl).keeps hkeeps
    exact ⟨hholds, fun k' hk' => holds_unique (hpublished k' hk') hholds⟩
  · obtain ⟨hclear, hblame⟩ := h₀.clear_run hnone (h₁.trans h₂)
    refine ⟨hclear, fun p e hp => ?_⟩
    have hme := hblame p
    simpa only [Blameless, hp] using hme

def twoLoads : World Bool where
  disk := ⟨fun _ => none, fun _ => .born [], 0, by simp⟩
  locks _ := none
  procs _ := .new true
  published := []

/-- Both find no key and generate one; the first publishes its own, the second waits for the lock
and reads it. -/
def race : List (Bool × Outcome) :=
  let mine : Key := ⟨List.replicate 32 1, rfl⟩
  let other : Key := ⟨List.replicate 32 2, rfl⟩
  [(true, .go), (false, .go), (true, .go), (false, .go), (true, .draws mine), (false, .draws other),
    (true, .go), (true, .go), (true, .go), (true, .go), (false, .go), (false, .go), (false, .go),
    (true, .go), (true, .picks 7 5), (true, .moves 20), (true, .moves 12), (true, .go),
    (true, .go), (true, .go), (false, .go), (false, .go), (false, .go), (false, .go), (false, .go),
    (false, .moves 33), (false, .moves 33), (false, .go)]

/-- Two loads race, and both give the key of the one that published. -/
theorem racing_loads_agree_race : ∃ w, Reachable (step "id.key".toList) twoLoads w ∧
    (w.procs true).gave.map (·.1) = some (List.replicate 32 1) ∧
    (w.procs false).gave.map (·.1) = some (List.replicate 32 1) ∧
    (w.disk.stat "id.key".toList).map (·.bytes) = some (List.replicate 32 1) ∧
    w.published.length ≤ 1 := by
  have hrun : (runWhile (step "id.key".toList) (fun _ _ => True) twoLoads race).map
      (fun w => ((w.procs true).gave.map (·.1), (w.procs false).gave.map (·.1),
        (w.disk.stat "id.key".toList).map (·.bytes))) =
      some (some (List.replicate 32 1), some (List.replicate 32 1),
        some (List.replicate 32 1)) := by
    decide +kernel
  obtain ⟨w, hw, hall⟩ := Option.map_eq_some_iff.mp hrun
  have hreach := reaches_of_run hw
  have hstart : twoLoads.Start := ⟨fun _ => ⟨true, rfl⟩, fun _ => rfl, rfl⟩
  simp only [Prod.mk.injEq] at hall
  exact ⟨w, hreach, hall.1, hall.2.1, hall.2.2, (racing_loads_agree hstart hreach .refl).1⟩

end World

end Koh.Identity
