import Mathlib.Logic.Function.Basic
import Mathlib.Data.List.Basic

/-!
# A directory and the files in it

The names of one directory, each leading to a file by its number, and what the
calls that processes make change of it. A file goes on under its number when
its name goes, so whoever opened it reads it still.

## Main definitions

- `File`, `Disk`: a file, and a directory of files
- `Disk.create`, `Disk.write`, `Disk.rename`, `Disk.remove`: the calls
- `Disk.Keeps`: a name still leads to the same file, tightened at most

## Main results

- `Disk.keeps_create` and its siblings: which names a call leaves as they were
-/

namespace Koh.Lib

abbrev FileName := List Char

inductive FileKind where
  | regular
  | symlink
  | other
  deriving DecidableEq

structure File where
  kind : FileKind
  bytes : List UInt8
  /-- It is this user's. -/
  owned : Bool
  /-- How many names lead to it. -/
  links : ℕ
  /-- Its mode lets others at it. -/
  loose : Bool
  deriving DecidableEq

/-- A private file of this user's. -/
def File.born (bytes : List UInt8) : File := ⟨.regular, bytes, true, 1, false⟩

structure Disk where
  names : FileName → Option ℕ
  files : ℕ → File
  next : ℕ
  hnext : ∀ name i, names name = some i → i < next

namespace Disk

/-- `symlink_metadata`: the file a name leads to. -/
def stat (d : Disk) (name : FileName) : Option File := (d.names name).map d.files

/-- `open` of an absent name with `create` or `create_new`, and mode 0600. -/
def create (d : Disk) (name : FileName) : Disk where
  names := Function.update d.names name (some d.next)
  files := Function.update d.files d.next (.born [])
  next := d.next + 1
  hnext := by
    intro n i h
    by_cases hn : n = name
    · subst hn
      simp only [Function.update_self, Option.some.injEq] at h
      omega
    · rw [Function.update_of_ne hn] at h
      exact Nat.lt_succ_of_lt (d.hnext n i h)

def set (d : Disk) (i : ℕ) (f : File) : Disk := { d with files := Function.update d.files i f }

/-- `write`: bytes at the end of a file. -/
def write (d : Disk) (i : ℕ) (bytes : List UInt8) : Disk :=
  d.set i { d.files i with bytes := (d.files i).bytes ++ bytes }

/-- `set_permissions`, to 0600. -/
def tighten (d : Disk) (i : ℕ) : Disk := d.set i { d.files i with loose := false }

/-- `rename`: `target` leads where `source` did, whatever it led to. -/
def rename (d : Disk) (source target : FileName) : Disk where
  names := if source = target then d.names
    else Function.update (Function.update d.names target (d.names source)) source none
  files := d.files
  next := d.next
  hnext := by
    intro n i h
    split at h
    · exact d.hnext n i h
    · by_cases hs : n = source
      · subst hs
        simp at h
      · rw [Function.update_of_ne hs] at h
        by_cases ht : n = target
        · subst ht
          exact d.hnext source i (by simpa using h)
        · rw [Function.update_of_ne ht] at h
          exact d.hnext n i h

def remove (d : Disk) (name : FileName) : Disk where
  names := Function.update d.names name none
  files := d.files
  next := d.next
  hnext := by
    intro n i h
    by_cases hn : n = name
    · subst hn
      simp at h
    · exact d.hnext n i (by simpa [Function.update_of_ne hn] using h)

/-! ### What a call leaves as it was -/

/-- A file, or the same file tightened. -/
def Same (f f' : File) : Prop := f' = f ∨ f' = { f with loose := false }

/-- What `name` leads to in `d`, it leads to in `d'`, the file the same or tightened. -/
def Keeps (name : FileName) (d d' : Disk) : Prop :=
  ∀ i, d.names name = some i → d'.names name = some i ∧ Same (d.files i) (d'.files i)

theorem Same.bytes {f f' : File} (h : Same f f') : f'.bytes = f.bytes := by
  rcases h with rfl | rfl <;> rfl

/-- What looks like a file that was born is one. -/
theorem Same.born {bytes : List UInt8} {f : File} (h : Same (.born bytes) f) : f = .born bytes := by
  rcases h with rfl | rfl <;> rfl

theorem Same.trans {f f' f'' : File} (h : Same f f') (h' : Same f' f'') : Same f f'' := by
  rcases h with rfl | rfl <;> rcases h' with rfl | rfl <;> simp [Same]

theorem Keeps.refl (name : FileName) (d : Disk) : Keeps name d d := fun _ h => ⟨h, .inl rfl⟩

/-- What is kept twice is kept. -/
theorem Keeps.trans {name : FileName} {d d' d'' : Disk} (h : Keeps name d d')
    (h' : Keeps name d' d'') : Keeps name d d'' := by
  intro i hi
  obtain ⟨hname, hsame⟩ := h i hi
  obtain ⟨hname', hsame'⟩ := h' i hname
  exact ⟨hname', hsame.trans hsame'⟩

/-- A name that has no file has nothing to keep. -/
theorem keeps_of_absent {name : FileName} {d d' : Disk} (h : d.names name = none) :
    Keeps name d d' := by
  intro i hi
  rw [h] at hi
  cases hi

/-- A file is created under a free name. -/
theorem keeps_create {name created : FileName} {d : Disk} (h : d.names created = none) :
    Keeps name d (d.create created) := by
  intro i hi
  have hname : name ≠ created := by
    rintro rfl
    rw [h] at hi
    cases hi
  have hfile : i ≠ d.next := Nat.ne_of_lt (d.hnext name i hi)
  simp [create, Function.update_of_ne hname, Function.update_of_ne hfile, hi, Same]

/-- A write to another's file. -/
theorem keeps_write {name : FileName} {d : Disk} {i : ℕ} (bytes : List UInt8)
    (h : d.names name ≠ some i) : Keeps name d (d.write i bytes) := by
  intro j hj
  have hne : j ≠ i := by
    rintro rfl
    exact h hj
  simp [write, set, Function.update_of_ne hne, hj, Same]

/-- A mode is no part of what a name holds. -/
theorem keeps_tighten {name : FileName} {d : Disk} (i : ℕ) : Keeps name d (d.tighten i) := by
  intro j hj
  refine ⟨hj, ?_⟩
  by_cases hne : j = i
  · subst hne
    simp [tighten, set, Same]
  · simp [tighten, set, Function.update_of_ne hne, Same]

/-- A rename of other names. -/
theorem keeps_rename {name source target : FileName} {d : Disk} (hsource : name ≠ source)
    (htarget : name ≠ target) : Keeps name d (d.rename source target) := by
  intro i hi
  refine ⟨?_, .inl rfl⟩
  simp only [rename]
  split
  · exact hi
  · simp [Function.update_of_ne hsource, Function.update_of_ne htarget, hi]

/-- Another name is removed. -/
theorem keeps_remove {name removed : FileName} {d : Disk} (h : name ≠ removed) :
    Keeps name d (d.remove removed) := by
  intro i hi
  simp [remove, Function.update_of_ne h, hi, Same]

end Disk

end Koh.Lib
