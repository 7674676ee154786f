import Koh.Lib.Wp
import Koh.Identity.KeyFile
import Koh.Saved.Kept
import Koh.Wire.Answer

/-!
# A list beside the key

`read_beside` and `update_beside` from `identity/key_file.rs`: a file beside the key is read with
what a private file must be, and replaced whole by what a change makes of it.

## Main definitions

- `readBeside`, `updateBeside`: a file read, and changed
- `Publishes`: an update that is accepted and published
- `Readable`: a file is read, or is absent
- `Event`, `after`: uses of the directory, one after another

## Main results

- `update_reads_iff`: exactly what is within the limit is read again

## Design notes

The directory is locked throughout an update, so updates are whole events here; what another reader
makes of a file while it is replaced is the old file or the new one. `Outside` is what is up to the
calls: which fail, the names that are drawn, and how much is written before a write fails.
-/

namespace Koh.Saved

open Koh.Lib
open Koh.Identity (lockName tmpName)

/-- The list's file, beside its key. -/
def ListKind.file : ListKind → FileName
  | .servers => ['s', 'e', 'r', 'v', 'e', 'r', 's']
  | .clients => ['c', 'l', 'i', 'e', 'n', 't', 's']

def besideLimit : ℕ := 1024 * 1024

inductive Unfit where
  | notPlain
  | notRegular
  | foreign
  | linked (names : ℕ)
  | untightened
  | staysLoose
  | tooLarge
  | notUtf8
  deriving DecidableEq

inductive SetupError where
  | notFound
  | io
  | refused (why : Unfit)
  deriving DecidableEq

inductive Call where
  | stat
  | opens
  | chmod
  | lock
  | read
  | make
  | write
  | sync
  | rename
  | remove
  deriving DecidableEq

structure Outside where
  /-- Which calls fail, on which names. -/
  fails : Call → FileName → Bool
  /-- A filesystem that ignores modes. -/
  ignores : Bool
  pid : ℕ
  /-- What `getrandom` gives, until it fails. -/
  draws : List UInt64
  /-- How many bytes a write that fails has written. -/
  cut : ℕ

structure Outside.Calm (o : Outside) : Prop where
  works : ∀ call name, o.fails call name = false
  keeps : o.ignores = false

abbrev Calls (α : Type) := EStateM SetupError Disk α

variable {α ε : Type}

/-- A call, if it does not fail. -/
def Outside.may (o : Outside) (call : Call) (name : FileName) : Calls Unit :=
  onlyIf (o.fails call name = true) (throw .io)

/-- `None` for a file that is not there. -/
def ifFound (x : Calls α) : Calls (Option α) := fun d =>
  match x d with
  | .ok a d => .ok (some a) d
  | .error .notFound d => .ok none d
  | .error e d => .error e d

/-! ### A private file -/

/-- `check_owned`, and the link count. -/
def unfit (f : File) : Option Unfit :=
  if f.kind ≠ .regular then some .notRegular
  else if f.owned = false then some .foreign
  else if f.links ≠ 1 then some (.linked f.links)
  else none

def checkPrivate (o : Outside) (name : FileName) (file : ℕ) : Calls Unit := do
  o.may .stat name
  let d ← get
  match unfit (d.files file) with
  | some why => throw (.refused why)
  | none =>
    onlyIf ((d.files file).loose = true) (
      if o.fails .chmod name = true then throw (.refused .untightened)
      else if o.ignores = true then throw (.refused .staysLoose)
      else modify (·.tighten file))

/-- The file that `name` leads to, made if `create` and there is none. -/
def openPrivate (o : Outside) (create : Bool) (name : FileName) : Calls ℕ := do
  o.may .stat name
  let d ← get
  onlyIf ((d.stat name).any (·.kind ≠ .regular) = true) (throw (.refused .notRegular))
  o.may .opens name
  match d.names name, create with
  | some file, _ => do
    checkPrivate o name file
    pure file
  | none, true => do
    set (d.create name)
    checkPrivate o name d.next
    pure d.next
  | none, false => throw .notFound

/-- `name`'s path in the key's directory: a plain file name, never a path. -/
def beside (name : FileName) : Calls FileName :=
  if name = [] ∨ name = ['.'] ∨ name = ['.', '.'] ∨ '/' ∈ name then throw (.refused .notPlain)
  else pure name

def readText (o : Outside) (path : FileName) (file : ℕ) : Calls Text := do
  o.may .read path
  let d ← get
  -- One byte past the limit is read, so a file that is too large is told without all of it.
  let bytes := (d.files file).bytes.take (besideLimit + 1)
  if besideLimit < bytes.length then throw (.refused .tooLarge)
  else
    match Wire.fromUtf8 bytes with
    | some text => pure text
    | none => throw (.refused .notUtf8)

def readBeside (o : Outside) (name : FileName) : Calls (Option Text) := do
  let path ← beside name
  match ← ifFound (openPrivate o false path) with
  | none => pure none
  | some file => some <$> readText o path file

/-! ### Its replacement -/

def lockDir (o : Outside) : Calls Unit := do
  let _ ← openPrivate o true lockName
  o.may .lock lockName

/-- `publish` draws a name that is free, and makes the file. -/
def drawn (o : Outside) (target : FileName) : List UInt64 → Calls (FileName × ℕ)
  | [] => throw .io
  | r :: draws => do
    let d ← get
    if d.names (tmpName target o.pid r) ≠ none then drawn o target draws
    else do
      o.may .make (tmpName target o.pid r)
      set (d.create (tmpName target o.pid r))
      pure (tmpName target o.pid r, d.next)

/-- The file that was made is written, and renamed. -/
def written (o : Outside) (tmp target : FileName) (file : ℕ) (bytes : List UInt8) : Calls Unit := do
  if o.fails .write tmp = true then do
    modify (·.write file (bytes.take o.cut))
    throw .io
  else do
    modify (·.write file bytes)
    o.may .sync tmp
    o.may .rename tmp
    modify (·.rename tmp target)

/-- The temporary file goes, if `x` fails. -/
def orRemove (o : Outside) (tmp : FileName) (x : Calls Unit) : Calls Unit := fun d =>
  match x d with
  | .ok () d => .ok () d
  | .error e d => .error e (if o.fails .remove tmp = true then d else d.remove tmp)

def publish (o : Outside) (target : FileName) (bytes : List UInt8) : Calls Unit := do
  let (tmp, file) ← drawn o target o.draws
  orRemove o tmp (written o tmp target file bytes)

inductive BesideError (ε : Type) where
  | setup (e : SetupError)
  | change (e : ε)

def setup (x : Calls α) : EStateM (BesideError ε) Disk α := fun d =>
  match x d with
  | .ok a d => .ok a d
  | .error e d => .error (.setup e) d

/-- The file beside the key is replaced with what `change` makes of it, if it makes anything. -/
def updateBeside (o : Outside) (name : FileName)
    (change : Option Text → Except ε (Option Text)) : EStateM (BesideError ε) Disk Unit := do
  setup (lockDir o)
  let found ← setup (readBeside o name)
  match change found with
  | .error e => throw (.change e)
  | .ok none => pure ()
  | .ok (some text) => setup (beside name >>= fun path => publish o path (Stream.encode text))

/-- `names::update`'s change of a list's file. -/
def Op.change {Id Url : Type} [DecidableEq Id] (crates : Crates Id Url) (shown : Text)
    (list : ListKind) (op : Op Id Url) (text : Option Text) :
    Except (UpdateError Id) (Option Text) :=
  (update crates shown list (op.run crates) text).map fun out => some out.2

/-- An update is accepted, and publishes `text`. -/
def Publishes (o : Outside) (name : FileName) (change : Option Text → Except ε (Option Text))
    (d : Disk) (text : Text) (d' : Disk) : Prop :=
  ∃ found d₁, (lockDir o >>= fun _ => readBeside o name) d = .ok found d₁ ∧
    change found = .ok (some text) ∧ updateBeside o name change d = .ok () d'

/-! ### Uses of the directory -/

inductive Event (ε : Type) where
  | update (o : Outside) (name : FileName) (change : Option Text → Except ε (Option Text))
  | read (o : Outside) (name : FileName)

/-- The directory that a program leaves, however it ends. -/
def left {β : Type} (x : EStateM β Disk α) (d : Disk) : Disk :=
  match x d with
  | .ok _ d => d
  | .error _ d => d

/-- What a call leaves is what its postcondition says, whether it fails or not. -/
theorem left_of_wp {β : Type} {x : EStateM β Disk α} {P : Disk → Prop} {d : Disk}
    (h : wp x (fun _ => P) (fun _ => P) d) : P (left x d) := by
  rw [wp] at h
  rw [left]
  cases hx : x d <;> rwa [hx] at h

def Event.run (d : Disk) : Event ε → Disk
  | .update o name change => left (updateBeside o name change) d
  | .read o name => left (readBeside o name) d

def after (events : List (Event ε)) (d : Disk) : Disk := events.foldl Event.run d

/-- What an event publishes as `name` is within the limit. -/
def Event.Within (name : FileName) (d : Disk) : Event ε → Prop
  | .update o path change => ∀ text d', path = name → Publishes o path change d text d' →
      (Stream.encode text).length ≤ besideLimit
  | .read _ _ => True

/-- All that the events publish as `name` is within the limit. -/
def Within (name : FileName) : List (Event ε) → Disk → Prop
  | [], _ => True
  | event :: events, d => event.Within name d ∧ Within name events (event.run d)

/-- The file is read, or is absent, as long as no call fails. -/
def Readable (name : FileName) (d : Disk) : Prop :=
  ∃ found, ∀ o : Outside, o.Calm → ∃ d', readBeside o name d = .ok found d'

/-! ### Rules of the programs -/

variable {o : Outside} {name path target tmp : FileName} {d d₀ d' : Disk} {file : ℕ}
  {bytes : List UInt8}

/-- A call may fail, and does nothing then. -/
@[simp] theorem wp_may {Q : Unit → Disk → Prop} {E : SetupError → Disk → Prop} (call : Call) :
    wp (o.may call name) Q E d ↔
      (o.fails call name = true → E .io d) ∧ (¬ o.fails call name = true → Q () d) := by
  rw [Outside.may, wp_onlyIf, wp_throw]

/-- Where calls do not fail, it is made. -/
theorem wp_may_calm {Q : Unit → Disk → Prop} {E : SetupError → Disk → Prop} (ho : o.Calm)
    (call : Call) : wp (o.may call name) Q E d ↔ Q () d := by
  rw [wp_may, ho.works]
  simp

/-- A file that is not there is no failure. -/
@[simp] theorem wp_ifFound {Q : Option α → Disk → Prop} {E : SetupError → Disk → Prop}
    (x : Calls α) : wp (ifFound x) Q E d ↔
      wp x (fun a => Q (some a)) (fun e t => if e = .notFound then Q none t else E e t) d := by
  simp only [wp, ifFound]
  cases x d with
  | ok a t => rfl
  | error e t => cases e <;> simp

/-- What fails removes the draft. -/
@[simp] theorem wp_orRemove {Q : Unit → Disk → Prop} {E : SetupError → Disk → Prop}
    (x : Calls Unit) : wp (orRemove o tmp x) Q E d ↔
      wp x Q (fun e t => E e (if o.fails .remove tmp = true then t else t.remove tmp)) d := by
  simp only [wp, orRemove]
  cases x d <;> rfl

/-- A failure of the setup's. -/
@[simp] theorem wp_setup {Q : α → Disk → Prop} {E : BesideError ε → Disk → Prop} (x : Calls α) :
    wp (setup x) Q E d ↔ wp x Q (fun e => E (.setup e)) d := by
  simp only [wp, setup]
  cases x d <;> rfl

/-! ### What is left as it was -/

/-- `name` leads where it did, if anywhere, and the file is the same or tightened. -/
structure Untouched (name : FileName) (d d' : Disk) : Prop where
  names : d'.names name = d.names name
  file : d.Keeps name d'

namespace Untouched

theorem refl (name : FileName) (d : Disk) : Untouched name d d := ⟨rfl, .refl name d⟩

/-- Two calls leave it untouched that both do. -/
theorem trans {d'' : Disk} (h : Untouched name d d') (h' : Untouched name d' d'') :
    Untouched name d d'' := ⟨h'.names.trans h.names, h.file.trans h'.file⟩

theorem create (hname : name ≠ path) (hfree : d.names path = none) :
    Untouched name d (d.create path) :=
  ⟨Function.update_of_ne hname _ _, Disk.keeps_create hfree⟩

theorem tighten (file : ℕ) : Untouched name d (d.tighten file) := ⟨rfl, Disk.keeps_tighten file⟩

theorem write (h : d.names name ≠ some file) (bytes : List UInt8) :
    Untouched name d (d.write file bytes) := ⟨rfl, Disk.keeps_write bytes h⟩

theorem rename (hsource : name ≠ tmp) (htarget : name ≠ target) :
    Untouched name d (d.rename tmp target) where
  names := by
    simp only [Disk.rename]
    split
    · rfl
    · rw [Function.update_of_ne hsource, Function.update_of_ne htarget]
  file := Disk.keeps_rename hsource htarget

theorem remove (hname : name ≠ tmp) : Untouched name d (d.remove tmp) :=
  ⟨Function.update_of_ne hname _ _, Disk.keeps_remove hname⟩

end Untouched

/-- The names of files that are not the calls' own. -/
theorem ne_of_dotless (h : '.' ∉ name) : name ≠ lockName ∧ ∀ target pid r,
    name ≠ tmpName target pid r := by
  refine ⟨?_, ?_⟩
  · rintro rfl
    exact h (by decide)
  · rintro target pid r rfl
    exact h (by simp [tmpName, Koh.Identity.withExtension])

/-- Looking at a file leaves others untouched. -/
theorem keeps_checkPrivate (path : FileName) (file : ℕ) :
    Keeps (Untouched name d₀) (checkPrivate o path file) := by
  refine .bind (.onlyIf fun _ => .throw _) fun _ => .get_bind fun d hd => ?_
  cases unfit (d.files file) with
  | some why => exact .throw _
  | none =>
    refine .onlyIf fun _ => .ite (.throw _) (.ite (.throw _) (.modify fun t ht => ?_))
    exact ht.trans (.tighten file)

/-- So does opening it, unless it is the one created. -/
theorem keeps_openPrivate {create : Bool} (h : create = true → name ≠ path) :
    Keeps (Untouched name d₀) (openPrivate o create path) := by
  refine .bind (.onlyIf fun _ => .throw _) fun _ => .get_bind fun d hd => ?_
  refine .bind (.onlyIf fun _ => .throw _) fun _ => .bind (.onlyIf fun _ => .throw _) fun _ => ?_
  cases hpath : d.names path with
  | some file => exact .bind (keeps_checkPrivate path file) fun _ => .pure _
  | none =>
    cases create with
    | true =>
      refine .bind (.set (hd.trans (.create (h rfl) hpath))) fun _ => ?_
      exact .bind (keeps_checkPrivate path d.next) fun _ => .pure _
    | false => exact .throw _

/-- So does the lock. -/
theorem keeps_lockDir (h : name ≠ lockName) : Keeps (Untouched name d₀) (lockDir o) :=
  .bind (keeps_openPrivate fun _ => h) fun _ => .onlyIf fun _ => .throw _

theorem keeps_beside (path : FileName) : Keeps (Untouched name d₀) (beside path) :=
  .ite (.throw _) (.pure _)

theorem keeps_ifFound {P : Disk → Prop} {x : Calls α} (hx : Keeps P x) : Keeps P (ifFound x) := by
  intro d hd
  rw [wp_ifFound]
  refine wp_mono (hx d hd) (fun _ _ h => h) fun e t ht => ?_
  split <;> exact ht

/-- So does a read. -/
theorem keeps_readBeside (path : FileName) : Keeps (Untouched name d₀) (readBeside o path) := by
  refine .bind (keeps_beside path) fun path => ?_
  refine .bind (keeps_ifFound (keeps_openPrivate fun h => by cases h)) fun found => ?_
  cases found with
  | none => exact .pure _
  | some file =>
    refine .map (.bind (.onlyIf fun _ => .throw _) fun _ => .get_bind fun d hd => ?_) some
    refine .ite (.throw _) ?_
    cases Wire.fromUtf8 ((d.files file).bytes.take (besideLimit + 1)) with
    | none => exact .throw _
    | some text => exact .pure _

/-! ### What is published -/

/-- `name` leads to a private file of these bytes. -/
def Holds (name : FileName) (bytes : List UInt8) (d : Disk) : Prop :=
  ∃ file, d.names name = some file ∧ d.files file = .born bytes

/-- A draft is made under a free name of its own. -/
theorem drawn_spec (target : FileName) (draws : List UInt64) :
    wp (drawn o target draws)
      (fun made d' => (∃ r, made = (tmpName target o.pid r, d.next)) ∧ d.names made.1 = none ∧
        d' = d.create made.1)
      (fun _ d' => d' = d) d := by
  induction draws with
  | nil => exact rfl
  | cons r draws ih =>
    rw [drawn, wp_bind, wp_get, wp_ite]
    refine ⟨fun _ => ih, fun hfree => ?_⟩
    rw [wp_bind, wp_may]
    exact ⟨fun _ => rfl, fun _ => ⟨⟨r, rfl⟩, not_not.mp hfree, rfl⟩⟩

/-- A file made and renamed holds what was written; what fails leaves no name but the temporary
one. -/
theorem written_spec (htmp : d.names tmp = some file) (hfile : d.files file = .born [])
    (bytes : List UInt8) :
    wp (written o tmp target file bytes)
      (fun _ d' => Holds target bytes d' ∧ ∀ name, name ≠ tmp → name ≠ target →
        d.names name ≠ some file → Untouched name d d')
      (fun _ d' => ∀ name, name ≠ tmp → d.names name ≠ some file → Untouched name d d') d := by
  rw [written, wp_ite, wp_bind, wp_modify, wp_throw, wp_bind, wp_modify]
  refine ⟨fun _ name _ hname => .write hname _, fun _ => ?_⟩
  simp only [wp_bind, wp_may, wp_modify]
  refine ⟨fun _ name _ hname => .write hname _, fun _ => ⟨fun _ name _ hname => .write hname _,
    fun _ => ⟨⟨file, ?_, ?_⟩, fun name hsource htarget hname => ?_⟩⟩⟩
  · by_cases hsame : tmp = target
    · simp [Disk.rename, Disk.write, Disk.set, ← hsame, htmp]
    · simp [Disk.rename, Disk.write, Disk.set, hsame, Function.update_of_ne (Ne.symm hsame), htmp]
  · simp [Disk.rename, Disk.write, Disk.set, hfile, File.born]
  · exact (Untouched.write hname bytes).trans (.rename hsource htarget)

/-- What is published is held under its name, and no other of its kind is touched; a failure touches
none. -/
theorem publish_spec (target : FileName) (bytes : List UInt8) :
    wp (publish o target bytes)
      (fun _ d' => Holds target bytes d' ∧
        ∀ name, '.' ∉ name → name ≠ target → Untouched name d d')
      (fun _ d' => ∀ name, '.' ∉ name → Untouched name d d') d := by
  rw [publish, wp_bind]
  refine wp_mono (drawn_spec target o.draws) ?_ ?_
  · rintro ⟨tmp, file⟩ d₁ ⟨⟨r, hmade⟩, hfree, rfl⟩
    obtain ⟨rfl, rfl⟩ := Prod.mk.inj hmade
    have hnew : ∀ name, d.names name ≠ some d.next := fun name h =>
      absurd (d.hnext name _ h) (Nat.lt_irrefl _)
    have hmade : ∀ name, '.' ∉ name → name ≠ tmpName target o.pid r ∧
        Untouched name d (d.create (tmpName target o.pid r)) ∧
        (d.create (tmpName target o.pid r)).names name ≠ some d.next := by
      intro name hname
      have hne := (ne_of_dotless hname).2 target o.pid r
      have hcreate : Untouched name d (d.create (tmpName target o.pid r)) := .create hne hfree
      exact ⟨hne, hcreate, by rw [hcreate.names]; exact hnew name⟩
    have htmp : (d.create (tmpName target o.pid r)).names (tmpName target o.pid r) =
        some d.next := Function.update_self _ _ _
    have hfile : (d.create (tmpName target o.pid r)).files d.next = .born [] :=
      Function.update_self _ _ _
    rw [wp_orRemove]
    refine wp_mono (written_spec htmp hfile bytes) ?_ ?_
    · rintro - d' ⟨hholds, hrest⟩
      refine ⟨hholds, fun name hname htarget => ?_⟩
      obtain ⟨hne, hcreate, hother⟩ := hmade name hname
      exact hcreate.trans (hrest name hne htarget hother)
    · intro e d' hrest name hname
      obtain ⟨hne, hcreate, hother⟩ := hmade name hname
      have hwritten : Untouched name d d' := hcreate.trans (hrest name hne hother)
      split
      · exact hwritten
      · exact hwritten.trans (.remove hne)
  · rintro e d₁ rfl name -
    exact .refl name d₁

/-! ### What is read -/

/-- What is at `name`, if anything, is a private file of text within the limit. -/
def Fine (name : FileName) (d : Disk) : Prop :=
  ∀ file, d.names name = some file → unfit (d.files file) = none ∧
    (d.files file).bytes.length ≤ besideLimit ∧ (Wire.fromUtf8 (d.files file).bytes).isSome

theorem unfit_same {f f' : File} (h : Disk.Same f f') : unfit f' = unfit f := by
  rcases h with rfl | rfl <;> rfl

/-- What is not touched is as fit as it was. -/
theorem Untouched.fine_iff (h : Untouched name d d') : Fine name d' ↔ Fine name d := by
  refine forall_congr' fun file => ?_
  rw [h.names]
  refine imp_congr_right fun hname => ?_
  have hsame := (h.file file hname).2
  rw [unfit_same hsame, hsame.bytes]

/-- A text that is held is fit if it is short enough. -/
theorem Holds.fine_iff {text : Text} (h : Holds name (Stream.encode text) d) :
    Fine name d ↔ (Stream.encode text).length ≤ besideLimit := by
  obtain ⟨file, hname, hfile⟩ := h
  refine ⟨fun hfine => ?_, fun hlength found hfound => ?_⟩
  · have hlength := (hfine file hname).2.1
    rwa [hfile] at hlength
  · obtain rfl := Option.some.inj (hname.symm.trans hfound)
    rw [hfile]
    refine ⟨rfl, hlength, ?_⟩
    rw [File.born, Wire.fromUtf8_encode]
    rfl

/-- What is within the most is all of it. -/
theorem take_of_within (h : ¬ besideLimit < (bytes.take (besideLimit + 1)).length) :
    bytes.take (besideLimit + 1) = bytes ∧ bytes.length ≤ besideLimit := by
  rw [List.length_take] at h
  have hlength : bytes.length ≤ besideLimit := by omega
  exact ⟨List.take_of_length_le (by omega), hlength⟩

/-- What is checked is a private file. -/
theorem checkPrivate_spec (path : FileName) (file : ℕ) :
    wp (checkPrivate o path file)
      (fun _ d' => unfit (d.files file) = none ∧ Disk.Same (d.files file) (d'.files file))
      (fun e _ => e ≠ .notFound) d := by
  rw [checkPrivate, wp_bind, wp_may]
  refine ⟨fun _ => by simp, fun _ => ?_⟩
  rw [wp_bind, wp_get]
  cases hfile : unfit (d.files file) with
  | some why => simp
  | none =>
    simp only [wp_onlyIf, wp_ite, wp_throw, wp_modify]
    refine ⟨fun _ => ⟨fun _ => by simp, fun _ => ⟨fun _ => by simp, fun _ => ⟨trivial, .inr ?_⟩⟩⟩,
      fun _ => ⟨trivial, .inl rfl⟩⟩
    simp [Disk.tighten, Disk.set]

/-- A file that is opened is a private one. -/
theorem openPrivate_spec : wp (openPrivate o false path)
    (fun file d' => d.names path = some file ∧ unfit (d.files file) = none ∧
      Disk.Same (d.files file) (d'.files file))
    (fun e _ => e = .notFound → d.names path = none) d := by
  rw [openPrivate]
  simp only [wp_bind, wp_may, wp_get, wp_onlyIf, wp_throw]
  refine ⟨fun _ => by simp, fun _ => ⟨fun _ => by simp, fun _ => ⟨fun _ => by simp, fun _ => ?_⟩⟩⟩
  cases hpath : d.names path with
  | none => exact fun _ => rfl
  | some file =>
    simp only [wp_bind, wp_pure]
    refine wp_mono (checkPrivate_spec path file) (fun _ d' h => ⟨trivial, h⟩) fun e _ he => ?_
    exact fun heq => absurd heq he

/-- What is read is all of the file, and text. -/
theorem readText_spec (path : FileName) (file : ℕ) : wp (readText o path file)
    (fun text _ => (d.files file).bytes.length ≤ besideLimit ∧
      Wire.fromUtf8 (d.files file).bytes = some text)
    (fun _ _ => True) d := by
  rw [readText]
  simp only [wp_bind, wp_may, wp_get, wp_ite, wp_throw]
  refine ⟨fun _ => trivial, fun _ => ⟨fun _ => trivial, fun hwithin => ?_⟩⟩
  obtain ⟨hwhole, hlength⟩ := take_of_within hwithin
  rw [hwhole]
  cases htext : Wire.fromUtf8 (d.files file).bytes with
  | none => exact trivial
  | some text => exact ⟨hlength, rfl⟩

/-- Whatever is up to the calls, what is read is fine. -/
theorem readBeside_spec : wp (readBeside o name) (fun _ _ => Fine name d) (fun _ _ => True) d := by
  rw [readBeside, wp_bind, beside, wp_ite]
  refine ⟨fun _ => trivial, fun _ => ?_⟩
  rw [wp_pure, wp_bind, wp_ifFound]
  refine wp_mono openPrivate_spec ?_ ?_
  · rintro file d₁ ⟨hname, hunfit, hsame⟩
    rw [wp_map]
    refine wp_mono (readText_spec name file) ?_ fun _ _ _ => trivial
    rintro text - ⟨hlength, htext⟩ found hfound
    obtain rfl := Option.some.inj (hname.symm.trans hfound)
    rw [hsame.bytes] at hlength htext
    exact ⟨hunfit, hlength, by rw [htext]; rfl⟩
  · intro e d₁ he
    split
    · next hnotFound =>
      intro file hfile
      rw [he hnotFound] at hfile
      cases hfile
    · exact trivial

def said (name : FileName) (d : Disk) : Option Text :=
  (d.names name).bind fun file => Wire.fromUtf8 (d.files file).bytes

/-- A private file passes its check, as long as no call fails. -/
theorem checkPrivate_calm (ho : o.Calm) (hfile : unfit (d.files file) = none) :
    wp (checkPrivate o path file)
      (fun _ d' => Disk.Same (d.files file) (d'.files file) ∧
        ((d.files file).loose = false → d' = d))
      (fun _ _ => False) d := by
  rw [checkPrivate, wp_bind, wp_may_calm ho, wp_bind, wp_get]
  simp only [hfile, wp_onlyIf, ho.works, ho.keeps, Bool.false_eq_true, ↓reduceIte, wp_modify]
  refine ⟨fun hloose => ⟨.inr ?_, fun h => ?_⟩, fun _ => ⟨.inl rfl, fun _ => trivial⟩⟩
  · simp [Disk.tighten, Disk.set]
  · rw [hloose] at h
    cases h

/-- Where calls do not fail, such a file is read. -/
theorem readText_calm {text : Text} (ho : o.Calm)
    (hlength : (d.files file).bytes.length ≤ besideLimit)
    (htext : Wire.fromUtf8 (d.files file).bytes = some text) :
    wp (readText o path file) (fun read d' => read = text ∧ d' = d) (fun _ _ => False) d := by
  rw [readText, wp_bind, wp_may_calm ho, wp_bind, wp_get, wp_ite,
    List.take_of_length_le (by omega), htext]
  exact ⟨fun h => by omega, fun _ => ⟨rfl, rfl⟩⟩

/-- What is fine is read, as long as no call fails. -/
theorem readBeside_calm (ho : o.Calm) (hplain : beside name = pure name) (h : Fine name d) :
    wp (readBeside o name)
      (fun found d' => found = said name d ∧
        ∀ file, d.names name = some file → (d.files file).loose = false → d' = d)
      (fun _ _ => False) d := by
  rw [readBeside, hplain, wp_bind, wp_pure, wp_bind, wp_ifFound, openPrivate]
  simp only [wp_bind, wp_may_calm ho, wp_get, wp_onlyIf, wp_throw]
  cases hname : d.names name with
  | none => simp [Disk.stat, hname, said, wp_throw]
  | some file =>
    obtain ⟨hunfit, hlength, htext⟩ := h file hname
    obtain ⟨text, htext⟩ := Option.isSome_iff_exists.mp htext
    have hregular : (d.files file).kind = .regular := by
      by_contra hkind
      simp [unfit, hkind] at hunfit
    refine ⟨by simp [Disk.stat, hname, hregular], fun _ => ?_⟩
    simp only [wp_bind, wp_pure, wp_map]
    refine wp_mono (checkPrivate_calm ho hunfit) ?_ fun _ _ h => h.elim
    rintro - d₁ ⟨hsame, hkept⟩
    refine wp_mono (readText_calm ho (hsame.bytes ▸ hlength) (hsame.bytes ▸ htext)) ?_
      fun _ _ h => h
    rintro _ _ ⟨rfl, rfl⟩
    refine ⟨by simp [said, hname, htext], fun found hfound hloose => hkept ?_⟩
    rwa [Option.some.inj hfound]

/-- A file is read, or is absent, exactly if what is there is fine. -/
theorem readable_iff (hplain : beside name = pure name) : Readable name d ↔ Fine name d := by
  refine ⟨fun ⟨found, hread⟩ => ?_, fun h => ⟨said name d, fun o ho => ?_⟩⟩
  · obtain ⟨d', hread⟩ := hread ⟨fun _ _ => false, false, 0, [], 0⟩ ⟨fun _ _ => rfl, rfl⟩
    have hfine := wp_of_ok (@readBeside_spec _ name d) hread
    exact hfine
  · have hcalm := readBeside_calm ho hplain h
    rw [wp] at hcalm
    split at hcalm
    · next found d' hread =>
      obtain ⟨rfl, -⟩ := hcalm
      exact ⟨d', hread⟩
    · exact hcalm.elim

/-! ### What an event does -/

/-- What is read has a plain name. -/
theorem plain_of_ok {found : Option Text} (h : readBeside o name d = .ok found d') :
    beside name = pure name := by
  by_cases hpath : name = [] ∨ name = ['.'] ∨ name = ['.', '.'] ∨ '/' ∈ name
  · have hthrow : beside name = throw (.refused .notPlain) := if_pos hpath
    have hread : readBeside o name d = .error (.refused .notPlain) d := by
      rw [readBeside, hthrow]
      rfl
    rw [hread] at h
    cases h
  · exact if_neg hpath

variable {change : Option Text → Except ε (Option Text)}

/-- The directory as an update finds it, and what it does then. -/
theorem updateBeside_eq (o : Outside) (path : FileName)
    (change : Option Text → Except ε (Option Text)) (d : Disk) :
    updateBeside o path change d =
      match (lockDir o >>= fun _ => readBeside o path) d with
      | .error e d₁ => .error (.setup e) d₁
      | .ok found d₁ =>
        match change found with
        | .error e => .error (.change e) d₁
        | .ok none => .ok () d₁
        | .ok (some text) => setup (publish o path (Stream.encode text)) d₁ := by
  simp only [updateBeside, bind, EStateM.bind]
  cases hlock : lockDir o d with
  | error e d₁ => simp only [setup, hlock]
  | ok a d₁ =>
    cases hread : readBeside o path d₁ with
    | error e d₂ => simp only [setup, hlock, hread]
    | ok found d₂ =>
      have hplain := plain_of_ok hread
      simp only [setup, hlock, hread]
      cases change found with
      | error e => rfl
      | ok made =>
        cases made with
        | none => rfl
        | some text =>
          simp only [setup, hplain]
          rfl

/-- An update that comes to its change found a fine file. -/
theorem fine_of_found {found : Option Text} (hpath : '.' ∉ path)
    (h : (lockDir o >>= fun _ => readBeside o path) d = .ok found d') : Fine path d := by
  have hspec : wp (lockDir o >>= fun _ => readBeside o path) (fun _ _ => Fine path d)
      (fun _ _ => True) d := by
    rw [wp_bind]
    refine wp_mono (keeps_lockDir (ne_of_dotless hpath).1 d (.refl path d)) (fun _ d₁ hlock => ?_)
      fun _ _ _ => trivial
    exact wp_mono readBeside_spec (fun _ _ hfine => hlock.fine_iff.mp hfine) fun _ _ _ => trivial
  have hfine := wp_of_ok hspec h
  exact hfine

/-- An update publishes what it made of a fine file, or publishes nothing and leaves what there
is. -/
theorem update_cases (o : Outside) (path : FileName)
    (change : Option Text → Except ε (Option Text)) (d : Disk) :
    (∃ text d', Publishes o path change d text d' ∧ Holds path (Stream.encode text) d' ∧
      ('.' ∉ path → Fine path d) ∧
      ∀ name, '.' ∉ name → name ≠ path → Untouched name d d') ∨
    (∀ text d', ¬ Publishes o path change d text d') ∧
      ∀ name, '.' ∉ name → Untouched name d (left (updateBeside o path change) d) := by
  have hupdate := updateBeside_eq o path change d
  have hlook : ∀ name, '.' ∉ name →
      Untouched name d (left (lockDir o >>= fun _ => readBeside o path) d) := by
    intro name hname
    have hkept : Keeps (Untouched name d) (lockDir o >>= fun _ => readBeside o path) :=
      .bind (keeps_lockDir (ne_of_dotless hname).1) fun _ => keeps_readBeside path
    exact left_of_wp (hkept d (.refl name d))
  cases hfound : (lockDir o >>= fun _ => readBeside o path) d with
  | error e d₁ =>
    rw [hfound] at hupdate
    refine .inr ⟨?_, fun name hname => ?_⟩
    · rintro text d' ⟨found, d₂, hok, -⟩
      rw [hfound] at hok
      cases hok
    · rw [left, hupdate]
      simpa only [left, hfound] using hlook name hname
  | ok found d₁ =>
    rw [hfound] at hupdate
    have hbefore : ∀ name, '.' ∉ name → Untouched name d d₁ := by
      intro name hname
      simpa only [left, hfound] using hlook name hname
    have hnone : (∀ text, change found ≠ .ok (some text)) →
        ∀ text d', ¬ Publishes o path change d text d' := by
      rintro hchange text d' ⟨found', d₂, hok, hmade, -⟩
      obtain ⟨rfl, -⟩ := EStateM.Result.ok.inj (hfound.symm.trans hok)
      exact hchange text hmade
    cases hchange : change found with
    | error e =>
      simp only [hchange] at hupdate
      refine .inr ⟨hnone (by simp [hchange]), fun name hname => ?_⟩
      rw [left, hupdate]
      exact hbefore name hname
    | ok made =>
      cases made with
      | none =>
        simp only [hchange] at hupdate
        refine .inr ⟨hnone (by simp [hchange]), fun name hname => ?_⟩
        rw [left, hupdate]
        exact hbefore name hname
      | some text =>
        simp only [hchange, setup] at hupdate
        cases hpublish : publish o path (Stream.encode text) d₁ with
        | ok a d₂ =>
          rw [hpublish] at hupdate
          have hmade := wp_of_ok (publish_spec path (Stream.encode text)) hpublish
          refine .inl ⟨text, d₂, ⟨found, d₁, hfound, hchange, hupdate⟩, hmade.1,
            fun hpath => fine_of_found hpath hfound, fun name hname hne => ?_⟩
          exact (hbefore name hname).trans (hmade.2 name hname hne)
        | error e d₂ =>
          rw [hpublish] at hupdate
          have hmade := wp_of_error (publish_spec path (Stream.encode text)) hpublish
          refine .inr ⟨?_, fun name hname => ?_⟩
          · rintro text' d' ⟨-, -, -, -, hok⟩
            rw [hupdate] at hok
            cases hok
          · rw [left, hupdate]
            exact (hbefore name hname).trans (hmade name hname)

/-- What an update publishes is in the file. -/
theorem Publishes.holds {text : Text} (h : Publishes o path change d text d') :
    Holds path (Stream.encode text) d' ∧ beside path = pure path := by
  obtain ⟨found, d₁, hfound, hchange, hupdate⟩ := h
  refine ⟨?_, ?_⟩
  · rcases update_cases o path change d with
      ⟨text', d'', ⟨found', d₂, hfound', hchange', hupdate'⟩, hholds, -⟩ | ⟨hnone, -⟩
    · obtain ⟨rfl, -⟩ := EStateM.Result.ok.inj (hfound.symm.trans hfound')
      obtain rfl := Option.some.inj (Except.ok.inj (hchange.symm.trans hchange'))
      obtain ⟨-, rfl⟩ := EStateM.Result.ok.inj (hupdate.symm.trans hupdate')
      exact hholds
    · exact absurd ⟨found, d₁, hfound, hchange, hupdate⟩ (hnone text d')
  · simp only [bind, EStateM.bind] at hfound
    split at hfound
    · exact plain_of_ok hfound
    · cases hfound

/-- The file is fine after an event exactly if it was, and what the event published is. -/
theorem fine_run_iff (hname : '.' ∉ name) (event : Event ε) :
    Fine name (event.run d) ↔ Fine name d ∧ event.Within name d := by
  cases event with
  | read o path =>
    have hkept : Untouched name d (left (readBeside o path) d) :=
      left_of_wp (keeps_readBeside path d (.refl name d))
    rw [Event.run, hkept.fine_iff]
    exact (and_iff_left trivial).symm
  | update o path change =>
    rcases update_cases o path change d with
      ⟨text, d', hpublishes, hholds, hfine, hrest⟩ | ⟨hnone, hrest⟩
    · obtain ⟨found, d₁, hfound, hchange, hupdate⟩ := hpublishes
      have hrun : Event.run d (.update o path change) = d' := by rw [Event.run, left, hupdate]
      rw [hrun]
      by_cases hpath : path = name
      · subst hpath
        rw [hholds.fine_iff]
        refine ⟨fun hlength => ⟨hfine hname, ?_⟩, fun hwithin => ?_⟩
        · rintro text' d'' - ⟨found', d₂, hfound', hchange', -⟩
          obtain ⟨rfl, -⟩ := EStateM.Result.ok.inj (hfound.symm.trans hfound')
          obtain rfl := Option.some.inj (Except.ok.inj (hchange.symm.trans hchange'))
          exact hlength
        · exact hwithin.2 text d' rfl ⟨found, d₁, hfound, hchange, hupdate⟩
      · rw [(hrest name hname (Ne.symm hpath)).fine_iff]
        exact (and_iff_left fun text' d'' heq => absurd heq hpath).symm
    · rw [Event.run, (hrest name hname).fine_iff]
      exact (and_iff_left fun text d' _ h => absurd h (hnone text d')).symm

/-- A name is fit after events if it was, and what they wrote is within the most. -/
theorem fine_after_iff (hname : '.' ∉ name) (events : List (Event ε)) :
    Fine name (after events d) ↔ Fine name d ∧ Within name events d := by
  induction events generalizing d with
  | nil => exact (and_iff_left trivial).symm
  | cons event events ih =>
    rw [after, List.foldl_cons, ← after, ih, fine_run_iff hname, Within, and_assoc]

/-! ### An update that no call fails -/

/-- Where calls do not fail, the lock is taken. -/
theorem lockDir_calm (ho : o.Calm)
    (h : ∀ file, d.names lockName = some file → unfit (d.files file) = none) :
    wp (lockDir o) (fun _ _ => True) (fun _ _ => False) d := by
  rw [lockDir, openPrivate]
  simp only [wp_bind, wp_may_calm ho, wp_get, wp_onlyIf, wp_throw]
  cases hname : d.names lockName with
  | none =>
    refine ⟨by simp [Disk.stat, hname], fun _ => ?_⟩
    simp only [wp_bind, wp_set, wp_pure]
    have hmade : unfit ((d.create lockName).files d.next) = none := by
      simp [Disk.create, unfit, File.born]
    exact wp_mono (checkPrivate_calm ho hmade) (fun _ _ _ => trivial) fun _ _ h => h
  | some file =>
    have hregular : (d.files file).kind = .regular := by
      by_contra hkind
      simpa [unfit, hkind] using h file hname
    refine ⟨by simp [Disk.stat, hname, hregular], fun _ => ?_⟩
    simp only [wp_bind, wp_pure]
    exact wp_mono (checkPrivate_calm ho (h file hname)) (fun _ _ _ => trivial) fun _ _ h => h

/-- Where calls do not fail and a name is free, a draft is made. -/
theorem drawn_calm (ho : o.Calm) {draws : List UInt64}
    (h : ∃ r ∈ draws, d.names (tmpName target o.pid r) = none) :
    wp (drawn o target draws) (fun _ _ => True) (fun _ _ => False) d := by
  induction draws with
  | nil =>
    obtain ⟨r, hr, -⟩ := h
    cases hr
  | cons r draws ih =>
    rw [drawn, wp_bind, wp_get, wp_ite]
    refine ⟨fun htaken => ih ?_, fun _ => ?_⟩
    · obtain ⟨r', hr', hfree⟩ := h
      rcases List.mem_cons.mp hr' with rfl | hr'
      · exact absurd hfree htaken
      · exact ⟨r', hr', hfree⟩
    · rw [wp_bind, wp_may_calm ho]
      exact trivial

/-- So it is published. -/
theorem publish_calm (ho : o.Calm) (h : ∃ r ∈ o.draws, d.names (tmpName target o.pid r) = none) :
    wp (publish o target bytes) (fun _ _ => True) (fun _ _ => False) d := by
  rw [publish, wp_bind]
  refine wp_mono (drawn_calm ho h) (fun made d₁ _ => ?_) fun _ _ h => h
  rw [wp_orRemove, written, ho.works]
  simp only [Bool.false_eq_true, ↓reduceIte, wp_bind, wp_modify, wp_may_calm ho]

/-- A change of a fine list is accepted and published, as long as no call fails. -/
theorem publishes_of_calm {text : Text} (ho : o.Calm) (hplain : beside path = pure path)
    (hlock : ∀ file, d.names lockName = some file → unfit (d.files file) = none)
    (hname : path ≠ lockName) (hfine : Fine path d)
    (hchange : change (said path d) = .ok (some text))
    (hdraw : ∃ r ∈ o.draws, tmpName path o.pid r ≠ lockName ∧
      d.names (tmpName path o.pid r) = none) :
    ∃ d', Publishes o path change d text d' := by
  obtain ⟨r, hr, hne, hfree⟩ := hdraw
  have hfound : wp (lockDir o >>= fun _ => readBeside o path)
      (fun found d₁ => found = said path d ∧ d₁.names (tmpName path o.pid r) = none)
      (fun _ _ => False) d := by
    rw [wp_bind]
    refine wp_mono (wp_and (lockDir_calm ho hlock) (wp_and
      (keeps_lockDir hname d (.refl path d)) (keeps_lockDir hne d (.refl _ d)))) ?_
      fun _ _ h => h.1
    rintro - d₁ ⟨-, hkept, htmp⟩
    have hsaid : said path d₁ = said path d := by
      rw [said, said, hkept.names]
      cases hfile : d.names path with
      | none => rfl
      | some file => rw [Option.bind_some, Option.bind_some, (hkept.file file hfile).2.bytes]
    refine wp_mono (wp_and (readBeside_calm ho hplain (hkept.fine_iff.mpr hfine))
      (keeps_readBeside path d₁ (.refl (tmpName path o.pid r) d₁))) ?_ fun _ _ h => h.1
    rintro found d₂ ⟨⟨rfl, -⟩, htmp'⟩
    exact ⟨hsaid, by rw [htmp'.names, htmp.names, hfree]⟩
  rw [wp] at hfound
  split at hfound
  · next found d₁ hread =>
    obtain ⟨rfl, hfree⟩ := hfound
    have hpublish : wp (publish o path (Stream.encode text)) (fun _ _ => True)
        (fun _ _ => False) d₁ := publish_calm ho ⟨r, hr, hfree⟩
    rw [wp] at hpublish
    split at hpublish
    · next a d' hok =>
      refine ⟨d', said path d, d₁, hread, hchange, ?_⟩
      rw [updateBeside_eq, hread]
      simp only [hchange, setup, hok]
    · exact hpublish.elim
  · exact hfound.elim

/-! ### What is read again -/

/-- A list's file has a plain name. -/
theorem ListKind.file_plain (list : ListKind) : beside list.file = pure list.file := by
  cases list <;> exact if_neg (by decide)

theorem ListKind.file_dotless (list : ListKind) : '.' ∉ list.file := by
  cases list <;> decide

/-- What an update publishes is read again, as it was published, exactly if it is within the limit;
and a list is read after uses of the directory exactly if it was before, and all that they published
of it is within the limit. -/
theorem update_reads_iff :
    (∀ {o : Outside} {name : FileName} {change : Option Text → Except ε (Option Text)}
      {d d' : Disk} {text : Text}, Publishes o name change d text d' →
      ((∀ calm : Outside, calm.Calm → readBeside calm name d' = .ok (some text) d') ↔
        (Stream.encode text).length ≤ besideLimit)) ∧
    ∀ (list : ListKind) (events : List (Event ε)) (d : Disk), Readable list.file (after events d) ↔
      Readable list.file d ∧ Within list.file events d := by
  refine ⟨?_, fun list events d => ?_⟩
  · intro o name change d d' text hpublishes
    obtain ⟨hholds, hplain⟩ := hpublishes.holds
    rw [← hholds.fine_iff]
    refine ⟨fun hread => ?_, fun hfine calm hcalm => ?_⟩
    · exact (readable_iff hplain).mp ⟨some text, fun calm hcalm => ⟨d', hread calm hcalm⟩⟩
    · have hspec := readBeside_calm hcalm hplain hfine
      obtain ⟨file, hname, hfile⟩ := hholds
      rw [wp] at hspec
      split at hspec
      · next found d'' hread =>
        obtain ⟨rfl, hkept⟩ := hspec
        obtain rfl := hkept file hname (by rw [hfile]; rfl)
        rw [hread, said, hname, Option.bind_some, hfile, File.born, Wire.fromUtf8_encode]
      · exact hspec.elim
  · rw [readable_iff list.file_plain, readable_iff list.file_plain]
    exact fine_after_iff list.file_dotless events

def quiet : Outside := ⟨fun _ _ => false, false, 1, [0], 0⟩

theorem quiet_calm : quiet.Calm := ⟨fun _ _ => rfl, rfl⟩

/-- A directory that holds a list of clients, and nothing else. -/
def listed (text : Text) : Disk where
  names name := if name = ListKind.clients.file then some 0 else none
  files _ := .born (Stream.encode text)
  next := 1
  hnext := by
    intro name i h
    split at h
    · cases h
      exact Nat.one_pos
    · cases h

/-- The list's file holds its text. -/
theorem listed_holds (text : Text) :
    Holds ListKind.clients.file (Stream.encode text) (listed text) := ⟨0, by simp [listed], rfl⟩

theorem listed_names {text : Text} (h : name ≠ ListKind.clients.file) :
    (listed text).names name = none := by
  simp only [listed, if_neg h]

/-- A list of clients within the limit is changed. -/
theorem publishes_listed {text text' : Text}
    (h : (Stream.encode text).length ≤ besideLimit)
    (hchange : change (some text) = .ok (some text')) :
    ∃ d', Publishes quiet ListKind.clients.file change (listed text) text' d' := by
  refine publishes_of_calm quiet_calm (ListKind.file_plain .clients) ?_ (by decide)
    ((listed_holds text).fine_iff.mpr h) ?_ ⟨0, List.mem_cons_self, by decide +kernel, ?_⟩
  · intro file hfile
    rw [listed_names (by decide)] at hfile
    cases hfile
  · rw [said]
    simp only [listed, ↓reduceIte, Option.bind_some, File.born, Wire.fromUtf8_encode]
    exact hchange
  · exact listed_names (by decide +kernel)

/-- A client is added to an empty list, and read back. -/
theorem update_reads_one : ∃ d', Publishes quiet ListKind.clients.file
      (Op.change oneOfEach "clients".toList .clients (.add "laptop".toList () none .full))
      (listed []) ("laptop ".toList ++ oneIdText ++ ['\n']) d' ∧
    ∀ calm : Outside, calm.Calm → readBeside calm ListKind.clients.file d' =
      .ok (some ("laptop ".toList ++ oneIdText ++ ['\n'])) d' := by
  obtain ⟨d', hpublishes⟩ := @publishes_listed (UpdateError Unit)
    (Op.change oneOfEach "clients".toList .clients (.add "laptop".toList () none .full)) []
    ("laptop ".toList ++ oneIdText ++ ['\n']) (by decide) (by rfl)
  exact ⟨d', hpublishes, (update_reads_iff.1 hpublishes).mpr (by decide +kernel)⟩

/-- A list of one comment, that is as large as a list may be. -/
def fullNames : Names Unit Unit := ⟨[.other ('#' :: List.replicate (besideLimit - 2) 'x')]⟩

/-- The full list is clean. -/
theorem fullNames_clean : Clean oneOfEach fullNames where
  others text htext := by
    cases List.mem_singleton.mp htext
    rw [List.getLast?_cons, List.getLast?_replicate]
    simp [besideLimit]
  urls e he := by cases he

/-- And sound. -/
theorem fullNames_sound : Sound oneOfEach .clients fullNames where
  good e he := by cases he
  unique := List.nodup_nil
  others text htext := by
    cases List.mem_singleton.mp htext
    refine ⟨by simp, ?_⟩
    rw [isOther, head?_trim (by rfl)]
    simp

/-- A comment of so many letters takes as many bytes, the `#` and the newline. -/
theorem length_encode_render (n : ℕ) (more : List (Line Unit Unit)) :
    (Stream.encode ((⟨.other ('#' :: List.replicate n 'x') :: more⟩ : Names Unit Unit).render
      oneOfEach)).length = n + 2 +
        (Stream.encode ((⟨more⟩ : Names Unit Unit).render oneOfEach)).length := by
  have hsplit : (⟨.other ('#' :: List.replicate n 'x') :: more⟩ : Names Unit Unit).render
      oneOfEach = ('#' :: List.replicate n 'x' ++ ['\n']) ++
        (⟨more⟩ : Names Unit Unit).render oneOfEach := rfl
  have hascii : ∀ c ∈ '#' :: List.replicate n 'x' ++ ['\n'], c.val.toNat < 128 := by
    intro c hc
    have hc : c = '#' ∨ c = 'x' ∨ c = '\n' := by
      simp only [List.cons_append, List.mem_cons, List.mem_append, List.mem_replicate,
        List.not_mem_nil, or_false] at hc
      tauto
    rcases hc with rfl | rfl | rfl <;> decide
  rw [hsplit, Stream.encode, List.flatMap_append, List.length_append, ← Stream.encode,
    ← Stream.encode, Wire.length_encode_ascii hascii]
  simp

/-- A client more, and the list is too large for the server and for the next edit. -/
theorem list_outgrown : Readable ListKind.clients.file (listed (fullNames.render oneOfEach)) ∧
    ∃ text d', Publishes quiet ListKind.clients.file
      (Op.change oneOfEach "clients".toList .clients (.add "laptop".toList () none .full))
      (listed (fullNames.render oneOfEach)) text d' ∧
      (∀ o found d'', readBeside o ListKind.clients.file d' ≠ .ok found d'') ∧
      ∀ o (change : Option Text → Except (UpdateError Unit) (Option Text)) text' d'',
        ¬ Publishes o ListKind.clients.file change d' text' d'' := by
  have hlength : (Stream.encode (fullNames.render oneOfEach)).length = besideLimit := by
    rw [fullNames, length_encode_render]
    rfl
  have hparse := @parse_render _ _ oneOfEach .clients _ "clients".toList oneOfEach_lawful
    fullNames_sound fullNames_clean
  have hchange : Op.change oneOfEach "clients".toList .clients
      (.add "laptop".toList () none .full) (some (fullNames.render oneOfEach)) =
      .ok (some ((⟨fullNames.lines ++ [.entry ⟨"laptop".toList, (), none, .full⟩]⟩ :
        Names Unit Unit).render oneOfEach)) := by
    rw [Op.change, update, Option.getD_some, hparse]
    rfl
  obtain ⟨d', hpublishes⟩ := publishes_listed (Nat.le_of_eq hlength) hchange
  have hunfit : ¬ Fine ListKind.clients.file d' := by
    have hmore : (Stream.encode ((⟨[] ++ [.entry ⟨"laptop".toList, (), none, .full⟩]⟩ :
        Names Unit Unit).render oneOfEach)).length = 72 := by decide +kernel
    rw [hpublishes.holds.1.fine_iff, fullNames, List.cons_append, length_encode_render, hmore]
    decide
  refine ⟨(readable_iff (ListKind.file_plain _)).mpr
    ((listed_holds _).fine_iff.mpr (Nat.le_of_eq hlength)), _, d', hpublishes, ?_, ?_⟩
  · intro o found d'' hread
    have hfine := wp_of_ok (@readBeside_spec o _ d') hread
    exact hunfit hfine
  · rintro o change text' d'' ⟨found, d₁, hfound, -⟩
    exact hunfit (fine_of_found (ListKind.file_dotless _) hfound)

end Koh.Saved
