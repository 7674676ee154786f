import Koh.Sync.Send
import Koh.Wire.Answer

/-!
# What the two ends say, on the wire

An `Item`'s and a `Reply`'s encoding, from `sync/mod.rs`, and how the sender decodes a reply.

## Main definitions

- `putItem`: an item's body
- `putReply`, `takeReply`: a reply's body
- `Summary.Within`: a summary that the receiver may have come to
- `readReply`: a reply with its length before it, and what follows

## Main results

- `length_putItem_le`: an item is within its bound, but for a failure's path
- `reads_putReply_over`: the end is read back
- `length_putReply_over_le`: and is within its bound

## Design notes

A size, a time's seconds and a count are a `u64` in the source, and are written as one.
-/

namespace Koh.Sync

open Koh.Lib
open Koh.Wire (ProtoError putBytes putSeq putText putU32 putU64 putOption takeU32 takeU64 takeOption
  fromUtf8 width optionSize textSize)

def maxReplyItem : ℕ := 512 * 1024

/-! ### Fields -/

section

variable {α β : Type} (vt : Varint)

/-- A number that is a `u64` in the source. -/
def putNumber (n : ℕ) : List UInt8 := putU64 vt (UInt64.ofNat n)

def takeNumber : Take ℕ := do
  let n ← takeU64 vt
  pure n.toNat

/-- A sequence of as many items as it announces. -/
def takeVec (item : Take α) : Take (List α) := do
  let announced ← vt.take 64
  takeMany item announced

/-- A text, refused if it is no UTF-8. -/
def takeString : Take (List Char) := do
  let bytes ← takeVec vt takeByte
  match fromUtf8 bytes with
  | some text => pure text
  | none => failure

/-- A number is read back, up to a word. -/
theorem reads_putNumber (n : ℕ) : Reads (takeNumber vt) (putNumber vt n) (n % 2 ^ 64) := by
  refine (Wire.reads_putU64 vt _).andThen ?_
  rw [UInt64.toNat_ofNat']
  exact .pure _

theorem reads_putNumber_of_lt {n : ℕ} (h : n < 2 ^ 64) :
    Reads (takeNumber vt) (putNumber vt n) n := by
  have hreads := reads_putNumber vt n
  rwa [Nat.mod_eq_of_lt h] at hreads

/-- A list is read back, each of it. -/
theorem reads_takeVec_map {item : Take β} {put : α → List UInt8} {f : α → β} {items : List α}
    (hlen : items.length < 2 ^ 64) (h : ∀ a ∈ items, Reads item (put a) (f a)) :
    Reads (takeVec vt item) (putSeq vt put items) (items.map f) :=
  (vt.reads hlen).bind (.many_map h)

theorem reads_takeVec_bytes {bytes : Bytes} (hlen : bytes.length < 2 ^ 64) :
    Reads (takeVec vt takeByte) (putBytes vt bytes) bytes :=
  (vt.reads hlen).bind (reads_bytes bytes)

/-- So is a text. -/
theorem reads_takeString {text : List Char} (hlen : (Stream.encode text).length < 2 ^ 64) :
    Reads (takeString vt) (putText vt text) text := by
  refine (reads_takeVec_bytes vt hlen).andThen ?_
  rw [Wire.fromUtf8_encode]
  exact .pure text

/-- A number takes ten bytes at most. -/
theorem length_putNumber_le (n : ℕ) : (putNumber vt n).length ≤ 10 :=
  Wire.width_u64_le vt (UInt64.ofNat n)

theorem length_put_le {n : ℕ} (h : n < 2 ^ 32) : (vt.put n).length ≤ 5 := vt.length_le h

theorem length_putU32_le (n : UInt32) : (putU32 vt n).length ≤ 5 := Wire.width_u32_le vt n

theorem length_putBytes_le {bytes : Bytes} {most : ℕ} (hmost : most < 2 ^ 64)
    (h : bytes.length ≤ most) : (putBytes vt bytes).length ≤ 10 + most := by
  have hlen := Wire.width_le_of_lt vt (Nat.lt_of_le_of_lt h hmost)
  rw [putBytes, List.length_append]
  exact Nat.add_le_add hlen h

theorem length_putOption_le {put : α → List UInt8} {most : ℕ} (h : ∀ a, (put a).length ≤ most)
    (a : Option α) : (putOption put a).length ≤ most + 1 := by
  rw [Wire.length_putOption (fun _ => rfl)]
  exact Wire.optionSize_le h a

end

/-! ### An item -/

/-- What can go wrong, in the source's order. -/
def failKinds : List FailKind :=
  [.notFound, .permissionDenied, .notADirectory, .isADirectory, .isASymlink, .noSpace, .readOnly,
    .nameTooLong, .tooDeep, .notCopyable, .noName, .severalIntoOne, .noHome, .outOfScope, .tooMany,
    .truncated, .malformed, .other]

def FailKind.place (kind : FailKind) : ℕ := failKinds.idxOf kind

section

variable (vt : Varint)

def putName (name : Name) : List UInt8 := putBytes vt name.bytes

def putMode (mode : Mode) : List UInt8 := putU32 vt (UInt32.ofNat mode.bits)

def putTime (time : Time) : List UInt8 :=
  putNumber vt time.secs ++ putU32 vt (UInt32.ofNat time.nanos)

def putFailure (failure : Failure) : List UInt8 :=
  vt.put failure.kind.place ++ putBytes vt failure.path

/-- An item's body: its variant, then its fields. A chunk's bytes follow it. -/
def putItem : Item → List UInt8
  | .dir name mode mtime =>
    vt.put 0 ++ (putName vt name ++ (putMode vt mode ++ putOption (putTime vt) mtime))
  | .contents mode mtime => vt.put 1 ++ (putMode vt mode ++ putOption (putTime vt) mtime)
  | .file header =>
    vt.put 2 ++ (putU32 vt header.id ++ (putName vt header.name ++ (putMode vt header.mode ++
      (putOption (putTime vt) header.mtime ++ putNumber vt header.size))))
  | .symlink name target => vt.put 3 ++ (putName vt name ++ putBytes vt target.bytes)
  | .dirEnd => vt.put 4
  | .skipped name => vt.put 5 ++ putName vt name
  | .data id start => vt.put 6 ++ (putU32 vt id ++ putNumber vt start)
  | .chunk c => vt.put 7 ++ putU32 vt (UInt32.ofNat c.bytes.length)
  | .sent => vt.put 8
  | .same id => vt.put 9 ++ putU32 vt id
  | .failed failure => vt.put 10 ++ putFailure vt failure
  | .allDone => vt.put 11
  | .differs id start => vt.put 12 ++ (putU32 vt id ++ putNumber vt start)

theorem length_putName_le (name : Name) : (putName vt name).length ≤ 1034 := by
  have hvalid := name.valid
  simp only [validName, Bool.and_eq_true, decide_eq_true_eq] at hvalid
  have hlen : name.bytes.length ≤ 1024 := hvalid.1.1.2
  exact length_putBytes_le vt (by decide) hlen

theorem length_putTime_le (time : Time) : (putTime vt time).length ≤ 15 := by
  rw [putTime, List.length_append]
  exact Nat.add_le_add (length_putNumber_le vt _) (length_putU32_le vt _)

/-- A failure takes little more than its path. -/
theorem length_putFailure_le {failure : Failure} {most : ℕ} (hmost : most < 2 ^ 64)
    (h : failure.path.length ≤ most) : (putFailure vt failure).length ≤ 15 + most := by
  have hkind : (vt.put failure.kind.place).length ≤ 5 :=
    length_put_le vt (by cases failure.kind <;> decide)
  have hpath := length_putBytes_le vt hmost h
  rw [putFailure, List.length_append]
  omega

/-- An item is within its bound, if a failure's path is within its own. -/
theorem length_putItem_le {i : Item} (h : ∀ f, i = .failed f → f.path.length ≤ maxPath) :
    (putItem vt i).length ≤ maxItem := by
  have hmax : maxItem = 8192 := rfl
  have hplace (n : ℕ) (hn : n ≤ 12) : (vt.put n).length ≤ 5 := length_put_le vt (by omega)
  have hname := length_putName_le vt
  have hid := length_putU32_le vt
  have hmode (mode : Mode) : (putMode vt mode).length ≤ 5 := length_putU32_le vt _
  have hnumber := length_putNumber_le vt
  have htime (mtime : Option Time) : (putOption (putTime vt) mtime).length ≤ 16 :=
    length_putOption_le (length_putTime_le vt) mtime
  cases i with
  | dir name mode mtime =>
    have h₁ := hplace 0 (by decide)
    have h₂ := hname name
    have h₃ := hmode mode
    have h₄ := htime mtime
    simp only [putItem, List.length_append]
    omega
  | contents mode mtime =>
    have h₁ := hplace 1 (by decide)
    have h₂ := hmode mode
    have h₃ := htime mtime
    simp only [putItem, List.length_append]
    omega
  | file header =>
    have h₁ := hplace 2 (by decide)
    have h₂ := hid header.id
    have h₃ := hname header.name
    have h₄ := hmode header.mode
    have h₅ := htime header.mtime
    have h₆ := hnumber header.size
    simp only [putItem, List.length_append]
    omega
  | symlink name target =>
    have h₁ := hplace 3 (by decide)
    have h₂ := hname name
    have hlink : target.bytes.length ≤ 4095 := target.valid.2.2
    have h₃ := length_putBytes_le vt (by decide) hlink
    simp only [putItem, List.length_append]
    omega
  | dirEnd => exact (hplace 4 (by decide)).trans (by decide)
  | skipped name =>
    have h₁ := hplace 5 (by decide)
    have h₂ := hname name
    simp only [putItem, List.length_append]
    omega
  | data id start =>
    have h₁ := hplace 6 (by decide)
    have h₂ := hid id
    have h₃ := hnumber start
    simp only [putItem, List.length_append]
    omega
  | chunk c =>
    have h₁ := hplace 7 (by decide)
    have h₂ := hid (UInt32.ofNat c.bytes.length)
    simp only [putItem, List.length_append]
    omega
  | sent => exact (hplace 8 (by decide)).trans (by decide)
  | same id =>
    have h₁ := hplace 9 (by decide)
    have h₂ := hid id
    simp only [putItem, List.length_append]
    omega
  | failed failure =>
    have h₁ := hplace 10 (by decide)
    have hpath : failure.path.length ≤ 4096 := h failure rfl
    have h₂ := length_putFailure_le vt (by decide) hpath
    simp only [putItem, List.length_append]
    omega
  | allDone => exact (hplace 11 (by decide)).trans (by decide)
  | differs id start =>
    have h₁ := hplace 12 (by decide)
    have h₂ := hid id
    have h₃ := hnumber start
    simp only [putItem, List.length_append]
    omega

end

/-! ### A reply -/

/-- What a change may be, in the source's order. -/
def changeKinds : List ChangeKind := [.new, .replaced, .deleted, .dir, .link]

def ChangeKind.place (kind : ChangeKind) : ℕ := changeKinds.idxOf kind

/-- A change as it is read back: its sizes are a `u64`. -/
def Change.sized (c : Change) : Change :=
  { c with size := c.size.map (· % 2 ^ 64), was := c.was.map (· % 2 ^ 64) }

def Summary.sized (s : Summary) : Summary := { s with changes := s.changes.map Change.sized }

def Change.bytes (c : Change) : ℕ := (Stream.encode c.path).length

def Summary.counts (s : Summary) : List ℕ :=
  [s.new, s.replaced, s.unchanged, s.resumed, s.bytes, s.dirs, s.links, s.deleted, s.skipped,
    s.changesUnshown]

/-- The counts of a summary are a `u64`, its changes are few enough, and their paths' bytes are
within their bound but for the last path. -/
structure Summary.Within (s : Summary) : Prop where
  counts : ∀ n ∈ s.counts, n < 2 ^ 64
  few : s.changes.length ≤ changesShown
  bytes : (s.changes.map Change.bytes).sum ≤ changesShownBytes + maxPath

section

variable (vt : Varint)

def putChange (c : Change) : List UInt8 :=
  vt.put c.kind.place ++ (putText vt c.path ++ (putOption (putNumber vt) c.size ++
    putOption (putNumber vt) c.was))

def putSummary (s : Summary) : List UInt8 :=
  putNumber vt s.new ++ (putNumber vt s.replaced ++ (putNumber vt s.unchanged ++
    (putNumber vt s.resumed ++ (putNumber vt s.bytes ++ (putNumber vt s.dirs ++
      (putNumber vt s.links ++ (putNumber vt s.deleted ++ (putNumber vt s.skipped ++
        (putSeq vt (putChange vt) s.changes ++ putNumber vt s.changesUnshown)))))))))

/-- A hash is its bytes, of which there are always as many. -/
def putAnswer : Answer → List UInt8
  | .want id kept head =>
    vt.put 0 ++ (putU32 vt id ++ (putNumber vt kept ++ putOption (fun hash => hash) head))
  | .check id hash => vt.put 1 ++ (putU32 vt id ++ hash)

/-- A reply's body: an answer, or the end, and how it went. -/
def putReply : Reply → List UInt8
  | .answer answer => vt.put 0 ++ putAnswer vt answer
  | .over (.ok summary) => vt.put 1 ++ (vt.put 0 ++ putSummary vt summary)
  | .over (.error failure) => vt.put 1 ++ (vt.put 1 ++ putFailure vt failure)

def takeFailKind : Take FailKind := do
  let place ← vt.take 32
  match failKinds[place]? with
  | some kind => pure kind
  | none => failure

def takeFailure : Take Failure := do
  let kind ← takeFailKind vt
  let path ← takeVec vt takeByte
  pure ⟨kind, path⟩

def takeChangeKind : Take ChangeKind := do
  let place ← vt.take 32
  match changeKinds[place]? with
  | some kind => pure kind
  | none => failure

def takeChange : Take Change := do
  let kind ← takeChangeKind vt
  let path ← takeString vt
  let size ← takeOption (takeNumber vt)
  let was ← takeOption (takeNumber vt)
  pure ⟨kind, path, size, was⟩

def takeSummary : Take Summary := do
  let new ← takeNumber vt
  let replaced ← takeNumber vt
  let unchanged ← takeNumber vt
  let resumed ← takeNumber vt
  let bytes ← takeNumber vt
  let dirs ← takeNumber vt
  let links ← takeNumber vt
  let deleted ← takeNumber vt
  let skipped ← takeNumber vt
  let changes ← takeVec vt (takeChange vt)
  let changesUnshown ← takeNumber vt
  pure ⟨new, replaced, unchanged, resumed, bytes, dirs, links, deleted, skipped, changes,
    changesUnshown⟩

def takeHash : Take Bytes := takeMany takeByte 32

def takeAnswer : Take Answer := do
  match ← vt.take 32 with
  | 0 => do
    let id ← takeU32 vt
    let kept ← takeNumber vt
    let head ← takeOption takeHash
    pure (.want id kept head)
  | 1 => do
    let id ← takeU32 vt
    let hash ← takeHash
    pure (.check id hash)
  | _ => failure

def takeOutcome : Take (Except Failure Summary) := do
  match ← vt.take 32 with
  | 0 => do
    let summary ← takeSummary vt
    pure (.ok summary)
  | 1 => do
    let failure ← takeFailure vt
    pure (.error failure)
  | _ => failure

def takeReply : Take Reply := do
  match ← vt.take 32 with
  | 0 => do
    let answer ← takeAnswer vt
    pure (.answer answer)
  | 1 => do
    let outcome ← takeOutcome vt
    pure (.over outcome)
  | _ => failure

/-! ### The end is read back -/

theorem reads_takeFailKind (kind : FailKind) :
    Reads (takeFailKind vt) (vt.put kind.place) kind := by
  cases kind <;> exact (vt.reads (by decide)).andThen (.pure _)

theorem reads_takeChangeKind (kind : ChangeKind) :
    Reads (takeChangeKind vt) (vt.put kind.place) kind := by
  cases kind <;> exact (vt.reads (by decide)).andThen (.pure _)

/-- A failure is read back. -/
theorem reads_putFailure {failure : Failure} (h : failure.path.length < 2 ^ 64) :
    Reads (takeFailure vt) (putFailure vt failure) failure :=
  (reads_takeFailKind vt failure.kind).bind ((reads_takeVec_bytes vt h).andThen (.pure _))

theorem reads_putSize (size : Option ℕ) :
    Reads (takeOption (takeNumber vt)) (putOption (putNumber vt) size)
      (size.map (· % 2 ^ 64)) := by
  cases size with
  | none => exact fun _ => rfl
  | some n =>
    refine (reads_takeByte 1).bind ?_
    exact (reads_putNumber vt n).andThen (.pure _)

/-- A change is read back, its sizes up to a word. -/
theorem reads_putChange {c : Change} (h : c.bytes < 2 ^ 64) :
    Reads (takeChange vt) (putChange vt c) c.sized := by
  refine (reads_takeChangeKind vt c.kind).bind ?_
  refine (reads_takeString vt h).bind ?_
  refine (reads_putSize vt c.size).bind ?_
  exact (reads_putSize vt c.was).andThen (.pure _)

theorem Summary.Within.change_le {s : Summary} (h : s.Within) {c : Change} (hc : c ∈ s.changes) :
    c.bytes ≤ changesShownBytes + maxPath :=
  (List.single_le_sum (fun _ _ => Nat.zero_le _) _ (List.mem_map_of_mem hc)).trans h.bytes

/-- So is a summary. -/
theorem reads_putSummary {s : Summary} (h : s.Within) :
    Reads (takeSummary vt) (putSummary vt s) s.sized := by
  have hcounts := h.counts
  simp only [Summary.counts, List.forall_mem_cons] at hcounts
  obtain ⟨h₁, h₂, h₃, h₄, h₅, h₆, h₇, h₈, h₉, hunshown, -⟩ := hcounts
  have hchanges : Reads (takeVec vt (takeChange vt)) (putSeq vt (putChange vt) s.changes)
      (s.changes.map Change.sized) := by
    refine reads_takeVec_map vt (Nat.lt_of_le_of_lt h.few (by decide)) fun c hc => ?_
    exact reads_putChange vt (Nat.lt_of_le_of_lt (h.change_le hc) (by decide))
  refine (reads_putNumber_of_lt vt h₁).bind ?_
  refine (reads_putNumber_of_lt vt h₂).bind ?_
  refine (reads_putNumber_of_lt vt h₃).bind ?_
  refine (reads_putNumber_of_lt vt h₄).bind ?_
  refine (reads_putNumber_of_lt vt h₅).bind ?_
  refine (reads_putNumber_of_lt vt h₆).bind ?_
  refine (reads_putNumber_of_lt vt h₇).bind ?_
  refine (reads_putNumber_of_lt vt h₈).bind ?_
  refine (reads_putNumber_of_lt vt h₉).bind ?_
  exact hchanges.bind ((reads_putNumber_of_lt vt hunshown).andThen (.pure _))

/-- What may be said at the end of a copy. -/
def Speakable : Except Failure Summary → Prop
  | .ok summary => summary.Within
  | .error failure => failure.path.length ≤ maxItem

/-- So is an end. -/
theorem reads_putReply_over {outcome : Except Failure Summary} (h : Speakable outcome) :
    Reads (takeReply vt) (putReply vt (.over outcome)) (.over (outcome.map Summary.sized)) := by
  cases outcome with
  | ok summary =>
    have houtcome : Reads (takeOutcome vt) (vt.put 0 ++ putSummary vt summary)
        (.ok summary.sized) :=
      (vt.reads (by decide)).bind ((reads_putSummary vt h).andThen (.pure _))
    exact (vt.reads (by decide)).bind (houtcome.andThen (.pure _))
  | error failure =>
    have hlen : failure.path.length < 2 ^ 64 := Nat.lt_of_le_of_lt h (by decide)
    have houtcome : Reads (takeOutcome vt) (vt.put 1 ++ putFailure vt failure) (.error failure) :=
      (vt.reads (by decide)).bind ((reads_putFailure vt hlen).andThen (.pure _))
    exact (vt.reads (by decide)).bind (houtcome.andThen (.pure _))

/-! ### The end is within its bound -/

theorem length_putChange_le {c : Change} (h : c.bytes < 2 ^ 64) :
    (putChange vt c).length ≤ 37 + c.bytes := by
  have hkind : (vt.put c.kind.place).length ≤ 5 :=
    length_put_le vt (by cases c.kind <;> decide)
  have hpath : textSize vt c.path ≤ 10 + c.bytes := Wire.textSize_le vt h (Nat.le_refl _)
  have hsize := length_putOption_le (length_putNumber_le vt) c.size
  have hwas := length_putOption_le (length_putNumber_le vt) c.was
  simp only [putChange, List.length_append, Wire.length_putText]
  omega

/-- The changes that are shown fit. -/
theorem length_putChanges_le {s : Summary} (h : s.Within) :
    (putSeq vt (putChange vt) s.changes).length ≤ 303346 := by
  have hsum : (s.changes.map fun c => (putChange vt c).length).sum ≤
      37 * s.changes.length + (s.changes.map Change.bytes).sum := by
    have hle : (s.changes.map fun c => (putChange vt c).length).sum ≤
        (s.changes.map fun c => 37 + c.bytes).sum :=
      List.sum_le_sum fun c hc =>
        length_putChange_le vt (Nat.lt_of_le_of_lt (h.change_le hc) (by decide))
    rw [List.sum_map_add] at hle
    simpa [Nat.mul_comm] using hle
  have hfew : s.changes.length ≤ 1000 := h.few
  have hbytes : (s.changes.map Change.bytes).sum ≤ 266240 := h.bytes
  have hwidth : width vt s.changes.length ≤ 10 := Wire.width_le_of_lt vt (by omega)
  rw [Wire.length_putSeq]
  omega

/-- An end fits in a reply. -/
theorem length_putReply_over_le {outcome : Except Failure Summary} (h : Speakable outcome) :
    (putReply vt (.over outcome)).length ≤ maxReplyItem := by
  have hmax : maxReplyItem = 524288 := rfl
  have hzero : (vt.put 0).length ≤ 5 := length_put_le vt (by decide)
  have hone : (vt.put 1).length ≤ 5 := length_put_le vt (by decide)
  cases outcome with
  | ok summary =>
    have hnumber := length_putNumber_le vt
    have h₁ := hnumber summary.new
    have h₂ := hnumber summary.replaced
    have h₃ := hnumber summary.unchanged
    have h₄ := hnumber summary.resumed
    have h₅ := hnumber summary.bytes
    have h₆ := hnumber summary.dirs
    have h₇ := hnumber summary.links
    have h₈ := hnumber summary.deleted
    have h₉ := hnumber summary.skipped
    have hunshown := hnumber summary.changesUnshown
    have hchanges := length_putChanges_le vt h
    simp only [putReply, putSummary, List.length_append]
    omega
  | error failure =>
    have hpath : failure.path.length ≤ 8192 := h
    have hfailure := length_putFailure_le vt (by decide) hpath
    simp only [putReply, List.length_append]
    omega

/-! ### What the sender reads -/

/-- The next reply of a stream, and what follows it (`read_framed`, in `send_on`). -/
def readReply : List UInt8 → Option (Reply × List UInt8)
  | b₀ :: b₁ :: b₂ :: b₃ :: rest =>
    match Wire.bodyLen (Wire.fromBeBytes b₀ b₁ b₂ b₃) maxReplyItem with
    | .error _ => none
    | .ok len =>
      if rest.length < len then none
      else ((takeReply vt).run (rest.take len)).map fun r => (r.1, rest.drop len)
  | _ => none

/-- A reply that is encoded is read, and what follows it left. -/
theorem readReply_encode {reply reply' : Reply} {bytes : List UInt8} (rest : List UInt8)
    (h : Reads (takeReply vt) (putReply vt reply) reply')
    (hbytes : Wire.encode (putReply vt reply) maxReplyItem = .ok bytes) :
    readReply vt (bytes ++ rest) = some (reply', rest) := by
  unfold Wire.encode at hbytes
  split at hbytes
  · cases hbytes
  next hlen =>
  obtain rfl := Except.ok.inj hbytes
  have hle : (putReply vt reply).length ≤ Wire.mostLength :=
    (Nat.not_lt.mp hlen).trans (by decide)
  have hread : (takeReply vt).run (putReply vt reply) = some (reply', []) := by simpa using h []
  rw [Nat.min_eq_left hle]
  simp only [Wire.toBeBytes, List.cons_append, List.nil_append, readReply]
  rw [Wire.fromBeBytes_toBeBytes hle]
  simp [Wire.bodyLen, if_neg hlen, hread]

end

end Koh.Sync
