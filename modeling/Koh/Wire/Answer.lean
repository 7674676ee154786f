import Koh.Jobs.Table
import Koh.Sync.Receive
import Koh.Wire.Shown

/-!
# Answers, sent whole

The numbers of a message's fields, `decode_framed`, `Problem` and `Answer`, from
`request.rs`.

## Main definitions

- `putU64`, `putU32`, `putU16`, `putI32`: numbers of the source's types
- `width`, `textSize`, `optionSize`: how long a field is
- `decodeFramed`: a message with its length before it, and nothing after
- `Problem`, `putAnswer`, `takeAnswer`: what was asked, or why not

## Main results

- `decodeFramed_encode`: what is read back from a body is read back from its frame
- `reads_putAnswer`: an answer is read back, if what was asked is
-/

namespace Koh.Wire

open Koh.Lib Koh.Stream Koh.Server Koh.Jobs

variable {α : Type}

/-! ### Numbers -/

def putU64 (vt : Varint) (n : UInt64) : List UInt8 := vt.put n.toNat

def putU32 (vt : Varint) (n : UInt32) : List UInt8 := vt.put n.toNat

def putU16 (vt : Varint) (n : UInt16) : List UInt8 := vt.put n.toNat

/-- A signed number: the even ones are those from 0 up, the odd ones those from -1 down. -/
def zigzag (n : Int32) : ℕ := if 0 ≤ n.toInt then 2 * n.toInt.toNat else 2 * (-n.toInt).toNat - 1

def putI32 (vt : Varint) (n : Int32) : List UInt8 := vt.put (zigzag n)

def takeU64 (vt : Varint) : Take UInt64 := do
  let n ← vt.take 64
  pure (UInt64.ofNat n)

def takeU32 (vt : Varint) : Take UInt32 := do
  let n ← vt.take 32
  pure (UInt32.ofNat n)

def takeU16 (vt : Varint) : Take UInt16 := do
  let n ← vt.take 16
  pure (UInt16.ofNat n)

def takeI32 (vt : Varint) : Take Int32 := do
  let n ← vt.take 32
  pure (Int32.ofInt (if n % 2 = 0 then n / 2 else -(n / 2 : ℤ) - 1))

/-- A `u64` is read back. -/
theorem reads_putU64 (vt : Varint) (n : UInt64) : Reads (takeU64 vt) (putU64 vt n) n := by
  refine (vt.reads n.toNat_lt).andThen ?_
  rw [UInt64.ofNat_toNat]
  exact .pure n

theorem reads_putU32 (vt : Varint) (n : UInt32) : Reads (takeU32 vt) (putU32 vt n) n := by
  refine (vt.reads n.toNat_lt).andThen ?_
  rw [UInt32.ofNat_toNat]
  exact .pure n

theorem reads_putU16 (vt : Varint) (n : UInt16) : Reads (takeU16 vt) (putU16 vt n) n := by
  refine (vt.reads n.toNat_lt).andThen ?_
  rw [UInt16.ofNat_toNat]
  exact .pure n

theorem zigzag_lt (n : Int32) : zigzag n < 2 ^ 32 := by
  have hlow := n.le_toInt
  have hhigh := n.toInt_lt
  unfold zigzag
  split <;> omega

/-- So is an `i32`. -/
theorem reads_putI32 (vt : Varint) (n : Int32) : Reads (takeI32 vt) (putI32 vt n) n := by
  refine (vt.reads (zigzag_lt n)).andThen ?_
  have hvalue : (if zigzag n % 2 = 0 then (zigzag n : ℤ) / 2 else -((zigzag n : ℤ) / 2) - 1) =
      n.toInt := by
    unfold zigzag
    split <;> split <;> omega
  rw [hvalue, Int32.ofInt_toInt]
  exact .pure n

/-! ### Texts -/

def putText (vt : Varint) (text : List Char) : List UInt8 := putBytes vt (Stream.encode text)

/-- A text of at most so many bytes, whatever they are. -/
def takeLossy (vt : Varint) (most : ℕ) : Take (List Char) := do
  let bytes ← atMost vt most takeByte
  pure (fromUtf8Lossy bytes)

def fromUtf8 (bytes : List UInt8) : Option (List Char) :=
  if Stream.encode (fromUtf8Lossy bytes) = bytes then some (fromUtf8Lossy bytes) else none

def takeJobName (vt : Varint) : Take JobName := do
  let bytes ← atMost vt maxJobName takeByte
  match (fromUtf8 bytes).bind JobName.new with
  | some name => pure name
  | none => failure

/-- A short text is read back. -/
theorem reads_takeLossy (vt : Varint) {most : ℕ} (hmost : most < 2 ^ 64) {text : List Char}
    (h : (Stream.encode text).length ≤ most) :
    Reads (takeLossy vt most) (putText vt text) text := by
  refine (reads_atMost_bytes vt hmost h).andThen ?_
  rw [fromUtf8Lossy_encode]
  exact .pure text

/-- What is encoded is text. -/
theorem fromUtf8_encode (text : List Char) : fromUtf8 (Stream.encode text) = some text := by
  rw [fromUtf8, fromUtf8Lossy_encode, if_pos rfl]

/-- A text of ASCII has a byte for each character. -/
theorem length_encode_ascii {text : List Char} (h : ∀ c ∈ text, c.val.toNat < 128) :
    (Stream.encode text).length = text.length := by
  induction text with
  | nil => rfl
  | cons c text ih =>
    have hsize : c.utf8Size = 1 := by
      rw [Char.utf8Size_eq_one_iff, UInt32.le_iff_toNat_le]
      exact Nat.le_of_lt_succ (h c List.mem_cons_self)
    rw [Stream.encode_cons, List.length_append, String.length_utf8EncodeChar, hsize,
      ih fun c hc => h c (List.mem_cons_of_mem _ hc), List.length_cons, Nat.add_comm]

/-- A job's name is ASCII. -/
theorem ascii_of_jobName (name : JobName) : ∀ c ∈ name.text, c.val.toNat < 128 := by
  intro c hc
  have hvalid := name.valid
  simp only [validJobName, Bool.and_eq_true, List.all_eq_true] at hvalid
  have hfits := hvalid.2 c hc
  simp only [Bool.or_eq_true, decide_eq_true_eq] at hfits
  rcases hfits with ((halnum | rfl) | rfl) | rfl
  · have hin : (decide (c.val ≥ 'A'.val ∧ c.val ≤ 'Z'.val) ||
        (decide (c.val ≥ 'a'.val) && decide (c.val ≤ 'z'.val)) ||
        (decide (c.val ≥ '0'.val) && decide (c.val ≤ '9'.val))) = true := halnum
    simp only [Bool.or_eq_true, Bool.and_eq_true, decide_eq_true_eq, ge_iff_le,
      UInt32.le_iff_toNat_le] at hin
    rcases hin with (⟨-, hle⟩ | ⟨-, hle⟩) | ⟨-, hle⟩
    · exact Nat.lt_of_le_of_lt hle (by decide)
    · exact Nat.lt_of_le_of_lt hle (by decide)
    · exact Nat.lt_of_le_of_lt hle (by decide)
  · decide
  · decide
  · decide

theorem length_encode_jobName (name : JobName) :
    (Stream.encode name.text).length ≤ maxJobName := by
  have hvalid := name.valid
  simp only [validJobName, Bool.and_eq_true, decide_eq_true_eq] at hvalid
  rw [length_encode_ascii (ascii_of_jobName name)]
  exact hvalid.1.1.2

/-- A job's name is read back. -/
theorem reads_takeJobName (vt : Varint) (name : JobName) :
    Reads (takeJobName vt) (putText vt name.text) name := by
  refine (reads_atMost_bytes vt (by decide) (length_encode_jobName name)).andThen ?_
  have hnew : JobName.new name.text = some name := dif_pos name.valid
  rw [fromUtf8_encode, Option.bind_some, hnew]
  exact .pure name

/-! ### How long a field is -/

def width (vt : Varint) (n : ℕ) : ℕ := (vt.put n).length

def textSize (vt : Varint) (text : List Char) : ℕ :=
  width vt (Stream.encode text).length + (Stream.encode text).length

def optionSize (size : α → ℕ) : Option α → ℕ
  | none => 1
  | some a => size a + 1

theorem length_putText (vt : Varint) (text : List Char) :
    (putText vt text).length = textSize vt text :=
  List.length_append

theorem length_putOption {put : α → List UInt8} {size : α → ℕ} (h : ∀ a, (put a).length = size a)
    (a : Option α) : (putOption put a).length = optionSize size a := by
  cases a with
  | none => rfl
  | some a => rw [putOption, List.length_cons, h, optionSize]

theorem length_putSeq (vt : Varint) (put : α → List UInt8) (items : List α) :
    (putSeq vt put items).length =
      width vt items.length + (items.map fun a => (put a).length).sum := by
  rw [putSeq, List.length_append, List.length_flatMap]
  rfl

section

variable (vt : Varint)

theorem width_le_of_lt {n : ℕ} (h : n < 2 ^ 64) : width vt n ≤ 10 := vt.length_le h

theorem width_le_of_lt_u32 {n : ℕ} (h : n < 2 ^ 32) : width vt n ≤ 5 := vt.length_le h

theorem width_u64_le (n : UInt64) : width vt n.toNat ≤ 10 := width_le_of_lt vt n.toNat_lt

theorem width_u32_le (n : UInt32) : width vt n.toNat ≤ 5 := width_le_of_lt_u32 vt n.toNat_lt

theorem width_u16_le (n : UInt16) : width vt n.toNat ≤ 3 :=
  vt.length_le (show n.toNat < 2 ^ 16 from n.toNat_lt)

/-- An option takes one byte more. -/
theorem optionSize_le {size : α → ℕ} {most : ℕ} (h : ∀ a, size a ≤ most) (a : Option α) :
    optionSize size a ≤ most + 1 := by
  cases a with
  | none => exact Nat.le_add_left 1 most
  | some a => exact Nat.succ_le_succ (h a)

/-- A text takes its length and its bytes. -/
theorem textSize_le {text : List Char} {most : ℕ} (hmost : most < 2 ^ 64)
    (h : (Stream.encode text).length ≤ most) : textSize vt text ≤ 10 + most := by
  have hwidth := width_le_of_lt vt (Nat.lt_of_le_of_lt h hmost)
  rw [textSize]
  omega

end

/-! ### Why not -/

/-- Most bytes of what a problem says beside its kind. -/
def maxDetail : ℕ := 4096

inductive ProblemKind where
  | noSuchJob
  | noSuchSession
  | nameTaken
  | tooManyJobs
  | couldNotStart
  | outOfScope
  | noHome
  | notFound
  | failed
  | noSuchDir
  | noSuchProgram
  deriving DecidableEq

def ProblemKind.place : ProblemKind → ℕ
  | .noSuchJob => 0
  | .noSuchSession => 1
  | .nameTaken => 2
  | .tooManyJobs => 3
  | .couldNotStart => 4
  | .outOfScope => 5
  | .noHome => 6
  | .notFound => 7
  | .failed => 8
  | .noSuchDir => 9
  | .noSuchProgram => 10

/-- Why the server could not do what was asked, and what it adds. -/
structure Problem where
  kind : ProblemKind
  detail : List Char
  deriving DecidableEq

/-- `Problem::new`: what it adds is cut at a character's end. -/
def Problem.new (kind : ProblemKind) (detail : List Char) : Problem :=
  ⟨kind, Sync.withinBytes maxDetail detail⟩

def putProblem (vt : Varint) (problem : Problem) : List UInt8 :=
  vt.put problem.kind.place ++ putText vt problem.detail

def takeKind (vt : Varint) : Take ProblemKind := do
  match ← vt.take 32 with
  | 0 => pure .noSuchJob
  | 1 => pure .noSuchSession
  | 2 => pure .nameTaken
  | 3 => pure .tooManyJobs
  | 4 => pure .couldNotStart
  | 5 => pure .outOfScope
  | 6 => pure .noHome
  | 7 => pure .notFound
  | 8 => pure .failed
  | 9 => pure .noSuchDir
  | 10 => pure .noSuchProgram
  | _ => failure

def takeProblem (vt : Varint) : Take Problem := do
  let kind ← takeKind vt
  let detail ← takeLossy vt maxDetail
  pure ⟨kind, detail⟩

/-- A kind of problem is read back. -/
theorem reads_takeKind (vt : Varint) (kind : ProblemKind) :
    Reads (takeKind vt) (vt.put kind.place) kind := by
  cases kind <;> exact (vt.reads (by decide)).andThen (.pure _)

/-- So is a problem. -/
theorem reads_putProblem (vt : Varint) {problem : Problem}
    (h : (Stream.encode problem.detail).length ≤ maxDetail) :
    Reads (takeProblem vt) (putProblem vt problem) problem :=
  (reads_takeKind vt problem.kind).bind
    ((reads_takeLossy vt (by decide) h).andThen (.pure _))

/-! ### An answer -/

/-- What was asked, or why not. -/
abbrev Answer (α : Type) := Except Problem α

def putAnswer (vt : Varint) (put : α → List UInt8) : Answer α → List UInt8
  | .ok a => vt.put 0 ++ put a
  | .error problem => vt.put 1 ++ putProblem vt problem

def takeAnswer (vt : Varint) (item : Take α) : Take (Answer α) := do
  match ← vt.take 32 with
  | 0 => do
    let a ← item
    pure (.ok a)
  | 1 => do
    let problem ← takeProblem vt
    pure (.error problem)
  | _ => failure

/-- So is an answer. -/
theorem reads_putAnswer (vt : Varint) {put : α → List UInt8} {item : Take α} {a b : α}
    (h : Reads item (put a) b) : Reads (takeAnswer vt item) (putAnswer vt put (.ok a)) (.ok b) :=
  (vt.reads (by decide)).bind (h.andThen (.pure _))

/-- And one that is none. -/
theorem reads_putAnswer_error (vt : Varint) {put : α → List UInt8} {item : Take α}
    {problem : Problem} (h : (Stream.encode problem.detail).length ≤ maxDetail) :
    Reads (takeAnswer vt item) (putAnswer vt put (.error problem)) (.error problem) :=
  (vt.reads (by decide)).bind ((reads_putProblem vt h).andThen (.pure _))

/-- A whole framed message, its length and its body, as a reply's stream carries it. -/
def decodeFramed (item : Take α) (bytes : List UInt8) (most : ℕ) : Except ProtoError α :=
  match bytes with
  | b₀ :: b₁ :: b₂ :: b₃ :: body =>
    match bodyLen (fromBeBytes b₀ b₁ b₂ b₃) most with
    | .error e => .error e
    | .ok len =>
      if len ≠ body.length then .error .truncated
      else match item.run body with
        | some (a, _) => .ok a
        | none => .error .malformed
  | _ => .error .truncated

/-- What is read back from a body is read back from its frame. -/
theorem decodeFramed_encode {item : Take α} {body bytes : List UInt8} {a : α} {most : ℕ}
    (hmost : most ≤ mostLength) (h : Reads item body a) (hbytes : encode body most = .ok bytes) :
    decodeFramed item bytes most = .ok a := by
  unfold encode at hbytes
  split at hbytes
  · cases hbytes
  next hlen =>
  obtain rfl := Except.ok.inj hbytes
  have hle : body.length ≤ mostLength := (Nat.not_lt.mp hlen).trans hmost
  have hread : item.run body = some (a, []) := by simpa using h []
  rw [Nat.min_eq_left hle]
  simp only [toBeBytes, List.cons_append, List.nil_append, decodeFramed]
  rw [fromBeBytes_toBeBytes hle]
  simp only [bodyLen, if_neg hlen, ne_eq, not_true_eq_false, if_false, hread]

end Koh.Wire
