import Koh.Server.Pace
import Koh.Server.Whole
import Koh.Wire.Bounded
import Koh.Wire.Frame

/-!
# What a program shows, on the wire

A `Shown`'s encoding and how the client decodes it, from `proto.rs`, with `title`, from
`request.rs`.

## Main definitions

- `Shown.received`: what the client makes of a message
- `putShown`, `takeShown`: a message's body
- `encodeShown`, `Decoder.nextShown`: a message with its length before it

## Main results

- `reads_putShown`: a message that fits is read back
- `length_putShown`: within the bound
- `nextShown_encodeShown`: the client's decoder gives it

## Design notes

`postcard` writes a variant as its place among them, an option and a boolean as a byte, and
a record as its fields. How it writes a number is a parameter (`Varint`).
-/

namespace Koh.Server

open Koh.Stream

/-- The numbers of a message are of the source's types: `u64`, and `u32` for a status. -/
def Shown.Typed : Shown → Prop
  | .report _ input => input < 2 ^ 64
  | .echo seq => seq < 2 ^ 64
  | .bell count => count < 2 ^ 64
  | .exit code read => code < 2 ^ 32 ∧ ∀ seq ∈ read, seq < 2 ^ 64
  | _ => True

def cleanTitle (text : List Char) : String :=
  String.ofList ((text.filter fun c => !isControl c).take maxTitle)

/-- What the client makes of a message: a title loses its control characters. -/
def Shown.received : Shown → Shown
  | .title text => .title (cleanTitle text.toList)
  | shown => shown

def Activity.place : Activity → ℕ
  | .reading => 0
  | .polling => 1
  | .waiting => 2
  | .busy => 3
  | .idle => 4
  | .unknown => 5

end Koh.Server

namespace Koh.Wire

open Koh.Lib Koh.Stream Koh.Server

variable {α : Type}

/-! ### A field -/

def putBool (b : Bool) : List UInt8 := [if b then 1 else 0]

def takeBool : Take Bool := do
  match ← takeByte with
  | 0 => pure false
  | 1 => pure true
  | _ => failure

def putOption (put : α → List UInt8) : Option α → List UInt8
  | none => [0]
  | some a => 1 :: put a

def takeOption (item : Take α) : Take (Option α) := do
  match ← takeByte with
  | 0 => pure none
  | 1 => do
    let a ← item
    pure (some a)
  | _ => failure

def takeActivity (vt : Varint) : Take Activity := do
  match ← vt.take 32 with
  | 0 => pure .reading
  | 1 => pure .polling
  | 2 => pure .waiting
  | 3 => pure .busy
  | 4 => pure .idle
  | 5 => pure .unknown
  | _ => failure

/-- A mark that no terminal reads is refused. -/
def takeMark (vt : Varint) : Take MarkText := do
  let bytes ← atMost vt maxMark takeByte
  match MarkText.new bytes with
  | some text => pure text
  | none => failure

/-- A window title: at most `maxTitle` characters, none a control. -/
def takeTitle (vt : Varint) : Take String := do
  let bytes ← atMost vt (maxTitle * 4) takeByte
  pure (cleanTitle (fromUtf8Lossy bytes))

/-! ### A message -/

/-- A message's body: its variant, then its fields. -/
def putShown (vt : Varint) : Shown → List UInt8
  | .out bytes => vt.put 0 ++ putBytes vt bytes
  | .mark text => vt.put 1 ++ putBytes vt text.bytes
  | .report activity input => vt.put 2 ++ (vt.put activity.place ++ vt.put input)
  | .tty modes => vt.put 3 ++ (putBool modes.echo ++ putBool modes.line)
  | .echo seq => vt.put 4 ++ vt.put seq
  | .bell count => vt.put 5 ++ vt.put count
  | .title text => vt.put 6 ++ putBytes vt (Stream.encode text.toList)
  | .exit code read => vt.put 7 ++ (vt.put code ++ putOption vt.put read)
  | .beat => vt.put 8

def takeShown (vt : Varint) : Take Shown := do
  match ← vt.take 32 with
  | 0 => do
    let bytes ← atMost vt maxOut takeByte
    pure (.out bytes)
  | 1 => do
    let text ← takeMark vt
    pure (.mark text)
  | 2 => do
    let activity ← takeActivity vt
    let input ← vt.take 64
    pure (.report activity input)
  | 3 => do
    let echo ← takeBool
    let line ← takeBool
    pure (.tty ⟨echo, line⟩)
  | 4 => do
    let seq ← vt.take 64
    pure (.echo seq)
  | 5 => do
    let count ← vt.take 64
    pure (.bell count)
  | 6 => do
    let text ← takeTitle vt
    pure (.title text)
  | 7 => do
    let code ← vt.take 32
    let read ← takeOption (vt.take 64)
    pure (.exit code read)
  | 8 => pure .beat
  | _ => failure

def encodeShown (vt : Varint) (msg : Shown) : Except ProtoError (List UInt8) :=
  encode (putShown vt msg) maxShown

/-- The next whole message of what the program shows, `none` if more bytes are needed. What
follows a message in its body is not looked at. -/
def Decoder.nextShown (vt : Varint) (d : Decoder) : Except ProtoError (Option Shown) × Decoder :=
  d.next (fun body => ((takeShown vt).run body).map Prod.fst) maxShown

/-! ### A field is read back -/

theorem reads_putBool (b : Bool) : Reads takeBool (putBool b) b := by
  cases b <;> exact fun _ => rfl

/-- An option is read back. -/
theorem reads_putOption {put : α → List UInt8} {item : Take α} {a : Option α}
    (h : ∀ x ∈ a, Reads item (put x) x) : Reads (takeOption item) (putOption put a) a := by
  cases a with
  | none => exact fun _ => rfl
  | some a =>
    refine (reads_takeByte 1).bind ?_
    exact (h a rfl).andThen (.pure (some a))

/-- So is what the program does. -/
theorem reads_place (vt : Varint) (activity : Activity) :
    Reads (takeActivity vt) (vt.put activity.place) activity := by
  cases activity <;> exact (vt.reads (by decide)).andThen (.pure _)

theorem length_mark (text : MarkText) : text.bytes.length ≤ maxMark := by
  have hvalid := text.valid
  simp only [validMark, Bool.and_eq_true, decide_eq_true_eq] at hvalid
  exact hvalid.1.1.1.2

/-- A mark is read back. -/
theorem reads_takeMark (vt : Varint) (text : MarkText) :
    Reads (takeMark vt) (putBytes vt text.bytes) text := by
  have hnew : MarkText.new text.bytes = some text := dif_pos text.valid
  refine (reads_atMost_bytes vt (by decide) (length_mark text)).andThen ?_
  rw [hnew]
  exact .pure text

/-- A title of few characters is of few bytes. -/
theorem length_title {text : List Char} (h : text.length ≤ maxTitle) :
    (Stream.encode text).length ≤ maxTitle * 4 := by
  have := length_encode_le text
  omega

/-- A title is read back, cleaned. -/
theorem reads_takeTitle (vt : Varint) {text : List Char} (h : text.length ≤ maxTitle) :
    Reads (takeTitle vt) (putBytes vt (Stream.encode text)) (cleanTitle text) := by
  refine (reads_atMost_bytes vt (by decide) (length_title h)).andThen ?_
  rw [fromUtf8Lossy_encode]
  exact .pure _

/-! ### A message is read back -/

/-- A message that fits is read back. -/
theorem reads_putShown (vt : Varint) {msg : Shown} (hfits : msg.Fits) (htyped : msg.Typed) :
    Reads (takeShown vt) (putShown vt msg) msg.received := by
  cases msg with
  | out bytes =>
    refine (vt.reads (by decide)).bind ?_
    exact (reads_atMost_bytes vt (by decide) hfits.2).andThen (.pure _)
  | mark text =>
    refine (vt.reads (by decide)).bind ?_
    exact (reads_takeMark vt text).andThen (.pure _)
  | report activity input =>
    refine (vt.reads (by decide)).bind ?_
    exact (reads_place vt activity).bind ((vt.reads htyped).andThen (.pure _))
  | tty modes =>
    refine (vt.reads (by decide)).bind ?_
    exact (reads_putBool modes.echo).bind ((reads_putBool modes.line).andThen (.pure _))
  | echo seq =>
    refine (vt.reads (by decide)).bind ?_
    exact (vt.reads htyped).andThen (.pure _)
  | bell count =>
    refine (vt.reads (by decide)).bind ?_
    exact (vt.reads htyped).andThen (.pure _)
  | title text =>
    refine (vt.reads (by decide)).bind ?_
    exact (reads_takeTitle vt hfits).andThen (.pure _)
  | exit code read =>
    refine (vt.reads (by decide)).bind ?_
    refine (vt.reads htyped.1).bind ?_
    exact (reads_putOption fun seq hseq => vt.reads (htyped.2 seq hseq)).andThen (.pure _)
  | beat => exact (vt.reads (by decide)).andThen (.pure _)

theorem length_putBytes (vt : Varint) {bytes : List UInt8} (h : bytes.length < 2 ^ 64) :
    (putBytes vt bytes).length ≤ 10 + bytes.length := by
  have hlen := vt.length_le h
  rw [putBytes, List.length_append]
  omega

/-- A message that fits is within the bound. -/
theorem length_putShown (vt : Varint) {msg : Shown} (hfits : msg.Fits) (htyped : msg.Typed) :
    (putShown vt msg).length ≤ maxShown := by
  have hmax : maxShown = 17408 := rfl
  have hvariant (n : ℕ) (hn : n < 2 ^ 32) : (vt.put n).length ≤ 5 := vt.length_le hn
  have hnumber (n : ℕ) (hn : n < 2 ^ 64) : (vt.put n).length ≤ 10 := vt.length_le hn
  cases msg with
  | out bytes =>
    have hout : bytes.length ≤ 16384 := hfits.2
    have hbytes := length_putBytes vt (by omega : bytes.length < 2 ^ 64)
    have hplace := hvariant 0 (by decide)
    rw [putShown, List.length_append]
    omega
  | mark text =>
    have hlen : text.bytes.length ≤ 256 := length_mark text
    have hbytes := length_putBytes vt (by omega : text.bytes.length < 2 ^ 64)
    have hplace := hvariant 1 (by decide)
    rw [putShown, List.length_append]
    omega
  | report activity input =>
    have hplace := hvariant 2 (by decide)
    have hactivity := hvariant activity.place (by cases activity <;> decide)
    have hinput := hnumber input htyped
    rw [putShown, List.length_append, List.length_append]
    omega
  | tty modes =>
    have hplace := hvariant 3 (by decide)
    rw [putShown, List.length_append, List.length_append, putBool, putBool]
    simp only [List.length_singleton]
    omega
  | echo seq =>
    have hplace := hvariant 4 (by decide)
    have hseq := hnumber seq htyped
    rw [putShown, List.length_append]
    omega
  | bell count =>
    have hplace := hvariant 5 (by decide)
    have hcount := hnumber count htyped
    rw [putShown, List.length_append]
    omega
  | title text =>
    have hlen : (Stream.encode text.toList).length ≤ 1024 := length_title hfits
    have hbytes :=
      length_putBytes vt (by omega : (Stream.encode text.toList).length < 2 ^ 64)
    have hplace := hvariant 6 (by decide)
    rw [putShown, List.length_append]
    omega
  | exit code read =>
    have hplace := hvariant 7 (by decide)
    have hcode := hvariant code htyped.1
    have hread : (putOption vt.put read).length ≤ 11 := by
      cases read with
      | none =>
        rw [putOption]
        decide
      | some seq =>
        have hseq := hnumber seq (htyped.2 seq rfl)
        rw [putOption, List.length_cons]
        omega
    rw [putShown, List.length_append, List.length_append]
    omega
  | beat =>
    have hplace := hvariant 8 (by decide)
    rw [putShown]
    omega

/-! ### Whole -/

/-- A message that fits is encoded. -/
theorem encodeShown_ok (vt : Varint) {msg : Shown} (hfits : msg.Fits) (htyped : msg.Typed) :
    ∃ bytes, encodeShown vt msg = .ok bytes :=
  ⟨_, encode_ok (length_putShown vt hfits htyped)⟩

/-- The client's decoder gives a message that fits, and what follows is still to be read. -/
theorem nextShown_encodeShown (vt : Varint) {msg : Shown} {bytes rest : List UInt8} {d : Decoder}
    (hfits : msg.Fits) (htyped : msg.Typed) (hbytes : encodeShown vt msg = .ok bytes)
    (hpending : d.pending = bytes ++ rest) :
    ∃ d' : Decoder, d.nextShown vt = (.ok (some msg.received), d') ∧ d'.pending = rest := by
  obtain ⟨d', hbody, hrest⟩ := Decoder.nextBody_encode (by decide) hbytes hpending
  have hread : (takeShown vt).run (putShown vt msg) = some (msg.received, []) := by
    simpa using reads_putShown vt hfits htyped []
  refine ⟨d', ?_, hrest⟩
  rw [Decoder.nextShown, Decoder.next, hbody]
  dsimp only
  rw [hread]
  rfl

end Koh.Wire
