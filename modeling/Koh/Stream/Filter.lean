import Koh.Stream.Judge

/-!
# The filter of a program's output

`Filter` and its methods, from `stream.rs`. A method that calls `emit` gives
back the filter with the pieces it emitted, in order (`Fed`).

## Main definitions

- `Piece`: what a filter passes on
- `Filter.feed`: read some bytes, however the output was cut
- `Filter.feedAll`: feed after feed

## Design notes

`Filter.pass` and `Filter.feed` are the source's loops, and end because each
turn takes bytes away, or (`pass`, the buffer full) empties the buffer.
`Filter.byte` in the state `textEscape` reads its byte again in `escape`; that
arm is `Filter.escapeByte`, which both use.
-/

namespace Koh.Stream

/-- Most bytes of a control sequence (CSI) a filter gathers. -/
def maxCsi : ℕ := 256

/-- Most bytes of a control string (OSC, DCS, APC, PM, SOS) a filter gathers. -/
def maxString : ℕ := 2 ^ 20

def maxOut : ℕ := 16 * 1024

inductive Piece where
  /-- Bytes for the user's terminal. -/
  | out (bytes : List UInt8)
  /-- A shell mark: what followed `OSC 133 ;`, the nonce removed. -/
  | mark (payload : List UInt8)
  deriving DecidableEq, Repr

inductive Kind where
  | osc
  | dcs
  /-- APC, PM or SOS: passed as they are. -/
  | other
  deriving DecidableEq, Repr

inductive State where
  | ground
  /-- After ESC. -/
  | escape
  /-- After ESC and an intermediate byte. -/
  | escapeIntermediate
  | csi
  /-- A control string. -/
  | text (kind : Kind)
  /-- ESC inside a control string. -/
  | textEscape
  deriving DecidableEq, Repr

/-- Reads output however it is split, and passes on what reaches the user's terminal. -/
structure Filter where
  policy : Policy
  state : State
  /-- The sequence being read, from its ESC. -/
  seq : List UInt8
  /-- It passed its bound: it is read to its end and dropped. -/
  isOver : Bool
  /-- What passes, not yet given out. -/
  out : List UInt8
  deriving DecidableEq, Repr

/-- A filter, and what it emitted on the way to it. -/
structure Fed where
  filter : Filter
  pieces : List Piece
  deriving DecidableEq, Repr

/-- One step after another, what both emitted in order. -/
def Fed.andThen (r : Fed) (k : Filter → Fed) : Fed :=
  ⟨(k r.filter).filter, r.pieces ++ (k r.filter).pieces⟩

namespace Filter

def new (policy : Policy) : Filter := ⟨policy, .ground, [], false, []⟩

def between (f : Filter) : Bool := f.state = .ground

/-- Give out what passed, but a character whose end has not come. -/
def flush (f : Filter) : Fed :=
  let keep := incompleteUtf8 f.out
  let at_ := f.out.length - keep
  if at_ = 0 then ⟨f, []⟩
  else ⟨{ f with out := f.out.drop at_ }, [.out (f.out.take at_)]⟩

/-- A flush holds back a torn character. -/
theorem flush_out (f : Filter) :
    f.flush.filter.out = f.out.drop (f.out.length - incompleteUtf8 f.out) := by
  simp only [flush]
  split
  · next h => rw [h, List.drop_zero]
  · rfl

/-- It holds back three bytes at most. -/
theorem length_flush_out_le (f : Filter) : f.flush.filter.out.length ≤ 3 := by
  have := incompleteUtf8_le_three f.out
  rw [flush_out, List.length_drop]
  omega

/-- Pass `bytes`, giving out a chunk of at most `maxOut` at a character's end
whenever one fills. -/
def pass (f : Filter) (bytes : List UInt8) : Fed :=
  if bytes = [] then ⟨f, []⟩
  else
    let room := maxOut - f.out.length
    let now := bytes.take (min room bytes.length)
    let later := bytes.drop (min room bytes.length)
    let g := { f with out := f.out ++ now }
    if maxOut ≤ g.out.length then
      let r := g.flush
      let s := pass r.filter later
      ⟨s.filter, r.pieces ++ s.pieces⟩
    else pass g later
termination_by 2 * bytes.length + if maxOut ≤ f.out.length then 1 else 0
decreasing_by
  all_goals
    have hlen := List.length_pos_iff.mpr ‹bytes ≠ []›
    have hmax : maxOut = 16384 := rfl
  · rw [if_neg (Nat.not_le.mpr (Nat.lt_of_le_of_lt (length_flush_out_le _) (by decide)))]
    simp only [List.length_drop]
    split <;> omega
  · have hfull : ¬ maxOut ≤ g.out.length := ‹_›
    rw [if_neg hfull]
    simp only [g, now, room, List.length_append, List.length_take] at hfull
    simp only [List.length_drop]
    split <;> omega

def begin (f : Filter) (state : State) : Filter :=
  { f with state := state, seq := [ESC], isOver := false }

/-- Add `byte` to the sequence being read, within `max`. -/
def gather (f : Filter) (byte : UInt8) (max : ℕ) : Filter :=
  if max ≤ f.seq.length then { f with isOver := true, seq := [] }
  else if f.isOver then f
  else { f with seq := f.seq ++ [byte] }

/-- Give out a mark, after all that passed before it: a character cut short
before the mark goes before it, as it came. -/
def emitMark (f : Filter) (m : List UInt8) : Fed :=
  let r := f.flush
  if r.filter.out = [] then ⟨r.filter, r.pieces ++ [.mark m]⟩
  else ⟨{ r.filter with out := [] }, r.pieces ++ [.out r.filter.out, .mark m]⟩

/-- The sequence read is whole: pass it, or what it says, or nothing. -/
def finish (f : Filter) : Fed :=
  let g := { f with state := .ground, isOver := false, seq := [] }
  if f.isOver then ⟨g, []⟩
  else match judge f.seq f.policy with
    | .pass => g.pass f.seq
    | .drop => ⟨g, []⟩
    | .out bytes => g.pass bytes
    | .mark m => g.emitMark m

/-- `0x30..=0x7e` ends an escape sequence. -/
def isEscapeFinal (b : UInt8) : Bool := 0x30 ≤ b && b ≤ 0x7e

/-- The introducer of a control string: `]`, `P`, `_`, `^` or `X`. -/
def stringKind (b : UInt8) : Option Kind :=
  if b = 0x5d then some .osc
  else if b = 0x50 then some .dcs
  else if b = 0x5f ∨ b = 0x5e ∨ b = 0x58 then some .other
  else none

/-- `byte` after an ESC. -/
def escapeByte (f : Filter) (byte : UInt8) : Fed :=
  if byte = 0x5b then ⟨{ f with seq := f.seq ++ [byte], state := .csi }, []⟩
  else match stringKind byte with
    | some kind => ⟨{ f with seq := f.seq ++ [byte], state := .text kind }, []⟩
    | none =>
      if isIntermediate byte then
        ⟨{ f with seq := f.seq ++ [byte], state := .escapeIntermediate }, []⟩
      else if isEscapeFinal byte then { f with seq := f.seq ++ [byte] }.finish
      -- A lone ESC, then another sequence.
      else if byte = ESC then
        let r := f.pass [ESC]
        ⟨r.filter.begin .escape, r.pieces⟩
      else if byte = CAN ∨ byte = SUB then ⟨{ f with state := .ground }, []⟩
      -- A control inside the sequence is done as it comes, and the sequence goes on.
      else f.pass [byte]

def byte (f : Filter) (b : UInt8) : Fed :=
  match f.state with
  | .ground =>
    if b = ESC then ⟨f.begin .escape, []⟩
    -- The answerback: a question.
    else if b = ENQ then ⟨f, []⟩
    else f.pass [b]
  | .escape => f.escapeByte b
  | .escapeIntermediate =>
    if isIntermediate b then ⟨f.gather b maxCsi, []⟩
    else if isEscapeFinal b then (f.gather b maxCsi).finish
    else if b = ESC then ⟨f.begin .escape, []⟩
    else if b = CAN ∨ b = SUB then ⟨{ f with state := .ground }, []⟩
    else f.pass [b]
  | .csi =>
    if 0x20 ≤ b ∧ b ≤ 0x3f then ⟨f.gather b maxCsi, []⟩
    else if 0x40 ≤ b ∧ b ≤ 0x7e then (f.gather b maxCsi).finish
    else if b = ESC then ⟨f.begin .escape, []⟩
    else if b = CAN ∨ b = SUB then ⟨{ f with state := .ground }, []⟩
    -- A control inside a CSI is done as it comes, the CSI going on.
    else if b ≤ 0x1f then f.pass [b]
    -- DEL is ignored inside one; anything else ends it, malformed.
    else if b = 0x7f then ⟨f, []⟩
    else ⟨{ f with state := .ground }, []⟩
  | .text kind =>
    if b = ESC then ⟨{ f with state := .textEscape }, []⟩
    else if b = BEL ∧ kind = .osc then (f.gather b maxString).finish
    else if b = CAN ∨ b = SUB then ⟨{ f with state := .ground }, []⟩
    else ⟨f.gather b maxString, []⟩
  | .textEscape =>
    if b = 0x5c then ((f.gather ESC maxString).gather b maxString).finish
    else
      -- ESC ends the string unterminated, dropped as a terminal drops it, and begins a
      -- sequence of its own.
      let r := { f with isOver := true }.finish
      r.andThen fun g => (g.begin .escape).escapeByte b

/-- Neither of the bytes text stops at. -/
def isText (b : UInt8) : Bool := b != ESC && b != ENQ

/-- The loop of `feed`: text up to the next sequence passes whole. -/
def feedLoop (f : Filter) : List UInt8 → Fed
  | [] => ⟨f, []⟩
  | b :: rest =>
    if f.state = .ground ∧ isText b then
      let r := f.pass (b :: rest.takeWhile isText)
      let s := feedLoop r.filter (rest.dropWhile isText)
      ⟨s.filter, r.pieces ++ s.pieces⟩
    else
      let r := f.byte b
      let s := feedLoop r.filter rest
      ⟨s.filter, r.pieces ++ s.pieces⟩
termination_by bytes => bytes.length
decreasing_by
  · have := (List.dropWhile_suffix (l := rest) isText).length_le
    simp only [List.length_cons]
    omega
  · simp

/-- Read `bytes`: whole sequences, and whole characters, held back until their
end comes. -/
def feed (f : Filter) (bytes : List UInt8) : Fed :=
  (f.feedLoop bytes).andThen flush

def feedAll (f : Filter) : List (List UInt8) → Fed
  | [] => ⟨f, []⟩
  | chunk :: chunks => (f.feed chunk).andThen (·.feedAll chunks)

/-- Feeds one after another, cut anywhere between them. -/
theorem feedAll_append (f : Filter) (l₁ l₂ : List (List UInt8)) :
    f.feedAll (l₁ ++ l₂) = (f.feedAll l₁).andThen (·.feedAll l₂) := by
  induction l₁ generalizing f with
  | nil => rfl
  | cons chunk l₁ ih =>
    simp only [List.cons_append, feedAll, Fed.andThen, ih, List.append_assoc]

/-- One chunk more. -/
theorem feedAll_snoc (f : Filter) (chunks : List (List UInt8)) (chunk : List UInt8) :
    f.feedAll (chunks ++ [chunk]) = (f.feedAll chunks).andThen (·.feed chunk) := by
  rw [feedAll_append]
  simp only [Fed.andThen, feedAll, List.append_nil]

end Filter

end Koh.Stream
