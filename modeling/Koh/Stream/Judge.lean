import Koh.Stream.Utf8

/-!
# What becomes of a whole escape sequence

`judge` and the functions it asks, from `stream.rs`: whether a control sequence
or a device control string is a question (`csiAsks`, `dcsAsks`), what an OSC
comes to (`osc`), and which shell marks are relayed (`mark`).

## Main definitions

- `Policy`, `Marks`: what a filter lets through
- `Judged`: what becomes of a whole sequence
- `judge`: the decision itself
-/

namespace Koh.Stream

def ascii (cs : List Char) : List UInt8 := cs.map fun c => c.val.toUInt8

def ESC : UInt8 := 0x1b
def BEL : UInt8 := 0x07
def CAN : UInt8 := 0x18
def SUB : UInt8 := 0x1a
def ENQ : UInt8 := 0x05

def maxTitle : ℕ := 256

def maxMark : ℕ := 256

/-- Most bytes of base64 a clipboard write (OSC 52) carries. -/
def maxClipboard : ℕ := 16 * 1024

/-- Which shell marks a filter relays. -/
inductive Marks where
  /-- None: every OSC 133 is dropped. -/
  | drop
  /-- Every one. -/
  | all
  /-- Only those carrying `nonce=` this. -/
  | signed (nonce : List UInt8)
  deriving DecidableEq, Repr

structure Policy where
  marks : Marks
  clipboard : Bool
  links : Bool
  deriving DecidableEq, Repr

inductive Judged where
  | pass
  | drop
  /-- These bytes instead. -/
  | out (bytes : List UInt8)
  | mark (payload : List UInt8)
  deriving DecidableEq, Repr

/-! ### Lists of bytes -/

def stripSuffix (suffix l : List UInt8) : Option (List UInt8) :=
  if suffix.isSuffixOf l then some (l.take (l.length - suffix.length)) else none

/-- A suffix that is there is stripped. -/
theorem stripSuffix_append (l suffix : List UInt8) :
    stripSuffix suffix (l ++ suffix) = some l := by
  have hsuffix : suffix.isSuffixOf (l ++ suffix) = true :=
    List.isSuffixOf_iff_suffix.mpr (List.suffix_append l suffix)
  rw [stripSuffix, if_pos hsuffix, List.length_append, Nat.add_sub_cancel, List.take_left]

def stripPrefix (start l : List UInt8) : Option (List UInt8) :=
  if start.isPrefixOf l then some (l.drop start.length) else none

/-- `str::parse::<u32>`: digits, perhaps after a `+`, within 32 bits. -/
def parseU32 (text : List UInt8) : Option ℕ :=
  let digits := match text with
    | 0x2b :: b :: rest => b :: rest
    | _ => text
  if digits = [] then none
  else digits.foldlM (fun n b =>
    if 0x30 ≤ b ∧ b ≤ 0x39 then
      let v := n * 10 + (b.toNat - 0x30)
      if v < 2 ^ 32 then some v else none
    else none) 0

/-! ### Questions -/

/-- `0x20..=0x2f`. -/
def isIntermediate (b : UInt8) : Bool := 0x20 ≤ b && b ≤ 0x2f

/-- Whether a CSI's `body` (after `ESC [`) asks the terminal something. -/
def csiAsks (body : List UInt8) : Bool :=
  match body.getLast? with
  | none => false
  | some last =>
    let rest := body.dropLast
    let priv := rest.head?.filter (· ∈ ascii ['<', '=', '>', '?'])
    let rest := if priv.isSome then rest.drop 1 else rest
    let params := rest.takeWhile (!isIntermediate ·)
    let intermediates := rest.dropWhile (!isIntermediate ·)
    let first := parseU32 (params.takeWhile fun b => !(b ∈ ascii [';', ':']))
    let final (cs : List Char) := decide (last ∈ ascii cs)
    let privateIn (cs : List Char) := priv.all (decide <| · ∈ ascii cs)
    -- Device attributes; status and cursor reports; DECRQM; XTVERSION; the kitty keyboard
    -- flags; XTSMGRAPHICS; DECREQTPARM; DECRQLP.
    (privateIn ['>', '='] && intermediates == [] && final ['c'])
      || (privateIn ['?'] && intermediates == [] && final ['n'])
      || (privateIn ['?'] && intermediates == ascii ['$'] && final ['p'])
      || (priv.isSome && privateIn ['>'] && intermediates == [] && final ['q'])
      || (priv.isSome && privateIn ['?'] && intermediates == [] && final ['u', 'S'])
      || (priv.isNone && intermediates == [] && final ['x'])
      || (priv.isNone && intermediates == [0x27] && final ['|'])
      -- The window reports.
      || (priv.isNone && intermediates == [] && final ['t']
        && first.any (· ∈ [11, 13, 14, 15, 16, 18, 19, 20, 21]))

/-- Whether a DCS's `body` (after `ESC P`) asks the terminal something: DECRQSS
(`$q`) and XTGETTCAP (`+q`). -/
def dcsAsks (body : List UInt8) : Bool :=
  let head := body.dropWhile fun b => (0x30 ≤ b && b ≤ 0x39) || b == 0x3b
  (ascii ['$', 'q']).isPrefixOf head || (ascii ['+', 'q']).isPrefixOf head

/-! ### Operating system commands -/

/-- Whether `text` is base64, and not empty: what a clipboard write must be. -/
def base64 (text : List UInt8) : Bool :=
  text ≠ [] && text.all fun b =>
    (0x30 ≤ b && b ≤ 0x39) || (0x41 ≤ b && b ≤ 0x5a) || (0x61 ≤ b && b ≤ 0x7a)
      || decide (b ∈ ascii ['+', '/', '='])

/-- The fields of an OSC's data, between `;`s. -/
def fields (data : List UInt8) : List (List UInt8) := data.splitOn 0x3b

/-- The field that carries a mark's nonce starts so. -/
def noncePrefix : List UInt8 := ascii ['n', 'o', 'n', 'c', 'e', '=']

/-- The mark `data` (after `133;`) relays under `marks`, its nonce removed. -/
def mark (data : List UInt8) (marks : Marks) : Option (List UInt8) :=
  if data = [] ∨ maxMark < data.length ∨ ¬ data.all (fun b => 0x20 ≤ b && b < 0x7f) then none
  else
    let nonce := (fields data).findSome? (stripPrefix noncePrefix)
    let relayed : Bool := match marks, nonce with
      | .signed ours, some theirs => ours == theirs
      | .drop, _ | .signed _, _ => false
      | .all, _ => true
    if relayed = false then none
    -- A state report is the server's to make, never a program's.
    else if data.head? = some 0x53 then none
    else some (List.intercalate [0x3b] ((fields data).filter (!noncePrefix.isPrefixOf ·)))

/-- The title `data` says: no control in it, cut to its bound. -/
def title (data : List UInt8) : List Char :=
  ((fromUtf8Lossy data).filter (!isControl ·)).take maxTitle

/-- What an OSC, `seq` from its ESC to its terminator, comes to. -/
def osc (seq : List UInt8) (policy : Policy) : Judged :=
  let body := seq.drop 2
  let body := ((stripSuffix [BEL] body).orElse fun _ => stripSuffix [ESC, 0x5c] body).getD body
  let number := body.takeWhile (· != 0x3b)
  let data := (body.dropWhile (· != 0x3b)).drop 1
  if number = ascii ['1', '3', '3'] then
    match mark data policy.marks with
    | some m => .mark m
    | none => .drop
  else if number = ascii ['5', '2'] then
    -- A read of the clipboard is a question; a write passes if the clipboard may be set.
    let written : List UInt8 := (fields data)[1]?.getD []
    if policy.clipboard ∧ written.length ≤ maxClipboard ∧ base64 written then .pass else .drop
  else if number ∈ [ascii ['0'], ascii ['1'], ascii ['2']] then
    .out ([ESC, 0x5d] ++ number ++ [0x3b] ++ encode (title data) ++ [BEL])
  else if number = ascii ['8'] ∧ ¬ policy.links then .drop
  else if number ∈ [ascii ['4'], ascii ['1', '0'], ascii ['1', '1'], ascii ['1', '2'],
      ascii ['1', '3'], ascii ['1', '4'], ascii ['1', '5'], ascii ['1', '6'], ascii ['1', '7'],
      ascii ['1', '8'], ascii ['1', '9']] ∧ ascii ['?'] ∈ fields data then .drop
  else .pass

/-- Whether `seq`, a whole sequence but an OSC, asks the terminal something. -/
def asks (seq : List UInt8) : Bool :=
  if seq[1]? = some 0x5b then csiAsks (seq.drop 2)
  else if seq[1]? = some 0x50 then dcsAsks (seq.drop 2)
  -- DECID asks who the terminal is.
  else seq[1]? == some 0x5a && seq.length == 2

/-- What `seq`, a whole sequence from its ESC, comes to under `policy`. -/
def judge (seq : List UInt8) (policy : Policy) : Judged :=
  if seq[1]? = some 0x5d then osc seq policy
  else if asks seq then .drop
  else .pass

end Koh.Stream
