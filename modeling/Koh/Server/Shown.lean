import Koh.Stream.Filter

/-!
# What a program shows

`Shown`, from `proto.rs`, and how a session makes it of what its filter passes, from
`server/session.rs`.

## Main definitions

- `MarkText`: a mark a terminal reads
- `Shown`: a message that tells what a program shows
- `shownOf`, `coalesce`, `redrawn`, `cut`: messages of pieces
- `Token`, `Shown.tokens`: the output a message carries, byte by byte and mark by mark

## Main results

- `tokens_coalesce`: joining messages changes no output
- `tokens_redrawn`: nor does cutting a redraw into them
-/

namespace Koh.Server

open Koh.Stream

abbrev Bytes := List UInt8

/-- Which input of a connection's: the first is 1, and 0 is none yet. -/
abbrev InputSeq := ℕ

/-- Whether a terminal reads a mark: printable, of at most `maxMark` bytes, no nonce,
never a state report. -/
def validMark (bytes : Bytes) : Bool :=
  bytes ≠ [] && bytes.length ≤ maxMark && bytes.all (fun b => 0x20 ≤ b && b < 0x7f) &&
    !(fields bytes).any (noncePrefix.isPrefixOf ·) && bytes.head? ≠ some 0x53

/-- A shell mark as `OSC 133 ;` would carry it. -/
structure MarkText where
  bytes : Bytes
  valid : validMark bytes = true
  deriving DecidableEq

def MarkText.new (bytes : Bytes) : Option MarkText :=
  if h : validMark bytes = true then some ⟨bytes, h⟩ else none

structure TtyModes where
  echo : Bool
  line : Bool
  deriving DecidableEq

/-- What the program in the foreground is doing. -/
inductive Activity where
  | reading
  | polling
  | waiting
  | busy
  | idle
  | unknown
  deriving DecidableEq

inductive Shown where
  | out (bytes : Bytes)
  | mark (text : MarkText)
  | report (activity : Activity) (input : InputSeq)
  | tty (modes : TtyModes)
  | echo (seq : InputSeq)
  | bell (count : ℕ)
  | title (text : String)
  | exit (code : ℕ) (read : Option InputSeq)
  | beat
  deriving DecidableEq

/-- A filter's piece as the wire carries it; a mark no terminal reads is dropped. -/
def shownOf : Piece → Option Shown
  | .out bytes => some (.out bytes)
  | .mark payload => (MarkText.new payload).map .mark

/-- `shown` after what was joined, in its last message if that holds it. -/
def join (joined : List Shown) (shown : Shown) : List Shown :=
  match joined.getLast?, shown with
  | some (.out last), .out more =>
    if last.length + more.length ≤ maxOut then joined.dropLast ++ [.out (last ++ more)]
    else joined ++ [shown]
  | _, _ => joined ++ [shown]

/-- Join the output in `held` into as few messages as hold it, in order. -/
def coalesce (held : List Shown) : List Shown := held.foldl join []

def midCharacter (rest : Bytes) (i : ℕ) : Bool :=
  i < rest.length && rest[i]?.any fun b => b &&& 0xc0 == 0x80

/-- Back from `i` to the start of a character. The subtraction saturates: `none` where the loop
stays at 0, inside a character, and never ends. -/
def characterStart (rest : Bytes) : ℕ → Option ℕ
  | 0 => if midCharacter rest 0 then none else some 0
  | i + 1 => if midCharacter rest (i + 1) then characterStart rest i else some (i + 1)

/-- A redraw's output in messages of at most `maxOut` bytes, each ending on a whole
character; `none` where the loop never ends. -/
def redrawnOut (rest : Bytes) : Option (List Shown) :=
  if rest = [] then some []
  else match characterStart rest (min rest.length maxOut) with
    | none => none
    | some i => (redrawnOut (rest.drop (max i 1))).map (.out (rest.take (max i 1)) :: ·)
termination_by rest.length
decreasing_by
  have := List.length_pos_iff.mpr ‹rest ≠ []›
  rw [List.length_drop]
  omega

/-- A redraw's piece as the wire carries it, if that ends. -/
def redrawn : Piece → Option (List Shown)
  | .out bytes => redrawnOut bytes
  | piece => some (shownOf piece).toList

/-- A redraw's piece in messages. Where `redrawn` never ends, the session does nothing more; the
piece is whole here. -/
def cut (piece : Piece) : List Shown := (redrawn piece).getD (shownOf piece).toList

theorem cut_out (bytes : Bytes) : cut (.out bytes) = (redrawnOut bytes).getD [.out bytes] := rfl

/-! ### The output that messages carry -/

/-- A piece of output that no message divides. -/
inductive Token where
  | byte (b : UInt8)
  | mark (text : MarkText)
  deriving DecidableEq

/-- The output a message carries. -/
def Shown.tokens : Shown → List Token
  | .out bytes => bytes.map .byte
  | .mark text => [.mark text]
  | _ => []

/-- The output that messages carry, in order. -/
def tokens (messages : List Shown) : List Token := messages.flatMap Shown.tokens

/-- The output that a filter passes: the bytes it gives out, and the marks a terminal
reads. -/
def passed (pieces : List Piece) : List Token := tokens (pieces.filterMap shownOf)

@[simp] theorem tokens_nil : tokens [] = [] := rfl

/-- The tokens of one message more. -/
@[simp] theorem tokens_cons (shown : Shown) (messages : List Shown) :
    tokens (shown :: messages) = shown.tokens ++ tokens messages :=
  List.flatMap_cons

/-- The tokens of two lists. -/
@[simp] theorem tokens_append (l₁ l₂ : List Shown) : tokens (l₁ ++ l₂) = tokens l₁ ++ tokens l₂ :=
  List.flatMap_append

/-- What two lists of pieces pass. -/
theorem passed_append (l₁ l₂ : List Piece) : passed (l₁ ++ l₂) = passed l₁ ++ passed l₂ := by
  rw [passed, List.filterMap_append, tokens_append]
  rfl

/-- A message joined has the tokens it has alone. -/
theorem tokens_join (joined : List Shown) (shown : Shown) :
    tokens (join joined shown) = tokens joined ++ shown.tokens := by
  unfold join
  split
  · next last more hlast =>
    split
    · obtain ⟨init, rfl⟩ := List.getLast?_eq_some_iff.mp hlast
      simp [Shown.tokens]
    · simp
  · simp

/-- So have any number of them. -/
theorem tokens_foldl_join (held joined : List Shown) :
    tokens (held.foldl join joined) = tokens joined ++ tokens held := by
  induction held generalizing joined with
  | nil => simp
  | cons shown held ih =>
    rw [List.foldl_cons, ih, tokens_join, tokens_cons, List.append_assoc]

/-- Joining messages changes no output. -/
theorem tokens_coalesce (held : List Shown) : tokens (coalesce held) = tokens held :=
  tokens_foldl_join held []

/-- A cut redraw is its bytes. -/
theorem tokens_redrawnOut {rest : Bytes} {shown : List Shown} (h : redrawnOut rest = some shown) :
    tokens shown = rest.map .byte := by
  fun_induction redrawnOut rest generalizing shown with
  | case1 =>
    cases h
    rfl
  | case2 => cases h
  | case3 rest hne i hstart ih =>
    obtain ⟨shown, hrest, rfl⟩ := Option.map_eq_some_iff.mp h
    rw [tokens_cons, ih hrest]
    show (rest.take (max i 1)).map Token.byte ++ (rest.drop (max i 1)).map Token.byte =
      rest.map .byte
    rw [← List.map_append, List.take_append_drop]

/-- Cutting a redraw's piece into messages changes no output. -/
theorem tokens_cut (piece : Piece) : tokens (cut piece) = passed [piece] := by
  cases piece with
  | out bytes =>
    rw [cut_out]
    cases h : redrawnOut bytes with
    | none => rfl
    | some shown =>
      refine (tokens_redrawnOut h).trans ?_
      simp [passed, shownOf, Shown.tokens]
  | mark payload =>
    cases h : MarkText.new payload with
    | none => simp [cut, redrawn, shownOf, passed, h]
    | some text => simp [cut, redrawn, shownOf, passed, h]

/-- Cutting a redraw into messages changes no output. -/
theorem tokens_redrawn (pieces : List Piece) : tokens (pieces.flatMap cut) = passed pieces := by
  induction pieces with
  | nil => rfl
  | cons piece pieces ih =>
    rw [List.flatMap_cons, tokens_append, ih, tokens_cut, ← passed_append]
    rfl

/-! ### Messages of output only -/

/-- Whether a message carries output: bytes, or a mark. -/
def Shown.isOutput : Shown → Bool
  | .out _ | .mark _ => true
  | _ => false

/-- What a piece is shown as is output. -/
theorem isOutput_of_shownOf {piece : Piece} {shown : Shown} (h : shownOf piece = some shown) :
    shown.isOutput = true := by
  cases piece with
  | out bytes =>
    cases h
    rfl
  | mark payload =>
    obtain ⟨text, -, rfl⟩ := Option.map_eq_some_iff.mp h
    rfl

/-- What is joined is output. -/
theorem isOutput_join {joined : List Shown} {shown : Shown}
    (hjoined : ∀ m ∈ joined, m.isOutput = true) (hshown : shown.isOutput = true) :
    ∀ m ∈ join joined shown, m.isOutput = true := by
  have hpush : ∀ m ∈ joined ++ [shown], m.isOutput = true := by
    intro m hm
    rcases List.mem_append.mp hm with hold | hnew
    · exact hjoined m hold
    · rw [List.mem_singleton] at hnew
      rwa [hnew]
  unfold join
  split
  · split
    · intro m hm
      rcases List.mem_append.mp hm with hold | hnew
      · exact hjoined m (List.mem_of_mem_dropLast hold)
      · rw [List.mem_singleton] at hnew
        rw [hnew]
        rfl
    · exact hpush
  · exact hpush

/-- So is what is coalesced. -/
theorem isOutput_coalesce {held : List Shown} (h : ∀ m ∈ held, m.isOutput = true) :
    ∀ m ∈ coalesce held, m.isOutput = true := by
  suffices ∀ joined : List Shown, (∀ m ∈ joined, m.isOutput = true) →
      ∀ m ∈ held.foldl join joined, m.isOutput = true from this [] (by simp)
  induction held with
  | nil => exact fun joined hjoined => hjoined
  | cons shown held ih =>
    intro joined hjoined
    have hjoin := isOutput_join hjoined (h shown List.mem_cons_self)
    exact ih (fun m hm => h m (List.mem_cons_of_mem _ hm)) _ hjoin

/-- So is a redraw, cut. -/
theorem isOutput_redrawnOut {rest : Bytes} {shown : List Shown}
    (h : redrawnOut rest = some shown) : ∀ m ∈ shown, m.isOutput = true := by
  fun_induction redrawnOut rest generalizing shown with
  | case1 =>
    cases h
    simp
  | case2 => cases h
  | case3 rest hne i hstart ih =>
    obtain ⟨shown, hrest, rfl⟩ := Option.map_eq_some_iff.mp h
    exact List.forall_mem_cons.mpr ⟨rfl, ih hrest⟩

/-- So is any piece of it. -/
theorem isOutput_cut (piece : Piece) : ∀ m ∈ cut piece, m.isOutput = true := by
  have hwhole : ∀ m ∈ (shownOf piece).toList, m.isOutput = true :=
    fun m hm => isOutput_of_shownOf (Option.mem_toList.mp hm)
  cases piece with
  | out bytes =>
    rw [cut_out]
    cases h : redrawnOut bytes with
    | none => exact hwhole
    | some shown => exact isOutput_redrawnOut h
  | mark payload => exact hwhole

end Koh.Server
