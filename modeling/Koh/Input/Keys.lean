import Mathlib.Data.List.Basic
import Mathlib.Data.List.Infix

/-!
# The escape prefix

`Keys::take` from `client/input.rs`: what was decoded of the user's terminal is forwarded, but for
the escape prefix and its commands, the terminal's answers, and pastes that are too long.

## Main definitions

- `Decoded`, `InputEvent`: an input, and what the server gets of it
- `Keys`, `Keys.take`: the input machine, and one read
- `Keys.takeAll`: reads one after another, up to a quit
- `Saying`: inputs that mean something together
- `Account`: what came of inputs

## Main results

- `take_reads`: every split into reads comes to the same, and each input that is no part of a
  command is forwarded once, in order

## Design notes

The decoder is fux-vt's, and so is `key_bytes`, a parameter here (`legacy`): what a keystroke is in
xterm's legacy bytes. `reply` lets the decoder expect answers; that changes how later bytes are
decoded, and nothing here.
-/

namespace Koh.Input

/-! ### Keys, as they are decoded and on the wire -/

inductive Direction where
  | up
  | down
  | left
  | right
  deriving DecidableEq

inductive Key where
  | char (c : Char)
  | enter
  | tab
  | escape
  | backspace
  | delete
  | insert
  | arrow (direction : Direction)
  | home
  | ends
  | pageUp
  | pageDown
  | f (number : UInt8)
  deriving DecidableEq

structure Modifiers where
  shift : Bool
  alt : Bool
  ctrl : Bool
  deriving DecidableEq

/-- What a kitty-protocol terminal reports of a key. -/
structure Kitty where
  code : Option UInt32
  shifted : Option UInt32
  base : Option UInt32
  mods : UInt8
  deriving DecidableEq

structure Keystroke where
  key : Key
  mods : Modifiers
  kitty : Option Kitty
  deriving DecidableEq

inductive WireKeyCode where
  | char (c : Char)
  | enter
  | tab
  | escape
  | backspace
  | delete
  | insert
  | up
  | down
  | left
  | right
  | home
  | ends
  | pageUp
  | pageDown
  | f (number : UInt8)
  deriving DecidableEq

structure WireKey where
  key : WireKeyCode
  mods : UInt8
  kitty : Option Kitty
  deriving DecidableEq

inductive MouseButton where
  | left
  | middle
  | right
  | wheelUp
  | wheelDown
  | wheelLeft
  | wheelRight
  | back
  | forward
  deriving DecidableEq

inductive MouseAction where
  | press (button : MouseButton)
  | release (button : Option MouseButton)
  | motion (button : Option MouseButton)
  deriving DecidableEq

structure Mouse (Mods : Type) where
  action : MouseAction
  mods : Mods
  row : UInt16
  col : UInt16
  deriving DecidableEq

def bitsOf (mods : Modifiers) : UInt8 :=
  (if mods.shift then 1 else 0) ||| (if mods.alt then 2 else 0) ||| (if mods.ctrl then 4 else 0)

def WireKeyCode.ofKey : Key → WireKeyCode
  | .char c => .char c
  | .enter => .enter
  | .tab => .tab
  | .escape => .escape
  | .backspace => .backspace
  | .delete => .delete
  | .insert => .insert
  | .arrow .up => .up
  | .arrow .down => .down
  | .arrow .left => .left
  | .arrow .right => .right
  | .home => .home
  | .ends => .ends
  | .pageUp => .pageUp
  | .pageDown => .pageDown
  | .f number => .f number

/-- A code that is no Unicode scalar (a terminal's garbage) is dropped. -/
def scalar (code : Option UInt32) : Option UInt32 := code.filter (Char.isValidCharNat ·.toNat)

def WireKey.ofStroke (stroke : Keystroke) : WireKey where
  key := .ofKey stroke.key
  mods := bitsOf stroke.mods
  kitty := stroke.kitty.map fun k => ⟨scalar k.code, scalar k.shifted, scalar k.base, k.mods⟩

def Mouse.wire (event : Mouse Modifiers) : Mouse UInt8 :=
  ⟨event.action, bitsOf event.mods, event.row, event.col⟩

/-! ### What is decoded -/

inductive Scheme where
  | dark
  | light
  deriving DecidableEq

structure Rgb where
  red : UInt8
  green : UInt8
  blue : UInt8
  deriving DecidableEq

/-- An answer of the terminal's. -/
inductive Reply where
  | scheme (scheme : Scheme)
  | foreground (rgb : Rgb)
  | background (rgb : Rgb)
  | palette (index : UInt8) (rgb : Rgb)
  | attributes
  | mode
  | kittyFlags
  | cellSize
  | underlineStyles
  deriving DecidableEq

inductive Decoded where
  | key (stroke : Keystroke)
  | mouse (event : Mouse Modifiers)
  | focusIn
  | focusOut
  | paste (text : List Char)
  | pasteTooLong
  | reply (reply : Reply)
  deriving DecidableEq

inductive InputEvent where
  | key (key : WireKey)
  | mouse (event : Mouse UInt8)
  | focus (gained : Bool)
  | paste (text : List Char)
  deriving DecidableEq

/-- What the server gets of one input, if anything. -/
def InputEvent.fromInput : Decoded → Option InputEvent
  | .key stroke => some (.key (.ofStroke stroke))
  | .mouse event => some (.mouse event.wire)
  | .focusIn => some (.focus true)
  | .focusOut => some (.focus false)
  | .paste text => some (.paste text)
  | .pasteTooLong => none
  | .reply _ => none

/-! ### The terminal's colours -/

structure WireColours where
  foreground : Option Rgb
  background : Option Rgb
  palette : List (Option Rgb)
  scheme : Option Scheme
  deriving DecidableEq

def WireColours.unknown : WireColours := ⟨none, none, List.replicate 16 none, none⟩

def WireColours.known (colours : WireColours) : Bool :=
  colours.foreground.isSome || colours.background.isSome || colours.scheme.isSome ||
    colours.palette.any Option.isSome

def ascii (text : String) : List UInt8 := text.toList.map fun c => c.toNat.toUInt8

/-- A question, as an OSC. -/
def osc (text : String) : List UInt8 := ascii ("\x1b]" ++ text ++ "\x1b\\")

/-- The question that ends a round of questions. -/
def attributesQuery : List UInt8 := ascii "\x1b[c"

/-- The questions for the colours, without the one that ends their round. -/
def colourQuestions : List UInt8 :=
  osc "10;?" ++ osc "11;?" ++ (List.range 16).flatMap fun n => osc ("4;" ++ toString n ++ ";?")

def colourQueries : List UInt8 := colourQuestions ++ attributesQuery

def queries (colours : Bool) : List UInt8 :=
  (if colours then colourQuestions else []) ++ ascii "\x1b[?996n" ++ attributesQuery

/-! ### The input machine -/

structure Read where
  events : List InputEvent
  quit : Bool
  suspend : Bool
  colours : Option WireColours
  pasteTooLong : Bool
  deriving DecidableEq

def Read.nothing : Read := ⟨[], false, false, none, false⟩

structure Keys where
  /-- The escape prefix, typed: what the next key does. -/
  prefixed : Option Keystroke
  /-- The terminal's colours as its answers said them, while they are told. -/
  colours : Option WireColours
  /-- A round of colour questions is out, its last answer not in. -/
  asked : Bool
  /-- The terminal was asked to report a new scheme. -/
  reports : Bool
  /-- Questions for the terminal. -/
  ask : List UInt8
  deriving DecidableEq

/-- `ESCAPE_PREFIX`, Ctrl-^. -/
def escapePrefix : UInt8 := 0x1e

/-- `SUSPEND_KEY`, Ctrl-Z. -/
def suspendKey : UInt8 := 0x1a

/-- `.`, which quits after the prefix, and `^`, which is the prefix typed for itself. -/
def quitKey : UInt8 := 0x2e
def caretKey : UInt8 := 0x5e

namespace Keys

def new (colours : Bool) : Keys where
  prefixed := none
  colours := if colours then some .unknown else none
  asked := colours
  reports := false
  ask := queries colours

/-- An answer or report from the terminal: its colours are kept while they are told. -/
def reply (keys : Keys) (said : Reply) : Keys × Option WireColours :=
  match keys.colours with
  | none => (keys, none)
  | some colours =>
    match said with
    | .scheme scheme =>
      let asks := (if keys.reports then [] else ascii "\x1b[?2031h") ++
        if keys.asked then [] else colourQueries
      ({ keys with
        colours := some { colours with scheme := some scheme }
        reports := true
        asked := true
        ask := keys.ask ++ asks }, none)
    | .foreground rgb =>
      ({ keys with colours := some { colours with foreground := some rgb } }, none)
    | .background rgb =>
      ({ keys with colours := some { colours with background := some rgb } }, none)
    | .palette index rgb =>
      let palette := colours.palette.set index.toNat (some rgb)
      ({ keys with colours := some { colours with palette := palette } }, none)
    | .attributes =>
      if keys.asked then
        ({ keys with asked := false }, if colours.known then some colours else none)
      else (keys, none)
    | .mode | .kittyFlags | .cellSize | .underlineStyles => (keys, none)

variable (legacy : Keystroke → List UInt8)

/-- The legacy bytes of an input that is a key, where they matter: the prefix is a control, so a
key without Ctrl can only matter after one. -/
def keyOf (keys : Keys) : Decoded → Option (List UInt8)
  | .key stroke => if stroke.mods.ctrl || keys.prefixed.isSome then some (legacy stroke) else none
  | _ => none

/-- The user's input: the prefix and its commands are taken, and all else goes on. -/
def typed (keys : Keys) (read : Read) (input : Decoded) : Keys × Read :=
  let key := keys.keyOf legacy input
  match keys.prefixed with
  | some stroke =>
    let keys := { keys with prefixed := none }
    if key = some [quitKey] then (keys, { read with quit := true })
    else if key = some [suspendKey] then (keys, { read with suspend := true })
    else if key = some [escapePrefix] ∨ key = some [caretKey] then
      -- The prefix typed for itself: one Ctrl-^ goes on.
      (keys, { read with events := read.events ++ [.key (.ofStroke stroke)] })
    else
      (keys, { read with
        events := read.events ++ .key (.ofStroke stroke) :: (InputEvent.fromInput input).toList })
  | none =>
    if key = some [escapePrefix] then
      match input with
      | .key stroke => ({ keys with prefixed := some stroke }, read)
      | _ => (keys, read)
    else (keys, { read with events := read.events ++ (InputEvent.fromInput input).toList })

/-- One input is taken: the terminal's answers, and a paste that is too long, go no further. -/
def takeOne (keys : Keys) (read : Read) (input : Decoded) : Keys × Read :=
  match input with
  | .key _ | .mouse _ | .focusIn | .focusOut | .paste _ => keys.typed legacy read input
  | .pasteTooLong => (keys, { read with pasteTooLong := true })
  | .reply said =>
    ((keys.reply said).1, { read with colours := (keys.reply said).2.or read.colours })

/-- Decoded input is taken, up to a quit. -/
def takeFrom (keys : Keys) (read : Read) : List Decoded → Keys × Read
  | [] => (keys, read)
  | input :: decoded =>
    let (keys, read) := takeOne legacy keys read input
    if read.quit then (keys, read) else takeFrom keys read decoded

def take (keys : Keys) (decoded : List Decoded) : Keys × Read :=
  takeFrom legacy keys .nothing decoded

/-- Reads one after another: the client goes once one quits. -/
def takeAll (keys : Keys) : List (List Decoded) → Keys × List Read
  | [] => (keys, [])
  | decoded :: reads =>
    let (keys, read) := take legacy keys decoded
    if read.quit then (keys, [read])
    else
      let (keys, more) := takeAll keys reads
      (keys, read :: more)

end Keys

/-! ### Reads joined -/

namespace Read

def join (read more : Read) : Read where
  events := read.events ++ more.events
  quit := read.quit || more.quit
  suspend := read.suspend || more.suspend
  colours := more.colours.or read.colours
  pasteTooLong := read.pasteTooLong || more.pasteTooLong

def joined (reads : List Read) : Read := reads.foldr join nothing

@[simp] theorem join_nothing (read : Read) : read.join nothing = read := by
  simp [join, nothing]

end Read

variable {legacy : Keystroke → List UInt8}

namespace Keys

/-- What was read before has no part in what is taken. -/
theorem typed_join (keys : Keys) (r read : Read) (input : Decoded) :
    keys.typed legacy (r.join read) input =
      ((keys.typed legacy read input).1, r.join (keys.typed legacy read input).2) := by
  simp only [typed]
  split
  · split_ifs <;> simp [Read.join]
  · split_ifs
    · cases input <;> rfl
    · simp [Read.join]

/-- What came before changes nothing of what one input gives. -/
theorem takeOne_join (keys : Keys) (r read : Read) (input : Decoded) :
    keys.takeOne legacy (r.join read) input =
      ((keys.takeOne legacy read input).1, r.join (keys.takeOne legacy read input).2) := by
  cases input with
  | pasteTooLong => simp [takeOne, Read.join]
  | reply said => simp [takeOne, Read.join, Option.or_assoc]
  | _ => exact typed_join keys r read _

/-- Nor of what all of them give. -/
theorem takeFrom_join (keys : Keys) {r : Read} (hr : r.quit = false) (read : Read)
    (decoded : List Decoded) :
    keys.takeFrom legacy (r.join read) decoded =
      ((keys.takeFrom legacy read decoded).1, r.join (keys.takeFrom legacy read decoded).2) := by
  induction decoded generalizing keys read with
  | nil => rfl
  | cons input decoded ih =>
    have hquit : ∀ more : Read, (r.join more).quit = more.quit := by
      intro more
      simp [Read.join, hr]
    simp only [takeFrom, takeOne_join, hquit]
    split
    · rfl
    · exact ih _ _

/-- Inputs after others are taken, unless those quit. -/
theorem takeFrom_append (keys : Keys) (read : Read) (decoded more : List Decoded)
    (h : read.quit = false) :
    keys.takeFrom legacy read (decoded ++ more) =
      if (keys.takeFrom legacy read decoded).2.quit = true then keys.takeFrom legacy read decoded
      else (keys.takeFrom legacy read decoded).1.takeFrom legacy
        (keys.takeFrom legacy read decoded).2 more := by
  induction decoded generalizing keys read with
  | nil => simp [takeFrom, h]
  | cons input decoded ih =>
    simp only [List.cons_append, takeFrom]
    by_cases hquit : (keys.takeOne legacy read input).2.quit = true
    · simp only [hquit, ↓reduceIte]
    · simp only [hquit, Bool.false_eq_true, ↓reduceIte]
      exact ih _ _ (by simpa using hquit)

/-- Every split into reads comes to what the whole comes to. -/
theorem takeAll_flatten (keys : Keys) (reads : List (List Decoded)) :
    ((keys.takeAll legacy reads).1, Read.joined (keys.takeAll legacy reads).2) =
      keys.take legacy reads.flatten := by
  induction reads generalizing keys with
  | nil => rfl
  | cons decoded reads ih =>
    rw [List.flatten_cons, take, takeFrom_append _ _ _ _ rfl, takeAll]
    simp only [take]
    by_cases hquit : (keys.takeFrom legacy .nothing decoded).2.quit = true
    · simp only [hquit, ↓reduceIte]
      simp [Read.joined]
    · have hquit : (keys.takeFrom legacy .nothing decoded).2.quit = false := by simpa using hquit
      have hjoin := @takeFrom_join legacy (keys.takeFrom legacy .nothing decoded).1 _ hquit
        .nothing reads.flatten
      rw [Read.join_nothing] at hjoin
      have hmore := ih (keys.takeFrom legacy .nothing decoded).1
      rw [take] at hmore
      simp only [hquit, Bool.false_eq_true, ↓reduceIte, hjoin, ← hmore]
      rfl

end Keys

/-! ### What inputs say -/

/-- An input of the user's: no answer, and no paste that is too long. -/
def Decoded.isInput : Decoded → Bool
  | .key _ | .mouse _ | .focusIn | .focusOut | .paste _ => true
  | .pasteTooLong => false
  | .reply _ => false

/-- Inputs that mean something together. -/
inductive Saying where
  | one (input : Decoded)
  /-- The escape prefix, and a second input that is no command. -/
  | both (stroke : Keystroke) (input : Decoded)
  /-- The prefix typed for itself. -/
  | literal (stroke second : Keystroke)
  | suspend (stroke second : Keystroke)
  | quit (stroke second : Keystroke)
  deriving DecidableEq

/-- A keystroke is the escape prefix. -/
def Escapes (legacy : Keystroke → List UInt8) (stroke : Keystroke) : Prop :=
  stroke.mods.ctrl = true ∧ legacy stroke = [escapePrefix]

namespace Saying

def inputs : Saying → List Decoded
  | one input => [input]
  | both stroke input => [.key stroke, input]
  | literal stroke second | suspend stroke second | quit stroke second => [.key stroke, .key second]

/-- The inputs that go on to the program. -/
def forwards : Saying → List Decoded
  | one input => [input]
  | both stroke input => [.key stroke, input]
  | literal stroke _ => [.key stroke]
  | suspend _ _ | quit _ _ => []

def isSuspend : Saying → Bool
  | suspend _ _ => true
  | _ => false

def isQuit : Saying → Bool
  | quit _ _ => true
  | _ => false

/-- What makes inputs mean this. -/
def Valid (legacy : Keystroke → List UInt8) : Saying → Prop
  | one input => input.isInput = true ∧ ∀ stroke, input = .key stroke → ¬ Escapes legacy stroke
  | both stroke input => Escapes legacy stroke ∧ input.isInput = true ∧
    ∀ second, input = .key second →
      legacy second ∉ [[quitKey], [suspendKey], [escapePrefix], [caretKey]]
  | literal stroke second => Escapes legacy stroke ∧ legacy second ∈ [[escapePrefix], [caretKey]]
  | suspend stroke second => Escapes legacy stroke ∧ legacy second = [suspendKey]
  | quit stroke second => Escapes legacy stroke ∧ legacy second = [quitKey]

end Saying

/-- What came of inputs: they are what was said, one saying after another, and the prefix that is
held; what was said went on, each input once; and the commands were taken. -/
structure Account (legacy : Keystroke → List UInt8) (taken : List Decoded)
    (sayings : List Saying) (keys : Keys) (read : Read) : Prop where
  valid : ∀ saying ∈ sayings, saying.Valid legacy
  held : ∀ stroke, keys.prefixed = some stroke → Escapes legacy stroke
  inputs : taken.filter Decoded.isInput =
    sayings.flatMap Saying.inputs ++ (keys.prefixed.map Decoded.key).toList
  events : read.events.map some = (sayings.flatMap Saying.forwards).map InputEvent.fromInput
  suspends : read.suspend = sayings.any Saying.isSuspend
  quits : read.quit = sayings.any Saying.isQuit
  /-- A quit is the last that is said. -/
  last : sayings.dropLast.any Saying.isQuit = false
  pastes : read.pasteTooLong = true ↔ .pasteTooLong ∈ taken

namespace Account

variable {taken : List Decoded} {sayings : List Saying} {keys : Keys} {read : Read}

/-- Nothing is taken, and nothing is given. -/
theorem new (legacy : Keystroke → List UInt8) (colours : Bool) :
    Account legacy [] [] (.new colours) .nothing where
  valid := by simp
  held stroke h := by cases h
  inputs := rfl
  events := rfl
  suspends := rfl
  quits := rfl
  last := rfl
  pastes := by simp [Read.nothing]

/-- An answer says nothing, and a paste that is too long. -/
theorem silent (h : Account legacy taken sayings keys read) {input : Decoded}
    (hinput : input.isInput = false) :
    Account legacy (taken ++ [input]) sayings (keys.takeOne legacy read input).1
      (keys.takeOne legacy read input).2 := by
  cases input with
  | pasteTooLong =>
    exact { h with
      inputs := by rw [List.filter_append, h.inputs]; simp [Decoded.isInput, Keys.takeOne]
      pastes := by simp [Keys.takeOne] }
  | reply said =>
    have hkept : (keys.reply said).1.prefixed = keys.prefixed := by
      simp only [Keys.reply]
      split
      · rfl
      · split <;> first | rfl | (split <;> rfl)
    exact {
      valid := h.valid
      held := by
        intro stroke hstroke
        exact h.held stroke (hkept ▸ hstroke)
      inputs := by
        rw [List.filter_append, h.inputs, Keys.takeOne, hkept]
        simp [Decoded.isInput]
      events := h.events
      suspends := h.suspends
      quits := h.quits
      last := h.last
      pastes := by simpa [Keys.takeOne] using h.pastes }
  | _ => cases hinput

/-- One more is said. -/
theorem told (h : Account legacy taken sayings keys read) (hquit : read.quit = false)
    {input : Decoded} (hinput : input.isInput = true) {saying : Saying} {keys' : Keys}
    {read' : Read} (hvalid : saying.Valid legacy)
    (hinputs : (keys.prefixed.map Decoded.key).toList ++ [input] = saying.inputs)
    (hkeys : keys'.prefixed = none)
    (hevents : ∃ more, read'.events = read.events ++ more ∧
      more.map some = saying.forwards.map InputEvent.fromInput)
    (hsuspend : read'.suspend = (read.suspend || saying.isSuspend))
    (hquits : read'.quit = saying.isQuit) (hpaste : read'.pasteTooLong = read.pasteTooLong) :
    Account legacy (taken ++ [input]) (sayings ++ [saying]) keys' read' where
  valid := by
    intro said hsaid
    rcases List.mem_append.mp hsaid with hsaid | hsaid
    · exact h.valid said hsaid
    · rwa [List.mem_singleton.mp hsaid]
  held stroke hstroke := by
    rw [hkeys] at hstroke
    cases hstroke
  inputs := by
    rw [List.filter_append, h.inputs, hkeys]
    simp [hinput, ← hinputs]
  events := by
    obtain ⟨more, hmore, hforwards⟩ := hevents
    rw [hmore, List.map_append, h.events, hforwards]
    simp
  suspends := by rw [hsuspend, h.suspends]; simp
  quits := by
    have hnone := h.quits
    rw [hquit] at hnone
    rw [hquits, List.any_append, ← hnone]
    simp
  last := by rw [List.dropLast_concat, ← h.quits, hquit]
  pastes := by
    rw [hpaste, h.pastes]
    cases input <;> simp_all [Decoded.isInput]

/-- After the prefix, any key may matter. -/
theorem keyOf_held {stroke : Keystroke} {bytes : List UInt8} {input : Decoded}
    (h : keys.prefixed = some stroke) : keys.keyOf legacy input = some bytes ↔
      ∃ second, input = .key second ∧ legacy second = bytes := by
  cases input <;> simp [Keys.keyOf, h]

/-- With no prefix held, only a key with Ctrl may matter. -/
theorem keyOf_free {bytes : List UInt8} {input : Decoded} (h : keys.prefixed = none) :
    keys.keyOf legacy input = some bytes ↔
      ∃ stroke, input = .key stroke ∧ stroke.mods.ctrl = true ∧ legacy stroke = bytes := by
  cases input <;> simp [Keys.keyOf, h]

theorem fromInput_of_isInput {input : Decoded} (h : input.isInput = true) :
    (InputEvent.fromInput input).toList.map some = [InputEvent.fromInput input] := by
  cases input <;> first | rfl | cases h

/-- An input after the prefix is a command, or goes on behind the prefix. -/
theorem typed_held (h : Account legacy taken sayings keys read) (hquit : read.quit = false)
    {input : Decoded} (hinput : input.isInput = true) {stroke : Keystroke}
    (hstroke : keys.prefixed = some stroke) :
    ∃ saying, Account legacy (taken ++ [input]) (sayings ++ [saying])
      (keys.typed legacy read input).1 (keys.typed legacy read input).2 := by
  have hescapes := h.held stroke hstroke
  simp only [Keys.typed, hstroke]
  by_cases hq : keys.keyOf legacy input = some [quitKey]
  · rw [if_pos hq]
    obtain ⟨second, rfl, hsecond⟩ := (keyOf_held hstroke).mp hq
    refine ⟨.quit stroke second, h.told hquit hinput ⟨hescapes, hsecond⟩ ?_ rfl ⟨[], ?_, rfl⟩
      ?_ rfl rfl⟩
    · rw [hstroke]
      rfl
    · simp
    · simp [Saying.isSuspend]
  rw [if_neg hq]
  by_cases hs : keys.keyOf legacy input = some [suspendKey]
  · rw [if_pos hs]
    obtain ⟨second, rfl, hsecond⟩ := (keyOf_held hstroke).mp hs
    refine ⟨.suspend stroke second, h.told hquit hinput ⟨hescapes, hsecond⟩ ?_ rfl ⟨[], ?_, rfl⟩
      ?_ hquit rfl⟩
    · rw [hstroke]
      rfl
    · simp
    · simp [Saying.isSuspend]
  rw [if_neg hs]
  by_cases hl : keys.keyOf legacy input = some [escapePrefix] ∨
      keys.keyOf legacy input = some [caretKey]
  · rw [if_pos hl]
    have hsecond : ∃ second, input = .key second ∧
        legacy second ∈ [[escapePrefix], [caretKey]] := by
      rcases hl with hl | hl
      · obtain ⟨second, rfl, hsecond⟩ := (keyOf_held hstroke).mp hl
        exact ⟨second, rfl, by simp [hsecond]⟩
      · obtain ⟨second, rfl, hsecond⟩ := (keyOf_held hstroke).mp hl
        exact ⟨second, rfl, by simp [hsecond]⟩
    obtain ⟨second, rfl, hsecond⟩ := hsecond
    refine ⟨.literal stroke second, h.told hquit hinput ⟨hescapes, hsecond⟩ ?_ rfl
      ⟨_, rfl, rfl⟩ ?_ hquit rfl⟩
    · rw [hstroke]
      rfl
    · simp [Saying.isSuspend]
  rw [if_neg hl]
  refine ⟨.both stroke input, h.told hquit hinput ⟨hescapes, hinput, ?_⟩ ?_ rfl
    ⟨_, rfl, ?_⟩ ?_ hquit rfl⟩
  · rintro second rfl hmem
    have hkey : ∀ bytes, legacy second = bytes → keys.keyOf legacy (.key second) = some bytes :=
      fun bytes hbytes => (keyOf_held hstroke).mpr ⟨second, rfl, hbytes⟩
    simp only [List.mem_cons, List.not_mem_nil, or_false] at hmem
    rcases hmem with hmem | hmem | hmem | hmem
    · exact hq (hkey _ hmem)
    · exact hs (hkey _ hmem)
    · exact hl (.inl (hkey _ hmem))
    · exact hl (.inr (hkey _ hmem))
  · rw [hstroke]
    rfl
  · rw [List.map_cons, fromInput_of_isInput hinput]
    rfl
  · simp [Saying.isSuspend]

/-- An input with no prefix before it is the prefix, or goes on. -/
theorem typed_free (h : Account legacy taken sayings keys read) (hquit : read.quit = false)
    {input : Decoded} (hinput : input.isInput = true) (hfree : keys.prefixed = none) :
    ∃ sayings', Account legacy (taken ++ [input]) sayings'
      (keys.typed legacy read input).1 (keys.typed legacy read input).2 := by
  simp only [Keys.typed, hfree]
  by_cases he : keys.keyOf legacy input = some [escapePrefix]
  · rw [if_pos he]
    obtain ⟨stroke, rfl, hctrl, hstroke⟩ := (keyOf_free hfree).mp he
    exact ⟨sayings, { h with
      held := by
        rintro _ ⟨⟩
        exact ⟨hctrl, hstroke⟩
      inputs := by
        rw [List.filter_append, h.inputs, hfree]
        simp [Decoded.isInput]
      pastes := by simpa using h.pastes }⟩
  · rw [if_neg he]
    have hvalid : (Saying.one input).Valid legacy := by
      refine ⟨hinput, ?_⟩
      rintro stroke rfl ⟨hctrl, hstroke⟩
      exact he ((keyOf_free hfree).mpr ⟨stroke, rfl, hctrl, hstroke⟩)
    refine ⟨sayings ++ [.one input], h.told hquit hinput hvalid ?_ hfree ⟨_, rfl, ?_⟩ ?_ ?_ rfl⟩
    · rw [hfree]
      rfl
    · rw [fromInput_of_isInput hinput]
      rfl
    · simp [Saying.isSuspend]
    · exact hquit

/-- What one input comes to. -/
theorem takeOne (h : Account legacy taken sayings keys read) (hquit : read.quit = false)
    (input : Decoded) :
    ∃ sayings', Account legacy (taken ++ [input]) sayings'
      (keys.takeOne legacy read input).1 (keys.takeOne legacy read input).2 := by
  by_cases hinput : input.isInput = true
  · have htyped : keys.takeOne legacy read input = keys.typed legacy read input := by
      cases input <;> first | rfl | cases hinput
    rw [htyped]
    cases hstroke : keys.prefixed with
    | none => exact h.typed_free hquit hinput hstroke
    | some stroke =>
      obtain ⟨saying, hsaid⟩ := h.typed_held hquit hinput hstroke
      exact ⟨sayings ++ [saying], hsaid⟩
  · exact ⟨sayings, h.silent (by simpa using hinput)⟩

/-- What inputs come to, up to a quit. -/
theorem takeFrom (h : Account legacy taken sayings keys read) (hquit : read.quit = false)
    (decoded : List Decoded) :
    ∃ more sayings', more <+: decoded ∧
      ((keys.takeFrom legacy read decoded).2.quit = false → more = decoded) ∧
      Account legacy (taken ++ more) sayings' (keys.takeFrom legacy read decoded).1
        (keys.takeFrom legacy read decoded).2 := by
  induction decoded generalizing taken sayings keys read with
  | nil =>
    refine ⟨[], sayings, List.nil_prefix, fun _ => rfl, ?_⟩
    rw [List.append_nil]
    exact h
  | cons input decoded ih =>
    obtain ⟨sayings₁, h₁⟩ := h.takeOne hquit input
    simp only [Keys.takeFrom]
    by_cases hquit₁ : (keys.takeOne legacy read input).2.quit = true
    · rw [if_pos hquit₁]
      refine ⟨[input], sayings₁, ⟨decoded, rfl⟩, fun hnot => ?_, h₁⟩
      rw [hquit₁] at hnot
      cases hnot
    · rw [if_neg hquit₁]
      obtain ⟨more, sayings', hmore, hwhole, h'⟩ := ih h₁ (by simpa using hquit₁)
      refine ⟨input :: more, sayings', List.cons_prefix_cons.mpr ⟨rfl, hmore⟩, fun hnot => ?_, ?_⟩
      · rw [hwhole hnot]
      · simpa using h'

end Account

/-- Every split of what is decoded into reads comes to what the whole comes to, and so does the
machine; and of the whole, up to a quit, each input that is no part of a command, no answer and no
paste that is too long goes on once, in order. -/
theorem take_reads (legacy : Keystroke → List UInt8) (colours : Bool)
    (reads : List (List Decoded)) :
    ((Keys.new colours).takeAll legacy reads).1 =
        ((Keys.new colours).take legacy reads.flatten).1 ∧
      Read.joined ((Keys.new colours).takeAll legacy reads).2 =
        ((Keys.new colours).take legacy reads.flatten).2 ∧
      ∃ taken sayings, taken <+: reads.flatten ∧
        (((Keys.new colours).take legacy reads.flatten).2.quit = false → taken = reads.flatten) ∧
        Account legacy taken sayings ((Keys.new colours).take legacy reads.flatten).1
          ((Keys.new colours).take legacy reads.flatten).2 := by
  have hsplit := @Keys.takeAll_flatten legacy (.new colours) reads
  refine ⟨congrArg Prod.fst hsplit, congrArg Prod.snd hsplit, ?_⟩
  exact (Account.new legacy colours).takeFrom rfl reads.flatten

end Koh.Input
