import Koh.Server.Sessions
import Koh.Server.Shown

/-!
# The prediction engine

`PredictionEngine`, from `predict.rs`: what the client guesses each key does to the screen, the
epochs that hide a guess until the program proves that it echoes, and what is drawn.

## Main definitions

- `Cell`, `Screen`: a cell as a prediction says it is, and what a frame shows
- `PredCell`, `Engine`: a guess, and the engine
- `Engine.newUserKey`, `Engine.cull`, `Engine.setTty`, `Engine.hold`, `Engine.overlay`: its
  operations

## Design notes

What a cell looks like is of a type of its own, with a default. The width of a text, and whether
a character goes on with a grapheme, are the terminal library's and come as `Graphemes`. Rows and
columns are numbers, and a guess past the last column a terminal can have is not made. Frames and
epochs saturate as the source's do. `keys` of a guess is no part of the code: the keys, by number,
that its glyph was typed with.
-/

namespace Koh.Predict

open Koh.Lib Koh.Server

inductive Half where
  | narrow
  /-- A wide glyph, whose right half is the next cell. -/
  | wide
  /-- The right half of the wide glyph to its left. -/
  | covered
  deriving DecidableEq

/-- A cell as a prediction says it is: its glyph (empty for a blank), its style, and which part of
a glyph it holds. -/
structure Cell (A : Type) where
  text : String
  attributes : A
  half : Half
  deriving DecidableEq

def isBlank (s : String) : Bool := s = "" || s = " "

def Cell.blank {A : Type} (cell : Cell A) : Bool := cell.half = .narrow && isBlank cell.text

/-- What a frame shows: each cell as `Cell::of` reads it. -/
structure Screen (A : Type) where
  size : Size
  cell : ℕ → ℕ → Option (Cell A)
  cursor : ℕ × ℕ
  isAlternate : Bool

structure Graphemes where
  width : String → ℕ
  continuesCluster : String → Char → Bool

/-- What to draw over the screen: the predictions shown, and the cursor. -/
structure Overlay (A : Type) where
  cells : List ((ℕ × ℕ) × Cell A)
  cursor : Option (ℕ × ℕ)

/-- A prediction for one cell, stamped with when it is graded and the epoch that hides it. -/
structure PredCell (A : Type) where
  expirationFrame : ℕ
  tentativeEpoch : ℕ
  /-- What the cell shows, or `none` when it changed to something not known: never drawn. -/
  guess : Option (Cell A)
  /-- The glyph this overwrote, so a rewrite back to it cannot confirm an epoch. -/
  original : String
  /-- The typed glyph (or its right half), whose style was borrowed from its neighbour. -/
  typed : Bool
  keys : List ℕ

/-- Where the predictions put the cursor, until a frame grades it. -/
structure Guessed where
  expirationFrame : ℕ
  tentativeEpoch : ℕ
  row : ℕ
  col : ℕ

inductive Line where
  | unknown
  /-- Enter was typed, in this input frame. -/
  | fresh (enter : ℕ)
  /-- The line began at `(row, col)`, where a frame showed the cursor. -/
  | started (row col : ℕ)
  deriving DecidableEq

inductive Validity where
  | pending
  | correct
  | correctNoCredit
  | incorrectOrExpired
  deriving DecidableEq

inductive Direction where
  | up
  | down
  | left
  | right
  deriving DecidableEq

inductive Key where
  | char (c : Char)
  | backspace
  | enter
  | arrow (d : Direction)
  /-- Any other, by a number. -/
  | other (n : ℕ)
  deriving DecidableEq

structure KeyPress where
  key : Key
  alt : Bool
  ctrl : Bool
  deriving DecidableEq

/-- A password prompt: lines read without echo. -/
def password (tty : TtyModes) : Bool := tty.line && !tty.echo

def u16Max : ℕ := 2 ^ 16 - 1

def before (a b : ℕ × ℕ) : Bool := a.1 < b.1 || (a.1 = b.1 && a.2 < b.2)

/-- What a key is predicted against: a screen on the primary screen whose PTY's modes are known and
are not a password prompt. -/
structure Context (A : Type) where
  screen : Screen A
  tty : TtyModes

structure Engine (A : Type) where
  cells : Dict (ℕ × ℕ) (PredCell A)
  cursor : Option Guessed
  predictionEpoch : ℕ
  confirmedEpoch : ℕ
  localFrameSent : ℕ
  lateAcked : ℕ
  /-- The newest input frame `hold` held. -/
  heldThrough : Option ℕ
  lastSize : Option Size
  tty : Option TtyModes
  /-- Trust from the last connection to the same session. -/
  carried : Bool
  line : Line

/-- The epoch a fresh predictor guesses in, one ahead of the confirmed one. -/
def firstEpoch : ℕ := 1

namespace Engine

variable {A : Type}

def new : Engine A := ⟨[], none, firstEpoch, 0, 0, 0, none, none, none, false, .unknown⟩

variable (e : Engine A)

/-- A fresh engine for a reconnect to the same session. -/
def reattached : Engine A :=
  { (new : Engine A) with carried := e.carried || e.predictionEpoch = e.confirmedEpoch }

def becomeTentative : Engine A :=
  { e with predictionEpoch := saturatingAdd e.predictionEpoch 1 }

def tentative (epoch : ℕ) : Bool := e.confirmedEpoch < epoch

def nextFrame : ℕ := saturatingAdd e.localFrameSent 1

/-- Where the line began is no longer sure once the guesses made on it are discarded. -/
def discardLine : Engine A :=
  match e.line with
  | .started _ _ => { e with line := .unknown }
  | _ => e

def reset : Engine A := ({ e with cells := [], cursor := none }).discardLine.becomeTentative

/-- How the program's PTY takes typed keys, as a frame said. -/
def setTty (tty : Option TtyModes) : Engine A :=
  let e := { e with tty := tty }
  match tty with
  | none => e
  | some modes =>
    if password modes then
      let e := if !e.cells.isEmpty || e.cursor.isSome then e.reset else e
      { e with carried := false }
    else if e.carried then
      { e with carried := false, confirmedEpoch := max e.confirmedEpoch e.predictionEpoch }
    else e

/-- What a key may be predicted against on `screen`. -/
def context (screen : Screen A) : Option (Context A) :=
  match e.tty with
  | none => none
  | some tty =>
    if password tty then none
    else if !screen.isAlternate && 0 < screen.size.rows && 0 < screen.size.cols then
      some ⟨screen, tty⟩
    else none

/-- What a cell shows, predicted if there is a prediction; `none` if it is not known. -/
def guessAt (ctx : Context A) (row col : ℕ) : Option (Cell A) :=
  match e.cells.lookup (row, col) with
  | none => ctx.screen.cell row col
  | some p => p.guess

/-- The keys that the glyph there was typed with, if it is predicted. -/
def keysAt (row col : ℕ) : List ℕ := ((e.cells.lookup (row, col)).map (·.keys)).getD []

/-- Predict `guess` at a place, stamped with the next frame, the current epoch and the glyph it
overwrites. -/
def place (ctx : Context A) (at_ : ℕ × ℕ) (guess : Option (Cell A)) (typed : Bool)
    (keys : List ℕ) : Engine A :=
  let original := ((ctx.screen.cell at_.1 at_.2).map (·.text)).getD ""
  let cell := ⟨e.nextFrame, e.predictionEpoch, guess, original, typed, keys⟩
  { e with cells := Dict.insert before e.cells at_ cell }

/-- Predict the typed glyph `cell`, and if it is wide, the cell it covers. -/
def placeGlyph (ctx : Context A) (row col : ℕ) (cell : Cell A) (keys : List ℕ) : Engine A :=
  let placed := e.place ctx (row, col) (some cell) true keys
  if cell.half = .wide ∧ col + 1 ≤ u16Max then
    placed.place ctx (row, col + 1) (some ⟨"", cell.attributes, .covered⟩) true keys
  else placed

/-- The predicted cursor's row and column, else the screen's. -/
def cursorAt (screen : Screen A) : ℕ × ℕ :=
  match e.cursor with
  | none => screen.cursor
  | some c => (c.row, c.col)

/-- Predict the cursor, in the current epoch, graded with the next frame. -/
def moveCursor (at_ : ℕ × ℕ) : Engine A :=
  { e with cursor := some ⟨e.nextFrame, e.predictionEpoch, at_.1, at_.2⟩ }

def newline (ctx : Context A) : Engine A :=
  let row := (e.cursorAt ctx.screen).1
  e.moveCursor (if row + 1 < ctx.screen.size.rows then row + 1 else row, 0)

def beginLine (screen : Screen A) : Engine A :=
  match e.line with
  | .fresh enter =>
    if e.cursor.isNone && decide (enter ≤ e.lateAcked) then
      { e with line := .started screen.cursor.1 screen.cursor.2 }
    else { e with line := .unknown }
  | _ => e

/-- A key not modelled: a new epoch, nothing predicted, and where the line began not known. -/
def unmodelled : Engine A := { e.becomeTentative with line := .unknown }

/-- The cell at a place, predicted or not, if it is a narrow blank. -/
def blank (ctx : Context A) (row col : ℕ) : Option (Cell A) :=
  (e.guessAt ctx row col).filter Cell.blank

/-- The glyph left of `(row, col)`, with its column: the cell before it, or the wide glyph whose
right half that is. -/
def glyphBefore (ctx : Context A) (row col : ℕ) : Option (ℕ × Cell A) :=
  if col = 0 then none
  else match e.guessAt ctx row (col - 1) with
    | none => none
    | some cell =>
      let found :=
        if cell.half = .covered then
          if col - 1 = 0 then none
          else (e.guessAt ctx row (col - 2)).map fun cell => (col - 2, cell)
        else some (col - 1, cell)
      found.filter fun (_, cell) => cell.text ≠ "" && cell.half ≠ .covered

/-- The style a glyph typed at `(row, col)` takes: its left neighbour's, if that shows one. -/
def neighbour [Inhabited A] (ctx : Context A) (row col : ℕ) : A :=
  if col = 0 then default
  else match e.guessAt ctx row (col - 1) with
    | none => default
    | some left => if left.text ≠ "" ∨ left.half = .covered then left.attributes else default

/-- Predict the character `c`, typed as a grapheme of its own. -/
def predictNew [Inhabited A] (g : Graphemes) (ctx : Context A) (row col : ℕ) (c : Char) (k : ℕ) :
    Engine A :=
  let text := String.singleton c
  let width := min (g.width text) u16Max
  let last := col + width
  if width = 0 ∨ ctx.screen.size.cols < last then e.unmodelled
  else if ¬ (List.range' col width).all fun at_ => (e.blank ctx row at_).isSome then e.unmodelled
  else
    let half := if width = 2 then .wide else .narrow
    let placed := e.placeGlyph ctx row col ⟨text, e.neighbour ctx row col, half⟩ [k]
    if last < ctx.screen.size.cols then placed.moveCursor (row, last)
    -- The last column: wrap or overwrite, which is not known; hidden until confirmed.
    else placed.becomeTentative.newline ctx

/-- The kernel echoes what is typed, so the program need not prove it does: the first epoch is
trusted. -/
def trustKernel (ctx : Context A) : Engine A :=
  if ctx.tty.echo then { e with confirmedEpoch := max e.confirmedEpoch firstEpoch } else e

/-- Predict the grapheme `c` goes on with or begins, typed at the cursor by key `k`. -/
def predictGlyph [Inhabited A] (g : Graphemes) (ctx : Context A) (c : Char) (k : ℕ) : Engine A :=
  let e := e.trustKernel ctx
  let (row, col) := e.cursorAt ctx.screen
  match (e.glyphBefore ctx row col).filter fun b => g.continuesCluster b.2.text c with
  | some (at_, cell) =>
    -- It joins the glyph before the cursor, as the terminal joins it when it is echoed.
    let joined := { cell with text := cell.text.push c }
    if g.width joined.text ≠ g.width cell.text then e.unmodelled
    else (e.placeGlyph ctx row at_ joined (e.keysAt row at_ ++ [k])).moveCursor (row, col)
  | none => e.predictNew g ctx row col c k

/-- Whether Backspace or Left may step back from `(row, col)`. -/
def mayStepBack (row col : ℕ) : Bool :=
  let overTyped := col ≠ 0 && (e.cells.lookup (row, col - 1)).any (·.typed)
  match e.line with
  | .started startRow start => if startRow = row then start < col else overTyped
  | _ => overTyped

/-- Backspace at a line's end: the narrow glyph before it erased. -/
def predictBackspace (ctx : Context A) (k : ℕ) : Engine A :=
  let (row, col) := e.cursorAt ctx.screen
  let steps := col ≠ 0 && e.mayStepBack row col &&
    (e.guessAt ctx row (col - 1)).any (·.half = .narrow)
  match e.blank ctx row col with
  | some blank =>
    if steps then
      (e.place ctx (row, col - 1) (some blank) false (e.keysAt row col ++ [k])).moveCursor
        (row, col - 1)
    else e.unmodelled
  | none => e.unmodelled

/-- Left or Right: the cursor one column over, within the row. -/
def predictArrow (ctx : Context A) (right : Bool) : Engine A :=
  let (row, col) := e.cursorAt ctx.screen
  if right then
    if col + 1 < ctx.screen.size.cols then e.moveCursor (row, col + 1) else e.unmodelled
  else if col ≠ 0 && e.mayStepBack row col then e.moveCursor (row, col - 1)
  else e.unmodelled

/-- Enter: a new epoch, the cursor to the next row, and a line begun. -/
def predictEnter (ctx : Context A) : Engine A :=
  let e := e.becomeTentative.newline ctx
  { e with line := .fresh e.nextFrame }

/-- Predict nothing for what is typed now, nor after, until the server has reflected it. -/
def hold : Engine A := ({ e with heldThrough := some e.nextFrame }).becomeTentative

/-- Whether a held key is not yet reflected on the screen. -/
def holding : Bool := e.heldThrough.any (e.lateAcked < ·)

/-! ### Grading -/

def cellValidity (cell : PredCell A) (screen : Screen A) (at_ : ℕ × ℕ) (lateAcked : ℕ) :
    Validity :=
  match screen.cell at_.1 at_.2 with
  | none => .incorrectOrExpired
  | some actual =>
    if lateAcked < cell.expirationFrame then .pending
    else match cell.guess with
      -- No concrete glyph was predicted here, so it can never confirm an epoch.
      | none => .correctNoCredit
      | some guess =>
        if guess.half = .covered then
          if actual.half = .covered then .correctNoCredit else .incorrectOrExpired
        else if isBlank guess.text then .correctNoCredit
        else if actual.text ≠ guess.text then .incorrectOrExpired
        else if cell.original = guess.text then .correctNoCredit
        else .correct

def cursorValidity (c : Guessed) (screen : Screen A) (lateAcked : ℕ) : Validity :=
  if screen.size.rows ≤ c.row ∨ screen.size.cols ≤ c.col then .incorrectOrExpired
  else if lateAcked < c.expirationFrame then .pending
  else if screen.cursor = (c.row, c.col) then .correct
  else .incorrectOrExpired

/-- What a frame makes of a prediction. -/
def validity (screen : Screen A) (p : (ℕ × ℕ) × PredCell A) : Validity :=
  cellValidity p.2 screen p.1 e.lateAcked

/-- The predictions a frame grades so. -/
def graded (screen : Screen A) (v : Validity) : List ((ℕ × ℕ) × PredCell A) :=
  e.cells.filter fun p => e.validity screen p = v

/-- Whether a shown guess was wrong: then everything goes. -/
def killsAll (screen : Screen A) : Bool :=
  (e.graded screen .incorrectOrExpired).any fun p => !e.tentative p.2.tentativeEpoch

/-- The epochs a frame confirms: each has a cell that it graded correct. -/
def confirms (screen : Screen A) : List ℕ :=
  (e.graded screen .correct).map (·.2.tentativeEpoch)

/-- The epochs a frame kills: each has a hidden guess that was wrong. -/
def kills (screen : Screen A) : List ℕ :=
  (e.graded screen .incorrectOrExpired).map (·.2.tentativeEpoch)

/-- A confirmed cell's style recolours the pending typed glyphs right of it. -/
def restyle (cells : Dict (ℕ × ℕ) (PredCell A)) (at_ : ℕ × ℕ) (attributes : A) :
    Dict (ℕ × ℕ) (PredCell A) :=
  cells.map fun p =>
    if p.1.1 = at_.1 ∧ at_.2 ≤ p.1.2 ∧ p.2.typed then
      (p.1, { p.2 with guess := p.2.guess.map fun cell => { cell with attributes := attributes } })
    else p

/-- The predictions left once the graded ones went, recoloured. -/
def remaining (screen : Screen A) : Dict (ℕ × ℕ) (PredCell A) :=
  (e.graded screen .correct).foldl
    (fun cells p => match screen.cell p.1.1 p.1.2 with
      | some actual => restyle cells p.1 actual.attributes
      | none => cells)
    (e.graded screen .pending)

/-- A wrong cursor takes every prediction; a right one goes. -/
def gradeCursor (screen : Screen A) : Engine A :=
  match e.cursor with
  | none => e
  | some c =>
    match cursorValidity c screen e.lateAcked with
    | .incorrectOrExpired => e.reset
    | .pending => e
    | .correct | .correctNoCredit => { e with cursor := none }

/-- The wrong guesses' epochs go, and a new cursor is hidden in a new one. -/
def killEpochs (screen : Screen A) (epochs : List ℕ) : Engine A :=
  if epochs = [] then e
  else
    (({ e with cells := e.cells.filter fun p => !epochs.contains p.2.tentativeEpoch }
      ).discardLine.becomeTentative).moveCursor screen.cursor

/-- Grade the predictions against `screen`, a frame's. -/
def cull (screen : Screen A) : Engine A :=
  let resized := e.lastSize.any (· ≠ screen.size)
  let e := { e with lastSize := some screen.size }
  if resized then e.reset
  else if e.killsAll screen then e.reset
  else
    let culled :=
      { e with
        confirmedEpoch := (e.confirms screen).foldl max e.confirmedEpoch
        cells := e.remaining screen }
    (culled.killEpochs screen (e.kills screen)).gradeCursor screen

/-! ### Keys -/

/-- Input the predictor does not model reached the program. -/
def newUserOther (screen : Screen A) : Engine A := (e.cull screen).unmodelled

def printable (press : KeyPress) : Option Char :=
  match press.key, press.alt, press.ctrl with
  | .char c, false, false => if Stream.isControl c then none else some c
  | _, _, _ => none

/-- Nothing is predicted: a new epoch, and where the line begins as far as the key says. -/
def unpredicted (press : KeyPress) : Engine A :=
  let e := e.becomeTentative
  match press.key, press.alt, press.ctrl with
  | .enter, false, false => { e with line := .fresh e.nextFrame }
  | _, _, _ => if (printable press).isSome then e else { e with line := .unknown }

def predictKey [Inhabited A] (g : Graphemes) (ctx : Context A) (press : KeyPress) (k : ℕ) :
    Engine A :=
  match press.key, press.alt, press.ctrl with
  | .char c, false, true =>
    if c.toLower = 'h' then e.predictBackspace ctx k
    else if c.toLower = 'j' ∨ c.toLower = 'm' then e.predictEnter ctx
    else e.unmodelled
  | .char c, false, false =>
    if Stream.isControl c then e.unmodelled else e.predictGlyph g ctx c k
  | .backspace, false, false => e.predictBackspace ctx k
  | .enter, false, false => e.predictEnter ctx
  -- The kernel echoes an arrow as `^[[D`: only a line editor moves the cursor.
  | .arrow .right, false, false => if ctx.tty.echo then e.unmodelled else e.predictArrow ctx true
  | .arrow .left, false, false => if ctx.tty.echo then e.unmodelled else e.predictArrow ctx false
  | _, _, _ => e.unmodelled

/-- The engine before a key is predicted: the predictions culled, the line begun. -/
def readies (press : KeyPress) (screen : Screen A) : Engine A :=
  let e := e.cull screen
  if (printable press).isSome then e.beginLine screen else e

/-- Predict what the key `press`, the `k`th typed, does to `screen`. -/
def newUserKey [Inhabited A] (g : Graphemes) (press : KeyPress) (screen : Screen A) (k : ℕ) :
    Engine A :=
  let e := e.readies press screen
  match e.context screen with
  | none => e.unpredicted press
  | some ctx =>
    if e.holding then e.unpredicted press
    else ({ e with heldThrough := none }).predictKey g ctx press k

/-! ### Drawing -/

/-- Whether a prediction is drawn, at modes that are not a password prompt's. -/
def shown (cell : PredCell A) : Bool := !e.tentative cell.tentativeEpoch

/-- What to draw now: the predictions in confirmed epochs, unless at a password prompt. -/
def overlay : Overlay A :=
  if e.tty.any password then ⟨[], none⟩
  else
    ⟨e.cells.filterMap fun p => if e.shown p.2 then p.2.guess.map (p.1, ·) else none,
      (e.cursor.filter fun c => !e.tentative c.tentativeEpoch).map fun c => (c.row, c.col)⟩

end Engine

end Koh.Predict
