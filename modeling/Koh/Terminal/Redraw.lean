import Koh.Lib.Vt
import Koh.Stream.Judge
import Mathlib.Data.List.DropRight

/-!
# The redraw of the primary screen

The part of `redraw`, from `terminal/redraw.rs`, that paints the primary screen and the history
above it, and the `Painter` it paints with.

## Main definitions

- `Row`: a row of the primary screen or its history
- `Painter`, `Painter.row`: what was painted, and one row painted
- `redraw`: the rows, one after another

## Design notes

What is written is a list of control functions and glyphs (`Code`), each of which stands for its
bytes; a link is the bytes that open it. The attributes are a type of their own with a default, and
what `unicode-width` and the emulator say of characters comes as `Characters`.
-/

namespace Koh.Terminal

open Koh.Vt Koh.Stream

/-- What the libraries say of characters: how wide they are, where those of ambiguous width are
narrow and where they are wide, and which go on with the cluster before them. -/
structure Characters where
  width : Char → Option ℕ
  widthCjk : Char → Option ℕ
  continuesCluster : List Char → Char → Bool

/-- Whether every terminal takes `glyph` as as wide as the emulator does: one character, not of
ambiguous width. -/
def certain (u : Characters) : List Char → Bool
  | [c] => u.width c = u.widthCjk c
  | _ => false

structure Hyperlink where
  id : Option (List UInt8)
  uri : List UInt8
  deriving DecidableEq, Repr

/-- The OSC 8 that opens the link. -/
def Hyperlink.osc (link : Hyperlink) : List UInt8 :=
  [ESC] ++ ascii [']', '8', ';'] ++ link.id.elim [] (ascii ['i', 'd', '='] ++ ·) ++ [0x3b] ++
    link.uri ++ [ESC, 0x5c]

/-- A row of the screen, or of the history above it. -/
structure Row (A : Type) where
  cells : List (Cell A Hyperlink)
  /-- The line goes on in the next row. -/
  wrapped : Bool
  startsPrompt : Bool
  deriving DecidableEq, Repr

/-- What a redraw is made of. -/
inductive Piece (A : Type) where
  | out (codes : List (Code A (List UInt8)))
  | mark (payload : List UInt8)
  deriving DecidableEq, Repr

/-- Builds a redraw's pieces. -/
structure Painter (A : Type) where
  pieces : List (Piece A)
  out : List (Code A (List UInt8))
  /-- The pen the terminal has. -/
  pen : A
  /-- The link open on the terminal, as written. -/
  link : Option (List UInt8)
  deriving DecidableEq, Repr

variable {A : Type} [DecidableEq A] [Inhabited A]

/-! ### A row's cells -/

/-- Whether a cell shows anything: a glyph, or a style of its own. -/
def paints (cell : Cell A Hyperlink) : Bool :=
  cell.contents ≠ [] || cell.attributes ≠ default

namespace Row

/-- How many of the row's `cells` are painted: a soft-wrapped row's all, so that the terminal wraps
it softly too, and of another's those up to the last that shows anything. -/
def last (row : Row A) (cells : List (Cell A Hyperlink)) : ℕ :=
  if row.wrapped then cells.length else (cells.rdropWhile fun cell => !paints cell).length

/-- The cells painted of a row `width` columns wide. -/
def painted (row : Row A) (width : ℕ) : List (Cell A Hyperlink) :=
  (row.cells.take width).take (row.last (row.cells.take width))

end Row

/-- Where the painter is in a row. -/
structure Along where
  /-- Where the glyph before left the cursor is not known. -/
  moved : Bool
  /-- The column after the last glyph. -/
  col : ℕ
  /-- The glyph printed before. -/
  before : List Char
  deriving DecidableEq, Repr

namespace Along

def start : Along := ⟨false, 0, []⟩

/-- Whether a terminal joins `glyph` to the one before. -/
def joins (u : Characters) (s : Along) : List Char → Bool
  | [] => false
  | c :: _ => s.before ≠ [] && u.continuesCluster s.before c

/-- Whether the painter moves to the column of `glyph` before it prints it. -/
def jumps (u : Characters) (s : Along) (glyph : List Char) : Bool := s.moved || s.joins u glyph

/-- After the cell at column `n`. -/
def next (u : Characters) (n : ℕ) (cell : Cell A Hyperlink) : Along :=
  ⟨cell.contents ≠ [] && !certain u cell.contents, n + if cell.isWide then 2 else 1, cell.contents⟩

end Along

/-! ### Painting -/

namespace Painter

variable (p : Painter A)

def write (code : Code A (List UInt8)) : Painter A := { p with out := p.out ++ [code] }

def mark (payload : List UInt8) : Painter A :=
  { p with
    pieces := p.pieces ++ (if p.out.isEmpty then [] else [.out p.out]) ++ [.mark payload]
    out := [] }

def usePen (attributes : A) : Painter A :=
  if attributes ≠ p.pen then { p.write (.sgr attributes) with pen := attributes } else p

def useLink (link : Option Hyperlink) : Painter A :=
  let want := link.map Hyperlink.osc
  if want ≠ p.link then { p.write (.link want) with link := want } else p

/-- What is printed of a glyph: a space for a blank. -/
def glyphOf (contents : List Char) : List Char := if contents.isEmpty then [' '] else contents

/-- The loop of `row`, over the cells from column `n` on. -/
def rowLoop (u : Characters) (at_ : Option ℕ) :
    List (Cell A Hyperlink) → ℕ → Along → Painter A → Painter A × ℕ
  | [], _, s, p => (p, s.col)
  | cell :: rest, n, s, p =>
    if cell.isWideContinuation then rowLoop u at_ rest (n + 1) s p
    else
      let p := match at_ with
        | some r => if s.jumps u cell.contents then p.write (.cup r n) else p
        | none => p
      let p := (p.usePen cell.attributes).useLink cell.link
      rowLoop u at_ rest (n + 1) (.next u n cell) (p.write (.print (glyphOf cell.contents)))

/-- Paint `row`, `width` columns, from where the cursor is (`at_`, the row's place on the terminal,
for moves). Whether it ended with the cursor waiting to wrap at the last column. -/
def row (u : Characters) (row : Row A) (width : ℕ) (at_ : Option ℕ) : Painter A × Bool :=
  let r := rowLoop u at_ (row.painted width) 0 .start p
  (r.1.useLink none, width ≤ r.2)

/-- All that was written, marks left out. -/
def codes : List (Code A (List UInt8)) :=
  p.pieces.flatMap (fun | .out codes => codes | .mark _ => []) ++ p.out

end Painter

/-- The loop of `redraw`, over the lines from the `n`th of `total` on. -/
def linesLoop (u : Characters) (rows cols total : ℕ) :
    List (Row A) → ℕ → Painter A → Painter A
  | [], _, p => p
  | row :: rest, n, p =>
    let p := if row.startsPrompt then p.mark [0x41] else p
    -- Moves within a row need its place, which only the screen's rows have.
    let at_ := if total - rows ≤ n then some (n - (total - rows)) else none
    let (p, filled) := p.row u row cols at_
    let p :=
      if n + 1 < total then
        -- A soft wrap that filled its row wraps on its own.
        if row.wrapped && filled then p else ((p.usePen default).write .cr).write .lf
      else p
    linesLoop u rows cols total rest (n + 1) p

/-- The lines drawn: the screen's rows, and up to `history` of those above. -/
def drawn (main : List (Row A)) (rows history : ℕ) : List (Row A) :=
  main.drop (main.length - rows - history)

/-- What the primary screen shows, `main` its rows and the history kept above them, written for a
reset terminal of its size with up to `history` rows of what scrolled off. -/
def redraw (u : Characters) (main : List (Row A)) (rows cols history : ℕ) : Painter A :=
  let lines := drawn main rows history
  linesLoop u rows cols lines.length lines 0 ⟨[], [.reset], default, none⟩

end Koh.Terminal
