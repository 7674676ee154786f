import Mathlib.Tactic.Common
import Mathlib.Data.Nat.Basic

/-!
# A terminal's screen

The part of a terminal that all of them agree on: cells with a glyph each (a wide one in two), a
cursor that waits at the last column until the next glyph wraps it, lines that scroll, a pen and a
link.

## Main definitions

- `Vt.Cell`, `Vt.Term`: a cell, and a terminal with all the lines it ever showed
- `Vt.Code`, `Vt.Term.run`: what is written to a terminal, and what it does with it
- `Vt.Term.At`: where the cursor is, waiting to wrap or not
- `Vt.Term.Untouched`: nothing was printed past the cursor

## Main results

- `Vt.Term.line_lineFeed`: a line feed is one line further, scrolled or not
- `Vt.Term.At.print`, `Vt.Term.At.ready`: where a glyph is printed, and where the next is

## Design notes

Lines are counted from the first that the terminal showed: the screen shows `rows` of them, from
`scrolled` on, and those before are its scrollback. How wide a glyph is comes with the terminal.
-/

namespace Koh.Vt

variable {A L : Type}

/-- A cell: the text of its glyph (empty for a blank), its style and link, and which part of a
glyph it holds. -/
structure Cell (A L : Type) where
  contents : List Char
  attributes : A
  link : Option L
  isWide : Bool
  /-- The right half of the wide glyph to its left. -/
  isWideContinuation : Bool
  deriving DecidableEq, Repr

/-- What is left of a glyph one half of which is printed over. -/
def Cell.halved (cell : Cell A L) : Cell A L :=
  { cell with contents := [], isWide := false, isWideContinuation := false }

/-- A cell nothing was printed in. -/
def Cell.blank [Inhabited A] : Cell A L := ⟨[], default, none, false, false⟩

/-- A terminal, its lines numbered from the first it showed. -/
structure Term (A L : Type) where
  rows : ℕ
  cols : ℕ
  cells : ℕ → ℕ → Cell A L
  /-- How many lines scrolled off the screen. -/
  scrolled : ℕ
  row : ℕ
  col : ℕ
  /-- The last column is printed in, and the next glyph wraps. -/
  pending : Bool
  pen : A
  link : Option L
  /-- What is written is held until it is whole. -/
  sync : Bool

/-- What is written to a terminal. -/
inductive Code (A L : Type) where
  | print (glyph : List Char)
  | cr
  | lf
  /-- The cursor to a row and column of the screen, from 0. -/
  | cup (row col : ℕ)
  /-- These attributes for the pen, and no others. -/
  | sgr (attributes : A)
  | link (link : Option L)
  /-- Everything reset, the cursor home and the screen cleared. -/
  | reset
  /-- The cursor's line cleared, in the pen. -/
  | eraseLine
  /-- What is written from here on shown all at once when this ends. -/
  | sync (on : Bool)
  deriving DecidableEq, Repr

namespace Term

/-! ### What a terminal does -/

section Moves

variable (t : Term A L)

def line : ℕ := t.scrolled + t.row

/-- The column that the next glyph on the cursor's line goes to. -/
def place : ℕ := if t.pending then t.cols else t.col

/-- The cursor a line down: at the bottom the screen scrolls. -/
def lineFeed : Term A L :=
  if t.row + 1 < t.rows then { t with row := t.row + 1 } else { t with scrolled := t.scrolled + 1 }

def carriageReturn : Term A L := { t with col := 0, pending := false }

/-- To the start of the next line. -/
def wrap : Term A L := t.carriageReturn.lineFeed

def cup (row col : ℕ) : Term A L :=
  { t with row := min row (t.rows - 1), col := min col (t.cols - 1), pending := false }

/-- The cells of a line with a glyph of `width` columns put at `col`. -/
def putAt (cells : ℕ → Cell A L) (col width : ℕ) (glyph : Cell A L) (c : ℕ) : Cell A L :=
  if c = col then glyph
  else if c = col + 1 ∧ width = 2 then
    { glyph with contents := [], isWide := false, isWideContinuation := true }
  else if c + 1 = col ∧ (cells col).isWideContinuation then (cells c).halved
  else if c = col + width ∧ (cells (c - 1)).isWide then (cells c).halved
  else cells c

/-- The cell of a glyph of `width` columns, printed now. -/
def glyphCell (glyph : List Char) (width : ℕ) : Cell A L :=
  ⟨glyph, t.pen, t.link, width = 2, false⟩

/-- A glyph of `width` columns printed where the cursor is. -/
def put (glyph : List Char) (width : ℕ) : Term A L :=
  let cells := fun l =>
    if l = t.line then putAt (t.cells l) t.col width (t.glyphCell glyph width) else t.cells l
  if t.col + width < t.cols then { t with cells := cells, col := t.col + width }
  else { t with cells := cells, col := t.cols - 1, pending := true }

/-- How many columns a glyph takes. -/
def widthOf (wide : List Char → Bool) (glyph : List Char) : ℕ := if wide glyph then 2 else 1

/-- The cursor where the next glyph goes: on the next line, if it waits to wrap. -/
def ready : Term A L := if t.pending then t.wrap else t

/-- A glyph printed: on the next line, if the cursor waits to wrap or the glyph does not fit. -/
def print (wide : List Char → Bool) (glyph : List Char) : Term A L :=
  let width := widthOf wide glyph
  let t := t.ready
  let t := if t.cols < t.col + width then t.wrap else t
  t.put glyph width

end Moves

def new [Inhabited A] (rows cols : ℕ) : Term A L :=
  ⟨rows, cols, fun _ _ => .blank, 0, 0, 0, false, default, none, false⟩

section Run

variable [Inhabited A] (t : Term A L)

/-- The screen cleared, the cursor home, and nothing set. -/
def reset : Term A L :=
  { t with
    cells := fun l => if t.scrolled ≤ l then fun _ => .blank else t.cells l
    row := 0, col := 0, pending := false, pen := default, link := none, sync := false }

def eraseLine : Term A L :=
  { t with
    cells := fun l =>
      if l = t.line then fun _ => { (Cell.blank : Cell A L) with attributes := t.pen }
      else t.cells l }

def step (wide : List Char → Bool) : Code A L → Term A L
  | .print glyph => t.print wide glyph
  | .cr => t.carriageReturn
  | .lf => t.lineFeed
  | .cup row col => t.cup row col
  | .sgr attributes => { t with pen := attributes }
  | .link link => { t with link := link }
  | .reset => t.reset
  | .eraseLine => t.eraseLine
  | .sync on => { t with sync := on }

def run (wide : List Char → Bool) (codes : List (Code A L)) : Term A L :=
  codes.foldl (fun t code => t.step wide code) t

@[simp] theorem run_nil (wide : List Char → Bool) : t.run wide [] = t := rfl

@[simp] theorem run_append (wide : List Char → Bool) (xs ys : List (Code A L)) :
    t.run wide (xs ++ ys) = (t.run wide xs).run wide ys := List.foldl_append

@[simp] theorem run_singleton (wide : List Char → Bool) (code : Code A L) :
    t.run wide [code] = t.step wide code := rfl

end Run

/-! ### Where the cursor is -/

/-- The cursor is on this line of the screen, and the next glyph there goes to `place`, past the
last column if the cursor waits to wrap. -/
structure At (t : Term A L) (line place : ℕ) : Prop where
  row_lt : t.row < t.rows
  line : t.line = line
  place : (place < t.cols ∧ t.col = place ∧ t.pending = false) ∨
    (place = t.cols ∧ t.pending = true)

variable {t : Term A L} {line place : ℕ}

/-- A cursor is at one place. -/
theorem At.place_eq (h : t.At line place) : t.place = place := by
  rcases h.place with ⟨-, hcol, hpending⟩ | ⟨hplace, hpending⟩
  · simp [Term.place, hpending, hcol]
  · simp [Term.place, hpending, hplace]

/-- Before the last column is printed in, the cursor is where the next glyph goes. -/
theorem At.of_lt (h : t.At line place) (hlt : place < t.cols) :
    t.col = place ∧ t.pending = false := by
  rcases h.place with ⟨-, hplace⟩ | ⟨heq, -⟩
  · exact hplace
  · omega

/-- At the end of a line a wrap is pending. -/
theorem At.pending (h : t.At line place) (hfull : place = t.cols) : t.pending = true := by
  rcases h.place with ⟨hlt, -⟩ | ⟨-, hpending⟩
  · omega
  · exact hpending

/-- A line feed is one line further, whether the screen scrolls or not. -/
theorem line_lineFeed (t : Term A L) : t.lineFeed.line = t.line + 1 := by
  simp only [lineFeed, Term.line]
  split <;> (simp only; omega)

/-- The screen scrolls as far as shows the line. -/
theorem scrolled_lineFeed (h : t.row < t.rows) :
    t.lineFeed.scrolled = max t.scrolled (t.line + 2 - t.rows) := by
  simp only [lineFeed, Term.line]
  split <;> (simp only; omega)

/-- A line feed leaves the cursor on the screen. -/
theorem row_lineFeed_lt (h : t.row < t.rows) : t.lineFeed.row < t.lineFeed.rows := by
  simp only [lineFeed]
  split <;> (simp only; omega)

/-- Only the row and the scroll are a line feed's. -/
theorem lineFeed_eq (t : Term A L) :
    t.lineFeed = { t with row := t.lineFeed.row, scrolled := t.lineFeed.scrolled } := by
  simp only [lineFeed]
  split <;> rfl

/-- What a wrap changes. -/
theorem wrap_eq (t : Term A L) :
    t.wrap = { t with row := t.wrap.row, scrolled := t.wrap.scrolled, col := 0,
                      pending := false } :=
  lineFeed_eq t.carriageReturn

/-- The start of the next line. -/
theorem At.wrap (h : t.At line place) (hcols : 0 < t.cols) : t.wrap.At (line + 1) 0 := by
  have hrow : t.carriageReturn.row < t.carriageReturn.rows := h.row_lt
  have hline : t.wrap.line = line + 1 := by
    rw [Term.wrap, line_lineFeed]
    exact congrArg (· + 1) h.line
  refine ⟨row_lineFeed_lt hrow, hline, Or.inl ?_⟩
  rw [wrap_eq]
  exact ⟨hcols, rfl, rfl⟩

/-- A wrap scrolls from the last row. -/
theorem scrolled_wrap (h : t.row < t.rows) :
    t.wrap.scrolled = max t.scrolled (t.line + 2 - t.rows) :=
  scrolled_lineFeed (t := t.carriageReturn) h

/-- CUP puts the cursor where it says. -/
theorem cup_at {row col : ℕ} (hrow : row < t.rows) (hcol : col < t.cols) :
    (t.cup row col).At (t.scrolled + row) col := by
  have hrow' : min row (t.rows - 1) = row := by omega
  have hcol' : min col (t.cols - 1) = col := by omega
  refine ⟨?_, ?_, Or.inl ?_⟩ <;> simp [cup, Term.line, hrow', hcol', hrow, hcol]

/-! ### Printing -/

/-- Nothing was printed past the cursor. -/
def Untouched [Inhabited A] (t : Term A L) : Prop :=
  ∀ l c, t.line < l ∨ (l = t.line ∧ t.place ≤ c) → t.cells l c = .blank

theorem widthOf_pos (wide : List Char → Bool) (glyph : List Char) : 0 < widthOf wide glyph := by
  simp only [widthOf]
  split <;> omega

/-- With no wrap pending, the terminal is ready as it is. -/
theorem At.ready_eq (h : t.At line place) (hlt : place < t.cols) : t.ready = t := by
  simp [ready, h.of_lt hlt]

/-- Where the cursor waits to wrap, the next glyph goes to the start of the next line. -/
theorem At.ready (h : t.At line t.cols) (hcols : 0 < t.cols) : t.ready.At (line + 1) 0 := by
  rw [Term.ready, if_pos (h.pending rfl)]
  exact h.wrap hcols

theorem ready_pending (t : Term A L) : t.ready.pending = false := by
  by_cases h : t.pending = true
  · rw [ready, if_pos h, wrap_eq]
  · rw [ready, if_neg h]
    simpa using h

/-- A glyph is printed where the cursor would be to print it. -/
theorem print_ready (t : Term A L) (wide : List Char → Bool) (glyph : List Char) :
    t.ready.print wide glyph = t.print wide glyph := by
  have hagain : t.ready.ready = t.ready := by
    change (if t.ready.pending then t.ready.wrap else t.ready) = t.ready
    simp [ready_pending]
  simp only [print, hagain]

/-- A glyph that fits is printed where the cursor is. -/
theorem At.print_eq (h : t.At line place) {wide : List Char → Bool} {glyph : List Char}
    (hfit : place + widthOf wide glyph ≤ t.cols) :
    t.print wide glyph = t.put glyph (widthOf wide glyph) := by
  have hpos := widthOf_pos wide glyph
  obtain ⟨hcol, -⟩ := h.of_lt (by omega)
  have hfits : ¬ t.cols < t.col + widthOf wide glyph := by omega
  simp only [print, h.ready_eq (by omega), if_neg hfits]

/-- What a glyph changes. -/
theorem put_eq (t : Term A L) (glyph : List Char) (width : ℕ) :
    t.put glyph width =
      { t with
        cells := fun l => if l = t.line then putAt (t.cells l) t.col width (t.glyphCell glyph width)
          else t.cells l
        col := (t.put glyph width).col
        pending := (t.put glyph width).pending } := by
  simp only [put]
  split <;> rfl

/-- The next glyph goes after it. -/
theorem At.print (h : t.At line place) {wide : List Char → Bool} {glyph : List Char}
    (hfit : place + widthOf wide glyph ≤ t.cols) :
    (t.print wide glyph).At line (place + widthOf wide glyph) := by
  have hpos := widthOf_pos wide glyph
  obtain ⟨hcol, hpending⟩ := h.of_lt (by omega)
  rw [h.print_eq hfit]
  have hline : (t.put glyph (widthOf wide glyph)).line = line := by
    rw [put_eq]
    exact h.line
  refine ⟨?_, hline, ?_⟩
  · rw [put_eq]
    exact h.row_lt
  · simp only [put, hcol]
    split
    · next hlt => exact Or.inl ⟨hlt, rfl, hpending⟩
    · exact Or.inr ⟨by simp only; omega, rfl⟩

/-- Only the cells, the column and whether it waits are a glyph's. -/
theorem At.print_frame (h : t.At line place) {wide : List Char → Bool} {glyph : List Char}
    (hfit : place + widthOf wide glyph ≤ t.cols) :
    (t.print wide glyph).rows = t.rows ∧ (t.print wide glyph).cols = t.cols ∧
      (t.print wide glyph).scrolled = t.scrolled ∧ (t.print wide glyph).pen = t.pen ∧
      (t.print wide glyph).link = t.link := by
  rw [h.print_eq hfit, put_eq]
  exact ⟨rfl, rfl, rfl, rfl, rfl⟩

/-- Where nothing was printed, a glyph takes its own columns and leaves the rest. -/
theorem At.print_cells [Inhabited A] (h : t.At line place) (huntouched : t.Untouched)
    {wide : List Char → Bool} {glyph : List Char} (hfit : place + widthOf wide glyph ≤ t.cols)
    (l c : ℕ) :
    (t.print wide glyph).cells l c =
      if l = line ∧ c = place then t.glyphCell glyph (widthOf wide glyph)
      else if l = line ∧ c = place + 1 ∧ widthOf wide glyph = 2 then
        { t.glyphCell glyph (widthOf wide glyph) with
          contents := [], isWide := false, isWideContinuation := true }
      else t.cells l c := by
  have hpos := widthOf_pos wide glyph
  obtain ⟨hcol, -⟩ := h.of_lt (by omega)
  have hblank : ∀ c, place ≤ c → t.cells line c = .blank := fun c hc =>
    huntouched line c (Or.inr ⟨h.line.symm, by rwa [h.place_eq]⟩)
  rw [h.print_eq hfit, put_eq]
  simp only [h.line, hcol]
  by_cases hl : l = line
  · subst hl
    -- No glyph there is cut in half: past the cursor all is blank.
    have hleft : (t.cells l place).isWideContinuation = false := by
      rw [hblank place le_rfl]
      rfl
    have hright : ∀ c, c = place + widthOf wide glyph → (t.cells l (c - 1)).isWide = false := by
      intro c hc
      rw [hblank (c - 1) (by omega)]
      rfl
    by_cases hc : c = place + widthOf wide glyph
    · simp [putAt, hleft, hright c hc]
    · simp [putAt, hleft, hc]
  · simp [hl]

/-- A glyph that fits on its line leaves those below untouched. -/
theorem Untouched.print [Inhabited A] (huntouched : t.Untouched) (h : t.At line place)
    {wide : List Char → Bool} {glyph : List Char} (hfit : place + widthOf wide glyph ≤ t.cols) :
    (t.print wide glyph).Untouched := by
  have hafter := h.print hfit
  have hpos := widthOf_pos wide glyph
  have hwidth : widthOf wide glyph = 1 ∨ widthOf wide glyph = 2 := by
    simp only [widthOf]
    split <;> simp
  intro l c hlc
  rw [hafter.line, hafter.place_eq] at hlc
  rw [h.print_cells huntouched hfit, if_neg (by omega), if_neg (by omega)]
  exact huntouched l c (by rw [h.line, h.place_eq]; omega)

/-- A glyph changes neither the pen nor the link, nor the size. -/
theorem print_styled (t : Term A L) (wide : List Char → Bool) (glyph : List Char) :
    (t.print wide glyph).pen = t.pen ∧ (t.print wide glyph).link = t.link ∧
      (t.print wide glyph).rows = t.rows ∧ (t.print wide glyph).cols = t.cols := by
  have hready : t.ready.pen = t.pen ∧ t.ready.link = t.link ∧ t.ready.rows = t.rows ∧
      t.ready.cols = t.cols := by
    simp only [Term.ready]
    split
    · rw [wrap_eq]
      exact ⟨rfl, rfl, rfl, rfl⟩
    · exact ⟨rfl, rfl, rfl, rfl⟩
  simp only [Term.print]
  split
  · rw [put_eq, wrap_eq]
    exact hready
  · rw [put_eq]
    exact hready

/-- No code changes the size. -/
theorem run_size [Inhabited A] (t : Term A L) (wide : List Char → Bool) (codes : List (Code A L)) :
    (t.run wide codes).rows = t.rows ∧ (t.run wide codes).cols = t.cols := by
  induction codes generalizing t with
  | nil => exact ⟨rfl, rfl⟩
  | cons code codes ih =>
    have hstep : (t.step wide code).rows = t.rows ∧ (t.step wide code).cols = t.cols := by
      cases code with
      | print glyph => exact (print_styled t wide glyph).2.2
      | lf =>
        rw [step, lineFeed_eq]
        exact ⟨rfl, rfl⟩
      | _ => exact ⟨rfl, rfl⟩
    have hrest := ih (t.step wide code)
    exact ⟨hrest.1.trans hstep.1, hrest.2.trans hstep.2⟩

/-- Nor does a wrap touch them. -/
theorem Untouched.wrap [Inhabited A] (huntouched : t.Untouched) : t.wrap.Untouched := by
  intro l c hlc
  have hcells : t.wrap.cells = t.cells := by rw [wrap_eq]
  rw [hcells]
  refine huntouched l c (Or.inl ?_)
  have hline : t.wrap.line = t.line + 1 := line_lineFeed t.carriageReturn
  omega

end Term

end Koh.Vt
