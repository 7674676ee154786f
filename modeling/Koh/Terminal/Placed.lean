import Koh.Terminal.Painted

/-!
# Where a redraw puts each row

A redraw is written to a terminal that has just been reset, and each row must come out where the
screen has it. It does, but for two things. A soft wrap that fills its row writes no line end: the
next row's first glyph wraps, and if there is none the row is lost, and all that follows comes out
a line too high. And a move within a row goes to the row's place on the finished screen, where the
row is not yet as long as lines are still to scroll. `Lands` says which rows come out in their
places all the same, and `redraw_shows_iff` that it is exact.

## Main definitions

- `Shows`: the terminal shows the rows in their places, and scrolled those before
- `Lands`: the rows that come out in their places
- `Drawn`, `Fell`, `Spoiled`: how a row leaves the terminal

## Main results

- `Paired.painted`: what is painted of a row looks as the row does
- `redraw_shows_iff`: a redraw shows the rows exactly when they land
-/

namespace Koh.Terminal

open Koh.Vt

variable {A : Type} [Inhabited A]

/-! ### What a screen shows -/

/-- The cell at a column of the row: a blank, past its end. -/
def Row.cellAt (row : Row A) (c : ℕ) : Cell A Hyperlink := (row.cells[c]?).getD .blank

/-- The cell at a column of the row at a place among `rows`: a blank, past their ends. -/
def cellAt (rows : List (Row A)) (l c : ℕ) : Cell A Hyperlink :=
  ((rows[l]?).map fun row => row.cellAt c).getD .blank

/-- `t` shows the last of the rows in their places, and has scrolled as many of those before as
are kept of them, `history` at most. -/
def Shows (host : Host) (main : List (Row A)) (history : ℕ) (t : Term A (List UInt8)) : Prop :=
  t.scrolled = min history (main.length - host.rows) ∧
    ∀ r < host.rows, ∀ c < host.cols,
      look (t.cells (t.scrolled + r) c) = look (cellAt main (main.length - host.rows + r) c)

/-! ### Where a row begins and ends -/

/-- Where the next row begins: at the start of the line, or where the line before waits to wrap. -/
inductive Next (t : Term A (List UInt8)) : Bool → ℕ → Prop where
  | fresh {l : ℕ} : t.At l 0 → Next t false l
  | soft {l : ℕ} : t.At l t.cols → Next t true (l + 1)

/-- A row ended on the line: past its last column, if it wraps there on its own. -/
def Ended (t : Term A (List UInt8)) (soft : Bool) (l : ℕ) : Prop :=
  ∃ k, t.At l k ∧ (soft = true → k = t.cols)

/-- The screen has scrolled just as far as shows the cursor's line. -/
def Tight (t : Term A (List UInt8)) : Prop := t.scrolled = t.line + 1 - t.rows

section Next

variable {t : Term A (List UInt8)} {soft : Bool} {l : ℕ}

omit [Inhabited A] in
theorem Next.ready (h : Next t soft l) (hcols : 0 < t.cols) : t.ready.At l 0 := by
  cases h with
  | fresh hat => rwa [hat.ready_eq hcols]
  | soft hat => exact hat.ready hcols

omit [Inhabited A] in
theorem Next.ready_cells (h : Next t soft l) (hcols : 0 < t.cols) : t.ready.cells = t.cells := by
  cases h with
  | fresh hat => rw [hat.ready_eq hcols]
  | soft hat => rw [Term.ready, if_pos (hat.pending rfl), Term.wrap_eq]

omit [Inhabited A] in
theorem Next.ready_scrolled (h : Next t soft l) (hcols : 0 < t.cols) :
    t.ready.scrolled = if soft then max t.scrolled (l + 1 - t.rows) else t.scrolled := by
  cases h with
  | fresh hat => rw [hat.ready_eq hcols, if_neg (by simp)]
  | soft hat =>
    rw [Term.ready, if_pos (hat.pending rfl), Term.scrolled_wrap hat.row_lt, hat.line, if_pos rfl]

omit [Inhabited A] in
theorem Next.ready_tight (h : Next t soft l) (hcols : 0 < t.cols) (htight : Tight t) :
    t.ready.scrolled = l + 1 - t.rows := by
  rw [h.ready_scrolled hcols]
  rw [Tight] at htight
  cases h with
  | fresh hat =>
    rw [if_neg (by simp), htight, hat.line]
  | soft hat =>
    rw [if_pos rfl, htight, hat.line]
    omega

theorem Next.ready_untouched (h : Next t soft l) (hcols : 0 < t.cols) (huntouched : t.Untouched) :
    t.ready.Untouched := by
  cases h with
  | fresh hat => rwa [hat.ready_eq hcols]
  | soft hat =>
    rw [Term.ready, if_pos (hat.pending rfl)]
    exact huntouched.wrap

omit [Inhabited A] in
/-- A row that shows nothing leaves the terminal where it was. -/
theorem Next.ended (h : Next t soft l) :
    Ended { t with link := none } false (if soft then l - 1 else l) := by
  cases h with
  | fresh hat => exact ⟨0, ⟨hat.row_lt, hat.line, hat.place⟩, fun hsoft => by cases hsoft⟩
  | soft hat => exact ⟨_, ⟨hat.row_lt, hat.line, hat.place⟩, fun hsoft => by cases hsoft⟩

/-- Nothing is printed on the line where the next row begins, nor past it. -/
theorem Next.cells_blank (h : Next t soft l) (huntouched : t.Untouched) {j : ℕ} (hj : l ≤ j)
    (c : ℕ) : t.cells j c = .blank := by
  cases h with
  | fresh hat => exact huntouched j c (by rw [hat.line, hat.place_eq]; omega)
  | soft hat => exact huntouched j c (by rw [hat.line]; omega)

end Next

/-! ### The rows that come out in their places -/

/-- How the terminal stands where a row begins. -/
inductive Stand where
  /-- At the start of the row's line. -/
  | fresh
  /-- Past the end of the line before, waiting to wrap. -/
  | soft
  /-- On a line further up. -/
  | late
  deriving DecidableEq, Repr

/-- How a row that came out in its place leaves the terminal. -/
def Row.stand (row : Row A) (width : ℕ) : Stand :=
  if row.wrapped ∧ width ≤ row.cells.length then .soft else .fresh

/-- The row's first `width` columns look blank. -/
def Row.BlankTo (row : Row A) (width : ℕ) : Prop :=
  ∀ c < width, look (row.cellAt c) = look (.blank : Cell A Hyperlink)

variable [DecidableEq A]

/-- Whether the rows from the `n`th on come out in their places, the terminal standing so and
`above` lines drawn above the screen.

A row is late once the one before is soft and it paints nothing, or, with lines still to scroll,
once the painter moved within a row of the screen. A late one comes out in its place only if no
line is above the screen and it is blank, as far as the painter first moves: from there it is in
place again. -/
def Lands (u : Characters) (cols above : ℕ) : Stand → ℕ → List (Row A) → Prop
  | .late, _, [] => above = 0
  | .fresh, _, [] | .soft, _, [] => True
  | .late, n, row :: rest =>
    above = 0 ∧ match row.firstMove u cols with
      | some c => row.BlankTo c ∧ Lands u cols above (row.stand cols) (n + 1) rest
      | none => row.BlankTo cols ∧ Lands u cols above .late (n + 1) rest
  | stand, n, row :: rest =>
    if (stand = .soft ∧ row.painted cols = []) ∨
        (0 < above ∧ above ≤ n ∧ rest ≠ [] ∧ (row.firstMove u cols).isSome) then
      Lands u cols above .late (n + 1) rest
    else Lands u cols above (row.stand cols) (n + 1) rest

/-- Nothing that is late comes out in its place, with lines above the screen. -/
theorem not_lands_late {u : Characters} {cols above n : ℕ} {rest : List (Row A)}
    (habove : above ≠ 0) : ¬ Lands u cols above .late n rest := by
  cases rest with
  | nil => exact habove
  | cons row rest => exact fun h => habove h.1

/-- A row with no move, on its line too late. -/
theorem lands_late_stay {u : Characters} {cols above n : ℕ} {row : Row A} {rest : List (Row A)}
    (hmove : row.firstMove u cols = none) :
    Lands u cols above .late n (row :: rest) ↔
      above = 0 ∧ row.BlankTo cols ∧ Lands u cols above .late (n + 1) rest := by
  simp [Lands, hmove]

/-- A row with a move. -/
theorem lands_late_move {u : Characters} {cols above n m : ℕ} {row : Row A} {rest : List (Row A)}
    (hmove : row.firstMove u cols = some m) :
    Lands u cols above .late n (row :: rest) ↔
      above = 0 ∧ row.BlankTo m ∧ Lands u cols above (row.stand cols) (n + 1) rest := by
  simp [Lands, hmove]

/-- A row in its place. -/
theorem lands_inPlace {u : Characters} {cols above n : ℕ} {stand : Stand} {row : Row A}
    {rest : List (Row A)} (hstand : stand ≠ .late) :
    Lands u cols above stand n (row :: rest) ↔
      if (stand = .soft ∧ row.painted cols = []) ∨
          (0 < above ∧ above ≤ n ∧ rest ≠ [] ∧ (row.firstMove u cols).isSome) then
        Lands u cols above .late (n + 1) rest
      else Lands u cols above (row.stand cols) (n + 1) rest := by
  cases stand with
  | late => exact absurd rfl hstand
  | fresh => exact Iff.rfl
  | soft => exact Iff.rfl

/-! ### What is painted of a row -/

omit [Inhabited A] [DecidableEq A] in
/-- The cells up to some place are so many glyphs, and those after them are paired again. -/
theorem Paired.take {wide : List Char → Bool} {cells : List (Cell A Hyperlink)}
    (h : Paired wide cells) (m : ℕ) :
    ∃ k, Glyphs wide k (cells.take m) ∧ min m cells.length ≤ k ∧ k ≤ cells.length ∧
      (∀ c < k, looks (cells.take m) c = looks cells c) ∧ Paired wide (cells.drop k) := by
  induction h generalizing m with
  | nil => exact ⟨0, by simpa using .nil, by simp, le_rfl, fun c hc => by omega, .nil⟩
  | @narrow cell rest hw hcell hwide hrest ih =>
    cases m with
    | zero =>
      exact ⟨0, .nil, by simp, by simp, fun c hc => by omega, .narrow hw hcell hwide hrest⟩
    | succ m =>
      obtain ⟨k, hglyphs, hle, hlen, hlooks, hdrop⟩ := ih m
      refine ⟨1 + k, .narrow hw hcell hwide hglyphs, by simp; omega, by simp; omega, ?_, ?_⟩
      · rintro (_ | c) hc
        · rfl
        · exact hlooks c (by omega)
      · rw [Nat.add_comm]
        exact hdrop
  | @wide cell right rest hw hcell hcontents hwide hright hcont hrest ih =>
    rcases m with _ | _ | m
    · exact ⟨0, .nil, by simp, by simp, fun c hc => by omega,
        .wide hw hcell hcontents hwide hright hcont hrest⟩
    · refine ⟨2, .half hw hcell hwide, by simp, by simp, ?_, hrest⟩
      rintro (_ | _ | c) hc
      · rfl
      · simp [looks, look, hcont]
      · omega
    · obtain ⟨k, hglyphs, hle, hlen, hlooks, hdrop⟩ := ih m
      refine ⟨2 + k, .wide hw hcell hwide hcont hglyphs, by simp; omega, by simp; omega, ?_, ?_⟩
      · rintro (_ | _ | c) hc
        · rfl
        · rfl
        · exact hlooks c (by omega)
      · rw [Nat.add_comm]
        exact hdrop

/-- Cells that show nothing all look blank: no right half is among them without its left. -/
theorem Paired.looks_blank {wide : List Char → Bool} {cells : List (Cell A Hyperlink)}
    (h : Paired wide cells) (hblank : ∀ cell ∈ cells, paints cell = false) :
    ∀ cell ∈ cells, look cell = look (.blank : Cell A Hyperlink) := by
  induction h with
  | nil => exact fun cell hcell => by cases hcell
  | @narrow cell rest hw hcell hwide hrest ih =>
    intro cell' hcell'
    rcases List.mem_cons.mp hcell' with rfl | hmem
    · have hnothing := hblank cell' (by simp)
      simp only [paints, Bool.or_eq_false_iff, decide_eq_false_iff_not, not_not] at hnothing
      simp [look, hcell, hnothing, Cell.blank]
    · exact ih (fun cell hcell => hblank cell (by simp [hcell])) cell' hmem
  | @wide cell right rest hw hcell hcontents hwide hright hcont hrest ih =>
    have hnothing := hblank cell (by simp)
    simp [paints, hcontents] at hnothing

/-- What is painted of a row, `k` columns: they look as the row's do, and those past them are
blank. -/
structure Row.Covers (row : Row A) (wide : List Char → Bool) (cols k : ℕ) : Prop where
  glyphs : Glyphs wide k (row.painted cols)
  le : k ≤ cols
  looks : ∀ c < k, looks (row.painted cols) c = look (row.cellAt c)
  blank : ∀ c, k ≤ c → c < cols → look (row.cellAt c) = look (.blank : Cell A Hyperlink)
  wrapped : row.wrapped = true → k = min cols row.cells.length

/-- Past the last that is painted, the row's cells show nothing. -/
theorem Row.drop_last (row : Row A) (cells : List (Cell A Hyperlink)) :
    row.last cells ≤ cells.length ∧ ∀ cell ∈ cells.drop (row.last cells), paints cell = false := by
  by_cases hwrapped : row.wrapped = true
  · simp [Row.last, hwrapped]
  · have hsplit : cells.rdropWhile (fun cell => !paints cell) ++
        cells.rtakeWhile (fun cell => !paints cell) = cells :=
      List.rdropWhile_append_rtakeWhile
    have hlast : row.last cells = (cells.rdropWhile fun cell => !paints cell).length := by
      simp only [Row.last, if_neg hwrapped]
    have hdrop : cells.drop (row.last cells) = cells.rtakeWhile fun cell => !paints cell := by
      have hleft : (cells.rdropWhile (fun cell => !paints cell) ++
          cells.rtakeWhile (fun cell => !paints cell)).drop (row.last cells) =
            cells.rtakeWhile (fun cell => !paints cell) := List.drop_left' hlast.symm
      rwa [hsplit] at hleft
    refine ⟨?_, fun cell hcell => ?_⟩
    · rw [hlast]
      exact (List.rdropWhile_prefix _ cells).length_le
    · rw [hdrop] at hcell
      simpa using List.mem_rtakeWhile_imp hcell

/-- What is painted of a row is whole glyphs. -/
theorem Paired.painted {wide : List Char → Bool} {row : Row A} {cols : ℕ}
    (h : Paired wide (row.cells.take cols)) : ∃ k, row.Covers wide cols k := by
  obtain ⟨hlast, hnothing⟩ := row.drop_last (row.cells.take cols)
  obtain ⟨k, hglyphs, hle, hlen, hlooks, hdrop⟩ := h.take (row.last (row.cells.take cols))
  have hk : k ≤ cols := hlen.trans (List.length_take_le cols row.cells)
  refine ⟨k, hglyphs, hk, fun c hc => ?_, fun c hc hcols => ?_, fun hwrapped => ?_⟩
  · have hlt : c < row.cells.length := by
      simp only [List.length_take] at hlen
      omega
    have hcell : (row.cells.take cols)[c]? = row.cells[c]? :=
      List.getElem?_take_of_lt (hc.trans_le hk)
    rw [Row.painted, hlooks c hc]
    simp only [Terminal.looks, hcell, Row.cellAt, List.getElem?_eq_getElem hlt]
    rfl
  · have hcell : (row.cells.take cols)[c]? = row.cells[c]? := List.getElem?_take_of_lt hcols
    rcases Nat.lt_or_ge c (row.cells.take cols).length with hlt | hge
    · have hmem : (row.cells.take cols)[c] ∈ (row.cells.take cols).drop k :=
        List.mem_drop_iff_getElem.mpr ⟨c - k, by omega, by simp only [Nat.add_sub_cancel' hc]⟩
      have hblank := hdrop.looks_blank (fun cell hmem' => hnothing cell
        (List.drop_subset_drop_left _ (by omega) hmem')) _ hmem
      rw [Row.cellAt, ← hcell, List.getElem?_eq_getElem hlt]
      exact hblank
    · rw [Row.cellAt, ← hcell, List.getElem?_eq_none hge]
      rfl
  · have hlast' : row.last (row.cells.take cols) = min cols row.cells.length := by
      simp [Row.last, hwrapped]
    simp only [List.length_take] at hle hlen
    omega

/-! ### A turn of the loop -/

section Loop

variable {host : Host} {u : Characters} {lines : List (Row A)} {p : Painter A}

open Painter

/-- A line's end: in the default pen, so that a line that scrolls in is not filled with another. -/
def lineEnd (p : Painter A) : Painter A := ((p.usePen default).write .cr).write .lf

/-- After the `n`th of `total` lines, soft or not. -/
def turn (total n : ℕ) (soft : Bool) (p : Painter A) : Painter A :=
  if n + 1 < total then if soft then p else lineEnd p else p

/-- The row's prompt marked, if it starts one. -/
def marked (row : Row A) (p : Painter A) : Painter A :=
  if row.startsPrompt then p.mark [0x41] else p

/-- Where the screen has the `n`th of `total` lines. -/
def placeOf (rows total n : ℕ) : Option ℕ :=
  if total - rows ≤ n then some (n - (total - rows)) else none

/-- The `n`th of `total` lines painted. -/
def painting (u : Characters) (rows cols total n : ℕ) (row : Row A) (p : Painter A) :
    Painter A × Bool :=
  (marked row p).row u row cols (placeOf rows total n)

/-- One row, and those after it. -/
theorem linesLoop_cons (rows cols total n : ℕ) (row : Row A) (rest : List (Row A))
    (p : Painter A) :
    linesLoop u rows cols total (row :: rest) n p =
      linesLoop u rows cols total rest (n + 1)
        (turn total n (row.wrapped && (painting u rows cols total n row p).2)
          (painting u rows cols total n row p).1) := rfl

omit [DecidableEq A] in
/-- A mark shows nothing. -/
theorem on_marked (hknows : p.Knows host) (row : Row A) :
    (marked row p).on host = p.on host ∧ (marked row p).Knows host := by
  simp only [marked]
  split
  · exact ⟨on_mark p host _, hknows.mark _⟩
  · exact ⟨rfl, hknows⟩

/-- A line that ends wraps to the next. -/
theorem on_lineEnd (hknows : p.Knows host) :
    (lineEnd p).on host = ({ p.on host with pen := default } : Term A (List UInt8)).wrap ∧
      (lineEnd p).Knows host := by
  obtain ⟨hpen, hknows'⟩ := on_usePen hknows default
  have hon : (lineEnd p).on host =
      ({ p.on host with pen := default } : Term A (List UInt8)).wrap := by
    rw [lineEnd, on_write, on_write, hpen]
    rfl
  refine ⟨hon, ?_, ?_⟩
  · rw [hon, Term.wrap_eq]
    exact hknows'.pen.trans (by rw [hpen])
  · rw [hon, Term.wrap_eq]
    exact hknows'.link.trans (by rw [hpen])

omit [DecidableEq A] in
/-- A wrapped row that came to the last column ended past it. -/
theorem ended_of_filled {wrapped filled : Bool} {k l : ℕ} (hat : (p.on host).At l k)
    (hk : k ≤ host.cols) (hfilled : filled = decide (host.cols ≤ k)) :
    Ended (p.on host) (wrapped && filled) l := by
  refine ⟨k, hat, fun hsoft => ?_⟩
  simp only [hfilled, Bool.and_eq_true, decide_eq_true_eq] at hsoft
  rw [(p.on_size host).2]
  exact le_antisymm hk hsoft.2

/-- After a row that is not the last, the next begins on the line after. -/
theorem turn_next {total n l : ℕ} {soft : Bool} (hknows : p.Knows host)
    (hended : Ended (p.on host) soft l) (hn : n + 1 < total) :
    (turn total n soft p).Knows host ∧ Next ((turn total n soft p).on host) soft (l + 1) ∧
      ((turn total n soft p).on host).cells = (p.on host).cells ∧
      ((p.on host).Untouched → ((turn total n soft p).on host).Untouched) ∧
      ((turn total n soft p).on host).scrolled =
        if soft then (p.on host).scrolled else max (p.on host).scrolled (l + 2 - host.rows) := by
  obtain ⟨k, hat, hsoft⟩ := hended
  rw [turn, if_pos hn]
  cases soft with
  | true =>
    rw [hsoft rfl] at hat
    exact ⟨hknows, .soft hat, rfl, id, rfl⟩
  | false =>
    obtain ⟨hon, hknows'⟩ := on_lineEnd hknows
    have hsize := p.on_size host
    have hcols := p.cols_pos host
    have hat' : ({ p.on host with pen := default } : Term A (List UInt8)).At l k :=
      ⟨hat.row_lt, hat.line, hat.place⟩
    rw [if_neg (by simp), hon]
    refine ⟨hknows', .fresh (hat'.wrap hcols), by rw [Term.wrap_eq], fun huntouched => ?_, ?_⟩
    · exact Term.Untouched.wrap
        (t := ({ p.on host with pen := default } : Term A (List UInt8))) huntouched
    · rw [Term.scrolled_wrap hat'.row_lt, hat'.line, if_neg (by simp)]
      exact congrArg (fun rows => max (p.on host).scrolled (l + 2 - rows)) hsize.1

/-! ### The state between two rows -/

/-- The `n`th row begins on the line `l`, and all the rows before it are as they are drawn. -/
structure Lined (host : Host) (lines : List (Row A)) (p : Painter A) (n : ℕ) (soft : Bool) (l : ℕ) :
    Prop where
  knows : p.Knows host
  next : Next (p.on host) soft l
  untouched : (p.on host).Untouched
  tight : Tight (p.on host)
  le : l ≤ n
  done : ∀ j < n, ∀ c < host.cols, look ((p.on host).cells j c) = look (cellAt lines j c)

/-- The `n`th row ended on the line `l`, and it and all the rows before it are as they are drawn. -/
structure Drawn (host : Host) (lines : List (Row A)) (p : Painter A) (n : ℕ) (soft : Bool) (l : ℕ) :
    Prop where
  knows : p.Knows host
  ended : Ended (p.on host) soft l
  untouched : (p.on host).Untouched
  tight : Tight (p.on host)
  le : l ≤ n
  done : ∀ j ≤ n, ∀ c < host.cols, look ((p.on host).cells j c) = look (cellAt lines j c)

/-- The `n`th row ended further up, and the screen has yet to scroll. -/
structure Fell (host : Host) (above : ℕ) (p : Painter A) (n : ℕ) (soft : Bool) (l : ℕ) : Prop where
  knows : p.Knows host
  ended : Ended (p.on host) soft l
  lt : l < n
  scrolled : (p.on host).scrolled < above

/-- What is not as it is drawn, and stays so: it is before where the next glyph goes. -/
structure Spoiled (host : Host) (lines : List (Row A)) (p : Painter A) (n : ℕ) (soft : Bool)
    (l x c : ℕ) : Prop where
  knows : p.Knows host
  ended : Ended (p.on host) soft l
  untouched : (p.on host).Untouched
  le : l ≤ n
  scrolled : (p.on host).scrolled = 0
  before : x < l ∨ (x = l ∧ c < (p.on host).place)
  inside : x < host.rows ∧ c < host.cols
  differs : look ((p.on host).cells x c) ≠ look (cellAt lines x c)

/-- How the `n`th row stands that begins on the line `l`. -/
def standAt (n : ℕ) (soft : Bool) (l : ℕ) : Stand :=
  if l = n then if soft then .soft else .fresh else .late

/-- A row that is drawn leads to the next. -/
theorem Drawn.lined {n l total : ℕ} {soft : Bool} (h : Drawn host lines p n soft l)
    (hn : n + 1 < total) : Lined host lines (turn total n soft p) (n + 1) soft (l + 1) := by
  obtain ⟨hknows, hnext, hcells, huntouched, hscrolled⟩ := turn_next h.knows h.ended hn
  refine ⟨hknows, hnext, huntouched h.untouched, ?_, by have := h.le; omega, fun j hj c hc => ?_⟩
  · cases soft with
    | true =>
      rw [turn, if_pos hn, if_pos rfl]
      exact h.tight
    | false =>
      obtain ⟨k, hat, -⟩ := h.ended
      have htight := h.tight
      rw [Tight, hat.line, (p.on_size host).1] at htight
      rw [Tight, hscrolled, if_neg (by simp), (on_size _ host).1, htight]
      cases hnext with
      | fresh hat' =>
        rw [hat'.line]
        omega
  · rw [hcells]
    exact h.done j (by omega) c hc

section Step

variable {n l : ℕ} {soft : Bool} {row : Row A} {rest : List (Row A)} {k : ℕ}

omit [DecidableEq A] in
/-- The rows from where the next begins are drawn blank. -/
theorem Lined.blank (h : Lined host lines p n soft l) {j : ℕ} (hl : l ≤ j) (hj : j < n) {c : ℕ}
    (hc : c < host.cols) : look (cellAt lines j c) = look (.blank : Cell A Hyperlink) := by
  rw [← h.done j hj c hc, h.next.cells_blank h.untouched hl]
  rfl

omit [DecidableEq A] in
theorem cellAt_eq (hrow : lines[n]? = some row) (c : ℕ) : cellAt lines n c = row.cellAt c := by
  simp [cellAt, hrow]

/-- A row that shows nothing: the cursor stays on the line before, if that is soft. -/
theorem Lined.nothing (h : Lined host lines p n soft l) (hrow : lines[n]? = some row)
    (hcovers : row.Covers host.wide host.cols k) (hpainted : row.painted host.cols = []) :
    let r := painting u host.rows host.cols lines.length n row p
    r.2 = false ∧ Drawn host lines r.1 n false (if soft then l - 1 else l) := by
  obtain ⟨hon, hmarked⟩ := on_marked h.knows row
  obtain ⟨hon', hknows, hfilled⟩ := row_nothing (u := u)
    (a := placeOf host.rows lines.length n) hmarked hpainted
  rw [hon] at hon'
  have hk : k = 0 := by
    have hglyphs := hcovers.glyphs
    rw [hpainted] at hglyphs
    cases hglyphs
    rfl
  refine ⟨hfilled, hknows, ?_, ?_, ?_, by have := h.le; split <;> omega, fun j hj c hc => ?_⟩
  · rw [painting, hon']
    exact h.next.ended
  · rw [painting, hon']
    exact h.untouched
  · rw [painting, hon']
    exact h.tight
  · rw [painting, hon']
    rcases Nat.lt_or_eq_of_le hj with hlt | rfl
    · exact h.done j hlt c hc
    · rw [cellAt_eq hrow, hcovers.blank c (by omega) hc]
      exact congrArg look (h.next.cells_blank h.untouched h.le c)

/-- What is painted of a row on the line where it begins. -/
theorem Lined.painted (h : Lined host lines p n soft l)
    (hcovers : row.Covers host.wide host.cols k) (hsome : row.painted host.cols ≠ [])
    (hplace : ∀ r, placeOf host.rows lines.length n = some r →
      row.firstMove u host.cols = none ∨ l + 1 - host.rows + r = l) :
    let r := painting u host.rows host.cols lines.length n row p
    Paints (p.on host).ready (r.1.on host) l 0 k (row.painted host.cols) ∧ r.1.Knows host ∧
      r.2 = decide (host.cols ≤ k) ∧ Tight (r.1.on host) ∧
      Ended (r.1.on host) (row.wrapped && r.2) l := by
  obtain ⟨hon, hmarked⟩ := on_marked h.knows row
  have hcols := p.cols_pos host
  have hscrolled := h.next.ready_tight hcols h.tight
  rw [(p.on_size host).1] at hscrolled
  obtain ⟨hpaints, hknows, hfilled⟩ := row_paints (u := u) hcovers.glyphs hcovers.le hsome hmarked
    (by rw [hon]; exact h.next.ready hcols)
    (by rw [hon]; exact h.next.ready_untouched hcols h.untouched)
    (by rw [hon, hscrolled]; exact hplace)
  rw [hon] at hpaints
  have hat := hpaints.at_
  rw [Nat.zero_add] at hat
  refine ⟨hpaints, hknows, hfilled, ?_, ended_of_filled hat hcovers.le hfilled⟩
  rw [Tight, painting, hat.line, (on_size _ host).1]
  exact hpaints.scrolled.trans hscrolled

/-- A row painted on its own line. -/
theorem Lined.inPlace (h : Lined host lines p n soft n) (hrow : lines[n]? = some row)
    (hcovers : row.Covers host.wide host.cols k) (hsome : row.painted host.cols ≠ [])
    (hplace : ∀ r, placeOf host.rows lines.length n = some r →
      row.firstMove u host.cols = none ∨ n + 1 - host.rows + r = n) :
    let r := painting u host.rows host.cols lines.length n row p
    r.2 = decide (host.cols ≤ k) ∧ Drawn host lines r.1 n (row.wrapped && r.2) n := by
  obtain ⟨hpaints, hknows, hfilled, htight, hended⟩ := h.painted hcovers hsome hplace
  refine ⟨hfilled, hknows, hended, hpaints.untouched, htight, le_rfl, fun j hj c hc => ?_⟩
  rcases Nat.lt_or_eq_of_le hj with hlt | rfl
  · rw [hpaints.old j c (by omega), h.next.ready_cells (p.cols_pos host)]
    exact h.done j hlt c hc
  · rw [cellAt_eq hrow]
    rcases Nat.lt_or_ge c k with hlt | hge
    · rw [hpaints.new c (Nat.zero_le c) (by omega), Nat.sub_zero, hcovers.looks c hlt]
    · rw [hcovers.blank c hge hc]
      refine congrArg look (hpaints.untouched j c (Or.inr ⟨hpaints.at_.line.symm, ?_⟩))
      rw [hpaints.at_.place_eq]
      omega

/-- A row painted on a line further up, where all of it is blank. -/
theorem Lined.late (h : Lined host lines p n soft l) (hl : l < n) (hrow : lines[n]? = some row)
    (hcovers : row.Covers host.wide host.cols k) (hsome : row.painted host.cols ≠ [])
    (hmove : row.firstMove u host.cols = none) (hblank : row.BlankTo host.cols) :
    let r := painting u host.rows host.cols lines.length n row p
    Drawn host lines r.1 n (row.wrapped && r.2) l := by
  obtain ⟨hpaints, hknows, hfilled, htight, hended⟩ :=
    h.painted hcovers hsome fun _ _ => Or.inl hmove
  refine ⟨hknows, hended, hpaints.untouched, htight, hl.le, fun j hj c hc => ?_⟩
  rcases Nat.lt_or_eq_of_le hj with hlt | rfl
  · by_cases hnew : j = l ∧ c < k
    · obtain ⟨rfl, hck⟩ := hnew
      rw [hpaints.new c (Nat.zero_le c) (by omega), Nat.sub_zero, hcovers.looks c hck,
        hblank c hc, h.blank le_rfl hlt hc]
    · rw [hpaints.old j c (by omega), h.next.ready_cells (p.cols_pos host)]
      exact h.done j hlt c hc
  · rw [cellAt_eq hrow, hblank c hc]
    exact congrArg look (hpaints.untouched j c (Or.inl (by rw [hpaints.at_.line]; omega)))

/-- A row painted on a line further up until the painter moves to its own, all of that blank. -/
theorem Lined.lateMove {m : ℕ} (h : Lined host lines p n soft l) (hl : l < n)
    (hn : n < lines.length) (habove : lines.length ≤ host.rows)
    (hcovers : row.Covers host.wide host.cols k)
    (hmove : row.firstMove u host.cols = some m) :
    let r := painting u host.rows host.cols lines.length n row p
    Splits (p.on host).ready (r.1.on host) l n 0 m k (row.painted host.cols) ∧
      r.1.Knows host ∧ r.2 = decide (host.cols ≤ k) ∧ (r.1.on host).scrolled = 0 ∧
      Ended (r.1.on host) (row.wrapped && r.2) n := by
  obtain ⟨hon, hmarked⟩ := on_marked h.knows row
  have hcols := p.cols_pos host
  have hscrolled := h.next.ready_tight hcols h.tight
  rw [(p.on_size host).1] at hscrolled
  have hplace : placeOf host.rows lines.length n = some n := by
    simp [placeOf, Nat.sub_eq_zero_of_le habove]
  have hzero : ((marked row p).on host).ready.scrolled = 0 := by
    rw [hon, hscrolled]
    omega
  obtain ⟨hsplits, hknows, hfilled⟩ := row_splits (u := u) (r := n) hcovers.glyphs hcovers.le
    hmarked
    (by rw [hon]; exact h.next.ready hcols)
    (by rw [hon]; exact h.next.ready_untouched hcols h.untouched) (by omega) (by omega) hmove
  rw [hon] at hzero
  rw [hon, hzero, Nat.zero_add] at hsplits
  have hat := hsplits.at_
  rw [Nat.zero_add] at hat
  simp only [painting, hplace]
  exact ⟨hsplits, hknows, hfilled, hsplits.scrolled.trans hzero,
    ended_of_filled hat hcovers.le hfilled⟩

/-- Back in its place, if all before the move is blank. -/
theorem Lined.moved {m : ℕ} (h : Lined host lines p n soft l) (hl : l < n)
    (hrow : lines[n]? = some row) (hn : n < lines.length) (habove : lines.length ≤ host.rows)
    (hcovers : row.Covers host.wide host.cols k) (hmove : row.firstMove u host.cols = some m)
    (hblank : row.BlankTo m) :
    let r := painting u host.rows host.cols lines.length n row p
    r.2 = decide (host.cols ≤ k) ∧ Drawn host lines r.1 n (row.wrapped && r.2) n := by
  obtain ⟨hsplits, hknows, hfilled, hzero, hended⟩ := h.lateMove hl hn habove hcovers hmove
  have hle := hsplits.lt_end
  have hready := h.next.ready_cells (p.cols_pos host)
  refine ⟨hfilled, hknows, hended, hsplits.untouched, ?_, le_rfl, fun j hj c hc => ?_⟩
  · rw [Tight, hzero, hsplits.at_.line, (on_size _ host).1]
    omega
  · rcases Nat.lt_or_eq_of_le hj with hlt | rfl
    · by_cases hnew : j = l ∧ c < m
      · obtain ⟨rfl, hcm⟩ := hnew
        rw [hsplits.before c (Nat.zero_le c) hcm, Nat.sub_zero, hcovers.looks c (by omega),
          hblank c hcm, h.blank le_rfl hlt hc]
      · rw [hsplits.old j c (by omega) (by omega), hready]
        exact h.done j hlt c hc
    · rw [cellAt_eq hrow]
      rcases Nat.lt_or_ge c m with hlt | hge
      · rw [hblank c hlt, hsplits.old j c (by omega) (by omega), hready]
        exact congrArg look (h.next.cells_blank h.untouched h.le c)
      · rcases Nat.lt_or_ge c k with hck | hge'
        · rw [hsplits.after c hge (by omega), Nat.sub_zero, hcovers.looks c hck]
        · rw [hcovers.blank c hge' hc]
          refine congrArg look (hsplits.untouched j c (Or.inr ⟨hsplits.at_.line.symm, ?_⟩))
          rw [hsplits.at_.place_eq]
          omega

/-- What is not blank of a late row is printed where a blank is drawn. -/
theorem Lined.spoiled (h : Lined host lines p n soft l) (hl : l < n) (hn : n < lines.length)
    (habove : lines.length ≤ host.rows)
    (hcovers : row.Covers host.wide host.cols k) (hsome : row.painted host.cols ≠ [])
    (hblank : ¬ row.BlankTo ((row.firstMove u host.cols).getD host.cols)) :
    let r := painting u host.rows host.cols lines.length n row p
    ∃ l' x c, Spoiled host lines r.1 n (row.wrapped && r.2) l' x c := by
  simp only [Row.BlankTo, not_forall] at hblank
  obtain ⟨c, hc, hlook⟩ := hblank
  have hck : c < k := by
    by_contra hge
    cases hmove : row.firstMove u host.cols with
    | none =>
      rw [hmove] at hc
      exact hlook (hcovers.blank c (by omega) hc)
    | some m =>
      have hlt := (h.lateMove hl hn habove hcovers hmove).1.lt_end
      rw [hmove] at hc
      simp only [Option.getD_some] at hc
      omega
  have hcols : c < host.cols := hck.trans_le hcovers.le
  have hwrong : look (row.cellAt c) ≠ look (cellAt lines l c) := by
    rwa [h.blank le_rfl hl hcols]
  have hinside : l < host.rows ∧ c < host.cols := ⟨by omega, hcols⟩
  cases hmove : row.firstMove u host.cols with
  | none =>
    obtain ⟨hpaints, hknows, hfilled, htight, hended⟩ :=
      h.painted hcovers hsome fun _ _ => Or.inl hmove
    refine ⟨l, l, c, hknows, hended, hpaints.untouched, hl.le, ?_, Or.inr ⟨rfl, ?_⟩, hinside, ?_⟩
    · rw [htight, hpaints.at_.line, (on_size _ host).1]
      omega
    · rw [hpaints.at_.place_eq]
      omega
    · rw [hpaints.new c (Nat.zero_le c) (by omega), Nat.sub_zero, hcovers.looks c hck]
      exact hwrong
  | some m =>
    obtain ⟨hsplits, hknows, hfilled, hzero, hended⟩ := h.lateMove hl hn habove hcovers hmove
    rw [hmove] at hc
    refine ⟨n, l, c, hknows, hended, hsplits.untouched, le_rfl, hzero, Or.inl hl, hinside, ?_⟩
    rw [hsplits.before c (Nat.zero_le c) hc, Nat.sub_zero, hcovers.looks c hck]
    exact hwrong

omit [DecidableEq A] in
theorem placeOf_lt {rows total r : ℕ} (hn : n < total) (hr : placeOf rows total n = some r) :
    r = n - (total - rows) ∧ total - rows ≤ n ∧ r < rows := by
  simp only [placeOf] at hr
  split at hr
  · next hle =>
    obtain rfl := Option.some.inj hr
    exact ⟨rfl, hle, by omega⟩
  · cases hr

/-- With the screen yet to scroll, no row comes out as far down as it should: not even the place
that the painter moves to is. -/
theorem Next.fell {total : ℕ} (h : Next (p.on host) soft l) (hknows : p.Knows host) (hl : l < n)
    (hn : n < total) (hscrolled : (p.on host).scrolled < total - host.rows)
    (hcovers : row.Covers host.wide host.cols k) :
    let r := painting u host.rows host.cols total n row p
    ∃ l', Fell host (total - host.rows) r.1 n (row.wrapped && r.2) l' := by
  obtain ⟨hon, hmarked⟩ := on_marked hknows row
  simp only [painting]
  by_cases hsome : row.painted host.cols = []
  · obtain ⟨hon', hknows', hfilled⟩ := row_nothing (u := u) (a := placeOf host.rows total n)
      hmarked hsome
    rw [hon] at hon'
    rw [hfilled, Bool.and_false]
    refine ⟨if soft then l - 1 else l, hknows', ?_, by split <;> omega, ?_⟩
    · rw [hon']
      exact h.ended
    · rw [hon']
      exact hscrolled
  · have hready : (p.on host).ready.scrolled < total - host.rows := by
      rw [h.ready_scrolled (p.cols_pos host), (p.on_size host).1]
      split <;> omega
    obtain ⟨⟨l', hgoes, -⟩, hknows', hfilled⟩ := row_goes (u := u) (a := placeOf host.rows total n)
      hcovers.glyphs hcovers.le hsome hmarked (by rw [hon]; exact h.ready (p.cols_pos host))
      fun r hr => (placeOf_lt hn hr).2.2
    rw [hon] at hgoes
    refine ⟨l', hknows', ended_of_filled hgoes.at_ hcovers.le hfilled, ?_, ?_⟩
    · rcases hgoes.line with rfl | htarget
      · exact hl
      · obtain ⟨r, hr, rfl⟩ := Option.map_eq_some_iff.mp htarget
        have hplace := placeOf_lt hn hr
        omega
    · rw [hgoes.scrolled]
      exact hready

/-- A move within a row, with lines still to scroll, goes to a line further up. -/
theorem Lined.fell (h : Lined host lines p n soft n) (hn : n + 1 < lines.length)
    (habove : 0 < lines.length - host.rows) (hplace : lines.length - host.rows ≤ n)
    (hcovers : row.Covers host.wide host.cols k) (hmove : row.firstMove u host.cols ≠ none) :
    let r := painting u host.rows host.cols lines.length n row p
    ∃ l', Fell host (lines.length - host.rows) r.1 n (row.wrapped && r.2) l' := by
  obtain ⟨hon, hmarked⟩ := on_marked h.knows row
  have hscrolled := h.next.ready_tight (p.cols_pos host) h.tight
  rw [(p.on_size host).1] at hscrolled
  have hsome : row.painted host.cols ≠ [] := by
    intro hnil
    rw [Row.firstMove, hnil] at hmove
    exact hmove rfl
  have hat : placeOf host.rows lines.length n = some (n - (lines.length - host.rows)) := by
    simp [placeOf, hplace]
  obtain ⟨⟨l', hgoes, hmoved⟩, hknows, hfilled⟩ := row_goes (u := u)
    (a := placeOf host.rows lines.length n) hcovers.glyphs hcovers.le hsome hmarked
    (by rw [hon]; exact h.next.ready (p.cols_pos host)) fun r hr => (placeOf_lt (by omega) hr).2.2
  have hl' := hmoved _ hat hmove
  rw [hon] at hgoes hl'
  refine ⟨l', hknows, ended_of_filled hgoes.at_ hcovers.le hfilled, by omega, ?_⟩
  rw [painting, hgoes.scrolled]
  omega

/-- What is not as it is drawn stays so, as the painter goes on further down. -/
theorem Spoiled.goes_on {x c : ℕ} (h : Spoiled host lines p n soft l x c)
    (hn : n + 1 < lines.length) (habove : lines.length ≤ host.rows) (hcovers : row.Covers host.wide host.cols k) :
    let r := painting u host.rows host.cols lines.length (n + 1) row
      (turn lines.length n soft p)
    ∃ l', Spoiled host lines r.1 (n + 1) (row.wrapped && r.2) l' x c := by
  have hle := h.le
  obtain ⟨hknows, hnext, hcells, huntouched, hscrolled⟩ := turn_next h.knows h.ended hn
  have hscrolled' : ((turn lines.length n soft p).on host).scrolled = 0 := by
    rw [hscrolled, h.scrolled]
    split <;> omega
  have huntouched' := huntouched h.untouched
  obtain ⟨hon, hmarked⟩ := on_marked hknows row
  have hbefore : x ≤ l := by
    rcases h.before with hlt | ⟨rfl, -⟩ <;> omega
  simp only [painting]
  by_cases hsome : row.painted host.cols = []
  · obtain ⟨hon', hknows', hfilled⟩ := row_nothing (u := u)
      (a := placeOf host.rows lines.length (n + 1)) hmarked hsome
    rw [hon] at hon'
    rw [hfilled, Bool.and_false]
    refine ⟨if soft then l + 1 - 1 else l + 1, hknows', ?_, ?_, by split <;> omega, ?_, ?_,
      h.inside, ?_⟩
    · rw [hon']
      exact hnext.ended
    · rw [hon']
      exact huntouched'
    · rw [hon']
      exact hscrolled'
    · cases soft with
      | true =>
        rw [hon', turn, if_pos hn, if_pos rfl, if_pos rfl]
        exact h.before
      | false =>
        rw [if_neg (by simp)]
        exact Or.inl (by omega)
    · rw [hon']
      exact hcells ▸ h.differs
  · have hready : ((turn lines.length n soft p).on host).ready.scrolled = 0 := by
      rw [hnext.ready_scrolled (cols_pos _ host), (on_size _ host).1, hscrolled']
      split <;> omega
    have hplace : placeOf host.rows lines.length (n + 1) = some (n + 1) := by
      simp [placeOf, Nat.sub_eq_zero_of_le habove]
    obtain ⟨⟨l', hgoes, -⟩, hknows', hfilled⟩ := row_goes (u := u)
      (a := placeOf host.rows lines.length (n + 1)) hcovers.glyphs hcovers.le hsome hmarked
      (by rw [hon]; exact hnext.ready (cols_pos _ host)) fun r hr => (placeOf_lt hn hr).2.2
    rw [hon, hready] at hgoes
    obtain ⟨huntouched₁, hle', hkept⟩ := hgoes.kept
      (hnext.ready_untouched (cols_pos _ host) huntouched') fun y hy => by
        rw [hplace] at hy
        have : 0 + (n + 1) = y := Option.some.inj hy
        omega
    refine ⟨l', hknows', ended_of_filled hgoes.at_ hcovers.le hfilled, huntouched₁, ?_, ?_,
      Or.inl (by omega), h.inside, ?_⟩
    · rcases hgoes.line with rfl | htarget
      · omega
      · rw [hplace] at htarget
        have : 0 + (n + 1) = l' := Option.some.inj htarget
        omega
    · exact hgoes.scrolled.trans hready
    · rw [hkept x c (Or.inl (by omega)), hnext.ready_cells (cols_pos _ host), hcells]
      exact h.differs

end Step

/-! ### The whole loop -/

section Run

variable (hcovers : ∀ row ∈ lines, ∃ k, row.Covers host.wide host.cols k)

/-- What the loop over all the lines is to leave. -/
def Final (host : Host) (lines : List (Row A)) (t : Term A (List UInt8)) : Prop :=
  t.scrolled = lines.length - host.rows ∧ ∀ r < host.rows, ∀ c < host.cols,
    look (t.cells (t.scrolled + r) c) = look (cellAt lines (t.scrolled + r) c)

omit [Inhabited A] [DecidableEq A] in
/-- The first of the lines from the `n`th on. -/
theorem drop_cons {n : ℕ} {row : Row A} {rest : List (Row A)}
    (hrest : lines.drop n = row :: rest) :
    n < lines.length ∧ lines[n]? = some row ∧ lines.drop (n + 1) = rest := by
  have hn : n < lines.length := by
    by_contra hge
    rw [List.drop_eq_nil_iff.mpr (by omega)] at hrest
    cases hrest
  rw [List.drop_eq_getElem_cons hn] at hrest
  injection hrest with hrow hrest
  exact ⟨hn, by rw [List.getElem?_eq_getElem hn, hrow], hrest⟩

include hcovers

/-- The loop over the lines after the `n`th. -/
theorem Fell.run (rest : List (Row A)) : ∀ {p : Painter A} {n l : ℕ} {soft : Bool},
    Fell host (lines.length - host.rows) p n soft l → lines.drop (n + 1) = rest →
      ((linesLoop u host.rows host.cols lines.length rest (n + 1)
        (turn lines.length n soft p)).on host).scrolled < lines.length - host.rows := by
  induction rest with
  | nil =>
    intro p n l soft h hrest
    have hlast : ¬ n + 1 < lines.length := by
      have := List.drop_eq_nil_iff.mp hrest
      omega
    rw [turn, if_neg hlast]
    exact h.scrolled
  | cons row rest ih =>
    intro p n l soft h hrest
    obtain ⟨hn, hrow, hrest'⟩ := drop_cons hrest
    obtain ⟨k, hk⟩ := hcovers row (List.mem_of_getElem? hrow)
    obtain ⟨hknows, hnext, -, -, hscrolled⟩ := turn_next h.knows h.ended hn
    have hlt := h.lt
    have habove := h.scrolled
    obtain ⟨l', hfell⟩ := hnext.fell (u := u) hknows (by omega) hn
      (by rw [hscrolled]; split <;> omega) hk
    rw [linesLoop_cons]
    exact ih hfell hrest'

/-- What is spoiled stays so, whatever rows come. -/
theorem Spoiled.run (habove : lines.length ≤ host.rows) (rest : List (Row A)) :
    ∀ {p : Painter A} {n l x c : ℕ} {soft : Bool}, Spoiled host lines p n soft l x c →
      lines.drop (n + 1) = rest →
      look (((linesLoop u host.rows host.cols lines.length rest (n + 1)
        (turn lines.length n soft p)).on host).cells x c) ≠ look (cellAt lines x c) := by
  induction rest with
  | nil =>
    intro p n l x c soft h hrest
    have hlast : ¬ n + 1 < lines.length := by
      have := List.drop_eq_nil_iff.mp hrest
      omega
    rw [turn, if_neg hlast]
    exact h.differs
  | cons row rest ih =>
    intro p n l x c soft h hrest
    obtain ⟨hn, hrow, hrest'⟩ := drop_cons hrest
    obtain ⟨k, hk⟩ := hcovers row (List.mem_of_getElem? hrow)
    obtain ⟨l', hspoiled⟩ := h.goes_on (u := u) hn habove hk
    rw [linesLoop_cons]
    exact ih hspoiled hrest'

omit hcovers

omit [DecidableEq A] in
/-- After the last line all is in its place, unless the screen has yet to scroll. -/
theorem Drawn.final {n l : ℕ} {soft : Bool} (h : Drawn host lines p n soft l)
    (hn : n + 1 = lines.length) :
    Final host lines (p.on host) ↔ l = n ∨ lines.length - host.rows = 0 := by
  obtain ⟨k, hat, -⟩ := h.ended
  have hle := h.le
  have htight := h.tight
  rw [Tight, hat.line, (p.on_size host).1] at htight
  constructor
  · intro hfinal
    have hscrolled := hfinal.1
    omega
  · intro hplace
    refine ⟨by omega, fun r hr c hc => ?_⟩
    rcases Nat.lt_or_ge n ((p.on host).scrolled + r) with hlt | hge
    · have hnone : lines[(p.on host).scrolled + r]? = none := List.getElem?_eq_none (by omega)
      rw [cellAt, hnone, h.untouched _ c (Or.inl (by rw [hat.line]; omega))]
      rfl
    · exact h.done _ hge c hc

omit [DecidableEq A] in
theorem standAt_succ (n l : ℕ) (soft : Bool) : standAt (n + 1) soft (l + 1) = standAt n soft l := by
  simp [standAt]

theorem lands_nil {cols above n l m : ℕ} {soft : Bool} :
    Lands u cols above (standAt n soft l) m ([] : List (Row A)) ↔ l = n ∨ above = 0 := by
  by_cases hl : l = n
  · cases soft <;> simp [standAt, hl, Lands]
  · simp [standAt, hl, Lands]

/-- Of a row that shows nothing nothing is seen, but that it is lost after a soft one. -/
theorem lands_nothing {above n l k : ℕ} {soft : Bool} {row : Row A} {rest : List (Row A)}
    (hk : row.Covers host.wide host.cols k) (hpainted : row.painted host.cols = []) (hl : l ≤ n)
    (hsoft : soft = true → 0 < l) :
    Lands u host.cols above (standAt n soft l) n (row :: rest) ↔
      Lands u host.cols above (standAt n false (if soft then l - 1 else l)) (n + 1) rest := by
  have hmove : row.firstMove u host.cols = none := by
    rw [Row.firstMove, hpainted]
    rfl
  have hzero : k = 0 := by
    have hglyphs := hk.glyphs
    rw [hpainted] at hglyphs
    cases hglyphs
    rfl
  have hstand : row.stand host.cols = .fresh := by
    refine if_neg fun hfull => ?_
    have hlen := hk.wrapped hfull.1
    have hcols := host.hcols
    omega
  by_cases hln : l = n
  · cases soft with
    | false => simp [standAt, hln, lands_inPlace, hmove, hstand]
    | true =>
      have hpos := hsoft rfl
      simp [standAt, hln, lands_inPlace, hpainted, show n - 1 ≠ n by omega]
  · have hlate : (if soft then l - 1 else l) ≠ n := by split <;> omega
    simp only [standAt, if_neg hln, if_neg hlate]
    by_cases habove : above = 0
    · have hblank : row.BlankTo host.cols := fun c hc => hk.blank c (by omega) hc
      simp [Lands, hmove, habove, hblank]
    · exact ⟨fun h => absurd h (not_lands_late habove), fun h => absurd h (not_lands_late habove)⟩

/-- After a row in its place. -/
theorem stand_eq {n k : ℕ} {row : Row A} (hk : row.Covers host.wide host.cols k) :
    standAt n (row.wrapped && decide (host.cols ≤ k)) n = row.stand host.cols := by
  by_cases hwrapped : row.wrapped = true
  · have hlen := hk.wrapped hwrapped
    have hiff : host.cols ≤ k ↔ host.cols ≤ row.cells.length := by omega
    simp [standAt, Row.stand, hwrapped, hiff]
  · simp [standAt, Row.stand, hwrapped]

include hcovers

/-- The loop from a row on leaves the lines in their places just when they land. -/
theorem Lined.final_iff (rows : List (Row A)) : ∀ {p : Painter A} {n l : ℕ} {soft : Bool},
    Lined host lines p n soft l → lines.drop n = rows → rows ≠ [] →
      (Final host lines ((linesLoop u host.rows host.cols lines.length rows n p).on host) ↔
        Lands u host.cols (lines.length - host.rows) (standAt n soft l) n rows) := by
  induction rows with
  | nil => exact fun _ _ hsome => absurd rfl hsome
  | cons row rest ih =>
    intro p n l soft h hdrop _
    obtain ⟨hn, hrow, hrest⟩ := drop_cons hdrop
    obtain ⟨k, hk⟩ := hcovers row (List.mem_of_getElem? hrow)
    have hle := h.le
    -- A row that came out leaves the rest to the same loop.
    have hdrawn : ∀ {q : Painter A} {soft' : Bool} {l' : ℕ}, Drawn host lines q n soft' l' →
        (Final host lines ((linesLoop u host.rows host.cols lines.length rest (n + 1)
            (turn lines.length n soft' q)).on host) ↔
          Lands u host.cols (lines.length - host.rows) (standAt n soft' l') (n + 1) rest) := by
      intro q soft' l' hq
      cases rest with
      | nil =>
        have hlast : n + 1 = lines.length := by
          have := List.drop_eq_nil_iff.mp hrest
          omega
        rw [turn, if_neg (by omega), lands_nil]
        exact hq.final hlast
      | cons next rest =>
        rw [← standAt_succ]
        exact ih (hq.lined (drop_cons hrest).1) hrest (List.cons_ne_nil _ _)
    -- One that fell behind leaves the screen yet to scroll.
    have hfell : ∀ {q : Painter A} {soft' : Bool} {l' : ℕ},
        Fell host (lines.length - host.rows) q n soft' l' →
        ¬ Final host lines ((linesLoop u host.rows host.cols lines.length rest (n + 1)
          (turn lines.length n soft' q)).on host) := fun hq hfinal =>
      absurd hfinal.1 (hq.run hcovers rest hrest).ne
    rw [linesLoop_cons]
    by_cases hpainted : row.painted host.cols = []
    · obtain ⟨hfilled, hq⟩ := h.nothing (u := u) hrow hk hpainted
      have hsoft : soft = true → 0 < l := by
        rintro rfl
        cases h.next
        omega
      rw [hfilled, Bool.and_false, lands_nothing hk hpainted hle hsoft]
      exact hdrawn hq
    · by_cases hln : l = n
      · subst hln
        have hstand : standAt l soft l ≠ .late := by cases soft <;> simp [standAt]
        rw [lands_inPlace hstand]
        by_cases hmoved : 0 < lines.length - host.rows ∧ lines.length - host.rows ≤ l ∧
            rest ≠ [] ∧ (row.firstMove u host.cols).isSome
        · obtain ⟨habove, hplace, hsome, hmove⟩ := hmoved
          have hnext : l + 1 < lines.length := by
            by_contra hge
            exact hsome (hrest ▸ List.drop_eq_nil_iff.mpr (by omega))
          obtain ⟨l', hq⟩ := h.fell hnext habove hplace hk (Option.isSome_iff_ne_none.mp hmove)
          rw [if_pos (Or.inr ⟨habove, hplace, hsome, hmove⟩)]
          exact ⟨fun hfinal => absurd hfinal (hfell hq),
            fun hlands => absurd hlands (not_lands_late (by omega))⟩
        · have hplace : ∀ r, placeOf host.rows lines.length l = some r →
              row.firstMove u host.cols = none ∨ l + 1 - host.rows + r = l := by
            intro r hr
            obtain ⟨rfl, hr, -⟩ := placeOf_lt hn hr
            by_contra hwrong
            rw [not_or] at hwrong
            refine hmoved ⟨by omega, hr, fun hnil => ?_, Option.isSome_iff_ne_none.mpr hwrong.1⟩
            rw [hnil] at hrest
            have := List.drop_eq_nil_iff.mp hrest
            omega
          obtain ⟨hfilled, hq⟩ := h.inPlace hrow hk hpainted hplace
          rw [if_neg (by simp only [hpainted, and_false, false_or]; exact hmoved), ← stand_eq hk,
            ← hfilled]
          exact hdrawn hq
      · have hlt : l < n := by omega
        have hlate : standAt n soft l = .late := if_neg hln
        rw [hlate]
        by_cases habove : lines.length - host.rows = 0
        · have hfits : lines.length ≤ host.rows := by omega
          -- What comes out before its place stays there.
          have hspoiled : ∀ {q : Painter A} {soft' : Bool} {l' x c : ℕ},
              Spoiled host lines q n soft' l' x c →
              ¬ Final host lines ((linesLoop u host.rows host.cols lines.length rest (n + 1)
                (turn lines.length n soft' q)).on host) := by
            intro q soft' l' x c hq hfinal
            have hwrong := hq.run (u := u) hcovers hfits rest hrest
            have hright := hfinal.2 x hq.inside.1 c hq.inside.2
            rw [hfinal.1, habove, Nat.zero_add] at hright
            exact hwrong hright
          cases hmove : row.firstMove u host.cols with
          | none =>
            rw [lands_late_stay hmove]
            by_cases hblank : row.BlankTo host.cols
            · have hq := h.late hlt hrow hk hpainted hmove hblank
              rw [hdrawn hq]
              simp [standAt, hln, habove, hblank]
            · obtain ⟨l', x, c, hq⟩ := h.spoiled (u := u) hlt hn hfits hk hpainted (by
                rwa [hmove])
              exact ⟨fun hfinal => absurd hfinal (hspoiled hq),
                fun hlands => absurd hlands.2.1 hblank⟩
          | some m =>
            rw [lands_late_move hmove]
            by_cases hblank : row.BlankTo m
            · obtain ⟨hfilled, hq⟩ := h.moved hlt hrow hn hfits hk hmove hblank
              rw [hdrawn hq, hfilled, stand_eq hk]
              simp [habove, hblank]
            · obtain ⟨l', x, c, hq⟩ := h.spoiled (u := u) hlt hn hfits hk hpainted (by
                rwa [hmove])
              exact ⟨fun hfinal => absurd hfinal (hspoiled hq),
                fun hlands => absurd hlands.2.1 hblank⟩
        · have hscrolled : (p.on host).scrolled < lines.length - host.rows := by
            have hready := h.next.ready_tight (p.cols_pos host) h.tight
            rw [h.next.ready_scrolled (p.cols_pos host), (p.on_size host).1] at hready
            split at hready <;> omega
          obtain ⟨l', hq⟩ := h.next.fell (u := u) h.knows hlt hn hscrolled hk
          exact ⟨fun hfinal => absurd hfinal (hfell hq),
            fun hlands => absurd hlands (not_lands_late habove)⟩

end Run

end Loop

/-! ### The redraw -/

omit [DecidableEq A] in
/-- A terminal just reset, and nothing painted yet. -/
theorem reset_lined (host : Host) (lines : List (Row A)) :
    Lined host lines ⟨[], [.reset], default, none⟩ 0 false 0 := by
  have hrows := host.hrows
  refine ⟨⟨rfl, rfl⟩, .fresh ⟨hrows, rfl, Or.inl ⟨host.hcols, rfl, rfl⟩⟩, fun _ _ _ => rfl, ?_,
    le_rfl, fun j hj => absurd hj (Nat.not_lt_zero j)⟩
  change 0 = 0 + 1 - host.rows
  omega

omit [DecidableEq A] in
theorem cellAt_drop (rows : List (Row A)) (d l c : ℕ) :
    cellAt (rows.drop d) l c = cellAt rows (d + l) c := by
  simp [cellAt]

omit [DecidableEq A] in
/-- What is shown is what is left in the end. -/
theorem shows_iff_final (host : Host) (main : List (Row A)) (history : ℕ)
    (t : Term A (List UInt8)) :
    Shows host main history t ↔ Final host (drawn main host.rows history) t := by
  have habove : (drawn main host.rows history).length - host.rows =
      min history (main.length - host.rows) := by
    simp only [drawn, List.length_drop]
    omega
  simp only [Shows, Final, habove]
  refine and_congr_right fun hscrolled => forall₂_congr fun r _ => forall₂_congr fun c _ => ?_
  rw [drawn, cellAt_drop, show main.length - host.rows - history + (t.scrolled + r) =
    main.length - host.rows + r by omega]

/-- A redraw shows the rows in their places, and scrolls those before, exactly when they land. -/
theorem redraw_shows_iff (host : Host) (u : Characters) (main : List (Row A)) (history : ℕ)
    (hpaired : ∀ row ∈ main, Paired host.wide (row.cells.take host.cols)) :
    Shows host main history ((redraw u main host.rows host.cols history).on host) ↔
      Lands u host.cols (min history (main.length - host.rows)) .fresh 0
        (drawn main host.rows history) := by
  have habove : (drawn main host.rows history).length - host.rows =
      min history (main.length - host.rows) := by
    simp only [drawn, List.length_drop]
    omega
  have hcovers : ∀ row ∈ drawn main host.rows history, ∃ k, row.Covers host.wide host.cols k :=
    fun row hrow => (hpaired row (List.drop_subset _ main hrow)).painted
  rw [shows_iff_final, ← habove, redraw]
  have hlined := reset_lined host (drawn main host.rows history)
  cases hlines : drawn main host.rows history with
  | nil =>
    rw [hlines] at hlined
    refine ⟨fun _ => trivial, fun _ => ⟨?_, fun r _ c _ => ?_⟩⟩
    · exact (Nat.zero_sub host.rows).symm
    · rfl
  | cons row rest =>
    rw [hlines] at hlined hcovers
    exact hlined.final_iff hcovers (row :: rest) rfl (List.cons_ne_nil _ _)

section Decide

instance (row : Row A) (width : ℕ) : Decidable (row.BlankTo width) :=
  inferInstanceAs (Decidable (∀ c < width, look (row.cellAt c) = look (.blank : Cell A Hyperlink)))

instance instDecidableLands (u : Characters) (cols above : ℕ) :
    ∀ (rows : List (Row A)) (stand : Stand) (n : ℕ), Decidable (Lands u cols above stand n rows)
  | [], .late, _ => inferInstanceAs (Decidable (above = 0))
  | [], .fresh, _ => inferInstanceAs (Decidable True)
  | [], .soft, _ => inferInstanceAs (Decidable True)
  | row :: rest, .late, n =>
    have hlate := instDecidableLands u cols above rest .late (n + 1)
    have hplaced := instDecidableLands u cols above rest (row.stand cols) (n + 1)
    match hmove : row.firstMove u cols with
    | none => decidable_of_iff _ (lands_late_stay hmove).symm
    | some _ => decidable_of_iff _ (lands_late_move hmove).symm
  | row :: rest, .fresh, n =>
    have hlate := instDecidableLands u cols above rest .late (n + 1)
    have hplaced := instDecidableLands u cols above rest (row.stand cols) (n + 1)
    decidable_of_iff _ (lands_inPlace (by simp : Stand.fresh ≠ .late)).symm
  | row :: rest, .soft, n =>
    have hlate := instDecidableLands u cols above rest .late (n + 1)
    have hplaced := instDecidableLands u cols above rest (row.stand cols) (n + 1)
    decidable_of_iff _ (lands_inPlace (by simp : Stand.soft ≠ .late)).symm

instance (host : Host) (main : List (Row A)) (history : ℕ) (t : Term A (List UInt8)) :
    Decidable (Shows host main history t) :=
  inferInstanceAs (Decidable (_ ∧ ∀ r < host.rows, ∀ c < host.cols, _ = _))

end Decide

/-! ### Rows that land, and rows that do not -/

section Samples

/-- Every character one column wide, `±` two where the ambiguous are wide. -/
def latin : Characters where
  width _ := some 1
  widthCjk c := if c = '±' then some 2 else some 1
  continuesCluster _ _ := false

/-- A terminal of two rows, four columns wide, with no wide glyphs. -/
def twoByFour : Host := ⟨2, 4, fun _ => false, by decide, by decide⟩

/-- A row of one narrow glyph a cell, and of blanks for spaces. -/
def textRow (text : List Char) (wrapped : Bool) : Row Unit where
  cells := text.map fun c => ⟨if c = ' ' then [] else [c], (), none, false, false⟩
  wrapped := wrapped
  startsPrompt := false

/-- Narrow text is whole glyphs. -/
theorem textRow_paired {wide : List Char → Bool} (hnarrow : ∀ glyph, wide glyph = false)
    (text : List Char) (wrapped : Bool) (cols : ℕ) :
    Paired wide ((textRow text wrapped).cells.take cols) := by
  simp only [textRow, ← List.map_take]
  induction text.take cols with
  | nil => exact .nil
  | cons c text ih => exact .narrow rfl rfl (hnarrow _) ih

/-- Four lines, with a `±` in the third, of which the screen has two. -/
def accented : List (Row Unit) :=
  [textRow ['o', 'n', 'e'] false, textRow ['t', 'w', 'o'] false,
    textRow ['c', 'a', '±', 'x'] false, textRow ['f', 'o', 'u', 'r'] false]

/-- With no history, the painter's move to the glyph after `±` is to where it stands. -/
theorem accented_shown : Shows twoByFour accented 0 ((redraw latin accented 2 4 0).on twoByFour) :=
  (redraw_shows_iff twoByFour latin accented 0 (by
    simp only [accented, List.forall_mem_cons]
    exact ⟨textRow_paired (fun _ => rfl) _ _ _, textRow_paired (fun _ => rfl) _ _ _,
      textRow_paired (fun _ => rfl) _ _ _, textRow_paired (fun _ => rfl) _ _ _, by simp⟩)).mpr
    (by decide)

/-- With history, the move is made a row too high, as the screen has yet to scroll. -/
theorem accented_lost :
    ∃ (host : Host) (u : Characters) (main : List (Row Unit)) (history : ℕ),
      (∀ row ∈ main, Paired host.wide (row.cells.take host.cols)) ∧
        ¬ Shows host main history ((redraw u main host.rows host.cols history).on host) := by
  refine ⟨twoByFour, latin, accented, 2, ?_, fun hshows => absurd hshows.1 (by decide +kernel)⟩
  simp only [accented, List.forall_mem_cons]
  exact ⟨textRow_paired (fun _ => rfl) _ _ _, textRow_paired (fun _ => rfl) _ _ _,
    textRow_paired (fun _ => rfl) _ _ _, textRow_paired (fun _ => rfl) _ _ _, by simp⟩

-- A blank row after a soft-wrapped one is lost, and what follows comes out on it.
example : ¬ Lands latin 4 0 .fresh 0
    [textRow ['a', 'b', 'c', 'd'] true, textRow [' ', ' ', ' ', ' '] false,
      textRow ['x'] false] := by
  decide

end Samples

end Koh.Terminal
