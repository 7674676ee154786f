import Koh.Terminal.Redraw

/-!
# What a painter's rows do to a terminal

A row is painted from where the terminal prints next, to the end of its last glyph. As long as the
painter moves only to where the cursor is, the row comes out on that line as it is
(`row_paints`); wherever it moves to, the cursor ends on the line it came to, and what was printed
before stays (`loop_goes`).

## Main definitions

- `Host`, `Painter.on`: the terminal that is written to, and what a painter wrote on it
- `look`: what a cell shows
- `Paired`, `Glyphs`: the rows an emulator has, and what is painted of one
- `Paints`, `Goes`: what painting some cells does

## Main results

- `loop_paints`, `loop_goes`: the loop over a row's cells
-/

namespace Koh.Terminal

open Koh.Vt

variable {A L : Type}

/-- A terminal of some size, and how wide it takes a glyph to be. -/
structure Host where
  rows : ℕ
  cols : ℕ
  wide : List Char → Bool
  hrows : 0 < rows
  hcols : 0 < cols

/-! ### What a cell looks like -/

/-- What a cell shows, a blank the same as a space: nothing of its own, if it is the right half of
a wide glyph. -/
def look (cell : Cell A L) : Option (List Char × A) :=
  if cell.isWideContinuation then none else some (Painter.glyphOf cell.contents, cell.attributes)

variable [Inhabited A]

/-- What a painter wrote, on a terminal just started. -/
def Painter.on (p : Painter A) (host : Host) : Term A (List UInt8) :=
  (Term.new host.rows host.cols).run host.wide p.codes

/-- The cells of a row as wide as the screen: each wide glyph has the cell to its right as well, and
the terminal takes each glyph as wide as its cells are. -/
inductive Paired (wide : List Char → Bool) : List (Cell A Hyperlink) → Prop where
  | nil : Paired wide []
  | narrow {cell : Cell A Hyperlink} {rest : List (Cell A Hyperlink)} :
      cell.isWide = false → cell.isWideContinuation = false →
      wide (Painter.glyphOf cell.contents) = false → Paired wide rest → Paired wide (cell :: rest)
  | wide {cell right : Cell A Hyperlink} {rest : List (Cell A Hyperlink)} :
      cell.isWide = true → cell.isWideContinuation = false → cell.contents ≠ [] →
      wide (Painter.glyphOf cell.contents) = true → right.isWide = false →
      right.isWideContinuation = true → Paired wide rest → Paired wide (cell :: right :: rest)

/-- The first column that the painter moves to, of the cells from column `n` on. -/
def firstMove (u : Characters) : Along → List (Cell A Hyperlink) → ℕ → Option ℕ
  | _, [], _ => none
  | s, cell :: rest, n =>
    if cell.isWideContinuation then firstMove u s rest (n + 1)
    else if s.jumps u cell.contents then some n
    else firstMove u (.next u n cell) rest (n + 1)

section Rows

variable [DecidableEq A]

/-- The first column of the row that the painter moves to. -/
def Row.firstMove (row : Row A) (u : Characters) (width : ℕ) : Option ℕ :=
  Terminal.firstMove u .start (row.painted width) 0

end Rows

/-! ### What is written, on the terminal -/

namespace Painter

variable {p : Painter A} {host : Host}

omit [Inhabited A] in
theorem codes_write (p : Painter A) (code : Code A (List UInt8)) :
    (p.write code).codes = p.codes ++ [code] := by
  simp [codes, write]

/-- A code that is written is one step of the terminal. -/
theorem on_write (p : Painter A) (host : Host) (code : Code A (List UInt8)) :
    (p.write code).on host = (p.on host).step host.wide code := by
  simp [on, codes_write]

/-- A mark is none of what is written. -/
theorem on_mark (p : Painter A) (host : Host) (payload : List UInt8) :
    (p.mark payload).on host = p.on host := by
  simp only [on]
  congr 1
  cases hout : p.out <;> simp [codes, mark, hout]

/-- The painter knows the terminal's pen and link. -/
structure Knows (p : Painter A) (host : Host) : Prop where
  pen : p.pen = (p.on host).pen
  link : p.link = (p.on host).link

/-- A mark changes nothing of what is known. -/
theorem Knows.mark (h : p.Knows host) (payload : List UInt8) : (p.mark payload).Knows host :=
  ⟨by rw [on_mark]; exact h.pen, by rw [on_mark]; exact h.link⟩

/-- The pen is the one asked for, and nothing else changed. -/
theorem on_usePen [DecidableEq A] (h : p.Knows host) (attributes : A) :
    (p.usePen attributes).on host = { p.on host with pen := attributes } ∧
      (p.usePen attributes).Knows host := by
  by_cases hpen : attributes = p.pen
  · have hsame : p.usePen attributes = p := by simp [usePen, hpen]
    rw [hsame, hpen, h.pen]
    exact ⟨rfl, h⟩
  · have hwrite : (p.usePen attributes).on host = { p.on host with pen := attributes } := by
      simp only [usePen, ne_eq, hpen, not_false_eq_true, if_true]
      exact on_write p host (.sgr attributes)
    refine ⟨hwrite, ?_, ?_⟩
    · rw [hwrite]
      simp [usePen, hpen]
    · rw [hwrite]
      simp only [usePen, ne_eq, hpen, not_false_eq_true, if_true]
      exact h.link

/-- A link is set. -/
theorem on_useLink (h : p.Knows host) (link : Option Hyperlink) :
    (p.useLink link).on host = { p.on host with link := link.map Hyperlink.osc } ∧
      (p.useLink link).Knows host := by
  by_cases hlink : link.map Hyperlink.osc = p.link
  · have hsame : p.useLink link = p := by simp [useLink, hlink]
    rw [hsame, hlink, h.link]
    exact ⟨rfl, h⟩
  · have hwrite : (p.useLink link).on host =
        { p.on host with link := link.map Hyperlink.osc } := by
      simp only [useLink, ne_eq, hlink, not_false_eq_true, if_true]
      exact on_write p host (.link (link.map Hyperlink.osc))
    refine ⟨hwrite, ?_, ?_⟩
    · rw [hwrite]
      simp only [useLink, ne_eq, hlink, not_false_eq_true, if_true]
      exact h.pen
    · rw [hwrite]
      simp [useLink, hlink]

/-- A cell's glyph, printed in its style and link. -/
def glyph [DecidableEq A] (p : Painter A) (cell : Cell A Hyperlink) : Painter A :=
  ((p.usePen cell.attributes).useLink cell.link).write (.print (glyphOf cell.contents))

def styled (t : Term A (List UInt8)) (cell : Cell A Hyperlink) : Term A (List UInt8) :=
  { t with pen := cell.attributes, link := cell.link.map Hyperlink.osc }

omit [Inhabited A] in
theorem styled_ready (t : Term A (List UInt8)) (cell : Cell A Hyperlink) :
    (styled t cell).ready = styled t.ready cell := by
  by_cases hpending : t.pending = true
  · by_cases hrow : t.row + 1 < t.rows <;>
      simp [styled, Term.ready, hpending, Term.wrap, Term.carriageReturn, Term.lineFeed, hrow]
  · simp [styled, Term.ready, hpending]

/-- A cell's glyph is printed where the terminal would next. -/
theorem on_glyph [DecidableEq A] (h : p.Knows host) (cell : Cell A Hyperlink) :
    (p.glyph cell).on host =
        (styled (p.on host).ready cell).print host.wide (glyphOf cell.contents) ∧
      (p.glyph cell).Knows host := by
  obtain ⟨hpen, hknows⟩ := on_usePen h cell.attributes
  obtain ⟨hlink, hknows'⟩ := on_useLink hknows cell.link
  have hon : (p.glyph cell).on host =
      (styled (p.on host) cell).print host.wide (glyphOf cell.contents) := by
    rw [glyph, on_write, hlink, hpen]
    rfl
  have hstyled := Term.print_styled (styled (p.on host) cell) host.wide (glyphOf cell.contents)
  rw [hpen] at hlink
  refine ⟨by rw [hon, ← styled_ready, Term.print_ready], ?_, ?_⟩
  · rw [hon, hstyled.1, glyph]
    exact hknows'.pen.trans (by rw [hlink]; rfl)
  · rw [hon, hstyled.2.1, glyph]
    exact hknows'.link.trans (by rw [hlink]; rfl)

theorem on_size (p : Painter A) (host : Host) :
    (p.on host).rows = host.rows ∧ (p.on host).cols = host.cols :=
  Term.run_size _ host.wide p.codes

theorem cols_pos (p : Painter A) (host : Host) : 0 < (p.on host).cols := by
  rw [(p.on_size host).2]
  exact host.hcols

theorem ready_size (p : Painter A) (host : Host) :
    (p.on host).ready.rows = host.rows ∧ (p.on host).ready.cols = host.cols := by
  simp only [Term.ready]
  split
  · rw [Term.wrap_eq]
    exact p.on_size host
  · exact p.on_size host

end Painter

/-! ### A row painted -/

/-- What the cells look like at the place `i` among them; past the last, the right half of it. -/
def looks (cells : List (Cell A Hyperlink)) (i : ℕ) : Option (List Char × A) :=
  (cells[i]?).bind look

/-- From `t` on, the cells were painted in `k` columns of the line `l`, from `n` on. -/
structure Paints (t t' : Term A (List UInt8)) (l n k : ℕ) (cells : List (Cell A Hyperlink)) :
    Prop where
  at_ : t'.At l (n + k)
  scrolled : t'.scrolled = t.scrolled
  untouched : t'.Untouched
  new : ∀ c, n ≤ c → c < n + k → look (t'.cells l c) = looks cells (c - n)
  old : ∀ l' c, ¬(l' = l ∧ n ≤ c ∧ c < n + k) → t'.cells l' c = t.cells l' c

/-- One stretch of a row after another. -/
theorem Paints.trans {t t₁ t₂ : Term A (List UInt8)} {l n k k' : ℕ}
    {cells cells' : List (Cell A Hyperlink)} (h : Paints t t₁ l n k cells)
    (h' : Paints t₁ t₂ l (n + k) k' cells') (htail : ∀ i, looks cells (k + i) = looks cells' i) :
    Paints t t₂ l n (k + k') cells where
  at_ := Nat.add_assoc n k k' ▸ h'.at_
  scrolled := h'.scrolled.trans h.scrolled
  untouched := h'.untouched
  new c hn hc := by
    rcases Nat.lt_or_ge c (n + k) with hlt | hge
    · rw [h'.old l c (by omega), h.new c hn hlt]
    · rw [h'.new c hge (by omega), ← htail]
      congr 1
      omega
  old l' c hlc := by
    rw [h'.old l' c (by omega), h.old l' c (by omega)]

/-- The cells painted of a row, `k` columns of them: the last glyph's right half may not be among
them. -/
inductive Glyphs (wide : List Char → Bool) : ℕ → List (Cell A Hyperlink) → Prop where
  | nil : Glyphs wide 0 []
  | narrow {k : ℕ} {cell : Cell A Hyperlink} {rest : List (Cell A Hyperlink)} :
      cell.isWide = false → cell.isWideContinuation = false →
      wide (Painter.glyphOf cell.contents) = false → Glyphs wide k rest →
      Glyphs wide (1 + k) (cell :: rest)
  | wide {k : ℕ} {cell right : Cell A Hyperlink} {rest : List (Cell A Hyperlink)} :
      cell.isWide = true → cell.isWideContinuation = false →
      wide (Painter.glyphOf cell.contents) = true → right.isWideContinuation = true →
      Glyphs wide k rest → Glyphs wide (2 + k) (cell :: right :: rest)
  | half {cell : Cell A Hyperlink} :
      cell.isWide = true → cell.isWideContinuation = false →
      wide (Painter.glyphOf cell.contents) = true → Glyphs wide 2 [cell]

/-- The first of the cells painted of a row, `w` columns of them, and those after it. -/
structure Glyphs.Tail (wide : List Char → Bool) (cell : Cell A Hyperlink)
    (rest : List (Cell A Hyperlink)) (w k : ℕ) (rest' : List (Cell A Hyperlink)) : Prop where
  left : cell.isWideContinuation = false
  width : Term.widthOf wide (Painter.glyphOf cell.contents) = w
  col : (if cell.isWide then 2 else 1) = w
  glyphs : Glyphs wide k rest'
  skip : (w = 1 ∧ rest = rest') ∨ (w = 2 ∧ rest = [] ∧ rest' = []) ∨
    (w = 2 ∧ ∃ right, right.isWideContinuation = true ∧ rest = right :: rest')

omit [Inhabited A] in
/-- The first glyph, and those after it. -/
theorem Glyphs.tail {wide : List Char → Bool} {k : ℕ} {cell : Cell A Hyperlink}
    {rest : List (Cell A Hyperlink)} (h : Glyphs wide k (cell :: rest)) :
    ∃ w k' rest', k = w + k' ∧ Glyphs.Tail wide cell rest w k' rest' := by
  cases h with
  | narrow hw hcell hwide hrest =>
    exact ⟨1, _, _, rfl, hcell, by simp [Term.widthOf, hwide], by simp [hw], hrest,
      Or.inl ⟨rfl, rfl⟩⟩
  | wide hw hcell hwide hright hrest =>
    exact ⟨2, _, _, rfl, hcell, by simp [Term.widthOf, hwide], by simp [hw], hrest,
      Or.inr (Or.inr ⟨rfl, _, hright, rfl⟩)⟩
  | half hw hcell hwide =>
    exact ⟨2, 0, [], rfl, hcell, by simp [Term.widthOf, hwide], by simp [hw], .nil,
      Or.inr (Or.inl ⟨rfl, rfl, rfl⟩)⟩

namespace Glyphs.Tail

variable {wide : List Char → Bool} {cell : Cell A Hyperlink} {rest rest' : List (Cell A Hyperlink)}
  {w k : ℕ}

omit [Inhabited A] in
theorem length_le (h : Glyphs.Tail wide cell rest w k rest') : rest'.length ≤ rest.length := by
  rcases h.skip with ⟨-, rfl⟩ | ⟨-, rfl, rfl⟩ | ⟨-, right, -, rfl⟩ <;> simp

omit [Inhabited A] in
/-- The right half of a glyph looks like nothing of its own. -/
theorem looks_right (h : Glyphs.Tail wide cell rest w k rest') (hw : w = 2) :
    looks (cell :: rest) 1 = none := by
  rcases h.skip with ⟨hone, -⟩ | ⟨-, rfl, -⟩ | ⟨-, right, hright, rfl⟩
  · omega
  · simp [looks]
  · simp [looks, look, hright]

omit [Inhabited A] in
/-- What comes after a glyph looks as it does alone. -/
theorem looks_add (h : Glyphs.Tail wide cell rest w k rest') (i : ℕ) :
    looks (cell :: rest) (w + i) = looks rest' i := by
  rcases h.skip with ⟨rfl, rfl⟩ | ⟨rfl, rfl, rfl⟩ | ⟨rfl, right, -, rfl⟩
  · simp [looks, Nat.add_comm 1]
  · simp [looks, show 2 + i = i + 1 + 1 by omega]
  · simp [looks, show 2 + i = i + 1 + 1 by omega]

omit [Inhabited A] in
theorem firstMove (h : Glyphs.Tail wide cell rest w k rest') (u : Characters) (s : Along) (n : ℕ) :
    Terminal.firstMove u s rest (n + 1) = Terminal.firstMove u s rest' (n + w) := by
  rcases h.skip with ⟨rfl, rfl⟩ | ⟨rfl, rfl, rfl⟩ | ⟨rfl, right, hright, rfl⟩
  · rfl
  · rfl
  · rw [Terminal.firstMove, if_pos hright]

omit [Inhabited A] in
/-- The loop goes on after a glyph. -/
theorem rowLoop [DecidableEq A] (h : Glyphs.Tail wide cell rest w k rest') (u : Characters)
    (at_ : Option ℕ) (s : Along) (n : ℕ) (p : Painter A) :
    Painter.rowLoop u at_ rest (n + 1) s p = Painter.rowLoop u at_ rest' (n + w) s p := by
  rcases h.skip with ⟨rfl, rfl⟩ | ⟨rfl, rfl, rfl⟩ | ⟨rfl, right, hright, rfl⟩
  · rfl
  · rfl
  · rw [Painter.rowLoop.eq_def]
    simp only [hright, if_true]

end Glyphs.Tail

section Loop

variable [DecidableEq A] {host : Host} {u : Characters} {a : Option ℕ}

open Painter

omit [Inhabited A] [DecidableEq A] in
theorem glyphOf_glyphOf (contents : List Char) : glyphOf (glyphOf contents) = glyphOf contents := by
  cases contents <;> rfl

/-- What a glyph printed does, where nothing was printed past the cursor. -/
theorem glyph_paints {p : Painter A} (hknows : p.Knows host) {cell : Cell A Hyperlink} {l n : ℕ}
    (hat : (p.on host).ready.At l n) (huntouched : (p.on host).ready.Untouched) {k : ℕ}
    (hk : Term.widthOf host.wide (glyphOf cell.contents) = k) (hfit : n + k ≤ host.cols)
    (hcell : cell.isWideContinuation = false) {more : List (Cell A Hyperlink)}
    (hmore : k = 2 → looks (cell :: more) 1 = none) :
    Paints (p.on host).ready ((p.glyph cell).on host) l n k (cell :: more) := by
  have hat' : (styled (p.on host).ready cell).At l n := ⟨hat.row_lt, hat.line, hat.place⟩
  have huntouched' : (styled (p.on host).ready cell).Untouched := huntouched
  have hcols : (styled (p.on host).ready cell).cols = host.cols := (p.ready_size host).2
  have hfit' : n + Term.widthOf host.wide (glyphOf cell.contents) ≤
      (styled (p.on host).ready cell).cols := by rw [hcols, hk]; exact hfit
  have hcells := hat'.print_cells huntouched' hfit'
  rw [(on_glyph hknows cell).1]
  have hwidth : k = 1 ∨ k = 2 := by
    rw [← hk, Term.widthOf]
    split <;> simp
  refine ⟨hk ▸ hat'.print hfit', (hat'.print_frame hfit').2.2.1, huntouched'.print hat' hfit',
    fun c hn hc => ?_, fun l' c hlc => ?_⟩
  · rw [hcells]
    rcases (by omega : c = n ∨ (c = n + 1 ∧ k = 2)) with rfl | ⟨rfl, htwo⟩
    · simp [look, looks, Term.glyphCell, styled, glyphOf_glyphOf, hcell]
    · rw [Nat.add_sub_cancel_left, hmore htwo]
      simp [look, hk, htwo]
  · rw [hcells, if_neg (by omega), if_neg (by omega)]
    rfl

omit [Inhabited A] [DecidableEq A] in
/-- A move to where the cursor is does nothing. -/
theorem cup_in_place {t : Term A (List UInt8)} {l n r : ℕ} (hat : t.At l n) (hn : n < t.cols)
    (hr : t.scrolled + r = l) : t.cup r n = t := by
  obtain ⟨hcol, hpending⟩ := hat.of_lt hn
  have hrow : t.row = r := by
    have := hat.line
    simp only [Term.line] at this
    omega
  have hlt := hat.row_lt
  have hmin : min r (t.rows - 1) = t.row := by omega
  have hmin' : min n (t.cols - 1) = t.col := by omega
  rw [Term.cup, hmin, hmin', ← hpending]

/-- Before a glyph the painter has moved to its column, if it moves there. -/
def moveTo (u : Characters) (a : Option ℕ) (s : Along) (cell : Cell A Hyperlink) (n : ℕ)
    (p : Painter A) : Painter A :=
  match a with
  | some r => if s.jumps u cell.contents then p.write (.cup r n) else p
  | none => p

omit [Inhabited A] in
/-- One glyph of a row. -/
theorem rowLoop_cons {cell : Cell A Hyperlink} (hcell : cell.isWideContinuation = false)
    (rest : List (Cell A Hyperlink)) (n : ℕ) (s : Along) (p : Painter A) :
    rowLoop u a (cell :: rest) n s p =
      rowLoop u a rest (n + 1) (.next u n cell) ((moveTo u a s cell n p).glyph cell) := by
  rw [rowLoop.eq_def]
  simp only [hcell, Bool.false_eq_true, if_false]
  rfl

omit [Inhabited A] [DecidableEq A] in
theorem firstMove_cons {cell : Cell A Hyperlink} (hcell : cell.isWideContinuation = false)
    {rest : List (Cell A Hyperlink)} {n : ℕ} {s : Along}
    (h : firstMove u s (cell :: rest) n = none) :
    s.jumps u cell.contents = false ∧ firstMove u (.next u n cell) rest (n + 1) = none := by
  rw [firstMove, if_neg (by simp [hcell])] at h
  by_cases hjumps : s.jumps u cell.contents = true
  · simp [hjumps] at h
  · simpa [hjumps] using h

omit [DecidableEq A] in
/-- Where the painter does not move, or moves to where the cursor is, nothing is changed by it. -/
theorem on_moveTo {p : Painter A} {s : Along} {cell : Cell A Hyperlink} {l n : ℕ}
    (hknows : p.Knows host) (hat : (p.on host).At l n) (hn : n < host.cols)
    (hplace : ∀ r, a = some r → s.jumps u cell.contents = false ∨ (p.on host).scrolled + r = l) :
    (moveTo u a s cell n p).on host = p.on host ∧ (moveTo u a s cell n p).Knows host := by
  cases a with
  | none => exact ⟨rfl, hknows⟩
  | some r =>
    by_cases hjumps : s.jumps u cell.contents = true
    · have hr := (hplace r rfl).resolve_left (by simp [hjumps])
      have hon : (p.write (.cup r n)).on host = p.on host := by
        rw [on_write]
        exact cup_in_place hat (by rw [(p.on_size host).2]; exact hn) hr
      simp only [moveTo, hjumps, if_true]
      exact ⟨hon, by rw [hon]; exact hknows.pen, by rw [hon]; exact hknows.link⟩
    · simp only [moveTo, if_neg hjumps]
      exact ⟨trivial, hknows⟩

omit [Inhabited A] [DecidableEq A] in
theorem Glyphs.head {wide : List Char → Bool} {k : ℕ} {cell : Cell A Hyperlink}
    {rest : List (Cell A Hyperlink)} (h : Glyphs wide k (cell :: rest)) :
    cell.isWideContinuation = false ∧ 0 < k := by
  cases h with
  | narrow _ hcell => exact ⟨hcell, by omega⟩
  | wide _ hcell => exact ⟨hcell, by omega⟩
  | half _ hcell => exact ⟨hcell, by omega⟩

/-- The loop paints the cells where the cursor is, if it moves only to where that is. -/
def LoopPaints (host : Host) (u : Characters) (a : Option ℕ) (l k : ℕ)
    (cells : List (Cell A Hyperlink)) : Prop :=
  ∀ (p : Painter A) (s : Along) (n : ℕ), p.Knows host → (p.on host).At l n →
    (p.on host).Untouched → n + k ≤ host.cols →
    (∀ r, a = some r → firstMove u s cells n = none ∨ (p.on host).scrolled + r = l) →
    Paints (p.on host) ((rowLoop u a cells n s p).1.on host) l n k cells ∧
      (rowLoop u a cells n s p).1.Knows host ∧
      (rowLoop u a cells n s p).2 = if cells = [] then s.col else n + k

/-- The first glyph of the cells, printed where the terminal prints next, and then the rest. -/
theorem head_paints {k l : ℕ} {cell : Cell A Hyperlink} {rest : List (Cell A Hyperlink)}
    (hglyphs : Glyphs host.wide k (cell :: rest))
    (hloop : ∀ (k' : ℕ) (rest' : List (Cell A Hyperlink)), rest'.length ≤ rest.length →
      Glyphs host.wide k' rest' → LoopPaints host u a l k' rest')
    {p : Painter A} {n : ℕ} (hknows : p.Knows host) (hat : (p.on host).ready.At l n)
    (huntouched : (p.on host).ready.Untouched) (hfit : n + k ≤ host.cols)
    (hplace : ∀ r, a = some r → firstMove u (.next u n cell) rest (n + 1) = none ∨
      (p.on host).ready.scrolled + r = l) :
    let r := rowLoop u a rest (n + 1) (.next u n cell) (p.glyph cell)
    Paints (p.on host).ready (r.1.on host) l n k (cell :: rest) ∧ r.1.Knows host ∧
      r.2 = n + k := by
  obtain ⟨w, k', rest', rfl, htail⟩ := hglyphs.tail
  have hone := glyph_paints (l := l) (n := n) hknows hat huntouched htail.width (by omega)
    htail.left htail.looks_right
  obtain ⟨hpaints, hknows', hcol⟩ := hloop k' rest' htail.length_le htail.glyphs _ (.next u n cell)
    (n + w) (on_glyph hknows cell).2 hone.at_ hone.untouched (by omega) fun r hr => by
      rw [hone.scrolled, ← htail.firstMove]
      exact hplace r hr
  rw [htail.rowLoop]
  refine ⟨hone.trans hpaints htail.looks_add, hknows', ?_⟩
  rw [hcol]
  split
  · next hnil =>
    have hzero : k' = 0 := by
      have hglyphs' := htail.glyphs
      rw [hnil] at hglyphs'
      cases hglyphs'
      rfl
    simp only [Along.next, htail.col, hzero, Nat.add_zero]
  · omega

/-- A row's glyphs are painted from left to right. -/
theorem loop_paints (l : ℕ) : ∀ (m k : ℕ) (cells : List (Cell A Hyperlink)), cells.length ≤ m →
    Glyphs host.wide k cells → LoopPaints host u a l k cells := by
  intro m
  induction m with
  | zero =>
    intro k cells hlen hglyphs p s n hknows hat huntouched hfit hplace
    obtain rfl := List.length_eq_zero_iff.mp (Nat.le_zero.mp hlen)
    cases hglyphs
    exact ⟨⟨hat, rfl, huntouched, fun c hn hc => by omega, fun _ _ _ => rfl⟩, hknows, rfl⟩
  | succ m ih =>
    intro k cells hlen hglyphs p s n hknows hat huntouched hfit hplace
    cases cells with
    | nil =>
      cases hglyphs
      exact ⟨⟨hat, rfl, huntouched, fun c hn hc => by omega, fun _ _ _ => rfl⟩, hknows, rfl⟩
    | cons cell rest =>
      obtain ⟨hcell, hpos⟩ := hglyphs.head
      have hlt : n < host.cols := by omega
      have hready := hat.ready_eq (by rw [(p.on_size host).2]; exact hlt)
      obtain ⟨hon, hmoved⟩ := on_moveTo (u := u) (s := s) hknows hat hlt fun r hr =>
        (hplace r hr).imp_left fun h => (firstMove_cons hcell h).1
      have hpaints := head_paints (u := u) (a := a) hglyphs
        (fun k' rest' hrest => ih k' rest' (by simp at hlen; omega))
        hmoved (by rw [hon, hready]; exact hat) (by rw [hon, hready]; exact huntouched) hfit
        fun r hr => (hplace r hr).imp (fun h => (firstMove_cons hcell h).2) fun h => by
          rw [hon, hready]; exact h
      rw [hon, hready] at hpaints
      rw [rowLoop_cons hcell, if_neg (by simp)]
      exact hpaints

/-! ### Wherever the painter moves to -/

/-- From column `n` of the line `l` the cursor came to column `n'` of `l'`: that line, or the one
the painter moves to. If that is none before `l`, what was printed stays as it was. -/
structure Goes (t t' : Term A (List UInt8)) (target : Option ℕ) (l n l' n' : ℕ) : Prop where
  at_ : t'.At l' n'
  line : l' = l ∨ target = some l'
  scrolled : t'.scrolled = t.scrolled
  kept : t.Untouched → (∀ x, target = some x → l ≤ x) →
    t'.Untouched ∧ l ≤ l' ∧ ∀ x c, x < l ∨ (x = l ∧ c < n) → t'.cells x c = t.cells x c

omit [DecidableEq A] in
/-- One way of the cursor after another. -/
theorem Goes.trans {t t₁ t₂ : Term A (List UInt8)} {target : Option ℕ} {l l₁ l₂ n n₁ n₂ : ℕ}
    (h : Goes t t₁ target l n l₁ n₁) (h' : Goes t₁ t₂ target l₁ n₁ l₂ n₂) (hn : n ≤ n₁) :
    Goes t t₂ target l n l₂ n₂ where
  at_ := h'.at_
  line := by
    rcases h'.line with rfl | htarget
    · exact h.line
    · exact Or.inr htarget
  scrolled := h'.scrolled.trans h.scrolled
  kept huntouched hforward := by
    obtain ⟨huntouched₁, hle, hcells⟩ := h.kept huntouched hforward
    have hforward₁ : ∀ x, target = some x → l₁ ≤ x := by
      intro x hx
      rcases h.line with rfl | htarget
      · exact hforward x hx
      · exact (Option.some.inj (htarget.symm.trans hx)).le
    obtain ⟨huntouched₂, hle', hcells'⟩ := h'.kept huntouched₁ hforward₁
    refine ⟨huntouched₂, by omega, fun x c hxc => ?_⟩
    rw [hcells' x c (by omega), hcells x c hxc]

omit [DecidableEq A] in
/-- A move goes to the cell. -/
theorem moveTo_goes {p : Painter A} {s : Along} {cell : Cell A Hyperlink} {l n : ℕ}
    (hknows : p.Knows host) (hat : (p.on host).At l n) (hn : n < host.cols)
    (hrows : ∀ r, a = some r → r < host.rows) :
    ∃ l', (Goes (p.on host) ((moveTo u a s cell n p).on host)
          (a.map ((p.on host).scrolled + ·)) l n l' n ∧
        ∀ r, a = some r → s.jumps u cell.contents = true → l' = (p.on host).scrolled + r) ∧
      (moveTo u a s cell n p).Knows host := by
  have hstay : Goes (p.on host) (p.on host) (a.map ((p.on host).scrolled + ·)) l n l n :=
    ⟨hat, Or.inl rfl, rfl, fun huntouched _ => ⟨huntouched, le_rfl, fun _ _ _ => rfl⟩⟩
  cases a with
  | none => exact ⟨l, ⟨hstay, fun _ hr => by cases hr⟩, hknows⟩
  | some r =>
    by_cases hjumps : s.jumps u cell.contents = true
    · have hon : (p.write (.cup r n)).on host = (p.on host).cup r n := on_write p host (.cup r n)
      have hmoved : ((p.on host).cup r n).At ((p.on host).scrolled + r) n :=
        Term.cup_at (by rw [(p.on_size host).1]; exact hrows r rfl)
          (by rw [(p.on_size host).2]; exact hn)
      simp only [moveTo, hjumps, if_true, hon]
      refine ⟨(p.on host).scrolled + r, ⟨⟨hmoved, Or.inr rfl, rfl, ?_⟩, ?_⟩,
        by rw [hon]; exact hknows.pen, by rw [hon]; exact hknows.link⟩
      · intro huntouched hforward
        have hle : l ≤ (p.on host).scrolled + r := hforward _ rfl
        refine ⟨fun x c hxc => ?_, hle, fun _ _ _ => rfl⟩
        rw [hmoved.line, hmoved.place_eq] at hxc
        exact huntouched x c (by rw [hat.line, hat.place_eq]; omega)
      · intro r' hr' _
        rw [Option.some.inj hr']
    · simp only [moveTo, if_neg hjumps]
      exact ⟨l, ⟨hstay, fun _ _ hmoves => absurd hmoves hjumps⟩, hknows⟩

/-- A glyph goes on by its width. -/
theorem glyph_goes {p : Painter A} (hknows : p.Knows host) {cell : Cell A Hyperlink} {l n w : ℕ}
    (hat : (p.on host).ready.At l n) (hw : Term.widthOf host.wide (glyphOf cell.contents) = w)
    (hfit : n + w ≤ host.cols) (target : Option ℕ) :
    Goes (p.on host).ready ((p.glyph cell).on host) target l n l (n + w) := by
  have hat' : (styled (p.on host).ready cell).At l n := ⟨hat.row_lt, hat.line, hat.place⟩
  have hfit' : n + Term.widthOf host.wide (glyphOf cell.contents) ≤
      (styled (p.on host).ready cell).cols := by
    rw [hw]
    exact hfit.trans (p.ready_size host).2.ge
  rw [(on_glyph hknows cell).1]
  refine ⟨hw ▸ hat'.print hfit', Or.inl rfl, (hat'.print_frame hfit').2.2.1,
    fun huntouched _ => ?_⟩
  have huntouched' : (styled (p.on host).ready cell).Untouched := huntouched
  refine ⟨huntouched'.print hat' hfit', le_rfl, fun x c hxc => ?_⟩
  rw [hat'.print_cells huntouched' hfit', if_neg (by omega), if_neg (by omega)]
  rfl

/-- The loop's way, wherever the painter moves to: once it moved, the cursor is on that line. -/
def LoopGoes (host : Host) (u : Characters) (a : Option ℕ) (scrolled k : ℕ)
    (cells : List (Cell A Hyperlink)) : Prop :=
  ∀ (p : Painter A) (s : Along) (l n : ℕ), p.Knows host → (p.on host).At l n →
    (p.on host).scrolled = scrolled → n + k ≤ host.cols →
    (∃ l', Goes (p.on host) ((rowLoop u a cells n s p).1.on host) (a.map (scrolled + ·)) l n l'
        (n + k) ∧
      ∀ r, a = some r → firstMove u s cells n ≠ none → l' = scrolled + r) ∧
    (rowLoop u a cells n s p).1.Knows host ∧
    (rowLoop u a cells n s p).2 = if cells = [] then s.col else n + k

/-- The first glyph of the cells, and then the rest. -/
theorem head_goes {k l : ℕ} {cell : Cell A Hyperlink} {rest : List (Cell A Hyperlink)}
    (hglyphs : Glyphs host.wide k (cell :: rest)) {p : Painter A}
    (hloop : ∀ (k' : ℕ) (rest' : List (Cell A Hyperlink)), rest'.length ≤ rest.length →
      Glyphs host.wide k' rest' → LoopGoes host u a (p.on host).ready.scrolled k' rest')
    {n : ℕ} (hknows : p.Knows host) (hat : (p.on host).ready.At l n) (hfit : n + k ≤ host.cols) :
    let r := rowLoop u a rest (n + 1) (.next u n cell) (p.glyph cell)
    (∃ l', Goes (p.on host).ready (r.1.on host) (a.map ((p.on host).ready.scrolled + ·)) l n l'
        (n + k) ∧
      ∀ r, a = some r → firstMove u (.next u n cell) rest (n + 1) ≠ none →
        l' = (p.on host).ready.scrolled + r) ∧ r.1.Knows host ∧ r.2 = n + k := by
  obtain ⟨w, k', rest', rfl, htail⟩ := hglyphs.tail
  have hone := glyph_goes (l := l) (n := n) hknows hat htail.width (by omega)
    (a.map ((p.on host).ready.scrolled + ·))
  obtain ⟨⟨l', hgoes, hmoved⟩, hknows', hcol⟩ := hloop k' rest' htail.length_le htail.glyphs _
    (.next u n cell) l (n + w) (on_glyph hknows cell).2 hone.at_ hone.scrolled (by omega)
  rw [htail.rowLoop, htail.firstMove]
  refine ⟨⟨l', Nat.add_assoc n w k' ▸ hone.trans hgoes (by omega), hmoved⟩, hknows', ?_⟩
  rw [hcol]
  split
  · next hnil =>
    have hzero : k' = 0 := by
      have hglyphs' := htail.glyphs
      rw [hnil] at hglyphs'
      cases hglyphs'
      rfl
    simp only [Along.next, htail.col, hzero, Nat.add_zero]
  · omega

/-- So a row goes to its end. -/
theorem loop_goes (hrows : ∀ r, a = some r → r < host.rows) (scrolled : ℕ) :
    ∀ (m k : ℕ) (cells : List (Cell A Hyperlink)), cells.length ≤ m →
      Glyphs host.wide k cells → LoopGoes host u a scrolled k cells := by
  intro m
  induction m with
  | zero =>
    intro k cells hlen hglyphs p s l n hknows hat hscrolled hfit
    obtain rfl := List.length_eq_zero_iff.mp (Nat.le_zero.mp hlen)
    cases hglyphs
    exact ⟨⟨l, ⟨hat, Or.inl rfl, rfl, fun h _ => ⟨h, le_rfl, fun _ _ _ => rfl⟩⟩,
      fun _ _ h => absurd rfl h⟩, hknows, rfl⟩
  | succ m ih =>
    intro k cells hlen hglyphs p s l n hknows hat hscrolled hfit
    cases cells with
    | nil =>
      cases hglyphs
      exact ⟨⟨l, ⟨hat, Or.inl rfl, rfl, fun h _ => ⟨h, le_rfl, fun _ _ _ => rfl⟩⟩,
        fun _ _ h => absurd rfl h⟩, hknows, rfl⟩
    | cons cell rest =>
      obtain ⟨hcell, hpos⟩ := hglyphs.head
      have hlt : n < host.cols := by omega
      obtain ⟨l₁, ⟨hmove, hmoved₁⟩, hknows₁⟩ :=
        moveTo_goes (u := u) (s := s) hknows hat hlt hrows
      have hready := hmove.at_.ready_eq (by rw [(on_size _ host).2]; exact hlt)
      have hscrolled₁ : ((moveTo u a s cell n p).on host).ready.scrolled = scrolled := by
        rw [hready, hmove.scrolled, hscrolled]
      obtain ⟨⟨l', hgoes, hmoved⟩, hknows', hcol⟩ := head_goes (u := u) (a := a) hglyphs
        (fun k' rest' hrest => by
          rw [hscrolled₁]
          exact ih k' rest' (by simp at hlen; omega))
        hknows₁ (by rw [hready]; exact hmove.at_) hfit
      rw [hscrolled₁, hready] at hgoes
      rw [hscrolled₁] at hmoved
      rw [hscrolled] at hmove hmoved₁
      rw [rowLoop_cons hcell, if_neg (by simp)]
      refine ⟨⟨l', hmove.trans hgoes le_rfl, fun r hr hfirst => ?_⟩, hknows', hcol⟩
      by_cases hjumps : s.jumps u cell.contents = true
      · rcases hgoes.line with rfl | htarget
        · exact hmoved₁ r hr hjumps
        · rw [hr] at htarget
          exact (Option.some.inj htarget).symm
      · rw [firstMove, if_neg (by simp [hcell]), if_neg hjumps] at hfirst
        exact hmoved r hr hfirst

/-! ### A move to a line further down -/

/-- The columns before `m` were painted on the line `l`, and those from there on, on `l'`. -/
structure Splits (t t' : Term A (List UInt8)) (l l' n m k : ℕ) (cells : List (Cell A Hyperlink)) :
    Prop where
  at_ : t'.At l' (n + k)
  scrolled : t'.scrolled = t.scrolled
  untouched : t'.Untouched
  start_le : n ≤ m
  lt_end : m < n + k
  before : ∀ c, n ≤ c → c < m → look (t'.cells l c) = looks cells (c - n)
  after : ∀ c, m ≤ c → c < n + k → look (t'.cells l' c) = looks cells (c - n)
  old : ∀ x c, ¬(x = l ∧ n ≤ c ∧ c < m) → ¬(x = l' ∧ m ≤ c) → t'.cells x c = t.cells x c

omit [DecidableEq A] in
/-- A stretch that is painted, and one on another line. -/
theorem Paints.parted {t t₁ t₂ : Term A (List UInt8)} {l l' n m w k : ℕ}
    {cells cells' : List (Cell A Hyperlink)} (h : Paints t t₁ l n w cells)
    (h' : Splits t₁ t₂ l l' (n + w) m k cells')
    (htail : ∀ i, looks cells (w + i) = looks cells' i) (hl : l < l') :
    Splits t t₂ l l' n m (w + k) cells where
  at_ := Nat.add_assoc n w k ▸ h'.at_
  scrolled := h'.scrolled.trans h.scrolled
  untouched := h'.untouched
  start_le := by have := h'.start_le; omega
  lt_end := by have := h'.lt_end; omega
  before c hn hc := by
    have hle := h'.start_le
    rcases Nat.lt_or_ge c (n + w) with hlt | hge
    · rw [h'.old l c (by omega) (by omega), h.new c hn hlt]
    · rw [h'.before c hge hc, ← htail]
      congr 1
      omega
  after c hc hlt := by
    have hle := h'.start_le
    rw [h'.after c hc (by omega), ← htail]
    congr 1
    omega
  old x c hx hx' := by
    have hle := h'.start_le
    have hlt := h'.lt_end
    rw [h'.old x c (by omega) hx', h.old x c (by omega)]

/-- The loop paints the cells where the cursor is, up to the first that the painter moves to, on a
line further down. -/
def LoopSplits (host : Host) (u : Characters) (r l k : ℕ) (cells : List (Cell A Hyperlink)) :
    Prop :=
  ∀ (p : Painter A) (s : Along) (n m : ℕ), p.Knows host → (p.on host).At l n →
    (p.on host).Untouched → n + k ≤ host.cols → l < (p.on host).scrolled + r → r < host.rows →
    firstMove u s cells n = some m →
    Splits (p.on host) ((rowLoop u (some r) cells n s p).1.on host) l ((p.on host).scrolled + r)
        n m k cells ∧
      (rowLoop u (some r) cells n s p).1.Knows host ∧
      (rowLoop u (some r) cells n s p).2 = n + k

/-- The first glyph of the cells, printed where the terminal prints next, and then the rest. -/
theorem head_splits {k l r : ℕ} {cell : Cell A Hyperlink} {rest : List (Cell A Hyperlink)}
    (hglyphs : Glyphs host.wide k (cell :: rest))
    (hloop : ∀ (k' : ℕ) (rest' : List (Cell A Hyperlink)), rest'.length ≤ rest.length →
      Glyphs host.wide k' rest' → LoopSplits host u r l k' rest')
    {p : Painter A} {n m : ℕ} (hknows : p.Knows host) (hat : (p.on host).ready.At l n)
    (huntouched : (p.on host).ready.Untouched) (hfit : n + k ≤ host.cols)
    (hl : l < (p.on host).ready.scrolled + r) (hr : r < host.rows)
    (hfirst : firstMove u (.next u n cell) rest (n + 1) = some m) :
    let end_ := rowLoop u (some r) rest (n + 1) (.next u n cell) (p.glyph cell)
    Splits (p.on host).ready (end_.1.on host) l ((p.on host).ready.scrolled + r) n m k
        (cell :: rest) ∧ end_.1.Knows host ∧ end_.2 = n + k := by
  obtain ⟨w, k', rest', rfl, htail⟩ := hglyphs.tail
  have hone := glyph_paints (l := l) (n := n) hknows hat huntouched htail.width (by omega)
    htail.left htail.looks_right
  rw [htail.firstMove] at hfirst
  obtain ⟨hsplits, hknows', hcol⟩ := hloop k' rest' htail.length_le htail.glyphs _ (.next u n cell)
    (n + w) m (on_glyph hknows cell).2 hone.at_ hone.untouched (by omega)
    (by rw [hone.scrolled]; exact hl) hr hfirst
  rw [hone.scrolled] at hsplits
  rw [htail.rowLoop]
  exact ⟨hone.parted hsplits htail.looks_add hl, hknows', by rw [hcol]; omega⟩

omit [DecidableEq A] in
/-- A move to a line further down, where nothing was printed. -/
theorem on_moveDown {p : Painter A} (hknows : p.Knows host) {l n r : ℕ} (hat : (p.on host).At l n)
    (huntouched : (p.on host).Untouched) (hn : n < host.cols) (hr : r < host.rows)
    (hl : l < (p.on host).scrolled + r) :
    ((p.write (.cup r n)).on host).At ((p.on host).scrolled + r) n ∧
      ((p.write (.cup r n)).on host).Untouched ∧ (p.write (.cup r n)).Knows host := by
  have hon : (p.write (.cup r n)).on host = (p.on host).cup r n := on_write p host (.cup r n)
  have hmoved : ((p.on host).cup r n).At ((p.on host).scrolled + r) n :=
    Term.cup_at (by rw [(p.on_size host).1]; exact hr) (by rw [(p.on_size host).2]; exact hn)
  refine ⟨hon ▸ hmoved, ?_, by rw [hon]; exact hknows.pen, by rw [hon]; exact hknows.link⟩
  rw [hon]
  intro x c hxc
  rw [hmoved.line, hmoved.place_eq] at hxc
  exact huntouched x c (by rw [hat.line]; omega)

/-- A row may be split over two lines. -/
theorem loop_splits (l r : ℕ) : ∀ (len k : ℕ) (cells : List (Cell A Hyperlink)),
    cells.length ≤ len → Glyphs host.wide k cells → LoopSplits host u r l k cells := by
  intro len
  induction len with
  | zero =>
    intro k cells hlen hglyphs p s n m hknows hat huntouched hfit hl hr hfirst
    obtain rfl := List.length_eq_zero_iff.mp (Nat.le_zero.mp hlen)
    cases hfirst
  | succ len ih =>
    intro k cells hlen hglyphs p s n m hknows hat huntouched hfit hl hr hfirst
    cases cells with
    | nil => cases hfirst
    | cons cell rest =>
      obtain ⟨hcell, hpos⟩ := hglyphs.head
      have hlt : n < host.cols := by omega
      rw [rowLoop_cons hcell]
      rw [firstMove, if_neg (by simp [hcell])] at hfirst
      by_cases hjumps : s.jumps u cell.contents = true
      · -- From here on the cells are painted on the line moved to.
        rw [if_pos hjumps] at hfirst
        obtain rfl := Option.some.inj hfirst
        have hmove : moveTo u (some r) s cell n p = p.write (.cup r n) := by
          simp only [moveTo, hjumps, if_true]
        obtain ⟨hat', huntouched', hknows'⟩ := on_moveDown hknows hat huntouched hlt hr hl
        have hready := hat'.ready_eq (by rw [(on_size _ host).2]; exact hlt)
        have hon : (p.write (.cup r n)).on host = (p.on host).cup r n := on_write p host (.cup r n)
        have hpaints := head_paints (u := u) (a := some r) hglyphs
          (fun k' rest' _ => loop_paints _ rest'.length k' rest' le_rfl) hknows'
          (by rw [hready]; exact hat') (by rw [hready]; exact huntouched') hfit
          fun r' hr' => Or.inr (by rw [hready, hon, Option.some.inj hr']; rfl)
        rw [hready] at hpaints
        rw [hmove]
        refine ⟨⟨hpaints.1.at_, ?_, hpaints.1.untouched, le_rfl, by omega, fun c hn hc => by omega,
          hpaints.1.new, fun x c _ hx => ?_⟩, hpaints.2⟩
        · rw [hpaints.1.scrolled, hon]
          rfl
        · rw [hpaints.1.old x c (by omega), hon]
          rfl
      · rw [if_neg hjumps] at hfirst
        have hready := hat.ready_eq (by rw [(p.on_size host).2]; exact hlt)
        have hmove : moveTo u (some r) s cell n p = p := by
          simp only [moveTo, if_neg hjumps]
        have hsplits := head_splits (u := u) hglyphs
          (fun k' rest' hrest => ih k' rest' (by simp at hlen; omega)) hknows
          (by rw [hready]; exact hat) (by rw [hready]; exact huntouched) hfit
          (by rw [hready]; exact hl) hr hfirst
        rw [hready] at hsplits
        rw [hmove]
        exact hsplits

/-! ### A row -/

omit [DecidableEq A] in
/-- With no link open, all but that is the same. -/
theorem Paints.unlink {t t' : Term A (List UInt8)} {l n k : ℕ} {cells : List (Cell A Hyperlink)}
    (h : Paints t t' l n k cells) : Paints t { t' with link := none } l n k cells :=
  ⟨⟨h.at_.row_lt, h.at_.line, h.at_.place⟩, h.scrolled, h.untouched, h.new, h.old⟩

omit [DecidableEq A] in
theorem Splits.unlink {t t' : Term A (List UInt8)} {l l' n m k : ℕ}
    {cells : List (Cell A Hyperlink)} (h : Splits t t' l l' n m k cells) :
    Splits t { t' with link := none } l l' n m k cells :=
  ⟨⟨h.at_.row_lt, h.at_.line, h.at_.place⟩, h.scrolled, h.untouched, h.start_le, h.lt_end,
    h.before, h.after, h.old⟩

omit [DecidableEq A] in
theorem Goes.unlink {t t' : Term A (List UInt8)} {target : Option ℕ} {l n l' n' : ℕ}
    (h : Goes t t' target l n l' n') : Goes t { t' with link := none } target l n l' n' :=
  ⟨⟨h.at_.row_lt, h.at_.line, h.at_.place⟩, h.line, h.scrolled, h.kept⟩

omit [Inhabited A] [DecidableEq A] in
theorem start_jumps (u : Characters) (contents : List Char) :
    Along.start.jumps u contents = false := by
  cases contents <;> rfl

section Row

variable {p : Painter A} {row : Row A} {cell : Cell A Hyperlink} {rest : List (Cell A Hyperlink)}
  {k l : ℕ}

/-- A row's first glyph is printed where the terminal prints next: the painter does not move to
it. -/
theorem row_eq (hpainted : row.painted host.cols = cell :: rest)
    (hcell : cell.isWideContinuation = false) :
    p.row u row host.cols a =
      ((rowLoop u a rest 1 (.next u 0 cell) (p.glyph cell)).1.useLink none,
        decide (host.cols ≤ (rowLoop u a rest 1 (.next u 0 cell) (p.glyph cell)).2)) := by
  have hmove : moveTo u a .start cell 0 p = p := by
    cases a <;> simp [moveTo, start_jumps]
  rw [Painter.row, hpainted, rowLoop_cons hcell, hmove]

/-- A row's first move is after its first glyph. -/
theorem row_firstMove (hpainted : row.painted host.cols = cell :: rest)
    (hcell : cell.isWideContinuation = false) :
    row.firstMove u host.cols = firstMove u (.next u 0 cell) rest 1 := by
  rw [Row.firstMove, hpainted, firstMove, if_neg (by simp [hcell]), if_neg (by simp [start_jumps])]

/-- Nothing is written of a row that shows nothing, its links closed apart. -/
theorem row_nothing (hknows : p.Knows host) (hpainted : row.painted host.cols = []) :
    (p.row u row host.cols a).1.on host = { p.on host with link := none } ∧
      (p.row u row host.cols a).1.Knows host ∧ (p.row u row host.cols a).2 = false := by
  have hrow : p.row u row host.cols a = (p.useLink none, decide (host.cols ≤ 0)) := by
    rw [Painter.row, hpainted]
    rfl
  have hcols := host.hcols
  rw [hrow]
  exact ⟨(on_useLink hknows none).1, (on_useLink hknows none).2, by simp; omega⟩

/-- A row that the painter does not move in, or only to where it is, comes out on its line. -/
theorem row_paints (hglyphs : Glyphs host.wide k (row.painted host.cols)) (hk : k ≤ host.cols)
    (hsome : row.painted host.cols ≠ []) (hknows : p.Knows host)
    (hat : (p.on host).ready.At l 0) (huntouched : (p.on host).ready.Untouched)
    (hplace : ∀ r, a = some r → row.firstMove u host.cols = none ∨
      (p.on host).ready.scrolled + r = l) :
    Paints (p.on host).ready ((p.row u row host.cols a).1.on host) l 0 k
        (row.painted host.cols) ∧
      (p.row u row host.cols a).1.Knows host ∧
      (p.row u row host.cols a).2 = decide (host.cols ≤ k) := by
  obtain ⟨cell, rest, hpainted⟩ := List.exists_cons_of_ne_nil hsome
  rw [hpainted] at hglyphs ⊢
  rw [row_firstMove hpainted hglyphs.head.1] at hplace
  obtain ⟨hpaints, hknows', hcol⟩ := head_paints (u := u) (a := a) hglyphs
    (fun k' rest' _ => loop_paints l rest'.length k' rest' le_rfl) hknows hat huntouched
    (by omega) hplace
  rw [row_eq hpainted hglyphs.head.1]
  refine ⟨?_, (on_useLink hknows' none).2, by simp only [hcol, Nat.zero_add]⟩
  rw [(on_useLink hknows' none).1]
  exact hpaints.unlink

/-- From a line further up a row comes out on the one moved to, but for what is before the move. -/
theorem row_splits {r m : ℕ} (hglyphs : Glyphs host.wide k (row.painted host.cols))
    (hk : k ≤ host.cols) (hknows : p.Knows host) (hat : (p.on host).ready.At l 0)
    (huntouched : (p.on host).ready.Untouched) (hl : l < (p.on host).ready.scrolled + r)
    (hr : r < host.rows) (hfirst : row.firstMove u host.cols = some m) :
    Splits (p.on host).ready ((p.row u row host.cols (some r)).1.on host) l
        ((p.on host).ready.scrolled + r) 0 m k (row.painted host.cols) ∧
      (p.row u row host.cols (some r)).1.Knows host ∧
      (p.row u row host.cols (some r)).2 = decide (host.cols ≤ k) := by
  have hsome : row.painted host.cols ≠ [] := by
    intro hnil
    rw [Row.firstMove, hnil] at hfirst
    cases hfirst
  obtain ⟨cell, rest, hpainted⟩ := List.exists_cons_of_ne_nil hsome
  rw [hpainted] at hglyphs ⊢
  rw [row_firstMove hpainted hglyphs.head.1] at hfirst
  obtain ⟨hsplits, hknows', hcol⟩ := head_splits (u := u) hglyphs
    (fun k' rest' _ => loop_splits l r rest'.length k' rest' le_rfl) hknows hat huntouched
    (by omega) hl hr hfirst
  rw [row_eq hpainted hglyphs.head.1]
  refine ⟨?_, (on_useLink hknows' none).2, by simp only [hcol, Nat.zero_add]⟩
  rw [(on_useLink hknows' none).1]
  exact hsplits.unlink

/-- Wherever the painter moves to in a row. -/
theorem row_goes (hglyphs : Glyphs host.wide k (row.painted host.cols)) (hk : k ≤ host.cols)
    (hsome : row.painted host.cols ≠ []) (hknows : p.Knows host)
    (hat : (p.on host).ready.At l 0) (hrows : ∀ r, a = some r → r < host.rows) :
    (∃ l', Goes (p.on host).ready ((p.row u row host.cols a).1.on host)
        (a.map ((p.on host).ready.scrolled + ·)) l 0 l' k ∧
      ∀ r, a = some r → row.firstMove u host.cols ≠ none →
        l' = (p.on host).ready.scrolled + r) ∧
      (p.row u row host.cols a).1.Knows host ∧
      (p.row u row host.cols a).2 = decide (host.cols ≤ k) := by
  obtain ⟨cell, rest, hpainted⟩ := List.exists_cons_of_ne_nil hsome
  rw [hpainted] at hglyphs
  rw [row_firstMove hpainted hglyphs.head.1]
  obtain ⟨⟨l', hgoes, hmoved⟩, hknows', hcol⟩ := head_goes (u := u) (a := a) hglyphs
    (fun k' rest' _ => loop_goes hrows _ rest'.length k' rest' le_rfl) hknows hat (by omega)
  rw [row_eq hpainted hglyphs.head.1]
  refine ⟨⟨l', ?_, hmoved⟩, (on_useLink hknows' none).2, by simp only [hcol, Nat.zero_add]⟩
  rw [(on_useLink hknows' none).1]
  exact Nat.zero_add k ▸ hgoes.unlink

end Row

end Loop

end Koh.Terminal
