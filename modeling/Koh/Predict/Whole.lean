import Koh.Predict.Halves

/-!
# Wide glyphs, whole

Whatever is typed, and whatever the screen shows and when, no overlay has one half of a wide glyph
without the other: unless a key joins a glyph that the screen shows where a predicted one begins.

## Main definitions

- `Call.WellFormed`: a call made with a screen that has both halves of each glyph
- `Typing.overlaps`: a key that halves a predicted glyph

## Main results

- `Typing.step_paired`: a call keeps both halves, unless it halves one
- `Typing.glyphs_whole`, and a run where one is halved: `Typing.glyphs_halved`
-/

namespace Koh.Predict

open Koh.Lib Koh.Server

variable {A : Type} {g : Graphemes}

/-- The modes keep the halves paired. -/
theorem Paired.setTty {e : Engine A} (h : Paired g e.cells) (tty : Option TtyModes) :
    Paired g (e.setTty tty).cells := by
  unfold Engine.setTty
  dsimp only
  split
  · exact h
  · split
    · dsimp only
      split
      · rw [Engine.reset_cells]
        exact .nil
      · exact h
    · split
      · exact h
      · exact h

def Call.WellFormed (g : Graphemes) : Call A → Prop
  | .key _ screen | .other screen | .cull screen => screen.WellFormed g
  | _ => True

namespace Typing

variable {s s' : Typing A} {m : Call A}

/-- The call is a key that halves a predicted glyph. -/
def overlaps (s : Typing A) (g : Graphemes) : Call A → Bool
  | .key press screen => s.engine.overlaps g press screen
  | _ => false

/-- A call keeps both halves of each glyph, unless it halves one. -/
theorem step_paired [Inhabited A] (hempty : g.width "" = 0) (hstep : step g s m = some s')
    (hscreen : m.WellFormed g) (hoverlaps : s.overlaps g m = false)
    (h : Paired g s.engine.cells) : Paired g s'.engine.cells := by
  cases m with
  | sent n =>
    simp only [step] at hstep
    split at hstep
    · cases hstep
    · cases hstep
      exact h
  | acked n => cases hstep; exact h
  | key press screen =>
    cases hstep
    exact Engine.newUserKey_paired h hempty hscreen hoverlaps s.keys
  | other screen => cases hstep; exact h.cull screen
  | hold => cases hstep; exact h
  | cull screen => cases hstep; exact h.cull screen
  | tty tty => cases hstep; exact h.setTty tty
  | reset =>
    cases hstep
    rw [Engine.reset_cells]
    exact .nil
  | reattach => cases hstep; exact .nil

/-- Whatever is typed, whatever the screen shows and whenever it does, the overlay has both halves
of each wide glyph, in a run where no key halves one. -/
theorem glyphs_whole [Inhabited A] {carried : Bool} (hempty : g.width "" = 0)
    (hrun : Reaches (step g) (fun s m => m.WellFormed g ∧ s.overlaps g m = false)
      (init carried) s) : s.engine.overlay.Whole g := by
  refine Engine.overlay_whole (hrun.invariant (fun s => Paired g s.engine.cells) .nil ?_)
  exact fun s m s' h hcall hstep => step_paired hempty hstep hcall.1 hcall.2 h

end Typing

/-! ### Runs -/

def acute : Char := Char.ofNat 0x301

def han : Char := Char.ofNat 0x6F22

/-- Characters of one column, wide ones from Hangul on, and an accent that joins what it follows. -/
def mixed : Graphemes where
  width text :=
    (text.toList.map fun c => if c = acute then 0 else if 0x1100 ≤ c.toNat then 2 else 1).sum
  continuesCluster text c := text ≠ "" && c = acute

/-- A screen whose first row begins with these cells, and is blank from there on. -/
def begins (cells : List (Cell Unit)) (cursor : ℕ) : Screen Unit where
  size := ⟨24, 80⟩
  cell row col :=
    if row < 24 ∧ col < 80 then
      some (((if row = 0 then cells else [])[col]?).getD ⟨"", (), .narrow⟩)
    else none
  cursor := (0, cursor)
  isAlternate := false

/-- What a cell of such a screen is. -/
theorem begins_cell {cells : List (Cell Unit)} {cursor row col : ℕ} {cell : Cell Unit}
    (h : (begins cells cursor).cell row col = some cell) :
    row < 24 ∧ col < 80 ∧ (row = 0 ∧ cells[col]? = some cell ∨ cell = ⟨"", (), .narrow⟩) := by
  simp only [begins] at h
  split at h
  · next hinside =>
    refine ⟨hinside.1, hinside.2, ?_⟩
    split at h
    · next hrow =>
      cases hcell : cells[col]? with
      | none => exact .inr (by simpa [hcell] using h.symm)
      | some cell' => exact .inl ⟨hrow, by simpa [hcell] using h⟩
    · exact .inr (by simpa using h.symm)
  · cases h

theorem begins_at {cells : List (Cell Unit)} {cursor col : ℕ} {cell : Cell Unit}
    (hlen : cells.length ≤ 80) (h : cells[col]? = some cell) :
    (begins cells cursor).cell 0 col = some cell := by
  have hcol := (List.getElem?_eq_some_iff.mp h).1
  simp [begins, h, show col < 80 by omega]

/-- A first row with both halves of each glyph makes a screen. -/
theorem begins_wellFormed {cells : List (Cell Unit)} (cursor : ℕ) (hlen : cells.length ≤ 80)
    (hagrees : ∀ cell ∈ cells, Agrees mixed cell)
    (hright : ∀ col cell, cells[col]? = some cell → cell.half = .wide →
      ∃ covered, cells[col + 1]? = some covered ∧ covered.half = .covered)
    (hleft : ∀ col cell, cells[col]? = some cell → cell.half = .covered →
      ∃ left glyph, col = left + 1 ∧ cells[left]? = some glyph ∧ glyph.half = .wide) :
    (begins cells cursor).WellFormed mixed where
  cols := (by decide : 80 ≤ u16Max)
  inside row col h := by
    obtain ⟨cell, hcell⟩ := Option.isSome_iff_exists.mp h
    exact (begins_cell hcell).2.1
  agrees row col cell h := by
    rcases (begins_cell h).2.2 with ⟨-, hcell⟩ | rfl
    · exact hagrees cell (List.mem_of_getElem? hcell)
    · simp [Agrees, mixed]
  right row col cell h hwide := by
    rcases (begins_cell h).2.2 with ⟨rfl, hcell⟩ | rfl
    · obtain ⟨covered, hat, hcovered⟩ := hright col cell hcell hwide
      exact ⟨covered, begins_at hlen hat, hcovered⟩
    · cases hwide
  left row col cell h hcovered := by
    rcases (begins_cell h).2.2 with ⟨rfl, hcell⟩ | rfl
    · obtain ⟨left, glyph, hcol, hat, hwide⟩ := hleft col cell hcell hcovered
      exact ⟨left, glyph, hcol, begins_at hlen hat, hwide⟩
    · cases hcovered

/-- A first row of one narrow glyph, or of none. -/
theorem begins_narrow {cells : List (Cell Unit)} (cursor : ℕ) (hlen : cells.length ≤ 80)
    (h : ∀ cell ∈ cells, cell.half = .narrow ∧ mixed.width cell.text ≠ 2) :
    (begins cells cursor).WellFormed mixed := by
  refine begins_wellFormed cursor hlen (fun cell hcell => ?_) ?_ ?_
  · simp [Agrees, h cell hcell]
  · intro col cell hcell hwide
    rw [(h cell (List.mem_of_getElem? hcell)).1] at hwide
    cases hwide
  · intro col cell hcell hcovered
    rw [(h cell (List.mem_of_getElem? hcell)).1] at hcovered
    cases hcovered

def oneA : List (Cell Unit) := [⟨"a", (), .narrow⟩]

def oneHan : List (Cell Unit) := [⟨String.singleton han, (), .wide⟩, ⟨"", (), .covered⟩]

theorem oneHan_wellFormed (cursor : ℕ) : (begins oneHan cursor).WellFormed mixed := by
  refine begins_wellFormed cursor (by decide) ?_ (fun col cell hcell hwide => ?_)
    fun col cell hcell hcovered => ?_
  · unfold Agrees
    decide +kernel
  · rcases col with _ | _ | col
    · exact ⟨⟨"", (), .covered⟩, rfl, rfl⟩
    · cases hcell
      cases hwide
    · cases hcell
  · rcases col with _ | _ | col
    · cases hcell
      cases hcovered
    · exact ⟨0, ⟨String.singleton han, (), .wide⟩, rfl, rfl, rfl⟩
    · cases hcell

/-- A key typed where the screen shows this. -/
def typed (key : Key) (cells : List (Cell Unit)) (cursor : ℕ) : Call Unit :=
  .key ⟨key, false, false⟩ (begins cells cursor)

/-- `a` is echoed, a wide glyph is typed after it, and the cursor goes back before that. -/
def goesBack : List (Call Unit) :=
  [.tty (some ⟨false, false⟩), typed (.char 'a') [] 0, .acked 1, .cull (begins oneA 1), .sent 1,
    typed (.char han) oneA 1, typed (.arrow .left) oneA 1, typed (.arrow .left) oneA 1]

/-- The run is of screens of the widths. -/
theorem goesBack_wellFormed : ∀ m ∈ goesBack, m.WellFormed mixed := by
  have hblank : (begins [] 0).WellFormed mixed := begins_narrow 0 (by decide) (by simp)
  have hone : (begins oneA 1).WellFormed mixed :=
    begins_narrow 1 (by decide) (by decide +kernel)
  simp [goesBack, typed, Call.WellFormed, hblank, hone]

namespace Typing

/-- A wide character is typed over with narrow ones. -/
theorem glyphs_whole_back : ∃ s : Typing Unit, mixed.width "" = 0 ∧
    Reaches (step mixed) (fun s m => m.WellFormed mixed ∧ s.overlaps mixed m = false)
      (init false) s ∧ s.engine.overlay.cells.map Prod.fst = [(0, 1), (0, 2)] ∧
    s.engine.overlay.Whole mixed := by
  have hrun : (runWhile (step mixed) (fun s m => s.overlaps mixed m = false) (init false)
      goesBack).map (fun s => s.engine.overlay.cells.map Prod.fst) = some [(0, 1), (0, 2)] := by
    decide +kernel
  obtain ⟨s, hs, hcells⟩ := Option.map_eq_some_iff.mp hrun
  have hreaches := reaches_of_run_of hs goesBack_wellFormed
  exact ⟨s, rfl, hreaches, hcells, glyphs_whole rfl hreaches⟩

/-- An accent joins the wide glyph that the screen now shows left of the cursor, which goes over the
first half of the one predicted there. -/
theorem glyphs_halved : ∃ s : Typing Unit,
    Reaches (step mixed) (fun _ m => m.WellFormed mixed) (init false) s ∧
    ¬ s.engine.overlay.Whole mixed := by
  have hrun : (runWhile (step mixed) (fun _ _ => True) (init false)
      (goesBack ++ [typed (.char acute) oneHan 2])).map (fun s => s.engine.overlay.cells) =
        some [((0, 0), ⟨(String.singleton han).push acute, (), .wide⟩),
          ((0, 1), ⟨"", (), .covered⟩), ((0, 2), ⟨"", (), .covered⟩)] := by decide +kernel
  obtain ⟨s, hs, hcells⟩ := Option.map_eq_some_iff.mp hrun
  have hforms : ∀ m ∈ goesBack ++ [typed (.char acute) oneHan 2], m.WellFormed mixed := by
    intro m hm
    rcases List.mem_append.mp hm with hback | hlast
    · exact goesBack_wellFormed m hback
    · rw [List.mem_singleton.mp hlast]
      exact oneHan_wellFormed 2
  refine ⟨s, (reaches_of_run_of hs hforms).mono fun s m h => h.1, fun hwhole => ?_⟩
  obtain ⟨left, glyph, hcol, hglyph, hwidth⟩ :=
    hwhole.left 0 2 ⟨"", (), .covered⟩ (by simp [hcells]) rfl
  obtain rfl : left = 1 := by omega
  simp only [hcells, List.mem_cons, Prod.mk.injEq] at hglyph
  rcases hglyph with ⟨⟨-, hne⟩, -⟩ | ⟨-, rfl⟩ | ⟨⟨-, hne⟩, -⟩ | hnil
  · omega
  · exact absurd hwidth (by decide +kernel)
  · omega
  · cases hnil

end Typing

end Koh.Predict
