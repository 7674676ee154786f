import Koh.Predict.Typing

/-!
# Wide glyphs, half by half

A wide glyph is predicted in two cells, the glyph and the covered cell to its right, and each is
placed, graded, hidden and recoloured on its own: what keeps both, or neither.

## Main definitions

- `Overlay.Whole`: each half of a wide glyph has the other
- `Holds`, `Paired`: a guess and its stamps, and predictions whose halves are stamped alike
- `Engine.halves`: a key that puts a glyph over half of a predicted one

## Main results

- `Paired.cull`: a frame grades both halves of a glyph alike
- `Engine.newUserKey_paired`: a key that halves no glyph places both
- `Engine.overlay_whole`: what is drawn has both
-/

namespace Koh.Predict

open Koh.Lib Koh.Server

variable {A : Type}

/-- A cell is a wide glyph's first exactly if its text is of two columns. -/
def Agrees (g : Graphemes) (cell : Cell A) : Prop := cell.half = .wide ↔ g.width cell.text = 2

/-- Each glyph of two columns has a covered cell right of it, and each covered cell follows such a
glyph. -/
structure Overlay.Whole (g : Graphemes) (o : Overlay A) : Prop where
  right : ∀ row col cell, ((row, col), cell) ∈ o.cells → g.width cell.text = 2 →
    ∃ covered, ((row, col + 1), covered) ∈ o.cells ∧ covered.half = .covered
  left : ∀ row col cell, ((row, col), cell) ∈ o.cells → cell.half = .covered →
    ∃ left glyph, col = left + 1 ∧ ((row, left), glyph) ∈ o.cells ∧ g.width glyph.text = 2

/-- The emulator's cells agree with the widths of their texts, and a wide glyph is in two cells of a
row, no longer than a row can be. -/
structure Screen.WellFormed (g : Graphemes) (screen : Screen A) : Prop where
  cols : screen.size.cols ≤ u16Max
  inside : ∀ row col, (screen.cell row col).isSome → col < screen.size.cols
  agrees : ∀ row col cell, screen.cell row col = some cell → Agrees g cell
  right : ∀ row col cell, screen.cell row col = some cell → cell.half = .wide →
    ∃ covered, screen.cell row (col + 1) = some covered ∧ covered.half = .covered
  left : ∀ row col cell, screen.cell row col = some cell → cell.half = .covered →
    ∃ left glyph, col = left + 1 ∧ screen.cell row left = some glyph ∧ glyph.half = .wide

/-! ### Halves -/

/-- A place has this part of a glyph guessed, graded at this frame and hidden by this epoch. -/
def Holds (cells : Dict (ℕ × ℕ) (PredCell A)) (at_ : ℕ × ℕ) (half : Half) (frame epoch : ℕ) :
    Prop :=
  ∃ p cell, (at_, p) ∈ cells ∧ p.guess = some cell ∧ cell.half = half ∧
    p.expirationFrame = frame ∧ p.tentativeEpoch = epoch

/-- Each guess is of its text's width. -/
def GuessesAgree (g : Graphemes) (cells : Dict (ℕ × ℕ) (PredCell A)) : Prop :=
  ∀ p ∈ cells, ∀ cell, p.2.guess = some cell → Agrees g cell

/-- Both halves of each wide glyph are guessed, stamped alike. -/
structure Paired (g : Graphemes) (cells : Dict (ℕ × ℕ) (PredCell A)) : Prop where
  nodup : (cells.map Prod.fst).Nodup
  agrees : GuessesAgree g cells
  right : ∀ {row col frame epoch}, Holds cells (row, col) .wide frame epoch →
    col + 1 ≤ u16Max ∧ Holds cells (row, col + 1) .covered frame epoch
  left : ∀ {row col frame epoch}, Holds cells (row, col) .covered frame epoch →
    ∃ left, col = left + 1 ∧ Holds cells (row, left) .wide frame epoch

variable {g : Graphemes} {cells cells' : Dict (ℕ × ℕ) (PredCell A)} {at_ : ℕ × ℕ} {half : Half}
  {frame epoch : ℕ}

theorem Paired.nil : Paired g ([] : Dict (ℕ × ℕ) (PredCell A)) where
  nodup := List.nodup_nil
  agrees p hp := by cases hp
  right h := by obtain ⟨p, cell, hp, -⟩ := h; cases hp
  left h := by obtain ⟨p, cell, hp, -⟩ := h; cases hp

/-- What a place holds is one thing. -/
theorem Paired.half_unique (h : Paired g cells) {half' : Half} {frame' epoch' : ℕ}
    (hhold : Holds cells at_ half frame epoch) (hhold' : Holds cells at_ half' frame' epoch') :
    half = half' := by
  obtain ⟨p, cell, hp, hguess, rfl, -⟩ := hhold
  obtain ⟨p', cell', hp', hguess', rfl, -⟩ := hhold'
  obtain rfl := Dict.value_unique h.nodup hp hp'
  rw [hguess] at hguess'
  exact congrArg Cell.half (Option.some.inj hguess')

/-- Halves that both stay, or both go, stay paired. -/
theorem Paired.survive (h : Paired g cells) (hnodup : (cells'.map Prod.fst).Nodup)
    (hagrees : GuessesAgree g cells') {S : ℕ × ℕ → ℕ → ℕ → Prop}
    (hholds : ∀ {at_ half frame epoch}, Holds cells' at_ half frame epoch ↔
      Holds cells at_ half frame epoch ∧ S at_ frame epoch)
    (hS : ∀ {row col frame epoch}, Holds cells (row, col) .wide frame epoch →
      Holds cells (row, col + 1) .covered frame epoch →
      (S (row, col) frame epoch ↔ S (row, col + 1) frame epoch)) : Paired g cells' := by
  refine ⟨hnodup, hagrees, fun hwide => ?_, fun hcovered => ?_⟩
  · obtain ⟨hwide, hs⟩ := hholds.mp hwide
    obtain ⟨hle, hcovered⟩ := h.right hwide
    exact ⟨hle, hholds.mpr ⟨hcovered, (hS hwide hcovered).mp hs⟩⟩
  · obtain ⟨hcovered, hs⟩ := hholds.mp hcovered
    obtain ⟨left, rfl, hwide⟩ := h.left hcovered
    exact ⟨left, rfl, hholds.mpr ⟨hwide, (hS hwide hcovered).mpr hs⟩⟩

/-! ### Grading -/

/-- What a filter leaves. -/
theorem holds_filter {keep : (ℕ × ℕ) × PredCell A → Bool} {S : ℕ × ℕ → ℕ → ℕ → Prop}
    (hkeep : ∀ p, keep p = true ↔ S p.1 p.2.expirationFrame p.2.tentativeEpoch) :
    Holds (cells.filter keep) at_ half frame epoch ↔
      Holds cells at_ half frame epoch ∧ S at_ frame epoch := by
  constructor
  · rintro ⟨p, cell, hp, hguess, hhalf, rfl, rfl⟩
    obtain ⟨hmem, hp⟩ := List.mem_filter.mp hp
    exact ⟨⟨p, cell, hmem, hguess, hhalf, rfl, rfl⟩, (hkeep _).mp hp⟩
  · rintro ⟨⟨p, cell, hp, hguess, hhalf, rfl, rfl⟩, hs⟩
    exact ⟨p, cell, List.mem_filter.mpr ⟨hp, (hkeep (at_, p)).mpr hs⟩, hguess, hhalf, rfl, rfl⟩

namespace Engine

/-- Of another colour, a guess is what it was. -/
theorem holds_restyle (place : ℕ × ℕ) (attributes : A) :
    Holds (restyle cells place attributes) at_ half frame epoch ↔
      Holds cells at_ half frame epoch := by
  constructor
  · rintro ⟨p, cell, hp, hguess, rfl, rfl, rfl⟩
    obtain ⟨⟨at', q⟩, hq, heq⟩ := List.mem_map.mp hp
    split at heq
    · cases heq
      obtain ⟨old, hold, rfl⟩ := Option.map_eq_some_iff.mp hguess
      exact ⟨q, old, hq, hold, rfl, rfl, rfl⟩
    · cases heq
      exact ⟨p, cell, hq, hguess, rfl, rfl, rfl⟩
  · rintro ⟨p, cell, hp, hguess, rfl, rfl, rfl⟩
    by_cases hright : at_.1 = place.1 ∧ place.2 ≤ at_.2 ∧ p.typed
    · exact ⟨{ p with guess := p.guess.map fun cell => { cell with attributes := attributes } },
        { cell with attributes := attributes },
        List.mem_map.mpr ⟨(at_, p), hp, if_pos hright⟩, by simp [hguess], rfl, rfl, rfl⟩
    · exact ⟨p, cell, List.mem_map.mpr ⟨(at_, p), hp, if_neg hright⟩, hguess, rfl, rfl, rfl⟩

/-- A colour changes no place. -/
theorem keys_restyle (place : ℕ × ℕ) (attributes : A) :
    (restyle cells place attributes).map Prod.fst = cells.map Prod.fst := by
  rw [restyle, List.map_map]
  refine List.map_congr_left fun p _ => ?_
  dsimp only [Function.comp]
  split <;> rfl

/-- A colour changes no glyph. -/
theorem agree_restyle (h : GuessesAgree g cells) (place : ℕ × ℕ) (attributes : A) :
    GuessesAgree g (restyle cells place attributes) := by
  intro p hp cell hguess
  obtain ⟨q, hq, rfl⟩ := List.mem_map.mp hp
  split at hguess
  · obtain ⟨old, hold, rfl⟩ := Option.map_eq_some_iff.mp hguess
    exact h q hq old hold
  · exact h q hq cell hguess

variable {e : Engine A} {screen : Screen A}

/-- What recolouring keeps, what remains has of what is pending. -/
theorem remaining_induction {P : Dict (ℕ × ℕ) (PredCell A) → Prop}
    (hpending : P (e.graded screen .pending))
    (hrestyle : ∀ cells place attributes, P cells → P (restyle cells place attributes)) :
    P (e.remaining screen) := by
  unfold remaining
  generalize e.graded screen .pending = pending at hpending ⊢
  induction e.graded screen .correct generalizing pending with
  | nil => exact hpending
  | cons p confirmed ih =>
    rw [List.foldl_cons]
    split
    · exact ih _ (hrestyle _ _ _ hpending)
    · exact ih _ hpending

/-- What remains of a grading is what is pending. -/
theorem holds_remaining : Holds (e.remaining screen) at_ half frame epoch ↔
    Holds (e.graded screen .pending) at_ half frame epoch := by
  refine remaining_induction (P := fun cells => Holds cells at_ half frame epoch ↔
    Holds (e.graded screen .pending) at_ half frame epoch) Iff.rfl fun _ place attributes h => ?_
  exact (holds_restyle place attributes).trans h

theorem keys_remaining :
    (e.remaining screen).map Prod.fst = (e.graded screen .pending).map Prod.fst :=
  remaining_induction (P := fun cells => cells.map Prod.fst = _) rfl
    fun _ place attributes h => (keys_restyle place attributes).trans h

theorem agree_remaining (h : GuessesAgree g e.cells) : GuessesAgree g (e.remaining screen) :=
  remaining_induction (fun p hp => h p (List.mem_filter.mp hp).1)
    fun _ place attributes h => agree_restyle h place attributes

/-- A prediction is pending where the screen has a cell and its frame is to come. -/
theorem validity_pending (p : (ℕ × ℕ) × PredCell A) :
    e.validity screen p = .pending ↔
      (screen.cell p.1.1 p.1.2).isSome = true ∧ e.lateAcked < p.2.expirationFrame := by
  unfold validity cellValidity
  cases screen.cell p.1.1 p.1.2 with
  | none => simp
  | some actual =>
    dsimp only
    by_cases hlate : e.lateAcked < p.2.expirationFrame
    · simp [hlate]
    · rw [if_neg hlate]
      have hgraded : ∀ v : Validity, v ≠ .pending → (v = .pending ↔
          (some actual).isSome = true ∧ e.lateAcked < p.2.expirationFrame) := by
        intro v hv
        simp [hv, hlate]
      refine hgraded _ ?_
      split
      · simp
      · split_ifs <;> simp

/-- A guess out of the screen is wrong, and its epoch goes. -/
theorem mem_kills (h : Holds e.cells at_ half frame epoch)
    (hnone : screen.cell at_.1 at_.2 = none) : epoch ∈ e.kills screen := by
  obtain ⟨p, cell, hp, -, -, -, rfl⟩ := h
  refine List.mem_map.mpr ⟨(at_, p), List.mem_filter.mpr ⟨hp, ?_⟩, rfl⟩
  simp [validity, cellValidity, hnone]

/-- Killed epochs lose their cells. -/
theorem killEpochs_cells (e : Engine A) (screen : Screen A) (epochs : List ℕ) :
    (e.killEpochs screen epochs).cells =
      e.cells.filter fun p => !epochs.contains p.2.tentativeEpoch := by
  unfold killEpochs
  split
  · next h => simp [h]
  · simp only [moveCursor, becomeTentative, discardLine]
    split <;> rfl

/-- Grading the cursor keeps the halves paired. -/
theorem gradeCursor_paired (h : Paired g e.cells) (screen : Screen A) :
    Paired g (e.gradeCursor screen).cells := by
  unfold gradeCursor
  split
  · exact h
  · split
    · rw [reset_cells]
      exact .nil
    · exact h
    · exact h
    · exact h

/-- What a frame leaves: what it does not grade yet, of the epochs that it does not kill. -/
theorem paired_left (h : Paired g e.cells) :
    Paired g ((e.remaining screen).filter
      fun p => !(e.kills screen).contains p.2.tentativeEpoch) := by
  refine h.survive (S := fun at_ frame epoch =>
    ((screen.cell at_.1 at_.2).isSome = true ∧ e.lateAcked < frame) ∧ epoch ∉ e.kills screen)
    ?_ ?_ ?_ ?_
  · refine List.Nodup.sublist (List.filter_sublist.map _) ?_
    rw [keys_remaining]
    exact h.nodup.sublist (List.filter_sublist.map _)
  · exact fun p hp => agree_remaining h.agrees p (List.mem_filter.mp hp).1
  · intro at_ half frame epoch
    rw [holds_filter (S := fun _ _ epoch => epoch ∉ e.kills screen) (fun p => by simp),
      holds_remaining, graded,
      holds_filter (S := fun at_ frame _ =>
        (screen.cell at_.1 at_.2).isSome = true ∧ e.lateAcked < frame)
        (fun p => by rw [decide_eq_true_iff, validity_pending]), and_assoc]
  · intro row col frame epoch hwide hcovered
    -- Where one half is out of the screen, the epoch of both is killed.
    have hcell : ∀ {at_ half}, Holds e.cells at_ half frame epoch →
        epoch ∉ e.kills screen → (screen.cell at_.1 at_.2).isSome = true := by
      intro at_ half hhold hkept
      by_contra hnone
      exact hkept (mem_kills hhold (by simpa using hnone))
    constructor
    · rintro ⟨⟨-, hlate⟩, hkept⟩
      exact ⟨⟨hcell hcovered hkept, hlate⟩, hkept⟩
    · rintro ⟨⟨-, hlate⟩, hkept⟩
      exact ⟨⟨hcell hwide hkept, hlate⟩, hkept⟩

end Engine

/-- A frame grades both halves of a glyph alike. -/
theorem Paired.cull {e : Engine A} (h : Paired g e.cells) (screen : Screen A) :
    Paired g (e.cull screen).cells := by
  unfold Engine.cull
  dsimp only
  split
  · rw [Engine.reset_cells]
    exact .nil
  · split
    · rw [Engine.reset_cells]
      exact .nil
    · refine Engine.gradeCursor_paired ?_ screen
      rw [Engine.killEpochs_cells]
      exact Engine.paired_left (e := { e with lastSize := some screen.size }) h

/-! ### Placing -/

theorem before_irrefl (place : ℕ × ℕ) : before place place = false := by simp [before]

/-- A place has no guess of this part of a glyph. -/
def Free (cells : Dict (ℕ × ℕ) (PredCell A)) (at_ : ℕ × ℕ) (half : Half) : Prop :=
  ∀ frame epoch, ¬ Holds cells at_ half frame epoch

variable {p : PredCell A} {place : ℕ × ℕ} {cell : Cell A}

/-- What an insertion leaves. -/
theorem holds_insert (hguess : p.guess = some cell) :
    Holds (Dict.insert before cells place p) at_ half frame epoch ↔
      (at_ = place ∧ cell.half = half ∧ p.expirationFrame = frame ∧ p.tentativeEpoch = epoch) ∨
        (at_ ≠ place ∧ Holds cells at_ half frame epoch) := by
  constructor
  · rintro ⟨q, other, hq, hother, hhalf, hframe, hepoch⟩
    rcases (Dict.mem_insert_iff before_irrefl).mp hq with heq | ⟨hq, hne⟩
    · cases heq
      obtain rfl := Option.some.inj (hguess.symm.trans hother)
      exact .inl ⟨rfl, hhalf, hframe, hepoch⟩
    · exact .inr ⟨hne, q, other, hq, hother, hhalf, hframe, hepoch⟩
  · rintro (⟨rfl, hhalf, hframe, hepoch⟩ | ⟨hne, q, other, hq, hrest⟩)
    · exact ⟨p, cell, Dict.mem_insert_self before cells _ p, hguess, hhalf, hframe, hepoch⟩
    · exact ⟨q, other, Dict.mem_insert_of_ne before p hq hne, hrest⟩

/-- An insertion of a guess that agrees. -/
theorem agree_insert (h : GuessesAgree g cells) (hguess : p.guess = some cell)
    (hagrees : Agrees g cell) : GuessesAgree g (Dict.insert before cells place p) := by
  intro q hq other hother
  rcases Dict.mem_insert hq with rfl | hq
  · rw [hguess] at hother
    cases hother
    exact hagrees
  · exact h q hq other hother

/-- A narrow guess where no glyph's half is. -/
theorem Paired.insert (h : Paired g cells) (hguess : p.guess = some cell) (hagrees : Agrees g cell)
    (hnarrow : cell.half = .narrow) (hwide : Free cells place .wide)
    (hcovered : Free cells place .covered) : Paired g (Dict.insert before cells place p) := by
  have hold : ∀ {at_ half frame epoch}, half ≠ .narrow →
      (Holds (Dict.insert before cells place p) at_ half frame epoch ↔
        at_ ≠ place ∧ Holds cells at_ half frame epoch) := by
    intro at_ half frame epoch hne
    rw [holds_insert hguess]
    refine ⟨?_, .inr⟩
    rintro (⟨-, hhalf, -⟩ | hhold)
    · exact absurd (hhalf.symm.trans hnarrow) hne
    · exact hhold
  refine ⟨Dict.nodup_insert before_irrefl h.nodup place p, agree_insert h.agrees hguess hagrees,
    fun hhold => ?_, fun hhold => ?_⟩
  · obtain ⟨-, hhold⟩ := (hold (by decide)).mp hhold
    obtain ⟨hle, hright⟩ := h.right hhold
    refine ⟨hle, (hold (by decide)).mpr ⟨?_, hright⟩⟩
    rintro rfl
    exact hcovered _ _ hright
  · obtain ⟨-, hhold⟩ := (hold (by decide)).mp hhold
    obtain ⟨left, rfl, hleft⟩ := h.left hhold
    refine ⟨left, rfl, (hold (by decide)).mpr ⟨?_, hleft⟩⟩
    rintro rfl
    exact hwide _ _ hleft

/-- A wide glyph and the cell it covers, over no half of another. -/
theorem Paired.insert_both (h : Paired g cells) {row col : ℕ} {q : PredCell A} {covered : Cell A}
    (hguess : p.guess = some cell) (hagrees : Agrees g cell) (hwide : cell.half = .wide)
    (hguess' : q.guess = some covered) (hagrees' : Agrees g covered)
    (hcovered : covered.half = .covered) (hframe : q.expirationFrame = p.expirationFrame)
    (hepoch : q.tentativeEpoch = p.tentativeEpoch) (hle : col + 1 ≤ u16Max)
    (hleft : Free cells (row, col) .covered) (hright : Free cells (row, col + 1) .wide) :
    Paired g (Dict.insert before (Dict.insert before cells (row, col) p) (row, col + 1) q) := by
  have hpair : Holds (Dict.insert before (Dict.insert before cells (row, col) p) (row, col + 1) q)
      (row, col) .wide p.expirationFrame p.tentativeEpoch ∧
      Holds (Dict.insert before (Dict.insert before cells (row, col) p) (row, col + 1) q)
        (row, col + 1) .covered p.expirationFrame p.tentativeEpoch :=
    ⟨(holds_insert hguess').mpr (.inr ⟨by simp, (holds_insert hguess).mpr
      (.inl ⟨rfl, hwide, rfl, rfl⟩)⟩),
      (holds_insert hguess').mpr (.inl ⟨rfl, hcovered, hframe, hepoch⟩)⟩
  refine ⟨Dict.nodup_insert before_irrefl (Dict.nodup_insert before_irrefl h.nodup _ _) _ _,
    agree_insert (agree_insert h.agrees hguess hagrees) hguess' hagrees',
    fun hhold => ?_, fun hhold => ?_⟩
  · rcases (holds_insert hguess').mp hhold with ⟨-, hhalf, -⟩ | ⟨hne, hhold⟩
    · rw [hcovered] at hhalf
      cases hhalf
    · rcases (holds_insert hguess).mp hhold with ⟨heq, -, rfl, rfl⟩ | ⟨hne', hhold⟩
      · cases heq
        exact ⟨hle, hpair.2⟩
      · obtain ⟨hle', hnext⟩ := h.right hhold
        refine ⟨hle', (holds_insert hguess').mpr (.inr ⟨fun heq => hne' ?_, ?_⟩)⟩
        · simpa using heq
        · refine (holds_insert hguess).mpr (.inr ⟨?_, hnext⟩)
          rintro heq
          rw [heq] at hnext
          exact hleft _ _ hnext
  · rcases (holds_insert hguess').mp hhold with ⟨heq, -, hframe', hepoch'⟩ | ⟨hne, hhold⟩
    · cases heq
      rw [hframe] at hframe'
      rw [hepoch] at hepoch'
      subst hframe'
      subst hepoch'
      exact ⟨col, rfl, hpair.1⟩
    · rcases (holds_insert hguess).mp hhold with ⟨-, hhalf, -⟩ | ⟨hne', hhold⟩
      · rw [hwide] at hhalf
        cases hhalf
      · obtain ⟨left, rfl, hprev⟩ := h.left hhold
        refine ⟨left, rfl, (holds_insert hguess').mpr (.inr ⟨?_, ?_⟩)⟩
        · rintro heq
          rw [heq] at hprev
          exact hright _ _ hprev
        · refine (holds_insert hguess).mpr (.inr ⟨fun heq => hne ?_, hprev⟩)
          simpa using heq

namespace Engine

variable {e : Engine A} {ctx : Context A} {row col : ℕ}

/-- What is predicted at a place is what is guessed there. -/
theorem free_of_guessAt (h : Paired g e.cells) (hguess : e.guessAt ctx row col = some cell)
    (hne : cell.half ≠ half) : Free e.cells (row, col) half := by
  rintro frame epoch ⟨p, other, hp, hother, rfl, -⟩
  simp only [guessAt, Dict.lookup_of_mem h.nodup hp, hother] at hguess
  cases hguess
  exact hne rfl

/-- A guess agrees with the widths. -/
theorem agrees_guessAt (h : Paired g e.cells) (hscreen : ctx.screen.WellFormed g)
    (hguess : e.guessAt ctx row col = some cell) : Agrees g cell := by
  unfold guessAt at hguess
  split at hguess
  · exact hscreen.agrees row col cell hguess
  · next p hp => exact h.agrees _ (Dict.mem_of_lookup hp) cell hguess

/-- A guess that is a blank is of one column. -/
theorem blank_eq_some (h : e.blank ctx row col = some cell) :
    e.guessAt ctx row col = some cell ∧ cell.half = .narrow := by
  obtain ⟨hguess, hblank⟩ := Option.filter_eq_some_iff.mp h
  simp only [Cell.blank, Bool.and_eq_true, decide_eq_true_eq] at hblank
  exact ⟨hguess, hblank.1⟩

/-- A glyph goes where no half of another is left over. -/
theorem placeGlyph_paired (h : Paired g e.cells) (hempty : g.width "" = 0) {keys : List ℕ}
    (hagrees : Agrees g cell) (hglyph : cell.half ≠ .covered)
    (hleft : Free e.cells (row, col) .covered)
    (hnarrow : cell.half = .narrow → Free e.cells (row, col) .wide)
    (hwide : cell.half = .wide → col + 1 ≤ u16Max ∧ Free e.cells (row, col + 1) .wide) :
    Paired g (e.placeGlyph ctx row col cell keys).cells := by
  unfold placeGlyph
  cases hhalf : cell.half with
  | narrow =>
    rw [if_neg (by simp)]
    exact h.insert rfl hagrees hhalf (hnarrow hhalf) hleft
  | wide =>
    obtain ⟨hle, hright⟩ := hwide hhalf
    rw [if_pos ⟨rfl, hle⟩]
    exact h.insert_both rfl hagrees hhalf rfl (by simp [Agrees, hempty]) rfl rfl rfl hle hleft
      hright
  | covered => exact absurd hhalf hglyph

/-- A new character keeps the halves paired. -/
theorem predictNew_paired [Inhabited A] (h : Paired g e.cells) (hempty : g.width "" = 0)
    (hscreen : ctx.screen.WellFormed g) (c : Char) (k : ℕ) :
    Paired g (e.predictNew g ctx row col c k).cells := by
  unfold predictNew
  dsimp only
  split
  · exact h
  · next hfits =>
    split
    · exact h
    · next hblank =>
      obtain ⟨hpos, hcols⟩ := not_or.mp hfits
      -- Each column that the glyph takes is a blank, and no half of one.
      have hfree : ∀ n < min (g.width (String.singleton c)) u16Max, ∀ half ≠ Half.narrow,
          Free e.cells (row, col + n) half := by
        intro n hn half hne
        have hmem : col + n ∈ List.range' col (min (g.width (String.singleton c)) u16Max) :=
          List.mem_range'_1.mpr (by omega)
        obtain ⟨blank, hat⟩ :=
          Option.isSome_iff_exists.mp (List.all_eq_true.mp (not_not.mp hblank) _ hmem)
        obtain ⟨hguess, hhalf⟩ := blank_eq_some hat
        exact free_of_guessAt h hguess (by rw [hhalf]; exact hne.symm)
      have hcols' := hscreen.cols
      have hplaced : Paired g (e.placeGlyph ctx row col ⟨String.singleton c,
          e.neighbour ctx row col,
          if min (g.width (String.singleton c)) u16Max = 2 then .wide else .narrow⟩ [k]).cells := by
        refine placeGlyph_paired h hempty ?_ ?_ (hfree 0 (by omega) _ (by decide))
          (fun _ => hfree 0 (by omega) _ (by decide)) fun hhalf => ?_
        · unfold Agrees
          dsimp only
          split
          · next hwidth => exact ⟨fun _ => by unfold u16Max at hwidth; omega, fun _ => rfl⟩
          · next hwidth =>
            refine ⟨fun hhalf => (by cases hhalf), fun htwo => absurd ?_ hwidth⟩
            unfold u16Max
            omega
        · dsimp only
          split <;> decide
        · dsimp only at hhalf
          split at hhalf
          · exact ⟨by omega, hfree 1 (by omega) _ (by decide)⟩
          · cases hhalf
      split
      · exact hplaced
      · exact hplaced

/-- `c` joins a wide glyph that the screen shows, and a predicted one begins in the cell that it
covers. -/
def halves (e : Engine A) (g : Graphemes) (ctx : Context A) (c : Char) : Bool :=
  let (row, col) := e.cursorAt ctx.screen
  match e.glyphBefore ctx row col with
  | some (at_, cell) =>
    g.continuesCluster cell.text c && g.width (cell.text.push c) = g.width cell.text &&
      cell.half = .wide && (e.cells.lookup (row, at_)).isNone &&
      (e.guessAt ctx row (at_ + 1)).any (·.half = .wide)
  | none => false

/-- The key halves a predicted glyph. -/
def overlaps (e : Engine A) (g : Graphemes) (press : KeyPress) (screen : Screen A) : Bool :=
  match e.predicts press screen, printable press with
  | some ctx, some c => (e.readies press screen).halves g ctx c
  | _, _ => false

/-- The glyph before a place is guessed there, and is no covered cell. -/
theorem glyphBefore_eq_some {b : ℕ × Cell A} (h : e.glyphBefore ctx row col = some b) :
    e.guessAt ctx row b.1 = some b.2 ∧ b.2.half ≠ .covered := by
  unfold glyphBefore at h
  split at h
  · cases h
  · split at h
    · cases h
    · next cell hcell =>
      obtain ⟨hfound, hglyph⟩ := Option.filter_eq_some_iff.mp h
      simp only [Bool.and_eq_true, decide_eq_true_eq] at hglyph
      refine ⟨?_, hglyph.2⟩
      split at hfound
      · split at hfound
        · cases hfound
        · obtain ⟨cell', hcell', rfl⟩ := Option.map_eq_some_iff.mp hfound
          exact hcell'
      · cases hfound
        exact hcell

/-- Where no key halves a glyph, a wide one that is joined has no other glyph right of it. -/
theorem joins_paired (h : Paired g e.cells) (hscreen : ctx.screen.WellFormed g) {at_ : ℕ}
    {c : Char} (hbefore : e.glyphBefore ctx (e.cursorAt ctx.screen).1
      (e.cursorAt ctx.screen).2 = some (at_, cell))
    (hguess : e.guessAt ctx (e.cursorAt ctx.screen).1 at_ = some cell)
    (hcontinues : g.continuesCluster cell.text c = true)
    (hwidth : g.width (cell.text.push c) = g.width cell.text) (hwide : cell.half = .wide)
    (hhalves : e.halves g ctx c = false) :
    at_ + 1 ≤ u16Max ∧ Free e.cells ((e.cursorAt ctx.screen).1, at_ + 1) .wide := by
  generalize hrow : (e.cursorAt ctx.screen).1 = row at *
  cases hlookup : e.cells.lookup (row, at_) with
  | some p =>
    simp only [guessAt, hlookup] at hguess
    obtain ⟨hle, hcovered⟩ :=
      h.right ⟨p, cell, Dict.mem_of_lookup hlookup, hguess, hwide, rfl, rfl⟩
    refine ⟨hle, fun frame epoch hother => ?_⟩
    cases h.half_unique hcovered hother
  | none =>
    have hcell : ctx.screen.cell row at_ = some cell := by simpa [guessAt, hlookup] using hguess
    obtain ⟨covered, hcovered, -⟩ := hscreen.right row at_ cell hcell hwide
    have hinside := hscreen.inside row (at_ + 1) (by simp [hcovered])
    refine ⟨hinside.le.trans hscreen.cols, ?_⟩
    rintro frame epoch ⟨p, other, hp, hother, hhalf, -⟩
    have hat : e.guessAt ctx row (at_ + 1) = some other := by
      simp only [guessAt, Dict.lookup_of_mem h.nodup hp, hother]
    simp [halves, hrow, hbefore, hcontinues, hwidth, hwide, hlookup, hat, hhalf] at hhalves

/-- So does a glyph, where no half is predicted over. -/
theorem predictGlyph_paired [Inhabited A] (h : Paired g e.cells) (hempty : g.width "" = 0)
    (hscreen : ctx.screen.WellFormed g) {c : Char} (hhalves : e.halves g ctx c = false) (k : ℕ) :
    Paired g (e.predictGlyph g ctx c k).cells := by
  unfold predictGlyph
  have htrust : Paired g (e.trustKernel ctx).cells ∧
      (e.trustKernel ctx).halves g ctx c = false := by
    unfold trustKernel
    split
    · exact ⟨h, hhalves⟩
    · exact ⟨h, hhalves⟩
  generalize e.trustKernel ctx = e at htrust
  obtain ⟨h, hhalves⟩ := htrust
  dsimp only
  split
  · next at_ cell hbefore =>
    obtain ⟨hbefore, hcontinues⟩ := Option.filter_eq_some_iff.mp hbefore
    obtain ⟨hguess, hglyph⟩ := glyphBefore_eq_some hbefore
    split
    · exact h
    · next hwidth =>
      rw [not_not] at hwidth
      have hagrees := agrees_guessAt h hscreen hguess
      refine placeGlyph_paired h hempty ?_ hglyph (free_of_guessAt h hguess hglyph) ?_ ?_
      · unfold Agrees
        rw [hwidth]
        exact hagrees
      · exact fun hnarrow => free_of_guessAt h hguess (by rw [hnarrow]; decide)
      · exact fun hwide => joins_paired h hscreen hbefore hguess hcontinues hwidth hwide hhalves
  · exact predictNew_paired h hempty hscreen c k

/-- So does a backspace. -/
theorem predictBackspace_paired (h : Paired g e.cells) (hscreen : ctx.screen.WellFormed g)
    (k : ℕ) : Paired g (e.predictBackspace ctx k).cells := by
  unfold predictBackspace
  dsimp only
  split
  · next blank hblank =>
    split
    · next hsteps =>
      simp only [Bool.and_eq_true, Option.any_eq_true] at hsteps
      obtain ⟨-, cell, hcell, hnarrow⟩ := hsteps
      obtain ⟨hguess, hhalf⟩ := blank_eq_some hblank
      have hhalf' := of_decide_eq_true hnarrow
      exact h.insert rfl (agrees_guessAt h hscreen hguess) hhalf
        (free_of_guessAt h hcell (by rw [hhalf']; decide))
        (free_of_guessAt h hcell (by rw [hhalf']; decide))
    · exact h
  · exact h

theorem beginLine_cells (e : Engine A) (screen : Screen A) :
    (e.beginLine screen).cells = e.cells := by
  unfold beginLine
  split
  · split <;> rfl
  · rfl

theorem unpredicted_cells (e : Engine A) (press : KeyPress) :
    (e.unpredicted press).cells = e.cells := by
  unfold unpredicted
  split
  · rfl
  · split <;> rfl

theorem predictArrow_cells (e : Engine A) (ctx : Context A) (right : Bool) :
    (e.predictArrow ctx right).cells = e.cells := by
  unfold predictArrow
  dsimp only
  split
  · split <;> rfl
  · split <;> rfl

theorem context_screen {screen : Screen A} (h : e.context screen = some ctx) :
    ctx.screen = screen := by
  unfold context at h
  split at h
  · cases h
  · split at h
    · cases h
    · split at h
      · cases h
        rfl
      · cases h

/-- So does every key, where none overlaps. -/
theorem newUserKey_paired [Inhabited A] (h : Paired g e.cells) (hempty : g.width "" = 0)
    {press : KeyPress} {screen : Screen A} (hscreen : screen.WellFormed g)
    (hoverlaps : e.overlaps g press screen = false) (k : ℕ) :
    Paired g (e.newUserKey g press screen k).cells := by
  have hready : Paired g (e.readies press screen).cells := by
    unfold readies
    split
    · rw [beginLine_cells]
      exact h.cull screen
    · exact h.cull screen
  cases hpredicts : e.predicts press screen with
  | none =>
    rw [newUserKey_unpredicted g hpredicts, unpredicted_cells]
    exact hready
  | some ctx =>
    rw [newUserKey_predicted g hpredicts]
    obtain rfl : ctx.screen = screen := context_screen (predicts_eq_some hpredicts).2
    have hhalves : ∀ c, printable press = some c →
        ({ e.readies press ctx.screen with heldThrough := none }).halves g ctx c = false := by
      intro c hprints
      simp only [overlaps, hpredicts, hprints] at hoverlaps
      exact hoverlaps
    have hheld : Paired g ({ e.readies press ctx.screen with heldThrough := none }).cells := hready
    generalize { e.readies press ctx.screen with heldThrough := none } = e at hhalves hheld ⊢
    refine predictKey_rule g ctx (P := fun e => Paired g e.cells) hheld
      (predictBackspace_paired hheld hscreen k) hheld ?_ ?_
    · intro right
      rw [predictArrow_cells]
      exact hheld
    · exact fun c hprints => predictGlyph_paired hheld hempty hscreen (hhalves c hprints) k

/-- What is drawn is of one epoch's guesses or none, so both halves are. -/
theorem overlay_whole (h : Paired g e.cells) : e.overlay.Whole g := by
  have hdrawn : ∀ {at_ half frame epoch}, e.tty.any password = false →
      Holds e.cells at_ half frame epoch → e.tentative epoch = false →
      ∃ cell, (at_, cell) ∈ e.overlay.cells ∧ cell.half = half := by
    rintro at_ half frame epoch hpassword ⟨p, cell, hp, hguess, hhalf, -, rfl⟩ hshown
    exact ⟨cell, overlay_cells.mpr ⟨hpassword, (at_, p), hp, rfl, by simp [shown, hshown], hguess⟩,
      hhalf⟩
  have hheld : ∀ {at_ cell}, (at_, cell) ∈ e.overlay.cells → ∃ frame epoch,
      e.tty.any password = false ∧ Holds e.cells at_ cell.half frame epoch ∧
        e.tentative epoch = false ∧ Agrees g cell := by
    intro at_ cell hmem
    obtain ⟨hpassword, p, hp, rfl, hshown, hguess⟩ := overlay_cells.mp hmem
    exact ⟨_, _, hpassword, ⟨p.2, cell, hp, hguess, rfl, rfl, rfl⟩, by simpa [shown] using hshown,
      h.agrees p hp cell hguess⟩
  constructor
  · intro row col cell hmem hwidth
    obtain ⟨frame, epoch, hpassword, hhold, hshown, hagrees⟩ := hheld hmem
    rw [hagrees.mpr hwidth] at hhold
    exact hdrawn hpassword (h.right hhold).2 hshown
  · intro row col cell hmem hcovered
    obtain ⟨frame, epoch, hpassword, hhold, hshown, -⟩ := hheld hmem
    rw [hcovered] at hhold
    obtain ⟨left, rfl, hleft⟩ := h.left hhold
    obtain ⟨glyph, hglyph, hwide⟩ := hdrawn hpassword hleft hshown
    obtain ⟨-, -, -, -, -, hagrees⟩ := hheld hglyph
    exact ⟨left, glyph, rfl, hglyph, hagrees.mp hwide⟩

end Engine

end Koh.Predict
