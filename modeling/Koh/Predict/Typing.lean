import Koh.Lib.Reach
import Koh.Predict.Engine

/-!
# Runs of the prediction engine

What a client does with its engine, one call after another, and what was typed at each.

## Main definitions

- `Event`: a key typed, and what proves that typing is echoed
- `Typing`, `Typing.step`: the engine, and the next call
- `Engine.draws`: a key's glyph is in the overlay
- `Engine.Keeps`, `Engine.Places`: what a call makes of the predictions

## Main results

- `Engine.cull_keeps`, `Engine.newUserKey_keeps`, `Engine.setTty_keeps`: what predicts nothing
- `Engine.newUserKey_places`: a key predicts in the current epoch, with glyphs of its own and those
  it joins
- `Engine.overlay_cells`, `Engine.draws_iff`: what the overlay draws

## Design notes

Keys are numbered as they are typed. Inputs are numbered upwards, as the client numbers them.
`log` and `holds` are no part of the code: what was typed and proved, and the held frames that no
ack has reached.
-/

namespace Koh.Predict

open Koh.Lib Koh.Server

inductive Event where
  /-- A key was predicted: whether the kernel echoed then, the epoch, and the one confirmed. -/
  | typed (k : ℕ) (echo : Bool) (epoch confirmed : ℕ)
  /-- A cull graded a cell of this epoch correct. -/
  | correct (epoch : ℕ)
  /-- Trust carried from the last connection was given, to this epoch and those before. -/
  | given (epoch : ℕ)
  deriving DecidableEq

/-- An engine, and what was typed. -/
structure Typing (A : Type) where
  engine : Engine A
  /-- How many keys were typed. -/
  keys : ℕ
  log : List Event
  holds : List ℕ

inductive Call (A : Type) where
  | sent (n : ℕ)
  | acked (n : ℕ)
  | key (press : KeyPress) (screen : Screen A)
  | other (screen : Screen A)
  | hold
  | cull (screen : Screen A)
  | tty (tty : Option TtyModes)
  | reset
  | reattach

namespace Engine

variable {A : Type} (e : Engine A)

def proves (screen : Screen A) : List ℕ :=
  if e.lastSize.any (· ≠ screen.size) || e.killsAll screen then [] else e.confirms screen

/-- Whether setting the modes gives carried trust. -/
def gives (tty : Option TtyModes) : Bool := tty.any (!password ·) && e.carried

/-- What a key is predicted against, once the engine is ready for it. -/
def predicts (press : KeyPress) (screen : Screen A) : Option (Context A) :=
  let e := e.readies press screen
  if e.holding then none else e.context screen

/-- Key `k`'s glyph is in the overlay. -/
def draws (k : ℕ) : Prop :=
  e.tty.any password = false ∧ ∃ p ∈ e.cells, k ∈ p.2.keys ∧ e.shown p.2 ∧ p.2.guess.isSome

instance (k : ℕ) : Decidable (e.draws k) :=
  inferInstanceAs (Decidable (_ ∧ ∃ p ∈ e.cells, _ ∧ _ ∧ _))

/-! ### What a call makes of the predictions -/

/-- A step that changes no trust, no modes, no hold and no frame, and only opens epochs. -/
structure Steady (e e' : Engine A) : Prop where
  confirmed : e'.confirmedEpoch = e.confirmedEpoch
  tty : e'.tty = e.tty
  held : e'.heldThrough = e.heldThrough
  acked : e'.lateAcked = e.lateAcked
  sent : e'.localFrameSent = e.localFrameSent
  grows : e.predictionEpoch ≤ u64Max →
    e.predictionEpoch ≤ e'.predictionEpoch ∧ e'.predictionEpoch ≤ u64Max

structure Recoloured (p q : (ℕ × ℕ) × PredCell A) : Prop where
  place : p.1 = q.1
  text : p.2.guess.map (·.text) = q.2.guess.map (·.text)
  keys : p.2.keys = q.2.keys
  epoch : p.2.tentativeEpoch = q.2.tentativeEpoch

/-- Nothing is predicted: what is left was there before. -/
structure Keeps (e e' : Engine A) : Prop extends Steady e e' where
  old : ∀ p ∈ e'.cells, ∃ q ∈ e.cells, Recoloured p q

/-- Keys that show `k`, and with it only what `e` shows. -/
def Joins (k : ℕ) (e : Engine A) (keys : List ℕ) : Prop :=
  k ∈ keys ∧ ∀ k' ∈ keys, k' = k ∨ ∃ q ∈ e.cells, k' ∈ q.2.keys

/-- Key `k` is predicted: what is new is of the current epoch, and shows `k` and what it joins. -/
structure Places (k : ℕ) (e e' : Engine A) : Prop extends Steady e e' where
  new : ∀ p ∈ e'.cells, (∃ q ∈ e.cells, Recoloured p q) ∨
    (p.2.tentativeEpoch = e.predictionEpoch ∧ Joins k e p.2.keys)

variable {e} {e' e'' : Engine A} {k : ℕ}

theorem Steady.refl (e : Engine A) : e.Steady e :=
  ⟨rfl, rfl, rfl, rfl, rfl, fun h => ⟨le_rfl, h⟩⟩

theorem Steady.trans (h : e.Steady e') (h' : e'.Steady e'') : e.Steady e'' := by
  refine ⟨h'.confirmed.trans h.confirmed, h'.tty.trans h.tty,
    h'.held.trans h.held, h'.acked.trans h.acked, h'.sent.trans h.sent, fun hmax => ?_⟩
  obtain ⟨hle, hmax'⟩ := h.grows hmax
  obtain ⟨hle', hmax''⟩ := h'.grows hmax'
  exact ⟨hle.trans hle', hmax''⟩

theorem Recoloured.refl (p : (ℕ × ℕ) × PredCell A) : Recoloured p p := ⟨rfl, rfl, rfl, rfl⟩

/-- A colour after another. -/
theorem Recoloured.trans {p q r : (ℕ × ℕ) × PredCell A} (h : Recoloured p q)
    (h' : Recoloured q r) : Recoloured p r :=
  ⟨h.place.trans h'.place, h.text.trans h'.text, h.keys.trans h'.keys, h.epoch.trans h'.epoch⟩

theorem Keeps.refl (e : Engine A) : e.Keeps e := ⟨Steady.refl e, fun p hp => ⟨p, hp, .refl p⟩⟩

/-- What keeps the cells twice. -/
theorem Keeps.trans (h : e.Keeps e') (h' : e'.Keeps e'') : e.Keeps e'' := by
  refine ⟨h.toSteady.trans h'.toSteady, fun p hp => ?_⟩
  obtain ⟨q, hq, hsame⟩ := h'.old p hp
  obtain ⟨r, hr, hsame'⟩ := h.old q hq
  exact ⟨r, hr, hsame.trans hsame'⟩

/-- What places nothing. -/
theorem Keeps.places (h : e.Keeps e') (k : ℕ) : e.Places k e' :=
  ⟨h.toSteady, fun p hp => .inl (h.old p hp)⟩

/-- What is placed, and then kept. -/
theorem Places.keeps (h : e.Places k e') (h' : e'.Keeps e'') : e.Places k e'' := by
  refine ⟨h.toSteady.trans h'.toSteady, fun p hp => ?_⟩
  obtain ⟨q, hq, hsame⟩ := h'.old p hp
  rw [hsame.keys, hsame.epoch]
  refine (h.new q hq).imp_left ?_
  rintro ⟨r, hr, hsame'⟩
  exact ⟨r, hr, hsame.trans hsame'⟩

theorem line_keeps (e : Engine A) (line : Line) : e.Keeps { e with line := line } :=
  ⟨⟨rfl, rfl, rfl, rfl, rfl, fun h => ⟨le_rfl, h⟩⟩, fun p hp => ⟨p, hp, .refl p⟩⟩

/-- Cells that are recoloured ones of before. -/
theorem cells_keeps {cells : Dict (ℕ × ℕ) (PredCell A)}
    (h : ∀ p ∈ cells, ∃ q ∈ e.cells, Recoloured p q) : e.Keeps { e with cells := cells } :=
  ⟨⟨rfl, rfl, rfl, rfl, rfl, fun h => ⟨le_rfl, h⟩⟩, h⟩

theorem cursor_keeps (e : Engine A) (cursor : Option Guessed) :
    e.Keeps { e with cursor := cursor } :=
  ⟨⟨rfl, rfl, rfl, rfl, rfl, fun h => ⟨le_rfl, h⟩⟩, fun p hp => ⟨p, hp, .refl p⟩⟩

/-- A new epoch keeps the cells. -/
theorem becomeTentative_keeps (e : Engine A) : e.Keeps e.becomeTentative := by
  refine ⟨⟨rfl, rfl, rfl, rfl, rfl, fun h => ?_⟩, fun p hp => ⟨p, hp, .refl p⟩⟩
  simp only [becomeTentative, saturatingAdd]
  omega

/-- A line discarded keeps the others. -/
theorem discardLine_keeps (e : Engine A) : e.Keeps e.discardLine := by
  unfold discardLine
  split
  · exact line_keeps _ _
  · exact .refl e

theorem moveCursor_keeps (e : Engine A) (at_ : ℕ × ℕ) : e.Keeps (e.moveCursor at_) :=
  cursor_keeps e _

theorem newline_keeps (e : Engine A) (ctx : Context A) : e.Keeps (e.newline ctx) :=
  moveCursor_keeps e _

theorem unmodelled_keeps (e : Engine A) : e.Keeps e.unmodelled :=
  (becomeTentative_keeps e).trans (line_keeps _ _)

/-- A reset keeps none. -/
theorem reset_keeps (e : Engine A) : e.Keeps e.reset := by
  have hclear : e.Keeps { e with cells := [] } := cells_keeps (by simp)
  exact hclear.trans <| (cursor_keeps _ none).trans <| (discardLine_keeps _).trans <|
    becomeTentative_keeps _

@[simp] theorem reset_cells (e : Engine A) : e.reset.cells = [] := by
  simp only [reset, becomeTentative, discardLine]
  split <;> rfl

@[simp] theorem reset_cursor (e : Engine A) : e.reset.cursor = none := by
  simp only [reset, becomeTentative, discardLine]
  split <;> rfl

theorem beginLine_keeps (e : Engine A) (screen : Screen A) : e.Keeps (e.beginLine screen) := by
  unfold beginLine
  split
  · split
    · exact line_keeps _ _
    · exact line_keeps _ _
  · exact .refl e

/-- A key that is not predicted places nothing. -/
theorem unpredicted_keeps (e : Engine A) (press : KeyPress) : e.Keeps (e.unpredicted press) := by
  unfold unpredicted
  split
  · exact (becomeTentative_keeps e).trans (line_keeps _ _)
  · split
    · exact becomeTentative_keeps e
    · exact (becomeTentative_keeps e).trans (line_keeps _ _)

/-! ### Grading -/

/-- Grading the cursor places nothing. -/
theorem gradeCursor_keeps (e : Engine A) (screen : Screen A) : e.Keeps (e.gradeCursor screen) := by
  unfold gradeCursor
  split
  · exact .refl e
  · split
    · exact reset_keeps e
    · exact .refl e
    · exact cursor_keeps e none
    · exact cursor_keeps e none

/-- Killed epochs leave the others. -/
theorem killEpochs_keeps (e : Engine A) (screen : Screen A) (epochs : List ℕ) :
    e.Keeps (e.killEpochs screen epochs) := by
  unfold killEpochs
  split
  · exact .refl e
  · refine (cells_keeps ?_).trans <| (discardLine_keeps _).trans <|
      (becomeTentative_keeps _).trans (moveCursor_keeps _ _)
    intro p hp
    exact ⟨p, (List.mem_filter.mp hp).1, .refl p⟩

/-- A colour leaves each cell in its place. -/
theorem mem_restyle {cells : Dict (ℕ × ℕ) (PredCell A)} {at_ : ℕ × ℕ} {attributes : A}
    {p : (ℕ × ℕ) × PredCell A} (h : p ∈ restyle cells at_ attributes) :
    ∃ q ∈ cells, Recoloured p q := by
  obtain ⟨q, hq, rfl⟩ := List.mem_map.mp h
  refine ⟨q, hq, ?_⟩
  split
  · exact ⟨rfl, by cases q.2.guess <;> simp, rfl, rfl⟩
  · exact .refl q

/-- Steps that only recolour leave what is there, recoloured. -/
theorem mem_foldl {α : Type} {f : Dict (ℕ × ℕ) (PredCell A) → α → Dict (ℕ × ℕ) (PredCell A)}
    (hf : ∀ cells a, ∀ q ∈ f cells a, ∃ q' ∈ cells, Recoloured q q') (l : List α)
    {cells : Dict (ℕ × ℕ) (PredCell A)} {p : (ℕ × ℕ) × PredCell A} (hp : p ∈ l.foldl f cells) :
    ∃ q ∈ cells, Recoloured p q := by
  induction l generalizing cells with
  | nil => exact ⟨p, hp, .refl p⟩
  | cons a l ih =>
    obtain ⟨q, hq, hsame⟩ := ih hp
    obtain ⟨q', hq', hsame'⟩ := hf cells a q hq
    exact ⟨q', hq', hsame.trans hsame'⟩

/-- Recolouring keeps what is left of the predictions. -/
theorem mem_remaining {screen : Screen A} {p : (ℕ × ℕ) × PredCell A}
    (h : p ∈ e.remaining screen) : ∃ q ∈ e.cells, Recoloured p q := by
  unfold remaining at h
  refine (mem_foldl ?_ _ h).imp fun q hq => ⟨(List.mem_filter.mp hq.1).1, hq.2⟩
  intro cells r q hq
  split at hq
  · exact mem_restyle hq
  · exact ⟨q, hq, .refl q⟩

/-- A cull confirms what it proves, and predicts nothing. -/
theorem cull_keeps (e : Engine A) (screen : Screen A) :
    Keeps { e with confirmedEpoch := (e.proves screen).foldl max e.confirmedEpoch }
      (e.cull screen) := by
  have hsize : ∀ e : Engine A, e.Keeps { e with lastSize := some screen.size } := fun e =>
    ⟨⟨rfl, rfl, rfl, rfl, rfl, fun h => ⟨le_rfl, h⟩⟩, fun p hp => ⟨p, hp, .refl p⟩⟩
  have hkills : ({ e with lastSize := some screen.size }).killsAll screen = e.killsAll screen := rfl
  unfold cull
  simp only [hkills]
  by_cases hresized : e.lastSize.any (· ≠ screen.size) = true
  · rw [if_pos hresized, proves, hresized, Bool.true_or, if_pos rfl]
    exact (hsize e).trans (reset_keeps _)
  · rw [if_neg hresized, proves]
    simp only [hresized, Bool.false_or]
    split
    · exact (hsize e).trans (reset_keeps _)
    · refine (hsize _).trans <| (cells_keeps ?_).trans <| (killEpochs_keeps _ _ _).trans <|
        gradeCursor_keeps _ _
      exact fun p hp => mem_remaining hp

/-- Making ready places nothing. -/
theorem readies_keeps (e : Engine A) (press : KeyPress) (screen : Screen A) :
    Keeps { e with confirmedEpoch := (e.proves screen).foldl max e.confirmedEpoch }
      (e.readies press screen) := by
  unfold readies
  split
  · exact (cull_keeps e screen).trans (beginLine_keeps _ _)
  · exact cull_keeps e screen

/-- Nor does what is no key. -/
theorem newUserOther_keeps (e : Engine A) (screen : Screen A) :
    Keeps { e with confirmedEpoch := (e.proves screen).foldl max e.confirmedEpoch }
      (e.newUserOther screen) :=
  (cull_keeps e screen).trans (unmodelled_keeps _)

/-! ### Keys -/

/-- A place's keys are its cell's. -/
theorem mem_keysAt {row col k' : ℕ} (h : k' ∈ e.keysAt row col) :
    ∃ q ∈ e.cells, k' ∈ q.2.keys := by
  unfold keysAt at h
  cases hlookup : e.cells.lookup (row, col) with
  | none => simp [hlookup] at h
  | some p =>
    obtain ⟨l₁, l₂, heq, -⟩ := List.lookup_eq_some_iff.mp hlookup
    exact ⟨((row, col), p), by simp [heq], by simpa [hlookup] using h⟩

/-- A key joins the glyph at a place. -/
theorem joins_keysAt (e : Engine A) (row col k : ℕ) : Joins k e (e.keysAt row col ++ [k]) := by
  refine ⟨by simp, fun k' hk' => ?_⟩
  rcases List.mem_append.mp hk' with hold | hnew
  · exact .inr (mem_keysAt hold)
  · exact .inl (List.mem_singleton.mp hnew)

/-- What is placed shows key `k` and what it joins. -/
theorem Places.place (h : e.Places k e') (hepoch : e'.predictionEpoch = e.predictionEpoch)
    {keys : List ℕ} (hkeys : Joins k e keys) (ctx : Context A) (at_ : ℕ × ℕ)
    (guess : Option (Cell A)) (typed : Bool) : e.Places k (e'.place ctx at_ guess typed keys) := by
  refine ⟨⟨h.confirmed, h.tty, h.held, h.acked, h.sent, h.grows⟩, fun p hp => ?_⟩
  rcases Dict.mem_insert hp with rfl | hp
  · exact .inr ⟨hepoch, hkeys⟩
  · exact h.new p hp

/-- A glyph is placed with the keys that made it. -/
theorem placeGlyph_places (ctx : Context A) (row col : ℕ) (cell : Cell A) {keys : List ℕ}
    (hkeys : Joins k e keys) : e.Places k (e.placeGlyph ctx row col cell keys) := by
  have hplaced := ((Keeps.refl e).places k).place rfl hkeys ctx (row, col) (some cell) true
  unfold placeGlyph
  split
  · exact hplaced.place rfl hkeys _ _ _ _
  · exact hplaced

variable (g : Graphemes) (ctx : Context A)

/-- A new character is the key's. -/
theorem predictNew_places [Inhabited A] (e : Engine A) (row col : ℕ) (c : Char) (k : ℕ) :
    e.Places k (e.predictNew g ctx row col c k) := by
  unfold predictNew
  dsimp only
  split
  · exact (unmodelled_keeps e).places k
  · split
    · exact (unmodelled_keeps e).places k
    · have hplaced := placeGlyph_places (e := e) (k := k) ctx row col
        ⟨String.singleton c, e.neighbour ctx row col,
          if min (g.width (String.singleton c)) u16Max = 2 then .wide else .narrow⟩
        (by simp [Joins] : Joins k e [k])
      split
      · exact hplaced.keeps (moveCursor_keeps _ _)
      · exact hplaced.keeps ((becomeTentative_keeps _).trans (newline_keeps _ ctx))

/-- So is a glyph. -/
theorem predictGlyph_places [Inhabited A] (e : Engine A) (c : Char) (k : ℕ) :
    (e.trustKernel ctx).Places k (e.predictGlyph g ctx c k) := by
  unfold predictGlyph
  dsimp only
  split
  · split
    · exact (unmodelled_keeps _).places k
    · exact (placeGlyph_places ctx _ _ _ (joins_keysAt _ _ _ k)).keeps (moveCursor_keeps _ _)
  · exact predictNew_places g ctx _ _ _ c k

/-- So is what a backspace leaves. -/
theorem predictBackspace_places (e : Engine A) (k : ℕ) :
    e.Places k (e.predictBackspace ctx k) := by
  unfold predictBackspace
  dsimp only
  split
  · split
    · exact (((Keeps.refl e).places k).place rfl (joins_keysAt e _ _ k) _ _ _ _).keeps
        (moveCursor_keeps _ _)
    · exact (unmodelled_keeps e).places k
  · exact (unmodelled_keeps e).places k

/-- An arrow places nothing. -/
theorem predictArrow_keeps (e : Engine A) (right : Bool) : e.Keeps (e.predictArrow ctx right) := by
  unfold predictArrow
  dsimp only
  split
  · split
    · exact moveCursor_keeps e _
    · exact unmodelled_keeps e
  · split
    · exact moveCursor_keeps e _
    · exact unmodelled_keeps e

theorem predictEnter_keeps (e : Engine A) : e.Keeps (e.predictEnter ctx) :=
  (becomeTentative_keeps e).trans <| (newline_keeps _ ctx).trans (line_keeps _ _)

/-- What may be printed is a plain character. -/
theorem printable_eq_some {press : KeyPress} {c : Char} (h : printable press = some c) :
    press = ⟨.char c, false, false⟩ ∧ Stream.isControl c = false := by
  unfold printable at h
  split at h
  · next c' hkey halt hctrl =>
    obtain ⟨key, alt, ctrl⟩ := press
    cases hkey
    cases halt
    cases hctrl
    by_cases hcontrol : Stream.isControl c' = true
    · simp [hcontrol] at h
    · simp only [hcontrol] at h
      cases h
      exact ⟨rfl, by simpa using hcontrol⟩
  · cases h

/-- What a key does is one of these. -/
theorem predictKey_rule [Inhabited A] {press : KeyPress} {P : Engine A → Prop}
    (hother : P e.unmodelled) (hback : P (e.predictBackspace ctx k))
    (henter : P (e.predictEnter ctx)) (harrow : ∀ right, P (e.predictArrow ctx right))
    (hglyph : ∀ c, printable press = some c → P (e.predictGlyph g ctx c k)) :
    P (e.predictKey g ctx press k) := by
  obtain ⟨key, alt, ctrl⟩ := press
  cases key with
  | char c =>
    rcases alt with _ | _ <;> rcases ctrl with _ | _
    · show P (if Stream.isControl c then e.unmodelled else e.predictGlyph g ctx c k)
      split
      · exact hother
      · next hcontrol => exact hglyph c (by simp [printable, hcontrol])
    · show P (if c.toLower = 'h' then e.predictBackspace ctx k
        else if c.toLower = 'j' ∨ c.toLower = 'm' then e.predictEnter ctx else e.unmodelled)
      split_ifs
      · exact hback
      · exact henter
      · exact hother
    · exact hother
    · exact hother
  | backspace =>
    rcases alt with _ | _ <;> rcases ctrl with _ | _ <;> first | exact hback | exact hother
  | enter =>
    rcases alt with _ | _ <;> rcases ctrl with _ | _ <;> first | exact henter | exact hother
  | arrow d =>
    have hechoes : ∀ right,
        P (if ctx.tty.echo then e.unmodelled else e.predictArrow ctx right) := by
      intro right
      split
      · exact hother
      · exact harrow right
    cases d <;> rcases alt with _ | _ <;> rcases ctrl with _ | _ <;>
      first | exact hother | exact hechoes true | exact hechoes false
  | other n => exact hother

/-- A key that prints nothing is predicted in the current epoch. -/
theorem predictKey_unprinted [Inhabited A] (e : Engine A) {press : KeyPress}
    (hprints : printable press = none) (k : ℕ) : Places k e (e.predictKey g ctx press k) := by
  refine predictKey_rule g ctx ((unmodelled_keeps e).places k) (predictBackspace_places ctx e k)
    ((predictEnter_keeps ctx e).places k) (fun right => (predictArrow_keeps ctx e right).places k)
    fun c hprinted => ?_
  rw [hprints] at hprinted
  cases hprinted

/-- A key is predicted in the current epoch, with its own glyph and those it joins. Only one that
prints trusts the kernel's echo. -/
theorem predictKey_places [Inhabited A] (e : Engine A) (press : KeyPress) (k : ℕ) :
    Places k (if (printable press).isSome then e.trustKernel ctx else e)
      (e.predictKey g ctx press k) := by
  cases hprints : printable press with
  | some c =>
    obtain ⟨rfl, hcontrol⟩ := printable_eq_some hprints
    simp only [predictKey, hcontrol, Option.isSome_some, if_true]
    exact predictGlyph_places g ctx e c k
  | none =>
    simp only [Option.isSome_none, Bool.false_eq_true, if_false]
    exact predictKey_unprinted g ctx e hprints k

/-- What a key that is predicted is predicted against. -/
theorem predicts_eq_some {ctx : Context A} {press : KeyPress} {screen : Screen A}
    (h : e.predicts press screen = some ctx) :
    (e.readies press screen).holding = false ∧
      (e.readies press screen).context screen = some ctx := by
  unfold predicts at h
  dsimp only at h
  split at h
  · cases h
  · next hholding => exact ⟨by simpa using hholding, h⟩

/-- A key that is not predicted. -/
theorem newUserKey_unpredicted [Inhabited A] {press : KeyPress} {screen : Screen A}
    (h : e.predicts press screen = none) (k : ℕ) :
    e.newUserKey g press screen k = (e.readies press screen).unpredicted press := by
  unfold predicts at h
  unfold newUserKey
  dsimp only at h ⊢
  split
  · rfl
  · next ctx hctx =>
    rw [if_pos]
    by_contra hholding
    rw [if_neg hholding, hctx] at h
    cases h

/-- A key that is. -/
theorem newUserKey_predicted [Inhabited A] {ctx : Context A} {press : KeyPress}
    {screen : Screen A} (h : e.predicts press screen = some ctx) (k : ℕ) :
    e.newUserKey g press screen k =
      ({ e.readies press screen with heldThrough := none }).predictKey g ctx press k := by
  obtain ⟨hholding, hctx⟩ := predicts_eq_some h
  simp only [newUserKey, hctx, hholding, Bool.false_eq_true, if_false]

/-- A key that is not predicted leaves what is predicted as it is. -/
theorem newUserKey_keeps [Inhabited A] {press : KeyPress} {screen : Screen A}
    (h : e.predicts press screen = none) (k : ℕ) :
    (e.readies press screen).Keeps (e.newUserKey g press screen k) := by
  rw [newUserKey_unpredicted g h k]
  exact unpredicted_keeps _ press

/-- A key places what is its own. -/
theorem newUserKey_places [Inhabited A] {ctx : Context A} {press : KeyPress} {screen : Screen A}
    (h : e.predicts press screen = some ctx) (k : ℕ) :
    Places k
      (if (printable press).isSome then
        ({ e.readies press screen with heldThrough := none }).trustKernel ctx
      else { e.readies press screen with heldThrough := none })
      (e.newUserKey g press screen k) := by
  rw [newUserKey_predicted g h k]
  exact predictKey_places g ctx _ press k

/-- Nothing is predicted with the modes unknown, at a password prompt or on the alternate
screen. -/
theorem context_secret {screen : Screen A}
    (h : e.tty.all password = true ∨ screen.isAlternate = true) : e.context screen = none := by
  unfold context
  cases htty : e.tty with
  | none => rfl
  | some tty =>
    rcases h with hpassword | halternate
    · simp_all
    · simp [halternate]

/-! ### Modes, and the overlay -/

/-- Setting the modes predicts nothing, and confirms what carried trust does. -/
theorem setTty_keeps (e : Engine A) (tty : Option TtyModes) :
    Keeps { e with
        tty := tty
        confirmedEpoch :=
          if e.gives tty then max e.confirmedEpoch e.predictionEpoch else e.confirmedEpoch }
      (e.setTty tty) := by
  have huse : ∀ e : Engine A, e.Keeps { e with carried := false } := fun e =>
    ⟨⟨rfl, rfl, rfl, rfl, rfl, fun h => ⟨le_rfl, h⟩⟩, fun p hp => ⟨p, hp, .refl p⟩⟩
  cases tty with
  | none => exact .refl _
  | some modes =>
    unfold setTty gives
    dsimp only
    by_cases hpassword : password modes = true
    · by_cases hpending : (!e.cells.isEmpty || e.cursor.isSome) = true
      · simp only [hpassword, hpending, if_true, Bool.not_true, Option.any_some, Bool.false_and,
          Bool.false_eq_true, if_false]
        exact (reset_keeps _).trans (huse _)
      · simp only [hpassword, hpending, if_true, Bool.not_true, Option.any_some, Bool.false_and,
          Bool.false_eq_true, if_false]
        exact huse _
    · by_cases hcarried : e.carried = true
      · simp only [hpassword, hcarried, if_true, Option.any_some, Bool.not_false, Bool.and_self,
          Bool.false_eq_true, if_false]
        exact huse _
      · simp only [hpassword, hcarried, Option.any_some, Bool.and_false, Bool.false_eq_true,
          if_false]
        exact .refl _

/-- At a password prompt nothing is left. -/
theorem setTty_password {modes : TtyModes} (h : password modes = true) (e : Engine A) :
    (e.setTty (some modes)).cells = [] ∧ (e.setTty (some modes)).cursor = none := by
  unfold setTty
  dsimp only
  by_cases hpending : (!e.cells.isEmpty || e.cursor.isSome) = true
  · simp only [h, hpending, if_true]
    exact ⟨reset_cells _, reset_cursor _⟩
  · simp only [h, hpending, if_true, Bool.false_eq_true, if_false]
    simpa using hpending

/-- What the overlay draws: the glyphs guessed in confirmed epochs, away from password prompts. -/
theorem overlay_cells {at_ : ℕ × ℕ} {cell : Cell A} :
    (at_, cell) ∈ e.overlay.cells ↔ e.tty.any password = false ∧
      ∃ p ∈ e.cells, p.1 = at_ ∧ e.shown p.2 = true ∧ p.2.guess = some cell := by
  unfold overlay
  split
  · next hpassword => simp [hpassword]
  · next hpassword =>
    rw [List.mem_filterMap]
    constructor
    · rintro ⟨p, hp, hdraw⟩
      split at hdraw
      · next hshown =>
        obtain ⟨cell', hguess, heq⟩ := Option.map_eq_some_iff.mp hdraw
        cases heq
        exact ⟨by simpa using hpassword, p, hp, rfl, hshown, hguess⟩
      · cases hdraw
    · rintro ⟨-, p, hp, rfl, hshown, hguess⟩
      exact ⟨p, hp, by simp [hshown, hguess]⟩

/-- A key's glyph is drawn when the overlay has a glyph typed with it. -/
theorem draws_iff {k : ℕ} : e.draws k ↔ ∃ p ∈ e.cells, k ∈ p.2.keys ∧ e.shown p.2 = true ∧
    ∃ cell, p.2.guess = some cell ∧ (p.1, cell) ∈ e.overlay.cells := by
  constructor
  · rintro ⟨hpassword, p, hp, hk, hshown, hguess⟩
    obtain ⟨cell, hcell⟩ := Option.isSome_iff_exists.mp hguess
    exact ⟨p, hp, hk, hshown, cell, hcell,
      overlay_cells.mpr ⟨hpassword, p, hp, rfl, hshown, hcell⟩⟩
  · rintro ⟨p, hp, hk, hshown, cell, hcell, hoverlay⟩
    exact ⟨(overlay_cells.mp hoverlay).1, p, hp, hk, hshown, by simp [hcell]⟩

end Engine

namespace Typing

variable {A : Type}

/-- A fresh engine, or one with trust carried. -/
def init (carried : Bool) : Typing A := ⟨{ Engine.new with carried := carried }, 0, [], []⟩

/-- A secret may be typed: at a password prompt, with the modes unknown, on the alternate screen,
or while a hold is not yet reflected. -/
def secret (s : Typing A) (screen : Screen A) : Bool :=
  s.engine.tty.all password || screen.isAlternate || !s.holds.isEmpty

/-- What is known of a key typed: it was predicted, and how. -/
def typedEvents (s : Typing A) (press : KeyPress) (screen : Screen A) : List Event :=
  let e := s.engine.readies press screen
  match s.engine.predicts press screen with
  | none => []
  | some ctx => [.typed s.keys ctx.tty.echo e.predictionEpoch e.confirmedEpoch]

def step [Inhabited A] (g : Graphemes) (s : Typing A) : Call A → Option (Typing A)
  | .sent n =>
    if n < s.engine.localFrameSent then none
    else some { s with engine := { s.engine with localFrameSent := n } }
  | .acked n =>
    some { s with
      engine := { s.engine with lateAcked := n }
      holds := s.holds.filter (n < ·) }
  | .key press screen =>
    some { s with
      engine := s.engine.newUserKey g press screen s.keys
      keys := s.keys + 1
      log := s.log ++ (s.engine.proves screen).map .correct ++ s.typedEvents press screen }
  | .other screen =>
    some { s with
      engine := s.engine.newUserOther screen
      log := s.log ++ (s.engine.proves screen).map .correct }
  | .hold =>
    some { s with
      engine := s.engine.hold
      holds := if s.engine.lateAcked < s.engine.nextFrame then s.engine.nextFrame :: s.holds
        else s.holds }
  | .cull screen =>
    some { s with
      engine := s.engine.cull screen
      log := s.log ++ (s.engine.proves screen).map .correct }
  | .tty tty =>
    some { s with
      engine := s.engine.setTty tty
      log := s.log ++ if s.engine.gives tty then [.given s.engine.predictionEpoch] else [] }
  | .reset => some { s with engine := s.engine.reset }
  | .reattach => some { s with engine := s.engine.reattached, holds := [] }

end Typing

/-! ### Runs by hand -/

def narrow : Graphemes := ⟨String.length, fun _ _ => false⟩

/-- A screen with `text` on its first row, and the cursor after it. -/
def shows (text : String) : Screen Unit where
  size := ⟨24, 80⟩
  cell row col :=
    if row < 24 ∧ col < 80 then
      some ⟨if row = 0 then text.toList[col]?.elim "" String.singleton else "", (), .narrow⟩
    else none
  cursor := (0, text.length)
  isAlternate := false

/-- The character `c` typed, with the screen as yet blank. -/
def types (c : Char) : Call Unit := .key ⟨.char c, false, false⟩ (shows "")

end Koh.Predict
