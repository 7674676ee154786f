import Koh.Server.Session

/-!
# Where a client begins

What a session publishes to a client from its `Start` on is what the session's filter
passes of the output read after the emulator state that the start's redraw was made from.

## Main definitions

- `told`: the output that events carry
- `Same`: nothing is read, and nothing told is lost or changed
- `Begun`: what holds of the starts in every run

## Main results

- `Session.begins_exactly`: no output is lost or shown twice where a client begins
-/

namespace Koh.Server

open Koh.Stream Koh.Lib

def Event.tokens : Event → List Token
  | .show shown => shown.tokens
  | _ => []

/-- The output that events carry, in order. -/
def told (events : List (ℕ × Event)) : List Token := events.flatMap fun e => e.2.tokens

@[simp] theorem told_nil : told [] = [] := rfl

/-- What is told by two lists of events. -/
@[simp] theorem told_append (l₁ l₂ : List (ℕ × Event)) : told (l₁ ++ l₂) = told l₁ ++ told l₂ :=
  List.flatMap_append

/-- What a session's filter makes of the chunks read from the `n`th on, having been fed
those before. -/
def feedFrom (policy : Policy) (read : List Bytes) (n : ℕ) : Fed :=
  ((Filter.new policy).feedAll (read.take n)).filter.feedAll (read.drop n)

theorem feedFrom_filter (policy : Policy) (read : List Bytes) (n : ℕ) :
    (feedFrom policy read n).filter = ((Filter.new policy).feedAll read).filter := by
  conv_rhs => rw [← List.take_append_drop n read, Filter.feedAll_append]
  rfl

/-- One chunk more. -/
theorem feedFrom_snoc {policy : Policy} {read : List Bytes} {n : ℕ} (hn : n ≤ read.length)
    (chunk : Bytes) :
    feedFrom policy (read ++ [chunk]) n = (feedFrom policy read n).andThen (·.feed chunk) := by
  rw [feedFrom, List.take_append_of_le_length hn, List.drop_append_of_le_length hn,
    Filter.feedAll_snoc]
  rfl

/-- Nothing is fed from the end on. -/
theorem feedFrom_length (policy : Policy) (read : List Bytes) :
    (feedFrom policy read read.length).pieces = [] := by
  rw [feedFrom, List.drop_length]
  rfl

/-- An emulator keeps all it processes: `view` sees the chunks in its states. -/
structure Emulator.Keeps {E K C M : Type} (vt : Emulator E K C M) (view : E → List Bytes) : Prop where
  process : ∀ e chunk, view (vt.process e chunk) = view e ++ [chunk]
  takeHostReplies : ∀ e, view (vt.takeHostReplies e).2 = view e
  setColours : ∀ e colours, view (vt.setColours e colours).2 = view e
  resize : ∀ e size e', vt.resize e size = some e' → view e' = view e

namespace Session

variable {E K C M : Type} {vt : Emulator E K C M} {s s' s'' : Session E K C}

/-- What the receiver is given that gets the events from the `n`th on, with what is held. -/
def heard (s : Session E K C) (n : ℕ) : List Token := told (s.events.drop n) ++ tokens s.held

/-- Nothing is read, and nothing that was told or held is lost or changed. -/
structure Same (vt : Emulator E K C M) (s s' : Session E K C) : Prop where
  filter : s'.filter = s.filter
  read : s'.read = s.read
  starts : s'.starts = s.starts
  length : s.events.length ≤ s'.events.length
  heard : ∀ n ≤ s.events.length, s'.heard n = s.heard n
  view : ∀ view, vt.Keeps view → view s'.emu = view s.emu

namespace Same

theorem refl (s : Session E K C) : Same vt s s :=
  ⟨rfl, rfl, rfl, Nat.le_refl _, fun _ _ => rfl, fun _ _ => rfl⟩

/-- Two changes that tell no output. -/
theorem trans (h : Same vt s s') (h' : Same vt s' s'') : Same vt s s'' where
  filter := h'.filter.trans h.filter
  read := h'.read.trans h.read
  starts := h'.starts.trans h.starts
  length := h.length.trans h'.length
  heard n hn := (h'.heard n (hn.trans h.length)).trans (h.heard n hn)
  view view hview := (h'.view view hview).trans (h.view view hview)

/-- Where nothing is told, the rest may change. -/
theorem of_eq (hfilter : s'.filter = s.filter) (hread : s'.read = s.read)
    (hstarts : s'.starts = s.starts) (hevents : s'.events = s.events) (hheld : s'.held = s.held)
    (hview : ∀ view, vt.Keeps view → view s'.emu = view s.emu) : Same vt s s' where
  filter := hfilter
  read := hread
  starts := hstarts
  length := by rw [hevents]
  heard n _ := by simp only [Session.heard, hevents, hheld]
  view := hview

/-- An event that carries no output is told. -/
theorem publish (s : Session E K C) {event : Event} (h : event.tokens = []) :
    Same vt s (s.publish event) where
  filter := rfl
  read := rfl
  starts := rfl
  length := by simp [Session.publish]
  heard n hn := by
    simp only [Session.heard, Session.publish, List.drop_append_of_le_length hn, told_append]
    simp [told, h]
  view _ _ := rfl

/-- And so after the rest changed. -/
theorem told (h : Same vt s s') {shown : Shown} (hshown : shown.tokens = []) :
    Same vt s (s'.show_ shown) :=
  h.trans (.publish s' hshown)

end Same

/-! ### What tells no output -/

/-- The modes of the terminal tell nothing. -/
theorem refreshTty_same (s : Session E K C) (modes : Option TtyModes) :
    Same vt s (s.refreshTty modes) := by
  unfold refreshTty
  split
  · split
    · exact .refl s
    · apply Same.told
      · exact .of_eq rfl rfl rfl rfl rfl fun _ _ => rfl
      · rfl
  · exact .refl s

/-- Nor does a probe. -/
theorem probe_same (s : Session E K C) (now : ℕ) (why : Probe)
    (activity : Option ℕ → Bool → Bool → Activity) : Same vt s (s.probe vt now why activity) := by
  unfold probe
  dsimp only
  split
  · apply Same.told
    · exact .of_eq rfl rfl rfl rfl rfl fun _ _ => rfl
    · rfl
  · exact .of_eq rfl rfl rfl rfl rfl fun _ _ => rfl

variable (vt) in
/-- A title is no output. -/
theorem tellTitle_same (s : Session E K C) :
    Same vt s (s.tellTitle vt) ∧ (s.tellTitle vt).held = s.held := by
  unfold tellTitle
  dsimp only
  split
  · exact ⟨.refl s, rfl⟩
  · constructor
    · apply Same.told
      · exact .of_eq rfl rfl rfl rfl rfl fun _ _ => rfl
      · rfl
    · rfl

variable (vt) in
/-- Nor is the top row. -/
theorem tellTop_same (s : Session E K C) :
    Same vt s (s.tellTop vt) ∧ (s.tellTop vt).held = s.held := by
  unfold tellTop
  dsimp only
  split
  · exact ⟨.refl s, rfl⟩
  · split
    · constructor
      · apply Same.trans _ (.publish _ rfl)
        exact .of_eq rfl rfl rfl rfl rfl fun _ _ => rfl
      · rfl
    · exact ⟨.of_eq rfl rfl rfl rfl rfl fun _ _ => rfl, rfl⟩

variable (vt) in
/-- Nor is a bell. -/
theorem tellBells_same (s : Session E K C) :
    Same vt s (s.tellBells vt) ∧ (s.tellBells vt).held = s.held := by
  unfold tellBells
  dsimp only
  split
  · exact ⟨.refl s, rfl⟩
  · constructor
    · apply Same.told
      · exact .of_eq rfl rfl rfl rfl rfl fun _ _ => rfl
      · rfl
    · rfl

/-! ### What is held is told -/

/-- Messages are told, one after another. -/
theorem foldl_show_events (held : List Shown) (s : Session E K C) :
    held.foldl show_ s = { s with
      events := s.events ++ held.map fun shown => (s.attaches, .show shown) } := by
  induction held generalizing s with
  | nil => simp
  | cons shown held ih => rw [List.foldl_cons, ih]; simp [show_, Session.publish]

/-- What is held is told as it is. -/
theorem told_show (held : List Shown) (newest : ℕ) :
    Server.told (held.map fun shown => (newest, .show shown)) = tokens held := by
  rw [Server.told, List.flatMap_map]
  rfl

variable (vt) in
/-- What was held is told. -/
theorem tellHeld_same (s : Session E K C) : Same vt s s.tellHeld ∧ s.tellHeld.held = [] := by
  unfold tellHeld
  rw [foldl_show_events]
  refine ⟨⟨rfl, rfl, rfl, by simp, fun n hn => ?_, fun _ _ => rfl⟩, rfl⟩
  simp only [heard, List.drop_append_of_le_length hn, told_append, told_show, tokens_coalesce,
    tokens_nil, List.append_nil]

variable (vt) in
/-- What is held is told, and nothing is held. -/
theorem release_same (s : Session E K C) :
    Same vt s (s.release vt) ∧ (s.release vt).held = [] := by
  obtain ⟨htitle, -⟩ := tellTitle_same vt s
  obtain ⟨hheld, hnone⟩ := tellHeld_same vt (s.tellTitle vt)
  obtain ⟨htop, hnone₁⟩ := tellTop_same vt (s.tellTitle vt).tellHeld
  obtain ⟨hbells, hnone₂⟩ := tellBells_same vt ((s.tellTitle vt).tellHeld.tellTop vt)
  exact ⟨((htitle.trans hheld).trans htop).trans hbells, hnone₂.trans (hnone₁.trans hnone)⟩

/-! ### What is read is held -/

/-- What holds of the filter, the emulator and the starts: the receiver of each is given,
with what is held, what the filter passes of what was read since. -/
structure Begun (vt : Emulator E K C M) (policy : Policy) (emu : E) (s : Session E K C) : Prop where
  filter : s.filter = ((Filter.new policy).feedAll s.read).filter
  view : ∀ view, vt.Keeps view → view s.emu = view emu ++ s.read
  starts : ∀ b ∈ s.starts, b.events ≤ s.events.length ∧ b.read ≤ s.read.length ∧
    s.heard b.events = passed (feedFrom policy s.read b.read).pieces ∧
    (∃ history, tokens b.shown = passed (vt.redraw b.emu (vt.title b.emu) history)) ∧
    ∀ view, vt.Keeps view → view b.emu = view emu ++ s.read.take b.read

/-- What is held waits for a read of the PTY's modes that is due. -/
def Waits (s : Session E K C) : Prop := s.held = [] ∨ s.settle.isSome = true ∧ s.exited = none

variable {policy : Policy} {emu : E}

/-- A start's output is the redraw. -/
theorem start_tokens (s : Session E K C) (history : ℕ) :
    tokens (s.start vt history).shown = passed (vt.redraw s.emu (vt.title s.emu) history) := by
  simp only [start, tokens_append, tokens_redrawn]
  cases s.tty <;> cases s.reports.last <;> cases s.exited <;> simp [Shown.tokens]

namespace Begun

/-- What tells no output leaves a client begun. -/
theorem same (h : Begun vt policy emu s) (hs : Same vt s s') : Begun vt policy emu s' where
  filter := by rw [hs.filter, hs.read, h.filter]
  view view hview := by rw [hs.view view hview, hs.read, h.view view hview]
  starts b hb := by
    rw [hs.starts] at hb
    obtain ⟨hevents, hread, hheard, hshown, hview⟩ := h.starts b hb
    rw [hs.read]
    exact ⟨hevents.trans hs.length, hread, (hs.heard _ hevents).trans hheard, hshown, hview⟩

/-- A chunk that is read is held, as far as the filter passes it. -/
theorem output (h : Begun vt policy emu s) (chunk : Bytes) :
    Begun vt policy emu (s.output vt chunk) where
  filter := by
    show (s.filter.feed chunk).filter = ((Filter.new policy).feedAll (s.read ++ [chunk])).filter
    rw [Filter.feedAll_snoc, h.filter]
    rfl
  view view hview := by
    show view (vt.process s.emu chunk) = view emu ++ (s.read ++ [chunk])
    rw [hview.process, h.view view hview, List.append_assoc]
  starts b hb := by
    obtain ⟨hevents, hread, hheard, hshown, hview⟩ := h.starts b hb
    refine ⟨hevents, ?_, ?_, hshown, ?_⟩
    · show b.read ≤ (s.read ++ [chunk]).length
      rw [List.length_append]
      omega
    · show told (s.events.drop b.events) ++
        tokens (s.held ++ (s.filter.feed chunk).pieces.filterMap shownOf) =
          passed (feedFrom policy (s.read ++ [chunk]) b.read).pieces
      rw [feedFrom_snoc hread, Fed.andThen, passed_append, ← hheard, feedFrom_filter, ← h.filter,
        tokens_append, heard, List.append_assoc]
      rfl
    · show ∀ view, vt.Keeps view → view b.emu = view emu ++ (s.read ++ [chunk]).take b.read
      rw [List.take_append_of_le_length hread]
      exact hview

/-- More chunks leave a client begun. -/
theorem outputs (h : Begun vt policy emu s) (chunks : List Bytes) :
    Begun vt policy emu (chunks.foldl (Session.output vt) s) := by
  induction chunks generalizing s with
  | nil => exact h
  | cons chunk chunks ih => exact ih (h.output chunk)

/-- A client begins with nothing held: it is given all that is read from now on. -/
theorem begin (h : Begun vt policy emu s) (hheld : s.held = []) (history : ℕ) :
    Begun vt policy emu (s.begin vt history) where
  filter := h.filter
  view := h.view
  starts b hb := by
    rcases List.mem_append.mp hb with hb | hb
    · exact h.starts b hb
    · rw [List.mem_singleton] at hb
      subst hb
      refine ⟨Nat.le_refl _, Nat.le_refl _, ?_, ⟨history, ?_⟩, fun view hview => ?_⟩
      · show told (s.events.drop s.events.length) ++ tokens s.held =
          passed (feedFrom policy s.read s.read.length).pieces
        rw [hheld, List.drop_length, feedFrom_length]
        rfl
      · exact start_tokens s history
      · show view s.emu = view emu ++ s.read.take s.read.length
        rw [List.take_length, h.view view hview]

end Begun

/-! ### One move -/

variable (vt) in
/-- The end tells what was held. -/
theorem finish_same (s : Session E K C) (exit : Exit) (keysLeft : Option Bool) :
    Same vt s (s.finish vt exit keysLeft) ∧ (s.finish vt exit keysLeft).held = [] := by
  obtain ⟨hrelease, hheld⟩ := release_same vt s
  constructor
  · apply Same.trans (hrelease.told _)
    · exact .of_eq rfl rfl rfl rfl rfl fun _ _ => rfl
    · rfl
  · exact hheld

variable (vt) in
/-- A write to the program tells no output. -/
theorem flush_same (s : Session E K C) (now : ℕ) (wrote : Wrote) :
    Same vt s (s.flush now wrote) ∧ (s.Waits → (s.flush now wrote).Waits) := by
  unfold flush
  dsimp only
  split
  · exact ⟨.of_eq rfl rfl rfl rfl rfl fun _ _ => rfl, id⟩
  · exact ⟨.of_eq rfl rfl rfl rfl rfl fun _ _ => rfl, id⟩

variable (vt) in
/-- Nor does a look whether it ended. -/
theorem checkEnd_same (s : Session E K C) (now : ℕ) (keysLeft : Option Bool) :
    Same vt s (s.checkEnd vt now keysLeft) ∧ (s.Waits → (s.checkEnd vt now keysLeft).Waits) := by
  unfold checkEnd
  split
  · next exit _ _ =>
    obtain ⟨hsame, hheld⟩ := finish_same vt s exit keysLeft
    exact ⟨hsame, fun _ => .inl hheld⟩
  · exact ⟨.refl s, id⟩

variable (vt) in
/-- Nor does the top of the loop. -/
theorem turnTop_same (s : Session E K C) (now : ℕ) (wrote : Wrote) (keysLeft : Option Bool) :
    Same vt s (s.turnTop vt now wrote keysLeft) ∧
      (s.Waits → (s.turnTop vt now wrote keysLeft).Waits) := by
  obtain ⟨hend, hwaits⟩ := checkEnd_same vt s now keysLeft
  obtain ⟨hflush, hwaits'⟩ := flush_same vt (s.checkEnd vt now keysLeft) now wrote
  unfold turnTop
  dsimp only
  split
  · refine ⟨(hend.trans hflush).trans ?_, fun h => hwaits' (hwaits h)⟩
    exact .of_eq rfl rfl rfl rfl rfl fun _ _ => rfl
  · exact ⟨hend.trans (.of_eq rfl rfl rfl rfl rfl fun _ _ => rfl), hwaits⟩

/-- The modes hold nothing back. -/
theorem refreshTty_waits (s : Session E K C) (modes : Option TtyModes) :
    (s.refreshTty modes).held = s.held ∧ (s.refreshTty modes).settle = s.settle ∧
      (s.refreshTty modes).exited = s.exited := by
  unfold refreshTty
  split
  · split <;> exact ⟨rfl, rfl, rfl⟩
  · exact ⟨rfl, rfl, rfl⟩

/-- Nor does a probe. -/
theorem probe_waits (s : Session E K C) (now : ℕ) (why : Probe)
    (activity : Option ℕ → Bool → Bool → Activity) :
    (s.probe vt now why activity).held = s.held ∧ (s.probe vt now why activity).settle = s.settle ∧
      (s.probe vt now why activity).exited = s.exited := by
  unfold probe
  dsimp only
  split <;> exact ⟨rfl, rfl, rfl⟩

theorem Waits.of_eq (h : s.Waits) (heq : s'.held = s.held ∧ s'.settle = s.settle ∧ s'.exited = s.exited) :
    s'.Waits := by
  obtain ⟨hheld, hsettle, hexited⟩ := heq
  rw [Waits, hheld, hsettle, hexited]
  exact h

variable (vt) in
/-- Chunks leave when they are to be told. -/
theorem outputs_waits (chunks : List Bytes) (s : Session E K C) :
    (chunks.foldl (output vt) s).settle = s.settle ∧ (chunks.foldl (output vt) s).exited = s.exited := by
  induction chunks generalizing s with
  | nil => exact ⟨rfl, rfl⟩
  | cons chunk chunks ih => exact ih (s.output vt chunk)

/-- Output is told at once, or waits to settle. -/
theorem settleOutput_begun (h : Begun vt policy emu s) (hexited : s.exited = none) (now : ℕ)
    (modes : Option TtyModes) (atOnce : Bool) :
    Begun vt policy emu (s.settleOutput vt now modes atOnce) ∧
      (s.settleOutput vt now modes atOnce).Waits := by
  unfold settleOutput
  split
  · obtain ⟨hrelease, hheld⟩ := release_same vt (s.refreshTty modes)
    refine ⟨h.same (((refreshTty_same s modes).trans hrelease).trans ?_), .inl hheld⟩
    exact .of_eq rfl rfl rfl rfl rfl fun _ _ => rfl
  · split
    · exact ⟨h.same (.of_eq rfl rfl rfl rfl rfl fun _ _ => rfl), .inr ⟨rfl, hexited⟩⟩
    · next hsettle =>
      exact ⟨h, .inr ⟨Option.isSome_iff_ne_none.mpr (by simpa using hsettle), hexited⟩⟩

/-- A resize tells nothing. -/
theorem resize_same {pending : PendingInput} {size : Size} {r : Session E K C × PendingInput}
    (h : s.resize vt size pending = some r) :
    Same vt s r.1 ∧ r.1.held = s.held ∧ r.1.settle = s.settle ∧ r.1.exited = s.exited := by
  obtain ⟨e, he, rfl⟩ := Option.map_eq_some_iff.mp h
  exact ⟨.of_eq rfl rfl rfl rfl rfl fun view hview => hview.resize _ _ _ he, rfl, rfl, rfl⟩

/-- A new client is begun with all that was read. -/
theorem client_begun (h : Begun vt policy emu s) (hheld : s.held = []) (size : Size) (history : ℕ) :
    Begun vt policy emu (s.client vt size history) ∧ (s.client vt size history).held = [] := by
  unfold client
  dsimp only
  have hnew : Begun vt policy emu
      { s with attaches := s.attaches + 1, echo := .empty, written := 0 } :=
    h.same (.of_eq rfl rfl rfl rfl rfl fun _ _ => rfl)
  cases hsize : resize vt { s with attaches := s.attaches + 1, echo := .empty, written := 0 } size .empty with
  | none => exact ⟨hnew.begin hheld history, hheld⟩
  | some r =>
    obtain ⟨hsame, hheld', -⟩ := resize_same hsize
    exact ⟨(hnew.same hsame).begin (hheld'.trans hheld) history, hheld'.trans hheld⟩

/-- So is the first. -/
theorem init_begun (vt : Emulator E K C M) (emu : E) (policy : Policy) (size : Size) (history : ℕ)
    (modes : Option TtyModes) :
    Begun vt policy emu (init vt emu policy size history modes) ∧
      (init vt emu policy size history modes).Waits := by
  have hblank : Begun vt policy emu (blank emu policy : Session E K C) :=
    ⟨rfl, fun view _ => (List.append_nil _).symm, by simp [blank]⟩
  obtain ⟨hclient, hnone⟩ := client_begun hblank rfl size history
  exact ⟨hclient.same (refreshTty_same _ modes), .of_eq (.inl hnone) (refreshTty_waits _ modes)⟩

/-- An ask leaves the client begun. -/
theorem serveAsk_begun (h : Begun vt policy emu s) (hwaits : s.Waits) (ask : Ask) :
    Begun vt policy emu (s.serveAsk vt ask) ∧ (s.serveAsk vt ask).Waits := by
  cases ask with
  | redraw seen =>
    obtain ⟨hrelease, hheld⟩ := release_same vt s
    exact ⟨(h.same hrelease).begin hheld _, .inl hheld⟩
  | ended =>
    simp only [serveAsk]
    split
    · exact ⟨h.same (.of_eq rfl rfl rfl rfl rfl fun _ _ => rfl), hwaits⟩
    · exact ⟨h, hwaits⟩
  | resize attach size =>
    simp only [serveAsk]
    split
    · split
      · next r pending hsize =>
        obtain ⟨hsame, hfields⟩ := resize_same hsize
        exact ⟨(h.same hsame).same (.of_eq rfl rfl rfl rfl rfl fun _ _ => rfl), hwaits.of_eq hfields⟩
      · exact ⟨h, hwaits⟩
    · exact ⟨h, hwaits⟩
  | other => exact ⟨h, hwaits⟩

variable (vt) in
/-- Input tells no output. -/
theorem apply_same (s : Session E K C) (input : Input K C) :
    Same vt s (s.apply vt input) ∧ (s.Waits → (s.apply vt input).Waits) := by
  unfold apply
  split
  · exact ⟨.of_eq rfl rfl rfl rfl rfl fun _ _ => rfl, id⟩
  · exact ⟨.of_eq rfl rfl rfl rfl rfl fun view hview => hview.setColours _ _, id⟩

variable [DecidableEq M]

/-- What is read is told, or waits. -/
theorem readOutput_begun (h : Begun vt policy emu s) (hexited : s.exited = none) (now more : ℕ)
    (modes : Option TtyModes) (activity : Option ℕ → Bool → Bool → Activity) :
    Begun vt policy emu (s.readOutput vt now more modes activity) ∧
      (s.readOutput vt now more modes activity).Waits := by
  have hread : Begun vt policy emu (s.readChunks vt now more) := by
    apply Begun.outputs
    exact h.same (.of_eq rfl rfl rfl rfl rfl fun _ _ => rfl)
  have hanswer : Begun vt policy emu ((s.readChunks vt now more).answerHost vt) := by
    apply hread.same
    exact .of_eq rfl rfl rfl rfl rfl fun view hview => hview.takeHostReplies _
  have hrunning : ((s.readChunks vt now more).answerHost vt).exited = none :=
    (outputs_waits vt _ _).2.trans hexited
  unfold readOutput
  dsimp only
  generalize ((s.readChunks vt now more).answerHost vt) = s₁ at hanswer hrunning
  obtain ⟨hbegun, hwaits⟩ := settleOutput_begun hanswer hrunning now modes
    (s₁.typedAt.any (now - · < ttySettle) || decide (vt.commands s₁.emu ≠ vt.commands s.emu) ||
      heldMost < s.heldBytes)
  split
  · exact ⟨hbegun.same (probe_same _ _ _ _), hwaits.of_eq (probe_waits _ _ _ _)⟩
  · exact ⟨hbegun, hwaits⟩

/-- One move keeps what holds of the starts, and what is held waits. -/
theorem step_begun (h : Begun vt policy emu s) (hwaits : s.Waits) {m : SessionMove K C}
    (hstep : s.step vt m = some s') : Begun vt policy emu s' ∧ s'.Waits := by
  have hrest : ∀ s' : Session E K C, s'.filter = s.filter → s'.read = s.read →
      s'.starts = s.starts → s'.events = s.events → s'.held = s.held → s'.settle = s.settle →
      s'.exited = s.exited → s'.emu = s.emu → Begun vt policy emu s' ∧ s'.Waits := by
    intro s' hfilter hread hstarts hevents hheld hsettle hexited hemu
    refine ⟨h.same (.of_eq hfilter hread hstarts hevents hheld fun _ _ => by rw [hemu]), ?_⟩
    exact hwaits.of_eq ⟨hheld, hsettle, hexited⟩
  have hagain : Begun vt policy emu s.again := (hrest s.again rfl rfl rfl rfl rfl rfl rfl rfl).1
  cases steps_of_step hstep with
  | @top now wrote keysLeft =>
    obtain ⟨hsame, hkeeps⟩ := turnTop_same vt s now wrote keysLeft
    exact ⟨h.same hsame, hkeeps hwaits⟩
  | output _ hruns => exact readOutput_begun hagain hruns _ _ _ _
  | @settled now due wait modes =>
    refine ⟨(h.same ?_).same (release_same vt _).1, .inl (release_same vt _).2⟩
    apply Same.trans _ (refreshTty_same _ modes)
    exact .of_eq rfl rfl rfl rfl rfl fun _ _ => rfl
  | @echoed now =>
    have hpromoted : Begun vt policy emu { s with turn := .top, echo := (s.echo.promote now).1 } :=
      (hrest { s with turn := .top, echo := (s.echo.promote now).1 }
        rfl rfl rfl rfl rfl rfl rfl rfl).1
    obtain ⟨hrelease, hheld⟩ := release_same vt
      { s with turn := .top, echo := (s.echo.promote now).1 }
    exact ⟨(hpromoted.same hrelease).same (.publish _ rfl), .inl hheld⟩
  | @takeInput input inputs =>
    obtain ⟨htaken, hwaits'⟩ : Begun vt policy emu { s with turn := .top, inputRx := inputs } ∧
        { s with turn := .top, inputRx := inputs }.Waits :=
      hrest { s with turn := .top, inputRx := inputs } rfl rfl rfl rfl rfl rfl rfl rfl
    obtain ⟨hsame, hkeeps⟩ := apply_same vt { s with turn := .top, inputRx := inputs } input
    exact ⟨htaken.same hsame, hkeeps hwaits'⟩
  | @takeAsk ask asks =>
    obtain ⟨htaken, hwaits'⟩ : Begun vt policy emu { s with turn := .top, asksRx := asks } ∧
        { s with turn := .top, asksRx := asks }.Waits :=
      hrest { s with turn := .top, asksRx := asks } rfl rfl rfl rfl rfl rfl rfl rfl
    exact serveAsk_begun htaken hwaits' ask
  | @takeAttach attach control =>
    have htaken : Begun vt policy emu { s with turn := .top, control := control } :=
      (hrest { s with turn := .top, control := control } rfl rfl rfl rfl rfl rfl rfl rfl).1
    obtain ⟨hrelease, hheld⟩ := release_same vt { s with turn := .top, control := control }
    obtain ⟨hbegun, hnone⟩ := client_begun (htaken.same hrelease) hheld attach.size attach.history
    exact ⟨hbegun, .inl hnone⟩
  | @tick now exit modes =>
    obtain ⟨hseen, hwaits'⟩ :
        Begun vt policy emu { s with turn := .top, ending := s.ending.seen exit now } ∧
          { s with turn := .top, ending := s.ending.seen exit now }.Waits :=
      hrest { s with turn := .top, ending := s.ending.seen exit now }
        rfl rfl rfl rfl rfl rfl rfl rfl
    exact ⟨hseen.same (refreshTty_same _ modes), hwaits'.of_eq (refreshTty_waits _ modes)⟩
  | probe =>
    exact ⟨hagain.same (probe_same _ _ _ _), Waits.of_eq (s := s.again) hwaits (probe_waits _ _ _ _)⟩
  | _ => exact hrest _ rfl rfl rfl rfl rfl rfl rfl rfl

/-- **No output is lost or shown twice where a client begins.** In every run, what was
published to the receiver of a start, with what is still held, is what the session's
filter passes of the chunks read since, the filter being as the chunks read before left
it; the start's redraw is made from the emulator that had processed just those. What is
held waits only for a read of the PTY's modes that is due, while the program runs. -/
theorem begins_exactly {vt : Emulator E K C M} {emu : E} {policy : Policy} {size : Size}
    {history : ℕ} {modes : Option TtyModes} {s : Session E K C}
    (h : Reachable (step vt) (init vt emu policy size history modes) s) :
    (∀ b ∈ s.starts,
      told (s.events.drop b.events) ++ tokens s.held = passed (feedFrom policy s.read b.read).pieces ∧
      (∃ history, tokens b.shown = passed (vt.redraw b.emu (vt.title b.emu) history)) ∧
      ∀ view, vt.Keeps view → view b.emu = view emu ++ s.read.take b.read) ∧
    (s.held = [] ∨ s.settle.isSome = true ∧ s.exited = none) := by
  obtain ⟨hbegun, hwaits⟩ := h.invariant (fun s => Begun vt policy emu s ∧ s.Waits)
    (init_begun vt emu policy size history modes)
    fun _ _ _ hs _ hstep => step_begun hs.1 hs.2 hstep
  exact ⟨fun b hb => (hbegun.starts b hb).2.2, hwaits⟩

/-- A chunk is read before a client attaches, and another after. -/
def attachMoves : List (SessionMove Bytes Unit) :=
  [.program [0x61], .top 0 .ok none, .output 0 0 none fun _ _ _ => .unknown,
    .request ⟨⟨24, 80⟩, 0, ⟨none, none⟩, 0⟩, .top 1 .ok none, .takeAttach,
    .program [0x62], .top 2 .ok none, .output 2 0 none fun _ _ _ => .unknown,
    .top 20 .ok none, .settled 20 none]

/-- In `begins_exactly`, two clients begin, with nothing and with one chunk read. -/
theorem begins_exactly_two :
    ∃ s, Reachable (step .plain) (init .plain [] ⟨.drop, true, true⟩ ⟨24, 80⟩ 0 none) s ∧
      s.starts.map Start.read = [0, 1] ∧
      ∀ b ∈ s.starts, told (s.events.drop b.events) ++ tokens s.held =
        passed (feedFrom ⟨.drop, true, true⟩ s.read b.read).pieces := by
  obtain ⟨s, hs, hread⟩ := Option.map_eq_some_iff.mp
    (show (runWhile (step .plain) (fun _ _ => True)
      (init .plain [] ⟨.drop, true, true⟩ ⟨24, 80⟩ 0 none) attachMoves).map
        (fun s => s.starts.map Start.read) = some [0, 1] by decide +kernel)
  have hreach := reaches_of_run hs
  exact ⟨s, hreach, hread, fun b hb => ((begins_exactly hreach).1 b hb).1⟩

end Session

end Koh.Server
