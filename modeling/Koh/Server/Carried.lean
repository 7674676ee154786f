import Koh.Server.Begin
import Koh.Wire.Shown

/-!
# What a program writes is carried to the client

What a session's filter passes is held, joined and released, or redrawn, and goes to the client
as messages. They carry the same output, and each is encoded and decoded.

## Main definitions

- `Observed`, `Emulator.observing`: what the emulator reports, from `terminal/server.rs`
- `Closed`: what holds whatever a session tells, holds and begins
- `Crosses`: a message is encoded, queued and decoded
- `Redrawn`: a start's messages are a redraw, cut between characters

## Main results

- `Closed.step`, `Closed.run`: what is closed holds over a run
- `crosses_of_fits`: what fits crosses
- `Session.output_carried`: in every run, the output is kept and every message crosses
-/

namespace Koh.Server

open Koh.Stream Koh.Lib

variable {E K C M : Type}

/-! ### What the emulator reports -/

/-- Decode an OSC title payload and clamp it. -/
def titleFrom (payload : Bytes) : String := String.ofList ((fromUtf8Lossy payload).take maxTitle)

/-- A title is cut at its most. -/
theorem length_titleFrom (payload : Bytes) : (titleFrom payload).length ≤ maxTitle := by
  rw [titleFrom, String.length_ofList]
  exact List.length_take_le _ _

/-- What an emulator tells as it processes. -/
inductive VtEvent where
  | title (payload : Bytes)
  | bell
  | other
  deriving DecidableEq

/-- What the emulator reports beside the screen. -/
structure Observed where
  title : String
  bellCount : ℕ
  clamped : title.length ≤ maxTitle

namespace Observed

def new : Observed := ⟨"", 0, Nat.zero_le _⟩

def event (o : Observed) : VtEvent → Observed
  | .title payload => ⟨titleFrom payload, o.bellCount, length_titleFrom payload⟩
  | .bell => { o with bellCount := min (o.bellCount + 1) (2 ^ 64 - 1) }
  | .other => o

end Observed

/-- An emulator with what it reports kept beside its state: `events` are told as a chunk is
processed. -/
def Emulator.observing (vt : Emulator E K C M) (events : E → Bytes → List VtEvent) :
    Emulator (E × Observed) K C M where
  process e chunk := (vt.process e.1 chunk, (events e.1 chunk).foldl Observed.event e.2)
  takeHostReplies e := let taken := vt.takeHostReplies e.1; (taken.1, taken.2, e.2)
  encodeInput e := vt.encodeInput e.1
  setColours e colours := let set := vt.setColours e.1 colours; (set.1, set.2, e.2)
  resize e size := (vt.resize e.1 size).map (·, e.2)
  resizeReport e := vt.resizeReport e.1
  title e := e.2.title
  bellCount e := e.2.bellCount
  commands e := vt.commands e.1
  prompt := vt.prompt
  mainRows e := vt.mainRows e.1
  height e := vt.height e.1
  redraw e := vt.redraw e.1

def Emulator.Titled (vt : Emulator E K C M) : Prop := ∀ e, (vt.title e).length ≤ maxTitle

/-- An emulator that is observed says titles so. -/
theorem Emulator.observing_titled (vt : Emulator E K C M) (events : E → Bytes → List VtEvent) :
    (vt.observing events).Titled := fun e => e.2.clamped

/-! ### What a message comes to -/

/-- The message that an event is sent as. -/
def Event.message : Event → Option Shown
  | .show shown => some shown
  | .echo _ seq => some (.echo seq)
  | .top _ => none

def Event.Fits (event : Event) : Prop := ∀ m ∈ event.message, m.Fits

/-- A message is encoded within the bound, so it is queued, not skipped; and the client's decoder
gives it, whatever follows. -/
structure Crosses (num : Varint) (msg : Shown) : Prop where
  bounded : (Wire.putShown num msg).length ≤ maxShown
  queued : ∀ (e : Epoch) (now : ℕ),
    (e.send (fun m => (Wire.putShown num m).length) msg now).queue = e.queue ++ [msg]
  decoded : ∃ bytes, Wire.encodeShown num msg = .ok bytes ∧
    ∀ (d : Wire.Decoder) (rest : Bytes), d.pending = bytes ++ rest →
      ∃ d', d.nextShown num = (.ok (some msg.received), d') ∧ d'.pending = rest

/-- A message that fits crosses the wire. -/
theorem crosses_of_fits (num : Varint) {msg : Shown} (hfits : msg.Fits) (htyped : msg.Typed) :
    Crosses num msg := by
  have hlen := Wire.length_putShown num hfits htyped
  obtain ⟨bytes, hbytes⟩ := Wire.encodeShown_ok num hfits htyped
  refine ⟨hlen, fun e now => ?_, bytes, hbytes, fun d rest hpending => ?_⟩
  · rw [Epoch.send, encodeShown, if_pos hlen]
  · exact Wire.nextShown_encodeShown num hfits htyped hbytes hpending

/-! ### What a redraw comes to -/

/-- Cutting an emulator's redraws ends: no more than `maxOut` bytes in a row go on a character.
What `terminal/redraw.rs` writes is text. -/
def Emulator.Parts (vt : Emulator E K C M) : Prop :=
  ∀ e title history bytes, .out bytes ∈ vt.redraw e title history → Parted bytes

/-- A redraw that is text is cut at its characters. -/
theorem Emulator.parts_of_text {vt : Emulator E K C M}
    (h : ∀ e title history bytes, .out bytes ∈ vt.redraw e title history →
      ∃ text, bytes = encode text) : vt.Parts := by
  intro e title history bytes hmem
  obtain ⟨text, rfl⟩ := h e title history bytes hmem
  exact parted_encode text

/-- To observe changes no redraw. -/
theorem Emulator.Parts.observing {vt : Emulator E K C M} (h : vt.Parts)
    (events : E → Bytes → List VtEvent) : (vt.observing events).Parts :=
  fun e title history bytes hmem => h e.1 title history bytes hmem

/-- A piece is cut into what `redrawn` gives. -/
theorem redrawn_eq_cut {piece : Piece} (h : ∀ bytes, piece = .out bytes → Parted bytes) :
    redrawn piece = some (cut piece) := by
  cases piece with
  | out bytes =>
    obtain ⟨shown, hshown⟩ := Option.isSome_iff_exists.mp (redrawnOut_isSome (h bytes rfl))
    rw [cut_out, hshown]
    exact hshown
  | mark payload => rfl

/-- Each piece is cut. -/
theorem mapM_redrawn {pieces : List Piece}
    (h : ∀ bytes, .out bytes ∈ pieces → Parted bytes) :
    pieces.mapM redrawn = some (pieces.map cut) := by
  induction pieces with
  | nil => rfl
  | cons piece pieces ih =>
    have hpiece : redrawn piece = some (cut piece) :=
      redrawn_eq_cut fun bytes heq => h bytes (heq ▸ List.mem_cons_self)
    rw [List.mapM_cons, hpiece, ih fun bytes hmem => h bytes (List.mem_cons_of_mem _ hmem)]
    rfl

/-- Messages begin with those of `pieces` redrawn, which ends, text cut between characters; and
carry no more output. -/
def Redrawn (pieces : List Piece) (shown : List Shown) : Prop :=
  (∃ cuts rest, pieces.mapM redrawn = some cuts ∧ shown = cuts.flatten ++ rest ∧
    tokens rest = []) ∧
    tokens shown = passed pieces ∧
    ∀ text, .out (encode text) ∈ pieces → ∃ parts : List (List Char), parts.flatten = text ∧
      redrawn (.out (encode text)) = some (parts.map fun part => .out (encode part))

namespace Session

variable {vt : Emulator E K C M} {s s' : Session E K C} {P : Session E K C → Prop}

/-- A start shows the redraw, cut. -/
theorem start_redrawn (hparts : vt.Parts) (s : Session E K C) (history : ℕ) :
    Redrawn (vt.redraw s.emu (vt.title s.emu) history) (s.start vt history).shown := by
  have hrest : ∃ rest, (s.start vt history).shown =
      (vt.redraw s.emu (vt.title s.emu) history).flatMap cut ++ rest := by
    simp only [start, List.append_assoc]
    exact ⟨_, rfl⟩
  obtain ⟨rest, hrest⟩ := hrest
  have htokens : tokens (s.start vt history).shown = passed _ := start_tokens s history
  refine ⟨⟨_, rest, mapM_redrawn (hparts _ _ _), hrest, ?_⟩, htokens,
    fun text _ => redrawnOut_whole text⟩
  rwa [hrest, tokens_append, tokens_redrawn, List.append_right_eq_self] at htokens

/-- Each of a start's messages fits. -/
theorem start_fits (htitle : vt.Titled) (hparts : vt.Parts) (s : Session E K C) (history : ℕ) :
    ∀ m ∈ (s.start vt history).shown, m.Fits := by
  intro m hm
  simp only [start, List.mem_append, List.mem_flatMap, Option.mem_toList, Option.map_eq_some_iff,
    List.mem_cons, List.not_mem_nil, or_false] at hm
  rcases hm with
    (((⟨piece, hpiece, hm⟩ | ⟨tty, -, rfl⟩) | rfl | rfl) | ⟨last, -, rfl⟩) | ⟨code, -, rfl⟩
  · have hcut : redrawn piece = some (cut piece) :=
      redrawn_eq_cut fun bytes heq => hparts _ _ _ bytes (heq ▸ hpiece)
    exact fits_redrawn hcut m hm
  · trivial
  · exact htitle s.emu
  · trivial
  · trivial
  · trivial

/-! ### What holds whatever is told, held and begun -/

/-- What depends on what a session tells, holds, reads and begins only, and goes on holding
whatever of these it does. -/
structure Closed (vt : Emulator E K C M) (P : Session E K C → Prop) : Prop where
  rest : ∀ {s s'}, P s → s'.filter = s.filter → s'.read = s.read → s'.held = s.held →
    s'.events = s.events → s'.starts = s.starts → P s'
  publish : ∀ {s} {event : Event}, P s → event.tokens = [] → event.Fits → P (s.publish event)
  tellHeld : ∀ {s}, P s → P s.tellHeld
  output : ∀ {s}, P s → ∀ chunk, P (s.output vt chunk)
  begin : ∀ {s}, P s → ∀ history, P (s.begin vt history)

namespace Closed

theorem refreshTty (h : Closed vt P) (hs : P s) (modes : Option TtyModes) :
    P (s.refreshTty modes) := by
  unfold Session.refreshTty
  split
  · split
    · exact hs
    · exact h.publish (h.rest hs rfl rfl rfl rfl rfl) rfl fun m hm => by cases hm; trivial
  · exact hs

theorem probe (h : Closed vt P) (hs : P s) (now : ℕ) (why : Probe)
    (activity : Option ℕ → Bool → Bool → Activity) : P (s.probe vt now why activity) := by
  unfold Session.probe
  dsimp only
  split
  · exact h.publish (h.rest hs rfl rfl rfl rfl rfl) rfl fun m hm => by cases hm; trivial
  · exact h.rest hs rfl rfl rfl rfl rfl

theorem tellTitle (h : Closed vt P) (htitle : vt.Titled) (hs : P s) : P (s.tellTitle vt) := by
  unfold Session.tellTitle
  dsimp only
  split
  · exact hs
  · refine h.publish (h.rest hs rfl rfl rfl rfl rfl) rfl fun m hm => ?_
    cases hm
    exact htitle s.emu

theorem tellTop (h : Closed vt P) (hs : P s) : P (s.tellTop vt) := by
  unfold Session.tellTop
  dsimp only
  split
  · exact hs
  · split
    · exact h.publish (h.rest hs rfl rfl rfl rfl rfl) rfl fun m hm => by cases hm
    · exact h.rest hs rfl rfl rfl rfl rfl

theorem tellBells (h : Closed vt P) (hs : P s) : P (s.tellBells vt) := by
  unfold Session.tellBells
  dsimp only
  split
  · exact hs
  · exact h.publish (h.rest hs rfl rfl rfl rfl rfl) rfl fun m hm => by cases hm; trivial

theorem release (h : Closed vt P) (htitle : vt.Titled) (hs : P s) : P (s.release vt) :=
  h.tellBells (h.tellTop (h.tellHeld (h.tellTitle htitle hs)))

theorem outputs (h : Closed vt P) (hs : P s) (chunks : List Bytes) :
    P (chunks.foldl (Session.output vt) s) := by
  induction chunks generalizing s with
  | nil => exact hs
  | cons chunk chunks ih => exact ih (h.output hs chunk)

theorem flush (h : Closed vt P) (hs : P s) (now : ℕ) (wrote : Wrote) : P (s.flush now wrote) := by
  unfold Session.flush
  dsimp only
  split <;> exact h.rest hs rfl rfl rfl rfl rfl

/-- What the end tells keeps `P`. -/
theorem finish (h : Closed vt P) (htitle : vt.Titled) (hs : P s) (exit : Exit)
    (keysLeft : Option Bool) : P (s.finish vt exit keysLeft) := by
  have htold (read : Option InputSeq) : P ((s.release vt).show_ (.exit exit.code read)) :=
    h.publish (h.release htitle hs) rfl fun m hm => by cases hm; trivial
  exact h.rest (htold _) rfl rfl rfl rfl rfl

/-- So does what the top of the loop does. -/
theorem turnTop (h : Closed vt P) (htitle : vt.Titled) (hs : P s) (now : ℕ) (wrote : Wrote)
    (keysLeft : Option Bool) : P (s.turnTop vt now wrote keysLeft) := by
  have hend : P (s.checkEnd vt now keysLeft) := by
    unfold checkEnd
    split
    · exact h.finish htitle hs _ keysLeft
    · exact hs
  unfold Session.turnTop
  dsimp only
  split
  · exact h.rest (h.flush hend now wrote) rfl rfl rfl rfl rfl
  · exact h.rest hend rfl rfl rfl rfl rfl

/-- So does what is read, when it settles. -/
theorem settleOutput (h : Closed vt P) (htitle : vt.Titled) (hs : P s) (now : ℕ)
    (modes : Option TtyModes) (atOnce : Bool) : P (s.settleOutput vt now modes atOnce) := by
  unfold Session.settleOutput
  split
  · exact h.rest (h.release htitle (h.refreshTty hs modes)) rfl rfl rfl rfl rfl
  · split
    · exact h.rest hs rfl rfl rfl rfl rfl
    · exact hs

/-- And when it is read. -/
theorem readOutput [DecidableEq M] (h : Closed vt P) (htitle : vt.Titled) (hs : P s)
    (now more : ℕ) (modes : Option TtyModes) (activity : Option ℕ → Bool → Bool → Activity) :
    P (s.readOutput vt now more modes activity) := by
  have hread : P (s.readChunks vt now more) := by
    refine h.outputs ?_ _
    exact h.rest hs rfl rfl rfl rfl rfl
  have hanswer : P ((s.readChunks vt now more).answerHost vt) := h.rest hread rfl rfl rfl rfl rfl
  unfold Session.readOutput
  dsimp only
  split
  · exact h.probe (h.settleOutput htitle hanswer now modes _) now .marked activity
  · exact h.settleOutput htitle hanswer now modes _

theorem resize (h : Closed vt P) (hs : P s) {size : Size} {pending : PendingInput}
    {r : Session E K C × PendingInput} (hresize : s.resize vt size pending = some r) : P r.1 := by
  obtain ⟨emu, -, rfl⟩ := Option.map_eq_some_iff.mp hresize
  exact h.rest hs rfl rfl rfl rfl rfl

theorem client (h : Closed vt P) (hs : P s) (size : Size) (history : ℕ) :
    P (s.client vt size history) := by
  have hnew : P { s with attaches := s.attaches + 1, echo := .empty, written := 0 } :=
    h.rest hs rfl rfl rfl rfl rfl
  unfold Session.client
  dsimp only
  cases hsize :
    Session.resize vt { s with attaches := s.attaches + 1, echo := .empty, written := 0 } size
      .empty with
  | none => exact h.begin hnew history
  | some r => exact h.begin (h.resize hnew hsize) history

/-- So does what an ask does. -/
theorem serveAsk (h : Closed vt P) (htitle : vt.Titled) (hs : P s) (ask : Ask) :
    P (s.serveAsk vt ask) := by
  cases ask with
  | redraw seen => exact h.begin (h.release htitle hs) _
  | ended =>
    simp only [Session.serveAsk]
    split
    · exact h.rest hs rfl rfl rfl rfl rfl
    · exact hs
  | resize attach size =>
    simp only [Session.serveAsk]
    split
    · split
      · next hsize => exact h.rest (h.resize hs hsize) rfl rfl rfl rfl rfl
      · exact hs
    · exact hs
  | other => exact hs

theorem apply (h : Closed vt P) (hs : P s) (input : Input K C) : P (s.apply vt input) := by
  unfold Session.apply
  split <;> exact h.rest hs rfl rfl rfl rfl rfl

/-- What is closed goes on holding, whatever the session does next. -/
theorem step [DecidableEq M] (h : Closed vt P) (htitle : vt.Titled) (hs : P s)
    {m : SessionMove K C} (hstep : s.step vt m = some s') : P s' := by
  cases steps_of_step hstep with
  | top => exact h.turnTop htitle hs _ _ _
  | output =>
    refine h.readOutput htitle ?_ _ _ _ _
    exact h.rest hs rfl rfl rfl rfl rfl
  | settled =>
    refine h.release htitle (h.refreshTty ?_ _)
    exact h.rest hs rfl rfl rfl rfl rfl
  | echoed =>
    refine h.publish (h.release htitle ?_) rfl fun m hm => by cases hm; trivial
    exact h.rest hs rfl rfl rfl rfl rfl
  | takeInput =>
    refine h.apply ?_ _
    exact h.rest hs rfl rfl rfl rfl rfl
  | takeAsk =>
    refine h.serveAsk htitle ?_ _
    exact h.rest hs rfl rfl rfl rfl rfl
  | takeAttach =>
    refine h.client (h.release htitle ?_) _ _
    exact h.rest hs rfl rfl rfl rfl rfl
  | tick =>
    refine h.refreshTty ?_ _
    exact h.rest hs rfl rfl rfl rfl rfl
  | probe =>
    refine h.probe ?_ _ .poll _
    exact h.rest hs rfl rfl rfl rfl rfl
  | _ => exact h.rest hs rfl rfl rfl rfl rfl

/-- What is closed holds over a run from a blank session's where it does. -/
theorem run [DecidableEq M] (h : Closed vt P) (htitle : vt.Titled) {emu : E} {policy : Policy}
    {size : Size} {history : ℕ} {modes : Option TtyModes} (hblank : P (blank emu policy))
    (hreach : Reachable (Session.step vt) (init vt emu policy size history modes) s) : P s :=
  hreach.invariant P (h.refreshTty (h.client hblank size history) modes)
    fun _ _ _ hs _ hstep => h.step htitle hs hstep

end Closed

/-! ### The output, and the messages -/

/-- The messages that are sent: of events, and where clients begin. -/
def messages (s : Session E K C) : List Shown :=
  s.events.filterMap (·.2.message) ++ s.starts.flatMap Start.shown

/-- What was told, with what is held, is what the filter passed; and each message fits. -/
structure Carrying (vt : Emulator E K C M) (policy : Policy) (s : Session E K C) : Prop where
  filter : s.filter = ((Filter.new policy).feedAll s.read).filter
  output : told s.events ++ tokens s.held = passed ((Filter.new policy).feedAll s.read).pieces
  held : ∀ m ∈ s.held, m.Fits
  events : ∀ e ∈ s.events, e.2.Fits
  starts : ∀ b ∈ s.starts, (∀ m ∈ b.shown, m.Fits) ∧
    ∃ history, Redrawn (vt.redraw b.emu (vt.title b.emu) history) b.shown

/-- A session that told nothing. -/
theorem carrying_blank (vt : Emulator E K C M) (emu : E) (policy : Policy) :
    Carrying vt policy (blank emu policy : Session E K C) :=
  ⟨rfl, rfl, by simp [blank], by simp [blank], by simp [blank]⟩

/-- The filter of a session holds back less than a message's output. -/
theorem Carrying.room {policy : Policy} (h : Carrying vt policy s) :
    s.filter.out.length < maxOut := by
  rw [h.filter]
  exact Filter.feedAll_room _ _ (show (0 : ℕ) < maxOut by decide)

/-- Each change of a session's keeps what it carries. -/
theorem Carrying.closed (htitle : vt.Titled) (hparts : vt.Parts) (policy : Policy) :
    Closed vt (Carrying vt policy : Session E K C → Prop) where
  rest h hfilter hread hheld hevents hstarts := by
    refine ⟨?_, ?_, ?_, ?_, ?_⟩
    · rw [hfilter, hread, h.filter]
    · rw [hevents, hheld, hread, h.output]
    · exact hheld ▸ h.held
    · exact hevents ▸ h.events
    · exact hstarts ▸ h.starts
  publish {s event} h htokens hfits := by
    refine ⟨h.filter, ?_, h.held, ?_, h.starts⟩
    · rw [Session.publish, told_append, ← h.output]
      simp [told, htokens]
    · simpa only [Session.publish, List.forall_mem_append, List.forall_mem_singleton] using
        ⟨h.events, hfits⟩
  tellHeld {s} h := by
    rw [Session.tellHeld, foldl_show_events]
    refine ⟨h.filter, ?_, by simp, ?_, h.starts⟩
    · rw [told_append, told_show, tokens_coalesce, ← h.output]
      simp
    · simp only [List.forall_mem_append, List.forall_mem_map]
      refine ⟨h.events, fun m hm x hx => ?_⟩
      cases hx
      exact fits_coalesce h.held m hm
  output {s} h chunk := by
    have hsized : Sized (s.filter.feed chunk).pieces :=
      (Filter.feedLoop_sized chunk h.room).append
        (Filter.flush_sized (Filter.feedLoop_room s.filter chunk h.room).le)
    refine ⟨?_, ?_, ?_, h.events, h.starts⟩
    · show (s.filter.feed chunk).filter = ((Filter.new policy).feedAll (s.read ++ [chunk])).filter
      rw [Filter.feedAll_snoc, h.filter]
      rfl
    · show told s.events ++ tokens (s.held ++ (s.filter.feed chunk).pieces.filterMap shownOf) =
        passed ((Filter.new policy).feedAll (s.read ++ [chunk])).pieces
      rw [Filter.feedAll_snoc, Fed.andThen, passed_append, ← h.output, ← h.filter, tokens_append,
        List.append_assoc]
      rfl
    · simpa only [Session.output, List.forall_mem_append] using ⟨h.held, fits_shownOf hsized⟩
  begin {s} h history := by
    refine ⟨h.filter, h.output, h.held, h.events, ?_⟩
    simpa only [Session.begin, List.forall_mem_append, List.forall_mem_singleton] using
      ⟨h.starts, start_fits htitle hparts s history, history, start_redrawn hparts s history⟩

/-- Each of its messages fits. -/
theorem Carrying.messages {policy : Policy} (h : Carrying vt policy s) :
    ∀ m ∈ s.messages, m.Fits := by
  intro m hm
  rcases List.mem_append.mp hm with hevent | hstart
  · obtain ⟨e, he, hmessage⟩ := List.mem_filterMap.mp hevent
    exact h.events e he m hmessage
  · obtain ⟨b, hb, hshown⟩ := List.mem_flatMap.mp hstart
    exact (h.starts b hb).1 m hshown

/-- **A session keeps the output.** In every run of a session whose redraws are parted, what was
told, with what is still held, is what the filter passed of all that was read, its bytes and
marks in the same order; where a client begins, cutting its redraw ends, and it is sent that,
text cut between characters; each output sent has 1 to `maxOut` bytes; and each message, its
numbers being of the source's types, is encoded within the bound, queued, and decoded at the
client. -/
theorem output_carried [DecidableEq M] (num : Varint) {vt : Emulator E K C M}
    {events : E → Bytes → List VtEvent} {emu : E × Observed} {policy : Policy} {size : Size}
    {history : ℕ} {modes : Option TtyModes} {s : Session (E × Observed) K C} (hparts : vt.Parts)
    (h : Reachable (step (vt.observing events))
      (init (vt.observing events) emu policy size history modes) s) :
    told s.events ++ tokens s.held = passed ((Filter.new policy).feedAll s.read).pieces ∧
    (∀ b ∈ s.starts, ∃ history,
      Redrawn ((vt.observing events).redraw b.emu b.emu.2.title history) b.shown) ∧
    (∀ bytes, .out bytes ∈ s.messages → 1 ≤ bytes.length ∧ bytes.length ≤ maxOut) ∧
    ∀ m ∈ s.messages, m.Typed → Crosses num m := by
  have htitle := vt.observing_titled events
  have hcarrying :=
    (Carrying.closed htitle (hparts.observing events) policy).run htitle (carrying_blank _ emu policy) h
  refine ⟨hcarrying.output, fun b hb => (hcarrying.starts b hb).2,
    fun bytes hbytes => hcarrying.messages _ hbytes, fun m hm htyped => ?_⟩
  exact crosses_of_fits num (hcarrying.messages m hm) htyped

/-- The plain emulator, its redraws text. -/
def plainText : Emulator Bytes Bytes Unit Unit :=
  { Emulator.plain with redraw := fun e _ _ => [.out (encode (fromUtf8Lossy e))] }

/-- The plain emulator's redraws are text. -/
theorem plainText_parts : plainText.Parts :=
  Emulator.parts_of_text fun e _ _ _ hmem =>
    ⟨fromUtf8Lossy e, Piece.out.inj (List.mem_singleton.mp hmem)⟩

/-- The plain emulator, which reports no title. -/
def plainObserving : Emulator (Bytes × Observed) Bytes Unit Unit :=
  plainText.observing fun _ _ => []

/-- In `output_carried`, a chunk is read before a client attaches, and another after. -/
theorem output_carried_two :
    ∃ s, Reachable (step plainObserving)
        (init plainObserving ([], Observed.new) ⟨.drop, true, true⟩ ⟨24, 80⟩ 0 none) s ∧
      told s.events ++ tokens s.held =
        passed ((Filter.new ⟨.drop, true, true⟩).feedAll s.read).pieces ∧
      s.read = [[0x61], [0x62]] ∧ .out [0x62] ∈ s.messages ∧ Crosses leb128 (.out [0x62]) := by
  obtain ⟨s, hs, hsees⟩ := Option.map_eq_some_iff.mp
    (show (runWhile (step plainObserving) (fun _ _ => True)
      (init plainObserving ([], Observed.new) ⟨.drop, true, true⟩ ⟨24, 80⟩ 0 none) attachMoves).map
        (fun s => (s.read, decide (.out [0x62] ∈ s.messages))) =
      some ([[0x61], [0x62]], true) by decide +kernel)
  obtain ⟨hread, hmem⟩ := Prod.mk.inj hsees
  have hreach := reaches_of_run hs
  have hcarried := output_carried leb128 plainText_parts hreach
  have hout := of_decide_eq_true hmem
  exact ⟨s, hreach, hcarried.1, hread, hout, hcarried.2.2.2 _ hout trivial⟩

end Session

end Koh.Server
