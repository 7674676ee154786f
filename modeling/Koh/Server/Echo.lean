import Koh.Server.Session

/-!
# Whose input a number is of

The numbers that a session tells of inputs, in echoes, reports and the program's end, are
those of the attachment they are told to.

## Main definitions

- `Of`: a number is an attachment's own
- `Session.timely`: what is written of an input is of the newest attachment's
- `Numbered`: what holds of the numbers in runs that are timely

## Main results

- `Session.numbers_own`: in such runs every number told is the attachment's own
- `Session.number_carried_over`: a run that carries one over
-/

namespace Koh.Server

open Koh.Stream Koh.Lib

variable {E K C M : Type}

/-- `seq` is 0, or the number of an input that came from attachment `attach`. -/
def Of (inputs : List (Input K C)) (attach : ℕ) (seq : InputSeq) : Prop :=
  seq = 0 ∨ ∃ events, ⟨attach, .events seq events⟩ ∈ inputs

/-- Each number that an event tells, while `newest` is the newest attachment, is of the
attachment it is told to. -/
def Event.Own (inputs : List (Input K C)) (newest : ℕ) : Event → Prop
  | .show (.report _ input) => Of inputs newest input
  | .show (.exit _ (some read)) => Of inputs newest read
  | .echo attach seq => Of inputs attach seq
  | _ => True

theorem Of.mono {inputs inputs' : List (Input K C)} {attach : ℕ} {seq : InputSeq}
    (h : Of inputs attach seq) (hsub : ∀ i ∈ inputs, i ∈ inputs') : Of inputs' attach seq := by
  rcases h with hzero | ⟨events, hmem⟩
  · exact .inl hzero
  · exact .inr ⟨events, hsub _ hmem⟩

/-- Output acknowledges nothing. -/
theorem Event.Own.of_isOutput {inputs : List (Input K C)} {newest : ℕ} {shown : Shown}
    (h : shown.isOutput = true) : (Event.show shown).Own inputs newest := by
  cases shown <;> trivial

/-- More inputs leave an acknowledgement its own. -/
theorem Event.Own.mono {inputs inputs' : List (Input K C)} {newest : ℕ} {event : Event}
    (h : event.Own inputs newest) (hsub : ∀ i ∈ inputs, i ∈ inputs') : event.Own inputs' newest := by
  unfold Event.Own at h ⊢
  split
  · exact Of.mono h hsub
  · exact Of.mono h hsub
  · exact Of.mono h hsub
  · trivial

theorem PendingInput.reply_seq (p : PendingInput) (bytes : Bytes) : (p.reply bytes).seq = p.seq := by
  unfold PendingInput.reply
  split <;> rfl

/-- What becomes of what is pending: it is all written, or nothing is, and it stays or goes. -/
theorem PendingInput.flush_cases (p : PendingInput) (wrote : Wrote) :
    (wrote = .ok ∧ p.isEmpty = false ∧ p.flush wrote = (.empty, some p.seq)) ∨
      (p.flush wrote = (p, none) ∨ p.flush wrote = (.empty, none)) := by
  unfold PendingInput.flush
  split
  · exact .inr (.inl rfl)
  · next hpending =>
    cases wrote with
    | ok => exact .inl ⟨rfl, by simpa using hpending, rfl⟩
    | full => exact .inr (.inl rfl)
    | closed => exact .inr (.inr rfl)

/-- What waits for its echo did before, or was written. -/
theorem EchoAck.mem_written {echo : EchoAck} {seq : InputSeq} {now : ℕ} {e : InputSeq × ℕ}
    (h : e ∈ (echo.written seq now).pending) : e ∈ echo.pending ∨ e.1 = seq := by
  unfold EchoAck.written at h
  split at h
  · rcases List.mem_append.mp h with hold | hnew
    · exact .inl hold
    · rw [List.mem_singleton] at hnew
      exact .inr (by rw [hnew])
  · split at h
    · rcases List.mem_append.mp h with hold | hnew
      · exact .inl (List.mem_of_mem_dropLast hold)
      · rw [List.mem_singleton] at hnew
        exact .inr (by rw [hnew])
    · exact .inl h

/-- What is promoted waited. -/
theorem EchoAck.mem_promote {echo : EchoAck} {now : ℕ} :
    (∀ e ∈ (echo.promote now).1.pending, e ∈ echo.pending) ∧
      ∀ seq ∈ (echo.promote now).2, ∃ e ∈ echo.pending, e.1 = seq := by
  refine ⟨fun e he => (List.dropWhile_suffix _).subset he, fun seq hseq => ?_⟩
  obtain ⟨e, he, rfl⟩ := Option.map_eq_some_iff.mp hseq
  exact ⟨e, (List.takeWhile_prefix _).subset (List.mem_of_getLast? he), rfl⟩

namespace Session

variable {vt : Emulator E K C M} {s s' s'' : Session E K C}

/-- Whether what the loop writes to the program of an input is of the newest attachment's:
at the top of a turn, nothing of an older one's is written whole. -/
def timely (s : Session E K C) : SessionMove K C → Bool
  | .top now .ok _ =>
    !(s.exited.isNone && (s.ending.ended now).isNone && !s.pending.isEmpty && s.pending.seq.isSome)
      || s.source = s.attaches
  | _ => true

/-- What holds of the numbers. -/
structure Numbered (s : Session E K C) : Prop where
  inputRx : ∀ i ∈ s.inputRx, i ∈ s.inputs
  pending : ∀ seq ∈ s.pending.seq, Of s.inputs s.source seq
  echo : ∀ e ∈ s.echo.pending, Of s.inputs s.attaches e.1
  written : Of s.inputs s.attaches s.written
  events : ∀ e ∈ s.events, e.2.Own s.inputs e.1
  starts : ∀ b ∈ s.starts, ∀ shown ∈ b.shown, (Event.show shown).Own s.inputs b.newest
  held : ∀ shown ∈ s.held, shown.isOutput = true

/-- The numbers stay as they are, and those that are told are the attachment's own. -/
structure Keeps (s s' : Session E K C) : Prop where
  attaches : s'.attaches = s.attaches
  inputs : s'.inputs = s.inputs
  inputRx : s'.inputRx = s.inputRx
  pending : s'.pending.seq = s.pending.seq ∨ s'.pending.seq = none
  source : s'.source = s.source
  echo : s'.echo = s.echo
  written : s'.written = s.written
  starts : s'.starts = s.starts
  events : ∀ e ∈ s'.events, e ∈ s.events ∨ e.2.Own s.inputs e.1
  held : ∀ shown ∈ s'.held, shown ∈ s.held ∨ shown.isOutput = true

namespace Keeps

theorem refl (s : Session E K C) : Keeps s s :=
  ⟨rfl, rfl, rfl, .inl rfl, rfl, rfl, rfl, rfl, fun _ => .inl, fun _ => .inl⟩

/-- Two changes that keep the numbers. -/
theorem trans (h : Keeps s s') (h' : Keeps s' s'') : Keeps s s'' where
  attaches := h'.attaches.trans h.attaches
  inputs := h'.inputs.trans h.inputs
  inputRx := h'.inputRx.trans h.inputRx
  pending := by
    rcases h'.pending with heq | hnone
    · rw [heq]
      exact h.pending
    · exact .inr hnone
  source := h'.source.trans h.source
  echo := h'.echo.trans h.echo
  written := h'.written.trans h.written
  starts := h'.starts.trans h.starts
  events e he := by
    rcases h'.events e he with hold | hown
    · exact h.events e hold
    · rw [h.inputs] at hown
      exact .inr hown
  held shown hshown := by
    rcases h'.held shown hshown with hold | houtput
    · exact h.held shown hold
    · exact .inr houtput

/-- An event is told whose number is the newest attachment's own. -/
theorem publish (h : Keeps s s') {event : Event} (hown : event.Own s.inputs s.attaches) :
    Keeps s (s'.publish event) := by
  refine h.trans ⟨rfl, rfl, rfl, .inl rfl, rfl, rfl, rfl, rfl, fun e he => ?_, fun _ => .inl⟩
  rcases List.mem_append.mp he with hold | hnew
  · exact .inl hold
  · rw [List.mem_singleton] at hnew
    subst hnew
    rw [h.inputs]
    show _ ∨ event.Own s.inputs s'.attaches
    rw [h.attaches]
    exact .inr hown

end Keeps

/-- What keeps the numbers leaves a session numbered. -/
theorem Numbered.keeps (h : s.Numbered) (hs : Keeps s s') : s'.Numbered where
  inputRx := by
    rw [hs.inputRx, hs.inputs]
    exact h.inputRx
  pending := by
    rw [hs.inputs, hs.source]
    rcases hs.pending with heq | hnone
    · rw [heq]
      exact h.pending
    · simp [hnone]
  echo := by
    rw [hs.echo, hs.inputs, hs.attaches]
    exact h.echo
  written := by
    rw [hs.inputs, hs.attaches, hs.written]
    exact h.written
  events e he := by
    rw [hs.inputs]
    rcases hs.events e he with hold | hown
    · exact h.events e hold
    · exact hown
  starts := by
    rw [hs.starts, hs.inputs]
    exact h.starts
  held shown hshown := (hs.held shown hshown).elim (h.held shown) id

/-! ### What tells no number but the newest attachment's -/

/-- Looking at the terminal's modes keeps the numbers. -/
theorem refreshTty_keeps (s : Session E K C) (modes : Option TtyModes) :
    Keeps s (s.refreshTty modes) := by
  unfold refreshTty
  split
  · split
    · exact .refl s
    · apply Keeps.publish
      · exact ⟨rfl, rfl, rfl, .inl rfl, rfl, rfl, rfl, rfl, fun _ => .inl, fun _ => .inl⟩
      · trivial
  · exact .refl s

/-- A probe keeps the numbers. -/
theorem probe_keeps (h : s.Numbered) (now : ℕ) (why : Probe)
    (activity : Option ℕ → Bool → Bool → Activity) : Keeps s (s.probe vt now why activity) := by
  unfold probe
  dsimp only
  split
  · apply Keeps.publish
    · exact ⟨rfl, rfl, rfl, .inl rfl, rfl, rfl, rfl, rfl, fun _ => .inl, fun _ => .inl⟩
    · exact h.written
  · exact ⟨rfl, rfl, rfl, .inl rfl, rfl, rfl, rfl, rfl, fun _ => .inl, fun _ => .inl⟩

variable (vt) in
/-- A title acknowledges nothing. -/
theorem tellTitle_keeps (s : Session E K C) : Keeps s (s.tellTitle vt) := by
  unfold tellTitle
  dsimp only
  split
  · exact .refl s
  · apply Keeps.publish
    · exact ⟨rfl, rfl, rfl, .inl rfl, rfl, rfl, rfl, rfl, fun _ => .inl, fun _ => .inl⟩
    · trivial

/-- Nor does the top row. -/
theorem tellTop_keeps (s : Session E K C) : Keeps s (s.tellTop vt) := by
  unfold tellTop
  dsimp only
  split
  · exact .refl s
  · split
    · apply Keeps.publish
      · exact ⟨rfl, rfl, rfl, .inl rfl, rfl, rfl, rfl, rfl, fun _ => .inl, fun _ => .inl⟩
      · trivial
    · exact ⟨rfl, rfl, rfl, .inl rfl, rfl, rfl, rfl, rfl, fun _ => .inl, fun _ => .inl⟩

/-- Nor does a bell. -/
theorem tellBells_keeps (s : Session E K C) : Keeps s (s.tellBells vt) := by
  unfold tellBells
  dsimp only
  split
  · exact .refl s
  · apply Keeps.publish
    · exact ⟨rfl, rfl, rfl, .inl rfl, rfl, rfl, rfl, rfl, fun _ => .inl, fun _ => .inl⟩
    · trivial

/-- Nor does output, as much as is held. -/
theorem foldl_show_keeps (held : List Shown) (hheld : ∀ shown ∈ held, shown.isOutput = true)
    (s : Session E K C) : Keeps s (held.foldl show_ s) := by
  induction held generalizing s with
  | nil => exact .refl s
  | cons shown held ih =>
    refine Keeps.trans (.publish (.refl s) ?_) (ih (fun m hm => hheld m (List.mem_cons_of_mem _ hm)) _)
    exact .of_isOutput (hheld shown List.mem_cons_self)

/-- So what is held acknowledges nothing when it is told. -/
theorem tellHeld_keeps (hheld : ∀ shown ∈ s.held, shown.isOutput = true) : Keeps s s.tellHeld := by
  refine Keeps.trans ?_ (foldl_show_keeps _ (isOutput_coalesce hheld) _)
  exact ⟨rfl, rfl, rfl, .inl rfl, rfl, rfl, rfl, rfl, fun _ => .inl, by simp⟩

variable (vt) in
/-- Nor does all that is released with it. -/
theorem release_keeps (h : s.Numbered) : Keeps s (s.release vt) := by
  have htitle := tellTitle_keeps vt s
  have htold := htitle.trans (tellHeld_keeps (h.keeps htitle).held)
  exact (htold.trans (tellTop_keeps _)).trans (tellBells_keeps _)

/-! ### One move -/

/-- A start acknowledges the client's own. -/
theorem start_own (h : s.Numbered) (history : ℕ) :
    ∀ shown ∈ (s.start vt history).shown, (Event.show shown).Own s.inputs s.attaches := by
  intro shown hshown
  simp only [start, List.mem_append, List.mem_flatMap, Option.mem_toList, Option.map_eq_some_iff,
    List.mem_cons, List.not_mem_nil, or_false] at hshown
  rcases hshown with (((⟨piece, -, hpiece⟩ | ⟨modes, -, rfl⟩) | rfl | rfl) | ⟨last, -, rfl⟩) |
    ⟨code, -, rfl⟩
  · exact .of_isOutput (isOutput_cut piece shown hpiece)
  · trivial
  · trivial
  · trivial
  · exact h.written
  · trivial

/-- A client begins numbered. -/
theorem begin_numbered (h : s.Numbered) (history : ℕ) : (s.begin vt history).Numbered :=
  { h with
    starts := fun b hb => by
      rcases List.mem_append.mp hb with hold | hnew
      · exact h.starts b hold
      · rw [List.mem_singleton] at hnew
        subst hnew
        exact start_own h history }

/-- A resize keeps the numbers, those of what is pending too. -/
theorem resize_keeps {pending : PendingInput} {size : Size} {r : Session E K C × PendingInput}
    (h : s.resize vt size pending = some r) : Keeps s r.1 ∧ r.2.seq = pending.seq := by
  obtain ⟨e, -, rfl⟩ := Option.map_eq_some_iff.mp h
  refine ⟨⟨rfl, rfl, rfl, .inl rfl, rfl, rfl, rfl, rfl, fun _ => .inl, fun _ => .inl⟩, ?_⟩
  cases vt.resizeReport e with
  | none => rfl
  | some report => exact PendingInput.reply_seq pending report

/-- A new client has no number yet. -/
theorem client_numbered (h : s.Numbered) (size : Size) (history : ℕ) :
    (s.client vt size history).Numbered := by
  unfold client
  dsimp only
  have hnew : Numbered { s with attaches := s.attaches + 1, echo := .empty, written := 0 } :=
    { h with
      echo := by simp [EchoAck.empty]
      written := .inl rfl }
  apply begin_numbered
  cases hsize : resize vt { s with attaches := s.attaches + 1, echo := .empty, written := 0 } size .empty with
  | none => exact hnew
  | some r => exact hnew.keeps (resize_keeps hsize).1

/-- Input of the newest client's is written. -/
theorem flush_numbered (h : s.Numbered) (now : ℕ) (wrote : Wrote)
    (htimely : wrote = .ok → s.pending.isEmpty = false → s.pending.seq.isSome = true →
      s.source = s.attaches) :
    (s.flush now wrote).Numbered := by
  unfold flush
  dsimp only
  rcases s.pending.flush_cases wrote with ⟨hwrote, hpending, heq⟩ | heq | heq
  · rw [heq]
    cases hseq : s.pending.seq with
    | none => exact h.keeps ⟨rfl, rfl, rfl, .inr rfl, rfl, rfl, rfl, rfl, fun _ => .inl, fun _ => .inl⟩
    | some seq =>
      have hown : Of s.inputs s.attaches seq := by
        rw [← htimely hwrote hpending (by rw [hseq]; rfl)]
        exact h.pending seq hseq
      exact { h with
        pending := by simp [PendingInput.empty]
        echo := fun e he => (EchoAck.mem_written he).elim (h.echo e) fun heq => heq ▸ hown
        written := hown }
  · rw [heq]
    exact h
  · rw [heq]
    exact h.keeps ⟨rfl, rfl, rfl, .inr rfl, rfl, rfl, rfl, rfl, fun _ => .inl, fun _ => .inl⟩

variable (vt) in
/-- The end leaves a session numbered. -/
theorem finish_numbered (h : s.Numbered) (exit : Exit) (keysLeft : Option Bool) :
    (s.finish vt exit keysLeft).Numbered := by
  have hrelease := h.keeps (release_keeps vt h)
  have hown : ∀ read : Option InputSeq, (∀ seq ∈ read, seq = (s.release vt).written) →
      (Event.show (.exit exit.code read)).Own (s.release vt).inputs (s.release vt).attaches := by
    intro read hread
    cases read with
    | none => trivial
    | some seq =>
      show Of _ _ seq
      rw [hread seq rfl]
      exact hrelease.written
  have htold := Keeps.publish (.refl _) (hown (if (s.release vt).pending.isEmpty &&
    keysLeft = some false then some (s.release vt).written else none) (by
      intro seq hseq
      split at hseq <;> cases hseq
      rfl))
  apply hrelease.keeps
  exact htold.trans ⟨rfl, rfl, rfl, .inr rfl, rfl, rfl, rfl, rfl, fun _ => .inl, fun _ => .inl⟩

/-- So does the top of the loop, where a write is timely. -/
theorem turnTop_numbered (h : s.Numbered) (now : ℕ) (wrote : Wrote) (keysLeft : Option Bool)
    (htimely : s.timely (.top now wrote keysLeft) = true) :
    (s.turnTop vt now wrote keysLeft).Numbered := by
  unfold turnTop
  dsimp only
  have hselect : ∀ s : Session E K C, s.Numbered → s.select.Numbered := fun s h =>
    h.keeps ⟨rfl, rfl, rfl, .inl rfl, rfl, rfl, rfl, rfl, fun _ => .inl, fun _ => .inl⟩
  apply hselect
  unfold checkEnd
  split
  · next exit _ _ =>
    have hfinish := finish_numbered vt h exit keysLeft
    rw [if_neg (by simp [finish])]
    exact hfinish
  · next hnot =>
    split
    · next hrunning =>
      refine flush_numbered h now wrote fun hwrote hpending hseq => ?_
      subst hwrote
      have hended : (s.ending.ended now).isNone = true := by
        rw [Option.isNone_iff_eq_none] at hrunning ⊢
        by_contra hsome
        obtain ⟨exit, hexit⟩ := Option.ne_none_iff_exists'.mp hsome
        exact hnot exit hrunning hexit
      simpa [timely, hrunning, hended, hpending, hseq] using htimely
    · exact h

/-- Output that is read keeps the numbers. -/
theorem output_keeps (s : Session E K C) (chunk : Bytes) : Keeps s (s.output vt chunk) := by
  refine ⟨rfl, rfl, rfl, .inl rfl, rfl, rfl, rfl, rfl, fun _ => .inl, fun shown hshown => ?_⟩
  rcases List.mem_append.mp hshown with hold | hnew
  · exact .inl hold
  · obtain ⟨piece, -, hpiece⟩ := List.mem_filterMap.mp hnew
    exact .inr (isOutput_of_shownOf hpiece)

variable (vt) in
/-- However much of it is read. -/
theorem readChunks_keeps (s : Session E K C) (now more : ℕ) : Keeps s (s.readChunks vt now more) := by
  unfold readChunks
  have hrest : Keeps s { s with
      ending := { s.ending with lastOutput := some now }, ptyRx := s.ptyRx.drop (more + 1) } :=
    ⟨rfl, rfl, rfl, .inl rfl, rfl, rfl, rfl, rfl, fun _ => .inl, fun _ => .inl⟩
  refine hrest.trans ?_
  generalize ({ s with
    ending := { s.ending with lastOutput := some now }, ptyRx := s.ptyRx.drop (more + 1) } :
      Session E K C) = s₁
  induction s.ptyRx.take (more + 1) generalizing s₁ with
  | nil => exact .refl s₁
  | cons chunk chunks ih => exact (output_keeps s₁ chunk).trans (ih _)

variable (vt) in
/-- An answer to the program is no input. -/
theorem answerHost_keeps (s : Session E K C) : Keeps s (s.answerHost vt) :=
  ⟨rfl, rfl, rfl, .inl (PendingInput.reply_seq _ _), rfl, rfl, rfl, rfl, fun _ => .inl, fun _ => .inl⟩

variable (vt) in
/-- Output keeps the numbers when it settles. -/
theorem settleOutput_keeps (h : s.Numbered) (now : ℕ) (modes : Option TtyModes) (atOnce : Bool) :
    Keeps s (s.settleOutput vt now modes atOnce) := by
  unfold settleOutput
  split
  · have hmodes := refreshTty_keeps s modes
    refine (hmodes.trans (release_keeps vt (h.keeps hmodes))).trans ?_
    exact ⟨rfl, rfl, rfl, .inl rfl, rfl, rfl, rfl, rfl, fun _ => .inl, fun _ => .inl⟩
  · split
    · exact ⟨rfl, rfl, rfl, .inl rfl, rfl, rfl, rfl, rfl, fun _ => .inl, fun _ => .inl⟩
    · exact .refl s

/-- An ask leaves a session numbered. -/
theorem serveAsk_numbered (h : s.Numbered) (ask : Ask) : (s.serveAsk vt ask).Numbered := by
  cases ask with
  | redraw seen => exact begin_numbered (h.keeps (release_keeps vt h)) _
  | ended =>
    simp only [serveAsk]
    split
    · exact h.keeps ⟨rfl, rfl, rfl, .inl rfl, rfl, rfl, rfl, rfl, fun _ => .inl, fun _ => .inl⟩
    · exact h
  | resize attach size =>
    simp only [serveAsk]
    split
    · split
      · next r pending hsize =>
        obtain ⟨hkeeps, hseq⟩ := resize_keeps hsize
        refine h.keeps ⟨hkeeps.attaches, hkeeps.inputs, hkeeps.inputRx, .inl hseq, hkeeps.source,
          hkeeps.echo, hkeeps.written, hkeeps.starts, hkeeps.events, hkeeps.held⟩
      · exact h
    · exact h
  | other => exact h

/-- So does an input that was taken. -/
theorem apply_numbered (h : s.Numbered) {input : Input K C} (hinput : input ∈ s.inputs) :
    (s.apply vt input).Numbered := by
  obtain ⟨attach, input⟩ := input
  cases input with
  | events seq events =>
    exact { h with
      pending := fun seq' hseq => by
        cases hseq
        exact .inr ⟨events, hinput⟩ }
  | colours colours =>
    exact h.keeps ⟨rfl, rfl, rfl, .inl rfl, rfl, rfl, rfl, rfl, fun _ => .inl, fun _ => .inl⟩

/-- A session begins numbered. -/
theorem init_numbered (vt : Emulator E K C M) (emu : E) (policy : Policy) (size : Size)
    (history : ℕ) (modes : Option TtyModes) : (init vt emu policy size history modes).Numbered := by
  have hblank : (blank emu policy : Session E K C).Numbered :=
    ⟨by simp [blank], by simp [blank, PendingInput.empty], by simp [blank, EchoAck.empty], .inl rfl,
      by simp [blank], by simp [blank], by simp [blank]⟩
  exact (client_numbered hblank size history).keeps (refreshTty_keeps _ modes)

variable [DecidableEq M]

/-- Output that is read leaves a session numbered. -/
theorem readOutput_numbered (h : s.Numbered) (now more : ℕ) (modes : Option TtyModes)
    (activity : Option ℕ → Bool → Bool → Activity) :
    (s.readOutput vt now more modes activity).Numbered := by
  have hread := h.keeps ((readChunks_keeps vt s now more).trans (answerHost_keeps vt _))
  unfold readOutput
  dsimp only
  generalize ((s.readChunks vt now more).answerHost vt) = s₁ at hread
  have hsettle := hread.keeps (settleOutput_keeps vt hread now modes
    (s₁.typedAt.any (now - · < ttySettle) || decide (vt.commands s₁.emu ≠ vt.commands s.emu) ||
      heldMost < s.heldBytes))
  split
  · exact hsettle.keeps (probe_keeps hsettle _ _ _)
  · exact hsettle

/-- One timely move keeps what holds of the numbers. -/
theorem step_numbered (h : s.Numbered) {m : SessionMove K C} (htimely : s.timely m = true)
    (hstep : s.step vt m = some s') : s'.Numbered := by
  have hagain : s.again.Numbered :=
    h.keeps ⟨rfl, rfl, rfl, .inl rfl, rfl, rfl, rfl, rfl, fun _ => .inl, fun _ => .inl⟩
  have hmore : ∀ {input : Input K C}, Numbered { s with
      inputRx := s.inputRx ++ [input], inputs := s.inputs ++ [input] } := by
    intro input
    have hsub : ∀ i ∈ s.inputs, i ∈ s.inputs ++ [input] := fun i => List.mem_append_left _
    refine ⟨fun i hi => ?_, fun seq hseq => (h.pending seq hseq).mono hsub,
      fun e he => (h.echo e he).mono hsub, h.written.mono hsub,
      fun e he => (h.events e he).mono hsub, fun b hb shown hshown => ?_, h.held⟩
    · rcases List.mem_append.mp hi with hold | hnew
      · exact hsub i (h.inputRx i hold)
      · exact List.mem_append_right _ hnew
    · exact (h.starts b hb shown hshown).mono hsub
  cases steps_of_step hstep with
  | send => exact hmore
  | top => exact turnTop_numbered h _ _ _ htimely
  | output => exact readOutput_numbered hagain _ _ _ _
  | wake | poll => exact hagain
  | @settled now due wait modes =>
    have hsettle : Numbered { s with
        turn := .top
        settle := if 2 * wait < ttyTick then some (now + 2 * wait, 2 * wait) else none } :=
      h.keeps ⟨rfl, rfl, rfl, .inl rfl, rfl, rfl, rfl, rfl, fun _ => .inl, fun _ => .inl⟩
    have hmodes := hsettle.keeps (refreshTty_keeps _ modes)
    exact hmodes.keeps (release_keeps vt hmodes)
  | @echoed now seq _ _ _ hseq =>
    have hpromoted : Numbered { s with turn := .top, echo := (s.echo.promote now).1 } :=
      { hagain with echo := fun e he => h.echo e (EchoAck.mem_promote.1 e he) }
    have hrelease := release_keeps vt hpromoted
    refine (hpromoted.keeps hrelease).keeps (.publish (.refl _) ?_)
    obtain ⟨e, he, rfl⟩ := EchoAck.mem_promote.2 seq hseq
    show Of _ _ _
    rw [hrelease.inputs, hrelease.attaches]
    exact h.echo e he
  | unechoed =>
    exact { hagain with echo := fun e he => h.echo e (EchoAck.mem_promote.1 e he) }
  | @takeInput input inputs _ hrx =>
    have htaken : Numbered { s with turn := .top, inputRx := inputs } :=
      { hagain with inputRx := fun i hi => h.inputRx i (hrx ▸ List.mem_cons_of_mem _ hi) }
    exact apply_numbered htaken (h.inputRx input (hrx ▸ List.mem_cons_self))
  | dropInput _ hrx =>
    exact { hagain with inputRx := fun i hi => h.inputRx i (hrx ▸ List.mem_cons_of_mem _ hi) }
  | takeAsk =>
    refine serveAsk_numbered (h.keeps ?_) _
    exact ⟨rfl, rfl, rfl, .inl rfl, rfl, rfl, rfl, rfl, fun _ => .inl, fun _ => .inl⟩
  | @takeAttach attach control =>
    have htaken : Numbered { s with turn := .top, control := control } :=
      h.keeps ⟨rfl, rfl, rfl, .inl rfl, rfl, rfl, rfl, rfl, fun _ => .inl, fun _ => .inl⟩
    exact client_numbered (htaken.keeps (release_keeps vt htaken)) _ _
  | tick =>
    refine (h.keeps ?_).keeps (refreshTty_keeps _ _)
    exact ⟨rfl, rfl, rfl, .inl rfl, rfl, rfl, rfl, rfl, fun _ => .inl, fun _ => .inl⟩
  | probe => exact hagain.keeps (probe_keeps hagain _ _ _)
  | _ => exact h.keeps ⟨rfl, rfl, rfl, .inl rfl, rfl, rfl, rfl, rfl, fun _ => .inl, fun _ => .inl⟩

/-- **Every number told is the attachment's own**, in a run in which nothing of an older
attachment's input is written once a newer one is: each echo's is of the attachment it
names, and each report's and end's of the newest then. -/
theorem numbers_own {vt : Emulator E K C M} {emu : E} {policy : Policy} {size : Size}
    {history : ℕ} {modes : Option TtyModes} {s : Session E K C}
    (h : Reaches (step vt) (timely · ·) (init vt emu policy size history modes) s) :
    (∀ e ∈ s.events, e.2.Own s.inputs e.1) ∧
      ∀ b ∈ s.starts, ∀ shown ∈ b.shown, (Event.show shown).Own s.inputs b.newest := by
  have hnumbered : s.Numbered := h.invariant Numbered (init_numbered vt emu policy size history modes)
    fun _ _ _ hs htimely hstep => step_numbered hs htimely hstep
  exact ⟨hnumbered.events, hnumbered.starts⟩

def plainSession : Session Bytes Bytes Unit :=
  init .plain [] ⟨.drop, true, true⟩ ⟨24, 80⟩ 0 none

/-- The first attachment's input 5 waits on a full PTY. -/
def inputWaits : List (SessionMove Bytes Unit) :=
  [.send ⟨1, .events 5 [[0x61]]⟩, .top 0 .ok none, .takeInput, .top 0 .full none]

/-- What is pending is written, and has its time to show. -/
def inputShown : List (SessionMove Bytes Unit) :=
  [.top 1 .ok none, .wake, .top 60 .ok none, .echoed 60]

/-- In `numbers_own`, an input is written late, and its echo told to its attachment. -/
theorem numbers_own_echo :
    ∃ s, Reaches (step .plain) (timely · ·) plainSession s ∧ s.events = [(1, .echo 1 5)] ∧
      ∀ e ∈ s.events, e.2.Own s.inputs e.1 := by
  obtain ⟨s, hs, hevents⟩ := Option.map_eq_some_iff.mp
    (show (runWhile (step .plain) (timely · ·) plainSession (inputWaits ++ .wake :: inputShown)).map
      Session.events = some [(1, .echo 1 5)] by decide +kernel)
  have hreach := reaches_of_run hs
  exact ⟨s, hreach, hevents, (numbers_own hreach).1⟩

/-- **A number is carried over**: an input of the first attachment's waits on a full PTY
while the second attaches, is then written, and its echo is told to the second, which
sent none. -/
theorem number_carried_over :
    ∃ s, Reachable (step .plain) plainSession s ∧
      ∃ e ∈ s.events, ¬ e.2.Own s.inputs e.1 := by
  obtain ⟨s, hs, hsees⟩ := Option.map_eq_some_iff.mp
    (show (runWhile (step .plain) (fun _ _ => True) plainSession
      (inputWaits ++ .request ⟨⟨24, 80⟩, 0, ⟨none, none⟩, 0⟩ :: .takeAttach :: inputShown)).map
        (fun s => (s.events, s.inputs)) =
      some ([(2, .echo 2 5)], [⟨1, .events 5 [[0x61]]⟩]) by decide +kernel)
  obtain ⟨hevents, hinputs⟩ := Prod.mk.inj hsees
  refine ⟨s, reaches_of_run hs, (2, .echo 2 5), by simp [hevents], ?_⟩
  rw [hinputs]
  rintro (hzero | ⟨events, hmem⟩)
  · cases hzero
  · simp at hmem

end Session

end Koh.Server
