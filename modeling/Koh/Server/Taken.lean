import Koh.Server.Echo

/-!
# Inputs taken, and written

An input that a session takes rides with its bytes in what is pending, and counts as written once
they are. One that encodes to no bytes rides with none: nothing is pending, and it does not count.

## Main definitions

- `Typed`: a session, and the newest input that it took of its newest attachment
- `Session.bears`: a move leaves no input behind
- `Typed.Counted`: with nothing pending, the newest input taken is written, and its echo owed

## Main results

- `Session.step_steady`: what most moves leave alone
- `Typed.Counts.step`: what every move keeps that leaves no input behind
- `Typed.inputs_counted`: in runs of such moves, inputs come to count as written
- `Typed.silent_uncounted`: an input that encodes to no bytes does not
- `Typed.focus_uncounted`: a run in which one does not

## Design notes

`taken` is no part of the code.
-/

namespace Koh.Server

open Koh.Stream Koh.Lib

variable {E K C M : Type}

namespace Session

variable {vt : Emulator E K C M} {s s' s'' : Session E K C}

/-! ### What most moves leave alone -/

/-- No input is taken, written or echoed: what is pending stays, or grows by replies. -/
structure Steady (s s' : Session E K C) : Prop where
  attaches : s'.attaches = s.attaches
  exited : s'.exited = s.exited
  echo : s'.echo = s.echo
  written : s'.written = s.written
  seq : s'.pending.seq = s.pending.seq
  bytes : s.pending.bytes ≠ [] → s'.pending.bytes ≠ []
  events : ∀ e ∈ s.events, e ∈ s'.events

/-- Nothing that is looked at changes. -/
theorem Steady.of_eq (hattaches : s'.attaches = s.attaches) (hexited : s'.exited = s.exited)
    (hecho : s'.echo = s.echo) (hwritten : s'.written = s.written)
    (hpending : s'.pending = s.pending) (hevents : s'.events = s.events) : Steady s s' :=
  ⟨hattaches, hexited, hecho, hwritten, congrArg PendingInput.seq hpending,
    fun h => hpending ▸ h, fun _ he => hevents ▸ he⟩

theorem Steady.refl (s : Session E K C) : Steady s s := .of_eq rfl rfl rfl rfl rfl rfl

/-- Two steady changes. -/
theorem Steady.trans (h : Steady s s') (h' : Steady s' s'') : Steady s s'' where
  attaches := h'.attaches.trans h.attaches
  exited := h'.exited.trans h.exited
  echo := h'.echo.trans h.echo
  written := h'.written.trans h.written
  seq := h'.seq.trans h.seq
  bytes hbytes := h'.bytes (h.bytes hbytes)
  events e he := h'.events e (h.events e he)

theorem Steady.after (h' : Steady s' s'') (h : Steady s s') : Steady s s'' := h.trans h'

/-- What is published changes nothing of what was taken. -/
theorem Steady.publish (h : Steady s s') (event : Event) : Steady s (s'.publish event) :=
  h.trans ⟨rfl, rfl, rfl, rfl, rfl, id, fun _ he => List.mem_append_left _ he⟩

/-- A reply to the program is no input. -/
theorem reply_steady (s : Session E K C) (bytes : Bytes) :
    Steady s { s with pending := s.pending.reply bytes } := by
  refine ⟨rfl, rfl, rfl, rfl, PendingInput.reply_seq _ _, fun hbytes => ?_, fun _ => id⟩
  simp only [PendingInput.reply]
  split
  · exact hbytes
  · simp [hbytes]

/-- Looking at the terminal's modes takes no input. -/
theorem refreshTty_steady (s : Session E K C) (modes : Option TtyModes) :
    Steady s (s.refreshTty modes) := by
  unfold refreshTty
  split
  · split
    · exact .refl s
    · refine .publish ?_ _
      exact .of_eq rfl rfl rfl rfl rfl rfl
  · exact .refl s

/-- Nor does a probe. -/
theorem probe_steady (vt : Emulator E K C M) (s : Session E K C) (now : ℕ) (why : Probe)
    (activity : Option ℕ → Bool → Bool → Activity) : Steady s (s.probe vt now why activity) := by
  unfold probe
  dsimp only
  split
  · refine .publish ?_ _
    exact .of_eq rfl rfl rfl rfl rfl rfl
  · exact .of_eq rfl rfl rfl rfl rfl rfl

/-- Nor does a title. -/
theorem tellTitle_steady (vt : Emulator E K C M) (s : Session E K C) :
    Steady s (s.tellTitle vt) := by
  unfold tellTitle
  dsimp only
  split
  · exact .refl s
  · refine .publish ?_ _
    exact .of_eq rfl rfl rfl rfl rfl rfl

/-- Nor does the top row. -/
theorem tellTop_steady (vt : Emulator E K C M) (s : Session E K C) : Steady s (s.tellTop vt) := by
  unfold tellTop
  dsimp only
  split
  · exact .refl s
  · split
    · refine .publish ?_ _
      exact .of_eq rfl rfl rfl rfl rfl rfl
    · exact .of_eq rfl rfl rfl rfl rfl rfl

/-- Nor does a bell. -/
theorem tellBells_steady (vt : Emulator E K C M) (s : Session E K C) :
    Steady s (s.tellBells vt) := by
  unfold tellBells
  dsimp only
  split
  · exact .refl s
  · refine .publish ?_ _
    exact .of_eq rfl rfl rfl rfl rfl rfl

/-- Nor does what is held, when it is told. -/
theorem tellHeld_steady (s : Session E K C) : Steady s s.tellHeld := by
  have hfold : ∀ (held : List Shown) (s : Session E K C), Steady s (held.foldl show_ s) := by
    intro held
    induction held with
    | nil => exact .refl
    | cons shown held ih => exact fun s => (ih _).after (.publish (.refl s) _)
  exact (hfold _ _).after (.of_eq rfl rfl rfl rfl rfl rfl)

/-- Nor does all that is released. -/
theorem release_steady (vt : Emulator E K C M) (s : Session E K C) : Steady s (s.release vt) :=
  (((tellTitle_steady vt s).trans (tellHeld_steady _)).trans (tellTop_steady vt _)).trans
    (tellBells_steady vt _)

/-- Nor does a resize. -/
theorem resize_steady {size : Size} {r : Session E K C × PendingInput}
    (h : s.resize vt size s.pending = some r) : Steady s { r.1 with pending := r.2 } := by
  obtain ⟨e, -, rfl⟩ := Option.map_eq_some_iff.mp h
  cases vt.resizeReport e with
  | none => exact .of_eq rfl rfl rfl rfl rfl rfl
  | some report => exact (reply_steady s report).trans (.of_eq rfl rfl rfl rfl rfl rfl)

/-- What is pending waits through an attach. -/
theorem client_pending (vt : Emulator E K C M) (s : Session E K C) (size : Size) (history : ℕ) :
    (s.client vt size history).pending = s.pending := by
  unfold client
  dsimp only
  cases hsize : resize vt { s with attaches := s.attaches + 1, echo := .empty, written := 0 } size
    .empty with
  | none => rfl
  | some r =>
    obtain ⟨e, -, rfl⟩ := Option.map_eq_some_iff.mp hsize
    rfl

/-- Nor does an ask. -/
theorem serveAsk_steady (vt : Emulator E K C M) (s : Session E K C) (ask : Ask) :
    Steady s (s.serveAsk vt ask) := by
  cases ask with
  | redraw seen => exact (release_steady vt s).trans (.of_eq rfl rfl rfl rfl rfl rfl)
  | ended =>
    simp only [serveAsk]
    split <;> exact .of_eq rfl rfl rfl rfl rfl rfl
  | resize attach size =>
    simp only [serveAsk]
    split
    · split
      · next hsize => exact resize_steady hsize
      · exact .refl s
    · exact .refl s
  | other => exact .refl s

/-- Nor does output. -/
theorem readChunks_steady (vt : Emulator E K C M) (s : Session E K C) (now more : ℕ) :
    Steady s (s.readChunks vt now more) := by
  have hfold : ∀ (chunks : List Bytes) (s : Session E K C),
      Steady s (chunks.foldl (output vt) s) := by
    intro chunks
    induction chunks with
    | nil => exact .refl
    | cons chunk chunks ih =>
      intro s
      have houtput : Steady s (s.output vt chunk) := .of_eq rfl rfl rfl rfl rfl rfl
      exact houtput.trans (ih _)
  refine Steady.trans ?_ (hfold _ _)
  exact .of_eq rfl rfl rfl rfl rfl rfl

/-- Nor does an answer to the program. -/
theorem answerHost_steady (vt : Emulator E K C M) (s : Session E K C) :
    Steady s (s.answerHost vt) :=
  (reply_steady s _).trans (.of_eq rfl rfl rfl rfl rfl rfl)

/-- Nor does output when it settles. -/
theorem settleOutput_steady (vt : Emulator E K C M) (s : Session E K C) (now : ℕ)
    (modes : Option TtyModes) (atOnce : Bool) : Steady s (s.settleOutput vt now modes atOnce) := by
  unfold settleOutput
  split
  · refine ((refreshTty_steady s modes).trans (release_steady vt _)).trans ?_
    exact .of_eq rfl rfl rfl rfl rfl rfl
  · split <;> exact .of_eq rfl rfl rfl rfl rfl rfl

variable [DecidableEq M]

/-- Nor when it is read. -/
theorem readOutput_steady (vt : Emulator E K C M) (s : Session E K C) (now more : ℕ)
    (modes : Option TtyModes) (activity : Option ℕ → Bool → Bool → Activity) :
    Steady s (s.readOutput vt now more modes activity) := by
  have hsettle := fun atOnce => ((readChunks_steady vt s now more).trans
    (answerHost_steady vt _)).trans (settleOutput_steady vt _ now modes atOnce)
  unfold readOutput
  dsimp only
  split
  · exact (hsettle _).trans (probe_steady vt _ _ _ _)
  · exact hsettle _


/-- Whether a move may take, write or echo an input. -/
def SessionMove.busy : SessionMove K C → Bool
  | .top _ _ _ | .echoed _ | .takeInput | .takeAttach => true
  | _ => false

/-- A move that is not busy takes and writes no input. -/
theorem step_steady {m : SessionMove K C} (hm : SessionMove.busy m = false)
    (hstep : s.step vt m = some s') : Steady s s' := by
  cases steps_of_step hstep with
  | output =>
    exact (readOutput_steady vt s.again _ _ _ _).after (.of_eq rfl rfl rfl rfl rfl rfl)
  | settled =>
    refine ((refreshTty_steady _ _).trans (release_steady vt _)).after ?_
    exact .of_eq rfl rfl rfl rfl rfl rfl
  | takeAsk => exact (serveAsk_steady vt _ _).after (.of_eq rfl rfl rfl rfl rfl rfl)
  | tick => exact (refreshTty_steady _ _).after (.of_eq rfl rfl rfl rfl rfl rfl)
  | probe => exact (probe_steady vt s.again _ _ _).after (.of_eq rfl rfl rfl rfl rfl rfl)
  | top | echoed | unechoed | takeInput | dropInput | takeAttach => cases hm
  | _ => exact .of_eq rfl rfl rfl rfl rfl rfl

/-! ### Inputs taken -/

/-- The newest input taken of the newest attachment, after a move; `last` before. -/
def tookLast (s : Session E K C) (last : Option InputSeq) : SessionMove K C → Option InputSeq
  | .takeInput => match s.inputRx with
    | ⟨attach, .events seq _⟩ :: _ =>
      if attach = s.attaches && s.exited.isNone then some seq else last
    | _ => last
  | .takeAttach => none
  | _ => last

/-- A move leaves no input behind: one that is taken encodes to some bytes; and one that waits is
not refused for good, nor does a new attachment come. -/
def bears (vt : Emulator E K C M) (s : Session E K C) : SessionMove K C → Bool
  | .takeInput => match s.inputRx with
    | ⟨attach, .events _ events⟩ :: _ =>
      !(attach = s.attaches && s.exited.isNone) || vt.encodeInput s.emu events ≠ []
    | _ => true
  | .top _ .closed _ => s.pending.seq.isNone
  | .takeAttach => s.pending.seq.isNone
  | _ => true

/-- The echo of input `seq` is owed, or told. -/
def Echoes (s : Session E K C) (seq : InputSeq) : Prop :=
  s.echo.pending.getLast?.map Prod.fst = some seq ∨ (s.attaches, .echo s.attaches seq) ∈ s.events

/-- What waits for its echo waits on. -/
theorem Echoes.steady {seq : InputSeq} (h : s.Echoes seq) (hs : Steady s s') : s'.Echoes seq := by
  rcases h with hlast | htold
  · exact .inl (hs.echo ▸ hlast)
  · exact .inr (hs.attaches ▸ hs.events _ htold)

end Session

/-- An input written is the last to await its echo. -/
theorem EchoAck.written_last (echo : EchoAck) (seq : InputSeq) (now : ℕ) :
    (echo.written seq now).pending.getLast?.map Prod.fst = some seq := by
  unfold EchoAck.written
  split
  · simp
  · next hfull =>
    split
    · simp
    · next hnone =>
      rw [List.getLast?_eq_none_iff] at hnone
      simp [hnone, echoPending] at hfull

/-- The last to await its echo awaits it still, or is the one promoted. -/
theorem EchoAck.promote_last {echo : EchoAck} {seq : InputSeq}
    (h : echo.pending.getLast?.map Prod.fst = some seq) (now : ℕ) :
    (echo.promote now).1.pending.getLast?.map Prod.fst = some seq ∨
      (echo.promote now).2 = some seq := by
  have hsplit := List.takeWhile_append_dropWhile
    (p := fun e : InputSeq × ℕ => decide (echoTimeout ≤ now - e.2)) (l := echo.pending)
  unfold EchoAck.promote
  dsimp only
  cases hrest : echo.pending.dropWhile fun e => decide (echoTimeout ≤ now - e.2) with
  | nil =>
    rw [hrest, List.append_nil] at hsplit
    exact .inr (hsplit.symm ▸ h)
  | cons e rest =>
    rw [hrest] at hsplit
    rw [← hsplit, List.getLast?_append_of_ne_nil _ (by simp)] at h
    exact .inl h

/-! ### Runs -/

/-- A session, and the newest input that it took of its newest attachment. -/
structure Typed (E K C : Type) where
  session : Session E K C
  taken : Option InputSeq

namespace Typed

variable {vt : Emulator E K C M} {t t' : Typed E K C}

def step [DecidableEq M] (vt : Emulator E K C M) (t : Typed E K C) (m : SessionMove K C) :
    Option (Typed E K C) :=
  (t.session.step vt m).map fun s => ⟨s, t.session.tookLast t.taken m⟩

def init (vt : Emulator E K C M) (emu : E) (policy : Policy) (size : Size) (history : ℕ)
    (modes : Option TtyModes) : Typed E K C :=
  ⟨.init vt emu policy size history modes, none⟩

/-- While the program runs, with nothing pending, the newest input taken is the one written, and
its echo is owed, or told. -/
def Counted (t : Typed E K C) : Prop :=
  t.session.exited = none → t.session.pending.isEmpty = true →
    ∀ seq, t.taken = some seq → t.session.written = seq ∧ t.session.Echoes seq

/-- While the program runs, the input that is pending is the newest taken, and has bytes; with none
pending, the newest taken is the one written. -/
structure Counts (t : Typed E K C) : Prop where
  pending : ∀ seq, t.session.pending.seq = some seq →
    t.session.pending.bytes ≠ [] ∧ t.taken = some seq
  written : t.session.pending.seq = none → ∀ seq, t.taken = some seq →
    t.session.written = seq ∧ t.session.Echoes seq

/-- While the program runs the counts are kept. -/
theorem Counts.counted (h : t.session.exited = none → t.Counts) : t.Counted := by
  intro hrunning hempty seq htaken
  have hcounts := h hrunning
  cases hseq : t.session.pending.seq with
  | none => exact hcounts.written hseq seq htaken
  | some held =>
    have hbytes := (hcounts.pending held hseq).1
    exact absurd (by simpa [PendingInput.isEmpty] using hempty) hbytes

/-- A steady change keeps the counts. -/
theorem Counts.steady {s : Session E K C} (h : t.Counts) (hs : Session.Steady t.session s) :
    Counts ⟨s, t.taken⟩ where
  pending seq hseq := by
    obtain ⟨hbytes, htaken⟩ := h.pending seq (hs.seq ▸ hseq)
    exact ⟨hs.bytes hbytes, htaken⟩
  written hseq seq htaken := by
    obtain ⟨hwritten, hechoes⟩ := h.written (hs.seq ▸ hseq) seq htaken
    exact ⟨hs.written.trans hwritten, hechoes.steady hs⟩

/-- What is pending is written, if it can be: the input it held counts as written then. -/
theorem Counts.flush (h : t.Counts) (now : ℕ) {wrote : Wrote}
    (hbears : wrote = .closed → t.session.pending.seq = none) :
    Counts ⟨t.session.flush now wrote, t.taken⟩ := by
  have hgone : t.session.pending.seq = none →
      Counts ⟨{ t.session with pending := .empty }, t.taken⟩ := fun hnone =>
    ⟨fun seq hseq => (by cases hseq), fun _ => h.written hnone⟩
  unfold Session.flush PendingInput.flush
  split
  · exact ⟨h.pending, h.written⟩
  · cases wrote with
    | ok =>
      cases hseq : t.session.pending.seq with
      | none => exact hgone hseq
      | some seq =>
        refine ⟨fun _ hnone => (by cases hnone), fun _ taken htaken => ?_⟩
        have hheld := (h.pending seq hseq).2
        cases hheld.symm.trans htaken
        exact ⟨rfl, .inl (EchoAck.written_last _ _ _)⟩
    | full => exact ⟨h.pending, h.written⟩
    | closed => exact hgone (hbears rfl)

/-- A turn of the loop, up to the `select!`, unless the program counts as ended then. -/
theorem Counts.turnTop (h : t.session.exited = none → t.Counts) (now : ℕ) {wrote : Wrote}
    (keysLeft : Option Bool) (hbears : wrote = .closed → t.session.pending.seq = none)
    (hrunning : (t.session.turnTop vt now wrote keysLeft).exited = none) :
    Counts ⟨t.session.turnTop vt now wrote keysLeft, t.taken⟩ := by
  have hflush : ∀ s : Session E K C, (s.flush now wrote).exited = s.exited := by
    intro s
    unfold Session.flush
    dsimp only
    split <;> rfl
  unfold Session.turnTop at hrunning ⊢
  unfold Session.checkEnd at hrunning ⊢
  split at hrunning
  · -- The program counts as ended.
    cases hrunning
  · dsimp only at hrunning ⊢
    split at hrunning
    · next hnone =>
      rw [if_pos hnone]
      have hflushed := (h (by simpa using hnone)).flush now hbears
      exact ⟨hflushed.pending, hflushed.written⟩
    · next hsome =>
      simp only [Session.select] at hrunning
      simp [hrunning] at hsome

/-- An input that had its time to show is promoted, and its echo told. -/
theorem Counts.promote (h : t.Counts) (now : ℕ) {s : Session E K C}
    (hs : Session.Steady { t.session with echo := (t.session.echo.promote now).1 } s)
    (htold : ∀ seq, (t.session.echo.promote now).2 = some seq →
      (s.attaches, .echo s.attaches seq) ∈ s.events) : Counts ⟨s, t.taken⟩ where
  pending seq hseq := by
    obtain ⟨hbytes, htaken⟩ := h.pending seq (hs.seq.symm.trans hseq)
    exact ⟨hs.bytes hbytes, htaken⟩
  written hseq seq htaken := by
    obtain ⟨hwritten, hechoes⟩ := h.written (hs.seq.symm.trans hseq) seq htaken
    refine ⟨hs.written.trans hwritten, ?_⟩
    rcases hechoes with hlast | hevent
    · rcases EchoAck.promote_last hlast now with hlast | hpromoted
      · exact .inl (hs.echo ▸ hlast)
      · exact .inr (htold seq hpromoted)
    · have hattaches : s.attaches = t.session.attaches := hs.attaches
      exact .inr (hattaches ▸ hs.events _ hevent)

/-- An input is taken: it rides with its bytes. -/
theorem Counts.apply (h : t.Counts) {input : Input K C} {inputs : List (Input K C)}
    (hrx : t.session.inputRx = input :: inputs) (hempty : t.session.pending.isEmpty = true)
    (hrunning : t.session.exited = none) (hattach : input.attach = t.session.attaches)
    (hbears : t.session.bears vt .takeInput = true) :
    Counts ⟨({ t.session with turn := .top, inputRx := inputs } : Session E K C).apply vt input,
      t.session.tookLast t.taken .takeInput⟩ := by
  have hbytes : t.session.pending.bytes = [] := by simpa [PendingInput.isEmpty] using hempty
  have hnone : t.session.pending.seq = none := by
    cases hseq : t.session.pending.seq with
    | none => rfl
    | some seq => exact absurd hbytes (h.pending seq hseq).1
  obtain ⟨attach, input⟩ := input
  cases input with
  | events seq events =>
    simp only [Session.bears, hrx] at hbears
    simp only [Session.tookLast, hrx]
    have hattach : attach = t.session.attaches := hattach
    simp only [hattach, hrunning, decide_true, Option.isNone_none, Bool.and_self, Bool.not_true,
      Bool.false_or, decide_eq_true_eq] at hbears
    simp only [hattach, hrunning, decide_true, Option.isNone_none, Bool.and_self, if_true]
    refine ⟨fun held hheld => ?_, fun hno => (by cases hno)⟩
    cases hheld
    refine ⟨?_, rfl⟩
    simpa [Session.apply, hbytes] using hbears
  | colours colours =>
    simp only [Session.tookLast, hrx]
    exact ⟨fun held hheld => (by cases hnone.symm.trans hheld), fun _ => h.written hnone⟩

variable [DecidableEq M]

/-- What every move keeps that leaves no input behind. -/
theorem Counts.step {m : SessionMove K C} (h : t.session.exited = none → t.Counts)
    (hbears : t.session.bears vt m = true) (hstep : t.step vt m = some t') :
    t'.session.exited = none → t'.Counts := by
  obtain ⟨s, hs, rfl⟩ := Option.map_eq_some_iff.mp hstep
  intro hrunning
  cases hbusy : Session.SessionMove.busy m with
  | false =>
    have hsteady := Session.step_steady hbusy hs
    have hcounts := (h (hsteady.exited.symm.trans hrunning)).steady hsteady
    cases m <;> first | exact hcounts | cases hbusy
  | true =>
    cases Session.steps_of_step hs with
    | @top now wrote keysLeft =>
      refine Counts.turnTop h now keysLeft (fun hclosed => ?_) hrunning
      rw [hclosed] at hbears
      simpa [Session.bears] using hbears
    | @echoed now seq _ _ _ hseq =>
      have hrelease : Session.Steady
          { t.session with echo := (t.session.echo.promote now).1 }
          (({ t.session with
            turn := .top
            echo := (t.session.echo.promote now).1 } : Session E K C).release vt) :=
        (Session.release_steady vt _).after (.of_eq rfl rfl rfl rfl rfl rfl)
      have hpublish := hrelease.publish (.echo (({ t.session with
        turn := .top
        echo := (t.session.echo.promote now).1 } : Session E K C).release vt).attaches seq)
      have hwas : t.session.exited = none := hpublish.exited.symm.trans hrunning
      refine (h hwas).promote now hpublish fun told htold => ?_
      cases hseq.symm.trans htold
      exact List.mem_append_right _ (List.mem_singleton_self _)
    | @unechoed now _ _ _ hnone =>
      refine (h hrunning).promote now (.of_eq rfl rfl rfl rfl rfl rfl) fun told htold => ?_
      cases hnone.symm.trans htold
    | takeInput _ hrx hfree hown =>
      simp only [Bool.and_eq_true, decide_eq_true_eq, Option.isNone_iff_eq_none] at hown
      rw [Bool.or_eq_true, hown.2] at hfree
      exact (h hown.2).apply hrx (hfree.resolve_right (by simp)) hown.2 hown.1 hbears
    | @dropInput input inputs _ hrx _ hnot =>
      have hcounts := (h hrunning).steady (s := { t.session with turn := .top, inputRx := inputs })
        (.of_eq rfl rfl rfl rfl rfl rfl)
      -- An input of an older attachment is dropped.
      have hlast : t.session.tookLast t.taken .takeInput = t.taken := by
        obtain ⟨attach, _ | _⟩ := input
        · simp only [Session.tookLast, hrx, hnot, Bool.false_eq_true, if_false]
        · simp only [Session.tookLast, hrx]
      exact hlast.symm ▸ hcounts
    | @takeAttach attach control =>
      refine ⟨fun seq hseq => ?_, fun _ seq hnone => by cases hnone⟩
      have hreleased := Session.release_steady vt ({ t.session with
        turn := .top
        control := control } : Session E K C)
      rw [Session.client_pending, hreleased.seq] at hseq
      rw [Session.bears, Option.isNone_iff_eq_none] at hbears
      cases hbears.symm.trans hseq
    | _ => cases hbusy

omit [DecidableEq M] in
/-- No input was taken. -/
theorem init_counts (vt : Emulator E K C M) (emu : E) (policy : Policy) (size : Size)
    (history : ℕ) (modes : Option TtyModes) : (init vt emu policy size history modes).Counts := by
  have hsteady := Session.refreshTty_steady
    ((Session.blank emu policy : Session E K C).client vt size history) modes
  refine ⟨fun seq hseq => ?_, fun _ seq hnone => by cases hnone⟩
  have hpending := hsteady.seq.symm.trans hseq
  rw [Session.client_pending] at hpending
  cases hpending

/-- **Every input taken comes to count as written**, in a run whose moves leave no input behind:
while the program runs, with nothing pending, the newest taken of the newest attachment is the one
written, and its echo is owed, or told. -/
theorem inputs_counted {vt : Emulator E K C M} {emu : E} {policy : Policy} {size : Size}
    {history : ℕ} {modes : Option TtyModes}
    (h : Reaches (step vt) (fun t m => t.session.bears vt m = true)
      (init vt emu policy size history modes) t) : t.Counted :=
  Counts.counted (h.invariant (fun t => t.session.exited = none → t.Counts)
    (fun _ => init_counts vt emu policy size history modes)
    fun _ _ _ hcounts hbears hstep => Counts.step hcounts hbears hstep)

/-- An input that encodes to no bytes, and has another number than the one written, does not count
once it is taken. -/
theorem silent_uncounted {seq : InputSeq} {events : List K} {inputs : List (Input K C)}
    (hrx : t.session.inputRx = ⟨t.session.attaches, .events seq events⟩ :: inputs)
    (hrunning : t.session.exited = none) (hempty : t.session.pending.isEmpty = true)
    (hsilent : vt.encodeInput t.session.emu events = []) (hwritten : t.session.written ≠ seq)
    (hstep : t.step vt .takeInput = some t') : ¬ t'.Counted := by
  obtain ⟨s, hs, rfl⟩ := Option.map_eq_some_iff.mp hstep
  cases Session.steps_of_step hs with
  | takeInput _ hrx' =>
    cases hrx.symm.trans hrx'
    intro hcounted
    have htaken : t.session.tookLast t.taken .takeInput = some seq := by
      simp [Session.tookLast, hrx, hrunning]
    have hpending : (t.session.pending.bytes ++ vt.encodeInput t.session.emu events) = [] := by
      simpa [PendingInput.isEmpty, hsilent] using hempty
    refine hwritten (hcounted hrunning ?_ seq htaken).1
    simpa [PendingInput.isEmpty, Session.apply] using hpending
  | dropInput _ hrx' _ hnot =>
    cases hrx.symm.trans hrx'
    simp [hrunning] at hnot

/-- The plain emulator's session, with an input of `keys`, taken and then time to be written. -/
def runOf (keys : List Bytes) : List (SessionMove Bytes Unit) :=
  [.send ⟨1, .events 1 keys⟩, .top 0 .ok none, .takeInput, .top 1 .ok none, .wake, .top 60 .ok none]

def plain : Typed Bytes Bytes Unit := init .plain [] ⟨.drop, true, true⟩ ⟨24, 80⟩ 0 none

/-- In `inputs_counted`, a key is taken and written. -/
theorem inputs_counted_key :
    ∃ t, Reaches (step .plain) (fun t m => t.session.bears .plain m = true) plain t ∧
      t.taken = some 1 ∧ t.Counted := by
  obtain ⟨t, ht, htaken⟩ := Option.map_eq_some_iff.mp
    (show (runWhile (step .plain) (fun t m => t.session.bears .plain m = true) plain
      (runOf [[0x61]])).map taken = some (some 1) by decide +kernel)
  have hreach := reaches_of_run ht
  exact ⟨t, hreach, htaken, inputs_counted hreach⟩

/-- An input of an event that the program did not ask for, which encodes to no bytes, does not count
as written, however long nothing is pending. -/
theorem focus_uncounted :
    ∃ t, Lib.Reachable (step .plain) plain t ∧ t.session.inputs = [⟨1, .events 1 [[]]⟩] ∧
      ¬ t.Counted := by
  obtain ⟨t, ht, hsees⟩ := Option.map_eq_some_iff.mp
    (show (runWhile (step .plain) (fun _ _ => True) plain (runOf [[]])).map
        (fun t => (t.session.inputs, t.session.exited.isNone, t.session.pending.isEmpty, t.taken,
          t.session.written)) =
      some ([⟨1, .events 1 [[]]⟩], true, true, some 1, 0) by decide +kernel)
  simp only [Prod.mk.injEq, Option.isNone_iff_eq_none] at hsees
  obtain ⟨hinputs, hrunning, hempty, htaken, hwritten⟩ := hsees
  refine ⟨t, reaches_of_run ht, hinputs, fun hcounted => ?_⟩
  cases hwritten.symm.trans (hcounted hrunning hempty 1 htaken).1

end Typed

end Koh.Server
