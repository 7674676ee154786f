import Koh.Server.Session

/-!
# What a session's moves do to its queues

A session is handed input and asks by others, and takes them in the order handed. Whoever
shares its queues needs no more of its moves than that, and what they tell of the program's
end.

## Main definitions

- `Session.Calm`: the queues stay as they are
- `Event.isEnd`: the program's end is told

## Main results

- `Session.step_queues`: what each move does to the queues
- `Session.step_sober`: the program's end is told only once it has ended
- `Session.step_over`: a session that is over stays so
-/

namespace Koh.Server

open Koh.Stream Koh.Lib

variable {E K C M : Type}

def Shown.isEnd : Shown → Bool
  | .exit _ _ => true
  | _ => false

def Event.isEnd : Event → Bool
  | .show shown => shown.isEnd
  | _ => false

/-- Output is no end. -/
theorem Shown.isEnd_of_isOutput {shown : Shown} (h : shown.isOutput = true) :
    shown.isEnd = false := by
  cases shown <;> first | rfl | cases h

namespace Session

variable {vt : Emulator E K C M} {s s' s'' : Session E K C}

/-- What is held is output, and the program's end is told only once it has ended. -/
structure Sober (s : Session E K C) : Prop where
  held : ∀ shown ∈ s.held, shown.isOutput = true
  events : ∀ e ∈ s.events, e.2.isEnd = true → s.exited.isSome = true

/-- The queues and the attachments stay as they are, an end that was told stays, and none is
told before. -/
structure Calm (s s' : Session E K C) : Prop where
  inputRx : s'.inputRx = s.inputRx
  asksRx : s'.asksRx = s.asksRx
  attaches : s'.attaches = s.attaches
  exited : s'.exited = none → s.exited = none
  held : ∀ shown ∈ s'.held, shown ∈ s.held ∨ shown.isOutput = true
  events : ∀ e ∈ s'.events, e ∈ s.events ∨ (e.2.isEnd = true → s'.exited.isSome = true)

theorem isSome_of_exited (h : s'.exited = none → s.exited = none) (hsome : s.exited.isSome = true) :
    s'.exited.isSome = true := by
  cases hs' : s'.exited with
  | none =>
    rw [h hs'] at hsome
    cases hsome
  | some code => rfl

/-- Nothing that is looked at changes. -/
theorem Calm.of_eq (hinput : s'.inputRx = s.inputRx) (hasks : s'.asksRx = s.asksRx)
    (hattaches : s'.attaches = s.attaches) (hexited : s'.exited = s.exited)
    (hheld : s'.held = s.held) (hevents : s'.events = s.events) : Calm s s' :=
  ⟨hinput, hasks, hattaches, fun hnone => hexited.symm.trans hnone, fun _ hmem => .inl (hheld ▸ hmem),
    fun _ hmem => .inl (hevents ▸ hmem)⟩

theorem Calm.refl (s : Session E K C) : Calm s s := .of_eq rfl rfl rfl rfl rfl rfl

/-- Two calm changes. -/
theorem Calm.trans (h : Calm s s') (h' : Calm s' s'') : Calm s s'' where
  inputRx := h'.inputRx.trans h.inputRx
  asksRx := h'.asksRx.trans h.asksRx
  attaches := h'.attaches.trans h.attaches
  exited hnone := h.exited (h'.exited hnone)
  held shown hmem := (h'.held shown hmem).elim (h.held shown) .inr
  events e hmem := by
    rcases h'.events e hmem with hold | hend
    · exact (h.events e hold).imp_right fun hsome he => isSome_of_exited h'.exited (hsome he)
    · exact .inr hend

theorem Calm.after (h' : Calm s' s'') (h : Calm s s') : Calm s s'' := h.trans h'

/-- A calm change leaves a session sober. -/
theorem Calm.sober (h : Calm s s') (hs : s.Sober) : s'.Sober where
  held shown hmem := (h.held shown hmem).elim (hs.held shown) id
  events e hmem := by
    rcases h.events e hmem with hold | hend
    · exact fun he => isSome_of_exited h.exited (hs.events e hold he)
    · exact hend

/-- An event that is not the program's end is told. -/
theorem Calm.publish (h : Calm s s') {event : Event} (hevent : event.isEnd = false) :
    Calm s (s'.publish event) := by
  refine h.trans ⟨rfl, rfl, rfl, id, fun _ => .inl, fun e hmem => ?_⟩
  rcases List.mem_append.mp hmem with hold | hnew
  · exact .inl hold
  · rw [List.mem_singleton.mp hnew]
    exact .inr fun he => Bool.noConfusion (hevent.symm.trans he)

/-- Looking at the terminal's modes changes no queue. -/
theorem refreshTty_calm (s : Session E K C) (modes : Option TtyModes) :
    Calm s (s.refreshTty modes) := by
  unfold refreshTty
  split
  · split
    · exact .refl s
    · apply Calm.publish
      · exact .of_eq rfl rfl rfl rfl rfl rfl
      · rfl
  · exact .refl s

/-- Nor does a probe. -/
theorem probe_calm (vt : Emulator E K C M) (s : Session E K C) (now : ℕ) (why : Probe)
    (activity : Option ℕ → Bool → Bool → Activity) : Calm s (s.probe vt now why activity) := by
  unfold probe
  dsimp only
  split
  · apply Calm.publish
    · exact .of_eq rfl rfl rfl rfl rfl rfl
    · rfl
  · exact .of_eq rfl rfl rfl rfl rfl rfl

/-- Nor does output that is told. -/
theorem foldl_show_calm (held : List Shown) (hheld : ∀ shown ∈ held, shown.isOutput = true)
    (s : Session E K C) : Calm s (held.foldl show_ s) := by
  induction held generalizing s with
  | nil => exact .refl s
  | cons shown held ih =>
    have hshown := Shown.isEnd_of_isOutput (hheld shown List.mem_cons_self)
    refine (ih (fun m hm => hheld m (List.mem_cons_of_mem _ hm)) (s.show_ shown)).after ?_
    exact Calm.publish (.refl s) hshown

/-- Nor does a title. -/
theorem tellTitle_calm (vt : Emulator E K C M) (s : Session E K C) : Calm s (s.tellTitle vt) := by
  unfold tellTitle
  dsimp only
  split
  · exact .refl s
  · apply Calm.publish
    · exact .of_eq rfl rfl rfl rfl rfl rfl
    · rfl

/-- Nor does the top row. -/
theorem tellTop_calm (vt : Emulator E K C M) (s : Session E K C) : Calm s (s.tellTop vt) := by
  unfold tellTop
  dsimp only
  split
  · exact .refl s
  · split
    · apply Calm.publish
      · exact .of_eq rfl rfl rfl rfl rfl rfl
      · rfl
    · exact .of_eq rfl rfl rfl rfl rfl rfl

/-- Nor does a bell. -/
theorem tellBells_calm (vt : Emulator E K C M) (s : Session E K C) : Calm s (s.tellBells vt) := by
  unfold tellBells
  dsimp only
  split
  · exact .refl s
  · apply Calm.publish
    · exact .of_eq rfl rfl rfl rfl rfl rfl
    · rfl

/-- Nor does what is held, when it is told. -/
theorem tellHeld_calm (hs : s.Sober) : Calm s s.tellHeld := by
  refine (foldl_show_calm _ (isOutput_coalesce hs.held) { s with held := [] }).after ?_
  exact ⟨rfl, rfl, rfl, id, fun _ hmem => (List.not_mem_nil hmem).elim, fun _ => .inl⟩

/-- Nor does all that is released. -/
theorem release_calm (vt : Emulator E K C M) (hs : s.Sober) : Calm s (s.release vt) := by
  have htitle := tellTitle_calm vt s
  have htold := htitle.trans (tellHeld_calm (htitle.sober hs))
  exact (htold.trans (tellTop_calm vt _)).trans (tellBells_calm vt _)

/-- Nor does the top of the loop. -/
theorem turnTop_calm (vt : Emulator E K C M) (hs : s.Sober) (now : ℕ) (wrote : Wrote)
    (keysLeft : Option Bool) : Calm s (s.turnTop vt now wrote keysLeft) := by
  have hend : Calm s (s.checkEnd vt now keysLeft) := by
    unfold checkEnd
    split
    · have hrelease := release_calm vt hs
      refine hrelease.trans ⟨rfl, rfl, rfl, fun hnone => ?_, fun _ => .inl, fun _ _ => .inr fun _ => rfl⟩
      cases hnone
    · exact .refl s
  have hflush : ∀ s : Session E K C, Calm s (s.flush now wrote) := by
    intro s
    unfold flush
    dsimp only
    split <;> exact .of_eq rfl rfl rfl rfl rfl rfl
  unfold turnTop
  dsimp only
  split
  · exact (hend.trans (hflush _)).trans (.of_eq rfl rfl rfl rfl rfl rfl)
  · exact hend.trans (.of_eq rfl rfl rfl rfl rfl rfl)

/-- Nor does serving an ask. -/
theorem serveAsk_calm (vt : Emulator E K C M) (hs : s.Sober) (ask : Ask) :
    Calm s (s.serveAsk vt ask) := by
  cases ask with
  | redraw seen => exact (release_calm vt hs).trans (.of_eq rfl rfl rfl rfl rfl rfl)
  | ended =>
    simp only [serveAsk]
    split <;> exact .of_eq rfl rfl rfl rfl rfl rfl
  | resize attach size =>
    simp only [serveAsk]
    split
    · split
      · next r pending hsize =>
        obtain ⟨e, -, heq⟩ := Option.map_eq_some_iff.mp hsize
        cases heq
        exact .of_eq rfl rfl rfl rfl rfl rfl
      · exact .refl s
    · exact .refl s
  | other => exact .refl s

/-- A new client counts one attach, and changes no queue. -/
theorem client_calm (vt : Emulator E K C M) (s : Session E K C) (size : Size) (history : ℕ) :
    Calm { s with attaches := s.attaches + 1 } (s.client vt size history) := by
  unfold client
  dsimp only
  cases hsize : resize vt { s with attaches := s.attaches + 1, echo := .empty, written := 0 } size
    .empty with
  | none => exact .of_eq rfl rfl rfl rfl rfl rfl
  | some r =>
    obtain ⟨e, -, heq⟩ := Option.map_eq_some_iff.mp hsize
    subst heq
    exact .of_eq rfl rfl rfl rfl rfl rfl

/-- Input that is taken changes no queue. -/
theorem apply_calm (vt : Emulator E K C M) (s : Session E K C) (input : Input K C) :
    Calm s (s.apply vt input) := by
  unfold apply
  split <;> exact .of_eq rfl rfl rfl rfl rfl rfl

/-- Output changes none. -/
theorem output_calm (vt : Emulator E K C M) (s : Session E K C) (chunk : Bytes) :
    Calm s (s.output vt chunk) := by
  refine ⟨rfl, rfl, rfl, id, fun shown hmem => ?_, fun _ => .inl⟩
  rcases List.mem_append.mp hmem with hold | hnew
  · exact .inl hold
  · obtain ⟨piece, -, hpiece⟩ := List.mem_filterMap.mp hnew
    exact .inr (isOutput_of_shownOf hpiece)

/-- However much of it is read. -/
theorem readChunks_calm (vt : Emulator E K C M) (s : Session E K C) (now more : ℕ) :
    Calm s (s.readChunks vt now more) := by
  have houtput : ∀ (chunks : List Bytes) (s : Session E K C),
      Calm s (chunks.foldl (output vt) s) := by
    intro chunks
    induction chunks with
    | nil => exact fun s => .refl s
    | cons chunk chunks ih => exact fun s => (ih (s.output vt chunk)).after (output_calm vt s chunk)
  refine Calm.trans ?_ (houtput _ _)
  exact .of_eq rfl rfl rfl rfl rfl rfl

/-- Nor when it settles. -/
theorem settleOutput_calm (vt : Emulator E K C M) (hs : s.Sober) (now : ℕ) (modes : Option TtyModes)
    (atOnce : Bool) : Calm s (s.settleOutput vt now modes atOnce) := by
  unfold settleOutput
  split
  · have hmodes := refreshTty_calm s modes
    exact (hmodes.trans (release_calm vt (hmodes.sober hs))).trans (.of_eq rfl rfl rfl rfl rfl rfl)
  · split <;> exact .of_eq rfl rfl rfl rfl rfl rfl

variable [DecidableEq M]

/-- So reading it is calm. -/
theorem readOutput_calm (vt : Emulator E K C M) (hs : s.Sober) (now more : ℕ)
    (modes : Option TtyModes) (activity : Option ℕ → Bool → Bool → Activity) :
    Calm s (s.readOutput vt now more modes activity) := by
  have hanswer : Calm s ((s.readChunks vt now more).answerHost vt) :=
    (readChunks_calm vt s now more).trans (.of_eq rfl rfl rfl rfl rfl rfl)
  have hsettle := fun atOnce =>
    hanswer.trans (settleOutput_calm vt (hanswer.sober hs) now modes atOnce)
  unfold readOutput
  dsimp only
  split
  · exact (hsettle _).trans (probe_calm vt _ _ _ _)
  · exact hsettle _

/-- What a move hands to the session, or takes from its queues. -/
def handed (s : Session E K C) : SessionMove K C → Session E K C
  | .send input => { s with inputRx := s.inputRx ++ [input] }
  | .ask ask => { s with asksRx := s.asksRx ++ [ask] }
  | .takeInput => { s with inputRx := s.inputRx.tail }
  | .takeAsk => { s with asksRx := s.asksRx.tail }
  | .takeAttach => { s with attaches := s.attaches + 1 }
  | _ => s

/-- A move leaves the queues as they are, but for what it hands or takes. -/
theorem step_calm {m : SessionMove K C} (hs : s.Sober) (hstep : s.step vt m = some s') :
    Calm (s.handed m) s' := by
  cases steps_of_step hstep with
  | top => exact turnTop_calm vt hs _ _ _
  | output =>
    exact (readOutput_calm vt (s := s.again) ⟨hs.held, hs.events⟩ _ _ _ _).after
      (.of_eq rfl rfl rfl rfl rfl rfl)
  | @settled now due wait modes =>
    have hmodes : Calm s (refreshTty { s with
        turn := .top
        settle := if 2 * wait < ttyTick then some (now + 2 * wait, 2 * wait) else none } modes) :=
      (refreshTty_calm _ modes).after (.of_eq rfl rfl rfl rfl rfl rfl)
    exact hmodes.trans (release_calm vt (hmodes.sober hs))
  | @echoed now =>
    have hpromoted : Calm s { s with turn := .top, echo := (s.echo.promote now).1 } :=
      .of_eq rfl rfl rfl rfl rfl rfl
    exact (hpromoted.trans (release_calm vt (hpromoted.sober hs))).publish rfl
  | @takeInput input _ _ hrx =>
    refine (apply_calm vt _ input).after ?_
    exact .of_eq (by simp [handed, hrx]) rfl rfl rfl rfl rfl
  | dropInput _ hrx => exact .of_eq (by simp [handed, hrx]) rfl rfl rfl rfl rfl
  | @takeAsk ask asks _ hrx =>
    refine (serveAsk_calm vt (s := { s with turn := .top, asksRx := asks }) ⟨hs.held, hs.events⟩
      ask).after ?_
    exact .of_eq rfl (by simp [handed, hrx]) rfl rfl rfl rfl
  | @takeAttach attach control =>
    have hrelease := release_calm vt (s := { s with turn := .top, control := control })
      ⟨hs.held, hs.events⟩
    have hmore : Calm (s.handed .takeAttach) { release vt { s with
        turn := .top, control := control } with
        attaches := (release vt { s with turn := .top, control := control }).attaches + 1 } :=
      ⟨hrelease.inputRx, hrelease.asksRx, congrArg (· + 1) hrelease.attaches, hrelease.exited,
        hrelease.held, hrelease.events⟩
    exact hmore.trans (client_calm vt _ _ _)
  | tick => exact (refreshTty_calm _ _).after (.of_eq rfl rfl rfl rfl rfl rfl)
  | probe => exact (probe_calm vt s.again _ _ _).after (.of_eq rfl rfl rfl rfl rfl rfl)
  | _ => exact .of_eq rfl rfl rfl rfl rfl rfl

/-- Every move leaves a session sober. -/
theorem step_sober {m : SessionMove K C} (hs : s.Sober) (hstep : s.step vt m = some s') :
    s'.Sober := by
  refine (step_calm hs hstep).sober ?_
  cases m <;> exact ⟨hs.held, hs.events⟩

omit [DecidableEq M] in
/-- A session begins sober. -/
theorem init_sober (vt : Emulator E K C M) (emu : E) (policy : Policy) (size : Size)
    (history : ℕ) (modes : Option TtyModes) : (init vt emu policy size history modes).Sober := by
  have hcalm := (client_calm vt (blank emu policy) size history).trans (refreshTty_calm _ modes)
  exact hcalm.sober ⟨fun _ hmem => (List.not_mem_nil hmem).elim, fun _ hmem => by cases hmem⟩

/-- What a move does to the queues: what is handed goes in at the end, what is taken comes
off the front, an attach makes one more attachment, and an end that was told stays. -/
theorem step_queues {m : SessionMove K C} (hs : s.Sober) (hstep : s.step vt m = some s') :
    (s'.exited = none → s.exited = none) ∧ match m with
    | .send input => s'.inputRx = s.inputRx ++ [input] ∧ s'.asksRx = s.asksRx ∧
      s'.attaches = s.attaches
    | .ask ask => s'.inputRx = s.inputRx ∧ s'.asksRx = s.asksRx ++ [ask] ∧ s'.attaches = s.attaches
    | .takeInput => (∃ input, s.inputRx = input :: s'.inputRx) ∧ s'.asksRx = s.asksRx ∧
      s'.attaches = s.attaches
    | .takeAsk => s'.inputRx = s.inputRx ∧ (∃ ask, s.asksRx = ask :: s'.asksRx) ∧
      s'.attaches = s.attaches
    | .takeAttach => s'.inputRx = s.inputRx ∧ s'.asksRx = s.asksRx ∧ s'.attaches = s.attaches + 1
    | _ => s'.inputRx = s.inputRx ∧ s'.asksRx = s.asksRx ∧ s'.attaches = s.attaches := by
  have hcalm := step_calm hs hstep
  have hinput := hcalm.inputRx
  have hasks := hcalm.asksRx
  have hattaches := hcalm.attaches
  cases steps_of_step hstep with
  | @takeInput input _ _ hrx | @dropInput input _ _ hrx =>
    refine ⟨hcalm.exited, ⟨input, ?_⟩, hasks, hattaches⟩
    rw [hinput, hrx]
    simp [handed, hrx]
  | @takeAsk ask _ _ hrx =>
    refine ⟨hcalm.exited, hinput, ⟨ask, ?_⟩, hattaches⟩
    rw [hasks, hrx]
    simp [handed, hrx]
  | _ => exact ⟨hcalm.exited, hinput, hasks, hattaches⟩

/-- A session that is over stays so. -/
theorem step_over {m : SessionMove K C} (hover : s.turn = .over) (hstep : s.step vt m = some s') :
    s'.turn = .over := by
  cases m <;> simp only [step, hover] at hstep <;> grind

end Session

end Koh.Server
