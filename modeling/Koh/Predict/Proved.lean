import Koh.Predict.Typing

/-!
# What is shown was proved to be echoed

A glyph shown was typed with the kernel echoing, in an epoch confirmed by then, or in one that a
cull or carried trust confirmed since. The kernel's echo is trusted for all of the first epoch, so
a key typed then can reveal what was typed in it before, when nothing echoed; in a run without
such a key all of what is shown was proved.

## Main definitions

- `Echoed`: what was typed of a key, and what proved it
- `Typing.reveals`: a key that reveals what nothing proved
- `Engine.Accounted`: what is known of the keys that predictions show

## Main results

- `Typing.step_accounted`: what a call keeps
- `Typing.shown_proved`
-/

namespace Koh.Predict

open Koh.Lib Koh.Server

variable {A : Type}

/-- A cull graded a cell of this epoch or a newer one correct, or carried trust was given to it. -/
def Proves (log : List Event) (epoch : ℕ) : Prop :=
  ∃ e, (.correct e ∈ log ∨ .given e ∈ log) ∧ epoch ≤ e

/-- The key was typed with the kernel echoing, or in an epoch confirmed by then or proved later. -/
def Echoed (log : List Event) (k : ℕ) : Prop :=
  ∃ l₁ l₂ echo epoch confirmed, log = l₁ ++ .typed k echo epoch confirmed :: l₂ ∧
    (echo = false → epoch ≤ confirmed ∨ Proves l₂ epoch)

/-- As `Echoed`, once the epoch `upto` of a prediction that shows the key is confirmed. -/
def Accounts (log : List Event) (k upto confirmed : ℕ) : Prop :=
  ∃ l₁ l₂ echo epoch confirmed', log = l₁ ++ .typed k echo epoch confirmed' :: l₂ ∧
    epoch ≤ upto ∧
    (echo = false → upto ≤ confirmed → epoch ≤ confirmed' ∨ Proves l₂ epoch)

/-- What was proved stays so. -/
theorem Proves.mono {log log' : List Event} {epoch : ℕ} (h : Proves log epoch)
    (hsub : log ⊆ log') : Proves log' epoch := by
  obtain ⟨e, hmem, hle⟩ := h
  exact ⟨e, hmem.imp (@hsub _) (@hsub _), hle⟩

/-- A newer prediction of the key, and an epoch confirmed by what proves it. -/
theorem Accounts.later {log more : List Event} {k upto upto' confirmed confirmed' : ℕ}
    (h : Accounts log k upto confirmed) (hle : upto ≤ upto')
    (hproves : upto' ≤ confirmed' → upto ≤ confirmed ∨ Proves more upto) :
    Accounts (log ++ more) k upto' confirmed' := by
  obtain ⟨l₁, l₂, echo, epoch, c, rfl, hepoch, hproved⟩ := h
  refine ⟨l₁, l₂ ++ more, echo, epoch, c, by simp, hepoch.trans hle, fun hecho hupto => ?_⟩
  rcases hproves hupto with hold | ⟨e, hmem, he⟩
  · exact (hproved hecho hold).imp_right fun h => h.mono (List.subset_append_left _ _)
  · exact .inr ⟨e, hmem.imp (List.mem_append_right _) (List.mem_append_right _),
      hepoch.trans he⟩

/-- What is below a greatest is below one of them. -/
theorem le_foldl_max {epochs : List ℕ} {epoch c : ℕ} (h : epoch ≤ epochs.foldl max c) :
    epoch ≤ c ∨ ∃ e ∈ epochs, epoch ≤ e := by
  induction epochs generalizing c with
  | nil => exact .inl h
  | cons e epochs ih =>
    rcases ih h with hmax | ⟨e', he', hle⟩
    · rcases le_max_iff.mp hmax with hc | he
      · exact .inl hc
      · exact .inr ⟨e, by simp, he⟩
    · exact .inr ⟨e', List.mem_cons_of_mem _ he', hle⟩

namespace Engine

variable {e e' : Engine A} {log more : List Event} {k : ℕ}

/-- Each key that a prediction shows is accounted for, in an epoch up to the prediction's. -/
structure Accounted (e : Engine A) (log : List Event) : Prop where
  bounded : e.predictionEpoch ≤ u64Max
  opened : ∀ p ∈ e.cells, p.2.tentativeEpoch ≤ e.predictionEpoch
  keys : ∀ p ∈ e.cells, ∀ k ∈ p.2.keys, Accounts log k p.2.tentativeEpoch e.confirmedEpoch

/-- What keeps the cells keeps the account. -/
theorem Keeps.accounted (h : e.Keeps e') (hacc : e.Accounted log) : e'.Accounted log := by
  obtain ⟨hgrows, hmax⟩ := h.grows hacc.bounded
  refine ⟨hmax, fun p hp => ?_, fun p hp => ?_⟩
  · obtain ⟨q, hq, hsame⟩ := h.old p hp
    exact hsame.epoch ▸ (hacc.opened q hq).trans hgrows
  · obtain ⟨q, hq, hsame⟩ := h.old p hp
    rw [hsame.keys, hsame.epoch, h.confirmed]
    exact hacc.keys q hq

/-- Epochs are confirmed by what proves them. -/
theorem Accounted.confirm (h : e.Accounted log) {c : ℕ}
    (hproves : ∀ epoch ≤ e.predictionEpoch, epoch ≤ c → epoch ≤ e.confirmedEpoch ∨
      Proves more epoch) : Accounted { e with confirmedEpoch := c } (log ++ more) :=
  ⟨h.bounded, h.opened, fun p hp k hk =>
    (h.keys p hp k hk).later le_rfl fun hle => hproves _ (h.opened p hp) hle⟩

/-- More events leave it true. -/
theorem Accounted.append (h : e.Accounted log) (more : List Event) : e.Accounted (log ++ more) :=
  h.confirm fun _ _ hle => .inl hle

/-- A key is predicted: what it joins is accounted for as before. -/
theorem Places.accounted (h : e.Places k e') (hacc : e.Accounted log)
    (hk : Accounts log k e.predictionEpoch e.confirmedEpoch) : e'.Accounted log := by
  obtain ⟨hgrows, hmax⟩ := h.grows hacc.bounded
  refine ⟨hmax, fun p hp => ?_, fun p hp k' hk' => ?_⟩
  · rcases h.new p hp with ⟨q, hq, hsame⟩ | ⟨hepoch, -⟩
    · exact hsame.epoch ▸ (hacc.opened q hq).trans hgrows
    · exact hepoch ▸ hgrows
  · rw [h.confirmed]
    rcases h.new p hp with ⟨q, hq, hsame⟩ | ⟨hepoch, -, hjoins⟩
    · rw [hsame.epoch]
      exact hacc.keys q hq k' (hsame.keys ▸ hk')
    · rw [hepoch]
      rcases hjoins k' hk' with rfl | ⟨q, hq, hold⟩
      · exact hk
      · have hopened := hacc.opened q hq
        have hlater : Accounts (log ++ []) k' e.predictionEpoch e.confirmedEpoch :=
          (hacc.keys q hq k' hold).later hopened fun hle => .inl (hopened.trans hle)
        rwa [List.append_nil] at hlater

/-- A fresh engine shows nothing. -/
theorem accounted_new (carried : Bool) (log : List Event) :
    Accounted { (new : Engine A) with carried := carried } log := by
  refine ⟨by simp [new, firstEpoch, u64Max], fun p hp => ?_, fun p hp => ?_⟩
  · cases hp
  · cases hp

/-- An epoch is confirmed only as it is proved. -/
theorem accounted_cull (screen : Screen A) (h : e.Accounted log) :
    Accounted { e with confirmedEpoch := (e.proves screen).foldl max e.confirmedEpoch }
      (log ++ (e.proves screen).map .correct) := by
  refine h.confirm fun epoch _ hle => ?_
  rcases le_foldl_max hle with hold | ⟨e', hmem, he⟩
  · exact .inl hold
  · exact .inr ⟨e', .inl (List.mem_map_of_mem hmem), he⟩

/-- A mode that is given is logged. -/
theorem accounted_setTty (tty : Option TtyModes) (h : e.Accounted log) :
    (e.setTty tty).Accounted
      (log ++ if e.gives tty then [.given e.predictionEpoch] else []) := by
  refine (setTty_keeps e tty).accounted ?_
  have hmodes : Accounted { e with tty := tty } log := ⟨h.bounded, h.opened, h.keys⟩
  by_cases hgives : e.gives tty = true
  · simp only [hgives, if_true]
    refine hmodes.confirm (c := max e.confirmedEpoch e.predictionEpoch) fun epoch hopened _ => ?_
    exact .inr ⟨_, .inr (List.mem_singleton_self _), hopened⟩
  · simp only [hgives, Bool.false_eq_true, if_false]
    exact hmodes.append []

end Engine

namespace Typing

def quiet (s : Typing A) (k : ℕ) : Bool :=
  s.log.any fun
    | .typed k' false _ _ => k' = k
    | _ => false

/-- Key `press` is predicted with the kernel echoing, and prints: a hidden prediction of the first
epoch, of a key typed with the echo off, is shown. -/
def reveals (s : Typing A) : Call A → Bool
  | .key press screen =>
    let e := s.engine.readies press screen
    match s.engine.predicts press screen with
    | none => false
    | some ctx =>
      (Engine.printable press).isSome && ctx.tty.echo && e.cells.any fun p =>
        e.tentative p.2.tentativeEpoch && p.2.tentativeEpoch ≤ firstEpoch && p.2.keys.any s.quiet
  | _ => false

variable {s s' : Typing A} {m : Call A}

/-- A key that is not proved to be echoed when it is shown was typed with the echo off. -/
theorem quiet_of_typed {epochs : List ℕ} {l₁ l₂ : List Event} {k epoch confirmed : ℕ}
    (h : s.log ++ epochs.map .correct = l₁ ++ .typed k false epoch confirmed :: l₂) :
    s.quiet k = true := by
  have hmem : Event.typed k false epoch confirmed ∈ s.log ++ epochs.map .correct := by simp [h]
  rcases List.mem_append.mp hmem with hlog | hmap
  · exact List.any_eq_true.mpr ⟨_, hlog, by simp⟩
  · obtain ⟨e, -, heq⟩ := List.mem_map.mp hmap
    cases heq

/-- The kernel's trust reveals nothing, when no such key is typed. -/
theorem accounted_trusted {press : KeyPress} {screen : Screen A} {ctx : Context A}
    (h : s.engine.Accounted s.log) (hpredicts : s.engine.predicts press screen = some ctx)
    (hreveals : s.reveals (.key press screen) = false) :
    Engine.Accounted
      (if (Engine.printable press).isSome then
        ({ s.engine.readies press screen with heldThrough := none }).trustKernel ctx
      else { s.engine.readies press screen with heldThrough := none })
      (s.log ++ (s.engine.proves screen).map .correct) := by
  have hready := (Engine.readies_keeps s.engine press screen).accounted
    (Engine.accounted_cull screen h)
  have hfree : Engine.Accounted { s.engine.readies press screen with heldThrough := none }
      (s.log ++ (s.engine.proves screen).map .correct) :=
    ⟨hready.bounded, hready.opened, hready.keys⟩
  by_cases hprints : (Engine.printable press).isSome = true
  · rw [if_pos hprints, Engine.trustKernel]
    by_cases hecho : ctx.tty.echo = true
    · rw [if_pos hecho]
      refine ⟨hfree.bounded, hfree.opened, fun p hp k hk => ?_⟩
      obtain ⟨l₁, l₂, echo, epoch, c, heq, hepoch, hproved⟩ := hready.keys p hp k hk
      refine ⟨l₁, l₂, echo, epoch, c, heq, hepoch, fun hquiet hle => ?_⟩
      rcases le_max_iff.mp hle with hconfirmed | hfirst
      · exact hproved hquiet hconfirmed
      · refine hproved hquiet (not_lt.mp fun hhidden => ?_)
        subst hquiet
        simp only [reveals, hpredicts, hprints, hecho, Bool.true_and] at hreveals
        have hthis := List.any_eq_false.mp hreveals p hp
        have hquiet : p.2.keys.any s.quiet = true :=
          List.any_eq_true.mpr ⟨k, hk, quiet_of_typed heq⟩
        simp [Engine.tentative, hhidden, hfirst, hquiet] at hthis
    · rw [if_neg hecho]
      exact hfree
  · rw [if_neg hprints]
    exact hfree

/-- A key that reveals nothing is accounted for. -/
theorem accounted_newUserKey [Inhabited A] (g : Graphemes) {press : KeyPress} {screen : Screen A}
    (h : s.engine.Accounted s.log) (hreveals : s.reveals (.key press screen) = false) :
    (s.engine.newUserKey g press screen s.keys).Accounted
      (s.log ++ (s.engine.proves screen).map .correct ++ s.typedEvents press screen) := by
  cases hpredicts : s.engine.predicts press screen with
  | none =>
    have hready := (Engine.readies_keeps s.engine press screen).accounted
      (Engine.accounted_cull screen h)
    simp only [typedEvents, hpredicts, List.append_nil]
    exact (Engine.newUserKey_keeps g hpredicts s.keys).accounted hready
  | some ctx =>
    simp only [typedEvents, hpredicts]
    refine (Engine.newUserKey_places g hpredicts s.keys).accounted
      ((accounted_trusted h hpredicts hreveals).append _) ?_
    refine ⟨_, [], ctx.tty.echo, (s.engine.readies press screen).predictionEpoch,
      (s.engine.readies press screen).confirmedEpoch, rfl, ?_, fun hecho hle => .inl ?_⟩
    · unfold Engine.trustKernel
      split
      · split <;> exact le_rfl
      · exact le_rfl
    · simpa [Engine.trustKernel, hecho] using hle

/-- A call keeps each key that is shown accounted for, unless it reveals one. -/
theorem step_accounted [Inhabited A] {g : Graphemes} (hstep : step g s m = some s')
    (hreveals : s.reveals m = false) (h : s.engine.Accounted s.log) :
    s'.engine.Accounted s'.log := by
  cases m with
  | sent n =>
    simp only [step] at hstep
    split at hstep
    · cases hstep
    · cases hstep
      exact ⟨h.bounded, h.opened, h.keys⟩
  | acked n => cases hstep; exact ⟨h.bounded, h.opened, h.keys⟩
  | key press screen => cases hstep; exact accounted_newUserKey g h hreveals
  | other screen =>
    cases hstep
    exact (Engine.newUserOther_keeps _ screen).accounted (Engine.accounted_cull screen h)
  | hold =>
    cases hstep
    exact (Engine.becomeTentative_keeps _).accounted ⟨h.bounded, h.opened, h.keys⟩
  | cull screen =>
    cases hstep
    exact (Engine.cull_keeps _ screen).accounted (Engine.accounted_cull screen h)
  | tty tty => cases hstep; exact Engine.accounted_setTty tty h
  | reset => cases hstep; exact (Engine.reset_keeps _).accounted h
  | reattach =>
    cases hstep
    exact Engine.accounted_new _ _

/-- A glyph shown was typed with the kernel echoing, or was proved to be echoed, in a run where no
key reveals what was typed before it. -/
theorem shown_proved [Inhabited A] {g : Graphemes} {carried : Bool} {k : ℕ}
    (hrun : Reaches (step g) (fun s m => s.reveals m = false) (init carried) s)
    (hdraws : s.engine.draws k) : Echoed s.log k := by
  have hacc : s.engine.Accounted s.log := by
    refine hrun.invariant (fun s => s.engine.Accounted s.log) ?_ ?_
    · exact Engine.accounted_new carried []
    · exact fun s m s' h hreveals hstep => step_accounted hstep hreveals h
  obtain ⟨-, p, hp, hk, hshown, -⟩ := hdraws
  obtain ⟨l₁, l₂, echo, epoch, c, heq, -, hproved⟩ := hacc.keys p hp k hk
  refine ⟨l₁, l₂, echo, epoch, c, heq, fun hecho => hproved hecho ?_⟩
  simpa [Engine.shown, Engine.tentative] using hshown

/-- Keys echoed are drawn. -/
theorem shown_proved_typed : ∃ s : Typing Unit,
    Reaches (step narrow) (fun s m => s.reveals m = false) (init false) s ∧
    s.engine.draws 1 ∧ Echoed s.log 1 := by
  have hrun : (runWhile (step narrow) (fun s m => s.reveals m = false) (init false)
      [.tty (some ⟨false, false⟩), types 'x', .sent 1, types 'y', .acked 1, .cull (shows "x")]).map
        (fun s => decide (s.engine.draws 1)) = some true := by decide +kernel
  obtain ⟨s, hs, hdraws⟩ := Option.map_eq_some_iff.mp hrun
  have hdraws := of_decide_eq_true hdraws
  exact ⟨s, reaches_of_run hs, hdraws, shown_proved (reaches_of_run hs) hdraws⟩

/-- A key typed in a raw program that echoes nothing shows once the kernel echoes the next. -/
theorem kernel_echo_reveals : ∃ s : Typing Unit, Reachable (step narrow) (init false) s ∧
    s.engine.draws 0 ∧ ¬ Echoed s.log 0 := by
  have hrun : (runWhile (step narrow) (fun _ _ => True) (init false)
      [.tty (some ⟨false, false⟩), types 'x', .tty (some ⟨true, true⟩), types 'y']).map
        (fun s => (decide (s.engine.draws 0), s.log)) =
      some (true, [.typed 0 false 1 0, .typed 1 true 1 0]) := by decide +kernel
  obtain ⟨s, hs, heq⟩ := Option.map_eq_some_iff.mp hrun
  simp only [Prod.mk.injEq, decide_eq_true_eq] at heq
  obtain ⟨hdraws, hlog⟩ := heq
  refine ⟨s, reaches_of_run hs, hdraws, ?_⟩
  rintro ⟨l₁, l₂, echo, epoch, confirmed, hsplit, hproved⟩
  rw [hlog] at hsplit
  rcases l₁ with _ | ⟨a, l₁⟩
  · cases hsplit
    rcases hproved rfl with hle | ⟨e, hmem, -⟩
    · exact absurd hle (by decide)
    · simp at hmem
  · rcases l₁ with _ | ⟨b, l₁⟩
    · cases hsplit
    · simp at hsplit

end Typing

end Koh.Predict
