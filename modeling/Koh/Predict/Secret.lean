import Koh.Predict.Typing

/-!
# What is typed where a secret may be

A key typed at a password prompt, with the modes unknown, on the alternate screen or while a hold
is not reflected is in no prediction, then or later; and a password prompt leaves none.

## Main definitions

- `Engine.Shows`: the keys that predictions show
- `Engine.Waits`: the frames of holds, each not reflected

## Main results

- `Typing.step_shows`: a call adds at most its own key
- `Typing.secret_never_shown`
-/

namespace Koh.Predict

open Koh.Lib Koh.Server

variable {A : Type}

namespace Engine

variable {e e' : Engine A} {P : ℕ → Prop}

/-- Each prediction shows a key, and only keys of which `P` holds. -/
def Shows (e : Engine A) (P : ℕ → Prop) : Prop :=
  ∀ p ∈ e.cells, p.2.keys ≠ [] ∧ ∀ k ∈ p.2.keys, P k

/-- Less is shown than more allow. -/
theorem Shows.mono {Q : ℕ → Prop} (h : e.Shows P) (hPQ : ∀ k, P k → Q k) : e.Shows Q :=
  fun p hp => ⟨(h p hp).1, fun k hk => hPQ k ((h p hp).2 k hk)⟩

theorem shows_of_nil (h : e.cells = []) : e.Shows P := by
  intro p hp
  rw [h] at hp
  cases hp

/-- What keeps the cells shows no more. -/
theorem Keeps.shows (h : e.Keeps e') (hshows : e.Shows P) : e'.Shows P := by
  intro p hp
  obtain ⟨q, hq, hsame⟩ := h.old p hp
  rw [hsame.keys]
  exact hshows q hq

/-- What places a key's glyph shows that key. -/
theorem Places.shows {k : ℕ} (h : e.Places k e') (hshows : e.Shows P) (hk : P k) :
    e'.Shows P := by
  intro p hp
  rcases h.new p hp with ⟨q, hq, hsame⟩ | ⟨-, hmem, hjoins⟩
  · rw [hsame.keys]
    exact hshows q hq
  · refine ⟨List.ne_nil_of_mem hmem, fun k' hk' => ?_⟩
    rcases hjoins k' hk' with rfl | ⟨q, hq, hold⟩
    · exact hk
    · exact (hshows q hq).2 k' hold

/-- Making ready shows no more. -/
theorem shows_readies (press : KeyPress) (screen : Screen A) (h : e.Shows P) :
    (e.readies press screen).Shows P :=
  (readies_keeps e press screen).shows h

/-- A key adds itself to what is shown, and only when it is predicted. -/
theorem shows_newUserKey [Inhabited A] (g : Graphemes) {press : KeyPress} {screen : Screen A}
    {k : ℕ} (h : e.Shows P) (hk : (e.predicts press screen).isSome → P k) :
    (e.newUserKey g press screen k).Shows P := by
  have hready := shows_readies press screen h
  cases hpredicts : e.predicts press screen with
  | none => exact (newUserKey_keeps g hpredicts k).shows hready
  | some ctx =>
    refine (newUserKey_places g hpredicts k).shows ?_ (hk (by simp [hpredicts]))
    unfold trustKernel
    split
    · split <;> exact hready
    · exact hready

/-- The engine waits for each of these frames, which no ack has reached. -/
def Waits (e : Engine A) (frames : List ℕ) : Prop :=
  ∀ f ∈ frames, e.lateAcked < f ∧ f ≤ e.nextFrame ∧ ∃ through, e.heldThrough = some through ∧
    f ≤ through

variable {frames : List ℕ}

/-- What is steady waits for the same frames. -/
theorem Steady.waits (h : e.Steady e') (hwaits : e.Waits frames) : e'.Waits frames := by
  intro f hf
  obtain ⟨hacked, hnext, hheld⟩ := hwaits f hf
  refine ⟨h.acked ▸ hacked, ?_, h.held ▸ hheld⟩
  rwa [nextFrame, h.sent]

/-- While it waits for frames it holds. -/
theorem Waits.holding (h : e.Waits frames) (hne : frames ≠ []) : e.holding = true := by
  obtain ⟨f, hf⟩ := List.exists_mem_of_ne_nil _ hne
  obtain ⟨hacked, -, through, hheld, hle⟩ := h f hf
  simp only [Engine.holding, hheld, Option.any_some, decide_eq_true_eq]
  omega

/-- Making ready leaves the frames it waits for. -/
theorem waits_readies (press : KeyPress) (screen : Screen A) (h : e.Waits frames) :
    (e.readies press screen).Waits frames :=
  (readies_keeps e press screen).waits h

/-- A key ends no wait: it is predicted only when there is none. -/
theorem waits_newUserKey [Inhabited A] (g : Graphemes) {press : KeyPress} {screen : Screen A}
    (h : e.Waits frames) (k : ℕ) : (e.newUserKey g press screen k).Waits frames := by
  have hready := waits_readies press screen h
  cases hpredicts : e.predicts press screen with
  | none => exact (newUserKey_keeps g hpredicts k).waits hready
  | some ctx =>
    have hnil : frames = [] := by
      by_contra hne
      have hholding := hready.holding hne
      rw [(predicts_eq_some hpredicts).1] at hholding
      cases hholding
    simp [hnil, Waits]

/-- A hold is one more frame to wait for, after the others. -/
theorem waits_hold (h : e.Waits frames) :
    e.hold.Waits (if e.lateAcked < e.nextFrame then e.nextFrame :: frames else frames) := by
  intro f hf
  have hmem : f ∈ frames ∨ e.lateAcked < e.nextFrame ∧ f = e.nextFrame := by
    split at hf
    · next hlt => exact (List.mem_cons.mp hf).symm.imp_right fun heq => ⟨hlt, heq⟩
    · exact .inl hf
  rcases hmem with hmem | ⟨hlt, rfl⟩
  · obtain ⟨hacked, hnext, -⟩ := h f hmem
    exact ⟨hacked, hnext, e.nextFrame, rfl, hnext⟩
  · exact ⟨hlt, le_rfl, e.nextFrame, rfl, le_rfl⟩

end Engine

namespace Typing

variable {s s' : Typing A} {m : Call A} {P : ℕ → Prop}

/-- Where a secret may be typed, nothing is predicted. -/
theorem predicts_none {screen : Screen A} (h : s.engine.Waits s.holds)
    (hsecret : s.secret screen = true) (press : KeyPress) :
    s.engine.predicts press screen = none := by
  have hkeeps := Engine.readies_keeps s.engine press screen
  unfold Engine.predicts
  dsimp only
  split
  · rfl
  · next hholding =>
    refine Engine.context_secret ?_
    rw [hkeeps.tty]
    simp only [secret, Bool.or_eq_true, Bool.not_eq_true', List.isEmpty_eq_false_iff] at hsecret
    rcases hsecret with hsecret | hholds
    · exact hsecret
    · exact absurd ((Engine.waits_readies press screen h).holding hholds) hholding

variable [Inhabited A] {g : Graphemes}

/-- A call adds at most its own key to what is shown. -/
theorem step_shows (hstep : step g s m = some s') (h : s.engine.Shows P)
    (hk : ∀ press screen, m = .key press screen → (s.engine.predicts press screen).isSome →
      P s.keys) : s'.engine.Shows P := by
  cases m with
  | sent n =>
    simp only [step] at hstep
    split at hstep
    · cases hstep
    · cases hstep
      exact h
  | acked n => cases hstep; exact h
  | key press screen =>
    cases hstep
    exact Engine.shows_newUserKey g h (hk press screen rfl)
  | other screen => cases hstep; exact (Engine.newUserOther_keeps _ screen).shows h
  | hold => cases hstep; exact h
  | cull screen => cases hstep; exact (Engine.cull_keeps _ screen).shows h
  | tty tty => cases hstep; exact (Engine.setTty_keeps _ tty).shows h
  | reset => cases hstep; exact (Engine.reset_keeps _).shows h
  | reattach => cases hstep; exact Engine.shows_of_nil rfl

/-- Each step waits for the frames it holds through. -/
theorem step_waits (hstep : step g s m = some s') (h : s.engine.Waits s.holds) :
    s'.engine.Waits s'.holds := by
  cases m with
  | sent n =>
    simp only [step] at hstep
    split at hstep
    · cases hstep
    · next hle =>
      cases hstep
      intro f hf
      obtain ⟨hacked, hnext, hheld⟩ := h f hf
      refine ⟨hacked, ?_, hheld⟩
      simp only [Engine.nextFrame, saturatingAdd] at hnext ⊢
      omega
  | acked n =>
    cases hstep
    intro f hf
    obtain ⟨hmem, hlt⟩ := List.mem_filter.mp hf
    exact ⟨by simpa using hlt, (h f hmem).2⟩
  | key press screen => cases hstep; exact Engine.waits_newUserKey g h _
  | other screen => cases hstep; exact (Engine.newUserOther_keeps _ screen).waits h
  | hold => cases hstep; exact Engine.waits_hold h
  | cull screen => cases hstep; exact (Engine.cull_keeps _ screen).waits h
  | tty tty => cases hstep; exact (Engine.setTty_keeps _ tty).waits h
  | reset => cases hstep; exact (Engine.reset_keeps _).waits h
  | reattach =>
    cases hstep
    intro f hf
    cases hf

/-- Keys are only added. -/
theorem keys_le_step (hstep : step g s m = some s') : s.keys ≤ s'.keys := by
  cases m with
  | sent n =>
    simp only [step] at hstep
    split at hstep
    · cases hstep
    · cases hstep
      exact le_rfl
  | key press screen => cases hstep; exact Nat.le_succ _
  | _ => cases hstep; exact le_rfl

/-- Every run waits for the frames it holds through. -/
theorem reachable_waits {carried : Bool} (h : Reachable (step g) (init carried) s) :
    s.engine.Waits s.holds :=
  h.invariant (fun s => s.engine.Waits s.holds) (fun f hf => by cases hf)
    fun _ _ _ hwaits _ hstep => step_waits hstep hwaits

/-- What shows only keys before the next and of which `P` holds goes on so, when `P` holds of the
keys to come. -/
theorem reachable_shows (h : Reachable (step g) s s') (hshows : s.engine.Shows P)
    (hP : ∀ k, s.keys ≤ k → P k) : s'.engine.Shows P := by
  refine (h.invariant (fun s' => s.keys ≤ s'.keys ∧ s'.engine.Shows P) ⟨le_rfl, hshows⟩ ?_).2
  rintro s₁ m s₂ ⟨hle, hshows₁⟩ - hstep
  exact ⟨hle.trans (keys_le_step hstep),
    step_shows hstep hshows₁ fun _ _ _ _ => hP _ hle⟩

/-- Predictions show only keys that were typed. -/
theorem shows_typed {carried : Bool} (h : Reachable (step g) (init carried) s) :
    s.engine.Shows (· < s.keys) := by
  refine h.invariant (fun s => s.engine.Shows (· < s.keys)) (Engine.shows_of_nil rfl) ?_
  rintro s₁ m s₂ hshows - hstep
  refine step_shows hstep (hshows.mono fun k hk => hk.trans_le (keys_le_step hstep)) ?_
  intro press screen hm _
  subst hm
  cases hstep
  exact Nat.lt_succ_self _

/-- A key typed where a secret may be is in no prediction, then or later; the overlay at a password
prompt is empty; and what was predicted when the prompt came never shows again. -/
theorem secret_never_shown {carried : Bool} (hrun : Reachable (step g) (init carried) s) :
    (∀ press screen s₁, s.secret screen = true → step g s (.key press screen) = some s₁ →
      (∀ p ∈ s₁.engine.cells, ∃ q ∈ s.engine.cells, Engine.Recoloured p q) ∧
      ∀ s₂, Reachable (step g) s₁ s₂ →
        s₂.engine.Shows (· ≠ s.keys) ∧ ¬ s₂.engine.draws s.keys) ∧
    (s.engine.tty.any password = true → s.engine.overlay = ⟨[], none⟩) ∧
    (∀ modes s₁, password modes = true → step g s (.tty (some modes)) = some s₁ →
      s₁.engine.cells = [] ∧ s₁.engine.cursor = none ∧
      ∀ s₂, Reachable (step g) s₁ s₂ → s₂.engine.Shows (s₁.keys ≤ ·)) := by
  refine ⟨fun press screen s₁ hsecret hstep => ?_, fun hpassword => ?_,
    fun modes s₁ hpassword hstep => ?_⟩
  · have hnone := predicts_none (reachable_waits hrun) hsecret press
    have hshows : s₁.engine.Shows (· ≠ s.keys) := by
      refine step_shows hstep ((shows_typed hrun).mono fun k hk => hk.ne) ?_
      rintro press' screen' heq hsome
      cases heq
      simp [hnone] at hsome
    cases hstep
    refine ⟨?_, fun s₂ hlater => ?_⟩
    · exact ((Engine.readies_keeps _ press screen).trans
        (Engine.newUserKey_keeps g hnone _)).old
    · have hnever : s₂.engine.Shows (· ≠ s.keys) :=
        reachable_shows hlater hshows fun k hk => (Nat.lt_of_succ_le hk).ne'
      refine ⟨hnever, ?_⟩
      rintro ⟨-, p, hp, hk, -⟩
      exact (hnever p hp).2 _ hk rfl
  · simp [Engine.overlay, hpassword]
  · cases hstep
    obtain ⟨hcells, hcursor⟩ := Engine.setTty_password hpassword s.engine
    exact ⟨hcells, hcursor, fun s₂ hlater =>
      reachable_shows hlater (Engine.shows_of_nil hcells) fun _ hk => hk⟩

/-- What is typed shows as the kernel echoes it, until a password prompt comes. -/
theorem secret_never_shown_prompt : ∃ s s₁ s₂ : Typing Unit,
    Reachable (step narrow) (init false) s ∧ s.engine.draws 0 ∧
    step narrow s (.tty (some ⟨false, true⟩)) = some s₁ ∧ step narrow s₁ (types 'p') = some s₂ ∧
    s₁.engine.cells = [] ∧ s₁.engine.overlay = ⟨[], none⟩ ∧
    s₂.engine.Shows (s₁.keys ≤ ·) ∧ ¬ s₂.engine.draws s₁.keys := by
  have hrun : (runWhile (step narrow) (fun _ _ => True) (init false)
      [.tty (some ⟨true, true⟩), types 'x']).map (fun s => decide (s.engine.draws 0)) =
      some true := by decide +kernel
  obtain ⟨s, hs, hdraws⟩ := Option.map_eq_some_iff.mp hrun
  have hreach : Reachable (step narrow) (init false) s := reaches_of_run hs
  obtain ⟨-, -, hprompt⟩ := secret_never_shown hreach
  obtain ⟨hcells, -, hlater⟩ := hprompt ⟨false, true⟩ _ rfl rfl
  have hreach₁ := hreach.snoc trivial (rfl : step narrow s (.tty (some ⟨false, true⟩)) = some _)
  have htty := (Engine.setTty_keeps s.engine (some ⟨false, true⟩)).tty
  obtain ⟨hsecret, hempty, -⟩ := secret_never_shown hreach₁
  obtain ⟨-, hnever⟩ := hsecret ⟨.char 'p', false, false⟩ (shows "") _
    (by simp [secret, htty, password]) rfl
  refine ⟨s, _, _, hreach, of_decide_eq_true hdraws, rfl, rfl, hcells, hempty ?_, ?_, ?_⟩
  · simp [htty, password]
  · exact hlater _ (Reaches.refl.snoc trivial (rfl : step narrow _ (types 'p') = some _))
  · exact (hnever _ .refl).2

end Typing

end Koh.Predict
