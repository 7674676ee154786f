import Koh.Pty.Hangup

/-!
# A child that ended is reaped

What comes of a child that was handed over and has ended: the reaper waits for it in its first pass
after the grace, and then it is gone.

## Main definitions

- `World.gap`: how far the reaper is from waiting for a child
- `OnTheWay`: a child that ended, on its way to the reaper or with it

## Main results

- `ended_gone`: a child that was handed over is gone once it has ended
-/

namespace Koh.Pty

open Koh.Lib

variable {c : ℕ} {w w' : World} {m : Move} {killAt : Option ℕ}

/-- Who the reaper has yet to wait for in its pass. -/
def Phase.ahead : Phase → List ℕ
  | .passing todo _ => todo
  | .trying c todo _ => c :: todo
  | _ => []

/-- What the reaper does before it waits for a child: what it receives before it, or the pass that
has yet to begin; and what its pass has left. -/
def World.gap (w : World) (c : ℕ) : ℕ ×ₗ ℕ :=
  toLex (match (w.children c).place with
    | .sent _ => w.channel.idxOf (.child c) + 2
    | _ => if c ∈ w.reaper.ahead then 0 else 1, w.reaper.left)

/-- A child that ended, on its way to the reaper or with it. -/
def OnTheWay (c : ℕ) (killAt : Option ℕ) (w : World) : Prop :=
  (w.children c).exited = true ∧ (w.children c).place.killAt = some killAt

theorem gap_sent (hplace : (w.children c).place = .sent killAt) :
    w.gap c = toLex (w.channel.idxOf (.child c) + 2, w.reaper.left) := by
  simp only [World.gap, hplace]

theorem gap_stopping (hplace : (w.children c).place = .stopping killAt) :
    w.gap c = toLex (if c ∈ w.reaper.ahead then 0 else 1, w.reaper.left) := by
  simp only [World.gap, hplace]

/-- The pass goes on. -/
theorem gap_lt_of_pass (hplace : (w.children c).place = .stopping killAt) {killAt' : Option ℕ}
    (hplace' : (w'.children c).place = .stopping killAt')
    (hahead : c ∈ w'.reaper.ahead ↔ c ∈ w.reaper.ahead) (hleft : w'.reaper.left < w.reaper.left) :
    w'.gap c < w.gap c := by
  rw [gap_stopping hplace, gap_stopping hplace']
  exact Prod.Lex.toLex_lt_toLex.mpr (.inr ⟨by simp only [hahead], hleft⟩)

/-- The pass goes on, with another child. -/
theorem gap_lt_of_other (hplace : (w'.children c).place = (w.children c).place)
    (hchannel : w'.channel = w.channel) (hahead : c ∈ w'.reaper.ahead ↔ c ∈ w.reaper.ahead)
    (hleft : w'.reaper.left < w.reaper.left) : w'.gap c < w.gap c := by
  simp only [World.gap, hplace, hchannel, hahead]
  exact Prod.Lex.toLex_lt_toLex.mpr (.inr ⟨rfl, hleft⟩)

/-- It is received. -/
theorem gap_lt_of_received (hplace : (w.children c).place = .sent killAt)
    (hplace' : (w'.children c).place = .stopping killAt) : w'.gap c < w.gap c := by
  rw [gap_sent hplace, gap_stopping hplace']
  refine Prod.Lex.toLex_lt_toLex.mpr (.inl ?_)
  dsimp only
  split <;> omega

/-- A pass begins, with something received or not. -/
theorem gap_lt_of_begin (h : Kept w) {children : List ℕ} (hreaper : w.reaper = .waiting children)
    (hmore : children ⊆ w'.reaper.ahead)
    (hkill : (w.children c).place.killAt = some killAt)
    (hplace : (w'.children c).place = (w.children c).place)
    (hchannel : ∀ killAt, (w.children c).place = .sent killAt →
      w'.channel.idxOf (.child c) < w.channel.idxOf (.child c)) : w'.gap c < w.gap c := by
  rcases place_of_killAt hkill with hsent | hstopping
  · rw [gap_sent hsent, gap_sent (hplace.trans hsent)]
    exact Prod.Lex.toLex_lt_toLex.mpr (.inl (Nat.add_lt_add_right (hchannel _ hsent) 2))
  · have hmem : c ∈ w.reaper.held := (h.held c).mpr ⟨_, hstopping⟩
    rw [hreaper] at hmem
    rw [gap_stopping hstopping, gap_stopping (hplace.trans hstopping), if_pos (hmore hmem), hreaper]
    exact Prod.Lex.toLex_lt_toLex.mpr (.inl (by simp [Phase.ahead]))

/-- What a step does for a child that ended: it is gone, or the reaper comes nearer once the child's
grace is over. -/
def Closer (c : ℕ) (killAt : Option ℕ) (w w' : World) : Prop :=
  (w'.children c).place = .gone ∨
    ((OnTheWay c killAt w' ∨ OnTheWay c none w') ∧ w.now ≤ w'.now ∧
      ((∀ t ∈ killAt, t ≤ w.now) → w'.gap c < w.gap c))

/-- Something else is done, or received, first. -/
theorem closer_of_same (hway : OnTheWay c killAt w) (hchild : w'.children c = w.children c)
    (hnow : w'.now = w.now) (hgap : w'.gap c < w.gap c) : Closer c killAt w w' := by
  refine .inr ⟨.inl ?_, hnow.ge, fun _ => hgap⟩
  rw [OnTheWay, hchild]
  exact hway

/-- It is another child's turn in the pass. -/
theorem closer_of_other (hway : OnTheWay c killAt w) (hchild : w'.children c = w.children c)
    (hnow : w'.now = w.now) (hchannel : w'.channel = w.channel)
    (hahead : c ∈ w'.reaper.ahead ↔ c ∈ w.reaper.ahead) (hleft : w'.reaper.left < w.reaper.left) :
    Closer c killAt w w' :=
  closer_of_same hway hchild hnow (gap_lt_of_other (by rw [hchild]) hchannel hahead hleft)

/-- A child is received, this one or another. -/
theorem closer_of_receive (h : Kept w) (hway : OnTheWay c killAt w) {c' : ℕ} {children : List ℕ}
    {channel : List Reap} {killAt' : Option ℕ} (hreaper : w.reaper = .waiting children)
    (hchannel : w.channel = .child c' :: channel)
    (hplace' : (w.children c').place = .sent killAt') :
    Closer c killAt w { w.put c' (.stopping killAt') with
      channel := channel, reaper := .passing (children ++ [c']) [] } := by
  by_cases hne : c = c'
  · subst hne
    have hsame : killAt' = killAt := by simpa [hplace', Place.killAt] using hway.2
    subst hsame
    have hself : (w.put c (.stopping killAt')).children c =
        { w.children c with place := .stopping killAt' } := Function.update_self _ _ _
    refine .inr ⟨.inl ⟨?_, ?_⟩, Nat.le_refl _, fun _ => gap_lt_of_received hplace' ?_⟩
    · simpa only [hself] using hway.1
    · simp only [hself, Place.killAt]
    · simp only [hself]
  · have hchild : (w.put c' (.stopping killAt')).children c = w.children c :=
      Function.update_of_ne hne _ _
    refine closer_of_same hway hchild rfl (gap_lt_of_begin h hreaper
      (List.subset_append_left _ _) hway.2 (congrArg _ hchild) fun _ _ => ?_)
    rw [hchannel, List.idxOf_cons_ne _ (by simpa using Ne.symm hne)]
    exact Nat.lt_succ_self _

/-- The grace of the one that is looked at is over. -/
theorem closer_of_kill (hway : OnTheWay c killAt w) {c' t : ℕ} {todo kept : List ℕ}
    (hreaper : w.reaper = .passing (c' :: todo) kept)
    (hplace' : (w.children c').place = .stopping (some t)) :
    Closer c killAt w { w.kill c' .kill (.stopping none) with
      reaper := .trying c' todo kept } := by
  have hahead : c ∈ (Phase.trying c' todo kept).ahead ↔ c ∈ w.reaper.ahead := by
    rw [hreaper]
    rfl
  have hleft : (Phase.trying c' todo kept).left < w.reaper.left := by
    simp only [hreaper, Phase.left, List.length_cons]
    omega
  by_cases hne : c = c'
  · subst hne
    have hself : (w.kill c .kill (.stopping none)).children c =
        { w.children c with
          place := .stopping none
          story := (w.children c).story ++ [.signalled .kill (w.pids (w.children c).pid) w.now] } :=
      Function.update_self _ _ _
    have hplace : ((w.kill c .kill (.stopping none)).children c).place = .stopping none := by
      rw [hself]
    refine .inr ⟨.inr ⟨?_, ?_⟩, Nat.le_refl _, fun _ => gap_lt_of_pass hplace' hplace hahead hleft⟩
    · simpa only [hself] using hway.1
    · simp only [hself, Place.killAt]
  · exact closer_of_other hway (Function.update_of_ne hne _ _) rfl rfl hahead hleft

/-- Every move of the reaper's brings it nearer. -/
theorem closer_of_step (h : Kept w) (hm : m.ofReaper = true) (hway : OnTheWay c killAt w)
    (hstep : w.step m = some w') : Closer c killAt w w' := by
  cases World.steps_of_step hstep with
  | receive hreaper hchannel hplace' => exact closer_of_receive h hway hreaper hchannel hplace'
  | receiveDrain hreaper hchannel =>
    refine closer_of_same hway rfl rfl
      (gap_lt_of_begin h hreaper (List.Subset.refl _) hway.2 rfl fun _ _ => ?_)
    rw [hchannel, List.idxOf_cons_ne _ (by simp)]
    exact Nat.lt_succ_self _
  | timeout hreaper hchannel =>
    refine closer_of_same hway rfl rfl
      (gap_lt_of_begin h hreaper (List.Subset.refl _) hway.2 rfl fun _ hsent => ?_)
    have hmem : Reap.child c ∈ w.channel := mem_coming.mp ((h.coming c).mpr ⟨_, hsent⟩)
    rw [hchannel] at hmem
    cases hmem
  | kill hreaper hplace' => exact closer_of_kill hway hreaper hplace'
  | @spare c' t todo kept hreaper hplace' _ hearly =>
    by_cases hne : c = c'
    · subst hne
      -- A group is passed over only before its grace is over.
      have hsame : some t = killAt := by simpa [hplace', Place.killAt] using hway.2
      exact .inr ⟨.inl hway, Nat.le_refl _,
        fun hover => absurd (hover t hsame.symm) (Nat.not_le_of_lt hearly)⟩
    · refine closer_of_other hway rfl rfl rfl ?_ ?_
      · simp [hreaper, Phase.ahead, hne]
      · simp only [hreaper, Phase.left, List.length_cons]
        omega
  | judge hreaper =>
    refine closer_of_other hway rfl rfl rfl (by rw [hreaper]; rfl) ?_
    simp only [hreaper, Phase.left, List.length_cons]
    omega
  | passed hreaper =>
    refine closer_of_other hway rfl rfl rfl ?_ ?_
    · simp [hreaper, Phase.ahead]
    · simp [hreaper, Phase.left]
  | @giveUp c' _ _ _ hreaper =>
    by_cases hne : c = c'
    · subst hne
      exact .inl (by simp only [World.put, World.set, Function.update_self])
    · exact closer_of_other hway (Function.update_of_ne hne _ _) rfl rfl
        (by simp [hreaper, Phase.ahead, hne]) (by simp [hreaper, Phase.left])
  | @reap c' _ _ _ hreaper =>
    by_cases hne : c = c'
    · subst hne
      exact .inl (by simp only [World.reap, World.set, Function.update_self])
    · exact closer_of_other hway (Function.update_of_ne hne _ _) rfl rfl
        (by simp [hreaper, Phase.ahead, hne]) (by simp [hreaper, Phase.left])
  | @keep c' _ _ _ hreaper _ hruns =>
    have hne : c ≠ c' := by
      rintro rfl
      rw [hway.1] at hruns
      cases hruns
    exact closer_of_other hway rfl rfl rfl (by simp [hreaper, Phase.ahead, hne])
      (by simp [hreaper, Phase.left])
  | stop hreaper hchannel => exact (not_idle h hway.2 (by rw [hreaper]; rfl) hchannel).elim
  | _ => cases hm

/-- Neither the child nor the reaper moves, and it gets no farther. -/
theorem gap_of_beside (h : Kept w) (hkill : (w.children c).place.killAt = some killAt)
    (hbeside : Beside c w w') : w'.gap c = w.gap c := by
  rcases place_of_killAt hkill with hplace | hplace
  · have hmem : Reap.child c ∈ w.channel := mem_coming.mp ((h.coming c).mpr ⟨_, hplace⟩)
    obtain ⟨more, hmore⟩ := hbeside.channel
    rw [gap_sent hplace, gap_sent (hbeside.place.trans hplace), ← hmore,
      List.idxOf_append_of_mem hmem, hbeside.reaper]
  · rw [gap_stopping hplace, gap_stopping (hbeside.place.trans hplace), hbeside.reaper]

/-- A child that ended is gone, or stays on its way, and the reaper gets no farther from it. -/
theorem onTheWay_step (h : Kept w) (hway : OnTheWay c killAt w) (hstep : w.step m = some w') :
    (w'.children c).place = .gone ∨
      ((OnTheWay c killAt w' ∨ OnTheWay c none w') ∧ w.now ≤ w'.now ∧
        ((∀ t ∈ killAt, t ≤ w.now) →
          w'.gap c ≤ w.gap c ∧ (m.ofReaper = true → w'.gap c < w.gap c))) := by
  cases hm : m.ofReaper with
  | false =>
    have hbeside := beside_of_step h hm (.inr ⟨_, hway.2⟩) hstep
    refine .inr ⟨.inl ⟨hbeside.exited hway.1, ?_⟩, hbeside.now, fun _ =>
      ⟨(gap_of_beside h hway.2 hbeside).le, fun htrue => by cases htrue⟩⟩
    rw [hbeside.place]
    exact hway.2
  | true =>
    refine (closer_of_step h hm hway hstep).imp id ?_
    rintro ⟨hway', hnow, hgap⟩
    exact ⟨hway', hnow, fun hover => ⟨(hgap hover).le, fun _ => hgap hover⟩⟩

/-- In every run, a child that was handed over is gone once it has ended: reaped, or given up. -/
theorem ended_gone {run : ℕ → World} {moves : ℕ → Move} (h : Goes run moves) (c : ℕ) :
    LeadsTo run (fun w => ∃ killAt, OnTheWay c killAt w)
      fun w => (w.children c).place = .gone := by
  rintro n ⟨killAt, hway⟩
  obtain ⟨k, hk, ht⟩ := h.time (killAt.getD 0) n
  have hstays := @Forever.stays _ _ _ _ (fun w => ∃ killAt' ∈ [killAt, none], OnTheWay c killAt' w)
    (fun w => (w.children c).place = .gone) _ _ h.forever h.kept
    (fun w m w' hkept hP hstep => by
      obtain ⟨killAt', hmem, hway'⟩ := hP
      refine (onTheWay_step hkept hway' hstep).imp id ?_
      rintro ⟨hsame | hnone, -, -⟩
      · exact ⟨killAt', hmem, hsame⟩
      · exact ⟨none, by simp, hnone⟩) n k hk ⟨killAt, by simp, hway⟩
  -- Once its grace is over, the reaper passes over it no more.
  rcases hstays with ⟨l, hl, -, hgone⟩ | ⟨killAt', hmem, hway'⟩
  · exact ⟨l, hl, hgone⟩
  · have hover : ∀ t ∈ killAt', t ≤ (run k).now := by
      rintro t rfl
      have hsame : killAt = some t := by simpa [eq_comm] using hmem
      rwa [hsame] at ht
    have hlead : LeadsTo run
        (fun w => ∃ killAt, OnTheWay c killAt w ∧ ∀ t ∈ killAt, t ≤ w.now)
        (fun w => (w.children c).place = .gone) := by
      refine h.forever.leadsTo_of_rank h.reaper h.kept (fun w => w.gap c) ?_ ?_
      · rintro w m w' hkept ⟨killAt, hway, hover⟩ hstep
        refine (onTheWay_step hkept hway hstep).imp id ?_
        rintro ⟨hsame | hnone, hnow, hgap⟩
        · exact ⟨⟨killAt, hsame, fun t ht => Nat.le_trans (hover t ht) hnow⟩, hgap hover⟩
        · exact ⟨⟨none, hnone, fun t ht => by cases ht⟩, hgap hover⟩
      · rintro w hkept ⟨killAt, hway, -⟩
        exact .inr (reaper_can hkept hway.2)
    obtain ⟨l, hl, hgone⟩ := hlead k ⟨killAt', hway', hover⟩
    exact ⟨l, Nat.le_trans hk hl, hgone⟩

/-- A group that ended after its kill is gone in the end. -/
theorem ended_gone_hangup : ∃ k ≥ 7, ((course hangup k).children 0).place = .gone :=
  ended_gone goes_hangup 0 7 ⟨none, by decide +kernel, by decide +kernel⟩

end Koh.Pty
