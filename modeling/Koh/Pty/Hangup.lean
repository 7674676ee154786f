import Koh.Lib.Fair
import Koh.Pty.Program
import Mathlib.Data.Prod.Lex

/-!
# A hung-up group is killed

What comes of a group that was dropped: it is handed to the reaper, which kills it in its first
pass after the grace.

## Main definitions

- `World.left`: how far the reaper is from a child
- `ToKill`: a group that is to be killed
- `Goes`: a run of a server's, in which every thread goes on

## Main results

- `signals_kept`: every child's story is lawful, and a group that was dropped is killed
- `on_the_way_once`: no child is lost on its way to the reaper, or when the reaper stops
-/

namespace Koh.Pty

open Koh.Lib

variable {c t : ℕ} {w w' : World} {m : Move}

def Move.ofReaper : Move → Bool
  | .receive | .timeout | .judge | .wait _ | .stop => true
  | _ => false

def Phase.left : Phase → ℕ
  | .passing todo _ => 2 * todo.length + 1
  | .trying _ todo _ => 2 * todo.length + 2
  | _ => 0

/-- What the reaper does before it comes to a child: what it receives before it, or the pass that
has yet to begin. -/
def World.before (w : World) (c : ℕ) : ℕ :=
  match (w.children c).place with
  | .sent _ => w.channel.idxOf (.child c) + 2
  | _ => if c ∈ w.reaper.todo then 0 else 1

/-- How far the reaper is from a child. -/
def World.left (w : World) (c : ℕ) : ℕ ×ₗ ℕ := toLex (w.before c, w.reaper.left)

/-- A group that is to be killed at `t`, on its way to the reaper or with it. -/
def ToKill (c t : ℕ) (w : World) : Prop :=
  (w.children c).whom = .group ∧ (w.children c).place.killAt = some (some t)

/-! ### What others do -/

/-- Neither the child `c` nor the reaper changes, though its channel may get more. -/
structure Beside (c : ℕ) (w w' : World) : Prop where
  whom : (w'.children c).whom = (w.children c).whom
  place : (w'.children c).place = (w.children c).place
  story : (w'.children c).story = (w.children c).story
  exited : (w.children c).exited = true → (w'.children c).exited = true
  reaper : w'.reaper = w.reaper
  channel : w.channel <+: w'.channel
  now : w.now ≤ w'.now

/-- The child is as it was, and more may be sent. -/
theorem Beside.of_child (hchild : w'.children c = w.children c) (hreaper : w'.reaper = w.reaper)
    (hchannel : w.channel <+: w'.channel) (hnow : w.now ≤ w'.now) : Beside c w w' :=
  ⟨by rw [hchild], by rw [hchild], by rw [hchild], fun h => by rwa [hchild], hreaper, hchannel,
    hnow⟩

/-- Nothing is sent, and no time goes by. -/
theorem Beside.quiet (hchild : w'.children c = w.children c) (hreaper : w'.reaper = w.reaper)
    (hchannel : w'.channel = w.channel) (hnow : w'.now = w.now) : Beside c w w' :=
  .of_child hchild hreaper (hchannel ▸ List.prefix_refl _) hnow.ge

/-- What was dropped is no one else's to change. -/
theorem beside_of_step (h : Kept w) (hm : m.ofReaper = false)
    (haway : (w.children c).place = .dropping ∧ m ≠ .handOver c ∨
      ∃ killAt, (w.children c).place.killAt = some killAt)
    (hstep : w.step m = some w') : Beside c w w' := by
  have hne : ∀ c', (w.children c').place ≠ .dropping ∨ m = .handOver c' →
      (w.children c').place.killAt = none → c ≠ c' := by
    rintro _ hplace hnone rfl
    rcases haway with ⟨hdropping, hother⟩ | ⟨killAt, hkill⟩
    · rcases hplace with hplace | hplace
      · exact hplace hdropping
      · exact hother hplace
    · rw [hkill] at hnone
      cases hnone
  cases World.steps_of_step hstep with
  | start hhandles hpid =>
    have hfresh := h.fresh w.next (Nat.le_refl _)
    have hother := hne w.next (.inl (by simp [hfresh])) (by rw [hfresh]; rfl)
    exact .quiet (Function.update_of_ne hother _ _) rfl rfl rfl
  | clone => exact .quiet rfl rfl rfl rfl
  | release => exact .quiet rfl rfl rfl rfl
  | drainStopped => exact .quiet rfl rfl rfl rfl
  | drain => exact .of_child rfl rfl (List.prefix_append _ _) (Nat.le_refl _)
  | @signal c' _ hplace =>
    have hother := hne c' (.inl (by simp [hplace])) (by rw [hplace]; rfl)
    exact .quiet (Function.update_of_ne hother _ _) rfl rfl rfl
  | signalEnded => exact .quiet rfl rfl rfl rfl
  | @tryWait c' hplace =>
    have hother := hne c' (.inl (by simp [hplace])) (by rw [hplace]; rfl)
    exact .quiet (Function.update_of_ne hother _ _) rfl rfl rfl
  | tryWaitNone => exact .quiet rfl rfl rfl rfl
  | @drop c' hplace =>
    have hother := hne c' (.inl (by simp [hplace])) (by rw [hplace]; rfl)
    exact .quiet (Function.update_of_ne hother _ _) rfl rfl rfl
  | @dropEnded c' hplace =>
    have hother := hne c' (.inl (by simp [hplace])) (by rw [hplace]; rfl)
    exact .quiet (Function.update_of_ne hother _ _) rfl rfl rfl
  | @leave c' hplace =>
    have hother := hne c' (.inr rfl) (by rw [hplace]; rfl)
    exact .quiet (Function.update_of_ne hother _ _) rfl rfl rfl
  | @handOver c' hplace =>
    have hother := hne c' (.inr rfl) (by rw [hplace]; rfl)
    exact .of_child (Function.update_of_ne hother _ _) rfl (List.prefix_append _ _) (Nat.le_refl _)
  | @exit c' =>
    by_cases hother : c = c'
    · subst hother
      have hself : ∀ child, (w.set c child).children c = child := fun child =>
        Function.update_self _ _ _
      exact ⟨by rw [hself], by rw [hself], by rw [hself], fun _ => by rw [hself], rfl,
        List.prefix_refl _, Nat.le_refl _⟩
    · exact .quiet (Function.update_of_ne hother _ _) rfl rfl rfl
  | fork => exact .quiet rfl rfl rfl rfl
  | forkGone => exact .quiet rfl rfl rfl rfl
  | tick => exact .of_child rfl rfl (List.prefix_refl _) (Nat.le_add_right _ _)
  | _ => cases hm

/-! ### How near the reaper is -/

theorem before_sent {killAt : Option ℕ} (hplace : (w.children c).place = .sent killAt) :
    w.before c = w.channel.idxOf (.child c) + 2 := by
  simp only [World.before, hplace]

theorem before_stopping {killAt : Option ℕ} (hplace : (w.children c).place = .stopping killAt) :
    w.before c = if c ∈ w.reaper.todo then 0 else 1 := by
  simp only [World.before, hplace]

/-- What has a time to be killed is on the channel or with the reaper. -/
theorem place_of_killAt {killAt : Option ℕ} (h : (w.children c).place.killAt = some killAt) :
    (w.children c).place = .sent killAt ∨ (w.children c).place = .stopping killAt := by
  cases hplace : (w.children c).place <;> simp_all [Place.killAt]

/-- Who is coming is on the channel. -/
theorem mem_coming : c ∈ w.coming ↔ Reap.child c ∈ w.channel := by
  rw [World.coming, List.mem_filterMap]
  constructor
  · rintro ⟨reap, hmem, hchild⟩
    cases reap with
    | child c' =>
      cases hchild
      exact hmem
    | drain => cases hchild
  · exact fun hmem => ⟨_, hmem, rfl⟩

/-- Who is to be waited for is on the channel, or with the reaper. -/
theorem mem_of_killAt (h : Kept w) {killAt : Option ℕ}
    (hkill : (w.children c).place.killAt = some killAt) :
    Reap.child c ∈ w.channel ∨ c ∈ w.reaper.held := by
  rcases place_of_killAt hkill with hplace | hplace
  · exact .inl (mem_coming.mp ((h.coming c).mpr ⟨_, hplace⟩))
  · exact .inr ((h.held c).mpr ⟨_, hplace⟩)

/-- The reaper stops only once no child is left to it. -/
theorem not_idle (h : Kept w) {killAt : Option ℕ}
    (hkill : (w.children c).place.killAt = some killAt) (hheld : w.reaper.held = [])
    (hchannel : w.channel = []) : False := by
  rcases mem_of_killAt h hkill with hmem | hmem
  · rw [hchannel] at hmem
    cases hmem
  · rw [hheld] at hmem
    cases hmem

/-- What the reaper does not have it does not change. -/
theorem children_of_reaper (hm : m.ofReaper = true) (hkill : (w.children c).place.killAt = none)
    (hstep : w.step m = some w') : w'.children c = w.children c := by
  have hne : ∀ c' killAt, (w.children c').place.killAt = some killAt → c ≠ c' := by
    rintro _ killAt hsome rfl
    rw [hkill] at hsome
    cases hsome
  cases World.steps_of_step hstep with
  | receive _ _ hplace => exact Function.update_of_ne (hne _ _ (by rw [hplace]; rfl)) _ _
  | receiveDrain => rfl
  | timeout => rfl
  | kill _ hplace => exact Function.update_of_ne (hne _ _ (by rw [hplace]; rfl)) _ _
  | spare => rfl
  | judge => rfl
  | passed => rfl
  | giveUp _ hplace => exact Function.update_of_ne (hne _ _ (by rw [hplace]; rfl)) _ _
  | reap _ hplace => exact Function.update_of_ne (hne _ _ (by rw [hplace]; rfl)) _ _
  | keep => rfl
  | stop => rfl
  | _ => cases hm

/-- What goes on beside it leaves the reaper as far away. -/
theorem left_of_beside (h : Kept w) {killAt : Option ℕ}
    (hkill : (w.children c).place.killAt = some killAt) (hbeside : Beside c w w') :
    w'.left c = w.left c := by
  have hbefore : w'.before c = w.before c := by
    rcases place_of_killAt hkill with hplace | hplace
    · have hmem : Reap.child c ∈ w.channel := mem_coming.mp ((h.coming c).mpr ⟨_, hplace⟩)
      obtain ⟨more, hmore⟩ := hbeside.channel
      rw [before_sent hplace, before_sent (hbeside.place.trans hplace), ← hmore,
        List.idxOf_append_of_mem hmem]
    · rw [before_stopping hplace, before_stopping (hbeside.place.trans hplace), hbeside.reaper]
  rw [World.left, World.left, hbefore, hbeside.reaper]

/-- The reaper goes on in its pass. -/
theorem left_lt_of_pass (hplace : (w'.children c).place = (w.children c).place)
    (hchannel : w'.channel = w.channel) (htodo : c ∈ w'.reaper.todo ↔ c ∈ w.reaper.todo)
    (hleft : w'.reaper.left < w.reaper.left) : w'.left c < w.left c := by
  have hbefore : w'.before c = w.before c := by
    simp only [World.before, hplace, hchannel, htodo]
  exact Prod.Lex.toLex_lt_toLex.mpr (.inr ⟨hbefore, hleft⟩)

/-- The reaper takes something up. -/
theorem left_lt_of_before (h : w'.before c < w.before c) : w'.left c < w.left c :=
  Prod.Lex.toLex_lt_toLex.mpr (.inl h)

/-- It is received. -/
theorem before_lt_of_received {killAt : Option ℕ} (hplace : (w.children c).place = .sent killAt)
    (hplace' : (w'.children c).place = .stopping killAt) (hmem : c ∈ w'.reaper.todo) :
    w'.before c < w.before c := by
  rw [before_sent hplace, before_stopping hplace', if_pos hmem]
  omega

/-- Something else is received. -/
theorem before_lt_of_channel {killAt : Option ℕ} {reap : Reap}
    (hplace : (w.children c).place = .sent killAt) (hplace' : (w'.children c).place = .sent killAt)
    (hchannel : w.channel = reap :: w'.channel) (hne : reap ≠ .child c) :
    w'.before c < w.before c := by
  rw [before_sent hplace, before_sent hplace', hchannel, List.idxOf_cons_ne _ hne]
  omega

/-- A pass begins with all children. -/
theorem before_lt_of_begin (h : Kept w) {children : List ℕ} (hreaper : w.reaper = .waiting children)
    {killAt : Option ℕ} (hplace : (w.children c).place = .stopping killAt)
    (hplace' : (w'.children c).place = .stopping killAt) (hmore : children ⊆ w'.reaper.todo) :
    w'.before c < w.before c := by
  have hmem : c ∈ w.reaper.held := (h.held c).mpr ⟨_, hplace⟩
  rw [hreaper] at hmem
  rw [before_stopping hplace, before_stopping hplace', if_pos (hmore hmem), hreaper]
  simp [Phase.todo]

/-- What a move of the reaper's does for a group: it is killed, its grace over, or the reaper comes
nearer once its grace is over. -/
def Nearer (c t : ℕ) (w w' : World) : Prop :=
  (t ≤ w.now ∧ ∃ holder, .signalled .kill holder w.now ∈ (w'.children c).story) ∨
    (ToKill c t w' ∧ (w'.children c).story = (w.children c).story ∧ w.now ≤ w'.now ∧
      (t ≤ w.now → w'.left c < w.left c))

/-- It is another child's turn. -/
theorem nearer_of_child (hkill : ToKill c t w) (hchild : w'.children c = w.children c)
    (hnow : w'.now = w.now) (hleft : w'.left c < w.left c) : Nearer c t w w' := by
  refine .inr ⟨?_, by rw [hchild], hnow.ge, fun _ => hleft⟩
  rw [ToKill, hchild]
  exact hkill

/-- The reaper waits for no group that is to be killed. -/
theorem Kept.ne_trying (h : Kept w) {c' : ℕ} {todo kept : List ℕ} {killAt : Option ℕ}
    (hreaper : w.reaper = .trying c' todo kept) (hplace : (w.children c').place = .stopping killAt)
    (hkill : ToKill c t w) : c ≠ c' := by
  rintro rfl
  have hnone := h.group_none hreaper hplace hkill.1
  have hsome := hkill.2
  rw [hplace, hnone] at hsome
  cases hsome

/-- A child is received, this one or another. -/
theorem nearer_of_receive (h : Kept w) (hkill : ToKill c t w) {c' : ℕ} {children : List ℕ}
    {channel : List Reap} {killAt : Option ℕ} (hreaper : w.reaper = .waiting children)
    (hchannel : w.channel = .child c' :: channel) (hplace' : (w.children c').place = .sent killAt) :
    Nearer c t w { w.put c' (.stopping killAt) with
      channel := channel, reaper := .passing (children ++ [c']) [] } := by
  by_cases hne : c = c'
  · subst hne
    have hsome : killAt = some t := by simpa [hplace', Place.killAt] using hkill.2
    subst hsome
    have hself : ∀ child, (w.set c child).children c = child := fun child =>
      Function.update_self _ _ _
    refine .inr ⟨⟨?_, ?_⟩, ?_, Nat.le_refl _, fun _ => left_lt_of_before ?_⟩
    · simpa only [World.put, hself] using hkill.1
    · simp only [World.put, hself]
      rfl
    · simp only [World.put, hself]
    · refine before_lt_of_received hplace' ?_ (by simp [Phase.todo])
      simp only [World.put, hself]
  · have hchild : (w.put c' (.stopping killAt)).children c = w.children c :=
      Function.update_of_ne hne _ _
    refine nearer_of_child hkill hchild rfl (left_lt_of_before ?_)
    rcases place_of_killAt hkill.2 with hplace | hplace
    · refine before_lt_of_channel hplace ?_ hchannel (by simpa using Ne.symm hne)
      rw [← hplace]
      exact congrArg _ hchild
    · refine before_lt_of_begin h hreaper hplace ?_ (by simp [Phase.todo])
      rw [← hplace]
      exact congrArg _ hchild

/-- Another child is done with in the pass. -/
theorem nearer_of_other (hkill : ToKill c t w) (hchild : w'.children c = w.children c)
    (hnow : w'.now = w.now) (hchannel : w'.channel = w.channel)
    (htodo : c ∈ w'.reaper.todo ↔ c ∈ w.reaper.todo) (hleft : w'.reaper.left < w.reaper.left) :
    Nearer c t w w' :=
  nearer_of_child hkill hchild hnow (left_lt_of_pass (by rw [hchild]) hchannel htodo hleft)

/-- Every move of the reaper's brings it nearer. -/
theorem nearer_of_step (h : Kept w) (hm : m.ofReaper = true) (hkill : ToKill c t w)
    (hstep : w.step m = some w') : Nearer c t w w' := by
  cases World.steps_of_step hstep with
  | receive hreaper hchannel hplace' => exact nearer_of_receive h hkill hreaper hchannel hplace'
  | receiveDrain hreaper hchannel =>
    refine nearer_of_child hkill rfl rfl (left_lt_of_before ?_)
    rcases place_of_killAt hkill.2 with hplace | hplace
    · exact before_lt_of_channel hplace hplace hchannel (by simp)
    · exact before_lt_of_begin h hreaper hplace hplace (List.Subset.refl _)
  | timeout hreaper hchannel =>
    refine nearer_of_child hkill rfl rfl (left_lt_of_before ?_)
    rcases place_of_killAt hkill.2 with hplace | hplace
    · have hmem : Reap.child c ∈ w.channel := mem_coming.mp ((h.coming c).mpr ⟨_, hplace⟩)
      rw [hchannel] at hmem
      cases hmem
    · exact before_lt_of_begin h hreaper hplace hplace (List.Subset.refl _)
  | @kill c' t' todo kept hreaper hplace' hover =>
    by_cases hne : c = c'
    · subst hne
      have hsame : t' = t := by simpa [hplace', Place.killAt] using hkill.2
      have hself : ∀ child, (w.set c child).children c = child := fun child =>
        Function.update_self _ _ _
      refine .inl ⟨hsame ▸ hover, w.pids (w.children c).pid, ?_⟩
      simp only [World.kill, hself]
      exact List.mem_append_right _ List.mem_cons_self
    · refine nearer_of_other hkill (Function.update_of_ne hne _ _) rfl rfl ?_ ?_
      · simp [hreaper, Phase.todo, hne]
      · simp only [hreaper, Phase.left, List.length_cons]
        omega
  | @spare c' t' todo kept hreaper hplace' _ hearly =>
    by_cases hne : c = c'
    · subst hne
      have hsame : t' = t := by simpa [hplace', Place.killAt] using hkill.2
      exact .inr ⟨hkill, rfl, Nat.le_refl _,
        fun hover => absurd hover (Nat.not_le_of_lt (hsame ▸ hearly))⟩
    · refine nearer_of_other hkill rfl rfl rfl ?_ ?_
      · simp [hreaper, Phase.todo, hne]
      · simp only [hreaper, Phase.left, List.length_cons]
        omega
  | @judge c' killAt todo kept hreaper hplace' _ hleader =>
    have hne : c ≠ c' := by
      rintro rfl
      have hsome := hkill.2
      rw [hplace', hleader hkill.1] at hsome
      cases hsome
    refine nearer_of_other hkill rfl rfl rfl ?_ ?_
    · simp [hreaper, Phase.todo, hne]
    · simp only [hreaper, Phase.left, List.length_cons]
      omega
  | passed hreaper =>
    refine nearer_of_other hkill rfl rfl rfl ?_ ?_
    · rw [hreaper]
      rfl
    · simp [hreaper, Phase.left]
  | giveUp hreaper hplace' =>
    exact nearer_of_other hkill (Function.update_of_ne (h.ne_trying hreaper hplace' hkill) _ _)
      rfl rfl (by rw [hreaper]; rfl) (by simp [hreaper, Phase.left])
  | reap hreaper hplace' =>
    exact nearer_of_other hkill (Function.update_of_ne (h.ne_trying hreaper hplace' hkill) _ _)
      rfl rfl (by rw [hreaper]; rfl) (by simp [hreaper, Phase.left])
  | keep hreaper =>
    exact nearer_of_other hkill rfl rfl rfl (by rw [hreaper]; rfl) (by simp [hreaper, Phase.left])
  | stop hreaper hchannel => exact (not_idle h hkill.2 (by rw [hreaper]; rfl) hchannel).elim
  | _ => cases hm

/-- With a child to wait for, the reaper can go on. -/
theorem reaper_can (h : Kept w) {killAt : Option ℕ}
    (hkill : (w.children c).place.killAt = some killAt) :
    ∃ m : Move, m.ofReaper = true ∧ w.step m ≠ none := by
  cases hreaper : w.reaper with
  | waiting children =>
    cases hchannel : w.channel with
    | nil =>
      cases children with
      | nil => exact (not_idle h hkill (by rw [hreaper]; rfl) hchannel).elim
      | cons c' children => exact ⟨.timeout, rfl, by simp [World.step, hreaper, hchannel]⟩
    | cons reap channel =>
      refine ⟨.receive, rfl, ?_⟩
      cases reap with
      | drain => simp [World.step, hreaper, hchannel]
      | child c' =>
        have hmem : c' ∈ w.coming := mem_coming.mpr (by simp [hchannel])
        obtain ⟨killAt, hplace⟩ := (h.coming c').mp hmem
        simp [World.step, hreaper, hchannel, hplace]
  | passing todo kept =>
    refine ⟨.judge, rfl, ?_⟩
    cases todo with
    | nil => simp [World.step, hreaper]
    | cons c' todo =>
      have hmem : c' ∈ w.reaper.held := by simp [hreaper, Phase.held]
      obtain ⟨killAt, hplace⟩ := (h.held c').mp hmem
      simp only [World.step, hreaper, hplace]
      split
      · simp
      · split <;> simp
  | trying c' todo kept =>
    have hmem : c' ∈ w.reaper.held := by simp [hreaper, Phase.held]
    obtain ⟨killAt, hplace⟩ := (h.held c').mp hmem
    exact ⟨.wait true, rfl, by simp [World.step, hreaper, hplace]⟩
  | stopped =>
    obtain ⟨-, hchannel, -⟩ := h.stopped hreaper
    exact (not_idle h hkill (by rw [hreaper]; rfl) hchannel).elim

/-! ### What comes of a group that was dropped -/

/-- A run of a server's: time goes on, what is dropped is handed over, and the reaper goes on. -/
structure Goes (run : ℕ → World) (moves : ℕ → Move) : Prop where
  started : run 0 = .started
  forever : Forever World.step run moves
  time : ∀ t n, ∃ k ≥ n, t ≤ (run k).now
  handOver : ∀ c, Fair World.step (· = .handOver c) run moves
  reaper : Fair World.step (fun m => m.ofReaper = true) run moves

/-- Every run. -/
theorem kept_of_reaches (h : Reachable World.step .started w) : Kept w :=
  h.invariant Kept .started fun _ _ _ hkept _ hstep => hkept.step hstep

/-- Every state of a run that goes on. -/
theorem Goes.kept {run : ℕ → World} {moves : ℕ → Move} (h : Goes run moves) (n : ℕ) :
    Kept (run n) :=
  kept_of_reaches (h.started ▸ h.forever.reaches n)

def Dropped (c time : ℕ) (w : World) : Prop :=
  (w.children c).whom = .group ∧ .dropped time ∈ (w.children c).story

instance (c time : ℕ) (w : World) : Decidable (Dropped c time w) :=
  inferInstanceAs (Decidable (_ ∧ _))

variable {time : ℕ}

/-- What is to be killed is, or stays so, and the reaper gets no farther from it. -/
theorem toKill_step (h : Kept w) (hkill : ToKill c t w) (hdropped : Dropped c time w)
    (hstep : w.step m = some w') :
    Killed (w'.children c).story time ∨
      (ToKill c t w' ∧ Dropped c time w' ∧ w.now ≤ w'.now ∧ (t ≤ w.now →
        w'.left c ≤ w.left c ∧ (m.ofReaper = true → w'.left c < w.left c))) := by
  cases hm : m.ofReaper with
  | false =>
    have hbeside := beside_of_step h hm (.inr ⟨_, hkill.2⟩) hstep
    have hleft := left_of_beside h hkill.2 hbeside
    refine .inr ⟨⟨hbeside.whom.trans hkill.1, ?_⟩, ⟨hbeside.whom.trans hkill.1, ?_⟩, hbeside.now,
      fun _ => ⟨hleft.le, fun htrue => by cases htrue⟩⟩
    · rw [hbeside.place]
      exact hkill.2
    · rw [hbeside.story]
      exact hdropped.2
  | true =>
    rcases nearer_of_step h hm hkill hstep with ⟨ht, holder, hmem⟩ | ⟨hkill', hstory, hnow, hleft⟩
    · have hdue := (h.sound c).due t hkill.2 time hdropped.2
      exact .inl ⟨holder, w.now, hmem, Nat.le_trans hdue ht⟩
    · refine .inr ⟨hkill', ⟨hkill'.1, ?_⟩, hnow, fun ht => ⟨(hleft ht).le, fun _ => hleft ht⟩⟩
      rw [hstory]
      exact hdropped.2

namespace Goes

variable {run : ℕ → World} {moves : ℕ → Move}

/-- What is dropped is handed over. -/
theorem handedOver (h : Goes run moves) (c time : ℕ) :
    LeadsTo run (fun w => Dropped c time w ∧ (w.children c).place = .dropping)
      (fun w => Dropped c time w ∧ ∃ t, ToKill c t w) := by
  refine h.forever.leadsTo_of_rank (h.handOver c) h.kept (fun _ => 0) ?_ ?_
  · rintro w m w' hkept ⟨hdropped, hplace⟩ hstep
    have hnone : (w.children c).place.killAt = none := by rw [hplace]; rfl
    by_cases hhand : m = .handOver c
    · subst hhand
      obtain ⟨hlive, -⟩ := hkept.handOver hplace
      cases World.steps_of_step hstep with
      | leave _ hstopped => exact absurd hstopped hlive
      | handOver => ?_
      have hchild : (w.put c (.sent (some (w.now + hangupGrace)))).children c =
          { w.children c with place := .sent (some (w.now + hangupGrace)) } :=
        Function.update_self _ _ _
      refine .inl ⟨?_, w.now + hangupGrace, ?_⟩
      · simpa only [Dropped, hchild] using hdropped
      · simp only [ToKill, hchild]
        exact ⟨hdropped.1, rfl⟩
    · have hsame : (w'.children c).whom = (w.children c).whom ∧
          (w'.children c).place = (w.children c).place ∧
          (w'.children c).story = (w.children c).story := by
        cases hm : m.ofReaper with
        | false =>
          have hbeside := beside_of_step hkept hm (.inl ⟨hplace, hhand⟩) hstep
          exact ⟨hbeside.whom, hbeside.place, hbeside.story⟩
        | true =>
          have hchild := children_of_reaper hm hnone hstep
          exact ⟨by rw [hchild], by rw [hchild], by rw [hchild]⟩
      obtain ⟨hwhom, hplace', hstory⟩ := hsame
      refine .inr ⟨⟨⟨hwhom.trans hdropped.1, ?_⟩, hplace'.trans hplace⟩, Nat.le_refl _,
        fun hA => absurd hA hhand⟩
      rw [hstory]
      exact hdropped.2
  · rintro w hkept ⟨-, hplace⟩
    obtain ⟨hlive, -⟩ := hkept.handOver hplace
    exact .inr ⟨_, rfl, by simp [World.step, hplace, hlive]⟩

/-- What is to be killed is, once its grace is over. -/
theorem killed (h : Goes run moves) (c t time : ℕ) :
    LeadsTo run (fun w => Dropped c time w ∧ ToKill c t w)
      (fun w => Killed (w.children c).story time) := by
  rintro n ⟨hdropped, hkill⟩
  obtain ⟨k, hk, ht⟩ := h.time t n
  have hstays := @Forever.stays _ _ _ _ (fun w => Dropped c time w ∧ ToKill c t w)
    (fun w => Killed (w.children c).story time) _ _ h.forever h.kept
    (fun w m w' hkept hP hstep => (toKill_step hkept hP.2 hP.1 hstep).imp id
      fun ⟨hkill', hdropped', _⟩ => ⟨hdropped', hkill'⟩) n k hk ⟨hdropped, hkill⟩
  rcases hstays with ⟨l, hl, -, hkilled⟩ | hP
  · exact ⟨l, hl, hkilled⟩
  · have hlead : LeadsTo run (fun w => (Dropped c time w ∧ ToKill c t w) ∧ t ≤ w.now)
        (fun w => Killed (w.children c).story time) := by
      refine h.forever.leadsTo_of_rank h.reaper h.kept (fun w => w.left c) ?_ ?_
      · rintro w m w' hkept ⟨⟨hdropped, hkill⟩, ht⟩ hstep
        refine (toKill_step hkept hkill hdropped hstep).imp id ?_
        rintro ⟨hkill', hdropped', hnow, hleft⟩
        exact ⟨⟨⟨hdropped', hkill'⟩, Nat.le_trans ht hnow⟩, hleft ht⟩
      · rintro w hkept ⟨⟨-, hkill⟩, -⟩
        exact .inr (reaper_can hkept hkill.2)
    obtain ⟨l, hl, hkilled⟩ := hlead k ⟨hP, ht⟩
    exact ⟨l, Nat.le_trans hk hl, hkilled⟩

end Goes

/-- In every run, each child's story is lawful: its signals reach it alone, none is sent once it was
reaped, and when it is dropped it is hung up at once; a group that was dropped is killed before its
leader is reaped, not before its grace is over, and it is killed. -/
theorem signals_kept :
    (∀ w, Reachable World.step .started w → ∀ c,
      Laws c (w.children c).whom (w.children c).story) ∧
    ∀ run moves, Goes run moves → ∀ c time,
      LeadsTo run (Dropped c time) fun w => Killed (w.children c).story time := by
  refine ⟨fun w hreach c => ((kept_of_reaches hreach).sound c).laws, ?_⟩
  intro run moves h c time n hdropped
  rcases ((h.kept n).sound c).way hdropped.1 time hdropped.2 with hkilled | hdropping | ⟨t, hkill⟩
  · exact ⟨n, Nat.le_refl _, hkilled⟩
  · obtain ⟨k, hk, hdropped', t, hkill⟩ := h.handedOver c time n ⟨hdropped, hdropping⟩
    obtain ⟨l, hl, hkilled⟩ := h.killed c t time k ⟨hdropped', hkill⟩
    exact ⟨l, Nat.le_trans hk hl, hkilled⟩
  · exact h.killed c t time n ⟨hdropped, hdropped.1, hkill⟩

/-- The moves of one group that is dropped, and ends only once it is killed; then time goes on. -/
def hangup : ℕ → Move
  | 0 => .start .group 7
  | 1 => .drop 0
  | 2 => .handOver 0
  | 3 => .tick hangupGrace
  | 4 => .receive
  | 5 => .judge
  | 6 => .exit 0
  | 7 => .wait false
  | 8 => .judge
  | _ => .tick 1

def course (moves : ℕ → Move) : ℕ → World
  | 0 => .started
  | n + 1 => ((course moves n).step (moves n)).getD (course moves n)

/-- Then time goes on. -/
theorem hangup_later (n : ℕ) : hangup (9 + n) = .tick 1 := by
  rw [Nat.add_comm]
  rfl

/-- The moves are a run. -/
theorem forever_hangup : Forever World.step (course hangup) hangup := by
  intro n
  have hsome : ((course hangup n).step (hangup n)).isSome = true := by
    by_cases hn : n < 9
    · have hearly : ∀ n < 9, ((course hangup n).step (hangup n)).isSome = true := by
        decide +kernel
      exact hearly n hn
    · obtain ⟨k, rfl⟩ := Nat.exists_eq_add_of_le (Nat.le_of_not_lt hn)
      rw [hangup_later]
      rfl
  obtain ⟨w, hw⟩ := Option.isSome_iff_exists.mp hsome
  rw [course, hw]
  rfl

/-- In the end only time goes on. -/
theorem course_later (n : ℕ) : course hangup (9 + n) =
    { course hangup 9 with now := (course hangup 9).now + n } := by
  induction n with
  | zero => rw [Nat.add_zero, Nat.add_zero]
  | succ n ih =>
    rw [← Nat.add_assoc, course, hangup_later, ih]
    simp only [World.step, Option.getD_some, Nat.add_assoc]

/-- What is dropped is handed over in it, and the reaper goes on. -/
theorem goes_hangup : Goes (course hangup) hangup where
  started := rfl
  forever := forever_hangup
  time t n := by
    refine ⟨9 + (n + t), by omega, ?_⟩
    rw [course_later]
    exact Nat.le_trans (Nat.le_add_left t n) (Nat.le_add_left _ _)
  handOver c n hcan := by
    obtain ⟨_, rfl, hstep⟩ := hcan (9 + n) (by omega)
    have hplace : ((course hangup (9 + n)).children c).place ≠ .dropping := by
      by_cases hc : c = 0
      · subst hc
        have hgone : ((course hangup 9).children 0).place = .gone := by decide +kernel
        rw [course_later, hgone]
        simp
      · have hone : (course hangup 9).next = 1 := by decide +kernel
        have hnext : (course hangup (9 + n)).next = 1 := by simp only [course_later, hone]
        rw [(kept_of_reaches (forever_hangup.reaches _)).fresh c (by omega)]
        simp
    exact absurd (if_neg hplace) hstep
  reaper n hcan := by
    obtain ⟨m, hm, hstep⟩ := hcan (9 + n) (by omega)
    have hreaper : (course hangup 9).reaper = .waiting [] := by decide +kernel
    have hchannel : (course hangup 9).channel = [] := by decide +kernel
    have hhandles : (course hangup 9).handles = 1 := by decide +kernel
    rw [course_later] at hstep
    cases m with
    | receive => simp [World.step, hreaper, hchannel] at hstep
    | timeout => simp [World.step, hreaper, hchannel] at hstep
    | judge => simp [World.step, hreaper] at hstep
    | wait fails => simp [World.step, hreaper] at hstep
    | stop => simp [World.step, World.disconnected, hhandles] at hstep
    | _ => cases hm

/-- The group is killed. -/
theorem signals_kept_hangup : ∃ k ≥ 3, Killed ((course hangup k).children 0).story 0 :=
  signals_kept.2 _ _ goes_hangup 0 0 3 (by decide +kernel)

/-! ### No child is lost -/

/-- Who is on the way is on the channel or with the reaper. -/
theorem mem_way (h : Kept w) : c ∈ w.coming ++ w.reaper.held ↔
    ∃ killAt, (w.children c).place.killAt = some killAt := by
  rw [List.mem_append, h.coming, h.held]
  constructor
  · rintro (⟨killAt, hplace⟩ | ⟨killAt, hplace⟩)
    · exact ⟨killAt, by rw [hplace, Place.killAt]⟩
    · exact ⟨killAt, by rw [hplace, Place.killAt]⟩
  · rintro ⟨killAt, hkill⟩
    rcases place_of_killAt hkill with hplace | hplace
    · exact .inl ⟨killAt, hplace⟩
    · exact .inr ⟨killAt, hplace⟩

/-- In every run, who was handed over and is not gone is on the channel or with the reaper, and is
there once; when the reaper stops, no child is left. -/
theorem on_the_way_once (h : Reachable World.step .started w) :
    (w.coming ++ w.reaper.held).Nodup ∧
    (∀ c, c ∈ w.coming ++ w.reaper.held ↔ ∃ killAt, (w.children c).place.killAt = some killAt) ∧
    (w.reaper = .stopped → ∀ c,
      (w.children c).place = .unstarted ∨ (w.children c).place = .gone) := by
  have hkept := kept_of_reaches h
  refine ⟨?_, fun c => mem_way hkept, fun hstopped c => ?_⟩
  · refine List.nodup_append.mpr ⟨hkept.comingOnce, hkept.heldOnce, ?_⟩
    rintro c hcoming _ hheld rfl
    obtain ⟨_, hsent⟩ := (hkept.coming c).mp hcoming
    obtain ⟨_, hstopping⟩ := (hkept.held c).mp hheld
    rw [hsent] at hstopping
    cases hstopping
  · obtain ⟨-, hchannel, hprogram⟩ := hkept.stopped hstopped
    have hway : c ∉ w.coming ++ w.reaper.held := by
      simp [World.coming, hchannel, hstopped, Phase.held]
    have hkill := mt (mem_way hkept).mpr hway
    have hin := hprogram c
    cases hplace : (w.children c).place with
    | unstarted => exact .inl rfl
    | gone => exact .inr rfl
    | sent killAt => exact absurd ⟨killAt, by rw [hplace, Place.killAt]⟩ hkill
    | stopping killAt => exact absurd ⟨killAt, by rw [hplace, Place.killAt]⟩ hkill
    | _ =>
      rw [hplace] at hin
      cases hin

/-- A group that was handed over. -/
theorem on_the_way_once_hangup : 0 ∈ (course hangup 3).coming ++ (course hangup 3).reaper.held :=
  ((on_the_way_once (forever_hangup.reaches 3)).2.1 0).mpr ⟨some hangupGrace, by decide +kernel⟩

end Koh.Pty
