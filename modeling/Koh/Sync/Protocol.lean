import Koh.Lib.Reach
import Koh.Sync.Follows
import Koh.Sync.Merge

/-!
# Two ends that agree

What is on its way from the sender to the receiver leads from where the receiver
is to where the sender is, whatever order the two take turns in. So neither is
told what it has no place for, and neither waits for what the other owes it.

## Main definitions

- `Net.readable`: what is sent of a file can be read
- `Net.Agrees`: what two ends that do not quarrel keep
- `Net.Accord`: both ends, and what is between them, follow one script

## Main results

- `Net.agrees`: as long as what is sent can be read, the ends agree
- `Net.agrees_one`: a file is copied
- `Net.quarrels`: a file that cannot be read to its end makes them quarrel
-/

namespace Koh.Sync

open Lib

/-! ### A header answered -/

variable {size : Item → ℕ} {digest : Bytes → Bytes} {dry there : Bool} {s : Script}
  {replies : List Reply}

/-- An answer is one more of those on their way. -/
theorem Follows.answered {n : Sender} {f : Awaiting} (a : Answer) (h : Follows n replies s)
    (hs : s.Sound) (hasked : asked s.held = some f) :
    Follows n (replies ++ [.answer a]) (s.answered a) := by
  obtain ⟨lost, kept, heard, hheld, hpending, hkept, hsome, hlost, hheard⟩ := h.holds
  have hnone : lost.find? (·.2.isNone) = none := by
    rw [List.find?_eq_none]
    intro x hx
    have hx := hsome x hx
    rw [Option.isSome_iff_ne_none] at hx
    simpa using hx
  have hasked' : asked kept = some f := by
    rw [hheld] at hasked
    simpa [asked, List.find?_append, hnone] using hasked
  obtain ⟨before, after, hsplit, hbefore⟩ := asked_split hasked'
  have hafter : after.filterMap Prod.snd = [] := by
    have horder := hs.order
    rw [hheld, hsplit, List.pairwise_append, List.pairwise_append, List.pairwise_cons] at horder
    refine List.filterMap_eq_nil_iff.mpr fun x hx => ?_
    cases hx2 : x.2 with
    | none => rfl
    | some b => exact absurd (horder.2.1.2.1.1 x hx (by simp [hx2])) (by simp)
  have hfill : fill a s.held = lost ++ (before ++ (f, some a) :: after) := by
    rw [hheld, hsplit, ← List.append_assoc, fill_split a, List.append_assoc]
    intro x hx
    rcases List.mem_append.mp hx with hx | hx
    · exact hsome x hx
    · exact hbefore x hx
  refine ⟨h.todo, h.next, ⟨lost, _, heard, hfill, ?_, ?_, hsome, hlost, hheard⟩, h.within, h.spoke,
    h.fair⟩
  · rw [hpending, hsplit]
    simp
  · rw [hsplit, List.filterMap_append, List.filterMap_cons_none rfl, hafter, List.append_nil] at hkept
    rw [List.filterMap_append, List.filterMap_cons, hafter, hkept, answersIn_append]
    simp [answersIn]

/-! ### What the sender's steps keep -/

namespace Sender

variable {n n' : Sender} {out out' : Out} {replies' : List Reply} {sees : Bool} {k : ℕ}

/-- Whether it is over. -/
theorem ended_iff {n : Sender} : Net.ended n = true ↔ ∃ o, n.phase = .over o := by
  unfold Net.ended
  cases n.phase <;> simp

/-- Where it waits for a reply, what it wrote was handed on. -/
def Drained (n : Sender) (out : Out) : Prop :=
  match n.phase with
  | .waiting | .listening _ => out.buf = []
  | _ => True

/-- What a step of the sender's does with the replies: one is taken, or none; the
receiver's word ends it, and nothing else does. -/
structure Keeps (n n' : Sender) (out out' : Out) (replies replies' : List Reply) (there : Bool) :
    Prop where
  took : replies' = replies ∨ ∃ reply, replies = reply :: replies' ∧
    ∀ o, reply = .over o → Net.ended n' = true
  ended : Net.ended n' = true → ∃ o, Reply.over o ∈ replies
  drained : there = true → n.Drained out → n'.Drained out'

/-- It has more to write, or to act on. -/
def busy (n : Sender) : Bool :=
  match n.phase with
  | .waiting | .closing _ | .listening _ | .over _ => false
  | _ => true

theorem Keeps.of_busy (hbusy : n'.busy = true) :
    Keeps n n' out out' replies replies there where
  took := .inl rfl
  ended := fun hended => by
    obtain ⟨o, ho⟩ := ended_iff.mp hended
    simp [busy, ho] at hbusy
  drained := fun _ _ => by
    unfold Drained
    unfold busy at hbusy
    split <;> simp_all

/-- What is written keeps the sender busy. -/
theorem put_busy {m m' : Sender} {i : Item} (hbusy : m'.busy = true)
    (h : put size there m out i m' = some (n', out')) : n'.busy = true := by
  rcases put_cases h with ⟨rfl, -⟩ | ⟨-, rfl, -⟩
  · exact hbusy
  · rfl

/-- So does the walk. -/
theorem walkOn_busy (hphase : n.phase = .walking) (h : n.walkOn size there out = some (n', out')) :
    n'.busy = true := by
  unfold walkOn at h
  split at h
  · cases h
    by_cases hempty : n.pending.isEmpty <;> simp [busy, hempty]
  · exact put_busy (by simp [busy, hphase]) h
  · exact put_busy rfl h
  · refine put_busy ?_ h
    by_cases hfull : WINDOW ≤ n.pending.length + 1 <;> simp [busy, hfull]
  · cases h
    rfl

/-- So does an answer. -/
theorem act_busy {a : Answer} (h : n.act size digest there out a = some (n', out')) :
    n'.busy = true := by
  unfold act at h
  split at h
  · cases h
    rfl
  · simp only at h
    split at h
    · cases h
      rfl
    · exact put_busy rfl h
    · split at h
      · exact put_busy rfl h
      · exact put_busy rfl h

/-- A reply that is heard keeps the accord. -/
theorem hear_keeps {reply : Reply} :
    Keeps n (n.hear reply) out out (reply :: replies') replies' there := by
  refine ⟨.inr ⟨reply, rfl, ?_⟩, fun hended => ?_, fun _ _ => ?_⟩
  · rintro o rfl
    rfl
  · cases reply with
    | answer a => cases hended
    | «over» o => exact ⟨o, List.mem_cons_self⟩
  · cases reply <;> trivial

/-- So does every step of the sender. -/
theorem step_keeps (h : n.step size digest there sees k out replies = some ((n', out'), replies')) :
    Keeps n n' out out' replies replies' there := by
  unfold step at h
  cases hphase : n.phase with
  | walking =>
    simp only [hphase] at h
    obtain ⟨x, hx, heq⟩ := Option.map_eq_some_iff.mp h
    cases heq
    exact .of_busy (walkOn_busy hphase hx)
  | flushing =>
    simp only [hphase] at h
    split at h
    · next out₁ hflush =>
      cases h
      exact ⟨.inl rfl, (fun hended => by cases hended), fun _ _ => (Out.flush_went hflush).2⟩
    · cases h
    · cases h
      exact .of_busy rfl
  | waiting =>
    simp only [hphase] at h
    split at h
    · cases h
      exact hear_keeps
    · cases h
  | polling =>
    simp only [hphase] at h
    split at h
    · cases h
      exact hear_keeps
    · cases h
      exact .of_busy rfl
  | acting a =>
    simp only [hphase] at h
    obtain ⟨x, hx, heq⟩ := Option.map_eq_some_iff.mp h
    cases heq
    exact .of_busy (act_busy hx)
  | reading file path offset =>
    simp only [hphase] at h
    split at h
    · cases h
      exact .of_busy rfl
    · obtain ⟨x, hx, heq⟩ := Option.map_eq_some_iff.mp h
      cases heq
      exact .of_busy (put_busy rfl hx)
    · obtain ⟨x, hx, heq⟩ := Option.map_eq_some_iff.mp h
      cases heq
      exact .of_busy (put_busy rfl hx)
  | ending sent =>
    simp only [hphase] at h
    split at h
    · cases h
      exact ⟨.inl rfl, (fun hended => by cases hended), fun _ _ => trivial⟩
    · cases h
    · next hitem =>
      cases h
      exact ⟨.inl rfl, (fun hended => by cases hended),
        fun ht => absurd ((Out.item_gone hitem).symm.trans ht) (by simp)⟩
  | closing sent =>
    simp only [hphase] at h
    split at h
    · next out₁ hflush =>
      cases h
      exact ⟨.inl rfl, (fun hended => by cases hended), fun _ _ => (Out.flush_went hflush).2⟩
    · cases h
    · next hflush =>
      cases h
      exact ⟨.inl rfl, (fun hended => by cases hended),
        fun ht => absurd ((Out.flush_gone hflush).symm.trans ht) (by simp)⟩
  | listening sent =>
    simp only [hphase] at h
    split at h
    · cases h
      refine ⟨.inr ⟨_, rfl, by simp⟩, (fun hended => by cases hended), fun _ hdrained => ?_⟩
      simpa [Drained, hphase] using hdrained
    · next o more =>
      cases h
      exact ⟨.inr ⟨_, rfl, fun _ _ => rfl⟩, fun _ => ⟨o, List.mem_cons_self⟩, fun _ _ => trivial⟩
    · cases h
  | «over» o => simp [hphase] at h

/-- It need not wait if there is room, or nobody to read, and a reply if it is for one. -/
theorem step_isSome (hroom : there = false ∨ out.pipe.length < pipeDepth) (hover : Net.ended n = false)
    (hreply : (n.phase = .waiting ∨ ∃ sent, n.phase = .listening sent) → replies ≠ []) :
    (n.step size digest there true 0 out replies).isSome := by
  have hput : ∀ {m m' : Sender} {i : Item}, (put size there m out i m').isSome := by
    intro m m' i
    unfold put
    cases hitem : out.item size there i with
    | went out' => rfl
    | full => exact absurd hitem (Out.item_ne_full hroom)
    | gone => rfl
  unfold step
  cases hphase : n.phase with
  | walking =>
    simp only [Option.isSome_map]
    unfold walkOn
    split <;> first | exact hput | rfl
  | flushing =>
    simp only
    cases hflush : out.flush there with
    | full => exact absurd hflush (Out.flush_ne_full hroom)
    | _ => rfl
  | waiting =>
    cases replies with
    | nil => exact absurd rfl (hreply (.inl hphase))
    | cons reply more => rfl
  | polling => cases replies <;> rfl
  | acting a =>
    simp only [Option.isSome_map]
    unfold act
    split
    · rfl
    · simp only
      split
      · rfl
      · exact hput
      · split <;> exact hput
  | reading file path offset =>
    simp only
    split
    · rfl
    · simpa only [Option.isSome_map] using hput
    · simpa only [Option.isSome_map] using hput
  | ending sent =>
    simp only
    cases hitem : out.item size there (lastItem sent) with
    | full => exact absurd hitem (Out.item_ne_full hroom)
    | _ => rfl
  | closing sent =>
    simp only
    cases hflush : out.flush there with
    | full => exact absurd hflush (Out.flush_ne_full hroom)
    | _ => rfl
  | listening sent =>
    cases replies with
    | nil => exact absurd rfl (hreply (.inr ⟨sent, hphase⟩))
    | cons reply more => cases reply <;> rfl
  | «over» o => simp [Net.ended, hphase] at hover

end Sender

/-! ### Both ends -/

namespace Net

/-- What is on its way to the receiver. -/
def onWay (n : Net) : List Item := n.inbox ++ n.out.items

/-- A read of a file whose bytes are being sent does not fail. -/
def readable (n : Net) : Move → Bool
  | .send _ k => n.sender.readable k
  | _ => true

/-- What two ends that do not quarrel, and wait for nothing that does not come, keep. -/
structure Agrees (size : Item → ℕ) (digest : Digest) (n : Net) : Prop where
  /-- Neither end fails with `Malformed`. -/
  civil : ∀ failure, n.outcome = some (.error failure) ∨ n.sender.phase = .ending (.error failure) ∨
    n.sender.phase = .closing (.error failure) ∨ n.sender.phase = .listening (.error failure) ∨
    n.sender.phase = .over (.error failure) → failure.kind ≠ .malformed
  /-- A window's files at most are pending at either end, of distinct numbers. -/
  sending : n.sender.pending.length ≤ WINDOW ∧ (n.sender.pending.map Awaiting.id).Nodup
  receiving : n.outcome = none → n.receiver.pending.length ≤ WINDOW ∧
    (n.receiver.pending.map (·.header.id)).Nodup
  /-- There is room for an answer, and for the receiver's word. -/
  room : n.replies.length < replyDepth
  /-- Each answer is for a file that the sender holds. -/
  owed : ∀ a, .answer a ∈ n.replies ∨ n.sender.phase = .acting a →
    ∃ f ∈ n.sender.pending, f.id = a.id
  /-- Until both are done, one of them goes on. -/
  moves : n.outcome = none ∨ ended n.sender = false → ∃ m, (n.step size digest m).isSome

/-- Both ends, and what is between them, follow one script. -/
structure Accord (digest : Digest) (dry : Bool) (top : DirId) (n : Net) : Prop where
  dryRun : n.sender.dryRun = dry
  script : ∃ s, s.Sound ∧ Follows n.sender n.replies s ∧ (n.outcome = none →
    ∃ s₀, s₀.Sound ∧ Hears n.receiver s₀ ∧ Way (Script.Writes digest dry) s₀ n.onWay s)
  receiver : n.outcome = none → Rooted digest top n.receiver ∧ n.receiver.Wet ∧
    n.receiver.opts.dryRun = dry
  civil : ∀ o, n.outcome = some o → Sender.CivilEnd o
  untold : n.outcome = none → n.told = false
  words : ∀ o, .over o ∈ n.replies → n.outcome = some o ∧ n.told = true
  told : n.told = true → (∃ o, .over o ∈ n.replies) ∨ ended n.sender = true
  count : n.replies.length ≤ (answersIn n.replies).length + if n.told then 1 else 0
  drained : n.outcome = none → n.sender.Drained n.out
  early : ended n.sender = true → n.outcome ≠ none

namespace Accord

variable {top : DirId} {n n' : Net}

/-- The files the sender holds, and what they are answered. -/
theorem holds (h : Accord digest dry top n) : (n.sender.pending.length ≤ WINDOW ∧
    (n.sender.pending.map Awaiting.id).Nodup) ∧
    (∀ a, a ∈ n.sender.acting.toList ++ answersIn n.replies → ∃ f ∈ n.sender.pending, f.id = a.id) ∧
    (answersIn n.replies).length ≤ WINDOW := by
  obtain ⟨s, hs, hfollows, -⟩ := h.script
  obtain ⟨lost, kept, heard, hheld, hpending, hkept, -⟩ := hfollows.holds
  have hroom := hs.room
  have hnodup := hs.nodup
  rw [hheld, List.length_append] at hroom
  rw [hheld, List.map_append] at hnodup
  have hlen : (kept.filterMap Prod.snd).length ≤ kept.length := List.length_filterMap_le _ _
  refine ⟨⟨?_, ?_⟩, fun a ha => ?_, ?_⟩
  · rw [hpending, List.length_map]
    omega
  · rw [hpending, List.map_map]
    exact hnodup.of_append_right
  · have hmem : a ∈ kept.filterMap Prod.snd := by
      rw [hkept, List.append_assoc]
      exact List.mem_append_right _ ha
    obtain ⟨x, hx, hsome⟩ := List.mem_filterMap.mp hmem
    refine ⟨x.1, hpending ▸ List.mem_map_of_mem hx, ?_⟩
    exact (hs.answers x (hheld ▸ List.mem_append_right _ hx) a hsome).symm
  · rw [hkept, List.length_append] at hlen
    omega

/-- Until both are done, one of them goes on. -/
theorem moves (h : Accord digest dry top n) (hgoes : n.outcome = none ∨ ended n.sender = false) :
    ∃ m, (n.step size digest m).isSome := by
  have hsend : (n.sender.step size digest n.outcome.isNone true 0 n.out n.replies).isSome →
      ∃ m, (n.step size digest m).isSome := fun hstep => ⟨.send true 0, by simpa [step] using hstep⟩
  cases houtcome : n.outcome with
  | none =>
    cases hinbox : n.inbox with
    | cons i rest => exact ⟨.receive, by simp [step, houtcome, hinbox]⟩
    | nil =>
      cases hpipe : n.out.pipe with
      | cons message pipe => exact ⟨.take, by simp [step, houtcome, hinbox, hpipe]⟩
      | nil =>
        refine hsend (Sender.step_isSome (.inr (by simp [hpipe, pipeDepth])) ?_ fun hwait => ?_)
        · cases hended : ended n.sender with
          | false => rfl
          | true => exact absurd houtcome (h.early hended)
        · -- All that was written is read: the receiver is where the sender is.
          obtain ⟨s, hs, hfollows, hway⟩ := h.script
          obtain ⟨s₀, hs₀, hhears, hway⟩ := hway houtcome
          have hbuf : n.out.buf = [] := by
            have hdrained := h.drained houtcome
            unfold Sender.Drained at hdrained
            rcases hwait with hphase | ⟨sent, hphase⟩ <;> simpa [hphase] using hdrained
          have hnone : n.onWay = [] := by simp [onWay, Out.items, hinbox, hpipe, hbuf]
          rw [hnone] at hway
          cases hway.eq_of_nil
          rcases hwait with hphase | ⟨sent, hphase⟩
          · rintro hreplies
            obtain ⟨hpending, hanswers⟩ := hfollows.going (by simp [Sender.stopping, hphase])
              (by simp [Sender.deaf, hphase])
            have hfair := hfollows.fair
            simp only [Sender.Fair, hphase] at hfair
            simp only [Sender.acting, hphase, hreplies, Option.toList_none, answersIn,
              List.filterMap_nil, List.append_nil, List.filterMap_eq_nil_iff] at hanswers
            refine hfair ?_
            rw [hpending, List.map_eq_nil_iff, List.eq_nil_iff_forall_not_mem]
            intro x hx
            have hsome := hhears.answered x hx
            rw [hanswers x hx] at hsome
            cases hsome
          · have hspoke := hfollows.spoke
            rw [hhears.goes] at hspoke
            simp [Sender.spoke, hphase] at hspoke
  | some o =>
    have hgoes := hgoes.resolve_left (by simp [houtcome])
    cases htold : n.told with
    | false =>
      have hroom : n.replies.length < replyDepth := by
        have hcount := h.count
        have hanswers := h.holds.2.2
        simp only [htold, Bool.false_eq_true, if_false] at hcount
        simp only [replyDepth]
        omega
      exact ⟨.tell, by simp [step, houtcome, htold, hroom]⟩
    | true =>
      rcases h.told htold with ⟨o', ho'⟩ | hended
      · refine hsend (Sender.step_isSome (.inl (by simp [houtcome])) hgoes fun _ hnil => ?_)
        rw [hnil] at ho'
        cases ho'
      · exact absurd (hgoes.symm.trans hended) (by simp)

/-- Ends that follow one script agree. -/
theorem agree (h : Accord digest dry top n) : n.Agrees size digest where
  civil failure hfails := by
    obtain ⟨s, hs, hfollows, -⟩ := h.script
    have hfair := hfollows.fair
    rcases hfails with houtcome | hphase | hphase | hphase | hphase
    · exact h.civil _ houtcome
    · simp only [Sender.Fair, hphase] at hfair
      exact hfair.1
    all_goals
      simp only [Sender.Fair, hphase] at hfair
      exact hfair
  sending := h.holds.1
  receiving hnone := by
    obtain ⟨s, hs, hfollows, hway⟩ := h.script
    obtain ⟨s₀, hs₀, hhears, -⟩ := hway hnone
    exact ⟨hhears.length ▸ hs₀.room, hhears.ids ▸ hs₀.nodup⟩
  room := by
    have hcount := h.count
    have hanswers := h.holds.2.2
    simp only [replyDepth]
    split at hcount <;> omega
  owed a ha := by
    refine h.holds.2.1 a (List.mem_append.mpr ?_)
    rcases ha with ha | hphase
    · refine .inr (List.mem_filterMap.mpr ⟨_, ha, rfl⟩)
    · exact .inl (by simp [Sender.acting, hphase])
  moves := h.moves

/-! #### What each of them does -/

/-- The sender goes on. -/
theorem sends (h : Accord digest dry top n) {sees : Bool} {k : ℕ}
    (hreadable : n.sender.readable k = true)
    (hstep : n.step size digest (.send sees k) = some n') : Accord digest dry top n' := by
  obtain ⟨⟨⟨sender, out⟩, replies⟩, hsend, rfl⟩ := Option.map_eq_some_iff.mp hstep
  obtain ⟨s, hs, hfollows, hway⟩ := h.script
  have hkeeps := Sender.step_keeps hsend
  obtain ⟨s', hs', hfollows', hdry, hwrote⟩ := hfollows.step hs h.dryRun hreadable
    (fun o ho => by
      obtain ⟨houtcome, -⟩ := h.words o ho
      exact ⟨by simp [houtcome], h.civil o houtcome⟩) hsend
  have hsub : ∀ reply ∈ replies, reply ∈ n.replies := by
    rcases hkeeps.took with rfl | ⟨reply, heq, -⟩
    · exact fun _ h => h
    · exact fun _ hr => heq ▸ List.mem_cons_of_mem _ hr
  refine ⟨hdry, ⟨s', hs', hfollows', fun hnone => ?_⟩, h.receiver, h.civil, h.untold,
    fun o ho => h.words o (hsub _ ho), fun htold => ?_, ?_, fun hnone => ?_, fun hended => ?_⟩
  · obtain ⟨s₀, hs₀, hhears, hpath⟩ := hway hnone
    obtain ⟨items, hitems, hmore⟩ := hwrote (by simpa using hnone)
    refine ⟨s₀, hs₀, hhears, ?_⟩
    have honWay : ({ n with sender := sender, out := out, replies := replies } : Net).onWay =
        n.onWay ++ items := by simp [onWay, hitems]
    rw [honWay]
    exact hpath.append hmore
  · rcases h.told htold with ⟨o, ho⟩ | hended
    · rcases hkeeps.took with rfl | ⟨reply, heq, hover⟩
      · exact .inl ⟨o, ho⟩
      · rw [heq, List.mem_cons] at ho
        rcases ho with ho | ho
        · exact .inr (hover o ho.symm)
        · exact .inl ⟨o, ho⟩
    · obtain ⟨o, ho⟩ := Sender.ended_iff.mp hended
      unfold Sender.step at hsend
      simp [ho] at hsend
  · have hcount := h.count
    rcases hkeeps.took with rfl | ⟨reply, heq, -⟩
    · exact hcount
    · rw [heq] at hcount
      cases reply with
      | answer a =>
        simp only [answersIn_answer, List.length_cons] at hcount
        show replies.length ≤ (answersIn replies).length + if n.told then 1 else 0
        omega
      | «over» o =>
        simp only [answersIn_over, List.length_cons] at hcount
        show replies.length ≤ (answersIn replies).length + if n.told then 1 else 0
        omega
  · exact hkeeps.drained (by simpa using hnone) (h.drained hnone)
  · obtain ⟨o, ho⟩ := hkeeps.ended hended
    show n.outcome ≠ none
    rw [(h.words o ho).1]
    simp

/-- The receiver takes a message: what is on its way is the same. -/
theorem takes (h : Accord digest dry top n) (hstep : n.step size digest .take = some n') :
    Accord digest dry top n' := by
  simp only [step] at hstep
  split at hstep
  · next message pipe hnone hinbox hpipe =>
    cases hstep
    obtain ⟨s, hs, hfollows, hway⟩ := h.script
    refine ⟨h.dryRun, ⟨s, hs, hfollows, fun hnone => ?_⟩, h.receiver, h.civil, h.untold, h.words,
      h.told, h.count, h.drained, h.early⟩
    obtain ⟨s₀, hs₀, hhears, hpath⟩ := hway hnone
    refine ⟨s₀, hs₀, hhears, ?_⟩
    have honWay : ({ n with inbox := message, out := { n.out with pipe := pipe } } : Net).onWay =
        n.onWay := by simp [onWay, Out.items, hinbox, hpipe]
    rw [honWay]
    exact hpath
  · cases hstep

/-- The receiver's end is handed to the replies. -/
theorem tells (h : Accord digest dry top n) (hstep : n.step size digest .tell = some n') :
    Accord digest dry top n' := by
  simp only [step] at hstep
  split at hstep
  · next o houtcome htold =>
    split at hstep
    · cases hstep
      obtain ⟨s, hs, hfollows, hway⟩ := h.script
      have hanswers : answersIn (n.replies ++ [.over o]) = answersIn n.replies := by
        rw [answersIn_append]
        simp [answersIn]
      have hsome : ∀ {P : Prop}, n.outcome = none → P := fun hnone =>
        absurd (houtcome.symm.trans hnone) (by simp)
      refine ⟨h.dryRun, ⟨s, hs, ⟨hfollows.todo, hfollows.next, ?_, hfollows.within, hfollows.spoke,
        hfollows.fair⟩, hsome⟩, hsome, h.civil, hsome, fun o' ho' => ?_,
        fun _ => .inl ⟨o, by simp⟩, ?_, hsome, h.early⟩
      · obtain ⟨lost, kept, heard, hheld, hpending, hkept, hrest⟩ := hfollows.holds
        exact ⟨lost, kept, heard, hheld, hpending, hanswers ▸ hkept, hrest⟩
      · rcases List.mem_append.mp ho' with ho' | ho'
        · exact ⟨(h.words o' ho').1, rfl⟩
        · cases List.mem_singleton.mp ho'
          exact ⟨houtcome, rfl⟩
      · have hcount := h.count
        simp only [hanswers, List.length_append, List.length_singleton, if_true]
        simp only [htold, Bool.false_eq_true, if_false] at hcount
        omega
    · cases hstep
  · cases hstep

/-- The receiver's thread ended, and says how. -/
theorem ends (h : Accord digest dry top n) (hnone : n.outcome = none) {o : Except Failure Summary}
    (hcivil : Sender.CivilEnd o) (rest : List Item) (r : Receiver) :
    Accord digest dry top { n with inbox := rest, receiver := r, outcome := some o } := by
  obtain ⟨s, hs, hfollows, -⟩ := h.script
  have hno : ∀ o, Reply.over o ∉ n.replies := fun o ho =>
    absurd ((h.words o ho).1.symm.trans hnone) (by simp)
  exact ⟨h.dryRun, ⟨s, hs, hfollows, by simp⟩, by simp, by simpa using hcivil, by simp,
    fun o ho => absurd ho (hno o), h.told, h.count, by simp, by simp⟩

/-- The receiver reads an item. -/
theorem reads (h : Accord digest dry top n) (hnone : n.outcome = none) {i : Item} {rest : List Item}
    (hinbox : n.inbox = i :: rest) : Accord digest dry top (n.read digest i rest) := by
  obtain ⟨s, hs, hfollows, hway⟩ := h.script
  obtain ⟨s₀, hs₀, hhears, hpath⟩ := hway hnone
  obtain ⟨hrooted, hwet, hdry⟩ := h.receiver hnone
  have honWay : n.onWay = i :: (rest ++ n.out.items) := by simp [onWay, hinbox]
  rw [honWay] at hpath
  obtain ⟨s₁, hwrites, hpath⟩ := hpath.uncons
  have hs₁ := hwrites.sound hs₀
  have hcivil := Receiver.item_civil digest (hhears.ready hs₀ hwet hdry hwrites)
  have htold := h.untold hnone
  unfold read
  cases hitem : Receiver.item digest i n.receiver with
  | error failure r =>
    have hend : @Sender.CivilEnd Summary (.error failure) :=
      wp_of_error (x := Receiver.item digest i) hcivil hitem
    exact h.ends hnone hend rest r
  | ok heard r =>
    have hdoes := Receiver.item_does hrooted.sound hitem
    have hnext := hhears.next hs₀ hwrites hdoes
    have hopts : r.opts = n.receiver.opts := hdoes.fixed.1
    have hreceiver : Rooted digest top r ∧ r.Wet ∧ r.opts.dryRun = dry :=
      ⟨hdoes.rooted hrooted, hdoes.wet hwet, by rw [hopts, hdry]⟩
    cases heard with
    | nothing =>
      exact ⟨h.dryRun, ⟨s, hs, hfollows, fun _ => ⟨s₁, hs₁, hnext, hpath⟩⟩, fun _ => hreceiver,
        h.civil, h.untold, h.words, h.told, h.count, h.drained, h.early⟩
    | answer a =>
      obtain ⟨f, hasked, hid, hhears'⟩ := hnext
      have hroom : n.replies.length < replyDepth := (@agree (fun _ => 0) _ _ _ _ h).room
      have hpath' := hpath.map (Script.answered a) (fun s => asked s.held = some f)
        (fun _ _ _ hasked hwrites => hwrites.answered a hasked) hasked
      have hasked' := hpath.invariant (fun s => asked s.held = some f)
        (fun _ _ _ hasked hwrites => (hwrites.answered a hasked).1) hasked
      simp only [hroom, if_true]
      refine ⟨h.dryRun, ⟨s.answered a, hs.answered hasked' hid, hfollows.answered a hs hasked',
        fun _ => ⟨s₁.answered a, hs₁.answered hasked hid, hhears', hpath'⟩⟩, fun _ => hreceiver,
        h.civil, h.untold, fun o ho => h.words o (by simpa using ho), fun hyes => ?_, ?_, h.drained,
        h.early⟩
      · exact absurd (htold.symm.trans hyes) (by simp)
      · have hcount := h.count
        have hone : answersIn [Reply.answer a] = [a] := rfl
        simp only [answersIn_append, hone, List.length_append, List.length_singleton]
        simp only [htold, Bool.false_eq_true, if_false] at hcount ⊢
        omega
    | «over» summary =>
      have hend : Sender.CivilEnd (.ok summary) := trivial
      exact h.ends hnone hend rest r

/-- So does every step of the two. -/
theorem step_accord (h : Accord digest dry top n) {m : Move} (hreadable : n.readable m = true)
    (hstep : n.step size digest m = some n') : Accord digest dry top n' := by
  cases m with
  | send sees k => exact h.sends hreadable hstep
  | take => exact h.takes hstep
  | tell => exact h.tells hstep
  | receive =>
    simp only [step] at hstep
    split at hstep
    · next hnone hinbox =>
      cases hstep
      exact h.reads hnone hinbox
    · next hnone hinbox =>
      split at hstep
      · next hgone => exact absurd hnone (h.early hgone.2)
      · cases hstep
    · cases hstep

end Accord

/-- Before anything happened, both ends are at the start of one script. -/
theorem start_accord {sources : List Source} {opts : Opts} {disk : Disk} {target : Target}
    {top : DirId} (hs : disk.Sound top) (htop : ∀ id, target.dir = some id → id = top)
    (hwet : opts.dryRun = false → target.dir.isSome)
    (hone : target.name.isSome → sources.length ≤ 1) :
    Accord digest opts.dryRun top (.start sources opts disk target) := by
  have hfits := walk_fits opts sources hone
  refine ⟨rfl, ⟨⟨Sender.walk opts sources, 0, [], none, false⟩, ?_, ?_, fun _ => ?_⟩, fun _ => ?_,
    by simp [start], fun _ => rfl, by simp [start], by simp [start], by simp [start],
    fun _ => trivial, by simp [start, ended]⟩
  · exact ⟨⟨0, rfl, by simp⟩, by simp, by simp, .nil, ⟨_, _, _, hfits⟩⟩
  · exact ⟨rfl, rfl, holds_all rfl rfl, rfl, rfl, by simp [Sender.Fair, start, WINDOW]⟩
  · refine ⟨_, ⟨⟨0, rfl, by simp⟩, by simp, by simp, .nil, ⟨_, _, _, hfits⟩⟩, ?_, .nil _⟩
    exact ⟨.nil, by simp, trivial, rfl, hfits⟩
  · refine ⟨start_rooted hs htop, fun hdry => ⟨?_, by simp [start, Receiver.start],
      by simp [start, Receiver.start]⟩, rfl⟩
    simpa [start, Receiver.start] using hwet hdry

/-- **Two honest ends neither quarrel nor wait on each other**, whatever is copied
where and in whatever order they take turns, if no file fails to be read once the
sending of its bytes began. The target is a name only for one source, as one that was resolved is. -/
theorem agrees {sources : List Source} {opts : Opts} {disk : Disk} {target : Target} {top : DirId}
    {n : Net} (hs : disk.Sound top) (htop : ∀ id, target.dir = some id → id = top)
    (hwet : opts.dryRun = false → target.dir.isSome)
    (hone : target.name.isSome → sources.length ≤ 1)
    (h : Reaches (step size digest) (fun n m => n.readable m = true) (.start sources opts disk target) n) :
    n.Agrees size digest := by
  have haccord : Accord digest opts.dryRun top n := h.invariant (Accord digest opts.dryRun top)
    (start_accord hs htop hwet hone) fun _ _ _ h hreadable hstep => h.step_accord hreadable hstep
  exact haccord.agree

/-- A file's bytes, all of which can be read. -/
def wholeFile : SourceFile := ⟨[1, 2], 2, 0o644, none, none⟩

/-- A file whose second byte cannot be read. -/
def brokenFile : SourceFile := ⟨[1, 2], 2, 0o644, none, some 1⟩

def plainOpts : Opts := ⟨false, false, false, ⟨[], Nat.zero_le maxExcludes⟩⟩

/-- `file` is to be sent into an empty directory. -/
def startOne (file : SourceFile) : Net :=
  .start [.path [0x66] (.file file)] plainOpts bareDisk (.into (some 0))

/-- Its header goes and is answered; then the sender makes `sends` steps, and the
receiver reads what there is, `receives` items. -/
def movesOne (sends receives : ℕ) : List Move :=
  List.replicate 4 (.send true 0) ++ [.take, .receive] ++ List.replicate sends (.send true 9) ++
    [.take] ++ List.replicate receives .receive

/-- In `agrees`, a file is copied. -/
theorem agrees_one : ∃ n, Reaches (step (fun _ => 1) id) (fun n m => n.readable m = true)
      (startOne wholeFile) n ∧ n.succeeded = true ∧ n.Agrees (fun _ => 1) id := by
  have hrun : (runWhile (step (fun _ => 1) id) (fun n m => n.readable m = true)
      (startOne wholeFile) (movesOne 8 4)).map (fun n => n.succeeded) = some true := by decide +kernel
  obtain ⟨n, hn, hok⟩ := Option.map_eq_some_iff.mp hrun
  have hreach := reaches_of_run hn
  exact ⟨n, hreach, hok, agrees bareDisk_sound (by rintro id ⟨⟩; rfl)
    (fun _ => rfl) (by decide) hreach⟩

/-- The receiver's end is that it was told what has no place. -/
def calledMalformed (n : Net) : Bool :=
  match n.outcome with
  | some (.error failure) => failure.kind = .malformed
  | _ => false

/-- A file whose second byte cannot be read: what says so comes among its bytes,
which the receiver calls malformed. -/
theorem quarrels : ∃ n, Lib.Reachable (step (fun _ => 1) id) (startOne brokenFile) n ∧
    ¬ n.Agrees (fun _ => 1) id := by
  have hrun : (runWhile (step (fun _ => 1) id) (fun _ _ => True) (startOne brokenFile)
      (movesOne 6 3)).map calledMalformed = some true := by decide +kernel
  obtain ⟨n, hn, hcalled⟩ := Option.map_eq_some_iff.mp hrun
  refine ⟨n, reaches_of_run hn, fun hagrees => ?_⟩
  unfold calledMalformed at hcalled
  split at hcalled
  · next failure houtcome => exact hagrees.civil failure (.inl houtcome) (by simpa using hcalled)
  · cases hcalled

end Net

end Koh.Sync
