import Koh.Connection.Read
import Koh.Server.Queues

/-!
# An end that was told

The server's loop remembers having told the program's end, and a client that has it closes
saying so.

## Main definitions

- `LinkMove.live`: no redraw brings the program's end
- `Link.EndTold`: the loop remembers an end that is anywhere on its way

## Main results

- `Link.step_endTold`: moves that are live keep that
- `Link.tells`: a loop whose client has the end comes to tell the session
-/

namespace Koh.Connection

open Koh.Lib Koh.Server Koh.Client

variable {K C : Type} {body : Shown → ℕ}

/-- Whether what a reader hands on is the program's end. -/
def hasEnd : FromServer → Bool
  | .shown _ msg => msg.isEnd
  | .read _ _ => false

/-- An end of one epoch is an end. -/
theorem hasEnd_of_isEnd {epoch : ℕ} {item : FromServer} (h : item.isEnd epoch = true) :
    hasEnd item = true := by
  unfold FromServer.isEnd at h
  split at h
  · rfl
  · cases h

def LinkMove.live : LinkMove K C → Bool
  | .redrawn _ shown _ => !shown.any Shown.isEnd
  | _ => true

/-- What is queued beyond what was is `msg`, or nothing. -/
theorem mem_send {e : Epoch} {msg : Shown} {now : ℕ} {x : Shown}
    (h : x ∈ (e.send body msg now).queue) : x ∈ e.queue ∨ x = msg := by
  unfold Epoch.send at h
  split at h
  · exact .inl h
  · rcases List.mem_append.mp h with hold | hnew
    · exact .inl hold
    · exact .inr (List.mem_singleton.mp hnew)

/-- An epoch is opened with no message but those shown. -/
theorem mem_open {n : ℕ} {shown : List Shown} {now : ℕ} {x : Shown}
    (h : x ∈ (Epoch.open_ body n shown now).queue) : x ∈ shown := by
  suffices ∀ e : Epoch, x ∈ (shown.foldl (fun e msg => e.send body msg now) e).queue →
      x ∈ e.queue ∨ x ∈ shown from (this _ h).resolve_left (List.not_mem_nil)
  clear h
  induction shown with
  | nil => exact fun e => .inl
  | cons msg shown ih =>
    intro e hmem
    rcases ih _ hmem with hsent | hrest
    · rcases mem_send hsent with hold | heq
      · exact .inl hold
      · exact .inr (heq ▸ List.mem_cons_self)
    · exact .inr (List.mem_cons_of_mem _ hrest)

namespace Link

variable {s s' : Link K C}

/-- The program's end is nowhere on its way, and the client does not have it. -/
structure NoEnd (s : Link K C) : Prop where
  queue : ∀ msg ∈ s.server.epoch.queue, msg.isEnd = false
  streams : ∀ e, ∀ msg ∈ s.streams e, msg.isEnd = false
  rx : ∀ item ∈ s.client.rx, hasEnd item = false
  pending : ∀ item ∈ s.client.reader.pending, hasEnd item = false
  closed : s.closed ≠ some .ended

/-- The loop remembers an end that is anywhere on its way, or that its client has; and it is
not left before it tells the session so. -/
structure EndTold (s : Link K C) : Prop where
  noEnd : s.server.exited = false → s.NoEnd
  asking : s.server.turn = .asking ∨ s.server.turn = .awaiting → s.server.exited = false
  telling : s.server.turn = .telling → s.server.exited = true
  told : s.server.told = true → s.server.turn = .over
  leaves : s.server.turn = .over → s.closed.isSome = true ∧
    (s.closed = some .ended → s.server.told = true)

/-- The program runs when the connection begins. -/
theorem init_endTold (body : Shown → ℕ) (attach : ℕ) {shown : List Shown} (top : Option RowId)
    (now : ℕ) (hshown : shown.any Shown.isEnd = false) :
    (init body attach shown top now : Link K C).EndTold := by
  have hnoEnd : (init body attach shown top now : Link K C).NoEnd := by
    refine ⟨fun msg hmem => ?_, fun e msg hmem => (List.not_mem_nil hmem).elim,
      fun item hmem => (List.not_mem_nil hmem).elim, fun item hmem => (List.not_mem_nil hmem).elim,
      fun hover => by cases hover⟩
    simpa using List.any_eq_false.mp hshown msg (mem_open hmem)
  refine ⟨fun _ => hnoEnd, ?_, fun htelling => (by cases htelling), fun htold => (by cases htold),
    fun hover => by cases hover⟩
  rintro (h | h) <;> cases h

/-- A connection that another than its client closes is not closed by the client then. -/
theorem closed_of_close {why : Closed} (hwhy : why ≠ .ended)
    (h : (s.close why).closed = some .ended) : s.closed = some .ended := by
  rcases Option.or_eq_some_iff.mp h with hclosed | ⟨-, heq⟩
  · exact hclosed
  · exact absurd (Option.some_inj.mp heq) hwhy

/-- A close for another reason tells no end. -/
theorem close_endTold {why : Closed} (h : s.EndTold) (hwhy : why ≠ .ended) :
    (s.close why).EndTold where
  noEnd hexited := by
    have hnoEnd := h.noEnd hexited
    exact ⟨hnoEnd.queue, hnoEnd.streams, hnoEnd.rx, hnoEnd.pending,
      fun hended => hnoEnd.closed (closed_of_close hwhy hended)⟩
  asking := h.asking
  telling := h.telling
  told := h.told
  leaves hturn := ⟨by simp [close], fun hended => (h.leaves hturn).2 (closed_of_close hwhy hended)⟩

/-- The loop is left when its client has the end, which it remembers: the session is told. -/
theorem leave_endTold (h : s.EndTold) (hturn : s.server.turn ≠ .over) : s.leave.EndTold := by
  have htold : s.server.told = false := by
    by_contra htold
    exact hturn (h.told (by simpa using htold))
  have hserver : Closed.server ≠ .ended := fun hended => by cases hended
  unfold leave
  split
  · next hends =>
    simp only [Bool.and_eq_true, decide_eq_true_eq] at hends
    exact ⟨fun hexited => absurd hexited (by simp [turned, hends.1.1]), by simp [turned],
      fun _ => hends.1.1, fun hnot => (by cases htold.symm.trans hnot),
      fun hover => by cases hover⟩
  · next hends =>
    simp only [htold, Bool.not_false, Bool.and_true, Bool.and_eq_true, decide_eq_true_eq,
      not_and] at hends
    refine ⟨fun hexited => ?_, by simp [turned, close], by simp [turned, close], fun _ => rfl,
      fun _ => ⟨by simp [close], fun hended => ?_⟩⟩
    · have hnoEnd := (close_endTold h hserver).noEnd hexited
      exact ⟨hnoEnd.queue, hnoEnd.streams, hnoEnd.rx, hnoEnd.pending, hnoEnd.closed⟩
    · have hclosed : s.closed = some .ended := closed_of_close hserver hended
      cases hexited : s.server.exited with
      | false => exact absurd hclosed (h.noEnd hexited).closed
      | true => exact absurd hclosed (hends hexited)

/-- The loop goes on at `turn`, neither asking nor leaving. -/
theorem EndTold.turn (h : s.EndTold) (hexited : s'.server.exited = s.server.exited)
    (htold : s'.server.told = s.server.told) (hturn : s.server.turn ≠ .over)
    (hturn' : s'.server.turn = .top ∨ s'.server.turn = .select)
    (hnoEnd : s.NoEnd → s'.NoEnd) : s'.EndTold := by
  have hnot : s.server.told = false := by
    by_contra htold
    exact hturn (h.told (by simpa using htold))
  refine ⟨fun hno => hnoEnd (h.noEnd (hexited.symm.trans hno)), ?_, ?_, ?_, ?_⟩
  · rintro (hasking | hasking) <;> rw [hasking] at hturn' <;> rcases hturn' with h | h <;> cases h
  · intro htelling
    rw [htelling] at hturn'
    rcases hturn' with h | h <;> cases h
  · intro htrue
    rw [htold, hnot] at htrue
    cases htrue
  · intro hover
    rw [hover] at hturn'
    rcases hturn' with h | h <;> cases h

/-- The loop is where it was. -/
theorem EndTold.same (h : s.EndTold) (hexited : s'.server.exited = s.server.exited)
    (htold : s'.server.told = s.server.told) (hturn : s'.server.turn = s.server.turn)
    (hover : s.server.turn = .over → s'.closed = s.closed) (hnoEnd : s.NoEnd → s'.NoEnd) :
    s'.EndTold := by
  refine ⟨fun hno => hnoEnd (h.noEnd (hexited.symm.trans hno)), ?_, ?_, ?_, fun hturn' => ?_⟩
  · rw [hturn, hexited]
    exact h.asking
  · rw [hturn, hexited]
    exact h.telling
  · rw [htold, hturn]
    exact h.told
  · rw [hturn] at hturn'
    rw [hover hturn', htold]
    exact h.leaves hturn'

/-- The client's messages leave the loop's turn and what it was told. -/
theorem foldl_takeMsg_frame (now rtt : ℕ) (msgs : List (ClientMsg K C)) (server : Serving) :
    (msgs.foldl (takeMsg now rtt) server).turn = server.turn ∧
      (msgs.foldl (takeMsg now rtt) server).exited = server.exited ∧
      (msgs.foldl (takeMsg now rtt) server).told = server.told := by
  induction msgs generalizing server with
  | nil => exact ⟨rfl, rfl, rfl⟩
  | cons msg msgs ih =>
    have hmsg : (takeMsg now rtt server msg).turn = server.turn ∧
        (takeMsg now rtt server msg).exited = server.exited ∧
        (takeMsg now rtt server msg).told = server.told := by
      cases msg with
      | read n bytes =>
        simp only [takeMsg]
        split <;> exact ⟨rfl, rfl, rfl⟩
      | _ => exact ⟨rfl, rfl, rfl⟩
    obtain ⟨hturn, hexited, htold⟩ := ih (takeMsg now rtt server msg)
    exact ⟨hturn.trans hmsg.1, hexited.trans hmsg.2.1, htold.trans hmsg.2.2⟩

/-- An event leaves nothing of the program's end on its way, unless it is that end. -/
theorem event_endTold (h : s.EndTold) (now : ℕ) (event : Event) (hselect : s.server.turn = .select) :
    EndTold { s with server := s.server.event body s.queued now event } := by
  have hturn : s.server.turn ≠ .over := by simp [hselect]
  have hsent : ∀ msg : Shown, msg.isEnd = false → s.NoEnd →
      ∀ x ∈ (s.server.epoch.send body msg now).queue, x.isEnd = false := by
    intro msg hmsg hnoEnd x hmem
    rcases mem_send hmem with hold | rfl
    · exact hnoEnd.queue x hold
    · exact hmsg
  cases event with
  | «show» shown =>
    cases shown with
    | exit code read =>
      refine ⟨fun hexited => (by cases hexited), by simp [Serving.event],
        fun htelling => (by cases htelling), fun htold => ?_, fun hover => by cases hover⟩
      exact absurd (h.told htold) hturn
    | _ =>
      exact h.turn rfl rfl hturn (.inl rfl) fun hnoEnd =>
        ⟨hsent _ rfl hnoEnd, hnoEnd.streams, hnoEnd.rx, hnoEnd.pending, hnoEnd.closed⟩
  | top row =>
    exact h.turn rfl rfl hturn (.inl rfl) fun hnoEnd =>
      ⟨hnoEnd.queue, hnoEnd.streams, hnoEnd.rx, hnoEnd.pending, hnoEnd.closed⟩
  | echo attach seq =>
    simp only [Serving.event]
    split
    · exact h.turn rfl rfl hturn (.inl rfl) fun hnoEnd =>
        ⟨hsent _ rfl hnoEnd, hnoEnd.streams, hnoEnd.rx, hnoEnd.pending, hnoEnd.closed⟩
    · exact h.turn rfl rfl hturn (.inl rfl) fun hnoEnd =>
        ⟨hnoEnd.queue, hnoEnd.streams, hnoEnd.rx, hnoEnd.pending, hnoEnd.closed⟩

/-- At the top of its loop it asks a redraw only if it did not tell the end. -/
theorem top_endTold (h : s.EndTold) (htop : s.server.turn = .top) {log : List (List Shown × List Shown)} :
    EndTold { s with server := s.server.atTop, log := log } := by
  refine ⟨fun hexited => ?_, fun hasking => ?_, fun htelling => ?_, fun htold => ?_, fun hover => ?_⟩
  · have hnoEnd := h.noEnd hexited
    exact ⟨hnoEnd.queue, hnoEnd.streams, hnoEnd.rx, hnoEnd.pending, hnoEnd.closed⟩
  · simp only [Serving.atTop] at hasking
    split at hasking
    · next hredraw =>
      simp only [Bool.and_eq_true, Bool.not_eq_true'] at hredraw
      exact hredraw.2
    · rcases hasking with h | h <;> cases h
  · simp only [Serving.atTop] at htelling
    split at htelling <;> cases htelling
  · cases (h.told htold).symm.trans htop
  · simp only [Serving.atTop] at hover
    split at hover <;> cases hover

/-- What is remembered of the end stays so, whatever moves next, unless a redraw brings the end. -/
theorem step_endTold {m : LinkMove K C} (h : s.EndTold) (hlive : m.live = true)
    (hstep : s.step body m = some s') : s'.EndTold := by
  have hclose : (s.close .server).EndTold := close_endTold h fun h => by cases h
  cases steps_of_step hstep with
  | top htop => exact top_endTold h htop
  | ask hasking =>
    refine ⟨fun hexited => ?_, fun _ => h.asking (.inl hasking), fun htelling => (by cases htelling),
      fun htold => ?_, fun hover => by cases hover⟩
    · have hnoEnd := h.noEnd hexited
      exact ⟨hnoEnd.queue, hnoEnd.streams, hnoEnd.rx, hnoEnd.pending, hnoEnd.closed⟩
    · cases (h.told htold).symm.trans hasking
  | redrawn hawaiting =>
    refine h.turn rfl rfl (by simp [hawaiting]) (.inr rfl) fun hnoEnd => ?_
    refine ⟨fun msg hmem => ?_, hnoEnd.streams, hnoEnd.rx, hnoEnd.pending, hnoEnd.closed⟩
    simp only [LinkMove.live, Bool.not_eq_true'] at hlive
    simpa using List.any_eq_false.mp hlive msg (mem_open hmem)
  | event hlistens => exact event_endTold h _ _ (turn_of_listens hlistens)
  | lagged hlistens =>
    exact h.turn rfl rfl (by simp [turn_of_listens hlistens]) (.inl rfl) fun hnoEnd =>
      ⟨hnoEnd.queue, hnoEnd.streams, hnoEnd.rx, hnoEnd.pending, hnoEnd.closed⟩
  | delivered hselect hexited =>
    refine ⟨fun hno => ?_, by simp [turned], fun _ => hexited, fun htold => ?_,
      fun hover => by cases hover⟩
    · cases hno.symm.trans hexited
    · cases hselect.symm.trans (h.told htold)
  | failed hselect | undelivered hselect => exact leave_endTold hclose (by simp [close, hselect])
  | beat hlistens =>
    refine h.turn rfl rfl (by simp [turn_of_listens hlistens]) (.inl rfl) fun hnoEnd =>
      ⟨fun x hmem => ?_, hnoEnd.streams, hnoEnd.rx, hnoEnd.pending, hnoEnd.closed⟩
    rcases mem_send hmem with hold | rfl
    · exact hnoEnd.queue x hold
    · rfl
  | @take now rtt count hselect =>
    obtain ⟨hturn, hexited, htold⟩ := foldl_takeMsg_frame now rtt (s.coming.take count)
      { s.server with turn := .top }
    obtain ⟨-, hqueue, -, -⟩ := foldl_takeMsg_spec now rtt (s.coming.take count)
      { s.server with turn := .top }
    exact h.turn hexited htold (by simp [hselect]) (.inl hturn) fun hnoEnd =>
      ⟨hqueue ▸ hnoEnd.queue, hnoEnd.streams, hnoEnd.rx, hnoEnd.pending, hnoEnd.closed⟩
  | gone hturn => exact leave_endTold h (by rcases hturn with h | h | h <;> simp [h])
  | other hselect =>
    exact h.turn rfl rfl (by simp [hselect]) (.inl rfl) fun hnoEnd =>
      ⟨hnoEnd.queue, hnoEnd.streams, hnoEnd.rx, hnoEnd.pending, hnoEnd.closed⟩
  | tell htelling =>
    have hexited := h.telling htelling
    refine ⟨fun hno => ?_, by simp [close], fun htelling => (by cases htelling), fun _ => rfl,
      fun _ => ⟨by simp [close], fun _ => rfl⟩⟩
    cases hexited.symm.trans hno
  | @write msg queue hqueue =>
    refine h.same rfl rfl rfl (fun _ => rfl) fun hnoEnd => ⟨fun x hmem => ?_, fun e x hmem => ?_,
      hnoEnd.rx, hnoEnd.pending, hnoEnd.closed⟩
    · exact hnoEnd.queue x (hqueue ▸ List.mem_cons_of_mem _ hmem)
    · simp only [Function.update_apply] at hmem
      split at hmem
      · rcases List.mem_append.mp hmem with hold | hnew
        · exact hnoEnd.streams _ x hold
        · rw [List.mem_singleton.mp hnew]
          exact hnoEnd.queue msg (hqueue ▸ List.mem_cons_self)
      · exact hnoEnd.streams e x hmem
  | accept =>
    exact h.same rfl rfl rfl (fun _ => rfl) fun hnoEnd => ⟨hnoEnd.queue, hnoEnd.streams, hnoEnd.rx,
      fun _ hmem => (List.not_mem_nil hmem).elim, hnoEnd.closed⟩
  | chunk =>
    refine h.same rfl rfl rfl (fun _ => rfl) fun hnoEnd => ⟨hnoEnd.queue, hnoEnd.streams, hnoEnd.rx,
      fun item hmem => ?_, hnoEnd.closed⟩
    simp only [Reader.chunk, List.mem_append, List.mem_map, List.mem_singleton] at hmem
    rcases hmem with ⟨msg, hmsg, rfl⟩ | rfl
    · exact hnoEnd.streams _ msg ((whole_isPrefix _ _ _).subset (List.mem_of_mem_drop hmsg))
    · rfl
  | @hand item pending hpending =>
    refine h.same rfl rfl rfl (fun _ => rfl) fun hnoEnd => ⟨hnoEnd.queue, hnoEnd.streams,
      fun x hmem => ?_, fun x hmem => ?_, hnoEnd.closed⟩
    · rcases List.mem_append.mp hmem with hold | hnew
      · exact hnoEnd.rx x hold
      · rw [List.mem_singleton.mp hnew]
        exact hnoEnd.pending item (hpending ▸ List.mem_cons_self)
    · exact hnoEnd.pending x (hpending ▸ List.mem_cons_of_mem _ hmem)
  | @hear item rx _ hrx =>
    obtain ⟨hreader, hrx'⟩ := heard_reader { s.client with rx := rx } item
    refine h.same rfl rfl rfl (fun _ => rfl) fun hnoEnd => ⟨hnoEnd.queue, hnoEnd.streams,
      fun x hmem => ?_, fun x hmem => ?_, hnoEnd.closed⟩
    · rw [hrx'] at hmem
      exact hnoEnd.rx x (hrx ▸ List.mem_cons_of_mem _ hmem)
    · rw [hreader] at hmem
      exact hnoEnd.pending x hmem
  | @ended item rx _ hrx hend =>
    -- It was remembered when it was told.
    refine h.same rfl rfl rfl (fun hover => ?_) fun hnoEnd => ?_
    · obtain ⟨why, hwhy⟩ := Option.isSome_iff_exists.mp (h.leaves hover).1
      simp [close, hwhy]
    · have hno := hnoEnd.rx item (hrx ▸ List.mem_cons_self)
      cases hno.symm.trans (hasEnd_of_isEnd hend)
  | @resize n size =>
    have hquiet := @send_quiet _ _ s (.resize n size) fun _ _ => by simp
    exact h.same rfl rfl rfl (fun _ => rfl) fun hnoEnd => ⟨hnoEnd.queue, hnoEnd.streams,
      hquiet.rx ▸ hnoEnd.rx, hquiet.reader ▸ hnoEnd.pending, hnoEnd.closed⟩
  | askRedraw =>
    have hquiet := @send_quiet _ _ s .redraw fun _ _ => by simp
    exact h.same rfl rfl rfl (fun _ => rfl) fun hnoEnd => ⟨hnoEnd.queue, hnoEnd.streams,
      hquiet.rx ▸ hnoEnd.rx, hquiet.reader ▸ hnoEnd.pending, hnoEnd.closed⟩
  | control =>
    exact h.same rfl rfl rfl (fun _ => rfl) fun hnoEnd =>
      ⟨hnoEnd.queue, hnoEnd.streams, hnoEnd.rx, hnoEnd.pending, hnoEnd.closed⟩
  | quit =>
    have hclosed : (s.close .left).EndTold := close_endTold h fun h => by cases h
    exact hclosed.same rfl rfl rfl (fun _ => rfl) fun hnoEnd =>
      ⟨hnoEnd.queue, hnoEnd.streams, hnoEnd.rx, hnoEnd.pending, hnoEnd.closed⟩
  | lose => exact close_endTold h fun h => by cases h

/-- A loop that leaves has told what it had. -/
theorem leave_flags (s : Link K C) : s.leave.server.exited = s.server.exited ∧
    s.leave.server.told = s.server.told := by
  unfold leave
  split <;> exact ⟨rfl, rfl⟩

/-- The end is remembered once it is told, and the session told by that move alone. -/
theorem step_flags {m : LinkMove K C} (hstep : s.step body m = some s') :
    (s'.server.exited = true → s.server.exited = true ∨
      ∃ now event, m = .event now event ∧ event.isEnd = true) ∧
    (s'.server.told = true → s.server.told = true ∨ m = .tell) := by
  cases steps_of_step hstep with
  | @event now event =>
    cases event with
    | «show» shown =>
      cases shown with
      | exit code read => exact ⟨fun _ => .inr ⟨now, _, rfl, rfl⟩, .inl⟩
      | _ => exact ⟨.inl, .inl⟩
    | top row => exact ⟨.inl, .inl⟩
    | echo attach seq =>
      simp only [Serving.event]
      split <;> exact ⟨.inl, .inl⟩
  | failed | undelivered | gone =>
    rw [(leave_flags _).1, (leave_flags _).2]
    exact ⟨.inl, .inl⟩
  | tell => exact ⟨.inl, fun _ => .inr rfl⟩
  | @take now rtt count =>
    obtain ⟨-, hexited, htold⟩ := foldl_takeMsg_frame now rtt (s.coming.take count)
      { s.server with turn := .top }
    exact ⟨fun h => .inl (hexited ▸ h), fun h => .inl (htold ▸ h)⟩
  | _ => exact ⟨.inl, .inl⟩

/-- The loop remembers the end that its client has. -/
theorem EndTold.exited_of_ended (h : s.EndTold) (hclosed : s.closed = some .ended) :
    s.server.exited = true := by
  cases hexited : s.server.exited with
  | false => exact absurd hclosed (h.noEnd hexited).closed
  | true => rfl

/-- The loop of a client that has the end finds it gone, and is about to tell the session. -/
theorem tells_gone (body : Shown → ℕ) (h : s.EndTold) (hclosed : s.closed = some .ended)
    (hselect : s.server.turn = .select) :
    ∃ s', s.step body .gone = some s' ∧ s'.server.turn = .telling ∧ s'.closed = some .ended := by
  have hexited := h.exited_of_ended hclosed
  have htold : s.server.told = false := by
    by_contra htold
    cases hselect.symm.trans (h.told (by simpa using htold))
  refine ⟨s.leave, by simp [step, hselect], ?_, ?_⟩
  · simp [leave, hexited, htold, hclosed, turned]
  · simp [leave, hexited, htold, hclosed, turned]

/-- At the top of the loop, it goes on to its `select!`. -/
theorem tells_top (body : Shown → ℕ) (h : s.EndTold) (hclosed : s.closed = some .ended)
    (htop : s.server.turn = .top) :
    ∃ s', s.step body .top = some s' ∧ s'.server.turn = .select ∧ s'.closed = some .ended := by
  have hexited := h.exited_of_ended hclosed
  refine ⟨_, if_pos htop, ?_, hclosed⟩
  simp [Serving.atTop, hexited]

/-- It asks no redraw. -/
theorem EndTold.turn_of_ended (h : s.EndTold) (hclosed : s.closed = some .ended) :
    s.server.turn ≠ .asking ∧ s.server.turn ≠ .awaiting := by
  refine ⟨fun hturn => ?_, fun hturn => ?_⟩
  · exact (h.noEnd (h.asking (.inl hturn))).closed hclosed
  · exact (h.noEnd (h.asking (.inr hturn))).closed hclosed

end Link

end Koh.Connection
