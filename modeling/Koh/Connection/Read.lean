import Koh.Connection.Link
import Koh.Lib.Reach

/-!
# What the client has read

The server counts as read what a client's `Read` messages say. What a client says counts the
bytes before an epoch's first message, which the server's count of what it wrote does not.

## Main definitions

- `Link.Sound`: what holds of an epoch's messages, wherever they are
- `Link.counted`: a `Read` the server takes counts no message that the client has yet to take
- `Link.Read`: what holds of what is counted as read in runs that are counted so

## Main results

- `Link.read_is_taken`: in such runs what is counted as read was taken, and a top is seen
  only after the messages before it
- `Link.header_counted`: a run in which a message is counted as read that was not taken
- `Link.decoded_in_order`: in every run, what the client decoded is how its epoch's messages begin
-/

namespace Koh.Connection

open Koh.Lib Koh.Server Koh.Client

variable {K C : Type} {body : Shown → ℕ}

theorem framed_pos (body : Shown → ℕ) (msg : Shown) : 0 < framed body msg := by
  unfold framed
  omega

/-! ### What is queued -/

/-- An epoch goes on: `more` is queued on it. -/
structure Sends (body : Shown → ℕ) (e e' : Epoch) (more : List Shown) : Prop where
  n : e'.n = e.n
  queue : e'.queue = e.queue ++ more
  written : e'.pace.written = e.pace.written + total (framed body) more
  read : e'.pace.read = e.pace.read
  budget : e'.pace.budget = e.pace.budget

theorem Sends.refl (e : Epoch) : Sends body e e [] :=
  ⟨rfl, (List.append_nil _).symm, rfl, rfl, rfl⟩

/-- A send queues the message, or nothing. -/
theorem send_sends (body : Shown → ℕ) (e : Epoch) (msg : Shown) (now : ℕ) :
    ∃ more, Sends body e (e.send body msg now) more := by
  unfold Epoch.send encodeShown
  split
  · exact ⟨[], .refl e⟩
  · next bytes hbytes =>
    split at hbytes <;> cases hbytes
    exact ⟨[msg], rfl, rfl, by simp [total_cons], rfl, rfl⟩

/-- So do any number of them. -/
theorem foldl_send_sends (body : Shown → ℕ) (shown : List Shown) (e : Epoch) (now : ℕ) :
    ∃ more, Sends body e (shown.foldl (fun e msg => e.send body msg now) e) more := by
  induction shown generalizing e with
  | nil => exact ⟨[], .refl e⟩
  | cons msg shown ih =>
    obtain ⟨more, hmsg⟩ := send_sends body e msg now
    obtain ⟨rest, hrest⟩ := ih (e.send body msg now)
    refine ⟨more ++ rest, hrest.n.trans hmsg.n, ?_, ?_, hrest.read.trans hmsg.read,
      hrest.budget.trans hmsg.budget⟩
    · rw [List.foldl_cons, hrest.queue, hmsg.queue, List.append_assoc]
    · rw [List.foldl_cons, hrest.written, hmsg.written, total_append]
      omega

/-- An epoch begins with what is queued on it, none of it read. -/
theorem open_spec (body : Shown → ℕ) (n : ℕ) (shown : List Shown) (now : ℕ) :
    (Epoch.open_ body n shown now).n = n ∧
      (Epoch.open_ body n shown now).pace.written =
        total (framed body) (Epoch.open_ body n shown now).queue ∧
      (Epoch.open_ body n shown now).pace.read = 0 ∧
      0 < (Epoch.open_ body n shown now).pace.budget := by
  obtain ⟨more, h⟩ := foldl_send_sends body shown
    ⟨n, [], writerQueue + shown.length, false, .new now, now⟩ now
  refine ⟨h.n, ?_, h.read, ?_⟩
  · unfold Epoch.open_
    rw [h.written, h.queue]
    simp [Pace.new]
  · unfold Epoch.open_
    rw [h.budget]
    exact (by decide : 0 < firstBudget)

/-- An event is told: something is queued, or a top is kept. -/
theorem event_spec (body : Shown → ℕ) (s : Serving) (before : List Shown) (now : ℕ) (event : Event) :
    ∃ more, Sends body s.epoch (s.event body before now event).epoch more ∧
      ∀ mark ∈ (s.event body before now event).tops,
        mark ∈ s.tops ∨ mark.before = before ∧ mark.bytes = s.epoch.pace.written := by
  have hsend : ∀ msg : Shown, ∃ more, Sends body s.epoch (s.epoch.send body msg now) more :=
    fun msg => send_sends body s.epoch msg now
  cases event with
  | «show» shown =>
    obtain ⟨more, h⟩ := hsend shown
    refine ⟨more, ?_, fun mark hmark => .inl ?_⟩
    · cases shown <;> exact ⟨h.n, h.queue, h.written, h.read, h.budget⟩
    · cases shown <;> exact hmark
  | echo attach seq =>
    simp only [Serving.event]
    split
    · obtain ⟨more, h⟩ := hsend (.echo seq)
      exact ⟨more, h, fun mark => .inl⟩
    · exact ⟨[], .refl _, fun mark => .inl⟩
  | top row =>
    refine ⟨[], .refl _, fun mark hmark => ?_⟩
    rcases List.mem_append.mp hmark with hold | hnew
    · split at hold
      · exact .inl (List.mem_of_mem_tail hold)
      · exact .inl hold
    · rw [List.mem_singleton] at hnew
      exact .inr (by rw [hnew]; exact ⟨rfl, rfl⟩)

namespace Link

variable {s s' : Link K C}

/-! ### Messages wherever they are -/

/-- What holds of an epoch's messages, wherever they are. -/
structure Sound (body : Shown → ℕ) (s : Link K C) : Prop where
  fresh : ∀ e, s.server.epoch.n < e → s.streams e = []
  written : s.server.epoch.pace.written = total (framed body) s.queued
  epoch : s.client.reader.epoch ≤ s.server.epoch.n
  decoded : s.client.reader.decoded =
    whole (framed body) (s.streams s.client.reader.epoch) s.client.reader.taken
  taken : s.client.reader.taken ≤ total (framed body) (s.streams s.client.reader.epoch)
  header : header ≤ s.client.reader.bytes
  tops : ∀ mark ∈ s.server.tops,
    mark.before <+: s.queued ∧ mark.bytes = total (framed body) mark.before

/-- Nothing of the messages changes. -/
theorem Sound.of_eq (h : s.Sound body) (hn : s'.server.epoch.n = s.server.epoch.n)
    (hqueue : s'.server.epoch.queue = s.server.epoch.queue)
    (hwritten : s'.server.epoch.pace.written = s.server.epoch.pace.written)
    (htops : ∀ mark ∈ s'.server.tops, mark ∈ s.server.tops) (hstreams : s'.streams = s.streams)
    (hepoch : s'.client.reader.epoch = s.client.reader.epoch)
    (hbytes : s'.client.reader.bytes = s.client.reader.bytes)
    (hdecoded : s'.client.reader.decoded = s.client.reader.decoded) : s'.Sound body := by
  have hqueued : s'.queued = s.queued := by unfold queued; rw [hn, hqueue, hstreams]
  have htaken : s'.client.reader.taken = s.client.reader.taken := by unfold Reader.taken; rw [hbytes]
  refine ⟨fun e he => ?_, ?_, ?_, ?_, ?_, ?_, fun mark hmark => ?_⟩
  · rw [hstreams]
    exact h.fresh e (hn ▸ he)
  · rw [hwritten, hqueued]
    exact h.written
  · rw [hepoch, hn]
    exact h.epoch
  · rw [hdecoded, hstreams, hepoch, htaken]
    exact h.decoded
  · rw [htaken, hstreams, hepoch]
    exact h.taken
  · rw [hbytes]
    exact h.header
  · rw [hqueued]
    exact h.tops mark (htops mark hmark)

/-- No more was taken of the epoch than was queued on it. -/
theorem Sound.taken_le_written (h : s.Sound body) :
    s.taken s.server.epoch.n ≤ s.server.epoch.pace.written := by
  unfold Link.taken
  split
  · next heq =>
    rw [h.written]
    exact (heq ▸ h.taken).trans (total_le_of_isPrefix (List.prefix_append _ _))
  · exact Nat.zero_le _

/-! ### What moves leave as it is -/

/-- Nothing of what is shown changes, nor of what was read. -/
structure Quiet (s s' : Link K C) : Prop where
  epoch : s'.server.epoch = s.server.epoch
  tops : s'.server.tops = s.server.tops
  reader : s'.client.reader = s.client.reader
  rx : s'.client.rx = s.client.rx
  shows : s'.client.epoch = s.client.epoch
  control : ∀ e b, .read e b ∈ s'.client.control ↔ .read e b ∈ s.client.control
  streams : s'.streams = s.streams
  coming : s'.coming = s.coming
  log : s'.log = s.log

theorem Quiet.refl (s : Link K C) : Quiet s s :=
  ⟨rfl, rfl, rfl, rfl, rfl, fun _ _ => .rfl, rfl, rfl, rfl⟩

/-- A loop that leaves reads and writes nothing. -/
theorem leave_quiet (s : Link K C) : Quiet s s.leave := by
  unfold leave
  split <;> exact ⟨rfl, rfl, rfl, rfl, rfl, fun _ _ => .rfl, rfl, rfl, rfl⟩

/-- No message but a `Read` says what was read. -/
theorem send_quiet (s : Link K C) {msg : ClientMsg K C} (hmsg : ∀ e b, msg ≠ .read e b) :
    Quiet s { s with client := s.client.send msg } := by
  unfold Wire.send
  split
  · refine ⟨rfl, rfl, rfl, rfl, rfl, fun e b => ?_, rfl, rfl, rfl⟩
    simp only [List.mem_append, List.mem_singleton]
    exact or_iff_left fun heq => hmsg e b heq.symm
  · exact .refl s

end Link

/-- Whether a move touches nothing of what is shown. -/
def LinkMove.quiet : LinkMove K C → Bool
  | .ask | .lagged | .delivered _ | .undelivered | .gone | .other | .tell | .resize _ _
  | .askRedraw | .quit | .lose => true
  | _ => false

namespace Link

variable {s s' : Link K C}

/-- A quiet move changes nothing of the messages or of what was read. -/
theorem step_quiet {m : LinkMove K C} (hstep : s.step body m = some s') (hm : m.quiet = true) :
    Quiet s s' := by
  have hturned : ∀ turn, Quiet s (s.turned turn) :=
    fun turn => ⟨rfl, rfl, rfl, rfl, rfl, fun _ _ => .rfl, rfl, rfl, rfl⟩
  have hclosed : Quiet s (s.close .server).leave := by
    have h := leave_quiet (s.close .server)
    exact ⟨h.epoch, h.tops, h.reader, h.rx, h.shows, h.control, h.streams, h.coming, h.log⟩
  cases steps_of_step hstep with
  | ask | other | delivered => exact hturned _
  | failed | undelivered => exact hclosed
  | gone => exact leave_quiet s
  | resize | askRedraw => exact send_quiet s fun _ _ => by simp
  | lagged | tell | quit | lose =>
    exact ⟨rfl, rfl, rfl, rfl, rfl, fun _ _ => .rfl, rfl, rfl, rfl⟩
  | _ => cases hm

/-- What the server's loop takes of the control stream leaves all but the pace's count and
budget. -/
theorem foldl_takeMsg_spec (now rtt : ℕ) (msgs : List (ClientMsg K C)) (server : Serving) :
    (msgs.foldl (takeMsg now rtt) server).epoch.n = server.epoch.n ∧
      (msgs.foldl (takeMsg now rtt) server).epoch.queue = server.epoch.queue ∧
      (msgs.foldl (takeMsg now rtt) server).epoch.pace.written = server.epoch.pace.written ∧
      (msgs.foldl (takeMsg now rtt) server).tops = server.tops := by
  induction msgs generalizing server with
  | nil => exact ⟨rfl, rfl, rfl, rfl⟩
  | cons msg msgs ih =>
    obtain ⟨hn, hqueue, hwritten, htops⟩ := ih (takeMsg now rtt server msg)
    have hmsg : (takeMsg now rtt server msg).epoch.n = server.epoch.n ∧
        (takeMsg now rtt server msg).epoch.queue = server.epoch.queue ∧
        (takeMsg now rtt server msg).epoch.pace.written = server.epoch.pace.written ∧
        (takeMsg now rtt server msg).tops = server.tops := by
      cases msg with
      | read n bytes =>
        simp only [takeMsg]
        split
        · exact ⟨rfl, rfl, Pace.readTo_written _ _ _ _, rfl⟩
        · exact ⟨rfl, rfl, rfl, rfl⟩
      | _ => exact ⟨rfl, rfl, rfl, rfl⟩
    rw [List.foldl_cons]
    exact ⟨hn.trans hmsg.1, hqueue.trans hmsg.2.1, hwritten.trans hmsg.2.2.1,
      htops.trans hmsg.2.2.2⟩

/-- What an item shows is no part of the reader. -/
theorem heard_reader (w : Wire K C) (item : FromServer) :
    (w.heard item).reader = w.reader ∧ (w.heard item).rx = w.rx := by
  cases item with
  | read epoch bytes =>
    simp only [Wire.heard]
    split
    · unfold Wire.send
      split <;> exact ⟨rfl, rfl⟩
    · exact ⟨rfl, rfl⟩
  | shown epoch msg =>
    simp only [Wire.heard]
    split
    · exact ⟨rfl, rfl⟩
    · split <;> exact ⟨rfl, rfl⟩

/-- More is queued on the epoch, and a top may be kept. -/
theorem Sound.sends (h : s.Sound body) {server : Serving} {more : List Shown}
    (hsends : Sends body s.server.epoch server.epoch more)
    (htops : ∀ mark ∈ server.tops, mark ∈ s.server.tops ∨
      mark.before = s.queued ∧ mark.bytes = s.server.epoch.pace.written) :
    Sound body { s with server := server } := by
  have hqueued : queued { s with server := server } = s.queued ++ more := by
    unfold queued
    simp only [hsends.n, hsends.queue, List.append_assoc]
  refine ⟨fun e he => h.fresh e ?_, ?_, ?_, h.decoded, h.taken, h.header, fun mark hmark => ?_⟩
  · exact hsends.n ▸ he
  · rw [hqueued, total_append, ← h.written]
    exact hsends.written
  · exact h.epoch.trans hsends.n.ge
  · rw [hqueued]
    rcases htops mark hmark with hold | ⟨hbefore, hbytes⟩
    · exact ⟨(h.tops mark hold).1.trans (List.prefix_append _ _), (h.tops mark hold).2⟩
    · rw [hbefore, hbytes]
      exact ⟨List.prefix_append _ _, h.written⟩

/-- The writer puts the message that waits longest on the stream. -/
theorem Sound.write (h : s.Sound body) {msg : Shown} {queue : List Shown}
    (hqueue : s.server.epoch.queue = msg :: queue) :
    Sound body { s with
      server := { s.server with epoch := { s.server.epoch with queue := queue } }
      streams := Function.update s.streams s.server.epoch.n
        (s.streams s.server.epoch.n ++ [msg]) } := by
  have hqueued : queued { s with
      server := { s.server with epoch := { s.server.epoch with queue := queue } }
      streams := Function.update s.streams s.server.epoch.n
        (s.streams s.server.epoch.n ++ [msg]) } = s.queued := by
    simp [queued, hqueue]
  have hstream : ∀ e, s.streams e <+: Function.update s.streams s.server.epoch.n
      (s.streams s.server.epoch.n ++ [msg]) e := by
    intro e
    rw [Function.update_apply]
    split
    · next heq => exact heq ▸ List.prefix_append _ _
    · exact List.prefix_rfl
  refine ⟨fun e he => ?_, ?_, h.epoch, ?_, ?_, h.header, fun mark hmark => ?_⟩
  · have he' : s.server.epoch.n < e := he
    exact (Function.update_of_ne (by omega) _ _).trans (h.fresh e he')
  · rw [hqueued]
    exact h.written
  · -- Nothing was taken past what the stream carried.
    obtain ⟨rest, hrest⟩ := hstream s.client.reader.epoch
    refine h.decoded.trans ?_
    simp only [← hrest]
    exact (whole_append (framed_pos body) h.taken).symm
  · exact h.taken.trans (total_le_of_isPrefix (hstream _))
  · rw [hqueued]
    exact h.tops mark hmark

/-- A quiet step keeps the bytes and the messages in step. -/
theorem Sound.quiet (h : s.Sound body) (hquiet : Quiet s s') : s'.Sound body :=
  h.of_eq (by rw [hquiet.epoch]) (by rw [hquiet.epoch]) (by rw [hquiet.epoch])
    (fun mark hmark => hquiet.tops ▸ hmark) hquiet.streams (by rw [hquiet.reader])
    (by rw [hquiet.reader]) (by rw [hquiet.reader])

/-- Every step keeps the bytes and the messages in step. -/
theorem step_sound {m : LinkMove K C} (h : s.Sound body) (hstep : s.step body m = some s') :
    s'.Sound body := by
  cases steps_of_step hstep with
  | top =>
    exact h.of_eq rfl rfl rfl (fun mark hmark => (List.dropWhile_suffix _).subset hmark) rfl rfl rfl
      rfl
  | @redrawn now shown top =>
    obtain ⟨hn, hwritten, -, -⟩ := open_spec body (s.server.epoch.n + 1) shown now
    have hempty : s.streams (s.server.epoch.n + 1) = [] := h.fresh _ (by omega)
    have hqueued : queued { s with
        server := s.server.begin_ body (s.server.epoch.n + 1) shown top now } =
          (Epoch.open_ body (s.server.epoch.n + 1) shown now).queue := by
      show s.streams (Epoch.open_ body (s.server.epoch.n + 1) shown now).n ++ _ = _
      rw [hn, hempty]
      rfl
    refine ⟨fun e he => ?_, ?_, ?_, h.decoded, h.taken, h.header, fun mark hmark => ?_⟩
    · have he' : (Epoch.open_ body (s.server.epoch.n + 1) shown now).n < e := he
      exact h.fresh e (by omega)
    · rw [hqueued]
      exact hwritten
    · exact h.epoch.trans ((Nat.le_succ _).trans hn.ge)
    · rw [hqueued]
      simp only [Serving.begin_, Option.mem_toList, Option.map_eq_some_iff] at hmark
      obtain ⟨row, -, rfl⟩ := hmark
      exact ⟨List.prefix_rfl, hwritten⟩
  | @event now event =>
    obtain ⟨more, hsends, htops⟩ := event_spec body s.server s.queued now event
    exact h.sends hsends htops
  | @beat now =>
    obtain ⟨more, hsends⟩ := send_sends body s.server.epoch .beat now
    exact h.sends hsends fun mark => .inl
  | @take now rtt count =>
    obtain ⟨hn, hqueue, hwritten, htops⟩ := foldl_takeMsg_spec now rtt (s.coming.take count)
      { s.server with turn := .top }
    exact h.of_eq hn hqueue hwritten (fun mark hmark => htops ▸ hmark) rfl rfl rfl rfl
  | write hqueue => exact h.write hqueue
  | accept _ hopened =>
    refine ⟨h.fresh, h.written, hopened, ?_, Nat.zero_le _, le_refl _, h.tops⟩
    exact (whole_zero (framed_pos body) _).symm
  | @chunk count _ _ _ hthere =>
    have hheader := h.header
    have htaken : s.client.reader.bytes + count - header = s.client.reader.taken + count := by
      unfold Reader.taken
      omega
    refine ⟨h.fresh, h.written, h.epoch, rfl, ?_, h.header.trans (Nat.le_add_right _ _), h.tops⟩
    exact htaken.trans_le hthere
  | hand | control => exact h.of_eq rfl rfl rfl (fun _ => id) rfl rfl rfl rfl
  | @hear item rx | @ended item rx =>
    have hreader : ({ s.client with rx := rx }.heard item).reader = s.client.reader :=
      (heard_reader _ item).1
    exact h.of_eq rfl rfl rfl (fun _ => id) rfl (congrArg _ hreader) (congrArg _ hreader)
      (congrArg _ hreader)
  | _ => exact h.quiet (step_quiet hstep rfl)

/-- They are in step at the start. -/
theorem init_sound (body : Shown → ℕ) (attach : ℕ) (shown : List Shown) (top : Option RowId)
    (now : ℕ) : (init body attach shown top now : Link K C).Sound body := by
  obtain ⟨hn, hwritten, -, -⟩ := open_spec body 1 shown now
  refine ⟨fun e _ => rfl, hwritten, Nat.zero_le _, rfl, le_refl 0, le_refl _, fun mark hmark => ?_⟩
  simp only [init, Serving.serve, Serving.begin_, Option.mem_toList, Option.map_eq_some_iff] at hmark
  obtain ⟨row, -, rfl⟩ := hmark
  exact ⟨List.prefix_rfl, hwritten⟩

/-! ### What is counted as read -/

/-- Whether each `Read` of its epoch that the server takes counts no message that the client
has yet to take: it took so many bytes since it sent it, or all that was queued. -/
def counted (s : Link K C) : LinkMove K C → Bool
  | .take _ _ count => (s.coming.take count).all fun msg => match msg with
    | .read n bytes => n ≠ s.server.epoch.n || bytes ≤ s.taken n ||
      s.server.epoch.pace.written ≤ s.taken n
    | _ => true
  | _ => true

/-- What holds of what is counted as read, and of the tops seen. -/
structure Read (body : Shown → ℕ) (s : Link K C) : Prop where
  sound : s.Sound body
  read : s.server.epoch.pace.read ≤ s.taken s.server.epoch.n
  log : ∀ e ∈ s.log, e.1 <+: e.2

/-- The messages that a client had of the epoch are those in the bytes that it took. -/
theorem Sound.had (h : s.Sound body) {before : List Shown} (hbefore : before <+: s.queued)
    (htotal : total (framed body) before ≤ s.taken s.server.epoch.n) :
    before <+: s.decoded s.server.epoch.n := by
  unfold Link.taken at htotal
  unfold Link.decoded
  split at htotal
  · next heq =>
    rw [if_pos heq, h.decoded, heq]
    have htaken := h.taken
    rw [heq] at htaken
    have hstream : before <+: s.streams s.server.epoch.n :=
      prefix_of_total_le (framed_pos body) hbefore (htotal.trans htaken)
    exact prefix_whole hstream htotal
  · next hne =>
    -- No message is of no bytes.
    have hnil : before <+: [] :=
      prefix_of_total_le (framed_pos body) (show before <+: [] ++ s.queued from hbefore)
        (by simpa using htotal)
    rw [List.prefix_nil.mp hnil]
    exact List.nil_prefix

/-- What the server takes of the control stream counts no more than what was taken. -/
theorem foldl_takeMsg_read {bound now rtt : ℕ} {msgs : List (ClientMsg K C)} {server : Serving}
    (hread : server.epoch.pace.read ≤ bound)
    (hmsgs : ∀ bytes, .read server.epoch.n bytes ∈ msgs →
      bytes ≤ bound ∨ server.epoch.pace.written ≤ bound) :
    (msgs.foldl (takeMsg now rtt) server).epoch.pace.read ≤ bound := by
  induction msgs generalizing server with
  | nil => exact hread
  | cons msg msgs ih =>
    obtain ⟨hn, -, hwritten, -⟩ := foldl_takeMsg_spec now rtt [msg] server
    rw [List.foldl_cons, List.foldl_nil] at hn hwritten
    rw [List.foldl_cons]
    refine ih ?_ fun bytes hmem => ?_
    · cases msg with
      | read n bytes =>
        simp only [takeMsg]
        split
        · next heq =>
          subst heq
          have hcount := hmsgs bytes List.mem_cons_self
          simp only [Pace.readTo_read]
          omega
        · exact hread
      | _ => exact hread
    · rw [hwritten]
      rw [hn] at hmem
      exact hmsgs bytes (List.mem_cons_of_mem _ hmem)

/-- Every `Read` of the epoch that the server takes is counted. -/
theorem foldl_takeMsg_reads (now rtt : ℕ) (msgs : List (ClientMsg K C)) (server : Serving) :
    server.epoch.pace.read ≤ (msgs.foldl (takeMsg now rtt) server).epoch.pace.read ∧
      ∀ bytes, .read server.epoch.n bytes ∈ msgs → min bytes server.epoch.pace.written ≤
        (msgs.foldl (takeMsg now rtt) server).epoch.pace.read := by
  induction msgs generalizing server with
  | nil => exact ⟨le_refl _, fun _ hmem => by cases hmem⟩
  | cons msg msgs ih =>
    obtain ⟨hn, -, hwritten, -⟩ := foldl_takeMsg_spec now rtt [msg] server
    rw [List.foldl_cons, List.foldl_nil] at hn hwritten
    obtain ⟨hmono, hreads⟩ := ih (takeMsg now rtt server msg)
    have hmsg : server.epoch.pace.read ≤ (takeMsg now rtt server msg).epoch.pace.read := by
      cases msg with
      | read n bytes =>
        simp only [takeMsg]
        split
        · simp
        · exact le_refl _
      | _ => exact le_refl _
    rw [List.foldl_cons]
    refine ⟨hmsg.trans hmono, fun bytes hmem => ?_⟩
    rcases List.mem_cons.mp hmem with rfl | hmem
    · refine le_trans ?_ hmono
      simp [takeMsg]
    · rw [hn, hwritten] at hreads
      exact hreads bytes hmem

/-- No `Read` takes an epoch's budget away. -/
theorem foldl_takeMsg_budget {now rtt : ℕ} {msgs : List (ClientMsg K C)} {server : Serving}
    (h : 0 < server.epoch.pace.budget) :
    0 < (msgs.foldl (takeMsg now rtt) server).epoch.pace.budget := by
  induction msgs generalizing server with
  | nil => exact h
  | cons msg msgs ih =>
    refine ih ?_
    cases msg with
    | read n bytes =>
      simp only [takeMsg]
      split
      · exact Pace.readTo_budget_pos h bytes now rtt
      · exact h
    | _ => exact h

/-- A `Read` that is not counted so is counted past what was taken. -/
theorem take_exceeds {now rtt count : ℕ} (hcounted : s.counted (.take now rtt count) = false)
    (hstep : s.step body (.take now rtt count) = some s') :
    s'.taken s'.server.epoch.n < s'.server.epoch.pace.read := by
  obtain ⟨msg, hmem, hmsg⟩ := List.all_eq_false.mp hcounted
  cases msg with
  | read n bytes =>
    simp only [Bool.or_eq_true, decide_eq_true_eq, not_or, not_not] at hmsg
    obtain ⟨⟨rfl, hbytes⟩, hwritten⟩ := hmsg
    simp only [step] at hstep
    split at hstep <;> cases hstep
    obtain ⟨hn, -, -, -⟩ := foldl_takeMsg_spec now rtt (s.coming.take count)
      { s.server with turn := .top }
    have hreads := (foldl_takeMsg_reads now rtt (s.coming.take count)
      { s.server with turn := .top }).2 bytes hmem
    rw [hn]
    exact (lt_min (Nat.not_le.mp hbytes) (Nat.not_le.mp hwritten)).trans_le hreads
  | _ => exact absurd rfl hmsg

/-- Nothing more is counted, and no less was taken. -/
theorem Read.of_le (h : s.Read body) (hsound : s'.Sound body)
    (hn : s'.server.epoch.n = s.server.epoch.n)
    (hread : s'.server.epoch.pace.read = s.server.epoch.pace.read)
    (htaken : s.taken s.server.epoch.n ≤ s'.taken s.server.epoch.n) (hlog : s'.log = s.log) :
    s'.Read body where
  sound := hsound
  read := by
    rw [hn, hread]
    exact h.read.trans htaken
  log := hlog ▸ h.log

/-- A quiet step keeps what each `Read` says true. -/
theorem Read.quiet (h : s.Read body) (hsound : s'.Sound body) (hquiet : Quiet s s') :
    s'.Read body := by
  refine h.of_le hsound (by rw [hquiet.epoch]) (by rw [hquiet.epoch]) (le_of_eq ?_) hquiet.log
  unfold taken
  rw [hquiet.reader]

/-- A step whose `Read` is counted keeps what each says true. -/
theorem step_read {m : LinkMove K C} (h : s.Read body) (hcounted : s.counted m = true)
    (hstep : s.step body m = some s') : s'.Read body := by
  have hsound := step_sound h.sound hstep
  cases steps_of_step hstep with
  | top =>
    refine ⟨hsound, h.read, fun e he => ?_⟩
    rcases List.mem_append.mp he with hold | hnew
    · exact h.log e hold
    · obtain ⟨mark, hmark, rfl⟩ := List.mem_map.mp hnew
      have hpassed : mark.bytes ≤ s.server.epoch.pace.read := by
        simpa using List.mem_takeWhile_imp hmark
      obtain ⟨hbefore, hbytes⟩ := h.sound.tops mark ((List.takeWhile_prefix _).subset hmark)
      exact h.sound.had hbefore (hbytes ▸ hpassed.trans h.read)
  | @redrawn now shown top =>
    obtain ⟨-, -, hread, -⟩ := open_spec body (s.server.epoch.n + 1) shown now
    exact ⟨hsound, hread.trans_le (Nat.zero_le _), h.log⟩
  | @event now event =>
    obtain ⟨more, hsends, -⟩ := event_spec body s.server s.queued now event
    exact h.of_le hsound hsends.n hsends.read (le_refl _) rfl
  | @beat now =>
    obtain ⟨more, hsends⟩ := send_sends body s.server.epoch .beat now
    exact h.of_le hsound hsends.n hsends.read (le_refl _) rfl
  | @take now rtt count =>
    obtain ⟨hn, -, -, -⟩ := foldl_takeMsg_spec now rtt (s.coming.take count)
      { s.server with turn := .top }
    refine ⟨hsound, ?_, h.log⟩
    rw [hn]
    refine foldl_takeMsg_read h.read fun bytes hmem => ?_
    have hcount := List.all_eq_true.mp hcounted _ hmem
    have hor : bytes ≤ s.taken s.server.epoch.n ∨
        s.server.epoch.pace.written ≤ s.taken s.server.epoch.n := by simpa using hcount
    exact hor
  | write | hand | control => exact h.of_le hsound rfl rfl (le_refl _) rfl
  | accept hnewer =>
    refine h.of_le hsound rfl rfl ?_ rfl
    -- Of a newer epoch than the reader's, nothing was taken.
    unfold taken
    split
    · omega
    · exact Nat.zero_le _
  | chunk =>
    refine h.of_le hsound rfl rfl ?_ rfl
    unfold taken Reader.taken Reader.chunk
    dsimp only
    split <;> omega
  | @hear item rx | @ended item rx =>
    have hreader : ({ s.client with rx := rx }.heard item).reader = s.client.reader :=
      (heard_reader _ item).1
    refine h.of_le hsound rfl rfl (le_of_eq ?_) rfl
    simp only [taken, close, hreader]
  | _ => exact h.quiet hsound (step_quiet hstep rfl)

/-- No `Read` was sent yet. -/
theorem init_read (body : Shown → ℕ) (attach : ℕ) (shown : List Shown) (top : Option RowId)
    (now : ℕ) : (init body attach shown top now : Link K C).Read body :=
  ⟨init_sound body attach shown top now,
    (open_spec body 1 shown now).2.2.1.trans_le (Nat.zero_le _), fun _ he => by cases he⟩

/-- **What is counted as read was taken**: in every run in which no `Read` that the server
takes counts a message that the client has yet to take, the server counts as read of an
epoch no more than the bytes of its messages that the client took off the stream, and takes
a top as seen only if the client had every message queued before it. -/
theorem read_is_taken {body : Shown → ℕ} {attach : ℕ} {shown : List Shown} {top : Option RowId}
    {now : ℕ} {s : Link K C} (h : Reaches (step body) (counted · ·) (init body attach shown top now) s) :
    s.server.epoch.pace.read ≤ s.taken s.server.epoch.n ∧ ∀ e ∈ s.log, e.1 <+: e.2 := by
  have hread : s.Read body := h.invariant (Read body) (init_read body attach shown top now)
    fun _ _ _ hs hcounted hstep => step_read hs hcounted hstep
  exact ⟨hread.read, hread.log⟩

/-- A connection whose client begins with a title and a bell. -/
def titled : Link Unit Unit := init postcard 1 [.title "", .bell 0] (some 7) 0

/-- The client reads all of it, and says so. -/
def readsAll : List (LinkMove Unit Unit) :=
  [.top, .write, .write, .accept 1, .chunk 12, .hand, .hand, .hand, .hear, .hear, .hear, .control]

/-- In `read_is_taken`, the server takes what the client says when nothing more was queued. -/
theorem read_is_taken_once :
    ∃ s, Reaches (step postcard) (counted · ·) titled s ∧
      (s.server.epoch.pace.read, s.server.seen) = (12, some 7) ∧
      s.server.epoch.pace.read ≤ s.taken s.server.epoch.n ∧ ∀ e ∈ s.log, e.1 <+: e.2 := by
  obtain ⟨s, hs, hsees⟩ := Option.map_eq_some_iff.mp
    (show (runWhile (step postcard) (counted · ·) titled (readsAll ++ [.take 0 0 1, .top])).map
      (fun s => (s.server.epoch.pace.read, s.server.seen)) = some (12, some 7) by decide +kernel)
  have hreach := reaches_of_run hs
  exact ⟨s, hreach, hsees, read_is_taken hreach⟩

/-- **The bytes before the first message are counted**: the client has read all 12 bytes of
messages when it says that it read 17; a beat of 5 bytes is queued, and counts as read before
the client has it. -/
theorem header_counted :
    ∃ s, Reachable (step postcard) titled s ∧
      ¬ (s.server.epoch.pace.read ≤ s.taken s.server.epoch.n ∧ ∀ e ∈ s.log, e.1 <+: e.2) := by
  obtain ⟨s, hs, hsees⟩ := Option.map_eq_some_iff.mp
    (show (runWhile (step postcard) (fun _ _ => True) titled
      (readsAll ++ [.beat heartbeat, .top, .take 0 0 1])).map
      (fun s => (s.server.epoch.pace.read, s.taken s.server.epoch.n)) = some (17, 12) by
        decide +kernel)
  refine ⟨s, reaches_of_run hs, fun hall => ?_⟩
  obtain ⟨hread, htaken⟩ := Prod.mk.inj hsees
  have hle := hall.1
  rw [hread, htaken] at hle
  exact absurd hle (by decide)

/-- In every run, what the client decoded is how the messages of its epoch begin, it took no byte
that is not on the epoch's stream, and what the server counts as written is all that it queued. -/
theorem decoded_in_order {body : Shown → ℕ} {attach : ℕ} {shown : List Shown} {top : Option RowId}
    {now : ℕ} {s : Link K C} (h : Reachable (step body) (init body attach shown top now) s) :
    s.client.reader.decoded <+: s.streams s.client.reader.epoch ∧
      s.client.reader.taken ≤ total (framed body) (s.streams s.client.reader.epoch) ∧
      s.server.epoch.pace.written = total (framed body) s.queued := by
  have hsound : s.Sound body := h.invariant (Sound body) (init_sound body attach shown top now)
    fun _ _ _ hs _ hstep => step_sound hs hstep
  refine ⟨?_, hsound.taken, hsound.written⟩
  rw [hsound.decoded]
  exact whole_isPrefix _ _ _

/-- In `decoded_in_order`, the client has the first message. -/
theorem decoded_in_order_title :
    ∃ s, Reachable (step postcard) titled s ∧ s.client.reader.decoded = [.title ""] ∧
      s.client.reader.decoded <+: s.streams s.client.reader.epoch := by
  obtain ⟨s, hs, hdecoded⟩ := Option.map_eq_some_iff.mp
    (show (runWhile (step postcard) (fun _ _ => True) titled
      [.write, .write, .accept 1, .chunk 8]).map (fun s => s.client.reader.decoded) =
        some [.title ""] by decide +kernel)
  have hreach := reaches_of_run hs
  exact ⟨s, hreach, hdecoded, (decoded_in_order hreach).1⟩

end Link

end Koh.Connection
