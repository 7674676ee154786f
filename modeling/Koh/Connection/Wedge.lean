import Koh.Connection.Read

/-!
# The pace does not wedge

A client says what it read after every chunk, and the server makes room for as much. What a
client says is lost if its control queue is full.

## Main definitions

- `Link.Wedged`: the client read all that was queued, says nothing more, and there is no room
- `Link.unlost`: no `Read` is lost that counts all that was queued
- `Link.Informed`: what holds of the `Read`s on their way in runs in which none is lost so

## Main results

- `Link.never_wedged`: in such runs no state is wedged
- `Link.wedges`: a run that wedges
-/

namespace Koh.Connection

open Koh.Stream Koh.Lib Koh.Server Koh.Client

variable {K C : Type} {body : Shown → ℕ}

/-! ### Reads behind messages -/

def epochOf : FromServer → ℕ
  | .shown epoch _ => epoch
  | .read epoch _ => epoch

/-- Each `Read` of epoch `n` that counts what is in `begun` is behind a message of the epoch,
unless the client shows that epoch already. -/
def Led (begun : ℕ → Prop) (n : ℕ) : Prop → List FromServer → Prop
  | _, [] => True
  | shows, .shown epoch _ :: items => Led begun n (shows ∨ epoch = n) items
  | shows, .read epoch bytes :: items =>
    (epoch = n → begun bytes → shows) ∧ Led begun n shows items

/-- More may be shown, and less begun. -/
theorem Led.mono {begun begun' : ℕ → Prop} {n : ℕ} {shows shows' : Prop} {items : List FromServer}
    (h : Led begun n shows items) (hshows : shows → shows')
    (hbegun : ∀ b, .read n b ∈ items → begun' b → begun b) : Led begun' n shows' items := by
  induction items generalizing shows shows' with
  | nil => trivial
  | cons item items ih =>
    cases item with
    | shown epoch msg =>
      exact ih h (Or.imp_left hshows) fun b hmem => hbegun b (List.mem_cons_of_mem _ hmem)
    | read epoch bytes =>
      refine ⟨?_, ih h.2 hshows fun b hmem => hbegun b (List.mem_cons_of_mem _ hmem)⟩
      rintro rfl hbytes
      exact hshows (h.1 rfl (hbegun bytes List.mem_cons_self hbytes))

/-- Items more, each led by what is shown before it. -/
theorem Led.append {begun : ℕ → Prop} {n : ℕ} {shows : Prop} {items more : List FromServer}
    (h : Led begun n shows items)
    (hmore : Led begun n (shows ∨ ∃ msg, .shown n msg ∈ items) more) :
    Led begun n shows (items ++ more) := by
  induction items generalizing shows with
  | nil => exact hmore.mono (fun hor => hor.elim id fun ⟨_, hmem⟩ => by cases hmem) fun _ _ => id
  | cons item items ih =>
    cases item with
    | shown epoch msg =>
      refine ih h (hmore.mono ?_ fun _ _ => id)
      rintro (hshows | ⟨x, hmem⟩)
      · exact .inl (.inl hshows)
      · rcases List.mem_cons.mp hmem with heq | hmem
        · cases heq
          exact .inl (.inr rfl)
        · exact .inr ⟨x, hmem⟩
    | read epoch bytes =>
      refine ⟨h.1, ih h.2 (hmore.mono ?_ fun _ _ => id)⟩
      rintro (hshows | ⟨x, hmem⟩)
      · exact .inl hshows
      · rcases List.mem_cons.mp hmem with heq | hmem
        · cases heq
        · exact .inr ⟨x, hmem⟩

/-- The first of the items. -/
theorem Led.of_append {begun : ℕ → Prop} {n : ℕ} {shows : Prop} {items more : List FromServer}
    (h : Led begun n shows (items ++ more)) : Led begun n shows items := by
  induction items generalizing shows with
  | nil => trivial
  | cons item items ih =>
    cases item with
    | shown epoch msg => exact ih h
    | read epoch bytes => exact ⟨h.1, ih h.2⟩

/-- Messages handed on, then a `Read`. -/
theorem led_chunk {begun : ℕ → Prop} {n epoch bytes : ℕ} {shows : Prop} {msgs : List Shown}
    (h : epoch = n → begun bytes → shows ∨ msgs ≠ []) :
    Led begun n shows (msgs.map (.shown epoch) ++ [.read epoch bytes]) := by
  induction msgs generalizing shows with
  | nil => exact ⟨fun hn hbytes => (h hn hbytes).resolve_right fun hne => hne rfl, trivial⟩
  | cons msg msgs ih => exact ih fun hn _ => .inl (.inr hn)

/-- In another epoch, every `Read` is of it. -/
theorem led_of_epoch {begun : ℕ → Prop} {n : ℕ} {shows : Prop} {items : List FromServer}
    (h : ∀ item ∈ items, epochOf item ≠ n) : Led begun n shows items := by
  induction items generalizing shows with
  | nil => trivial
  | cons item items ih =>
    have hrest := fun x hx => h x (List.mem_cons_of_mem item hx)
    cases item with
    | shown epoch msg => exact ih hrest
    | read epoch bytes => exact ⟨fun heq => absurd heq (h _ List.mem_cons_self), ih hrest⟩

namespace Link

variable {s s' : Link K C}

/-! ### Reads on their way -/

/-- What the client's reader read and its loop has yet to take. -/
def items (s : Link K C) : List FromServer := s.client.rx ++ s.client.reader.pending

/-- A `Read` that says `bytes` of epoch `n` is on its way. -/
def Said (s : Link K C) (n bytes : ℕ) : Prop :=
  .read n bytes ∈ s.items ∨ .read n bytes ∈ s.client.control ∨ .read n bytes ∈ s.coming

/-- The client read all that was queued in the epoch, no `Read` of it is on its way, and
there is no room for more. -/
def Wedged (s : Link K C) : Prop :=
  s.taken s.server.epoch.n = s.server.epoch.pace.written ∧
    (∀ bytes, ¬ s.Said s.server.epoch.n bytes) ∧ s.server.epoch.pace.room = false

/-- Whether no `Read` is lost that counts all that was queued in the server's epoch. -/
def unlost (s : Link K C) : LinkMove K C → Bool
  | .hear => match s.client.rx with
    | .read n bytes :: _ =>
      !(n = s.client.epoch && n = s.server.epoch.n && Client.controlQueue ≤ s.client.control.length &&
        s.server.epoch.pace.written + header ≤ bytes)
    | _ => true
  | _ => true

/-- `bytes` of the epoch count its first message. -/
def begun (body : Shown → ℕ) (s : Link K C) (bytes : ℕ) : Prop :=
  ∃ msg, [msg] <+: s.streams s.server.epoch.n ∧ header + framed body msg ≤ bytes

/-- What holds of what was read, and of the `Read`s that say so. -/
structure Informed (body : Shown → ℕ) (s : Link K C) : Prop where
  sound : s.Sound body
  budget : 0 < s.server.epoch.pace.budget
  shows : s.client.epoch ≤ s.server.epoch.n
  epochs : ∀ item ∈ s.items, epochOf item ≤ s.server.epoch.n
  reads : ∀ bytes, .read s.server.epoch.n bytes ∈ s.items →
    bytes ≤ header + s.taken s.server.epoch.n
  led : Led (s.begun body) s.server.epoch.n (s.client.epoch = s.server.epoch.n) s.items
  had : s.decoded s.server.epoch.n ≠ [] → s.client.epoch = s.server.epoch.n ∨
    ∃ msg, .shown s.server.epoch.n msg ∈ s.items
  told : s.server.epoch.pace.written ≤ s.taken s.server.epoch.n →
    s.taken s.server.epoch.n ≤ s.server.epoch.pace.read ∨
      s.Said s.server.epoch.n (header + s.taken s.server.epoch.n)

/-- No state is wedged in which the client's reads are said. -/
theorem Informed.not_wedged (h : s.Informed body) : ¬ s.Wedged := by
  rintro ⟨hall, hway, hroom⟩
  have hbudget := h.budget
  have hread := (h.told hall.ge).resolve_right (hway _)
  simp only [Pace.room, decide_eq_false_iff_not] at hroom
  omega

/-- Nothing more is read or shown, and no less is counted. -/
theorem Informed.mono (h : s.Informed body) (hsound : s'.Sound body)
    (hn : s'.server.epoch.n = s.server.epoch.n) (hbudget : 0 < s'.server.epoch.pace.budget)
    (hwritten : s.server.epoch.pace.written ≤ s'.server.epoch.pace.written)
    (hread : s.server.epoch.pace.read ≤ s'.server.epoch.pace.read)
    (hitems : s'.items = s.items) (htaken : ∀ n, s'.taken n = s.taken n)
    (hdecoded : ∀ n, s'.decoded n = s.decoded n) (hshows : s'.client.epoch = s.client.epoch)
    (hstreams : s'.streams = s.streams)
    (hway : ∀ bytes, s.Said s.server.epoch.n bytes →
      min bytes s.server.epoch.pace.written ≤ s'.server.epoch.pace.read ∨
        s'.Said s.server.epoch.n bytes) : s'.Informed body := by
  have hbegun : s'.begun body = s.begun body := by unfold begun; rw [hstreams, hn]
  refine ⟨hsound, hbudget, ?_, ?_, ?_, ?_, ?_, fun hall => ?_⟩
  · rw [hshows, hn]
    exact h.shows
  · rw [hitems, hn]
    exact h.epochs
  · rw [hitems, hn, htaken]
    exact h.reads
  · rw [hitems, hn, hshows, hbegun]
    exact h.led
  · rw [hitems, hn, hshows, hdecoded]
    exact h.had
  · rw [hn, htaken] at hall ⊢
    have hall := hwritten.trans hall
    rcases h.told hall with hcounted | hsaid
    · exact .inl (hcounted.trans hread)
    · refine (hway _ hsaid).imp_left fun hmin => le_trans ?_ hmin
      have hqueued := h.sound.taken_le_written
      omega

/-- A new epoch begins: nothing of it was handed on. -/
theorem Informed.redrawn (h : s.Informed body) (now : ℕ) (shown : List Shown) (top : Option RowId)
    (hsound : Sound body { s with
      server := s.server.begin_ body (s.server.epoch.n + 1) shown top now }) :
    Informed body { s with server := s.server.begin_ body (s.server.epoch.n + 1) shown top now } := by
  obtain ⟨hn, -, -, hbudget⟩ := open_spec body (s.server.epoch.n + 1) shown now
  have hn' : (s.server.begin_ body (s.server.epoch.n + 1) shown top now).epoch.n =
    s.server.epoch.n + 1 := hn
  have hother : s.client.reader.epoch ≠ s.server.epoch.n + 1 := by
    have hepoch := h.sound.epoch
    omega
  have hitems : ∀ item ∈ s.items, epochOf item ≠ s.server.epoch.n + 1 := by
    intro item hmem
    have hepoch := h.epochs item hmem
    omega
  have htaken : s.taken (s.server.epoch.n + 1) = 0 := if_neg hother
  refine ⟨hsound, hbudget, ?_, fun item hmem => ?_, fun bytes hmem => ?_, ?_, fun hdecoded => ?_,
    fun _ => .inl ?_⟩
  · exact h.shows.trans ((Nat.le_succ _).trans hn.ge)
  · exact (h.epochs item hmem).trans ((Nat.le_succ _).trans hn.ge)
  · simp only [hn'] at hmem
    exact absurd rfl (hitems _ hmem)
  · simp only [hn']
    exact led_of_epoch hitems
  · simp only [hn'] at hdecoded
    exact absurd (if_neg hother) hdecoded
  · simp only [hn']
    exact htaken.trans_le (Nat.zero_le _)

/-- The writer puts a message on the stream: if it is the first, no `Read` counts it yet. -/
theorem Informed.write (h : s.Informed body) {msg : Shown} {queue : List Shown}
    (hqueue : s.server.epoch.queue = msg :: queue) :
    Informed body { s with
      server := { s.server with epoch := { s.server.epoch with queue := queue } }
      streams := Function.update s.streams s.server.epoch.n
        (s.streams s.server.epoch.n ++ [msg]) } := by
  refine ⟨h.sound.write hqueue, h.budget, h.shows, h.epochs, h.reads,
    h.led.mono id fun bytes hmem hbegun => ?_, h.had, h.told⟩
  obtain ⟨first, hfirst, hbytes⟩ := hbegun
  refine ⟨first, ?_, hbytes⟩
  simp only [Function.update_self] at hfirst
  refine prefix_of_total_le (framed_pos body) hfirst ?_
  -- What was taken was on the stream.
  have hread := h.reads bytes hmem
  have htaken : s.taken s.server.epoch.n ≤ total (framed body) (s.streams s.server.epoch.n) := by
    unfold taken
    split
    · next heq => exact heq ▸ h.sound.taken
    · exact Nat.zero_le _
  simp only [total_cons, total_nil]
  omega

/-- A newer stream is read: what the reader before had yet to hand on is not. -/
theorem Informed.accept (h : s.Informed body) {epoch : ℕ} (hnew : s.client.reader.epoch < epoch)
    (hle : epoch ≤ s.server.epoch.n)
    (hsound : Sound body { s with client := { s.client with reader := .new epoch } }) :
    Informed body { s with client := { s.client with reader := .new epoch } } := by
  have hne : s.client.reader.epoch ≠ s.server.epoch.n := by omega
  have htaken : taken { s with client := { s.client with reader := .new epoch } }
      s.server.epoch.n = 0 := by
    unfold taken
    split <;> rfl
  have hdecoded : decoded { s with client := { s.client with reader := .new epoch } }
      s.server.epoch.n = [] := by
    unfold decoded
    split <;> rfl
  have hzero : s.taken s.server.epoch.n = 0 := if_neg hne
  have hitems : ∀ item ∈ items { s with client := { s.client with reader := .new epoch } },
      item ∈ s.items := by
    intro item hmem
    refine List.mem_append_left _ ?_
    simpa [items, Reader.new] using hmem
  refine ⟨hsound, h.budget, h.shows, fun item hmem => h.epochs item (hitems item hmem),
    fun bytes hmem => ?_, ?_, fun hne' => absurd hdecoded hne', fun _ => .inl ?_⟩
  · rw [htaken, ← hzero]
    exact h.reads bytes (hitems _ hmem)
  · show Led _ _ _ (s.client.rx ++ [])
    rw [List.append_nil]
    exact h.led.of_append
  · exact htaken.trans_le (Nat.zero_le _)

/-- A chunk is read: what it brings is handed on, and then what was read. -/
theorem Informed.chunk (h : s.Informed body) {count : ℕ} (hpending : s.client.reader.pending = [])
    (hsound : Sound body { s with client := { s.client with
      reader := s.client.reader.chunk body (s.streams s.client.reader.epoch) count } }) :
    Informed body { s with client := { s.client with
      reader := s.client.reader.chunk body (s.streams s.client.reader.epoch) count } } := by
  have hrx : s.items = s.client.rx := by unfold items; rw [hpending, List.append_nil]
  have hheader := h.sound.header
  -- What is had of the epoch was had before, or is handed on now.
  have hhad : whole (framed body) (s.streams s.client.reader.epoch)
        (s.client.reader.bytes + count - header) ≠ [] → s.client.reader.epoch = s.server.epoch.n →
      (s.client.epoch = s.server.epoch.n ∨ ∃ msg, .shown s.server.epoch.n msg ∈ s.client.rx) ∨
        (whole (framed body) (s.streams s.client.reader.epoch)
          (s.client.reader.bytes + count - header)).drop s.client.reader.decoded.length ≠ [] := by
    intro hne heq
    by_cases hold : s.client.reader.decoded = []
    · rw [hold]
      exact .inr hne
    · refine .inl ?_
      rw [← hrx]
      refine h.had ?_
      unfold decoded
      rwa [if_pos heq]
  refine ⟨hsound, h.budget, h.shows, fun item hmem => ?_, fun bytes hmem => ?_, ?_, fun hne => ?_,
    fun hall => ?_⟩
  · rcases List.mem_append.mp hmem with hold | hnew
    · exact h.epochs item (hrx ▸ hold)
    · simp only [Reader.chunk, List.mem_append, List.mem_map, List.mem_singleton] at hnew
      rcases hnew with ⟨msg, -, rfl⟩ | rfl <;> exact h.sound.epoch
  · have htaken : s.taken s.server.epoch.n ≤ taken { s with client := { s.client with
        reader := s.client.reader.chunk body (s.streams s.client.reader.epoch) count } }
          s.server.epoch.n := by
      unfold taken Reader.taken Reader.chunk
      dsimp only
      split <;> omega
    rcases List.mem_append.mp hmem with hold | hnew
    · exact (h.reads bytes (hrx ▸ hold)).trans (Nat.add_le_add_left htaken _)
    · simp only [Reader.chunk, List.mem_append, List.mem_map, List.mem_singleton] at hnew
      rcases hnew with ⟨msg, -, heq⟩ | heq
      · cases heq
      · injection heq with heq hbytes
        unfold taken Reader.taken Reader.chunk
        dsimp only
        rw [if_pos heq.symm]
        omega
  · refine (hrx ▸ h.led).append (led_chunk fun heq hbegun => hhad ?_ heq)
    obtain ⟨msg, hmsg, hbytes⟩ := hbegun
    have hone : [msg] <+: whole (framed body) (s.streams s.client.reader.epoch)
        (s.client.reader.bytes + count - header) := by
      rw [heq]
      exact prefix_whole hmsg (by simp only [total_cons, total_nil]; omega)
    exact fun hnil => absurd (List.prefix_nil.mp (hnil ▸ hone)) (List.cons_ne_nil _ _)
  · unfold decoded at hne
    split at hne
    · next heq =>
      rcases hhad hne heq with (hshows | ⟨msg, hmem⟩) | hnew
      · exact .inl hshows
      · exact .inr ⟨msg, List.mem_append_left _ hmem⟩
      · obtain ⟨msg, hmem⟩ := List.exists_mem_of_ne_nil _ hnew
        refine .inr ⟨msg, List.mem_append_right _ (List.mem_append_left _ ?_)⟩
        exact List.mem_map.mpr ⟨msg, hmem, congrArg (FromServer.shown · msg) heq⟩
    · exact absurd rfl hne
  · by_cases heq : s.client.reader.epoch = s.server.epoch.n
    · refine .inr (.inl (List.mem_append_right _ (List.mem_append_right _ ?_)))
      unfold taken Reader.taken Reader.chunk
      dsimp only
      rw [if_pos heq, heq, List.mem_singleton]
      congr 1
      omega
    · exact .inl ((if_neg heq).trans_le (Nat.zero_le _))

/-- A `Read` that counts all that was queued is of the epoch that the client shows. -/
theorem Informed.shows_of_read (h : s.Informed body) {items : List FromServer}
    (hitems : s.items = .read s.server.epoch.n (header + s.taken s.server.epoch.n) :: items)
    (hall : s.server.epoch.pace.written ≤ s.taken s.server.epoch.n)
    (hpos : 0 < s.taken s.server.epoch.n) : s.client.epoch = s.server.epoch.n := by
  have hled := h.led
  rw [hitems] at hled
  refine hled.1 rfl ?_
  unfold taken at hpos
  split at hpos
  · next heq =>
    have htaken := heq ▸ h.sound.taken
    have hwritten : total (framed body) (s.streams s.server.epoch.n) ≤
        s.server.epoch.pace.written := by
      rw [h.sound.written]
      exact total_le_of_isPrefix (List.prefix_append _ _)
    cases hstream : s.streams s.server.epoch.n with
    | nil =>
      rw [hstream, total_nil] at htaken
      omega
    | cons msg rest =>
      refine ⟨msg, by rw [hstream]; exact List.cons_prefix_cons.mpr ⟨rfl, List.nil_prefix⟩, ?_⟩
      rw [hstream, total_cons] at hwritten
      omega
  · cases hpos

/-- What the client's loop takes moves it to a newer epoch, or a `Read` to its control queue. -/
theorem heard_spec (w : Wire K C) (item : FromServer) :
    (∀ msg ∈ w.control, msg ∈ (w.heard item).control) ∧
      match item with
      | .shown n _ => (w.heard item).epoch = max w.epoch n
      | .read n bytes => (w.heard item).epoch = w.epoch ∧
        (n = w.epoch → w.control.length < Client.controlQueue →
          .read n bytes ∈ (w.heard item).control) := by
  cases item with
  | shown n msg =>
    simp only [Wire.heard]
    split
    · exact ⟨fun _ => id, by omega⟩
    · next hle => split <;> exact ⟨fun _ => id, (Nat.max_eq_right (Nat.not_lt.mp hle)).symm⟩
  | read n bytes =>
    simp only [Wire.heard]
    split
    · unfold Wire.send
      split
      · exact ⟨fun _ => List.mem_append_left _, rfl, fun _ _ => by simp⟩
      · next hfull => exact ⟨fun _ => id, rfl, fun _ hroom => absurd hroom hfull⟩
    · next hne => exact ⟨fun _ => id, rfl, fun heq => absurd heq hne⟩

/-- The client's loop takes what waits longest. -/
theorem Informed.heard (h : s.Informed body) {item : FromServer} {rx : List FromServer}
    {w : Wire K C} (hrx : s.client.rx = item :: rx) (hunlost : s.unlost .hear = true)
    (hw : w.reader = s.client.reader ∧ w.rx = rx ∧ w.epoch = s.client.epoch ∧
      w.control = s.client.control)
    (hsound : Sound body { s with client := w.heard item }) :
    Informed body { s with client := w.heard item } := by
  obtain ⟨hwreader, hwrx, hwepoch, hwcontrol⟩ := hw
  obtain ⟨hreader, hrx'⟩ := heard_reader w item
  obtain ⟨hcontrol, hitem⟩ := heard_spec w item
  rw [hwreader] at hreader
  rw [hwrx] at hrx'
  have hshows := h.shows
  have hitems : s.items = item :: (rx ++ s.client.reader.pending) := by
    unfold items
    rw [hrx, List.cons_append]
  have hitems' : items { s with client := w.heard item } = rx ++ s.client.reader.pending := by
    unfold items
    rw [hreader, hrx']
  have htaken : taken { s with client := w.heard item } s.server.epoch.n =
      s.taken s.server.epoch.n := by unfold taken; rw [hreader]
  have hdecoded : decoded { s with client := w.heard item } s.server.epoch.n =
      s.decoded s.server.epoch.n := by unfold decoded; rw [hreader]
  have hepoch : epochOf item ≤ s.server.epoch.n := h.epochs item (by rw [hitems]; simp)
  have hled := h.led
  rw [hitems] at hled
  -- A message of the epoch that is taken is one that the client then shows.
  have hmoves : (w.heard item).epoch ≤ s.server.epoch.n ∧
      (s.client.epoch = s.server.epoch.n ∨ (∃ msg, item = .shown s.server.epoch.n msg) →
        (w.heard item).epoch = s.server.epoch.n) ∧
      Led (s.begun body) s.server.epoch.n
        ((w.heard item).epoch = s.server.epoch.n)
        (rx ++ s.client.reader.pending) := by
    cases item with
    | shown n msg =>
      simp only [epochOf] at hepoch
      rw [hwepoch] at hitem
      have hrest : Led (s.begun body) s.server.epoch.n
          (s.client.epoch = s.server.epoch.n ∨ n = s.server.epoch.n)
          (rx ++ s.client.reader.pending) := hled
      refine ⟨by omega, ?_, hrest.mono (fun hor => by omega) fun _ _ => id⟩
      rintro (heq | ⟨x, heq⟩)
      · omega
      · injection heq with hn
        omega
    | read n bytes =>
      have hsame := hitem.1.trans hwepoch
      refine ⟨hsame.trans_le hshows, ?_, hled.2.mono (fun heq => hsame.trans heq) fun _ _ => id⟩
      rintro (heq | ⟨x, heq⟩)
      · exact hsame.trans heq
      · cases heq
  refine ⟨hsound, h.budget, hmoves.1, fun x hmem => ?_, fun bytes hmem => ?_, ?_, fun hne => ?_,
    fun hall => ?_⟩
  · rw [hitems'] at hmem
    exact h.epochs x (hitems ▸ List.mem_cons_of_mem _ hmem)
  · rw [hitems'] at hmem
    rw [htaken]
    exact h.reads bytes (hitems ▸ List.mem_cons_of_mem _ hmem)
  · rw [hitems']
    exact hmoves.2.2
  · rw [hdecoded] at hne
    rw [hitems']
    rcases h.had hne with hold | ⟨msg, hmem⟩
    · exact .inl (hmoves.2.1 (.inl hold))
    · rw [hitems] at hmem
      rcases List.mem_cons.mp hmem with heq | hmem
      · exact .inl (hmoves.2.1 (.inr ⟨msg, heq.symm⟩))
      · exact .inr ⟨msg, hmem⟩
  · rw [htaken] at hall ⊢
    rcases h.told hall with hcounted | hsaid
    · exact .inl hcounted
    · rcases Nat.eq_zero_or_pos (s.taken s.server.epoch.n) with hzero | hpos
      · exact .inl (hzero.trans_le (Nat.zero_le _))
      refine .inr ?_
      rcases hsaid with hmem | hmem | hmem
      · rw [hitems] at hmem
        rcases List.mem_cons.mp hmem with rfl | hmem
        · refine .inr (.inl ?_)
          have heq := h.shows_of_read hitems hall hpos
          refine hitem.2 (heq.symm.trans hwepoch.symm) (Nat.not_le.mp fun hfull => ?_)
          -- It counts all that was queued: it is not lost.
          rw [hwcontrol] at hfull
          have hcounts : s.server.epoch.pace.written + header ≤
            header + s.taken s.server.epoch.n := by
            rw [Nat.add_comm]
            exact Nat.add_le_add_left hall _
          have hlost : s.unlost .hear = false := by
            unfold unlost
            simp only [hrx]
            simp [heq, hfull, hcounts]
          exact Bool.noConfusion (hunlost.symm.trans hlost)
        · exact .inl (hitems' ▸ hmem)
      · exact .inr (.inl (hcontrol _ (hwcontrol ▸ hmem)))
      · exact .inr (.inr hmem)

/-- A move that touches nothing of what is shown. -/
theorem Informed.quiet (h : s.Informed body) (hsound : s'.Sound body) (hquiet : Quiet s s') :
    s'.Informed body := by
  have hitems : s'.items = s.items := by
    unfold items
    rw [hquiet.rx, hquiet.reader]
  refine h.mono hsound (by rw [hquiet.epoch]) (by rw [hquiet.epoch]; exact h.budget)
    (by rw [hquiet.epoch]) (by rw [hquiet.epoch]) hitems
    (fun n => by unfold taken; rw [hquiet.reader]) (fun n => by unfold decoded; rw [hquiet.reader])
    hquiet.shows hquiet.streams ?_
  rintro bytes (hmem | hmem | hmem)
  · exact .inr (.inl (hitems ▸ hmem))
  · exact .inr (.inr (.inl ((hquiet.control _ _).mpr hmem)))
  · exact .inr (.inr (.inr (hquiet.coming ▸ hmem)))

/-- A step that loses no `Read` keeps the server informed. -/
theorem step_informed {m : LinkMove K C} (h : s.Informed body) (hunlost : s.unlost m = true)
    (hstep : s.step body m = some s') : s'.Informed body := by
  have hsound := step_sound h.sound hstep
  cases steps_of_step hstep with
  | top =>
    exact h.mono hsound rfl h.budget (le_refl _) (le_refl _) rfl (fun _ => rfl)
      (fun _ => rfl) rfl rfl fun _ => .inr
  | @redrawn now shown top =>
    exact h.redrawn now shown top hsound
  | @event now event =>
    obtain ⟨more, hsends, -⟩ := event_spec body s.server s.queued now event
    exact h.mono hsound hsends.n (hsends.budget ▸ h.budget)
      (hsends.written ▸ Nat.le_add_right _ _) hsends.read.ge rfl (fun _ => rfl) (fun _ => rfl) rfl
      rfl fun _ => .inr
  | @beat now =>
    obtain ⟨more, hsends⟩ := send_sends body s.server.epoch .beat now
    exact h.mono hsound hsends.n (hsends.budget ▸ h.budget)
      (hsends.written ▸ Nat.le_add_right _ _) hsends.read.ge rfl (fun _ => rfl) (fun _ => rfl) rfl
      rfl fun _ => .inr
  | @take now rtt count =>
    obtain ⟨hn, -, hwritten, -⟩ := foldl_takeMsg_spec now rtt (s.coming.take count)
      { s.server with turn := .top }
    obtain ⟨hmono, hreads⟩ := foldl_takeMsg_reads now rtt (s.coming.take count)
      { s.server with turn := .top }
    refine h.mono hsound hn (foldl_takeMsg_budget h.budget) hwritten.ge hmono rfl (fun _ => rfl)
      (fun _ => rfl) rfl rfl ?_
    rintro bytes (hmem | hmem | hmem)
    · exact .inr (.inl hmem)
    · exact .inr (.inr (.inl hmem))
    · rw [← List.take_append_drop count s.coming] at hmem
      rcases List.mem_append.mp hmem with hnow | hlater
      · exact .inl (hreads bytes hnow)
      · exact .inr (.inr (.inr hlater))
  | write hqueue => exact h.write hqueue
  | accept hnewer hopened => exact h.accept hnewer hopened hsound
  | chunk hpending => exact h.chunk hpending hsound
  | @hand item pending hpending =>
    have hitems : items { s with client := { s.client with
        reader := { s.client.reader with pending := pending }
        rx := s.client.rx ++ [item] } } = s.items := by
      simp [items, hpending]
    refine h.mono hsound rfl h.budget (le_refl _) (le_refl _) hitems (fun _ => rfl)
      (fun _ => rfl) rfl rfl ?_
    rintro bytes (hmem | hmem)
    · exact .inr (.inl (hitems ▸ hmem))
    · exact .inr (.inr hmem)
  | @hear item rx _ hrx =>
    exact h.heard (w := { s.client with rx := rx }) hrx hunlost ⟨rfl, rfl, rfl, rfl⟩ hsound
  | @ended item rx _ hrx =>
    have hopen := h.heard (w := { s.client with rx := rx }) hrx hunlost ⟨rfl, rfl, rfl, rfl⟩
      (hsound.of_eq rfl rfl rfl (fun _ => id) rfl rfl rfl rfl)
    exact hopen.mono hsound rfl hopen.budget (le_refl _) (le_refl _) rfl (fun _ => rfl)
      (fun _ => rfl) rfl rfl fun _ => .inr
  | @control msg control hcontrol =>
    refine h.mono hsound rfl h.budget (le_refl _) (le_refl _) rfl (fun _ => rfl)
      (fun _ => rfl) rfl rfl ?_
    rintro bytes (hmem | hmem | hmem)
    · exact .inr (.inl hmem)
    · rw [hcontrol] at hmem
      rcases List.mem_cons.mp hmem with heq | hmem
      · exact .inr (.inr (.inr (List.mem_append_right _ (List.mem_singleton.mpr heq))))
      · exact .inr (.inr (.inl hmem))
    · exact .inr (.inr (.inr (List.mem_append_left _ hmem)))
  | _ => exact h.quiet hsound (step_quiet hstep rfl)

/-- The server is informed when the connection begins. -/
theorem init_informed (body : Shown → ℕ) (attach : ℕ) (shown : List Shown) (top : Option RowId)
    (now : ℕ) : (init body attach shown top now : Link K C).Informed body := by
  obtain ⟨hn, -, -, hbudget⟩ := open_spec body 1 shown now
  have hn' : (init body attach shown top now : Link K C).server.epoch.n = 1 := hn
  refine ⟨init_sound body attach shown top now, hbudget, Nat.zero_le _,
    fun _ hmem => (List.not_mem_nil hmem).elim, fun _ hmem => (List.not_mem_nil hmem).elim, trivial,
    fun hne => ?_, fun _ => .inl ?_⟩
  · rw [hn'] at hne
    exact absurd rfl hne
  · rw [hn']
    exact Nat.zero_le _

/-- **The pace never wedges**: in every run in which the client's control queue is never full
at a `Read` of the server's epoch that counts all that was queued, no state is reached in
which the client read all that was queued, no `Read` is on its way, and the server has no
room for more. -/
theorem never_wedged {body : Shown → ℕ} {attach : ℕ} {shown : List Shown} {top : Option RowId}
    {now : ℕ} {s : Link K C} (h : Reaches (step body) (unlost · ·) (init body attach shown top now) s) :
    ¬ s.Wedged := by
  have hinformed : s.Informed body := h.invariant (Informed body)
    (init_informed body attach shown top now) fun _ _ _ hs hunlost hstep =>
      step_informed hs hunlost hstep
  exact hinformed.not_wedged

/-- In `never_wedged`, the client of a title and a bell reads both, and says so. -/
theorem never_wedged_once :
    ∃ s, Reaches (step postcard) (unlost · ·) titled s ∧
      (s.taken s.server.epoch.n, s.server.epoch.pace.written) = (12, 12) ∧ ¬ s.Wedged := by
  obtain ⟨s, hs, hsees⟩ := Option.map_eq_some_iff.mp
    (show (runWhile (step postcard) (unlost · ·) titled readsAll).map
      (fun s => (s.taken s.server.epoch.n, s.server.epoch.pace.written)) = some (12, 12) by
        decide +kernel)
  have hreach := reaches_of_run hs
  exact ⟨s, hreach, hsees, never_wedged hreach⟩

/-- A message of the most output that one carries, and the length of its body. -/
def fullOut : Shown := .out (List.replicate maxOut 0x61)

theorem postcard_fullOut : postcard fullOut = 16388 := by
  simp only [postcard, fullOut, List.length_replicate]
  decide

/-- The lengths of bodies where each output is full. -/
def postcardFull : Shown → ℕ
  | .out _ => 16388
  | msg => postcard msg

/-- A client that reads slowly has the least budget, which four full messages fill. -/
def fillsBudget : List (LinkMove Unit Unit) :=
  readsAll ++ [.take rateSpan 0 1] ++
    (List.replicate 4 [.top, .event 0 (.show fullOut), .write]).flatten

/-- The client's window is resized until its control queue is full; then it reads all that
was queued. -/
def readsUnsaid : List (LinkMove Unit Unit) :=
  List.replicate 64 (.resize 1 ⟨24, 80⟩) ++
    [.chunk 65536, .hand, .hand, .hand, .hand, .hear, .hear, .hear, .hear,
      .chunk 32, .hand, .hand, .hear, .hear]

set_option synthInstance.maxSize 1000 in
/-- **A lost `Read` wedges the pace**: the client's control queue is full when it has read
all that was queued, and there is no room for anything that would have it say so again. -/
theorem wedges :
    ∃ s, Reachable (step postcardFull) (titled : Link Unit Unit) s ∧ s.Wedged := by
  obtain ⟨s, hs, hsees⟩ := Option.map_eq_some_iff.mp
    (show (runWhile (step postcardFull) (fun _ _ => True) titled (fillsBudget ++ readsUnsaid)).map
      (fun s => (s.server.epoch.n, s.taken 1, s.server.epoch.pace.written,
        s.server.epoch.pace.room, s.items, s.coming,
        s.client.control.all (· = .resize 1 ⟨24, 80⟩))) =
      some (1, 65580, 65580, false, [], [], true) by decide +kernel)
  simp only [Prod.mk.injEq] at hsees
  obtain ⟨hn, htaken, hwritten, hroom, hitems, hcoming, hcontrol⟩ := hsees
  refine ⟨s, reaches_of_run hs, ?_, fun bytes hsaid => ?_, hroom⟩
  · rw [hn, htaken, hwritten]
  · rcases hsaid with hmem | hmem | hmem
    · rw [hitems] at hmem
      cases hmem
    · have hresize := List.all_eq_true.mp hcontrol _ hmem
      simp at hresize
    · rw [hcoming] at hmem
      cases hmem

end Link

end Koh.Connection
