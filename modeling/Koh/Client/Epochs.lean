import Koh.Client.Wire

/-!
# The epochs a client shows

`read_epochs` and `Client::heard`, from `client/mod.rs`, with the epochs that `serve` opens and
`write_epoch` writes, from `server/attach.rs`: a stream an epoch, taken in any order, a reader for
each that is newer than those before, and the loop that takes what readers hand on.

## Main definitions

- `EpochStream`, `Task`: an epoch's stream, and a reader of it, aborted or not
- `Epochs`, `Epochs.step`: both ends, and what either does next
- `Act`, `heardActs`: what the loop does to the display
- `Orderly`: each epoch's messages in a row, the display reset before the first

## Main results

- `actsOf_orderly`: whatever the loop hears, what it does is orderly
- `Epochs.shown_in_order`: and what it applies of an epoch is how its stream begins
- `Epochs.readers_apart`: no two readers read one epoch

## Design notes

An aborted reader's task goes on until it stops, which may be at any later time. Epochs are
numbered as the source numbers them, from 1 and modulo 2^32; the loop begins in epoch 0. A failed
`new_epoch` ends the run, as `quit` does. `taken` and `acts` are no part of the code: what the
loop took, and what it did to the display.
-/

namespace Koh.Client

open Koh.Lib Koh.Server

def FromServer.epoch : FromServer → ℕ
  | .shown n _ | .read n _ => n

/-! ### The loop -/

inductive Act where
  /-- `Display::new_epoch`. -/
  | reset (epoch : ℕ)
  | apply (epoch : ℕ) (msg : Shown)
  deriving DecidableEq

/-- What the loop, in epoch `epoch`, does with what it hears. -/
def heardActs (epoch : ℕ) : FromServer → List Act
  | .read _ _ => []
  | .shown n msg =>
    if n < epoch then []
    else if epoch < n then [.reset n, .apply n msg]
    else [.apply n msg]

/-- The epoch the loop is in after that. -/
def heardEpoch (epoch : ℕ) : FromServer → ℕ
  | .read _ _ => epoch
  | .shown n _ => if n < epoch then epoch else n

/-- What the loop does with one thing after another. -/
def actsOf (epoch : ℕ) : List FromServer → List Act
  | [] => []
  | x :: l => heardActs epoch x ++ actsOf (heardEpoch epoch x) l

/-- What one item more is shown as. -/
theorem actsOf_snoc (epoch : ℕ) (l : List FromServer) (x : FromServer) :
    actsOf epoch (l ++ [x]) = actsOf epoch l ++ heardActs (l.foldl heardEpoch epoch) x := by
  induction l generalizing epoch with
  | nil => simp [actsOf]
  | cons y l ih => simp [actsOf, ih]

/-- Of a display in epoch `epoch`: messages of that epoch, then those of each newer one in a row,
the display reset before the first. -/
def Orderly (epoch : ℕ) : List Act → Prop
  | [] => True
  | .apply n _ :: l => n = epoch ∧ Orderly epoch l
  | .reset n :: .apply n' _ :: l => epoch < n ∧ n' = n ∧ Orderly n l
  | .reset _ :: _ => False

def applied (epoch : ℕ) (acts : List Act) : List Shown :=
  acts.filterMap fun
    | .apply n msg => if n = epoch then some msg else none
    | .reset _ => none

def shows (epoch : ℕ) (l : List FromServer) : List Shown :=
  l.filterMap fun
    | .shown n msg => if n = epoch then some msg else none
    | .read _ _ => none

/-- The messages of one epoch, of two lists of items. -/
@[simp] theorem shows_append (epoch : ℕ) (l l' : List FromServer) :
    shows epoch (l ++ l') = shows epoch l ++ shows epoch l' := by
  simp [shows]

/-- Whatever the items, what is shown of them is in the order of its epochs. -/
theorem actsOf_orderly (epoch : ℕ) (l : List FromServer) : Orderly epoch (actsOf epoch l) := by
  induction l generalizing epoch with
  | nil => trivial
  | cons x l ih =>
    cases x with
    | read n bytes => exact ih epoch
    | shown n msg =>
      simp only [actsOf, heardActs, heardEpoch]
      split
      · exact ih epoch
      · next hle =>
        split
        · next hlt => exact ⟨hlt, rfl, ih n⟩
        · next hge =>
          obtain rfl : n = epoch := by omega
          exact ⟨rfl, ih n⟩

/-- The epochs whose messages were applied, one for each. -/
def epochs (acts : List Act) : List ℕ :=
  acts.filterMap fun
    | .apply n _ => some n
    | .reset _ => none

@[simp] theorem epochs_apply (n : ℕ) (msg : Shown) (acts : List Act) :
    epochs (.apply n msg :: acts) = n :: epochs acts := rfl

@[simp] theorem epochs_reset (n : ℕ) (acts : List Act) :
    epochs (.reset n :: acts) = epochs acts := rfl

/-- An orderly display shows nothing older. -/
theorem Orderly.le {epoch : ℕ} {acts : List Act} (h : Orderly epoch acts) :
    ∀ n ∈ epochs acts, epoch ≤ n := by
  induction epoch, acts using Orderly.induct with
  | case1 => simp [epochs]
  | case2 epoch n msg l ih =>
    obtain ⟨rfl, hrest⟩ := h
    simpa using ih hrest
  | case3 epoch n n' msg l ih =>
    obtain ⟨hlt, rfl, hrest⟩ := h
    have hle := ih hrest
    simp only [epochs_reset, epochs_apply, List.mem_cons]
    rintro m (rfl | hm)
    · exact hlt.le
    · exact hlt.le.trans (hle m hm)
  | case4 => simp [Orderly] at h

/-- The epochs an orderly display shows do not decrease. -/
theorem Orderly.pairwise {epoch : ℕ} {acts : List Act} (h : Orderly epoch acts) :
    (epochs acts).Pairwise (· ≤ ·) := by
  induction epoch, acts using Orderly.induct with
  | case1 => simp [epochs]
  | case2 epoch n msg l ih =>
    obtain ⟨rfl, hrest⟩ := h
    exact List.pairwise_cons.mpr ⟨hrest.le, ih hrest⟩
  | case3 epoch n n' msg l ih =>
    obtain ⟨-, rfl, hrest⟩ := h
    exact List.pairwise_cons.mpr ⟨hrest.le, ih hrest⟩
  | case4 => simp [Orderly] at h

/-- An orderly display is reset once for each newer epoch it shows anything of, and for no
other. -/
theorem Orderly.count_reset {epoch : ℕ} {acts : List Act} (h : Orderly epoch acts) (n : ℕ) :
    acts.count (.reset n) = if epoch < n ∧ n ∈ epochs acts then 1 else 0 := by
  induction epoch, acts using Orderly.induct with
  | case1 => simp [epochs]
  | case2 epoch n' msg l ih =>
    obtain ⟨rfl, hrest⟩ := h
    rw [List.count_cons_of_ne (by simp), ih hrest]
    by_cases hn : n = n'
    · simp [hn]
    · simp [hn]
  | case3 epoch e e' msg l ih =>
    obtain ⟨hlt, rfl, hrest⟩ := h
    by_cases hn : n = e'
    · subst hn
      rw [List.count_cons_self, List.count_cons_of_ne (by simp), ih hrest]
      simp [hlt]
    · rw [List.count_cons_of_ne (by simpa using Ne.symm hn), List.count_cons_of_ne (by simp),
        ih hrest]
      have hle := hrest.le n
      simp only [epochs_reset, epochs_apply, List.mem_cons, hn, false_or]
      by_cases hmem : n ∈ epochs l
      · have := hle hmem
        rw [if_pos ⟨by omega, hmem⟩, if_pos ⟨by omega, hmem⟩]
      · rw [if_neg fun h => hmem h.2, if_neg fun h => hmem h.2]
  | case4 => simp [Orderly] at h

/-! ### Of each epoch, how its stream begins -/

/-- Nothing of an older epoch is shown. -/
theorem applied_actsOf_older {epoch n : ℕ} (h : n < epoch) (l : List FromServer) :
    applied n (actsOf epoch l) = [] := by
  have horder := (actsOf_orderly epoch l).le
  rw [applied, List.filterMap_eq_nil_iff]
  intro act hact
  cases act with
  | reset m => rfl
  | apply m msg =>
    have hmem : m ∈ epochs (actsOf epoch l) := List.mem_filterMap.mpr ⟨_, hact, rfl⟩
    have hle := horder m hmem
    simp only [ite_eq_right_iff, reduceCtorEq, imp_false]
    omega

/-- What the loop applies of an epoch is how what it heard of the epoch begins. -/
theorem applied_actsOf (epoch n : ℕ) (l : List FromServer) :
    applied n (actsOf epoch l) <+: shows n l := by
  induction l generalizing epoch with
  | nil => exact List.prefix_rfl
  | cons x l ih =>
    cases x with
    | read m bytes => exact ih epoch
    | shown m msg =>
      simp only [actsOf, heardActs, heardEpoch]
      split
      · next hlt =>
        by_cases hm : m = n
        · subst hm
          rw [List.nil_append, applied_actsOf_older hlt]
          exact List.nil_prefix
        · simpa [shows, hm] using ih epoch
      · have hrest := ih m
        by_cases hm : m = n
        · subst hm
          split <;> simpa [applied, shows] using hrest
        · split <;> simpa [applied, shows, hm] using hrest

/-! ### Both ends -/

structure EpochStream where
  epoch : ℕ
  /-- Written on it. -/
  msgs : List Shown
  /-- Reset, or finished. -/
  isOver : Bool
  deriving DecidableEq

structure Task where
  /-- Which stream, in the order they were opened. -/
  stream : ℕ
  reader : Reader
  aborted : Bool
  deriving DecidableEq

/-- The server's epochs, and the client that shows them. -/
structure Epochs where
  /-- The newest epoch, and what waits for its writer. -/
  n : ℕ
  queue : List Shown
  streams : List EpochStream
  /-- The streams the client accepted. -/
  accepted : List ℕ
  /-- The newest epoch it reads. -/
  reading : Option ℕ
  /-- The readers that have not stopped. -/
  tasks : List Task
  rx : List FromServer
  /-- The epoch the loop is in. -/
  epoch : ℕ
  /-- The run is over. -/
  left : Bool
  taken : List FromServer
  acts : List Act
  deriving DecidableEq

inductive EpochMove where
  /-- The server: a new epoch is opened, the one before reset; a message is queued, written; the
  stream is finished. -/
  | redraw (shown : List Shown)
  | queue (msg : Shown)
  | write
  | finish
  /-- The client: a stream is accepted, its header read or not; a reader reads a chunk, hands on
  what it read, or stops; the loop takes what was handed on; the run ends. -/
  | accept (stream : ℕ) (isRead : Bool)
  | chunk (task count : ℕ)
  | hand (task : ℕ)
  | stop (task : ℕ)
  | hear
  | quit
  deriving DecidableEq

namespace Epochs

/-- `serve` from `shown`, to a client that accepted no stream yet. -/
def init (shown : List Shown) : Epochs where
  n := 1
  queue := shown
  streams := [⟨1, [], false⟩]
  accepted := []
  reading := none
  tasks := []
  rx := []
  epoch := 0
  left := false
  taken := []
  acts := []

def newest (s : Epochs) (f : EpochStream → EpochStream) : List EpochStream :=
  s.streams.modify (s.streams.length - 1) f

/-- `read_epochs` read the header of stream `i`, of epoch `epoch`: a newer one ends the reading of
the one before. -/
def accepts (s : Epochs) (i epoch : ℕ) : Epochs :=
  if s.reading.any (epoch ≤ ·) then { s with accepted := i :: s.accepted }
  else { s with
    accepted := i :: s.accepted
    reading := some epoch
    tasks := s.tasks.map (fun t => { t with aborted := true }) ++ [⟨i, .new epoch, false⟩] }

def reads (s : Epochs) (j : ℕ) (t : Task) (reader : Reader) : Epochs :=
  { s with tasks := s.tasks.set j { t with reader := reader } }

def step (body : Shown → ℕ) (s : Epochs) : EpochMove → Option Epochs
  | .redraw shown =>
    let n := (s.n + 1) % 2 ^ 32
    some { s with
      n := n
      queue := shown
      streams := s.newest (fun st => { st with isOver := true }) ++ [⟨n, [], false⟩] }
  | .queue msg => some { s with queue := s.queue ++ [msg] }
  | .write =>
    match s.queue with
    | [] => none
    | msg :: queue =>
      if s.streams.getLast?.any (·.isOver) then none
      else some { s with
        queue := queue
        streams := s.newest fun st => { st with msgs := st.msgs ++ [msg] } }
  | .finish =>
    if s.queue = [] then some { s with streams := s.newest fun st => { st with isOver := true } }
    else none
  | .accept i isRead =>
    match s.streams[i]? with
    | none => none
    | some st =>
      if i ∈ s.accepted ∨ s.left then none
      else if isRead then some (s.accepts i st.epoch)
      else if st.isOver then some { s with accepted := i :: s.accepted }
      else none
  | .chunk j count =>
    match s.tasks[j]? with
    | none => none
    | some t =>
      match s.streams[t.stream]? with
      | none => none
      | some st =>
        if t.reader.pending = [] ∧ 0 < count ∧ count ≤ chunkMost ∧
            t.reader.bytes + count ≤ header + total (framed body) st.msgs then
          some (s.reads j t (t.reader.chunk body st.msgs count))
        else none
  | .hand j =>
    match s.tasks[j]? with
    | none => none
    | some t =>
      match t.reader.pending with
      | [] => none
      | x :: pending =>
        if s.rx.length < readerQueue then
          some { s.reads j t { t.reader with pending := pending } with rx := s.rx ++ [x] }
        else none
  | .stop j =>
    match s.tasks[j]? with
    | none => none
    | some t =>
      -- It was aborted, its stream ended, or nothing takes what it hands on.
      if t.aborted ∨ (s.streams[t.stream]?.any (·.isOver)) ∨ s.left then
        some { s with tasks := s.tasks.eraseIdx j }
      else none
  | .hear =>
    match s.rx with
    | [] => none
    | x :: rx =>
      if s.left then none
      else some { s with
        rx := rx
        epoch := heardEpoch s.epoch x
        left := x.isEnd s.epoch
        taken := s.taken ++ [x]
        acts := s.acts ++ heardActs s.epoch x }
  | .quit => some { s with left := true }

/-! ### The invariant -/

/-- Streams that grew: what was written on them, they carry still. -/
def Grows (l l' : List EpochStream) : Prop :=
  ∀ (i : ℕ) (st : EpochStream), l[i]? = some st →
    ∃ st' : EpochStream, l'[i]? = some st' ∧ st'.epoch = st.epoch ∧ st.msgs <+: st'.msgs

theorem Grows.refl (l : List EpochStream) : Grows l l :=
  fun _ st h => ⟨st, h, rfl, List.prefix_rfl⟩

/-- A stream more leaves the others as they are. -/
theorem grows_append (l l' : List EpochStream) : Grows l (l ++ l') := by
  intro i st h
  refine ⟨st, ?_, rfl, List.prefix_rfl⟩
  rw [List.getElem?_append_left (List.getElem?_eq_some_iff.mp h).1, h]

/-- What grew twice has grown. -/
theorem Grows.trans {l l' l'' : List EpochStream} (h : Grows l l') (h' : Grows l' l'') :
    Grows l l'' := by
  intro i st hi
  obtain ⟨st', hi', hepoch, hmsgs⟩ := h i st hi
  obtain ⟨st'', hi'', hepoch', hmsgs'⟩ := h' i st' hi'
  exact ⟨st'', hi'', hepoch'.trans hepoch, hmsgs.trans hmsgs'⟩

/-- A change of the newest stream that only adds messages makes the streams grow. -/
theorem grows_newest (s : Epochs) {f : EpochStream → EpochStream}
    (hf : ∀ st, (f st).epoch = st.epoch ∧ st.msgs <+: (f st).msgs) :
    Grows s.streams (s.newest f) := by
  intro i st h
  simp only [newest, List.getElem?_modify, h]
  split
  · exact ⟨f st, rfl, hf st⟩
  · exact ⟨st, rfl, rfl, List.prefix_rfl⟩

/-- All that readers handed on, taken or not. -/
def sent (s : Epochs) : List FromServer := s.taken ++ s.rx

/-- What a task knows: it read how its stream begins, and handed on what it read. -/
structure Reads (body : Shown → ℕ) (streams : List EpochStream) (reading : Option ℕ)
    (sent : List FromServer) (t : Task) : Prop where
  hstream : ∃ st, streams[t.stream]? = some st ∧ st.epoch = t.reader.epoch ∧
    t.reader.decoded = whole (framed body) st.msgs (t.reader.bytes - header) ∧
    t.reader.bytes - header ≤ total (framed body) st.msgs
  hreading : ∃ n, reading = some n ∧ t.reader.epoch ≤ n
  hsent : shows t.reader.epoch sent ++ shows t.reader.epoch t.reader.pending = t.reader.decoded
  hpending : ∀ x ∈ t.reader.pending, x.epoch = t.reader.epoch

structure Inv (body : Shown → ℕ) (s : Epochs) : Prop where
  htasks : ∀ t ∈ s.tasks, Reads body s.streams s.reading s.sent t
  hdistinct : (s.tasks.map (·.reader.epoch)).Nodup
  hbelow : ∀ x ∈ s.sent, ∃ n, s.reading = some n ∧ x.epoch ≤ n
  hsource : ∀ e, shows e s.sent = [] ∨
    ∃ st ∈ s.streams, st.epoch = e ∧ shows e s.sent <+: st.msgs
  hacts : s.acts = actsOf 0 s.taken ∧ s.epoch = s.taken.foldl heardEpoch 0

variable {body : Shown → ℕ} {s s' : Epochs}

/-- The invariant holds at the start. -/
theorem inv_init (shown : List Shown) : (init shown).Inv body :=
  ⟨by simp [init], by simp [init], by simp [init, sent], fun e => .inl rfl, rfl, rfl⟩

theorem framed_pos (body : Shown → ℕ) (msg : Shown) : 0 < framed body msg := by
  simp only [framed]
  omega

/-- What a task knows outlasts what the server writes. -/
theorem Reads.grows {streams streams' : List EpochStream} {reading : Option ℕ}
    {sent : List FromServer} {t : Task} (h : Reads body streams reading sent t)
    (hgrows : Grows streams streams') : Reads body streams' reading sent t := by
  obtain ⟨st, hi, hepoch, hdecoded, hbytes⟩ := h.hstream
  obtain ⟨st', hi', hepoch', hmsgs⟩ := hgrows _ _ hi
  obtain ⟨rest, hrest⟩ := hmsgs
  refine ⟨⟨st', hi', hepoch'.trans hepoch, ?_, ?_⟩, h.hreading, h.hsent, h.hpending⟩
  · rw [← hrest, whole_append (framed_pos body) hbytes, hdecoded]
  · rw [← hrest, total_append]
    omega

/-- What the server writes keeps the invariant. -/
theorem Inv.grows (h : s.Inv body) {n : ℕ} {queue : List Shown} {streams : List EpochStream}
    (hgrows : Grows s.streams streams) :
    Inv body { s with n := n, queue := queue, streams := streams } := by
  refine ⟨fun t ht => (h.htasks t ht).grows hgrows, h.hdistinct, h.hbelow, fun e => ?_, h.hacts⟩
  refine (h.hsource e).imp_right ?_
  rintro ⟨st, hst, hepoch, hprefix⟩
  obtain ⟨i, hi⟩ := List.mem_iff_getElem?.mp hst
  obtain ⟨st', hi', hepoch', hmsgs⟩ := hgrows i st hi
  exact ⟨st', List.mem_of_getElem? hi', hepoch'.trans hepoch, hprefix.trans hmsgs⟩

/-- An older epoch's tasks know what they knew. -/
theorem Reads.newer {streams : List EpochStream} {reading : Option ℕ} {sent : List FromServer}
    {t : Task} (h : Reads body streams reading sent t) {n : ℕ} (hn : ∀ m ∈ reading, m ≤ n)
    (aborted : Bool) : Reads body streams (some n) sent { t with aborted := aborted } := by
  obtain ⟨m, hm, hle⟩ := h.hreading
  exact ⟨h.hstream, ⟨n, rfl, hle.trans (hn m hm)⟩, h.hsent, h.hpending⟩

/-- Items of other epochs show nothing of this one. -/
theorem shows_eq_nil {e : ℕ} {l : List FromServer} (h : ∀ x ∈ l, x.epoch ≠ e) : shows e l = [] := by
  rw [shows, List.filterMap_eq_nil_iff]
  intro x hx
  have hne := h x hx
  cases x with
  | shown n msg => simpa [FromServer.epoch] using hne
  | read n bytes => rfl

/-- A stream of a newer epoch is read from its start. -/
theorem Inv.accepts (h : s.Inv body) {i : ℕ} {st : EpochStream} (hst : s.streams[i]? = some st) :
    (s.accepts i st.epoch).Inv body := by
  simp only [Epochs.accepts]
  split
  · exact ⟨h.htasks, h.hdistinct, h.hbelow, h.hsource, h.hacts⟩
  next hnewer =>
  have hlt : ∀ m ∈ s.reading, m < st.epoch := by
    intro m hm
    have := hnewer
    simp only [Option.mem_def.mp hm, Option.any_some, decide_eq_true_eq] at this
    omega
  have hold : ∀ x ∈ s.sent, x.epoch ≠ st.epoch := by
    intro x hx
    obtain ⟨m, hm, hle⟩ := h.hbelow x hx
    have := hlt m hm
    omega
  refine ⟨fun t ht => ?_, ?_, fun x hx => ?_, h.hsource, h.hacts⟩
  · rcases List.mem_append.mp ht with ht | ht
    · obtain ⟨t', ht', rfl⟩ := List.mem_map.mp ht
      exact (h.htasks t' ht').newer (fun m hm => (hlt m hm).le) true
    · obtain rfl := List.mem_singleton.mp ht
      refine ⟨⟨st, hst, rfl, ?_, ?_⟩, ⟨st.epoch, rfl, le_rfl⟩, ?_, by simp [Reader.new]⟩
      · simp [Reader.new, whole_zero (framed_pos body)]
      · simp [Reader.new]
      · exact (List.append_nil _).trans (shows_eq_nil hold)
  · rw [List.map_append, List.map_map]
    refine List.nodup_append.mpr ⟨h.hdistinct, by simp, ?_⟩
    intro e he e' he'
    obtain rfl : e' = st.epoch := by simpa [Reader.new] using he'
    obtain ⟨t, ht, rfl⟩ := List.mem_map.mp he
    obtain ⟨m, hm, hle⟩ := (h.htasks t ht).hreading
    exact (hle.trans_lt (hlt m hm)).ne
  · obtain ⟨m, hm, hle⟩ := h.hbelow x hx
    exact ⟨st.epoch, rfl, hle.trans (hlt m hm).le⟩

/-- The epochs of tasks at two places are two. -/
theorem Inv.epoch_ne (h : s.Inv body) {i j : ℕ} {t t' : Task} (hi : s.tasks[i]? = some t)
    (hj : s.tasks[j]? = some t') (hne : i ≠ j) : t.reader.epoch ≠ t'.reader.epoch := by
  intro heq
  obtain ⟨hilt, hi⟩ := List.getElem?_eq_some_iff.mp hi
  obtain ⟨hjlt, hj⟩ := List.getElem?_eq_some_iff.mp hj
  have hi' : i < (s.tasks.map (·.reader.epoch)).length := by simpa
  have hj' : j < (s.tasks.map (·.reader.epoch)).length := by simpa
  refine hne ((@List.Nodup.getElem_inj_iff _ _ h.hdistinct i hi' j hj').mp ?_)
  simpa [hi, hj] using heq

/-- A task's reader goes on, and hands on what it does. -/
theorem Inv.reads (h : s.Inv body) {j : ℕ} {t : Task} (hj : s.tasks[j]? = some t)
    {reader : Reader} {handed : List FromServer} (hepoch : reader.epoch = t.reader.epoch)
    (hhanded : ∀ x ∈ handed, x.epoch = t.reader.epoch)
    (hreads : Reads body s.streams s.reading (s.sent ++ handed) { t with reader := reader }) :
    Inv body { s.reads j t reader with rx := s.rx ++ handed } := by
  have hsent : sent { s.reads j t reader with rx := s.rx ++ handed } = s.sent ++ handed := by
    simp [sent, Epochs.reads]
  have hshows : ∀ e, e ≠ t.reader.epoch → shows e (s.sent ++ handed) = shows e s.sent := by
    intro e he
    have hnil : shows e handed = [] :=
      shows_eq_nil fun x hx => by rw [hhanded x hx]; exact Ne.symm he
    rw [shows_append, hnil, List.append_nil]
  refine ⟨fun t' ht' => ?_, ?_, fun x hx => ?_, fun e => ?_, h.hacts⟩
  · rw [hsent]
    obtain ⟨i, hi⟩ := List.mem_iff_getElem?.mp ht'
    simp only [Epochs.reads, List.getElem?_set] at hi
    split at hi
    · split at hi <;> cases hi
      exact hreads
    · next hne =>
      have hother := h.htasks t' (List.mem_of_getElem? hi)
      refine ⟨hother.hstream, hother.hreading, ?_, hother.hpending⟩
      rw [hshows _ (h.epoch_ne hi hj (Ne.symm hne)), hother.hsent]
  · obtain ⟨hlt, hj'⟩ := List.getElem?_eq_some_iff.mp hj
    have hsame : (s.tasks.set j { t with reader := reader }).map (·.reader.epoch) =
        s.tasks.map (·.reader.epoch) := by
      rw [List.map_set]
      refine List.ext_getElem (by simp) fun i hi hi' => ?_
      rw [List.getElem_set]
      split
      · next heq =>
        subst heq
        simp [hepoch, hj']
      · rfl
    exact hsame ▸ h.hdistinct
  · rw [hsent, List.mem_append] at hx
    rcases hx with hx | hx
    · exact h.hbelow x hx
    · obtain ⟨n, hn, hle⟩ := hreads.hreading
      exact ⟨n, hn, by rw [hhanded x hx, ← hepoch]; exact hle⟩
  · rw [hsent]
    by_cases he : e = t.reader.epoch
    · obtain ⟨st, hst, hstEpoch, hdecoded, -⟩ := hreads.hstream
      refine .inr ⟨st, List.mem_of_getElem? hst, hstEpoch.trans (hepoch.trans he.symm), ?_⟩
      have hall := hreads.hsent
      simp only [hepoch, ← he] at hall
      refine List.IsPrefix.trans ⟨_, hall⟩ ?_
      rw [hdecoded]
      exact whole_isPrefix _ _ _
    · rw [hshows e he]
      exact h.hsource e

/-- A stream's own items show its messages. -/
theorem shows_map_shown (e : ℕ) (msgs : List Shown) : shows e (msgs.map (.shown e)) = msgs := by
  simp [shows]

/-- A chunk read keeps the invariant. -/
theorem Inv.chunk (h : s.Inv body) {j count : ℕ} {t : Task} {st : EpochStream}
    (hj : s.tasks[j]? = some t) (hst : s.streams[t.stream]? = some st)
    (hpending : t.reader.pending = [])
    (hbytes : t.reader.bytes + count ≤ header + total (framed body) st.msgs) :
    (s.reads j t (t.reader.chunk body st.msgs count)).Inv body := by
  have hold := h.htasks t (List.mem_of_getElem? hj)
  obtain ⟨st', hst', hepoch, hdecoded, hfits⟩ := hold.hstream
  obtain rfl : st' = st := Option.some.inj (hst'.symm.trans hst)
  have hmore : t.reader.decoded <+:
      whole (framed body) st'.msgs (t.reader.bytes + count - header) := by
    rw [hdecoded]
    exact whole_mono (by omega)
  have hreads : Reads body s.streams s.reading s.sent
      { t with reader := t.reader.chunk body st'.msgs count } := by
    refine ⟨⟨st', hst, hepoch, rfl, by simp only [Reader.chunk]; omega⟩, hold.hreading, ?_,
      fun x hx => ?_⟩
    · have hsent : shows t.reader.epoch s.sent = t.reader.decoded := by
        simpa [hpending, shows] using hold.hsent
      have hread : shows t.reader.epoch [.read t.reader.epoch (t.reader.bytes + count)] = [] := rfl
      simp only [Reader.chunk, hsent, shows_append, shows_map_shown, hread, List.append_nil]
      obtain ⟨rest, hrest⟩ := hmore
      rw [← hrest, List.drop_left]
    · simp only [Reader.chunk, List.mem_append, List.mem_map, List.mem_singleton] at hx
      rcases hx with ⟨msg, -, rfl⟩ | rfl <;> rfl
  have hinv : Inv body { s.reads j t (t.reader.chunk body st'.msgs count) with rx := s.rx ++ [] } :=
    h.reads hj rfl (by simp) (by rwa [List.append_nil])
  rwa [List.append_nil] at hinv

/-- What a reader hands on keeps the invariant. -/
theorem Inv.hand (h : s.Inv body) {j : ℕ} {t : Task} {x : FromServer} {pending : List FromServer}
    (hj : s.tasks[j]? = some t) (hpending : t.reader.pending = x :: pending) :
    Inv body { s.reads j t { t.reader with pending := pending } with rx := s.rx ++ [x] } := by
  have hold := h.htasks t (List.mem_of_getElem? hj)
  have hx : x.epoch = t.reader.epoch := hold.hpending x (by simp [hpending])
  refine h.reads hj rfl (by simpa using hx) ⟨hold.hstream, hold.hreading, ?_, fun y hy => ?_⟩
  · have hall := hold.hsent
    rw [hpending] at hall
    simpa only [shows, ← List.filterMap_append, List.append_assoc, List.singleton_append]
      using hall
  · exact hold.hpending y (by simp [hpending, show y ∈ pending from hy])

/-- Every move keeps the invariant. -/
theorem step_inv {m : EpochMove} (h : s.Inv body) (hstep : step body s m = some s') :
    s'.Inv body := by
  cases m with
  | redraw shown =>
    cases hstep
    refine h.grows (Grows.trans ?_ (grows_append _ _))
    exact grows_newest s fun st => ⟨rfl, List.prefix_rfl⟩
  | queue msg =>
    cases hstep
    exact h.grows (.refl _)
  | write =>
    simp only [step] at hstep
    split at hstep
    · cases hstep
    · split at hstep <;> cases hstep
      exact h.grows (grows_newest s fun st => ⟨rfl, List.prefix_append _ _⟩)
  | finish =>
    simp only [step] at hstep
    split at hstep <;> cases hstep
    exact h.grows (grows_newest s fun st => ⟨rfl, List.prefix_rfl⟩)
  | accept i isRead =>
    simp only [step] at hstep
    split at hstep
    · cases hstep
    next st hst =>
    split at hstep
    · cases hstep
    split at hstep
    · cases hstep
      exact h.accepts hst
    · split at hstep <;> cases hstep
      exact ⟨h.htasks, h.hdistinct, h.hbelow, h.hsource, h.hacts⟩
  | chunk j count =>
    simp only [step] at hstep
    split at hstep
    · cases hstep
    next t hj =>
    split at hstep
    · cases hstep
    next st hst =>
    split at hstep <;> cases hstep
    next hchunk => exact h.chunk hj hst hchunk.1 hchunk.2.2.2
  | hand j =>
    simp only [step] at hstep
    split at hstep
    · cases hstep
    next t hj =>
    split at hstep
    · cases hstep
    next x pending hpending =>
    split at hstep <;> cases hstep
    exact h.hand hj hpending
  | stop j =>
    simp only [step] at hstep
    split at hstep
    · cases hstep
    split at hstep <;> cases hstep
    have hsub := List.eraseIdx_sublist s.tasks j
    exact ⟨fun t ht => h.htasks t (hsub.subset ht), h.hdistinct.sublist (hsub.map _), h.hbelow,
      h.hsource, h.hacts⟩
  | hear =>
    simp only [step] at hstep
    split at hstep
    · cases hstep
    next x rx hrx =>
    split at hstep <;> cases hstep
    have hsent : s.taken ++ [x] ++ rx = s.sent := by simp [sent, hrx]
    refine ⟨fun t ht => ?_, h.hdistinct, fun y hy => ?_, fun e => ?_, ?_, ?_⟩
    · simpa only [sent, hsent] using h.htasks t ht
    · exact h.hbelow y (by simpa only [sent, hsent] using hy)
    · simpa only [sent, hsent] using h.hsource e
    · simp only [actsOf_snoc, ← h.hacts.1, ← h.hacts.2]
    · simp [List.foldl_append, ← h.hacts.2]
  | quit =>
    cases hstep
    exact ⟨h.htasks, h.hdistinct, h.hbelow, h.hsource, h.hacts⟩

/-- In whatever order streams are accepted and read, and whenever readers that were aborted stop,
the epochs shown do not decrease; the display is reset once for each newer epoch shown, just before
its first message; and what is applied of an epoch is how the stream it was read from begins. -/
theorem shown_in_order {shown : List Shown} (h : Reachable (step body) (init shown) s) :
    (epochs s.acts).Pairwise (· ≤ ·) ∧ Orderly 0 s.acts ∧
      (∀ n, s.acts.count (.reset n) = if 0 < n ∧ n ∈ epochs s.acts then 1 else 0) ∧
      ∀ n, applied n s.acts = [] ∨
        ∃ st ∈ s.streams, st.epoch = n ∧ applied n s.acts <+: st.msgs := by
  have hinv := h.invariant (·.Inv body) (inv_init shown) fun _ _ _ hinv _ hstep =>
    step_inv hinv hstep
  have horder : Orderly 0 s.acts := by
    rw [hinv.hacts.1]
    exact actsOf_orderly 0 s.taken
  refine ⟨horder.pairwise, horder, horder.count_reset, fun n => ?_⟩
  have happlied : applied n s.acts <+: shows n s.sent := by
    rw [hinv.hacts.1]
    refine (applied_actsOf 0 n s.taken).trans ?_
    rw [sent, shows_append]
    exact List.prefix_append _ _
  rcases hinv.hsource n with hnil | ⟨st, hst, hepoch, hprefix⟩
  · rw [hnil] at happlied
    exact .inl (List.prefix_nil.mp happlied)
  · exact .inr ⟨st, hst, hepoch, happlied.trans hprefix⟩

/-- The first epoch's reader, aborted, hands on its message after the second's has. -/
def late : List EpochMove :=
  [.write, .accept 0 true, .chunk 0 5, .redraw [.bell 2], .write, .accept 1 true, .chunk 1 5,
    .hand 1, .hand 0, .hear, .hear, .stop 0]

/-- The older epoch's message, read late, is dropped. -/
theorem shown_in_order_late : ∃ s, Reachable (step fun _ => 1) (init [.bell 1]) s ∧
    s.taken = [.shown 2 (.bell 2), .shown 1 (.bell 1)] ∧
    s.acts = [.reset 2, .apply 2 (.bell 2)] ∧ (epochs s.acts).Pairwise (· ≤ ·) := by
  have hrun : (runWhile (step fun _ => 1) (fun _ _ => True) (init [.bell 1]) late).map
      (fun s => (s.taken, s.acts)) = some ([.shown 2 (.bell 2), .shown 1 (.bell 1)],
        [.reset 2, .apply 2 (.bell 2)]) := by
    decide +kernel
  obtain ⟨s, hs, hall⟩ := Option.map_eq_some_iff.mp hrun
  simp only [Prod.mk.injEq] at hall
  have hreach := reaches_of_run hs
  exact ⟨s, hreach, hall.1, hall.2, (shown_in_order hreach).1⟩

/-- In every run no two readers read one epoch, each has decoded how the messages of its stream
begin, and what was handed on is of no newer epoch than the newest that is read. -/
theorem readers_apart {shown : List Shown} (h : Reachable (step body) (init shown) s) :
    (s.tasks.map (·.reader.epoch)).Nodup ∧
      (∀ t ∈ s.tasks, ∃ st, s.streams[t.stream]? = some st ∧ st.epoch = t.reader.epoch ∧
        t.reader.decoded <+: st.msgs) ∧
      ∀ x ∈ s.sent, ∃ n, s.reading = some n ∧ x.epoch ≤ n := by
  have hinv := h.invariant (·.Inv body) (inv_init shown) fun _ _ _ hinv _ hstep =>
    step_inv hinv hstep
  refine ⟨hinv.hdistinct, fun t ht => ?_, hinv.hbelow⟩
  obtain ⟨st, hstream, hepoch, hdecoded, -⟩ := (hinv.htasks t ht).hstream
  refine ⟨st, hstream, hepoch, ?_⟩
  rw [hdecoded]
  exact whole_isPrefix _ _ _

/-- In `readers_apart`, two readers. -/
theorem readers_apart_late : ∃ s, Reachable (step fun _ => 1) (init [.bell 1]) s ∧
    s.tasks.map (·.reader.epoch) = [1, 2] ∧ (s.tasks.map (·.reader.epoch)).Nodup := by
  obtain ⟨s, hs, hepochs⟩ := Option.map_eq_some_iff.mp
    (show (runWhile (step fun _ => 1) (fun _ _ => True) (init [.bell 1]) (late.take 9)).map
      (fun s => s.tasks.map (·.reader.epoch)) = some [1, 2] by decide +kernel)
  have hreach := reaches_of_run hs
  exact ⟨s, hreach, hepochs, (readers_apart hreach).1⟩

end Epochs

end Koh.Client
