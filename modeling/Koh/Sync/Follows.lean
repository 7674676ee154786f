import Koh.Sync.Hears
import Koh.Sync.System

/-!
# A sender and its script

The sender's thread, whatever it waits for and however its output is gathered,
writes what its script has next.

## Main definitions

- `Out.items`: what is written and not yet taken
- `Follows`: a sender, with the replies on their way to it, is where a script is

## Main results

- `Follows.step`: what the sender does next, its script does
-/

namespace Koh.Sync

open Lib

/-! ### What is written -/

namespace Out

/-- What is written and not yet taken, the first of it first. -/
def items (out : Out) : List Item := out.pipe.flatten ++ out.buf

variable {size : Item → ℕ} {there : Bool} {i : Item} {out out' : Out}

/-- A flush writes the bytes that were held. -/
theorem flush_went (h : out.flush there = .went out') : out'.items = out.items ∧ out'.buf = [] := by
  unfold flush at h
  split at h
  · next hempty =>
    cases h
    exact ⟨rfl, List.isEmpty_iff.mp hempty⟩
  · split at h
    · cases h
    · split at h
      · cases h
        simp [items]
      · cases h

/-- It fails only if the other end is gone. -/
theorem flush_gone (h : out.flush there = .gone) : there = false := by
  unfold flush at h
  split at h
  · cases h
  · split at h
    · assumption
    · split at h <;> cases h

/-- An item is written. -/
theorem item_went (h : out.item size there i = .went out') : out'.items = out.items ++ [i] := by
  unfold item at h
  split at h
  · cases hflush : flush there out with
    | went mid =>
      rw [hflush] at h
      cases h
      rw [← (flush_went hflush).1]
      simp [items, push]
    | full => simp [hflush] at h
    | gone => simp [hflush] at h
  · cases h
    simp [items, push]

/-- It fails only if the other end is gone. -/
theorem item_gone (h : out.item size there i = .gone) : there = false := by
  unfold item at h
  split at h
  · cases hflush : flush there out with
    | went mid => simp [hflush] at h
    | full => simp [hflush] at h
    | gone => exact flush_gone hflush
  · cases h

/-- With room in the channel, or nobody to read it, nothing waits. -/
theorem flush_ne_full (h : there = false ∨ out.pipe.length < pipeDepth) : out.flush there ≠ .full := by
  unfold flush
  rcases h with rfl | h
  · split <;> simp
  · split
    · simp
    · split
      · simp
      · simp

/-- There is room, or no one to wait for. -/
theorem item_ne_full (h : there = false ∨ out.pipe.length < pipeDepth) :
    out.item size there i ≠ .full := by
  unfold item
  split
  · cases hflush : flush there out with
    | full => exact absurd hflush (flush_ne_full h)
    | went mid => simp
    | gone => simp
  · simp

end Out

/-! ### Where the sender is -/

def answersIn (replies : List Reply) : List Answer :=
  replies.filterMap fun
    | .answer a => some a
    | .over _ => none

@[simp] theorem answersIn_answer (a : Answer) (replies : List Reply) :
    answersIn (.answer a :: replies) = a :: answersIn replies := rfl

@[simp] theorem answersIn_over (o : Except Failure Summary) (replies : List Reply) :
    answersIn (.over o :: replies) = answersIn replies := rfl

/-- The answers among two lists of replies. -/
theorem answersIn_append (replies more : List Reply) :
    answersIn (replies ++ more) = answersIn replies ++ answersIn more :=
  List.filterMap_append

namespace Sender

def acting (s : Sender) : Option Answer :=
  match s.phase with
  | .acting a => some a
  | _ => none

/-- The file whose bytes it sends, and from where on. -/
def within (s : Sender) : Option (SourceFile × ℕ) :=
  match s.phase with
  | .reading file _ offset => some (file, offset)
  | _ => none

/-- It wrote its last item. -/
def spoke (s : Sender) : Bool :=
  match s.phase with
  | .closing _ | .listening _ | .over _ => true
  | _ => false

/-- It takes answers and does not act on them any more. -/
def deaf (s : Sender) : Bool :=
  match s.phase with
  | .listening _ | .over _ => true
  | _ => false

/-- It goes on to its last item, files it held or not. -/
def stopping (s : Sender) : Bool :=
  match s.phase with
  | .ending (.error _) | .closing _ | .listening _ | .over _ => true
  | _ => false

/-- What an end says of why it ended is not the other's fault. -/
def CivilEnd {α : Type} : Except Failure α → Prop
  | .ok _ => True
  | .error failure => Civil failure

/-- What holds of each of its phases: a window's headers at most are unanswered,
it waits for an answer only if one is owed, and it ends well only once all went. -/
def Fair (s : Sender) : Prop :=
  match s.phase with
  | .walking | .polling | .reading .. => s.pending.length < WINDOW
  | .flushing | .waiting => s.pending ≠ []
  | .acting _ => True
  | .ending sent => CivilEnd sent ∧ (sent = .ok () → s.todo = [] ∧ s.pending = [])
  | .closing sent | .listening sent => CivilEnd sent
  | .over outcome => CivilEnd outcome

end Sender

/-- The sender holds the files of `held`, but for some that it failed at, and has
heard the answers to it, but for those on their way. -/
def Holds (n : Sender) (replies : List Reply) (held : List Held) : Prop :=
  ∃ lost kept heard, held = lost ++ kept ∧ n.pending = kept.map Prod.fst ∧
    kept.filterMap Prod.snd = heard ++ n.acting.toList ++ answersIn replies ∧
    (∀ x ∈ lost, x.2.isSome) ∧ (n.stopping = false → lost = []) ∧ (n.deaf = false → heard = [])

/-- The sender, with the replies on their way to it, is where the script is. -/
structure Follows (n : Sender) (replies : List Reply) (s : Script) : Prop where
  todo : n.todo = s.todo
  next : n.next = s.next
  holds : Holds n replies s.held
  within : n.within = s.reading
  spoke : n.spoke = s.finished
  fair : n.Fair

variable {size : Item → ℕ} {digest : Bytes → Bytes} {dry there : Bool} {n n' : Sender} {out out' : Out}
  {replies replies' : List Reply} {s : Script}

/-- What the sender did is what its script has next, unless the stream is gone. -/
def Wrote (digest : Bytes → Bytes) (dry there : Bool) (out out' : Out) (s s' : Script) : Prop :=
  there = true → ∃ items, out'.items = out.items ++ items ∧ Way (Script.Writes digest dry) s items s'

theorem Wrote.none (h : out'.items = out.items) : Wrote digest dry there out out' s s :=
  fun _ => ⟨[], by simpa using h, .nil s⟩

/-- One item is written, as the script has it. -/
theorem Wrote.one {i : Item} {s' : Script} (hitem : out.item size there i = .went out')
    (h : s.Writes digest dry i s') : Wrote digest dry there out out' s s' :=
  fun _ => ⟨[i], Out.item_went hitem, .cons h (.nil _)⟩

/-- What `put` does: the item goes, or the stream is gone. -/
theorem put_cases {m m' : Sender} {i : Item} (h : Sender.put size there m out i m' = some (n', out')) :
    n' = m' ∧ out.item size there i = .went out' ∨
      there = false ∧ n' = { m with phase := .ending (.error cut) } ∧ out' = out := by
  unfold Sender.put at h
  split at h
  · next hitem =>
    cases h
    exact .inl ⟨rfl, hitem⟩
  · cases h
  · next hitem =>
    cases h
    exact .inr ⟨Out.item_gone hitem, rfl, rfl⟩

theorem civil_cut : Civil cut := by simp [Civil, cut, Failure.new]

/-! ### What it does next -/

/-- The sender goes on as `n'`, and so does its script. -/
def Goes (digest : Bytes → Bytes) (dry there : Bool) (out out' : Out) (replies : List Reply)
    (n' : Sender) (s : Script) : Prop :=
  ∃ s', s'.Sound ∧ Follows n' replies s' ∧ n'.dryRun = dry ∧ Wrote digest dry there out out' s s'

/-- With nothing to say of a file the script is between files. -/
theorem Follows.between (h : Follows n replies s) (hwithin : n.within = none) (hspoke : n.spoke = false) :
    s.Between :=
  ⟨h.within.symm.trans hwithin, h.spoke.symm.trans hspoke⟩

/-- While it goes on, all the files held are the sender's. -/
theorem Follows.going (h : Follows n replies s) (hstop : n.stopping = false) (hdeaf : n.deaf = false) :
    n.pending = s.held.map Prod.fst ∧
      s.held.filterMap Prod.snd = n.acting.toList ++ answersIn replies := by
  obtain ⟨lost, kept, heard, hheld, hpending, hkept, -, hlost, hheard⟩ := h.holds
  rw [hheld, hlost hstop, List.nil_append]
  rw [hheard hdeaf, List.nil_append] at hkept
  exact ⟨hpending, hkept⟩

/-- All the files held are the sender's. -/
theorem holds_all {held : List Held} (hpending : n.pending = held.map Prod.fst)
    (hanswers : held.filterMap Prod.snd = n.acting.toList ++ answersIn replies) :
    Holds n replies held :=
  ⟨[], held, [], rfl, hpending, hanswers, by simp, fun _ => rfl, fun _ => rfl⟩

/-- The sender goes on to another phase. -/
theorem Follows.turn (h : Follows n replies s) (hacting : n.acting = none) (hdeaf : n.deaf = false)
    {p : Phase} {reading : Option (SourceFile × ℕ)} {finished : Bool}
    (hacting' : Sender.acting { n with phase := p } = none)
    (hwithin : Sender.within { n with phase := p } = reading)
    (hspoke : Sender.spoke { n with phase := p } = finished)
    (hstop : n.stopping = true → Sender.stopping { n with phase := p } = true)
    (hfair : Sender.Fair { n with phase := p }) :
    Follows { n with phase := p } replies { s with reading := reading, finished := finished } := by
  obtain ⟨lost, kept, heard, hheld, hpending, hkept, hsome, hlost, hheard⟩ := h.holds
  rw [hacting] at hkept
  refine ⟨h.todo, h.next, ⟨lost, kept, heard, hheld, hpending, ?_, hsome, fun hno => ?_,
    fun _ => hheard hdeaf⟩, hwithin, hspoke, hfair⟩
  · rw [hacting']
    exact hkept
  · refine hlost ?_
    cases hstopping : n.stopping with
    | false => rfl
    | true => exact absurd (hno.symm.trans (hstop hstopping)) (by simp)

/-- A turn at which nothing is written. -/
theorem Follows.quiet (h : Follows n replies s) (hs : s.Sound) (hacting : n.acting = none)
    (hdeaf : n.deaf = false) (hdry : n.dryRun = dry) {p : Phase}
    (hacting' : Sender.acting { n with phase := p } = none)
    (hwithin : Sender.within { n with phase := p } = n.within)
    (hspoke : Sender.spoke { n with phase := p } = n.spoke)
    (hstop : n.stopping = true → Sender.stopping { n with phase := p } = true)
    (hfair : Sender.Fair { n with phase := p }) (hitems : out'.items = out.items) :
    Goes digest dry there out out' replies { n with phase := p } s :=
  ⟨s, hs, h.turn hacting hdeaf hacting' (hwithin.trans h.within) (hspoke.trans h.spoke) hstop hfair,
    hdry, .none hitems⟩

/-- The stream gone, the copy is cut short. -/
theorem Follows.gone (h : Follows n replies s) (hs : s.Sound) (hacting : n.acting = none)
    (hdeaf : n.deaf = false) (hdry : n.dryRun = dry) (hthere : there = false) :
    Goes digest dry there out out' replies { n with phase := .ending (.error cut) } s :=
  ⟨_, hs.ends none false, h.turn hacting hdeaf rfl rfl rfl (fun _ => rfl) ⟨civil_cut, by simp⟩, hdry,
    fun ht => absurd (hthere.symm.trans ht) (by simp)⟩

/-- The next entry, or the end of them. -/
theorem Follows.walkOn (h : Follows n replies s) (hs : s.Sound) (hphase : n.phase = .walking)
    (hdry : n.dryRun = dry) (hstep : n.walkOn size there out = some (n', out')) :
    Goes digest dry there out out' replies n' s := by
  have hacting : n.acting = none := by simp [Sender.acting, hphase]
  have hdeaf : n.deaf = false := by simp [Sender.deaf, hphase]
  have hstop : n.stopping = false := by simp [Sender.stopping, hphase]
  have hwithin : n.within = none := by simp [Sender.within, hphase]
  have hspoke : n.spoke = false := by simp [Sender.spoke, hphase]
  have hstops : ∀ {p : Phase}, n.stopping = true → Sender.stopping { n with phase := p } = true :=
    fun hyes => absurd (hstop.symm.trans hyes) (by simp)
  have hbetween := h.between hwithin hspoke
  obtain ⟨hpending, hanswers⟩ := h.going hstop hdeaf
  rw [hacting, Option.toList_none, List.nil_append] at hanswers
  have hfair := h.fair
  have hlen : s.held.length = n.pending.length := by rw [hpending, List.length_map]
  simp only [Sender.Fair, hphase] at hfair
  unfold Sender.walkOn at hstep
  split at hstep
  · next hnil =>
    cases hstep
    split
    · next hempty =>
      exact h.quiet hs hacting hdeaf hdry rfl hwithin.symm hspoke.symm hstops
        ⟨trivial, fun _ => ⟨hnil, List.isEmpty_iff.mp hempty⟩⟩ rfl
    · next hempty =>
      refine h.quiet hs hacting hdeaf hdry rfl hwithin.symm hspoke.symm hstops ?_ rfl
      simpa [Sender.Fair] using hempty
  · next i todo htodo =>
    have htodo' := h.todo.symm.trans htodo
    rcases put_cases hstep with ⟨rfl, hwent⟩ | ⟨hthere, rfl, rfl⟩
    · refine ⟨_, hs.walks htodo' (by simp), ?_, hdry, .one hwent (.item hbetween htodo')⟩
      refine ⟨rfl, h.next, h.holds, h.within, h.spoke, ?_⟩
      simpa [Sender.Fair, hphase] using hfair
    · exact h.gone hs hacting hdeaf hdry hthere
  · next name target todo htodo =>
    have htodo' := h.todo.symm.trans htodo
    rcases put_cases hstep with ⟨rfl, hwent⟩ | ⟨hthere, rfl, rfl⟩
    · refine ⟨_, hs.walks htodo' (by simp), ?_, hdry, .one hwent (.symlink hbetween htodo')⟩
      exact ⟨rfl, h.next, holds_all hpending hanswers, hwithin.symm.trans h.within,
        hspoke.symm.trans h.spoke, hfair⟩
    · exact h.gone hs hacting hdeaf hdry hthere
  · next file name path todo htodo =>
    have htodo' := h.todo.symm.trans htodo
    rcases put_cases hstep with ⟨rfl, hwent⟩ | ⟨hthere, rfl, rfl⟩
    · have hroom : s.held.length < WINDOW := hlen ▸ hfair
      rw [h.next] at hwent
      refine ⟨_, @Script.Sound.push _ file path (hs.walks htodo' (by simp)) hroom, ?_, hdry,
        .one hwent (.header hbetween htodo' hroom)⟩
      have hheld : n.pending ++ [(⟨n.next, file, path⟩ : Awaiting)] =
          (s.held ++ [((⟨s.next, file, path⟩ : Awaiting), none)]).map Prod.fst := by
        simp [hpending, h.next]
      have hanswers' : (s.held ++ [((⟨s.next, file, path⟩ : Awaiting), none)]).filterMap Prod.snd =
          answersIn replies := by simp [hanswers]
      by_cases hfull : WINDOW ≤ n.pending.length + 1
      · simp only [hfull, if_true]
        refine ⟨rfl, by rw [h.next], holds_all hheld hanswers', hwithin.symm.trans h.within,
          hspoke.symm.trans h.spoke, ?_⟩
        simp [Sender.Fair]
      · simp only [hfull, if_false]
        refine ⟨rfl, by rw [h.next], holds_all hheld hanswers', hwithin.symm.trans h.within,
          hspoke.symm.trans h.spoke, ?_⟩
        simpa [Sender.Fair] using hfull
    · exact h.gone hs hacting hdeaf hdry hthere
  · next failure todo htodo =>
    cases hstep
    have hcivil : Civil failure := hs.fails (h.todo.symm.trans htodo)
    exact h.quiet hs hacting hdeaf hdry rfl hwithin.symm hspoke.symm hstops ⟨hcivil, by simp⟩ rfl

/-- The file that is acted on is the first of those held. -/
theorem Follows.acts (h : Follows n replies s) (hs : s.Sound) {a : Answer}
    (hphase : n.phase = .acting a) : ∃ f rest, s.held = (f, some a) :: rest ∧ a.id = f.id ∧
      n.pending.find? (·.id = a.id) = some f ∧ n.pending.filter (·.id ≠ a.id) = rest.map Prod.fst ∧
      rest.filterMap Prod.snd = answersIn replies := by
  obtain ⟨hpending, hqueue⟩ := h.going (by simp [Sender.stopping, hphase])
    (by simp [Sender.deaf, hphase])
  rw [show n.acting = some a by simp [Sender.acting, hphase]] at hqueue
  cases hheld : s.held with
  | nil => simp [hheld] at hqueue
  | cons x rest =>
    obtain ⟨f, o⟩ := x
    have horder := hs.order
    rw [hheld, List.pairwise_cons] at horder
    cases o with
    | none =>
      -- Those answered come first, so none is.
      have hnone : ∀ y ∈ rest, y.2 = none := fun y hy => by
        cases hy2 : y.2 with
        | none => rfl
        | some b => exact absurd (horder.1 y hy (by simp [hy2])) (by simp)
      have hempty : rest.filterMap Prod.snd = [] := List.filterMap_eq_nil_iff.mpr hnone
      simp [hheld, hempty] at hqueue
    | some b =>
      rw [hheld] at hqueue
      simp only [List.filterMap_cons, Option.toList_some, List.cons_append, List.nil_append,
        List.cons.injEq] at hqueue
      obtain ⟨rfl, hrest⟩ := hqueue
      have hid : b.id = f.id := hs.answers _ (hheld ▸ List.mem_cons_self) b rfl
      have hnodup := hs.nodup
      rw [hheld, List.map_cons, List.nodup_cons] at hnodup
      refine ⟨f, rest, rfl, hid, by simp [hpending, hheld, hid], ?_, hrest⟩
      rw [hpending, hheld, List.map_cons, List.filter_cons_of_neg (by simp [hid]),
        List.filter_eq_self]
      intro g hg
      obtain ⟨y, hy, rfl⟩ := List.mem_map.mp hg
      rw [hid, decide_eq_true_eq]
      exact fun heq => hnodup.1 (heq ▸ List.mem_map.mpr ⟨y, hy, rfl⟩)

/-- An answer acted on, up to the file's bytes. -/
theorem Follows.act (h : Follows n replies s) (hs : s.Sound) {a : Answer}
    (hphase : n.phase = .acting a) (hdry : n.dryRun = dry)
    (hstep : n.act size digest there out a = some (n', out')) :
    Goes digest dry there out out' replies n' s := by
  obtain ⟨f, rest, hheld, -, hfind, hfilter, hrest⟩ := h.acts hs hphase
  have hbetween := h.between (by simp [Sender.within, hphase]) (by simp [Sender.spoke, hphase])
  obtain ⟨hreading, hfinished⟩ := hbetween
  have hlen : (rest.map Prod.fst).length < WINDOW := by
    have hroom := hs.room
    rw [hheld, List.length_cons] at hroom
    simpa [Nat.succ_le_iff] using hroom
  -- Whatever comes of it, the sender holds the file no more.
  have hpopped : ∀ {p : Phase} {reading : Option (SourceFile × ℕ)} {finished : Bool},
      Sender.acting { n with pending := rest.map Prod.fst, phase := p } = none →
      Sender.within { n with pending := rest.map Prod.fst, phase := p } = reading →
      Sender.spoke { n with pending := rest.map Prod.fst, phase := p } = finished →
      Sender.Fair { n with pending := rest.map Prod.fst, phase := p } →
      Follows { n with pending := rest.map Prod.fst, phase := p } replies
        { s with held := rest, reading := reading, finished := finished } :=
    fun hacting hwithin hspoke hfair =>
      ⟨h.todo, h.next, holds_all rfl (by rw [hacting]; exact hrest), hwithin, hspoke, hfair⟩
  have hgone : there = false → Goes digest dry there out out' replies
      { n with pending := rest.map Prod.fst, phase := .ending (.error cut) } s :=
    fun hthere => ⟨_, (hs.tail hheld none).ends none false,
      hpopped rfl rfl rfl ⟨civil_cut, by simp⟩, hdry,
      fun ht => absurd (hthere.symm.trans ht) (by simp)⟩
  simp only [Sender.act, hfind, hfilter] at hstep
  split at hstep
  · -- The file cannot be read: it is the sender's no more, and nothing says so yet.
    cases hstep
    refine ⟨s, hs, ⟨h.todo, h.next, ?_, hreading.symm, hfinished.symm, ?_, by simp⟩, hdry, .none rfl⟩
    · exact ⟨[(f, some a)], rest, [], hheld, rfl, hrest, by simp, by simp [Sender.stopping],
        fun _ => rfl⟩
    · simp [Sender.CivilEnd, Civil, Failure.new]
  · next hstart =>
    rcases put_cases hstep with ⟨rfl, hwent⟩ | ⟨hthere, rfl, rfl⟩
    · exact ⟨_, hs.tail hheld s.reading, hpopped rfl hreading.symm hfinished.symm hlen, hdry,
        .one hwent (.same ⟨hreading, hfinished⟩ hheld hstart)⟩
    · exact hgone hthere
  · next start hstart =>
    by_cases hyes : n.dryRun = true
    · rw [if_pos hyes] at hstep
      rcases put_cases hstep with ⟨rfl, hwent⟩ | ⟨hthere, rfl, rfl⟩
      · exact ⟨_, hs.tail hheld s.reading, hpopped rfl hreading.symm hfinished.symm hlen, hdry,
          .one hwent (.differs ⟨hreading, hfinished⟩ (hdry.symm.trans hyes) hheld hstart)⟩
      · exact hgone hthere
    · rw [if_neg hyes] at hstep
      rw [Bool.not_eq_true] at hyes
      rcases put_cases hstep with ⟨rfl, hwent⟩ | ⟨hthere, rfl, rfl⟩
      · exact ⟨_, hs.tail hheld (some (f.file, start)), hpopped rfl rfl hfinished.symm hlen, hdry,
          .one hwent (.data ⟨hreading, hfinished⟩ (hdry.symm.trans hyes) hheld hstart)⟩
      · exact hgone hthere

/-- What `k` bytes are read of can be read, if the sender reads a file. -/
def Sender.readable (n : Sender) (k : ℕ) : Bool :=
  match n.phase with
  | .reading file _ offset => match file.readAt offset k with
    | .failed => false
    | _ => true
  | _ => true

/-- A reply taken up. -/
theorem Follows.hear {reply : Reply} (h : Follows n (reply :: replies) s) (hs : s.Sound)
    (hacting : n.acting = none) (hdeaf : n.deaf = false) (hstop : n.stopping = false)
    (hwithin : n.within = none) (hspoke : n.spoke = false) (hdry : n.dryRun = dry)
    (hcivil : ∀ o, reply = .over o → there = false ∧ Sender.CivilEnd o) :
    Goes digest dry there out out replies (n.hear reply) s := by
  obtain ⟨hpending, hanswers⟩ := h.going hstop hdeaf
  rw [hacting, Option.toList_none, List.nil_append] at hanswers
  cases reply with
  | answer a =>
    exact ⟨s, hs, ⟨h.todo, h.next, holds_all hpending hanswers, hwithin.symm.trans h.within,
      hspoke.symm.trans h.spoke, trivial⟩, hdry, .none rfl⟩
  | «over» outcome =>
    obtain ⟨hthere, hend⟩ := hcivil outcome rfl
    exact ⟨_, hs.ends none true, ⟨h.todo, h.next, holds_all hpending hanswers, rfl, rfl, hend⟩, hdry,
      fun ht => absurd (hthere.symm.trans ht) (by simp)⟩

/-- The last item, and what was written before it, is handed on. -/
theorem Follows.ends (h : Follows n replies s) (hs : s.Sound) {sent : Except Failure Unit}
    (hphase : n.phase = .ending sent) (hdry : n.dryRun = dry)
    (hitem : out.item size there (Sender.lastItem sent) = .went out') :
    Goes digest dry there out out' replies { n with phase := .closing sent } s := by
  have hacting : n.acting = none := by simp [Sender.acting, hphase]
  have hdeaf : n.deaf = false := by simp [Sender.deaf, hphase]
  have hwithin : n.within = none := by simp [Sender.within, hphase]
  have hspoke : n.spoke = false := by simp [Sender.spoke, hphase]
  have hfair := h.fair
  simp only [Sender.Fair, hphase] at hfair
  have hbetween := h.between hwithin hspoke
  refine ⟨_, hs.ends s.reading true, h.turn hacting hdeaf rfl ?_ rfl (fun _ => rfl) hfair.1, hdry,
    .one hitem ?_⟩
  · exact hwithin.symm.trans h.within
  · cases sent with
    | ok u =>
      obtain ⟨htodo, hpending⟩ := hfair.2 rfl
      refine .allDone hbetween (h.todo.symm.trans htodo) ?_
      have hheld := (h.going (by simp [Sender.stopping, hphase]) hdeaf).1
      rw [hpending] at hheld
      exact List.map_eq_nil_iff.mp hheld.symm
    | error failure => exact .failed hbetween hfair.1

/-- Another reply, once it acts on none: the receiver's word ends it. -/
theorem Follows.listens {reply : Reply} (h : Follows n (reply :: replies) s) (hs : s.Sound)
    {sent : Except Failure Unit} (hphase : n.phase = .listening sent) (hdry : n.dryRun = dry)
    (hcivil : ∀ o, reply = .over o → Sender.CivilEnd o) :
    Goes digest dry there out out replies
      (match reply with
        | .answer _ => { n with phase := .listening sent }
        | .over outcome => { n with phase := .over outcome }) s := by
  obtain ⟨lost, kept, heard, hheld, hpending, hkept, hsome, -, -⟩ := h.holds
  have hwithin : none = s.reading := by simpa [Sender.within, hphase] using h.within
  have hspoke : true = s.finished := by simpa [Sender.spoke, hphase] using h.spoke
  have hfair := h.fair
  simp only [Sender.Fair, hphase] at hfair
  simp only [Sender.acting, hphase, Option.toList_none, List.append_nil] at hkept
  cases reply with
  | answer a =>
    refine ⟨s, hs, ⟨h.todo, h.next, ⟨lost, kept, heard ++ [a], hheld, hpending, ?_, hsome,
      fun hno => by simp [Sender.stopping] at hno, fun hno => by simp [Sender.deaf] at hno⟩, hwithin,
      hspoke, hfair⟩, hdry, .none rfl⟩
    simpa [Sender.acting] using hkept
  | «over» outcome =>
    refine ⟨s, hs, ⟨h.todo, h.next, ⟨lost, kept, heard, hheld, hpending, ?_, hsome,
      fun hno => by simp [Sender.stopping] at hno, fun hno => by simp [Sender.deaf] at hno⟩, hwithin,
      hspoke, hcivil outcome rfl⟩, hdry, .none rfl⟩
    simpa [Sender.acting] using hkept

/-- **What the sender does next, its script does**, as long as what it sends of a
file can be read. -/
theorem Follows.step (h : Follows n replies s) (hs : s.Sound) (hdry : n.dryRun = dry) {sees : Bool}
    {k : ℕ} (hreadable : n.readable k = true)
    (hover : ∀ o, .over o ∈ replies → there = false ∧ Sender.CivilEnd o)
    (hstep : n.step size digest there sees k out replies = some ((n', out'), replies')) :
    Goes digest dry there out out' replies' n' s := by
  have hfair := h.fair
  unfold Sender.step at hstep
  cases hphase : n.phase with
  | walking =>
    simp only [hphase] at hstep
    obtain ⟨x, hx, heq⟩ := Option.map_eq_some_iff.mp hstep
    cases heq
    exact h.walkOn hs hphase hdry hx
  | flushing =>
    simp only [hphase] at hstep
    simp only [Sender.Fair, hphase] at hfair
    have hquiet : ∀ p : Phase, Sender.acting { n with phase := p } = none →
        Sender.within { n with phase := p } = none → Sender.spoke { n with phase := p } = false →
        Sender.Fair { n with phase := p } → ∀ {out₁ : Out}, out₁.items = out.items →
        Goes digest dry there out out₁ replies { n with phase := p } s := by
      intro p hacting hwithin hspoke hfair out₁ hitems
      exact h.quiet hs (by simp [Sender.acting, hphase]) (by simp [Sender.deaf, hphase]) hdry hacting
        (hwithin.trans (by simp [Sender.within, hphase]))
        (hspoke.trans (by simp [Sender.spoke, hphase])) (by simp [Sender.stopping, hphase]) hfair hitems
    split at hstep
    · next out₁ hflush =>
      cases hstep
      exact hquiet .waiting rfl rfl rfl hfair (Out.flush_went hflush).1
    · cases hstep
    · cases hstep
      exact hquiet (.ending (.error cut)) rfl rfl rfl ⟨civil_cut, by simp⟩ rfl
  | waiting =>
    simp only [hphase] at hstep
    split at hstep
    · next reply more =>
      cases hstep
      exact h.hear hs (by simp [Sender.acting, hphase]) (by simp [Sender.deaf, hphase])
        (by simp [Sender.stopping, hphase]) (by simp [Sender.within, hphase])
        (by simp [Sender.spoke, hphase]) hdry fun o ho => hover o (ho ▸ List.mem_cons_self)
    · cases hstep
  | polling =>
    simp only [hphase] at hstep
    simp only [Sender.Fair, hphase] at hfair
    split at hstep
    · next reply more =>
      cases hstep
      exact h.hear hs (by simp [Sender.acting, hphase]) (by simp [Sender.deaf, hphase])
        (by simp [Sender.stopping, hphase]) (by simp [Sender.within, hphase])
        (by simp [Sender.spoke, hphase]) hdry fun o ho => hover o (ho ▸ List.mem_cons_self)
    · cases hstep
      exact h.quiet hs (by simp [Sender.acting, hphase]) (by simp [Sender.deaf, hphase]) hdry rfl
        (by simp [Sender.within, hphase]) (by simp [Sender.spoke, hphase])
        (by simp [Sender.stopping, hphase]) hfair rfl
  | acting a =>
    simp only [hphase] at hstep
    obtain ⟨x, hx, heq⟩ := Option.map_eq_some_iff.mp hstep
    cases heq
    exact h.act hs hphase hdry hx
  | reading file path offset =>
    simp only [hphase] at hstep
    simp only [Sender.Fair, hphase] at hfair
    have hreading : s.reading = some (file, offset) := by
      simpa [Sender.within, hphase] using h.within.symm
    have hgoes : s.finished = false := by simpa [Sender.spoke, hphase] using h.spoke.symm
    have hacting : n.acting = none := by simp [Sender.acting, hphase]
    have hdeaf : n.deaf = false := by simp [Sender.deaf, hphase]
    have hstops : ∀ {p : Phase}, n.stopping = true → Sender.stopping { n with phase := p } = true := by
      simp [Sender.stopping, hphase]
    split at hstep
    · next hread => simp [Sender.readable, hphase, hread] at hreadable
    · next hread =>
      obtain ⟨x, hx, heq⟩ := Option.map_eq_some_iff.mp hstep
      cases heq
      rcases put_cases hx with ⟨rfl, hwent⟩ | ⟨hthere, rfl, rfl⟩
      · exact ⟨_, hs.ends none s.finished, h.turn hacting hdeaf rfl rfl hgoes.symm hstops hfair, hdry,
          .one hwent (.sent hgoes hreading hread)⟩
      · exact h.gone hs hacting hdeaf hdry hthere
    · next c hread =>
      obtain ⟨x, hx, heq⟩ := Option.map_eq_some_iff.mp hstep
      cases heq
      rcases put_cases hx with ⟨rfl, hwent⟩ | ⟨hthere, rfl, rfl⟩
      · exact ⟨_, hs.ends (some (file, offset + c.bytes.length)) s.finished,
          h.turn hacting hdeaf rfl rfl hgoes.symm hstops hfair, hdry,
          .one hwent (.chunk hgoes hreading hread)⟩
      · exact h.gone hs hacting hdeaf hdry hthere
  | ending sent =>
    simp only [hphase] at hstep
    simp only [Sender.Fair, hphase] at hfair
    split at hstep
    · next out₁ hitem =>
      cases hstep
      exact h.ends hs hphase hdry hitem
    · cases hstep
    · next hitem =>
      cases hstep
      have hthere := Out.item_gone hitem
      exact ⟨_, hs.ends none true, h.turn (by simp [Sender.acting, hphase])
        (by simp [Sender.deaf, hphase]) rfl rfl rfl (fun _ => rfl) hfair.1, hdry,
        fun ht => absurd (hthere.symm.trans ht) (by simp)⟩
  | closing sent =>
    simp only [hphase] at hstep
    simp only [Sender.Fair, hphase] at hfair
    have hquiet : ∀ {out₁ : Out}, out₁.items = out.items →
        Goes digest dry there out out₁ replies { n with phase := .listening sent } s :=
      fun hitems => h.quiet hs (by simp [Sender.acting, hphase]) (by simp [Sender.deaf, hphase]) hdry
        rfl (by simp [Sender.within, hphase]) (by simp [Sender.spoke, hphase]) (fun _ => rfl) hfair
        hitems
    split at hstep
    · next out₁ hflush =>
      cases hstep
      exact hquiet (Out.flush_went hflush).1
    · cases hstep
    · cases hstep
      exact hquiet rfl
  | listening sent =>
    simp only [hphase] at hstep
    split at hstep
    · cases hstep
      exact h.listens hs hphase hdry (by simp)
    · next outcome more =>
      cases hstep
      exact h.listens hs hphase hdry fun o ho => by
        cases ho
        exact (hover _ List.mem_cons_self).2
    · cases hstep
  | «over» outcome => simp [hphase] at hstep

end Koh.Sync
