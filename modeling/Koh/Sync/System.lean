import Koh.Sync.Send
import Koh.Sync.Receive
import Mathlib.Logic.Relation

/-!
# The two ends, joined

The sender's thread and the receiver's, and the channels between them: the
messages on their way to the receiver and the replies on their way back.

## Main definitions

- `Net`: both ends and what is between them
- `Net.step`: what one of them does next
- `Net.Reachable`: the states that runs from the start reach

## Design notes

`ChannelReader` brings the receiver one message's items after another (`inbox`).
A message is what the sender's `Out` gathered, so it ends where an item does. A
stream between the channels only delays what it brings: the channels stand for
both, and a reply that is there may not be seen yet by a `try_recv`.
-/

namespace Koh.Sync

/-- Both ends, and what is between them. -/
structure Net where
  sender : Sender
  /-- What is written, with the messages the receiver has not taken. -/
  out : Out
  /-- What is left of the message the receiver reads. -/
  inbox : List Item
  receiver : Receiver
  /-- How it went, once the receiver's thread ended. -/
  outcome : Option (Except Failure Summary)
  /-- Its end was handed to the replies. -/
  told : Bool
  replies : List Reply

inductive Move where
  /-- The sender goes on. -/
  | send (sees : Bool) (n : ℕ)
  /-- The receiver takes the next message. -/
  | take
  /-- It reads its next item, or that there is none to come. -/
  | receive
  /-- Its end is handed to the replies. -/
  | tell

namespace Receiver

/-- The items read so far, none of which was the last. -/
inductive Fed (digest : Digest) (r₀ : Receiver) : List Item → Receiver → Prop
  | nil : Fed digest r₀ [] r₀
  | snoc {items : List Item} {r r' : Receiver} {i : Item} {h : Heard} : Fed digest r₀ items r →
      item digest i r = .ok h r' → (∀ s, h ≠ .over s) → Fed digest r₀ (items ++ [i]) r'

/-- What is fed next is as what is fed to the receiver as it is then. -/
theorem Fed.feed_append {digest : Digest} {r₀ r : Receiver} {items : List Item}
    (h : Fed digest r₀ items r) (rest : List Item) :
    feed digest (items ++ rest) r₀ = feed digest rest r := by
  induction h generalizing rest with
  | nil => rfl
  | @snoc items r r' i heard _ hitem hover ih =>
    rw [List.append_assoc, ih]
    simp only [List.singleton_append, feed, bind, EStateM.bind, hitem]

end Receiver

namespace Net

def succeeded (n : Net) : Bool := n.outcome.any Except.isOk

def ended (s : Sender) : Bool :=
  match s.phase with
  | .over _ => true
  | _ => false

/-- `Receiver::run`, for an item: `try_send` loses an answer that finds no room. -/
def read (digest : Digest) (n : Net) (i : Item) (rest : List Item) : Net :=
  match Receiver.item digest i n.receiver with
  | .ok .nothing r => { n with inbox := rest, receiver := r }
  | .ok (.answer a) r => { n with
      inbox := rest
      receiver := r
      replies := if n.replies.length < replyDepth then n.replies ++ [.answer a] else n.replies }
  | .ok (.over summary) r => { n with
      inbox := rest
      receiver := r
      outcome := some (.ok summary) }
  | .error failure r => { n with
      inbox := rest
      receiver := r
      outcome := some (.error failure) }

def step (size : Item → ℕ) (digest : Digest) (n : Net) : Move → Option Net
  | .send sees k =>
    (n.sender.step size digest n.outcome.isNone sees k n.out n.replies).map fun s =>
      { n with sender := s.1.1, out := s.1.2, replies := s.2 }
  | .take => match n.outcome, n.inbox, n.out.pipe with
    | none, [], message :: pipe => some { n with inbox := message, out := { n.out with pipe := pipe } }
    | _, _, _ => none
  | .receive => match n.outcome, n.inbox with
    | none, i :: rest => some (n.read digest i rest)
    | none, [] =>
      if n.out.pipe.isEmpty ∧ ended n.sender then some { n with outcome := some (.error cut) }
      else none
    | some _, _ => none
  | .tell => match n.outcome, n.told with
    | some outcome, false =>
      if n.replies.length < replyDepth then
        some { n with told := true, replies := n.replies ++ [.over outcome] }
      else none
    | _, _ => none

/-- Before anything happened: `sources` are to be sent into `target`. -/
def start (sources : List Source) (opts : Opts) (disk : Disk) (target : Target) : Net where
  sender := ⟨opts.dryRun, Sender.walk opts sources, [], 0, .walking⟩
  out := ⟨[], []⟩
  inbox := []
  receiver := .start ⟨disk, []⟩ target opts
  outcome := none
  told := false
  replies := []

def Steps (size : Item → ℕ) (digest : Digest) (n n' : Net) : Prop := ∃ m, n.step size digest m = some n'

def Reachable (size : Item → ℕ) (digest : Digest) : Net → Net → Prop :=
  Relation.ReflTransGen (Steps size digest)

def run (size : Item → ℕ) (digest : Digest) (n : Net) (moves : List Move) : Option Net :=
  moves.foldlM (fun n m => n.step size digest m) n

/-- What a run of moves ends in is reached. -/
theorem reachable_of_run {size : Item → ℕ} {digest : Digest} {moves : List Move} {n n' : Net}
    (h : n.run size digest moves = some n') : Reachable size digest n n' := by
  induction moves generalizing n with
  | nil =>
    cases h
    exact .refl
  | cons m moves ih =>
    obtain ⟨n₁, hstep, hrest⟩ := Option.bind_eq_some_iff.mp h
    exact .head ⟨m, hstep⟩ (ih hrest)

/-- What a move does to the receiver: nothing, or it reads an item, or finds that none is to
come. -/
theorem step_cases {size : Item → ℕ} {digest : Digest} {n n' : Net} {m : Move}
    (hstep : n.step size digest m = some n') :
    (m ≠ .receive ∧ n'.receiver = n.receiver ∧ n'.outcome = n.outcome) ∨
    (∃ i rest, m = .receive ∧ n.outcome = none ∧ n.inbox = i :: rest ∧
      n' = n.read digest i rest) ∨
    (m = .receive ∧ n.outcome = none ∧ n.inbox = [] ∧
      n' = { n with outcome := some (.error cut) }) := by
  cases m with
  | send sees k =>
    obtain ⟨s, -, rfl⟩ := Option.map_eq_some_iff.mp hstep
    exact .inl ⟨by simp, rfl, rfl⟩
  | take =>
    simp only [step] at hstep
    split at hstep
    · cases hstep
      exact .inl ⟨by simp, rfl, rfl⟩
    · cases hstep
  | receive =>
    simp only [step] at hstep
    split at hstep
    · next i rest hnone hinbox =>
      cases hstep
      exact .inr (.inl ⟨i, rest, rfl, hnone, hinbox, rfl⟩)
    · next hnone hinbox =>
      split at hstep
      · cases hstep
        exact .inr (.inr ⟨rfl, hnone, hinbox, rfl⟩)
      · cases hstep
    · cases hstep
  | tell =>
    simp only [step] at hstep
    split at hstep
    · split at hstep
      · cases hstep
        exact .inl ⟨by simp, rfl, rfl⟩
      · cases hstep
    · cases hstep

/-- The receiver goes on after an item that ended well, and was not the last. -/
theorem read_goes {digest : Digest} {n : Net} {i : Item} {rest : List Item}
    (h : (n.read digest i rest).outcome = none) : ∃ heard,
      Receiver.item digest i n.receiver = .ok heard (n.read digest i rest).receiver ∧
        ∀ s, heard ≠ .over s := by
  unfold read at h ⊢
  cases hitem : Receiver.item digest i n.receiver with
  | error failure r => simp [hitem] at h
  | ok heard r => cases heard <;> simp_all

/-- An item ended well if the receiver's end is no failure. -/
theorem read_ok {digest : Digest} {n : Net} {i : Item} {rest : List Item}
    (h : ∀ failure, (n.read digest i rest).outcome ≠ some (.error failure)) : ∃ heard,
      Receiver.item digest i n.receiver = .ok heard (n.read digest i rest).receiver := by
  unfold read at h ⊢
  cases hitem : Receiver.item digest i n.receiver with
  | error failure r => simp [hitem] at h
  | ok heard r => cases heard <;> simp

/-- It is done once the last item ended well. -/
theorem read_succeeds {digest : Digest} {n : Net} {i : Item} {rest : List Item}
    (hnone : n.outcome = none) (h : (n.read digest i rest).succeeded = true) : ∃ s,
      Receiver.item digest i n.receiver = .ok (.over s) (n.read digest i rest).receiver := by
  unfold read succeeded at *
  cases hitem : Receiver.item digest i n.receiver with
  | error failure r =>
    simp only [hitem] at h
    cases h
  | ok heard r => cases heard <;> simp_all

def readIn (n : Net) : Move → List Item
  | .receive => n.inbox.head?.toList
  | _ => []

/-- Only the receiver reads. -/
theorem readIn_quiet {n : Net} {m : Move} (h : m ≠ .receive) : n.readIn m = [] := by
  cases m <;> first | rfl | exact absurd rfl h

/-- `items` are those that the receiver read, from `r₀` on: it goes on after them, or ended with
the last of them, or when there was no other to come. -/
def Reads (digest : Digest) (r₀ : Receiver) (items : List Item) (n : Net) : Prop :=
  match n.outcome with
  | none => Receiver.Fed digest r₀ items n.receiver
  | some (.ok summary) => Receiver.feed digest items r₀ = .ok (.over summary) n.receiver
  | some (.error failure) => Receiver.feed digest items r₀ = .error failure n.receiver

/-- While the receiver goes on, none of the items that it read was the last. -/
theorem Reads.fed {digest : Digest} {r₀ : Receiver} {items : List Item} {n : Net}
    (h : n.Reads digest r₀ items) (hnone : n.outcome = none) :
    Receiver.Fed digest r₀ items n.receiver := by
  rwa [Reads, hnone] at h

/-- What is read is fed. -/
theorem read_reads {digest : Digest} {r₀ : Receiver} {n : Net} {items rest : List Item} {i : Item}
    (h : Receiver.Fed digest r₀ items n.receiver) (hnone : n.outcome = none) :
    (n.read digest i rest).Reads digest r₀ (items ++ [i]) := by
  unfold read
  cases hitem : Receiver.item digest i n.receiver with
  | error failure r =>
    simp only [Reads, h.feed_append, Receiver.feed, bind, EStateM.bind, hitem]
  | ok heard r =>
    cases heard with
    | nothing =>
      simp only [Reads, hnone]
      exact h.snoc hitem (by simp)
    | answer a =>
      simp only [Reads, hnone]
      exact h.snoc hitem (by simp)
    | «over» summary =>
      simp only [Reads, h.feed_append, Receiver.feed, bind, EStateM.bind, hitem]
      rfl

/-- A move adds the item read in it to those read before. -/
theorem Reads.step {size : Item → ℕ} {digest : Digest} {r₀ : Receiver} {n n' : Net} {m : Move}
    {items : List Item} (h : n.Reads digest r₀ items) (hstep : n.step size digest m = some n') :
    n'.Reads digest r₀ (items ++ n.readIn m) := by
  rcases step_cases hstep with ⟨hno, hreceiver, houtcome⟩ | ⟨i, rest, rfl, hnone, hinbox, rfl⟩ |
    ⟨rfl, hnone, hinbox, rfl⟩
  · rw [readIn_quiet hno, List.append_nil]
    rwa [Reads, hreceiver, houtcome]
  · rw [readIn, hinbox]
    exact read_reads (h.fed hnone) hnone
  · -- There is none to come: that is how feeding the receiver no more of them ends.
    have hfeed := (h.fed hnone).feed_append []
    rw [readIn, hinbox]
    exact hfeed

end Net

end Koh.Sync
