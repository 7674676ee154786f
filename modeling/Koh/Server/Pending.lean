import Koh.Lib.Reach
import Mathlib.Data.List.MinMax

/-!
# Room for handshakes

`Pending`, and the loop of `serve_endpoint` that takes connections, from `server/cli.rs`:
so many handshakes are under way at most, and one gives way to a new one when all are.

## Main definitions

- `SourceKey.of`: whose a handshake is
- `Pending.crowded`, `Pending.room`: what goes for a new one
- `Accepting`, `Accepting.step`: the handshakes under way, what arrives, and what ends

## Main results

- `Accepting.handshakes_share`: who is let in, and what is given up for it

## Design notes

Which of several sources that hold the most `Pending::room` takes is up to the order of a
map: it is given to the move, which is made only if that source is one of them. That a
retry is sent is given to it too.
-/

namespace Koh.Server

open Koh.Lib

inductive IpAddr where
  | v4 (bits : BitVec 32)
  | v6 (bits : BitVec 128)
  deriving DecidableEq

/-- Whose a handshake is: an address, of which the first 48 bits if it is a v6. -/
structure SourceKey where
  addr : IpAddr
  deriving DecidableEq

/-- None through a relay. -/
def SourceKey.of : Option IpAddr → Option SourceKey
  | some (.v6 bits) => some ⟨.v6 (bits &&& ~~~(BitVec.allOnes 128 >>> 48))⟩
  | some (.v4 bits) => some ⟨.v4 bits⟩
  | none => none

/-- Most handshakes, key proofs included, under way at once. -/
def mostPending : ℕ := 256

/-! ### A queue of at most so many -/

/-- Items, oldest first. -/
abbrev Bounded (α : Type) := List α

namespace Bounded

variable {α : Type}

def isFull (most : ℕ) (queue : Bounded α) : Bool := most ≤ queue.length

/-- Add `item` at the back, dropping the oldest to make room. -/
def pushEvicting (most : ℕ) (queue : Bounded α) (item : α) : Bounded α :=
  (if isFull most queue then queue.drop 1 else queue) ++ [item]

/-- Remove the oldest item that `matching` holds of, if any. -/
def takeFirst (matching : α → Bool) : Bounded α → Option α × Bounded α
  | [] => (none, [])
  | a :: queue =>
    if matching a then (some a, queue)
    else ((takeFirst matching queue).1, a :: (takeFirst matching queue).2)

/-- The first that matches is taken, from where it is. -/
theorem takeFirst_some {matching : α → Bool} {queue : Bounded α}
    (h : ∃ a ∈ queue, matching a = true) :
    ∃ front a back, queue = front ++ a :: back ∧ matching a = true ∧
      (∀ b ∈ front, matching b = false) ∧ takeFirst matching queue = (some a, front ++ back) := by
  induction queue with
  | nil =>
    obtain ⟨a, ha, -⟩ := h
    cases ha
  | cons b queue ih =>
    by_cases hb : matching b = true
    · exact ⟨[], b, queue, rfl, hb, by simp, by simp [takeFirst, hb]⟩
    · obtain ⟨a, ha, hmatch⟩ := h
      have hin : a ∈ queue := by
        refine (List.mem_cons.mp ha).resolve_left ?_
        rintro rfl
        exact hb hmatch
      obtain ⟨front, c, back, rfl, hc, hfront, htake⟩ := ih ⟨a, hin, hmatch⟩
      refine ⟨b :: front, c, back, rfl, hc, fun x hx => ?_, ?_⟩
      · rcases List.mem_cons.mp hx with rfl | hx
        · exact Bool.eq_false_iff.mpr hb
        · exact hfront x hx
      · rw [takeFirst, if_neg hb, htake]
        rfl

end Bounded

/-! ### The handshakes under way -/

/-- The handshakes under way, oldest first, each with its source and its handle. -/
abbrev Pending := Bounded (Option SourceKey × ℕ)

namespace Pending

/-- Forget those `done`; then whether a new handshake would give one up for its room. -/
def crowded (most : ℕ) (pending : Pending) (done : ℕ → Bool) : Bool × Pending :=
  let pending := pending.filter fun e => !done e.2
  (Bounded.isFull most pending, pending)

def held (pending : Pending) (source : Option SourceKey) : ℕ :=
  (pending.map Prod.fst).count source

/-- Whether `source` holds the most. -/
def holdsMost (pending : Pending) (source : Option SourceKey) : Bool :=
  pending.any (·.1 = source) && pending.all fun e => pending.held e.1 ≤ pending.held source

/-- Room for a handshake: the one given up for it, if any, the oldest of the source
`fullest` when all the room is taken. -/
def room (most : ℕ) (pending : Pending) (fullest : Option SourceKey) : Option ℕ × Pending :=
  if Bounded.isFull most pending then
    let (oldest, pending) := pending.takeFirst (·.1 = fullest)
    (oldest.map Prod.snd, pending)
  else (none, pending)

end Pending

structure Incoming where
  addr : Option IpAddr
  /-- Its address was shown to be its own. -/
  validated : Bool
  deriving DecidableEq

/-- The handshakes under way, and those before. -/
structure Accepting where
  pending : Pending
  /-- Those that ended. -/
  finished : List ℕ
  /-- Those given up. -/
  aborted : List ℕ
  /-- The next handshake. -/
  next : ℕ
  deriving DecidableEq

inductive AcceptMove where
  /-- A connection arrives; a retry may be sent to it; and of the sources that hold the
  most handshakes, `fullest` is the one a map has last. -/
  | arrive (incoming : Incoming) (retries : Bool) (fullest : Option SourceKey)
  | finish (handle : ℕ)
  deriving DecidableEq

namespace Accepting

def init : Accepting := ⟨[], [], [], 0⟩

def step (most : ℕ) (s : Accepting) : AcceptMove → Option Accepting
  | .arrive incoming retries fullest =>
    let source := SourceKey.of incoming.addr
    let (crowded, pending) := s.pending.crowded most fun handle => decide (handle ∈ s.finished)
    if crowded ∧ source.isSome ∧ ¬ incoming.validated ∧ retries then
      some { s with pending := pending }
    else if crowded ∧ pending ≠ [] ∧ ¬ pending.holdsMost fullest then none
    else
      let (givenUp, pending) := pending.room most fullest
      some { s with
        pending := pending.pushEvicting most (source, s.next)
        aborted := s.aborted ++ givenUp.toList
        next := s.next + 1 }
  | .finish handle =>
    if handle < s.next then some { s with finished := s.finished ++ [handle] } else none

/-- The handshakes under way when one arrives. -/
def underWay (s : Accepting) : Pending := s.pending.filter fun e => e.2 ∉ s.finished

/-- What holds of the handshakes in every run: there are so many at most, in the order
they arrived. -/
structure Ordered (most : ℕ) (s : Accepting) : Prop where
  length : s.pending.length ≤ most
  ordered : s.pending.Pairwise (·.2 < ·.2)
  before : ∀ e ∈ s.pending, e.2 < s.next

variable {most : ℕ} {s s' : Accepting} {incoming : Incoming} {retries : Bool}
  {fullest : Option SourceKey}

/-- One that holds the most is there, and none holds more. -/
theorem holdsMost_iff {pending : Pending} : pending.holdsMost fullest = true ↔
    (∃ e ∈ pending, e.1 = fullest) ∧ ∀ e ∈ pending, pending.held e.1 ≤ pending.held fullest := by
  simp [Pending.holdsMost]

/-- One of several sources holds the most. -/
theorem exists_holdsMost {pending : Pending} (h : pending ≠ []) :
    ∃ fullest, pending.holdsMost fullest = true := by
  cases hmax : pending.argmax fun e => pending.held e.1 with
  | none => exact absurd (List.argmax_eq_none.mp hmax) h
  | some e =>
    refine ⟨e.1, holdsMost_iff.mpr ⟨⟨e, List.argmax_mem hmax, rfl⟩, fun e' he' => ?_⟩⟩
    exact List.le_of_mem_argmax (f := fun e => pending.held e.1) he' hmax

/-- No source that has none holds more. -/
theorem held_le {pending : Pending} (h : pending.holdsMost fullest = true)
    (source : Option SourceKey) : pending.held source ≤ pending.held fullest := by
  by_cases hmem : source ∈ pending.map Prod.fst
  · obtain ⟨e, he, rfl⟩ := List.mem_map.mp hmem
    exact (holdsMost_iff.mp h).2 e he
  · rw [Pending.held, List.count_eq_zero_of_not_mem hmem]
    exact Nat.zero_le _

/-- What an arrival does. -/
theorem arrive_cases (hmost : 0 < most) (h : s.Ordered most)
    (hstep : s.step most (.arrive incoming retries fullest) = some s') :
    (s.underWay.length = most ∧ (SourceKey.of incoming.addr).isSome = true ∧
      incoming.validated = false ∧ retries = true ∧ s' = { s with pending := s.underWay }) ∨
    (s.underWay.length < most ∧ s' = { s with
      pending := s.underWay ++ [(SourceKey.of incoming.addr, s.next)], next := s.next + 1 }) ∨
    (s.underWay.length = most ∧ s.underWay.holdsMost fullest = true ∧ ∃ front old back,
      s.underWay = front ++ (fullest, old) :: back ∧ (∀ e ∈ front, e.1 ≠ fullest) ∧
      s' = { s with
        pending := front ++ back ++ [(SourceKey.of incoming.addr, s.next)]
        aborted := s.aborted ++ [old]
        next := s.next + 1 }) := by
  have hle : s.underWay.length ≤ most := (List.length_filter_le _ _).trans h.length
  have hcrowded : s.pending.crowded most (fun handle => decide (handle ∈ s.finished)) =
      (decide (most ≤ s.underWay.length), s.underWay) := by
    simp [Pending.crowded, Bounded.isFull, underWay]
  simp only [step, hcrowded] at hstep
  by_cases hfull : most ≤ s.underWay.length
  · have hlength : s.underWay.length = most := Nat.le_antisymm hle hfull
    simp only [hfull, decide_true, true_and] at hstep
    split at hstep
    · next hretry =>
      obtain ⟨hsome, hvalid, hretries⟩ := hretry
      exact .inl ⟨hlength, hsome, Bool.eq_false_iff.mpr hvalid, hretries,
        (Option.some.inj hstep).symm⟩
    · split at hstep
      · cases hstep
      · next hholds =>
        have hne : s.underWay ≠ [] := List.ne_nil_of_length_pos (by omega)
        have hholds' : s.underWay.holdsMost fullest = true := by
          by_contra hnot
          exact hholds ⟨hne, hnot⟩
        obtain ⟨e, he, heq⟩ := (holdsMost_iff.mp hholds').1
        have hany : ∃ e ∈ s.underWay, decide (e.1 = fullest) = true :=
          ⟨e, he, by simpa using heq⟩
        obtain ⟨front, ⟨source, old⟩, back, hsplit, hmatch, hfront, htake⟩ :=
          Bounded.takeFirst_some hany
        obtain rfl : source = fullest := by simpa using hmatch
        have hroom : s.underWay.room most source = (some old, front ++ back) := by
          simp only [Pending.room, Bounded.isFull, hfull, decide_true, if_true, htake]
          rfl
        have hless : ¬ most ≤ (front ++ back).length := by
          have hlen := congrArg List.length hsplit
          simp only [List.length_append, List.length_cons] at hlen ⊢
          omega
        refine .inr (.inr ⟨hlength, hholds', front, old, back, hsplit, ?_, ?_⟩)
        · exact fun e he => by simpa using hfront e he
        · rw [hroom] at hstep
          simp only [Bounded.pushEvicting, Bounded.isFull, hless, decide_false] at hstep
          exact (Option.some.inj hstep).symm
  · have hroom : s.underWay.room most fullest = (none, s.underWay) := by
      simp [Pending.room, Bounded.isFull, hfull]
    simp only [hfull, decide_false, Bool.false_eq_true, false_and, if_false, hroom,
      Bounded.pushEvicting, Bounded.isFull, Option.toList_none, List.append_nil] at hstep
    exact .inr (.inl ⟨Nat.not_le.mp hfull, (Option.some.inj hstep).symm⟩)

/-- Fewer pending stay in order. -/
theorem Ordered.sublist {pending : Pending} {finished aborted : List ℕ} (h : s.Ordered most)
    (hsub : pending.Sublist s.pending) : Ordered most ⟨pending, finished, aborted, s.next⟩ where
  length := hsub.length_le.trans h.length
  ordered := h.ordered.sublist hsub
  before := fun e he => h.before e (hsub.subset he)

/-- A new one goes last. -/
theorem Ordered.push {pending : Pending} {finished aborted : List ℕ} {source : Option SourceKey}
    (h : s.Ordered most) (hsub : pending.Sublist s.pending) (hless : pending.length < most) :
    Ordered most ⟨pending ++ [(source, s.next)], finished, aborted, s.next + 1⟩ where
  length := by
    simp only [List.length_append, List.length_singleton]
    omega
  ordered := by
    refine List.pairwise_append.mpr ⟨h.ordered.sublist hsub, List.pairwise_singleton _ _, ?_⟩
    intro e he e' he'
    rw [List.mem_singleton.mp he']
    exact h.before e (hsub.subset he)
  before := by
    intro e he
    rcases List.mem_append.mp he with he | he
    · exact Nat.lt_succ_of_lt (h.before e (hsub.subset he))
    · rw [List.mem_singleton.mp he]
      exact Nat.lt_succ_self _

/-- Every step keeps them in order. -/
theorem step_ordered (hmost : 0 < most) {m : AcceptMove} (h : s.Ordered most)
    (hstep : s.step most m = some s') : s'.Ordered most := by
  cases m with
  | arrive incoming retries fullest =>
    have hsub : s.underWay.Sublist s.pending := List.filter_sublist
    rcases arrive_cases hmost h hstep with ⟨-, -, -, -, rfl⟩ | ⟨hless, rfl⟩ |
      ⟨hlength, -, front, old, back, hsplit, -, rfl⟩
    · exact h.sublist hsub
    · exact h.push hsub hless
    · have hrest : (front ++ back).Sublist s.underWay := by
        rw [hsplit]
        exact (List.Sublist.refl _).append (List.sublist_cons_self _ _)
      refine h.push (hrest.trans hsub) ?_
      have hlen := congrArg List.length hsplit
      simp only [List.length_append, List.length_cons] at hlen ⊢
      omega
  | finish handle =>
    simp only [step] at hstep
    split at hstep
    · cases hstep
      exact h.sublist (List.Sublist.refl _)
    · cases hstep

/-- **Handshakes share their room fairly**, in every run. At most so many are kept, and
what arrives can always go on. When all the room is taken, one whose address was not
shown to be its own may be sent a retry instead, which gives up none; else it is let in.
One is given up only when all are under way: the oldest of a source that holds the most,
so none of a source that holds fewer than another. -/
theorem handshakes_share (hmost : 0 < most) (h : Reachable (step most) init s) :
    s.pending.length ≤ most ∧
    (∀ incoming retries, ∃ fullest s', s.step most (.arrive incoming retries fullest) = some s') ∧
    ∀ incoming retries fullest s', s.step most (.arrive incoming retries fullest) = some s' →
      (s.underWay.length = most ∧ (SourceKey.of incoming.addr).isSome = true ∧
        incoming.validated = false ∧ retries = true ∧ s' = { s with pending := s.underWay }) ∨
      ∃ others, s'.pending = others ++ [(SourceKey.of incoming.addr, s.next)] ∧
        ((s.underWay.length < most ∧ others = s.underWay ∧ s'.aborted = s.aborted) ∨
        (s.underWay.length = most ∧ ∃ source front old back,
          s.underWay = front ++ (source, old) :: back ∧ others = front ++ back ∧
          s'.aborted = s.aborted ++ [old] ∧
          (∀ other, s.underWay.held other ≤ s.underWay.held source) ∧
          (∀ e ∈ s.underWay, e.1 = source → old ≤ e.2) ∧
          ∀ few many, s.underWay.held few < s.underWay.held many →
            ∀ e ∈ s.underWay, e.1 = few → e ∈ others)) := by
  have hs : s.Ordered most := h.invariant (Ordered most)
    ⟨Nat.zero_le _, List.Pairwise.nil, by simp [init]⟩
    fun _ _ _ hs _ hstep => step_ordered hmost hs hstep
  refine ⟨hs.length, fun incoming retries => ?_, fun incoming retries fullest s' hstep => ?_⟩
  · by_cases hne : s.underWay = []
    · refine ⟨none, ?_⟩
      simp only [step]
      split
      · exact ⟨_, rfl⟩
      · rw [if_neg ?_]
        · exact ⟨_, rfl⟩
        · rintro ⟨-, hnot, -⟩
          exact hnot (by simpa [Pending.crowded, underWay] using hne)
    · obtain ⟨fullest, hholds⟩ := exists_holdsMost hne
      refine ⟨fullest, ?_⟩
      simp only [step]
      split
      · exact ⟨_, rfl⟩
      · rw [if_neg ?_]
        · exact ⟨_, rfl⟩
        · rintro ⟨-, -, hnot⟩
          exact hnot (by simpa [Pending.crowded, underWay] using hholds)
  · rcases arrive_cases hmost hs hstep with hretry | ⟨hless, rfl⟩ |
      ⟨hlength, hholds, front, old, back, hsplit, hfront, rfl⟩
    · exact .inl hretry
    · exact .inr ⟨s.underWay, rfl, .inl ⟨hless, rfl, rfl⟩⟩
    · refine .inr ⟨front ++ back, rfl, .inr ⟨hlength, fullest, front, old, back, hsplit, rfl, rfl,
        held_le hholds, fun e he heq => ?_, fun few many hfew e he heq => ?_⟩⟩
      · have hordered : s.underWay.Pairwise (·.2 < ·.2) := hs.ordered.sublist List.filter_sublist
        rw [hsplit] at hordered he
        rcases List.mem_append.mp he with he | he
        · exact absurd heq (hfront e he)
        · rcases List.mem_cons.mp he with rfl | he
          · exact Nat.le_refl _
          · have hlater := List.rel_of_pairwise_cons (List.pairwise_append.mp hordered).2.1 he
            exact Nat.le_of_lt hlater
      · have hne : e.1 ≠ fullest := by
          rintro hfull
          rw [← heq, hfull] at hfew
          exact absurd (held_le hholds many) (Nat.not_le.mpr hfew)
        rw [hsplit] at he
        rcases List.mem_append.mp he with he | he
        · exact List.mem_append_left _ he
        · refine List.mem_append_right _ ((List.mem_cons.mp he).resolve_left ?_)
          rintro rfl
          exact hne rfl

/-- One comes through a relay, and two from an address. -/
def threeMoves : List AcceptMove :=
  [.arrive ⟨none, false⟩ true none, .arrive ⟨some (.v4 1), false⟩ true none,
    .arrive ⟨some (.v4 1), false⟩ true none]

def threePending : Accepting :=
  ⟨[(none, 0), (some ⟨.v4 1⟩, 1), (some ⟨.v4 1⟩, 2)], [], [], 3⟩

/-- The state is reached. -/
theorem threePending_reachable : Reachable (step 3) init threePending :=
  reaches_of_run (C := fun _ _ => True)
    (show runWhile (step 3) (fun _ _ => True) init threeMoves = some threePending by decide +kernel)

/-- In `handshakes_share`, a fourth comes, and the older of the address that has two is given up. -/
theorem handshakes_share_fourth : Reachable (step 3) init threePending ∧ ∃ s',
    threePending.step 3 (.arrive ⟨some (.v4 2), true⟩ true (some ⟨.v4 1⟩)) = some s' ∧
      s'.aborted = [1] ∧ threePending.pending.length ≤ 3 ∧
      ∃ source front old back, threePending.underWay = front ++ (source, old) :: back ∧
        s'.pending = front ++ back ++ [(some ⟨.v4 2⟩, 3)] ∧ s'.aborted = [old] ∧
        ∀ other, threePending.underWay.held other ≤ threePending.underWay.held source := by
  have hstep : threePending.step 3 (.arrive ⟨some (.v4 2), true⟩ true (some ⟨.v4 1⟩)) = some
      ⟨[(none, 0), (some ⟨.v4 1⟩, 2), (some ⟨.v4 2⟩, 3)], [], [1], 4⟩ := by decide +kernel
  obtain ⟨hlength, -, harrive⟩ := handshakes_share (by decide) threePending_reachable
  refine ⟨threePending_reachable, _, hstep, rfl, hlength, ?_⟩
  rcases harrive _ _ _ _ hstep with ⟨-, -, hno, -⟩ | ⟨others, hothers, ⟨hless, -⟩ |
    ⟨-, source, front, old, back, hsplit, rfl, hgone, hmost, -⟩⟩
  · cases hno
  · exact absurd hless (by decide)
  · exact ⟨source, front, old, back, hsplit, hothers, hgone, hmost⟩

/-- A new one is not always let in: with all the room taken, one whose address was not
shown to be its own is sent a retry. -/
theorem arrival_retried : ∃ s s', Reachable (step 2) init s ∧
    s.step 2 (.arrive ⟨some (.v4 2), false⟩ true none) = some s' ∧
    s'.pending = s.pending ∧ s'.next = s.next := by
  have hrun : runWhile (step 2) (fun _ _ => True) init (threeMoves.take 2) =
      some ⟨[(none, 0), (some ⟨.v4 1⟩, 1)], [], [], 2⟩ := by decide +kernel
  exact ⟨_, _, reaches_of_run hrun, by decide +kernel, rfl, rfl⟩

end Accepting

end Koh.Server
