import Koh.Server.Session

/-!
# When an input counts as echoed

`EchoAck`, from `server/session.rs`, over whole runs: inputs are written, and from time to
time those that had their time to show are promoted. A queue that is full takes the newest
input in place of the one before it, with the time of that one, so an input may be promoted
before its own time: `acked_iff` says when none is.

## Main definitions

- `EchoMove`, `EchoAck.run`, `EchoAck.promoted`: a run, and the inputs it promotes
- `Acked`: they come in order, at their time, and for everything
- `EchoAck.waits`: since when an input waits
- `InTime`: no input that found the queue full is promoted with the one before it

## Main results

- `waits_written`, `waits_promote`: an input waits until its time is over
- `acked_iff`: a run is `Acked` exactly when it is `InTime`
-/

namespace Koh.Server

inductive EchoMove where
  | written (seq : InputSeq) (now : ℕ)
  | promote (now : ℕ)
  deriving DecidableEq

namespace EchoAck

def move (echo : EchoAck) : EchoMove → EchoAck
  | .written seq now => echo.written seq now
  | .promote now => (echo.promote now).1

def tells (echo : EchoAck) : EchoMove → Option InputSeq
  | .written _ _ => none
  | .promote now => (echo.promote now).2

def run (moves : List EchoMove) : EchoAck := moves.foldl move empty

def promotedFrom (echo : EchoAck) : List EchoMove → List InputSeq
  | [] => []
  | m :: moves => (echo.tells m).toList ++ promotedFrom (echo.move m) moves

def promoted (moves : List EchoMove) : List InputSeq := promotedFrom empty moves

end EchoAck

open EchoAck

/-- The inputs written, each with when. -/
def EchoMove.input : EchoMove → Option (InputSeq × ℕ)
  | .written seq now => some (seq, now)
  | .promote _ => none

def inputs (moves : List EchoMove) : List (InputSeq × ℕ) := moves.filterMap EchoMove.input

def Before (i j : InputSeq × ℕ) : Prop := i.1 < j.1 ∧ i.2 ≤ j.2

/-- The inputs rise, at times that do not fall. -/
def Rising (moves : List EchoMove) : Prop := (inputs moves).Pairwise Before

/-- The echoes come in order, at their time, and for everything. -/
structure Acked (moves : List EchoMove) : Prop where
  rise : (promoted moves).Pairwise (· < ·)
  /-- What is promoted, and what it covers, had its time. -/
  timely : ∀ before now after, moves = before ++ .promote now :: after →
    ∀ n ∈ (run before).tells (.promote now), ∀ i ∈ inputs before,
      i.1 ≤ n → i.2 + echoTimeout ≤ now
  /-- Once all had their time, all are covered. -/
  covers : ∀ before now after, moves = before ++ .promote now :: after →
    (∀ i ∈ inputs before, i.2 + echoTimeout ≤ now) →
      ∀ i ∈ inputs before, ∃ n ∈ promoted (before ++ [.promote now]), i.1 ≤ n

/-- Where an input found the queue full, the first promotion once the input before it had its
time is one once it had its own. -/
def InTime (moves : List EchoMove) : Prop :=
  ∀ before seq written between now after since,
    moves = before ++ .written seq written :: (between ++ .promote now :: after) →
    echoPending ≤ (run before).pending.length →
    (run before).pending.getLast?.map Prod.snd = some since →
    (∀ earlier, .promote earlier ∈ between → earlier < since + echoTimeout) →
    since + echoTimeout ≤ now → written + echoTimeout ≤ now

/-! ### The two moves -/

namespace EchoAck

/-- An input goes at the queue's end, or in the last's place if it is full. -/
theorem written_cases (echo : EchoAck) (seq : InputSeq) (now : ℕ) :
    (echo.pending.length < echoPending ∧
        (echo.written seq now).pending = echo.pending ++ [(seq, now)]) ∨
      ∃ init last since, echoPending ≤ echo.pending.length ∧
        echo.pending = init ++ [(last, since)] ∧
        (echo.written seq now).pending = init ++ [(seq, since)] := by
  unfold written
  by_cases hroom : echo.pending.length < echoPending
  · rw [if_pos hroom]
    exact .inl ⟨hroom, rfl⟩
  · rw [if_neg hroom]
    have hne : echo.pending ≠ [] := by
      intro hnil
      rw [hnil] at hroom
      exact hroom (by decide)
    obtain ⟨init, ⟨last, since⟩, hpending⟩ := (List.eq_nil_or_concat' echo.pending).resolve_left hne
    refine .inr ⟨init, last, since, Nat.not_lt.mp hroom, hpending, ?_⟩
    simp [hpending]

/-- Whether an input had its time to show by `now`. -/
def hadTime (now : ℕ) (e : InputSeq × ℕ) : Bool := echoTimeout ≤ now - e.2

/-- An input had its time. -/
theorem hadTime_iff {now : ℕ} {e : InputSeq × ℕ} :
    hadTime now e = true ↔ e.2 + echoTimeout ≤ now := by
  have hpos : 0 < echoTimeout := by decide
  unfold hadTime
  rw [decide_eq_true_iff]
  omega

/-- What is promoted is the newest that had its time. -/
theorem promote_eq (echo : EchoAck) (now : ℕ) :
    echo.promote now = (⟨echo.pending.dropWhile (hadTime now)⟩,
      ((echo.pending.takeWhile (hadTime now)).getLast?).map Prod.fst) := rfl

/-- A promotion takes from the queue's front those that had their time, and tells the last. -/
theorem promote_spec {echo : EchoAck} (h : echo.pending.Pairwise Before) (now : ℕ) :
    ∃ shown, echo.pending = shown ++ (echo.promote now).1.pending ∧
      (∀ e ∈ shown, e.2 + echoTimeout ≤ now) ∧
      (∀ e ∈ (echo.promote now).1.pending, now < e.2 + echoTimeout) ∧
      (echo.promote now).2 = shown.getLast?.map Prod.fst := by
  rw [promote_eq]
  refine ⟨echo.pending.takeWhile (hadTime now), List.takeWhile_append_dropWhile.symm,
    fun e he => hadTime_iff.mp (List.mem_takeWhile_imp he), fun e he => ?_, rfl⟩
  -- The first that is left had not its time, and those after it came no sooner.
  have hleft := h.sublist (List.dropWhile_sublist (hadTime now))
  have hfirst := List.head?_dropWhile_not (hadTime now) echo.pending
  dsimp only at he
  cases hrest : echo.pending.dropWhile (hadTime now) with
  | nil => simp [hrest] at he
  | cons first rest =>
    rw [hrest] at he hfirst hleft
    have hlate : now < first.2 + echoTimeout :=
      Nat.not_le.mp fun hle => by simp [hadTime_iff.mpr hle] at hfirst
    rcases List.mem_cons.mp he with rfl | hin
    · exact hlate
    · exact hlate.trans_le (Nat.add_le_add_right ((List.pairwise_cons.mp hleft).1 e hin).2 _)

theorem run_append (moves : List EchoMove) (m : EchoMove) :
    run (moves ++ [m]) = (run moves).move m := by
  simp [run]

theorem promotedFrom_append (echo : EchoAck) (moves : List EchoMove) (m : EchoMove) :
    echo.promotedFrom (moves ++ [m]) =
      echo.promotedFrom moves ++ ((moves.foldl move echo).tells m).toList := by
  induction moves generalizing echo with
  | nil => simp [promotedFrom]
  | cons first moves ih => simp [promotedFrom, ih]

theorem promoted_append (moves : List EchoMove) (m : EchoMove) :
    promoted (moves ++ [m]) = promoted moves ++ ((run moves).tells m).toList :=
  promotedFrom_append empty moves m

end EchoAck

theorem inputs_append (moves moves' : List EchoMove) :
    inputs (moves ++ moves') = inputs moves ++ inputs moves' :=
  List.filterMap_append

@[simp] theorem inputs_written (seq : InputSeq) (now : ℕ) :
    inputs [.written seq now] = [(seq, now)] := rfl

@[simp] theorem inputs_promote (now : ℕ) : inputs [.promote now] = [] := rfl

/-! ### Since when an input waits -/

namespace EchoAck

/-- Since when input `seq` waits, in its own place or a newer one's. -/
def waits (echo : EchoAck) (seq : InputSeq) : Option ℕ :=
  (echo.pending.find? fun e => seq ≤ e.1).map Prod.snd

/-- An input newer than all that wait does since it was written, or since the one before it if
the queue is full. -/
theorem waits_written_self {echo : EchoAck} {seq : InputSeq} (h : ∀ e ∈ echo.pending, e.1 < seq)
    (now : ℕ) :
    ∃ since, (echo.written seq now).waits seq = some since ∧
      (since = now ∧ echo.pending.length < echoPending ∨ echoPending ≤ echo.pending.length ∧
        echo.pending.getLast?.map Prod.snd = some since) := by
  have hnone : ∀ l : List (InputSeq × ℕ), (∀ e ∈ l, e.1 < seq) →
      l.find? (fun e => seq ≤ e.1) = none := by
    intro l hl
    rw [List.find?_eq_none]
    exact fun e he => by simpa using hl e he
  rcases echo.written_cases seq now with ⟨hroom, heq⟩ | ⟨init, last, since, hfull, hpending, heq⟩
  · exact ⟨now, by simp [waits, heq, hnone _ h], .inl ⟨rfl, hroom⟩⟩
  · have hinit := hnone init fun e he => h e (by rw [hpending]; exact List.mem_append_left _ he)
    exact ⟨since, by simp [waits, heq, hinit], .inr ⟨hfull, by simp [hpending]⟩⟩

/-- A newer input changes nothing of that. -/
theorem waits_written {echo : EchoAck} {seq new : InputSeq} {since : ℕ} (hnew : seq ≤ new)
    (h : echo.waits seq = some since) (now : ℕ) :
    (echo.written new now).waits seq = some since := by
  rcases echo.written_cases new now with ⟨-, heq⟩ | ⟨init, last, since', -, hpending, heq⟩
  · obtain ⟨e, he, hsince⟩ := Option.map_eq_some_iff.mp h
    simp [waits, heq, List.find?_append, he, hsince]
  · simp only [waits, hpending, heq, List.find?_append] at h ⊢
    cases hinit : init.find? fun e => seq ≤ e.1 with
    | some e => simpa [hinit] using h
    | none =>
      by_cases hlast : seq ≤ last
      · simpa [hinit, hlast, hnew] using h
      · simp [hinit, hlast] at h

/-- Nor does a promotion before its time, and one after it covers the input. -/
theorem waits_promote {echo : EchoAck} (hordered : echo.pending.Pairwise Before) {seq : InputSeq}
    {since : ℕ} (h : echo.waits seq = some since) (now : ℕ) :
    (now < since + echoTimeout ∧ (echo.promote now).1.waits seq = some since) ∨
      (since + echoTimeout ≤ now ∧ ∃ n ∈ (echo.promote now).2, seq ≤ n) := by
  obtain ⟨shown, hpending, hshown, hleft, htells⟩ := promote_spec hordered now
  obtain ⟨e, he, rfl⟩ := Option.map_eq_some_iff.mp h
  have hseq : seq ≤ e.1 := by simpa using List.find?_some he
  rw [hpending, List.find?_append] at he
  cases hfound : shown.find? fun e => seq ≤ e.1 with
  | none =>
    rw [hfound, Option.none_or] at he
    exact .inl ⟨hleft e (List.mem_of_find?_eq_some he), by simp [waits, he]⟩
  | some found =>
    rw [hfound, Option.some_or, Option.some.injEq] at he
    subst he
    have hin := List.mem_of_find?_eq_some hfound
    refine .inr ⟨hshown found hin, ?_⟩
    obtain ⟨init, last, rfl⟩ := (List.eq_nil_or_concat' shown).resolve_left (List.ne_nil_of_mem hin)
    refine ⟨last.1, by simp [htells], hseq.trans ?_⟩
    rcases List.mem_append.mp hin with hinit | hlast
    · have hbefore := hordered.sublist (hpending ▸ List.sublist_append_left _ _)
      exact (((List.pairwise_append.mp hbefore).2.2 found hinit last (by simp)).1).le
    · rw [List.mem_singleton.mp hlast]

end EchoAck

/-! ### What holds of every run -/

/-- What waits is in order, was written no sooner than it waits since, and is newer than all that
was promoted. -/
structure Queued (moves : List EchoMove) : Prop where
  ordered : (run moves).pending.Pairwise Before
  known : ∀ e ∈ (run moves).pending, ∃ i ∈ inputs moves, i.1 = e.1 ∧ e.2 ≤ i.2
  newest : ∀ e ∈ (run moves).pending.getLast?, ∀ i ∈ inputs moves, i.1 ≤ e.1
  rise : (promoted moves).Pairwise (· < ·)
  promoted : ∀ n ∈ promoted moves, (∃ i ∈ inputs moves, i.1 = n) ∧
    ∀ e ∈ (run moves).pending, n < e.1

/-- The first moves rise too. -/
theorem Rising.of_append {moves moves' : List EchoMove} (h : Rising (moves ++ moves')) :
    Rising moves := by
  rw [Rising, inputs_append] at h
  exact (List.pairwise_append.mp h).1

/-- An input comes after all before it. -/
theorem Rising.before {moves : List EchoMove} {seq : InputSeq} {now : ℕ}
    (h : Rising (moves ++ [.written seq now])) : ∀ i ∈ inputs moves, Before i (seq, now) := by
  rw [Rising, inputs_append] at h
  exact fun i hi => (List.pairwise_append.mp h).2.2 i hi (seq, now) (by simp)

/-- An input more waits last. -/
theorem Queued.written {moves : List EchoMove} (h : Queued moves) {seq : InputSeq} {now : ℕ}
    (hnew : ∀ i ∈ inputs moves, Before i (seq, now)) : Queued (moves ++ [.written seq now]) := by
  have hpromoted : EchoAck.promoted (moves ++ [.written seq now]) = EchoAck.promoted moves := by
    simp [promoted_append, tells]
  have hlt : ∀ e ∈ (run moves).pending, Before e (seq, now) := by
    intro e he
    obtain ⟨i, hi, hseq, hsince⟩ := h.known e he
    exact ⟨hseq ▸ (hnew i hi).1, hsince.trans (hnew i hi).2⟩
  have holder : ∀ {i}, i ∈ inputs moves → i ∈ inputs (moves ++ [.written seq now]) := by
    intro i hi
    rw [inputs_append]
    exact List.mem_append_left _ hi
  have hself : (seq, now) ∈ inputs (moves ++ [.written seq now]) := by simp [inputs_append]
  have hle : ∀ i ∈ inputs (moves ++ [.written seq now]), i.1 ≤ seq := by
    intro i hi
    rw [inputs_append, List.mem_append, inputs_written, List.mem_singleton] at hi
    rcases hi with hold | rfl
    · exact (hnew i hold).1.le
    · exact le_rfl
  have hnewer : ∀ n ∈ EchoAck.promoted moves, n < seq := by
    intro n hn
    obtain ⟨i, hi, rfl⟩ := (h.promoted n hn).1
    exact (hnew i hi).1
  -- The queue is what it was, up to its last; the last is the new input, no later than now.
  obtain ⟨init, since, hrun, hinit, hsince, hbefore⟩ : ∃ init since,
      (run (moves ++ [.written seq now])).pending = init ++ [(seq, since)] ∧
      (∀ e ∈ init, e ∈ (run moves).pending) ∧ since ≤ now ∧
      (init ++ [(seq, since)]).Pairwise Before := by
    rw [run_append]
    rcases (run moves).written_cases seq now with
      ⟨-, heq⟩ | ⟨init, last, since, -, hpending, heq⟩
    · refine ⟨(run moves).pending, now, heq, fun _ he => he, le_rfl, ?_⟩
      exact List.pairwise_append.mpr ⟨h.ordered, by simp, fun e he e' he' => by
        rw [List.mem_singleton.mp he']
        exact hlt e he⟩
    · have hlast := hlt (last, since) (by simp [hpending])
      have hordered := h.ordered
      rw [hpending] at hordered
      obtain ⟨hi, -, hcross⟩ := List.pairwise_append.mp hordered
      refine ⟨init, since, heq, fun e he => by simp [hpending, he], hlast.2, ?_⟩
      refine List.pairwise_append.mpr ⟨hi, by simp, fun e he e' he' => ?_⟩
      rw [List.mem_singleton.mp he']
      have hbefore := hcross e he (last, since) (by simp)
      exact ⟨hbefore.1.trans hlast.1, hbefore.2⟩
  refine ⟨hrun ▸ hbefore, fun e he => ?_, fun e he => ?_, hpromoted ▸ h.rise, fun n hn => ?_⟩
  · rw [hrun, List.mem_append, List.mem_singleton] at he
    rcases he with hold | rfl
    · obtain ⟨i, hi, hi'⟩ := h.known e (hinit e hold)
      exact ⟨i, holder hi, hi'⟩
    · exact ⟨(seq, now), hself, rfl, hsince⟩
  · rw [hrun, List.getLast?_append_of_ne_nil _ (by simp)] at he
    rw [← Option.some.inj he]
    exact hle
  · rw [hpromoted] at hn
    refine ⟨?_, fun e he => ?_⟩
    · obtain ⟨i, hi, heq⟩ := (h.promoted n hn).1
      exact ⟨i, holder hi, heq⟩
    · rw [hrun, List.mem_append, List.mem_singleton] at he
      rcases he with hold | rfl
      · exact (h.promoted n hn).2 e (hinit e hold)
      · exact hnewer n hn

/-- What had its time waits no more. -/
theorem Queued.promote {moves : List EchoMove} (h : Queued moves) (now : ℕ) :
    Queued (moves ++ [.promote now]) := by
  obtain ⟨shown, hpending, -, -, htells⟩ := promote_spec h.ordered now
  have hrun : run (moves ++ [.promote now]) = ((run moves).promote now).1 := run_append moves _
  have hinputs : inputs (moves ++ [.promote now]) = inputs moves := by simp [inputs_append]
  have hleft : ∀ e ∈ ((run moves).promote now).1.pending, e ∈ (run moves).pending := by
    intro e he
    rw [hpending]
    exact List.mem_append_right _ he
  have hsaid : EchoAck.promoted (moves ++ [.promote now]) =
      EchoAck.promoted moves ++ (shown.getLast?.map Prod.fst).toList := by
    rw [promoted_append, ← htells]
    rfl
  have htold : ∀ n ∈ (shown.getLast?.map Prod.fst).toList, ∃ e ∈ shown, e.1 = n := by
    intro n hn
    obtain ⟨e, he, rfl⟩ := Option.map_eq_some_iff.mp (Option.mem_toList.mp hn)
    exact ⟨e, List.mem_of_getLast? he, rfl⟩
  have hordered := h.ordered
  rw [hpending] at hordered
  obtain ⟨-, hrest, hcross⟩ := List.pairwise_append.mp hordered
  refine ⟨hrun ▸ hrest, ?_, ?_, ?_, ?_⟩
  · rw [hrun, hinputs]
    exact fun e he => h.known e (hleft e he)
  · rw [hrun, hinputs]
    intro e he
    refine h.newest e ?_
    rw [hpending, List.getLast?_append]
    exact Option.mem_def.mpr (by rw [Option.mem_def.mp he, Option.some_or])
  · rw [hsaid]
    refine List.pairwise_append.mpr ⟨h.rise, ?_, fun n hn m hm => ?_⟩
    · cases shown.getLast?.map Prod.fst <;> simp
    · obtain ⟨e, he, rfl⟩ := htold m hm
      exact (h.promoted n hn).2 e (by rw [hpending]; exact List.mem_append_left _ he)
  · rw [hrun, hinputs, hsaid]
    intro n hn
    rcases List.mem_append.mp hn with hold | hnew
    · exact ⟨(h.promoted n hold).1, fun e he => (h.promoted n hold).2 e (hleft e he)⟩
    · obtain ⟨e, he, rfl⟩ := htold n hnew
      obtain ⟨i, hi, heq, -⟩ := h.known e (by rw [hpending]; exact List.mem_append_left _ he)
      exact ⟨⟨i, hi, heq⟩, fun e' he' => (hcross e he e' he').1⟩

/-- Inputs that rise wait in order. -/
theorem queued {moves : List EchoMove} (h : Rising moves) : Queued moves := by
  induction moves using List.reverseRecOn with
  | nil => exact ⟨List.Pairwise.nil, by simp [run, empty], by simp [run, empty],
      List.Pairwise.nil, by simp [promoted, promotedFrom]⟩
  | append_singleton moves m ih =>
    cases m with
    | written seq now => exact (ih h.of_append).written h.before
    | promote now => exact (ih h.of_append).promote now

/-- Each input written is covered, or waits since no later than it was written. -/
theorem covered_or_waits {moves : List EchoMove} (h : Rising moves) :
    ∀ i ∈ inputs moves, (∃ n ∈ promoted moves, i.1 ≤ n) ∨
      ∃ since ≤ i.2, (run moves).waits i.1 = some since := by
  induction moves using List.reverseRecOn with
  | nil => simp [inputs]
  | append_singleton moves m ih =>
    have hqueued := queued h.of_append
    intro i hi
    rw [inputs_append, List.mem_append] at hi
    cases m with
    | written seq now =>
      rcases hi with hold | hnew
      · rcases ih h.of_append i hold with ⟨n, hn, hle⟩ | ⟨since, hsince, hwaits⟩
        · exact .inl ⟨n, by rw [promoted_append]; exact List.mem_append_left _ hn, hle⟩
        · refine .inr ⟨since, hsince, ?_⟩
          rw [run_append]
          exact waits_written (h.before i hold).1.le hwaits now
      · rw [inputs_written, List.mem_singleton] at hnew
        subst hnew
        have hlt : ∀ e ∈ (run moves).pending, Before e (seq, now) := by
          intro e he
          obtain ⟨j, hj, hseq, hsince⟩ := hqueued.known e he
          exact ⟨hseq ▸ (h.before j hj).1, hsince.trans (h.before j hj).2⟩
        obtain ⟨since, hwaits, hsince⟩ := waits_written_self (fun e he => (hlt e he).1) now
        refine .inr ⟨since, ?_, by rw [run_append]; exact hwaits⟩
        rcases hsince with ⟨rfl, -⟩ | ⟨-, hlast⟩
        · exact le_rfl
        · obtain ⟨e, he, rfl⟩ := Option.map_eq_some_iff.mp hlast
          exact (hlt e (List.mem_of_getLast? he)).2
    | promote now =>
      rw [inputs_promote] at hi
      rw [promoted_append]
      rcases ih h.of_append i (by simpa using hi) with ⟨n, hn, hle⟩ | ⟨since, hsince, hwaits⟩
      · exact .inl ⟨n, List.mem_append_left _ hn, hle⟩
      · rcases waits_promote hqueued.ordered hwaits now with ⟨-, hstill⟩ | ⟨-, n, hn, hle⟩
        · exact .inr ⟨since, hsince, by rw [run_append]; exact hstill⟩
        · exact .inl ⟨n, List.mem_append_right _ (Option.mem_toList.mpr hn), hle⟩

/-- What waits with an input, or after it, came no sooner than the input was written, or waits
since the input does, and no promotion came after its time. -/
theorem waits_between {before between : List EchoMove} {seq : InputSeq} {written since : ℕ}
    (h : Rising (before ++ .written seq written :: between))
    (hsince : ((run before).written seq written).waits seq = some since) :
    ∀ e ∈ (run (before ++ .written seq written :: between)).pending, seq ≤ e.1 →
      written ≤ e.2 ∨
        (e.2 = since ∧ ∀ earlier, .promote earlier ∈ between → earlier < since + echoTimeout) := by
  induction between using List.reverseRecOn with
  | nil =>
    have hqueued := queued (Rising.of_append h)
    have hbefore : Rising (before ++ [.written seq written]) := h
    rw [run_append]
    intro e he hseq
    -- It is the input itself: all that waited is older.
    have hfound := hsince
    have hold : ∀ e ∈ (run before).pending, e.1 < seq := by
      intro e he
      obtain ⟨i, hi, heq, -⟩ := hqueued.known e he
      exact heq ▸ (hbefore.before i hi).1
    change e ∈ ((run before).written seq written).pending at he
    rcases (run before).written_cases seq written with
      ⟨-, heq⟩ | ⟨init, last, since', -, hpending, heq⟩
    · rw [heq, List.mem_append, List.mem_singleton] at he
      rcases he with he | rfl
      · exact absurd hseq (Nat.not_le.mpr (hold e he))
      · exact .inl le_rfl
    · have hinit : init.find? (fun e => seq ≤ e.1) = none := by
        rw [List.find?_eq_none]
        exact fun e he => by simpa using hold e (by simp [hpending, he])
      rw [heq, List.mem_append, List.mem_singleton] at he
      rcases he with he | rfl
      · exact absurd hseq (Nat.not_le.mpr (hold e (by simp [hpending, he])))
      · simp [waits, heq, hinit] at hfound
        exact .inr ⟨hfound, by simp⟩
  | append_singleton between m ih =>
    have hsplit : before ++ .written seq written :: (between ++ [m]) =
        (before ++ .written seq written :: between) ++ [m] := by simp
    rw [hsplit] at h ⊢
    have hqueued := queued h.of_append
    have ih := ih h.of_append
    have hself : (seq, written) ∈ inputs (before ++ .written seq written :: between) := by
      simp [inputs, EchoMove.input]
    rw [run_append]
    cases m with
    | written new now =>
      have hnow := h.before _ hself
      have hmove : ∀ {earlier}, EchoMove.promote earlier ∈ between ++ [.written new now] →
          .promote earlier ∈ between := by
        intro earlier hin
        simpa using hin
      have holder : ∀ e ∈ (run (before ++ .written seq written :: between)).pending, seq ≤ e.1 →
          written ≤ e.2 ∨ (e.2 = since ∧ ∀ earlier,
            .promote earlier ∈ between ++ [.written new now] → earlier < since + echoTimeout) :=
        fun e he hseq => (ih e he hseq).imp_right fun hs => ⟨hs.1, fun x hx => hs.2 x (hmove hx)⟩
      intro e he hseq
      change e ∈ ((run (before ++ .written seq written :: between)).written new now).pending at he
      rcases (run (before ++ .written seq written :: between)).written_cases new now with
        ⟨-, heq⟩ | ⟨init, last, since', -, hpending, heq⟩
      · rw [heq, List.mem_append, List.mem_singleton] at he
        rcases he with he | rfl
        · exact holder e he hseq
        · exact .inl hnow.2
      · rw [heq, List.mem_append, List.mem_singleton] at he
        rcases he with he | rfl
        · exact holder e (by simp [hpending, he]) hseq
        · -- The last that waited is no older than the input: the new one is in its place.
          have hlast := hqueued.newest (last, since') (by simp [hpending]) _ hself
          exact holder (last, since') (by simp [hpending]) hlast
    | promote now =>
      obtain ⟨shown, hpending, -, hleft, -⟩ := promote_spec hqueued.ordered now
      intro e he hseq
      change e ∈ ((run (before ++ .written seq written :: between)).promote now).1.pending at he
      refine (ih e (by rw [hpending]; exact List.mem_append_right _ he) hseq).imp_right fun hs => ?_
      refine ⟨hs.1, fun earlier hin => ?_⟩
      rcases List.mem_append.mp hin with hin | hin
      · exact hs.2 earlier hin
      · cases List.mem_singleton.mp hin
        exact hs.1 ▸ hleft e he

/-- While no promotion comes after its time, an input waits. -/
theorem waits_through {before between : List EchoMove} {seq : InputSeq} {written since : ℕ}
    (h : Rising (before ++ .written seq written :: between))
    (hsince : ((run before).written seq written).waits seq = some since)
    (hnone : ∀ earlier, .promote earlier ∈ between → earlier < since + echoTimeout) :
    (run (before ++ .written seq written :: between)).waits seq = some since := by
  induction between using List.reverseRecOn with
  | nil => exact (run_append before _).symm ▸ hsince
  | append_singleton between m ih =>
    have hsplit : before ++ .written seq written :: (between ++ [m]) =
        (before ++ .written seq written :: between) ++ [m] := by simp
    rw [hsplit] at h ⊢
    have ih := ih h.of_append fun x hx => hnone x (List.mem_append_left _ hx)
    rw [run_append]
    cases m with
    | written new now =>
      have hnew := h.before (seq, written) (by simp [inputs, EchoMove.input])
      exact waits_written hnew.1.le ih now
    | promote now =>
      rcases waits_promote (queued h.of_append).ordered ih now with ⟨-, hstill⟩ | ⟨hlate, -⟩
      · exact hstill
      · exact absurd (hnone now (by simp)) (Nat.not_lt.mpr hlate)

/-! ### Whether a run is in time -/

/-- An input's waiting begins when it is written, or with the one before it in a full queue. -/
theorem waits_begin {before : List EchoMove} {seq : InputSeq} {written : ℕ}
    (h : Rising (before ++ [.written seq written])) :
    ∃ since, ((run before).written seq written).waits seq = some since ∧
      (since = written ∧ (run before).pending.length < echoPending ∨
        echoPending ≤ (run before).pending.length ∧
          (run before).pending.getLast?.map Prod.snd = some since) := by
  refine waits_written_self (fun e he => ?_) written
  obtain ⟨i, hi, heq, -⟩ := (queued h.of_append).known e he
  exact heq ▸ (h.before i hi).1

/-- In runs in time, all up to what is told had their time. -/
theorem InTime.timely {moves : List EchoMove} (h : Rising moves) (hin : InTime moves)
    {before after : List EchoMove} {now : ℕ} (hmoves : moves = before ++ .promote now :: after) :
    ∀ n ∈ (run before).tells (.promote now), ∀ i ∈ inputs before,
      i.1 ≤ n → i.2 + echoTimeout ≤ now := by
  intro n hn i hi hle
  have hbefore : Rising before := (hmoves ▸ h).of_append
  obtain ⟨shown, hpending, hshown, -, htells⟩ := promote_spec (queued hbefore).ordered now
  obtain ⟨e, he, rfl⟩ := Option.map_eq_some_iff.mp (htells.symm.trans hn)
  have he := List.mem_of_getLast? he
  -- The run up to the promotion, parted where the input was written.
  obtain ⟨m, hm, hinput⟩ := List.mem_filterMap.mp hi
  obtain ⟨seq, written, rfl⟩ : ∃ seq written, m = .written seq written := by
    cases m with
    | written seq written => exact ⟨seq, written, rfl⟩
    | promote now => cases hinput
  cases hinput
  obtain ⟨first, between, rfl⟩ := List.append_of_mem hm
  have hsplit : first ++ .written seq written :: between =
      (first ++ [.written seq written]) ++ between := by simp
  have hbegin : Rising (first ++ [.written seq written]) := (hsplit ▸ hbefore).of_append
  obtain ⟨since, hwaits, hsince⟩ := waits_begin hbegin
  have hpast := hshown e he
  rcases waits_between hbefore hwaits e (by rw [hpending]; exact List.mem_append_left _ he) hle with
    hwritten | ⟨heq, hnone⟩
  · exact (Nat.add_le_add_right hwritten _).trans hpast
  · rw [heq] at hpast
    rcases hsince with ⟨rfl, -⟩ | ⟨hfull, hlast⟩
    · exact hpast
    · exact hin first seq written between now after since (by simp [hmoves]) hfull hlast hnone hpast

/-- Runs that acknowledge so are in time. -/
theorem Acked.inTime {moves : List EchoMove} (h : Rising moves) (hacked : Acked moves) :
    InTime moves := by
  intro before seq written between now after since hmoves hfull hlast hnone hpast
  have hsplit : moves = (before ++ .written seq written :: between) ++ .promote now :: after := by
    simp [hmoves]
  have hrising : Rising (before ++ .written seq written :: between) := (hsplit ▸ h).of_append
  have hbegin : Rising (before ++ [.written seq written]) := by
    rw [← List.singleton_append, ← List.append_assoc] at hrising
    exact hrising.of_append
  -- In a full queue it waits since the one before it does.
  have hwaits : ((run before).written seq written).waits seq = some since := by
    obtain ⟨since', hwaits, ⟨-, hroom⟩ | ⟨-, hlast'⟩⟩ := waits_begin hbegin
    · exact absurd hfull (Nat.not_le.mpr hroom)
    · rw [hlast, Option.some.injEq] at hlast'
      exact hlast' ▸ hwaits
  have hwaiting := waits_through hrising hwaits hnone
  rcases waits_promote (queued hrising).ordered hwaiting now with ⟨hearly, -⟩ | ⟨-, n, hn, hle⟩
  · exact absurd hpast (Nat.not_le.mpr hearly)
  · exact hacked.timely _ now after hsplit n hn (seq, written)
      (by simp [inputs, EchoMove.input]) hle

/-- **Echoes come in order, at their time and for everything**, in a run of rising inputs, exactly
when no input that found the queue full is promoted, with the one before it, before its time. -/
theorem acked_iff {moves : List EchoMove} (h : Rising moves) : Acked moves ↔ InTime moves := by
  refine ⟨fun hacked => hacked.inTime h, fun hin => ⟨(queued h).rise, ?_, ?_⟩⟩
  · exact fun before now after hmoves => hin.timely h hmoves
  · intro before now after hmoves hall i hi
    have hbefore : Rising before := (hmoves ▸ h).of_append
    rw [promoted_append]
    rcases covered_or_waits hbefore i hi with ⟨n, hn, hle⟩ | ⟨since, hsince, hwaits⟩
    · exact ⟨n, List.mem_append_left _ hn, hle⟩
    · have hpast := (Nat.add_le_add_right hsince echoTimeout).trans (hall i hi)
      rcases waits_promote (queued hbefore).ordered hwaits now with ⟨hearly, -⟩ | ⟨-, n, hn, hle⟩
      · exact absurd hpast (Nat.not_le.mpr hearly)
      · exact ⟨n, List.mem_append_right _ (Option.mem_toList.mpr hn), hle⟩

instance : DecidableRel Before := fun _ _ => inferInstanceAs (Decidable (_ ∧ _))

/-- Two inputs, and promotions before and after each had its time. -/
def typed : List EchoMove :=
  [.written 1 0, .written 2 25, .promote 12, .promote 50, .promote 75]

/-- In `acked_iff`, two inputs are echoed each at its time. -/
theorem typed_acked : promoted typed = [1, 2] ∧ Acked typed := by
  refine ⟨by decide, (acked_iff (by decide +kernel : List.Pairwise Before (inputs typed))).mpr ?_⟩
  intro before seq written between now after since hmoves hfull
  have hroom : ∀ before ∈ typed.inits, (run before).pending.length < echoPending := by decide
  have hprefix : before ∈ typed.inits := (List.mem_inits _ _).mpr ⟨_, hmoves.symm⟩
  exact absurd hfull (Nat.not_le.mpr (hroom before hprefix))

/-- As many inputs as the queue holds, written at once, and one more 40 ms later. -/
def flood : List EchoMove :=
  (List.range echoPending).map (fun n => .written (n + 1) 0) ++ [.written (echoPending + 1) 40]

/-- The last is promoted with the one before it, 10 ms after it was written. -/
theorem flood_early : Rising (flood ++ [.promote 50]) ∧ ¬ Acked (flood ++ [.promote 50]) := by
  have hinputs : inputs (flood ++ [.promote 50]) =
      (List.range echoPending).map (fun n => (n + 1, 0)) ++ [(echoPending + 1, 40)] := by
    simp [inputs, flood, EchoMove.input, List.filterMap_map, Function.comp_def]
  have hrising : Rising (flood ++ [.promote 50]) := by
    rw [Rising, hinputs, List.pairwise_append, List.pairwise_map]
    refine ⟨List.pairwise_lt_range.imp fun h => ⟨Nat.succ_lt_succ h, le_rfl⟩,
      List.pairwise_singleton _ _, fun i hi j hj => ?_⟩
    obtain ⟨n, hn, rfl⟩ := List.mem_map.mp hi
    rw [List.mem_singleton.mp hj]
    exact ⟨Nat.succ_lt_succ (List.mem_range.mp hn), Nat.zero_le _⟩
  refine ⟨hrising, fun hacked => ?_⟩
  have htold : (run flood).tells (.promote 50) = some (echoPending + 1) := by decide +kernel
  have hwritten : (echoPending + 1, 40) ∈ inputs flood := by simp [flood, inputs_append]
  have htime := hacked.timely flood 50 [] rfl _ htold _ hwritten le_rfl
  revert htime
  decide

end Koh.Server
