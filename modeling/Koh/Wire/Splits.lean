import Koh.Wire.Shown

/-!
# Messages however a stream is split

`Decoder`, from `proto.rs`, over whole runs: what is pushed, a piece at a time, and the
calls for the next message, in any order.

## Main definitions

- `Codec`: how a message's body is written and read
- `Decoder.run`: what calls give, among pieces pushed

## Main results

- `Decoder.splits`: the messages come out as they went in
- `Decoder.splits_breaks`: what a length of four bytes does not hold, and what is not
  taken yet
-/

namespace Koh.Wire

open Koh.Lib

variable {α : Type}

/-- How a message's body is written and read: as `postcard` does, and the checks of what
is read. -/
structure Codec (α : Type) where
  put : α → List UInt8
  take : List UInt8 → Option α
  take_put : ∀ msg, take (put msg) = some msg

/-- A call for the next message, or a piece of the stream. -/
inductive DecoderOp where
  | push (bytes : List UInt8)
  | next
  deriving DecidableEq

/-- What is pushed, one piece after another. -/
def pushed : List DecoderOp → List UInt8
  | [] => []
  | .push bytes :: ops => bytes ++ pushed ops
  | .next :: ops => pushed ops

namespace Decoder

def run (take : List UInt8 → Option α) (most : ℕ) (d : Decoder) :
    List DecoderOp → List (Except ProtoError (Option α)) × Decoder
  | [] => ([], d)
  | .push bytes :: ops => run take most (d.push bytes) ops
  | .next :: ops =>
    let (result, d) := d.next take most
    let (results, d) := run take most d ops
    (result :: results, d)

def messages (results : List (Except ProtoError (Option α))) : List α :=
  results.filterMap fun result => result.toOption.join

/-! ### One call -/

def InOrder (d : Decoder) : Prop := d.start ≤ d.buf.length

/-- What is pushed is pending after what was. -/
theorem pending_push {d : Decoder} (h : d.InOrder) (bytes : List UInt8) :
    (d.push bytes).pending = d.pending ++ bytes := List.drop_append_of_le_length h

theorem InOrder.push {d : Decoder} (h : d.InOrder) (bytes : List UInt8) :
    (d.push bytes).InOrder := by
  simp only [InOrder, Decoder.push, List.length_append] at h ⊢
  omega

theorem inOrder_compact (d : Decoder) : d.compact.InOrder := Nat.zero_le _

theorem pending_compact (d : Decoder) : d.compact.pending = d.pending := rfl

/-- The next body leaves the decoder in order. -/
theorem InOrder.nextBody {d : Decoder} (h : d.InOrder) (most : ℕ) :
    (d.nextBody most).2.InOrder := by
  unfold Decoder.nextBody
  split
  · split
    · exact h
    · split
      · exact inOrder_compact d
      · exact Nat.min_le_right _ _
  · exact inOrder_compact d

/-- So does the next message. -/
theorem InOrder.next {d : Decoder} (h : d.InOrder) (take : List UInt8 → Option α) (most : ℕ) :
    (d.next take most).2.InOrder := by
  have hbody := h.nextBody most
  unfold Decoder.next
  generalize d.nextBody most = result at hbody
  rcases result with ⟨_ | _ | body, d'⟩
  · exact hbody
  · exact hbody
  · simp only
    split
    · exact hbody
    · exact hbody

/-- A message that announces too much is refused as soon as its length is there, again
and again. -/
theorem nextBody_tooLarge {d : Decoder} {b₀ b₁ b₂ b₃ : UInt8} {rest : List UInt8} {most : ℕ}
    (hpending : d.pending = b₀ :: b₁ :: b₂ :: b₃ :: rest)
    (hlarge : most < fromBeBytes b₀ b₁ b₂ b₃) :
    d.nextBody most = (.error (.tooLarge (fromBeBytes b₀ b₁ b₂ b₃) most), d) := by
  simp only [nextBody, hpending, bodyLen, if_pos hlarge]

/-- Within a message, more bytes are needed. -/
theorem nextBody_partial {d : Decoder} {body bytes rest : List UInt8} {most : ℕ}
    (hmost : body.length ≤ mostLength) (hbytes : encode body most = .ok bytes)
    (hsplit : d.pending ++ rest = bytes) (hrest : rest ≠ []) :
    d.nextBody most = (.ok none, d.compact) := by
  unfold encode at hbytes
  split at hbytes
  · cases hbytes
  next hlen =>
  obtain rfl := Except.ok.inj hbytes
  rw [Nat.min_eq_left hmost] at hsplit
  have hlong := congrArg List.length hsplit
  have hpos : 0 < rest.length := List.length_pos_iff.mpr hrest
  rw [List.length_append, List.length_append, length_toBeBytes] at hlong
  unfold nextBody
  split
  · next b₀ b₁ b₂ b₃ more hpending =>
    rw [hpending, toBeBytes] at hsplit
    simp only [List.cons_append, List.nil_append, List.cons.injEq] at hsplit
    obtain ⟨rfl, rfl, rfl, rfl, -⟩ := hsplit
    rw [hpending] at hlong
    simp only [List.length_cons] at hlong
    have hannounced : bodyLen (fromBeBytes (body.length / 2 ^ 24).toUInt8
        (body.length / 2 ^ 16).toUInt8 (body.length / 2 ^ 8).toUInt8 body.length.toUInt8) most =
        .ok body.length := by
      rw [fromBeBytes_toBeBytes hmost]
      exact if_neg hlen
    simp only [hannounced]
    rw [if_pos (by omega)]
  · rfl

variable {codec : Codec α} {most : ℕ} {d : Decoder}

/-- `frames` are `msgs`, each with its length before it. -/
def Framed (codec : Codec α) (most : ℕ) (msgs : List α) (frames : List (List UInt8)) : Prop :=
  List.Forall₂ (fun msg frame => encode (codec.put msg) most = .ok frame ∧
    (codec.put msg).length ≤ mostLength) msgs frames

/-- What one call gives, of messages whose frames what is pending begins. -/
theorem next_framed {msgs : List α} {frames : List (List UInt8)}
    (h : Framed codec most msgs frames) (hpre : d.pending <+: frames.flatten) :
    (∃ msg msgs' frame frames', msgs = msg :: msgs' ∧ frames = frame :: frames' ∧
      (d.next codec.take most).1 = .ok (some msg) ∧
      d.pending = frame ++ (d.next codec.take most).2.pending) ∨
    (d.next codec.take most).1 = .ok none ∧ (d.next codec.take most).2.pending = d.pending ∧
      ∀ frame ∈ frames.head?, ¬ frame <+: d.pending := by
  cases h with
  | nil =>
    have hnil : d.pending = [] := List.prefix_nil.mp hpre
    have hbody : d.nextBody most = (.ok none, d.compact) := by
      simp only [nextBody, hnil]
    simp only [next, hbody]
    exact .inr ⟨trivial, pending_compact d, by simp⟩
  | @cons msg frame msgs frames hmsg hmsgs =>
    obtain ⟨hframe, hlength⟩ := hmsg
    rw [List.flatten_cons] at hpre
    by_cases hwhole : frame <+: d.pending
    · obtain ⟨rest, hrest⟩ := hwhole
      obtain ⟨d', hbody, hpending⟩ := nextBody_framed hlength hframe hrest.symm
      refine .inl ⟨msg, msgs, frame, frames, rfl, rfl, ?_, ?_⟩
      · simp only [next, hbody, codec.take_put]
      · simp only [next, hbody, codec.take_put, hpending, hrest]
    · have hpart : d.pending <+: frame :=
        (List.prefix_or_prefix_of_prefix hpre (List.prefix_append _ _)).resolve_right hwhole
      obtain ⟨rest, hrest⟩ := hpart
      have hne : rest ≠ [] := by
        rintro rfl
        exact hwhole ⟨[], by rw [← hrest]; simp⟩
      have hbody := nextBody_partial hlength hframe hrest hne
      simp only [next, hbody]
      refine .inr ⟨trivial, pending_compact d, ?_⟩
      rintro _ ⟨⟩
      exact hwhole

/-! ### Whole runs -/

/-- What calls give, among pieces pushed of messages' frames: the first of the messages,
whose frames are off what is pending. -/
theorem run_framed {ops : List DecoderOp} {msgs : List α} {frames : List (List UInt8)}
    (hd : d.InOrder) (h : Framed codec most msgs frames)
    (hpre : d.pending ++ pushed ops <+: frames.flatten) :
    ∃ done left doneFrames leftFrames, msgs = done ++ left ∧ frames = doneFrames ++ leftFrames ∧
      doneFrames.length = done.length ∧ Framed codec most left leftFrames ∧
      messages (run codec.take most d ops).1 = done ∧
      (∀ result ∈ (run codec.take most d ops).1, ∃ msg, result = .ok msg) ∧
      d.pending ++ pushed ops = doneFrames.flatten ++ (run codec.take most d ops).2.pending := by
  induction ops generalizing d msgs frames with
  | nil =>
    refine ⟨[], msgs, [], frames, rfl, rfl, rfl, h, rfl, by simp [run], ?_⟩
    simp [run, pushed]
  | cons op ops ih =>
    cases op with
    | push bytes =>
      have hpush : d.pending ++ pushed (.push bytes :: ops) =
          (d.push bytes).pending ++ pushed ops := by
        rw [pending_push hd, pushed, List.append_assoc]
      rw [hpush] at hpre ⊢
      exact ih (hd.push bytes) h hpre
    | next =>
      have hd' := hd.next codec.take most
      rcases next_framed h ((List.prefix_append _ _).trans hpre) with
        ⟨msg, msgs', frame, frames', rfl, rfl, hmsg, hpending⟩ | ⟨hnone, hpending, -⟩
      · have hsplit : d.pending ++ pushed (.next :: ops) =
            frame ++ ((d.next codec.take most).2.pending ++ pushed ops) := by
          rw [hpending, List.append_assoc]
          rfl
        rw [hsplit, List.flatten_cons] at hpre
        obtain ⟨done, left, doneFrames, leftFrames, rfl, rfl, hlength, hleft, hmessages, hok,
          hrest⟩ := ih hd' (List.forall₂_cons.mp h).2 ((List.prefix_append_right_inj frame).mp hpre)
        refine ⟨msg :: done, left, frame :: doneFrames, leftFrames, rfl, rfl, by simp [hlength],
          hleft, ?_, ?_, ?_⟩
        · simp only [run, hmsg, messages, List.filterMap_cons] at hmessages ⊢
          rw [hmessages]
          rfl
        · intro result hresult
          simp only [run] at hresult
          rcases List.mem_cons.mp hresult with rfl | hresult
          · exact ⟨_, hmsg⟩
          · exact hok result hresult
        · rw [hsplit, hrest, List.flatten_cons, List.append_assoc]
          rfl
      · have hsame : d.pending ++ pushed (.next :: ops) =
            (d.next codec.take most).2.pending ++ pushed ops := by
          rw [hpending]
          rfl
        rw [hsame] at hpre ⊢
        obtain ⟨done, left, doneFrames, leftFrames, hmsgs, hframes, hlength, hleft, hmessages, hok,
          hrest⟩ := ih hd' h hpre
        refine ⟨done, left, doneFrames, leftFrames, hmsgs, hframes, hlength, hleft, ?_, ?_, hrest⟩
        · simp only [run, hnone, messages, List.filterMap_cons] at hmessages ⊢
          rw [hmessages]
          rfl
        · intro result hresult
          simp only [run] at hresult
          rcases List.mem_cons.mp hresult with rfl | hresult
          · exact ⟨_, hnone⟩
          · exact hok result hresult

/-- A stream is finished between messages. -/
theorem finish_iff (d : Decoder) : d.finish = .ok () ↔ d.pending = [] := by
  unfold finish
  by_cases h : d.pending = []
  · simp [h]
  · simp [h]

/-- What is pending ends between messages only if it is empty, where no whole frame is
left. -/
theorem pending_nil_of_boundary {frames leftFrames : List (List UInt8)} {bytes : List UInt8}
    {doneFrames : List (List UInt8)} (hframes : frames = doneFrames ++ leftFrames)
    (hbytes : bytes = doneFrames.flatten ++ d.pending)
    (hnot : ∀ frame ∈ leftFrames.head?, ¬ frame <+: d.pending) {n : ℕ}
    (hn : bytes = (frames.take n).flatten) : d.pending = [] := by
  rw [hframes, List.take_append] at hn
  by_cases hle : n ≤ doneFrames.length
  · rw [Nat.sub_eq_zero_of_le hle, List.take_zero, List.append_nil] at hn
    have hsplit : ((doneFrames.take n) ++ doneFrames.drop n).flatten.length =
        doneFrames.flatten.length := by rw [List.take_append_drop]
    rw [List.flatten_append, ← hn, hbytes, List.length_append, List.length_append] at hsplit
    exact List.eq_nil_of_length_eq_zero (by omega)
  · rw [List.take_of_length_le (by omega), List.flatten_append, hbytes,
      List.append_cancel_left_eq] at hn
    cases leftFrames with
    | nil => simpa using hn
    | cons frame frames' =>
      obtain ⟨m, hm⟩ : ∃ m, n - doneFrames.length = m + 1 := ⟨n - doneFrames.length - 1, by omega⟩
      rw [hm, List.take_succ_cons, List.flatten_cons] at hn
      exact absurd ⟨_, hn.symm⟩ (hnot frame rfl)

/-- **Framing survives any split**: of messages that fit, and whose lengths four bytes
hold, the frames are pushed in any pieces, with calls for the next message among them in
any way. The calls give the first of the messages, in order, and never fail. The next
call gives the next message if its frame is whole, and else asks for more; it has given
all once all was pushed and it asks for more. `finish` succeeds exactly if what was
pushed is the frames of what calls gave; so, once more was asked for, exactly between
messages. And whatever is pushed, a message that announces too much is refused as soon
as its length is there. -/
theorem splits {msgs : List α} {frames : List (List UInt8)} {ops : List DecoderOp}
    (h : Framed codec most msgs frames) (hpre : pushed ops <+: frames.flatten) :
    let results := (run codec.take most .new ops).1
    let d := (run codec.take most .new ops).2
    (∃ done left doneFrames leftFrames, msgs = done ++ left ∧ frames = doneFrames ++ leftFrames ∧
      doneFrames.length = done.length ∧ messages results = done ∧
      (∀ result ∈ results, ∃ msg, result = .ok msg) ∧
      ((∃ msg frame, left.head? = some msg ∧ leftFrames.head? = some frame ∧
          frame <+: d.pending ∧ (d.next codec.take most).1 = .ok (some msg)) ∨
        (∀ frame ∈ leftFrames.head?, ¬ frame <+: d.pending) ∧
          (d.next codec.take most).1 = .ok none) ∧
      (d.finish = .ok () ↔ pushed ops = doneFrames.flatten)) ∧
    ((d.next codec.take most).1 = .ok none →
      (d.finish = .ok () ↔ ∃ n, pushed ops = (frames.take n).flatten) ∧
      (pushed ops = frames.flatten → messages results = msgs)) ∧
    ∀ (d : Decoder) (b₀ b₁ b₂ b₃ : UInt8) (rest : List UInt8),
      d.pending = b₀ :: b₁ :: b₂ :: b₃ :: rest → most < fromBeBytes b₀ b₁ b₂ b₃ →
      d.next codec.take most = (.error (.tooLarge (fromBeBytes b₀ b₁ b₂ b₃) most), d) := by
  intro results d
  have hnew : new.pending = [] := rfl
  have hstart : new.pending ++ pushed ops <+: frames.flatten := by rwa [hnew, List.nil_append]
  obtain ⟨done, left, doneFrames, leftFrames, hmsgs, hframes, hlength, hleft, hmessages, hok,
    hrest⟩ := run_framed (Nat.zero_le _) h hstart
  rw [hnew, List.nil_append] at hrest
  replace hrest : pushed ops = doneFrames.flatten ++ d.pending := hrest
  have hpending : d.pending <+: leftFrames.flatten := by
    rw [hrest, hframes, List.flatten_append] at hpre
    exact (List.prefix_append_right_inj _).mp hpre
  have hfinish : d.finish = .ok () ↔ pushed ops = doneFrames.flatten := by
    rw [finish_iff, hrest]
    simp
  refine ⟨⟨done, left, doneFrames, leftFrames, hmsgs, hframes, hlength, hmessages, hok, ?_,
    hfinish⟩, fun hnone => ?_, fun d b₀ b₁ b₂ b₃ rest hd hlarge => ?_⟩
  · rcases next_framed hleft hpending with
      ⟨msg, left, frame, leftFrames, rfl, rfl, hmsg, hsplit⟩ | ⟨hnone, -, hnot⟩
    · exact .inl ⟨msg, frame, rfl, rfl, ⟨_, hsplit.symm⟩, hmsg⟩
    · exact .inr ⟨hnot, hnone⟩
  · rcases next_framed hleft hpending with
      ⟨msg, left, frame, leftFrames, rfl, rfl, hmsg, hsplit⟩ | ⟨-, -, hnot⟩
    · rw [hmsg] at hnone
      cases hnone
    · refine ⟨⟨fun hfin => ?_, ?_⟩, fun hall => ?_⟩
      · refine ⟨doneFrames.length, ?_⟩
        rw [hfinish.mp hfin, hframes, List.take_left]
      · rintro ⟨n, hn⟩
        exact (finish_iff d).mpr (pending_nil_of_boundary hframes hrest hnot hn)
      · have hnil : d.pending = [] := by
          refine pending_nil_of_boundary (n := frames.length) hframes hrest hnot ?_
          rw [List.take_length, hall]
        have hflat : leftFrames.flatten = [] := by
          rw [hrest, hframes, hnil, List.flatten_append] at hall
          simpa using hall
        cases leftFrames with
        | nil =>
          have hnone : left = [] := List.forall₂_nil_right_iff.mp hleft
          rw [hmsgs, hnone, List.append_nil]
          exact hmessages
        | cons frame frames' =>
          rw [List.flatten_cons] at hflat
          have hframe : frame = [] := (List.append_eq_nil_iff.mp hflat).1
          exact absurd (hframe ▸ List.nil_prefix) (hnot frame rfl)
  · simp only [next, nextBody_tooLarge hd hlarge]

def plain : Codec (List UInt8) := ⟨id, some, fun _ => rfl⟩

/-- Two messages' frames, pushed in three pieces. -/
def twoOps : List DecoderOp :=
  [.push [0, 0], .next, .push [0, 1, 7, 0, 0], .next, .push [0, 0], .next]

/-- In `splits`, the frames of two messages. -/
theorem splits_two :
    let frames : List (List UInt8) := [[0, 0, 0, 1, 7], [0, 0, 0, 0]]
    messages (run plain.take 1 .new twoOps).1 = [[7], []] ∧
      ((run plain.take 1 .new twoOps).2.finish = .ok () ↔
        ∃ n, pushed twoOps = (frames.take n).flatten) := by
  intro frames
  have hframed : Framed plain 1 [[7], []] frames :=
    .cons ⟨by decide, by decide⟩ (.cons ⟨by decide, by decide⟩ .nil)
  have hpre : pushed twoOps <+: frames.flatten := ⟨[], by decide⟩
  obtain ⟨hfinish, hall⟩ := (splits hframed hpre).2.1 (by decide)
  exact ⟨hall (by decide), hfinish⟩

/-- A message one byte longer than four bytes can say is not what comes out. -/
theorem next_overlong {msg frame : List UInt8} (hlen : msg.length = mostLength + 1)
    (hframe : encode (plain.put msg) (mostLength + 1) = .ok frame) :
    ∃ other, ((new.push frame).next plain.take (mostLength + 1)).1 = .ok (some other) ∧
      other ≠ msg := by
  have hshort : (msg.take mostLength).length = mostLength := by
    rw [List.length_take, hlen]
    exact Nat.min_eq_left (Nat.le_succ _)
  have hok : encode msg (mostLength + 1) = .ok (toBeBytes (min msg.length mostLength) ++ msg) :=
    encode_ok (Nat.le_of_eq hlen)
  obtain rfl := Except.ok.inj (hok.symm.trans hframe)
  rw [hlen, Nat.min_eq_right (Nat.le_succ _)]
  have hpending : (new.push (toBeBytes mostLength ++ msg)).pending =
      (mostLength / 2 ^ 24).toUInt8 :: (mostLength / 2 ^ 16).toUInt8 ::
        (mostLength / 2 ^ 8).toUInt8 :: mostLength.toUInt8 ::
        (msg.take mostLength ++ msg.drop mostLength) := by
    rw [List.take_append_drop]
    rfl
  obtain ⟨d', hbody, -⟩ := nextBody_whole (fromBeBytes_toBeBytes (Nat.le_refl _))
    (Nat.le_succ mostLength) hshort hpending
  refine ⟨msg.take mostLength, ?_, fun heq => ?_⟩
  · simp only [next, hbody]
    rfl
  · rw [heq, hlen] at hshort
    omega

/-- A length of four bytes does not hold that of every message that a decoder may be made
for; and between messages `finish` fails where one was not taken yet. -/
theorem splits_breaks :
    (∃ msg frame other : List UInt8, encode (plain.put msg) (mostLength + 1) = .ok frame ∧
      ((new.push frame).next plain.take (mostLength + 1)).1 = .ok (some other) ∧ other ≠ msg) ∧
    ∃ frame, encode (plain.put [7]) 1 = .ok frame ∧
      (new.push frame).finish = .error .truncated := by
  refine ⟨?_, [0, 0, 0, 1, 7], by decide, by decide⟩
  have hlen : (List.replicate (mostLength + 1) (0 : UInt8)).length = mostLength + 1 :=
    List.length_replicate
  have hframe := encode_ok (Nat.le_of_eq hlen)
  obtain ⟨other, hnext, hne⟩ := next_overlong hlen hframe
  exact ⟨_, _, other, hframe, hnext, hne⟩

end Decoder

end Koh.Wire
