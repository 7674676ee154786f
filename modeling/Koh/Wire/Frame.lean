import Koh.Lib.Postcard

/-!
# Messages with their length before them

How a message goes on a stream: `encode` and `body_len`, from `request.rs`, and `Decoder`, from
`proto.rs`, which splits a stream back into messages however its bytes arrive.

## Main definitions

- `encode`: a body with its length before it
- `Decoder`: the bytes read of a stream, and how many of them were decoded
- `Decoder.nextBody`, `Decoder.next`: the next whole message's body, and the message

## Main results

- `Decoder.nextBody_encode`: a message at the front of what is pending is taken off it, whole
-/

namespace Koh.Wire

/-- Why bytes from the peer were rejected. -/
inductive ProtoError where
  | tooLarge (len most : ℕ)
  | truncated
  | malformed
  deriving DecidableEq

/-! ### The length -/

def mostLength : ℕ := 2 ^ 32 - 1

def toBeBytes (n : ℕ) : List UInt8 :=
  [(n / 2 ^ 24).toUInt8, (n / 2 ^ 16).toUInt8, (n / 2 ^ 8).toUInt8, n.toUInt8]

def fromBeBytes (b₀ b₁ b₂ b₃ : UInt8) : ℕ :=
  ((b₀.toNat * 256 + b₁.toNat) * 256 + b₂.toNat) * 256 + b₃.toNat

/-- A length is read back. -/
theorem fromBeBytes_toBeBytes {n : ℕ} (h : n ≤ mostLength) :
    fromBeBytes (n / 2 ^ 24).toUInt8 (n / 2 ^ 16).toUInt8 (n / 2 ^ 8).toUInt8 n.toUInt8 = n := by
  simp only [mostLength] at h
  simp only [fromBeBytes, Nat.toUInt8_eq, UInt8.toNat_ofNat']
  omega

/-- A message's body with its length before it. -/
def encode (body : List UInt8) (most : ℕ) : Except ProtoError (List UInt8) :=
  if most < body.length then .error (.tooLarge body.length most)
  else .ok (toBeBytes (min body.length mostLength) ++ body)

/-- The length that a message announces, refused past `most`. -/
def bodyLen (announced most : ℕ) : Except ProtoError ℕ :=
  if most < announced then .error (.tooLarge announced most) else .ok announced

@[simp] theorem length_toBeBytes (n : ℕ) : (toBeBytes n).length = 4 := rfl

/-- A body within the most is framed. -/
theorem encode_ok {body : List UInt8} {most : ℕ} (h : body.length ≤ most) :
    encode body most = .ok (toBeBytes (min body.length mostLength) ++ body) :=
  if_neg (Nat.not_lt.mpr h)

/-! ### The decoder -/

/-- The bytes read of a stream, and how many at their front were decoded. -/
structure Decoder where
  buf : List UInt8
  start : ℕ
  deriving DecidableEq

namespace Decoder

def new : Decoder := ⟨[], 0⟩

def push (d : Decoder) (bytes : List UInt8) : Decoder := { d with buf := d.buf ++ bytes }

def pending (d : Decoder) : List UInt8 := d.buf.drop d.start

/-- Drop the decoded bytes. -/
def compact (d : Decoder) : Decoder := ⟨d.buf.drop d.start, 0⟩

/-- The next whole message's body, `none` if more bytes are needed. -/
def nextBody (d : Decoder) (most : ℕ) : Except ProtoError (Option (List UInt8)) × Decoder :=
  match d.pending with
  | b₀ :: b₁ :: b₂ :: b₃ :: rest =>
    match bodyLen (fromBeBytes b₀ b₁ b₂ b₃) most with
    | .error e => (.error e, d)
    | .ok len =>
      if rest.length < len then (.ok none, d.compact)
      else
        let first := d.start + 4
        let last := first + len
        (.ok (if last ≤ d.buf.length then some ((d.buf.drop first).take len) else none),
          { d with start := min last d.buf.length })
  | _ => (.ok none, d.compact)

/-- The next whole message, read of its body by `take`; `none` if more bytes are needed. -/
def next {α : Type} (take : List UInt8 → Option α) (d : Decoder) (most : ℕ) :
    Except ProtoError (Option α) × Decoder :=
  match d.nextBody most with
  | (.error e, d) => (.error e, d)
  | (.ok none, d) => (.ok none, d)
  | (.ok (some body), d) =>
    match take body with
    | some msg => (.ok (some msg), d)
    | none => (.error .malformed, d)

/-- The stream ended: fine between messages. -/
def finish (d : Decoder) : Except ProtoError Unit :=
  if d.pending = [] then .ok () else .error .truncated

/-- What `nextBody` makes of a whole message: its body, and where the next one starts. -/
theorem nextBody_whole {d : Decoder} {len most : ℕ} {b₀ b₁ b₂ b₃ : UInt8} {body rest : List UInt8}
    (hlen : fromBeBytes b₀ b₁ b₂ b₃ = len) (hmost : len ≤ most) (hbody : body.length = len)
    (hpending : d.pending = b₀ :: b₁ :: b₂ :: b₃ :: (body ++ rest)) :
    ∃ d' : Decoder, d.nextBody most = (.ok (some body), d') ∧ d'.pending = rest := by
  have hdrop : d.buf.drop (d.start + 4) = body ++ rest := by
    rw [← List.drop_drop]
    show d.pending.drop 4 = body ++ rest
    rw [hpending]
    rfl
  have hbuf : d.buf.length = d.start + 4 + (len + rest.length) := by
    have hstart := congrArg List.length hpending
    simp only [pending, List.length_drop, List.length_cons, List.length_append] at hstart
    omega
  refine ⟨{ d with start := d.start + 4 + len }, ?_, ?_⟩
  · have hannounced : bodyLen (fromBeBytes b₀ b₁ b₂ b₃) most = .ok len := by
      rw [hlen]
      exact if_neg (Nat.not_lt.mpr hmost)
    unfold nextBody
    rw [hpending]
    simp only [hannounced]
    rw [if_neg (by simp [hbody]), if_pos (by omega), hdrop, ← hbody, List.take_left,
      Nat.min_eq_left (by omega)]
  · show d.buf.drop (d.start + 4 + len) = rest
    rw [← List.drop_drop, hdrop, ← hbody, List.drop_left]

/-- A whole message that its length can say is taken off the front of what is pending. -/
theorem nextBody_framed {d : Decoder} {body bytes rest : List UInt8} {most : ℕ}
    (hlength : body.length ≤ mostLength) (hbytes : encode body most = .ok bytes)
    (hpending : d.pending = bytes ++ rest) :
    ∃ d' : Decoder, d.nextBody most = (.ok (some body), d') ∧ d'.pending = rest := by
  unfold encode at hbytes
  split at hbytes
  · cases hbytes
  next hlen =>
  obtain rfl := Except.ok.inj hbytes
  rw [Nat.min_eq_left hlength] at hpending
  exact nextBody_whole (fromBeBytes_toBeBytes hlength) (Nat.not_lt.mp hlen) rfl
    (hpending.trans (List.append_assoc _ _ _))

/-- A whole message at the front of what is pending is taken off it. -/
theorem nextBody_encode {d : Decoder} {body bytes rest : List UInt8} {most : ℕ}
    (hmost : most ≤ mostLength) (hbytes : encode body most = .ok bytes)
    (hpending : d.pending = bytes ++ rest) :
    ∃ d' : Decoder, d.nextBody most = (.ok (some body), d') ∧ d'.pending = rest := by
  refine nextBody_framed ?_ hbytes hpending
  unfold encode at hbytes
  split at hbytes
  · cases hbytes
  · next hlen => exact (Nat.not_lt.mp hlen).trans hmost

end Decoder

end Koh.Wire
