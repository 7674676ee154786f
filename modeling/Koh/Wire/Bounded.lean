import Koh.Lib.Postcard

/-!
# Bounded sequences on the wire

`at_most`, from `bounded.rs`: a sequence that announces more items than its bound is
refused before any is read.

## Design notes

`postcard` writes a sequence as its length, a number, and its items. How it writes a number
is a parameter (`Varint`).
-/

namespace Koh.Wire

open Koh.Lib

variable {α : Type}

/-- A sequence: its length, then its items. -/
def putSeq (vt : Varint) (put : α → List UInt8) (items : List α) : List UInt8 :=
  vt.put items.length ++ items.flatMap put

/-- A sequence of at most so many items: one that announces more is refused. -/
def atMost (vt : Varint) (most : ℕ) (item : Take α) : Take (List α) := do
  let announced ← vt.take 64
  if most < announced then failure else takeMany item announced

/-- A sequence within its bound is read as what its items are. -/
theorem reads_atMost_map (vt : Varint) {β : Type} {most : ℕ} (hmost : most < 2 ^ 64)
    {item : Take β} {put : α → List UInt8} {f : α → β} {items : List α}
    (hlen : items.length ≤ most) (h : ∀ a ∈ items, Reads item (put a) (f a)) :
    Reads (atMost vt most item) (putSeq vt put items) (items.map f) := by
  refine (vt.reads (Nat.lt_of_le_of_lt hlen hmost)).bind ?_
  rw [if_neg (Nat.not_lt.mpr hlen)]
  exact .many_map h

/-- A sequence within its bound is read back. -/
theorem reads_atMost (vt : Varint) {most : ℕ} (hmost : most < 2 ^ 64) {item : Take α}
    {put : α → List UInt8} {items : List α} (hlen : items.length ≤ most)
    (h : ∀ a ∈ items, Reads item (put a) a) :
    Reads (atMost vt most item) (putSeq vt put items) items := by
  have hmap := reads_atMost_map vt (f := id) hmost hlen h
  rwa [List.map_id] at hmap

/-- What comes of reading a sequence within its bound. -/
theorem run_atMost (vt : Varint) {β : Type} {most : ℕ} (hmost : most < 2 ^ 64) {item : Take β}
    {put : α → List UInt8} {f : α → Option β} {items : List α} (hlen : items.length ≤ most)
    (h : ∀ a rest, item.run (put a ++ rest) = (f a).map (·, rest)) (rest : List UInt8) :
    (atMost vt most item).run (putSeq vt put items ++ rest) = (items.mapM f).map (·, rest) := by
  unfold atMost putSeq
  rw [StateT.run_bind, List.append_assoc, vt.reads (Nat.lt_of_le_of_lt hlen hmost)]
  show (if most < items.length then failure else takeMany item items.length).run _ = _
  rw [if_neg (Nat.not_lt.mpr hlen)]
  exact run_takeMany h items rest

/-- Bytes are a sequence of them. -/
def putBytes (vt : Varint) (bytes : List UInt8) : List UInt8 := vt.put bytes.length ++ bytes

/-- Bytes within the most are read back. -/
theorem reads_atMost_bytes (vt : Varint) {most : ℕ} (hmost : most < 2 ^ 64) {bytes : List UInt8}
    (hlen : bytes.length ≤ most) : Reads (atMost vt most takeByte) (putBytes vt bytes) bytes := by
  refine (vt.reads (Nat.lt_of_le_of_lt hlen hmost)).bind ?_
  rw [if_neg (Nat.not_lt.mpr hlen)]
  exact reads_bytes bytes

end Koh.Wire
