import Mathlib.Algebra.Order.BigOperators.Group.List
import Mathlib.Data.List.Infix
import Mathlib.Algebra.GroupWithZero.Nat

/-!
# Messages on a stream of bytes

Messages sent one after another make a stream, and whoever takes bytes off it has the
messages that are wholly among them.

## Main definitions

- `total`: the bytes of messages
- `whole`: the messages wholly within the first bytes

## Main results

- `prefix_whole`: all messages sent in the bytes taken are had
- `whole_append`: what is sent after the bytes taken changes nothing
-/

namespace Koh.Lib

variable {α : Type} {size : α → ℕ} {l l' p : List α} {k k' : ℕ}

def total (size : α → ℕ) (l : List α) : ℕ := (l.map size).sum

/-- The messages wholly within the first `k` bytes. -/
def whole (size : α → ℕ) : List α → ℕ → List α
  | [], _ => []
  | m :: l, k => if size m ≤ k then m :: whole size l (k - size m) else []

@[simp] theorem total_nil : total size [] = 0 := rfl

@[simp] theorem total_cons (m : α) (l : List α) : total size (m :: l) = size m + total size l := by
  simp [total]

@[simp] theorem total_append (l l' : List α) :
    total size (l ++ l') = total size l + total size l' := by
  simp [total]

/-- A prefix is no longer. -/
theorem total_le_of_isPrefix (h : p <+: l) : total size p ≤ total size l := by
  obtain ⟨rest, rfl⟩ := h
  simp

/-- What is whole is a prefix. -/
theorem whole_isPrefix (size : α → ℕ) (l : List α) (k : ℕ) : whole size l k <+: l := by
  induction l generalizing k with
  | nil => exact List.prefix_rfl
  | cons m l ih =>
    unfold whole
    split
    · exact List.cons_prefix_cons.mpr ⟨rfl, ih _⟩
    · exact List.nil_prefix

/-- What is sent in the bytes taken is had. -/
theorem prefix_whole (h : p <+: l) (hk : total size p ≤ k) : p <+: whole size l k := by
  induction l generalizing p k with
  | nil => exact h
  | cons m l ih =>
    cases p with
    | nil => exact List.nil_prefix
    | cons x p =>
      obtain ⟨rfl, hrest⟩ := List.cons_prefix_cons.mp h
      rw [total_cons] at hk
      unfold whole
      rw [if_pos (by omega)]
      exact List.cons_prefix_cons.mpr ⟨rfl, ih hrest (by omega)⟩

/-- What is whole is within the bytes. -/
theorem total_whole_le (size : α → ℕ) (l : List α) (k : ℕ) : total size (whole size l k) ≤ k := by
  induction l generalizing k with
  | nil => exact Nat.zero_le k
  | cons m l ih =>
    unfold whole
    split
    · have hrest := ih (k - size m)
      rw [total_cons]
      omega
    · exact Nat.zero_le k

/-- More bytes make more whole. -/
theorem whole_mono (h : k ≤ k') : whole size l k <+: whole size l k' :=
  prefix_whole (whole_isPrefix size l k) ((total_whole_le size l k).trans h)

/-- No bytes make nothing whole. -/
theorem whole_zero (hsize : ∀ m, 0 < size m) (l : List α) : whole size l 0 = [] := by
  cases l with
  | nil => rfl
  | cons m l =>
    unfold whole
    rw [if_neg (Nat.not_le.mpr (hsize m))]

/-- A prefix of what is sent whose bytes were sent before is a prefix of what was sent
before. -/
theorem prefix_of_total_le (hsize : ∀ m, 0 < size m) (h : p <+: l ++ l')
    (hk : total size p ≤ total size l) : p <+: l := by
  rcases List.prefix_or_prefix_of_prefix h (List.prefix_append l l') with hp | ⟨rest, rfl⟩
  · exact hp
  · rw [total_append] at hk
    cases rest with
    | nil => rw [List.append_nil]
    | cons m rest =>
      have hpos := hsize m
      rw [total_cons] at hk
      omega

/-- What is sent after the bytes taken changes nothing. -/
theorem whole_append (hsize : ∀ m, 0 < size m) (h : k ≤ total size l) :
    whole size (l ++ l') k = whole size l k := by
  induction l generalizing k with
  | nil =>
    have hzero : k = 0 := Nat.le_zero.mp h
    rw [hzero, whole_zero hsize, whole_zero hsize]
  | cons m l ih =>
    rw [total_cons] at h
    rw [List.cons_append]
    unfold whole
    split
    · rw [ih (by omega)]
    · rfl

end Koh.Lib
