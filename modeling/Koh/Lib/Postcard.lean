import Mathlib.Algebra.Order.Group.Nat
import Mathlib.Data.List.Basic

/-!
# Values on the wire

What is written one value after another is read back one value after another. How a number is
written is a parameter, with what its users rely on: it is read back whatever follows it, and
takes a byte for each seven bits at most.

## Main definitions

- `Take`: reads a value off the front of bytes
- `Reads`: bytes are read as a value, whatever follows
- `Varint`: how numbers are written
- `leb128`: seven bits a byte, the lowest first

## Main results

- `Reads.bind`, `Reads.many`: values one after another
- `run_takeMany`: and what comes of them where some cannot be read
- `takeLeb_putLeb`: seven bits a byte are read back
-/

namespace Koh.Lib

/-- Reads a value off the front of bytes. -/
abbrev Take (α : Type) := StateT (List UInt8) Option α

def Reads {α : Type} (r : Take α) (bytes : List UInt8) (a : α) : Prop :=
  ∀ rest, r.run (bytes ++ rest) = some (a, rest)

/-- How numbers are written, and read as ones of so many bits. -/
structure Varint where
  put : ℕ → List UInt8
  take : ℕ → Take ℕ
  reads : ∀ {bits n : ℕ}, n < 2 ^ bits → Reads (take bits) (put n) n
  length_le : ∀ {bits n : ℕ}, n < 2 ^ bits → (put n).length ≤ bits / 7 + 1

def takeByte : Take UInt8 := fun
  | [] => none
  | b :: rest => some (b, rest)

def takeMany {α : Type} (item : Take α) : ℕ → Take (List α)
  | 0 => pure []
  | n + 1 => do
    let a ← item
    let as ← takeMany item n
    pure (a :: as)

section

variable {α β : Type} {r : Take α} {a : α} {bytes bytes' : List UInt8}

theorem Reads.pure (a : α) : Reads (Pure.pure a) [] a := fun _ => rfl

/-- One read after another. -/
theorem Reads.bind {f : α → Take β} {b : β} (h : Reads r bytes a) (h' : Reads (f a) bytes' b) :
    Reads (r >>= f) (bytes ++ bytes') b := by
  intro rest
  rw [StateT.run_bind, List.append_assoc, h]
  exact h' rest

/-- What reads nothing more. -/
theorem Reads.andThen {f : α → Take β} {b : β} (h : Reads r bytes a) (h' : Reads (f a) [] b) :
    Reads (r >>= f) bytes b := by
  simpa using h.bind h'

theorem reads_takeByte (b : UInt8) : Reads takeByte [b] b := fun _ => rfl

/-- Values that are read one by one, each as what `f` makes of it, are read together. -/
theorem Reads.many_map {γ : Type} {put : γ → List UInt8} {f : γ → α} {as : List γ}
    (h : ∀ a ∈ as, Reads r (put a) (f a)) :
    Reads (takeMany r as.length) (as.flatMap put) (as.map f) := by
  induction as with
  | nil => exact .pure []
  | cons a as ih =>
    rw [List.flatMap_cons, List.length_cons, List.map_cons]
    refine (h a List.mem_cons_self).bind ?_
    exact (ih fun x hx => h x (List.mem_cons_of_mem _ hx)).andThen (.pure _)

/-- Values that are read one by one are read together. -/
theorem Reads.many {put : α → List UInt8} {as : List α}
    (h : ∀ a ∈ as, Reads r (put a) a) : Reads (takeMany r as.length) (as.flatMap put) as := by
  have hmap := Reads.many_map (f := id) h
  rwa [List.map_id] at hmap

/-- What comes of reading values one by one comes of reading them together: the values that `f`
makes of them, or nothing. -/
theorem run_takeMany {γ : Type} {put : γ → List UInt8} {f : γ → Option α}
    (h : ∀ a rest, r.run (put a ++ rest) = (f a).map (·, rest)) (as : List γ) (rest : List UInt8) :
    (takeMany r as.length).run (as.flatMap put ++ rest) = (as.mapM f).map (·, rest) := by
  induction as with
  | nil => rfl
  | cons a as ih =>
    rw [List.flatMap_cons, List.length_cons, List.append_assoc, takeMany, StateT.run_bind, h,
      List.mapM_cons]
    cases f a with
    | none => rfl
    | some b =>
      show ((takeMany r as.length) >>= fun bs => Pure.pure (b :: bs)).run _ = _
      rw [StateT.run_bind, ih]
      cases as.mapM f <;> rfl

/-- So many bytes are read as themselves. -/
theorem reads_bytes (bytes : List UInt8) : Reads (takeMany takeByte bytes.length) bytes bytes := by
  have hmany : Reads (takeMany takeByte bytes.length) (bytes.flatMap fun b => [b]) bytes :=
    .many fun b _ => reads_takeByte b
  simpa using hmany

end

/-! ### Seven bits a byte -/

/-- The lowest seven bits first; each byte but the last has its high bit set. -/
def putLeb (n : ℕ) : List UInt8 :=
  if n < 128 then [n.toUInt8] else (n % 128 + 128).toUInt8 :: putLeb (n / 128)
termination_by n
decreasing_by omega

/-- Of at most so many bytes. -/
def takeLeb : ℕ → List UInt8 → Option (ℕ × List UInt8)
  | 0, _ => none
  | _ + 1, [] => none
  | k + 1, b :: rest =>
    if b.toNat < 128 then some (b.toNat, rest)
    else (takeLeb k rest).map fun r => (b.toNat - 128 + 128 * r.1, r.2)

theorem toNat_toUInt8 {n : ℕ} (h : n < 256) : n.toUInt8.toNat = n := by
  simpa using Nat.mod_eq_of_lt h

/-- A small number is one byte. -/
theorem putLeb_small {n : ℕ} (h : n < 128) : putLeb n = [n.toUInt8] := by
  rw [putLeb, if_pos h]

/-- A larger one is its low bits, and the rest. -/
theorem putLeb_large {n : ℕ} (h : 128 ≤ n) :
    putLeb n = (n % 128 + 128).toUInt8 :: putLeb (n / 128) := by
  rw [putLeb, if_neg (Nat.not_lt.mpr h)]

theorem div_lt_of_lt_pow {k n : ℕ} (h : n < 128 ^ (k + 1 + 1)) : n / 128 < 128 ^ (k + 1) :=
  Nat.div_lt_of_lt_mul (by rwa [Nat.mul_comm, ← Nat.pow_succ])

/-- What is written of a number is read back. -/
theorem takeLeb_putLeb {k n : ℕ} (h : n < 128 ^ (k + 1)) (rest : List UInt8) :
    takeLeb (k + 1) (putLeb n ++ rest) = some (n, rest) := by
  induction k generalizing n with
  | zero =>
    have hn : n < 128 := by simpa using h
    rw [putLeb_small hn, List.singleton_append, takeLeb, toNat_toUInt8 (by omega), if_pos hn]
  | succ k ih =>
    rcases Nat.lt_or_ge n 128 with hn | hn
    · rw [putLeb_small hn, List.singleton_append, takeLeb, toNat_toUInt8 (by omega), if_pos hn]
    · rw [putLeb_large hn, List.cons_append, takeLeb, toNat_toUInt8 (by omega), if_neg (by omega),
        ih (div_lt_of_lt_pow h)]
      have hvalue : n % 128 + 128 - 128 + 128 * (n / 128) = n := by omega
      rw [Option.map_some, hvalue]

/-- How many bytes a number takes. -/
theorem putLeb_length {k n : ℕ} (h : n < 128 ^ (k + 1)) : (putLeb n).length ≤ k + 1 := by
  induction k generalizing n with
  | zero =>
    rw [putLeb_small (by simpa using h)]
    exact Nat.le_refl 1
  | succ k ih =>
    rcases Nat.lt_or_ge n 128 with hn | hn
    · rw [putLeb_small hn]
      exact Nat.le_add_left _ _
    · rw [putLeb_large hn]
      exact Nat.succ_le_succ (ih (div_lt_of_lt_pow h))

/-- A number of so many bits fits in so many groups of seven. -/
theorem two_pow_le (bits : ℕ) : 2 ^ bits ≤ 128 ^ (bits / 7 + 1) := by
  have hbits : bits ≤ 7 * (bits / 7 + 1) := by omega
  calc 2 ^ bits ≤ 2 ^ (7 * (bits / 7 + 1)) := Nat.pow_le_pow_right (by decide) hbits
    _ = 128 ^ (bits / 7 + 1) := Nat.pow_mul 2 7 _

/-- Numbers in seven bits a byte; one too large for its bits is none. -/
def leb128 : Varint where
  put := putLeb
  take bits bytes := (takeLeb (bits / 7 + 1) bytes).filter (·.1 < 2 ^ bits)
  reads {bits n} h rest := by
    show (takeLeb (bits / 7 + 1) (putLeb n ++ rest)).filter _ = _
    rw [takeLeb_putLeb (Nat.lt_of_lt_of_le h (two_pow_le bits))]
    simp [h]
  length_le h := putLeb_length (Nat.lt_of_lt_of_le h (two_pow_le _))

end Koh.Lib
