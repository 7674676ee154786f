import Mathlib.Algebra.GroupWithZero.Nat
import Mathlib.Data.List.TakeWhile
import Mathlib.Tactic.Common

/-!
# Numbers in a text

A number is read off the front of a text, as many digits as there are, and what it was
written as is read back.

## Main definitions

- `Scan`: reads a value off the front of a text
- `given`: reads a character that must be next
- `number`: reads a number

## Main results

- `number_toDigits`: the digits of a number are read as the number
- `scan_bind`: one value after another
-/

namespace Koh.Lib

/-- Reads a value off the front of a text. -/
abbrev Scan (α : Type) := StateT (List Char) Option α

def given (c : Char) : Scan Unit := fun
  | [] => none
  | x :: rest => if x = c then some ((), rest) else none

/-- What a character is as a digit: a letter is one in either case. -/
def digitOf (radix : ℕ) (c : Char) : Option ℕ :=
  let digit :=
    if '0' ≤ c ∧ c ≤ '9' then some (c.toNat - '0'.toNat)
    else if 'a' ≤ c ∧ c ≤ 'z' then some (c.toNat - 'a'.toNat + 10)
    else if 'A' ≤ c ∧ c ≤ 'Z' then some (c.toNat - 'A'.toNat + 10)
    else none
  digit.filter (· < radix)

def isDigitOf (radix : ℕ) (c : Char) : Bool := (digitOf radix c).isSome

/-- The number that digits are. -/
def valueOf (radix : ℕ) (digits : List Char) : ℕ :=
  digits.foldl (fun n c => radix * n + (digitOf radix c).getD 0) 0

/-- A number below `size`, in at most so many digits. -/
def number (radix : ℕ) (most : Option ℕ) (zeros : Bool) (size : ℕ) : Scan ℕ := fun text =>
  let digits := text.takeWhile (isDigitOf radix)
  if digits = [] then none
  else if most.any (· < digits.length) then none
  -- A zero before other digits.
  else if !zeros && digits.head? = some '0' && 1 < digits.length then none
  else if valueOf radix digits < size then
    some (valueOf radix digits, text.dropWhile (isDigitOf radix))
  else none

variable {radix n size : ℕ} {most : Option ℕ} {zeros : Bool} {rest : List Char} {c : Char}

def Undigit (radix : ℕ) (text : List Char) : Prop := ∀ c ∈ text.head?, isDigitOf radix c = false

section

variable {α β : Type} {r : Scan α} {f : α → Scan β} {a : α} {text : List Char}

/-- What is read after a value. -/
theorem scan_bind (h : r text = some (a, rest)) : (r >>= f) text = f a rest := by
  change (r text).bind (fun read => f read.1 read.2) = _
  rw [h, Option.bind_some]

/-- A scan that fails fails with what follows it. -/
theorem scan_bind_none (h : r text = none) : (r >>= f) text = none := by
  change (r text).bind (fun read => f read.1 read.2) = _
  rw [h, Option.bind_none]

/-- What was read where two were read. -/
theorem scan_bind_some {b : β} (h : (r >>= f) text = some (b, rest)) :
    ∃ a rest', r text = some (a, rest') ∧ f a rest' = some (b, rest) := by
  obtain ⟨⟨a, rest'⟩, ha, hb⟩ := Option.bind_eq_some_iff.mp h
  exact ⟨a, rest', ha, hb⟩

end

theorem given_cons : given c (c :: rest) = some ((), rest) := by simp [given]

theorem given_ne {x : Char} (h : x ≠ c) : given c (x :: rest) = none := by simp [given, h]

/-- Each digit is read as itself. -/
theorem digitOf_digitChar_all : ∀ d < 16, digitOf 16 (Nat.digitChar d) = some d := by decide

/-- A digit of the radix is read as itself. -/
theorem digitOf_digitChar (hradix : radix ≤ 16) (hn : n < radix) :
    digitOf radix (Nat.digitChar n) = some n := by
  have hall := digitOf_digitChar_all n (by omega)
  rw [digitOf, Option.filter_eq_some_iff] at hall ⊢
  exact ⟨hall.1, by simpa using hn⟩

/-- Each character of a number is a digit's. -/
theorem exists_of_mem_toDigits (hradix : 1 < radix) (h : c ∈ Nat.toDigits radix n) :
    ∃ d < radix, c = Nat.digitChar d := by
  induction n using Nat.strong_induction_on with
  | _ n ih =>
    rw [Nat.toDigits_eq_if hradix] at h
    split at h
    · next hn =>
      rw [List.mem_singleton] at h
      exact ⟨n, hn, h⟩
    · next hn =>
      rcases List.mem_append.mp h with h | h
      · exact ih (n / radix) (Nat.div_lt_self (by omega) hradix) h
      · rw [List.mem_singleton] at h
        exact ⟨n % radix, Nat.mod_lt _ (by omega), h⟩

/-- A number is written in digits of its radix. -/
theorem isDigitOf_of_mem_toDigits (hradix : 1 < radix) (hmost : radix ≤ 16)
    (h : c ∈ Nat.toDigits radix n) : isDigitOf radix c = true := by
  obtain ⟨d, hd, rfl⟩ := exists_of_mem_toDigits hradix h
  rw [isDigitOf, digitOf_digitChar hmost hd]
  rfl

/-- What is written of a number is its value. -/
theorem valueOf_toDigits (hradix : 1 < radix) (hmost : radix ≤ 16) (n : ℕ) :
    valueOf radix (Nat.toDigits radix n) = n := by
  induction n using Nat.strong_induction_on with
  | _ n ih =>
    rw [Nat.toDigits_eq_if hradix]
    split
    · next hn => simp [valueOf, digitOf_digitChar hmost hn]
    · next hn =>
      have hlast : digitOf radix (Nat.digitChar (n % radix)) = some (n % radix) :=
        digitOf_digitChar hmost (Nat.mod_lt _ (by omega))
      have hinit : valueOf radix (Nat.toDigits radix (n / radix)) = n / radix :=
        ih (n / radix) (Nat.div_lt_self (by omega) hradix)
      rw [valueOf, List.foldl_append, ← valueOf, hinit, List.foldl_cons, List.foldl_nil, hlast]
      exact Nat.div_add_mod n radix

/-- Only zero begins with a zero. -/
theorem eq_zero_of_head_toDigits (hradix : 1 < radix)
    (h : (Nat.toDigits radix n).head? = some '0') : n = 0 := by
  induction n using Nat.strong_induction_on with
  | _ n ih =>
    rw [Nat.toDigits_eq_if hradix] at h
    split at h
    · simpa using h
    · next hn =>
      obtain ⟨x, more, hmore⟩ := List.exists_cons_of_ne_nil
        (Nat.toDigits_ne_nil (n := n / radix) (b := radix))
      rw [hmore, List.cons_append, List.head?_cons] at h
      have hdiv : n / radix = 0 :=
        ih (n / radix) (Nat.div_lt_self (by omega) hradix) (by rw [hmore, List.head?_cons, h])
      have hpos : 0 < n / radix := Nat.div_pos (by omega) (by omega)
      omega

/-- Digits are read as far as they go. -/
theorem takeWhile_digits {digits : List Char} (h : ∀ c ∈ digits, isDigitOf radix c = true)
    (hrest : Undigit radix rest) :
    (digits ++ rest).takeWhile (isDigitOf radix) = digits ∧
      (digits ++ rest).dropWhile (isDigitOf radix) = rest := by
  have hstop : rest.takeWhile (isDigitOf radix) = [] ∧ rest.dropWhile (isDigitOf radix) = rest := by
    cases rest with
    | nil => exact ⟨rfl, rfl⟩
    | cons c rest => simp [hrest c rfl]
  rw [List.takeWhile_append_of_pos h, List.dropWhile_append_of_pos h, hstop.1, hstop.2,
    List.append_nil]
  exact ⟨rfl, rfl⟩

/-- The digits of a number are read as the number. -/
theorem number_toDigits (hradix : 1 < radix) (hle : radix ≤ 16) (hsize : n < size)
    (hmost : ∀ m ∈ most, 0 < m ∧ n < radix ^ m) (hrest : Undigit radix rest) :
    number radix most zeros size (Nat.toDigits radix n ++ rest) = some (n, rest) := by
  have hdigits : ∀ c ∈ Nat.toDigits radix n, isDigitOf radix c = true :=
    fun c hc => isDigitOf_of_mem_toDigits hradix hle hc
  have hlength : most.any (· < (Nat.toDigits radix n).length) = false := by
    cases most with
    | none => rfl
    | some m =>
      obtain ⟨hpos, hlt⟩ := hmost m rfl
      simpa using (Nat.length_toDigits_le_iff hradix hpos).mpr hlt
  have hzero : ¬ (!zeros && (Nat.toDigits radix n).head? = some '0' &&
      1 < (Nat.toDigits radix n).length) = true := by
    intro h
    simp only [Bool.and_eq_true, decide_eq_true_eq] at h
    have hn : n = 0 := eq_zero_of_head_toDigits hradix h.1.2
    have hone : (Nat.toDigits radix n).length = 1 := by rw [hn, Nat.toDigits_zero]; rfl
    omega
  obtain ⟨htake, hdrop⟩ := takeWhile_digits hdigits hrest
  simp only [number]
  rw [htake, hdrop, valueOf_toDigits hradix hle, if_neg Nat.toDigits_ne_nil,
    if_neg (by simp [hlength]), if_neg hzero, if_pos hsize]

/-- A number is read off the front. -/
theorem suffix_of_number {text : List Char}
    (h : number radix most zeros size text = some (n, rest)) : rest <:+ text := by
  simp only [number] at h
  split at h
  · cases h
  · split at h
    · cases h
    · split at h
      · cases h
      · split at h
        · cases h
          exact List.dropWhile_suffix _
        · cases h

/-- No number begins where no digit does. -/
theorem number_eq_none (h : Undigit radix rest) : number radix most zeros size rest = none := by
  have hnone : rest.takeWhile (isDigitOf radix) = [] := by
    cases rest with
    | nil => rfl
    | cons c rest => simp [h c rfl]
  simp [number, hnone]

end Koh.Lib
