import Mathlib.Tactic.Common
import Mathlib.Data.List.Infix
import Mathlib.Algebra.GroupWithZero.Nat

/-!
# UTF-8 as the filter reads it

`incompleteUtf8` is the source's own scan for a character whose end has not
come. `fromUtf8Lossy` and `isControl` follow the documented behaviour of the
library functions of those names (`String::from_utf8_lossy`,
`char::is_control`); a character's bytes are those of `String.utf8EncodeChar`.

The two facts the filter rests on: what `incompleteUtf8` says of a text does
not depend on what was cut away in front of an incomplete character
(`incompleteUtf8_drop_append`), and a text decodes to the characters it was
encoded from (`fromUtf8Lossy_encode`).
-/

namespace Koh.Stream

/-! ### The end of a text -/

/-- `b & 0xc0 == 0x80`: a byte that goes on a character. -/
def isContinuation (b : UInt8) : Bool := b &&& 0xc0 == 0x80

/-- How many bytes a character that `b` begins has, if it is more than one. -/
def utf8Needs (b : UInt8) : Option ℕ :=
  if 0xc2 ≤ b ∧ b ≤ 0xdf then some 2
  else if 0xe0 ≤ b ∧ b ≤ 0xef then some 3
  else if 0xf0 ≤ b ∧ b ≤ 0xf4 then some 4
  else none

/-- The loop of `incompleteUtf8`, over the places `back` from the end it looks at. -/
def incompleteFrom (bytes : List UInt8) : List ℕ → ℕ
  | [] => 0
  | back :: more =>
    match bytes[bytes.length - back]? with
    | none => 0
    | some b =>
      if isContinuation b then incompleteFrom bytes more
      else match utf8Needs b with
        | some needs => if back < needs then back else 0
        | none => 0

/-- How many bytes at the end of `bytes` begin a UTF-8 character whose end has
not come. -/
def incompleteUtf8 (bytes : List UInt8) : ℕ :=
  incompleteFrom bytes (List.range' 1 (min 3 bytes.length))

/-- The same scan over the text reversed: the next byte is `back` from the end,
and `fuel` more are looked at. -/
def scanBack : ℕ → ℕ → List UInt8 → ℕ
  | _, 0, _ => 0
  | _, _ + 1, [] => 0
  | back, fuel + 1, b :: more =>
    if isContinuation b then scanBack (back + 1) fuel more
    else match utf8Needs b with
      | some needs => if back < needs then back else 0
      | none => 0

@[simp] theorem scanBack_no_fuel (back : ℕ) (l : List UInt8) : scanBack back 0 l = 0 := by
  cases l <;> rfl

theorem incompleteFrom_eq_scanBack (bytes : List UInt8) (seen fuel : ℕ)
    (h : seen + fuel = min 3 bytes.length) :
    incompleteFrom bytes (List.range' (seen + 1) fuel) =
      scanBack (seen + 1) (3 - seen) (bytes.reverse.drop seen) := by
  induction fuel generalizing seen with
  | zero =>
    rcases Nat.lt_or_ge seen 3 with hlt | hge
    · have hdrop : bytes.reverse.drop seen = [] := by
        simp only [List.drop_eq_nil_iff, List.length_reverse]; omega
      obtain ⟨n, hn⟩ : ∃ n, 3 - seen = n + 1 := ⟨2 - seen, by omega⟩
      rw [hdrop, hn]; rfl
    · simp [show 3 - seen = 0 by omega, incompleteFrom]
  | succ fuel ih =>
    have hlt : seen < bytes.length := by omega
    have hlt' : seen < bytes.reverse.length := by rwa [List.length_reverse]
    have hget : bytes[bytes.length - (seen + 1)]? = some bytes.reverse[seen] := by
      rw [List.getElem_reverse, List.getElem?_eq_getElem (by omega)]
      congr 2
      omega
    have hdrop := List.drop_eq_getElem_cons (l := bytes.reverse) (i := seen) (by simpa using hlt)
    rw [show 3 - seen = (3 - (seen + 1)) + 1 by omega, hdrop, List.range'_succ, incompleteFrom, hget,
      scanBack, ih (seen + 1) (by omega)]

theorem incompleteUtf8_eq_scanBack (bytes : List UInt8) :
    incompleteUtf8 bytes = scanBack 1 3 bytes.reverse := by
  have h := incompleteFrom_eq_scanBack bytes 0 (min 3 bytes.length) (by omega)
  simpa [incompleteUtf8] using h

/-- What is torn is among the bytes looked at. -/
theorem scanBack_le (back fuel : ℕ) (l : List UInt8) :
    scanBack back fuel l = 0 ∨
      (back ≤ scanBack back fuel l ∧ scanBack back fuel l < back + min fuel l.length) := by
  induction l generalizing back fuel with
  | nil => cases fuel <;> exact Or.inl rfl
  | cons b l ih =>
    cases fuel with
    | zero => exact Or.inl rfl
    | succ fuel =>
      simp only [scanBack, List.length_cons]
      split
      · rcases ih (back + 1) fuel with h | h
        · exact Or.inl h
        · exact Or.inr (by omega)
      · split
        · split
          · exact Or.inr (by omega)
          · exact Or.inl rfl
        · exact Or.inl rfl

/-- Three bytes are torn at most. -/
theorem incompleteUtf8_le_three (bytes : List UInt8) : incompleteUtf8 bytes ≤ 3 := by
  rw [incompleteUtf8_eq_scanBack]
  rcases scanBack_le 1 3 bytes.reverse with h | h <;> omega

theorem incompleteUtf8_le_length (bytes : List UInt8) : incompleteUtf8 bytes ≤ bytes.length := by
  rw [incompleteUtf8_eq_scanBack]
  have := scanBack_le 1 3 bytes.reverse
  rw [List.length_reverse] at this
  omega

/-- Past bytes that only go on a character, the scan goes on behind them. -/
theorem scanBack_append (back fuel : ℕ) (y l : List UInt8) :
    (∀ l', scanBack back fuel (y ++ l') = scanBack back fuel (y ++ l)) ∨
      ∀ l', scanBack back fuel (y ++ l') = scanBack (back + y.length) (fuel - y.length) l' := by
  induction y generalizing back fuel with
  | nil => exact Or.inr fun l' => by simp
  | cons b y ih =>
    cases fuel with
    | zero => exact Or.inl fun l' => rfl
    | succ fuel =>
      simp only [List.cons_append, scanBack]
      by_cases hb : isContinuation b = true
      · rcases ih (back + 1) fuel with h | h
        · exact Or.inl fun l' => by simpa only [hb, if_true] using h l'
        · refine Or.inr fun l' => ?_
          simp only [hb, if_true, h l', List.length_cons]
          congr 1 <;> omega
      · exact Or.inl fun l' => by simp only [if_neg hb]

/-- A scan that finds nothing finds nothing from further back. -/
theorem scanBack_add_eq_zero (extra : ℕ) {back fuel : ℕ} {l : List UInt8} (hback : 0 < back)
    (h : scanBack back fuel l = 0) : scanBack (back + extra) (fuel - extra) l = 0 := by
  induction l generalizing back fuel with
  | nil => cases fuel - extra <;> rfl
  | cons b l ih =>
    rcases Nat.lt_or_ge extra fuel with hlt | hge
    · obtain ⟨n, rfl⟩ : ∃ n, fuel = n + 1 := ⟨fuel - 1, by omega⟩
      rw [show n + 1 - extra = n - extra + 1 by omega]
      simp only [scanBack] at h ⊢
      split at h
      · next hb => simpa [hb, Nat.add_right_comm] using ih (Nat.succ_pos _) h
      · next hb =>
        cases hn : utf8Needs b with
        | none => simp [hb]
        | some needs =>
          have hge : ¬ back < needs := fun hlt' => by simp [hn, hlt'] at h; omega
          simp [hb, show ¬ back + extra < needs by omega]
    · simp [show fuel - extra = 0 by omega]

/-- The part of a text in front of the character a scan found plays no part in
a scan from further back. -/
theorem scanBack_add_take (extra : ℕ) {back fuel : ℕ} {l : List UInt8}
    (h : scanBack back fuel l ≠ 0) :
    scanBack (back + extra) (fuel - extra) (l.take (scanBack back fuel l + 1 - back)) =
      scanBack (back + extra) (fuel - extra) l := by
  induction l generalizing back fuel with
  | nil => simp
  | cons b l ih =>
    rcases Nat.lt_or_ge extra fuel with hlt | hge
    · obtain ⟨n, rfl⟩ : ∃ n, fuel = n + 1 := ⟨fuel - 1, by omega⟩
      have hle := scanBack_le back (n + 1) (b :: l)
      rw [show n + 1 - extra = n - extra + 1 by omega,
        show scanBack back (n + 1) (b :: l) + 1 - back =
          scanBack back (n + 1) (b :: l) - back + 1 by omega]
      simp only [List.take_succ_cons]
      by_cases hb : isContinuation b = true
      · have hscan : scanBack back (n + 1) (b :: l) = scanBack (back + 1) n l := by
          simp [scanBack, hb]
        rw [hscan] at h ⊢
        have hfound := ih h
        rw [show scanBack (back + 1) n l + 1 - (back + 1) = scanBack (back + 1) n l - back by omega,
          Nat.add_right_comm] at hfound
        simpa [scanBack, hb] using hfound
      · simp only [scanBack, if_neg hb]
    · simp [show fuel - extra = 0 by omega]

/-- What `incompleteUtf8` says of a text that goes on is what it says of its
incomplete character going on: what was cut away before it plays no part. -/
theorem incompleteUtf8_drop_append (bytes more : List UInt8) :
    incompleteUtf8 (bytes.drop (bytes.length - incompleteUtf8 bytes) ++ more) =
      incompleteUtf8 (bytes ++ more) := by
  have htail : (bytes.drop (bytes.length - incompleteUtf8 bytes)).reverse =
      bytes.reverse.take (scanBack 1 3 bytes.reverse) := by
    rw [List.reverse_drop, ← incompleteUtf8_eq_scanBack]
    have := incompleteUtf8_le_length bytes
    congr 1
    omega
  simp only [incompleteUtf8_eq_scanBack (_ ++ _), List.reverse_append, htail]
  rcases scanBack_append 1 3 more.reverse bytes.reverse with h | h
  · exact h _
  · rw [h, h]
    by_cases hzero : scanBack 1 3 bytes.reverse = 0
    · rw [scanBack_add_eq_zero _ Nat.one_pos hzero, hzero]
      cases 3 - more.reverse.length <;> rfl
    · simpa using scanBack_add_take more.reverse.length hzero

/-- An incomplete character is all of itself incomplete. -/
theorem incompleteUtf8_drop (bytes : List UInt8) :
    incompleteUtf8 (bytes.drop (bytes.length - incompleteUtf8 bytes)) = incompleteUtf8 bytes := by
  simpa using incompleteUtf8_drop_append bytes []

/-- A text that ends in a byte of one of ASCII's ends no character short. -/
theorem incompleteUtf8_append_ascii (bytes : List UInt8) {b : UInt8}
    (hcont : isContinuation b = false) (hneeds : utf8Needs b = none) :
    incompleteUtf8 (bytes ++ [b]) = 0 := by
  rw [incompleteUtf8_eq_scanBack]
  simp [scanBack, hcont, hneeds]

/-! ### Text decoded, whatever its bytes -/

/-- Whether `c` may follow `b`, the first byte of a character of three or four. -/
def secondOk (b c : UInt8) : Bool :=
  if b = 0xe0 then 0xa0 ≤ c ∧ c ≤ 0xbf
  else if 0xe1 ≤ b ∧ b ≤ 0xec then 0x80 ≤ c ∧ c ≤ 0xbf
  else if b = 0xed then 0x80 ≤ c ∧ c ≤ 0x9f
  else if 0xee ≤ b ∧ b ≤ 0xef then 0x80 ≤ c ∧ c ≤ 0xbf
  else if b = 0xf0 then 0x90 ≤ c ∧ c ≤ 0xbf
  else if 0xf1 ≤ b ∧ b ≤ 0xf3 then 0x80 ≤ c ∧ c ≤ 0xbf
  else if b = 0xf4 then 0x80 ≤ c ∧ c ≤ 0x8f
  else false

/-- How many bytes, from one that begins no character, one replacement character
stands for: `b`, and those that could have gone on it. -/
def brokenLen (b : UInt8) (rest : List UInt8) : ℕ :=
  if rest[0]?.any (secondOk b) then
    if 0xf0 ≤ b ∧ rest[1]?.any isContinuation then 3 else 2
  else 1

/-- U+FFFD, which stands for bytes that are no character. -/
def replacement : Char := Char.ofNat 0xfffd

/-- `String::from_utf8_lossy`, as the characters it gives. -/
def fromUtf8Lossy : List UInt8 → List Char
  | [] => []
  | b :: rest =>
    match (b :: rest).toByteArray.utf8DecodeChar? 0 with
    | some c => c :: fromUtf8Lossy (rest.drop (c.utf8Size - 1))
    | none => replacement :: fromUtf8Lossy (rest.drop (brokenLen b rest - 1))
termination_by bytes => bytes.length
decreasing_by all_goals simp only [List.length_drop, List.length_cons]; omega

def encode (cs : List Char) : List UInt8 := cs.flatMap String.utf8EncodeChar

@[simp] theorem encode_nil : encode [] = [] := rfl

@[simp] theorem encode_cons (c : Char) (cs : List Char) :
    encode (c :: cs) = String.utf8EncodeChar c ++ encode cs := List.flatMap_cons

/-- A text's bytes decode to it. -/
theorem fromUtf8Lossy_encode (cs : List Char) : fromUtf8Lossy (encode cs) = cs := by
  induction cs with
  | nil => simp [fromUtf8Lossy]
  | cons c cs ih =>
    have hlen : (String.utf8EncodeChar c).length = c.utf8Size := String.length_utf8EncodeChar c
    have hdecode : (encode (c :: cs)).toByteArray.utf8DecodeChar? 0 = some c :=
      List.utf8DecodeChar?_utf8Encode_cons
    rw [encode_cons] at hdecode ⊢
    cases hbytes : String.utf8EncodeChar c with
    | nil =>
      have := c.utf8Size_pos
      rw [hbytes] at hlen
      simp at hlen
      omega
    | cons b rest =>
      rw [hbytes, List.length_cons] at hlen
      rw [hbytes, List.cons_append] at hdecode
      rw [List.cons_append, fromUtf8Lossy, hdecode]
      simp only [List.cons.injEq, true_and]
      rw [show c.utf8Size - 1 = rest.length by omega, List.drop_left, ih]

/-- `char::is_control`: the characters of category Cc. -/
def isControl (c : Char) : Bool := c.val ≤ 0x1f || (0x7f ≤ c.val && c.val ≤ 0x9f)

/-- The bytes of a character that is no control are none of ASCII's controls. -/
theorem not_control_of_mem_utf8EncodeChar {c : Char} (hc : isControl c = false) {b : UInt8}
    (hb : b ∈ String.utf8EncodeChar c) : 0x20 ≤ b := by
  have hval : 0x20 ≤ c.val.toNat := by
    simp only [isControl, Bool.or_eq_false_iff, decide_eq_false_iff_not, UInt32.not_le,
      UInt32.lt_iff_toNat_lt] at hc
    have := hc.1
    simp only [UInt32.reduceToNat] at this
    omega
  rw [UInt8.le_iff_toNat_le, show (0x20 : UInt8).toNat = 32 from rfl]
  simp only [String.utf8EncodeChar] at hb
  split at hb
  · simp only [List.mem_singleton] at hb
    subst hb
    rw [UInt8.toNat_ofNat']
    omega
  · split at hb
    · simp only [List.mem_cons, List.not_mem_nil, or_false] at hb
      rcases hb with rfl | rfl <;> rw [UInt8.toNat_ofNat'] <;> omega
    · split at hb
      · simp only [List.mem_cons, List.not_mem_nil, or_false] at hb
        rcases hb with rfl | rfl | rfl <;> rw [UInt8.toNat_ofNat'] <;> omega
      · simp only [List.mem_cons, List.not_mem_nil, or_false] at hb
        rcases hb with rfl | rfl | rfl | rfl <;> rw [UInt8.toNat_ofNat'] <;> omega

/-- A character is of four bytes at most. -/
theorem length_encode_le (cs : List Char) : (encode cs).length ≤ 4 * cs.length := by
  induction cs with
  | nil => simp
  | cons c cs ih =>
    have := c.utf8Size_le_four
    simp only [encode_cons, List.length_append, String.length_utf8EncodeChar, List.length_cons]
    omega

end Koh.Stream
