import Koh.Stream.Sequence
import Mathlib.Data.Nat.Digits.Lemmas

/-!
# The number of an OSC, and how it is spelled

A terminal reads the number of an operating system command as a decimal value,
leading zeros and all. `osc` compares its bytes with the plain spellings alone,
so a command spelled with leading zeros passes whatever it asks.

## Main definitions

- `decimal`, `spell`: the value of a row of digits, and its spelling with no
  leading zero
- `Osc`: an OSC with a number, as a filter gathers it
- `Refused`, `Rewritten`: what becomes of a command of some value, by the source's
  own rule for it

## Main results

- `spell_decimal_iff`: a number is its value's spelling when no zero leads it
- `judge_spelling_iff`: when two spellings of one command are judged alike
-/

namespace Koh.Stream

/-! ### Decimal numbers -/

def isDigit (b : UInt8) : Bool := 0x30 ≤ b && b ≤ 0x39

/-- The value of a row of decimal digits. -/
def decimal (number : List UInt8) : ℕ :=
  Nat.ofDigits 10 (number.reverse.map fun b => b.toNat - 0x30)

/-- The plain spelling of a value: its digits, and no zero before them. -/
def spell (value : ℕ) : List UInt8 :=
  if value = 0 then [0x30] else (Nat.digits 10 value).reverse.map fun d => (d + 0x30).toUInt8

/-- No zero leads the number, unless it is all of it. -/
def Plain (number : List UInt8) : Prop := number = [0x30] ∨ number.head? ≠ some 0x30

instance (number : List UInt8) : Decidable (Plain number) :=
  inferInstanceAs (Decidable (_ ∨ _))

theorem digit_toNat {d : ℕ} (h : d < 10) : (d + 0x30).toUInt8.toNat - 0x30 = d := by
  have : (d + 0x30) % 256 = d + 0x30 := Nat.mod_eq_of_lt (by omega)
  simp [Nat.toUInt8, this]

theorem toUInt8_digit {b : UInt8} (h : isDigit b) : (b.toNat - 0x30 + 0x30).toUInt8 = b := by
  simp only [isDigit, Bool.and_eq_true, decide_eq_true_eq, UInt8.le_iff_toNat_le,
    UInt8.reduceToNat] at h
  rw [Nat.sub_add_cancel h.1]
  simp [Nat.toUInt8]

theorem isDigit_toUInt8 {d : ℕ} (h : d < 10) : isDigit (d + 0x30).toUInt8 := by
  have : (d + 0x30) % 256 = d + 0x30 := Nat.mod_eq_of_lt (by omega)
  simp only [isDigit, Bool.and_eq_true, decide_eq_true_eq, UInt8.le_iff_toNat_le,
    UInt8.reduceToNat, Nat.toUInt8, UInt8.toNat_ofNat', Nat.reducePow, this]
  omega

/-- What a number is spelled as is read back. -/
theorem decimal_spell (value : ℕ) : decimal (spell value) = value := by
  by_cases h : value = 0
  · simp [spell, decimal, h]
  · have hdigits : ((Nat.digits 10 value).map fun d => (d + 0x30).toUInt8).map
        (fun b => b.toNat - 0x30) = Nat.digits 10 value := by
      rw [List.map_map]
      conv => rhs; rw [← List.map_id (Nat.digits 10 value)]
      exact List.map_congr_left fun d hd => digit_toNat (Nat.digits_lt_base (by omega) hd)
    simp only [spell, if_neg h, decimal, List.map_reverse, List.reverse_reverse] at hdigits ⊢
    rw [hdigits, Nat.ofDigits_digits]

/-- A number is spelled in digits. -/
theorem spell_digits (value : ℕ) : spell value ≠ [] ∧ ∀ b ∈ spell value, isDigit b := by
  by_cases h : value = 0
  · simp [spell, h, isDigit]
  · refine ⟨by simp [spell, h, Nat.digits_ne_nil_iff_ne_zero], fun b hb => ?_⟩
    simp only [spell, if_neg h, List.mem_map, List.mem_reverse] at hb
    obtain ⟨d, hd, rfl⟩ := hb
    exact isDigit_toUInt8 (Nat.digits_lt_base (by omega) hd)

/-- The last digit of a row without a leading zero is its first byte's. -/
theorem getLast_digits {b : UInt8} (rest : List UInt8) (hb : isDigit b) (hne : b ≠ 0x30)
    (h : (b :: rest).reverse.map (fun b => b.toNat - 0x30) ≠ []) :
    ((b :: rest).reverse.map fun b => b.toNat - 0x30).getLast h ≠ 0 := by
  have hb' : 0x30 ≤ b.toNat := by
    simp only [isDigit, Bool.and_eq_true, decide_eq_true_eq, UInt8.le_iff_toNat_le,
      UInt8.reduceToNat] at hb
    exact hb.1
  have hne' : b.toNat ≠ 0x30 := fun h => hne (UInt8.toNat_inj.mp (by simpa using h))
  simp only [List.reverse_cons, List.map_append, List.map_cons, List.map_nil,
    List.getLast_append_singleton]
  omega

/-- A number is its value's plain spelling exactly when no zero leads it. -/
theorem spell_decimal_iff {number : List UInt8}
    (hdigits : number ≠ [] ∧ ∀ b ∈ number, isDigit b) :
    spell (decimal number) = number ↔ Plain number := by
  rw [Plain]
  obtain ⟨b, rest, rfl⟩ := List.exists_cons_of_ne_nil hdigits.1
  have hlt : ∀ d ∈ (b :: rest).reverse.map (fun b => b.toNat - 0x30), d < 10 := by
    intro d hd
    obtain ⟨c, hc, rfl⟩ := List.mem_map.mp hd
    have := hdigits.2 c (List.mem_reverse.mp hc)
    simp only [isDigit, Bool.and_eq_true, decide_eq_true_eq, UInt8.le_iff_toNat_le,
      UInt8.reduceToNat] at this
    omega
  constructor
  · intro h
    refine or_iff_not_imp_right.mpr fun hhead => ?_
    obtain rfl : b = 0x30 := by simpa using hhead
    by_cases hvalue : decimal (0x30 :: rest) = 0
    · simpa [spell, hvalue, eq_comm] using h
    · -- The first digit of a spelling is the last that `Nat.digits` lists, never a zero.
      exfalso
      have hmap := congrArg (fun l => (l.map fun b : UInt8 => b.toNat - 0x30).head?) h
      simp only [spell, if_neg hvalue, List.map_map, List.head?_map, List.head?_reverse,
        List.head?_cons, Option.map_some] at hmap
      rw [List.getLast?_eq_some_getLast (Nat.digits_ne_nil_iff_ne_zero.mpr hvalue)] at hmap
      have hlast := Nat.getLast_digit_ne_zero 10 hvalue
      have hten := Nat.digits_lt_base (by omega : 1 < 10)
        (List.getLast_mem (Nat.digits_ne_nil_iff_ne_zero.mpr hvalue))
      simp only [Option.map_some, Function.comp, digit_toNat hten, Option.some.injEq] at hmap
      exact hlast (by simpa using hmap)
  · rintro (h | h)
    · obtain ⟨rfl, rfl⟩ := List.cons_eq_cons.mp h
      simp [decimal, spell]
    · have hb : b ≠ 0x30 := by simpa using h
      have hlast := getLast_digits rest (hdigits.2 b (by simp)) hb
      have hvalue : Nat.digits 10 (decimal (b :: rest)) =
          (b :: rest).reverse.map (fun b => b.toNat - 0x30) :=
        Nat.digits_ofDigits 10 (by omega) _ hlt hlast
      have hne : decimal (b :: rest) ≠ 0 := by
        intro hzero
        rw [hzero] at hvalue
        simp at hvalue
      simp only [spell, if_neg hne, hvalue]
      rw [← List.map_reverse, List.reverse_reverse, List.map_map]
      conv => rhs; rw [← List.map_id (b :: rest)]
      exact List.map_congr_left fun c hc => toUInt8_digit (hdigits.2 c hc)

/-- A number is some value's plain spelling when it is plain and of that value. -/
theorem eq_spell_iff (number : List UInt8) (value : ℕ) :
    number = spell value ↔ spell (decimal number) = number ∧ decimal number = value := by
  constructor
  · rintro rfl
    simp [decimal_spell]
  · rintro ⟨h, rfl⟩
    exact h.symm

/-! ### Commands with a number -/

/-- An OSC whose number is a row of digits, as a filter gathers it. -/
structure Osc where
  number : List UInt8
  /-- What follows the first `;`, if there is one. -/
  data : Option (List UInt8)
  final : List UInt8
  hnumber : number ≠ [] ∧ ∀ b ∈ number, isDigit b
  hdata : ∀ d ∈ data, ∀ b ∈ d, gathers (.text .osc) b
  hfinal : closes (.text .osc) final

namespace Osc

def body (o : Osc) : List UInt8 := o.number ++ o.data.elim [] (0x3b :: ·)

def seq (o : Osc) : List UInt8 := [ESC, 0x5d] ++ o.body ++ o.final

/-- What the command's number says to a terminal. -/
def value (o : Osc) : ℕ := decimal o.number

def args (o : Osc) : List UInt8 := o.data.getD []

/-- The same command, its number spelled with no leading zero. -/
def plain (o : Osc) : Osc :=
  { o with number := spell o.value, hnumber := spell_digits _ }

@[simp] theorem plain_value (o : Osc) : o.plain.value = o.value := decimal_spell _

/-- A number spelled so has no zero before it. -/
theorem spell_iff (o : Osc) : spell o.value = o.number ↔ Plain o.number :=
  spell_decimal_iff o.hnumber

@[simp] theorem plain_args (o : Osc) : o.plain.args = o.args := rfl

/-- An OSC ends with BEL or ST. -/
theorem final_cases (o : Osc) : o.final = [BEL] ∨ o.final = [ESC, 0x5c] := by
  have h := o.hfinal
  rcases hfinal : o.final with _ | ⟨b, _ | ⟨c, _ | ⟨d, rest⟩⟩⟩
  · simp [hfinal, closes] at h
  · simpa [hfinal, closes] using h
  · simpa [hfinal, closes] using h
  · simp [hfinal, closes] at h

theorem digit_ne {b : UInt8} (h : isDigit b) : b ≠ 0x3b ∧ gathers (.text .osc) b := by
  have hb : 0x30 ≤ b ∧ b ≤ 0x39 := by simpa [isDigit] using h
  refine ⟨?_, gathers_printable .osc (UInt8.le_trans (by decide) hb.1)⟩
  rintro rfl
  exact absurd hb (by decide)

/-- A command with a number is one of the sequences a filter judges whole. -/
theorem sequence (o : Osc) : Sequence o.seq := by
  refine Sequence.long (by decide : opens 0x5d = some (.text .osc)) (fun b hb => ?_) o.hfinal
  rcases List.mem_append.mp hb with hb | hb
  · exact (digit_ne (o.hnumber.2 b hb)).2
  · rcases hdata : o.data with _ | d
    · simp [hdata] at hb
    · rcases (by simpa [hdata] using hb : b = 0x3b ∨ b ∈ d) with rfl | hd
      · decide
      · exact o.hdata d hdata b hd

/-- Its end is stripped. -/
theorem strip_final (o : Osc) :
    ((stripSuffix [BEL] (o.body ++ o.final)).orElse fun _ =>
      stripSuffix [ESC, 0x5c] (o.body ++ o.final)).getD (o.body ++ o.final) = o.body := by
  rcases o.final_cases with h | h
  · simp [h, stripSuffix_append]
  · have hnone : stripSuffix [BEL] (o.body ++ [ESC, 0x5c]) = none := by
      rw [stripSuffix, if_neg]
      simp [List.isSuffixOf_iff_suffix, List.suffix_iff_eq_drop, BEL]
    simp [h, hnone, stripSuffix_append]

/-- Up to the first semicolon it is a number. -/
theorem takeWhile_body (o : Osc) : o.body.takeWhile (· != 0x3b) = o.number := by
  have h : ∀ b ∈ o.number, (b != 0x3b) = true := fun b hb => by
    simpa using (digit_ne (o.hnumber.2 b hb)).1
  rw [body, List.takeWhile_append_of_pos h]
  rcases o.data with _ | d <;> simp

/-- After that come its arguments. -/
theorem dropWhile_body (o : Osc) : (o.body.dropWhile (· != 0x3b)).drop 1 = o.args := by
  have h : ∀ b ∈ o.number, (b != 0x3b) = true := fun b hb => by
    simpa using (digit_ne (o.hnumber.2 b hb)).1
  rw [body, List.dropWhile_append_of_pos h, args]
  rcases o.data with _ | d <;> simp

end Osc

/-! ### What is decided by the value -/

/-- Whether the source's rule for commands of this value drops one with this data. -/
def Refused (policy : Policy) (value : ℕ) (data : List UInt8) : Prop :=
  (value = 133 ∧ mark data policy.marks = none) ∨
    (value = 52 ∧ ¬ (policy.clipboard ∧ ((fields data)[1]?.getD []).length ≤ maxClipboard ∧
      base64 ((fields data)[1]?.getD []))) ∨
    (value = 8 ∧ ¬ policy.links) ∨
    (value ∈ [4, 10, 11, 12, 13, 14, 15, 16, 17, 18, 19] ∧ ascii ['?'] ∈ fields data)

instance (policy : Policy) (value : ℕ) (data : List UInt8) :
    Decidable (Refused policy value data) :=
  inferInstanceAs (Decidable (_ ∨ _))

/-- Whether other bytes, or none, stand for commands of this value: titles and marks. -/
def Rewritten (value : ℕ) : Prop := value ∈ [0, 1, 2, 133]

/-- The texts `osc` compares with are the plain spellings of their values. -/
theorem ascii_spell : ascii ['1', '3', '3'] = spell 133 ∧ ascii ['5', '2'] = spell 52 ∧
    ascii ['8'] = spell 8 ∧
    [ascii ['0'], ascii ['1'], ascii ['2']] = [0, 1, 2].map spell ∧
    [ascii ['4'], ascii ['1', '0'], ascii ['1', '1'], ascii ['1', '2'], ascii ['1', '3'],
      ascii ['1', '4'], ascii ['1', '5'], ascii ['1', '6'], ascii ['1', '7'], ascii ['1', '8'],
      ascii ['1', '9']] = [4, 10, 11, 12, 13, 14, 15, 16, 17, 18, 19].map spell := by
  refine ⟨?_, ?_, ?_, ?_, ?_⟩ <;> simp [spell] <;> decide

/-- A number is one of some values' plain spellings when it is plain and of such a value. -/
theorem mem_spell_iff (number : List UInt8) (values : List ℕ) :
    number ∈ values.map spell ↔ spell (decimal number) = number ∧ decimal number ∈ values := by
  rw [List.mem_map]
  constructor
  · rintro ⟨value, hvalue, rfl⟩
    simpa [decimal_spell] using hvalue
  · rintro ⟨hplain, hvalue⟩
    exact ⟨_, hvalue, hplain⟩

namespace Osc

/-- `osc` reads the number's value only off a plain spelling. -/
theorem judge_eq (o : Osc) (policy : Policy) :
    judge o.seq policy =
      if spell o.value = o.number ∧ o.value = 133 then
        match mark o.args policy.marks with
        | some m => .mark m
        | none => .drop
      else if spell o.value = o.number ∧ o.value = 52 then
        if policy.clipboard ∧ ((fields o.args)[1]?.getD []).length ≤ maxClipboard ∧
            base64 ((fields o.args)[1]?.getD []) then .pass
        else .drop
      else if spell o.value = o.number ∧ o.value ∈ [0, 1, 2] then
        .out ([ESC, 0x5d] ++ o.number ++ [0x3b] ++ encode (title o.args) ++ [BEL])
      else if (spell o.value = o.number ∧ o.value = 8) ∧ ¬ policy.links then .drop
      else if (spell o.value = o.number ∧
          o.value ∈ [4, 10, 11, 12, 13, 14, 15, 16, 17, 18, 19]) ∧
          ascii ['?'] ∈ fields o.args then .drop
      else .pass := by
  obtain ⟨h133, h52, h8, htitles, hcolours⟩ := ascii_spell
  have hsecond : o.seq[1]? = some 0x5d := by simp [seq]
  have hbody : o.seq.drop 2 = o.body ++ o.final := by simp [seq]
  simp only [judge, if_pos hsecond, osc, hbody, strip_final, takeWhile_body, dropWhile_body, h133,
    h52, h8, htitles, hcolours, eq_spell_iff, mem_spell_iff, value]
  rfl

/-- A command spelled with leading zeros passes, whatever it asks. -/
theorem judge_padded {o : Osc} (policy : Policy) (h : spell o.value ≠ o.number) :
    judge o.seq policy = .pass := by
  simp only [judge_eq, h, false_and, if_false]

/-- A command spelled plainly is dropped as the rule for its value says. -/
theorem judge_drop_iff {o : Osc} (policy : Policy) (h : spell o.value = o.number) :
    judge o.seq policy = .drop ↔ Refused policy o.value o.args := by
  simp only [judge_eq, h, true_and]
  split
  · next hv => cases hmark : mark o.args policy.marks <;> simp [Refused, hv, hmark]
  next h133 =>
  split
  · next hv => simp [Refused, hv]
  next h52 =>
  split
  · next hv =>
    have : o.value = 0 ∨ o.value = 1 ∨ o.value = 2 := by simpa using hv
    rcases this with hv | hv | hv <;> simp [Refused, hv]
  split
  · next hv => simp [Refused, hv]
  next h8 =>
  split
  · next hv => simpa [Refused, h133, h52] using Or.inr hv
  · next hv =>
    simp only [Refused, h133, h52, false_and, false_or, reduceCtorEq, false_iff, not_or]
    exact ⟨h8, hv⟩

/-- A command spelled plainly passes when the rule for its value neither drops nor rewrites it. -/
theorem judge_pass_iff {o : Osc} (policy : Policy) (h : spell o.value = o.number) :
    judge o.seq policy = .pass ↔ ¬ Refused policy o.value o.args ∧ ¬ Rewritten o.value := by
  rw [← judge_drop_iff policy h]
  simp only [judge_eq, h, true_and]
  split
  · next hv => cases mark o.args policy.marks <;> simp [Rewritten, hv]
  next h133 =>
  split
  · next hv => simp [Rewritten, hv]
  split
  · next hv => simp [Rewritten] at hv ⊢; omega
  next htitle =>
  have hkept : ¬ Rewritten o.value := by
    simp only [Rewritten, List.mem_cons, List.not_mem_nil, or_false] at htitle ⊢
    omega
  split
  · simp
  split <;> simp [hkept]

/-- Two spellings of one command are judged alike when both are plain, or neither is, or the rule
for the command's value lets it through as it is. And a command passes that its plain spelling has
dropped exactly when a zero leads its number and the rule for its value drops it. -/
theorem judge_spelling_iff (policy : Policy) (o : Osc) :
    (∀ o' : Osc, o'.value = o.value → o'.data = o.data → o'.final = o.final →
      (judge o'.seq policy = judge o.seq policy ↔
        ((Plain o.number ↔ Plain o'.number) ∨
          ¬ Refused policy o.value o.args ∧ ¬ Rewritten o.value))) ∧
      ((judge o.plain.seq policy = .drop → judge o.seq policy = .drop) ↔
        Plain o.number ∨ ¬ Refused policy o.value o.args) := by
  have hplain : spell o.plain.value = o.plain.number := by simp [plain, value, decimal_spell]
  simp only [← spell_iff]
  constructor
  · intro o' hvalue hdata hfinal
    have hargs : o'.args = o.args := by simp [args, hdata]
    by_cases h : spell o.value = o.number <;> by_cases h' : spell o'.value = o'.number
    · have hnumber : o'.number = o.number := by rw [← h, ← h', hvalue]
      simp [seq, body, hnumber, hdata, hfinal, h, h']
    · rw [or_iff_right fun hboth => h' (hboth.mp h), judge_padded policy h', eq_comm,
        judge_pass_iff policy h]
    · rw [or_iff_right fun hboth => h (hboth.mpr h'), judge_padded policy h,
        judge_pass_iff policy h', hvalue, hargs]
    · simp [judge_padded policy h, judge_padded policy h', h, h']
  · rw [judge_drop_iff policy hplain, plain_value, plain_args]
    by_cases h : spell o.value = o.number
    · simp [judge_drop_iff policy h, h]
    · simp [judge_padded policy h, h]

/-- A clipboard read whose number is spelled with a zero before it, or without. -/
def read (padded : Bool) : Osc :=
  ⟨(if padded then [0x30] else []) ++ ascii ['5', '2'], some (ascii ['c', ';', '?']), [BEL],
    by cases padded <;> decide +kernel, by decide +kernel, by decide⟩

/-- The padded read passes, and the plain one is dropped. -/
theorem padded_read_passes :
    ¬ ∀ (policy : Policy) (o o' : Osc), o.value = o'.value → o.data = o'.data →
      o.final = o'.final → judge o.seq policy = judge o'.seq policy := by
  intro h
  have hread := h ⟨.drop, true, true⟩ (read true) (read false) (by decide) rfl rfl
  exact absurd hread (by decide)

/-- With a zero before it the number is another. -/
theorem padded_read_differs :
    judge (read false).seq ⟨.drop, true, true⟩ ≠ judge (read true).seq ⟨.drop, true, true⟩ := by
  intro h
  rcases ((judge_spelling_iff ⟨.drop, true, true⟩ (read true)).1 (read false) (by decide) rfl
    rfl).mp h with hplain | hlets
  · exact absurd hplain (by decide)
  · exact absurd hlets.1 (by decide)

end Osc

end Koh.Stream
