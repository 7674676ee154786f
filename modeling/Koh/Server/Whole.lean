import Koh.Server.Shown
import Koh.Stream.Bounds

/-!
# Messages of output, and the characters in them

How many bytes the outputs have that a session joins and cuts, and that a redraw of text is
cut between characters.

## Main definitions

- `Shown.Fits`: an output has 1 to `maxOut` bytes
- `Parted`: not too many bytes in a row go on a character
- `Boundary`: where a text's bytes may be cut

## Main results

- `fits_shownOf`, `fits_coalesce`: what is held and joined fits
- `fits_redrawn`: and so does what a redraw is cut into
- `redrawnOut_isSome`, `parted_encode`: cutting ends, where bytes are parted, as text is
- `redrawnOut_whole`: text is cut into texts
-/

namespace Koh.Server

open Koh.Stream

/-- What a session's messages are: an output of 1 to `maxOut` bytes, a title that is not
too long. -/
def Shown.Fits : Shown → Prop
  | .out bytes => 1 ≤ bytes.length ∧ bytes.length ≤ maxOut
  | .title text => text.length ≤ maxTitle
  | _ => True

/-! ### Joined -/

/-- What pieces of the filter's are shown as fits. -/
theorem fits_shownOf {pieces : List Piece} (h : Sized pieces) :
    ∀ m ∈ pieces.filterMap shownOf, m.Fits := by
  intro m hm
  obtain ⟨piece, hpiece, hshown⟩ := List.mem_filterMap.mp hm
  cases piece with
  | out bytes =>
    cases hshown
    exact h bytes hpiece
  | mark payload =>
    obtain ⟨text, -, rfl⟩ := Option.map_eq_some_iff.mp hshown
    trivial

/-- What is joined fits. -/
theorem fits_join {joined : List Shown} {shown : Shown} (hjoined : ∀ m ∈ joined, m.Fits)
    (hshown : shown.Fits) : ∀ m ∈ join joined shown, m.Fits := by
  have hpush : ∀ m ∈ joined ++ [shown], m.Fits := by
    simpa only [List.forall_mem_append, List.forall_mem_singleton] using ⟨hjoined, hshown⟩
  unfold join
  split
  · next last more hlast =>
    split
    · next hfits =>
      have hmem := hjoined _ (List.mem_of_getLast? hlast)
      simp only [List.forall_mem_append, List.forall_mem_singleton]
      refine ⟨fun m hm => hjoined m (List.mem_of_mem_dropLast hm), ?_⟩
      show 1 ≤ (last ++ more).length ∧ (last ++ more).length ≤ maxOut
      rw [List.length_append]
      exact ⟨hmem.1.trans (Nat.le_add_right _ _), hfits⟩
    · exact hpush
  · exact hpush

/-- Messages are joined only as far as one holds them. -/
theorem fits_coalesce {held : List Shown} (h : ∀ m ∈ held, m.Fits) :
    ∀ m ∈ coalesce held, m.Fits := by
  suffices ∀ joined : List Shown, (∀ m ∈ joined, m.Fits) → ∀ m ∈ held.foldl join joined, m.Fits from
    this [] (by simp)
  induction held with
  | nil => exact fun joined hjoined => hjoined
  | cons shown held ih =>
    intro joined hjoined
    have hjoin := fits_join hjoined (h shown List.mem_cons_self)
    exact ih (fun m hm => h m (List.mem_cons_of_mem _ hm)) _ hjoin

/-! ### Cut -/

/-- A character's start is not after it. -/
theorem characterStart_le {rest : Bytes} {i n : ℕ} (h : characterStart rest i = some n) : n ≤ i := by
  induction i with
  | zero =>
    rw [characterStart] at h
    split at h <;> cases h
    exact Nat.le_refl 0
  | succ i ih =>
    rw [characterStart] at h
    split at h
    · exact (ih h).trans (Nat.le_succ i)
    · cases h
      exact Nat.le_refl _

/-- What a cut redraw shows fits. -/
theorem fits_redrawnOut {rest : Bytes} {shown : List Shown} (h : redrawnOut rest = some shown) :
    ∀ m ∈ shown, m.Fits := by
  fun_induction redrawnOut rest generalizing shown with
  | case1 =>
    cases h
    simp
  | case2 => cases h
  | case3 rest hne i hstart ih =>
    obtain ⟨shown, hrest, rfl⟩ := Option.map_eq_some_iff.mp h
    refine List.forall_mem_cons.mpr ⟨?_, ih hrest⟩
    have hle := characterStart_le hstart
    have hpos := List.length_pos_iff.mpr hne
    have hmax : 1 ≤ maxOut := by decide
    show 1 ≤ (rest.take (max i 1)).length ∧ (rest.take (max i 1)).length ≤ maxOut
    rw [List.length_take]
    omega

/-- So does each piece of it. -/
theorem fits_redrawn {piece : Piece} {shown : List Shown} (h : redrawn piece = some shown) :
    ∀ m ∈ shown, m.Fits := by
  cases piece with
  | out bytes => exact fits_redrawnOut h
  | mark payload =>
    cases h
    intro m hm
    obtain ⟨text, -, rfl⟩ := Option.map_eq_some_iff.mp (Option.mem_toList.mp hm)
    trivial

/-! ### A cut that ends -/

/-- No more than `maxOut` bytes in a row go on a character. -/
def Parted (bytes : Bytes) : Prop := ∀ n, ((bytes.drop n).takeWhile isContinuation).length ≤ maxOut

/-- The rest of what is parted is. -/
theorem Parted.drop {bytes : Bytes} (h : Parted bytes) (n : ℕ) : Parted (bytes.drop n) := by
  intro k
  rw [List.drop_drop]
  exact h (n + k)

/-- What is in the middle of a character begins with a continuation. -/
theorem midCharacter_iff {rest : Bytes} {i : ℕ} :
    midCharacter rest i = true ↔ ∃ b, rest[i]? = some b ∧ isContinuation b = true := by
  unfold midCharacter isContinuation
  constructor
  · intro h
    rw [Bool.and_eq_true] at h
    exact (Option.any_eq_true _ _).mp h.2
  · rintro ⟨b, hb, hcont⟩
    rw [hb]
    simpa using ⟨(List.getElem?_eq_some_iff.mp hb).1, by simpa using hcont⟩

/-- Going back never ends only where all bytes go on a character. -/
theorem characterStart_none {rest : Bytes} {i : ℕ} (h : characterStart rest i = none) :
    ∀ j ≤ i, midCharacter rest j = true := by
  induction i with
  | zero =>
    intro j hj
    rw [Nat.le_zero.mp hj]
    by_contra hmid
    rw [characterStart, if_neg hmid] at h
    cases h
  | succ i ih =>
    rw [characterStart] at h
    split at h
    · next hmid =>
      intro j hj
      rcases Nat.lt_or_eq_of_le hj with hlt | rfl
      · exact ih h j (Nat.le_of_lt_succ hlt)
      · exact hmid
    · cases h

/-- All bytes up to one go on a character: they are so many in a row. -/
theorem lt_length_takeWhile {rest : Bytes} {i : ℕ} (h : ∀ j ≤ i, midCharacter rest j = true) :
    i < (rest.takeWhile isContinuation).length := by
  induction rest generalizing i with
  | nil =>
    obtain ⟨b, hb, -⟩ := midCharacter_iff.mp (h 0 (Nat.zero_le i))
    cases hb
  | cons c rest ih =>
    obtain ⟨b, hb, hcont⟩ := midCharacter_iff.mp (h 0 (Nat.zero_le i))
    cases hb
    rw [List.takeWhile_cons_of_pos hcont, List.length_cons]
    cases i with
    | zero => exact Nat.succ_pos _
    | succ i =>
      refine Nat.succ_lt_succ (ih fun j hj => ?_)
      have hmid := midCharacter_iff.mp (h (j + 1) (Nat.succ_le_succ hj))
      rw [List.getElem?_cons_succ] at hmid
      exact midCharacter_iff.mpr hmid

/-- Cutting bytes that are parted ends. -/
theorem redrawnOut_isSome {rest : Bytes} (h : Parted rest) : (redrawnOut rest).isSome = true := by
  fun_induction redrawnOut rest with
  | case1 => rfl
  | case2 rest hne hstart =>
    have hall := characterStart_none hstart
    obtain ⟨b, hb, -⟩ := midCharacter_iff.mp (hall _ (Nat.le_refl _))
    have hlt := (List.getElem?_eq_some_iff.mp hb).1
    have hrun := lt_length_takeWhile hall
    have hle := h 0
    rw [List.drop_zero] at hle
    omega
  | case3 rest hne i hstart ih =>
    rw [Option.isSome_map]
    exact ih (h.drop _)

/-! ### Between characters -/

/-- Where the bytes of `text` may be cut: after some of its characters. -/
def Boundary (text : List Char) (i : ℕ) : Prop :=
  ∃ before after, text = before ++ after ∧ i = (encode before).length

theorem encode_append (before after : List Char) :
    encode (before ++ after) = encode before ++ encode after := List.flatMap_append

theorem Boundary.zero (text : List Char) : Boundary text 0 := ⟨[], text, rfl, rfl⟩

/-- A boundary after one character more. -/
theorem Boundary.cons {text : List Char} {i : ℕ} (c : Char) (h : Boundary text i) :
    Boundary (c :: text) ((String.utf8EncodeChar c).length + i) := by
  obtain ⟨before, after, rfl, rfl⟩ := h
  exact ⟨c :: before, after, rfl, by simp⟩

theorem isContinuation_of_toNat {b : UInt8} (h : 0x80 ≤ b.toNat) (h' : b.toNat < 0xc0) :
    isContinuation b = true := by
  have hall : ∀ n < 256, 0x80 ≤ n → n < 0xc0 → isContinuation (UInt8.ofNat n) = true := by
    decide +kernel
  have hb := hall b.toNat b.toNat_lt h h'
  rwa [UInt8.ofNat_toNat] at hb

/-- The bytes of a character after its first go on it. -/
theorem isContinuation_utf8EncodeChar {c : Char} {b : UInt8}
    (h : b ∈ (String.utf8EncodeChar c).tail) : isContinuation b = true := by
  simp only [String.utf8EncodeChar] at h
  split at h
  · simp at h
  · split at h
    · simp only [List.tail_cons, List.mem_cons, List.not_mem_nil, or_false] at h
      subst h
      apply isContinuation_of_toNat <;> rw [UInt8.toNat_ofNat'] <;> omega
    · split at h
      · simp only [List.tail_cons, List.mem_cons, List.not_mem_nil, or_false] at h
        rcases h with rfl | rfl <;>
          (apply isContinuation_of_toNat <;> rw [UInt8.toNat_ofNat'] <;> omega)
      · simp only [List.tail_cons, List.mem_cons, List.not_mem_nil, or_false] at h
        rcases h with rfl | rfl | rfl <;>
          (apply isContinuation_of_toNat <;> rw [UInt8.toNat_ofNat'] <;> omega)

/-- A continuation begins no character. -/
theorem not_first_of_isContinuation {b : UInt8} (h : isContinuation b = true) :
    ¬ b.IsUTF8FirstByte := by
  have hall : ∀ n < 256, isContinuation (UInt8.ofNat n) = true →
      ¬ (UInt8.ofNat n).IsUTF8FirstByte := by decide +kernel
  have hb := hall b.toNat b.toNat_lt
  rw [UInt8.ofNat_toNat] at hb
  exact hb h

/-- A byte that goes on no character is where one begins. -/
theorem boundary_of_not_continuation {text : List Char} {i : ℕ} {b : UInt8}
    (hget : (encode text)[i]? = some b) (hb : isContinuation b = false) : Boundary text i := by
  induction text generalizing i with
  | nil => simp at hget
  | cons c text ih =>
    rw [encode_cons] at hget
    rcases Nat.lt_or_ge i (String.utf8EncodeChar c).length with hin | hout
    · rw [List.getElem?_append_left hin] at hget
      cases i with
      | zero => exact .zero _
      | succ i =>
        have htail : (String.utf8EncodeChar c).tail[i]? = some b := by rwa [List.getElem?_tail]
        rw [isContinuation_utf8EncodeChar (List.mem_of_getElem? htail)] at hb
        cases hb
    · rw [List.getElem?_append_right hout] at hget
      have hcons := (ih hget).cons c
      rwa [Nat.add_sub_cancel' hout] at hcons

/-- Where a character begins, no byte goes on one. -/
theorem Boundary.not_continuation {text : List Char} {i : ℕ} {b : UInt8} (h : Boundary text i)
    (hget : (encode text)[i]? = some b) : isContinuation b = false := by
  obtain ⟨before, after, rfl, rfl⟩ := h
  rw [encode_append, List.getElem?_append_right (Nat.le_refl _), Nat.sub_self] at hget
  cases after with
  | nil => simp at hget
  | cons c after =>
    have hlen : 0 < (String.utf8EncodeChar c).length := by
      rw [String.length_utf8EncodeChar]
      exact c.utf8Size_pos
    rw [encode_cons, List.getElem?_append_left hlen, List.getElem?_eq_getElem hlen,
      Option.some.injEq] at hget
    by_contra hb
    apply not_first_of_isContinuation (Bool.not_eq_false _ ▸ hb)
    rw [← hget]
    exact UInt8.isUTF8FirstByte_getElem_utf8EncodeChar.mpr rfl

/-- Where no continuation is there is a boundary. -/
theorem boundary_of_not_mid {text : List Char} {i : ℕ} (h : i ≤ (encode text).length)
    (hmid : midCharacter (encode text) i = false) : Boundary text i := by
  rcases Nat.lt_or_eq_of_le h with hlt | heq
  · refine boundary_of_not_continuation (List.getElem?_eq_getElem hlt) ?_
    rw [Bool.eq_false_iff] at hmid ⊢
    exact fun hcont => hmid (midCharacter_iff.mpr ⟨_, List.getElem?_eq_getElem hlt, hcont⟩)
  · exact ⟨text, [], (List.append_nil text).symm, heq⟩

/-- Going back stops where a character begins. -/
theorem characterStart_boundary (text : List Char) {i n : ℕ} (h : i ≤ (encode text).length)
    (hstart : characterStart (encode text) i = some n) : Boundary text n := by
  induction i with
  | zero =>
    rw [characterStart] at hstart
    split at hstart <;> cases hstart
    exact .zero text
  | succ i ih =>
    rw [characterStart] at hstart
    split at hstart
    · exact ih (Nat.le_of_succ_le h) hstart
    · next hmid =>
      cases hstart
      exact boundary_of_not_mid h (by simpa using hmid)

/-- Going back stops no sooner than at a boundary. -/
theorem Boundary.le_characterStart {text : List Char} {n i : ℕ} (h : Boundary text n)
    (hle : n ≤ i) : ∃ m, characterStart (encode text) i = some m ∧ n ≤ m := by
  have hstop : midCharacter (encode text) n = false := by
    rw [Bool.eq_false_iff]
    intro hmid
    obtain ⟨b, hb, hcont⟩ := midCharacter_iff.mp hmid
    rw [h.not_continuation hb] at hcont
    cases hcont
  induction i with
  | zero =>
    cases Nat.le_zero.mp hle
    exact ⟨0, by rw [characterStart, hstop]; rfl, Nat.le_refl 0⟩
  | succ i ih =>
    rw [characterStart]
    split
    · next hgo =>
      rcases Nat.lt_or_eq_of_le hle with hlt | rfl
      · exact ih (Nat.le_of_lt_succ hlt)
      · cases hstop.symm.trans hgo
    · exact ⟨i + 1, rfl, hle⟩

/-- A redraw of text is cut into texts. -/
theorem redrawnOut_whole (text : List Char) :
    ∃ parts : List (List Char), parts.flatten = text ∧
      redrawnOut (encode text) = some (parts.map fun part => .out (encode part)) := by
  induction hn : text.length using Nat.strong_induction_on generalizing text with
  | _ n ih =>
  cases text with
  | nil => exact ⟨[], rfl, by rw [encode_nil, redrawnOut, if_pos rfl]; rfl⟩
  | cons c text =>
    have hsize := String.length_utf8EncodeChar c
    have hpos := c.utf8Size_pos
    have hfour := c.utf8Size_le_four
    have hlen : (encode (c :: text)).length = c.utf8Size + (encode text).length := by simp
    have hne : encode (c :: text) ≠ [] := List.length_pos_iff.mp (by omega)
    have hmax : 4 ≤ maxOut := by decide
    -- The first character ends within what a message holds: going back stops past it.
    have hfirst : Boundary (c :: text) c.utf8Size := ⟨[c], text, rfl, by simp⟩
    obtain ⟨i, hstart, hle⟩ := hfirst.le_characterStart
      (i := min (encode (c :: text)).length maxOut) (by omega)
    obtain ⟨before, after, htext, hcut⟩ :=
      characterStart_boundary (c :: text) (Nat.min_le_left (encode (c :: text)).length maxOut) hstart
    have hbytes : encode (c :: text) = encode before ++ encode after := by
      rw [htext, encode_append]
    have hshort : after.length < n := by
      have hbefore : before ≠ [] := by
        rintro rfl
        rw [encode_nil, List.length_nil] at hcut
        omega
      have := List.length_pos_iff.mpr hbefore
      have := congrArg List.length htext
      rw [List.length_append] at this
      omega
    obtain ⟨parts, hparts, hrest⟩ := ih after.length hshort after rfl
    refine ⟨before :: parts, by rw [List.flatten_cons, hparts, htext], ?_⟩
    rw [redrawnOut, if_neg hne, hstart]
    dsimp only
    rw [Nat.max_eq_left (by omega), hcut, hbytes, List.take_left, List.drop_left, hrest]
    rfl

/-- No more than three bytes in a row go on a character of a text. -/
theorem parted_encode (text : List Char) : Parted (encode text) := by
  have hbegins : ∀ text, (encode text).takeWhile isContinuation = [] := by
    intro text
    cases hbytes : encode text with
    | nil => rfl
    | cons b bytes =>
      refine List.takeWhile_cons_of_neg ?_
      rw [(Boundary.zero text).not_continuation (by rw [hbytes]; rfl)]
      exact Bool.false_ne_true
  intro n
  induction text generalizing n with
  | nil => simp
  | cons c text ih =>
    have hsize := String.length_utf8EncodeChar c
    have hfour := c.utf8Size_le_four
    have hmax : 4 ≤ maxOut := by decide
    rw [encode_cons, List.drop_append]
    rcases Nat.lt_or_ge n (String.utf8EncodeChar c).length with hin | hout
    · rw [Nat.sub_eq_zero_of_le hin.le, List.drop_zero, List.takeWhile_append, hbegins]
      split
      · simp
        omega
      · refine (List.takeWhile_sublist _).length_le.trans ?_
        rw [List.length_drop]
        omega
    · rw [List.drop_eq_nil_of_le hout, List.nil_append]
      exact ih _

end Koh.Server
