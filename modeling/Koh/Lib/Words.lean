import Mathlib.Data.List.TakeWhile

/-!
# Words

A text's words are its longest runs without white space, which a predicate tells.

## Main definitions

- `trim`: a text without the white space at its ends
- `words`: the words of a text
- `IsWord`: what a word is
- `isWhitespace`: the white space of Unicode

## Main results

- `words_cons`: the word before white space, and those after it
- `words_trim`: white space at the ends has no part in the words
- `eq_of_words_singleton`: a text of one word is the word, and white space after it
-/

namespace Koh.Lib

/-- The characters that Unicode has as `White_Space`. -/
def isWhitespace (c : Char) : Bool :=
  let n := c.toNat
  9 ≤ n && n ≤ 13 || n = 0x20 || n = 0x85 || n = 0xa0 || n = 0x1680 || 0x2000 ≤ n && n ≤ 0x200a ||
    n = 0x2028 || n = 0x2029 || n = 0x202f || n = 0x205f || n = 0x3000

variable {α : Type} (ws : α → Bool)

def trim (text : List α) : List α := ((text.dropWhile ws).reverse.dropWhile ws).reverse

def trimEnd (text : List α) : List α := (text.reverse.dropWhile ws).reverse

/-- The text begins with a word. -/
def begun (text : List α) : Bool := text.head?.any fun x => !ws x

def words : List α → List (List α)
  | [] => []
  | x :: rest =>
    if ws x then words rest
    else if begun ws rest then (words rest).modifyHead (x :: ·)
    else [x] :: words rest

/-- A word: there is something of it, and no white space in it. -/
structure IsWord (w : List α) : Prop where
  ne_nil : w ≠ []
  solid : ∀ x ∈ w, ws x = false

/-- There is nothing but white space. -/
def Blank (text : List α) : Prop := ∀ x ∈ text, ws x = true

variable {ws} {w text blank rest : List α} {x s : α}

/-- What is seen is no white space. -/
theorem isWhitespace_of_visible {c : Char} (h : '!'.toNat ≤ c.toNat ∧ c.toNat ≤ '~'.toNat) :
    isWhitespace c = false := by
  have hrange : 33 ≤ c.toNat ∧ c.toNat ≤ 126 := h
  simp [isWhitespace]
  omega

theorem solid_of_all (h : text.all (fun x => !ws x) = true) : ∀ x ∈ text, ws x = false := by
  intro x hx
  simpa using List.all_eq_true.mp h x hx

theorem blank_nil : Blank ws [] := fun _ hx => by cases hx

theorem blank_cons : Blank ws (x :: text) ↔ ws x = true ∧ Blank ws text := List.forall_mem_cons

theorem begun_blank (h : Blank ws blank) : begun ws blank = false := by
  cases blank with
  | nil => rfl
  | cons x rest => simp [begun, (blank_cons.mp h).1]

theorem begun_cons : begun ws (x :: text) = !ws x := rfl

/-- Whether a word is begun is up to the first of it. -/
theorem begun_append (h : text ≠ []) : begun ws (text ++ rest) = begun ws text := by
  obtain ⟨x, more, rfl⟩ := List.exists_cons_of_ne_nil h
  rfl

/-- A blank before makes no word. -/
theorem words_of_ws (h : ws x = true) : words ws (x :: text) = words ws text := by
  rw [words, if_pos h]

/-- Nor do many. -/
theorem words_blank_append (h : Blank ws blank) : words ws (blank ++ text) = words ws text := by
  induction blank with
  | nil => rfl
  | cons x blank ih =>
    obtain ⟨hx, hblank⟩ := blank_cons.mp h
    rw [List.cons_append, words_of_ws hx, ih hblank]

/-- There is no word in blanks. -/
theorem words_blank (h : Blank ws blank) : words ws blank = [] := by
  have happend : words ws (blank ++ []) = words ws [] := words_blank_append h
  rwa [List.append_nil] at happend

/-- Nor after the last word. -/
theorem words_append_blank (h : Blank ws blank) : words ws (text ++ blank) = words ws text := by
  induction text with
  | nil => exact words_blank h
  | cons x text ih =>
    rw [List.cons_append, words, words, ih]
    by_cases htext : text = []
    · rw [htext, List.nil_append, begun_blank h, begun_blank blank_nil]
    · rw [begun_append htext]

variable (ws) in
/-- A text is what `trim` leaves of it, between white space. -/
theorem exists_trim (text : List α) :
    ∃ before after, Blank ws before ∧ Blank ws after ∧ text = before ++ trim ws text ++ after := by
  refine ⟨text.takeWhile ws, ((text.dropWhile ws).reverse.takeWhile ws).reverse,
    fun x hx => List.mem_takeWhile_imp hx, fun x hx => ?_, ?_⟩
  · exact List.mem_takeWhile_imp (List.mem_reverse.mp hx)
  · have hback : trim ws text ++ ((text.dropWhile ws).reverse.takeWhile ws).reverse
        = text.dropWhile ws := by
      rw [trim, ← List.reverse_append, List.takeWhile_append_dropWhile, List.reverse_reverse]
    rw [List.append_assoc, hback, List.takeWhile_append_dropWhile]

/-- White space at the ends has no part in the words. -/
theorem words_trim (text : List α) : words ws (trim ws text) = words ws text := by
  obtain ⟨before, after, hbefore, hafter, htext⟩ := exists_trim ws text
  calc words ws (trim ws text)
      = words ws (before ++ trim ws text) := (words_blank_append hbefore).symm
    _ = words ws (before ++ trim ws text ++ after) := (words_append_blank hafter).symm
    _ = words ws text := by rw [← htext]

/-- Only blanks are trimmed to nothing. -/
theorem trim_eq_nil_iff : trim ws text = [] ↔ Blank ws text := by
  constructor
  · intro h
    obtain ⟨before, after, hbefore, hafter, htext⟩ := exists_trim ws text
    rw [h, List.append_nil] at htext
    rw [htext]
    exact List.forall_mem_append.mpr ⟨hbefore, hafter⟩
  · intro h
    have hfront : text.dropWhile ws = [] := List.dropWhile_eq_nil_iff.mpr h
    rw [trim, hfront]
    rfl

/-- What is dropped before stays so with blanks after. -/
theorem dropWhile_append_blank (text : List α) (h : Blank ws blank) :
    (text ++ blank).dropWhile ws = [] ∧ text.dropWhile ws = [] ∨
      (text ++ blank).dropWhile ws = text.dropWhile ws ++ blank := by
  by_cases htext : text.dropWhile ws = []
  · refine .inl ⟨List.dropWhile_eq_nil_iff.mpr ?_, htext⟩
    exact List.forall_mem_append.mpr ⟨List.dropWhile_eq_nil_iff.mp htext, h⟩
  · right
    rw [List.dropWhile_append, if_neg (by simpa using htext)]

/-- Blanks after are trimmed. -/
theorem trim_append_blank (h : Blank ws blank) : trim ws (text ++ blank) = trim ws text := by
  rcases dropWhile_append_blank text h with ⟨hall, htext⟩ | happend
  · rw [trim, trim, hall, htext]
  · have hback : ∀ x ∈ blank.reverse, ws x = true := fun x hx => h x (List.mem_reverse.mp hx)
    rw [trim, trim, happend, List.reverse_append, List.dropWhile_append_of_pos hback]

/-- White space only at the end, if at all. -/
theorem trimEnd_solid_iff : (∀ x ∈ trimEnd ws text, ws x = false) ↔
    ∃ w blank, text = w ++ blank ∧ (∀ x ∈ w, ws x = false) ∧ Blank ws blank := by
  constructor
  · intro h
    refine ⟨trimEnd ws text, (text.reverse.takeWhile ws).reverse, ?_, h, fun x hx => ?_⟩
    · rw [trimEnd, ← List.reverse_append, List.takeWhile_append_dropWhile, List.reverse_reverse]
    · exact List.mem_takeWhile_imp (List.mem_reverse.mp hx)
  · rintro ⟨w, blank, rfl, hw, hblank⟩ x hx
    have hback : ∀ x ∈ blank.reverse, ws x = true := fun x hx => hblank x (List.mem_reverse.mp hx)
    rw [trimEnd, List.reverse_append, List.dropWhile_append_of_pos hback] at hx
    exact hw x (List.mem_reverse.mp ((List.dropWhile_suffix _).subset (List.mem_reverse.mp hx)))

/-- Where a text begins with a word, `trim` leaves the beginning. -/
theorem head?_trim (h : begun ws text = true) : (trim ws text).head? = text.head? := by
  obtain ⟨before, after, hbefore, hafter, htext⟩ := exists_trim ws text
  have hnone : before = [] := by
    cases before with
    | nil => rfl
    | cons y before =>
      rw [htext] at h
      simp [begun_cons, (blank_cons.mp hbefore).1] at h
  subst hnone
  rw [List.nil_append] at htext
  cases htrim : trim ws text with
  | nil =>
    rw [htrim, List.nil_append] at htext
    rw [htext, begun_blank hafter] at h
    cases h
  | cons x rest =>
    conv => rhs; rw [htext, htrim]
    rfl

/-- What is kept of an end is kept of all. -/
theorem mem_trimEnd_append (h : x ∈ trimEnd ws text) : x ∈ trimEnd ws (rest ++ text) := by
  rw [trimEnd, List.mem_reverse] at h ⊢
  rw [List.reverse_append, List.dropWhile_append, if_neg (by simpa using List.ne_nil_of_mem h)]
  exact List.mem_append_left _ h

/-! ### A word, and what is after it -/

theorem IsWord.begun (h : IsWord ws w) : begun ws (w ++ rest) = true := by
  obtain ⟨x, more, rfl⟩ := List.exists_cons_of_ne_nil h.ne_nil
  simp [begun_cons, h.solid x List.mem_cons_self]

/-- A word that white space, or nothing, comes after. -/
theorem words_append (h : IsWord ws w) (hrest : Koh.Lib.begun ws rest = false) :
    words ws (w ++ rest) = w :: words ws rest := by
  obtain ⟨hne, hsolid⟩ := h
  induction w with
  | nil => exact absurd rfl hne
  | cons x w ih =>
    obtain ⟨hx, hw⟩ := List.forall_mem_cons.mp hsolid
    rw [List.cons_append, words, if_neg (by simp [hx])]
    by_cases hnil : w = []
    · rw [hnil, List.nil_append, if_neg (by simp [hrest])]
    · have hword : IsWord ws w := ⟨hnil, hw⟩
      rw [if_pos hword.begun, ih hnil hw]
      rfl

/-- A word alone is all there is. -/
theorem words_word (h : IsWord ws w) : words ws w = [w] := by
  have happend : words ws (w ++ []) = w :: words ws [] := words_append h rfl
  rwa [List.append_nil] at happend

/-- The first word, up to its blank. -/
theorem words_cons (h : IsWord ws w) (hs : ws s = true) :
    words ws (w ++ s :: rest) = w :: words ws rest := by
  rw [words_append h (by simp [begun_cons, hs]), words_of_ws hs]

/-- Words with white space before each. -/
theorem words_spaced {ws' : List (List α)} (h : IsWord ws w) (hs : ws s = true)
    (hws' : ∀ w' ∈ ws', IsWord ws w') : words ws (w ++ ws'.flatMap (s :: ·)) = w :: ws' := by
  induction ws' generalizing w with
  | nil => rw [List.flatMap_nil, List.append_nil, words_word h]
  | cons w₁ ws' ih =>
    obtain ⟨hw₁, hmore⟩ := List.forall_mem_cons.mp hws'
    rw [List.flatMap_cons, List.cons_append, words_cons h hs, ih hw₁ hmore]

/-- The first word, and what is before and after it. -/
theorem words_eq_cons {ws' : List (List α)} (h : words ws text = w :: ws') :
    ∃ before after, Blank ws before ∧ IsWord ws w ∧ begun ws after = false ∧
      text = before ++ w ++ after ∧ words ws after = ws' := by
  induction text generalizing w ws' with
  | nil => cases h
  | cons x text ih =>
    rw [words] at h
    split at h
    · next hx =>
      obtain ⟨before, after, hbefore, hword, hafter, rfl, hws⟩ := ih h
      exact ⟨x :: before, after, blank_cons.mpr ⟨hx, hbefore⟩, hword, hafter, rfl, hws⟩
    · next hx =>
      have hx : ws x = false := by simpa using hx
      split at h
      · next hbegun =>
        cases hwords : words ws text with
        | nil =>
          rw [hwords] at h
          cases h
        | cons w₁ more =>
          rw [hwords] at h
          obtain ⟨rfl, rfl⟩ := List.cons.inj h
          obtain ⟨before, after, hbefore, hword, hafter, htext, hws⟩ := ih hwords
          -- The text begins with a word, so nothing is before it.
          have hnone : before = [] := by
            cases before with
            | nil => rfl
            | cons y before =>
              rw [htext] at hbegun
              simp [begun_cons, (blank_cons.mp hbefore).1] at hbegun
          subst hnone
          refine ⟨[], after, blank_nil, ⟨List.cons_ne_nil _ _, ?_⟩, hafter, ?_, hws⟩
          · exact List.forall_mem_cons.mpr ⟨hx, hword.solid⟩
          · rw [htext]
            rfl
      · next hbegun =>
        obtain ⟨rfl, rfl⟩ := List.cons.inj h
        refine ⟨[], text, blank_nil, ⟨List.cons_ne_nil _ _, ?_⟩, by simpa using hbegun, rfl, rfl⟩
        simpa using hx

/-- Each of the words is one. -/
theorem isWord_of_mem_words (h : w ∈ words ws text) : IsWord ws w := by
  generalize hws : words ws text = ws' at h
  induction ws' generalizing text with
  | nil => cases h
  | cons w₁ ws' ih =>
    obtain ⟨-, after, -, hword, -, -, hafter⟩ := words_eq_cons hws
    rcases List.mem_cons.mp h with rfl | h
    · exact hword
    · exact ih hafter h

/-- Where there is no word all is blank. -/
theorem blank_of_words_nil (h : words ws text = []) : Blank ws text := by
  induction text with
  | nil => exact blank_nil
  | cons x text ih =>
    rw [words] at h
    split at h
    · next hx => exact blank_cons.mpr ⟨hx, ih h⟩
    · split at h
      · next hbegun =>
        cases hwords : words ws text with
        | nil =>
          rw [begun_blank (ih hwords)] at hbegun
          cases hbegun
        | cons w₁ more =>
          rw [hwords] at h
          cases h
      · cases h

/-- A text that begins with a word and has no other is the word, and white space after it. -/
theorem eq_of_words_singleton (h : words ws text = [w]) (hbegun : begun ws text = true) :
    ∃ after, Blank ws after ∧ text = w ++ after := by
  obtain ⟨before, after, hbefore, -, -, rfl, hafter⟩ := words_eq_cons h
  have hnone : before = [] := by
    cases before with
    | nil => rfl
    | cons y before => simp [begun_cons, (blank_cons.mp hbefore).1] at hbegun
  exact ⟨after, blank_of_words_nil hafter, by rw [hnone, List.nil_append]⟩

end Koh.Lib
