import Mathlib.Algebra.GroupWithZero.Nat
import Mathlib.Data.List.Basic

/-!
# Lines

A text is its lines, one after another: each goes to the separator that ends it,
but the last, which may have none yet.

## Main definitions

- `lines`: the lines of a text
- `Ended`: a text whose last line is ended
- `textLines`: the lines of characters, without what ends them

## Main results

- `lines_append`: the lines of an ended text and those after it
- `length_lines`: how many lines there are, by the separators
- `textLines_ended`: lines that are each ended are the lines, but for a return at their ends
-/

namespace Koh.Lib

variable {α : Type} {sep x : α} {text rest : List α}

/-- The lines of a text, each with the separator that ends it. -/
def lines [DecidableEq α] (sep : α) : List α → List (List α)
  | [] => []
  | x :: rest =>
    if x = sep then [x] :: lines sep rest
    else match lines sep rest with
      | [] => [[x]]
      | line :: more => (x :: line) :: more

def Ended (sep : α) (text : List α) : Prop := ∀ x ∈ text.getLast?, x = sep

instance [DecidableEq α] (sep : α) (text : List α) : Decidable (Ended sep text) :=
  inferInstanceAs (Decidable (∀ x ∈ text.getLast?, x = sep))

@[simp] theorem ended_nil : Ended sep [] := fun _ hx => by cases hx

@[simp] theorem ended_singleton : Ended sep [x] ↔ x = sep := by simp [Ended]

theorem ended_cons (h : rest ≠ []) : Ended sep (x :: rest) ↔ Ended sep rest := by
  obtain ⟨y, more, rfl⟩ := List.exists_cons_of_ne_nil h
  simp [Ended, List.getLast?_cons_cons]

/-- Whether a text is ended is up to its last part. -/
theorem ended_append (h : rest ≠ []) : Ended sep (text ++ rest) ↔ Ended sep rest := by
  rw [Ended, Ended, List.getLast?_append_of_ne_nil _ h]

variable [DecidableEq α]

/-- A separator at the start is a line of its own. -/
theorem lines_ended_cons : lines sep (sep :: rest) = [sep] :: lines sep rest := by
  rw [lines, if_pos rfl]

/-- A text has a line. -/
theorem lines_ne_nil (h : text ≠ []) : lines sep text ≠ [] := by
  obtain ⟨x, rest, rfl⟩ := List.exists_cons_of_ne_nil h
  rw [lines]
  split
  · exact List.cons_ne_nil _ _
  · cases lines sep rest with
    | nil => exact List.cons_ne_nil _ _
    | cons line more => exact List.cons_ne_nil _ _

/-- What is put before a line that is begun is part of it. -/
theorem lines_cons (hx : x ≠ sep) (h : rest ≠ []) :
    ∃ line more, lines sep rest = line :: more ∧ lines sep (x :: rest) = (x :: line) :: more := by
  have hne : lines sep rest ≠ [] := lines_ne_nil h
  obtain ⟨line, more, hlines⟩ := List.exists_cons_of_ne_nil hne
  exact ⟨line, more, hlines, by rw [lines, if_neg hx, hlines]⟩

/-- The lines of an ended text are followed by those of what comes after it. -/
theorem lines_append (h : Ended sep text) (rest : List α) :
    lines sep (text ++ rest) = lines sep text ++ lines sep rest := by
  induction text with
  | nil => rfl
  | cons x text ih =>
    by_cases hx : x = sep
    · subst hx
      have hended : Ended x text := by
        by_cases htext : text = []
        · rw [htext]
          exact ended_nil
        · exact (ended_cons htext).mp h
      rw [List.cons_append, lines_ended_cons, lines_ended_cons, ih hended, List.cons_append]
    · have htext : text ≠ [] := by
        rintro rfl
        exact hx (ended_singleton.mp h)
      obtain ⟨line, more, hline, hcons⟩ := lines_cons hx htext
      have htext' : text ++ rest ≠ [] := List.append_ne_nil_of_left_ne_nil htext _
      obtain ⟨line', more', hline', hcons'⟩ := lines_cons hx htext'
      rw [ih ((ended_cons htext).mp h), hline, List.cons_append] at hline'
      obtain ⟨rfl, rfl⟩ := List.cons.inj hline'
      rw [List.cons_append, hcons', hcons, List.cons_append]

/-- There are as many lines as separators, and one more if the last is not ended. -/
theorem length_lines (sep : α) (text : List α) :
    (lines sep text).length = text.count sep + if Ended sep text then 0 else 1 := by
  induction text with
  | nil => simp [lines]
  | cons x rest ih =>
    by_cases hx : x = sep
    · subst hx
      rw [lines_ended_cons, List.length_cons, List.count_cons_self, ih]
      by_cases hrest : rest = []
      · simp [hrest]
      · rw [if_congr (ended_cons hrest) rfl rfl]
        omega
    · rw [List.count_cons_of_ne (fun heq => hx heq)]
      by_cases hrest : rest = []
      · simp [hrest, lines, hx]
      · obtain ⟨line, more, hline, hcons⟩ := lines_cons hx hrest
        rw [hline] at ih
        rw [hcons, List.length_cons, if_congr (ended_cons hrest) rfl rfl]
        exact ih

/-- A line, the separator, and what is after it. -/
theorem lines_append_cons {line : List α} (h : sep ∉ line) :
    lines sep (line ++ sep :: rest) = (line ++ [sep]) :: lines sep rest := by
  induction line with
  | nil => exact lines_ended_cons
  | cons x line ih =>
    rw [List.mem_cons, not_or] at h
    rw [List.cons_append, lines, if_neg fun hx => h.1 hx.symm, ih h.2]
    rfl

/-- A separator is nowhere in a line but at its end. -/
theorem notMem_dropLast_of_mem_lines {line : List α} (h : line ∈ lines sep text) :
    sep ∉ line.dropLast ∧ (line.getLast? ≠ some sep → sep ∉ line) := by
  induction text generalizing line with
  | nil => cases h
  | cons x text ih =>
    rw [lines] at h
    split at h
    · next hx =>
      rcases List.mem_cons.mp h with rfl | h
      · exact ⟨List.not_mem_nil, fun hne => absurd (by rw [hx]; rfl) hne⟩
      · exact ih h
    · next hx =>
      cases hlines : lines sep text with
      | nil =>
        rw [hlines, List.mem_singleton] at h
        subst h
        exact ⟨List.not_mem_nil, fun _ hmem => hx (List.mem_singleton.mp hmem).symm⟩
      | cons first more =>
        rw [hlines] at h
        rcases List.mem_cons.mp h with rfl | h
        · have hfirst := ih (hlines ▸ List.mem_cons_self)
          cases first with
          | nil => exact ⟨List.not_mem_nil, fun _ hmem => hx (List.mem_singleton.mp hmem).symm⟩
          | cons y first =>
            rw [List.dropLast_cons_cons, List.mem_cons, not_or, List.getLast?_cons_cons]
            refine ⟨⟨fun heq => hx heq.symm, hfirst.1⟩, fun hne hmem => ?_⟩
            rcases List.mem_cons.mp hmem with heq | hmem
            · exact hx heq.symm
            · exact hfirst.2 hne hmem
        · exact ih (hlines ▸ List.mem_cons_of_mem _ h)

/-! ### Lines of characters -/

/-- A line without a return at its end. -/
def unreturned (line : List Char) : List Char :=
  if line.getLast? = some '\r' then line.dropLast else line

/-- A line without what ends it: a newline, or a return and a newline. -/
def unended (line : List Char) : List Char :=
  if line.getLast? = some '\n' then unreturned line.dropLast else line

/-- The lines of a text (`str::lines`). -/
def textLines (text : List Char) : List (List Char) := (lines '\n' text).map unended

/-- A line has no newline in it. -/
theorem newline_notMem_textLines {text line : List Char} (h : line ∈ textLines text) :
    '\n' ∉ line := by
  obtain ⟨whole, hwhole, rfl⟩ := List.mem_map.mp h
  obtain ⟨hinit, hnone⟩ := notMem_dropLast_of_mem_lines hwhole
  rw [unended, unreturned]
  split
  · split
    · exact fun hmem => hinit (List.dropLast_subset _ hmem)
    · exact hinit
  · next hlast => exact hnone hlast

/-- Each text that is ended is a line, and one more for each newline in it. -/
theorem length_textLines_ended (texts : List (List Char)) :
    (textLines (texts.flatMap (· ++ ['\n']))).length =
      texts.length + (texts.map (List.count '\n')).sum := by
  induction texts with
  | nil => rfl
  | cons text texts ih =>
    have hended : Ended '\n' (text ++ ['\n']) := (ended_append (List.cons_ne_nil _ _)).mpr (by simp)
    rw [textLines, List.length_map] at ih ⊢
    rw [List.flatMap_cons, lines_append hended, List.length_append, ih, length_lines,
      if_pos hended, List.count_append, List.map_cons, List.sum_cons, List.length_cons]
    simp only [List.count_singleton_self]
    omega

/-- Lines that are each ended are the lines, but for a return at their ends. -/
theorem textLines_ended {texts : List (List Char)} (h : ∀ text ∈ texts, '\n' ∉ text) :
    textLines (texts.flatMap (· ++ ['\n'])) = texts.map unreturned := by
  induction texts with
  | nil => rfl
  | cons text texts ih =>
    obtain ⟨htext, htexts⟩ := List.forall_mem_cons.mp h
    rw [List.flatMap_cons, List.append_assoc, List.singleton_append, textLines,
      lines_append_cons htext, List.map_cons, ← textLines, ih htexts]
    simp [unended]

end Koh.Lib
