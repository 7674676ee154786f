import Mathlib.Data.List.Infix

/-!
# Looking for a text as it grows

A text is looked for in what comes a piece at a time, again and again, each time only
from where it could begin that was not looked at before.

## Main definitions

- `windows`: the runs of so many elements, one after another
- `Passed`: where the text is known not to begin, whatever comes

## Main results

- `mem_windows_iff`: a text is a window if it is found
- `Passed.append`, `Passed.of_not_found`: what is passed stays so, and grows by a search
- `Passed.infix_iff`: only the rest is to be searched
-/

namespace Koh.Lib

variable {α : Type} {text xs : List α} {k : ℕ}

/-- The runs of `size` elements, one after another. -/
def windows (size : ℕ) (xs : List α) : List (List α) :=
  (List.range (xs.length + 1 - size)).map fun i => (xs.drop i).take size

/-- A text is in another where it begins some of what is left. -/
theorem infix_iff_exists_drop : text <:+: xs ↔ ∃ i, text <+: xs.drop i := by
  constructor
  · rintro ⟨before, after, rfl⟩
    refine ⟨before.length, after, ?_⟩
    rw [List.append_assoc, List.drop_left]
  · rintro ⟨i, hprefix⟩
    exact hprefix.isInfix.trans (List.drop_suffix i xs).isInfix

/-- A text that begins somewhere is all there. -/
theorem length_le_of_prefix_drop {i : ℕ} (hpos : text ≠ []) (h : text <+: xs.drop i) :
    i + text.length ≤ xs.length := by
  have hlen := h.length_le
  have htext : 0 < text.length := List.length_pos_iff.mpr hpos
  rw [List.length_drop] at hlen
  omega

/-- The windows are where a text may be. -/
theorem mem_windows_iff (hpos : text ≠ []) : text ∈ windows text.length xs ↔ text <:+: xs := by
  rw [infix_iff_exists_drop]
  simp only [windows, List.mem_map, List.mem_range]
  constructor
  · rintro ⟨i, -, heq⟩
    exact ⟨i, List.prefix_iff_eq_take.mpr heq.symm⟩
  · rintro ⟨i, hprefix⟩
    have hle := length_le_of_prefix_drop hpos hprefix
    exact ⟨i, by omega, (List.prefix_iff_eq_take.mp hprefix).symm⟩

/-- The text does not begin before `k`, whatever comes: it would be all there. -/
def Passed (text xs : List α) (k : ℕ) : Prop :=
  ∀ i < k, i + text.length ≤ xs.length ∧ ¬ text <+: xs.drop i

namespace Passed

/-- Nothing is passed over yet. -/
theorem zero (text xs : List α) : Passed text xs 0 := fun _ hi => absurd hi (Nat.not_lt_zero _)

/-- What was passed over stays so, whatever comes. -/
theorem append (h : Passed text xs k) (more : List α) : Passed text (xs ++ more) k := by
  intro i hi
  obtain ⟨hle, hnot⟩ := h i hi
  refine ⟨hle.trans (by simp), ?_⟩
  rw [List.drop_append_of_le_length (by omega)]
  intro hprefix
  refine hnot (List.prefix_of_prefix_length_le hprefix (List.prefix_append _ _) ?_)
  rw [List.length_drop]
  omega

/-- Only what is not passed is to be searched. -/
theorem infix_iff (h : Passed text xs k) : text <:+: xs ↔ text <:+: xs.drop k := by
  constructor
  · intro hinfix
    obtain ⟨i, hprefix⟩ := infix_iff_exists_drop.mp hinfix
    have hk : k ≤ i := by
      by_contra hlt
      exact (h i (Nat.not_le.mp hlt)).2 hprefix
    refine infix_iff_exists_drop.mpr ⟨i - k, ?_⟩
    rwa [List.drop_drop, Nat.add_sub_cancel' hk]
  · exact fun hinfix => hinfix.trans (List.drop_suffix k xs).isInfix

/-- Where nothing was found, all is passed but the last places, fewer than the text is
long. -/
theorem of_not_found (h : ¬ text <:+: xs) : Passed text xs (xs.length - (text.length - 1)) := by
  intro i hi
  refine ⟨by omega, fun hprefix => h ?_⟩
  exact infix_iff_exists_drop.mpr ⟨i, hprefix⟩

/-- Of two bounds, the greater. -/
theorem either {k' : ℕ} (h : Passed text xs k) (h' : Passed text xs k') :
    Passed text xs (max k k') := by
  intro i hi
  by_cases hk : i < k
  · exact h i hk
  · exact h' i (by omega)

end Passed

end Koh.Lib
