import Mathlib.Data.List.Forall2
import Mathlib.Data.List.Infix

/-!
# Patterns with runs

A pattern is a list of glyphs: each takes one symbol, but a run takes any number of them
short of a separator. A matcher that on a mismatch goes back to the last run alone, and lets
it take one symbol more, misses nothing, where a glyph of one symbol takes separators only
or none: an earlier run could give the last one no more than it may take anyway.

## Main definitions

- `Glyph`, `Lang`: patterns, and the texts of each
- `Longer`: a text of a pattern once the run before it takes more
- `Hit`: what a matcher has yet to find
- `Since`: how far it is from the last run

## Main results

- `overtake`: what an earlier run could do, a later one can
- `hit_run`, `hit_one`, `hit_back`: what each step of a matcher leaves to find
-/

namespace Koh.Lib

/-- What a pattern is made of. -/
inductive Glyph (α : Type) where
  /-- Any run of symbols but separators. -/
  | run
  | one (takes : α → Bool)

variable {α : Type} {sep : α → Bool} {gs gs₀ front : List (Glyph α)} {t t₀ w : List α}

/-- The texts of a pattern, `sep` being the separators. -/
def Lang (sep : α → Bool) : List (Glyph α) → List α → Prop
  | [], t => t = []
  | .run :: gs, t => ∃ u v, t = u ++ v ∧ (∀ c ∈ u, sep c = false) ∧ Lang sep gs v
  | .one takes :: gs, t => ∃ c v, t = c :: v ∧ takes c = true ∧ Lang sep gs v

/-- A glyph of one symbol takes separators only, or none. -/
def Glyph.Sharp (sep : α → Bool) : Glyph α → Prop
  | .run => True
  | .one takes => (∀ c, takes c = true → sep c = true) ∨ ∀ c, takes c = true → sep c = false

/-- A glyph takes the symbol. -/
def Glyph.Takes (g : Glyph α) (c : α) : Prop := ∃ takes, g = .one takes ∧ takes c = true

/-- The glyphs take one symbol each. -/
abbrev Spells (front : List (Glyph α)) (w : List α) : Prop := List.Forall₂ Glyph.Takes front w

/-- The pattern has what is left of the text once a run before it takes at least one symbol. -/
def Longer (sep : α → Bool) (gs : List (Glyph α)) (t : List α) : Prop :=
  ∃ u v, t = u ++ v ∧ u ≠ [] ∧ (∀ c ∈ u, sep c = false) ∧ Lang sep gs v

/-- What a matcher has yet to find: `gs` in `t`, or, from the last run, what follows it in what is
left once it takes more. -/
def Hit (sep : α → Bool) (gs : List (Glyph α)) (t : List α)
    (last : Option (List (Glyph α) × List α)) : Prop :=
  Lang sep gs t ∨ ∃ r ∈ last, Longer sep r.1 r.2

/-- A matcher is at `gs` and `t`: what it went through since the last run took a symbol each. -/
def Since (gs : List (Glyph α)) (t : List α) (last : Option (List (Glyph α) × List α)) : Prop :=
  ∀ r ∈ last, ∃ front w, r.1 = front ++ gs ∧ r.2 = w ++ t ∧ Spells front w

/-! ### The texts of a pattern -/

/-- A run is nothing, or longer than that. -/
theorem lang_run : Lang sep (.run :: gs) t ↔ Lang sep gs t ∨ Longer sep gs t := by
  constructor
  · rintro ⟨u, v, rfl, hu, hv⟩
    cases u with
    | nil => exact .inl hv
    | cons c u => exact .inr ⟨c :: u, v, rfl, by simp, hu, hv⟩
  · rintro (h | ⟨u, v, rfl, -, hu, hv⟩)
    · exact ⟨[], t, rfl, by simp, h⟩
    · exact ⟨u, v, rfl, hu, hv⟩

/-- One glyph takes one character. -/
theorem lang_one {takes : α → Bool} {c : α} :
    Lang sep (.one takes :: gs) (c :: t) ↔ takes c = true ∧ Lang sep gs t := by
  constructor
  · rintro ⟨c', v, heq, htakes, hv⟩
    cases heq
    exact ⟨htakes, hv⟩
  · rintro ⟨htakes, hv⟩
    exact ⟨c, t, rfl, htakes, hv⟩

/-- A run goes on over what is no separator. -/
theorem longer_cons {c : α} :
    Longer sep gs (c :: t) ↔ sep c = false ∧ (Lang sep gs t ∨ Longer sep gs t) := by
  constructor
  · rintro ⟨u, v, heq, hne, hu, hv⟩
    obtain ⟨c', u, rfl⟩ := List.exists_cons_of_ne_nil hne
    obtain ⟨rfl, rfl⟩ := List.cons.inj heq
    refine ⟨hu c (by simp), lang_run.mp ⟨u, v, rfl, fun x hx => hu x (by simp [hx]), hv⟩⟩
  · rintro ⟨hc, h⟩
    obtain ⟨u, v, rfl, hu, hv⟩ := lang_run.mpr h
    refine ⟨c :: u, v, rfl, by simp, ?_, hv⟩
    exact List.forall_mem_cons.mpr ⟨hc, hu⟩

/-- There is nothing to go on over. -/
theorem not_longer_nil : ¬ Longer sep gs [] := by
  rintro ⟨u, v, heq, hne, -⟩
  exact hne (List.append_eq_nil_iff.mp heq.symm).1

/-- Glyphs of one symbol each take as many symbols, whatever they are. -/
theorem lang_spells (h : Spells front w) :
    Lang sep (front ++ gs) t → ∃ w' v, t = w' ++ v ∧ Spells front w' ∧ Lang sep gs v := by
  induction h generalizing t with
  | nil => exact fun hl => ⟨[], t, rfl, .nil, hl⟩
  | cons hg _ ih =>
    obtain ⟨takes, rfl, -⟩ := hg
    rintro ⟨c, v, rfl, htakes, hl⟩
    obtain ⟨w', v', rfl, hspells, hrest⟩ := ih hl
    exact ⟨c :: w', v', rfl, .cons ⟨takes, rfl, htakes⟩ hspells, hrest⟩

/-- Each character is taken by its glyph. -/
theorem spells_getElem? (h : Spells front w) {j : ℕ} {c : α} (hc : w[j]? = some c) :
    ∃ g, front[j]? = some g ∧ g.Takes c := by
  induction h generalizing j with
  | nil => simp at hc
  | @cons g c' front w hg _ ih =>
    cases j with
    | zero =>
      cases hc
      exact ⟨g, rfl, hg⟩
    | succ j => exact ih hc

/-! ### One run after another -/

/-- The glyphs between two runs take no separator further on than where they took the text
before: each would be one where it was before too, and so on down to what the run takes. -/
theorem clear_of_shift (hsharp : ∀ g ∈ front, g.Sharp sep) (h : Spells front w)
    {w' u : List α} (h' : Spells front w') (hu : ∀ c ∈ u, sep c = false) (hne : u ≠ [])
    (hshift : w <+: u ++ w') : ∀ c ∈ w', sep c = false := by
  have hall : ∀ (j : ℕ) (c : α), w'[j]? = some c → sep c = false := by
    intro j
    induction j using Nat.strongRecOn with
    | ind j ih =>
      intro c hc
      obtain ⟨g, hg, takes, rfl, htakes⟩ := spells_getElem? h' hc
      have hlen : j < w.length := by
        rw [← h.length_eq, h'.length_eq]
        exact (List.getElem?_eq_some_iff.mp hc).1
      obtain ⟨_, hg', takes', rfl, hold⟩ :=
        spells_getElem? h (List.getElem?_eq_getElem hlen)
      rw [hg] at hg'
      cases hg'
      rcases hsharp _ (List.mem_of_getElem? hg) with honly | hnone
      · -- It takes separators only: it took one of what is now before it.
        have hsep := honly _ hold
        have hsame : (u ++ w')[j]? = some w[j] := by
          obtain ⟨rest, hrest⟩ := hshift
          rw [← hrest, List.getElem?_append_left hlen, List.getElem?_eq_getElem hlen]
        by_cases hin : j < u.length
        · rw [List.getElem?_append_left hin] at hsame
          rw [hu _ (List.mem_of_getElem? hsame)] at hsep
          cases hsep
        · rw [List.getElem?_append_right (Nat.not_lt.mp hin)] at hsame
          have hpos := List.length_pos_iff.mpr hne
          rw [ih (j - u.length) (by omega) _ hsame] at hsep
          cases hsep
      · exact hnone c htakes
  intro c hc
  obtain ⟨j, hj⟩ := List.mem_iff_getElem?.mp hc
  exact hall j c hj

/-- What follows two runs in a text once the first takes more, follows the second in what is left
where the first took no more. -/
theorem overtake (hsharp : ∀ g ∈ front, g.Sharp sep) (h : Spells front w)
    (hlonger : Longer sep (front ++ .run :: gs) (w ++ t)) : Lang sep (.run :: gs) t := by
  obtain ⟨u, v, heq, hne, hu, hlang⟩ := hlonger
  obtain ⟨w', v', rfl, h', u', rest, rfl, hu', hrest⟩ := lang_spells h hlang
  have hlen : w.length ≤ (u ++ w').length := by
    rw [List.length_append, ← h.length_eq, ← h'.length_eq]
    exact Nat.le_add_left _ _
  have hwhole : w ++ t = (u ++ w') ++ (u' ++ rest) := by simp [heq]
  obtain ⟨x, hx⟩ : w <+: u ++ w' :=
    List.prefix_of_prefix_length_le (List.prefix_append w t) (hwhole ▸ List.prefix_append _ _) hlen
  have hclear := clear_of_shift hsharp h h' hu hne ⟨x, hx⟩
  have ht : t = (x ++ u') ++ rest := by
    rw [← hx, List.append_assoc] at hwhole
    simpa using List.append_cancel_left hwhole
  refine ⟨x ++ u', rest, ht, fun c hc => ?_, hrest⟩
  rcases List.mem_append.mp hc with hin | hin
  · have hmem : c ∈ u ++ w' := hx ▸ List.mem_append_right _ hin
    exact (List.mem_append.mp hmem).elim (hu c) (hclear c)
  · exact hu' c hin

/-! ### The steps of a matcher -/

/-- At a run, it alone is gone back to. -/
theorem hit_run {last : Option (List (Glyph α) × List α)}
    (hsharp : ∀ r ∈ last, ∀ g ∈ r.1, g.Sharp sep) (h : Since (.run :: gs) t last) :
    Hit sep (.run :: gs) t last ↔ Hit sep gs t (some (gs, t)) := by
  have hself : Hit sep gs t (some (gs, t)) ↔ Lang sep (.run :: gs) t := by
    simp [Hit, lang_run]
  rw [hself]
  refine ⟨?_, .inl⟩
  rintro (hlang | ⟨⟨gs₀, t₀⟩, hr, hlonger⟩)
  · exact hlang
  · obtain ⟨front, w, hgs, ht, hspells⟩ := h _ hr
    dsimp only at hgs ht hlonger
    subst hgs ht
    refine overtake (fun g hg => hsharp _ hr g ?_) hspells hlonger
    exact List.mem_append_left _ hg

theorem since_run (gs : List (Glyph α)) (t : List α) : Since gs t (some (gs, t)) := by
  intro r hr
  cases hr
  exact ⟨[], [], rfl, rfl, .nil⟩

/-- A symbol that is taken is gone by. -/
theorem hit_one {last : Option (List (Glyph α) × List α)} {takes : α → Bool} {c : α}
    (hc : takes c = true) :
    Hit sep (.one takes :: gs) (c :: t) last ↔ Hit sep gs t last := by
  simp [Hit, lang_one, hc]

/-- A glyph taken leaves what may be taken up again. -/
theorem Since.one {last : Option (List (Glyph α) × List α)} {takes : α → Bool} {c : α}
    (h : Since (.one takes :: gs) (c :: t) last) (hc : takes c = true) : Since gs t last := by
  intro r hr
  obtain ⟨front, w, hgs, ht, hspells⟩ := h r hr
  refine ⟨front ++ [.one takes], w ++ [c], by simp [hgs], by simp [ht], ?_⟩
  exact List.rel_append hspells (.cons ⟨takes, rfl, hc⟩ .nil)

/-- On a mismatch, the last run takes one symbol more. -/
theorem hit_back {c : α} (hnot : ¬ Lang sep gs t) :
    Hit sep gs t (some (gs₀, c :: t₀)) ↔ sep c = false ∧ Hit sep gs₀ t₀ (some (gs₀, t₀)) := by
  simp [Hit, hnot, longer_cons]

/-- With no run to go back to, or none that may take more, there is nothing to find. -/
theorem not_hit {last : Option (List (Glyph α) × List α)} (hnot : ¬ Lang sep gs t)
    (hlast : ∀ r ∈ last, r.2 = []) : ¬ Hit sep gs t last := by
  rintro (h | ⟨⟨gs₀, t₀⟩, hr, hlonger⟩)
  · exact hnot h
  · cases hlast _ hr
    exact not_longer_nil hlonger

end Koh.Lib
