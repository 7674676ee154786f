import Mathlib.Data.List.Induction
import Mathlib.Logic.Basic
import Mathlib.Tactic.Common

/-!
# Directories of named entries

Directories `D`, each with entries `E` under names `N`; an entry may be a
directory again (`sub`). A path is followed from one directory to the next.

## Main definitions

- `reach`: the directory a path leads to
- `Stands`: something is at a path
- `Once`: every directory is one entry, and no more, and the top is not below itself
- `Under`: the entries at or below one
- `Spared`: what a change left standing

## Design notes

Entries are given by a function, `f d n` being entry `n` of directory `d`. The
top of a tree is a directory too, so a path may be empty; an entry's is not.
-/

namespace Koh.Names

variable {D N E : Type}

section

variable (sub : E → Option D) (f : D → N → Option E)

def reach (d : D) : List N → Option D
  | [] => some d
  | n :: p => ((f d n).bind sub).bind fun id => reach id p

/-- Something is at `p`, from `top`. -/
def Stands (top : D) (p : List N) : Prop :=
  ∃ q n d, p = q ++ [n] ∧ reach sub f top q = some d ∧ (f d n).isSome

/-- Every directory is one entry at most, and the top is not below itself. -/
structure Once (top : D) : Prop where
  one : ∀ {d d' n n' e e' id}, f d n = some e → f d' n' = some e' → sub e = some id →
    sub e' = some id → d = d' ∧ n = n'
  top : ∀ {p}, reach sub f top p = some top → p = []

/-- Entry `n` of `d`, and the entries below it. -/
inductive Under : D → N → D → N → Prop where
  | here (d : D) (n : N) : Under d n d n
  | inside {d id d' : D} {n n' m : N} {e : E} : f d n = some e → sub e = some id →
      Under id n' d' m → Under d n d' m

/-- Entry `n` of `d` is one that `p` goes through, or leads to, from `top`. -/
def On (top : D) (p : List N) (d : D) (n : N) : Prop :=
  ∃ q rest, p = q ++ n :: rest ∧ reach sub f top q = some d

end

-- ════════════════════════════════════════════════════════════════════════
-- Paths
-- ════════════════════════════════════════════════════════════════════════

variable {sub : E → Option D} {f : D → N → Option E} {top d : D} {p q : List N} {n : N}

@[simp] theorem reach_nil : reach sub f d [] = some d := rfl

theorem reach_cons : reach sub f d (n :: p) = ((f d n).bind sub).bind fun id => reach sub f id p :=
  rfl

/-- A path is walked in two parts. -/
theorem reach_append : reach sub f d (p ++ q) = (reach sub f d p).bind fun id => reach sub f id q := by
  induction p generalizing d with
  | nil => rfl
  | cons m p ih =>
    simp only [List.cons_append, reach_cons, ih]
    cases (f d m).bind sub <;> rfl

/-- A path's last name is walked last. -/
theorem reach_snoc : reach sub f d (p ++ [n]) = (reach sub f d p).bind fun id => (f id n).bind sub := by
  rw [reach_append]
  refine congrArg _ (funext fun id => ?_)
  rw [reach_cons]
  cases (f id n).bind sub <;> rfl

/-- A path that leads to a directory: its last name is an entry of the one before. -/
theorem reach_snoc_some {id : D} : reach sub f d (p ++ [n]) = some id ↔
    ∃ d' e, reach sub f d p = some d' ∧ f d' n = some e ∧ sub e = some id := by
  rw [reach_snoc, Option.bind_eq_some_iff]
  constructor
  · rintro ⟨d', hd', hid⟩
    obtain ⟨e, he, hsub⟩ := Option.bind_eq_some_iff.mp hid
    exact ⟨d', e, hd', he, hsub⟩
  · rintro ⟨d', e, hd', he, hsub⟩
    exact ⟨d', hd', by rw [he]; exact hsub⟩

/-- Where a path leads, its first part does. -/
theorem reach_of_append {id : D} (h : reach sub f d (p ++ q) = some id) :
    ∃ d', reach sub f d p = some d' ∧ reach sub f d' q = some id := by
  rw [reach_append] at h
  exact Option.bind_eq_some_iff.mp h

/-- Where directories are among those of `f`, so are paths. -/
theorem reach_mono {f' : D → N → Option E} {id : D}
    (hf : ∀ {d n e id}, f' d n = some e → sub e = some id → f d n = some e)
    (h : reach sub f' d p = some id) : reach sub f d p = some id := by
  induction p using List.reverseRecOn generalizing id with
  | nil => exact h
  | append_singleton p n ih =>
    obtain ⟨d', e, hd', he, hsub⟩ := reach_snoc_some.mp h
    exact reach_snoc_some.mpr ⟨d', e, ih hd', hf he hsub, hsub⟩

/-- One directory more, with nothing in it: what is reached is that, or was reached before. -/
theorem reach_grown {f' : D → N → Option E} {id d' : D} (hnone : ∀ n, f' id n = none)
    (hf : ∀ {d n e d'}, f' d n = some e → sub e = some d' → d' = id ∨ f d n = some e)
    (h : reach sub f' d p = some d') : d' = id ∨ reach sub f d p = some d' := by
  induction p using List.reverseRecOn generalizing d' with
  | nil => exact .inr h
  | append_singleton p n ih =>
    obtain ⟨up, e, hup, he, hsub⟩ := reach_snoc_some.mp h
    rcases ih hup with rfl | hold
    · cases (hnone n).symm.trans he
    · rcases hf he hsub with hnew | hentry
      · exact .inl hnew
      · exact .inr (reach_snoc_some.mpr ⟨up, e, hold, hentry, hsub⟩)

/-- What stands has its parent reached. -/
theorem stands_snoc : Stands sub f top (q ++ [n]) ↔
    ∃ d, reach sub f top q = some d ∧ (f d n).isSome := by
  constructor
  · rintro ⟨q', n', d, hp, hd, hn⟩
    obtain ⟨rfl, h⟩ := List.append_inj' hp rfl
    cases h
    exact ⟨d, hd, hn⟩
  · rintro ⟨d, hd, hn⟩
    exact ⟨q, n, d, rfl, hd, hn⟩

/-- What is above something is a directory. -/
theorem Stands.above {rest : List N} (h : Stands sub f top (p ++ rest)) (hrest : rest ≠ []) :
    ∃ id, reach sub f top p = some id := by
  obtain ⟨rest, n, rfl⟩ := List.eq_nil_or_concat rest |>.resolve_left hrest
  rw [List.concat_eq_append, ← List.append_assoc] at h
  obtain ⟨d, hd, -⟩ := stands_snoc.mp h
  obtain ⟨id, hid, -⟩ := reach_of_append hd
  exact ⟨id, hid⟩

-- ════════════════════════════════════════════════════════════════════════
-- One path for each directory
-- ════════════════════════════════════════════════════════════════════════

/-- Each directory is reached by one path. -/
theorem Once.reach_eq (h : Once sub f top) {id : D} (hp : reach sub f top p = some id)
    (hq : reach sub f top q = some id) : p = q := by
  induction p using List.reverseRecOn generalizing q id with
  | nil =>
    cases hp
    rcases List.eq_nil_or_concat q with rfl | ⟨q, n, rfl⟩
    · rfl
    · exact (h.top hq).symm
  | append_singleton p n ih =>
    obtain ⟨d, e, hd, he, hsub⟩ := reach_snoc_some.mp hp
    rcases List.eq_nil_or_concat q with rfl | ⟨q, m, rfl⟩
    · cases hq
      exact h.top hp
    · rw [List.concat_eq_append] at hq ⊢
      obtain ⟨d', e', hd', he', hsub'⟩ := reach_snoc_some.mp hq
      obtain ⟨rfl, rfl⟩ := h.one he he' hsub hsub'
      rw [ih hd hd']

/-- With names taken away, each is still reached once. -/
theorem Once.mono {f' : D → N → Option E} (h : Once sub f top)
    (hf : ∀ {d n e id}, f' d n = some e → sub e = some id → f d n = some e) : Once sub f' top :=
  ⟨fun he he' hs hs' => h.one (hf he hs) (hf he' hs') hs hs', fun hp => h.top (reach_mono hf hp)⟩

/-- The path of what is below an entry goes through it. -/
theorem Under.path {d' : D} {m : N} (h : Under sub f d n d' m) (hp : reach sub f top p = some d) :
    ∃ q, reach sub f top q = some d' ∧ p ++ [n] <+: q ++ [m] := by
  induction h generalizing p with
  | here d n => exact ⟨p, hp, List.prefix_refl _⟩
  | inside he hsub _ ih =>
    obtain ⟨q, hq, hpre⟩ := ih (reach_snoc_some.mpr ⟨_, _, hp, he, hsub⟩)
    exact ⟨q, hq, (List.prefix_append _ _).trans hpre⟩

/-- What is under with names taken away was under before. -/
theorem Under.mono {f' : D → N → Option E} (hf : ∀ d n, f' d n = f d n ∨ f' d n = none) {d' : D}
    {m : N} (h : Under sub f' d n d' m) : Under sub f d n d' m := by
  induction h with
  | here d n => exact .here d n
  | @inside d id d' n n' m e he hsub _ ih =>
    rcases hf d n with hsame | hnone
    · exact .inside (hsame ▸ he) hsub ih
    · rw [hnone] at he
      cases he

-- ════════════════════════════════════════════════════════════════════════
-- Changes
-- ════════════════════════════════════════════════════════════════════════

/-- Some entries at or below entry `n` of `d` are gone, and nothing else changed. -/
def Removed (sub : E → Option D) (d : D) (n : N) (f f' : D → N → Option E) : Prop :=
  ∀ d' m, f' d' m = f d' m ∨ Under sub f d n d' m ∧ f' d' m = none

theorem Removed.refl : Removed sub d n f f := fun _ _ => .inl rfl

theorem Removed.shrunk {f' : D → N → Option E} (h : Removed sub d n f f') (d' : D) (m : N) :
    f' d' m = f d' m ∨ f' d' m = none :=
  (h d' m).imp id And.right

/-- One removal after another, of the same. -/
theorem Removed.trans {f' f'' : D → N → Option E} (h : Removed sub d n f f')
    (h' : Removed sub d n f' f'') : Removed sub d n f f'' := by
  intro d' m
  rcases h' d' m with hsame | ⟨hunder, hnone⟩
  · rw [hsame]
    exact h d' m
  · exact .inr ⟨hunder.mono h.shrunk, hnone⟩

/-- What went at or below an entry of a directory went at or below the directory. -/
theorem Removed.inside {f' : D → N → Option E} {e : E} {id : D} {m : N} (he : f d n = some e)
    (hsub : sub e = some id) (h : Removed sub id m f f') : Removed sub d n f f' :=
  fun d' m' => (h d' m').imp_right fun hm => ⟨.inside he hsub hm.1, hm.2⟩

/-- Outside of `L`, what was there is as it was, or no directory and replaced;
what was not may be there now. -/
def Spared (sub : E → Option D) (L : D → N → Prop) (f f' : D → N → Option E) : Prop :=
  ∀ d n, ¬ L d n → f' d n = f d n ∨ (f' d n).isSome ∧ ∀ e, f d n = some e → sub e = none

variable {L L' : D → N → Prop} {f' f'' : D → N → Option E}

theorem Spared.refl : Spared sub L f f := fun _ _ _ => .inl rfl

theorem Spared.of_eq (h : f' = f) : Spared sub L f f' := h ▸ .refl

/-- What spares less spares still. -/
theorem Spared.mono (h : Spared sub L f f') (hL : ∀ d n, L d n → L' d n) : Spared sub L' f f' :=
  fun d n hn => h d n fun hl => hn (hL d n hl)

/-- One change after another. -/
theorem Spared.trans (h : Spared sub L f f') (h' : Spared sub L f' f'') : Spared sub L f f'' := by
  intro d n hn
  rcases h' d n hn with hsame | ⟨hsome, hno⟩
  · rw [hsame]
    exact h d n hn
  · refine .inr ⟨hsome, fun e he => ?_⟩
    rcases h d n hn with hsame | ⟨-, hno'⟩
    · exact hno e (hsame ▸ he)
    · exact hno' e he

/-- A removal spares what is not under it. -/
theorem Removed.spared (h : Removed sub d n f f') : Spared sub (Under sub f d n) f f' :=
  fun d' m hm => .inl ((h d' m).resolve_right fun hn => hm hn.1)

/-- A path stays one to the directory it leads to, if all it goes through is spared. -/
theorem Spared.reach (h : Spared sub L f f') {id : D} (hp : reach sub f top p = some id)
    (hon : ∀ d n, On sub f top p d n → ¬ L d n) : reach sub f' top p = some id := by
  induction p using List.reverseRecOn generalizing id with
  | nil => exact hp
  | append_singleton p n ih =>
    obtain ⟨d, e, hd, he, hsub⟩ := reach_snoc_some.mp hp
    have hd' := ih hd fun d' m ⟨q, rest, hq, hr⟩ =>
      hon d' m ⟨q, rest ++ [n], by rw [hq]; simp, hr⟩
    refine reach_snoc_some.mpr ⟨d, e, hd', ?_, hsub⟩
    rcases h d n (hon d n ⟨p, [], rfl, hd⟩) with hsame | ⟨-, hno⟩
    · rw [hsame, he]
    · rw [hno e he] at hsub
      cases hsub

/-- What stands at a path stays standing, if all the path goes through is spared. -/
theorem Spared.stands (h : Spared sub L f f') (hp : Stands sub f top p)
    (hon : ∀ d n, On sub f top p d n → ¬ L d n) : Stands sub f' top p := by
  obtain ⟨q, n, d, rfl, hd, hn⟩ := hp
  have hd' := h.reach hd fun d' m ⟨q', rest, hq, hr⟩ =>
    hon d' m ⟨q', rest ++ [n], by rw [hq]; simp, hr⟩
  refine stands_snoc.mpr ⟨d, hd', ?_⟩
  rcases h d n (hon d n ⟨q, [], rfl, hd⟩) with hsame | ⟨hsome, -⟩
  · rw [hsame]
    exact hn
  · exact hsome

/-- The path that leads to an entry is its directory's, and the entry's name. -/
theorem On.prefix_path {d : D} (h : On sub f top p d n) :
    ∃ q, reach sub f top q = some d ∧ q ++ [n] <+: p := by
  obtain ⟨q, rest, rfl, hq⟩ := h
  exact ⟨q, hq, ⟨rest, by simp⟩⟩

section

variable [DecidableEq D] [DecidableEq N]

def setAt (f : D → N → Option E) (d : D) (n : N) (v : Option E) : D → N → Option E :=
  fun d' m => if d' = d ∧ m = n then v else f d' m

@[simp] theorem setAt_self (v : Option E) : setAt f d n v d n = v := by
  simp [setAt]

/-- Other places are as they were. -/
theorem setAt_ne {d' : D} {m : N} (v : Option E) (h : ¬ (d' = d ∧ m = n)) :
    setAt f d n v d' m = f d' m := by
  simp [setAt, h]

@[simp] theorem setAt_setAt (v v' : Option E) : setAt (setAt f d n v) d n v' = setAt f d n v' := by
  funext d' m
  simp only [setAt]
  split <;> rfl

/-- An entry that is no directory, or none, made or changed. -/
theorem spared_setAt {e : E} (hno : ∀ e, f d n = some e → sub e = none) :
    Spared sub L f (setAt f d n (some e)) := by
  intro d' m _
  by_cases h : d' = d ∧ m = n
  · obtain ⟨rfl, rfl⟩ := h
    exact .inr ⟨by simp, hno⟩
  · exact .inl (setAt_ne _ h)

/-- An entry gone. -/
theorem spared_setAt_none (hL : L d n) : Spared sub L f (setAt f d n none) := by
  intro d' m hm
  refine .inl (setAt_ne _ ?_)
  rintro ⟨rfl, rfl⟩
  exact hm hL

end

end Koh.Names
