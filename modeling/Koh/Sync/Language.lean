import Koh.Lib.Wild
import Koh.Sync.Glob

/-!
# What a pattern matches

The texts of an `--exclude` pattern, glyph by glyph, and that `matches`, which goes back to
the last `*` only, finds them all and stops on every pattern and text.

## Main definitions

- `classOf`: a class as it is written, after its `[`
- `glyphs`: a pattern's glyphs; its texts are `Lang`'s
- `Scan`, `turn`, `turns`: the loop of `matches`, a turn at a time

## Main results

- `classAt_of_some`, `classAt_of_none`: the loop reads a class as it is written
- `turn_spec`: a turn finds what there is, or leaves less to do and as much to find
- `glob_matches_iff`: the loop stops, and matches exactly the pattern's texts
-/

namespace Koh.Sync

open Koh.Lib

/-! ### The language of a pattern -/

/-- The members of a class and what follows it: a `]` first is one of them. -/
def membersOf : Bytes → Option (Bytes × Bytes)
  | [] => none
  | first :: more => match more.dropWhile (· != 0x5d) with
    | [] => none
    | _ :: after => some (first :: more.takeWhile (· != 0x5d), after)

/-- The class that begins, after its `[`: whether it is negated, its members, and what follows its
`]`. -/
def classOf (body : Bytes) : Option (Bool × Bytes × Bytes) :=
  if body.head? = some 0x21 ∨ body.head? = some 0x5e then
    (membersOf (body.drop 1)).map fun r => (true, r)
  else (membersOf body).map fun r => (false, r)

/-- A set's members are some of the pattern. -/
theorem membersOf_length {body set after : Bytes} (h : membersOf body = some (set, after)) :
    after.length < body.length := by
  cases body with
  | nil => cases h
  | cons first more =>
    simp only [membersOf] at h
    split at h
    · cases h
    · next b rest hrest =>
      cases h
      have hsuffix : (b :: after) <:+ more := hrest ▸ List.dropWhile_suffix _
      exact Nat.lt_succ_of_lt hsuffix.length_le

/-- So is a class. -/
theorem classOf_length {body : Bytes} {r : Bool × Bytes × Bytes} (h : classOf body = some r) :
    r.2.2.length < body.length := by
  unfold classOf at h
  split at h
  · obtain ⟨m, hm, rfl⟩ := Option.map_eq_some_iff.mp h
    exact (membersOf_length hm).trans_le (List.drop_sublist 1 body).length_le
  · obtain ⟨m, hm, rfl⟩ := Option.map_eq_some_iff.mp h
    exact membersOf_length hm

def glyphs : Bytes → List (Glyph UInt8)
  | [] => []
  | b :: rest =>
    if b = 0x2a then .run :: glyphs rest
    else if b = 0x3f then .one (· != 0x2f) :: glyphs rest
    else if b = 0x5b then
      match _h : classOf rest with
      | some (negated, set, after) =>
        .one (fun c => inSet c set != negated && c != 0x2f) :: glyphs after
      -- A `[` with no `]` is itself.
      | none => .one (· == 0x5b) :: glyphs rest
    else .one (· == b) :: glyphs rest
termination_by pattern => pattern.length
decreasing_by
  all_goals simp only [List.length_cons]
  all_goals first
    | omega
    | exact Nat.lt_succ_of_lt (classOf_length _h)

/-- What separates names. -/
def slash (c : UInt8) : Bool := c == 0x2f

/-- Nothing but a literal `/` takes one, and that takes nothing else. -/
theorem glyphs_sharp (pattern : Bytes) : ∀ g ∈ glyphs pattern, g.Sharp slash := by
  have hone : ∀ (takes : UInt8 → Bool) (gs : List (Glyph UInt8)),
      (Glyph.one takes).Sharp slash → (∀ g ∈ gs, g.Sharp slash) →
        ∀ g ∈ .one takes :: gs, g.Sharp slash := by
    intro takes gs hg hgs
    exact List.forall_mem_cons.mpr ⟨hg, hgs⟩
  have hliteral : ∀ b : UInt8, (Glyph.one (· == b)).Sharp slash := by
    intro b
    cases hb : slash b with
    | true => exact .inl fun c hc => by rwa [beq_iff_eq.mp hc]
    | false => exact .inr fun c hc => by rwa [beq_iff_eq.mp hc]
  fun_induction glyphs pattern with
  | case1 => simp
  | case2 rest ih => exact List.forall_mem_cons.mpr ⟨trivial, ih⟩
  | case3 rest _ ih => exact hone _ _ (.inr fun c hc => by simpa [slash] using hc) ih
  | case4 rest _ _ negated set after _ ih =>
    exact hone _ _ (.inr fun c hc => by simpa [slash] using (Bool.and_eq_true_iff.mp hc).2) ih
  | case5 rest _ _ _ ih => exact hone _ _ (hliteral _) ih
  | case6 b rest _ _ _ ih => exact hone _ _ (hliteral b) ih

/-! ### The loop reads glyphs -/

/-- A class's end, as the loop finds it. -/
theorem findIdx?_close (l : Bytes) :
    (l.findIdx? (· == 0x5d) = none ∧ l.dropWhile (· != 0x5d) = []) ∨
      ∃ n b, l.findIdx? (· == 0x5d) = some n ∧ n < l.length ∧
        l.takeWhile (· != 0x5d) = l.take n ∧
        l.dropWhile (· != 0x5d) = b :: l.drop (n + 1) := by
  induction l with
  | nil => exact .inl ⟨rfl, rfl⟩
  | cons b l ih =>
    by_cases hb : b = 0x5d
    · exact .inr ⟨0, b, by simp [List.findIdx?_cons, hb], by simp, by simp [hb], by simp [hb]⟩
    · rcases ih with ⟨hnone, hdrop⟩ | ⟨n, c, hsome, hlt, htake, hdrop⟩
      · exact .inl ⟨by simp [List.findIdx?_cons, hb, hnone], by simp [hb, hdrop]⟩
      · refine .inr ⟨n + 1, c, by simp [List.findIdx?_cons, hb, hsome], by simpa using hlt, ?_, ?_⟩
        · simp [hb, htake]
        · simp [hb, hdrop]

/-- A class that is closed is read as it is written. -/
theorem classAt_of_some {pattern set after : Bytes} {i : ℕ} {negated : Bool}
    (h : classOf (pattern.drop (i + 1)) = some (negated, set, after)) :
    ∃ next, pattern.drop next = after ∧ i < next ∧ next ≤ pattern.length ∧
      ∀ c, classAt pattern i c = (inSet c set != negated && c != 0x2f, next) := by
  -- What the members are read from, and how far it is on in the pattern.
  obtain ⟨skip, hskip, hmembers, hat⟩ : ∃ skip,
      skip = (if negated then 1 else 0) ∧
      membersOf (pattern.drop (i + 1 + skip)) = some (set, after) ∧
      ∀ n, ((pattern.drop (i + 1 + skip)).drop 1).findIdx? (· == 0x5d) = some n →
        ∀ c, classAt pattern i c =
          (inSet c ((pattern.drop (i + 1 + skip)).take (n + 1)) != negated && c != 0x2f,
            i + 1 + skip + (n + 1) + 1) := by
    unfold classOf at h
    split at h
    · next hneg =>
      obtain ⟨m, hm, heq⟩ := Option.map_eq_some_iff.mp h
      cases heq
      rw [List.drop_drop] at hm
      refine ⟨1, rfl, hm, fun n hfind c => ?_⟩
      rw [List.drop_drop] at hfind
      simp only [classAt, hneg, if_true, List.drop_drop, decide_true, hfind]
    · next hneg =>
      obtain ⟨m, hm, heq⟩ := Option.map_eq_some_iff.mp h
      cases heq
      refine ⟨0, rfl, hm, fun n hfind c => ?_⟩
      rw [Nat.add_zero] at hfind ⊢
      simp only [classAt, hneg, if_false, decide_false, hfind, Nat.add_zero]
  cases hbody : pattern.drop (i + 1 + skip) with
  | nil => simp [hbody, membersOf] at hmembers
  | cons first more =>
    rw [hbody] at hmembers hat
    simp only [membersOf] at hmembers
    rcases findIdx?_close more with ⟨-, hdrop⟩ | ⟨n, b, hfind, hlt, htake, hdrop⟩
    · simp [hdrop] at hmembers
    · rw [hdrop, htake] at hmembers
      obtain ⟨rfl, rfl⟩ := Prod.mk.inj (Option.some.inj hmembers)
      have hlen : pattern.length - (i + 1 + skip) = more.length + 1 := by
        simpa using congrArg List.length hbody
      refine ⟨i + 1 + skip + (n + 1) + 1, ?_, by omega, by omega, fun c => ?_⟩
      · have hall : pattern.drop (i + 1 + skip + (n + 2)) = (first :: more).drop (n + 2) := by
          rw [← hbody, List.drop_drop]
        simpa [Nat.add_assoc] using hall
      · rw [hat n hfind c, List.take_succ_cons]

/-- A class that is not is its `[`. -/
theorem classAt_of_none {pattern : Bytes} {i : ℕ} (h : classOf (pattern.drop (i + 1)) = none)
    (c : UInt8) : classAt pattern i c = (c == 0x5b, i + 1) := by
  have hclosed : ∀ body : Bytes, membersOf body = none →
      (body.drop 1).findIdx? (· == 0x5d) = none := by
    intro body hbody
    cases body with
    | nil => rfl
    | cons first more =>
      simp only [membersOf] at hbody
      rcases findIdx?_close more with ⟨hnone, -⟩ | ⟨n, b, -, -, -, hdrop⟩
      · exact hnone
      · simp [hdrop] at hbody
  unfold classOf at h
  split at h
  · next hneg =>
    have hnone := hclosed _ (Option.map_eq_none_iff.mp h)
    simp only [classAt, hneg, if_true, hnone]
  · next hneg =>
    have hnone := hclosed _ (Option.map_eq_none_iff.mp h)
    simp only [classAt, hneg, if_false, hnone]

/-- Whether the byte `pc` of a pattern, at `p`, takes `tc`, and where the pattern goes on: `pc` is
no `*`. -/
def oneAt (pattern : Bytes) (p : ℕ) (pc tc : UInt8) : Bool × ℕ :=
  if pc = 0x5b then classAt pattern p tc else ((pc == 0x3f && tc != 0x2f) || pc == tc, p + 1)

theorem drop_of_getElem? {l : Bytes} {i : ℕ} {b : UInt8} (h : l[i]? = some b) :
    l.drop i = b :: l.drop (i + 1) := by
  obtain ⟨hlt, rfl⟩ := List.getElem?_eq_some_iff.mp h
  exact List.drop_eq_getElem_cons hlt

/-- Each byte of a pattern but `*` begins a glyph of one symbol, which the loop reads. -/
theorem oneAt_spec {pattern : Bytes} {p : ℕ} {pc : UInt8} (hp : pattern[p]? = some pc)
    (hstar : pc ≠ 0x2a) :
    ∃ takes next, glyphs (pattern.drop p) = .one takes :: glyphs (pattern.drop next) ∧
      p < next ∧ next ≤ pattern.length ∧ ∀ tc, oneAt pattern p pc tc = (takes tc, next) := by
  have hlt : p < pattern.length := (List.getElem?_eq_some_iff.mp hp).1
  rw [drop_of_getElem? hp, glyphs, if_neg hstar]
  unfold oneAt
  by_cases hany : pc = 0x3f
  · rw [if_pos hany]
    refine ⟨(· != 0x2f), p + 1, rfl, by omega, hlt, fun tc => ?_⟩
    subst hany
    by_cases hself : tc = 0x3f
    · subst hself
      rfl
    · have hne : ((0x3f : UInt8) == tc) = false := by simpa using Ne.symm hself
      simp [hne]
  · rw [if_neg hany]
    by_cases hclass : pc = 0x5b
    · rw [if_pos hclass]
      subst hclass
      cases hbody : classOf (pattern.drop (p + 1)) with
      | none =>
        refine ⟨(· == 0x5b), p + 1, rfl, by omega, hlt, fun tc => ?_⟩
        simpa using classAt_of_none hbody tc
      | some r =>
        obtain ⟨negated, set, after⟩ := r
        obtain ⟨next, rfl, hgt, hle, hat⟩ := classAt_of_some hbody
        exact ⟨_, next, rfl, hgt, hle, fun tc => by simpa using hat tc⟩
    · rw [if_neg hclass]
      refine ⟨(· == pc), p + 1, rfl, by omega, hlt, fun tc => ?_⟩
      have hnot : (pc == (0x3f : UInt8)) = false := by simpa using hany
      simp [hclass, hnot, eq_comm]

/-! ### A turn of the loop -/

/-- Where the loop is in the pattern and in the text, and where the last `*` was and began to
match. -/
structure Scan where
  p : ℕ
  t : ℕ
  star : Option (ℕ × ℕ)
  deriving DecidableEq

/-- A mismatch: the last `*` takes one more byte, unless that would be a `/`. -/
def back (text : Bytes) : Option (ℕ × ℕ) → Scan ⊕ Bool
  | some (sp, st) =>
    if text[st]?.any (· != 0x2f) then .inl ⟨sp + 1, st + 1, some (sp, st + 1)⟩ else .inr false
  | none => .inr false

/-- A turn of the loop of `matches`: where it goes on, or what it returns. -/
def turn (pattern text : Bytes) (s : Scan) : Scan ⊕ Bool :=
  match pattern[s.p]?, text[s.t]? with
  | some 0x2a, _ => .inl ⟨s.p + 1, s.t, some (s.p, s.t)⟩
  | some pc, some tc =>
    let (one, next) := oneAt pattern s.p pc tc
    if one then .inl ⟨next, s.t + 1, s.star⟩ else back text s.star
  | none, none => .inr true
  | some _, none => back text s.star
  | none, some _ => back text s.star

/-- At most so many turns, `none` if they are too few. -/
def turns (pattern text : Bytes) : ℕ → Scan → Option Bool
  | 0, _ => none
  | n + 1, s => match turn pattern text s with
    | .inl s => turns pattern text n s
    | .inr b => some b

/-- What turns tell after a first one. -/
def andThen (pattern text : Bytes) (n : ℕ) : Scan ⊕ Bool → Bool
  | .inl s => (turns pattern text n s).getD false
  | .inr b => b

/-- One turn, and those after it. -/
theorem turns_succ_getD (pattern text : Bytes) (n : ℕ) (s : Scan) :
    (turns pattern text (n + 1) s).getD false =
      andThen pattern text n (turn pattern text s) := by
  unfold turns
  cases turn pattern text s <;> rfl

/-- A star is passed over, and may be taken up again. -/
theorem turn_star {pattern text : Bytes} {s : Scan} (hp : pattern[s.p]? = some 0x2a) :
    turn pattern text s = .inl ⟨s.p + 1, s.t, some (s.p, s.t)⟩ := by
  unfold turn
  rw [hp]
  rfl

/-- A glyph takes a byte, or the star does. -/
theorem turn_one {pattern text : Bytes} {s : Scan} {pc tc : UInt8} (hp : pattern[s.p]? = some pc)
    (hstar : pc ≠ 0x2a) (ht : text[s.t]? = some tc) :
    turn pattern text s = if (oneAt pattern s.p pc tc).1 then
      .inl ⟨(oneAt pattern s.p pc tc).2, s.t + 1, s.star⟩ else back text s.star := by
  unfold turn
  rw [hp, ht]
  split <;> simp_all

/-- With no text left the star is taken up. -/
theorem turn_short {pattern text : Bytes} {s : Scan} {pc : UInt8} (hp : pattern[s.p]? = some pc)
    (hstar : pc ≠ 0x2a) (ht : text[s.t]? = none) : turn pattern text s = back text s.star := by
  unfold turn
  rw [hp, ht]
  split <;> simp_all

/-- The pattern ends with the text, or the star is taken up. -/
theorem turn_end {pattern text : Bytes} {s : Scan} (hp : pattern[s.p]? = none) :
    turn pattern text s = if text[s.t]? = none then .inr true else back text s.star := by
  unfold turn
  rw [hp]
  cases text[s.t]? <;> rfl

/-- The loop, a turn at a time. -/
theorem matchesFrom_eq_turns (pattern text : Bytes) (n p t : ℕ) (star : Option (ℕ × ℕ)) :
    matchesFrom pattern text n p t star = (turns pattern text n ⟨p, t, star⟩).getD false := by
  induction n generalizing p t star with
  | zero => rfl
  | succ n ih =>
    have hback : (match star with
        | some (sp, st) =>
          if text[st]?.any (· != 0x2f) then
            matchesFrom pattern text n (sp + 1) (st + 1) (some (sp, st + 1))
          else false
        | none => false) = andThen pattern text n (back text star) := by
      unfold back
      split
      · split
        · exact ih _ _ _
        · rfl
      · rfl
    rw [turns_succ_getD]
    unfold matchesFrom
    dsimp only
    split
    · next hp =>
      rw [turn_star hp]
      exact ih _ _ _
    · next pc tc hnot hp ht =>
      rw [turn_one hp (fun heq => hnot (by rw [heq])) ht]
      show (if (oneAt pattern p pc tc).1 = true then _ else _) = _
      split
      · exact ih _ _ _
      · exact hback
    · next hp ht =>
      rw [turn_end hp, if_pos ht]
      rfl
    · next pc hnot hp ht =>
      rw [turn_short hp (fun heq => hnot (by rw [heq])) ht]
      exact hback
    · next tc hp ht =>
      rw [turn_end hp, if_neg (by simp [ht])]
      exact hback

namespace Scan

variable {pattern text : Bytes} {s : Scan}

/-- The last run, as the language has it. -/
def last (pattern text : Bytes) (s : Scan) : Option (List (Glyph UInt8) × Bytes) :=
  s.star.map fun r => (glyphs (pattern.drop (r.1 + 1)), text.drop r.2)

/-- What the loop has yet to find. -/
def Hits (pattern text : Bytes) (s : Scan) : Prop :=
  Hit slash (glyphs (pattern.drop s.p)) (text.drop s.t) (s.last pattern text)

/-- The loop is within the pattern and the text, past the last `*` by what took a byte each. -/
structure Sound (pattern text : Bytes) (s : Scan) : Prop where
  p_le : s.p ≤ pattern.length
  t_le : s.t ≤ text.length
  behind : ∀ r ∈ s.star, r.1 < s.p ∧ r.2 ≤ s.t
  since : Since (glyphs (pattern.drop s.p)) (text.drop s.t) (s.last pattern text)

/-- A bound on the turns that are left: a `*` is past the last, the last takes one more byte, or the
pattern goes on. -/
def left (pattern text : Bytes) (s : Scan) : ℕ :=
  ((pattern.length - s.star.elim 0 (·.1 + 1)) + (text.length - s.star.elim 0 Prod.snd)) *
    (pattern.length + 1) + (pattern.length - s.p)

/-- Where the loop begins. -/
def start : Scan := ⟨0, 0, none⟩

/-- Nothing is passed over yet. -/
theorem start_sound (pattern text : Bytes) : start.Sound pattern text :=
  ⟨Nat.zero_le _, Nat.zero_le _, fun _ h => (by cases h), fun _ h => (by cases h)⟩

/-- What may be taken up again takes no separator. -/
theorem last_sharp (pattern text : Bytes) (s : Scan) :
    ∀ r ∈ s.last pattern text, ∀ g ∈ r.1, g.Sharp slash := by
  intro r hr
  obtain ⟨q, -, rfl⟩ := Option.map_eq_some_iff.mp hr
  exact glyphs_sharp _

end Scan

/-- A turn comes to an end that tells what there is, or goes on with less to do and as much to
find. -/
def Turns (pattern text : Bytes) (s : Scan) : Scan ⊕ Bool → Prop
  | .inl s' => s'.Sound pattern text ∧ s'.left pattern text < s.left pattern text ∧
      (s.Hits pattern text ↔ s'.Hits pattern text)
  | .inr b => b = true ↔ s.Hits pattern text

section

variable {pattern text : Bytes} {s : Scan}

/-- At a `*`. -/
theorem turns_star (h : s.Sound pattern text) (hp : pattern[s.p]? = some 0x2a) :
    Turns pattern text s (.inl ⟨s.p + 1, s.t, some (s.p, s.t)⟩) := by
  have hlt : s.p < pattern.length := (List.getElem?_eq_some_iff.mp hp).1
  have hglyphs : glyphs (pattern.drop s.p) = .run :: glyphs (pattern.drop (s.p + 1)) := by
    rw [drop_of_getElem? hp, glyphs, if_pos rfl]
  refine ⟨⟨hlt, h.t_le, ?_, since_run _ _⟩, ?_, ?_⟩
  · rintro r hr
    cases hr
    exact ⟨Nat.lt_succ_self _, le_rfl⟩
  · have hmul : ∀ a b : ℕ, a + 1 ≤ b → a * (pattern.length + 1) + (pattern.length + 1) ≤
        b * (pattern.length + 1) := by
      intro a b hab
      rw [← Nat.succ_mul]
      exact Nat.mul_le_mul_right _ hab
    unfold Scan.left
    cases hstar : s.star with
    | none =>
      have hle := hmul (pattern.length - (s.p + 1) + (text.length - s.t))
        (pattern.length - 0 + (text.length - 0)) (by omega)
      simp only [Option.elim_none, Option.elim_some]
      omega
    | some r =>
      have hbehind := h.behind r hstar
      have hle := hmul (pattern.length - (s.p + 1) + (text.length - s.t))
        (pattern.length - (r.1 + 1) + (text.length - r.2)) (by omega)
      simp only [Option.elim_some]
      omega
  · unfold Scan.Hits
    rw [hglyphs]
    exact hit_run (s.last_sharp pattern text) (hglyphs ▸ h.since)

/-- At a glyph that takes the byte. -/
theorem turns_one (h : s.Sound pattern text) {takes : UInt8 → Bool} {next : ℕ} {tc : UInt8}
    (hglyphs : glyphs (pattern.drop s.p) = .one takes :: glyphs (pattern.drop next))
    (hgt : s.p < next) (hle : next ≤ pattern.length) (ht : text[s.t]? = some tc)
    (htakes : takes tc = true) : Turns pattern text s (.inl ⟨next, s.t + 1, s.star⟩) := by
  have hlt : s.t < text.length := (List.getElem?_eq_some_iff.mp ht).1
  have hsince := h.since
  rw [hglyphs, drop_of_getElem? ht] at hsince
  refine ⟨⟨hle, hlt, fun r hr => ?_, hsince.one htakes⟩, ?_, ?_⟩
  · have hbehind := h.behind r hr
    exact ⟨hbehind.1.trans hgt, hbehind.2.trans (Nat.le_succ _)⟩
  · unfold Scan.left
    dsimp only
    omega
  · unfold Scan.Hits
    rw [hglyphs, drop_of_getElem? ht]
    exact hit_one htakes

/-- At what does not match: the last `*` takes one more byte, unless that would be a `/`. -/
theorem turns_mismatch (h : s.Sound pattern text)
    (hnot : ¬ Lang slash (glyphs (pattern.drop s.p)) (text.drop s.t)) :
    Turns pattern text s (back text s.star) := by
  have hfalse : ¬ s.Hits pattern text → Turns pattern text s (.inr false) := fun hno =>
    ⟨fun hf => (by cases hf), fun hhits => absurd hhits hno⟩
  have hlast : s.last pattern text = s.star.map fun r =>
    (glyphs (pattern.drop (r.1 + 1)), text.drop r.2) := rfl
  cases hstar : s.star with
  | none =>
    refine hfalse (not_hit hnot fun r hr => ?_)
    rw [hlast, hstar] at hr
    cases hr
  | some r =>
    obtain ⟨sp, st⟩ := r
    simp only [back]
    rw [hstar, Option.map_some] at hlast
    have hbehind := h.behind _ hstar
    cases htext : text[st]? with
    | none =>
      refine hfalse (not_hit hnot fun r hr => ?_)
      rw [hlast] at hr
      cases hr
      exact List.drop_eq_nil_of_le (List.getElem?_eq_none_iff.mp htext)
    | some c =>
      have hhits : s.Hits pattern text ↔ slash c = false ∧
          Hit slash (glyphs (pattern.drop (sp + 1))) (text.drop (st + 1))
            (some (glyphs (pattern.drop (sp + 1)), text.drop (st + 1))) := by
        unfold Scan.Hits
        rw [hlast, drop_of_getElem? htext]
        exact hit_back hnot
      have hlt : st < text.length := (List.getElem?_eq_some_iff.mp htext).1
      by_cases hc : c = 0x2f
      · simp only [hc, Option.any_some, bne_self_eq_false, Bool.false_eq_true, if_false]
        refine hfalse fun hh => ?_
        have := (hhits.mp hh).1
        simp [slash, hc] at this
      · have hslash : slash c = false := by simpa [slash] using hc
        have hany : (c != 0x2f) = true := by simpa using hc
        simp only [Option.any_some, hany, if_true]
        refine ⟨⟨?_, hlt, ?_, since_run _ _⟩, ?_, ?_⟩
        · exact hbehind.1.trans_le h.p_le
        · rintro r hr
          cases hr
          exact ⟨Nat.lt_succ_self _, le_rfl⟩
        · have hmul : (pattern.length - (sp + 1) + (text.length - (st + 1))) *
              (pattern.length + 1) + (pattern.length + 1) ≤
              (pattern.length - (sp + 1) + (text.length - st)) * (pattern.length + 1) := by
            rw [← Nat.succ_mul]
            exact Nat.mul_le_mul_right _ (by omega)
          unfold Scan.left
          simp only [hstar, Option.elim_some]
          omega
        · rw [hhits]
          exact ⟨fun hh => hh.2, fun hh => ⟨hslash, hh⟩⟩

/-- Each turn. -/
theorem turn_spec (h : s.Sound pattern text) : Turns pattern text s (turn pattern text s) := by
  cases hp : pattern[s.p]? with
  | none =>
    have hend : pattern.drop s.p = [] := List.drop_eq_nil_of_le (List.getElem?_eq_none_iff.mp hp)
    rw [turn_end hp]
    cases ht : text[s.t]? with
    | none =>
      have hdone : text.drop s.t = [] := List.drop_eq_nil_of_le (List.getElem?_eq_none_iff.mp ht)
      refine ⟨fun _ => .inl ?_, fun _ => rfl⟩
      rw [hend, hdone, glyphs]
      rfl
    | some tc =>
      refine turns_mismatch h ?_
      rw [hend, glyphs, drop_of_getElem? ht]
      exact fun hh => by cases hh
  | some pc =>
    by_cases hstar : pc = 0x2a
    · subst hstar
      rw [turn_star hp]
      exact turns_star h hp
    · obtain ⟨takes, next, hglyphs, hgt, hle, hone⟩ := oneAt_spec hp hstar
      cases ht : text[s.t]? with
      | none =>
        rw [turn_short hp hstar ht]
        have hdone : text.drop s.t = [] :=
          List.drop_eq_nil_of_le (List.getElem?_eq_none_iff.mp ht)
        refine turns_mismatch h ?_
        rw [hglyphs, hdone]
        rintro ⟨c, v, heq, -⟩
        cases heq
      | some tc =>
        rw [turn_one hp hstar ht, hone]
        by_cases htakes : takes tc = true
        · rw [if_pos htakes]
          exact turns_one h hglyphs hgt hle ht htakes
        · rw [if_neg htakes]
          refine turns_mismatch h ?_
          rw [hglyphs, drop_of_getElem? ht, lang_one]
          exact fun hh => htakes hh.1

/-- The loop stops within so many turns, and tells what there is to find. -/
theorem turns_spec (h : s.Sound pattern text) {n : ℕ} (hn : s.left pattern text < n) :
    ∃ b, turns pattern text n s = some b ∧ (b = true ↔ s.Hits pattern text) := by
  induction n generalizing s with
  | zero => omega
  | succ n ih =>
    have hturn := turn_spec h
    unfold turns
    cases hnext : turn pattern text s with
    | inr b =>
      rw [hnext] at hturn
      exact ⟨b, rfl, hturn⟩
    | inl s' =>
      rw [hnext] at hturn
      obtain ⟨hsound, hless, hhits⟩ := hturn
      obtain ⟨b, hb, hiff⟩ := ih hsound (by omega)
      exact ⟨b, hb, hiff.trans hhits.symm⟩

end

/-- **Patterns match as they are documented to**: the loop of `matches` stops on every pattern and
text, and returns whether the text is one of the pattern's. -/
theorem glob_matches_iff (pattern text : Bytes) :
    (∃ n, turns pattern text n .start = some (globMatches pattern text)) ∧
      (globMatches pattern text = true ↔ Lang slash (glyphs pattern) text) := by
  have hbound : Scan.start.left pattern text <
      (pattern.length + 2) * (pattern.length + 2) * (text.length + 2) := by
    simp only [Scan.left, Scan.start, Option.elim_none, Nat.sub_zero]
    calc (pattern.length + text.length) * (pattern.length + 1) + pattern.length
        < (pattern.length + text.length + 1) * (pattern.length + 1) := by
          rw [Nat.succ_mul]
          omega
      _ ≤ (pattern.length + 2) * (text.length + 2) * (pattern.length + 2) := by
          refine Nat.mul_le_mul ?_ (by omega)
          rw [Nat.add_mul, Nat.mul_add]
          omega
      _ = (pattern.length + 2) * (pattern.length + 2) * (text.length + 2) :=
          Nat.mul_right_comm _ _ _
  obtain ⟨b, hturns, hiff⟩ := turns_spec (Scan.start_sound pattern text) hbound
  have hmatches : globMatches pattern text = b := by
    rw [globMatches, matchesFrom_eq_turns]
    exact congrArg (·.getD false) hturns
  refine ⟨⟨_, hmatches ▸ hturns⟩, hmatches ▸ hiff.trans ?_⟩
  simp [Scan.Hits, Scan.start, Scan.last, Hit]

/-- A pattern of two runs with a class between them. -/
example : globMatches [0x61, 0x2a, 0x5b, 0x21, 0x62, 0x5d, 0x2a, 0x63]
    [0x61, 0x62, 0x62, 0x78, 0x63] = true := by decide

end Koh.Sync
