import Koh.Server.Shown
import Koh.Stream.Questions

/-!
# The marks that a filter relays

Each mark that a filter emits is to be one that a terminal reads, and that the
wire therefore takes (`MarkText`). The filter looks at a payload with its nonce
fields, the wire at what is left without them, so they part where nothing is
left, and where what is left begins as a state report does. `marks_hold_iff` says
so of every output, however it is fed.

## Main definitions

- `stripped`, `Relayed`: a payload without its nonce fields, and when it is relayed
- `Carries`: an output has the mark of some payload in it
- `Misread`: a payload that the filter takes for a mark and the wire does not

## Main results

- `mark_eq_some_iff`: what a payload comes to
- `validMark_stripped_iff`: when what is left of it is a mark
- `marks_hold_iff`: each mark emitted is one, exactly when no payload is misread
-/

namespace Koh.Server

open Koh.Stream

/-! ### A payload -/

def stripped (data : Bytes) : Bytes :=
  List.intercalate [0x3b] ((fields data).filter (!noncePrefix.isPrefixOf ·))

def firstNonce (data : Bytes) : Option Bytes := (fields data).findSome? (stripPrefix noncePrefix)

def printable (b : UInt8) : Bool := 0x20 ≤ b && b < 0x7f

/-- Whether a payload is relayed: one that a terminal reads, not a state report, with the nonce
that is asked for. -/
structure Relayed (marks : Marks) (data : Bytes) : Prop where
  nonempty : data ≠ []
  short : data.length ≤ maxMark
  printable : data.all printable = true
  unreported : data.head? ≠ some 0x53
  allowed : marks = .all ∨ ∃ k, marks = .signed k ∧ firstNonce data = some k

/-- A payload comes to what is left without its nonce fields, if it is relayed. -/
theorem mark_eq_some_iff {marks : Marks} {data m : Bytes} :
    mark data marks = some m ↔ Relayed marks data ∧ m = stripped data := by
  have hprintable : data.all (fun b => 0x20 ≤ b && b < 0x7f) = data.all printable := rfl
  simp only [mark, hprintable]
  by_cases hdata : data = [] ∨ maxMark < data.length ∨ ¬ data.all printable
  · rw [if_pos hdata]
    refine ⟨fun h => (by cases h), fun h => ?_⟩
    rcases hdata with hnil | hlong | hprint
    · exact absurd hnil h.1.nonempty
    · exact absurd hlong (Nat.not_lt.mpr h.1.short)
    · exact absurd h.1.printable hprint
  · rw [if_neg hdata]
    simp only [not_or, Nat.not_lt, not_not] at hdata
    -- The same for each policy: the nonce decides, then the first byte.
    have hrest : (if data.head? = some 0x53 then none else some (stripped data)) = some m ↔
        data.head? ≠ some 0x53 ∧ m = stripped data := by
      by_cases hreport : data.head? = some 0x53
      · simp [hreport]
      · simp [hreport, eq_comm]
    have hrelayed (hallowed : marks = .all ∨ ∃ k, marks = .signed k ∧ firstNonce data = some k) :
        Relayed marks data ↔ data.head? ≠ some 0x53 :=
      ⟨fun h => h.unreported, fun h => ⟨hdata.1, hdata.2.1, hdata.2.2, h, hallowed⟩⟩
    cases marks with
    | drop =>
      simp only [if_true, reduceCtorEq, false_iff, not_and]
      intro h
      rcases h.allowed with hall | ⟨k, hk, -⟩ <;> contradiction
    | all =>
      rw [hrelayed (Or.inl rfl)]
      exact hrest
    | signed k =>
      by_cases hnonce : firstNonce data = some k
      · rw [hrelayed (Or.inr ⟨k, rfl, hnonce⟩)]
        rw [firstNonce] at hnonce
        simp only [hnonce, beq_self_eq_true, Bool.true_eq_false, if_false]
        exact hrest
      · have hnone : ¬ Relayed (.signed k) data := fun h => by
          rcases h.allowed with hall | ⟨k', hk, hfirst⟩
          · contradiction
          · exact hnonce (hfirst.trans (congrArg some (Marks.signed.inj hk).symm))
        simp only [hnone, false_and, iff_false]
        rw [firstNonce] at hnonce
        cases htheirs : (fields data).findSome? (stripPrefix noncePrefix) with
        | none => simp
        | some theirs =>
          have hne : (k == theirs) = false := by
            rw [htheirs, Option.some_inj] at hnonce
            exact beq_false_of_ne (Ne.symm hnonce)
          simp [hne]

/-- Leaving some of the fields out leaves some of the bytes out. -/
theorem intercalate_filter_sublist (s : UInt8) (keep : Bytes → Bool) (fields : List Bytes) :
    (List.intercalate [s] (fields.filter keep)).Sublist (List.intercalate [s] fields) := by
  induction fields with
  | nil => exact List.Sublist.refl _
  | cons field rest ih =>
    by_cases hrest : rest = []
    · subst hrest
      by_cases hkeep : keep field <;> simp [hkeep, List.intercalate_nil]
    · rw [List.intercalate_cons_of_ne_nil hrest]
      by_cases hkeep : keep field
      · rw [List.filter_cons_of_pos hkeep]
        by_cases hnone : rest.filter keep = []
        · rw [hnone, List.intercalate_singleton, List.append_assoc]
          exact List.sublist_append_left _ _
        · rw [List.intercalate_cons_of_ne_nil hnone]
          exact List.Sublist.append (List.Sublist.refl _) ih
      · rw [List.filter_cons_of_neg hkeep]
        exact ih.trans (List.sublist_append_right _ _)

/-- No field has what parts them. -/
theorem not_mem_of_mem_fields {data field : Bytes} (h : field ∈ fields data) : 0x3b ∉ field := by
  induction data generalizing field with
  | nil =>
    obtain rfl : field = [] := by simpa [fields] using h
    exact List.not_mem_nil
  | cons b data ih =>
    rw [fields, List.splitOn_cons_eq_if_modifyHead] at h
    split at h
    · rcases List.mem_cons.mp h with rfl | hrest
      · exact List.not_mem_nil
      · exact ih hrest
    · next hb =>
      rw [← fields] at h
      cases hfields : fields data with
      | nil => simp [hfields] at h
      | cons first rest =>
        rw [hfields, List.modifyHead_cons] at h
        rcases List.mem_cons.mp h with rfl | hrest
        · have hfirst : 0x3b ∉ first := ih (by simp [hfields])
          intro hmem
          rcases List.mem_cons.mp hmem with rfl | hmem
          · exact hb rfl
          · exact hfirst hmem
        · exact ih (by simp [hfields, hrest])

/-- The fields that are left are those that are no nonce. -/
theorem fields_stripped {data : Bytes} (hsome : stripped data ≠ []) :
    fields (stripped data) = (fields data).filter (!noncePrefix.isPrefixOf ·) := by
  refine List.splitOn_intercalate 0x3b (fun field hfield => ?_) fun hnone => ?_
  · exact not_mem_of_mem_fields (List.mem_filter.mp hfield).1
  · rw [stripped, hnone] at hsome
    exact hsome rfl

/-- What is left of a relayed payload is a mark, if anything is left and does not begin as a state
report does. -/
theorem validMark_stripped_iff {marks : Marks} {data : Bytes} (h : Relayed marks data) :
    validMark (stripped data) = true ↔ stripped data ≠ [] ∧ (stripped data).head? ≠ some 0x53 := by
  have hsub : (stripped data).Sublist data := by
    have := intercalate_filter_sublist 0x3b (!noncePrefix.isPrefixOf ·) (fields data)
    rwa [fields, List.intercalate_splitOn] at this
  have hshort : (stripped data).length ≤ maxMark := hsub.length_le.trans h.short
  have hprintable : (stripped data).all printable = true :=
    List.all_eq_true.mpr fun b hb => List.all_eq_true.mp h.printable b (hsub.subset hb)
  simp only [validMark, Bool.and_eq_true, decide_eq_true_eq, Bool.not_eq_true']
  constructor
  · rintro ⟨⟨⟨⟨hsome, -⟩, -⟩, -⟩, hreport⟩
    exact ⟨hsome, hreport⟩
  · rintro ⟨hsome, hreport⟩
    refine ⟨⟨⟨⟨hsome, hshort⟩, hprintable⟩, ?_⟩, hreport⟩
    rw [fields_stripped hsome, List.any_eq_false]
    intro field hfield
    have hkept := (List.mem_filter.mp hfield).2
    rw [Bool.not_eq_true'] at hkept
    rw [hkept]
    exact Bool.false_ne_true

/-! ### The output that carries it -/

/-- A control between an ESC and what it opens: it is done as it comes. -/
def isInside (b : UInt8) : Bool :=
  (b < 0x20 || 0x7f ≤ b) && b ≠ ESC && b ≠ CAN && b ≠ SUB

/-- An ESC and what it opens, with `body` of it so far, at the end of `x`. -/
def Opened (x body : Bytes) : Prop :=
  ∃ p gap, gap.all isInside = true ∧ x = p ++ ESC :: (gap ++ 0x5d :: body)

/-- The output `x` has an OSC 133 with the payload `data` in it. -/
def Carries (x data : Bytes) : Prop :=
  ∃ y final rest, x = y ++ final ++ rest ∧ (final = [BEL] ∨ final = [ESC, 0x5c]) ∧
    Opened y (ascii ['1', '3', '3', ';'] ++ data)

/-- What was carried is carried, whatever comes. -/
theorem Carries.append {x data : Bytes} (h : Carries x data) (more : Bytes) :
    Carries (x ++ more) data := by
  obtain ⟨y, final, rest, rfl, hfinal, hopened⟩ := h
  exact ⟨y, final, rest ++ more, by simp, hfinal, hopened⟩

/-- One byte more of a mark. -/
theorem Opened.snoc {x body : Bytes} (h : Opened x body) (b : UInt8) :
    Opened (x ++ [b]) (body ++ [b]) := by
  obtain ⟨p, gap, hgap, rfl⟩ := h
  exact ⟨p, gap, hgap, by simp⟩

/-! ### What an OSC says -/

/-- An OSC's end goes, whichever it is. -/
theorem strip_end (body : Bytes) {final : Bytes} (hfinal : final = [BEL] ∨ final = [ESC, 0x5c]) :
    ((stripSuffix [BEL] (body ++ final)).orElse fun _ =>
      stripSuffix [ESC, 0x5c] (body ++ final)).getD (body ++ final) = body := by
  rcases hfinal with rfl | rfl
  · simp [stripSuffix_append]
  · have hnone : stripSuffix [BEL] (body ++ [ESC, 0x5c]) = none := by
      rw [stripSuffix, if_neg]
      simp [List.isSuffixOf_iff_suffix, List.suffix_iff_eq_drop, BEL]
    simp [hnone, stripSuffix_append]

/-- The mark that an OSC 133 is. -/
theorem judge_133 {policy : Policy} {data m : Bytes} (hmark : mark data policy.marks = some m)
    {final : Bytes} (hfinal : final = [BEL] ∨ final = [ESC, 0x5c]) :
    judge (ESC :: 0x5d :: (ascii ['1', '3', '3', ';'] ++ data ++ final)) policy = .mark m := by
  have hnumber : (ascii ['1', '3', '3', ';'] ++ data).takeWhile (· != 0x3b) =
      ascii ['1', '3', '3'] := rfl
  have hdata : ((ascii ['1', '3', '3', ';'] ++ data).dropWhile (· != 0x3b)).drop 1 = data := rfl
  simp only [judge, List.getElem?_cons_succ, List.getElem?_cons_zero, if_true, osc,
    List.drop_succ_cons, List.drop_zero, strip_end _ hfinal, hnumber, hdata, hmark]

/-- Only an OSC 133 is a mark. -/
theorem judge_mark {policy : Policy} {body final m : Bytes}
    (hfinal : final = [BEL] ∨ final = [ESC, 0x5c])
    (h : judge (ESC :: 0x5d :: (body ++ final)) policy = .mark m) :
    ∃ data, body = ascii ['1', '3', '3', ';'] ++ data ∧ mark data policy.marks = some m := by
  simp only [judge, List.getElem?_cons_succ, List.getElem?_cons_zero, if_true, osc,
    List.drop_succ_cons, List.drop_zero, strip_end _ hfinal] at h
  split at h
  · next hnumber =>
    cases hmark : mark ((body.dropWhile (· != 0x3b)).drop 1) policy.marks with
    | none =>
      rw [hmark] at h
      cases h
    | some m' =>
      rw [hmark] at h
      simp only [Judged.mark.injEq] at h
      subst h
      refine ⟨_, ?_, hmark⟩
      have hsome := (mark_eq_some_iff.mp hmark).1.nonempty
      have hsplit := List.takeWhile_append_dropWhile (p := (· != 0x3b)) (l := body)
      cases hrest : body.dropWhile (· != 0x3b) with
      | nil => simp [hrest] at hsome
      | cons b rest =>
        have hb : b = 0x3b := by
          have := List.head_dropWhile_not (· != 0x3b) (l := body) (by simp [hrest])
          simpa [hrest] using this
        rw [hnumber, hrest, hb] at hsplit
        rw [← hsplit]
        rfl
  · split at h
    · split at h <;> cases h
    · split at h
      · cases h
      · split at h
        · cases h
        · split at h <;> cases h

/-- Nothing but an OSC is a mark. -/
theorem judge_not_osc {policy : Policy} {seq : Bytes} (hseq : seq[1]? ≠ some 0x5d) (m : Bytes) :
    judge seq policy ≠ .mark m := by
  simp only [judge, if_neg hseq]
  split <;> simp

/-! ### What the reader holds -/

/-- The reader is in a sequence that is no OSC. -/
def Other (r : Reader) : Prop :=
  r.isOver = true ∨ (2 ≤ r.seq.length ∧ r.seq[1]? ≠ some 0x5d)

/-- Where the reader is in a sequence, having read `x`: if that is an OSC within its bound, what it
holds of it is the end of `x`. -/
def Traces (x : Bytes) (r : Reader) : Prop :=
  r.isOver = true ∨ (2 ≤ r.seq.length ∧ r.seq[1]? ≠ some 0x5d) ∨
    ∃ body, r.seq = ESC :: 0x5d :: body ∧ Opened x body

/-- What the reader holds, having read `x`, is the end of `x`, if it may become a mark. -/
def Follows (x : Bytes) (r : Reader) : Prop :=
  match r.state with
  | .ground => True
  | .escape => r = .begin ∧ ∃ p gap, gap.all isInside = true ∧ x = p ++ ESC :: gap
  | .csi | .escapeIntermediate => Other r
  | .text _ => Traces x r
  | .textEscape => ∃ y, x = y ++ [ESC] ∧ Traces y r

/-- Each mark that is said is that of a payload that `x` carries. -/
def MarksOf (policy : Policy) (x : Bytes) (items : List Item) : Prop :=
  ∀ m, Item.mark m ∈ items → ∃ data, Carries x data ∧ mark data policy.marks = some m

theorem MarksOf.nil (policy : Policy) (x : Bytes) : MarksOf policy x [] :=
  fun _ h => absurd h List.not_mem_nil

theorem MarksOf.byte (policy : Policy) (x : Bytes) (b : UInt8) : MarksOf policy x [.byte b] :=
  fun m h => by simp at h

/-- What a whole sequence says, its end read: a mark only if it is an OSC 133. -/
theorem marksOf_said {policy : Policy} {x y final seq : Bytes} (hx : x = y ++ final)
    (hfinal : final = [BEL] ∨ final = [ESC, 0x5c])
    (h : seq[1]? ≠ some 0x5d ∨ ∃ body, seq = ESC :: 0x5d :: (body ++ final) ∧ Opened y body) :
    MarksOf policy x (Reader.said seq policy) := by
  intro m hm
  have hjudged : judge seq policy = .mark m := by
    rw [Reader.said] at hm
    cases hjudge : judge seq policy with
    | pass => simp [hjudge, mark_not_mem_bytes] at hm
    | drop => simp [hjudge] at hm
    | out bytes => simp [hjudge, mark_not_mem_bytes] at hm
    | mark m' => simpa [hjudge, eq_comm] using hm
  rcases h with hother | ⟨body, rfl, hopened⟩
  · exact absurd hjudged (judge_not_osc hother m)
  · obtain ⟨data, rfl, hmark⟩ := judge_mark hfinal hjudged
    exact ⟨data, ⟨y, final, [], by simpa using hx, hfinal, hopened⟩, hmark⟩

/-- What is no OSC makes no mark. -/
theorem marksOf_other {policy : Policy} {seq : Bytes} (hseq : seq[1]? ≠ some 0x5d) (x : Bytes) :
    MarksOf policy x (Reader.said seq policy) := by
  intro m hm
  rw [Reader.said] at hm
  cases hjudge : judge seq policy with
  | pass => simp [hjudge, mark_not_mem_bytes] at hm
  | drop => simp [hjudge] at hm
  | out bytes => simp [hjudge, mark_not_mem_bytes] at hm
  | mark m' => exact absurd hjudge (judge_not_osc hseq m')

/-- A byte more makes no OSC of it. -/
theorem Other.gather {r : Reader} (h : Other r) (b : UInt8) (max : ℕ) : Other (r.gather b max) := by
  rcases gather_cases r b max with hover | ⟨hseq, hnot, -⟩
  · exact Or.inl hover
  · rcases h with hover | ⟨hlen, hother⟩
    · exact absurd hover (by simp [hnot])
    · refine Or.inr ⟨by rw [hseq, List.length_append]; omega, ?_⟩
      rwa [hseq, List.getElem?_append_left (by omega)]

/-- No mark is said of it. -/
theorem Other.finish {policy : Policy} {x : Bytes} {r : Reader} (h : Other r) (b : UInt8)
    (max : ℕ) : MarksOf policy x ((r.gather b max).finish policy).2 := by
  rw [Reader.finish]
  rcases h.gather b max with hover | ⟨-, hother⟩
  · rw [if_pos hover]
    exact .nil _ _
  · by_cases hover : (r.gather b max).isOver = true
    · rw [if_pos hover]
      exact .nil _ _
    · rw [if_neg hover]
      exact marksOf_other hother x

/-- A byte gathered of a sequence. -/
theorem Traces.gather {x : Bytes} {r : Reader} (h : Traces x r) (b : UInt8) (max : ℕ) :
    Traces (x ++ [b]) (r.gather b max) := by
  rcases h with hover | hother | ⟨body, hbody, hopened⟩
  · exact Or.inl (gather_of_over hover b max)
  · exact (Other.gather (Or.inr hother) b max).imp_right Or.inl
  · rcases gather_cases r b max with hover | ⟨hseq, -, -⟩
    · exact Or.inl hover
    · exact Or.inr (Or.inr ⟨body ++ [b], by rw [hseq, hbody]; rfl, hopened.snoc b⟩)

/-- The end of a control string by a BEL. -/
theorem Traces.finish {policy : Policy} {x : Bytes} {r : Reader} (h : Traces x r) (max : ℕ) :
    MarksOf policy (x ++ [BEL]) ((r.gather BEL max).finish policy).2 := by
  rcases h with hover | hother | ⟨body, hbody, hopened⟩
  · exact Other.finish (Or.inl hover) BEL max
  · exact Other.finish (Or.inr hother) BEL max
  · rw [Reader.finish]
    rcases gather_cases r BEL max with hover | ⟨hseq, -, -⟩
    · rw [if_pos hover]
      exact .nil _ _
    · split
      · exact .nil _ _
      · refine marksOf_said rfl (Or.inl rfl) (Or.inr ⟨body, ?_, hopened⟩)
        rw [hseq, hbody]
        rfl

/-- The end of a control string by an ST, its ESC read before. -/
theorem Traces.finish_string {policy : Policy} {y : Bytes} {r : Reader} (h : Traces y r) :
    MarksOf policy (y ++ [ESC] ++ [0x5c])
      (((r.gather ESC maxString).gather 0x5c maxString).finish policy).2 := by
  rcases h with hover | hother | ⟨body, hbody, hopened⟩
  · exact Other.finish (Other.gather (Or.inl hover) ESC _) 0x5c _
  · exact Other.finish (Other.gather (Or.inr hother) ESC _) 0x5c _
  · rw [Reader.finish]
    rcases gather_cases (r.gather ESC maxString) 0x5c maxString with hover | ⟨hseq, hnot, -⟩
    · rw [if_pos hover]
      exact .nil _ _
    · split
      · exact .nil _ _
      · rcases gather_cases r ESC maxString with hover | ⟨hseq', -, -⟩
        · exact absurd hover (by simp [hnot])
        · refine marksOf_said (List.append_assoc _ _ _) (Or.inr rfl) (Or.inr ⟨body, ?_, hopened⟩)
          rw [hseq, hseq', hbody]
          simp

/-- A byte after an ESC. -/
theorem escapeStep_follows (policy : Policy) {x : Bytes} {b : UInt8}
    (hx : ∃ p gap, gap.all isInside = true ∧ x = p ++ ESC :: gap) :
    Follows (x ++ [b]) (Reader.begin.escapeStep policy b).1 ∧
      MarksOf policy (x ++ [b]) (Reader.begin.escapeStep policy b).2 := by
  obtain ⟨p, gap, hgap, rfl⟩ := hx
  cases hopens : opens b with
  | some state =>
    rw [escapeStep_opens policy _ hopens]
    refine ⟨?_, .nil _ _⟩
    rcases opens_eq_some_cases hopens with ⟨rfl, rfl⟩ | ⟨-, kind, hkind, rfl⟩ | ⟨-, -, hint, rfl⟩
    · exact Or.inr ⟨le_rfl, by decide⟩
    · by_cases hosc : b = 0x5d
      · subst hosc
        exact Or.inr (Or.inr ⟨[], rfl, p, gap, hgap, by simp⟩)
      · exact Or.inr (Or.inl ⟨le_rfl, by simpa [Reader.push, Reader.begin] using hosc⟩)
    · refine Or.inr ⟨le_rfl, ?_⟩
      simp only [Reader.push, Reader.begin, List.cons_append, List.nil_append,
        List.getElem?_cons_succ, List.getElem?_cons_zero, ne_eq, Option.some.injEq]
      rintro rfl
      exact absurd hint (by decide)
  | none =>
    by_cases hfinal : Filter.isEscapeFinal b = true
    · rw [escapeStep_final policy _ hopens hfinal]
      have hother : ([ESC, b] : Bytes)[1]? ≠ some 0x5d := ?_
      · exact ⟨trivial, marksOf_other hother _⟩
      simp only [List.getElem?_cons_succ, List.getElem?_cons_zero, ne_eq, Option.some.injEq]
      rintro rfl
      cases hopens
    · obtain ⟨hcontrol, hstep⟩ := escapeStep_inside policy .begin hopens (by simpa using hfinal)
      rw [hstep]
      split
      · next hesc =>
        exact ⟨⟨rfl, p ++ ESC :: gap, [], rfl, by simp [hesc]⟩, .byte _ _ _⟩
      · next hesc =>
        split
        · exact ⟨trivial, .nil _ _⟩
        · next hcancel =>
          rw [not_or] at hcancel
          refine ⟨⟨rfl, p, gap ++ [b], ?_, by simp⟩, .byte _ _ _⟩
          simp only [List.all_append, hgap, List.all_cons, List.all_nil, isInside, Bool.true_and,
            Bool.and_true, Bool.and_eq_true, Bool.or_eq_true, decide_eq_true_eq]
          exact ⟨⟨⟨hcontrol, hesc⟩, hcancel.1⟩, hcancel.2⟩

/-- A byte's marks are of what was read. -/
theorem step_follows (policy : Policy) {x : Bytes} {r : Reader} (h : Follows x r) (b : UInt8) :
    Follows (x ++ [b]) (Reader.step policy r b).1 ∧
      MarksOf policy (x ++ [b]) (Reader.step policy r b).2 := by
  have hbegin : Follows (x ++ [ESC]) .begin := ⟨rfl, x, [], rfl, rfl⟩
  cases hstate : r.state with
  | ground =>
    simp only [Reader.step, hstate]
    split
    · next hesc => exact ⟨hesc ▸ hbegin, .nil _ _⟩
    · split
      · exact ⟨by simp only [Follows, hstate], .nil _ _⟩
      · exact ⟨by simp only [Follows, hstate], .byte _ _ _⟩
  | escape =>
    simp only [Follows, hstate] at h
    obtain ⟨rfl, hx⟩ := h
    exact escapeStep_follows policy hx
  | escapeIntermediate =>
    simp only [Follows, hstate] at h
    simp only [Reader.step, hstate]
    split
    · refine ⟨?_, .nil _ _⟩
      simpa only [Follows, gather_state, hstate] using h.gather b maxCsi
    · split
      · exact ⟨trivial, h.finish b maxCsi⟩
      · split
        · next hesc => exact ⟨hesc ▸ hbegin, .nil _ _⟩
        · split
          · exact ⟨trivial, .nil _ _⟩
          · exact ⟨by simpa only [Follows, hstate] using h, .byte _ _ _⟩
  | csi =>
    simp only [Follows, hstate] at h
    simp only [Reader.step, hstate]
    split
    · refine ⟨?_, .nil _ _⟩
      simpa only [Follows, gather_state, hstate] using h.gather b maxCsi
    · split
      · exact ⟨trivial, h.finish b maxCsi⟩
      · split
        · next hesc => exact ⟨hesc ▸ hbegin, .nil _ _⟩
        · split
          · exact ⟨trivial, .nil _ _⟩
          · split
            · exact ⟨by simpa only [Follows, hstate] using h, .byte _ _ _⟩
            · split
              · exact ⟨by simpa only [Follows, hstate] using h, .nil _ _⟩
              · exact ⟨trivial, .nil _ _⟩
  | text kind =>
    simp only [Follows, hstate] at h
    simp only [Reader.step, hstate]
    split
    · next hesc => exact ⟨⟨x, by rw [hesc], h⟩, .nil _ _⟩
    · split
      · next hend =>
        exact ⟨trivial, hend.1 ▸ h.finish maxString⟩
      · split
        · exact ⟨trivial, .nil _ _⟩
        · refine ⟨?_, .nil _ _⟩
          have hnext := h.gather b maxString
          simpa only [Follows, gather_state, hstate] using hnext
  | textEscape =>
    simp only [Follows, hstate] at h
    obtain ⟨y, rfl, htraces⟩ := h
    simp only [Reader.step, hstate]
    split
    · next hst =>
      subst hst
      exact ⟨trivial, htraces.finish_string⟩
    · exact escapeStep_follows policy ⟨y, [], rfl, rfl⟩

/-- Each mark said of an output is that of a payload the output carries. -/
theorem marksOf_run (policy : Policy) (x : Bytes) :
    Follows x ((reader policy).run .start x).1 ∧ MarksOf policy x (said policy x) := by
  induction x using List.reverseRecOn with
  | nil => exact ⟨trivial, .nil _ _⟩
  | append_singleton x b ih =>
    obtain ⟨hfollows, hmarks⟩ := ih
    obtain ⟨hnext, hstep⟩ := step_follows policy hfollows b
    rw [said, Transducer.run_append, Transducer.run_singleton]
    refine ⟨hnext, fun m hm => ?_⟩
    rcases List.mem_append.mp hm with hbefore | hnow
    · obtain ⟨data, hdata, hmark⟩ := hmarks m hbefore
      exact ⟨data, hdata.append [b], hmark⟩
    · exact hstep m hnow

/-! ### A payload that is carried is read -/

/-- A control opens no sequence and ends none. -/
theorem isInside_closed {b : UInt8} (hb : isInside b = true) :
    opens b = none ∧ Filter.isEscapeFinal b = false := by
  simp only [isInside, Bool.and_eq_true, Bool.or_eq_true, decide_eq_true_eq] at hb
  have hcontrol := hb.1.1.1
  have hbracket : b ≠ 0x5b := by grind
  have hkind : Filter.stringKind b = none := by
    simp only [Filter.stringKind]
    grind
  have hint : isIntermediate b = false := by
    simp only [isIntermediate]
    grind
  refine ⟨by simp [opens, hbracket, hkind, hint], ?_⟩
  simp only [Filter.isEscapeFinal]
  grind

/-- What may stand inside a sequence leaves it opening. -/
theorem run_gap (policy : Policy) {r : Reader} (h : Opening r) {gap : Bytes}
    (hgap : gap.all isInside = true) : Opening ((reader policy).run r gap).1 := by
  induction gap generalizing r with
  | nil => exact h
  | cons b gap ih =>
    simp only [List.all_cons, Bool.and_eq_true] at hgap
    obtain ⟨hb, hgap⟩ := hgap
    refine ih ?_ hgap
    have hne : b ≠ 0x5c := by
      rintro rfl
      exact absurd hb (by decide)
    have hclosed := isInside_closed hb
    simp only [isInside, Bool.and_eq_true, decide_eq_true_eq] at hb
    change Opening (Reader.step policy r b).1
    rw [h.step hne, (escapeStep_inside policy _ hclosed.1 hclosed.2).2, if_neg hb.1.1.2,
      if_neg (not_or.mpr ⟨hb.1.2, hb.2⟩)]
    exact Or.inl rfl

/-- In the OSC the reader holds all that was opened. -/
theorem run_opened (policy : Policy) {y body : Bytes} (h : Opened y body)
    (hbody : ∀ b ∈ body, 0x20 ≤ b) (hlen : body.length ≤ maxMark + 4) :
    ((reader policy).run .start y).1 = ⟨.text .osc, ESC :: 0x5d :: body, false⟩ := by
  obtain ⟨p, gap, hgap, rfl⟩ := h
  have hgathers : ∀ b ∈ body, gathers (.text .osc) b :=
    fun b hb => gathers_printable .osc (hbody b hb)
  have hopening := run_gap policy (step_ESC policy ((reader policy).run .start p).1) hgap
  have hosc : (Reader.step policy ((reader policy).run
      (Reader.step policy ((reader policy).run .start p).1 ESC).1 gap).1 0x5d).1 =
        ⟨.text .osc, [ESC, 0x5d], false⟩ := by
    rw [hopening.step (by decide)]
    rfl
  have hmax : bound (.text .osc) = 2 ^ 20 := rfl
  have hhead : [ESC, 0x5d].length ≤ bound (.text .osc) := by decide
  have hrun := run_gathers policy [ESC, 0x5d] body hgathers hhead
  have hmark : maxMark = 256 := rfl
  rw [if_pos (by simp only [List.length_cons, List.length_nil]; omega)] at hrun
  rw [Transducer.run_append_fst, Transducer.run_cons]
  simp only [Transducer.run_append_fst, Transducer.run_cons]
  change ((reader policy).run (Reader.step policy _ 0x5d).1 body).1 = _
  rw [show ((reader policy).step ((reader policy).run .start p).1 ESC).1 =
    (Reader.step policy ((reader policy).run .start p).1 ESC).1 from rfl, hosc, hrun]
  rfl

/-- A relayed payload that an output carries is said of it. -/
theorem mark_said (policy : Policy) {x data : Bytes} (hcarries : Carries x data)
    (hrelayed : Relayed policy.marks data) : .mark (stripped data) ∈ said policy x := by
  obtain ⟨y, final, rest, rfl, hfinal, hopened⟩ := hcarries
  have hprintable : ∀ b ∈ ascii ['1', '3', '3', ';'] ++ data, 0x20 ≤ b := by
    intro b hb
    rcases List.mem_append.mp hb with hnumber | hdata
    · exact (by decide +kernel : ∀ b ∈ ascii ['1', '3', '3', ';'], 0x20 ≤ b) b hnumber
    · have := List.all_eq_true.mp hrelayed.printable b hdata
      simp only [printable, Bool.and_eq_true, decide_eq_true_eq] at this
      exact this.1
  have hshort := hrelayed.short
  have hlen : (ascii ['1', '3', '3', ';'] ++ data).length ≤ maxMark + 4 := by
    simp only [List.length_append, ascii, List.length_map, List.length_cons, List.length_nil]
    omega
  have hrun := run_opened policy hopened hprintable hlen
  have hcloses : closes (.text .osc) final := by
    rcases hfinal with rfl | rfl <;> rfl
  have hmax : bound (.text .osc) = 2 ^ 20 := rfl
  have hmark : maxMark = 256 := rfl
  have hfits : (ESC :: 0x5d :: (ascii ['1', '3', '3', ';'] ++ data)).length + final.length ≤
      bound (.text .osc) := by
    have hfinal' : final.length ≤ 2 := by rcases hfinal with rfl | rfl <;> simp
    simp only [List.length_cons]
    omega
  have hclosed := run_closes policy hcloses (ESC :: 0x5d :: (ascii ['1', '3', '3', ';'] ++ data))
    (by omega)
  rw [if_pos hfits] at hclosed
  have hsays : (Reader.said (ESC :: 0x5d :: (ascii ['1', '3', '3', ';'] ++ data ++ final)) policy) =
      [.mark (stripped data)] := by
    rw [Reader.said, judge_133 (mark_eq_some_iff.mpr ⟨hrelayed, rfl⟩) hfinal]
  rw [said, Transducer.run_append_snd, Transducer.run_append_snd, hrun, hclosed]
  refine List.mem_append_left _ (List.mem_append_right _ ?_)
  simp only [List.cons_append, hsays, List.mem_singleton]

/-! ### However it is fed -/

/-- Each mark a filter fed `chunks` emits is one that the wire takes, and under a nonce it is that
of a payload whose first nonce field says it. -/
def MarksHold (policy : Policy) (chunks : List Bytes) : Prop :=
  ∀ m, .mark m ∈ ((Filter.new policy).feedAll chunks).pieces →
    (MarkText.new m).isSome ∧ shownOf (.mark m) ≠ none ∧
      ∀ k, policy.marks = .signed k → ∃ data, Carries chunks.flatten data ∧
        firstNonce data = some k ∧ m = stripped data

/-- A payload that is relayed, and without its nonce fields is nothing, or begins as a state report
does. -/
def Misread (marks : Marks) (data : Bytes) : Prop :=
  Relayed marks data ∧ (stripped data = [] ∨ (stripped data).head? = some 0x53)

/-- A mark comes out if it is said. -/
theorem mark_mem_pieces_iff (policy : Policy) (chunks : List Bytes) (m : Bytes) :
    .mark m ∈ ((Filter.new policy).feedAll chunks).pieces ↔
      .mark m ∈ said policy chunks.flatten := by
  have hitems := ((Filter.new policy).feedAll_reads chunks).items
  have hsaid : ((Filter.new policy).feedAll chunks).items = said policy chunks.flatten := hitems
  rw [← hsaid]
  refine ⟨mem_items_of_mark, fun hm => ?_⟩
  rcases List.mem_append.mp hm with hpiece | hheld
  · obtain ⟨piece, hpiece, hm⟩ := List.mem_flatMap.mp hpiece
    cases piece with
    | out bytes => exact absurd hm (mark_not_mem_bytes m bytes)
    | mark m' =>
      obtain rfl : m = m' := by simpa [Piece.items] using hm
      exact hpiece
  · exact absurd hheld (mark_not_mem_bytes m _)

/-- Every mark emitted is one, however the output is fed, exactly when no payload it carries is
misread. -/
theorem marks_hold_iff (policy : Policy) (chunks : List Bytes) :
    MarksHold policy chunks ↔
      ∀ data, Carries chunks.flatten data → ¬ Misread policy.marks data := by
  constructor
  · rintro hholds data hcarries ⟨hrelayed, hmisread⟩
    have hsaid := mark_said policy hcarries hrelayed
    have htaken := (hholds _ ((mark_mem_pieces_iff policy chunks _).mpr hsaid)).1
    have hvalid : validMark (stripped data) = true := by
      by_contra hnot
      simp [MarkText.new, hnot] at htaken
    obtain ⟨hsome, hreport⟩ := (validMark_stripped_iff hrelayed).mp hvalid
    exact hmisread.elim hsome hreport
  · intro hclean m hm
    rw [mark_mem_pieces_iff] at hm
    obtain ⟨data, hcarries, hmark⟩ := (marksOf_run policy chunks.flatten).2 m hm
    obtain ⟨hrelayed, rfl⟩ := mark_eq_some_iff.mp hmark
    have hnot := hclean data hcarries
    rw [Misread, not_and] at hnot
    have hvalid := (validMark_stripped_iff hrelayed).mpr (not_or.mp (hnot hrelayed))
    refine ⟨by simp [MarkText.new, hvalid], by simp [shownOf, MarkText.new, hvalid], ?_⟩
    intro k hk
    rcases hrelayed.allowed with hall | ⟨k', hk', hnonce⟩
    · rw [hall] at hk
      cases hk
    · rw [hk', Marks.signed.injEq] at hk
      exact ⟨data, hcarries, hk ▸ hnonce, rfl⟩

/-- A program's own state report, with the shell's nonce before it. -/
def report : Bytes :=
  [ESC, 0x5d] ++ ascii ['1', '3', '3', ';'] ++ ascii ['n', 'o', 'n', 'c', 'e', '=', 'k', ';'] ++
    ascii ['S', ';', 'a', '=', 'b'] ++ [BEL]

/-- It is emitted as a mark that the wire does not take. -/
theorem report_misread :
    .mark (ascii ['S', ';', 'a', '=', 'b']) ∈
        ((Filter.new ⟨.signed (ascii ['k']), false, false⟩).feedAll [report]).pieces ∧
      ¬ MarksHold ⟨.signed (ascii ['k']), false, false⟩ [report] := by
  have hemitted : .mark (ascii ['S', ';', 'a', '=', 'b']) ∈
      ((Filter.new ⟨.signed (ascii ['k']), false, false⟩).feedAll [report]).pieces := by
    rw [mark_mem_pieces_iff]
    decide +kernel
  refine ⟨hemitted, fun hholds => ?_⟩
  have htaken := (hholds _ hemitted).1
  revert htaken
  decide

end Koh.Server
