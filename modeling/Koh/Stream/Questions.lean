import Koh.Stream.Sequence

/-!
# No question passes

What a filter lets through is clean (`Clean`): text and whole sequences that
the filter lets through as they are, so a new filter reads it unchanged. The
source breaks this in two places. After an ESC, another ESC passes the first as
text before the second's sequence is judged, so a question can be put together
from it and what follows; and an ENQ inside an escape or control sequence
passes as a control. `Stray` is a step that reaches one of them, and
`unasking_iff_no_stray` says that a stream keeps its output free of questions,
at each of its prefixes, exactly when none of its steps is stray.

## Main definitions

- `Unasking`: a filter's output holds nothing the filter would drop
- `Stray`: the steps that break it
- `Clean`: the outputs no filter of the policy changes
-/

namespace Koh.Stream

open Koh.Stream.Filter (stringKind isEscapeFinal isText)

def outs : List Piece → List UInt8
  | [] => []
  | .out bytes :: pieces => bytes ++ outs pieces
  | .mark _ :: pieces => outs pieces

def Item.text : List Item → List UInt8
  | [] => []
  | .byte b :: items => b :: Item.text items
  | .mark _ :: items => Item.text items

@[simp] theorem Item.text_bytes (l : List UInt8) : Item.text (Item.bytes l) = l := by
  induction l with
  | nil => rfl
  | cons b l ih => simp [Item.text, ih]

/-- The text of two lists of items. -/
@[simp] theorem Item.text_append (l m : List Item) :
    Item.text (l ++ m) = Item.text l ++ Item.text m := by
  induction l with
  | nil => rfl
  | cons i l ih => cases i <;> simp [Item.text, ih]

/-- The pieces' text is their items'. -/
theorem outs_eq (pieces : List Piece) : outs pieces = Item.text (pieces.flatMap Piece.items) := by
  induction pieces with
  | nil => rfl
  | cons p pieces ih => cases p <;> simp [outs, Piece.items, Item.text, ih]

/-- `output`, what a filter of `policy` gave out, asks nothing: a new filter of
the same policy, however it is fed, passes it as it is (holding back, as any
filter does, a character whose end has not come) and emits no mark; an ENQ
stands in it only as the data of a control string; and no whole sequence in it
is one that `judge` drops, or takes as a mark. -/
structure Unasking (policy : Policy) (output : List UInt8) : Prop where
  unchanged : ∀ chunks : List (List UInt8), chunks.flatten = output →
    let again := (Filter.new policy).feedAll chunks
    outs again.pieces ++ again.filter.out = output
  unmarked : ∀ chunks : List (List UInt8), chunks.flatten = output →
    ∀ m, .mark m ∉ ((Filter.new policy).feedAll chunks).pieces
  no_enq : ∀ p, p ++ [ENQ] <+: output →
    ∃ kind, ((Filter.new policy).feedAll [p]).filter.state = .text kind
  no_question : ∀ q, Sequence q → q <:+: output →
    judge q policy ≠ .drop ∧ ∀ m, judge q policy ≠ .mark m

/-- The steps at which a filter passes what is neither text nor a whole
sequence: an ESC read straight after an ESC passes that one alone, and an ENQ
inside an escape or control sequence passes. -/
def Stray (state : State) (b : UInt8) : Prop :=
  (b = ESC ∧ (state = .escape ∨ state = .textEscape)) ∨
    (b = ENQ ∧ (state = .escape ∨ state = .escapeIntermediate ∨ state = .csi ∨
      state = .textEscape))

instance (state : State) (b : UInt8) : Decidable (Stray state b) := by
  unfold Stray
  infer_instance

/-- `s` is a whole sequence that passes as it is. -/
structure Whole (policy : Policy) (s : List UInt8) : Prop where
  sequence : Sequence s
  run : (reader policy).run .start s = (.start, Item.bytes s)

/-- Text and whole sequences that pass as they are. -/
inductive Clean (policy : Policy) : List UInt8 → Prop where
  | nil : Clean policy []
  | text {t : List UInt8} {b : UInt8} : Clean policy t → isText b → Clean policy (t ++ [b])
  | whole {t s : List UInt8} : Clean policy t → Whole policy s → Clean policy (t ++ s)

/-! ### Between sequences, where the reader was before plays no part -/

/-- On the ground it makes no difference what was gathered. -/
theorem run_of_ground (policy : Policy) {r r' : Reader} (hr : r.state = .ground)
    (hr' : r'.state = .ground) (l : List UInt8) :
    ((reader policy).run r l).2 = ((reader policy).run r' l).2 ∧
      (((reader policy).run r l).1 = ((reader policy).run r' l).1 ∨
        (((reader policy).run r l).1.state = .ground ∧
          ((reader policy).run r' l).1.state = .ground)) := by
  induction l generalizing r r' with
  | nil => exact ⟨rfl, Or.inr ⟨hr, hr'⟩⟩
  | cons b l ih =>
    simp only [Transducer.run_cons]
    by_cases hesc : b = ESC
    · subst hesc
      rw [step_ground_ESC policy hr, step_ground_ESC policy hr']
      exact ⟨rfl, Or.inl rfl⟩
    · have hstep : ∀ {s : Reader}, s.state = .ground →
          (reader policy).step s b = (s, if b = ENQ then [] else [.byte b]) := by
        intro s hs
        by_cases henq : b = ENQ
        · subst henq
          simp [reader, Reader.step, hs, hesc]
        · simp [reader, Reader.step, hs, hesc, henq]
      rw [hstep hr, hstep hr']
      obtain ⟨hitems, hstate⟩ := ih hr hr'
      exact ⟨by rw [hitems], hstate⟩

/-! ### A clean output is read as it is -/

/-- A whole text passes from the ground, and ends there. -/
theorem Whole.run_ground {policy : Policy} {s : List UInt8} (h : Whole policy s) {r : Reader}
    (hr : r.state = .ground) : (reader policy).run r s = (.start, Item.bytes s) := by
  obtain ⟨items, hrun, -⟩ := h.sequence.run policy hr
  have hitems := (run_of_ground policy hr (show Reader.start.state = .ground from rfl) s).1
  rw [h.run, hrun] at hitems
  exact hrun.trans (congrArg (Prod.mk _) hitems)

/-- A clean text passes, and ends on the ground. -/
theorem Clean.run {policy : Policy} {t : List UInt8} (h : Clean policy t) :
    ((reader policy).run .start t).2 = Item.bytes t ∧
      ((reader policy).run .start t).1.state = .ground := by
  induction h with
  | nil => exact ⟨rfl, rfl⟩
  | @text t b _ hb ih =>
    have hrun := Filter.run_text policy ih.2 [b] (by simpa using hb)
    rw [Transducer.run_append, hrun, ih.1]
    exact ⟨by simp, ih.2⟩
  | @whole t s _ hs ih =>
    rw [Transducer.run_append, hs.run_ground ih.2, ih.1]
    exact ⟨by simp, rfl⟩

/-- Reading a clean output, the reader has passed or holds all it read, at every
moment; an ESC comes only between sequences or in an ST, and an ENQ only inside
a control string. -/
theorem Clean.run_prefix {policy : Policy} {t : List UInt8} (h : Clean policy t)
    {p rest : List UInt8} (ht : t = p ++ rest) :
    let r := (reader policy).run .start p
    (∃ passed, r.2 = Item.bytes passed ∧
      p = passed ++ (if r.1.state = .ground then [] else r.1.held)) ∧
    (rest.head? = some ESC → r.1.state = .ground ∨ [ESC, 0x5c] <+: rest) ∧
    (rest.head? = some ENQ → ∃ kind, r.1.state = .text kind) := by
  induction h generalizing p rest with
  | nil =>
    obtain ⟨rfl, rfl⟩ : p = [] ∧ rest = [] := by simpa using ht.symm
    exact ⟨⟨[], rfl, rfl⟩, fun _ => Or.inl rfl, by simp⟩
  | @text t b hclean hb ih =>
    rcases List.eq_nil_or_concat rest with rfl | ⟨front, c, rfl⟩
    · rw [List.append_nil] at ht
      subst ht
      have hrun := (Clean.text hclean hb).run
      simp only [hrun.2, if_true, List.append_nil]
      exact ⟨⟨_, hrun.1, rfl⟩, fun _ => Or.inl trivial, by simp⟩
    · rw [List.concat_eq_append, ← List.append_assoc] at ht
      obtain ⟨ht, hbc⟩ := List.append_inj' ht rfl
      obtain ⟨hpassed, hESC, hENQ⟩ := ih ht
      cases front with
      | nil =>
        obtain rfl : b = c := by simpa using hbc
        refine ⟨hpassed, fun hhead => ?_, fun hhead => ?_⟩
        · obtain rfl : b = ESC := by simpa using hhead
          exact absurd hb (by decide)
        · obtain rfl : b = ENQ := by simpa using hhead
          exact absurd hb (by decide)
      | cons d front =>
        refine ⟨hpassed, fun hhead => ?_, fun hhead => hENQ (by simpa using hhead)⟩
        rcases hESC (by simpa using hhead) with hground | hst
        · exact Or.inl hground
        · exact Or.inr (hst.trans (List.concat_eq_append ▸ List.prefix_append _ _))
  | @whole t s hclean hs ih =>
    have hrun := hclean.run
    rcases List.append_eq_append_iff.mp ht with ⟨more, hp, hs'⟩ | ⟨more, ht', hrest⟩
    · by_cases hmore : more = []
      · subst hmore
        rw [List.append_nil] at hp
        subst hp
        simp only [hrun.2, if_true, List.append_nil]
        refine ⟨⟨_, hrun.1, rfl⟩, fun _ => Or.inl trivial, fun hhead => ?_⟩
        rw [List.nil_append] at hs'
        exact absurd (hs' ▸ hhead) hs.sequence.head_ne_ENQ
      · by_cases hrest : rest = []
        · subst hrest
          rw [List.append_nil] at hs'
          subst hs'
          have hrun' := (Clean.whole hclean hs).run
          rw [hp]
          simp only [hrun'.2, if_true, List.append_nil]
          exact ⟨⟨_, hrun'.1, rfl⟩, fun _ => Or.inl trivial, by simp⟩
        · have hkept : ((reader policy).run ((reader policy).run .start t).1 s).2 ≠ [] := by
            rw [hs.run_ground hrun.2]
            cases s with
            | nil => simp at hs'; exact absurd hs'.1 hmore
            | cons => simp
          obtain ⟨r', hinside, hheld, hground, hESC, hENQ⟩ :=
            hs.sequence.run_prefix policy hrun.2 hkept hs' hmore hrest
          rw [hp, Transducer.run_append, hinside]
          simp only [hrun.1, List.append_nil, if_neg hground, hheld]
          exact ⟨⟨t, rfl, rfl⟩, fun hhead => Or.inr (hESC hhead ▸ List.prefix_rfl), hENQ⟩
    · by_cases hmore : more = []
      · subst hmore
        rw [List.append_nil] at ht'
        subst ht'
        simp only [hrun.2, if_true, List.append_nil]
        refine ⟨⟨_, hrun.1, rfl⟩, fun _ => Or.inl trivial, fun hhead => ?_⟩
        rw [List.nil_append] at hrest
        exact absurd (hrest ▸ hhead) hs.sequence.head_ne_ENQ
      · obtain ⟨hpassed, hESC, hENQ⟩ := ih ht'
        obtain ⟨d, more, rfl⟩ := List.exists_cons_of_ne_nil hmore
        refine ⟨hpassed, fun hhead => ?_, fun hhead => hENQ (by simpa [hrest] using hhead)⟩
        rcases hESC (by simpa [hrest] using hhead) with hground | hst
        · exact Or.inl hground
        · exact Or.inr (hst.trans (hrest ▸ List.prefix_append _ _))

/-! ### What passes is clean -/

/-- What the reader has gathered of the sequence it is inside of. -/
def Gathered (r : Reader) (state : State) : Prop :=
  r.isOver = true ∨ ∃ c body, opens c = some state ∧ (∀ b ∈ body, gathers state b) ∧
    r.seq = [ESC, c] ++ body ∧ r.seq.length ≤ bound state

/-- Where a reader can be. -/
def Reader.Sound (r : Reader) : Prop :=
  match r.state with
  | .ground => True
  | .escape => r = .begin
  | .textEscape => ∃ kind, Gathered r (.text kind)
  | .csi => Gathered r .csi
  | .escapeIntermediate => Gathered r .escapeIntermediate
  | .text kind => Gathered r (.text kind)

/-- What one step says: nothing, a byte of text, a whole sequence or a mark. -/
inductive Says (policy : Policy) : List Item → Prop where
  | nothing : Says policy []
  | text {b : UInt8} : isText b → Says policy [.byte b]
  | whole {s : List UInt8} : Whole policy s → Says policy (Item.bytes s)
  | mark (m : List UInt8) : Says policy [.mark m]

/-- A byte more of what is gathered. -/
theorem Gathered.gather {r : Reader} {state : State} (h : Gathered r state) {b : UInt8}
    (hb : gathers state b) : Gathered (r.gather b (bound state)) state := by
  by_cases hfull : bound state ≤ r.seq.length
  · exact Or.inl (by simp [Reader.gather, hfull])
  · by_cases hover : r.isOver = true
    · exact Or.inl (by simp [Reader.gather, hfull, hover])
    · have hgather : r.gather b (bound state) = { r with seq := r.seq ++ [b] } := by
        simp only [Reader.gather, if_neg hfull, if_neg hover]
      rcases h with hover' | ⟨c, body, hopens, hbody, hseq, hlen⟩
      · exact absurd hover' hover
      · refine Or.inr ⟨c, body ++ [b], hopens, ?_, ?_, ?_⟩
        · intro d hd
          rcases List.mem_append.mp hd with hd | hd
          · exact hbody d hd
          · exact List.mem_singleton.mp hd ▸ hb
        · rw [hgather, hseq, List.append_assoc]
        · rw [hgather, List.length_append, List.length_singleton]
          omega

/-! ### Titles -/

/-- A title has no control. -/
theorem filter_title (data : List UInt8) : ∀ c ∈ title data, isControl c = false := by
  intro c hc
  have := List.mem_of_mem_take hc
  simpa using (List.mem_filter.mp this).2

/-- A title that was cleaned stays as it is. -/
theorem title_encode_title (data : List UInt8) : title (encode (title data)) = title data := by
  have hclean := filter_title data
  have hlen : (title data).length ≤ maxTitle := List.length_take_le _ _
  rw [title, fromUtf8Lossy_encode, List.filter_eq_self.mpr fun c hc => by simp [hclean c hc],
    List.take_of_length_le hlen]

/-- No byte of a title is a control. -/
theorem title_bytes (data : List UInt8) : ∀ b ∈ encode (title data), 0x20 ≤ b := by
  intro b hb
  obtain ⟨c, hc, hb⟩ := List.mem_flatMap.mp hb
  exact not_control_of_mem_utf8EncodeChar (filter_title data c hc) hb

/-- The title sequence a filter gives out in place of a program's. -/
def titleSeq (number data : List UInt8) : List UInt8 :=
  [ESC, 0x5d] ++ number ++ [0x3b] ++ encode (title data) ++ [BEL]

/-- Only titles are passed on rewritten. -/
theorem judge_out {seq : List UInt8} {policy : Policy} {w : List UInt8}
    (h : judge seq policy = .out w) :
    ∃ number data, number ∈ [ascii ['0'], ascii ['1'], ascii ['2']] ∧ w = titleSeq number data := by
  simp only [judge, osc] at h
  split at h
  · split at h
    · split at h <;> cases h
    · split at h
      · split at h <;> cases h
      · split at h
        · next hnumber =>
          cases h
          exact ⟨_, _, hnumber, rfl⟩
        · split at h
          · cases h
          · split at h <;> cases h
  · split at h <;> cases h

/-- A title's own sequence is passed as it is. -/
theorem judge_titleSeq (policy : Policy) {number : List UInt8} (data : List UInt8)
    (hnumber : number ∈ [ascii ['0'], ascii ['1'], ascii ['2']]) :
    judge (titleSeq number data) policy = .out (titleSeq number data) := by
  have hbody : (titleSeq number data).drop 2 = number ++ [0x3b] ++ encode (title data) ++ [BEL] := by
    simp [titleSeq]
  have hstrip : stripSuffix [BEL] (number ++ [0x3b] ++ encode (title data) ++ [BEL]) =
      some (number ++ [0x3b] ++ encode (title data)) := stripSuffix_append _ _
  have hdigits : ∀ b ∈ number, (b != 0x3b) = true := by
    simp only [List.mem_cons, List.not_mem_nil, or_false] at hnumber
    have hdigit : number = [0x30] ∨ number = [0x31] ∨ number = [0x32] := hnumber
    rcases hdigit with rfl | rfl | rfl <;> simp
  have htake : (number ++ [0x3b] ++ encode (title data)).takeWhile (· != 0x3b) = number := by
    rw [List.append_assoc, List.takeWhile_append_of_pos hdigits]
    simp
  have hdrop : (number ++ [0x3b] ++ encode (title data)).dropWhile (· != 0x3b) =
      [0x3b] ++ encode (title data) := by
    rw [List.append_assoc, List.dropWhile_append_of_pos hdigits]
    simp
  have hsecond : (titleSeq number data)[1]? = some 0x5d := by simp [titleSeq]
  have h133 : number ≠ ascii ['1', '3', '3'] := by
    simp only [List.mem_cons, List.not_mem_nil, or_false] at hnumber
    rcases hnumber with rfl | rfl | rfl <;> decide
  have h52 : number ≠ ascii ['5', '2'] := by
    simp only [List.mem_cons, List.not_mem_nil, or_false] at hnumber
    rcases hnumber with rfl | rfl | rfl <;> decide
  simp only [judge, if_pos hsecond, osc, hbody, hstrip, Option.orElse, Option.getD_some, htake, hdrop,
    if_neg h133, if_neg h52, if_pos hnumber]
  simp [titleSeq, title_encode_title]

/-- It is a whole text. -/
theorem whole_titleSeq (policy : Policy) {number : List UInt8} (data : List UInt8)
    (hnumber : number ∈ [ascii ['0'], ascii ['1'], ascii ['2']]) :
    Whole policy (titleSeq number data) := by
  have hbody : ∀ b ∈ number ++ [0x3b] ++ encode (title data), gathers (.text .osc) b := by
    intro b hb
    have hb' : 0x20 ≤ b := by
      simp only [List.mem_append, List.mem_singleton] at hb
      rcases hb with (hb | rfl) | hb
      · simp only [List.mem_cons, List.not_mem_nil, or_false] at hnumber
        rcases hnumber with rfl | rfl | rfl <;> (simp [ascii] at hb; subst hb; decide)
      · decide
      · exact title_bytes data b hb
    exact gathers_printable .osc hb'
  have hlen : ([ESC, 0x5d] ++ (number ++ [0x3b] ++ encode (title data)) ++ [BEL]).length ≤
      bound (.text .osc) := by
    have htitle : (title data).length ≤ maxTitle := List.length_take_le _ _
    have henc := length_encode_le (title data)
    have hnum : number.length = 1 := by
      simp only [List.mem_cons, List.not_mem_nil, or_false] at hnumber
      rcases hnumber with rfl | rfl | rfl <;> rfl
    simp only [List.length_append, List.length_cons, List.length_nil, hnum, bound, maxString]
    simp only [maxTitle] at htitle
    omega
  have hseq : [ESC, 0x5d] ++ (number ++ [0x3b] ++ encode (title data)) ++ [BEL] =
      titleSeq number data := by simp [titleSeq]
  have hopens : opens 0x5d = some (.text .osc) := rfl
  have hcloses : closes (.text .osc) [BEL] := by decide
  refine ⟨hseq ▸ .long hopens hbody hcloses, ?_⟩
  have hrun := run_long policy (r := .start) rfl hopens hbody hcloses
  rw [if_pos hlen, hseq] at hrun
  rw [hrun, Reader.said, judge_titleSeq policy data hnumber]

/-! ### One step -/

/-- What a whole sequence comes to, read whole. -/
theorem says_said {policy : Policy} {q : List UInt8} (hq : Sequence q)
    (hrun : (reader policy).run .start q = (.start, Reader.said q policy)) :
    Says policy (Reader.said q policy) := by
  cases hjudge : judge q policy with
  | pass =>
    have hsaid : Reader.said q policy = Item.bytes q := by simp [Reader.said, hjudge]
    rw [hsaid] at hrun ⊢
    exact .whole ⟨hq, hrun⟩
  | drop =>
    simp only [Reader.said, hjudge]
    exact .nothing
  | out w =>
    obtain ⟨number, data, hnumber, rfl⟩ := judge_out hjudge
    simp only [Reader.said, hjudge]
    exact .whole (whole_titleSeq policy data hnumber)
  | mark m =>
    simp only [Reader.said, hjudge]
    exact .mark m

/-- The end of a longer sequence: past its bound, or gathered whole. -/
theorem finish_says (policy : Policy) {r : Reader} {c : UInt8} {state : State}
    {body final : List UInt8} (hopens : opens c = some state) (hbody : ∀ b ∈ body, gathers state b)
    (hcloses : closes state final)
    (h : r.isOver = true ∨
      (r.seq = [ESC, c] ++ body ++ final ∧ ([ESC, c] ++ body ++ final).length ≤ bound state)) :
    Says policy (r.finish policy).2 := by
  by_cases hover : r.isOver = true
  · simp only [Reader.finish, if_pos hover]
    exact .nothing
  · rcases h with h | ⟨hseq, hlen⟩
    · exact absurd h hover
    · have hrun := run_long policy (r := .start) rfl hopens hbody hcloses
      rw [if_pos hlen] at hrun
      simp only [Reader.finish, if_neg hover, hseq]
      exact says_said (.long hopens hbody hcloses) hrun

/-- What grew past its bound is dropped. -/
theorem finish_over (policy : Policy) {r : Reader} (h : r.isOver = true) :
    Says policy (r.finish policy).2 := by
  simp only [Reader.finish, if_pos h]
  exact .nothing

/-- A byte added to a sequence: it passed its bound, or the byte is its last. -/
theorem gather_cases (r : Reader) (b : UInt8) (max : ℕ) :
    (r.gather b max).isOver = true ∨
      ((r.gather b max).seq = r.seq ++ [b] ∧ r.isOver = false ∧ (r.seq ++ [b]).length ≤ max) := by
  by_cases hfull : max ≤ r.seq.length
  · exact Or.inl (by simp [Reader.gather, hfull])
  · by_cases hover : r.isOver = true
    · exact Or.inl (by simp [Reader.gather, hfull, hover])
    · refine Or.inr ⟨by simp [Reader.gather, hfull, hover], by simpa using hover, ?_⟩
      rw [List.length_append, List.length_singleton]
      omega

/-- What is past its bound stays past it. -/
theorem gather_of_over {r : Reader} (h : r.isOver = true) (b : UInt8) (max : ℕ) :
    (r.gather b max).isOver = true := by
  by_cases hfull : max ≤ r.seq.length <;> simp [Reader.gather, hfull, h]

/-- What is gathered and closed says what is judged of it. -/
theorem Gathered.finish (policy : Policy) {r : Reader} {state : State} (h : Gathered r state)
    {b : UInt8} (hb : closes state [b]) :
    Says policy ((r.gather b (bound state)).finish policy).2 := by
  rcases h with hover | ⟨c, body, hopens, hbody, hseq, -⟩
  · exact finish_over policy (gather_of_over hover _ _)
  · refine finish_says policy hopens hbody hb ?_
    rcases gather_cases r b (bound state) with hover | ⟨hgather, -, hlen⟩
    · exact Or.inl hover
    · rw [hseq] at hgather hlen
      exact Or.inr ⟨hgather, hlen⟩

/-- The end of a control string by an ST. -/
theorem Gathered.finish_string (policy : Policy) {r : Reader} {kind : Kind}
    (h : Gathered r (.text kind)) :
    Says policy (((r.gather ESC maxString).gather 0x5c maxString).finish policy).2 := by
  rcases h with hover | ⟨c, body, hopens, hbody, hseq, -⟩
  · exact finish_over policy (gather_of_over (gather_of_over hover _ _) _ _)
  · have hcloses : closes (.text kind) [ESC, 0x5c] := rfl
    refine finish_says policy hopens hbody hcloses ?_
    rcases gather_cases r ESC maxString with hover | ⟨hgather, -, -⟩
    · exact Or.inl (gather_of_over hover _ _)
    · rcases gather_cases (r.gather ESC maxString) 0x5c maxString with hover | ⟨hgather', -, hlen⟩
      · exact Or.inl hover
      · rw [hgather, hseq] at hgather' hlen
        refine Or.inr ⟨?_, ?_⟩
        · simpa using hgather'
        · simpa [bound] using hlen

/-- One byte after an ESC, and neither of those that stray there. -/
theorem escapeStep_says (policy : Policy) {b : UInt8} (hesc : b ≠ ESC) (henq : b ≠ ENQ) :
    (Reader.begin.escapeStep policy b).1.Sound ∧ Says policy (Reader.begin.escapeStep policy b).2 := by
  cases hopens : opens b with
  | some state =>
    rw [escapeStep_opens policy _ hopens]
    have hgathered : Gathered (Reader.begin.push b state) state :=
      Or.inr ⟨b, [], hopens, by simp, rfl, bound_ge state⟩
    refine ⟨?_, .nothing⟩
    rcases opens_ne_ground hopens with rfl | rfl | ⟨kind, rfl⟩ <;> exact hgathered
  | none =>
    by_cases hfinal : isEscapeFinal b = true
    · rw [escapeStep_final policy _ hopens hfinal]
      exact ⟨trivial, says_said (.short hfinal hopens) (run_short policy rfl hfinal hopens)⟩
    · have hstep : Reader.begin.escapeStep policy b =
          if b = CAN ∨ b = SUB then (Reader.begin.goto .ground, []) else (.begin, [.byte b]) := by
        have hc : b ≠ 0x5b := by
          rintro rfl
          cases hopens
        simp only [opens, hc, if_false] at hopens
        cases hkind : stringKind b with
        | some kind => simp [hkind] at hopens
        | none =>
          have hint : ¬ isIntermediate b = true := by
            intro hint
            simp [hkind, hint] at hopens
          simp [Reader.escapeStep, hc, hkind, hint, hfinal, hesc]
      rw [hstep]
      split
      · exact ⟨trivial, .nothing⟩
      · exact ⟨rfl, .text (by simp [isText, hesc, henq])⟩

theorem gather_state (r : Reader) (b : UInt8) (max : ℕ) : (r.gather b max).state = r.state := by
  simp only [Reader.gather]
  split
  · rfl
  · split <;> rfl

/-- A byte a longer sequence goes on with, or that ends it. -/
theorem Gathered.step (policy : Policy) {r : Reader} (h : Gathered r r.state)
    (hstate : r.state = .csi ∨ r.state = .escapeIntermediate ∨ ∃ kind, r.state = .text kind)
    {b : UInt8} (hb : gathers r.state b ∨ closes r.state [b]) :
    (Reader.step policy r b).1.Sound ∧ Says policy (Reader.step policy r b).2 := by
  rcases hb with hb | hb
  · rw [step_gathers policy hb]
    refine ⟨?_, .nothing⟩
    have hnext := h.gather hb
    rcases hstate with hs | hs | ⟨kind, hs⟩ <;> (rw [hs] at hnext ⊢; simpa only [Reader.Sound, gather_state, hs])
  · rw [step_closes policy hb]
    exact ⟨trivial, h.finish policy hb⟩

/-- One byte: the reader is where it can be, and what passes is text, a whole
sequence or a mark, unless the step strays. -/
theorem step_says (policy : Policy) {r : Reader} (hr : r.Sound) {b : UInt8}
    (hstray : ¬ Stray r.state b) :
    (Reader.step policy r b).1.Sound ∧ Says policy (Reader.step policy r b).2 := by
  cases hstate : r.state with
  | ground =>
    simp only [Reader.step, hstate]
    split
    · exact ⟨rfl, .nothing⟩
    · next hesc =>
      split
      · exact ⟨hr, .nothing⟩
      · next henq => exact ⟨hr, .text (by simp [isText, hesc, henq])⟩
  | escape =>
    simp only [Reader.Sound, hstate] at hr
    rw [hr] at hstray ⊢
    simp only [Stray, Reader.begin, true_or, and_true, not_or] at hstray
    exact escapeStep_says policy hstray.1 hstray.2
  | escapeIntermediate =>
    have hgathered : Gathered r r.state := by simpa only [Reader.Sound, hstate] using hr
    simp only [Stray, hstate, or_true, true_or, and_true, not_or] at hstray
    by_cases hb : gathers r.state b ∨ closes r.state [b]
    · exact hgathered.step policy (Or.inr (Or.inl hstate)) hb
    · simp only [hstate, gathers, closes, not_or] at hb
      simp only [Reader.step, hstate, if_neg hb.1, if_neg hb.2]
      split
      · exact ⟨rfl, .nothing⟩
      · next hesc =>
        split
        · exact ⟨trivial, .nothing⟩
        · exact ⟨hr, .text (by simp [isText, hesc, hstray.2])⟩
  | csi =>
    have hgathered : Gathered r r.state := by simpa only [Reader.Sound, hstate] using hr
    simp only [Stray, hstate, or_true, true_or, and_true, not_or] at hstray
    by_cases hb : gathers r.state b ∨ closes r.state [b]
    · exact hgathered.step policy (Or.inl hstate) hb
    · simp only [hstate, gathers, closes, not_or, Bool.and_eq_true, decide_eq_true_eq] at hb
      simp only [Reader.step, hstate, if_neg hb.1, if_neg hb.2]
      split
      · exact ⟨rfl, .nothing⟩
      · next hesc =>
        split
        · exact ⟨trivial, .nothing⟩
        · split
          · exact ⟨hr, .text (by simp [isText, hesc, hstray.2])⟩
          · split
            · exact ⟨hr, .nothing⟩
            · exact ⟨trivial, .nothing⟩
  | text kind =>
    have hgathered : Gathered r r.state := by simpa only [Reader.Sound, hstate] using hr
    by_cases hb : gathers r.state b ∨ closes r.state [b]
    · exact hgathered.step policy (Or.inr (Or.inr ⟨kind, hstate⟩)) hb
    · -- ESC, CAN and SUB are all that is left.
      have hspecial : b = ESC ∨ b = CAN ∨ b = SUB := by
        by_contra hne
        simp only [not_or] at hne
        by_cases hbel : b = BEL ∧ kind = .osc <;> simp [hstate, gathers, closes, hne, hbel] at hb
      rw [hstate] at hgathered
      rcases hspecial with rfl | rfl | rfl
      · simp only [Reader.step, hstate, if_true]
        exact ⟨⟨kind, hgathered⟩, .nothing⟩
      · simp only [Reader.step, hstate]
        exact ⟨trivial, .nothing⟩
      · simp only [Reader.step, hstate]
        exact ⟨trivial, .nothing⟩
  | textEscape =>
    obtain ⟨kind, hgathered⟩ : ∃ kind, Gathered r (.text kind) := by
      simpa only [Reader.Sound, hstate] using hr
    simp only [Stray, hstate, or_true, and_true, not_or] at hstray
    simp only [Reader.step, hstate]
    split
    · next hst =>
      subst hst
      exact ⟨trivial, hgathered.finish_string policy⟩
    · exact escapeStep_says policy hstray.1 hstray.2

/-! ### A run without stray steps -/

/-- What is said leaves a clean text clean. -/
theorem Says.clean {policy : Policy} {items : List Item} (h : Says policy items) {t : List UInt8}
    (ht : Clean policy t) : Clean policy (t ++ Item.text items) := by
  cases h with
  | nothing => simpa [Item.text] using ht
  | text hb => exact ht.text hb
  | whole hs => simpa using ht.whole hs
  | mark m => simpa [Item.text] using ht

/-- None of the bytes of `x` strays where it is read. -/
def Straight (policy : Policy) (x : List UInt8) : Prop :=
  ∀ a b c, x = a ++ b :: c → ¬ Stray ((reader policy).run .start a).1.state b

/-- The first part is straight too. -/
theorem Straight.of_append {policy : Policy} {x y : List UInt8} (h : Straight policy (x ++ y)) :
    Straight policy x :=
  fun a b c hx => h a b (c ++ y) (by simp [hx])

/-- A straight word leaves the reader sound, and its text clean. -/
theorem run_clean {policy : Policy} {x : List UInt8} (h : Straight policy x) :
    ((reader policy).run .start x).1.Sound ∧
      Clean policy (Item.text ((reader policy).run .start x).2) := by
  induction x using List.reverseRecOn with
  | nil => exact ⟨trivial, .nil⟩
  | append_singleton x b ih =>
    obtain ⟨hsound, hclean⟩ := ih h.of_append
    obtain ⟨hsound', hsays⟩ := step_says policy hsound (h x b [] rfl)
    rw [Transducer.run_append, Transducer.run_singleton, Item.text_append]
    exact ⟨hsound', hsays.clean hclean⟩

/-! ### What is held back -/

theorem not_ascii_of_isContinuation {b : UInt8} (h : isContinuation b = true) : 0x80 ≤ b := by
  have hand : b &&& 0xc0 = 0x80 := by simpa [isContinuation] using h
  have hle : b &&& 0xc0 ≤ b := UInt8.and_le_left
  rwa [hand] at hle

theorem not_ascii_of_utf8Needs {b : UInt8} {needs : ℕ} (h : utf8Needs b = some needs) :
    0x80 ≤ b := by
  simp only [utf8Needs] at h
  grind

/-- A scan back that ends at the text's first byte has read no ASCII. -/
theorem scanBack_not_ascii {back fuel : ℕ} {l : List UInt8} (hback : 0 < back)
    (h : scanBack back fuel l + 1 = back + l.length) : ∀ b ∈ l, 0x80 ≤ b := by
  induction l generalizing back fuel with
  | nil => simp
  | cons b l ih =>
    cases fuel with
    | zero =>
      simp only [scanBack, List.length_cons] at h
      omega
    | succ fuel =>
      simp only [scanBack, List.length_cons] at h
      split at h
      · next hb =>
        have hscan : scanBack (back + 1) fuel l + 1 = back + 1 + l.length := by omega
        have hrest := ih (Nat.succ_pos back) hscan
        exact List.forall_mem_cons.mpr ⟨not_ascii_of_isContinuation hb, hrest⟩
      · split at h
        · next needs hneeds =>
          have hl : l = [] := by
            split at h
            · exact List.length_eq_zero_iff.mp (by omega)
            · omega
          simpa [hl] using not_ascii_of_utf8Needs hneeds
        · omega

/-- What a flush holds back is of a torn character. -/
theorem Filter.Flushed.not_ascii {f : Filter} (h : f.Flushed) : ∀ b ∈ f.out, 0x80 ≤ b := by
  have hscan : scanBack 1 3 f.out.reverse + 1 = 1 + f.out.reverse.length := by
    rw [← incompleteUtf8_eq_scanBack, h, List.length_reverse, Nat.add_comm]
  intro b hb
  exact scanBack_not_ascii Nat.one_pos hscan b (List.mem_reverse.mpr hb)

/-- A sequence ends with ASCII. -/
theorem closes_ascii {state : State} {front : List UInt8} {b : UInt8}
    (h : closes state (front ++ [b])) : b < 0x80 := by
  rcases closes_cases h with ⟨c, hc, hcloses⟩ | ⟨hfinal, -⟩
  · obtain ⟨-, rfl⟩ : front = [] ∧ b = c := by
      rcases List.eq_nil_or_concat front with rfl | ⟨f, d, rfl⟩
      · simpa using hc
      · have := congrArg List.length hc
        simp at this
    cases state <;> simp [closes, isEscapeFinal] at hcloses <;> grind [BEL]
  · have hlast := congrArg List.getLast? hfinal
    obtain rfl : b = 0x5c := by simpa using hlast
    decide

theorem Sequence.last_ascii {q front : List UInt8} {b : UInt8} (h : Sequence q)
    (hq : q = front ++ [b]) : b < 0x80 := by
  cases h with
  | @short final hfinal hopens =>
    obtain rfl : b = final := by simpa using (congrArg List.getLast? hq).symm
    simp only [isEscapeFinal, Bool.and_eq_true, decide_eq_true_eq] at hfinal
    grind
  | @long c state body final hopens hbody hcloses =>
    rcases List.eq_nil_or_concat final with rfl | ⟨f, d, rfl⟩
    · exact absurd (closes_length_pos hcloses) (by simp)
    · rw [List.concat_eq_append] at hcloses hq
      rw [← List.append_assoc] at hq
      obtain ⟨-, hbd⟩ := List.append_inj' hq rfl
      obtain rfl : d = b := by simpa using hbd
      exact closes_ascii hcloses

/-- What is no ASCII at the end of a clean output is text. -/
theorem Clean.dropTail {policy : Policy} {t tail : List UInt8} (htail : ∀ b ∈ tail, 0x80 ≤ b)
    (h : Clean policy (t ++ tail)) : Clean policy t := by
  induction tail using List.reverseRecOn with
  | nil => simpa using h
  | append_singleton tail b ih =>
    have hb : 0x80 ≤ b := htail b (by simp)
    refine ih (fun c hc => htail c (by simp [hc])) ?_
    rw [← List.append_assoc] at h
    generalize hx : t ++ tail ++ [b] = x at h
    cases h with
    | nil => simp at hx
    | @text u c hclean _ =>
      obtain ⟨rfl, -⟩ := List.append_inj' hx rfl
      exact hclean
    | @whole u s hclean hs =>
      rcases List.eq_nil_or_concat s with rfl | ⟨front, c, rfl⟩
      · exact absurd rfl hs.sequence.ne_nil
      · rw [List.concat_eq_append, ← List.append_assoc] at hx
        obtain ⟨-, hbc⟩ := List.append_inj' hx rfl
        obtain rfl : b = c := by simpa using hbc
        exact absurd (hs.sequence.last_ascii (List.concat_eq_append)) (UInt8.not_lt.mpr hb)

/-! ### Clean outputs ask nothing -/

/-- What a filter fed `chunks` from new has given out, with what it holds back. -/
theorem feedAll_text (policy : Policy) (chunks : List (List UInt8)) :
    let again := (Filter.new policy).feedAll chunks
    outs again.pieces ++ again.filter.out =
      Item.text ((reader policy).run .start chunks.flatten).2 := by
  have h := congrArg Item.text ((Filter.new policy).feedAll_reads chunks).items
  simp only [Fed.items, Item.text_append, Item.text_bytes, ← outs_eq] at h
  exact h

/-- However a text is fed, the filter's state is the reader's. -/
theorem feedAll_state (policy : Policy) (chunks : List (List UInt8)) :
    ((Filter.new policy).feedAll chunks).filter.state =
      ((reader policy).run .start chunks.flatten).1.state :=
  congrArg Reader.state ((Filter.new policy).feedAll_reads chunks).reader

/-- A piece that is a mark is an item. -/
theorem mem_items_of_mark {r : Fed} {m : List UInt8} (h : .mark m ∈ r.pieces) :
    Item.mark m ∈ r.items := by
  refine List.mem_append_left _ (List.mem_flatMap.mpr ⟨_, h, ?_⟩)
  simp [Piece.items]

/-- Bytes are no mark. -/
theorem mark_not_mem_bytes (m l : List UInt8) : Item.mark m ∉ Item.bytes l := by
  simp [Item.bytes]

/-- Bytes are what they are. -/
theorem bytes_injective {l m : List UInt8} (h : Item.bytes l = Item.bytes m) : l = m := by
  simpa using congrArg Item.text h

/-- A whole sequence where the reader was between sequences passes as it is. -/
theorem Clean.said_eq {policy : Policy} {p q rest : List UInt8} (h : Clean policy (p ++ q ++ rest))
    (hq : Sequence q) (hground : ((reader policy).run .start p).1.state = .ground) :
    Reader.said q policy = Item.bytes q := by
  obtain ⟨⟨passed, hpassed, hp⟩, -⟩ := h.run_prefix (List.append_assoc p q rest)
  obtain ⟨⟨passed', hpassed', hpq⟩, -⟩ := h.run_prefix (show p ++ q ++ rest = (p ++ q) ++ rest from rfl)
  obtain ⟨items, hrun, hitems⟩ := hq.run policy hground
  rw [if_pos hground, List.append_nil] at hp
  rw [Transducer.run_append, hrun] at hpassed' hpq
  have hpq : p ++ q = passed' := by simpa [Reader.start] using hpq
  have hbytes : items = Item.bytes q := by
    rw [← hpq, Item.bytes_append, hpassed, ← hp] at hpassed'
    exact List.append_cancel_left hpassed'
  rcases hitems with rfl | rfl
  · exact hbytes
  · exact absurd (bytes_injective (l := []) hbytes).symm hq.ne_nil

/-- A clean text asks nothing. -/
theorem Clean.unasking {policy : Policy} {o : List UInt8} (h : Clean policy o) :
    Unasking policy o where
  unchanged chunks hchunks := by
    have htext := feedAll_text policy chunks
    rw [hchunks, h.run.1, Item.text_bytes] at htext
    exact htext
  unmarked chunks hchunks m hm := by
    have hitems := ((Filter.new policy).feedAll_reads chunks).items
    have hmem := mem_items_of_mark hm
    rw [hitems, hchunks] at hmem
    exact mark_not_mem_bytes m o (h.run.1 ▸ hmem)
  no_enq p hp := by
    obtain ⟨rest, hrest⟩ := hp
    rw [List.append_assoc] at hrest
    obtain ⟨kind, hstate⟩ := (h.run_prefix hrest.symm).2.2 rfl
    exact ⟨kind, (feedAll_state policy [p]).trans (by simpa using hstate)⟩
  no_question q hq hinfix := by
    obtain ⟨p, rest, rfl⟩ := hinfix
    obtain ⟨c, more, hhead⟩ := hq.head
    have hESC := (h.run_prefix (List.append_assoc p q rest)).2.1 (by simp [hhead])
    rcases hESC with hground | hst
    · have hsaid := h.said_eq hq hground
      refine ⟨fun hdrop => ?_, fun m hmark => ?_⟩
      · simp only [Reader.said, hdrop] at hsaid
        exact hq.ne_nil (bytes_injective (l := []) hsaid).symm
      · simp only [Reader.said, hmark] at hsaid
        exact mark_not_mem_bytes m q (hsaid ▸ List.mem_singleton_self _)
    · -- An ST: it ends a control string, and is no question of its own.
      obtain rfl : 0x5c = c := by
        obtain ⟨_, hst⟩ := hst
        rw [hhead] at hst
        injection hst with _ hst
        injection hst
      have hq' : q = [ESC, 0x5c] := by
        cases hq with
        | short =>
          simp only [List.cons.injEq, true_and] at hhead
          rw [hhead.1]
        | long hopens =>
          simp only [List.cons_append, List.nil_append, List.cons.injEq] at hhead
          rw [hhead.2.1] at hopens
          cases hopens
      subst hq'
      have hpass : judge [ESC, 0x5c] policy = .pass := rfl
      simp [hpass]

/-! ### Exactly when no step strays -/

/-- A step that strays passes its byte as it is. -/
theorem step_stray (policy : Policy) {r : Reader} {b : UInt8} (h : Stray r.state b) :
    (Reader.step policy r b).2 = [.byte b] := by
  rcases h with ⟨rfl, hstate | hstate⟩ | ⟨rfl, hstate | hstate | hstate | hstate⟩ <;>
    simp only [Reader.step, hstate] <;> rfl

/-- Nothing is held back of an output that ends in ASCII. -/
theorem outs_of_ascii {policy : Policy} {chunks : List (List UInt8)} {front : List UInt8}
    {b : UInt8} (hb : b < 0x80)
    (h : Item.text ((reader policy).run .start chunks.flatten).2 = front ++ [b]) :
    outs ((Filter.new policy).feedAll chunks).pieces = front ++ [b] := by
  have htext := (feedAll_text policy chunks).trans h
  have hflushed := Filter.feedAll_flushed (Filter.new policy) rfl chunks
  rcases List.eq_nil_or_concat ((Filter.new policy).feedAll chunks).filter.out with
    hnil | ⟨tail, c, hcons⟩
  · simpa only [hnil, List.append_nil] using htext
  · simp only [hcons, List.concat_eq_append, ← List.append_assoc] at htext
    obtain ⟨-, hbc⟩ := List.append_inj' htext rfl
    obtain rfl : c = b := by simpa using hbc
    exact absurd (hflushed.not_ascii c (by simp [hcons])) (UInt8.not_le.mpr hb)

/-- Where a step strays, what a filter then has given out is not free of questions. -/
theorem Clean.not_unasking {policy : Policy} {a : List UInt8} {b : UInt8}
    (hclean : Clean policy (Item.text ((reader policy).run .start a).2))
    (hstray : Stray ((reader policy).run .start a).1.state b) :
    ¬ Unasking policy (outs ((Filter.new policy).feedAll [a ++ [b]]).pieces) := by
  generalize hpassed : Item.text ((reader policy).run .start a).2 = passed at hclean
  have hb : b = ESC ∨ b = ENQ := hstray.imp And.left And.left
  have hground := hclean.run.2
  have hsays : ((reader policy).step ((reader policy).run .start a).1 b).2 = [.byte b] :=
    step_stray policy hstray
  have htext : outs ((Filter.new policy).feedAll [a ++ [b]]).pieces = passed ++ [b] := by
    refine outs_of_ascii (by rcases hb with rfl | rfl <;> decide) ?_
    simp only [List.flatten_cons, List.flatten_nil, List.append_nil, Transducer.run_append,
      Transducer.run_singleton, Item.text_append, hsays, hpassed]
    rfl
  rw [htext]
  intro h
  rcases hb with rfl | rfl
  · have hagain := (feedAll_text policy [passed ++ [ESC]]).symm.trans
      (h.unchanged [passed ++ [ESC]] (by simp))
    simp only [List.flatten_cons, List.flatten_nil, List.append_nil, Transducer.run_append,
      Transducer.run_singleton, step_ground_ESC policy hground, hclean.run.1, Item.text_bytes]
      at hagain
    simp at hagain
  · obtain ⟨kind, hstate⟩ := h.no_enq passed List.prefix_rfl
    rw [feedAll_state] at hstate
    simp only [List.flatten_cons, List.flatten_nil, List.append_nil, hground] at hstate
    cases hstate

/-- **No question passes, as long as no step strays.** A filter keeps its output
free of questions, at every prefix of the stream and however it is split, exactly
when it reads no ESC straight after an ESC and no ENQ inside an escape or
control sequence. -/
theorem unasking_iff_no_stray (policy : Policy) (x : List UInt8) :
    (∀ chunks : List (List UInt8), chunks.flatten <+: x →
        Unasking policy (outs ((Filter.new policy).feedAll chunks).pieces)) ↔
      ∀ a b c, x = a ++ b :: c → ¬ Stray ((Filter.new policy).feedAll [a]).filter.state b := by
  have hstate : ∀ a, ((Filter.new policy).feedAll [a]).filter.state =
      ((reader policy).run .start a).1.state := fun a => by simpa using feedAll_state policy [a]
  simp only [hstate]
  constructor
  · intro h
    change Straight policy x
    induction x using List.reverseRecOn with
    | nil => exact fun a b c hx => absurd hx (by simp)
    | append_singleton x b ih =>
      have hstraight := ih fun chunks hchunks => h chunks (hchunks.trans (List.prefix_append _ _))
      intro a b' c hx
      rcases List.eq_nil_or_concat c with rfl | ⟨front, d, rfl⟩
      · obtain ⟨rfl, hbb⟩ := List.append_inj' hx rfl
        obtain rfl : b = b' := by simpa using hbb
        intro hstray
        exact (run_clean hstraight).2.not_unasking hstray (h [x ++ [b]] (by simp))
      · rw [List.concat_eq_append, ← List.cons_append, ← List.append_assoc] at hx
        exact hstraight a b' front (List.append_inj' hx rfl).1
  · rintro hstraight chunks ⟨rest, rfl⟩
    have hclean := (run_clean (Straight.of_append hstraight)).2
    rw [← feedAll_text] at hclean
    exact (hclean.dropTail (Filter.feedAll_flushed (Filter.new policy) rfl chunks).not_ascii).unasking

/-- `ESC ESC [ c [ c`: a device attributes report is dropped, but the ESC before
it passed, and what follows makes another of it. -/
theorem question_put_together :
    ¬ Unasking ⟨.drop, true, true⟩ (outs ((Filter.new ⟨.drop, true, true⟩).feedAll
      [[ESC, ESC, 0x5b, 0x63, 0x5b, 0x63]]).pieces) := by
  have htext : outs ((Filter.new ⟨.drop, true, true⟩).feedAll
      [[ESC, ESC, 0x5b, 0x63, 0x5b, 0x63]]).pieces = [ESC, 0x5b] ++ [0x63] :=
    outs_of_ascii (by decide) (by decide)
  have hsequence : Sequence [ESC, 0x5b, 0x63] :=
    .long (show opens 0x5b = some .csi from rfl) (show ∀ b ∈ [], gathers .csi b by simp)
      (show closes .csi [0x63] from rfl)
  rw [htext]
  intro h
  exact (h.no_question _ hsequence List.infix_rfl).1 (by decide)

end Koh.Stream
