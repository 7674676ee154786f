import Koh.Stream.Questions

/-!
# Where a piece of the output ends

What is written between two outs of a filter must land inside no sequence and no
character. `EndsAll` says so of all its pieces, and `pieces_end_iff` exactly when
it holds, whatever the feeds. It breaks in three places: an ESC read straight
after an ESC passes alone (`Lone`), a sequence longer than the room left in the
buffer is cut where the buffer fills (`Cut`), and text that is no UTF-8, or a
character that a mark cuts, leaves a character unfinished for good (`Torn`).

## Main definitions

- `EndsAll`: each out ends between sequences and between characters
- `Lone`, `Cut`, `Torn`: the steps that break it
- `Settled`: the outputs that leave a new filter between sequences
- `Mended`: what passed may be given out now

## Main results

- `Filter.feedLoop_snoc`: the loop of `feed` reads its bytes one after another
- `pieces_end_iff`: every piece ends well exactly when no step is one of the three
-/

namespace Koh.Stream

open Koh.Stream.Filter (isText)

/-- What may be written after the outs so far, `o`, if `next` follows: a new filter
that read them is between sequences, and they end no character short, unless a mark
cut it there. -/
def Ends (policy : Policy) (o : List UInt8) (next : List Piece) : Prop :=
  ((Filter.new policy).feedAll [o]).filter.between = true ∧
    (incompleteUtf8 o = 0 ∨ ∃ m more, next = .mark m :: more)

/-- Each out among `pieces` ends so, `before` the outs before them. -/
def EndsAll (policy : Policy) (before : List UInt8) : List Piece → Prop
  | [] => True
  | .mark _ :: more => EndsAll policy before more
  | .out bytes :: more =>
    Ends policy (before ++ bytes) more ∧ EndsAll policy (before ++ bytes) more

/-- Where a new filter is after `bytes`. -/
def stateAfter (policy : Policy) (bytes : List UInt8) : State :=
  ((reader policy).run .start bytes).1.state

/-- An ESC read straight after an ESC passes alone. -/
def Lone (state : State) (b : UInt8) : Prop := b = ESC ∧ (state = .escape ∨ state = .textEscape)

/-- The filter `f` that reads `b` passes a sequence longer than its room. -/
def Cut (f : Filter) (b : UInt8) : Prop :=
  ∃ w, (Reader.step f.policy f.reader b).2 = Item.bytes w ∧ 2 ≤ w.length ∧
    maxOut < f.out.length + w.length

/-- After `a`, a byte passes that begins a character while another is unfinished,
or that goes on the one the last mark cut and leaves it unfinished still. -/
def Torn (policy : Policy) (a : List UInt8) (b : UInt8) : Prop :=
  ∃ c, (Reader.step policy ((reader policy).run .start a).1 b).2 = [.byte c] ∧
    (((utf8Needs c).isSome ∧ incompleteUtf8 (sinceMark [] (said policy a)) ≠ 0) ∨
      (sinceMark [] (said policy a) = [] ∧ isContinuation c ∧
        incompleteUtf8 (Item.text (said policy a) ++ [c]) ≠ 0))

/-- The filter in the middle of a feed: `chunks` fed, and `part` read of the next. -/
def midway (policy : Policy) (chunks : List (List UInt8)) (part : List UInt8) : Filter :=
  (((Filter.new policy).feedAll chunks).filter.feedLoop part).filter

/-! ### The loops, byte by byte -/

namespace Filter

theorem pass_nil (f : Filter) : f.pass [] = ⟨f, []⟩ := by rw [pass, if_pos rfl]

/-- What fits in the buffer stays there. -/
theorem pass_fits {f : Filter} {w : List UInt8} (h : f.out.length + w.length < maxOut) :
    f.pass w = ⟨{ f with out := f.out ++ w }, []⟩ := by
  by_cases hw : w = []
  · rw [hw, pass_nil, List.append_nil]
  · have hmin : min (maxOut - f.out.length) w.length = w.length := by omega
    rw [pass, if_neg hw]
    simp only [hmin, List.take_length, List.length_append]
    rw [if_neg (by omega), List.drop_length, pass_nil]

/-- What fills the buffer is given out up to its room, and the rest passes. -/
theorem pass_fills {f : Filter} {w : List UInt8} (hw : w ≠ [])
    (h : maxOut ≤ f.out.length + w.length) :
    f.pass w = (Filter.flush { f with out := f.out ++ w.take (maxOut - f.out.length) }).andThen
      (·.pass (w.drop (maxOut - f.out.length))) := by
  have hmin : min (maxOut - f.out.length) w.length = maxOut - f.out.length := by omega
  rw [pass, if_neg hw]
  simp only [hmin, List.length_append, List.length_take]
  rw [if_pos (by omega)]
  rfl

/-- Passing is passing one part, then the other. -/
theorem pass_append (f : Filter) (l₁ l₂ : List UInt8) :
    f.pass (l₁ ++ l₂) = (f.pass l₁).andThen (·.pass l₂) := by
  induction f, l₁ using pass.induct with
  | case1 f => simp [pass_nil, Fed.andThen]
  | case2 f l₁ hne room now later g hfull r ih =>
    have hlen : maxOut ≤ f.out.length + l₁.length := by
      simp only [g, now, room, List.length_append, List.length_take] at hfull
      omega
    have hmin : min (maxOut - f.out.length) l₁.length = maxOut - f.out.length := by omega
    simp only [r, g, now, later, room, hmin] at ih
    have htake : (l₁ ++ l₂).take (maxOut - f.out.length) = l₁.take (maxOut - f.out.length) :=
      List.take_append_of_le_length (by omega)
    have hdrop : (l₁ ++ l₂).drop (maxOut - f.out.length) =
        l₁.drop (maxOut - f.out.length) ++ l₂ := List.drop_append_of_le_length (by omega)
    rw [pass_fills (by simp [hne]) (by rw [List.length_append]; omega), pass_fills hne hlen,
      htake, hdrop]
    simp only [Fed.andThen, ih, List.append_assoc]
  | case3 f l₁ hne room now later g hfull ih =>
    have hlen : f.out.length + l₁.length < maxOut := by
      simp only [g, now, room, List.length_append, List.length_take] at hfull
      omega
    rw [pass_fits hlen]
    simp only [Fed.andThen, List.nil_append]
    rcases Nat.lt_or_ge (f.out.length + l₁.length + l₂.length) maxOut with hfits | hfills
    · rw [pass_fits (by rw [List.length_append]; omega),
        pass_fits (by simp only [List.length_append]; omega), List.append_assoc]
    · -- The second part fills the buffer that the first went into whole.
      have htake : (l₁ ++ l₂).take (maxOut - f.out.length) =
          l₁ ++ l₂.take (maxOut - (f.out ++ l₁).length) := by
        rw [List.take_append, List.take_of_length_le (by omega), List.length_append, Nat.sub_sub]
      have hdrop : (l₁ ++ l₂).drop (maxOut - f.out.length) =
          l₂.drop (maxOut - (f.out ++ l₁).length) := by
        rw [List.drop_append, List.drop_of_length_le (by omega), List.length_append, Nat.sub_sub,
          List.nil_append]
      have hne₂ : l₂ ≠ [] := by
        rintro rfl
        simp at hfills
        omega
      rw [pass_fills (by simp [hne]) (by rw [List.length_append]; omega),
        pass_fills hne₂ (by simp only [List.length_append]; omega), htake, hdrop]
      simp only [List.append_assoc]

theorem pass_state (f : Filter) (w : List UInt8) : (f.pass w).filter.state = f.state :=
  congrArg Reader.state (f.pass_reads w).reader

/-- The loop of `feed` reads its bytes one after another. -/
theorem feedLoop_cons (f : Filter) (b : UInt8) (rest : List UInt8) :
    f.feedLoop (b :: rest) = (f.byte b).andThen (·.feedLoop rest) := by
  by_cases htext : f.state = .ground ∧ isText b
  · have hbyte : f.byte b = f.pass [b] := by
      have hb := htext.2
      simp only [isText, Bool.and_eq_true, bne_iff_ne] at hb
      simp [byte, htext.1, hb]
    rw [feedLoop, if_pos htext, hbyte]
    cases rest with
    | nil => simp [feedLoop, Fed.andThen]
    | cons c rest =>
      by_cases hc : isText c = true
      · have hcut : b :: c :: rest.takeWhile isText = [b] ++ (c :: rest.takeWhile isText) := rfl
        have hnext : (f.pass [b]).filter.state = .ground ∧ isText c :=
          ⟨(f.pass_state [b]).trans htext.1, hc⟩
        rw [List.takeWhile_cons_of_pos hc, List.dropWhile_cons_of_pos hc, hcut, pass_append]
        simp only [Fed.andThen]
        rw [feedLoop, if_pos hnext, List.append_assoc]
      · rw [List.takeWhile_cons_of_neg hc, List.dropWhile_cons_of_neg hc]
        rfl
  · rw [feedLoop, if_neg htext]
    rfl

/-- Two parts, one after the other. -/
theorem feedLoop_append (f : Filter) (l₁ l₂ : List UInt8) :
    f.feedLoop (l₁ ++ l₂) = (f.feedLoop l₁).andThen (·.feedLoop l₂) := by
  induction l₁ generalizing f with
  | nil => rw [feedLoop]; rfl
  | cons b l₁ ih =>
    rw [List.cons_append, feedLoop_cons, feedLoop_cons]
    simp only [Fed.andThen, ih, List.append_assoc]

/-- One byte more. -/
theorem feedLoop_snoc (f : Filter) (part : List UInt8) (b : UInt8) :
    f.feedLoop (part ++ [b]) = (f.feedLoop part).andThen (·.byte b) := by
  rw [feedLoop_append]
  simp only [Fed.andThen, feedLoop_cons, feedLoop, List.append_nil]

end Filter

/-! ### Characters -/

/-- What begins a character continues none. -/
theorem not_continuation_of_needs {b : UInt8} (h : (utf8Needs b).isSome) :
    isContinuation b = false := by
  have hall : ∀ n : Fin 256, (utf8Needs (UInt8.ofNat n)).isSome →
      isContinuation (UInt8.ofNat n) = false := by decide +kernel
  have hb : UInt8.ofNat b.toNat = b := UInt8.ofNat_toNat
  simpa only [hb] using hall ⟨b.toNat, b.toNat_lt⟩ (by simpa only [hb] using h)

/-- A scan that finds a character's beginning finds it from one further back, or
finds the character whole. -/
theorem scanBack_succ {back fuel : ℕ} {l : List UInt8} (h : scanBack back (fuel + 1) l ≠ 0) :
    scanBack (back + 1) fuel l = 0 ∨
      scanBack (back + 1) fuel l = scanBack back (fuel + 1) l + 1 := by
  induction l generalizing back fuel with
  | nil => exact absurd rfl h
  | cons b l ih =>
    cases fuel with
    | zero => exact Or.inl rfl
    | succ fuel =>
      by_cases hb : isContinuation b = true
      · have hscan : scanBack back (fuel + 1 + 1) (b :: l) = scanBack (back + 1) (fuel + 1) l := by
          simp [scanBack, hb]
        rw [hscan] at h ⊢
        simpa [scanBack, hb] using ih h
      · cases hneeds : utf8Needs b with
        | none => simp [scanBack, hb, hneeds]
        | some needs =>
          by_cases hback : back < needs
          · by_cases hback' : back + 1 < needs <;> simp [scanBack, hb, hneeds, hback, hback']
          · simp [scanBack, hb, hneeds, hback] at h

/-- A byte that goes on a character leaves it unfinished by one more, or ends it;
where none is unfinished, it begins none. -/
theorem incompleteUtf8_goes_on (l : List UInt8) {c : UInt8} (hc : isContinuation c) :
    incompleteUtf8 (l ++ [c]) = 0 ∨
      (incompleteUtf8 l ≠ 0 ∧ incompleteUtf8 (l ++ [c]) = incompleteUtf8 l + 1) := by
  have hscan : incompleteUtf8 (l ++ [c]) = scanBack 2 2 l.reverse := by
    rw [incompleteUtf8_eq_scanBack]
    simp [scanBack, hc]
  rw [hscan, incompleteUtf8_eq_scanBack l]
  by_cases hzero : scanBack 1 3 l.reverse = 0
  · exact Or.inl (scanBack_add_eq_zero 1 Nat.one_pos hzero)
  · exact (scanBack_succ hzero).imp_right fun h => ⟨hzero, h⟩

/-- A byte that begins a character is all there is of it. -/
theorem incompleteUtf8_begins (l : List UInt8) {c : UInt8} (hc : (utf8Needs c).isSome) :
    incompleteUtf8 (l ++ [c]) = 1 := by
  obtain ⟨needs, hneeds⟩ := Option.isSome_iff_exists.mp hc
  have htwo : 1 < needs := by
    simp only [utf8Needs] at hneeds
    grind
  rw [incompleteUtf8_eq_scanBack]
  simp [scanBack, not_continuation_of_needs hc, hneeds, htwo]

/-- What is unfinished at a text's end is, whatever comes before the text. -/
theorem incompleteUtf8_append_of_ne_zero (l : List UInt8) {m : List UInt8}
    (h : incompleteUtf8 m ≠ 0) : incompleteUtf8 (l ++ m) = incompleteUtf8 m := by
  rw [incompleteUtf8_eq_scanBack] at h
  rw [incompleteUtf8_eq_scanBack, incompleteUtf8_eq_scanBack, List.reverse_append]
  rcases scanBack_append 1 3 m.reverse [] with hsame | hbehind
  · simpa using hsame l.reverse
  · have hnone := hbehind []
    rw [List.append_nil] at hnone
    refine absurd (hnone.trans ?_) h
    cases 3 - m.reverse.length <;> rfl

/-- What came before a torn character does not tear it. -/
theorem incompleteUtf8_append_append (l : List UInt8) {m : List UInt8}
    (h : incompleteUtf8 m ≠ 0) (more : List UInt8) :
    incompleteUtf8 (l ++ m ++ more) = incompleteUtf8 (m ++ more) := by
  have hle := incompleteUtf8_le_length m
  rw [← incompleteUtf8_drop_append (l ++ m), ← incompleteUtf8_drop_append m,
    incompleteUtf8_append_of_ne_zero l h, List.length_append, List.drop_append,
    List.drop_of_length_le (by omega), List.nil_append]
  congr 3
  omega

/-- After an ASCII byte nothing is torn. -/
theorem incompleteUtf8_ascii (l : List UInt8) {b : UInt8} (hb : b < 0x80) :
    incompleteUtf8 (l ++ [b]) = 0 := by
  refine incompleteUtf8_append_ascii l ?_ ?_
  · by_contra h
    exact absurd (not_ascii_of_isContinuation (by simpa using h)) (UInt8.not_le.mpr hb)
  · by_contra h
    obtain ⟨needs, hneeds⟩ := Option.ne_none_iff_exists'.mp h
    exact absurd (not_ascii_of_utf8Needs hneeds) (UInt8.not_le.mpr hb)

/-! ### What may be given out -/

/-- What passed, `items`, may be given out now but its unfinished end: that is all
there is since the last mark, or nothing is unfinished before it. -/
def Mended (items : List Item) : Prop :=
  let since := sinceMark [] items
  let text := Item.text items
  since.length = incompleteUtf8 since ∨
    incompleteUtf8 (text.take (text.length - incompleteUtf8 since)) = 0

/-- What came since the last mark is a part of all. -/
theorem sinceMark_suffix (shown : List UInt8) (items : List Item) :
    sinceMark shown items <:+ shown ++ Item.text items := by
  induction items generalizing shown with
  | nil => simp [sinceMark, Item.text]
  | cons i items ih =>
    cases i with
    | byte b => simpa [sinceMark, Item.text] using ih (shown ++ [b])
    | mark m =>
      obtain ⟨front, hfront⟩ := ih []
      rw [List.nil_append] at hfront
      exact ⟨shown ++ front, by simp [sinceMark, Item.text, ← hfront]⟩

theorem sinceMark_snoc_byte (items : List Item) (c : UInt8) :
    sinceMark [] (items ++ [.byte c]) = sinceMark [] items ++ [c] := by
  rw [sinceMark_append]
  rfl

theorem text_snoc_byte (items : List Item) (c : UInt8) :
    Item.text (items ++ [.byte c]) = Item.text items ++ [c] := by
  rw [Item.text_append]
  rfl

/-- What ends with no torn character is mended. -/
theorem Mended.of_finished {items : List Item} (htext : incompleteUtf8 (Item.text items) = 0)
    (hsince : incompleteUtf8 (sinceMark [] items) = 0) : Mended items := by
  refine Or.inr ?_
  simp only [hsince, Nat.sub_zero, List.take_length, htext]

/-- After a byte of ASCII. -/
theorem Mended.ascii (items : List Item) (front : List UInt8) {b : UInt8} (hb : b < 0x80) :
    Mended (items ++ Item.bytes (front ++ [b])) := by
  refine .of_finished ?_ ?_
  · rw [Item.text_append, Item.text_bytes, ← List.append_assoc, incompleteUtf8_ascii _ hb]
  · rw [sinceMark_append, sinceMark_bytes, ← List.append_assoc, incompleteUtf8_ascii _ hb]

/-- A mark mends what is before it. -/
theorem Mended.mark (items : List Item) (m : List UInt8) : Mended (items ++ [.mark m]) := by
  refine Or.inl ?_
  rw [sinceMark_append]
  rfl

/-- A byte keeps what passed such that it may be given out, unless it tears it. -/
theorem Mended.byte {items : List Item} {c : UInt8} (h : Mended items)
    (hbegins : (utf8Needs c).isSome → incompleteUtf8 (sinceMark [] items) = 0)
    (hgoes : sinceMark [] items = [] → isContinuation c →
      incompleteUtf8 (Item.text items ++ [c]) = 0) : Mended (items ++ [.byte c]) := by
  have hsuffix : sinceMark [] items <:+ Item.text items := by
    simpa using sinceMark_suffix [] items
  rw [Mended, sinceMark_snoc_byte, text_snoc_byte] at *
  simp only [List.length_append, List.length_singleton]
  generalize sinceMark [] items = since at *
  generalize Item.text items = text at *
  by_cases hneeds : (utf8Needs c).isSome
  · -- The new character's first byte is held back, and those before are whole.
    have hzero := hbegins hneeds
    rw [incompleteUtf8_begins _ hneeds, Nat.add_sub_cancel, List.take_left]
    simp only [hzero, Nat.sub_zero, List.take_length] at h
    exact h.imp (fun hnil => by omega) id
  · by_cases hcont : isContinuation c = true
    · by_cases hnil : since = []
      · subst hnil
        have hone : incompleteUtf8 [c] = 0 := by
          rcases incompleteUtf8_goes_on [] hcont with h | ⟨h, -⟩
          · exact h
          · exact absurd rfl h
        refine Or.inr ?_
        rw [List.nil_append, hone, Nat.sub_zero, List.take_of_length_le (by simp)]
        exact hgoes rfl hcont
      · rcases incompleteUtf8_goes_on since hcont with hwhole | ⟨hne, hmore⟩
        · -- The character ends, or none was unfinished.
          refine Or.inr ?_
          rw [hwhole, Nat.sub_zero, List.take_of_length_le (by simp)]
          by_cases hzero : incompleteUtf8 since = 0
          · have htext : incompleteUtf8 text = 0 := by
              rcases h with h | h
              · exact absurd (List.length_eq_zero_iff.mp (h.trans hzero)) hnil
              · simpa only [hzero, Nat.sub_zero, List.take_length] using h
            exact (incompleteUtf8_goes_on text hcont).resolve_right fun hbad => hbad.1 htext
          · obtain ⟨front, rfl⟩ := hsuffix
            rw [incompleteUtf8_append_append front hzero, hwhole]
        · rw [hmore]
          refine h.imp (fun h => by omega) fun h => ?_
          rwa [Nat.add_sub_add_right, List.take_append_of_le_length (by omega)]
    · have hnone : ∀ l, incompleteUtf8 (l ++ [c]) = 0 := fun l =>
        incompleteUtf8_append_ascii l (by simpa using hcont) (by simpa using hneeds)
      exact Or.inr (by rw [hnone, Nat.sub_zero, List.take_of_length_le (by simp), hnone])

/-! ### What passes -/

/-- Bytes but ESC, and whole sequences that pass as they are. -/
inductive Settled (policy : Policy) : List UInt8 → Prop where
  | nil : Settled policy []
  | byte {t : List UInt8} {b : UInt8} : Settled policy t → b ≠ ESC → Settled policy (t ++ [b])
  | whole {t s : List UInt8} : Settled policy t → Whole policy s → Settled policy (t ++ s)

/-- Such an output leaves a new filter between sequences. -/
theorem Settled.ground {policy : Policy} {t : List UInt8} (h : Settled policy t) :
    stateAfter policy t = .ground := by
  induction h with
  | nil => rfl
  | @byte t b _ hb ih =>
    rw [stateAfter] at ih ⊢
    rw [Transducer.run_append_fst, Transducer.run_singleton]
    generalize ((reader policy).run .start t).1 = r at ih ⊢
    change (Reader.step policy r b).1.state = .ground
    simp only [Reader.step, ih, if_neg hb]
    split <;> exact ih
  | @whole t s _ hs ih =>
    rw [stateAfter] at ih ⊢
    rw [Transducer.run_append_fst, hs.run_ground ih]
    rfl

/-- What is no ASCII at the end of such an output is bytes of its own. -/
theorem Settled.dropTail {policy : Policy} {t tail : List UInt8} (htail : ∀ b ∈ tail, 0x80 ≤ b)
    (h : Settled policy (t ++ tail)) : Settled policy t := by
  induction tail using List.reverseRecOn with
  | nil => simpa using h
  | append_singleton tail b ih =>
    have hb : 0x80 ≤ b := htail b (by simp)
    refine ih (fun c hc => htail c (by simp [hc])) ?_
    rw [← List.append_assoc] at h
    generalize hx : t ++ tail ++ [b] = x at h
    cases h with
    | nil => simp at hx
    | @byte u c hsettled _ =>
      obtain ⟨rfl, -⟩ := List.append_inj' hx rfl
      exact hsettled
    | @whole u s _ hs =>
      rcases List.eq_nil_or_concat s with rfl | ⟨front, c, rfl⟩
      · exact absurd rfl hs.sequence.ne_nil
      · rw [List.concat_eq_append, ← List.append_assoc] at hx
        obtain ⟨-, hbc⟩ := List.append_inj' hx rfl
        obtain rfl : b = c := by simpa using hbc
        exact absurd (hs.sequence.last_ascii (List.concat_eq_append)) (UInt8.not_lt.mpr hb)

/-- What one step says, unless an ESC passes alone. -/
inductive Passes (policy : Policy) : List Item → Prop where
  | nothing : Passes policy []
  | byte {c : UInt8} : c ≠ ESC → Passes policy [.byte c]
  | whole {s : List UInt8} : Whole policy s → Passes policy (Item.bytes s)
  | mark (m : List UInt8) : Passes policy [.mark m]

/-- What is said is passed. -/
theorem Says.passes {policy : Policy} {items : List Item} (h : Says policy items) :
    Passes policy items := by
  cases h with
  | nothing => exact .nothing
  | text hb => exact .byte (ESC_ne_isText hb).1
  | whole hs => exact .whole hs
  | mark m => exact .mark m

/-- An ENQ inside an escape or control sequence leaves the reader where it can be. -/
theorem step_ENQ_sound (policy : Policy) {r : Reader} (hr : r.Sound)
    (hstate : r.state = .escape ∨ r.state = .escapeIntermediate ∨ r.state = .csi ∨
      r.state = .textEscape) : (Reader.step policy r ENQ).1.Sound := by
  rcases hstate with hs | hs | hs | hs
  · have hstep : (Reader.step policy r ENQ).1 = r := by simp only [Reader.step, hs]; rfl
    rwa [hstep]
  · have hstep : (Reader.step policy r ENQ).1 = r := by simp only [Reader.step, hs]; rfl
    rwa [hstep]
  · have hstep : (Reader.step policy r ENQ).1 = r := by simp only [Reader.step, hs]; rfl
    rwa [hstep]
  · have hstep : (Reader.step policy r ENQ).1 = .begin := by simp only [Reader.step, hs]; rfl
    rw [hstep]
    rfl

/-- A byte that is not alone passes what is read. -/
theorem step_passes (policy : Policy) {r : Reader} (hr : r.Sound) {b : UInt8}
    (hlone : ¬ Lone r.state b) :
    (Reader.step policy r b).1.Sound ∧ Passes policy (Reader.step policy r b).2 := by
  by_cases hstray : Stray r.state b
  · have hsaid := step_stray policy hstray
    rcases hstray with hesc | ⟨rfl, hstate⟩
    · exact absurd hesc hlone
    · rw [hsaid]
      exact ⟨step_ENQ_sound policy hr hstate, .byte (by decide)⟩
  · obtain ⟨hsound, hsays⟩ := step_says policy hr hstray
    exact ⟨hsound, hsays.passes⟩

/-- What is passed leaves the text settled. -/
theorem Passes.settled {policy : Policy} {items : List Item} (h : Passes policy items)
    {t : List UInt8} (ht : Settled policy t) : Settled policy (t ++ Item.text items) := by
  cases h with
  | nothing => simpa [Item.text] using ht
  | byte hb => exact ht.byte hb
  | whole hs => simpa using ht.whole hs
  | mark m => simpa [Item.text] using ht

/-- What is passed leaves it mended, where no character is torn. -/
theorem Passes.mended {policy : Policy} {items more : List Item} (h : Passes policy more)
    (hitems : Mended items)
    (hbegins : ∀ c, more = [.byte c] → (utf8Needs c).isSome →
      incompleteUtf8 (sinceMark [] items) = 0)
    (hgoes : ∀ c, more = [.byte c] → sinceMark [] items = [] → isContinuation c →
      incompleteUtf8 (Item.text items ++ [c]) = 0) : Mended (items ++ more) := by
  cases h with
  | nothing => simpa using hitems
  | byte hb => exact hitems.byte (hbegins _ rfl) (hgoes _ rfl)
  | @whole s hs =>
    rcases List.eq_nil_or_concat s with rfl | ⟨front, c, rfl⟩
    · exact absurd rfl hs.sequence.ne_nil
    · rw [List.concat_eq_append] at hs ⊢
      exact .ascii items front (hs.sequence.last_ascii rfl)
  | mark m => exact .mark items m

/-- None of the bytes of `x` is a lone ESC, or tears a character. -/
def Smooth (policy : Policy) (x : List UInt8) : Prop :=
  ∀ a b c, x = a ++ b :: c → ¬ Lone (stateAfter policy a) b ∧ ¬ Torn policy a b

/-- The first part is smooth too. -/
theorem Smooth.of_append {policy : Policy} {x y : List UInt8} (h : Smooth policy (x ++ y)) :
    Smooth policy x :=
  fun a b c hx => h a b (c ++ y) (by simp [hx])

/-- What is said of one byte more. -/
theorem said_snoc (policy : Policy) (x : List UInt8) (b : UInt8) :
    said policy (x ++ [b]) =
      said policy x ++ (Reader.step policy ((reader policy).run .start x).1 b).2 := by
  rw [said, Transducer.run_append_snd, Transducer.run_singleton]
  rfl

/-- A smooth word passes, settled and mended. -/
theorem run_passes {policy : Policy} {x : List UInt8} (h : Smooth policy x) :
    ((reader policy).run .start x).1.Sound ∧ Settled policy (Item.text (said policy x)) ∧
      Mended (said policy x) := by
  induction x using List.reverseRecOn with
  | nil => exact ⟨trivial, .nil, Or.inl rfl⟩
  | append_singleton x b ih =>
    obtain ⟨hsound, hsettled, hmended⟩ := ih h.of_append
    obtain ⟨hlone, htorn⟩ := h x b [] rfl
    obtain ⟨hsound', hpasses⟩ := step_passes policy hsound hlone
    rw [said_snoc, Item.text_append, Transducer.run_append, Transducer.run_singleton]
    refine ⟨hsound', hpasses.settled hsettled, hpasses.mended hmended ?_ ?_⟩
    · intro c hc hneeds
      by_contra hne
      exact htorn ⟨c, hc, Or.inl ⟨hneeds, hne⟩⟩
    · intro c hc hnil hcont
      by_contra hne
      exact htorn ⟨c, hc, Or.inr ⟨hnil, hcont, hne⟩⟩

/-! ### What a byte gives out -/

/-- Holding back `out`, the filter said the items and gave them out as `r` did. -/
inductive Fed.Emits (r : Fed) (out : List UInt8) : List Item → Prop where
  | silent : r.pieces = [] → r.filter.out = out → Emits r out []
  | pass (f : Filter) (w : List UInt8) : f.out = out → r.pieces = (f.pass w).pieces →
      r.filter.out = (f.pass w).filter.out → Emits r out (Item.bytes w)
  | mark (f : Filter) (m : List UInt8) : f.out = out → r.pieces = (f.emitMark m).pieces →
      r.filter.out = (f.emitMark m).filter.out → Emits r out [.mark m]

namespace Filter

/-- A finished sequence emits what it says. -/
theorem finish_emits (f : Filter) : f.finish.Emits f.out (f.reader.finish f.policy).2 := by
  cases hover : f.isOver with
  | true =>
    simp only [finish, Reader.finish, reader, hover, if_true]
    exact .silent rfl rfl
  | false =>
    simp only [finish, Reader.finish, reader, hover, Bool.false_eq_true, if_false, Reader.said]
    let g : Filter := { f with state := .ground, isOver := false, seq := [] }
    cases judge f.seq f.policy with
    | pass => exact .pass g f.seq rfl rfl rfl
    | drop => exact .silent rfl rfl
    | out bytes => exact .pass g bytes rfl rfl rfl
    | mark m => exact .mark g m rfl rfl rfl

/-- So does one with its last byte. -/
theorem finish_gather_emits (f : Filter) (b : UInt8) (max : ℕ) :
    (f.gather b max).finish.Emits f.out ((f.reader.gather b max).finish f.policy).2 := by
  have h := finish_emits (f.gather b max)
  rwa [gather_reader, gather_policy, gather_out] at h

/-- So does a byte after ESC. -/
theorem escapeByte_emits (f : Filter) (b : UInt8) :
    (f.escapeByte b).Emits f.out (f.reader.escapeStep f.policy b).2 := by
  simp only [escapeByte, Reader.escapeStep]
  split
  · exact .silent rfl rfl
  · cases stringKind b with
    | some kind => exact .silent rfl rfl
    | none =>
      simp only
      split
      · exact .silent rfl rfl
      · split
        · exact finish_emits { f with seq := f.seq ++ [b] }
        · split
          · exact .pass f [ESC] rfl rfl rfl
          · split
            · exact .silent rfl rfl
            · exact .pass f [b] rfl rfl rfl

/-- So does every byte. -/
theorem byte_emits (f : Filter) (b : UInt8) :
    (f.byte b).Emits f.out (Reader.step f.policy f.reader b).2 := by
  have hstate : f.reader.state = f.state := rfl
  simp only [byte, Reader.step, hstate]
  cases f.state with
  | ground =>
    simp only
    split
    · exact .silent rfl rfl
    · split
      · exact .silent rfl rfl
      · exact .pass f [b] rfl rfl rfl
  | escape => exact escapeByte_emits f b
  | escapeIntermediate =>
    simp only
    split
    · exact .silent rfl (gather_out f b maxCsi)
    · split
      · exact finish_gather_emits f b maxCsi
      · split
        · exact .silent rfl rfl
        · split
          · exact .silent rfl rfl
          · exact .pass f [b] rfl rfl rfl
  | csi =>
    simp only
    split
    · exact .silent rfl (gather_out f b maxCsi)
    · split
      · exact finish_gather_emits f b maxCsi
      · split
        · exact .silent rfl rfl
        · split
          · exact .silent rfl rfl
          · split
            · exact .pass f [b] rfl rfl rfl
            · split
              · exact .silent rfl rfl
              · exact .silent rfl rfl
  | text kind =>
    simp only
    split
    · exact .silent rfl rfl
    · split
      · exact finish_gather_emits f b maxString
      · split
        · exact .silent rfl rfl
        · exact .silent rfl (gather_out f b maxString)
  | textEscape =>
    simp only
    split
    · have h := finish_emits ((f.gather ESC maxString).gather b maxString)
      rwa [gather_reader, gather_reader, gather_policy, gather_policy, gather_out, gather_out] at h
    · exact escapeByte_emits ({ f with isOver := false, seq := [ESC], state := .escape }) b

/-! ### The room left in the buffer -/

/-- After a flush there is room. -/
theorem flush_room (f : Filter) : f.flush.filter.out.length < maxOut :=
  Nat.lt_of_le_of_lt f.length_flush_out_le (by decide)

/-- After a pass there is. -/
theorem pass_room (f : Filter) (w : List UInt8) (hf : f.out.length < maxOut) :
    (f.pass w).filter.out.length < maxOut := by
  induction f, w using pass.induct with
  | case1 f => rwa [pass_nil]
  | case2 f w hne room now later g hfull r ih =>
    rw [pass, if_neg hne]
    simp only [show maxOut ≤ (f.out ++ w.take (min (maxOut - f.out.length) w.length)).length
      from hfull, if_true]
    exact ih (flush_room g)
  | case3 f w hne room now later g hfull ih =>
    rw [pass, if_neg hne]
    simp only [show ¬ maxOut ≤ (f.out ++ w.take (min (maxOut - f.out.length) w.length)).length
      from hfull, if_false]
    exact ih (Nat.not_le.mp hfull)

/-- Nothing is held back over a mark. -/
theorem emitMark_out (f : Filter) (m : List UInt8) : (f.emitMark m).filter.out = [] := by
  simp only [emitMark]
  split
  · next h => exact h
  · rfl

/-- After a byte there is room. -/
theorem byte_room (f : Filter) (b : UInt8) (hf : f.out.length < maxOut) :
    (f.byte b).filter.out.length < maxOut := by
  have h := f.byte_emits b
  generalize (Reader.step f.policy f.reader b).2 = items at h
  cases h with
  | silent _ hout => rwa [hout]
  | pass g w hg _ hout =>
    rw [hout]
    exact pass_room g w (hg ▸ hf)
  | mark g m _ _ hout =>
    rw [hout, emitMark_out]
    decide

/-- After many of them. -/
theorem feedLoop_room (f : Filter) (part : List UInt8) (hf : f.out.length < maxOut) :
    (f.feedLoop part).filter.out.length < maxOut := by
  induction part generalizing f with
  | nil => rwa [feedLoop]
  | cons b part ih =>
    rw [feedLoop_cons]
    exact ih _ (byte_room f b hf)

/-- After every chunk. -/
theorem feedAll_room (f : Filter) (chunks : List (List UInt8)) (hf : f.out.length < maxOut) :
    (f.feedAll chunks).filter.out.length < maxOut := by
  induction chunks generalizing f with
  | nil => exact hf
  | cons chunk chunks ih => exact ih _ (flush_room _)

end Filter

/-! ### Outs one after another -/

/-- The text of two lists of pieces. -/
theorem outs_append (p q : List Piece) : outs (p ++ q) = outs p ++ outs q := by
  simp [outs_eq]

/-- Two lists of pieces that end where they should. -/
theorem EndsAll.append {policy : Policy} {before : List UInt8} {p q : List Piece}
    (hp : EndsAll policy before p) (hq : EndsAll policy (before ++ outs p) q) :
    EndsAll policy before (p ++ q) := by
  induction p generalizing before with
  | nil => simpa [outs] using hq
  | cons piece p ih =>
    cases piece with
    | mark m =>
      have hp' : EndsAll policy before p := hp
      exact ih hp' hq
    | out bytes =>
      have hp' : EndsAll policy (before ++ bytes) p := hp.2
      have hrest := ih hp' (by simpa [outs] using hq)
      refine ⟨?_, hrest⟩
      rcases hp.1.2 with hzero | ⟨m, more, rfl⟩
      · exact ⟨hp.1.1, Or.inl hzero⟩
      · exact ⟨hp.1.1, Or.inr ⟨m, more ++ q, rfl⟩⟩

/-- Each Out of them does. -/
theorem EndsAll.at_out {policy : Policy} {before bytes : List UInt8} {p q : List Piece}
    (h : EndsAll policy before (p ++ .out bytes :: q)) :
    Ends policy (before ++ outs p ++ bytes) q := by
  induction p generalizing before with
  | nil => simpa [outs] using h.1
  | cons piece p ih =>
    cases piece with
    | mark m =>
      have h' : EndsAll policy before (p ++ .out bytes :: q) := h
      exact ih h'
    | out o => simpa [outs] using ih h.2

namespace Filter

/-- A flush loses nothing. -/
theorem flush_text (f : Filter) : outs f.flush.pieces ++ f.flush.filter.out = f.out := by
  have h := congrArg Item.text f.flush_reads.items
  simpa only [Fed.items, Item.text_append, Item.text_bytes, ← outs_eq, Item.text,
    List.append_nil] using h

end Filter

/-! ### What holds while a filter is fed -/

/-- A filter that holds back the end of what passed, `items`, `before` given out. -/
structure Filter.Holds (policy : Policy) (f : Filter) (before : List UInt8) (items : List Item) :
    Prop where
  text : before ++ f.out = Item.text items
  tail : f.Tail (sinceMark [] items)
  settled : Settled policy (Item.text items)
  mended : Mended items

namespace Filter.Holds

variable {policy : Policy} {f : Filter} {before : List UInt8} {items : List Item}

/-- What is given out then ends well. -/
theorem flush_ends (h : f.Holds policy before items) : EndsAll policy before f.flush.pieces := by
  have hkeep : incompleteUtf8 (sinceMark [] items) = incompleteUtf8 f.out := by
    simpa using h.tail.same []
  have hdrop := f.flush_flushed.not_ascii
  rw [flush_out] at hdrop
  have hle := incompleteUtf8_le_length f.out
  have htext := h.text
  simp only [flush]
  split
  · trivial
  · next hat =>
    have hcut : before ++ f.out.take (f.out.length - incompleteUtf8 f.out) ++
        f.out.drop (f.out.length - incompleteUtf8 f.out) = Item.text items := by
      rw [List.append_assoc, List.take_append_drop, htext]
    have hsettled := h.settled
    rw [← hcut] at hsettled
    refine ⟨⟨?_, Or.inl ?_⟩, trivial⟩
    · have hground := (hsettled.dropTail hdrop).ground
      rw [stateAfter] at hground
      simpa [between, feedAll_state] using hground
    · rcases h.mended with hall | hzero
      · have hlen := h.tail.suffix.length_le
        omega
      · have hlen := congrArg List.length htext
        rw [List.length_append] at hlen
        rw [hkeep, ← hlen, ← htext, Nat.add_sub_assoc hle, List.take_append,
          List.take_of_length_le (by omega), Nat.add_sub_cancel_left] at hzero
        exact hzero

/-- A mark gives out what is held back before it. -/
theorem emitMark_ends (h : f.Holds policy before items) (m : List UInt8) :
    EndsAll policy before (f.emitMark m).pieces := by
  have hflush := h.flush_ends
  simp only [emitMark]
  split
  · exact hflush.append trivial
  · refine hflush.append ⟨⟨?_, Or.inr ⟨m, [], rfl⟩⟩, trivial⟩
    have hground := h.settled.ground
    rw [← h.text, ← f.flush_text, ← List.append_assoc, stateAfter] at hground
    simpa [between, feedAll_state] using hground

/-- What fits in the buffer, passed, is given out only once the buffer is full. -/
theorem pass_ends {w : List UInt8} (hout : before ++ f.out = Item.text items)
    (htail : f.Tail (sinceMark [] items)) (hsettled : Settled policy (Item.text items ++ w))
    (hmended : Mended (items ++ Item.bytes w)) (hfit : f.out.length + w.length ≤ maxOut) :
    EndsAll policy before (f.pass w).pieces := by
  rcases Nat.lt_or_eq_of_le hfit with hlt | hfull
  · rw [pass_fits hlt]
    trivial
  · by_cases hw : w = []
    · rw [hw, pass_nil]
      trivial
    · have hpushed : Filter.Holds policy { f with out := f.out ++ w } before
          (items ++ Item.bytes w) := by
        refine ⟨?_, ?_, ?_, hmended⟩
        · rw [Item.text_append, Item.text_bytes, ← hout, List.append_assoc]
        · rw [sinceMark_append]
          exact (f.push_reads w).tail _ htail
        · rwa [Item.text_append, Item.text_bytes]
      rw [pass_fills hw (by omega), List.take_of_length_le (by omega),
        List.drop_of_length_le (by omega)]
      simpa only [Fed.andThen, pass_nil, List.append_nil] using hpushed.flush_ends

end Filter.Holds

/-- A filter fed from new has read `x`. -/
def Fed.HasRead (r : Fed) (policy : Policy) (x : List UInt8) : Prop :=
  r.Reads (Filter.new policy) ((reader policy).run .start x)

/-- It has, and gave out pieces that all end well. -/
structure Fed.Well (r : Fed) (policy : Policy) (x : List UInt8) : Prop where
  reads : r.HasRead policy x
  ends : EndsAll policy [] r.pieces

namespace Fed

variable {policy : Policy} {x : List UInt8} {r : Fed}

/-- What came out and what is held back is what was said. -/
theorem HasRead.text (h : r.HasRead policy x) :
    outs r.pieces ++ r.filter.out = Item.text (said policy x) := by
  have hitems := congrArg Item.text h.items
  simpa only [Fed.items, Item.text_append, Item.text_bytes, ← outs_eq, Filter.new, List.nil_append,
    Item.bytes_nil, said] using hitems

/-- What is held back is of the text since the last mark. -/
theorem HasRead.since (h : r.HasRead policy x) :
    r.filter.Tail (sinceMark [] (said policy x)) :=
  h.tail [] (Filter.new_tail policy)

/-- One byte more. -/
theorem HasRead.snoc (h : r.HasRead policy x) (b : UInt8) :
    (r.andThen (·.byte b)).HasRead policy (x ++ [b]) := by
  have hbyte := r.filter.byte_reads b
  rw [h.policy, h.reader] at hbyte
  rw [HasRead, Transducer.run_append, Transducer.run_singleton]
  exact h.trans hbyte

/-- One part more. -/
theorem HasRead.loop (h : r.HasRead policy x)
    (part : List UInt8) :
    (r.andThen (·.feedLoop part)).HasRead policy (x ++ part) := by
  have hloop := r.filter.feedLoop_reads part
  rw [h.policy, h.reader] at hloop
  rw [HasRead, Transducer.run_append]
  exact h.trans hloop

/-- Of a smooth word the filter holds back no more than it should. -/
theorem HasRead.holds (h : r.HasRead policy x)
    (hsmooth : Smooth policy x) :
    r.filter.Holds policy (outs r.pieces) (said policy x) :=
  ⟨h.text, h.since, (run_passes hsmooth).2.1, (run_passes hsmooth).2.2⟩

/-- One byte more: what it gives out ends well, unless a sequence is cut. -/
theorem Well.byte (h : r.Well policy x) {b : UInt8} (hsmooth : Smooth policy (x ++ [b]))
    (hcut : ¬ Cut r.filter b) (hroom : r.filter.out.length < maxOut) :
    (r.andThen (·.byte b)).Well policy (x ++ [b]) := by
  refine ⟨h.reads.snoc b, h.ends.append ?_⟩
  rw [List.nil_append]
  have hholds := h.reads.holds hsmooth.of_append
  have hafter := (run_passes hsmooth).2
  have hsaid := said_snoc policy x b
  have hemits := r.filter.byte_emits b
  have hpolicy : r.filter.policy = policy := h.reads.policy
  rw [Cut] at hcut
  rw [hpolicy, h.reads.reader] at hemits hcut
  have hpasses := (step_passes policy (run_passes hsmooth.of_append).1 (hsmooth x b [] rfl).1).2
  generalize (Reader.step policy ((reader policy).run .start x).1 b).2 = items at *
  rw [hsaid, Item.text_append] at hafter
  cases hemits with
  | silent hpieces _ =>
    rw [hpieces]
    trivial
  | pass g w hg hpieces _ =>
    have hfit : g.out.length + w.length ≤ maxOut := by
      by_contra hover
      rw [hg] at hover
      exact hcut ⟨w, rfl, by omega, by omega⟩
    rw [Item.text_bytes] at hafter
    rw [hpieces]
    exact Filter.Holds.pass_ends (hg ▸ hholds.text)
      ⟨hg ▸ hholds.tail.suffix, by simpa only [hg] using hholds.tail.same⟩ hafter.1 hafter.2 hfit
  | mark g m hg hpieces _ =>
    have hholds' : g.Holds policy (outs r.pieces) (said policy x) :=
      ⟨hg ▸ hholds.text, ⟨hg ▸ hholds.tail.suffix, by simpa only [hg] using hholds.tail.same⟩,
        hholds.settled, hholds.mended⟩
    rw [hpieces]
    exact hholds'.emitMark_ends m

/-- A part that is never cut short ends well. -/
theorem Well.loop (h : r.Well policy x) (hroom : r.filter.out.length < maxOut)
    {part : List UInt8} (hsmooth : Smooth policy (x ++ part))
    (hcut : ∀ front b rest, part = front ++ b :: rest → ¬ Cut (r.filter.feedLoop front).filter b) :
    (r.andThen (·.feedLoop part)).Well policy (x ++ part) := by
  induction part using List.reverseRecOn with
  | nil =>
    simpa only [Fed.andThen, Filter.feedLoop, List.append_nil] using h
  | append_singleton part b ih =>
    rw [← List.append_assoc] at hsmooth ⊢
    have hpart := ih hsmooth.of_append fun front c rest hfront =>
      hcut front c (rest ++ [b]) (by simp [hfront])
    have hbyte := hpart.byte hsmooth (hcut part b [] rfl)
      (Filter.feedLoop_room _ _ hroom)
    simpa only [Fed.andThen, Filter.feedLoop_snoc, List.append_assoc] using hbyte

/-- So does a chunk. -/
theorem Well.feed (h : r.Well policy x) (hroom : r.filter.out.length < maxOut)
    {chunk : List UInt8} (hsmooth : Smooth policy (x ++ chunk))
    (hcut : ∀ front b rest, chunk = front ++ b :: rest → ¬ Cut (r.filter.feedLoop front).filter b) :
    (r.andThen (·.feed chunk)).Well policy (x ++ chunk) := by
  have hloop := h.loop hroom hsmooth hcut
  have hflush := (hloop.reads.holds hsmooth).flush_ends
  refine ⟨?_, ?_⟩
  · have hfeed := r.filter.feed_reads chunk
    rw [h.reads.policy, h.reads.reader] at hfeed
    rw [HasRead, Transducer.run_append]
    exact h.reads.trans hfeed
  · simpa only [Fed.andThen, Filter.feed, List.append_assoc] using hloop.ends.append hflush

end Fed

/-- Fed in any chunks, as long as no ESC passes alone, no sequence is cut and no
character is torn, every piece ends well. -/
theorem feedAll_well {policy : Policy} {x : List UInt8} (hsmooth : Smooth policy x)
    (hcut : ∀ chunks part b, chunks.flatten ++ part ++ [b] <+: x → ¬ Cut (midway policy chunks part) b)
    (chunks : List (List UInt8)) (hchunks : chunks.flatten <+: x) :
    ((Filter.new policy).feedAll chunks).Well policy chunks.flatten := by
  induction chunks using List.reverseRecOn with
  | nil => exact ⟨Filter.feedAll_reads _ [], trivial⟩
  | append_singleton chunks chunk ih =>
    rw [List.flatten_append, List.flatten_singleton] at hchunks ⊢
    have hbefore := ih ((List.prefix_append _ _).trans hchunks)
    obtain ⟨rest, rfl⟩ := hchunks
    rw [Filter.feedAll_snoc]
    refine hbefore.feed (Filter.feedAll_room _ _ (Nat.zero_lt_of_lt (Nat.lt_succ_self _)))
      hsmooth.of_append ?_
    intro front b more hfront
    refine hcut chunks front b ⟨more ++ rest, ?_⟩
    simp [hfront]

/-! ### Where it breaks -/

/-- What was given out last, unless a mark came last or nothing did since. -/
theorem Fed.HasRead.at_end {policy : Policy} {x : List UInt8} {r : Fed}
    (h : r.HasRead policy x) (hends : EndsAll policy [] r.pieces)
    (hout : r.filter.out ≠ sinceMark [] (said policy x)) : Ends policy (outs r.pieces) [] := by
  have hitems : said policy x = r.pieces.flatMap Piece.items ++ Item.bytes r.filter.out := by
    have hread := h.items
    simpa [Fed.items, Filter.new, said] using hread.symm
  rcases List.eq_nil_or_concat r.pieces with hnil | ⟨front, last, hlast⟩
  · rw [hitems, hnil] at hout
    simp at hout
  · rw [List.concat_eq_append] at hlast
    cases last with
    | mark m =>
      rw [hitems, hlast, List.flatMap_append, sinceMark_append, sinceMark_append] at hout
      simp [Piece.items, sinceMark] at hout
    | out bytes =>
      rw [hlast] at hends ⊢
      simpa [outs_append, outs] using hends.at_out

/-- Fed `x` at once, what a filter gave out is what passed but its unfinished end. -/
theorem ends_once {policy : Policy} {x : List UInt8} (kept given : List UInt8)
    (hends : EndsAll policy [] ((Filter.new policy).feedAll [x]).pieces)
    (hsince : sinceMark [] (said policy x) ≠ kept)
    (hkept : (sinceMark [] (said policy x)).drop ((sinceMark [] (said policy x)).length -
      incompleteUtf8 (sinceMark [] (said policy x))) = kept)
    (hgiven : Item.text (said policy x) = given ++ kept) : Ends policy given [] := by
  have hreads : ((Filter.new policy).feedAll [x]).HasRead policy x := by
    have h := (Filter.new policy).feedAll_reads [x]
    rwa [List.flatten_singleton] at h
  have hout := hreads.since.out_eq (Filter.feedAll_flushed (Filter.new policy) rfl [x])
  rw [hkept] at hout
  have htext := hreads.text
  rw [hout, hgiven] at htext
  rw [← List.append_cancel_right htext]
  exact hreads.at_end hends (hout ▸ hsince.symm)

/-- Where every Out ends well no ESC stands alone. -/
theorem not_lone_of_ends {policy : Policy} {x : List UInt8} {b : UInt8}
    (hsettled : Settled policy (Item.text (said policy x)))
    (hends : EndsAll policy [] ((Filter.new policy).feedAll [x ++ [b]]).pieces) :
    ¬ Lone (stateAfter policy x) b := by
  rintro ⟨rfl, hstate⟩
  have hstray : Stray ((reader policy).run .start x).1.state ESC := Or.inl ⟨rfl, hstate⟩
  have hsaid := said_snoc policy x ESC
  rw [step_stray policy hstray] at hsaid
  have hlast : ∀ l, incompleteUtf8 (l ++ [ESC]) = 0 := fun l => incompleteUtf8_ascii l (by decide)
  have hend := ends_once [] (Item.text (said policy x) ++ [ESC]) hends
    (by simp [hsaid, sinceMark_snoc_byte]) (by simp [hsaid, sinceMark_snoc_byte, hlast])
    (by rw [hsaid, text_snoc_byte, List.append_nil])
  have hground := hsettled.ground
  rw [stateAfter] at hground
  have hbetween := hend.1
  simp only [Filter.between, feedAll_state, List.flatten_cons, List.flatten_nil, List.append_nil,
    Transducer.run_append_fst, Transducer.run_singleton, step_ground_ESC policy hground] at hbetween
  simp [Reader.begin] at hbetween

/-- Nor is a character torn. -/
theorem not_torn_of_ends {policy : Policy} {x : List UInt8} {b : UInt8}
    (hends : EndsAll policy [] ((Filter.new policy).feedAll [x ++ [b]]).pieces) :
    ¬ Torn policy x b := by
  rintro ⟨c, hstep, hcase⟩
  have hsaid := said_snoc policy x b
  rw [hstep] at hsaid
  rcases hcase with ⟨hneeds, hne⟩ | ⟨hnil, hcont, hne⟩
  · have hsince : sinceMark [] (said policy x) ≠ [] := by
      intro h
      rw [h] at hne
      exact hne rfl
    have hend := ends_once [c] (Item.text (said policy x)) hends
      (by simp [hsaid, sinceMark_snoc_byte, hsince])
      (by simp [hsaid, sinceMark_snoc_byte, incompleteUtf8_begins _ hneeds])
      (by rw [hsaid, text_snoc_byte])
    obtain ⟨front, hfront⟩ := sinceMark_suffix [] (said policy x)
    rw [List.nil_append] at hfront
    rw [← incompleteUtf8_append_of_ne_zero front hne, hfront] at hne
    exact hne (hend.2.resolve_right fun ⟨_, _, h⟩ => by cases h)
  · have hone : incompleteUtf8 [c] = 0 := by
      rcases incompleteUtf8_goes_on [] hcont with h | ⟨h, -⟩
      · exact h
      · exact absurd rfl h
    have hend := ends_once [] (Item.text (said policy x) ++ [c]) hends
      (by simp [hsaid, sinceMark_snoc_byte])
      (by simp [hsaid, sinceMark_snoc_byte, hnil, hone])
      (by rw [hsaid, text_snoc_byte, List.append_nil])
    exact hne (hend.2.resolve_right fun ⟨_, _, h⟩ => by cases h)

/-- A cut falls inside the sequence: the piece that fills the buffer ends there. -/
theorem cut_inside {f : Filter} {s : List UInt8} {c : UInt8} {more : List UInt8}
    (hs : s = c :: more) (hc : c < 0x80) (hroom : f.out.length < maxOut)
    (hlong : maxOut < f.out.length + s.length) :
    ∃ front rest q, s = front ++ rest ∧ front ≠ [] ∧ rest ≠ [] ∧
      (f.pass s).pieces = .out (f.out ++ front) :: q := by
  let room := maxOut - f.out.length
  let g : Filter := { f with out := f.out ++ s.take room }
  have hlen : g.out.length = maxOut := by
    simp only [g, room, List.length_append, List.length_take]
    omega
  have hkeep : incompleteUtf8 g.out < room := by
    -- What is held back is no ASCII, and the sequence begins with it.
    by_contra hall
    have hdrop := g.flush_flushed.not_ascii
    have hat : maxOut - incompleteUtf8 g.out ≤ f.out.length := by omega
    rw [Filter.flush_out, hlen] at hdrop
    generalize maxOut - incompleteUtf8 g.out = at_ at hdrop hat
    refine absurd (hdrop c ?_) (UInt8.not_le.mpr hc)
    have hout : g.out = f.out ++ c :: more.take (room - 1) := by
      simp only [g, hs]
      rw [show room = room - 1 + 1 by omega, List.take_succ_cons, Nat.add_sub_cancel]
    rw [hout, List.drop_append_of_le_length hat]
    simp
  have hthree := incompleteUtf8_le_three g.out
  have hmax : maxOut = 16384 := rfl
  refine ⟨s.take (room - incompleteUtf8 g.out), s.drop (room - incompleteUtf8 g.out),
    (g.flush.filter.pass (s.drop room)).pieces, (List.take_append_drop _ _).symm, ?_, ?_, ?_⟩
  · rw [hs]
    simp only [ne_eq, List.take_eq_nil_iff, not_or]
    exact ⟨by omega, by simp⟩
  · simp only [ne_eq, List.drop_eq_nil_iff]
    omega
  · have hflush : g.flush.pieces =
        [.out (g.out.take (g.out.length - incompleteUtf8 g.out))] := by
      simp only [Filter.flush]
      rw [if_neg (by omega)]
    have htake : g.out.take (g.out.length - incompleteUtf8 g.out) =
        f.out ++ s.take (room - incompleteUtf8 g.out) := by
      rw [hlen, List.take_append, List.take_of_length_le (by omega), List.take_take]
      congr 2
      omega
    rw [Filter.pass_fills (by simp [hs]) (by omega)]
    simp only [Fed.andThen]
    rw [show Filter.flush { f with out := f.out ++ s.take (maxOut - f.out.length) } = g.flush from rfl,
      hflush, htake, List.singleton_append]

/-- Nor is an Out cut at its most. -/
theorem not_cut_of_ends {policy : Policy} {chunks : List (List UInt8)} {part : List UInt8} {b : UInt8}
    (hsmooth : Smooth policy (chunks.flatten ++ part ++ [b]))
    (hends : EndsAll policy [] ((Filter.new policy).feedAll (chunks ++ [part ++ [b]])).pieces) :
    ¬ Cut (midway policy chunks part) b := by
  let r : Fed := ((Filter.new policy).feedAll chunks).andThen (·.feedLoop part)
  have hread : r.HasRead policy (chunks.flatten ++ part) :=
    Fed.HasRead.loop ((Filter.new policy).feedAll_reads chunks) part
  have hroom : r.filter.out.length < maxOut :=
    Filter.feedLoop_room _ _ (Filter.feedAll_room _ _ (Nat.zero_lt_of_lt (Nat.lt_succ_self _)))
  have hholds := hread.holds hsmooth.of_append
  have hpasses := (step_passes policy (run_passes hsmooth.of_append).1
    (hsmooth (chunks.flatten ++ part) b [] rfl).1).2
  rintro ⟨w, hsaid, htwo, hlong⟩
  change (Reader.step r.filter.policy r.filter.reader b).2 = Item.bytes w at hsaid
  change maxOut < r.filter.out.length + w.length at hlong
  have hemits := r.filter.byte_emits b
  have hpolicy : r.filter.policy = policy := hread.policy
  rw [hsaid] at hemits
  rw [hpolicy, hread.reader] at hsaid
  rw [hsaid] at hpasses
  have hwhole : Whole policy w := by
    generalize hitems : Item.bytes w = items at hpasses
    cases hpasses with
    | nothing =>
      obtain rfl := bytes_injective (m := []) hitems
      simp at htwo
    | @byte c _ =>
      obtain rfl := bytes_injective (m := [c]) hitems
      simp at htwo
    | whole hs =>
      obtain rfl := bytes_injective hitems
      exact hs
    | mark m => exact absurd (hitems ▸ List.mem_singleton_self _) (mark_not_mem_bytes m w)
  obtain ⟨g, hg, hpieces⟩ : ∃ g : Filter, g.out = r.filter.out ∧
      (r.filter.byte b).pieces = (g.pass w).pieces := by
    generalize hitems : Item.bytes w = items at hemits
    cases hemits with
    | silent =>
      obtain rfl := bytes_injective (m := []) hitems
      simp at htwo
    | pass g w' hg hpieces _ =>
      obtain rfl := bytes_injective hitems
      exact ⟨g, hg, hpieces⟩
    | mark g m => exact absurd (hitems ▸ List.mem_singleton_self _) (mark_not_mem_bytes m w)
  obtain ⟨c, more, hhead⟩ := hwhole.sequence.head
  obtain ⟨front, rest, q, hw, hfront, hrest, hpass⟩ :=
    cut_inside hhead (by decide) (hg ▸ hroom) (hg ▸ hlong)
  have hall : ((Filter.new policy).feedAll (chunks ++ [part ++ [b]])).pieces =
      r.pieces ++ .out (g.out ++ front) ::
        (q ++ (r.filter.byte b).filter.flush.pieces) := by
    rw [Filter.feedAll_snoc]
    simp only [r, Fed.andThen, Filter.feed, Filter.feedLoop_snoc, List.append_assoc] at hpieces ⊢
    rw [hpieces, hpass]
    rfl
  rw [hall] at hends
  have hbetween := hends.at_out.1
  rw [List.nil_append, hg, ← List.append_assoc, hread.text] at hbetween
  have hground := hholds.settled.ground
  rw [stateAfter] at hground
  have hkept : ((reader policy).run ((reader policy).run .start
      (Item.text (said policy (chunks.flatten ++ part)))).1 w).2 ≠ [] := by
    rw [hwhole.run_ground hground, hhead]
    simp
  obtain ⟨r', hinside, -, hstate, -⟩ :=
    hwhole.sequence.run_prefix policy hground hkept hw hfront hrest
  simp only [Filter.between, feedAll_state, List.flatten_cons, List.flatten_nil, List.append_nil,
    Transducer.run_append_fst, hinside, decide_eq_true_eq] at hbetween
  exact hstate hbetween

/-- **Output pieces end between sequences and characters.** Whatever the feeds, all
of a filter's outs do exactly when no ESC is read straight after an ESC, no sequence
passes that is longer than its room, and no character is torn. -/
theorem pieces_end_iff (policy : Policy) (x : List UInt8) :
    (∀ chunks : List (List UInt8), chunks.flatten <+: x →
        EndsAll policy [] ((Filter.new policy).feedAll chunks).pieces) ↔
      (∀ a b c, x = a ++ b :: c → ¬ Lone (stateAfter policy a) b ∧ ¬ Torn policy a b) ∧
        ∀ chunks part b, chunks.flatten ++ part ++ [b] <+: x →
          ¬ Cut (midway policy chunks part) b := by
  constructor
  · intro h
    have hsmooth : Smooth policy x := by
      induction x using List.reverseRecOn with
      | nil => exact fun a b c hx => absurd hx (by simp)
      | append_singleton x b ih =>
        have hbefore := ih fun chunks hchunks => h chunks (hchunks.trans (List.prefix_append _ _))
        intro a b' c hx
        rcases List.eq_nil_or_concat c with rfl | ⟨front, d, rfl⟩
        · obtain ⟨rfl, hbb⟩ := List.append_inj' hx rfl
          obtain rfl : b = b' := by simpa using hbb
          have hends := h [x ++ [b]] (by simp)
          exact ⟨not_lone_of_ends (run_passes hbefore).2.1 hends, not_torn_of_ends hends⟩
        · rw [List.concat_eq_append, ← List.cons_append, ← List.append_assoc] at hx
          exact hbefore a b' front (List.append_inj' hx rfl).1
    refine ⟨hsmooth, fun chunks part b hprefix => ?_⟩
    have hends := h (chunks ++ [part ++ [b]]) (by simpa using hprefix)
    obtain ⟨rest, rfl⟩ := hprefix
    exact not_cut_of_ends hsmooth.of_append hends
  · rintro ⟨hsmooth, hcut⟩ chunks hchunks
    exact (feedAll_well hsmooth hcut chunks hchunks).ends

/-- `ESC ESC`: the first passes alone, and whatever is written next goes on it. -/
theorem piece_ends_in_escape :
    ¬ EndsAll ⟨.drop, true, true⟩ []
      ((Filter.new ⟨.drop, true, true⟩).feedAll [[ESC, ESC]]).pieces :=
  fun h => not_lone_of_ends (x := [ESC]) .nil h ⟨rfl, Or.inl rfl⟩

end Koh.Stream
