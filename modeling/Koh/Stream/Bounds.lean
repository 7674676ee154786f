import Koh.Stream.Pieces

/-!
# What a filter holds and gives out is bounded

Whatever a program writes, and however it is split, a filter gathers no more of a
sequence than its bound, holds back no more than an unfinished character, and
gives out no empty piece and none over `maxOut` bytes. A sequence past its bound
is dropped to its end, and what follows passes as if it had not been there.

## Main definitions

- `Reader.Within`: what a reader gathered is within the bound of where it is
- `Sized`: pieces of one to `maxOut` bytes
- `Overlong`: a sequence past its bound, and how it ends

## Main results

- `Filter.feedAll_sized`: the pieces of any feeds are sized
- `Overlong.said_eq`: a sequence past its bound says nothing of its own
- `filter_bounded`: all the bounds, for any feeds
-/

namespace Koh.Stream

open Koh.Stream.Filter (isEscapeFinal)

/-! ### What is gathered -/

/-- What the reader gathered is within the bound of where it is. -/
def Reader.Within (r : Reader) : Prop :=
  match r.state with
  | .ground | .text _ | .textEscape => r.seq.length ≤ maxString
  | .escape => r = .begin
  | .escapeIntermediate | .csi => r.seq.length ≤ maxCsi

/-- What is gathered is a string at most. -/
theorem Reader.Within.length_le {r : Reader} (h : r.Within) : r.seq.length ≤ maxString := by
  have hmax : maxCsi ≤ maxString := by decide
  cases hstate : r.state with
  | escape =>
    simp only [Within, hstate] at h
    subst h
    decide
  | escapeIntermediate => exact le_trans (by simpa only [Within, hstate] using h) hmax
  | csi => exact le_trans (by simpa only [Within, hstate] using h) hmax
  | _ => simpa only [Within, hstate] using h

/-- Outside control strings the bound is that of a control sequence. -/
theorem Reader.Within.length_le_csi {r : Reader} (h : r.Within)
    (hstate : r.state = .escape ∨ r.state = .escapeIntermediate ∨ r.state = .csi) :
    r.seq.length ≤ maxCsi := by
  rcases hstate with hstate | hstate | hstate <;> simp only [Within, hstate] at h
  · subst h
    decide
  · exact h
  · exact h

/-- A byte more is dropped past the most. -/
theorem gather_length_le {r : Reader} {b : UInt8} {max : ℕ} (h : r.seq.length ≤ max) :
    (r.gather b max).seq.length ≤ max := by
  simp only [Reader.gather]
  split
  · exact Nat.zero_le max
  · split
    · exact h
    · rw [List.length_append, List.length_singleton]
      omega

/-- A sequence that begins is within its bound. -/
theorem escapeStep_within (policy : Policy) (b : UInt8) :
    (Reader.begin.escapeStep policy b).1.Within := by
  cases hopens : opens b with
  | some state =>
    rw [escapeStep_opens policy _ hopens]
    rcases opens_ne_ground hopens with rfl | rfl | ⟨kind, rfl⟩ <;>
      simp [Reader.Within, Reader.push, Reader.begin, maxCsi, maxString]
  | none =>
    by_cases hfinal : isEscapeFinal b = true
    · rw [escapeStep_final policy _ hopens hfinal]
      exact Nat.zero_le _
    · rw [(escapeStep_inside policy _ hopens (by simpa using hfinal)).2]
      split
      · rfl
      · split
        · simp [Reader.Within, Reader.goto, Reader.begin, maxString]
        · rfl

/-- Every byte leaves the reader within it. -/
theorem step_within (policy : Policy) {r : Reader} (h : r.Within) (b : UInt8) :
    (Reader.step policy r b).1.Within := by
  have hlen := h.length_le
  cases hstate : r.state with
  | ground =>
    simp only [Reader.step, hstate]
    split
    · rfl
    · split <;> exact h
  | escape =>
    simp only [Reader.Within, hstate] at h
    subst h
    exact escapeStep_within policy b
  | escapeIntermediate =>
    have hcsi : r.seq.length ≤ maxCsi := by simpa only [Reader.Within, hstate] using h
    simp only [Reader.step, hstate]
    split
    · simpa only [Reader.Within, gather_state, hstate] using gather_length_le hcsi
    · split
      · exact Nat.zero_le _
      · split
        · rfl
        · split
          · exact hlen
          · exact h
  | csi =>
    have hcsi : r.seq.length ≤ maxCsi := by simpa only [Reader.Within, hstate] using h
    simp only [Reader.step, hstate]
    split
    · simpa only [Reader.Within, gather_state, hstate] using gather_length_le hcsi
    · split
      · exact Nat.zero_le _
      · split
        · rfl
        · split
          · exact hlen
          · split
            · exact h
            · split
              · exact h
              · exact hlen
  | text kind =>
    simp only [Reader.step, hstate]
    split
    · exact hlen
    · split
      · exact Nat.zero_le _
      · split
        · exact hlen
        · simpa only [Reader.Within, gather_state, hstate] using gather_length_le hlen
  | textEscape =>
    simp only [Reader.step, hstate]
    split
    · exact Nat.zero_le _
    · exact escapeStep_within policy b

/-- So does every word. -/
theorem run_within (policy : Policy) (x : List UInt8) :
    ((reader policy).run .start x).1.Within :=
  (reader policy).run_invariant (P := Reader.Within) (fun _ b hs => step_within policy hs b)
    .start x (show (0 : ℕ) ≤ maxString from Nat.zero_le _)

/-! ### What is given out -/

/-- Each out among the pieces has one to `maxOut` bytes. -/
def Sized (pieces : List Piece) : Prop :=
  ∀ bytes, .out bytes ∈ pieces → 1 ≤ bytes.length ∧ bytes.length ≤ maxOut

theorem Sized.nil : Sized [] := fun _ h => absurd h List.not_mem_nil

/-- Two lists of pieces. -/
theorem Sized.append {p q : List Piece} (hp : Sized p) (hq : Sized q) : Sized (p ++ q) :=
  fun bytes h => (List.mem_append.mp h).elim (hp bytes) (hq bytes)

namespace Filter

/-- What is flushed is one Out at most. -/
theorem flush_sized {f : Filter} (hf : f.out.length ≤ maxOut) : Sized f.flush.pieces := by
  simp only [flush]
  split
  · exact .nil
  · intro bytes h
    obtain rfl : bytes = f.out.take (f.out.length - incompleteUtf8 f.out) := by simpa using h
    rw [List.length_take]
    omega

/-- The buffer never holds more than `maxOut` bytes as its chunks fill. -/
theorem pass_sized {f : Filter} (w : List UInt8) (hf : f.out.length < maxOut) :
    Sized (f.pass w).pieces := by
  induction f, w using pass.induct with
  | case1 f =>
    rw [pass_nil]
    exact .nil
  | case2 f w hne room now later g hfull r ih =>
    rw [pass, if_neg hne]
    simp only [show maxOut ≤ (f.out ++ w.take (min (maxOut - f.out.length) w.length)).length
      from hfull, if_true]
    refine Sized.append (flush_sized ?_) (ih (flush_room g))
    simp only [List.length_append, List.length_take]
    omega
  | case3 f w hne room now later g hfull ih =>
    rw [pass, if_neg hne]
    simp only [show ¬ maxOut ≤ (f.out ++ w.take (min (maxOut - f.out.length) w.length)).length
      from hfull, if_false]
    exact ih (Nat.not_le.mp hfull)

/-- A mark is of its own length. -/
theorem emitMark_sized {f : Filter} (m : List UInt8) (hf : f.out.length < maxOut) :
    Sized (f.emitMark m).pieces := by
  have hflush := flush_sized hf.le
  simp only [emitMark]
  split
  · exact hflush.append fun bytes h => by simp at h
  · next hrest =>
    refine hflush.append fun bytes h => ?_
    obtain rfl : bytes = f.flush.filter.out := by simpa using h
    exact ⟨List.length_pos_iff.mpr hrest, (flush_room f).le⟩

/-- A byte cuts an Out at its most. -/
theorem byte_sized {f : Filter} (b : UInt8) (hf : f.out.length < maxOut) :
    Sized (f.byte b).pieces := by
  have h := f.byte_emits b
  generalize (Reader.step f.policy f.reader b).2 = items at h
  cases h with
  | silent hpieces => exact hpieces ▸ .nil
  | pass g w hg hpieces =>
    rw [hpieces]
    exact pass_sized w (hg ▸ hf)
  | mark g m hg hpieces =>
    rw [hpieces]
    exact emitMark_sized m (hg ▸ hf)

/-- So do all of a chunk. -/
theorem feedLoop_sized {f : Filter} (part : List UInt8) (hf : f.out.length < maxOut) :
    Sized (f.feedLoop part).pieces := by
  induction part generalizing f with
  | nil =>
    rw [feedLoop]
    exact .nil
  | cons b part ih =>
    rw [feedLoop_cons]
    exact (byte_sized b hf).append (ih (byte_room f b hf))

/-- Every out of any feeds has one to `maxOut` bytes. -/
theorem feedAll_sized {f : Filter} (chunks : List (List UInt8)) (hf : f.out.length < maxOut) :
    Sized (f.feedAll chunks).pieces := by
  induction chunks generalizing f with
  | nil => exact .nil
  | cons chunk chunks ih =>
    refine Sized.append (Sized.append (feedLoop_sized chunk hf) (flush_sized ?_)) (ih ?_)
    · exact (feedLoop_room f chunk hf).le
    · exact flush_room _

end Filter

/-! ### A sequence past its bound -/

/-- A byte inside a sequence that is not of it: it is done as it comes, and the sequence goes on. -/
def isControlIn (state : State) (b : UInt8) : Bool :=
  match state with
  | .csi => (b ≤ 0x1f || b = 0x7f) && b ≠ ESC && b ≠ CAN && b ≠ SUB
  | .escapeIntermediate => (b ≤ 0x1f || 0x7f ≤ b) && b ≠ ESC && b ≠ CAN && b ≠ SUB
  | _ => false

/-- Whether such a byte is passed: a DEL in a control sequence is ignored. -/
def isDoneIn (state : State) (b : UInt8) : Bool :=
  isControlIn state b && !(state = .csi && b = 0x7f)

/-- How a sequence in `state` ends, `rest` following: whole, cancelled, malformed, or by an ESC that
begins another. -/
inductive EndsBy (state : State) : List UInt8 → List UInt8 → Prop where
  | whole {final rest : List UInt8} : closes state final → EndsBy state final rest
  | cancel {b : UInt8} {rest : List UInt8} : b = CAN ∨ b = SUB → EndsBy state [b] rest
  | malformed {b : UInt8} {rest : List UInt8} : state = .csi → 0x80 ≤ b → EndsBy state [b] rest
  | escape {more : List UInt8} : ((∃ kind, state = .text kind) → more.head? ≠ some 0x5c) →
      EndsBy state [] (ESC :: more)

/-- A longer sequence of more bytes than its bound, what is inside it but not of it left out. -/
structure Overlong (c : UInt8) (state : State) (body final rest : List UInt8) : Prop where
  starts : opens c = some state
  inside : ∀ b ∈ body, gathers state b ∨ isControlIn state b
  ends : EndsBy state final rest
  long : bound state < 2 + (body.filter (gathers state)).length + final.length

/-- A control inside a sequence goes on alone, and leaves it. -/
theorem step_control (policy : Policy) {r : Reader} {b : UInt8} (h : isControlIn r.state b) :
    Reader.step policy r b = (r, if r.state = .csi ∧ b = 0x7f then [] else [.byte b]) := by
  cases hstate : r.state with
  | csi =>
    simp only [hstate, isControlIn, Bool.and_eq_true, Bool.or_eq_true, decide_eq_true_eq] at h
    obtain ⟨⟨⟨hcontrol, hesc⟩, hcan⟩, hsub⟩ := h
    have hpar : ¬ (0x20 ≤ b ∧ b ≤ 0x3f) := by grind
    have hend : ¬ (0x40 ≤ b ∧ b ≤ 0x7e) := by grind
    simp only [Reader.step, hstate, if_neg hpar, if_neg hend, hesc, hcan, hsub, if_false, or_self,
      true_and]
    rcases hcontrol with hle | rfl
    · have hdel : b ≠ 0x7f := by grind
      simp [hle, hdel]
    · rfl
  | escapeIntermediate =>
    simp only [hstate, isControlIn, Bool.and_eq_true, Bool.or_eq_true, decide_eq_true_eq] at h
    obtain ⟨⟨⟨hcontrol, hesc⟩, hcan⟩, hsub⟩ := h
    have hint : isIntermediate b = false := by
      simp only [isIntermediate]
      grind
    have hend : isEscapeFinal b = false := by
      simp only [isEscapeFinal]
      grind
    simp [Reader.step, hstate, hint, hend, hesc, hcan, hsub]
  | _ => simp [hstate, isControlIn] at h

/-- What a sequence gathers is no control. -/
theorem not_control_of_gathers {state : State} {b : UInt8} (h : gathers state b) :
    isControlIn state b = false := by
  cases state with
  | csi =>
    simp only [gathers, Bool.and_eq_true, decide_eq_true_eq] at h
    simp only [isControlIn]
    grind
  | escapeIntermediate =>
    simp only [gathers, isIntermediate, Bool.and_eq_true, decide_eq_true_eq] at h
    simp only [isControlIn]
    grind
  | _ => rfl

/-- The reader over a sequence's bytes: it says the controls among them, and holds the others or
passed its bound. -/
theorem run_body (policy : Policy) {state : State} {body : List UInt8}
    (hbody : ∀ b ∈ body, gathers state b ∨ isControlIn state b) {r : Reader}
    (hr : r.state = state) (hlen : r.seq.length ≤ bound state) :
    ∃ r', (reader policy).run r body = (r', Item.bytes (body.filter (isDoneIn state))) ∧ r'.state = state ∧
      (r'.isOver = true ∨ (r.isOver = false ∧ r'.isOver = false ∧ r'.seq.length ≤ bound state ∧
        r'.seq = r.seq ++ body.filter (gathers state))) := by
  induction body generalizing r with
  | nil =>
    refine ⟨r, rfl, hr, ?_⟩
    by_cases hover : r.isOver = true
    · exact Or.inl hover
    · have hnot : r.isOver = false := by simpa using hover
      exact Or.inr ⟨hnot, hnot, hlen, by simp⟩
  | cons b body ih =>
    have hrest : ∀ d ∈ body, gathers state d ∨ isControlIn state d :=
      fun d hd => hbody d (List.mem_cons_of_mem _ hd)
    rw [Transducer.run_cons]
    by_cases hb : gathers state b = true
    · have hdone : ¬ isDoneIn state b = true := by simp [isDoneIn, not_control_of_gathers hb]
      have hstep : (reader policy).step r b = (r.gather b (bound state), []) := by
        rw [← hr]
        exact step_gathers policy (by rw [hr]; exact hb)
      obtain ⟨r', hrun, hstate, hheld⟩ := ih hrest (r := r.gather b (bound state))
        (by rw [gather_state, hr]) (gather_length_le hlen)
      refine ⟨r', ?_, hstate, ?_⟩
      · rw [hstep, hrun, List.filter_cons_of_neg hdone, List.nil_append]
      · rcases hheld with hover | ⟨hnot, hnot', hle, hseq⟩
        · exact Or.inl hover
        · rcases gather_cases r b (bound state) with hover | ⟨hgather, hbefore, -⟩
          · exact absurd hover (by simp [hnot])
          · refine Or.inr ⟨hbefore, hnot', hle, ?_⟩
            rw [hseq, hgather, List.filter_cons_of_pos hb, List.append_assoc, List.singleton_append]
    · have hcontrol := (hbody b List.mem_cons_self).resolve_left hb
      have hstep : (reader policy).step r b = _ :=
        step_control policy (r := r) (b := b) (by rw [hr]; exact hcontrol)
      obtain ⟨r', hrun, hstate, hheld⟩ := ih hrest hr hlen
      refine ⟨r', ?_, hstate, by rwa [List.filter_cons_of_neg hb]⟩
      rw [hstep, hrun, hr]
      by_cases hdel : state = .csi ∧ b = 0x7f
      · rw [if_pos hdel, List.filter_cons_of_neg (by simp [isDoneIn, hdel]), List.nil_append]
      · have hdone : isDoneIn state b = true := by
          simp only [isDoneIn, hcontrol, Bool.true_and, Bool.not_eq_true', Bool.and_eq_false_iff,
            decide_eq_false_iff_not]
          exact not_and_or.mp hdel
        rw [if_neg hdel, List.filter_cons_of_pos hdone]
        rfl

/-- What ends a sequence past its bound is dropped too. -/
theorem run_closes_over (policy : Policy) {final : List UInt8} {r : Reader}
    (h : closes r.state final) (hover : r.isOver = true) :
    (reader policy).run r final = (.start, []) := by
  rcases closes_cases h with ⟨b, rfl, hb⟩ | ⟨rfl, kind, hstate⟩
  · have hstep : (reader policy).step r b = (r.gather b (bound r.state)).finish policy :=
      step_closes policy hb
    rw [Transducer.run_singleton, hstep, Reader.finish, if_pos (gather_of_over hover _ _)]
  · have hesc : (reader policy).step r ESC = (r.goto .textEscape, []) := by
      simp [reader, Reader.step, hstate]
    have hst : (reader policy).step (r.goto .textEscape) 0x5c =
        (((r.goto .textEscape).gather ESC maxString).gather 0x5c maxString).finish policy := by
      simp [reader, Reader.step, Reader.goto]
    have hover' : (r.goto .textEscape).isOver = true := hover
    rw [Transducer.run_cons, hesc, Transducer.run_singleton, hst, Reader.finish,
      if_pos (gather_of_over (gather_of_over hover' _ _) _ _)]
    rfl

/-- The end of a sequence past its bound: nothing is said of it, and what follows is read as if it
came first. -/
theorem run_ends (policy : Policy) {state : State} {final rest : List UInt8}
    (hends : EndsBy state final rest) {c : UInt8} (hopens : opens c = some state) {r : Reader}
    (hr : r.state = state) (hlong : r.isOver = true ∨ (r.isOver = false ∧
      r.seq.length ≤ bound state ∧ bound state < r.seq.length + final.length)) :
    ((reader policy).run r (final ++ rest)).2 = said policy rest := by
  have hground : ∀ s : Reader, s.state = .ground →
      ((reader policy).run s rest).2 = said policy rest := fun s hs =>
    (run_of_ground policy hs rfl rest).1
  cases hends with
  | whole hcloses =>
    have hrun : (reader policy).run r final = (.start, []) := by
      rcases hlong with hover | ⟨hnot, hle, hlong⟩
      · exact run_closes_over policy (hr ▸ hcloses) hover
      · have heq : r = ⟨state, r.seq, false⟩ := by rw [← hr, ← hnot]
        rw [heq, run_closes policy hcloses r.seq hle, if_neg (by omega)]
    rw [Transducer.run_append_snd, hrun]
    rfl
  | @cancel b _ hb =>
    have hstep : (reader policy).step r b = (r.goto .ground, []) := by
      rcases opens_ne_ground hopens with rfl | rfl | ⟨kind, rfl⟩ <;> rcases hb with rfl | rfl <;>
        simp [reader, Reader.step, hr, CAN, SUB, ESC, BEL, isIntermediate, isEscapeFinal]
    rw [Transducer.run_append_snd, Transducer.run_singleton, hstep]
    exact hground _ rfl
  | @malformed b _ hcsi hb =>
    have hstep : (reader policy).step r b = (r.goto .ground, []) := by
      have hne : b ≠ ESC ∧ b ≠ CAN ∧ b ≠ SUB ∧ b ≠ 0x7f := by
        refine ⟨?_, ?_, ?_, ?_⟩ <;> (rintro rfl; exact absurd hb (by decide))
      have hpar : ¬ (0x20 ≤ b ∧ b ≤ 0x3f) := by grind
      have hend : ¬ (0x40 ≤ b ∧ b ≤ 0x7e) := by grind
      have hcontrol : ¬ b ≤ 0x1f := by grind
      simp [reader, Reader.step, hr, hcsi, hpar, hend, hne, hcontrol]
    rw [Transducer.run_append_snd, Transducer.run_singleton, hstep]
    exact hground _ rfl
  | @escape more hst =>
    rw [List.nil_append, said, Transducer.run_cons, Transducer.run_cons,
      step_ground_ESC policy (r := .start) rfl, List.nil_append]
    rcases opens_ne_ground hopens with rfl | rfl | ⟨kind, rfl⟩
    · have hstep : (reader policy).step r ESC = (.begin, []) := by
        simp [reader, Reader.step, hr, ESC]
      rw [hstep]
      rfl
    · have hstep : (reader policy).step r ESC = (.begin, []) := by
        simp [reader, Reader.step, hr, ESC, isIntermediate, isEscapeFinal]
      rw [hstep]
      rfl
    · have hstep : (reader policy).step r ESC = (r.goto .textEscape, []) := by
        simp [reader, Reader.step, hr]
      rw [hstep, List.nil_append]
      cases more with
      | nil => rfl
      | cons b more =>
        have hb : b ≠ 0x5c := by
          rintro rfl
          exact hst ⟨kind, rfl⟩ rfl
        have hnext : (reader policy).step (r.goto .textEscape) b = (reader policy).step .begin b := by
          simp [reader, Reader.step, Reader.goto, hb, Reader.begin]
        rw [Transducer.run_cons, hnext]
        rfl

/-- A sequence past its bound says nothing but the controls inside it, and what follows it passes
as if it had not been there. -/
theorem Overlong.said_eq (policy : Policy) {c : UInt8} {state : State}
    {body final rest : List UInt8} (h : Overlong c state body final rest) (p : List UInt8) :
    said policy (p ++ ESC :: c :: body ++ final ++ rest) =
      said policy (p ++ [ESC]) ++ Item.bytes (body.filter (isDoneIn state)) ++ said policy rest := by
  have hc : c ≠ 0x5c := by
    rintro rfl
    have hnone : opens 0x5c = none := by decide
    exact absurd (hnone.symm.trans h.starts) (by simp)
  have hopening : Opening ((reader policy).run .start (p ++ [ESC])).1 := by
    rw [Transducer.run_append_fst, Transducer.run_singleton]
    exact step_ESC policy _
  have hopened : (reader policy).step ((reader policy).run .start (p ++ [ESC])).1 c =
      (⟨state, [ESC, c], false⟩, []) :=
    (hopening.step hc).trans (escapeStep_opens policy _ h.starts)
  obtain ⟨r', hrun, hstate, hheld⟩ := run_body policy h.inside (r := ⟨state, [ESC, c], false⟩) rfl
    (bound_ge state)
  have hlong := h.long
  have hends := run_ends policy h.ends h.starts hstate (hheld.imp_right fun ⟨_, hnot, hle, hseq⟩ =>
    ⟨hnot, hle, by
      rw [hseq]
      simp only [List.length_append, List.length_cons, List.length_nil]
      omega⟩)
  have hcut : p ++ ESC :: c :: body ++ final ++ rest =
      (p ++ [ESC]) ++ c :: (body ++ (final ++ rest)) := by simp
  have hrest : ((reader policy).run ((reader policy).run .start (p ++ [ESC])).1
      (c :: (body ++ (final ++ rest)))).2 =
        Item.bytes (body.filter (isDoneIn state)) ++ said policy rest := by
    rw [Transducer.run_cons, hopened]
    have hinside := (reader policy).run_append_snd ⟨state, [ESC, c], false⟩ body (final ++ rest)
    rw [hrun, hends] at hinside
    exact hinside
  rw [hcut, said, Transducer.run_append_snd, hrest, ← List.append_assoc]
  rfl

/-! ### All the bounds -/

/-- What a filter fed `chunks`, and `part` of the next, holds and gave out is bounded, and a
sequence past its bound is dropped to its end. -/
structure Bounded (policy : Policy) (chunks : List (List UInt8)) (part : List UInt8) : Prop where
  gathered : (midway policy chunks part).seq.length ≤ maxString
  short : (midway policy chunks part).state ∈ [State.escape, .escapeIntermediate, .csi] →
    (midway policy chunks part).seq.length ≤ maxCsi
  held : ((Filter.new policy).feedAll chunks).filter.out.length ≤ 3
  sized : Sized ((Filter.new policy).feedAll chunks).pieces
  /-- Wherever in the output it is, and however the output is fed. -/
  dropped : ∀ p c state body final rest, chunks.flatten = p ++ ESC :: c :: body ++ final ++ rest →
    Overlong c state body final rest → ((Filter.new policy).feedAll chunks).items =
      said policy (p ++ [ESC]) ++ Item.bytes (body.filter (isDoneIn state)) ++ said policy rest

/-- In the middle of a chunk the reader has read what came. -/
theorem midway_reader (policy : Policy) (chunks : List (List UInt8)) (part : List UInt8) :
    (midway policy chunks part).reader =
      ((reader policy).run .start (chunks.flatten ++ part)).1 := by
  have hall := (Filter.new policy).feedAll_reads chunks
  have hloop := ((Filter.new policy).feedAll chunks).filter.feedLoop_reads part
  rw [hall.policy, hall.reader] at hloop
  rw [midway, hloop.reader, Transducer.run_append_fst]
  rfl

/-- Whatever is fed, and however, all the bounds hold. -/
theorem filter_bounded (policy : Policy) (chunks : List (List UInt8)) (part : List UInt8) :
    Bounded policy chunks part := by
  have hreader := midway_reader policy chunks part
  have hwithin := run_within policy (chunks.flatten ++ part)
  rw [← hreader] at hwithin
  refine ⟨hwithin.length_le, fun hstate => hwithin.length_le_csi ?_, ?_, ?_, ?_⟩
  · simp only [List.mem_cons, List.not_mem_nil, or_false] at hstate
    exact hstate
  · cases chunks using List.reverseRecOn with
    | nil => exact Nat.zero_le 3
    | append_singleton chunks chunk =>
      rw [Filter.feedAll_snoc]
      exact Filter.length_flush_out_le _
  · exact Filter.feedAll_sized chunks (show (0 : ℕ) < maxOut by decide)
  · intro p c state body final rest hflat hlong
    have hitems := ((Filter.new policy).feedAll_reads chunks).items
    have hsaid : ((Filter.new policy).feedAll chunks).items = said policy chunks.flatten := hitems
    rw [hsaid, hflat, hlong.said_eq]

end Koh.Stream
