import Koh.Stream.Splits

/-!
# Whole escape sequences, and how the reader reads them

`Sequence` is the grammar of the sequences a filter judges: an ESC and one
final byte, or an ESC, a byte that opens a longer one, the bytes it gathers and
its end. `run_sequence` shows that the reader judges each of them whole, or
drops it as past its bound; `Reader.Gathered` is what the reader has gathered
of one at any moment.
-/

namespace Koh.Stream

open Koh.Stream.Filter (stringKind isEscapeFinal)

/-- The state a byte after ESC opens, if it opens one. -/
def opens (c : UInt8) : Option State :=
  if c = 0x5b then some .csi
  else match stringKind c with
    | some kind => some (.text kind)
    | none => if isIntermediate c then some .escapeIntermediate else none

/-- Whether a sequence in `state` goes on with `b`. -/
def gathers (state : State) (b : UInt8) : Bool :=
  match state with
  | .csi => 0x20 ≤ b && b ≤ 0x3f
  | .escapeIntermediate => isIntermediate b
  | .text kind => b ≠ ESC && b ≠ CAN && b ≠ SUB && !(b = BEL && kind = .osc)
  | .ground | .escape | .textEscape => false

/-- Whether `final` ends a sequence in `state`. -/
def closes (state : State) (final : List UInt8) : Bool :=
  match state, final with
  | .csi, [b] => 0x40 ≤ b && b ≤ 0x7e
  | .escapeIntermediate, [b] => isEscapeFinal b
  | .text kind, [b] => b = BEL && kind = .osc
  | .text _, [b, c] => b = ESC && c = 0x5c
  | _, _ => false

def bound : State → ℕ
  | .text _ | .textEscape => maxString
  | _ => maxCsi

inductive Sequence : List UInt8 → Prop where
  | short {final : UInt8} (hfinal : isEscapeFinal final) (hopens : opens final = none) :
      Sequence [ESC, final]
  | long {c : UInt8} {state : State} {body final : List UInt8} (hopens : opens c = some state)
      (hbody : ∀ b ∈ body, gathers state b) (hcloses : closes state final) :
      Sequence ([ESC, c] ++ body ++ final)

theorem ESC_ne_isText {b : UInt8} (hb : Filter.isText b) : b ≠ ESC ∧ b ≠ ENQ := by
  simpa [Filter.isText] using hb

/-- A control string goes on with any byte that is no control of ASCII's. -/
theorem gathers_printable (kind : Kind) {b : UInt8} (hb : 0x20 ≤ b) : gathers (.text kind) b := by
  have hne : ∀ c : UInt8, c < 0x20 → b ≠ c := by
    rintro c hc rfl
    exact absurd hb (UInt8.not_le.mpr hc)
  simp [gathers, hne ESC (by decide), hne CAN (by decide), hne SUB (by decide), hne BEL (by decide)]

/-! ### Opening a sequence -/

/-- What opens a sequence, and which. -/
theorem opens_eq_some_cases {c : UInt8} {state : State} (h : opens c = some state) :
    (c = 0x5b ∧ state = .csi) ∨
      (c ≠ 0x5b ∧ ∃ kind, stringKind c = some kind ∧ state = .text kind) ∨
        (c ≠ 0x5b ∧ stringKind c = none ∧ isIntermediate c ∧ state = .escapeIntermediate) := by
  simp only [opens] at h
  split at h
  · next hc => exact Or.inl ⟨hc, by simpa using h.symm⟩
  · next hc =>
    cases hkind : stringKind c with
    | some kind => exact Or.inr (Or.inl ⟨hc, kind, rfl, by simpa [hkind] using h.symm⟩)
    | none =>
      rw [hkind] at h
      simp only at h
      split at h
      · next hint => exact Or.inr (Or.inr ⟨hc, rfl, hint, by simpa using h.symm⟩)
      · cases h

/-- A byte that opens a sequence goes into its state. -/
theorem escapeStep_opens (policy : Policy) (r : Reader) {c : UInt8} {state : State}
    (h : opens c = some state) : r.escapeStep policy c = (r.push c state, []) := by
  rcases opens_eq_some_cases h with ⟨hc, rfl⟩ | ⟨hc, kind, hkind, rfl⟩ | ⟨hc, hkind, hint, rfl⟩
  · simp [Reader.escapeStep, hc]
  · simp [Reader.escapeStep, hc, hkind]
  · simp [Reader.escapeStep, hc, hkind, hint]

/-- A byte that ends an escape finishes it. -/
theorem escapeStep_final (policy : Policy) (r : Reader) {c : UInt8} (hopens : opens c = none)
    (hfinal : isEscapeFinal c) : r.escapeStep policy c = (r.push c r.state).finish policy := by
  have hc : c ≠ 0x5b := by
    rintro rfl
    cases hopens
  simp only [opens, hc, if_false] at hopens
  cases hkind : stringKind c with
  | some kind => simp [hkind] at hopens
  | none =>
    have hint : ¬ isIntermediate c = true := by
      intro hint
      simp [hkind, hint] at hopens
    simp [Reader.escapeStep, hc, hkind, hint, hfinal]

/-- A byte after an ESC that neither opens a sequence nor ends one: ESC begins another, CAN and SUB
end this one, and any other is done as it comes. -/
theorem escapeStep_inside (policy : Policy) (r : Reader) {c : UInt8} (hopens : opens c = none)
    (hfinal : isEscapeFinal c = false) :
    (c < 0x20 ∨ 0x7f ≤ c) ∧ r.escapeStep policy c =
      if c = ESC then (.begin, [.byte ESC])
      else if c = CAN ∨ c = SUB then (r.goto .ground, []) else (r, [.byte c]) := by
  have hc : c ≠ 0x5b := by
    rintro rfl
    cases hopens
  simp only [opens, hc, if_false] at hopens
  cases hkind : stringKind c with
  | some kind => simp [hkind] at hopens
  | none =>
    have hint : ¬ isIntermediate c = true := by
      intro hint
      simp [hkind, hint] at hopens
    refine ⟨?_, by simp [Reader.escapeStep, hc, hkind, hint, hfinal]⟩
    simp only [isIntermediate, isEscapeFinal, Bool.and_eq_true, decide_eq_true_eq,
      Bool.and_eq_false_iff, decide_eq_false_iff_not] at hint hfinal
    grind

/-- An ESC leaves the reader where a sequence opens, wherever it was. -/
def Opening (r : Reader) : Prop := r = .begin ∨ r.state = .textEscape

/-- An ESC begins a sequence in every state. -/
theorem step_ESC (policy : Policy) (r : Reader) : Opening (Reader.step policy r ESC).1 := by
  have hbegin : ∀ s : Reader, s.escapeStep policy ESC = (.begin, [.byte ESC]) := fun s => by
    rw [(escapeStep_inside policy s (by decide) (by decide)).2, if_pos rfl]
  cases hstate : r.state with
  | text kind => exact Or.inr (by simp [Reader.step, hstate, Reader.goto])
  | escape => exact Or.inl (by simp only [Reader.step, hstate, hbegin])
  | textEscape =>
    have hst : ESC ≠ 0x5c := by decide
    exact Or.inl (by simp only [Reader.step, hstate, if_neg hst, hbegin])
  | ground => exact Or.inl (by simp [Reader.step, hstate])
  | csi =>
    have hpar : ¬ ((0x20 : UInt8) ≤ ESC ∧ ESC ≤ 0x3f) := by decide
    have hend : ¬ ((0x40 : UInt8) ≤ ESC ∧ ESC ≤ 0x7e) := by decide
    exact Or.inl (by simp only [Reader.step, hstate, if_neg hpar, if_neg hend, if_true])
  | escapeIntermediate =>
    have hint : isIntermediate ESC = false := by decide
    have hend : isEscapeFinal ESC = false := by decide
    exact Or.inl (by simp [Reader.step, hstate, hint, hend])

/-- What follows an ESC is read as from its start, but ST. -/
theorem Opening.step {policy : Policy} {r : Reader} (h : Opening r) {b : UInt8} (hb : b ≠ 0x5c) :
    Reader.step policy r b = Reader.begin.escapeStep policy b := by
  rcases h with rfl | hstate
  · rfl
  · simp only [Reader.step, hstate, if_neg hb]

/-- A sequence that is open is not on the ground. -/
theorem opens_ne_ground {c : UInt8} {state : State} (h : opens c = some state) :
    state = .csi ∨ state = .escapeIntermediate ∨ ∃ kind, state = .text kind := by
  rcases opens_eq_some_cases h with ⟨-, rfl⟩ | ⟨-, kind, -, rfl⟩ | ⟨-, -, -, rfl⟩
  · exact Or.inl rfl
  · exact Or.inr (Or.inr ⟨kind, rfl⟩)
  · exact Or.inr (Or.inl rfl)

/-! ### Gathering it -/

/-- What a sequence takes is gathered. -/
theorem step_gathers (policy : Policy) {r : Reader} {b : UInt8} (h : gathers r.state b) :
    Reader.step policy r b = (r.gather b (bound r.state), []) := by
  cases hstate : r.state with
  | csi =>
    simp only [hstate, gathers, Bool.and_eq_true, decide_eq_true_eq] at h
    simp [Reader.step, hstate, h, bound]
  | escapeIntermediate =>
    simp only [hstate, gathers] at h
    simp [Reader.step, hstate, h, bound]
  | text kind =>
    simp only [hstate, gathers, Bool.and_eq_true, decide_eq_true_eq, Bool.not_eq_true',
      Bool.and_eq_false_imp, decide_eq_false_iff_not] at h
    obtain ⟨⟨⟨hesc, hcan⟩, hsub⟩, hbel⟩ := h
    simp only [Reader.step, hstate, hesc, hcan, hsub, if_false, or_self, bound]
    rw [if_neg fun hb => hbel hb.1 hb.2]
  | _ => simp [hstate, gathers] at h

/-- Within the bound a byte is kept. -/
theorem gather_fits (state : State) (head : List UInt8) (b : UInt8) {max : ℕ}
    (h : head.length < max) :
    Reader.gather ⟨state, head, false⟩ b max = ⟨state, head ++ [b], false⟩ := by
  simp [Reader.gather, Nat.not_le.mpr h]

/-- Past the bound all is dropped. -/
theorem gather_full (state : State) {head : List UInt8} (isOver : Bool) (b : UInt8) {max : ℕ}
    (h : max ≤ head.length) : Reader.gather ⟨state, head, isOver⟩ b max = ⟨state, [], true⟩ := by
  simp [Reader.gather, h]

/-- And stays so. -/
theorem gather_over (state : State) (b : UInt8) {max : ℕ} :
    Reader.gather ⟨state, [], true⟩ b max = ⟨state, [], true⟩ := by
  simp [Reader.gather]

/-- A sequence within its bound is gathered as it is, and one past it is all dropped. -/
theorem run_gathers (policy : Policy) {state : State} (head body : List UInt8)
    (hbody : ∀ b ∈ body, gathers state b) (hhead : head.length ≤ bound state) :
    (reader policy).run ⟨state, head, false⟩ body =
      (if head.length + body.length ≤ bound state then ⟨state, head ++ body, false⟩
        else ⟨state, [], true⟩, []) := by
  induction body generalizing head with
  | nil => simp [hhead]
  | cons b body ih =>
    have hstep : (reader policy).step ⟨state, head, false⟩ b =
        (Reader.gather ⟨state, head, false⟩ b (bound state), []) :=
      step_gathers policy (hbody b List.mem_cons_self)
    have hrest : ∀ c ∈ body, gathers state c := fun c hc => hbody c (List.mem_cons_of_mem _ hc)
    rw [Transducer.run_cons, hstep]
    rcases Nat.lt_or_ge head.length (bound state) with hlt | hge
    · have hlen : (head ++ [b]).length ≤ bound state := by
        rw [List.length_append, List.length_singleton]
        exact hlt
      rw [gather_fits state head b hlt, ih (head ++ [b]) hrest hlen]
      simp only [List.length_append, List.length_cons, List.length_nil, List.append_assoc,
        List.nil_append, List.cons_append, Nat.zero_add, Nat.add_assoc, Nat.add_comm 1]
    · rw [gather_full state false b hge, run_over policy hrest]
      simp only [List.length_cons, List.nil_append]
      rw [if_neg (by omega)]
where
  run_over (policy : Policy) {state : State} {body : List UInt8}
      (hbody : ∀ b ∈ body, gathers state b) :
      (reader policy).run ⟨state, [], true⟩ body = (⟨state, [], true⟩, []) := by
    induction body with
    | nil => rfl
    | cons b body ih =>
      have hstep : (reader policy).step ⟨state, [], true⟩ b = (⟨state, [], true⟩, []) := by
        have h := step_gathers policy (r := ⟨state, [], true⟩) (hbody b List.mem_cons_self)
        rwa [gather_over] at h
      rw [Transducer.run_cons, hstep, ih fun c hc => hbody c (List.mem_cons_of_mem _ hc)]
      rfl

/-! ### Ending it -/

/-- What closes a sequence finishes it. -/
theorem step_closes (policy : Policy) {r : Reader} {b : UInt8} (h : closes r.state [b]) :
    Reader.step policy r b = (r.gather b (bound r.state)).finish policy := by
  cases hstate : r.state with
  | csi =>
    simp only [hstate, closes, Bool.and_eq_true, decide_eq_true_eq] at h
    have hpar : ¬ (0x20 ≤ b ∧ b ≤ 0x3f) := by grind
    simp [Reader.step, hstate, hpar, h, bound]
  | escapeIntermediate =>
    simp only [hstate, closes, isEscapeFinal, Bool.and_eq_true, decide_eq_true_eq] at h
    have hint : isIntermediate b = false := by simp only [isIntermediate]; grind
    simp [Reader.step, hstate, hint, isEscapeFinal, h, bound]
  | text kind =>
    simp only [hstate, closes, Bool.and_eq_true, decide_eq_true_eq] at h
    have hesc : b ≠ ESC := by rw [h.1]; decide
    simp [Reader.step, hstate, h, bound]
    intro hbel
    exact absurd hbel (by decide)
  | _ => simp [hstate, closes] at h

/-- What closes a sequence: a byte, or ST. -/
theorem closes_cases {state : State} {final : List UInt8} (h : closes state final) :
    (∃ b, final = [b] ∧ closes state [b]) ∨ (final = [ESC, 0x5c] ∧ ∃ kind, state = .text kind) := by
  cases state with
  | text kind =>
    match final, h with
    | [b], h => exact Or.inl ⟨b, rfl, h⟩
    | [b, c], h =>
      simp only [closes, Bool.and_eq_true, decide_eq_true_eq] at h
      exact Or.inr ⟨by rw [h.1, h.2], kind, rfl⟩
  | csi =>
    match final, h with
    | [b], h => exact Or.inl ⟨b, rfl, h⟩
  | escapeIntermediate =>
    match final, h with
    | [b], h => exact Or.inl ⟨b, rfl, h⟩
  | _ => cases final <;> simp [closes] at h

/-- The end of a sequence, the reader having gathered `head`: it is judged, or
dropped as past its bound. -/
theorem run_closes (policy : Policy) {state : State} {final : List UInt8}
    (h : closes state final) (head : List UInt8) (hhead : head.length ≤ bound state) :
    (reader policy).run ⟨state, head, false⟩ final =
      (.start, if head.length + final.length ≤ bound state
        then Reader.said (head ++ final) policy else []) := by
  rcases closes_cases h with ⟨b, rfl, hb⟩ | ⟨rfl, kind, rfl⟩
  · have hstep := step_closes policy (r := ⟨state, head, false⟩) hb
    rw [Transducer.run_singleton]
    refine hstep.trans ?_
    rcases Nat.lt_or_ge head.length (bound state) with hlt | hge
    · rw [gather_fits state head b hlt]
      simp [Reader.finish, Nat.succ_le_of_lt hlt]
    · rw [gather_full state false b hge]
      simp [Reader.finish, Nat.not_le.mpr (Nat.lt_succ_of_le hge)]
  · have hrun : (reader policy).run ⟨.text kind, head, false⟩ [ESC, 0x5c] =
        ((Reader.gather ⟨.textEscape, head, false⟩ ESC maxString).gather 0x5c maxString).finish
          policy := by
      simp [Transducer.run_cons, reader, Reader.step, Reader.goto]
    rw [hrun]
    change _ = (Reader.start, if head.length + 2 ≤ maxString then _ else _)
    rcases Nat.lt_or_ge head.length maxString with hlt | hge
    · rw [gather_fits _ head ESC hlt]
      rcases Nat.lt_or_ge (head ++ [ESC]).length maxString with hlt' | hge'
      · rw [gather_fits _ _ _ hlt']
        rw [List.length_append, List.length_singleton] at hlt'
        simp [Reader.finish, if_pos (show head.length + 2 ≤ maxString from hlt')]
      · rw [gather_full _ _ _ hge']
        rw [List.length_append, List.length_singleton] at hge'
        simp [Reader.finish, show ¬ head.length + 2 ≤ maxString by omega]
    · rw [gather_full _ _ _ hge, gather_over]
      simp [Reader.finish, show ¬ head.length + 2 ≤ maxString by omega]

theorem closes_length_pos {state : State} {final : List UInt8} (h : closes state final) :
    0 < final.length := by
  rcases closes_cases h with ⟨b, rfl, -⟩ | ⟨rfl, -⟩ <;> simp

/-! ### Reading it whole -/

theorem step_ground_ESC (policy : Policy) {r : Reader} (hr : r.state = .ground) :
    (reader policy).step r ESC = (.begin, []) := by
  simp [reader, Reader.step, hr]

theorem bound_ge (state : State) : 2 ≤ bound state := by
  cases state <;> simp [bound, maxString, maxCsi]

/-- The reader between sequences, given a longer sequence's first two bytes. -/
theorem run_opens (policy : Policy) {r : Reader} (hr : r.state = .ground) {c : UInt8}
    {state : State} (hopens : opens c = some state) :
    (reader policy).run r [ESC, c] = (⟨state, [ESC, c], false⟩, []) := by
  rw [Transducer.run_cons, step_ground_ESC policy hr, Transducer.run_singleton]
  exact escapeStep_opens policy .begin hopens

/-- A sequence, read from the ground, is judged if it is within its bound. -/
theorem run_long (policy : Policy) {r : Reader} (hr : r.state = .ground) {c : UInt8} {state : State}
    {body final : List UInt8} (hopens : opens c = some state) (hbody : ∀ b ∈ body, gathers state b)
    (hcloses : closes state final) :
    (reader policy).run r ([ESC, c] ++ body ++ final) =
      (.start, if ([ESC, c] ++ body ++ final).length ≤ bound state
        then Reader.said ([ESC, c] ++ body ++ final) policy else []) := by
  have hhead : [ESC, c].length ≤ bound state := bound_ge state
  rw [Transducer.run_append, Transducer.run_append, run_opens policy hr hopens,
    run_gathers policy [ESC, c] body hbody hhead]
  have hpos := closes_length_pos hcloses
  by_cases hfit : [ESC, c].length + body.length ≤ bound state
  · rw [if_pos hfit, run_closes policy hcloses _ (by rwa [List.length_append])]
    simp only [List.nil_append, List.length_append]
  · rw [if_neg hfit]
    have hover : (reader policy).run ⟨state, [], true⟩ final = (.start, []) := by
      rcases closes_cases hcloses with ⟨b, rfl, hb⟩ | ⟨rfl, kind, rfl⟩
      · rw [Transducer.run_singleton]
        refine (step_closes policy (r := ⟨state, [], true⟩) hb).trans ?_
        rw [gather_over]
        rfl
      · simp [Transducer.run_cons, reader, Reader.step, Reader.goto, gather_over, Reader.finish]
    rw [hover, if_neg (by simp only [List.length_append] at hfit ⊢; omega)]
    rfl

/-- An escape of two bytes is judged. -/
theorem run_short (policy : Policy) {r : Reader} (hr : r.state = .ground) {final : UInt8}
    (hfinal : isEscapeFinal final) (hopens : opens final = none) :
    (reader policy).run r [ESC, final] = (.start, Reader.said [ESC, final] policy) := by
  rw [Transducer.run_cons, step_ground_ESC policy hr, Transducer.run_singleton]
  exact escapeStep_final policy .begin hopens hfinal

/-- The reader judges a whole sequence, or drops it as past its bound. -/
theorem Sequence.run {q : List UInt8} (h : Sequence q) (policy : Policy) {r : Reader}
    (hr : r.state = .ground) :
    ∃ items, (reader policy).run r q = (.start, items) ∧
      (items = Reader.said q policy ∨ items = []) := by
  cases h with
  | short hfinal hopens => exact ⟨_, run_short policy hr hfinal hopens, Or.inl rfl⟩
  | long hopens hbody hcloses =>
    refine ⟨_, run_long policy hr hopens hbody hcloses, ?_⟩
    split
    · exact Or.inl rfl
    · exact Or.inr rfl

theorem Sequence.ne_nil {q : List UInt8} (h : Sequence q) : q ≠ [] := by
  cases h <;> simp

/-- A sequence begins with ESC, and something after it. -/
theorem Sequence.head {q : List UInt8} (h : Sequence q) : ∃ c more, q = ESC :: c :: more := by
  cases h with
  | short => exact ⟨_, _, rfl⟩
  | @long c _ body final => exact ⟨c, body ++ final, by simp⟩

theorem Sequence.head_ne_ENQ {q : List UInt8} (h : Sequence q) : q.head? ≠ some ENQ := by
  obtain ⟨c, more, rfl⟩ := h.head
  simp [ESC, ENQ]

/-- What the reader has taken of a sequence it is inside of. -/
def Reader.held (r : Reader) : List UInt8 :=
  if r.state = .textEscape then r.seq ++ [ESC] else r.seq

theorem gathers_ENQ {state : State} (h : gathers state ENQ) : ∃ kind, state = .text kind := by
  cases state with
  | text kind => exact ⟨kind, rfl⟩
  | _ => simp [gathers, ENQ, isIntermediate] at h

theorem closes_ne_ENQ {state : State} {final : List UInt8} (h : closes state final) :
    final.head? ≠ some ENQ := by
  rcases closes_cases h with ⟨b, rfl, hb⟩ | ⟨rfl, -⟩
  · intro hhead
    obtain rfl : b = ENQ := by simpa using hhead
    cases state <;> simp [closes, ENQ, BEL, isEscapeFinal] at hb
  · decide

theorem gathers_ne_ESC {state : State} {b : UInt8} (h : gathers state b) : b ≠ ESC := by
  rintro rfl
  cases state <;> simp [gathers, ESC, isIntermediate] at h

/-- Only ST begins with an ESC and closes. -/
theorem closes_ESC {state : State} {final : List UInt8} (h : closes state final)
    (hhead : final.head? = some ESC) : final = [ESC, 0x5c] ∧ ∃ kind, state = .text kind := by
  rcases closes_cases h with ⟨b, rfl, hb⟩ | hfinal
  · obtain rfl : b = ESC := by simpa using hhead
    cases state <;> simp [closes, ESC, BEL, isEscapeFinal] at hb
  · exact hfinal

/-- Two are split in one way. -/
theorem split_pair {α : Type*} {a b : α} {p rest : List α} (h : [a, b] = p ++ rest) (hp : p ≠ [])
    (hrest : rest ≠ []) : p = [a] ∧ rest = [b] := by
  match p, rest, hp, hrest with
  | [_], [_], _, _ => simpa using h.symm
  | [_], _ :: _ :: _, _, _ => simp at h
  | _ :: _ :: _, _ :: _, _, _ =>
    have := congrArg List.length h
    simp at this

/-- The reader in the middle of a longer sequence's bytes, all of them gathered. -/
theorem run_inside (policy : Policy) {c : UInt8} {state : State} {body final p more : List UInt8}
    (hopens : opens c = some state) (hbody : ∀ b ∈ body, gathers state b)
    (hcloses : closes state final) (hfit : ([ESC, c] ++ body).length ≤ bound state)
    (hmore : body = p ++ more) :
    ∃ r', (reader policy).run ⟨state, [ESC, c], false⟩ p = (r', []) ∧ r'.held = [ESC, c] ++ p ∧
      r'.state ≠ .ground ∧ ((more ++ final).head? = some ESC → more ++ final = [ESC, 0x5c]) ∧
      ((more ++ final).head? = some ENQ → ∃ kind, r'.state = .text kind) := by
  have hp : ∀ b ∈ p, gathers state b := fun b hb => hbody b (hmore ▸ List.mem_append_left _ hb)
  have hlen : [ESC, c].length + p.length ≤ bound state := by
    simp only [hmore, List.length_append] at hfit
    omega
  have hrun := run_gathers policy [ESC, c] p hp (bound_ge state)
  rw [if_pos hlen] at hrun
  have hstate := opens_ne_ground hopens
  refine ⟨_, hrun, ?_, ?_, fun hESC => ?_, fun hENQ => ?_⟩
  · rcases hstate with rfl | rfl | ⟨kind, rfl⟩ <;> rfl
  · rcases hstate with rfl | rfl | ⟨kind, rfl⟩ <;> simp
  · cases more with
    | nil => exact (closes_ESC hcloses hESC).1
    | cons d more =>
      obtain rfl : d = ESC := by simpa using hESC
      exact absurd rfl (gathers_ne_ESC (hbody ESC (by simp [hmore])))
  · cases more with
    | nil => exact absurd hENQ (closes_ne_ENQ hcloses)
    | cons d more =>
      obtain rfl : d = ENQ := by simpa using hENQ
      exact gathers_ENQ (hbody ENQ (by simp [hmore]))

/-- Inside a sequence it does not drop, the reader holds all it read of it; an
ESC only ends it there, as the first byte of an ST, and an ENQ only stands in a
control string. -/
theorem Sequence.run_prefix {q : List UInt8} (h : Sequence q) (policy : Policy) {r : Reader}
    (hr : r.state = .ground) (hkept : ((reader policy).run r q).2 ≠ []) {p rest : List UInt8}
    (hq : q = p ++ rest) (hp : p ≠ []) (hrest : rest ≠ []) :
    ∃ r', (reader policy).run r p = (r', []) ∧ r'.held = p ∧ r'.state ≠ .ground ∧
      (rest.head? = some ESC → rest = [ESC, 0x5c]) ∧
      (rest.head? = some ENQ → ∃ kind, r'.state = .text kind) := by
  have hbegin : (reader policy).run r [ESC] = (.begin, []) := by
    rw [Transducer.run_singleton, step_ground_ESC policy hr]
  cases h with
  | @short final hfinal hopens =>
    obtain ⟨rfl, rfl⟩ := split_pair hq hp hrest
    refine ⟨.begin, hbegin, rfl, by decide, fun hESC => ?_, fun hENQ => ?_⟩
    · obtain rfl : final = ESC := by simpa using hESC
      cases hfinal
    · obtain rfl : final = ENQ := by simpa using hENQ
      cases hfinal
  | @long c state body final hopens hbody hcloses =>
    rw [run_long policy hr hopens hbody hcloses] at hkept
    have hfit : ([ESC, c] ++ body ++ final).length ≤ bound state := by
      by_contra hover
      simp only [if_neg hover, ne_eq, not_true_eq_false] at hkept
    have hfit' : ([ESC, c] ++ body).length ≤ bound state := by
      rw [List.length_append] at hfit
      omega
    match p, hp with
    | [a], _ =>
      obtain ⟨rfl, rfl⟩ : ESC = a ∧ c :: (body ++ final) = rest := by simpa using hq
      refine ⟨.begin, hbegin, rfl, by decide, fun hESC => ?_, fun hENQ => ?_⟩
      · obtain rfl : c = ESC := by simpa using hESC
        cases hopens
      · obtain rfl : c = ENQ := by simpa using hENQ
        cases hopens
    | a :: b :: p', _ =>
      simp only [List.cons_append, List.nil_append, List.cons.injEq] at hq
      obtain ⟨rfl, rfl, hq⟩ := hq
      rw [show ESC :: c :: p' = [ESC, c] ++ p' from rfl, Transducer.run_append,
        run_opens policy hr hopens]
      rcases List.append_eq_append_iff.mp hq with ⟨more, hp', hfinal⟩ | ⟨more, hbody', hrest'⟩
      · rcases List.eq_nil_or_concat more with rfl | ⟨_, _, rfl⟩
        · have hbody' : body = p' ++ [] := by simpa using hp'.symm
          obtain ⟨r', hrun, hr'⟩ := run_inside policy hopens hbody hcloses hfit' hbody'
          rw [List.nil_append] at hfinal
          exact ⟨r', by rw [hrun]; rfl, by simpa only [List.nil_append, hfinal] using hr'⟩
        · -- Only an ST is two bytes long: the reader is between its ESC and its backslash.
          rcases closes_cases hcloses with ⟨e, rfl, -⟩ | ⟨rfl, kind, rfl⟩
          · have := congrArg List.length hfinal
            have := List.length_pos_iff.mpr hrest
            simp at *
            omega
          · obtain ⟨hmore, rfl⟩ := split_pair hfinal (by simp) hrest
            have hrun := run_gathers policy [ESC, c] body hbody (bound_ge (.text kind))
            rw [List.length_append] at hfit'
            rw [if_pos hfit'] at hrun
            refine ⟨⟨.textEscape, [ESC, c] ++ body, false⟩, ?_, ?_, by simp, by simp [ESC], by simp [ENQ]⟩
            · rw [hp', hmore, Transducer.run_append, hrun, Transducer.run_singleton]
              simp [reader, Reader.step, Reader.goto]
            · rw [hp', hmore]
              simp [Reader.held]
      · obtain ⟨r', hrun, hr'⟩ := run_inside policy hopens hbody hcloses hfit' hbody'
        exact ⟨r', by rw [hrun]; rfl, by simpa only [hrest'] using hr'⟩

end Koh.Stream
