import Koh.Lib.Transducer
import Koh.Stream.Filter

/-!
# What the filter says, byte by byte

A `Reader` is the filter without its buffer: it reads one byte at a time and
says at once what passes, as bytes and marks (`Item`). It is the filter's
meaning: `Filter.feedAll_reads` shows that a filter fed in any chunks says what
the reader says of their bytes, only held back, and `Filter.Tail` what it holds
back.

## Main definitions

- `Item`: one byte or one mark that passes
- `Reader.step`, `reader`: the reader, as a transducer
- `Fed.Reads`: what a filter fed says is what the reader says
-/

namespace Koh.Stream

/-- What passes: a byte for the user's terminal, or a mark. -/
inductive Item where
  | byte (b : UInt8)
  | mark (payload : List UInt8)
  deriving DecidableEq, Repr

def Item.bytes (l : List UInt8) : List Item := l.map .byte

@[simp] theorem Item.bytes_nil : Item.bytes [] = [] := rfl

@[simp] theorem Item.bytes_append (l m : List UInt8) :
    Item.bytes (l ++ m) = Item.bytes l ++ Item.bytes m := List.map_append

@[simp] theorem Item.bytes_cons (b : UInt8) (l : List UInt8) :
    Item.bytes (b :: l) = .byte b :: Item.bytes l := rfl

def Piece.items : Piece → List Item
  | .out bytes => Item.bytes bytes
  | .mark m => [.mark m]

structure Reader where
  state : State
  /-- The sequence being read, from its ESC. -/
  seq : List UInt8
  /-- It passed its bound. -/
  isOver : Bool
  deriving DecidableEq, Repr

namespace Reader

def start : Reader := ⟨.ground, [], false⟩

def begin : Reader := ⟨.escape, [ESC], false⟩

def goto (r : Reader) (state : State) : Reader := { r with state := state }

def gather (r : Reader) (b : UInt8) (max : ℕ) : Reader :=
  if max ≤ r.seq.length then { r with isOver := true, seq := [] }
  else if r.isOver then r
  else { r with seq := r.seq ++ [b] }

def push (r : Reader) (b : UInt8) (state : State) : Reader :=
  { r with seq := r.seq ++ [b], state := state }

def said (seq : List UInt8) (policy : Policy) : List Item :=
  match judge seq policy with
  | .pass => Item.bytes seq
  | .drop => []
  | .out bytes => Item.bytes bytes
  | .mark m => [.mark m]

def finish (policy : Policy) (r : Reader) : Reader × List Item :=
  (start, if r.isOver then [] else said r.seq policy)

def escapeStep (policy : Policy) (r : Reader) (b : UInt8) : Reader × List Item :=
  if b = 0x5b then (r.push b .csi, [])
  else match Filter.stringKind b with
    | some kind => (r.push b (.text kind), [])
    | none =>
      if isIntermediate b then (r.push b .escapeIntermediate, [])
      else if Filter.isEscapeFinal b then (r.push b r.state).finish policy
      else if b = ESC then (begin, [.byte ESC])
      else if b = CAN ∨ b = SUB then (r.goto .ground, [])
      else (r, [.byte b])

/-- One byte: where the reader is then, and what passes. -/
def step (policy : Policy) (r : Reader) (b : UInt8) : Reader × List Item :=
  match r.state with
  | .ground =>
    if b = ESC then (begin, []) else if b = ENQ then (r, []) else (r, [.byte b])
  | .escape => r.escapeStep policy b
  | .escapeIntermediate =>
    if isIntermediate b then (r.gather b maxCsi, [])
    else if Filter.isEscapeFinal b then (r.gather b maxCsi).finish policy
    else if b = ESC then (begin, [])
    else if b = CAN ∨ b = SUB then (r.goto .ground, [])
    else (r, [.byte b])
  | .csi =>
    if 0x20 ≤ b ∧ b ≤ 0x3f then (r.gather b maxCsi, [])
    else if 0x40 ≤ b ∧ b ≤ 0x7e then (r.gather b maxCsi).finish policy
    else if b = ESC then (begin, [])
    else if b = CAN ∨ b = SUB then (r.goto .ground, [])
    else if b ≤ 0x1f then (r, [.byte b])
    else if b = 0x7f then (r, [])
    else (r.goto .ground, [])
  | .text kind =>
    if b = ESC then (r.goto .textEscape, [])
    else if b = BEL ∧ kind = .osc then (r.gather b maxString).finish policy
    else if b = CAN ∨ b = SUB then (r.goto .ground, [])
    else (r.gather b maxString, [])
  | .textEscape =>
    if b = 0x5c then ((r.gather ESC maxString).gather b maxString).finish policy
    else begin.escapeStep policy b

end Reader

/-- The reader, as a machine of its own. -/
def reader (policy : Policy) : Transducer Reader UInt8 Item := ⟨Reader.step policy⟩

/-- What the reader says of `bytes` between sequences. -/
def said (policy : Policy) (bytes : List UInt8) : List Item :=
  ((reader policy).run .start bytes).2

/-! ### What a filter fed says -/

/-- The bytes since the last mark, `before` them those there were. -/
def sinceMark (before : List UInt8) : List Item → List UInt8
  | [] => before
  | .byte b :: more => sinceMark (before ++ [b]) more
  | .mark _ :: more => sinceMark [] more

/-- What came since the last mark of two lists of items. -/
theorem sinceMark_append (before : List UInt8) (l m : List Item) :
    sinceMark before (l ++ m) = sinceMark (sinceMark before l) m := by
  induction l generalizing before with
  | nil => rfl
  | cons i l ih => cases i <;> exact ih _

@[simp] theorem sinceMark_bytes (before l : List UInt8) :
    sinceMark before (Item.bytes l) = before ++ l := by
  induction l generalizing before with
  | nil => simp [sinceMark]
  | cons b l ih => simp [sinceMark, ih]

namespace Filter

/-- Where the filter is, but what it holds back. -/
def reader (f : Filter) : Reader := ⟨f.state, f.seq, f.isOver⟩

/-- What the filter holds back is the end of `shown`, the bytes that passed
since the last mark, and tells as much of the characters that go on from there. -/
structure Tail (f : Filter) (shown : List UInt8) : Prop where
  suffix : f.out <:+ shown
  same : ∀ more, incompleteUtf8 (shown ++ more) = incompleteUtf8 (f.out ++ more)

end Filter

/-- What the pieces say, and what is held back. -/
def Fed.items (r : Fed) : List Item := r.pieces.flatMap Piece.items ++ Item.bytes r.filter.out

/-- From `f`, what was fed left the reader at `t.1` and says `t.2`. -/
structure Fed.Reads (r : Fed) (f : Filter) (t : Reader × List Item) : Prop where
  policy : r.filter.policy = f.policy
  reader : r.filter.reader = t.1
  items : r.items = Item.bytes f.out ++ t.2
  tail : ∀ shown, f.Tail shown → r.filter.Tail (sinceMark shown t.2)

namespace Fed.Reads

/-- A filter that emits nothing and changes only where it is. -/
theorem silent {f g : Filter} (hpolicy : g.policy = f.policy) (hout : g.out = f.out) :
    Fed.Reads ⟨g, []⟩ f (g.reader, []) where
  policy := hpolicy
  reader := rfl
  items := by simp [Fed.items, hout]
  tail shown h := ⟨hout ▸ h.suffix, by simpa only [sinceMark, hout] using h.same⟩

/-- Only the policy and what is held back of the filter before matter. -/
theorem of_eq {f g : Filter} {r : Fed} {t : Reader × List Item} (h : r.Reads g t)
    (hpolicy : g.policy = f.policy) (hout : g.out = f.out) : r.Reads f t where
  policy := h.policy.trans hpolicy
  reader := h.reader
  items := hout ▸ h.items
  tail shown hs := h.tail shown ⟨hout ▸ hs.suffix, by simpa only [hout] using hs.same⟩

/-- A change of where the filter is, after what was said. -/
theorem thenSilent {f g : Filter} {r : Fed} {t : Reader × List Item} (hr : r.Reads f t)
    (hpolicy : g.policy = r.filter.policy) (hout : g.out = r.filter.out) :
    Fed.Reads ⟨g, r.pieces⟩ f (g.reader, t.2) where
  policy := hpolicy.trans hr.policy
  reader := rfl
  items := by simpa only [Fed.items, hout] using hr.items
  tail shown h := ⟨hout ▸ (hr.tail shown h).suffix, by simpa only [hout] using (hr.tail shown h).same⟩

/-- One reading after another. -/
theorem trans {f : Filter} {r s : Fed} {t u : Reader × List Item} (hr : r.Reads f t)
    (hs : s.Reads r.filter u) : Fed.Reads ⟨s.filter, r.pieces ++ s.pieces⟩ f (u.1, t.2 ++ u.2) where
  policy := hs.policy.trans hr.policy
  reader := hs.reader
  items := by
    have h := hs.items
    have h' := hr.items
    simp only [Fed.items] at h h' ⊢
    rw [List.flatMap_append, List.append_assoc, h, ← List.append_assoc, h', List.append_assoc]
  tail shown h := by
    rw [sinceMark_append]
    exact hs.tail _ (hr.tail _ h)

end Fed.Reads

namespace Filter

/-- A flush reads nothing. -/
theorem flush_reads (f : Filter) : f.flush.Reads f (f.reader, []) where
  policy := by simp only [flush]; split <;> rfl
  reader := by simp only [flush]; split <;> rfl
  items := by
    simp only [flush]
    split
    · simp [Fed.items]
    · simp [Fed.items, Piece.items, ← Item.bytes_append]
  tail shown h := by
    refine ⟨?_, fun more => ?_⟩
    · rw [flush_out]
      exact (List.drop_suffix _ _).trans h.suffix
    · rw [flush_out, incompleteUtf8_drop_append]
      exact h.same more

/-- Bytes that are held back are read as themselves. -/
theorem push_reads (f : Filter) (bytes : List UInt8) :
    Fed.Reads ⟨{ f with out := f.out ++ bytes }, []⟩ f (f.reader, Item.bytes bytes) where
  policy := rfl
  reader := rfl
  items := by simp [Fed.items]
  tail shown h := by
    refine ⟨?_, fun more => ?_⟩
    · obtain ⟨front, rfl⟩ := h.suffix
      exact ⟨front, by simp⟩
    · simpa only [sinceMark_bytes, List.append_assoc] using h.same (bytes ++ more)

/-- So are those that pass. -/
theorem pass_reads (f : Filter) (bytes : List UInt8) :
    (f.pass bytes).Reads f (f.reader, Item.bytes bytes) := by
  induction f, bytes using pass.induct with
  | case1 f =>
    rw [pass, if_pos rfl]
    exact .silent rfl rfl
  | case2 f bytes hne room now later g hfull r ih =>
    rw [pass, if_neg hne]
    simp only [show maxOut ≤ (f.out ++ bytes.take (min (maxOut - f.out.length) bytes.length)).length
      from hfull, if_true]
    have h := (f.push_reads now).trans (g.flush_reads.trans ih)
    have hcut : Item.bytes now ++ ([] ++ Item.bytes later) = Item.bytes bytes := by
      rw [List.nil_append, ← Item.bytes_append, List.take_append_drop]
    have hreader : g.flush.filter.reader = f.reader := g.flush_reads.reader
    rw [hreader, hcut] at h
    exact h
  | case3 f bytes hne room now later g hfull ih =>
    rw [pass, if_neg hne]
    simp only [show ¬ maxOut ≤ (f.out ++ bytes.take (min (maxOut - f.out.length) bytes.length)).length
      from hfull, if_false]
    have h := (f.push_reads now).trans ih
    have hcut : Item.bytes now ++ Item.bytes later = Item.bytes bytes := by
      rw [← Item.bytes_append, List.take_append_drop]
    rw [hcut] at h
    exact h

/-- A mark is read as a mark. -/
theorem emitMark_reads (f : Filter) (m : List UInt8) :
    (f.emitMark m).Reads f (f.reader, [.mark m]) := by
  have hflush := f.flush_reads
  simp only [emitMark]
  split
  · next hout =>
    refine ⟨hflush.policy, hflush.reader, ?_, fun shown h => ?_⟩
    · have h := hflush.items
      simp only [Fed.items, hout, Item.bytes_nil, List.append_nil] at h ⊢
      simp [h, Piece.items]
    · exact ⟨hout ▸ List.nil_suffix, fun more => by rw [hout]; rfl⟩
  · refine ⟨hflush.policy, hflush.reader, ?_, fun shown h => ?_⟩
    · have h := hflush.items
      simp only [Fed.items, List.append_nil] at h
      simp [Fed.items, Piece.items, ← h]
    · exact ⟨List.nil_suffix, fun more => rfl⟩

/-- A finished sequence is read as what it says. -/
theorem finish_reads (f : Filter) : f.finish.Reads f (f.reader.finish f.policy) := by
  cases hover : f.isOver with
  | true =>
    simp only [finish, Reader.finish, reader, hover, if_true]
    exact .silent rfl rfl
  | false =>
    simp only [finish, Reader.finish, reader, hover, Bool.false_eq_true, if_false, Reader.said]
    cases judge f.seq f.policy with
    | pass => exact (pass_reads _ _).of_eq rfl rfl
    | drop => exact .silent rfl rfl
    | out bytes => exact (pass_reads _ _).of_eq rfl rfl
    | mark m => exact (emitMark_reads _ m).of_eq rfl rfl

theorem gather_reader (f : Filter) (b : UInt8) (max : ℕ) :
    (f.gather b max).reader = f.reader.gather b max := by
  by_cases hmax : max ≤ f.seq.length
  · simp [gather, Reader.gather, reader, hmax]
  · cases hover : f.isOver <;> simp [gather, Reader.gather, reader, hmax, hover]

theorem gather_policy (f : Filter) (b : UInt8) (max : ℕ) :
    (f.gather b max).policy = f.policy := by
  simp only [gather]; split
  · rfl
  · split <;> rfl

theorem gather_out (f : Filter) (b : UInt8) (max : ℕ) : (f.gather b max).out = f.out := by
  simp only [gather]; split
  · rfl
  · split <;> rfl

/-- The byte that ends a sequence is gathered, and the sequence done. -/
theorem finish_gather_reads (f : Filter) (b : UInt8) (max : ℕ) :
    (f.gather b max).finish.Reads f ((f.reader.gather b max).finish f.policy) := by
  have h := (finish_reads (f.gather b max)).of_eq (gather_policy f b max) (gather_out f b max)
  rwa [gather_reader, gather_policy] at h

/-- What is gathered says nothing yet. -/
theorem gather_reads (f : Filter) (b : UInt8) (max : ℕ) :
    Fed.Reads ⟨f.gather b max, []⟩ f (f.reader.gather b max, []) := by
  rw [← gather_reader]
  exact .silent (gather_policy f b max) (gather_out f b max)

/-- A byte after ESC is read by the reader's step. -/
theorem escapeByte_reads (f : Filter) (b : UInt8) :
    (f.escapeByte b).Reads f (f.reader.escapeStep f.policy b) := by
  simp only [escapeByte, Reader.escapeStep]
  split
  · exact .silent rfl rfl
  · cases stringKind b with
    | some kind => exact .silent rfl rfl
    | none =>
      simp only
      split
      · exact .silent rfl rfl
      · split
        · exact (finish_reads { f with seq := f.seq ++ [b] }).of_eq rfl rfl
        · split
          · exact (pass_reads f [ESC]).thenSilent rfl rfl
          · split
            · exact .silent rfl rfl
            · exact pass_reads f [b]

/-- One byte: the filter says what the reader says. -/
theorem byte_reads (f : Filter) (b : UInt8) :
    (f.byte b).Reads f (Reader.step f.policy f.reader b) := by
  have hstate : f.reader.state = f.state := rfl
  simp only [byte, Reader.step, hstate]
  cases f.state with
  | ground =>
    simp only
    split
    · exact .silent rfl rfl
    · split
      · exact .silent rfl rfl
      · exact pass_reads f [b]
  | escape => exact escapeByte_reads f b
  | escapeIntermediate =>
    simp only
    split
    · exact gather_reads f b maxCsi
    · split
      · exact finish_gather_reads f b maxCsi
      · split
        · exact .silent rfl rfl
        · split
          · exact .silent rfl rfl
          · exact pass_reads f [b]
  | csi =>
    simp only
    split
    · exact gather_reads f b maxCsi
    · split
      · exact finish_gather_reads f b maxCsi
      · split
        · exact .silent rfl rfl
        · split
          · exact .silent rfl rfl
          · split
            · exact pass_reads f [b]
            · split
              · exact .silent rfl rfl
              · exact .silent rfl rfl
  | text kind =>
    simp only
    split
    · exact .silent rfl rfl
    · split
      · exact finish_gather_reads f b maxString
      · split
        · exact .silent rfl rfl
        · exact gather_reads f b maxString
  | textEscape =>
    simp only
    split
    · have h := (finish_reads ((f.gather ESC maxString).gather b maxString)).of_eq (f := f)
        ((gather_policy _ _ _).trans (gather_policy _ _ _)) ((gather_out _ _ _).trans (gather_out _ _ _))
      rwa [gather_reader, gather_reader, gather_policy, gather_policy] at h
    · have hdrop := (finish_reads { f with isOver := true }).of_eq (f := f) rfl rfl
      have h := hdrop.trans ((escapeByte_reads (({ f with isOver := true } : Filter).finish.filter.begin .escape) b).of_eq
        rfl rfl)
      exact h

end Filter

end Koh.Stream
