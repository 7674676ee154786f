import Koh.Stream.Reader
import Mathlib.Data.List.TakeWhile

/-!
# However the output is cut

A filter fed some chunks says what the reader says of their bytes
(`feedAll_reads`), and holds back exactly the incomplete character those bytes
end in (`Filter.Flushed`). So the cut plays no part: two ways to cut the same
bytes leave the same filter, and the same pieces once joined.
-/

namespace Koh.Stream

/-- Adjacent outs joined, and none of them empty. -/
def join : List Piece → List Piece
  | [] => []
  | .mark m :: pieces => .mark m :: join pieces
  | .out bytes :: pieces =>
    match join pieces with
    | .out more :: rest => .out (bytes ++ more) :: rest
    | rest => if bytes = [] then rest else .out bytes :: rest

/-- What a filter fed gave out, joined, with what it still holds back. -/
def Fed.joined (r : Fed) : List Piece := join (r.pieces ++ [.out r.filter.out])

/-- The pieces that say `items`, as few as they can be. -/
def pieceOf : List Item → List Piece
  | [] => []
  | .mark m :: items => .mark m :: pieceOf items
  | .byte b :: items =>
    match pieceOf items with
    | .out more :: rest => .out (b :: more) :: rest
    | rest => .out [b] :: rest

/-- Bytes join the Out after them. -/
theorem pieceOf_bytes_append (bytes : List UInt8) (items : List Item) :
    pieceOf (Item.bytes bytes ++ items) =
      match pieceOf items with
      | .out more :: rest => .out (bytes ++ more) :: rest
      | rest => if bytes = [] then rest else .out bytes :: rest := by
  induction bytes with
  | nil =>
    simp only [Item.bytes_nil, List.nil_append]
    split <;> simp_all
  | cons b bytes ih =>
    rw [Item.bytes_cons, List.cons_append, pieceOf, ih]
    rcases pieceOf items with _ | ⟨⟨more⟩ | ⟨m⟩, rest⟩
    · by_cases h : bytes = [] <;> simp [h]
    · rfl
    · by_cases h : bytes = [] <;> simp [h]

/-- Joined pieces are those of their items. -/
theorem join_eq_pieceOf (pieces : List Piece) :
    join pieces = pieceOf (pieces.flatMap Piece.items) := by
  induction pieces with
  | nil => rfl
  | cons p pieces ih =>
    cases p with
    | mark m => simp [join, Piece.items, pieceOf, ih]
    | out bytes =>
      rw [List.flatMap_cons, Piece.items, pieceOf_bytes_append, join, ih]

/-- Joined, pieces say what they said. -/
theorem Fed.joined_eq (r : Fed) : r.joined = pieceOf r.items := by
  rw [Fed.joined, join_eq_pieceOf]
  simp [Fed.items, Piece.items]

namespace Filter

/-- Text on the ground passes. -/
theorem run_text (policy : Policy) {r : Reader} (hground : r.state = .ground) (l : List UInt8)
    (htext : ∀ b ∈ l, isText b) :
    (Stream.reader policy).run r l = (r, Item.bytes l) := by
  induction l with
  | nil => rfl
  | cons b l ih =>
    have hb := htext b List.mem_cons_self
    simp only [isText, Bool.and_eq_true, bne_iff_ne] at hb
    have hstep : (Stream.reader policy).step r b = (r, [.byte b]) := by
      simp [Stream.reader, Reader.step, hground, hb]
    rw [Transducer.run_cons, hstep, ih fun c hc => htext c (List.mem_cons_of_mem _ hc)]
    rfl

/-- A chunk's bytes are read by the reader. -/
theorem feedLoop_reads (f : Filter) (bytes : List UInt8) :
    (f.feedLoop bytes).Reads f ((Stream.reader f.policy).run f.reader bytes) := by
  induction f, bytes using feedLoop.induct with
  | case1 f =>
    rw [feedLoop]
    exact .silent rfl rfl
  | case2 f b rest htext r ih =>
    rw [feedLoop, if_pos htext]
    have hpass := f.pass_reads (b :: rest.takeWhile isText)
    have hall : ∀ c ∈ b :: rest.takeWhile isText, isText c := by
      intro c hc
      rcases List.mem_cons.mp hc with rfl | hc
      · exact htext.2
      · exact List.mem_takeWhile_imp hc
    have hrun := run_text f.policy (r := f.reader) htext.1 _ hall
    have hcut : b :: rest = (b :: rest.takeWhile isText) ++ rest.dropWhile isText := by
      rw [List.cons_append, List.takeWhile_append_dropWhile]
    have h := hpass.trans ih
    rw [hpass.policy, hpass.reader] at h
    rw [hcut, Transducer.run_append, hrun]
    exact h
  | case3 f b rest htext r ih =>
    rw [feedLoop, if_neg htext]
    have hbyte := f.byte_reads b
    have h := hbyte.trans ih
    rw [hbyte.policy, hbyte.reader] at h
    exact h

/-- So is a chunk. -/
theorem feed_reads (f : Filter) (bytes : List UInt8) :
    (f.feed bytes).Reads f ((Stream.reader f.policy).run f.reader bytes) := by
  have h := (f.feedLoop_reads bytes).trans (f.feedLoop bytes).filter.flush_reads
  rw [List.append_nil, (f.feedLoop_reads bytes).reader] at h
  exact h

/-- Fed in any chunks, the filter says what the reader says of their bytes. -/
theorem feedAll_reads (f : Filter) (chunks : List (List UInt8)) :
    (f.feedAll chunks).Reads f ((Stream.reader f.policy).run f.reader chunks.flatten) := by
  induction chunks generalizing f with
  | nil => exact .silent rfl rfl
  | cons chunk chunks ih =>
    have hfeed := f.feed_reads chunk
    have h := hfeed.trans (ih (f.feed chunk).filter)
    rw [hfeed.policy, hfeed.reader] at h
    rw [List.flatten_cons, Transducer.run_append]
    exact h

/-! ### What is held back -/

/-- The filter holds back an incomplete character, or nothing. -/
def Flushed (f : Filter) : Prop := incompleteUtf8 f.out = f.out.length

/-- After a flush no more is held back than must be. -/
theorem flush_flushed (f : Filter) : f.flush.filter.Flushed := by
  have hle := incompleteUtf8_le_length f.out
  rw [Flushed, flush_out, incompleteUtf8_drop, List.length_drop]
  omega

/-- Nor after any chunks. -/
theorem feedAll_flushed (f : Filter) (hf : f.Flushed) (chunks : List (List UInt8)) :
    (f.feedAll chunks).filter.Flushed := by
  induction chunks generalizing f with
  | nil => exact hf
  | cons chunk chunks ih => exact ih _ (flush_flushed _)

/-- A filter flushed holds back the incomplete character `shown` ends in. -/
theorem Tail.out_eq {f : Filter} {shown : List UInt8} (h : f.Tail shown) (hf : f.Flushed) :
    f.out = shown.drop (shown.length - incompleteUtf8 shown) := by
  have hsame := h.same []
  simp only [List.append_nil] at hsame
  obtain ⟨front, hfront⟩ := h.suffix
  rw [hsame, hf, ← hfront, List.length_append, Nat.add_sub_cancel, List.drop_left]

theorem new_tail (policy : Policy) : (new policy).Tail [] :=
  ⟨List.suffix_rfl, fun _ => rfl⟩

/-- A filter is known by where its reader is and what it holds back. -/
theorem eq_of_reader {f g : Filter} (hpolicy : f.policy = g.policy) (hreader : f.reader = g.reader)
    (hout : f.out = g.out) : f = g := by
  cases f
  cases g
  simp only [reader, Reader.mk.injEq] at hreader
  simp_all

/-- Two ways to cut the same bytes leave the same filter. -/
theorem feedAll_filter_eq (policy : Policy) {xs ys : List (List UInt8)}
    (h : xs.flatten = ys.flatten) :
    ((new policy).feedAll xs).filter = ((new policy).feedAll ys).filter := by
  have hx := (new policy).feedAll_reads xs
  have hy := (new policy).feedAll_reads ys
  rw [← h] at hy
  have hnew : (new policy).Flushed := rfl
  refine eq_of_reader (hx.policy.trans hy.policy.symm) (hx.reader.trans hy.reader.symm) ?_
  rw [(hx.tail [] (new_tail policy)).out_eq (feedAll_flushed _ hnew xs),
    (hy.tail [] (new_tail policy)).out_eq (feedAll_flushed _ hnew ys)]

/-- **Filtering does not depend on the cut.** However the same bytes are cut into
feeds, the pieces are the same once joined with what is held back, and every
later feed gives the same. -/
theorem feedAll_split_irrelevant (policy : Policy) (xs ys : List (List UInt8))
    (h : xs.flatten = ys.flatten) :
    ((new policy).feedAll xs).joined = ((new policy).feedAll ys).joined ∧
      ∀ later : List (List UInt8),
        ((new policy).feedAll xs).filter.feedAll later =
          ((new policy).feedAll ys).filter.feedAll later := by
  refine ⟨?_, fun later => by rw [feedAll_filter_eq policy h]⟩
  rw [Fed.joined_eq, Fed.joined_eq, ((new policy).feedAll_reads xs).items,
    ((new policy).feedAll_reads ys).items, h]

/-- A character and a sequence, cut in three. -/
theorem feedAll_split_irrelevant_cut :
    ((new ⟨.all, true, true⟩).feedAll [[0xc3], [0xa9, ESC], [0x5b, 0x6d]]).joined =
        ((new ⟨.all, true, true⟩).feedAll [[0xc3, 0xa9, ESC, 0x5b, 0x6d]]).joined ∧
      ∀ later : List (List UInt8),
        ((new ⟨.all, true, true⟩).feedAll [[0xc3], [0xa9, ESC], [0x5b, 0x6d]]).filter.feedAll later =
          ((new ⟨.all, true, true⟩).feedAll [[0xc3, 0xa9, ESC, 0x5b, 0x6d]]).filter.feedAll later :=
  feedAll_split_irrelevant _ _ _ rfl

end Filter

end Koh.Stream
