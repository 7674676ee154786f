import Koh.Sync.Glob
import Koh.Wire.Bounded

/-!
# A pattern at both ends

An `--exclude` pattern is made of what the user typed, less a `/` at its end, and made again
of that at the other end of a copy. So it is the same there only where no `/` is left to
take off, and something is left at all.

## Main definitions

- `Pattern.new`: what a pattern is made of
- `Pattern.encode`, `Pattern.decode`: a pattern on the wire
- `Pattern.Agrees`: a pattern that the other end has too, and excludes by alike

## Main results

- `new_bytes`: making a pattern of one's own bytes
- `agrees_iff`: the ends agree exactly on what does not end in `//` and is not `/`
- `Excludes.reads_encode_iff`: and so on all patterns
-/

namespace Koh.Sync

open Koh.Lib Koh.Wire

/-- The bytes less a `/` at their end. -/
def stripSlash (bytes : Bytes) : Bytes :=
  if bytes.getLast? = some 0x2f then bytes.dropLast else bytes

theorem stripSlash_sublist (bytes : Bytes) : (stripSlash bytes).Sublist bytes := by
  unfold stripSlash
  split
  · exact List.dropLast_sublist bytes
  · exact .refl bytes

def patternError : String := "an --exclude pattern is 1 to 1024 bytes, no NUL"

/-- What `Pattern::new` refuses. -/
def refused (bytes : Bytes) : Prop := bytes = [] ∨ maxPattern < bytes.length ∨ 0 ∈ bytes

instance (bytes : Bytes) : Decidable (refused bytes) :=
  inferInstanceAs (Decidable (_ ∨ _ ∨ _))

namespace Pattern

def new (bytes : Bytes) : Except String Pattern :=
  if h : refused bytes then .error patternError
  else .ok ⟨stripSlash bytes, by
    simp only [refused, not_or, Nat.not_lt] at h
    have hsub := stripSlash_sublist bytes
    exact ⟨hsub.length_le.trans h.2.1, fun hin => h.2.2 (hsub.subset hin)⟩⟩

def encode (vt : Varint) (p : Pattern) : Bytes := putBytes vt p.bytes

/-- A pattern off the wire is made again of its bytes. -/
def decode (vt : Varint) : Take Pattern := do
  let bytes ← atMost vt maxPattern takeByte
  match new bytes with
  | .ok p => pure p
  | .error _ => failure

/-- The other end decodes the pattern to the one here, and excludes what this one does. -/
structure Agrees (vt : Varint) (p : Pattern) : Prop where
  decoded : Reads (decode vt) (p.encode vt) p
  excludes : ∀ q, Reads (decode vt) (p.encode vt) q →
    ∀ name path, q.excludes name path = p.excludes name path

/-- A pattern is its bytes. -/
theorem ext_bytes {p q : Pattern} (h : p.bytes = q.bytes) : p = q := by
  cases p
  cases q
  cases h
  rfl

/-- A pattern is taken unless its bytes are refused, and loses one slash. -/
theorem new_eq_ok_iff {bytes : Bytes} {p : Pattern} :
    new bytes = .ok p ↔ ¬ refused bytes ∧ p.bytes = stripSlash bytes := by
  unfold new
  split
  · next h => simp [h]
  · next h =>
    simp only [Except.ok.injEq, h, not_false_eq_true, true_and]
    constructor
    · rintro rfl
      rfl
    · exact fun hbytes => (ext_bytes hbytes).symm

def again (p : Pattern) : Option Pattern := (new p.bytes).toOption

/-- A pattern is taken again. -/
theorem again_eq_some_iff {p q : Pattern} : p.again = some q ↔ new p.bytes = .ok q := by
  unfold again
  cases new p.bytes with
  | ok r => simp [Except.toOption]
  | error e => simp [Except.toOption]

/-- What is decoded is what is made of the pattern's own bytes. -/
theorem decode_encode (vt : Varint) (p : Pattern) (rest : Bytes) :
    (decode vt).run (p.encode vt ++ rest) = p.again.map (·, rest) := by
  have hread := reads_atMost_bytes vt (by decide) p.valid.1 rest
  unfold decode encode again
  rw [StateT.run_bind, hread]
  show (match new p.bytes with
    | .ok q => pure q
    | .error _ => failure : Take Pattern).run rest = _
  cases new p.bytes with
  | ok q => rfl
  | error e => rfl

/-- A pattern is read back as what it is taken for again. -/
theorem reads_iff (vt : Varint) (p q : Pattern) :
    Reads (decode vt) (p.encode vt) q ↔ new p.bytes = .ok q := by
  rw [← again_eq_some_iff]
  constructor
  · intro h
    have hnil := h []
    rw [decode_encode] at hnil
    simpa using hnil
  · intro h rest
    rw [decode_encode, h]
    rfl

/-- A pattern is made of its own bytes exactly where there are some, and no `/` ends them. -/
theorem new_bytes {p : Pattern} :
    new p.bytes = .ok p ↔ p.bytes ≠ [] ∧ p.bytes.getLast? ≠ some 0x2f := by
  rw [new_eq_ok_iff]
  constructor
  · rintro ⟨hrefused, hbytes⟩
    refine ⟨fun hnil => hrefused (.inl hnil), fun hlast => ?_⟩
    rw [stripSlash, if_pos hlast] at hbytes
    have hlen := congrArg List.length hbytes
    have hpos : 0 < p.bytes.length :=
      List.length_pos_iff.mpr fun hnil => hrefused (.inl hnil)
    rw [List.length_dropLast] at hlen
    omega
  · rintro ⟨hne, hlast⟩
    refine ⟨?_, by rw [stripSlash, if_neg hlast]⟩
    simp only [refused, not_or, Nat.not_lt]
    exact ⟨hne, p.valid⟩

end Pattern

namespace Excludes

def excludesError : String := "more than 256 --exclude patterns"

def new (patterns : List Pattern) : Except String Excludes :=
  if h : patterns.length ≤ maxExcludes then .ok ⟨patterns, h⟩ else .error excludesError

def encode (vt : Varint) (e : Excludes) : Bytes := putSeq vt (Pattern.encode vt) e.patterns

def decode (vt : Varint) : Take Excludes := do
  let patterns ← atMost vt maxExcludes (Pattern.decode vt)
  match new patterns with
  | .ok e => pure e
  | .error _ => failure

end Excludes

/-- Whether a `/` is left at the end once one is taken off, or nothing is. -/
theorem stripSlash_again {bytes : Bytes} (hne : bytes ≠ []) :
    (stripSlash bytes ≠ [] ∧ (stripSlash bytes).getLast? ≠ some 0x2f) ↔
      bytes ≠ [0x2f] ∧ ¬ [0x2f, 0x2f] <:+ bytes := by
  obtain ⟨init, last, rfl⟩ := (List.eq_nil_or_concat' bytes).resolve_left hne
  by_cases hlast : last = 0x2f
  · subst hlast
    have hstrip : stripSlash (init ++ [0x2f]) = init := by simp [stripSlash]
    rw [hstrip]
    refine and_congr (by simp) (not_congr ?_)
    constructor
    · intro h
      obtain ⟨ys, rfl⟩ := List.getLast?_eq_some_iff.mp h
      exact ⟨ys, by simp⟩
    · rintro ⟨ys, hys⟩
      have hslashes : (ys ++ [0x2f]) ++ [0x2f] = init ++ [0x2f] := by simpa using hys
      have hinit : ys ++ [0x2f] = init := List.append_cancel_right hslashes
      rw [← hinit]
      simp
  · have hstrip : stripSlash (init ++ [last]) = init ++ [last] := by simp [stripSlash, hlast]
    rw [hstrip]
    refine iff_of_true ⟨by simp, by simpa using hlast⟩ ⟨?_, ?_⟩
    · intro h
      have heq : last = 0x2f := by simpa using congrArg List.getLast? h
      exact hlast heq
    · rintro ⟨ys, hys⟩
      have heq := congrArg List.getLast? hys
      simp only [List.getLast?_append, List.getLast?_cons_cons, List.getLast?_singleton,
        Option.some_or, Option.some.injEq] at heq
      exact hlast heq.symm

/-- A pattern is made again of its own bytes exactly where what it was made of is not `/` and does
not end in `//`. -/
theorem Pattern.new_again {bytes : Bytes} {p : Pattern} (h : Pattern.new bytes = .ok p) :
    Pattern.new p.bytes = .ok p ↔ bytes ≠ [0x2f] ∧ ¬ [0x2f, 0x2f] <:+ bytes := by
  obtain ⟨hrefused, hbytes⟩ := Pattern.new_eq_ok_iff.mp h
  have hne : bytes ≠ [] := fun hnil => hrefused (.inl hnil)
  rw [← stripSlash_again hne, ← hbytes, Pattern.new_bytes]

/-- **Both ends exclude by the same pattern** exactly where what it was made of is not `/` and does
not end in `//`. -/
theorem agrees_iff (vt : Varint) {bytes : Bytes} {p : Pattern} (h : Pattern.new bytes = .ok p) :
    p.Agrees vt ↔ bytes ≠ [0x2f] ∧ ¬ [0x2f, 0x2f] <:+ bytes := by
  rw [← Pattern.new_again h]
  constructor
  · exact fun hagrees => (Pattern.reads_iff vt p p).mp hagrees.decoded
  · intro hnew
    refine ⟨(Pattern.reads_iff vt p p).mpr hnew, fun q hq name path => ?_⟩
    have hq := (Pattern.reads_iff vt p q).mp hq
    rw [hnew] at hq
    rw [Except.ok.inj hq]

/-- In `agrees_iff`, `a/` is `a` at both ends. -/
theorem one_slash_agrees : (⟨[0x61], by decide⟩ : Pattern).Agrees leb128 :=
  (agrees_iff leb128 (rfl : Pattern.new [0x61, 0x2f] = .ok _)).mpr ⟨by decide, by decide⟩

/-- `a//` is `a/` here, which matches no path, and `a` at the other end, which matches the name of
`x/a`. -/
theorem two_slashes_differ :
    ∃ p q : Pattern, Pattern.new [0x61, 0x2f, 0x2f] = .ok p ∧
      Reads (Pattern.decode leb128) (p.encode leb128) q ∧
      q.excludes [0x61] [0x78, 0x2f, 0x61] = true ∧
      p.excludes [0x61] [0x78, 0x2f, 0x61] = false ∧ ¬ p.Agrees leb128 := by
  have hq : Reads (Pattern.decode leb128)
      (Pattern.encode leb128 ⟨[0x61, 0x2f], by decide⟩) ⟨[0x61], by decide⟩ :=
    (Pattern.reads_iff leb128 _ _).mpr rfl
  have hother : Pattern.excludes ⟨[0x61], by decide⟩ [0x61] [0x78, 0x2f, 0x61] = true := by decide
  have hhere : Pattern.excludes ⟨[0x61, 0x2f], by decide⟩ [0x61] [0x78, 0x2f, 0x61] = false := by
    decide
  refine ⟨⟨[0x61, 0x2f], by decide⟩, _, rfl, hq, hother, hhere, fun hagrees => ?_⟩
  have hsame := hagrees.excludes _ hq [0x61] [0x78, 0x2f, 0x61]
  rw [hother, hhere] at hsame
  cases hsame

/-! ### All patterns -/

namespace Excludes

/-- All patterns are made again of their own bytes, or not all are. -/
theorem mapM_again {patterns : List Pattern} :
    patterns.mapM Pattern.again = some patterns ↔ ∀ p ∈ patterns, Pattern.new p.bytes = .ok p := by
  induction patterns with
  | nil => simp
  | cons p patterns ih =>
    rw [List.mapM_cons, List.forall_mem_cons, ← ih, ← Pattern.again_eq_some_iff]
    constructor
    · intro h
      obtain ⟨q, hq, hrest⟩ := Option.bind_eq_some_iff.mp h
      obtain ⟨qs, hqs, heq⟩ := Option.bind_eq_some_iff.mp hrest
      obtain ⟨rfl, rfl⟩ := List.cons.inj (Option.some.inj heq)
      exact ⟨hq, hqs⟩
    · rintro ⟨hp, hrest⟩
      rw [hp, hrest]
      rfl

/-- The other end has the same patterns exactly where each is made again of its own bytes. -/
theorem reads_iff (vt : Varint) (e : Excludes) :
    Reads (decode vt) (e.encode vt) e ↔ ∀ p ∈ e.patterns, Pattern.new p.bytes = .ok p := by
  have hrun : ∀ rest, (decode vt).run (e.encode vt ++ rest) =
      (e.patterns.mapM Pattern.again).bind fun patterns => match new patterns with
        | .ok e' => some (e', rest)
        | .error _ => none := by
    intro rest
    unfold decode encode
    rw [StateT.run_bind, run_atMost vt (by decide) e.le (Pattern.decode_encode vt)]
    cases e.patterns.mapM Pattern.again with
    | none => rfl
    | some patterns =>
      show (match new patterns with
        | .ok e' => pure e'
        | .error _ => failure : Take Excludes).run rest = _
      cases hnew : new patterns with
      | ok e' => simp [hnew]
      | error why =>
        rw [Option.bind_some, hnew]
        rfl
  rw [← mapM_again]
  constructor
  · intro h
    have hnil := h []
    rw [hrun] at hnil
    obtain ⟨patterns, hpatterns, hnew⟩ := Option.bind_eq_some_iff.mp hnil
    rw [hpatterns]
    unfold new at hnew
    split at hnew
    · next heq =>
      split at heq <;> cases heq
      cases hnew
      rfl
    · cases hnew
  · intro h rest
    rw [hrun, h]
    have hnew : new e.patterns = .ok e := dif_pos e.le
    simp [hnew]

/-- **Exclude patterns arrive as they are** exactly where none of what the user typed is `/` or
ends in `//`. -/
theorem reads_encode_iff (vt : Varint) {typed : List Bytes} {patterns : List Pattern} {e : Excludes}
    (hpatterns : typed.mapM Pattern.new = .ok patterns) (he : new patterns = .ok e) :
    Reads (decode vt) (e.encode vt) e ↔
      ∀ bytes ∈ typed, bytes ≠ [0x2f] ∧ ¬ [0x2f, 0x2f] <:+ bytes := by
  have hsame : e.patterns = patterns := by
    unfold new at he
    split at he <;> cases he
    rfl
  rw [reads_iff, hsame]
  clear he hsame
  induction typed generalizing patterns with
  | nil =>
    cases hpatterns
    simp
  | cons bytes typed ih =>
    rw [List.mapM_cons] at hpatterns
    cases hnew : Pattern.new bytes with
    | error why => simp [hnew, bind, Except.bind] at hpatterns
    | ok p =>
      cases hrest : typed.mapM Pattern.new with
      | error why => simp [hnew, hrest, bind, Except.bind] at hpatterns
      | ok rest =>
        have hcons : patterns = p :: rest := by
          simpa [hnew, hrest, bind, Except.bind, pure, Except.pure, eq_comm] using hpatterns
        rw [hcons, List.forall_mem_cons, List.forall_mem_cons]
        exact and_congr (Pattern.new_again hnew) (ih hrest)

/-- In `reads_encode_iff`, two patterns arrive, one of them typed with a `/` at its end. -/
theorem reads_encode_iff_two :
    Reads (decode leb128)
      (encode leb128 ⟨[⟨[0x2a, 0x2e, 0x6f], by decide⟩, ⟨[0x61, 0x2f, 0x62], by decide⟩], by decide⟩)
      ⟨[⟨[0x2a, 0x2e, 0x6f], by decide⟩, ⟨[0x61, 0x2f, 0x62], by decide⟩], by decide⟩ :=
  have hpatterns : [[0x2a, 0x2e, 0x6f], [0x61, 0x2f, 0x62, 0x2f]].mapM Pattern.new =
      .ok [⟨[0x2a, 0x2e, 0x6f], by decide⟩, ⟨[0x61, 0x2f, 0x62], by decide⟩] := rfl
  (reads_encode_iff leb128 hpatterns rfl).mpr (by decide)

end Excludes

end Koh.Sync
