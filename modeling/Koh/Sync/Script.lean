import Koh.Lib.Way
import Koh.Sync.Send

/-!
# What an honest sender writes

The sender's output without its threads and channels: what is left of the walk,
the files whose headers went and what they were answered, and the file whose
bytes are being sent. An item is written from such a state and leaves the next.

## Main definitions

- `Fits`: commands that open and end directories in pairs
- `Script`: how far the sender is with its output
- `Script.Writes`: an item it may write

## Main results

- `walk_fits`: the walk of any sources fits
- `Script.Writes.answered`: an item is the same once a header in flight is answered
- `Script.Writes.numbered`: no two files held have one number

## Design notes

Answers come in the order of the headers, so a file's answer is kept with it
(`held`), and the first file of those held is the next to be acted on.
-/

namespace Koh.Sync

/-! ### Directories in pairs -/

/-- An entry may come: not at the top, or the first there if it has a name to land as. -/
def Tops (named : Bool) (depth placed : ℕ) : Prop := depth = 0 → named = true → placed = 0

/-- How many entries came at the top, with one more `depth` directories deep. -/
def topped (depth placed : ℕ) : ℕ := if depth = 0 then placed + 1 else placed

/-- What comes `depth` directories deep, after `placed` entries at the top: each
directory that is opened is ended, up to a failure. -/
def Fits (named : Bool) : ℕ → ℕ → List Cmd → Prop
  | depth, _, [] => depth = 0
  | depth, placed, .item (.dir ..) :: rest =>
    Tops named depth placed ∧ Fits named (depth + 1) (topped depth placed) rest
  | depth, placed, .item (.contents ..) :: rest =>
    depth = 0 ∧ Tops named depth placed ∧
      Fits named 1 (if named then placed + 1 else placed) rest
  | depth, placed, .item .dirEnd :: rest => 0 < depth ∧ Fits named (depth - 1) placed rest
  | depth, placed, .item (.skipped _) :: rest => 0 < depth ∧ Fits named depth placed rest
  | _, _, .item _ :: _ => False
  | depth, placed, .symlink .. :: rest =>
    Tops named depth placed ∧ Fits named depth (topped depth placed) rest
  | depth, placed, .file .. :: rest =>
    Tops named depth placed ∧ Fits named depth (topped depth placed) rest
  | _, _, .fail failure :: _ => failure.kind ≠ .malformed

theorem FailKind.of_ne_malformed (e : Errno) : FailKind.of e ≠ .malformed := by
  cases e <;> simp [FailKind.of]

theorem topped_of_pos {depth placed : ℕ} (h : 0 < depth) : topped depth placed = placed :=
  if_neg h.ne'

theorem Tops.of_pos {named : Bool} {depth placed : ℕ} (h : 0 < depth) : Tops named depth placed :=
  fun h0 => absurd h0 h.ne'

section

variable {named : Bool} {rest : List Cmd} (opts : Opts)

/-- A directory fits, if what is inside does. -/
theorem fits_framed {name : Name} {rel : Path} {mode d placed : ℕ} {mtime : Option Time}
    {inside : List Cmd} (htops : Tops named d placed)
    (hinside : Fits named (d + 1) (topped d placed) (inside ++ .item .dirEnd :: rest)) :
    Fits named d placed (Sender.framed (some name) rel (d + 1) mode mtime inside ++ rest) := by
  unfold Sender.framed
  split
  · simp [Fits, Failure.new]
  · simpa [Fits, Sender.headItem] using ⟨htops, hinside⟩

mutual

/-- Every entry fits. -/
theorem entry_fits (tree : Path) (name : Name) (rel : Path) (d placed : ℕ) {rest : List Cmd}
    (node : Node) (htops : Tops named d placed) (hrest : Fits named d (topped d placed) rest) :
    Fits named d placed (Sender.entry opts tree name rel (d + 1) node ++ rest) := by
  cases node with
  | failing error => simp [Sender.entry, Fits, Failure.new, FailKind.of_ne_malformed]
  | file file => exact ⟨htops, hrest⟩
  | link target =>
    simp only [Sender.entry]
    split
    · exact ⟨htops, hrest⟩
    · simp [Fits, Failure.new]
  | other =>
    simp only [Sender.entry]
    split
    · simp [Fits, Failure.new]
    · next hd =>
      have hpos : 0 < d := by omega
      rw [topped_of_pos hpos] at hrest
      exact ⟨hpos, hrest⟩
  | dir mode mtime entries =>
    refine fits_framed htops (inside_fits _ rel (d + 1) _ entries (Nat.succ_pos d) ?_)
    simpa [Fits] using hrest

/-- So do all of a directory. -/
theorem inside_fits (tree rel : Path) (d placed : ℕ) {rest : List Cmd} (entries : Forest)
    (hd : 0 < d) (hrest : Fits named d placed rest) :
    Fits named d placed (Sender.inside opts tree rel d entries ++ rest) := by
  cases entries with
  | nil => exact hrest
  | cons bytes node entries =>
    simp only [Sender.inside]
    split
    · simp [Fits, Failure.new]
    · have hmore := inside_fits tree rel d placed entries hd hrest
      rw [List.append_assoc]
      split
      · exact hmore
      · exact entry_fits tree _ _ d placed node (.of_pos hd) ((topped_of_pos hd).symm ▸ hmore)

end

/-- What is in a directory, at the top. -/
theorem contents_fits {rel : Path} {mode placed : ℕ} {mtime : Option Time} {entries : Forest}
    (htops : Tops named 0 placed) (hrest : ∀ placed, Fits named 0 placed rest) :
    Fits named 0 placed (Sender.dir opts none rel mode mtime entries ++ rest) := by
  unfold Sender.dir Sender.framed
  split
  · simp [Fits, Failure.new]
  · simp only [Sender.headItem, List.cons_append, List.append_assoc, List.nil_append]
    refine ⟨rfl, htops, inside_fits opts rel rel 1 _ entries Nat.one_pos ?_⟩
    exact ⟨Nat.one_pos, hrest _⟩

/-- So does the directory. -/
theorem dir_fits {name : Name} {rel : Path} {mode placed : ℕ} {mtime : Option Time}
    {entries : Forest} (htops : Tops named 0 placed) (hrest : Fits named 0 (placed + 1) rest) :
    Fits named 0 placed (Sender.dir opts (some name) rel mode mtime entries ++ rest) := by
  refine fits_framed htops (inside_fits opts rel rel 1 _ entries Nat.one_pos ?_)
  exact ⟨Nat.one_pos, hrest⟩

/-- So does every source. -/
theorem source_fits {placed : ℕ} (source : Source) (htops : Tops named 0 placed)
    (hrest : ∀ placed, Fits named 0 placed rest) :
    Fits named 0 placed (Sender.source opts source ++ rest) := by
  cases source with
  | path path found =>
    simp only [Sender.source]
    split
    · simp [Fits, Failure.new]
    · generalize (if Sender.bringsContents path then none
        else (Sender.fileName path).bind Name.new) = name
      cases found with
      | failing error => simp [Fits, Failure.new, FailKind.of_ne_malformed]
      | dir mode mtime entries =>
        cases name with
        | none => exact contents_fits opts htops hrest
        | some name => exact dir_fits opts htops (hrest _)
      | file file =>
        cases name with
        | none => simp [Fits, Failure.new]
        | some name => exact ⟨htops, hrest _⟩
      | link target => cases name <;> simp [Fits, Failure.new]
      | other => cases name <;> simp [Fits, Failure.new]
  | beneath path found =>
    simp only [Sender.source]
    cases hlast : path.getLast? with
    | none =>
      cases found with
      | failing error => simp [Fits, Failure.new, FailKind.of_ne_malformed]
      | dir mode mtime entries => exact contents_fits opts htops hrest
      | _ => simp [Fits, Failure.new]
    | some last =>
      have hentry := entry_fits opts [] last path 0 placed found htops (hrest _)
      cases found with
      | failing error => simp [Fits, Failure.new, FailKind.of_ne_malformed]
      | _ => exact hentry

/-- The walk of any sources fits: of one at most if it has a name to land as. -/
theorem walk_fits (sources : List Source) (hone : named = true → sources.length ≤ 1) :
    Fits named 0 0 (Sender.walk opts sources) := by
  cases named with
  | true =>
    match sources, hone rfl with
    | [], _ => rfl
    | [source], _ =>
      have hfits : Fits true 0 0 (Sender.source opts source ++ []) :=
        source_fits opts source (fun _ _ => rfl) fun _ => rfl
      simpa [Sender.walk] using hfits
  | false =>
    have hall : ∀ placed, Fits false 0 placed (Sender.walk opts sources) := by
      induction sources with
      | nil => exact fun _ => rfl
      | cons source sources ih =>
        intro placed
        exact source_fits opts source (by simp [Tops]) (ih (by simp))
    exact hall 0

end

/-! ### The script -/

/-- A file whose header went, and what it was answered, if it was. -/
abbrev Held := Awaiting × Option Answer

/-- The first of those not answered is answered `a`. -/
def fill (a : Answer) : List Held → List Held
  | [] => []
  | (file, none) :: rest => (file, some a) :: rest
  | (file, some b) :: rest => (file, some b) :: fill a rest

/-- The first of those not answered. -/
def asked (held : List Held) : Option Awaiting := (held.find? (·.2.isNone)).map Prod.fst

@[simp] theorem fill_files (a : Answer) (held : List Held) :
    (fill a held).map Prod.fst = held.map Prod.fst := by
  induction held with
  | nil => rfl
  | cons h rest ih =>
    obtain ⟨file, _ | b⟩ := h
    · rfl
    · simp [fill, ih]

/-- The first that is asked has those answered before it. -/
theorem asked_split {held : List Held} {f : Awaiting} (h : asked held = some f) :
    ∃ before after, held = before ++ (f, none) :: after ∧ ∀ x ∈ before, x.2.isSome := by
  obtain ⟨⟨g, o⟩, hfind, rfl⟩ := Option.map_eq_some_iff.mp h
  obtain ⟨hnone, before, after, rfl, hbefore⟩ := List.find?_eq_some_iff_append.mp hfind
  rw [Option.isNone_iff_eq_none] at hnone
  subst hnone
  exact ⟨before, after, rfl, fun x hx => by simpa using hbefore x hx⟩

/-- It is the one that is answered. -/
theorem fill_split (a : Answer) {before after : List Held} {f : Awaiting}
    (h : ∀ x ∈ before, x.2.isSome) :
    fill a (before ++ (f, none) :: after) = before ++ (f, some a) :: after := by
  induction before with
  | nil => rfl
  | cons x before ih =>
    obtain ⟨file, _ | b⟩ := x
    · exact absurd (h _ List.mem_cons_self) (by simp)
    · simp only [List.cons_append, fill, ih fun y hy => h y (List.mem_cons_of_mem _ hy)]

/-- More files leave it the first. -/
theorem asked_append {held more : List Held} {f : Awaiting} (h : asked held = some f) :
    asked (held ++ more) = some f := by
  obtain ⟨x, hfind, rfl⟩ := Option.map_eq_some_iff.mp h
  simp [asked, List.find?_append, hfind]

/-- And the answer its own. -/
theorem fill_append (a : Answer) {held more : List Held} {f : Awaiting} (h : asked held = some f) :
    fill a (held ++ more) = fill a held ++ more := by
  obtain ⟨before, after, rfl, hbefore⟩ := asked_split h
  rw [List.append_assoc, List.cons_append, fill_split a hbefore, fill_split a hbefore,
    List.append_assoc, List.cons_append]

/-- How far the sender is with what it writes. -/
structure Script where
  todo : List Cmd
  next : FileId
  /-- The files whose headers went, in their order. -/
  held : List Held
  /-- The file whose bytes go, and from where on. -/
  reading : Option (SourceFile × ℕ)
  /-- The last item went. -/
  finished : Bool

namespace Script

/-- Between files' bytes, and before the last item. -/
def Between (s : Script) : Prop := s.reading = none ∧ s.finished = false

/-- The next item that an honest sender may write, and what is left then. -/
inductive Writes (digest : Bytes → Bytes) (dry : Bool) (s : Script) : Item → Script → Prop
  | item {i : Item} {rest : List Cmd} : s.Between → s.todo = .item i :: rest →
      Writes digest dry s i { s with todo := rest }
  | symlink {name : Name} {target : LinkTarget} {rest : List Cmd} : s.Between →
      s.todo = .symlink name target :: rest →
      Writes digest dry s (.symlink name target) { s with todo := rest }
  | header {file : SourceFile} {name : Name} {path : Bytes} {rest : List Cmd} : s.Between →
      s.todo = .file file name path :: rest → s.held.length < WINDOW →
      Writes digest dry s (.file (Sender.header s.next name file)) { s with
        todo := rest
        next := s.next + 1
        held := s.held ++ [(⟨s.next, file, path⟩, none)] }
  | same {f : Awaiting} {a : Answer} {rest : List Held} : s.Between →
      s.held = (f, some a) :: rest → Sender.startOf digest f.file a = some none →
      Writes digest dry s (.same f.id) { s with held := rest }
  | differs {f : Awaiting} {a : Answer} {start : ℕ} {rest : List Held} : s.Between → dry = true →
      s.held = (f, some a) :: rest → Sender.startOf digest f.file a = some (some start) →
      Writes digest dry s (.differs f.id start) { s with held := rest }
  | data {f : Awaiting} {a : Answer} {start : ℕ} {rest : List Held} : s.Between → dry = false →
      s.held = (f, some a) :: rest → Sender.startOf digest f.file a = some (some start) →
      Writes digest dry s (.data f.id start) { s with
        held := rest
        reading := some (f.file, start) }
  | chunk {file : SourceFile} {offset n : ℕ} {c : Chunk} : s.finished = false →
      s.reading = some (file, offset) → file.readAt offset n = .bytes c →
      Writes digest dry s (.chunk c) { s with reading := some (file, offset + c.bytes.length) }
  | sent {file : SourceFile} {offset n : ℕ} : s.finished = false →
      s.reading = some (file, offset) → file.readAt offset n = .eof →
      Writes digest dry s .sent { s with reading := none }
  | allDone : s.Between → s.todo = [] → s.held = [] →
      Writes digest dry s .allDone { s with finished := true }
  | failed {failure : Failure} : s.Between → failure.kind ≠ .malformed →
      Writes digest dry s (.failed failure) { s with finished := true }

/-- The first header not answered is answered `a`. -/
def answered (a : Answer) (s : Script) : Script := { s with held := fill a s.held }

variable {digest : Bytes → Bytes} {dry : Bool} {s s' : Script} {i : Item}

/-- An item written while a header is in flight is the same once it is answered. -/
theorem Writes.answered (a : Answer) {f : Awaiting} (hasked : asked s.held = some f)
    (h : Writes digest dry s i s') :
    asked s'.held = some f ∧ Writes digest dry (s.answered a) i (s'.answered a) := by
  have hpop : ∀ {g : Awaiting} {b : Answer} {rest : List Held}, s.held = (g, some b) :: rest →
      asked rest = some f ∧ fill a s.held = (g, some b) :: fill a rest := by
    intro g b rest hheld
    rw [hheld] at hasked ⊢
    exact ⟨hasked, rfl⟩
  cases h with
  | item hbetween htodo => exact ⟨hasked, .item hbetween htodo⟩
  | symlink hbetween htodo => exact ⟨hasked, .symlink hbetween htodo⟩
  | header hbetween htodo hroom =>
    refine ⟨asked_append hasked, ?_⟩
    have hlen : (s.answered a).held.length < WINDOW := by
      have hfiles := congrArg List.length (fill_files a s.held)
      simp only [List.length_map] at hfiles
      exact hfiles ▸ hroom
    have hwrites : Writes digest dry (s.answered a) _ _ := .header hbetween htodo hlen
    simpa only [Script.answered, fill_append a hasked] using hwrites
  | same hbetween hheld hstart =>
    obtain ⟨hrest, hfill⟩ := hpop hheld
    exact ⟨hrest, .same (s := s.answered a) hbetween hfill hstart⟩
  | differs hbetween hdry hheld hstart =>
    obtain ⟨hrest, hfill⟩ := hpop hheld
    exact ⟨hrest, .differs (s := s.answered a) hbetween hdry hfill hstart⟩
  | data hbetween hdry hheld hstart =>
    obtain ⟨hrest, hfill⟩ := hpop hheld
    exact ⟨hrest, .data (s := s.answered a) hbetween hdry hfill hstart⟩
  | chunk hgoing hreading hread => exact ⟨hasked, .chunk (s := s.answered a) hgoing hreading hread⟩
  | sent hgoing hreading hread => exact ⟨hasked, .sent (s := s.answered a) hgoing hreading hread⟩
  | allDone hbetween htodo hheld =>
    rw [hheld] at hasked
    cases hasked
  | failed hbetween hkind => exact ⟨hasked, .failed (s := s.answered a) hbetween hkind⟩

/-! ### The files held -/

/-- `count` numbers, from `first` on. -/
def numbers (first : FileId) : ℕ → List FileId
  | 0 => []
  | count + 1 => first :: numbers (first + 1) count

theorem numbers_snoc (first : FileId) (count : ℕ) :
    numbers first (count + 1) = numbers first count ++ [first + UInt32.ofNat count] := by
  induction count generalizing first with
  | zero => simp [numbers]
  | succ count ih =>
    have hnext : first + 1 + UInt32.ofNat count = first + UInt32.ofNat (count + 1) := by
      rw [UInt32.ofNat_add, UInt32.add_assoc, UInt32.add_comm 1]
      rfl
    rw [numbers, ih, hnext]
    rfl

/-- The numbers go up one by one. -/
theorem mem_numbers {first id : FileId} {count : ℕ} (h : id ∈ numbers first count) :
    ∃ k < count, id = first + UInt32.ofNat k := by
  induction count with
  | zero => cases h
  | succ count ih =>
    rw [numbers_snoc, List.mem_append, List.mem_singleton] at h
    rcases h with h | rfl
    · obtain ⟨k, hk, rfl⟩ := ih h
      exact ⟨k, hk.trans (Nat.lt_succ_self _), rfl⟩
    · exact ⟨count, Nat.lt_succ_self _, rfl⟩

/-- As many as a window's numbers do not come round. -/
theorem add_ofNat_inj {first : FileId} {j k : ℕ} (hj : j < 2 ^ 32) (hk : k < 2 ^ 32)
    (h : first + UInt32.ofNat j = first + UInt32.ofNat k) : j = k := by
  have hof : UInt32.ofNat j = UInt32.ofNat k := by
    have := congrArg (fun x => x - first) h
    simpa [UInt32.add_comm first] using this
  have hnat := congrArg UInt32.toNat hof
  rwa [UInt32.toNat_ofNat', UInt32.toNat_ofNat', Nat.mod_eq_of_lt hj, Nat.mod_eq_of_lt hk] at hnat

/-- They are all different, if they are no more than there are. -/
theorem numbers_nodup {first : FileId} {count : ℕ} (hcount : count ≤ 2 ^ 32) :
    (numbers first count).Nodup := by
  induction count with
  | zero => exact .nil
  | succ count ih =>
    rw [numbers_snoc, List.nodup_append]
    refine ⟨ih (by omega), by simp, ?_⟩
    rintro id hid _ hlast rfl
    obtain ⟨k, hk, hidk⟩ := mem_numbers hid
    have heq := add_ofNat_inj (by omega) (by omega) (hidk.symm.trans (List.mem_singleton.mp hlast))
    omega

/-- What holds of an honest sender: the numbers of the files it holds follow one
another, those answered come first, and it opens and ends directories in pairs. -/
structure Sound (s : Script) : Prop where
  ids : ∃ first, s.held.map (·.1.id) = numbers first s.held.length ∧
    s.next = first + UInt32.ofNat s.held.length
  room : s.held.length ≤ WINDOW
  answers : ∀ h ∈ s.held, ∀ a, h.2 = some a → a.id = h.1.id
  order : s.held.Pairwise fun h h' => h'.2.isSome → h.2.isSome
  fits : ∃ named depth placed, Fits named depth placed s.todo

/-- The files that wait have different numbers. -/
theorem Sound.nodup (h : s.Sound) : (s.held.map (·.1.id)).Nodup := by
  obtain ⟨first, hids, -⟩ := h.ids
  rw [hids]
  exact numbers_nodup (h.room.trans (by decide))

/-- The number of the next header is none of those held. -/
theorem Sound.next_fresh (h : s.Sound) : s.next ∉ s.held.map (·.1.id) := by
  obtain ⟨first, hids, hnext⟩ := h.ids
  rw [hids, hnext]
  intro hmem
  obtain ⟨k, hk, heq⟩ := mem_numbers hmem
  have hroom : s.held.length < 2 ^ 32 := h.room.trans_lt (by decide)
  exact hk.ne (add_ofNat_inj hroom (hk.trans hroom) heq).symm

/-- The first file held is done with. -/
theorem Sound.tail {x : Held} {rest : List Held} (h : s.Sound) (hheld : s.held = x :: rest)
    (reading : Option (SourceFile × ℕ)) : ({ s with held := rest, reading := reading } : Script).Sound := by
  obtain ⟨first, hids, hnext⟩ := h.ids
  simp only [hheld, List.map_cons, List.length_cons, numbers, List.cons.injEq] at hids hnext
  refine ⟨⟨first + 1, hids.2, ?_⟩, ?_, fun y hy => ?_, ?_, h.fits⟩
  · rw [hnext, UInt32.ofNat_add, UInt32.add_comm (UInt32.ofNat _), ← UInt32.add_assoc]
    rfl
  · have hroom := h.room
    rw [hheld, List.length_cons] at hroom
    exact (Nat.lt_of_succ_le hroom).le
  · exact h.answers y (hheld ▸ List.mem_cons_of_mem _ hy)
  · have horder := h.order
    rw [hheld] at horder
    exact horder.of_cons

/-- One more header went. -/
theorem Sound.push {file : SourceFile} {path : Bytes} (h : s.Sound) (hroom : s.held.length < WINDOW) :
    ({ s with
      next := s.next + 1
      held := s.held ++ [(⟨s.next, file, path⟩, none)] } : Script).Sound := by
  obtain ⟨first, hids, hnext⟩ := h.ids
  refine ⟨⟨first, ?_, ?_⟩, ?_, fun x hx a ha => ?_, ?_, h.fits⟩
  · simp only [List.map_append, List.map_cons, List.map_nil, List.length_append,
      List.length_singleton, numbers_snoc, hids, ← hnext]
  · simp only [List.length_append, List.length_singleton, hnext, UInt32.ofNat_add, UInt32.add_assoc]
    rfl
  · simpa [Nat.succ_le_iff] using hroom
  · rcases List.mem_append.mp hx with hx | hx
    · exact h.answers x hx a ha
    · cases List.mem_singleton.mp hx
      cases ha
  · rw [List.pairwise_append]
    refine ⟨h.order, by simp, fun x _ y hy hsome => ?_⟩
    cases List.mem_singleton.mp hy
    cases hsome

/-- The next command is carried out. -/
theorem Sound.walks {c : Cmd} {rest : List Cmd} (h : s.Sound) (htodo : s.todo = c :: rest)
    (hc : ∀ failure, c ≠ .fail failure) : ({ s with todo := rest } : Script).Sound := by
  refine ⟨h.ids, h.room, h.answers, h.order, ?_⟩
  obtain ⟨named, depth, placed, hfits⟩ := h.fits
  rw [htodo] at hfits
  cases c with
  | item i =>
    cases i with
    | dir => exact ⟨_, _, _, hfits.2⟩
    | contents => exact ⟨_, _, _, hfits.2.2⟩
    | dirEnd => exact ⟨_, _, _, hfits.2⟩
    | skipped => exact ⟨_, _, _, hfits.2⟩
    | _ => exact hfits.elim
  | symlink => exact ⟨_, _, _, hfits.2⟩
  | file => exact ⟨_, _, _, hfits.2⟩
  | fail failure => exact absurd rfl (hc failure)

/-- A failure the walk ends with is none of the receiver's. -/
theorem Sound.fails {failure : Failure} {rest : List Cmd} (h : s.Sound)
    (htodo : s.todo = .fail failure :: rest) : failure.kind ≠ .malformed := by
  obtain ⟨named, depth, placed, hfits⟩ := h.fits
  rwa [htodo] at hfits

theorem Sound.ends (h : s.Sound) (reading : Option (SourceFile × ℕ)) (finished : Bool) :
    ({ s with reading := reading, finished := finished } : Script).Sound :=
  ⟨h.ids, h.room, h.answers, h.order, h.fits⟩

/-- What is written leaves the script sound. -/
theorem Writes.sound (hs : s.Sound) (h : Writes digest dry s i s') : s'.Sound := by
  cases h with
  | item _ htodo => exact hs.walks htodo (by simp)
  | symlink _ htodo => exact hs.walks htodo (by simp)
  | header _ htodo hroom => exact (hs.walks htodo (by simp)).push hroom
  | same _ hheld => exact hs.tail hheld _
  | differs _ _ hheld => exact hs.tail hheld _
  | data _ _ hheld => exact hs.tail hheld _
  | chunk => exact hs.ends _ _
  | sent => exact hs.ends _ _
  | allDone => exact hs.ends _ _
  | failed => exact hs.ends _ _

/-- So does an answer. -/
theorem Sound.answered {f : Awaiting} {a : Answer} (hs : s.Sound) (hasked : asked s.held = some f)
    (hid : a.id = f.id) : (s.answered a).Sound := by
  obtain ⟨before, after, hheld, hbefore⟩ := asked_split hasked
  have hfill : fill a s.held = before ++ (f, some a) :: after := hheld ▸ fill_split a hbefore
  have hlen : (fill a s.held).length = s.held.length := by rw [hfill, hheld]; simp
  have hids : (fill a s.held).map (·.1.id) = s.held.map (·.1.id) := by rw [hfill, hheld]; simp
  refine ⟨?_, hlen.symm ▸ hs.room, ?_, ?_, hs.fits⟩
  · obtain ⟨first, hfirst, hnext⟩ := hs.ids
    exact ⟨first, by rw [Script.answered, hids, hfirst, hlen], by rw [Script.answered, hlen, hnext]⟩
  · intro h hh b hb
    simp only [Script.answered, hfill, List.mem_append, List.mem_cons] at hh
    rcases hh with hh | rfl | hh
    · exact hs.answers h (by simp [hheld, hh]) b hb
    · cases hb
      exact hid
    · exact hs.answers h (by simp [hheld, hh]) b hb
  · have horder := hs.order
    simp only [Script.answered, hfill]
    rw [hheld, List.pairwise_append, List.pairwise_cons] at horder
    rw [List.pairwise_append, List.pairwise_cons]
    obtain ⟨hpre, ⟨-, hpost⟩, hcross⟩ := horder
    exact ⟨hpre, ⟨fun _ _ _ => rfl, hpost⟩, fun x hx _ _ _ => hbefore x hx⟩

end Script

end Koh.Sync
