import Koh.Saved.Entry
import Mathlib.Data.List.Nodup

/-!
# The saved names

`Names` from `names.rs`: a list read from its file, changed, and written back, with the comments
and blank lines it was read with.

## Main definitions

- `Names`, `Names.parse`, `Names.render`: a list, read and written
- `Names.add`, `Names.remove`, `Names.rename`: the changes
- `update`: a file changed
- `Sound`: what every list that was read has
- `Does`: what a change does to the lines

## Main results

- `sound_of_parse`: what is read is sound
- `Op.run_cases`: a change that is made does what it says and keeps the list sound, and one
  that fails does nothing
-/

namespace Koh.Saved

open Koh.Lib

inductive Line (Id Url : Type) where
  | entry (entry : Entry Id Url)
  /-- A comment or a blank line, kept as written. -/
  | other (text : Text)
  deriving DecidableEq

/-- A list of names, with the comments and blank lines it was read with. -/
structure Names (Id Url : Type) where
  lines : List (Line Id Url)
  deriving DecidableEq

structure ParseError where
  file : Text
  number : ℕ
  wrong : Wrong
  deriving DecidableEq

inductive Refusal (Id : Type) where
  | wrong (wrong : Wrong)
  | alreadySaved (name : Text)
  | idSaved (id : Id) (other : Text)
  /-- It is not saved; these are. -/
  | unknown (name : Text) (saved : List Text)
  deriving DecidableEq

variable {Id Url : Type}

def Line.entry? : Line Id Url → Option (Entry Id Url)
  | .entry e => some e
  | .other _ => none

/-- Whether a line is the entry of `name`. -/
def Line.isNamed (name : Text) : Line Id Url → Bool
  | .entry e => e.name = name
  | .other _ => false

namespace Names

def default : Names Id Url := ⟨[]⟩

def entries (names : Names Id Url) : List (Entry Id Url) := names.lines.filterMap Line.entry?

def get (names : Names Id Url) (name : Text) : Option (Entry Id Url) :=
  names.entries.find? (·.name = name)

def nameOf [DecidableEq Id] (names : Names Id Url) (id : Id) : Option Text :=
  (names.entries.find? (·.id = id)).map Entry.name

end Names

/-! ### The file -/

section

variable (crates : Crates Id Url)

/-- A comment, or a blank line: as it is without the white space at its ends. -/
def isOther (trimmed : Text) : Bool := trimmed.isEmpty || trimmed.head? = some '#'

def parseLine (list : ListKind) (names : Names Id Url) (line : Text) :
    Except Wrong (Line Id Url) :=
  let trimmed := trim isWhitespace line
  if isOther trimmed then .ok (.other line)
  else
    match words isWhitespace trimmed with
    | name :: id :: more => do
      checkName crates name
      let id ← match crates.parseEndpointId id with
        | some id => .ok id
        | none => .error (.badEndpointId id)
      let (route, scope) ← takeWords crates list trimmed none .full more
      if (names.get name).isSome then .error (.namedTwice name)
      else .ok (.entry ⟨name, id, route, scope⟩)
    | _ => .error (.expected list trimmed)

def parseFrom (file : Text) (list : ListKind) :
    Names Id Url → ℕ → List Text → Except ParseError (Names Id Url)
  | names, _, [] => .ok names
  | names, number, text :: more =>
    match parseLine crates list names text with
    | .ok line => parseFrom file list ⟨names.lines ++ [line]⟩ (number + 1) more
    | .error wrong => .error ⟨file, number, wrong⟩

def Names.parse (text file : Text) (list : ListKind) : Except ParseError (Names Id Url) :=
  parseFrom crates file list .default 1 (textLines text)

def Line.text : Line Id Url → Text
  | .entry e => e.text crates
  | .other line => line

def Names.render (names : Names Id Url) : Text :=
  names.lines.flatMap fun line => line.text crates ++ ['\n']

end

/-! ### Changes -/

/-- What a change comes to, and the list after it. -/
abbrev Changed (Id Url α : Type) := Except (Refusal Id) α × Names Id Url

namespace Names

variable (crates : Crates Id Url) [DecidableEq Id]

def unknown (names : Names Id Url) (name : Text) : Refusal Id :=
  .unknown name (names.entries.map Entry.name)

/-- Save `id` as `name`: refused if the name is taken or the id is saved under another name. -/
def add (names : Names Id Url) (name : Text) (id : Id) (route : Option (Route Url))
    (scope : Scope) : Changed Id Url Unit :=
  match checkName crates name with
  | .error wrong => (.error (.wrong wrong), names)
  | .ok () =>
    if (names.get name).isSome then (.error (.alreadySaved name), names)
    else
      match names.nameOf id with
      | some other => (.error (.idSaved id other), names)
      | none => (.ok (), ⟨names.lines ++ [.entry ⟨name, id, route, scope⟩]⟩)

def remove (names : Names Id Url) (name : Text) : Changed Id Url Id :=
  match names.get name with
  | none => (.error (names.unknown name), names)
  | some entry => (.ok entry.id, ⟨names.lines.filter (!·.isNamed name)⟩)

/-- The first entry of `old` is `new`'s. -/
def renameFirst (old new : Text) : List (Line Id Url) → Option (List (Line Id Url))
  | [] => none
  | .entry e :: more =>
    if e.name = old then some (.entry { e with name := new } :: more)
    else (renameFirst old new more).map (.entry e :: ·)
  | .other text :: more => (renameFirst old new more).map (.other text :: ·)

def rename (names : Names Id Url) (old new : Text) : Changed Id Url Unit :=
  match checkName crates new with
  | .error wrong => (.error (.wrong wrong), names)
  | .ok () =>
    if (names.get new).isSome then (.error (.alreadySaved new), names)
    else
      match renameFirst old new names.lines with
      | none => (.error (names.unknown old), names)
      | some lines => (.ok (), ⟨lines⟩)

end Names

inductive Op (Id Url : Type) where
  | add (name : Text) (id : Id) (route : Option (Route Url)) (scope : Scope)
  | remove (name : Text)
  | rename (old new : Text)

def Op.run [DecidableEq Id] (crates : Crates Id Url) (op : Op Id Url) (names : Names Id Url) :
    Changed Id Url Unit :=
  match op with
  | .add name id route scope => names.add crates name id route scope
  | .remove name => ((names.remove name).1.map fun _ => (), (names.remove name).2)
  | .rename old new => names.rename crates old new

inductive UpdateError (Id : Type) where
  | parse (error : ParseError)
  | refused (why : Refusal Id)
  deriving DecidableEq

/-- The contents of a file that is changed: the list as it is on disk now, changed. -/
def update [DecidableEq Id] {α : Type} (crates : Crates Id Url) (file : Text) (list : ListKind)
    (change : Names Id Url → Changed Id Url α) (text : Option Text) :
    Except (UpdateError Id) (α × Text) :=
  match Names.parse crates (text.getD []) file list with
  | .error error => .error (.parse error)
  | .ok names =>
    match change names with
    | (.error why, _) => .error (.refused why)
    | (.ok out, names) => .ok (out, names.render crates)

/-! ### What a list that was read is -/

/-- What every list that was read has, and every change keeps. -/
structure Sound (crates : Crates Id Url) (list : ListKind) (names : Names Id Url) : Prop where
  good : ∀ e ∈ names.entries, checkName crates e.name = .ok () ∧ Allowed list e.route e.scope
  unique : (names.entries.map Entry.name).Nodup
  others : ∀ text, .other text ∈ names.lines → '\n' ∉ text ∧
    isOther (trim isWhitespace text) = true

variable {crates : Crates Id Url} {list : ListKind} {names names' : Names Id Url}
  {lines lines' : List (Line Id Url)} {raw found name : Text} {line : Line Id Url}

namespace Names

@[simp] theorem entries_nil : entries (⟨[]⟩ : Names Id Url) = [] := rfl

@[simp] theorem entries_entry (e : Entry Id Url) (lines : List (Line Id Url)) :
    entries ⟨.entry e :: lines⟩ = e :: entries ⟨lines⟩ := rfl

@[simp] theorem entries_other (text : Text) (lines : List (Line Id Url)) :
    entries ⟨.other text :: lines⟩ = entries ⟨lines⟩ := rfl

@[simp] theorem entries_append (lines lines' : List (Line Id Url)) :
    entries ⟨lines ++ lines'⟩ = entries ⟨lines⟩ ++ entries ⟨lines'⟩ := List.filterMap_append

/-- The entries are the lines that are entries. -/
theorem mem_entries {e : Entry Id Url} : e ∈ names.entries ↔ .entry e ∈ names.lines := by
  rw [entries, List.mem_filterMap]
  constructor
  · rintro ⟨line, hline, he⟩
    cases line with
    | entry e' =>
      cases he
      exact hline
    | other text => cases he
  · exact fun h => ⟨_, h, rfl⟩

/-- A name is found if an entry has it. -/
theorem get_eq_none_iff : names.get name = none ↔ name ∉ names.entries.map Entry.name := by
  rw [get, List.find?_eq_none, List.mem_map]
  constructor
  · rintro h ⟨e, he, rfl⟩
    simpa using h e he
  · intro h e he
    simpa using fun hname => h ⟨e, he, hname⟩

end Names

/-- An empty list. -/
theorem sound_default : Sound crates list (.default : Names Id Url) where
  good _ he := by cases he
  unique := List.nodup_nil
  others _ hother := by cases hother

/-- A comment or a blank line more. -/
theorem Sound.other (h : Sound crates list names) (hline : '\n' ∉ raw)
    (hother : isOther (trim isWhitespace raw) = true) :
    Sound crates list ⟨names.lines ++ [.other raw]⟩ where
  good e he := h.good e (by simpa using he)
  unique := by simpa using h.unique
  others text htext := by
    rcases List.mem_append.mp htext with htext | htext
    · exact h.others text htext
    · cases List.mem_singleton.mp htext
      exact ⟨hline, hother⟩

/-- An entry of a new name more. -/
theorem Sound.entry (h : Sound crates list names) {e : Entry Id Url}
    (hname : checkName crates e.name = .ok ()) (hallowed : Allowed list e.route e.scope)
    (hnew : names.get e.name = none) : Sound crates list ⟨names.lines ++ [.entry e]⟩ where
  good e' he' := by
    rw [Names.entries_append, List.mem_append] at he'
    rcases he' with he' | he'
    · exact h.good e' he'
    · cases List.mem_singleton.mp he'
      exact ⟨hname, hallowed⟩
  unique := by
    rw [Names.entries_append, List.map_append, List.nodup_append]
    refine ⟨h.unique, List.nodup_singleton _, fun n hn n' hn' heq => ?_⟩
    rw [List.mem_singleton.mp hn'] at heq
    exact Names.get_eq_none_iff.mp hnew (heq ▸ hn)
  others text htext := by
    rcases List.mem_append.mp htext with htext | htext
    · exact h.others text htext
    · cases List.mem_singleton.mp htext

/-! ### What is read is sound -/

/-- Words that are taken leave what the list allows. -/
theorem allowed_of_takeWords {route route' : Option (Route Url)} {scope scope' : Scope}
    {more : List Text} (h : takeWords crates list found route scope more = .ok (route', scope'))
    (hallowed : Allowed list route scope) : Allowed list route' scope' := by
  induction more generalizing route scope with
  | nil =>
    cases h
    exact hallowed
  | cons word more ih =>
    cases list with
    | servers =>
      cases route with
      | none =>
        change (Route.parse crates word >>= fun route =>
          takeWords crates .servers found (some route) scope more) = _ at h
        cases hroute : Route.parse crates word with
        | error wrong =>
          rw [hroute] at h
          cases h
        | ok route =>
          rw [hroute] at h
          exact ih h hallowed
      | some route => cases h
    | clients =>
      change (scope.take word >>= fun scope =>
        takeWords crates .clients found route scope more) = _ at h
      cases hscope : scope.take word with
      | error wrong =>
        rw [hscope] at h
        cases h
      | ok scope =>
        rw [hscope] at h
        exact ih h hallowed

structure ReadAs (crates : Crates Id Url) (list : ListKind) (names : Names Id Url) (raw : Text)
    (e : Entry Id Url) : Prop where
  solid : isOther (trim isWhitespace raw) = false
  words : ∃ idText more, words isWhitespace raw = e.name :: idText :: more ∧
    crates.parseEndpointId idText = some e.id ∧
    takeWords crates list (trim isWhitespace raw) none .full more = .ok (e.route, e.scope)
  name : checkName crates e.name = .ok ()
  new : names.get e.name = none

/-- A line is read as the entry that its words say. -/
theorem ReadAs.parseLine_eq {e : Entry Id Url} (h : ReadAs crates list names raw e) :
    parseLine crates list names raw = .ok (.entry e) := by
  obtain ⟨idText, more, hwords, hid, hmore⟩ := h.words
  rw [parseLine, if_neg (by simp [h.solid]), words_trim, hwords]
  simp only
  rw [h.name, hid, hmore]
  change (if (names.get e.name).isSome then _ else _) = _
  rw [h.new]
  rfl

/-- A line that is no entry is kept. -/
theorem parseLine_other (h : isOther (trim isWhitespace raw) = true) :
    parseLine crates list names raw = .ok (.other raw) := by
  rw [parseLine, if_pos h]

/-- What a line is read as. -/
theorem read_of_parseLine (h : parseLine crates list names raw = .ok line) :
    (isOther (trim isWhitespace raw) = true ∧ line = .other raw) ∨
      ∃ e, line = .entry e ∧ ReadAs crates list names raw e := by
  by_cases hother : isOther (trim isWhitespace raw) = true
  · rw [parseLine_other hother] at h
    cases h
    exact .inl ⟨hother, rfl⟩
  · right
    rw [parseLine, if_neg hother, words_trim] at h
    split at h
    · next name idText more hwords =>
      cases hname : checkName crates name with
      | error wrong =>
        rw [hname] at h
        cases h
      | ok =>
        rw [hname] at h
        cases hid : crates.parseEndpointId idText with
        | none =>
          rw [hid] at h
          cases h
        | some id =>
          rw [hid] at h
          cases hmore : takeWords crates list (trim isWhitespace raw) none .full more with
          | error wrong =>
            rw [hmore] at h
            cases h
          | ok found =>
            rw [hmore] at h
            change (if (names.get name).isSome then _ else _) = _ at h
            split at h
            · cases h
            · next hnew =>
              cases h
              exact ⟨_, rfl, by simpa using hother, ⟨idText, more, hwords, hid, hmore⟩, hname,
                by simpa using hnew⟩
    · cases h

/-- A line that is read leaves the list sound. -/
theorem sound_of_parseLine (h : parseLine crates list names raw = .ok line)
    (hsound : Sound crates list names) (hraw : '\n' ∉ raw) :
    Sound crates list ⟨names.lines ++ [line]⟩ := by
  rcases read_of_parseLine h with ⟨hother, rfl⟩ | ⟨e, rfl, hread⟩
  · exact hsound.other hraw hother
  · obtain ⟨idText, more, -, -, hmore⟩ := hread.words
    refine hsound.entry hread.name (allowed_of_takeWords hmore ?_) hread.new
    cases list <;> rfl

/-- So do all of them. -/
theorem sound_of_parseFrom {file : Text} {number : ℕ} {raws : List Text}
    (h : parseFrom crates file list names number raws = .ok names')
    (hsound : Sound crates list names) (hraws : ∀ raw ∈ raws, '\n' ∉ raw) :
    Sound crates list names' := by
  induction raws generalizing names number with
  | nil =>
    cases h
    exact hsound
  | cons raw raws ih =>
    obtain ⟨hraw, hraws⟩ := List.forall_mem_cons.mp hraws
    rw [parseFrom] at h
    split at h
    · next line hline => exact ih h (sound_of_parseLine hline hsound hraw) hraws
    · cases h

/-- What is read is sound. -/
theorem sound_of_parse {text file : Text} (h : Names.parse crates text file list = .ok names) :
    Sound crates list names :=
  sound_of_parseFrom h sound_default fun _ hraw => newline_notMem_textLines hraw

/-! ### What a change does -/

/-- A change that the command line allows: a route only in servers, and a scope only in
clients. -/
def Op.Allowed (list : ListKind) : Op Id Url → Prop
  | .add _ _ route scope => Koh.Saved.Allowed list route scope
  | .remove _ => True
  | .rename _ _ => True

/-- What a change that is made does to the lines. -/
inductive Does : Op Id Url → List (Line Id Url) → List (Line Id Url) → Prop where
  | add (lines : List (Line Id Url)) (name : Text) (id : Id) (route : Option (Route Url))
      (scope : Scope) : Does (.add name id route scope) lines
        (lines ++ [.entry ⟨name, id, route, scope⟩])
  | remove (before after : List (Line Id Url)) (e : Entry Id Url) :
      Does (.remove e.name) (before ++ .entry e :: after) (before ++ after)
  | rename (before after : List (Line Id Url)) (e : Entry Id Url) (new : Text) :
      Does (.rename e.name new) (before ++ .entry e :: after)
        (before ++ .entry { e with name := new } :: after)

variable {before after : List (Line Id Url)} {e : Entry Id Url} {old new : Text}

/-- What `add` does: it refuses, or the entry is the last line. -/
theorem Names.add_cases [DecidableEq Id] (names : Names Id Url) (crates : Crates Id Url)
    (name : Text) (id : Id)
    (route : Option (Route Url)) (scope : Scope) :
    (∃ why, names.add crates name id route scope = (.error why, names)) ∨
      checkName crates name = .ok () ∧ names.get name = none ∧
      names.add crates name id route scope =
        (.ok (), ⟨names.lines ++ [.entry ⟨name, id, route, scope⟩]⟩) := by
  rw [Names.add]
  split
  · exact .inl ⟨_, rfl⟩
  · next hname =>
    split
    · exact .inl ⟨_, rfl⟩
    · next hnew =>
      split
      · exact .inl ⟨_, rfl⟩
      · exact .inr ⟨hname, by simpa using hnew, rfl⟩

/-- No line but the entry is named as it is. -/
theorem filter_isNamed (h : ((⟨before ++ .entry e :: after⟩ : Names Id Url).entries.map
    Entry.name).Nodup) :
    (before ++ .entry e :: after).filter (!·.isNamed e.name) = before ++ after := by
  have hnone : ∀ lines : List (Line Id Url), e.name ∉ (Names.entries ⟨lines⟩).map Entry.name →
      lines.filter (!·.isNamed e.name) = lines := by
    intro lines hlines
    refine List.filter_eq_self.mpr fun line hline => ?_
    cases line with
    | other text => rfl
    | entry e' =>
      have hne : e'.name ≠ e.name := fun heq =>
        hlines (List.mem_map.mpr ⟨e', Names.mem_entries.mpr hline, heq⟩)
      simpa [Line.isNamed] using hne
  rw [Names.entries_append, Names.entries_entry, List.map_append, List.map_cons,
    List.nodup_append, List.nodup_cons] at h
  obtain ⟨-, ⟨hafter, -⟩, hapart⟩ := h
  have hbefore : e.name ∉ (Names.entries ⟨before⟩).map Entry.name :=
    fun hmem => hapart _ hmem _ List.mem_cons_self rfl
  rw [List.filter_append, hnone before hbefore, List.filter_cons, hnone after hafter]
  simp [Line.isNamed]

/-- A removal fails, or takes out the entry of the name. -/
theorem Names.remove_cases (h : (names.entries.map Entry.name).Nodup) (name : Text) :
    (∃ why, names.remove name = (.error why, names)) ∨
      ∃ before e after, names.lines = before ++ .entry e :: after ∧ e.name = name ∧
        names.remove name = (.ok e.id, ⟨before ++ after⟩) := by
  rw [Names.remove]
  split
  · exact .inl ⟨_, rfl⟩
  · next e hget =>
    right
    have hname : e.name = name := by simpa using List.find?_some hget
    obtain ⟨before, after, hlines⟩ :=
      List.append_of_mem (Names.mem_entries.mp (List.mem_of_find?_eq_some hget))
    refine ⟨before, e, after, hlines, hname, ?_⟩
    obtain ⟨lines⟩ := names
    simp only at hlines
    subst hlines
    rw [← hname, filter_isNamed h]

/-- The first entry that is named so is renamed. -/
theorem renameFirst_some (h : Names.renameFirst old new lines = some lines') :
    ∃ before e after, lines = before ++ .entry e :: after ∧ e.name = old ∧
      lines' = before ++ .entry { e with name := new } :: after := by
  induction lines generalizing lines' with
  | nil => cases h
  | cons line lines ih =>
    cases line with
    | entry e =>
      rw [Names.renameFirst] at h
      split at h
      · next hname =>
        cases h
        exact ⟨[], e, lines, rfl, hname, rfl⟩
      · obtain ⟨lines₁, hlines, rfl⟩ := Option.map_eq_some_iff.mp h
        obtain ⟨before, e', after, rfl, hname, rfl⟩ := ih hlines
        exact ⟨.entry e :: before, e', after, rfl, hname, rfl⟩
    | other text =>
      rw [Names.renameFirst] at h
      obtain ⟨lines₁, hlines, rfl⟩ := Option.map_eq_some_iff.mp h
      obtain ⟨before, e', after, rfl, hname, rfl⟩ := ih hlines
      exact ⟨.other text :: before, e', after, rfl, hname, rfl⟩

/-- A rename fails, or changes the entry's name alone. -/
theorem Names.rename_cases (names : Names Id Url) (crates : Crates Id Url) (old new : Text) :
    (∃ why, names.rename crates old new = (.error why, names)) ∨
      checkName crates new = .ok () ∧ names.get new = none ∧
      ∃ before e after, names.lines = before ++ .entry e :: after ∧ e.name = old ∧
        names.rename crates old new =
          (.ok (), ⟨before ++ .entry { e with name := new } :: after⟩) := by
  rw [Names.rename]
  split
  · exact .inl ⟨_, rfl⟩
  · next hname =>
    split
    · exact .inl ⟨_, rfl⟩
    · next hnew =>
      split
      · exact .inl ⟨_, rfl⟩
      · next lines hlines =>
        obtain ⟨before, e, after, hbefore, he, rfl⟩ := renameFirst_some hlines
        exact .inr ⟨hname, by simpa using hnew, before, e, after, hbefore, he, rfl⟩

/-- A rename to a free name leaves the list sound. -/
theorem Sound.rename (h : Sound crates list ⟨before ++ .entry e :: after⟩)
    (hname : checkName crates new = .ok ())
    (hnew : (⟨before ++ .entry e :: after⟩ : Names Id Url).get new = none) :
    Sound crates list ⟨before ++ .entry { e with name := new } :: after⟩ where
  good e' he' := by
    rw [Names.entries_append, Names.entries_entry, List.mem_append, List.mem_cons] at he'
    have hgood := h.good
    rw [Names.entries_append, Names.entries_entry] at hgood
    rcases he' with he' | rfl | he'
    · exact hgood e' (List.mem_append_left _ he')
    · exact ⟨hname, (hgood e (by simp)).2⟩
    · exact hgood e' (by simp [he'])
  unique := by
    have hunique := h.unique
    have hfresh := Names.get_eq_none_iff.mp hnew
    rw [Names.entries_append, Names.entries_entry, List.map_append,
      List.map_cons] at hunique hfresh ⊢
    rw [List.mem_append, List.mem_cons, not_or, not_or] at hfresh
    obtain ⟨hbefore, -, hafter⟩ := hfresh
    rw [List.nodup_append, List.nodup_cons] at hunique ⊢
    obtain ⟨hnodup, ⟨-, hnodup'⟩, hapart⟩ := hunique
    refine ⟨hnodup, ⟨hafter, hnodup'⟩, fun n hn n' hn' heq => ?_⟩
    subst heq
    rcases List.mem_cons.mp hn' with rfl | hn'
    · exact hbefore hn
    · exact hapart n hn n (List.mem_cons_of_mem _ hn') rfl
  others text htext := by
    refine h.others text ?_
    rw [List.mem_append, List.mem_cons] at htext ⊢
    rcases htext with htext | htext | htext
    · exact .inl htext
    · cases htext
    · exact .inr (.inr htext)

/-- A change that is made does what it says, and keeps the list sound; one that fails does
nothing. -/
theorem Op.run_cases [DecidableEq Id] {op : Op Id Url} (hsound : Sound crates list names)
    (hop : op.Allowed list) :
    (∃ why, op.run crates names = (.error why, names)) ∨
      ∃ names', op.run crates names = (.ok (), names') ∧ Does op names.lines names'.lines ∧
        Sound crates list names' := by
  cases op with
  | add name id route scope =>
    rcases names.add_cases crates name id route scope with ⟨why, hadd⟩ |
      ⟨hname, hnew, hadd⟩
    · exact .inl ⟨why, hadd⟩
    · exact .inr ⟨_, hadd, .add _ _ _ _ _, hsound.entry hname hop hnew⟩
  | remove name =>
    rcases Names.remove_cases hsound.unique name with ⟨why, hremove⟩ |
      ⟨before, e, after, hlines, rfl, hremove⟩
    · refine .inl ⟨why, ?_⟩
      rw [Op.run, hremove]
      rfl
    · refine .inr ⟨⟨before ++ after⟩, ?_, ?_, ?_⟩
      · rw [Op.run, hremove]
        rfl
      · rw [hlines]
        exact .remove before after e
      · obtain ⟨lines⟩ := names
        simp only at hlines
        subst hlines
        have hsub : (before ++ after).Sublist (before ++ .entry e :: after) :=
          (List.Sublist.refl before).append (List.sublist_cons_self _ _)
        exact {
          good := fun e' he' => hsound.good e' ((hsub.filterMap _).subset he')
          unique := hsound.unique.sublist ((hsub.filterMap _).map _)
          others := fun text htext => hsound.others text (hsub.subset htext) }
  | rename old new =>
    rcases names.rename_cases crates old new with ⟨why, hrename⟩ |
      ⟨hname, hnew, before, e, after, hlines, rfl, hrename⟩
    · exact .inl ⟨why, hrename⟩
    · refine .inr ⟨_, hrename, ?_, ?_⟩
      · rw [hlines]
        exact .rename before after e new
      · obtain ⟨lines⟩ := names
        simp only at hlines
        subst hlines
        exact hsound.rename hname hnew

end Koh.Saved
