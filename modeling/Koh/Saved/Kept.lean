import Koh.Saved.Names
import Mathlib.Data.List.Forall2

/-!
# A list is kept from edit to edit

What is written of a list is read back as the list, unless one of two things is in it: a comment
or blank line that ends in a carriage return, which is taken for a part of the line's end, and a
relay URL with white space in its text, which is taken for more words.

## Main definitions

- `Clean`: none of the two is in a list
- `Describes`: what changes, one after another, say of a list
- `Names.after`, `edits`: a list after changes, and a file

## Main results

- `parse_render_iff`: exactly what is clean is read back
- `edits_kept`: a clean list is kept, whatever is done to it
-/

namespace Koh.Saved

open Koh.Lib

variable {Id Url : Type} {crates : Crates Id Url} {list : ListKind}
  {names names' : Names Id Url} {raw text file : Text} {e : Entry Id Url}

/-- No newline, and white space only at the end. -/
def Solid (text : Text) : Prop :=
  '\n' ∉ text ∧ ∀ c ∈ trimEnd isWhitespace text, isWhitespace c = false

instance (text : Text) : Decidable (Solid text) := inferInstanceAs (Decidable (_ ∧ _))

/-- What is read back when it is written: no comment or blank line ends in a return, and no relay
URL is more than a word. -/
structure Clean (crates : Crates Id Url) (names : Names Id Url) : Prop where
  others : ∀ text, .other text ∈ names.lines → text.getLast? ≠ some '\r'
  urls : ∀ e ∈ names.entries, ∀ url, e.route = some (.relay url) → Solid (crates.urlText url)

/-- A change that adds no relay URL that is more than a word. -/
def Op.Clean (crates : Crates Id Url) : Op Id Url → Prop
  | .add _ _ route _ => ∀ url, route = some (.relay url) → Solid (crates.urlText url)
  | .remove _ => True
  | .rename _ _ => True

/-! ### Lines without a return at their ends -/

/-- A return at the end is all that goes. -/
theorem unreturned_cases (text : Text) :
    unreturned text = text ∨ text = unreturned text ++ ['\r'] := by
  rw [unreturned]
  split
  · next h =>
    right
    obtain ⟨init, rfl⟩ := List.getLast?_eq_some_iff.mp h
    simp
  · exact .inl rfl

theorem blank_return : Blank isWhitespace ['\r'] := by
  intro c hc
  rw [List.mem_singleton.mp hc]
  decide

/-- It is in no word. -/
theorem words_unreturned (text : Text) :
    words isWhitespace (unreturned text) = words isWhitespace text := by
  rcases unreturned_cases text with h | h
  · rw [h]
  · calc words isWhitespace (unreturned text)
        = words isWhitespace (unreturned text ++ ['\r']) := (words_append_blank blank_return).symm
      _ = words isWhitespace text := by rw [← h]

theorem trim_unreturned (text : Text) :
    trim isWhitespace (unreturned text) = trim isWhitespace text := by
  rcases unreturned_cases text with h | h
  · rw [h]
  · calc trim isWhitespace (unreturned text)
        = trim isWhitespace (unreturned text ++ ['\r']) := (trim_append_blank blank_return).symm
      _ = trim isWhitespace text := by rw [← h]

/-- A line without one stays as it is. -/
theorem unreturned_eq_self_iff : unreturned text = text ↔ text.getLast? ≠ some '\r' := by
  rw [unreturned]
  split
  · next h =>
    obtain ⟨init, rfl⟩ := List.getLast?_eq_some_iff.mp h
    simp
  · next h => exact ⟨fun _ => h, fun _ => rfl⟩

/-! ### An entry written -/

/-- What an entry says after its id are words, a relay URL apart. -/
theorem mem_extras {w : Text} (h : w ∈ e.extras crates) :
    (∃ url, e.route = some (.relay url) ∧ w = assign relayWord (crates.urlText url)) ∨
      IsWord isWhitespace w := by
  obtain ⟨name, id, route, ⟨cp, exec⟩⟩ := e
  simp only [Entry.extras, List.mem_append, Option.mem_toList, Option.map_eq_some_iff] at h
  rcases h with ⟨route, hroute, rfl⟩ | ⟨dir, -, rfl⟩ | ⟨dir, -, rfl⟩
  · cases route with
    | direct addr =>
      exact .inr (isWord_assign (solid_of_all (by decide))
        fun c hc => isWhitespace_of_inAddr (SocketAddr.inAddr hc))
    | relay url => exact .inl ⟨url, hroute, rfl⟩
  · exact .inr (isWord_assign (solid_of_all (by decide)) dir.solid)
  · exact .inr (isWord_assign (solid_of_all (by decide)) dir.solid)

/-- The words of an entry that has no relay URL, or one that is a word. -/
theorem words_text (hlaw : crates.Lawful) (hname : checkName crates e.name = .ok ())
    (hwords : ∀ w ∈ e.extras crates, IsWord isWhitespace w) :
    words isWhitespace (e.text crates) = e.name :: crates.idText e.id :: e.extras crates := by
  rw [Entry.text_eq]
  refine words_spaced (isWord_of_checkName hname).1 (by decide) ?_
  exact List.forall_mem_cons.mpr ⟨hlaw.id_word e.id, hwords⟩

/-- White space after a relay URL's text is no part of it. -/
theorem parse_relay {url : Url} {w blank : Text} (hlaw : crates.Lawful)
    (htext : crates.urlText url = w ++ blank) (hblank : Blank isWhitespace blank) :
    Route.parse crates (assign relayWord w) = .ok (.relay url) := by
  have hurl : crates.parseRelayUrl w = some url := by
    have hback := hlaw.url_back url
    rwa [htext, Crates.parseRelayUrl, trim_append_blank hblank] at hback
  rw [Route.parse, splitOnce_assign (by decide)]
  simp only [↓reduceIte, hurl, (by decide : relayWord ≠ directWord)]

/-- The words of an entry written say what it is. -/
theorem exists_words_text (hlaw : crates.Lawful) (hname : checkName crates e.name = .ok ())
    (hallowed : Allowed list e.route e.scope)
    (hurl : ∀ url, e.route = some (.relay url) → Solid (crates.urlText url)) (found : Text) :
    ∃ more, words isWhitespace (e.text crates) = e.name :: crates.idText e.id :: more ∧
      takeWords crates list found none .full more = .ok (e.route, e.scope) := by
  by_cases hrelay : ∃ url, e.route = some (.relay url)
  · obtain ⟨url, hroute⟩ := hrelay
    obtain ⟨w, blank, htext, hw, hblank⟩ := trimEnd_solid_iff.mp (hurl url hroute).2
    obtain ⟨name, id, route, scope⟩ := e
    simp only at hroute
    subst hroute
    cases list with
    | clients => cases hallowed
    | servers =>
      have hscope : scope = .full := hallowed
      subst hscope
      refine ⟨[assign relayWord w], ?_, ?_⟩
      · have hsplit : Entry.text crates ⟨name, id, some (.relay url), .full⟩ =
            name ++ [crates.idText id, assign relayWord w].flatMap (' ' :: ·) ++ blank := by
          simp [Entry.text, Route.text, Scope.text, Scope.full, assign, htext]
        rw [hsplit, words_append_blank hblank]
        refine words_spaced (isWord_of_checkName hname).1 (by decide) ?_
        simpa using ⟨hlaw.id_word id, isWord_assign (solid_of_all (by decide)) hw⟩
      · change (Route.parse crates (assign relayWord w) >>= fun route =>
          takeWords crates .servers found (some route) .full []) = _
        rw [parse_relay hlaw htext hblank]
        rfl
  · have hwords : ∀ w ∈ e.extras crates, IsWord isWhitespace w := by
      intro w hw
      rcases mem_extras hw with ⟨url, hroute, -⟩ | hword
      · exact absurd ⟨url, hroute⟩ hrelay
      · exact hword
    exact ⟨e.extras crates, words_text hlaw hname hwords, takeWords_extras hlaw hallowed found⟩

/-- An entry written is no comment, and not blank. -/
theorem isOther_text (hname : checkName crates e.name = .ok ()) :
    isOther (trim isWhitespace (e.text crates)) = false := by
  obtain ⟨hword, hhash⟩ := isWord_of_checkName hname
  have hbegun : begun isWhitespace (e.text crates) = true := hword.begun
  have hhead : (trim isWhitespace (e.text crates)).head? = e.name.head? := by
    rw [head?_trim hbegun, Entry.text, List.head?_append_of_ne_nil _ hword.ne_nil]
  rw [isOther, hhead]
  cases htrim : trim isWhitespace (e.text crates) with
  | nil =>
    rw [trim_eq_nil_iff] at htrim
    rw [begun_blank htrim] at hbegun
    cases hbegun
  | cons c rest => simpa using hhash

/-- An entry written is read back. -/
theorem readAs_text (hlaw : crates.Lawful) (hname : checkName crates e.name = .ok ())
    (hallowed : Allowed list e.route e.scope)
    (hurl : ∀ url, e.route = some (.relay url) → Solid (crates.urlText url))
    (hnew : names.get e.name = none) :
    ReadAs crates list names (unreturned (e.text crates)) e where
  solid := by rw [trim_unreturned, isOther_text hname]
  words := by
    obtain ⟨more, hwords, hmore⟩ := exists_words_text hlaw hname hallowed hurl
      (trim isWhitespace (unreturned (e.text crates)))
    exact ⟨_, more, by rw [words_unreturned, hwords], hlaw.id_back e.id, hmore⟩
  name := hname
  new := hnew

/-- There is no newline in a word. -/
theorem newline_notMem_of_isWord {w : Text} (h : IsWord isWhitespace w) : '\n' ∉ w := by
  intro hmem
  have hnewline := h.solid _ hmem
  revert hnewline
  decide

/-- A line of a clean list is one line. -/
theorem newline_notMem_text (hlaw : crates.Lawful) (hname : checkName crates e.name = .ok ())
    (hurl : ∀ url, e.route = some (.relay url) → Solid (crates.urlText url)) :
    '\n' ∉ e.text crates := by
  have hextras : ∀ w ∈ e.extras crates, '\n' ∉ w := by
    intro w hw
    rcases mem_extras hw with ⟨url, hroute, rfl⟩ | hword
    · have hrelay : '\n' ∉ relayWord := by decide
      simpa [assign, hrelay] using (hurl url hroute).1
    · exact newline_notMem_of_isWord hword
  rw [Entry.text_eq]
  intro hmem
  rcases List.mem_append.mp hmem with hmem | hmem
  · exact newline_notMem_of_isWord (isWord_of_checkName hname).1 hmem
  · obtain ⟨w, hw, hmem⟩ := List.mem_flatMap.mp hmem
    rcases List.mem_cons.mp hmem with heq | hmem
    · cases heq
    · rcases List.mem_cons.mp hw with rfl | hw
      · exact newline_notMem_of_isWord (hlaw.id_word e.id) hmem
      · exact hextras w hw hmem

/-! ### Exactly what is clean is read back -/

/-- A clean list's lines are one line each. -/
theorem text_of_line (hlaw : crates.Lawful) (hsound : Sound crates list names)
    (hclean : Clean crates names) {line : Line Id Url} (hline : line ∈ names.lines) :
    '\n' ∉ line.text crates := by
  cases line with
  | entry e =>
    have hmem : e ∈ names.entries := Names.mem_entries.mpr hline
    exact newline_notMem_text hlaw (hsound.good e hmem).1 (hclean.urls e hmem)
  | other text => exact (hsound.others text hline).1

/-- A line that is not taken yet is read back. -/
theorem parseLine_text (hlaw : crates.Lawful) {line : Line Id Url} {more : List (Line Id Url)}
    (hsound : Sound crates list ⟨names.lines ++ line :: more⟩)
    (hclean : Clean crates ⟨names.lines ++ line :: more⟩) :
    parseLine crates list names (unreturned (line.text crates)) = .ok line := by
  have hline : line ∈ (⟨names.lines ++ line :: more⟩ : Names Id Url).lines := by simp
  cases line with
  | other text =>
    have hkept : unreturned text = text := unreturned_eq_self_iff.mpr (hclean.others text hline)
    rw [Line.text, hkept]
    exact parseLine_other (hsound.others text hline).2
  | entry e =>
    have hmem := Names.mem_entries.mpr hline
    obtain ⟨hname, hallowed⟩ := hsound.good e hmem
    have hnew : names.get e.name = none := by
      have hunique := hsound.unique
      rw [Names.entries_append, Names.entries_entry, List.map_append, List.nodup_append] at hunique
      exact Names.get_eq_none_iff.mpr fun hname =>
        hunique.2.2 _ hname _ List.mem_cons_self rfl
    exact (readAs_text hlaw hname hallowed (hclean.urls e hmem) hnew).parseLine_eq

/-- What was rendered is read back. -/
theorem parseFrom_text (hlaw : crates.Lawful) {lines : List (Line Id Url)} {number : ℕ}
    (hsound : Sound crates list ⟨names.lines ++ lines⟩)
    (hclean : Clean crates ⟨names.lines ++ lines⟩) :
    parseFrom crates file list names number (lines.map fun line => unreturned (line.text crates))
      = .ok ⟨names.lines ++ lines⟩ := by
  induction lines generalizing names number with
  | nil =>
    rw [List.append_nil]
    rfl
  | cons line lines ih =>
    rw [List.map_cons, parseFrom, parseLine_text hlaw hsound hclean]
    simp only
    have hsplit : names.lines ++ line :: lines = (names.lines ++ [line]) ++ lines := by simp
    rw [hsplit] at hsound hclean ⊢
    exact @ih ⟨names.lines ++ [line]⟩ _ hsound hclean

/-- What is rendered is each line and its newline. -/
theorem render_eq (names : Names Id Url) : names.render crates =
    (names.lines.map (Line.text crates)).flatMap (· ++ ['\n']) := by
  rw [Names.render, List.flatMap_map]

/-- A clean list is read back. -/
theorem parse_render (hlaw : crates.Lawful) (hsound : Sound crates list names)
    (hclean : Clean crates names) :
    Names.parse crates (names.render crates) file list = .ok names := by
  have hlines : textLines (names.render crates) =
      names.lines.map fun line => unreturned (line.text crates) := by
    rw [render_eq, textLines_ended, List.map_map]
    · rfl
    · intro text htext
      obtain ⟨line, hline, rfl⟩ := List.mem_map.mp htext
      exact text_of_line hlaw hsound hclean hline
  rw [Names.parse, hlines]
  exact @parseFrom_text _ _ _ _ .default _ hlaw _ _ hsound hclean

/-- How a line was read of its text. -/
def WasRead (crates : Crates Id Url) (list : ListKind) (line : Line Id Url) (raw : Text) : Prop :=
  line = .other raw ∨ ∃ names e, line = .entry e ∧ ReadAs crates list names raw e

/-- Each line is what was read of it. -/
theorem wasRead_of_parseFrom {raws : List Text} {number : ℕ}
    (h : parseFrom crates file list names number raws = .ok names') :
    ∃ lines, names'.lines = names.lines ++ lines ∧
      List.Forall₂ (WasRead crates list) lines raws := by
  induction raws generalizing names number with
  | nil =>
    cases h
    exact ⟨[], by simp, .nil⟩
  | cons raw raws ih =>
    rw [parseFrom] at h
    split at h
    · next line hline =>
      obtain ⟨lines, hlines, hread⟩ := ih h
      refine ⟨line :: lines, by simpa using hlines, .cons ?_ hread⟩
      rcases read_of_parseLine hline with ⟨-, rfl⟩ | ⟨e, rfl, he⟩
      · exact .inl rfl
      · exact .inr ⟨names, e, rfl, he⟩
    · cases h

/-- So is each of a whole text. -/
theorem wasRead_of_parse (h : Names.parse crates text file list = .ok names) :
    List.Forall₂ (WasRead crates list) names.lines (textLines text) := by
  obtain ⟨lines, hlines, hread⟩ := wasRead_of_parseFrom h
  have hdefault : names.lines = lines := hlines
  rwa [hdefault]

/-- Of a list that is read back, each line is one line of the file. -/
theorem newline_notMem_of_parse
    (h : Names.parse crates (names.render crates) file list = .ok names) :
    ∀ text ∈ names.lines.map (Line.text crates), '\n' ∉ text := by
  have hlength : (textLines (names.render crates)).length = names.lines.length :=
    (wasRead_of_parse h).length_eq.symm
  rw [render_eq, length_textLines_ended, List.length_map] at hlength
  have hsum : ((names.lines.map (Line.text crates)).map (List.count '\n')).sum = 0 := by omega
  intro text htext
  have hcount : text.count '\n' = 0 :=
    List.sum_eq_zero_iff_forall_eq_nat.mp hsum _ (List.mem_map_of_mem htext)
  exact List.count_eq_zero.mp hcount

/-- A server's line has no word after its route. -/
theorem eq_singleton_of_takeWords {found : Text} {more : List Text} {route : Route Url}
    {scope : Scope} (h : takeWords crates list found none .full more = .ok (some route, scope)) :
    list = .servers ∧ ∃ word, more = [word] := by
  cases list with
  | clients =>
    have hnone : Allowed .clients (some route) scope := allowed_of_takeWords h rfl
    cases hnone
  | servers =>
    cases more with
    | nil => cases h
    | cons word more =>
      cases more with
      | nil => exact ⟨rfl, word, rfl⟩
      | cons word' more =>
        change (Route.parse crates word >>= fun route =>
          takeWords crates .servers found (some route) .full (word' :: more)) = _ at h
        cases hroute : Route.parse crates word <;> rw [hroute] at h <;> cases h

/-- A relay URL that is read back is a word, and white space at most after it. -/
theorem solid_of_readAs (hlaw : crates.Lawful) {url : Url}
    (hname : checkName crates e.name = .ok ()) (hallowed : Allowed list e.route e.scope)
    (hroute : e.route = some (.relay url)) (hnewline : '\n' ∉ e.text crates)
    (h : ReadAs crates list names (unreturned (e.text crates)) e) :
    Solid (crates.urlText url) := by
  obtain ⟨idText, more, hwords, -, hmore⟩ := h.words
  rw [hroute] at hmore
  obtain ⟨rfl, word, rfl⟩ := eq_singleton_of_takeWords hmore
  obtain ⟨name, id, route, scope⟩ := e
  simp only at hroute
  subst hroute
  have hscope : scope = .full := hallowed
  subst hscope
  have htext : Entry.text crates ⟨name, id, some (.relay url), .full⟩ =
      name ++ ' ' :: (crates.idText id ++ ' ' :: assign relayWord (crates.urlText url)) := by
    simp [Entry.text, Route.text, Scope.text, Scope.full]
  rw [htext] at hnewline
  refine ⟨fun hmem => hnewline (by simp [assign, hmem]), ?_⟩
  -- What is after the id is one word.
  rw [words_unreturned, htext, words_cons (isWord_of_checkName hname).1 (by decide),
    words_cons (hlaw.id_word id) (by decide)] at hwords
  have hone : words isWhitespace (assign relayWord (crates.urlText url)) = [word] := by
    simpa using (List.cons.inj (List.cons.inj hwords).2).2
  obtain ⟨after, hafter, hsplit⟩ := eq_of_words_singleton hone rfl
  have hmem : word ∈ words isWhitespace (assign relayWord (crates.urlText url)) := by simp [hone]
  have hword : IsWord isWhitespace word := isWord_of_mem_words hmem
  have hend : ∀ c ∈ trimEnd isWhitespace (assign relayWord (crates.urlText url)),
      isWhitespace c = false := trimEnd_solid_iff.mpr ⟨word, after, hsplit, hword.solid, hafter⟩
  intro c hc
  refine hend c ?_
  rw [assign, List.append_cons]
  exact mem_trimEnd_append hc

/-- Exactly what is clean is read back. -/
theorem parse_render_iff (hlaw : crates.Lawful) (hsound : Sound crates list names) :
    Names.parse crates (names.render crates) file list = .ok names ↔ Clean crates names := by
  refine ⟨fun h => ?_, parse_render hlaw hsound⟩
  have hnewline := newline_notMem_of_parse h
  have hread := wasRead_of_parse h
  rw [render_eq, textLines_ended hnewline, List.map_map] at hread
  have hline : ∀ line ∈ names.lines,
      WasRead crates list line (unreturned (line.text crates)) := by
    have hmap := List.forall₂_map_right_iff.mp hread
    exact fun line hmem => (List.forall₂_same.mp hmap) line hmem
  constructor
  · intro text hmem
    rcases hline _ hmem with hother | ⟨names', e, he, -⟩
    · exact unreturned_eq_self_iff.mp (Line.other.inj hother).symm
    · cases he
  · intro e hmem url hroute
    have hmem' : .entry e ∈ names.lines := Names.mem_entries.mp hmem
    obtain ⟨hname, hallowed⟩ := hsound.good e hmem
    rcases hline _ hmem' with hother | ⟨names', e', he, hreadAs⟩
    · cases hother
    · cases he
      exact solid_of_readAs hlaw hname hallowed hroute
        (hnewline _ (List.mem_map_of_mem hmem')) hreadAs

/-! ### From edit to edit -/

/-- Where a line comes from: it was there, or is an entry with the route of one that was, or
with the route that is added. -/
theorem Does.origin {lines lines' : List (Line Id Url)} {line : Line Id Url}
    {op : Op Id Url} (h : Does op lines lines') (hline : line ∈ lines') :
    line ∈ lines ∨ ∃ e, line = .entry e ∧
      ((∃ e', .entry e' ∈ lines ∧ e'.route = e.route) ∨
        ∃ name id scope, op = .add name id e.route scope) := by
  cases h with
  | add _ name id route scope =>
    rcases List.mem_append.mp hline with hline | hline
    · exact .inl hline
    · exact .inr ⟨_, List.mem_singleton.mp hline, .inr ⟨name, id, scope, rfl⟩⟩
  | remove before after e =>
    left
    rcases List.mem_append.mp hline with hline | hline
    · exact List.mem_append_left _ hline
    · exact List.mem_append_right _ (List.mem_cons_of_mem _ hline)
  | rename before after e new =>
    rcases List.mem_append.mp hline with hline | hline
    · exact .inl (List.mem_append_left _ hline)
    · rcases List.mem_cons.mp hline with rfl | hline
      · exact .inr ⟨_, rfl, .inl ⟨e, List.mem_append_right _ List.mem_cons_self, rfl⟩⟩
      · exact .inl (List.mem_append_right _ (List.mem_cons_of_mem _ hline))

/-- A change that is made of a clean list, and adds what is clean, leaves it clean. -/
theorem Clean.does {op : Op Id Url} (h : Clean crates names) (hop : op.Clean crates)
    (hdoes : Does op names.lines names'.lines) : Clean crates names' := by
  constructor
  · intro text htext
    rcases hdoes.origin htext with hold | ⟨e, he, -⟩
    · exact h.others text hold
    · cases he
  · intro e he url hroute
    rcases hdoes.origin (Names.mem_entries.mp he) with hold | ⟨e', he', hnew⟩
    · exact h.urls e (Names.mem_entries.mpr hold) url hroute
    · cases he'
      rcases hnew with ⟨e', he', hsame⟩ | ⟨name, id, scope, rfl⟩
      · exact h.urls e' (Names.mem_entries.mpr he') url (hsame.trans hroute)
      · exact hop url hroute

section

variable [DecidableEq Id]

/-- What changes, one after another, say of a list: one that fails leaves it as it was. -/
inductive Describes (crates : Crates Id Url) :
    List (Op Id Url) → Names Id Url → Names Id Url → Prop where
  | nil (names : Names Id Url) : Describes crates [] names names
  | made {op : Op Id Url} {ops : List (Op Id Url)} {names names' last : Names Id Url} :
      (op.run crates names).1 = .ok () → Does op names.lines names'.lines →
      Describes crates ops names' last → Describes crates (op :: ops) names last
  | failed {op : Op Id Url} {ops : List (Op Id Url)} {names last : Names Id Url}
      {why : Refusal Id} : (op.run crates names).1 = .error why →
      Describes crates ops names last → Describes crates (op :: ops) names last

variable (crates)

def Names.after (names : Names Id Url) (ops : List (Op Id Url)) : Names Id Url :=
  ops.foldl (fun names op => (op.run crates names).2) names

/-- A file after a change: as it was, if the change fails. -/
def edit (file : Text) (list : ListKind) (text : Text) (op : Op Id Url) : Text :=
  match update crates file list (op.run crates) (some text) with
  | .ok (_, text) => text
  | .error _ => text

def edits (file : Text) (list : ListKind) (ops : List (Op Id Url)) (text : Text) : Text :=
  ops.foldl (edit crates file list) text

variable {crates} {op : Op Id Url} {ops : List (Op Id Url)}

/-- Changes do what they say, and keep the list sound. -/
theorem describes_after (hsound : Sound crates list names) (hops : ∀ op ∈ ops, op.Allowed list) :
    Describes crates ops names (names.after crates ops) ∧
      Sound crates list (names.after crates ops) := by
  induction ops generalizing names with
  | nil => exact ⟨.nil names, hsound⟩
  | cons op ops ih =>
    obtain ⟨hop, hops⟩ := List.forall_mem_cons.mp hops
    rcases Op.run_cases hsound hop with ⟨why, hrun⟩ | ⟨names', hrun, hdoes, hsound'⟩
    · obtain ⟨hdescribes, hlast⟩ := ih hsound hops
      have hafter : names.after crates (op :: ops) = names.after crates ops := by
        rw [Names.after, List.foldl_cons, hrun]
        rfl
      rw [hafter]
      exact ⟨.failed (by rw [hrun]) hdescribes, hlast⟩
    · obtain ⟨hdescribes, hlast⟩ := ih hsound' hops
      have hafter : names.after crates (op :: ops) = names'.after crates ops := by
        rw [Names.after, List.foldl_cons, hrun]
        rfl
      rw [hafter]
      exact ⟨.made (by rw [hrun]) hdoes hdescribes, hlast⟩

/-- A clean list is read back after a change of its file. -/
theorem parse_edit (hlaw : crates.Lawful) (hop : op.Allowed list) (hclean : Clean crates names)
    (hop' : op.Clean crates) (h : Names.parse crates text file list = .ok names) :
    Names.parse crates (edit crates file list text op) file list = .ok (op.run crates names).2 ∧
      Clean crates (op.run crates names).2 := by
  have hsound := sound_of_parse h
  rcases Op.run_cases hsound hop with ⟨why, hrun⟩ | ⟨names', hrun, hdoes, hsound'⟩
  · have hedit : edit crates file list text op = text := by
      simp only [edit, update, Option.getD_some, h, hrun]
    rw [hedit, hrun]
    exact ⟨h, hclean⟩
  · have hedit : edit crates file list text op = names'.render crates := by
      simp only [edit, update, Option.getD_some, h, hrun]
    have hclean' : Clean crates names' := hclean.does hop' hdoes
    rw [hedit, hrun]
    exact ⟨parse_render hlaw hsound' hclean', hclean'⟩

/-- What edits made of a text is what they make of its names. -/
theorem parse_edits (hlaw : crates.Lawful) (hops : ∀ op ∈ ops, op.Allowed list)
    (hclean : Clean crates names) (hops' : ∀ op ∈ ops, op.Clean crates)
    (h : Names.parse crates text file list = .ok names) :
    Names.parse crates (edits crates file list ops text) file list =
      .ok (names.after crates ops) := by
  induction ops generalizing names text with
  | nil => exact h
  | cons op ops ih =>
    obtain ⟨hop, hops⟩ := List.forall_mem_cons.mp hops
    obtain ⟨hop', hops'⟩ := List.forall_mem_cons.mp hops'
    obtain ⟨hnext, hclean'⟩ := parse_edit hlaw hop hclean hop' h
    exact ih hops hclean' hops' hnext

/-- What changes come to is what they describe, with each name once, and is read back when it is
written, exactly if it is clean; and the file of a clean list is read back as that after any edits,
as long as none adds what is not. -/
theorem edits_kept (hlaw : crates.Lawful) (h : Names.parse crates text file list = .ok names)
    (hops : ∀ op ∈ ops, op.Allowed list) :
    (Describes crates ops names (names.after crates ops) ∧
        ((names.after crates ops).entries.map Entry.name).Nodup ∧
        Names.parse crates ((names.after crates ops).render crates) file list =
          .ok (names.after crates ops) ↔
      Clean crates (names.after crates ops)) ∧
    (Clean crates names → (∀ op ∈ ops, op.Clean crates) →
      Names.parse crates (edits crates file list ops text) file list =
        .ok (names.after crates ops)) := by
  obtain ⟨hdescribes, hsound⟩ := describes_after (sound_of_parse h) hops
  refine ⟨⟨fun hkept => ?_, fun hclean => ?_⟩, fun hclean hops' => ?_⟩
  · exact (parse_render_iff hlaw hsound).mp hkept.2.2
  · exact ⟨hdescribes, hsound.unique, parse_render hlaw hsound hclean⟩
  · exact parse_edits hlaw hops hclean hops' h

end

def oneIdText : Text := "d12841817cf7b0e8b357ae293f8a0c7d911d9661b06833a8365a1b3e7f83febf".toList

def oneUrlText : Text := "https://relay.example/".toList

def oneOfEach : Crates Unit Unit where
  readId text := if text = oneIdText then some () else none
  idText _ := oneIdText
  readUrl text := if text = oneUrlText then some () else none
  urlText _ := oneUrlText

/-- The crates of the example keep their laws. -/
theorem oneOfEach_lawful : oneOfEach.Lawful where
  id_back := fun ⟨⟩ => by decide +kernel
  id_word := fun ⟨⟩ => ⟨by decide +kernel, solid_of_all (by decide +kernel)⟩
  url_back := fun ⟨⟩ => by decide +kernel

/-- A comment, and an entry of the one endpoint id. -/
def oneList : Text := "# my machines\nlaptop ".toList ++ oneIdText ++ ['\n']

def oneNames : Names Unit Unit :=
  ⟨[.other "# my machines".toList, .entry ⟨"laptop".toList, (), none, .full⟩]⟩

/-- A new name, and then an edit that fails. -/
def oneEdits : List (Op Unit Unit) :=
  [.rename "laptop".toList "desk".toList, .remove "laptop".toList]

/-- Its list is clean. -/
theorem oneNames_clean : Clean oneOfEach oneNames where
  others text htext := by
    rcases List.mem_cons.mp htext with heq | htext
    · cases heq
      decide +kernel
    · cases List.mem_singleton.mp htext
  urls e he url hroute := by
    cases List.mem_singleton.mp he
    cases hroute

/-- A client is renamed in it. -/
theorem edits_kept_renamed :
    (Describes oneOfEach oneEdits oneNames (oneNames.after oneOfEach oneEdits) ∧
        ((oneNames.after oneOfEach oneEdits).entries.map Entry.name).Nodup ∧
        Names.parse oneOfEach ((oneNames.after oneOfEach oneEdits).render oneOfEach)
          "clients".toList .clients = .ok (oneNames.after oneOfEach oneEdits) ↔
      Clean oneOfEach (oneNames.after oneOfEach oneEdits)) ∧
    Names.parse oneOfEach (edits oneOfEach "clients".toList .clients oneEdits oneList)
      "clients".toList .clients = .ok (oneNames.after oneOfEach oneEdits) := by
  have hall : ∀ P : Op Unit Unit → Prop, P (.rename "laptop".toList "desk".toList) →
      P (.remove "laptop".toList) → ∀ op ∈ oneEdits, P op := by
    intro P hrename hremove op hop
    rcases List.mem_cons.mp hop with rfl | hop
    · exact hrename
    · rwa [List.mem_singleton.mp hop]
  have hparse : Names.parse oneOfEach oneList "clients".toList .clients = .ok oneNames := by
    decide +kernel
  have hallowed : ∀ op ∈ oneEdits, op.Allowed .clients := hall _ trivial trivial
  obtain ⟨hiff, hfile⟩ := edits_kept oneOfEach_lawful hparse hallowed
  exact ⟨hiff, hfile oneNames_clean (hall _ trivial trivial)⟩

/-- A comment that ends in a return loses it at an edit. -/
theorem comment_shortened : ∃ names : Names Unit Unit,
    Names.parse oneOfEach ("# spare\r\r\n".toList) "clients".toList .clients = .ok names ∧
      ∃ op : Op Unit Unit, op.Allowed .clients ∧ (op.run oneOfEach names).1 = .ok () ∧
        Names.parse oneOfEach (edits oneOfEach "clients".toList .clients [op]
          ("# spare\r\r\n".toList)) "clients".toList .clients ≠ .ok (names.after oneOfEach [op]) :=
  ⟨⟨[.other "# spare\r".toList]⟩, by decide +kernel, .add "laptop".toList () none .full, rfl,
    by decide +kernel, by decide +kernel⟩

end Koh.Saved
