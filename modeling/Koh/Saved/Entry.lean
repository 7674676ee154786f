import Koh.Lib.Lines
import Koh.Lib.SocketAddr
import Koh.Lib.Words

/-!
# A saved name, and its line

`Route`, `Scope` and `Entry` from `names.rs`: what a line of `servers` or `clients` holds, how it
is written, and how its words are read.

## Main definitions

- `Crates`: endpoint ids and relay URLs, and their texts
- `Route`, `Dir`, `Scope`, `Entry`: a saved name, and what its line says of it
- `checkName`: what a name may be
- `takeWords`: what the words after the id say

## Main results

- `takeWords_extras`: what an entry says after its id is read back

## Design notes

A path is its text. An error is the data it shows, and its words are left out. Endpoint ids
and relay URLs are other crates': `Crates.Lawful` is what is relied on of them.
-/

namespace Koh.Saved

open Koh.Lib

abbrev Text := List Char

inductive ListKind where
  | servers
  | clients
  deriving DecidableEq

/-- Endpoint ids and relay URLs, as their crates read them and write them. -/
structure Crates (Id Url : Type) where
  /-- `EndpointId::from_str`. -/
  readId : Text → Option Id
  idText : Id → Text
  /-- `RelayUrl::from_str`. -/
  readUrl : Text → Option Url
  urlText : Url → Text

namespace Crates

variable {Id Url : Type} (crates : Crates Id Url)

def parseEndpointId (text : Text) : Option Id := crates.readId (trim isWhitespace text)

def parseRelayUrl (text : Text) : Option Url := crates.readUrl (trim isWhitespace text)

/-- Their texts are read back, and an id's is a word. -/
structure Lawful : Prop where
  id_back : ∀ id, crates.parseEndpointId (crates.idText id) = some id
  id_word : ∀ id, IsWord isWhitespace (crates.idText id)
  url_back : ∀ url, crates.parseRelayUrl (crates.urlText url) = some url

end Crates

inductive Route (Url : Type) where
  | direct (addr : SocketAddr)
  | relay (url : Url)
  deriving DecidableEq

/-- A directory a scope names: absolute, holding no white space or `..`. -/
def goodDir (text : Text) : Bool :=
  text.head? = some '/' && text.all (!isWhitespace ·) && (text.splitOn '/').all (· ≠ ['.', '.'])

abbrev Dir := { text : Text // goodDir text = true }

/-- What a client may do on the server: everything, or only what its words name. -/
structure Scope where
  cp : Option Dir
  exec : Option Dir
  deriving DecidableEq

def Scope.full : Scope := ⟨none, none⟩

structure Entry (Id Url : Type) where
  name : Text
  id : Id
  route : Option (Route Url)
  scope : Scope
  deriving DecidableEq

inductive Wrong where
  /-- The line is not what the list's lines are. -/
  | expected (list : ListKind) (found : Text)
  | notAName (name : Text)
  | readsAsId (name : Text)
  | badEndpointId (text : Text)
  | badDirect (addr : Text)
  | badRelayUrl (url : Text)
  | notARoute (word : Text)
  | notAScope (word : Text)
  | saidTwice (word : Text)
  | badDir (text : Text)
  | namedTwice (name : Text)
  deriving DecidableEq

/-! ### Words of a line -/

def directWord : Text := ['d', 'i', 'r', 'e', 'c', 't']
def relayWord : Text := ['r', 'e', 'l', 'a', 'y']
def cpWord : Text := ['c', 'p']
def execWord : Text := ['e', 'x', 'e', 'c']

/-- `str::split_once`, at a character. -/
def splitOnce (c : Char) (text : Text) : Option (Text × Text) :=
  if c ∈ text then some (text.takeWhile (· ≠ c), (text.dropWhile (· ≠ c)).tail) else none

def assign (key value : Text) : Text := key ++ '=' :: value

section

variable {Id Url : Type} (crates : Crates Id Url)

namespace Route

def text : Route Url → Text
  | .direct addr => assign directWord addr.text
  | .relay url => assign relayWord (crates.urlText url)

def parse (word : Text) : Except Wrong (Route Url) :=
  match splitOnce '=' word with
  | none => .error (.notARoute word)
  | some (key, value) =>
    if key = directWord then
      match SocketAddr.parse value with
      | some addr => .ok (.direct addr)
      | none => .error (.badDirect value)
    else if key = relayWord then
      match crates.parseRelayUrl value with
      | some url => .ok (.relay url)
      | none => .error (.badRelayUrl value)
    else .error (.notARoute word)

end Route

def Scope.dir (text : Text) : Except Wrong Dir :=
  if h : goodDir text = true then .ok ⟨text, h⟩ else .error (.badDir text)

namespace Scope

def isFull (scope : Scope) : Bool := scope.cp.isNone && scope.exec.isNone

/-- A word is added, refused if it is another or said twice. -/
def take (scope : Scope) (word : Text) : Except Wrong Scope :=
  match splitOnce '=' word with
  | none => .error (.notAScope word)
  | some (key, value) =>
    if key = cpWord then
      if scope.cp.isSome then .error (.saidTwice word)
      else (Scope.dir value).map fun dir => { scope with cp := some dir }
    else if key = execWord then
      if scope.exec.isSome then .error (.saidTwice word)
      else (Scope.dir value).map fun dir => { scope with exec := some dir }
    else .error (.notAScope word)

/-- The scope as the file holds it, each word after a space. -/
def text (scope : Scope) : Text :=
  (match scope.cp with
    | some dir => ' ' :: assign cpWord dir.1
    | none => []) ++
  (match scope.exec with
    | some dir => ' ' :: assign execWord dir.1
    | none => [])

end Scope

def Entry.text (entry : Entry Id Url) : Text :=
  entry.name ++ ' ' :: (crates.idText entry.id ++
    ((match entry.route with
      | some route => ' ' :: route.text crates
      | none => []) ++ entry.scope.text))

def maxName : ℕ := 32

/-- A letter, a digit, `-`, `_` or `.`. -/
def isNameChar (c : Char) : Bool := c.isAlphanum || c = '-' || c = '_' || c = '.'

/-- 1 to `maxName` letters, digits, `-`, `_` or `.`, not starting with `-`, and never something
that reads as an endpoint id. -/
def checkName (name : Text) : Except Wrong Unit :=
  if name ≠ [] ∧ name.length ≤ maxName ∧ name.head? ≠ some '-' ∧ name.all isNameChar then
    if (crates.parseEndpointId name).isNone then .ok () else .error (.readsAsId name)
  else .error (.notAName name)

/-- What the words after the id say: `found` is the line. -/
def takeWords (list : ListKind) (found : Text) :
    Option (Route Url) → Scope → List Text → Except Wrong (Option (Route Url) × Scope)
  | route, scope, [] => .ok (route, scope)
  | route, scope, word :: more =>
    match list, route with
    | .servers, none => do
      let route ← Route.parse crates word
      takeWords list found (some route) scope more
    | .servers, some _ => .error (.expected list found)
    | .clients, route => do
      let scope ← scope.take word
      takeWords list found route scope more

end

/-! ### No white space -/

theorem isWhitespace_of_between {c a b : Char} (h : a ≤ c ∧ c ≤ b) (ha : '!'.toNat ≤ a.toNat)
    (hb : b.toNat ≤ '~'.toNat) : isWhitespace c = false := by
  rw [Char.le_def, Char.le_def, UInt32.le_iff_toNat_le, UInt32.le_iff_toNat_le] at h
  exact isWhitespace_of_visible ⟨Nat.le_trans ha h.1, Nat.le_trans h.2 hb⟩

theorem isWhitespace_of_digit {c : Char} (h : isDigitOf 16 c = true) : isWhitespace c = false := by
  simp only [isDigitOf, digitOf] at h
  split at h
  · next hdigit => exact isWhitespace_of_between hdigit (by decide) (by decide)
  · split at h
    · next hlower => exact isWhitespace_of_between hlower (by decide) (by decide)
    · split at h
      · next hupper => exact isWhitespace_of_between hupper (by decide) (by decide)
      · cases h

theorem isWhitespace_of_inAddr {c : Char} (h : InAddr c) : isWhitespace c = false := by
  have hpunct : ∀ c ∈ ['.', ':', '%', '[', ']'], isWhitespace c = false :=
    solid_of_all (by decide)
  rcases h with h | h
  · exact isWhitespace_of_digit h
  · exact hpunct c h

theorem isWhitespace_of_isNameChar {c : Char} (h : isNameChar c = true) :
    isWhitespace c = false := by
  have halpha : c.isAlpha = (decide (c.val ≥ 'A'.val ∧ c.val ≤ 'Z'.val) ||
      (c.val ≥ 'a'.val && c.val ≤ 'z'.val)) := rfl
  simp only [isNameChar, Char.isAlphanum, halpha, Char.isDigit, Bool.or_eq_true,
    Bool.and_eq_true, decide_eq_true_eq] at h
  rcases h with (((hletter | hdigit) | rfl) | rfl) | rfl
  · rcases hletter with hupper | hlower
    · exact isWhitespace_of_between (a := 'A') (b := 'Z') hupper (by decide) (by decide)
    · exact isWhitespace_of_between (a := 'a') (b := 'z') hlower (by decide) (by decide)
  · exact isWhitespace_of_between (a := '0') (b := '9') hdigit (by decide) (by decide)
  · decide
  · decide
  · decide

/-- A setting is one word. -/
theorem isWord_assign {key value : Text} (hkey : ∀ c ∈ key, isWhitespace c = false)
    (hvalue : ∀ c ∈ value, isWhitespace c = false) : IsWord isWhitespace (assign key value) where
  ne_nil := by simp [assign]
  solid := by
    intro c hc
    rcases List.mem_append.mp hc with hc | hc
    · exact hkey c hc
    · rcases List.mem_cons.mp hc with rfl | hc
      · decide
      · exact hvalue c hc

theorem Dir.solid (dir : Dir) : ∀ c ∈ dir.1, isWhitespace c = false := by
  have hgood := dir.2
  simp only [goodDir, Bool.and_eq_true, List.all_eq_true] at hgood
  intro c hc
  simpa using hgood.1.2 c hc

section

variable {Id Url : Type} {crates : Crates Id Url}

/-- A name is a word, and begins no comment. -/
theorem isWord_of_checkName {name : Text} (h : checkName crates name = .ok ()) :
    IsWord isWhitespace name ∧ name.head? ≠ some '#' := by
  rw [checkName] at h
  split at h
  · next hname =>
    have hchars : ∀ c ∈ name, isNameChar c = true := List.all_eq_true.mp hname.2.2.2
    refine ⟨⟨hname.1, fun c hc => isWhitespace_of_isNameChar (hchars c hc)⟩, fun hhead => ?_⟩
    have hhash := hchars '#' (List.mem_of_mem_head? hhead)
    revert hhash
    decide
  · cases h

/-! ### What an entry says after its id -/

/-- A setting is split at its sign. -/
theorem splitOnce_assign {key value : Text} (h : '=' ∉ key) :
    splitOnce '=' (assign key value) = some (key, value) := by
  have hkey : ∀ c ∈ key, (decide (c ≠ '=')) = true := by
    intro c hc
    simpa using fun heq : c = '=' => h (heq ▸ hc)
  rw [splitOnce, if_pos (by simp [assign]), assign, List.takeWhile_append_of_pos hkey,
    List.dropWhile_append_of_pos hkey]
  simp

namespace Entry

variable (crates) in
def extras (entry : Entry Id Url) : List Text :=
  (entry.route.map (Route.text crates)).toList ++
    ((entry.scope.cp.map fun dir => assign cpWord dir.1).toList ++
      (entry.scope.exec.map fun dir => assign execWord dir.1).toList)

/-- An entry's text is its name and its words. -/
theorem text_eq (entry : Entry Id Url) : entry.text crates =
    entry.name ++ (crates.idText entry.id :: entry.extras crates).flatMap (' ' :: ·) := by
  obtain ⟨name, id, route, ⟨cp, exec⟩⟩ := entry
  simp only [text, extras, Scope.text, List.flatMap_cons, List.flatMap_append]
  cases route <;> cases cp <;> cases exec <;> simp

end Entry

/-- A route only in servers, and a scope only in clients. -/
def Allowed (list : ListKind) (route : Option (Route Url)) (scope : Scope) : Prop :=
  match list with
  | .servers => scope = .full
  | .clients => route = none

instance (list : ListKind) (route : Option (Route Url)) [DecidableEq Url] (scope : Scope) :
    Decidable (Allowed list route scope) :=
  match list with
  | .servers => inferInstanceAs (Decidable (scope = .full))
  | .clients => inferInstanceAs (Decidable (route = none))

/-- A route's text is read back. -/
theorem Route.parse_text (hlaw : crates.Lawful) (route : Route Url) :
    Route.parse crates (route.text crates) = .ok route := by
  cases route with
  | direct addr =>
    rw [Route.text, Route.parse, splitOnce_assign (by decide)]
    simp only [↓reduceIte, SocketAddr.parse_text]
  | relay url =>
    rw [Route.text, Route.parse, splitOnce_assign (by decide)]
    simp only [↓reduceIte, hlaw.url_back, (by decide : relayWord ≠ directWord)]

theorem Scope.dir_dir (dir : Dir) : Scope.dir dir.1 = .ok dir := dif_pos dir.2

/-- A directory that may be copied to is taken. -/
theorem Scope.take_cp {scope : Scope} (h : scope.cp = none) (dir : Dir) :
    scope.take (assign cpWord dir.1) = .ok { scope with cp := some dir } := by
  rw [Scope.take, splitOnce_assign (by decide)]
  simp only [↓reduceIte, h, Option.isSome_none, Bool.false_eq_true, Scope.dir_dir]
  rfl

/-- So is one to run in. -/
theorem Scope.take_exec {scope : Scope} (h : scope.exec = none) (dir : Dir) :
    scope.take (assign execWord dir.1) = .ok { scope with exec := some dir } := by
  rw [Scope.take, splitOnce_assign (by decide)]
  simp only [↓reduceIte, h, Option.isSome_none, Bool.false_eq_true, Scope.dir_dir,
    (by decide : execWord ≠ cpWord)]
  rfl

/-- What an entry says after its id is read back. -/
theorem takeWords_extras (hlaw : crates.Lawful) {list : ListKind} {entry : Entry Id Url}
    (h : Allowed list entry.route entry.scope) (found : Text) :
    takeWords crates list found none .full (entry.extras crates) =
      .ok (entry.route, entry.scope) := by
  obtain ⟨name, id, route, scope⟩ := entry
  cases list with
  | servers =>
    have hscope : scope = .full := h
    subst hscope
    cases route with
    | none => rfl
    | some route =>
      change (Route.parse crates (route.text crates) >>= fun route =>
        takeWords crates .servers found (some route) .full []) = _
      rw [Route.parse_text hlaw]
      rfl
  | clients =>
    have hroute : route = none := h
    subst hroute
    obtain ⟨cp, exec⟩ := scope
    cases cp with
    | none =>
      cases exec with
      | none => rfl
      | some exec =>
        change (Scope.full.take (assign execWord exec.1) >>= fun scope =>
          takeWords crates .clients found none scope []) = _
        rw [Scope.take_exec rfl]
        rfl
    | some cp =>
      cases exec with
      | none =>
        change (Scope.full.take (assign cpWord cp.1) >>= fun scope =>
          takeWords crates .clients found none scope []) = _
        rw [Scope.take_cp rfl]
        rfl
      | some exec =>
        change (Scope.full.take (assign cpWord cp.1) >>= fun scope =>
          takeWords crates .clients found none scope [assign execWord exec.1]) = _
        rw [Scope.take_cp rfl]
        change (Scope.take ⟨some cp, none⟩ (assign execWord exec.1) >>= fun scope =>
          takeWords crates .clients found none scope []) = _
        rw [Scope.take_exec rfl]
        rfl

end

end Koh.Saved
