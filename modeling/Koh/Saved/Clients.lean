import Koh.Lib.Dict
import Koh.Saved.Kept

/-!
# The clients that a server reads

`Allowlist::read` from `server/cli.rs`: who may connect is who was given for this run, and who is
saved beside the server key.

## Main definitions

- `Allowlist`, `Allowlist.read`: the list, and who may connect as it says now

## Main results

- `saved_scopes_iff`: exactly where lines of one key agree, each key saved has its line's scope
-/

namespace Koh.Saved

open Koh.Lib

variable {Id Url : Type} [DecidableEq Id]

/-- Who may connect: the ids given for this run, each with its scope, and the clients saved beside
the server key. -/
structure Allowlist (Id : Type) where
  given : Dict Id Scope
  /-- What is in the saved list's file, if there is one, and the file's name. -/
  saved : Option (Option Text × Text)

namespace Allowlist

/-- The clients who may connect as the saved list says now, and their scopes. -/
def read (crates : Crates Id Url) (allow : Allowlist Id) : Except ParseError (Dict Id Scope) :=
  match allow.saved with
  | none => .ok (Dict.extend [] allow.given)
  | some (text, shown) =>
    (Names.parse crates (text.getD []) shown .clients).map fun names =>
      Dict.extend (Dict.extend [] (names.entries.map fun e => (e.id, e.scope))) allow.given

end Allowlist

variable {crates : Crates Id Url} {names : Names Id Url} {given : Dict Id Scope}
  {text : Option Text} {shown : Text}

/-- What is read of a saved list: each entry's scope, under what was given. -/
theorem read_saved (h : Names.parse crates (text.getD []) shown .clients = .ok names) :
    Allowlist.read crates ⟨given, some (text, shown)⟩ = .ok
      (Dict.extend (Dict.extend [] (names.entries.map fun e => (e.id, e.scope))) given) := by
  rw [Allowlist.read]
  simp only [h]
  rfl

/-- What a key that is saved and not given gets: the scope of one of its lines. -/
theorem lookup_saved {e : Entry Id Url} (he : e ∈ names.entries)
    (hgiven : e.id ∉ given.map Prod.fst) :
    ∃ e' ∈ names.entries, e'.id = e.id ∧
      (Dict.extend (Dict.extend [] (names.entries.map fun e => (e.id, e.scope))) given).lookup e.id
        = some e'.scope := by
  have hkey : e.id ∈ (names.entries.map fun e => (e.id, e.scope)).map Prod.fst :=
    List.mem_map.mpr ⟨(e.id, e.scope), List.mem_map_of_mem he, rfl⟩
  obtain ⟨scope, hmem, hlookup⟩ := @Dict.lookup_extend_of_mem _ _ _ [] _ _ hkey
  obtain ⟨e', he', heq⟩ := List.mem_map.mp hmem
  obtain ⟨hid, rfl⟩ := Prod.mk.inj heq
  exact ⟨e', he', hid, by rw [Dict.lookup_extend_of_notMem hgiven, hlookup]⟩

/-- Each client that is saved, and was not given, is allowed what its line says, exactly if no two
lines of such a key differ. -/
theorem saved_scopes_iff (h : Names.parse crates (text.getD []) shown .clients = .ok names) :
    (∃ allowed, Allowlist.read crates ⟨given, some (text, shown)⟩ = .ok allowed ∧
        ∀ e ∈ names.entries, e.id ∉ given.map Prod.fst → allowed.lookup e.id = some e.scope) ↔
      ∀ e ∈ names.entries, ∀ e' ∈ names.entries, e.id ∉ given.map Prod.fst → e.id = e'.id →
        e.scope = e'.scope := by
  rw [read_saved h]
  constructor
  · rintro ⟨allowed, -, hallowed⟩ e he e' he' hgiven hid
    have hscope := hallowed e he hgiven
    rw [hid, hallowed e' he' (hid ▸ hgiven)] at hscope
    exact (Option.some.inj hscope).symm
  · intro hagree
    refine ⟨_, rfl, fun e he hgiven => ?_⟩
    obtain ⟨e', he', hid, hlookup⟩ := lookup_saved he hgiven
    rw [hlookup, hagree e he e' he' hgiven hid.symm]

/-- A key saved on two lines, the first with a scope. -/
def twoLines : Text :=
  "backup ".toList ++ oneIdText ++ " cp=/srv/backup\nlaptop ".toList ++ oneIdText ++ ['\n']

/-- The one client of a list has its scope. -/
theorem saved_scopes_one :
    ∃ allowed, Allowlist.read oneOfEach ⟨[], some (some oneList, "clients".toList)⟩ = .ok allowed ∧
      ∀ e ∈ oneNames.entries, e.id ∉ ([] : Dict Unit Scope).map Prod.fst →
        allowed.lookup e.id = some e.scope := by
  have h : Names.parse oneOfEach ((some oneList).getD []) "clients".toList .clients
      = .ok oneNames := by decide +kernel
  refine (saved_scopes_iff h).mpr fun e he e' he' _ _ => ?_
  rw [List.mem_singleton.mp he, List.mem_singleton.mp he']

/-- The key is allowed everything, whatever its first line says. -/
theorem scope_overtaken : ∃ (names : Names Unit Unit) (e : Entry Unit Unit),
    Names.parse oneOfEach twoLines "clients".toList .clients = .ok names ∧ e ∈ names.entries ∧
      e.scope.isFull = false ∧
      (Allowlist.read oneOfEach ⟨[], some (some twoLines, "clients".toList)⟩).toOption.bind
        (·.lookup e.id) = some .full :=
  ⟨⟨[.entry ⟨"backup".toList, (), none, ⟨some ⟨"/srv/backup".toList, by decide +kernel⟩, none⟩⟩,
    .entry ⟨"laptop".toList, (), none, .full⟩]⟩, _, by decide +kernel, List.mem_cons_self, rfl,
    by decide +kernel⟩

end Koh.Saved
