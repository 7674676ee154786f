import Koh.Server.Allow
import Koh.Sync.Send

/-!
# Where a request's paths are

`Place`, from `server/place.rs`: as the server user's shell takes them, or, for a scoped key,
beneath the directory its scope names.

## Main definitions

- `components`: a path's components, as the standard library's `Path` has them
- `Place.resolve`: where a path is

## Main results

- `resolve_scoped`: a scoped key's path is refused, or names beneath its directory
- `resolve_beneath`: the names are those of the path, after the directory's own

## Design notes

A path is bytes. A problem's detail is the path that it shows; how it is displayed and cut is left
out, and so are the kinds that resolving does not say.
-/

namespace Koh.Server

open Koh.Sync (Name)

inductive Component where
  | rootDir
  | curDir
  | parentDir
  | normal (name : PathBytes)
  deriving DecidableEq

def Component.of (name : PathBytes) : Component :=
  if name = [0x2e, 0x2e] then .parentDir else .normal name

/-- `Path::components`: a `.` counts only where a relative path begins. -/
def components (path : PathBytes) : List Component :=
  let parts := path.splitOn 0x2f
  let body := (parts.filter fun part => part ≠ [] ∧ part ≠ [0x2e]).map Component.of
  if path.head? = some 0x2f then .rootDir :: body
  else if parts.head? = some [0x2e] then .curDir :: body
  else body

/-- `Path::strip_prefix`, as components. -/
def stripPrefix (path root : PathBytes) : Option (List Component) :=
  if components root <+: components path then
    some ((components path).drop (components root).length)
  else none

def joined (path more : PathBytes) : PathBytes :=
  if more.head? = some 0x2f then more
  else if path.isEmpty || path.getLast? = some 0x2f then path ++ more
  else path ++ 0x2f :: more

inductive ProblemKind where
  | outOfScope
  | noHome
  deriving DecidableEq

structure Problem where
  kind : ProblemKind
  detail : PathBytes
  deriving DecidableEq

/-- A path resolved: as the system finds it, or beneath a scoped key's directory. -/
inductive Resolved where
  | path (path : PathBytes)
  | beneath (root : PathBytes) (path : List Name)

structure Place where
  /-- The server user's home, if they have one. -/
  home : Option PathBytes
  /-- The directory a scoped key's paths stay in. -/
  root : Option PathBytes

namespace Place

def nameOf : Component → Option Name
  | .normal name => Name.new name
  | .parentDir | .rootDir | .curDir => none

/-- A path of a key that may do everything. -/
def resolveHome (home : Option PathBytes) (path : PathBytes) : Except Problem Resolved :=
  if path.head? = some 0x2f then .ok (.path path)
  else
    let inHome :=
      if path = [] ∨ path = [0x7e] then []
      else if [0x7e, 0x2f].isPrefixOf path then path.drop 2 else path
    match home with
    | none => .error ⟨.noHome, path⟩
    | some home => .ok (.path (if inHome.isEmpty then home else joined home inHome))

/-- A path of a scoped key, as components from its directory. -/
def relative (root path : PathBytes) : Option (List Component) :=
  if path.head? = some 0x2f then stripPrefix path root
  else if path.head? = some 0x7e then none
  else some (components path)

def resolve (place : Place) (path : PathBytes) : Except Problem Resolved :=
  match place.root with
  | none => resolveHome place.home path
  | some root =>
    match relative root path with
    | none => .error ⟨.outOfScope, path⟩
    | some rel => match (rel.filter (· ≠ .curDir)).mapM nameOf with
      | none => .error ⟨.outOfScope, path⟩
      | some names => .ok (.beneath root names)

variable {place : Place} {root path : PathBytes} {names : List Name}

/-- A scoped key's path is refused as out of its scope, or names beneath its directory. -/
theorem resolve_scoped (hroot : place.root = some root) (path : PathBytes) :
    place.resolve path = .error ⟨.outOfScope, path⟩ ∨
      ∃ names, place.resolve path = .ok (.beneath root names) := by
  simp only [resolve, hroot]
  split
  · exact .inl rfl
  · split
    · exact .inl rfl
    · exact .inr ⟨_, rfl⟩

/-- Only a plain component is a name. -/
theorem nameOf_eq_some {c : Component} {name : Name} (h : nameOf c = some name) :
    c = .normal name.bytes := by
  cases c with
  | normal bytes =>
    simp only [nameOf, Name.new] at h
    split at h
    · cases h
      rfl
    · cases h
  | _ => cases h

/-- A path is a list of names only if it has no other component. -/
theorem mapM_nameOf {cs : List Component} (h : cs.mapM nameOf = some names) :
    cs = names.map fun name => .normal name.bytes := by
  induction cs generalizing names with
  | nil =>
    cases h
    rfl
  | cons c cs ih =>
    rw [List.mapM_cons] at h
    obtain ⟨name, hname, h⟩ := Option.bind_eq_some_iff.mp h
    obtain ⟨rest, hrest, h⟩ := Option.bind_eq_some_iff.mp h
    cases h
    rw [List.map_cons, ← ih hrest, nameOf_eq_some hname]

/-- The names are those of the path: after the directory's own, if it is absolute. -/
theorem resolve_beneath (hroot : place.root = some root)
    (h : place.resolve path = .ok (.beneath root names)) :
    ∃ rel, rel.filter (· ≠ .curDir) = names.map (fun name => Component.normal name.bytes) ∧
      (components path = components root ++ rel ∨
        path.head? ≠ some 0x2f ∧ path.head? ≠ some 0x7e ∧ components path = rel) := by
  simp only [resolve, hroot] at h
  split at h
  · cases h
  · next rel hrel =>
    split at h
    · cases h
    · next names' hnames =>
      cases h
      refine ⟨rel, mapM_nameOf hnames, ?_⟩
      unfold relative stripPrefix at hrel
      by_cases habsolute : path.head? = some 0x2f
      · rw [if_pos habsolute] at hrel
        split at hrel
        · next hprefix =>
          cases hrel
          exact .inl (List.prefix_iff_eq_append.mp hprefix).symm
        · cases hrel
      · rw [if_neg habsolute] at hrel
        split at hrel
        · cases hrel
        · next htilde =>
          cases hrel
          exact .inr ⟨habsolute, htilde, rfl⟩

/-- In `resolve_beneath`, `/s/a` beneath `/s`. -/
theorem resolve_beneath_absolute :
    ∃ rel, rel.filter (· ≠ .curDir) = [Component.normal [0x61]] ∧
      (components [0x2f, 0x73, 0x2f, 0x61] = components [0x2f, 0x73] ++ rel ∨
        ([0x2f, 0x73, 0x2f, 0x61] : PathBytes).head? ≠ some 0x2f ∧
          ([0x2f, 0x73, 0x2f, 0x61] : PathBytes).head? ≠ some 0x7e ∧
          components [0x2f, 0x73, 0x2f, 0x61] = rel) := by
  have hresolve : resolve ⟨none, some [0x2f, 0x73]⟩ [0x2f, 0x73, 0x2f, 0x61] =
      .ok (.beneath [0x2f, 0x73] [⟨[0x61], by decide⟩]) := rfl
  exact resolve_beneath rfl hresolve

end Place

end Koh.Server
