import Koh.Lib.Dict
import Mathlib.Data.List.Nodup

/-!
# Who may connect

The clients a server allows, as `watch_allowlist` publishes them, from
`server/cli.rs`, and what each key may do.

## Main definitions

- `Scope`: what a key may do
- `Clients`: the keys allowed
- `Clients.gone`: the keys a change drops or rescopes
-/

namespace Koh.Server

open Koh.Lib

abbrev Peer := ℕ

abbrev PathBytes := List UInt8

/-- What a key may do: everything, or what is in a directory. -/
structure Scope where
  cp : Option PathBytes
  exec : Option PathBytes
  deriving DecidableEq

namespace Scope

def full : Scope := ⟨none, none⟩

def isFull (scope : Scope) : Bool := scope.cp.isNone && scope.exec.isNone

/-- Whether a job may be started (`permitted`): by a full key, or one with a directory
for commands. -/
def permitsStart (scope : Scope) : Bool := scope.isFull || scope.exec.isSome

end Scope

/-- The clients who may connect, and their scopes. -/
structure Clients where
  entries : Dict Peer Scope
  nodup : (entries.map Prod.fst).Nodup
  deriving DecidableEq

namespace Clients

def none : Clients := ⟨[], by decide⟩

def alone (peer : Peer) : Clients := ⟨[(peer, .full)], by simp⟩

def get (clients : Clients) (peer : Peer) : Option Scope := clients.entries.lookup peer

/-- The keys that a change to `next` drops or rescopes. -/
def gone (now next : Clients) : List Peer :=
  (now.entries.filter fun e => next.get e.1 ≠ some e.2).map Prod.fst

/-- A key keeps its scope over a change, or is gone. -/
theorem get_or_gone {now next : Clients} {peer : Peer} {scope : Scope}
    (h : now.get peer = some scope) : next.get peer = some scope ∨ peer ∈ now.gone next := by
  by_cases hnext : next.get peer = some scope
  · exact .inl hnext
  · right
    refine List.mem_map.mpr ⟨(peer, scope), List.mem_filter.mpr ⟨Dict.mem_of_lookup h, ?_⟩, rfl⟩
    simpa using hnext

end Clients

end Koh.Server
