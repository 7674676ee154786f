import Koh.Server.Place
import Koh.Sync.Beneath

/-!
# What a scoped key may reach

A copy from the server, from `server/copy.rs`, and the look for a file that a wait makes, from
`server/wait.rs`, in the host's tree at a key's place.

## Main definitions

- `sourceAt`, `sourcesAt`: what a copy is asked for, and what is found there
- `Sync.Sender.messages`: what a sender hands to its stream, whatever it is answered
- `gets`, `there`: what a copy sends, and what a wait sees

## Main results

- `scoped_confined`: a scoped key's requests are refused or beneath its directory, and what they
  send and see is what is seen from there, through directories alone

## Design notes

The path that a failure shows is given as it was asked, and not as it is displayed.
-/

namespace Koh.Sync.Sender

/-- What comes to a sender's thread at a step: replies, and whether it sees one that it does not
wait for; how many messages the stream takes, or that it is gone; how much a read brings. -/
structure Turn where
  heard : List Reply
  sees : Bool
  taken : ℕ
  there : Bool
  read : ℕ

/-- The messages that a sender's stream takes, turn by turn. -/
def messages (size : Item → ℕ) (digest : Bytes → Bytes) :
    List Turn → Sender → Out → List Reply → List (List Item)
  | [], _, _, _ => []
  | turn :: turns, s, out, replies =>
    let taken := out.pipe.take turn.taken
    let out := { out with pipe := out.pipe.drop turn.taken }
    let replies := replies ++ turn.heard
    taken ++ match s.step size digest turn.there turn.sees turn.read out replies with
      | none => messages size digest turns s out replies
      | some ((s, out), replies) => messages size digest turns s out replies

def start (opts : Opts) (sources : List Source) : Sender :=
  ⟨opts.dryRun, walk opts sources, [], 0, .walking⟩

end Koh.Sync.Sender

namespace Koh.Server

open Koh.Sync (Opts Item Source Failure FailKind)
open Koh.Sync.Beneath (Host Agree found foundPath existsBeneath)

variable {D : Type}

/-- `resolve`, of a copy: why a path is none of its. -/
def failureOf (problem : Problem) : Failure :=
  .new (match problem.kind with
    | .outOfScope => .outOfScope
    | .noHome => .noHome) problem.detail

/-- `source`, and what is found there. -/
def sourceAt (place : Place) (h : Host D) (path : PathBytes) : Except Failure Source :=
  match place.resolve path with
  | .error problem => .error (failureOf problem)
  | .ok (.path path) => .ok (.path path (foundPath h path))
  | .ok (.beneath root names) => .ok (.beneath names (found h root names))

def sourcesAt (place : Place) (h : Host D) (paths : List PathBytes) :
    Except Failure (List Source) :=
  paths.mapM (sourceAt place h)

/-- `send_on`, for what a client asks: the messages that go, and what is found to send them. -/
def gets (size : Item → ℕ) (digest : Sync.Bytes → Sync.Bytes) (place : Place) (h : Host D)
    (paths : List PathBytes) (opts : Opts) (turns : List Sync.Sender.Turn) :
    List (List Item) :=
  match sourcesAt place h paths with
  | .error failure => [[.failed failure]]
  | .ok sources => Sync.Sender.messages size digest turns (.start opts sources) ⟨[], []⟩ []

/-- Whether a wait sees the file at `path`: without following it if it is a symlink. -/
def there (place : Place) (h : Host D) (path : PathBytes) : Except Problem Bool :=
  match place.resolve path with
  | .error problem => .error problem
  | .ok (.path path) =>
    .ok (match Namei.lookup h.tree false h.top path with
      | .ok _ => true
      | .error _ => false)
  | .ok (.beneath root names) => .ok (existsBeneath h root names)

section

variable {D' : Type} {h : Host D} {h' : Host D'} {place : Place} {root : PathBytes}

/-- Hosts that agree on the root agree on what is copied from beneath it. -/
theorem sourceAt_eq (hroot : place.root = some root) (hagree : Agree h h' root)
    (path : PathBytes) : sourceAt place h path = sourceAt place h' path := by
  unfold sourceAt
  rcases Place.resolve_scoped hroot path with hout | ⟨names, hnames⟩
  · rw [hout]
  · simp only [hnames, Sync.Beneath.found_eq hagree names]

/-- And on what is there. -/
theorem there_eq (hroot : place.root = some root) (hagree : Agree h h' root) (path : PathBytes) :
    there place h path = there place h' path := by
  unfold there
  rcases Place.resolve_scoped hroot path with hout | ⟨names, hnames⟩
  · rw [hout]
  · simp only [hnames, Sync.Beneath.existsBeneath_eq hagree names]

/-- A scoped key's path is refused, or names beneath its directory; and what a copy of such paths
finds and sends, whatever it is answered, and what a wait for a file sees, is the same in trees that
look alike from that directory, through directories alone. -/
theorem scoped_confined (hroot : place.root = some root) :
    (∀ path, place.resolve path = .error ⟨.outOfScope, path⟩ ∨
      ∃ names, place.resolve path = .ok (.beneath root names)) ∧
    ∀ {D D' : Type} {h : Host D} {h' : Host D'}, Agree h h' root →
      (∀ paths, sourcesAt place h paths = sourcesAt place h' paths) ∧
      (∀ size digest paths opts turns,
        gets size digest place h paths opts turns = gets size digest place h' paths opts turns) ∧
      ∀ path, there place h path = there place h' path := by
  refine ⟨Place.resolve_scoped hroot, fun {D D' h h'} hagree => ?_⟩
  have hsources : ∀ paths, sourcesAt place h paths = sourcesAt place h' paths := fun paths =>
    congrArg (paths.mapM ·) (funext fun path => sourceAt_eq hroot hagree path)
  refine ⟨hsources, fun size digest paths opts turns => ?_, there_eq hroot hagree⟩
  simp only [gets, hsources]

end

/-- A directory `/s` with a symlink `l` to `/e`, where there is a `k`, or not. -/
def linked (has : Bool) : Host ℕ where
  top := 0
  parent _ := 0
  entry d name := .ok <|
    if d = 0 ∧ name = [0x73] then some (.dir 1)
    else if d = 0 ∧ name = [0x65] then some (.dir 2)
    else if d = 1 ∧ name = [0x6c] then some (.link [0x2f, 0x65])
    else if d = 2 ∧ name = [0x6b] ∧ has then some (.file .other)
    else none
  dir d := ⟨0o755, none, none, .ok (if d = 1 then [[0x6c]] else [])⟩

/-- The two hosts agree on the root. -/
theorem linked_agree : Agree (linked true) (linked false) [0x2f, 0x73] := by
  refine @Namei.Same.dir _ _ _ _ _ 1 1 (funext fun p => ?_)
  cases p with
  | nil => simp [Host.sees, Namei.view, Namei.Tree.reach, Host.tree, linked, Host.about]
  | cons name p =>
    have hno : ∀ has, (linked has).tree.reach 1 (name :: p) = none := by
      intro has
      by_cases hname : name = [0x6c] <;>
        simp [Namei.Tree.reach, Names.reach_cons, Host.tree, linked, hname, Except.toOption,
          Namei.Entry.sub]
    simp [Host.sees, Namei.view, hno]

/-- What the symlink leads to is there or not: a key of `/s` sees and is sent the same. -/
theorem scoped_confined_linked :
    (Namei.lookup (linked true).tree true 0 [0x2f, 0x73, 0x2f, 0x6c, 0x2f, 0x6b]).isOk = true ∧
    (Namei.lookup (linked false).tree true 0 [0x2f, 0x73, 0x2f, 0x6c, 0x2f, 0x6b]).isOk = false ∧
    there ⟨none, some [0x2f, 0x73]⟩ (linked true) [0x6c, 0x2f, 0x6b] =
      there ⟨none, some [0x2f, 0x73]⟩ (linked false) [0x6c, 0x2f, 0x6b] ∧
    sourcesAt ⟨none, some [0x2f, 0x73]⟩ (linked true) [[]] =
      sourcesAt ⟨none, some [0x2f, 0x73]⟩ (linked false) [[]] := by
  obtain ⟨-, hsame⟩ := @scoped_confined ⟨none, some [0x2f, 0x73]⟩ _ rfl
  obtain ⟨hsources, -, hthere⟩ := hsame linked_agree
  exact ⟨by decide +kernel, by decide +kernel, hthere _, hsources _⟩

end Koh.Server
