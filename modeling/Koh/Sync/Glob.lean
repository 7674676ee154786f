import Koh.Sync.Item

/-!
# `--exclude`'s patterns

`sync/glob.rs`: a pattern with a `/` in it matches an entry's path from the top
of the tree copied, another its name.

## Design notes

`matchesFrom` is the loop of `matches`, with a bound on its turns: each turn
moves the pattern on, or lets the last `*` take one byte more.
-/

namespace Koh.Sync

def maxPattern : ℕ := 1024

def maxExcludes : ℕ := 256

/-- Whether `c` is in `set`, where `a-z` stands for a range. -/
def inSet (c : UInt8) : Bytes → Bool
  | lo :: 0x2d :: hi :: set => (lo ≤ c && c ≤ hi) || inSet c set
  | lo :: set => lo == c || inSet c set
  | [] => false

/-- Whether the class at `pattern[i]` (a `[`) matches `c`, and where the pattern
goes on after it. A `[` with no `]` is itself. -/
def classAt (pattern : Bytes) (i : ℕ) (c : UInt8) : Bool × ℕ :=
  let body := pattern.drop (i + 1)
  let negated := body.head? = some 0x21 ∨ body.head? = some 0x5e
  let body := if negated then body.drop 1 else body
  -- A `]` first is one of the set.
  match (body.drop 1).findIdx? (· == 0x5d) with
  | none => (c == 0x5b, i + 1)
  | some n =>
    let close := n + 1
    let hit := inSet c (body.take close)
    (hit != decide negated && c != 0x2f, i + 1 + (if negated then 1 else 0) + close + 1)

/-- The loop of `matches`: where it is in the pattern and in the text, and where
the last `*` was and began to match. -/
def matchesFrom (pattern text : Bytes) : ℕ → ℕ → ℕ → Option (ℕ × ℕ) → Bool
  | 0, _, _, _ => false
  | fuel + 1, p, t, star =>
    -- A mismatch: the last star takes one more byte, unless that would be a `/`.
    let mismatch := match star with
      | some (sp, st) =>
        if text[st]?.any (· != 0x2f) then
          matchesFrom pattern text fuel (sp + 1) (st + 1) (some (sp, st + 1))
        else false
      | none => false
    match pattern[p]?, text[t]? with
    | some 0x2a, _ => matchesFrom pattern text fuel (p + 1) t (some (p, t))
    | some pc, some tc =>
      let (one, next) :=
        if pc = 0x5b then classAt pattern p tc else ((pc == 0x3f && tc != 0x2f) || pc == tc, p + 1)
      if one then matchesFrom pattern text fuel next (t + 1) star else mismatch
    | none, none => true
    | some _, none => mismatch
    | none, some _ => mismatch

/-- Whether `pattern` matches all of `text`. -/
def globMatches (pattern text : Bytes) : Bool :=
  matchesFrom pattern text ((pattern.length + 2) * (pattern.length + 2) * (text.length + 2)) 0 0 none

structure Pattern where
  bytes : Bytes
  valid : bytes.length ≤ maxPattern ∧ 0 ∉ bytes
  deriving DecidableEq

/-- Whether the entry named `name`, at `path` from the top of what is copied, is
excluded. -/
def Pattern.excludes (pattern : Pattern) (name path : Bytes) : Bool :=
  if pattern.bytes.contains 0x2f then
    globMatches (if pattern.bytes.head? = some 0x2f then pattern.bytes.drop 1 else pattern.bytes) path
  else globMatches pattern.bytes name

structure Excludes where
  patterns : List Pattern
  le : patterns.length ≤ maxExcludes
  deriving DecidableEq

/-- Whether any excludes the entry named `name` at `path`. -/
def Excludes.excludes (excludes : Excludes) (name path : Bytes) : Bool :=
  excludes.patterns.any (·.excludes name path)

/-- How a copy goes. -/
structure Opts where
  keepTimes : Bool
  delete : Bool
  dryRun : Bool
  excludes : Excludes
  deriving DecidableEq

end Koh.Sync
