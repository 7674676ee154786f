import Koh.Server.Allow
import Mathlib.Data.List.Induction

/-!
# What reads of the client list settle

`Settling::settle` and the loop of `watch_allowlist`, from `server/cli.rs`: the list is
read again and again, and a read that drops a client waits for the next to agree.

## Main definitions

- `Settling`, `Settling.settle`: what the list becomes after a read
- `Watching`, `Watching.read`: the list in force, and what reads have settled

## Main results

- `warns_after`: a failure is told of once, until a read succeeds
- `Watching.reads_settle`: what is dropped was read twice, what is added is taken at
  once, and what is read twice is taken

## Design notes

A map's order says nothing, so two lists are compared by what each key is allowed.
-/

namespace Koh.Server

open Koh.Lib

namespace Clients

def agrees (a b : Clients) : Bool :=
  (a.entries.all fun e => b.get e.1 = some e.2) && b.entries.all fun e => a.get e.1 = some e.2

/-- Whether `next` drops a client, or changes its scope. -/
def drops (now next : Clients) : Bool := now.entries.any fun e => next.get e.1 ≠ some e.2

/-- Each entry of one is the other's. -/
theorem all_iff {a b : Clients} : (a.entries.all fun e => b.get e.1 = some e.2) = true ↔
    ∀ peer scope, a.get peer = some scope → b.get peer = some scope := by
  rw [List.all_eq_true]
  constructor
  · intro h peer scope hget
    simpa using h (peer, scope) (Dict.mem_of_lookup hget)
  · rintro h ⟨peer, scope⟩ hmem
    simpa using h peer scope (Dict.lookup_of_mem a.nodup hmem)

/-- Two lists agree if they allow the same. -/
theorem agrees_iff_get {a b : Clients} :
    a.agrees b = true ↔ ∀ peer, a.get peer = b.get peer := by
  rw [agrees, Bool.and_eq_true, all_iff, all_iff]
  constructor
  · rintro ⟨hab, hba⟩ peer
    cases ha : a.get peer with
    | some scope => exact (hab peer scope ha).symm
    | none =>
      cases hb : b.get peer with
      | some scope => rw [← ha, hba peer scope hb]
      | none => rfl
  · intro h
    exact ⟨fun peer scope hget => (h peer).symm.trans hget,
      fun peer scope hget => (h peer).trans hget⟩

theorem agrees_refl (a : Clients) : a.agrees a = true := agrees_iff_get.mpr fun _ => rfl

/-- What drops none only adds. -/
theorem drops_eq_false_iff {now next : Clients} : now.drops next = false ↔
    ∀ peer scope, now.get peer = some scope → next.get peer = some scope := by
  rw [← all_iff, drops, List.any_eq_false, List.all_eq_true]
  simp

end Clients

/-- What reads of the list have settled. -/
structure Settling where
  /-- A read that dropped a client, waiting for the next to agree. -/
  dropping : Option Clients
  /-- The last read failed, and said so. -/
  failing : Bool
  deriving DecidableEq

namespace Settling

def new : Settling := ⟨none, false⟩

/-- A failure is warned of once until a read succeeds again. -/
def warns (settling : Settling) (read : Option Clients) : Bool := read.isNone && !settling.failing

/-- What the list allowing `now` is to become after `read`, if it changes. -/
def settle (settling : Settling) (now : Clients) (read : Option Clients) :
    Option Clients × Settling :=
  match read with
  | none => (none, { settling with failing := true })
  | some read =>
    if now.drops read ∧ ¬ settling.dropping.any (·.agrees read) then
      (none, ⟨some read, false⟩)
    else (if now.agrees read then none else some read, ⟨none, false⟩)

end Settling

/-- The list in force, and what reads have settled. -/
structure Watching where
  /-- Who may connect, as published. -/
  allowed : Clients
  settling : Settling
  deriving DecidableEq

namespace Watching

def init (clients : Clients) : Watching := ⟨clients, .new⟩

def read (w : Watching) (read : Option Clients) : Watching :=
  let (next, settling) := w.settling.settle w.allowed read
  ⟨next.getD w.allowed, settling⟩

def after (clients : Clients) (reads : List (Option Clients)) : Watching :=
  reads.foldl read (init clients)

def lastRead (reads : List (Option Clients)) : Option Clients := (reads.filterMap id).getLast?

/-- The last read that said something. -/
theorem lastRead_snoc (reads : List (Option Clients)) (r : Option Clients) :
    lastRead (reads ++ [r]) = r.or (lastRead reads) := by
  cases r <;> simp [lastRead]

variable {w : Watching} {clients c : Clients} {reads : List (Option Clients)}

/-- Whether the last read failed. -/
theorem failing_after (clients : Clients) (reads : List (Option Clients)) :
    (after clients reads).settling.failing = decide (reads.getLast? = some none) := by
  rcases List.eq_nil_or_concat reads with rfl | ⟨reads, r, rfl⟩
  · rfl
  · rw [List.concat_eq_append, after, List.foldl_append, List.getLast?_append]
    cases r with
    | none => rfl
    | some c =>
      simp only [List.foldl_cons, List.foldl_nil, read, Settling.settle]
      split <;> rfl

/-- A failure is warned of exactly where no failure is just before it. -/
theorem warns_after (clients : Clients) (reads : List (Option Clients)) (r : Option Clients) :
    (after clients reads).settling.warns r = true ↔ r = none ∧ reads.getLast? ≠ some none := by
  simp [Settling.warns, failing_after]

/-- A read that fails changes neither the list nor what waits. -/
theorem read_none (w : Watching) :
    (w.read none).allowed = w.allowed ∧ (w.read none).settling.dropping = w.settling.dropping :=
  ⟨rfl, rfl⟩

/-- A read waits for the next to agree if it drops a client and none that agrees waits;
else the list becomes what was read. -/
theorem read_some (w : Watching) (c : Clients) :
    w.allowed.drops c = true ∧ (w.read (some c)).allowed = w.allowed ∧
      (w.read (some c)).settling.dropping = some c ∧
      (∀ c', w.settling.dropping = some c' → c'.agrees c = false) ∨
    (w.allowed.drops c = true → ∃ c', w.settling.dropping = some c' ∧ c'.agrees c = true) ∧
      (w.read (some c)).settling.dropping = none ∧ (w.read (some c)).allowed.agrees c = true ∧
      ((w.read (some c)).allowed = c ∨ (w.read (some c)).allowed = w.allowed) := by
  by_cases hwaits : w.allowed.drops c ∧ ¬ w.settling.dropping.any (·.agrees c)
  · left
    have hread : w.read (some c) = ⟨w.allowed, ⟨some c, false⟩⟩ := by
      simp only [read, Settling.settle, if_pos hwaits, Option.getD_none]
    rw [hread]
    refine ⟨hwaits.1, rfl, rfl, fun c' hc' => ?_⟩
    rw [hc'] at hwaits
    simpa using hwaits.2
  · right
    have hconfirmed : w.allowed.drops c = true →
        ∃ c', w.settling.dropping = some c' ∧ c'.agrees c = true := by
      intro hdrops
      have hany := (not_and_not_right.mp hwaits) hdrops
      cases hdropping : w.settling.dropping with
      | none => simp [hdropping] at hany
      | some c' => exact ⟨c', rfl, by simpa [hdropping] using hany⟩
    have hread : w.read (some c) =
        ⟨(if w.allowed.agrees c then none else some c).getD w.allowed, ⟨none, false⟩⟩ := by
      simp only [read, Settling.settle, if_neg hwaits]
    rw [hread]
    refine ⟨hconfirmed, rfl, ?_⟩
    by_cases hsame : w.allowed.agrees c = true
    · rw [if_pos hsame]
      exact ⟨hsame, .inr rfl⟩
    · rw [if_neg hsame]
      exact ⟨c.agrees_refl, .inl rfl⟩

/-- What waits after reads is the last that succeeded; and what that read is in force, or
waits. -/
theorem after_settled (clients : Clients) (reads : List (Option Clients)) :
    (∀ c, (after clients reads).settling.dropping = some c → lastRead reads = some c) ∧
    ∀ c, lastRead reads = some c → (after clients reads).settling.dropping = some c ∨
      (after clients reads).settling.dropping = none ∧
        (after clients reads).allowed.agrees c = true := by
  induction reads using List.reverseRecOn with
  | nil => exact ⟨by rintro _ ⟨⟩, by rintro _ ⟨⟩⟩
  | append_singleton reads r ih =>
    have hafter : after clients (reads ++ [r]) = (after clients reads).read r := by
      simp [after]
    rw [hafter, lastRead_snoc]
    cases r with
    | none => exact ih
    | some c =>
      rcases read_some (after clients reads) c with ⟨-, -, hdropping, -⟩ | ⟨-, hnone, hagrees, -⟩
      · rw [hdropping]
        exact ⟨fun c' hc' => hc', fun c' hc' => .inl hc'⟩
      · rw [hnone]
        refine ⟨by rintro _ ⟨⟩, fun c' hc' => .inr ⟨rfl, ?_⟩⟩
        obtain rfl := Option.some.inj hc'
        exact hagrees

/-- **A momentary misread locks no one out, and a real removal is taken**, after any reads:
one that fails changes nothing; one that only adds is taken at once; a client is dropped
or its scope changed only by a read that agrees with the last before it that succeeded;
and two that agree, with none between them that succeeded, leave the list as they are. -/
theorem reads_settle (clients : Clients) (reads : List (Option Clients)) (r : Option Clients) :
    (r = none → ((after clients reads).read r).allowed = (after clients reads).allowed) ∧
    (∀ c, r = some c →
      (∀ peer scope, (after clients reads).allowed.get peer = some scope →
        c.get peer = some scope) →
      ∀ peer, ((after clients reads).read r).allowed.get peer = c.get peer) ∧
    (∀ peer scope, (after clients reads).allowed.get peer = some scope →
      ((after clients reads).read r).allowed.get peer ≠ some scope →
      ∃ c c', r = some c ∧ lastRead reads = some c' ∧ (∀ peer, c'.get peer = c.get peer) ∧
        ((after clients reads).read r).allowed = c) ∧
    (∀ c c', r = some c → lastRead reads = some c' → (∀ peer, c'.get peer = c.get peer) →
      ∀ peer, ((after clients reads).read r).allowed.get peer = c.get peer) := by
  obtain ⟨hwaited, hlast⟩ := after_settled clients reads
  refine ⟨?_, ?_, ?_, ?_⟩
  · rintro rfl
    exact (read_none _).1
  · rintro c rfl hadds
    have hdrops := Clients.drops_eq_false_iff.mpr hadds
    rcases read_some (after clients reads) c with ⟨htrue, -⟩ | ⟨-, -, hagrees, -⟩
    · rw [hdrops] at htrue
      cases htrue
    · exact Clients.agrees_iff_get.mp hagrees
  · intro peer scope hget hchanged
    cases r with
    | none => exact absurd hget hchanged
    | some c =>
      rcases read_some (after clients reads) c with ⟨-, hsame, -⟩ | ⟨hconfirmed, -, hagrees, htaken⟩
      · rw [hsame] at hchanged
        exact absurd hget hchanged
      · have hdrops : (after clients reads).allowed.drops c = true := by
          by_contra hdrops
          have hadds := Clients.drops_eq_false_iff.mp (Bool.eq_false_iff.mpr hdrops) peer scope hget
          exact hchanged ((Clients.agrees_iff_get.mp hagrees peer).trans hadds)
        obtain ⟨c', hc', hagrees'⟩ := hconfirmed hdrops
        refine ⟨c, c', rfl, hwaited c' hc', Clients.agrees_iff_get.mp hagrees',
          htaken.resolve_right ?_⟩
        intro hsame
        rw [hsame] at hchanged
        exact hchanged hget
  · rintro c c' rfl hc' hagree
    rcases read_some (after clients reads) c with ⟨hdrops, -, -, hnew⟩ | ⟨-, -, hagrees, -⟩
    · rcases hlast c' hc' with hwaits | ⟨-, hforce⟩
      · have hfalse := hnew c' hwaits
        rw [Clients.agrees_iff_get.mpr hagree] at hfalse
        cases hfalse
      · -- The list is as was read already, so the read drops none.
        have hkeeps : (after clients reads).allowed.drops c = false := by
          refine Clients.drops_eq_false_iff.mpr fun peer scope hget => ?_
          rw [← hagree peer, ← Clients.agrees_iff_get.mp hforce peer]
          exact hget
        rw [hkeeps] at hdrops
        cases hdrops
    · exact Clients.agrees_iff_get.mp hagrees

end Watching

end Koh.Server
