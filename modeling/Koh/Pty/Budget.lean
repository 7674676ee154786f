import Koh.Lib.Fair
import Koh.Lib.Log
import Mathlib.Algebra.BigOperators.Group.List.Basic
import Mathlib.Algebra.GroupWithZero.Nat
import Mathlib.Data.Prod.Lex
import Mathlib.Data.List.Nodup
import Mathlib.Data.List.Perm.Basic

/-!
# What a PTY's writer may hold

`Pty::write`, `reserve_input` and the writer's thread from `pty.rs`: each chunk of input is charged
before it is queued, and its charge is given back when it is dropped, written or not.

## Main definitions

- `Feed`, `Feed.step`: the calls of `Pty::write` and the writer's thread, one access of the shared
  count or the channel at a time
- `Feed.Steps`: what a step does, and when it is made
- `owing`: the charges that were made and not given back
- `Fits`: what is asked of each charge, return and refusal

## Main results

- `budget_kept`: the count is what is owed, each charge is given back once, and the PTY takes input
  again once its program reads
- `used_le`: the count is over the budget only for one charge alone

## Design notes

`Pty::write` takes `&self`, so any number of its calls may go on at once. `reserve_input` decides by
the value it loaded alone, so the load and the decision are one step. The system's `poll` and
`write` answer anything (`Polled`, `Wrote`). A `usize` is of 64 bits.
-/

namespace Koh.Pty.Budget

open Koh.Lib

def writeBudget : ℕ := 1024 * 1024

def usize : ℕ := 2 ^ 64

def fetchSub (used amount : ℕ) : ℕ :=
  if amount ≤ used then used - amount else used + usize - amount

/-- A `Vec` of bytes, which holds `isize::MAX` at most. -/
abbrev Vec := { bytes : List UInt8 // bytes.length < 2 ^ 63 }

def Vec.len (bytes : Vec) : ℕ := bytes.1.length

def cost (len : ℕ) : ℕ := max len 64

/-- What one look of `reserve_input` says of `used`: what is used with the chunk, if it fits. -/
def nextUsed (used len : ℕ) : Option ℕ :=
  let next := used + cost len
  if next < usize ∧ (used = 0 ∨ next ≤ writeBudget) then some next else none

/-- A chunk's charge, `id` being which of the charges it is. -/
structure Charge where
  id : ℕ
  amount : ℕ
  deriving DecidableEq

structure InputChunk where
  bytes : Vec
  charge : Charge
  deriving DecidableEq

/-- A call of `reserve_input` that saw room, before its exchange. -/
structure Attempt where
  bytes : Vec
  used : ℕ
  next : ℕ
  fits : nextUsed used bytes.len = some next

inductive Happening where
  | charged (charge : Charge)
  | returned (charge : Charge)
  /-- A write was refused, its bytes given back. -/
  | full (bytes : Vec)
  | closed (bytes : Vec)
  deriving DecidableEq

inductive Writer where
  /-- It waits to receive. -/
  | waiting
  /-- It writes a chunk, of which the rest is left. -/
  | writing (chunk : InputChunk) (rest : List UInt8)
  /-- It left its loop. -/
  | leaving
  /-- It dropped its end of the channel, and drops what is still there. -/
  | gone
  deriving DecidableEq

structure Feed where
  /-- `write_budget`. -/
  used : ℕ
  /-- How many charges there were. -/
  made : ℕ
  attempts : List Attempt
  /-- Chunks that are charged, and not yet sent. -/
  hands : List InputChunk
  /-- The channel. -/
  queue : List InputChunk
  writer : Writer
  /-- Whether the PTY is there, with the channel's sender. -/
  sender : Bool
  stopping : Bool
  story : List Happening

inductive Polled where
  /-- It fails, with `EINTR` or otherwise. -/
  | failed (interrupted : Bool)
  /-- `hup`: `ERR`, `HUP` or `NVAL`. -/
  | ready (out hup : Bool)
  deriving DecidableEq

inductive Wrote where
  | bytes (n : ℕ)
  /-- It fails, with `EAGAIN` or `EINTR` or otherwise. -/
  | failed (again : Bool)
  deriving DecidableEq

/-- What a turn of `write_while_running`'s loop comes to. -/
inductive Turn where
  | done (ok : Bool)
  | goesOn (rest : List UInt8)
  deriving DecidableEq

/-- One turn of `write_while_running`'s loop. -/
def writeTurn (stopping : Bool) (polled : Polled) (wrote : Wrote) (rest : List UInt8) : Turn :=
  if rest = [] then .done true
  else if stopping = true then .done false
  else
    match polled with
    | .failed interrupted => if interrupted = true then .goesOn rest else .done false
    | .ready out hup =>
      if hup = true then .done false
      -- The wait is over, and the terminal takes nothing.
      else if out = false then .goesOn rest
      else
        match wrote with
        | .bytes n => if n = 0 ∨ rest.length < n then .done false else .goesOn (rest.drop n)
        | .failed again => if again = true then .goesOn rest else .done false

inductive Move where
  /-- `Pty::write`, up to the decision on what is used. -/
  | write (bytes : Vec)
  /-- An attempt's weak exchange, which may fail for no reason. -/
  | exchange (k : ℕ) (fails : Bool)
  | send (id : ℕ)
  /-- The writer's thread. -/
  | recv
  | turn (polled : Polled) (wrote : Wrote)
  | disconnect
  | discard
  /-- The PTY is dropped: the sender, and then its pumps. -/
  | close
  | stop

namespace Feed

def started : Feed := ⟨0, 0, [], [], [], .waiting, true, false, []⟩

def giveBack (q : Feed) (charge : Charge) : Feed :=
  { q with
    used := fetchSub q.used charge.amount
    story := q.story ++ [.returned charge] }

/-- One look of `reserve_input` at what is used. -/
def reserve (q : Feed) (bytes : Vec) : Feed :=
  match h : nextUsed q.used bytes.len with
  | none => { q with story := q.story ++ [.full bytes] }
  | some next => { q with attempts := q.attempts ++ [⟨bytes, q.used, next, h⟩] }

def step (q : Feed) : Move → Option Feed
  | .write bytes =>
    if q.sender = false then none
    else if bytes.1 = [] then some q
    else some (q.reserve bytes)
  | .exchange k fails =>
    match q.attempts[k]? with
    | none => none
    | some attempt =>
      let rest := { q with attempts := q.attempts.eraseIdx k }
      if fails = true ∨ q.used ≠ attempt.used then some (rest.reserve attempt.bytes)
      else
        let charge := ⟨q.made, cost attempt.bytes.len⟩
        some { rest with
          used := attempt.next
          made := q.made + 1
          hands := q.hands ++ [⟨attempt.bytes, charge⟩]
          story := q.story ++ [.charged charge] }
  | .send id =>
    match q.hands.find? (·.charge.id = id) with
    | none => none
    | some chunk =>
      let rest := { q with hands := q.hands.erase chunk }
      if q.writer = .gone then
        let rest := rest.giveBack chunk.charge
        some { rest with story := rest.story ++ [.closed chunk.bytes] }
      else some { rest with queue := q.queue ++ [chunk] }
  | .recv =>
    match q.writer, q.queue with
    | .waiting, chunk :: queue =>
      some { q with queue := queue, writer := .writing chunk chunk.bytes.1 }
    | .waiting, [] => if q.sender = true then none else some { q with writer := .leaving }
    | _, _ => none
  | .turn polled wrote =>
    match q.writer with
    | .writing chunk rest =>
      match writeTurn q.stopping polled wrote rest with
      | .done ok =>
        some { q.giveBack chunk.charge with writer := if ok = true then .waiting else .leaving }
      | .goesOn rest => some { q with writer := .writing chunk rest }
    | _ => none
  | .disconnect => if q.writer = .leaving then some { q with writer := .gone } else none
  | .discard =>
    match q.writer, q.queue with
    | .gone, chunk :: queue => some { q.giveBack chunk.charge with queue := queue }
    | _, _ => none
  | .close =>
    if q.sender = true ∧ q.attempts.isEmpty = true ∧ q.hands = [] then
      some { q with sender := false }
    else none
  | .stop => if q.sender = false then some { q with stopping := true } else none

inductive Steps (q : Feed) : Move → Feed → Prop where
  | writeNothing {bytes : Vec} (hsender : q.sender = true) (hnil : bytes.1 = []) :
      Steps q (.write bytes) q
  | write {bytes : Vec} (hsender : q.sender = true) (hbytes : bytes.1 ≠ []) :
      Steps q (.write bytes) (q.reserve bytes)
  | retry {k : ℕ} {fails : Bool} {attempt : Attempt} (hattempt : q.attempts[k]? = some attempt) :
      Steps q (.exchange k fails)
        (Feed.reserve { q with attempts := q.attempts.eraseIdx k } attempt.bytes)
  | exchange {k : ℕ} {attempt : Attempt} (hattempt : q.attempts[k]? = some attempt)
      (hused : q.used = attempt.used) : Steps q (.exchange k false) { q with
        attempts := q.attempts.eraseIdx k
        used := attempt.next
        made := q.made + 1
        hands := q.hands ++ [⟨attempt.bytes, ⟨q.made, cost attempt.bytes.len⟩⟩]
        story := q.story ++ [.charged ⟨q.made, cost attempt.bytes.len⟩] }
  | sendClosed {chunk : InputChunk} (hmem : chunk ∈ q.hands)
      (hfirst : q.hands.find? (·.charge.id = chunk.charge.id) = some chunk)
      (hgone : q.writer = .gone) : Steps q (.send chunk.charge.id)
        { Feed.giveBack { q with hands := q.hands.erase chunk } chunk.charge with
          story := q.story ++ [.returned chunk.charge] ++ [.closed chunk.bytes] }
  | send {chunk : InputChunk} (hmem : chunk ∈ q.hands)
      (hfirst : q.hands.find? (·.charge.id = chunk.charge.id) = some chunk)
      (hlive : q.writer ≠ .gone) : Steps q (.send chunk.charge.id)
        { q with hands := q.hands.erase chunk, queue := q.queue ++ [chunk] }
  | recv {chunk : InputChunk} {queue : List InputChunk} (hwriter : q.writer = .waiting)
      (hqueue : q.queue = chunk :: queue) :
      Steps q .recv { q with queue := queue, writer := .writing chunk chunk.bytes.1 }
  | hangup (hwriter : q.writer = .waiting) (hqueue : q.queue = []) (hsender : q.sender = false) :
      Steps q .recv { q with writer := .leaving }
  | done {polled : Polled} {wrote : Wrote} {chunk : InputChunk} {rest : List UInt8} {ok : Bool}
      (hwriter : q.writer = .writing chunk rest)
      (hturn : writeTurn q.stopping polled wrote rest = .done ok) : Steps q (.turn polled wrote)
        { q.giveBack chunk.charge with writer := if ok = true then .waiting else .leaving }
  | goesOn {polled : Polled} {wrote : Wrote} {chunk : InputChunk} {rest rest' : List UInt8}
      (hwriter : q.writer = .writing chunk rest)
      (hturn : writeTurn q.stopping polled wrote rest = .goesOn rest') :
      Steps q (.turn polled wrote) { q with writer := .writing chunk rest' }
  | disconnect (hwriter : q.writer = .leaving) : Steps q .disconnect { q with writer := .gone }
  | discard {chunk : InputChunk} {queue : List InputChunk} (hwriter : q.writer = .gone)
      (hqueue : q.queue = chunk :: queue) :
      Steps q .discard { q.giveBack chunk.charge with queue := queue }
  | close (hsender : q.sender = true) (hattempts : q.attempts.isEmpty = true)
      (hhands : q.hands = []) : Steps q .close { q with sender := false }
  | stop (hsender : q.sender = false) : Steps q .stop { q with stopping := true }

/-- The inversion of `step`. -/
theorem steps_of_step {q q' : Feed} {m : Move} (hstep : q.step m = some q') : q.Steps m q' := by
  cases m with
  | write bytes =>
    simp only [step] at hstep
    split at hstep
    · cases hstep
    · next hsender =>
      rw [Bool.not_eq_false] at hsender
      split at hstep
      · next hnil => cases hstep; exact .writeNothing hsender hnil
      · next hbytes => cases hstep; exact .write hsender hbytes
  | exchange k fails =>
    simp only [step] at hstep
    split at hstep
    · cases hstep
    · next hattempt =>
      split at hstep
      · cases hstep
        exact .retry hattempt
      · next hsame =>
        obtain ⟨hfails, hused⟩ := not_or.mp hsame
        rw [Bool.not_eq_true] at hfails
        subst hfails
        cases hstep
        exact .exchange hattempt (not_not.mp hused)
  | send id =>
    simp only [step] at hstep
    split at hstep
    · cases hstep
    · next chunk hfind =>
      have hmem := List.mem_of_find?_eq_some hfind
      obtain rfl : chunk.charge.id = id := by simpa using List.find?_some hfind
      split at hstep
      · next hgone => cases hstep; exact .sendClosed hmem hfind hgone
      · next hlive => cases hstep; exact .send hmem hfind hlive
  | recv =>
    simp only [step] at hstep
    split at hstep
    · next hwriter hqueue => cases hstep; exact .recv hwriter hqueue
    · next hwriter hqueue =>
      split at hstep
      · cases hstep
      · next hsender => cases hstep; exact .hangup hwriter hqueue (Bool.not_eq_true _ ▸ hsender)
    · cases hstep
  | turn polled wrote =>
    simp only [step] at hstep
    split at hstep
    · next hwriter =>
      split at hstep
      · next hturn => cases hstep; exact .done hwriter hturn
      · next hturn => cases hstep; exact .goesOn hwriter hturn
    · cases hstep
  | disconnect =>
    simp only [step] at hstep
    split at hstep
    · next hwriter => cases hstep; exact .disconnect hwriter
    · cases hstep
  | discard =>
    simp only [step] at hstep
    split at hstep
    · next hwriter hqueue => cases hstep; exact .discard hwriter hqueue
    · cases hstep
  | close =>
    simp only [step] at hstep
    split at hstep
    · next hclose => cases hstep; exact .close hclose.1 hclose.2.1 hclose.2.2
    · cases hstep
  | stop =>
    simp only [step] at hstep
    split at hstep
    · next hsender => cases hstep; exact .stop hsender
    · cases hstep

end Feed

/-! ### What is asked of what happened -/

def Happening.charged? : Happening → Option Charge
  | .charged charge => some charge
  | _ => none

def Happening.returned? : Happening → Option Charge
  | .returned charge => some charge
  | _ => none

def charges (story : List Happening) : List Charge := story.filterMap Happening.charged?

def returns (story : List Happening) : List Charge := story.filterMap Happening.returned?

def owing (story : List Happening) : List Charge :=
  (charges story).filter fun charge => charge ∉ returns story

def owed (story : List Happening) : ℕ := ((owing story).map Charge.amount).sum

/-- What is asked of one happening, after those `before`. -/
def Fits (before : List Happening) : Happening → List Happening → Prop
  -- It is another charge, and fits, or nothing else is owed.
  | .charged charge, _ => (∀ charge' ∈ charges before, charge'.id ≠ charge.id) ∧
      (owed before = 0 ∨ owed before + charge.amount ≤ writeBudget)
  -- It was made, and is given back for the first time.
  | .returned charge, _ => charge ∈ owing before
  | .full bytes, _ => 0 < owed before ∧ writeBudget < owed before + cost bytes.len
  | .closed _, _ => True

variable {q q' : Feed} {m : Move} {story : List Happening}

/-! ### The chunks that are charged -/

/-- What the writer's thread is to drop, the first first. -/
def Feed.held (q : Feed) : List InputChunk :=
  match q.writer with
  | .writing chunk _ => chunk :: q.queue
  | _ => q.queue

theorem held_queue (q : Feed) (chunk : InputChunk) (hands : List InputChunk) :
    Feed.held { q with hands := hands, queue := q.queue ++ [chunk] } = q.held ++ [chunk] := by
  simp only [Feed.held]
  split <;> rfl

/-- The charges of the chunks that are in hand, queued or being written. -/
def Feed.out (q : Feed) : List Charge :=
  (q.hands ++ q.held).map InputChunk.charge

def total (charges : List Charge) : ℕ := (charges.map Charge.amount).sum

@[simp] theorem total_append (charges charges' : List Charge) :
    total (charges ++ charges') = total charges + total charges' := by
  simp [total]

@[simp] theorem total_cons (charge : Charge) (charges : List Charge) :
    total (charge :: charges) = charge.amount + total charges := by
  simp [total]

/-- The order of charges makes no difference. -/
theorem total_perm {charges charges' : List Charge} (h : charges.Perm charges') :
    total charges = total charges' :=
  (h.map Charge.amount).sum_eq

/-- What one happening more charges. -/
@[simp] theorem charges_snoc (story : List Happening) (x : Happening) :
    charges (story ++ [x]) = charges story ++ x.charged?.toList := by
  rw [charges, List.filterMap_append, ← charges]
  cases h : x.charged? <;> simp [h]

/-- What it gives back. -/
@[simp] theorem returns_snoc (story : List Happening) (x : Happening) :
    returns (story ++ [x]) = returns story ++ x.returned?.toList := by
  rw [returns, List.filterMap_append, ← returns]
  cases h : x.returned? <;> simp [h]

/-- Induction on what happened. -/
@[elab_as_elim]
theorem fits_induct {motive : List Happening → Prop} (h : Law Fits story) (nil : motive [])
    (snoc : ∀ story x, Law Fits story → Fits story x [] → motive story → motive (story ++ [x])) :
    motive story :=
  h.induct (fun _ y _ _ hy => by cases y <;> exact hy) nil snoc

/-- What is owed was charged and not given back. -/
theorem mem_owing {charge : Charge} :
    charge ∈ owing story ↔ charge ∈ charges story ∧ charge ∉ returns story := by
  simp [owing]

/-- What is given back was charged. -/
theorem returns_subset (h : Law Fits story) : returns story ⊆ charges story := by
  refine fits_induct h (List.nil_subset _) ?_
  intro story x _ hfits ih
  rw [returns_snoc, charges_snoc]
  refine List.append_subset.mpr ⟨List.subset_append_of_subset_left _ ih, ?_⟩
  cases x with
  | returned charge =>
    intro charge' hmem
    cases List.mem_singleton.mp hmem
    exact List.mem_append_left _ (mem_owing.mp hfits).1
  | _ => exact List.nil_subset _

/-- No charge is made twice. -/
theorem nodup_charges (h : Law Fits story) : (charges story).Nodup := by
  refine fits_induct h List.nodup_nil ?_
  intro story x _ hfits ih
  rw [charges_snoc]
  cases x with
  | charged charge =>
    refine List.nodup_append.mpr ⟨ih, List.nodup_singleton _, ?_⟩
    rintro charge' hmem _ hlast rfl
    cases List.mem_singleton.mp hlast
    exact hfits.1 _ hmem rfl
  | _ => simpa [Happening.charged?] using ih

structure Kept (q : Feed) : Prop where
  /-- What was charged is out, or was given back. -/
  kept : (charges q.story).Perm (q.out ++ returns q.story)
  ids : ((charges q.story).map Charge.id).Nodup
  fresh : ∀ charge ∈ charges q.story, charge.id < q.made
  used : q.used = total q.out
  fits : q.used < usize
  law : Law Fits q.story

namespace Kept

/-- What is owed is what is out. -/
theorem owing_perm (h : Kept q) : (owing q.story).Perm q.out := by
  have hnodup := h.kept.nodup_iff.mp (nodup_charges h.law)
  obtain ⟨-, -, hdisjoint⟩ := List.nodup_append.mp hnodup
  have hout : q.out.filter (fun charge => charge ∉ returns q.story) = q.out := by
    rw [List.filter_eq_self]
    intro charge hmem
    exact decide_eq_true fun hback => hdisjoint charge hmem charge hback rfl
  have hback : (returns q.story).filter (fun charge => charge ∉ returns q.story) = [] := by
    rw [List.filter_eq_nil_iff]
    intro charge hmem
    simpa using hmem
  have hperm := h.kept.filter fun charge => decide (charge ∉ returns q.story)
  rwa [List.filter_append, hout, hback, List.append_nil] at hperm

/-- What is owed is the count. -/
theorem owed_eq (h : Kept q) : owed q.story = q.used := by
  rw [h.used]
  exact total_perm h.owing_perm

/-- Nothing is owed at first. -/
theorem started : Kept .started where
  kept := .refl _
  ids := List.nodup_nil
  fresh _ h := by cases h
  used := rfl
  fits := by decide
  law := .nil

/-- Chunks go from place to place. -/
theorem move (h : Kept q) (hout : q'.out.Perm q.out) (hused : q'.used = q.used)
    (hmade : q'.made = q.made) (hstory : q'.story = q.story) : Kept q' where
  kept := by
    rw [hstory]
    exact h.kept.trans (hout.symm.append_right _)
  ids := hstory ▸ h.ids
  fresh := by
    rw [hstory, hmade]
    exact h.fresh
  used := by rw [hused, h.used, total_perm hout]
  fits := hused ▸ h.fits
  law := hstory ▸ h.law

theorem law_snoc (h : Kept q) {x : Happening} (hfits : Fits q.story x []) :
    Law Fits (q.story ++ [x]) := by
  refine h.law.snoc hfits fun before y after _ hy => ?_
  cases y <;> exact hy

/-- What is no charge happens. -/
theorem note (h : Kept q) {x : Happening} (hcharged : x.charged? = none)
    (hreturned : x.returned? = none) (hfits : Fits q.story x []) :
    Kept { q with story := q.story ++ [x] } where
  kept := by
    simp only [charges_snoc, returns_snoc, hcharged, hreturned, Option.toList_none,
      List.append_nil]
    exact h.kept
  ids := by simpa [hcharged] using h.ids
  fresh := by simpa [hcharged] using h.fresh
  used := h.used
  fits := h.fits
  law := h.law_snoc hfits

/-- A chunk is dropped. -/
theorem giveBack (h : Kept q) {charge : Charge} (hout : q.out.Perm (charge :: q'.out))
    (hused : q'.used = fetchSub q.used charge.amount) (hmade : q'.made = q.made)
    (hstory : q'.story = q.story ++ [.returned charge]) : Kept q' := by
  have htotal : q.used = charge.amount + total q'.out := by
    rw [h.used, total_perm hout, total_cons]
  have hfits := h.fits
  have hless : q'.used = total q'.out := by
    rw [hused, fetchSub, if_pos (by omega)]
    omega
  exact {
    kept := by
      rw [hstory]
      simp only [charges_snoc, returns_snoc, Happening.charged?, Happening.returned?,
        Option.toList_none, Option.toList_some, List.append_nil]
      refine h.kept.trans ((hout.append_right _).trans ?_)
      rw [List.cons_append, ← List.append_assoc]
      exact (List.perm_append_singleton _ _).symm
    ids := by
      rw [hstory]
      simpa [Happening.charged?] using h.ids
    fresh := by
      rw [hstory, hmade]
      simpa [Happening.charged?] using h.fresh
    used := hless
    fits := by omega
    law := by
      rw [hstory]
      refine h.law_snoc (h.owing_perm.mem_iff.mpr ?_)
      rw [hout.mem_iff]
      exact List.mem_cons_self }

/-- A chunk is charged. -/
theorem charge (h : Kept q) {len next : ℕ} (hnext : nextUsed q.used len = some next)
    (hout : q'.out.Perm (⟨q.made, cost len⟩ :: q.out)) (hused : q'.used = next)
    (hmade : q'.made = q.made + 1)
    (hstory : q'.story = q.story ++ [.charged ⟨q.made, cost len⟩]) : Kept q' := by
  obtain ⟨rfl, hfits, hroom⟩ : q.used + cost len = next ∧ q.used + cost len < usize ∧
      (q.used = 0 ∨ q.used + cost len ≤ writeBudget) := by
    simp only [nextUsed] at hnext
    split at hnext
    · next hok =>
      cases hnext
      exact ⟨rfl, hok⟩
    · cases hnext
  exact {
    kept := by
      rw [hstory]
      simp only [charges_snoc, returns_snoc, Happening.charged?, Happening.returned?,
        Option.toList_none, Option.toList_some, List.append_nil]
      refine (List.perm_append_singleton _ _).trans ?_
      exact ((h.kept.cons _).trans (hout.symm.append_right _))
    ids := by
      rw [hstory]
      simp only [charges_snoc, Happening.charged?, Option.toList_some, List.map_append,
        List.map_cons, List.map_nil]
      rw [List.nodup_append]
      refine ⟨h.ids, List.nodup_singleton _, ?_⟩
      rintro id hid _ hmem rfl
      obtain ⟨charge, hcharge, rfl⟩ := List.mem_map.mp hid
      exact absurd (List.mem_singleton.mp hmem) (h.fresh charge hcharge).ne
    fresh := by
      rw [hstory, hmade]
      intro charge hmem
      simp only [charges_snoc, Happening.charged?, Option.toList_some, List.mem_append,
        List.mem_singleton] at hmem
      rcases hmem with hmem | rfl
      · exact Nat.lt_succ_of_lt (h.fresh charge hmem)
      · exact Nat.lt_succ_self _
    used := by
      rw [hused, total_perm hout, total_cons, ← h.used]
      exact Nat.add_comm _ _
    fits := hused ▸ hfits
    law := by
      rw [hstory]
      refine h.law_snoc ⟨fun charge hmem => (h.fresh charge hmem).ne, ?_⟩
      rw [h.owed_eq]
      exact hroom }

/-- Only what does not fit beside what others are charged is refused. -/
theorem full_fits (h : Kept q) {bytes : Vec} (hnext : nextUsed q.used bytes.len = none) :
    Fits q.story (.full bytes) [] := by
  have hlen : cost bytes.len ≤ 2 ^ 63 := Nat.max_le.mpr ⟨bytes.2.le, by decide⟩
  have hcost : 64 ≤ cost bytes.len := Nat.le_max_right _ _
  change 0 < owed q.story ∧ writeBudget < owed q.story + cost bytes.len
  rw [h.owed_eq]
  simp only [nextUsed] at hnext
  split at hnext
  · cases hnext
  · next hfull =>
    by_cases hfits : q.used + cost bytes.len < usize
    · obtain ⟨hsome, hover⟩ := not_or.mp fun hroom => hfull ⟨hfits, hroom⟩
      omega
    · simp only [usize, writeBudget] at hfits ⊢
      omega

/-- A look at what is used keeps the count. -/
theorem reserve (h : Kept q) (bytes : Vec) : Kept (q.reserve bytes) := by
  rw [Feed.reserve]
  split
  · next hnext => exact h.note rfl rfl (h.full_fits hnext)
  · exact h.move (.refl _) rfl rfl rfl

/-- A chunk in hand is among what is out. -/
theorem out_erase {chunk : InputChunk} (hmem : chunk ∈ q.hands) :
    q.out.Perm (chunk.charge :: (q.hands.erase chunk ++ q.held).map InputChunk.charge) := by
  rw [Feed.out, ← List.map_cons, ← List.cons_append]
  exact ((List.perm_cons_erase hmem).append_right _).map _

/-- An exchange succeeds. -/
theorem exchanged (h : Kept q) {attempt : Attempt} (hused : q.used = attempt.used)
    (attempts : List Attempt) :
    Kept { q with
      attempts := attempts, used := attempt.next, made := q.made + 1
      hands := q.hands ++ [⟨attempt.bytes, ⟨q.made, cost attempt.bytes.len⟩⟩]
      story := q.story ++ [.charged ⟨q.made, cost attempt.bytes.len⟩] } := by
  have hnext : nextUsed q.used attempt.bytes.len = some attempt.next := by
    rw [hused]
    exact attempt.fits
  refine h.charge hnext ?_ rfl rfl rfl
  simp only [Feed.out, Feed.held, List.map_append, List.map_cons, List.map_nil, List.append_assoc]
  exact List.perm_middle

/-- What every step keeps. -/
theorem step (h : Kept q) (hstep : q.step m = some q') : Kept q' := by
  cases Feed.steps_of_step hstep with
  | writeNothing => exact h
  | write => exact h.reserve _
  | @retry k _ attempt =>
    have hrest : Kept { q with attempts := q.attempts.eraseIdx k } := h.move (.refl _) rfl rfl rfl
    exact hrest.reserve attempt.bytes
  | exchange _ hused => exact h.exchanged hused _
  | @sendClosed chunk hmem =>
    have hback : Kept (Feed.giveBack { q with hands := q.hands.erase chunk } chunk.charge) :=
      h.giveBack (out_erase hmem) rfl rfl rfl
    exact hback.note rfl rfl trivial
  | send hmem =>
    refine h.move ?_ rfl rfl rfl
    refine .trans ?_ (out_erase hmem).symm
    rw [Feed.out, held_queue, ← List.append_assoc, List.map_append]
    exact List.perm_append_singleton _ _
  | recv hwriter hqueue =>
    refine h.move (.of_eq ?_) rfl rfl rfl
    simp only [Feed.out, Feed.held, hwriter, hqueue]
  | hangup hwriter =>
    refine h.move (.of_eq ?_) rfl rfl rfl
    simp only [Feed.out, Feed.held, hwriter]
  | @done _ _ chunk _ ok hwriter =>
    refine h.giveBack ?_ rfl rfl rfl
    have hheld : Feed.held { q.giveBack chunk.charge with
        writer := if ok = true then .waiting else .leaving } = q.queue := by
      cases ok <;> rfl
    rw [Feed.out, Feed.out, hheld]
    simp only [Feed.held, hwriter, List.map_append, List.map_cons]
    exact List.perm_middle
  | goesOn hwriter =>
    refine h.move (.of_eq ?_) rfl rfl rfl
    simp only [Feed.out, Feed.held, hwriter]
  | disconnect hwriter =>
    refine h.move (.of_eq ?_) rfl rfl rfl
    simp only [Feed.out, Feed.held, hwriter]
  | discard hwriter hqueue =>
    refine h.giveBack ?_ rfl rfl rfl
    simp only [Feed.out, Feed.held, Feed.giveBack, hwriter, hqueue, List.map_append, List.map_cons]
    exact List.perm_middle
  | close => exact h.move (.refl _) rfl rfl rfl
  | stop => exact h.move (.refl _) rfl rfl rfl

end Kept

/-! ### Every charge is given back -/

/-- Whether the writer gets on with this: the program reads, or there is no writing to it. -/
def answered : Polled → Wrote → Bool
  | .failed interrupted, _ => !interrupted
  | .ready out hup, .bytes _ => hup || out
  | .ready out hup, .failed again => hup || (out && !again)

def Move.getsOn : Move → Bool
  | .recv | .disconnect | .discard => true
  | .turn polled wrote => answered polled wrote
  | _ => false

/-- What the writer has to do before its thread is done with the first chunk. -/
def Feed.work (q : Feed) : ℕ :=
  match q.writer, q.queue with
  | .waiting, chunk :: _ => chunk.bytes.len + 1
  | .writing _ rest, _ => rest.length
  | .leaving, _ => 1
  | _, _ => 0

/-- How far the writer is from being done with a charge's chunk. -/
def Feed.left (q : Feed) (charge : Charge) : ℕ ×ₗ ℕ :=
  toLex ((q.held.map InputChunk.charge).idxOf charge, q.work)

variable {charge : Charge}

/-- A turn that goes on leaves no more, and less where the program answers. -/
theorem writeTurn_goesOn {stopping : Bool} {polled : Polled} {wrote : Wrote}
    {rest rest' : List UInt8} (h : writeTurn stopping polled wrote rest = .goesOn rest') :
    rest'.length ≤ rest.length ∧ (answered polled wrote = true → rest'.length < rest.length) := by
  simp only [writeTurn] at h
  split at h
  · cases h
  · split at h
    · cases h
    · split at h
      · next interrupted =>
        split at h
        · next hagain =>
          cases h
          exact ⟨Nat.le_refl _, fun hanswered => by simp [answered, hagain] at hanswered⟩
        · cases h
      · next out hup =>
        split at h
        · cases h
        · next hhup =>
          split at h
          · next hout =>
            cases h
            refine ⟨Nat.le_refl _, fun hanswered => ?_⟩
            cases wrote <;> simp [answered, hout, hhup] at hanswered
          · split at h
            · next n =>
              split at h
              · cases h
              · next hsome =>
                cases h
                rw [List.length_drop]
                exact ⟨by omega, fun _ => by omega⟩
            · next again =>
              split at h
              · next hagain =>
                cases h
                exact ⟨Nat.le_refl _, fun hanswered => by
                  simp [answered, hagain, hhup] at hanswered⟩
              · cases h

/-- Others' chunks after it leave no more before it. -/
theorem left_le (hmem : charge ∈ q.held.map InputChunk.charge) {more : List InputChunk}
    (hheld : q'.held = q.held ++ more) (hwork : q'.work ≤ q.work) :
    q'.left charge ≤ q.left charge := by
  have hsame : (q'.held.map InputChunk.charge).idxOf charge =
      (q.held.map InputChunk.charge).idxOf charge := by
    rw [hheld, List.map_append, List.idxOf_append_of_mem hmem]
  exact Prod.Lex.toLex_le_toLex.mpr (.inr ⟨hsame, hwork⟩)

/-- The writer works. -/
theorem left_lt_of_work (hheld : q'.held = q.held) (hwork : q'.work < q.work) :
    q'.left charge < q.left charge :=
  Prod.Lex.toLex_lt_toLex.mpr (.inr ⟨by rw [hheld], hwork⟩)

/-- The first chunk is dropped, another than the charge's. -/
theorem left_lt_of_front {chunk : InputChunk} (hheld : q.held = chunk :: q'.held)
    (hne : chunk.charge ≠ charge) : q'.left charge < q.left charge := by
  refine Prod.Lex.toLex_lt_toLex.mpr (.inl ?_)
  change (q'.held.map InputChunk.charge).idxOf charge <
    (q.held.map InputChunk.charge).idxOf charge
  rw [hheld, List.map_cons, List.idxOf_cons_ne _ hne]
  exact Nat.lt_succ_self _

/-- What a step does for a chunk that the writer's thread is to drop. -/
def Served (charge : Charge) (m : Move) (q q' : Feed) : Prop :=
  .returned charge ∈ q'.story ∨ (charge ∈ q'.held.map InputChunk.charge ∧
    q'.left charge ≤ q.left charge ∧ (m.getsOn = true → q'.left charge < q.left charge))

/-- The step is not the writer's. -/
theorem served_of_others (hmem : charge ∈ q.held.map InputChunk.charge) (hm : m.getsOn = false)
    {more : List InputChunk} (hheld : q'.held = q.held ++ more) (hwork : q'.work ≤ q.work) :
    Served charge m q q' := by
  refine .inr ⟨?_, left_le hmem hheld hwork, fun htrue => ?_⟩
  · rw [hheld, List.map_append]
    exact List.mem_append_left _ hmem
  · rw [hm] at htrue
    cases htrue

/-- The writer gets on with what is before it. -/
theorem served_of_work (hmem : charge ∈ q.held.map InputChunk.charge) (hheld : q'.held = q.held)
    (hwork : q'.work < q.work) : Served charge m q q' := by
  refine .inr ⟨?_, (left_lt_of_work hheld hwork).le, fun _ => left_lt_of_work hheld hwork⟩
  rw [hheld]
  exact hmem

/-- The first chunk is given back. -/
theorem served_of_front (hmem : charge ∈ q.held.map InputChunk.charge) {chunk : InputChunk}
    (hheld : q.held = chunk :: q'.held) (hstory : .returned chunk.charge ∈ q'.story) :
    Served charge m q q' := by
  by_cases hne : chunk.charge = charge
  · rw [hne] at hstory
    exact .inl hstory
  · refine .inr ⟨?_, (left_lt_of_front hheld hne).le, fun _ => left_lt_of_front hheld hne⟩
    rw [hheld, List.map_cons, List.mem_cons] at hmem
    exact hmem.resolve_left (Ne.symm hne)

/-- A look holds nothing more. -/
theorem held_reserve (q : Feed) (bytes : Vec) : (q.reserve bytes).held = q.held := by
  rw [Feed.reserve]
  split <;> rfl

/-- Nor does it make work. -/
theorem work_reserve (q : Feed) (bytes : Vec) : (q.reserve bytes).work = q.work := by
  rw [Feed.reserve]
  split <;> rfl

/-- A chunk more on the channel is no work before that of the first. -/
theorem work_queue (hmem : charge ∈ q.held.map InputChunk.charge) (chunk : InputChunk)
    (hands : List InputChunk) :
    Feed.work { q with hands := hands, queue := q.queue ++ [chunk] } = q.work := by
  simp only [Feed.work]
  cases hwriter : q.writer with
  | waiting =>
    cases hqueue : q.queue with
    | nil =>
      simp only [Feed.held, hwriter, hqueue] at hmem
      cases hmem
    | cons first queue => rfl
  | writing chunk rest => rfl
  | leaving => rfl
  | gone => rfl

/-- A chunk that is held stays so until its charge is given back, and what gets the writer on brings
that nearer. -/
theorem served_of_step (hmem : charge ∈ q.held.map InputChunk.charge)
    (hstep : q.step m = some q') : Served charge m q q' := by
  cases Feed.steps_of_step hstep with
  | writeNothing => exact served_of_others hmem rfl (List.append_nil _).symm (Nat.le_refl _)
  | @write bytes =>
    have hheld := (held_reserve q bytes).trans (List.append_nil _).symm
    exact served_of_others hmem rfl hheld (work_reserve q bytes).le
  | @retry k _ attempt =>
    have hheld : (Feed.reserve { q with attempts := q.attempts.eraseIdx k }
        attempt.bytes).held = q.held ++ [] := by
      rw [held_reserve, List.append_nil]
      rfl
    exact served_of_others hmem rfl hheld (work_reserve _ attempt.bytes).le
  | exchange => exact served_of_others hmem rfl (List.append_nil _).symm (Nat.le_refl _)
  | sendClosed => exact served_of_others hmem rfl (List.append_nil _).symm (Nat.le_refl _)
  | @send chunk =>
    exact served_of_others hmem rfl (held_queue q chunk _) (work_queue hmem chunk _).le
  | recv hwriter hqueue =>
    refine served_of_work hmem ?_ ?_
    · simp only [Feed.held, hwriter, hqueue]
    · simp only [Feed.work, hwriter, hqueue]
      exact Nat.lt_succ_self _
  | hangup hwriter hqueue =>
    simp only [Feed.held, hwriter, hqueue] at hmem
    cases hmem
  | @done _ _ chunk _ ok hwriter =>
    refine @served_of_front _ _ _ _ hmem chunk ?_ ?_
    · simp only [Feed.held, hwriter]
      cases ok <;> rfl
    · exact List.mem_append_right _ List.mem_cons_self
  | @goesOn _ _ chunk rest rest' hwriter hturn =>
    obtain ⟨hle, hlt⟩ := writeTurn_goesOn hturn
    have hheld : Feed.held { q with writer := .writing chunk rest' } = q.held := by
      simp only [Feed.held, hwriter]
    have hwork : q.work = rest.length := by simp only [Feed.work, hwriter]
    have hheld' := hheld.trans (List.append_nil _).symm
    rw [← hwork] at hle hlt
    exact .inr ⟨hheld ▸ hmem, left_le hmem hheld' hle,
      fun hanswered => left_lt_of_work hheld (hlt hanswered)⟩
  | disconnect hwriter =>
    refine served_of_work hmem ?_ ?_
    · simp only [Feed.held, hwriter]
    · simp only [Feed.work, hwriter]
      exact Nat.zero_lt_one
  | @discard chunk _ hwriter hqueue =>
    refine @served_of_front _ _ _ _ hmem chunk ?_ ?_
    · simp only [Feed.held, Feed.giveBack, hwriter, hqueue]
    · exact List.mem_append_right _ List.mem_cons_self
  | close => exact served_of_others hmem rfl (List.append_nil _).symm (Nat.le_refl _)
  | stop => exact served_of_others hmem rfl (List.append_nil _).symm (Nat.le_refl _)

/-- With a chunk to drop, the writer's thread can get on. -/
theorem writer_can (hmem : charge ∈ q.held.map InputChunk.charge) :
    ∃ m : Move, m.getsOn = true ∧ q.step m ≠ none := by
  cases hwriter : q.writer with
  | waiting =>
    cases hqueue : q.queue with
    | nil =>
      simp only [Feed.held, hwriter, hqueue] at hmem
      cases hmem
    | cons chunk queue => exact ⟨.recv, rfl, by simp [Feed.step, hwriter, hqueue]⟩
  | writing chunk rest =>
    refine ⟨.turn (.ready true false) (.bytes 1), rfl, ?_⟩
    simp only [Feed.step, hwriter]
    split <;> simp
  | leaving => exact ⟨.disconnect, rfl, by simp [Feed.step, hwriter]⟩
  | gone =>
    cases hqueue : q.queue with
    | nil =>
      simp only [Feed.held, hwriter, hqueue] at hmem
      cases hmem
    | cons chunk queue => exact ⟨.discard, rfl, by simp [Feed.step, hwriter, hqueue]⟩

/-- One charge has one number. -/
theorem Kept.charge_eq (h : Kept q) {charge' : Charge} (hmem : charge ∈ q.out)
    (hmem' : charge' ∈ q.out) (hid : charge.id = charge'.id) : charge = charge' :=
  List.inj_on_of_nodup_map h.ids (h.kept.mem_iff.mpr (List.mem_append_left _ hmem))
    (h.kept.mem_iff.mpr (List.mem_append_left _ hmem')) hid

theorem mem_out_of_hands {chunk : InputChunk} (hmem : chunk ∈ q.hands) : chunk.charge ∈ q.out :=
  List.mem_map_of_mem (List.mem_append_left _ hmem)

/-- The story goes on, and a chunk in hand stays there until it is sent. -/
structure Onward (m : Move) (q q' : Feed) : Prop where
  story : q.story <+: q'.story
  hands : ∀ chunk ∈ q.hands, m ≠ .send chunk.charge.id → chunk ∈ q'.hands

/-- Nothing is taken from any hand. -/
theorem onward_of_hands (hstory : q.story <+: q'.story) (hhands : q.hands ⊆ q'.hands) :
    Onward m q q' :=
  ⟨hstory, fun _ hmem _ => hhands hmem⟩

/-- A look takes nothing from any hand. -/
theorem onward_reserve (q : Feed) (bytes : Vec) : Onward m q (q.reserve bytes) := by
  rw [Feed.reserve]
  split
  · exact onward_of_hands (List.prefix_append _ _) (List.Subset.refl _)
  · exact onward_of_hands (List.prefix_refl _) (List.Subset.refl _)

/-- The story only grows, and only its `send` takes a chunk from its hand. -/
theorem onward_of_step (hstep : q.step m = some q') : Onward m q q' := by
  have hsent : ∀ chunk ∈ q.hands, ∀ mine ∈ q.hands,
      Move.send chunk.charge.id ≠ .send mine.charge.id → mine ∈ q.hands.erase chunk := by
    intro chunk _ mine hmem hother
    refine (List.mem_erase_of_ne ?_).mpr hmem
    rintro rfl
    exact hother rfl
  cases Feed.steps_of_step hstep with
  | write => exact onward_reserve q _
  | @retry k fails =>
    obtain ⟨hstory, hhands⟩ := @onward_reserve (.exchange k fails)
      { q with attempts := q.attempts.eraseIdx k } _
    exact ⟨hstory, hhands⟩
  | exchange => exact onward_of_hands (List.prefix_append _ _) (List.subset_append_left _ _)
  | sendClosed hmem =>
    exact ⟨(List.prefix_append _ _).trans (List.prefix_append _ _), hsent _ hmem⟩
  | send hmem => exact ⟨List.prefix_refl _, hsent _ hmem⟩
  | done => exact onward_of_hands (List.prefix_append _ _) (List.Subset.refl _)
  | discard => exact onward_of_hands (List.prefix_append _ _) (List.Subset.refl _)
  | _ => exact onward_of_hands (List.prefix_refl _) (List.Subset.refl _)

/-- What is sent is on the channel, or given back at once. -/
theorem sent_of_step (h : Kept q) {chunk : InputChunk} (hmem : chunk ∈ q.hands)
    (hstep : q.step (.send chunk.charge.id) = some q') :
    .returned chunk.charge ∈ q'.story ∨ chunk.charge ∈ q'.held.map InputChunk.charge := by
  have hsame : ∀ found ∈ q.hands, found.charge.id = chunk.charge.id →
      found.charge = chunk.charge := fun found hfound =>
    h.charge_eq (mem_out_of_hands hfound) (mem_out_of_hands hmem)
  generalize hm : Move.send chunk.charge.id = m at hstep
  cases Feed.steps_of_step hstep with
  | @sendClosed found hfound =>
    refine .inl (List.mem_append_left _ (List.mem_append_right _ ?_))
    rw [hsame found hfound (Move.send.inj hm).symm]
    exact List.mem_cons_self
  | @send found hfound =>
    refine .inr ?_
    rw [held_queue, List.map_append, ← hsame found hfound (Move.send.inj hm).symm]
    exact List.mem_append_right _ List.mem_cons_self
  | _ => cases hm

/-- A run in which whoever has charged a chunk sends it, and the writer's thread gets on, so the
program reads. -/
structure Goes (run : ℕ → Feed) (moves : ℕ → Move) : Prop where
  started : run 0 = .started
  forever : Forever Feed.step run moves
  send : ∀ id, Fair Feed.step (· = .send id) run moves
  writes : Fair Feed.step (fun m => m.getsOn = true) run moves

/-- Every run. -/
theorem kept_of_reaches (h : Reachable Feed.step .started q) : Kept q :=
  h.invariant Kept .started fun _ _ _ hkept _ hstep => hkept.step hstep

theorem mem_charges : charge ∈ charges story ↔ .charged charge ∈ story := by
  rw [charges, List.mem_filterMap]
  constructor
  · rintro ⟨x, hmem, hx⟩
    cases x with
    | charged charge' =>
      cases hx
      exact hmem
    | _ => cases hx
  · exact fun hmem => ⟨_, hmem, rfl⟩

theorem mem_returns : charge ∈ returns story ↔ .returned charge ∈ story := by
  rw [returns, List.mem_filterMap]
  constructor
  · rintro ⟨x, hmem, hx⟩
    cases x with
    | returned charge' =>
      cases hx
      exact hmem
    | _ => cases hx
  · exact fun hmem => ⟨_, hmem, rfl⟩

namespace Goes

variable {run : ℕ → Feed} {moves : ℕ → Move}

/-- Every state of a run that goes on. -/
theorem kept (h : Goes run moves) (n : ℕ) : Kept (run n) :=
  kept_of_reaches (h.started ▸ h.forever.reaches n)

/-- Its story only grows. -/
theorem onward (h : Goes run moves) {n k : ℕ} (hnk : n ≤ k) : (run n).story <+: (run k).story := by
  induction k, hnk using Nat.le_induction with
  | base => exact List.prefix_refl _
  | succ k _ ih => exact ih.trans (onward_of_step (h.forever k)).story

/-- What is in hand is sent. -/
theorem sent (h : Goes run moves) (charge : Charge) :
    LeadsTo run (fun q => charge ∈ q.hands.map InputChunk.charge)
      (fun q => .returned charge ∈ q.story ∨ charge ∈ q.held.map InputChunk.charge) := by
  refine h.forever.leadsTo_of_rank (h.send charge.id) h.kept (fun _ => 0) ?_ ?_
  · intro q m q' hkept hmem hstep
    obtain ⟨chunk, hchunk, rfl⟩ := List.mem_map.mp hmem
    by_cases hsend : m = .send chunk.charge.id
    · subst hsend
      exact .inl (sent_of_step hkept hchunk hstep)
    · refine .inr ⟨?_, Nat.le_refl _, fun hA => absurd hA hsend⟩
      exact List.mem_map_of_mem ((onward_of_step hstep).hands chunk hchunk hsend)
  · intro q _ hmem
    obtain ⟨chunk, hchunk, rfl⟩ := List.mem_map.mp hmem
    refine .inr ⟨_, rfl, ?_⟩
    have hfind : (q.hands.find? (·.charge.id = chunk.charge.id)).isSome = true :=
      List.find?_isSome.mpr ⟨chunk, hchunk, by simp⟩
    obtain ⟨found, hfound⟩ := Option.isSome_iff_exists.mp hfind
    simp only [Feed.step, hfound]
    split <;> simp

/-- What the writer's thread is to drop it drops. -/
theorem served (h : Goes run moves) (charge : Charge) :
    LeadsTo run (fun q => charge ∈ q.held.map InputChunk.charge)
      (fun q => .returned charge ∈ q.story) :=
  h.forever.leadsTo_of_rank h.writes h.kept (fun q => q.left charge)
    (fun _ _ _ _ hmem hstep => served_of_step hmem hstep)
    (fun _ _ hmem => .inr (writer_can hmem))

/-- What is charged is given back. -/
theorem returned (h : Goes run moves) (charge : Charge) :
    LeadsTo run (fun q => .charged charge ∈ q.story) (fun q => .returned charge ∈ q.story) := by
  intro n hmem
  have hout := (h.kept n).kept.mem_iff.mp (mem_charges.mpr hmem)
  rw [Feed.out, List.map_append, List.mem_append, List.mem_append] at hout
  rcases hout with (hhands | hheld) | hback
  · obtain ⟨k, hk, hback | hheld⟩ := h.sent charge n hhands
    · exact ⟨k, hk, hback⟩
    · obtain ⟨l, hl, hback⟩ := h.served charge k hheld
      exact ⟨l, Nat.le_trans hk hl, hback⟩
  · exact h.served charge n hheld
  · exact ⟨n, Nat.le_refl _, mem_returns.mp hback⟩

/-- Some time, all of what was charged so far is given back. -/
theorem allReturned (h : Goes run moves) (n : ℕ) :
    ∃ k ≥ n, ∀ charge, .charged charge ∈ (run n).story → .returned charge ∈ (run k).story := by
  have hlist : ∀ list : List Charge, (∀ charge ∈ list, .charged charge ∈ (run n).story) →
      ∃ k ≥ n, ∀ charge ∈ list, .returned charge ∈ (run k).story := by
    intro list hcharged
    induction list with
    | nil => exact ⟨n, Nat.le_refl _, fun _ hmem => by cases hmem⟩
    | cons first list ih =>
      obtain ⟨hfirst, hrest⟩ := List.forall_mem_cons.mp hcharged
      obtain ⟨k, hk, hback⟩ := ih hrest
      obtain ⟨l, hl, hreturned⟩ := h.returned first n hfirst
      refine ⟨max k l, Nat.le_trans hk (Nat.le_max_left _ _), ?_⟩
      exact List.forall_mem_cons.mpr ⟨(h.onward (Nat.le_max_right k l)).subset hreturned,
        fun charge hmem => (h.onward (Nat.le_max_left k l)).subset (hback charge hmem)⟩
  obtain ⟨k, hk, hback⟩ := hlist (charges (run n).story) fun charge hmem => mem_charges.mp hmem
  exact ⟨k, hk, fun charge hmem => hback charge (mem_charges.mpr hmem)⟩

end Goes

/-- With nothing used, a chunk of any size is taken. -/
theorem nextUsed_zero (bytes : Vec) : nextUsed 0 bytes.len ≠ none := by
  have hlen : cost bytes.len ≤ 2 ^ 63 := Nat.max_le.mpr ⟨bytes.2.le, by decide⟩
  have hfits : cost bytes.len < usize := by
    simp only [usize]
    omega
  simp [nextUsed, hfits]

/-- In every run, what is counted as used is what was charged and not given back; a charge fits the
budget or is alone, is given back once, and only what does not fit beside others is refused. What is
charged is given back once the program reads: then the PTY takes a chunk of any size, or it has
taken another one. -/
theorem budget_kept :
    (∀ q, Reachable Feed.step .started q → q.used = owed q.story ∧ Law Fits q.story) ∧
    ∀ run moves, Goes run moves →
      (∀ charge, LeadsTo run (fun q => .charged charge ∈ q.story)
        fun q => .returned charge ∈ q.story) ∧
      ∀ n, ∃ k ≥ n, (∀ bytes : Vec, nextUsed (run k).used bytes.len ≠ none) ∨
        ∃ charge, .charged charge ∈ (run k).story ∧ .charged charge ∉ (run n).story := by
  refine ⟨fun q hreach => ?_, fun run moves h => ⟨h.returned, fun n => ?_⟩⟩
  · have hkept := kept_of_reaches hreach
    exact ⟨hkept.owed_eq.symm, hkept.law⟩
  · obtain ⟨k, hk, hback⟩ := h.allReturned n
    refine ⟨k, hk, ?_⟩
    by_cases hanother : ∃ charge, .charged charge ∈ (run k).story ∧ .charged charge ∉ (run n).story
    · exact .inr hanother
    · refine .inl fun bytes => ?_
      have howing : owing (run k).story = [] := by
        rw [owing, List.filter_eq_nil_iff]
        intro charge hmem hnot
        refine of_decide_eq_true hnot (mem_returns.mpr (hback charge ?_))
        by_contra hnew
        exact hanother ⟨charge, mem_charges.mp hmem, hnew⟩
      have hused : (run k).used = 0 := by
        rw [← (h.kept k).owed_eq, owed, howing]
        rfl
      rw [hused]
      exact nextUsed_zero bytes

/-- Two bytes, charged, sent and written in two parts; then only empty writes. -/
def twoBytes : ℕ → Move
  | 0 => .write ⟨[1, 2], by decide⟩
  | 1 => .exchange 0 false
  | 2 => .send 0
  | 3 => .recv
  | 4 => .turn (.ready true false) (.bytes 1)
  | 5 => .turn (.ready true false) (.bytes 1)
  | 6 => .turn (.ready true false) (.bytes 0)
  | _ => .write ⟨[], by decide⟩

def course (moves : ℕ → Move) : ℕ → Feed
  | 0 => .started
  | n + 1 => ((course moves n).step (moves n)).getD (course moves n)

/-- Then only nothing is written. -/
theorem twoBytes_later (n : ℕ) : twoBytes (7 + n) = .write ⟨[], by decide⟩ := by
  rw [Nat.add_comm]
  rfl

/-- In the end nothing is used, and nothing is to be done. -/
theorem course_later (n : ℕ) : course twoBytes (7 + n) = course twoBytes 7 := by
  have hsender : (course twoBytes 7).sender = true := by decide +kernel
  have hsame : ∀ q : Feed, q.sender = true → q.step (.write ⟨[], by decide⟩) = some q := by
    intro q htrue
    simp [Feed.step, htrue]
  induction n with
  | zero => exact congrArg (course twoBytes) (Nat.add_zero 7)
  | succ n ih =>
    have hnext : course twoBytes (7 + n + 1) =
        ((course twoBytes (7 + n)).step (twoBytes (7 + n))).getD (course twoBytes (7 + n)) := rfl
    rw [← Nat.add_assoc, hnext, twoBytes_later, ih, hsame _ hsender, Option.getD_some]

/-- The chunk is sent, and the writer gets on. -/
theorem goes_twoBytes : Goes (course twoBytes) twoBytes where
  started := rfl
  forever := by
    intro n
    have hsome : ((course twoBytes n).step (twoBytes n)).isSome = true := by
      by_cases hn : n < 7
      · have hearly : ∀ n < 7, ((course twoBytes n).step (twoBytes n)).isSome = true := by
          decide +kernel
        exact hearly n hn
      · obtain ⟨k, rfl⟩ := Nat.exists_eq_add_of_le (Nat.le_of_not_lt hn)
        rw [twoBytes_later, course_later]
        decide +kernel
    obtain ⟨q, hq⟩ := Option.isSome_iff_exists.mp hsome
    rw [course, hq]
    rfl
  send id n hcan := by
    obtain ⟨_, rfl, hstep⟩ := hcan (7 + n) (by omega)
    have hhands : (course twoBytes 7).hands = [] := by decide +kernel
    rw [course_later] at hstep
    simp [Feed.step, hhands] at hstep
  writes n hcan := by
    obtain ⟨m, hm, hstep⟩ := hcan (7 + n) (by omega)
    have hwriter : (course twoBytes 7).writer = .waiting := by decide +kernel
    have hqueue : (course twoBytes 7).queue = [] := by decide +kernel
    have hsender : (course twoBytes 7).sender = true := by decide +kernel
    rw [course_later] at hstep
    cases m with
    | recv => simp [Feed.step, hwriter, hqueue, hsender] at hstep
    | turn polled wrote => simp [Feed.step, hwriter] at hstep
    | disconnect => simp [Feed.step, hwriter] at hstep
    | discard => simp [Feed.step, hwriter] at hstep
    | _ => cases hm

/-- The chunk's charge is given back. -/
theorem budget_kept_twoBytes : ∃ k ≥ 2, .returned ⟨0, 64⟩ ∈ (course twoBytes k).story :=
  (budget_kept.2 _ _ goes_twoBytes).1 ⟨0, 64⟩ 2 (by decide +kernel)

/-! ### How much is owed -/

/-- A charge more is owed. -/
theorem owing_charged (h : Law Fits story) (hnew : charge ∉ charges story) :
    owing (story ++ [.charged charge]) = owing story ++ [charge] := by
  have hback : charge ∉ returns story := fun hmem => hnew (returns_subset h hmem)
  simp [owing, Happening.charged?, Happening.returned?, hback]

/-- A charge given back is owed no more. -/
theorem owing_returned (h : Law Fits story) :
    owing (story ++ [.returned charge]) = (owing story).erase charge := by
  unfold owing
  rw [((nodup_charges h).filter _).erase_eq_filter]
  simp only [charges_snoc, returns_snoc, Happening.charged?, Happening.returned?,
    Option.toList_none, Option.toList_some, List.append_nil, List.filter_filter]
  refine List.filter_congr fun charge' _ => ?_
  by_cases hsame : charge' = charge <;> simp [hsame]

/-- More than the budget is owed only where one charge is all that is owed. -/
theorem owed_le (h : Law Fits story) :
    owed story ≤ writeBudget ∨ ∃ charge ∈ owing story, owed story = charge.amount := by
  refine fits_induct h (.inl (Nat.zero_le _)) ?_
  intro story x hlaw hfits ih
  cases x with
  | charged charge =>
    have howing := owing_charged hlaw fun hmem => hfits.1 charge hmem rfl
    have howed : owed (story ++ [.charged charge]) = owed story + charge.amount := by
      simp [owed, howing]
    rw [howed, howing]
    rcases hfits.2 with hnone | hroom
    · exact .inr ⟨charge, List.mem_append_right _ List.mem_cons_self, by rw [hnone, Nat.zero_add]⟩
    · exact .inl hroom
  | returned charge =>
    have howing : owing (story ++ [.returned charge]) = (owing story).erase charge :=
      owing_returned hlaw
    have howed : owed story = charge.amount + owed (story ++ [.returned charge]) := by
      rw [owed, owed, howing]
      exact total_perm (List.perm_cons_erase hfits)
    rcases ih with hle | ⟨alone, hmem, halone⟩
    · exact .inl (by omega)
    · by_cases hsame : alone = charge
      · subst hsame
        exact .inl (by omega)
      · have hstill : alone ∈ owing (story ++ [.returned charge]) := by
          rw [howing]
          exact (List.mem_erase_of_ne hsame).mpr hmem
        have hle : alone.amount ≤ owed (story ++ [.returned charge]) := by
          rw [owed, ← total, total_perm (List.perm_cons_erase hstill), total_cons]
          exact Nat.le_add_right _ _
        exact .inr ⟨alone, hstill, by omega⟩
  | full bytes => simpa [owed, owing, Happening.charged?, Happening.returned?] using ih
  | closed bytes => simpa [owed, owing, Happening.charged?, Happening.returned?] using ih

/-- In every run, more than the budget is counted as used only where it is one charge's, and no more
than that is. -/
theorem used_le (h : Reachable Feed.step .started q) :
    q.used ≤ writeBudget ∨ ∃ charge ∈ owing q.story, q.used = charge.amount := by
  have hkept := kept_of_reaches h
  rw [← hkept.owed_eq]
  exact owed_le hkept.law

/-- A chunk of two bytes is charged alone. -/
theorem used_le_twoBytes : (course twoBytes 2).used ≤ writeBudget ∨
    ∃ charge ∈ owing (course twoBytes 2).story, (course twoBytes 2).used = charge.amount :=
  used_le (goes_twoBytes.forever.reaches 2)

end Koh.Pty.Budget
