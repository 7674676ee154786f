import Koh.Jobs.Table
import Mathlib.Data.List.Perm.Subperm

/-!
# What taking a job's place does to the table

`Jobs::reserve`, from `server/jobs.rs`, over whole runs of the server: how many jobs are
kept, which of them go, and which never do.

## Main definitions

- `Table.Kept`: the jobs are few enough, each of one name, and one that runs has not ended

## Main results

- `Table.Kept.reserve`: what a place taken or refused does
- `Hosting.places_kept`: in every run
-/

namespace Koh.Jobs

open Koh.Server Koh.Lib

namespace Table

variable {table : Table} {ttl now : ℕ} {peer : Peer} {job : Job} {key : Key}

/-- The names that are numbers, one more than there are jobs at most. -/
def numbers : List JobName :=
  (List.range (maxJobs + 1)).filterMap fun n => JobName.new (toString (n + 1)).toList

set_option maxRecDepth 4000 in
/-- The free names are one more than the jobs there may be. -/
theorem numbers_nodup : numbers.Nodup ∧ numbers.length = maxJobs + 1 := by decide +kernel

/-- What is taken to be free is a number, and free. -/
theorem freeName_some {name : JobName} (h : table.freeName peer = some name) :
    name ∈ numbers ∧ table.lookup (peer, name) = none := by
  have hnone := List.find?_some h
  exact ⟨List.mem_of_find?_eq_some h, by simpa using hnone⟩

/-- One of the numbers is free. -/
theorem freeName_isSome (h : table.length ≤ maxJobs) (peer : Peer) :
    ∃ name, table.freeName peer = some name := by
  cases hfree : table.freeName peer with
  | some name => exact ⟨name, rfl⟩
  | none =>
    -- Every number would be taken, of which there are more than jobs.
    have htaken : numbers.map (fun name => (peer, name)) ⊆ table.map Prod.fst := by
      intro key hkey
      obtain ⟨name, hname, rfl⟩ := List.mem_map.mp hkey
      have hsome := List.find?_eq_none.mp hfree name hname
      obtain ⟨job, hjob⟩ := Option.ne_none_iff_exists'.mp
        (show table.lookup (peer, name) ≠ none from by simpa using hsome)
      exact List.mem_map.mpr ⟨_, Dict.mem_of_lookup hjob, rfl⟩
    have hnodup : (numbers.map fun name => (peer, name)).Nodup :=
      numbers_nodup.1.map fun _ _ heq => (Prod.mk.inj heq).2
    have hle := (List.subperm_of_subset hnodup htaken).length_le
    rw [List.length_map, List.length_map, numbers_nodup.2] at hle
    omega

/-- A table keeps few enough jobs, one of each peer and name, and a job that runs has not
ended. -/
structure Kept (table : Table) : Prop where
  length : table.length ≤ maxJobs
  nodup : (table.map Prod.fst).Nodup
  running : ∀ e ∈ table, e.2.running = true → e.2.ended = none

/-- What is retained was there. -/
theorem retain_sublist : (table.retain ttl now).Sublist table := by
  unfold retain
  split
  · exact List.filter_sublist
  · exact List.Sublist.refl _

/-- Fewer jobs keep the bounds. -/
theorem Kept.sublist {table' : Table} (h : table.Kept) (hsub : table'.Sublist table) :
    table'.Kept where
  length := hsub.length_le.trans h.length
  nodup := h.nodup.sublist (hsub.map _)
  running := fun e he => h.running e (hsub.subset he)

/-- No job that runs is forgotten for its age. -/
theorem Kept.mem_retain (h : table.Kept) {e : Key × Job} (he : e ∈ table)
    (hrun : e.2.running = true) : e ∈ table.retain ttl now := by
  unfold retain
  split
  · refine List.mem_filter.mpr ⟨he, ?_⟩
    simp [Job.endedBefore, h.running e he hrun]
  · exact he

/-- Jobs of one key are one. -/
theorem Kept.eq_of_key (h : table.Kept) {e e' : Key × Job} (he : e ∈ table) (he' : e' ∈ table)
    (heq : e.1 = e'.1) : e = e' := by
  have hmem : (e.1, e'.2) ∈ table := by rwa [heq]
  exact Prod.ext heq (Dict.value_unique h.nodup he hmem)

/-- What is removed is one name's. -/
theorem mem_remove {e : Key × Job} : e ∈ table.remove key ↔ e ∈ table ∧ e.1 ≠ key := by
  simp [remove]

/-- The one that makes room has ended, and none that ended is older. -/
theorem oldestEnded_some (h : table.oldestEnded = some key) :
    ∃ old ∈ table, old.1 = key ∧ old.2.running = false ∧
      ∀ e ∈ table, e.2.running = false → old.2.started ≤ e.2.started := by
  obtain ⟨old, hold, rfl⟩ := Option.map_eq_some_iff.mp h
  obtain ⟨hmem, hended⟩ := List.mem_filter.mp (List.argmin_mem hold)
  refine ⟨old, hmem, rfl, by simpa using hended, fun e he hrun => ?_⟩
  exact List.le_of_mem_argmin (f := fun e : Key × Job => e.2.started)
    (List.mem_filter.mpr ⟨he, by simpa using hrun⟩) hold

/-- Where there is none to make room from, all jobs run. -/
theorem oldestEnded_none (h : table.oldestEnded = none) :
    ∀ e ∈ table, e.2.running = true := by
  simpa [oldestEnded, List.filter_eq_nil_iff] using h

/-! ### A place taken -/

structure Placing (table : Table) (ttl now : ℕ) (peer : Peer) (name : Option JobName) (job : Job)
    (taken : Except Refusal Key) (table' : Table) : Prop where
  length : table'.length ≤ maxJobs
  nodup : (table'.map Prod.fst).Nodup
  /-- A job that runs is neither removed nor replaced. -/
  running : ∀ e ∈ table, e.2.running = true → e ∈ table'
  new : ∀ key, taken = .ok key → key.1 = peer ∧ (∀ n, name = some n → key.2 = n) ∧
    (key, job) ∈ table' ∧ ∀ old, (key, old) ∈ table → old.running = false
  /-- A number that is free is found for a job of none, and is what it takes. -/
  number : name = none → ∃ n ∈ numbers, (table.retain ttl now).freeName peer = some n ∧
    (table.retain ttl now).lookup (peer, n) = none ∧ ∀ key, taken = .ok key → key.2 = n
  /-- Room is made if need be, from the job that ended and was started first. -/
  room : ∀ key, taken = .ok key →
    let others := (table.retain ttl now).remove key
    others.length < maxJobs ∧ (∀ e ∈ others, e ∈ table') ∨
    maxJobs ≤ others.length ∧ ∃ old ∈ others, old.2.running = false ∧
      (∀ e ∈ others, e.2.running = false → old.2.started ≤ e.2.started) ∧
      ∀ e ∈ others, e ≠ old → e ∈ table'
  refused : ∀ why, taken = .error why → table' = table.retain ttl now
  /-- No place is left only among as many jobs as may be, all of which run. -/
  full : taken = .error .tooManyJobs → (table.retain ttl now).length = maxJobs ∧
    ∀ e ∈ table.retain ttl now, e.2.running = true
  /-- A name is taken only while a job of it runs. -/
  named : taken = .error .nameTaken →
    ∃ n old, name = some n ∧ ((peer, n), old) ∈ table ∧ old.running = true

/-- A place is taken among the jobs of other names, all of them or all but the one that
room is made from. -/
theorem Kept.placing_insert (h : table.Kept) {rest others : Table} {name : Option JobName}
    {n : JobName}
    (hname : name = some n ∨ name = none ∧ (table.retain ttl now).freeName peer = some n)
    (hended : ∀ old, ((peer, n), old) ∈ table → old.running = false)
    (hrest : (table.retain ttl now).remove (peer, n) = rest) (hsub : others.Sublist rest)
    (hlength : others.length < maxJobs)
    (hroom : rest.length < maxJobs ∧ (∀ e ∈ rest, e ∈ others) ∨
      maxJobs ≤ rest.length ∧ ∃ old ∈ rest, old.2.running = false ∧
        (∀ e ∈ rest, e.2.running = false → old.2.started ≤ e.2.started) ∧
        ∀ e ∈ rest, e ≠ old → e ∈ others) :
    table.Placing ttl now peer name job (.ok (peer, n)) (others.insert (peer, n) job) := by
  have hothers : others.Sublist table := by
    rw [← hrest] at hsub
    exact (hsub.trans List.filter_sublist).trans retain_sublist
  -- What is not of the key stays where it was kept.
  have hstays : ∀ e ∈ rest, e ∈ others → e ∈ others.insert (peer, n) job := by
    intro e he hin
    rw [← hrest] at he
    exact Dict.mem_insert_of_ne _ job hin (mem_remove.mp he).2
  refine ⟨?_, ?_, fun e he hrun => ?_, ?_, fun hnone => ?_, ?_, by rintro _ ⟨⟩, by rintro ⟨⟩,
    by rintro ⟨⟩⟩
  · have hle := Dict.length_insert_le Key.before others (peer, n) job
    exact hle.trans hlength
  · refine Dict.nodup_insert (fun k => ?_) (h.nodup.sublist (hothers.map _)) _ _
    simp [Key.before]
  · have hne : e.1 ≠ (peer, n) := by
      intro heq
      have hmem : ((peer, n), e.2) ∈ table := by rwa [← heq]
      rw [hended e.2 hmem] at hrun
      cases hrun
    have hin : e ∈ rest := by
      rw [← hrest]
      exact mem_remove.mpr ⟨h.mem_retain he hrun, hne⟩
    refine hstays e hin ?_
    rcases hroom with ⟨-, hall⟩ | ⟨-, old, -, hold, -, hall⟩
    · exact hall e hin
    · refine hall e hin ?_
      rintro rfl
      rw [hold] at hrun
      cases hrun
  · rintro _ ⟨⟩
    refine ⟨rfl, fun n' hn' => ?_, Dict.mem_insert_self _ _ _ _, hended⟩
    rcases hname with rfl | ⟨rfl, -⟩
    · exact Option.some.inj hn'
    · cases hn'
  · rcases hname with rfl | ⟨-, hfree⟩
    · cases hnone
    · obtain ⟨hnumber, hlookup⟩ := freeName_some hfree
      refine ⟨n, hnumber, hfree, hlookup, ?_⟩
      rintro _ ⟨⟩
      rfl
  · rintro _ ⟨⟩
    simp only [hrest]
    refine hroom.imp ?_ ?_
    · exact fun hall => ⟨hall.1, fun e he => hstays e he (hall.2 e he)⟩
    · rintro ⟨hfull, old, hold, hended', hfirst, hall⟩
      exact ⟨hfull, old, hold, hended', hfirst, fun e he hne => hstays e he (hall e he hne)⟩

/-- A place refused leaves what was not too old. -/
theorem Kept.placing_refused (h : table.Kept) {name : Option JobName} {why : Refusal}
    (hfull : why = .tooManyJobs → (table.retain ttl now).length = maxJobs ∧
      ∀ e ∈ table.retain ttl now, e.2.running = true)
    (hnamed : why = .nameTaken →
      ∃ n old, name = some n ∧ ((peer, n), old) ∈ table ∧ old.running = true) :
    table.Placing ttl now peer name job (.error why) (table.retain ttl now) where
  length := (h.sublist retain_sublist).length
  nodup := (h.sublist retain_sublist).nodup
  running := fun e he hrun => h.mem_retain he hrun
  new := by rintro _ ⟨⟩
  number := fun _ => by
    have hlength : (table.retain ttl now).length ≤ maxJobs := (h.sublist retain_sublist).length
    obtain ⟨n, hfree⟩ := freeName_isSome hlength peer
    obtain ⟨hnumber, hlookup⟩ := freeName_some hfree
    exact ⟨n, hnumber, hfree, hlookup, by rintro _ ⟨⟩⟩
  room := by rintro _ ⟨⟩
  refused := fun _ _ => rfl
  full := by
    rintro ⟨⟩
    exact hfull rfl
  named := by
    rintro ⟨⟩
    exact hnamed rfl

/-- **What a place taken or refused does** to a table that is in order. -/
theorem Kept.reserve (h : table.Kept) (ttl now : ℕ) (peer : Peer) (name : Option JobName)
    (job : Job) :
    table.Placing ttl now peer name job (Jobs.reserve ttl now peer name job table).1
      (Jobs.reserve ttl now peer name job table).2 := by
  have hkept : (table.retain ttl now).Kept := h.sublist retain_sublist
  obtain ⟨free, hfree⟩ := freeName_isSome hkept.length peer
  obtain ⟨n, hn, hname⟩ : ∃ n, name.or ((table.retain ttl now).freeName peer) = some n ∧
      (name = some n ∨ name = none ∧ (table.retain ttl now).freeName peer = some n) := by
    cases name with
    | some n => exact ⟨n, rfl, .inl rfl⟩
    | none => exact ⟨free, hfree, .inr ⟨rfl, hfree⟩⟩
  simp only [Jobs.reserve, hn]
  by_cases hrunning : ((table.retain ttl now).lookup (peer, n)).any Job.running = true
  · rw [if_pos hrunning]
    obtain ⟨old, hold, hrun⟩ := (Option.any_eq_true _ _).mp hrunning
    refine h.placing_refused (by rintro ⟨⟩) fun _ => ⟨n, old, ?_, ?_, hrun⟩
    · -- A number that is free has no job, so the name was given.
      refine hname.resolve_right fun hfree => ?_
      rw [(freeName_some hfree.2).2] at hold
      cases hold
    · exact retain_sublist.subset (Dict.mem_of_lookup hold)
  · rw [if_neg hrunning]
    have hended : ∀ old, ((peer, n), old) ∈ table → old.running = false := by
      intro old hold
      by_contra hrun
      have hin := Dict.lookup_of_mem hkept.nodup (h.mem_retain hold (by simpa using hrun))
      rw [hin] at hrunning
      exact hrunning (by simpa using hrun)
    have hle : ((table.retain ttl now).remove (peer, n)).length ≤ maxJobs :=
      (List.length_filter_le _ _).trans hkept.length
    by_cases hfull : maxJobs ≤ ((table.retain ttl now).remove (peer, n)).length
    · rw [if_pos hfull]
      cases holdest : ((table.retain ttl now).remove (peer, n)).oldestEnded with
      | some key =>
        obtain ⟨old, hold, rfl, hold', hfirst⟩ := oldestEnded_some holdest
        refine h.placing_insert hname hended rfl List.filter_sublist ?_
          (.inr ⟨hfull, old, hold, hold', hfirst, fun e he hne => mem_remove.mpr ⟨he, ?_⟩⟩)
        · refine Nat.lt_of_lt_of_le (List.length_filter_lt_length_iff_exists.mpr ?_) hle
          exact ⟨old, hold, by simp⟩
        · intro heq
          exact hne ((hkept.sublist List.filter_sublist).eq_of_key he hold heq)
      | none =>
        -- The name was none's: had a job of it gone, there would be room.
        have hsame : (table.retain ttl now).remove (peer, n) = table.retain ttl now := by
          refine List.filter_eq_self.mpr ?_
          refine List.length_filter_eq_length_iff.mp ?_
          exact Nat.le_antisymm (List.length_filter_le _ _) (hkept.length.trans hfull)
        simp only [hsame] at holdest hfull ⊢
        refine h.placing_refused (fun _ => ⟨Nat.le_antisymm hkept.length hfull, ?_⟩) (by rintro ⟨⟩)
        exact oldestEnded_none holdest
    · rw [if_neg hfull]
      exact h.placing_insert hname hended rfl (List.Sublist.refl _) (Nat.not_le.mp hfull)
        (.inl ⟨Nat.not_le.mp hfull, fun e he => he⟩)

/-- What becomes of a job leaves the table in order, if it has an end then. -/
theorem Kept.alter (h : table.Kept) (id : ℕ) {f : Job → Job} (hf : ∀ job, (f job).running = false) :
    (table.alter id f).Kept where
  length := by simpa [Table.alter] using h.length
  nodup := by
    have hkeys : (table.alter id f).map Prod.fst = table.map Prod.fst := by
      rw [Table.alter, List.map_map]
      refine List.map_congr_left fun e _ => ?_
      simp only [Function.comp_apply]
      split <;> rfl
    rw [hkeys]
    exact h.nodup
  running := by
    intro e he hrun
    obtain ⟨e', he', -, ⟨-, rfl⟩ | ⟨-, heq⟩⟩ := mem_alter he
    · exact h.running e he' hrun
    · rw [heq, hf] at hrun
      cases hrun

/-- A place taken leaves the table in order, for a job that has not ended. -/
theorem Kept.reserved (h : table.Kept) (ttl now : ℕ) (peer : Peer) (name : Option JobName)
    (job : Job) (hjob : job.ended = none) : (Jobs.reserve ttl now peer name job table).2.Kept where
  length := (h.reserve ttl now peer name job).length
  nodup := (h.reserve ttl now peer name job).nodup
  running := by
    intro e he hrun
    have hreserve : Jobs.reserve ttl now peer name job table = (_, _) := rfl
    rcases (mem_of_reserve hreserve).2 e he with ⟨_, -, rfl⟩ | hold
    · exact hjob
    · exact h.running e hold hrun

end Table

namespace Hosting

variable {s s' : Hosting}

/-- Every move keeps the table's bounds and names. -/
theorem step_kept {m : JobMove} (h : s.table.Kept) (hstep : s.step m = some s') :
    s'.table.Kept := by
  cases steps_of_step hstep with
  | endDue => exact h.sublist List.filter_sublist
  | @reserve _ now name peer scope _ _ _ _ hreserve =>
    have hreserved := h.reserved s.ttl now peer name ⟨s.next, now, none, none, scope⟩ rfl
    rwa [hreserve] at hreserved
  | @refuse _ now name peer scope _ _ _ _ hreserve =>
    have hreserved := h.reserved s.ttl now peer name ⟨s.next, now, none, none, scope⟩ rfl
    rwa [hreserve] at hreserved
  | @failed _ _ now =>
    exact (h.alter (f := fun job => job.finish notStarted now) _ fun _ => rfl).sublist
      List.filter_sublist
  | @finish _ code now => exact h.alter (f := fun job => job.finish code now) _ fun _ => rfl
  | _ => exact h

/-- **Taking a job's name keeps the table right**: in every run the table keeps no more
jobs than it may, nor two of one peer and name; and a place taken or refused does to it
what `Placing` says. -/
theorem places_kept {clients : Clients} {ttl : ℕ} {s : Hosting}
    (h : Reachable step (init clients ttl) s) (now : ℕ) (peer : Peer) (name : Option JobName)
    (job : Job) :
    s.table.length ≤ maxJobs ∧ (s.table.map Prod.fst).Nodup ∧
    s.table.Placing s.ttl now peer name job (Jobs.reserve s.ttl now peer name job s.table).1
      (Jobs.reserve s.ttl now peer name job s.table).2 := by
  have hs : s.table.Kept := h.invariant (·.table.Kept)
    ⟨by simp [init], by simp [init], by simp [init]⟩ fun _ _ _ hs _ hstep => step_kept hs hstep
  exact ⟨hs.length, hs.nodup, hs.reserve s.ttl now peer name job⟩

/-- In `places_kept`, a job runs, and its peer starts another of no name. -/
theorem places_kept_two :
    ∃ s, Reachable step (init (.alone 7) 5) s ∧ s.table.map (·.2.running) = [true] ∧
      s.table.Placing s.ttl 11 7 none ⟨1, 11, none, none, .full⟩
        (Jobs.reserve s.ttl 11 7 none ⟨1, 11, none, none, .full⟩ s.table).1
        (Jobs.reserve s.ttl 11 7 none ⟨1, 11, none, none, .full⟩ s.table).2 := by
  obtain ⟨s, hs, hruns⟩ := Option.map_eq_some_iff.mp
    (show (runWhile step (fun _ _ => True) (init (.alone 7) 5)
      [.admits 7, .reserve 0 none 10, .started 0]).map (fun s => s.table.map (·.2.running)) =
      some [true] by decide +kernel)
  have hreach : Reachable step (init (.alone 7) 5) s := reaches_of_run hs
  exact ⟨s, hreach, hruns, (places_kept hreach 11 7 none ⟨1, 11, none, none, .full⟩).2.2⟩

end Hosting

end Koh.Jobs
