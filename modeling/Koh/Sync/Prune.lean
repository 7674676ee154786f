import Koh.Sync.Runs
import Koh.Sync.System

/-!
# Pruning and excludes

What an exclude matches is left standing by a run, if nothing the run takes away
is above it, and no part it uses is it. `Receiver::leave` consults the excludes
for the entries of a directory that ends, and `fsat::remove` for none of what is
below them.

## Main definitions

- `Receiver.Excludes`: an exclude matches a path, where its directory ends
- `Sparing`: nothing above a path is taken away

## Main results

- `excluded_stands`: what is excluded stands, in a run that spares it
- `excluded_pruned`: a run that prunes an excluded file with its directory
-/

namespace Koh.Sync

open Names

/-- If `p` is an entry of the directory that is open, an exclude matches it there, by its name or
by its path from the top of the tree. -/
def Receiver.Excludes (r : Receiver) (p : Path) : Prop :=
  ∀ o more entry, r.opened = o :: more → p = o.dir.rel ++ [entry] →
    r.opts.excludes.excludes entry.bytes (r.path o.dir entry).bytes = true

/-- Item `i` takes away nothing above `p`, and uses no part that is `p`. -/
def Sparing (digest : Digest) (p : Path) (r : Receiver) (i : Item) : Prop :=
  ∀ q, r.Takes digest i q → q <+: p → i = .dirEnd ∧ q = p

section

variable {digest : Digest} {top : DirId} {r r' : Receiver}

/-- An item leaves standing what an exclude matches, if it spares it. -/
theorem Does.spares {i : Item} {h : Heard} {p : Path} (hr : Rooted digest top r)
    (hdoes : Does digest r r' i h) (hspare : Sparing digest p r i)
    (hexcludes : i = .dirEnd → r.Excludes p) (hstands : r.disk.Stands top p) :
    r'.disk.Stands top p := by
  refine (hdoes.treads hr).1.spared.stands hstands fun d n hon hlose => ?_
  obtain ⟨q, htakes, hpre⟩ := hr.takes_of_loses hlose hon
  obtain ⟨rfl, rfl⟩ := hspare q htakes hpre
  -- It is pruned itself: but it is excluded.
  cases htakes with
  | pruned hdry hopened hprunes =>
    have hmatch := hexcludes rfl _ _ _ hopened rfl
    cases hprunes.1.symm.trans hmatch

/-- **What an exclude matches is spared**, whatever items came, in a run that ends
well: if it is matched wherever its directory ends, and each item takes away nothing
above it and uses no part that is it, then what stood there at the start stands
there at the end. -/
theorem excluded_stands {disk : Disk} {target : Target} {opts : Opts} {items : List Item} {h : Heard}
    {p : Path} (hs : disk.Sound top) (htarget : target.dir = some top)
    (hstands : disk.Stands top p)
    (hexcludes : Along digest (fun g _ _ => g) (fun _ r i => i = .dirEnd → r.Excludes p) ()
      (.start ⟨disk, []⟩ target opts) items)
    (hspare : Along digest (fun g _ _ => g) (fun _ r i => Sparing digest p r i) ()
      (.start ⟨disk, []⟩ target opts) items)
    (hfeed : Receiver.feed digest items (.start ⟨disk, []⟩ target opts) = .ok h r') :
    r'.disk.Stands top p := by
  have hroot : Rooted digest top (.start ⟨disk, []⟩ target opts) :=
    start_rooted hs fun id hid => by rw [htarget] at hid; exact (Option.some_inj.mp hid).symm
  exact (feed_invariant (fun (_ : Unit) r => r.disk.Stands top p)
    (fun _ r i h r' hr hinv hP hdoes => hdoes.spares hr hP.2 hP.1 hinv) hroot hstands
    (hexcludes.and hspare) hfeed).1

end

/-! ### A run that spares, and one that does not -/

/-- `d/k`, a file in the directory `d`, and `d/o`, a directory beside it that holds `y`. -/
def keptDisk : Disk :=
  .listed [[(.letter 0x64, .dir 1)],
    [(.letter 0x6b, .file [] 0o644 none), (.letter 0x6f, .dir 2)],
    [(.letter 0x79, .file [] 0o644 none)]]

def keptOpts : Opts := ⟨false, true, false, ⟨[⟨[0x6b], by decide⟩], by decide⟩⟩

theorem keptDisk_sound : keptDisk.Sound 0 :=
  Disk.listed_sound (by decide) (by decide) (by decide) (by decide)

/-- `d`, with an empty directory `s` in it. -/
def keptItems : List Item :=
  [.dir (.letter 0x64) .dirDefault none, .dir (.letter 0x73) .dirDefault none, .dirEnd, .dirEnd,
    .allDone]

/-- `d/o` is pruned, with what it holds: `d/k` beside it stands. -/
theorem excluded_stands_kept : ∃ h r', Receiver.feed id keptItems
      (.start ⟨keptDisk, []⟩ (.into (some 0)) keptOpts) = .ok h r' ∧
    r'.disk.reach 0 [.letter 0x64, .letter 0x6f] = none ∧
    r'.disk.Stands 0 [.letter 0x64, .letter 0x6b] := by
  have hends : endsAs id (fun r' => r'.disk.reach 0 [.letter 0x64, .letter 0x6f])
      (.start ⟨keptDisk, []⟩ (.into (some 0)) keptOpts) keptItems = some none := by decide +kernel
  obtain ⟨h, r', hfeed, hpruned⟩ := feed_of_endsAs id hends
  let view : Unit × Receiver × Item → Item × Excludes × Path × List Path :=
    fun x => (x.2.2, x.2.1.opts.excludes, x.2.1.tree, x.2.1.opened.map (·.dir.rel))
  have hview : (passed id (fun g _ _ => g) () (.start ⟨keptDisk, []⟩ (.into (some 0)) keptOpts)
      keptItems).map view = [
        (.dir (.letter 0x64) .dirDefault none, keptOpts.excludes, [], []),
        (.dir (.letter 0x73) .dirDefault none, keptOpts.excludes, [.letter 0x64],
          [[.letter 0x64]]),
        (.dirEnd, keptOpts.excludes, [.letter 0x64],
          [[.letter 0x64, .letter 0x73], [.letter 0x64]]),
        (.dirEnd, keptOpts.excludes, [.letter 0x64], [[.letter 0x64]]),
        (.allDone, keptOpts.excludes, [.letter 0x64], [])] := by
    decide +kernel
  refine ⟨h, r', hfeed, hpruned, excluded_stands keptDisk_sound rfl
    ⟨[.letter 0x64], _, _, rfl, rfl, rfl⟩ (along_of_view view hview fun _ r i hi => ?_)
    (along_of_view view hview fun _ r i hi => ?_) hfeed⟩
  · simp only [view, List.mem_cons, Prod.mk.injEq, List.not_mem_nil, or_false] at hi
    rcases hi with ⟨rfl, -⟩ | ⟨rfl, -⟩ | ⟨rfl, -, -, hrels⟩ | ⟨rfl, hex, htree, hrels⟩ | ⟨rfl, -⟩
    · rintro ⟨⟩
    · rintro ⟨⟩
    · -- The directory `s` ends, which `k` is not in.
      rintro - o more entry hopened hp
      rw [hopened, List.map_cons, List.cons.injEq] at hrels
      rw [hrels.1] at hp
      cases hp
    · rintro - o more entry hopened hp
      rw [hopened, List.map_cons, List.cons.injEq] at hrels
      rw [hrels.1] at hp
      cases hp
      rw [Receiver.path, hex, htree, hrels.1]
      decide
    · rintro ⟨⟩
  · simp only [view, List.mem_cons, Prod.mk.injEq, List.not_mem_nil, or_false] at hi
    rcases hi with ⟨rfl, -⟩ | ⟨rfl, -⟩ | ⟨rfl, -, -, hrels⟩ | ⟨rfl, -, -, hrels⟩ | ⟨rfl, -⟩
    · rintro q ⟨⟩
    · rintro q ⟨⟩
    · rintro q (⟨-, hopened, -⟩ | _ | _) hpre
      rw [hopened, List.map_cons, List.cons.injEq] at hrels
      rw [hrels.1] at hpre
      exact absurd hpre.length_le (by simp)
    · rintro q (⟨-, hopened, -⟩ | _ | _) hpre
      rw [hopened, List.map_cons, List.cons.injEq] at hrels
      rw [hrels.1] at hpre ⊢
      exact ⟨rfl, hpre.eq_of_length rfl⟩
    · rintro q ⟨⟩

/-- `d/o/k`: the directory `d`, one in it, and a file in that. -/
def strayDisk : Disk :=
  .listed [[(.letter 0x64, .dir 1)], [(.letter 0x6f, .dir 2)],
    [(.letter 0x6b, .file [] 0o644 none)]]

/-- An empty `d` is sent: `d/o` is pruned, and `d/o/k` with it, though `k` is
excluded. -/
theorem excluded_pruned : ∃ n, Net.Reachable (fun _ => 1) id
      (.start [.path [0x64] (.dir 0o755 none .nil)] keptOpts strayDisk (.into (some 0))) n ∧
    n.succeeded = true ∧
    keptOpts.excludes.excludes [0x6b] [0x6f, 0x2f, 0x6b] = true ∧
    strayDisk.Stands 0 [.letter 0x64, .letter 0x6f, .letter 0x6b] ∧
    ¬ n.receiver.disk.Stands 0 [.letter 0x64, .letter 0x6f, .letter 0x6b] := by
  have hrun : ((Net.start [.path [0x64] (.dir 0o755 none .nil)] keptOpts strayDisk
      (.into (some 0))).run (fun _ => 1) id (List.replicate 5 (.send false 0) ++
        [.take, .receive, .receive, .receive])).map
      (fun n => (n.succeeded, n.receiver.disk.reach 0 [.letter 0x64, .letter 0x6f])) =
        some (true, none) := by decide +kernel
  obtain ⟨n, hn, heq⟩ := Option.map_eq_some_iff.mp hrun
  obtain ⟨hok, hnone⟩ := Prod.mk.inj heq
  refine ⟨n, Net.reachable_of_run hn, hok, by decide,
    ⟨[.letter 0x64, .letter 0x6f], _, 2, rfl, rfl, rfl⟩, ?_⟩
  rintro ⟨q, name, d, hq, hd, -⟩
  have hsplit : [.letter 0x64, .letter 0x6f] ++ [.letter 0x6b] = q ++ [name] := hq
  obtain ⟨rfl, -⟩ := List.append_inj' hsplit rfl
  cases hnone.symm.trans hd

end Koh.Sync
