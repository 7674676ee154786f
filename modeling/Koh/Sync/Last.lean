import Koh.Sync.DryRun
import Koh.Sync.Hears
import Koh.Sync.Settled
import Koh.Sync.Single

/-!
# Modes and times come last

Of a single source, each directory that the receiver opens gets its mode and time once, after all
that is below it is in place and has its own, and none waits when the run ends.

## Main definitions

- `SetLast`: what a run that ends well made of directories
- `Receiver.Tracks`: a receiver alongside the walk, and what it made of directories
- `Net.Course`: a run, and what becomes of directories in it

## Main results

- `Told.tracks`: fed what commands brought, the receiver is alongside them
- `Net.modes_last`: modes and times come last
-/

namespace Koh.Sync

open Lib

/-- All moments being over: each directory got the source's mode, if it was made or times are kept,
and the time, if they are; it got them once, with nothing done after at its path or below it, and
all that came is in place. -/
structure SetLast (opts : Opts) (history : List Moment) : Prop where
  given : ∀ dir made mode mtime, .entered dir made mode mtime ∈ history → dir.fd.isSome ∧
    dir.mode = (if made || opts.keepTimes then some mode else none) ∧
    dir.mtime = mtime.filter fun _ => opts.keepTimes
  once : ∀ dir ∈ enteredIn history, (settledIn history).filter (·.rel = dir.rel) = [dir]
  ordered : Ordered history
  landed : ∀ dir name, .came dir name ∈ history → .landed dir name ∈ history

namespace Receiver

variable {digest : Digest} {r r' r₀ : Receiver} {i : Item} {history moments : List Moment}

/-! ### What an item opens -/

theorem enteredIn_moments : enteredIn (r.moments r' i) = enteredIn (r.brings r' i) :=
  enteredIn_settlements _ _ _

theorem enteredIn_entered (parent : Dir) (name : Name) (mode : Mode) (mtime : Option Time) :
    enteredIn (r.entered r' parent name mode mtime) = r'.dirs.head?.toList := by
  unfold entered dirs
  cases r'.opened <;> rfl

/-- A directory that comes is the one opened last. -/
theorem enteredIn_dir (name : Name) (mode : Mode) (mtime : Option Time) :
    enteredIn (r.moments r' (.dir name mode mtime)) = r'.dirs.head?.toList :=
  enteredIn_moments.trans (enteredIn_entered _ _ _ _)

theorem enteredIn_contents (mode : Mode) (mtime : Option Time) :
    enteredIn (r.moments r' (.contents mode mtime)) = r'.dirs.head?.toList := by
  rw [enteredIn_moments]
  simp only [brings]
  split
  · exact enteredIn_entered _ _ _ _
  · unfold dirs
    cases r'.opened <;> rfl

/-- Nothing is opened when an item comes that opens nothing. -/
theorem enteredIn_other (hdir : ∀ name mode mtime, i ≠ .dir name mode mtime)
    (hcontents : ∀ mode mtime, i ≠ .contents mode mtime) : enteredIn (r.moments r' i) = [] := by
  rw [enteredIn_moments]
  cases i with
  | dir name mode mtime => exact absurd rfl (hdir name mode mtime)
  | contents mode mtime => exact absurd rfl (hcontents mode mtime)
  | same id =>
    simp only [brings]
    cases r.pending.find? (·.header.id = id) <;> rfl
  | sent =>
    simp only [brings]
    cases r.receiving <;> rfl
  | _ => rfl

/-- What an item does is to land something, or something comes. -/
theorem mem_brings {m : Moment} (hm : m ∈ r.brings r' i) :
    (∃ dir name, m = .landed dir name) ∨ i.Comes ∧ m.comes = true := by
  have hentered : ∀ {parent : Dir} {name : Name} {mode : Mode} {mtime : Option Time},
      m ∈ r.entered r' parent name mode mtime → m.comes = true := by
    intro parent name mode mtime hin
    obtain ⟨o, -, rfl⟩ := List.mem_map.mp hin
    rfl
  cases i with
  | dir => exact .inr ⟨trivial, hentered hm⟩
  | contents =>
    simp only [brings] at hm
    split at hm
    · exact .inr ⟨trivial, hentered hm⟩
    · obtain ⟨o, -, rfl⟩ := List.mem_map.mp hm
      exact .inr ⟨trivial, rfl⟩
  | file =>
    rw [List.mem_singleton.mp hm]
    exact .inr ⟨trivial, rfl⟩
  | symlink =>
    rcases List.mem_pair.mp hm with rfl | rfl
    · exact .inr ⟨trivial, rfl⟩
    · exact .inl ⟨_, _, rfl⟩
  | same id =>
    obtain ⟨p, -, rfl⟩ := List.mem_map.mp hm
    exact .inl ⟨_, _, rfl⟩
  | sent =>
    obtain ⟨rc, -, rfl⟩ := List.mem_map.mp hm
    exact .inl ⟨_, _, rfl⟩
  | _ => cases hm

/-- Only what comes makes a moment of something coming. -/
theorem comes_of_moments (h : ∃ m ∈ r.moments r' i, m.comes = true) : i.Comes := by
  obtain ⟨m, hm, hcomes⟩ := h
  rcases List.mem_append.mp hm with hm | hm
  · rcases mem_brings hm with ⟨dir, name, rfl⟩ | ⟨hi, -⟩
    · cases hcomes
    · exact hi
  · obtain ⟨d, -, rfl⟩ := List.mem_map.mp hm
    cases hcomes

/-! ### Alongside the walk -/

/-- The directories opened are those of the walk: each is as far below the top as there. -/
def Paired (tree : Path) (dirs : List Dir) (levels : List Level) : Prop :=
  List.Forall₂ (fun d l => ∃ sub, d.rel = tree ++ sub ∧ l.rel = l.tree ++ sub) dirs levels

/-- Paths that differ there differ here. -/
theorem Paired.apart {tree top base : Path} {dirs : List Dir} {levels : List Level}
    (h : Paired tree dirs levels) (hlevels : Branches top base levels) :
    dirs.Pairwise fun d d' => d.rel ≠ d'.rel := by
  unfold Paired at h
  induction h with
  | nil => exact .nil
  | @cons d l dirs levels hd hrest ih =>
    obtain ⟨hhead, honce⟩ := List.pairwise_cons.mp hlevels.once
    have hmore : Branches top base levels :=
      ⟨fun l' hl' => hlevels.within l' (List.mem_cons_of_mem _ hl'), honce⟩
    refine .cons (fun d' hd' heq => ?_) (ih hmore)
    obtain ⟨k, hk, rfl⟩ := List.getElem_of_mem hd'
    have hklevels : k < levels.length := hrest.length_eq ▸ hk
    obtain ⟨sub', hsub', hl'⟩ := List.Forall₂.get hrest hk hklevels
    obtain ⟨sub, hsub, hl⟩ := hd
    rw [List.get_eq_getElem] at hsub' hl'
    rw [hsub, hsub', List.append_cancel_left_eq] at heq
    have hin : levels[k] ∈ levels := List.getElem_mem hklevels
    refine hhead _ hin ?_
    rw [hl, hl', heq, (hlevels.within l List.mem_cons_self).1, (hmore.within _ hin).1]

/-- A receiver alongside the walk of a single source, and what it made of directories. -/
structure Tracks (digest : Digest) (top : DirId) (opts : Opts) (before : List Noted)
    (history : List Moment) (r : Receiver) : Prop where
  rooted : Rooted digest top r
  wet : r.Wet
  same : r.opts = opts
  tended : r.Tended history
  inUse : ∀ d ∈ r.closing, r.InUse d
  alone : Alone r.top (enteredIn history)
  paired : Paired r.tree (enteredIn history) (opensIn before)
  first : before = [] → history = []
  given : ∀ dir made mode mtime, .entered dir made mode mtime ∈ history → dir.fd.isSome ∧
    dir.mode = (if made || opts.keepTimes then some mode else none) ∧
    dir.mtime = mtime.filter fun _ => opts.keepTimes

/-- The command that brought an item, if one did, and the directories open after it. -/
def Leads (levels : List Level) (last : List Noted) (i : Item) (levels' : List Level) : Prop :=
  (∃ x, last = [x] ∧ x.1.Brings i ∧ Climbs levels x levels') ∨
    last = [] ∧ i.Late ∧ levels' = levels

variable {levels levels' : List Level} {last before after : List Noted}

/-- The directory opened last, there and here. -/
theorem paired_head {l : Level} (halong : r'.Along (l :: levels)) :
    Paired r'.tree r'.dirs.head?.toList [l] := by
  unfold Along rels at halong
  unfold Paired dirs
  cases hopened : r'.opened with
  | nil =>
    rw [hopened] at halong
    cases halong
  | cons o more =>
    rw [hopened] at halong
    obtain ⟨hhead, -⟩ := List.forall₂_cons.mp halong
    exact .cons hhead .nil

/-- An item opens what the command does that brought it. -/
theorem Leads.paired (h : Leads levels last i levels') (halong : r'.Along levels') :
    Paired r'.tree (enteredIn (r.moments r' i)) (opensIn last) := by
  rcases h with ⟨⟨c, l⟩, rfl, hbrings, hclimb⟩ | ⟨rfl, hlate, -⟩
  · cases hclimb with
    | top | sub =>
      cases hbrings
      rw [enteredIn_dir]
      exact paired_head halong
    | contents =>
      cases hbrings
      rw [enteredIn_contents]
      exact paired_head halong
    | fail => cases hbrings
    | _ =>
      cases hbrings
      rw [enteredIn_other (by simp) (by simp)]
      exact .nil
  · rw [enteredIn_other (by rintro _ _ _ rfl; exact hlate) (by rintro _ _ rfl; exact hlate)]
    exact .nil

/-- Only what opens a directory at the top takes another for the top. -/
theorem Opens.tree (h : r.Opens i r') : r'.tree = r.tree ∨ r.rels = [] ∧ i.Comes := by
  cases i with
  | dir name mode mtime =>
    unfold Opens at h
    cases hrels : r.rels with
    | nil => exact .inr ⟨rfl, trivial⟩
    | cons up more =>
      rw [hrels] at h
      exact .inl h.2
  | contents mode mtime => exact .inr ⟨h.1, trivial⟩
  | dirEnd => exact .inl h.1
  | _ => exact .inl h.2

/-- A directory that is entered has the mode and time that were given. -/
theorem Moves.given (h : r.Moves r' moments) {dir : Dir} {made : Bool} {mode : Mode}
    {mtime : Option Time} (hin : .entered dir made mode mtime ∈ moments) : dir ∈ r'.dirs ∧
      dir.mode = (if made || r.opts.keepTimes then some mode else none) ∧
      dir.mtime = mtime.filter fun _ => r.opts.keepTimes := by
  cases h with
  | entered _ _ _ hmode hmtime hdirs =>
    obtain ⟨rfl, rfl, rfl, rfl⟩ := Moment.entered.inj (List.mem_singleton.mp hin)
    exact ⟨by simp [hdirs], hmode, hmtime⟩
  | _ => simp [settlements] at hin

/-- A directory opened is at the top only when it is the first. -/
theorem Tended.alone (h : r.Tended history) (halone : Alone r.top (enteredIn history))
    (hmoves : r.Moves r' moments)
    (hfirst : r.dirs = [] → (∃ m ∈ moments, m.comes = true) → history = [])
    (hrels : (enteredIn (history ++ moments)).Pairwise fun d d' => d.rel ≠ d'.rel) :
    Alone r.top (enteredIn (history ++ moments)) := by
  have hnodup := List.pairwise_map.mpr hrels
  refine ⟨fun c hc d hd heq => List.inj_on_of_nodup_map hnodup hc hd heq, ?_⟩
  -- A directory is opened in one that is not the top, or before all others.
  have hone : ∀ {m : Moment} {dir : Dir}, enteredIn [m] = [dir] → m.comes = true →
      moments = [m] → dir.parent = some r.inner.tag →
      ∀ c ∈ enteredIn (history ++ moments), ∀ d ∈ enteredIn (history ++ moments),
        c.parent = some r.top.tag → d.parent = some r.top.tag → c = d := by
    rintro m dir hdir hcomes rfl hparent
    rw [enteredIn_append, hdir]
    cases hdirs : r.dirs with
    | nil =>
      rw [hfirst hdirs ⟨m, List.mem_singleton_self m, hcomes⟩]
      intro c hc d hd _ _
      rw [List.mem_singleton.mp hc, List.mem_singleton.mp hd]
    | cons o more =>
      have hin : r.inner ∈ enteredIn history :=
        h.entered_of_alive (by simp [inner, alive, hdirs])
      have hpos := (h.tags.2 _ hin).1
      have hnew : dir.parent ≠ some r.top.tag := by
        rw [hparent, h.top.1]
        simp only [ne_eq, Option.some.injEq]
        omega
      have hold : ∀ c ∈ enteredIn history ++ [dir], c.parent = some r.top.tag →
          c ∈ enteredIn history := by
        intro c hc hctop
        rcases List.mem_append.mp hc with hold | hlast
        · exact hold
        · rw [List.mem_singleton.mp hlast] at hctop
          exact absurd hctop hnew
      intro c hc d hd hctop hdtop
      exact halone.tops c (hold c hc hctop) d (hold d hd hdtop) hctop hdtop
  have hsame : enteredIn moments = [] →
      ∀ c ∈ enteredIn (history ++ moments), ∀ d ∈ enteredIn (history ++ moments),
        c.parent = some r.top.tag → d.parent = some r.top.tag → c = d := by
    intro hnil
    rw [enteredIn_append, hnil, List.append_nil]
    exact halone.tops
  cases hmoves with
  | entered _ hparent => exact hone rfl rfl rfl hparent
  | target hnil _ hparent =>
    have hinner : r.inner = r.top := by simp [inner, hnil]
    exact hone rfl rfl rfl (by rw [hparent, hinner])
  | done => exact hsame (enteredIn_settlements [.landed _ _] _ _)
  | ended => exact hsame (enteredIn_settlements [] _ _)
  | _ => exact hsame rfl

/-- As long as nothing came, there is nothing to land or settle. -/
theorem Tended.nothing (h : r.Tended []) (hmoves : r.Moves r' moments)
    (hcomes : ∀ m ∈ moments, m.comes = false) : moments = [] := by
  cases hmoves with
  | still => rfl
  | entered | target | came => cases hcomes _ (List.mem_singleton_self _)
  | linked => cases hcomes _ List.mem_cons_self
  | done hfiles =>
    have hcame := (h.files _ (hfiles.mem_iff.mpr List.mem_cons_self)).1
    cases hcame
  | ended hdirs =>
    have hopen := h.entered_of_alive (List.mem_append_left _ (hdirs ▸ List.mem_cons_self))
    cases hopen

/-- An item leaves the receiver alongside the walk, past the command that brought it. -/
theorem Tracks.next {source : Source} {opts : Opts} {top : DirId} {items : List Item}
    {heard : Heard} (h : r.Tracks digest top opts before history) (hsource : source.Distinct)
    (hdry : opts.dryRun = false) (hitem : item digest i r = .ok heard r')
    (hover : ∀ s, heard ≠ .over s) (halong : r.Along levels) (halong' : r'.Along levels')
    (hway : Way Climbs [] before levels) (hleads : Leads levels last i levels')
    (hbrought : Brought (before.map Prod.fst) items)
    (hnoted : Sender.noted opts [source] = before ++ last ++ after) :
    r'.Tracks digest top opts (before ++ last) (history ++ r.moments r' i) := by
  have hwet : r.opts.dryRun = false := by rw [h.same, hdry]
  have hmoves := item_moves digest hwet h.tended.ids h.rooted.part hitem hover
  have hdoes := item_does h.rooted.sound hitem
  obtain ⟨hopts, htop, -⟩ := hdoes.fixed
  -- What comes at the top comes first.
  have hfirst : r.rels = [] → i.Comes → history = [] := by
    intro hrels hcomes
    rcases hleads with ⟨x, rfl, hbrings, -⟩ | ⟨-, hlate, -⟩
    · rw [Along, hrels, List.forall₂_nil_left_iff] at halong
      rw [List.append_assoc, List.singleton_append] at hnoted
      exact h.first (Sender.noted_first opts hnoted hbrought (halong ▸ hway) hbrings hcomes)
    · cases i <;> first | exact hcomes.elim | exact hlate.elim
  have hstart : r.dirs = [] → (∃ m ∈ r.moments r' i, m.comes = true) → history = [] :=
    fun hdirs hcomes => hfirst (by simpa [rels, dirs] using hdirs) (comes_of_moments hcomes)
  have hpaired : Paired r'.tree (enteredIn (history ++ r.moments r' i))
      (opensIn (before ++ last)) := by
    rw [enteredIn_append, opensIn_append]
    refine List.rel_append ?_ (hleads.paired halong')
    rcases (item_opens digest hitem).tree with htree | ⟨hrels, hcomes⟩
    · exact htree ▸ h.paired
    · have hpaired := h.paired
      rw [hfirst hrels hcomes] at hpaired ⊢
      rw [List.forall₂_nil_left_iff.mp hpaired]
      exact .nil
  have hlevels : ∃ tree, Branches tree tree (opensIn (before ++ last)) := by
    obtain ⟨tree, hbranches⟩ := Sender.source_opens opts source hsource
    have hall : Sender.sourceNoted opts source = before ++ last ++ after := by
      simpa [Sender.noted] using hnoted
    rw [hall, opensIn_append] at hbranches
    exact ⟨tree, fun l hl => hbranches.within l (List.mem_append_left _ hl),
      (List.pairwise_append.mp hbranches.once).1⟩
  obtain ⟨tree, hlevels⟩ := hlevels
  have halone := h.tended.alone h.alone hmoves hstart (hpaired.apart hlevels)
  refine ⟨hdoes.rooted h.rooted, hdoes.wet h.wet, hopts.trans h.same,
    h.tended.step hmoves hstart htop halone, hmoves.inUse h.inUse, htop ▸ halone, hpaired, ?_, ?_⟩
  · intro hnil
    obtain ⟨rfl, rfl⟩ := List.append_eq_nil_iff.mp hnil
    have hnone := h.first rfl
    have htended := h.tended
    rw [hnone] at htended
    rw [hnone, List.nil_append]
    refine htended.nothing hmoves fun m hm => Bool.eq_false_iff.mpr fun hcomes => ?_
    have hi := comes_of_moments ⟨m, hm, hcomes⟩
    rcases hleads with ⟨x, hx, -⟩ | ⟨-, hlate, -⟩
    · cases hx
    · cases i <;> first | exact hi.elim | exact hlate.elim
  · intro dir made mode mtime hin
    rcases List.mem_append.mp hin with hold | hnew
    · exact h.given dir made mode mtime hold
    · obtain ⟨hdir, hmode, hmtime⟩ := hmoves.given hnew
      rw [h.same] at hmode hmtime
      refine ⟨?_, hmode, hmtime⟩
      exact (hdoes.wet h.wet (by rw [hopts, hwet])).2.1 dir hdir

end Receiver

/-! ### What it is told -/

namespace Told

open Receiver

variable {digest : Digest} {r r' r₀ : Receiver} {items : List Item} {history : List Moment}

theorem fed (h : Told digest r₀ items history r) : Fed digest r₀ items r := by
  induction h with
  | nil => exact .nil
  | snoc _ hitem hover ih => exact ih.snoc hitem hover

/-- Nothing happened yet. -/
theorem start_tracks {disk : Disk} {target : Target} {top : DirId} {opts : Opts}
    (hs : disk.Sound top) (htop : ∀ id, target.dir = some id → id = top)
    (hwet : opts.dryRun = false → target.dir.isSome) :
    (Receiver.start ⟨disk, []⟩ target opts).Tracks digest top opts [] [] where
  rooted := start_rooted hs htop
  wet hdry := ⟨by simpa [Receiver.start] using hwet hdry, by simp [Receiver.start],
    by simp [Receiver.start]⟩
  same := rfl
  tended := ⟨⟨rfl, rfl⟩, ⟨by simp [Receiver.start], by simp [enteredIn]⟩, .nil, .refl _,
    by simp [Hung, alive, Receiver.dirs, Receiver.start], .nil,
    by simp [underWay, Receiver.start], by simp, .nil, by simp [settledIn]⟩
  inUse := by simp [Receiver.start]
  alone := ⟨by simp [enteredIn], by simp [enteredIn]⟩
  paired := .nil
  first _ := rfl
  given := by simp

/-- Fed what the commands of a single source brought, the receiver is alongside them. -/
theorem tracks {source : Source} {opts : Opts} {top : DirId} {cmds after : List Noted}
    {levels : List Level} (hsource : source.Distinct) (hdry : opts.dryRun = false)
    (hr₀ : r₀.Tracks digest top opts [] []) (halong : r₀.Along [])
    (h : Told digest r₀ items history r) (hbrought : Brought (cmds.map Prod.fst) items)
    (hway : Way Climbs [] cmds levels) (hnoted : Sender.noted opts [source] = cmds ++ after) :
    r.Tracks digest top opts cmds history := by
  induction h generalizing cmds after levels with
  | nil =>
    cases cmds with
    | nil => exact hr₀
    | cons c cmds => cases hbrought
  | @snoc items history r r' i heard htold hitem hover ih =>
    obtain ⟨first, last, hcmds, hfirst, hlast⟩ := hbrought.split
    obtain ⟨before, rest, rfl, rfl, rfl⟩ := List.map_eq_append_iff.mp hcmds
    obtain ⟨levels₁, hbefore, hrest⟩ := hway.split
    rw [List.append_assoc] at hnoted
    have htracks := ih hfirst hbefore hnoted
    rw [← List.append_assoc] at hnoted
    have hleads : Leads levels₁ rest i levels := by
      rcases hlast.one with ⟨c, hc, hbrings⟩ | ⟨hnil, hlate⟩
      · obtain ⟨x, rfl, rfl⟩ := List.map_eq_singleton_iff.mp hc
        obtain ⟨levels₂, hclimb, hend⟩ := hrest.uncons
        exact .inl ⟨x, rfl, hbrings, hend.eq_of_nil ▸ hclimb⟩
      · obtain rfl := List.map_eq_nil_iff.mp hnil
        exact .inr ⟨rfl, hlate, hrest.eq_of_nil.symm⟩
    have hfed := (Told.snoc htold hitem hover).fed
    exact htracks.next hsource hdry hitem hover (htold.fed.along halong hfirst hbefore)
      (hfed.along halong hbrought hway) hbefore hleads hfirst hnoted

end Told

namespace Receiver

variable {digest : Digest} {r r' : Receiver} {i : Item} {history : List Moment}

/-- A directory opened is the one that is settled at its path. -/
theorem Tracks.once {top : DirId} {opts : Opts} {before : List Noted}
    (h : r.Tracks digest top opts before history)
    (hall : (enteredIn history).Perm (settledIn history)) {dir : Dir}
    (hdir : dir ∈ enteredIn history) : (settledIn history).filter (·.rel = dir.rel) = [dir] := by
  have hnodup : (settledIn history).Nodup := hall.nodup_iff.mp (.of_map _ h.tended.nodup)
  by_contra hne
  rcases ((hnodup.filter _).ne_singleton_iff dir).mp hne with hnil | ⟨c, hc, hcne⟩
  · have hin : dir ∈ (settledIn history).filter (·.rel = dir.rel) := by
      simpa using hall.mem_iff.mp hdir
    rw [hnil] at hin
    cases hin
  · obtain ⟨hsettled, hrel⟩ := List.mem_filter.mp hc
    exact hcne (h.alone.rels c (hall.mem_iff.mpr hsettled) dir hdir (by simpa using hrel))

/-- The last item leaves no directory waiting: each got its mode and time. -/
theorem Tracks.over {top : DirId} {opts : Opts} {before : List Noted} {s : Summary}
    (h : r.Tracks digest top opts before history) (hitem : item digest i r = .ok (.over s) r') :
    r' = r ∧ r.closing = [] ∧ r.moments r' i = [] ∧ SetLast opts history := by
  cases item_does h.rooted.sound hitem with
  | allDone hrc hopened hpending hsame =>
    have hdirs : r.dirs = [] := by simp [dirs, hopened]
    have hfiles : r.underWay = [] := by simp [underWay, hpending, hrc]
    have hclosing := h.tended.none_waits h.inUse hdirs hfiles
    have hall : (enteredIn history).Perm (settledIn history) := by
      have hall := h.tended.all
      rwa [alive, hdirs, hclosing, List.append_nil, List.nil_append] at hall
    refine ⟨hsame, hclosing, rfl, h.given, fun dir hdir => h.once hall hdir, h.tended.ordered,
      fun dir name hcame => ?_⟩
    rcases h.tended.landed dir name hcame with hlanded | ⟨p, hp, -⟩
    · exact hlanded
    · rw [hfiles] at hp
      cases hp

/-- What an item landed is there. -/
theorem Tracks.there {top : DirId} {opts : Opts} {before : List Noted} {heard : Heard}
    (h : r.Tracks digest top opts before history) (hdry : opts.dryRun = false)
    (hitem : item digest i r = .ok heard r') {dir : Dir} {name : Name}
    (hin : .landed dir name ∈ r.moments r' i) :
    ∃ fd, dir.fd = some fd ∧ (r'.disk.entry fd.id name).isSome := by
  have hwet : r.opts.dryRun = false := by rw [h.same, hdry]
  have hin : .landed dir name ∈ r.brings r' i :=
    (List.mem_append.mp hin).resolve_right (by simp [settlements])
  have hentered : ∀ {parent : Dir} {name' : Name} {mode : Mode} {mtime : Option Time},
      .landed dir name ∉ r.entered r' parent name' mode mtime := by
    simp [entered]
  cases item_does h.rooted.sound hitem with
  | @same id p hrc hfind hstill hnext hbytes _ hthere =>
    simp only [brings, hfind, Option.toList_some, List.map_cons, List.map_nil,
      List.mem_singleton] at hin
    obtain ⟨rfl, rfl⟩ := Moment.landed.inj hin
    obtain ⟨fd, hfd, hsome⟩ := hthere hwet
    refine ⟨fd, hfd, ?_⟩
    rcases hbytes fd.id p.header.name with heq | ⟨_, _, _, _, _, -, heq⟩
    · rwa [heq]
    · rw [heq]
      rfl
  | sent hrc hstill hnext hset =>
    simp only [brings, hrc, Option.toList_some, List.map_cons, List.map_nil,
      List.mem_singleton] at hin
    obtain ⟨rfl, rfl⟩ := Moment.landed.inj hin
    obtain ⟨hfd, hpart⟩ := h.rooted.receiving _ hrc
    obtain ⟨_, e', -, -, -, -, hentry⟩ := hset hpart
    exact ⟨_, hfd, by rw [hentry, Names.setAt_self]; rfl⟩
  | symlink hrc hstill _ hlinked =>
    obtain ⟨fd, hfd, hlinked⟩ := hlinked hwet
    obtain ⟨rfl, rfl⟩ := Moment.landed.inj ((List.mem_pair.mp hin).resolve_left (by simp))
    exact ⟨fd, hfd, by rw [hlinked.entry]; rfl⟩
  | dir => exact absurd hin hentered
  | contentsNamed _ _ hnamed =>
    simp only [brings, hnamed] at hin
    exact absurd hin hentered
  | contents _ _ hnamed =>
    simp only [brings, hnamed] at hin
    simp at hin
  | file => simp [brings] at hin
  | _ => cases hin

/-! ### A dry run -/

/-- Only those looked for are settled. -/
theorem settledIn_moments : settledIn (r.moments r' i) = (r'.released (r.waits i)).1 := by
  have hbrings : settledIn (r.brings r' i) = [] := by
    refine List.filterMap_eq_nil_iff.mpr fun m hm => ?_
    rcases mem_brings hm with ⟨dir, name, rfl⟩ | ⟨-, hcomes⟩
    · rfl
    · cases m <;> first | rfl | cases hcomes
  rw [moments, settledIn_settlements, hbrings, List.nil_append]

/-- In a dry run none is settled. -/
theorem settledIn_dry (hdry : r.opts.dryRun = true) (hclosing : r.closing = []) :
    settledIn (r.moments r' i) = [] := by
  have hnone : r.waits i = [] := by
    cases i <;> simp [waits, hdry, hclosing]
  rw [settledIn_moments, hnone]
  rfl

end Receiver

/-- In a dry run nothing settles. -/
theorem Told.dry {digest : Digest} {r r₀ : Receiver} {items : List Item} {history : List Moment}
    {w₀ : World} (hr₀ : r₀.Dry w₀) (h : Told digest r₀ items history r) :
    r.Dry w₀ ∧ settledIn history = [] := by
  induction h with
  | nil => exact ⟨hr₀, rfl⟩
  | @snoc items history r r' i heard _ hitem _ ih =>
    have hkeeps := Receiver.item_dry digest i r ih.1
    refine ⟨wp_of_ok (x := Receiver.item digest i) hkeeps hitem, ?_⟩
    rw [settledIn_append, ih.2, Receiver.settledIn_dry ih.1.dry ih.1.closing]
    rfl

/-! ### Both ends -/

namespace Net

variable {size : Item → ℕ} {digest : Digest} {n n' n₀ : Net} {history : List Moment} {m : Move}

def momentsIn (n n' : Net) : Move → List Moment
  | .receive => n.inbox.head?.toList.flatMap (n.receiver.moments n'.receiver)
  | _ => []

/-- One move after another, and what becomes of directories. -/
inductive Course (size : Item → ℕ) (digest : Digest) (n₀ : Net) : List Moment → Net → Prop
  | nil : Course size digest n₀ [] n₀
  | snoc {history : List Moment} {n n' : Net} {m : Move} : Course size digest n₀ history n →
      n.step size digest m = some n' → Course size digest n₀ (history ++ n.momentsIn n' m) n'

/-- Only what is read happens to the receiver. -/
theorem momentsIn_quiet (h : m ≠ .receive) : n.momentsIn n' m = [] := by
  cases m <;> first | rfl | exact absurd rfl h

/-- It is what the item does. -/
theorem momentsIn_read {i : Item} {rest : List Item} (hinbox : n.inbox = i :: rest) :
    n.momentsIn (n.read digest i rest) .receive =
      n.receiver.moments (n.read digest i rest).receiver i := by
  simp [momentsIn, hinbox]

/-- What the moments of a move say is so after it: what is settled has its mode and time, and what
landed is there. Before it settles any, the directories that were there and still are where they
were, but for one that something landed on, have the modes and the times that they had. -/
structure Shows (n n' : Net) (m : Move) : Prop where
  settled : ∃ w, n'.receiver.world = givenAll (settledIn (n.momentsIn n' m)) w ∧
    n.receiver.disk.Dated (n.receiver.LandedOn (n.momentsIn n' m)) w.disk
  landed : n.receiver.opts.dryRun = false → ∀ dir name, .landed dir name ∈ n.momentsIn n' m →
    ∃ fd, dir.fd = some fd ∧ (n'.receiver.disk.entry fd.id name).isSome

/-- Every run has a course. -/
theorem Reachable.course (h : Reachable size digest n₀ n) :
    ∃ history, Course size digest n₀ history n := by
  induction h with
  | refl => exact ⟨[], .nil⟩
  | tail _ hstep ih =>
    obtain ⟨history, hcourse⟩ := ih
    obtain ⟨m, hm⟩ := hstep
    exact ⟨_, hcourse.snoc hm⟩

section

variable {sources : List Source} {opts : Opts} {disk : Disk} {target : Target} {top : DirId}

/-- While the receiver goes on, it was told what commands carried out brought. -/
theorem Course.told (h : Course size digest (start sources opts disk target) history n)
    (hnone : n.outcome = none) : ∃ items, n.Carried (Sender.walk opts sources) items ∧
      Told digest (.start ⟨disk, []⟩ target opts) items history n.receiver := by
  induction h with
  | nil => exact ⟨[], ⟨[], rfl, .nil⟩, .nil⟩
  | @snoc history n n' m _ hstep ih =>
    obtain ⟨hbefore, hgoes⟩ := step_goes hstep hnone
    obtain ⟨items, hcarried, htold⟩ := ih hbefore
    refine ⟨_, hcarried.step hstep, ?_⟩
    rcases hgoes with ⟨hno, hreceiver⟩ | ⟨i, rest, heard, rfl, hinbox, hitem, hover⟩
    · rwa [readIn_quiet hno, momentsIn_quiet hno, List.append_nil, List.append_nil, hreceiver]
    · rw [readIn, momentsIn, hinbox]
      simpa using htold.snoc hitem hover

/-- In a dry run none is settled. -/
theorem Course.dry (h : Course size digest (start sources opts disk target) history n)
    (hdry : opts.dryRun = true) (hnone : n.outcome = none) :
    n.receiver.Dry ⟨disk, []⟩ ∧ settledIn history = [] := by
  obtain ⟨items, -, htold⟩ := h.told hnone
  exact htold.dry ⟨hdry, rfl, rfl, .refl _⟩

variable {source : Source}

/-- While the receiver goes on, it is alongside the walk of a single source. -/
theorem Course.tracks (h : Course size digest (start [source] opts disk target) history n)
    (hsource : source.Distinct) (hs : disk.Sound top) (htop : ∀ id, target.dir = some id → id = top)
    (hwet : opts.dryRun = false → target.dir.isSome) (hdry : opts.dryRun = false)
    (hnone : n.outcome = none) :
    ∃ before, n.receiver.Tracks digest top opts before history := by
  obtain ⟨items, ⟨cmds, hwalk, hbrought⟩, htold⟩ := h.told hnone
  obtain ⟨first, last, rfl, hfirst, -⟩ := hbrought.split
  rw [← Sender.noted_walk, List.append_assoc] at hwalk
  obtain ⟨before, after, hnoted, rfl, -⟩ := List.map_eq_append_iff.mp hwalk
  have hway := Sender.noted_climbs opts [source]
  rw [hnoted] at hway
  obtain ⟨levels, hbefore, -⟩ := hway.split
  exact ⟨before, htold.tracks hsource hdry (Told.start_tracks hs htop hwet) .nil hfirst hbefore
    hnoted⟩

/-- What its moments say of a move that ends well is so. -/
theorem Course.shows (h : Course size digest (start [source] opts disk target) history n)
    (hsource : source.Distinct) (hs : disk.Sound top) (htop : ∀ id, target.dir = some id → id = top)
    (hwet : opts.dryRun = false → target.dir.isSome) (hstep : n.step size digest m = some n')
    (hok : ∀ failure, n'.outcome ≠ some (.error failure)) : n.Shows n' m := by
  have hquiet : n.momentsIn n' m = [] → n'.receiver.disk = n.receiver.disk → n.Shows n' m := by
    intro hnil hdisk
    refine ⟨⟨n'.receiver.world, ?_, ?_⟩, ?_⟩
    · rw [hnil]
      rfl
    · show Disk.Dated _ _ n'.receiver.disk
      rw [hdisk]
      exact .refl _ _
    · simp [hnil]
  rcases step_cases hstep with ⟨hno, hreceiver, -⟩ | ⟨i, rest, rfl, hnone, hinbox, rfl⟩ |
    ⟨-, -, -, rfl⟩
  · exact hquiet (momentsIn_quiet hno) (congrArg Receiver.disk hreceiver)
  · have hmoments : n.momentsIn (n.read digest i rest) .receive =
        n.receiver.moments (n.read digest i rest).receiver i := momentsIn_read hinbox
    obtain ⟨heard, hitem⟩ := read_ok hok
    cases hdry : opts.dryRun with
    | true =>
      have hdry := (h.dry hdry hnone).1
      have hafter := wp_of_ok (x := Receiver.item digest i)
        (Receiver.item_dry digest i n.receiver hdry) hitem
      refine ⟨⟨(n.read digest i rest).receiver.world, ?_, ?_⟩, fun hno => ?_⟩
      · rw [hmoments, Receiver.settledIn_dry hdry.dry hdry.closing]
        rfl
      · rw [Receiver.disk, hdry.untouched.disk, hafter.untouched.disk]
        exact .refl _ _
      · cases hdry.dry.symm.trans hno
    | false =>
      obtain ⟨before, htracks⟩ := h.tracks hsource hs htop hwet hdry hnone
      have hwet' : n.receiver.opts.dryRun = false := by rw [htracks.same, hdry]
      by_cases hover : ∃ s, heard = .over s
      · obtain ⟨s, rfl⟩ := hover
        exact hquiet (hmoments.trans (htracks.over hitem).2.2.1)
          (congrArg Receiver.disk (htracks.over hitem).1)
      · have hmoves := Receiver.item_moves digest hwet' htracks.tended.ids htracks.rooted.part hitem
          fun s heq => hover ⟨s, heq⟩
        rw [← hmoments] at hmoves
        exact ⟨hmoves.world, fun _ dir name hin => htracks.there hdry hitem (hmoments ▸ hin)⟩
  · exact absurd rfl (hok _)

/-- **Modes and times come last**, for a single source, whatever the target is and whatever order
the ends take turns in. What a move settles has its mode and time after it, and no other directory
gets one by it, unless the move takes it away or lands something on it; what it lands is there. Once
the receiver's end is that all went well, none waits, and each directory opened was settled once,
after all that came below it was in place, and each directory below it was settled. -/
theorem modes_last (hsource : source.Distinct) (hs : disk.Sound top)
    (htop : ∀ id, target.dir = some id → id = top)
    (hwet : opts.dryRun = false → target.dir.isSome)
    (h : Course size digest (start [source] opts disk target) history n) :
    (∀ m n', n.step size digest m = some n' → (∀ failure, n'.outcome ≠ some (.error failure)) →
      n.Shows n' m) ∧
    (n.succeeded = true → n.receiver.closing = [] ∧
      if opts.dryRun = true then settledIn history = [] else SetLast opts history) := by
  refine ⟨fun m n' hstep hok => h.shows hsource hs htop hwet hstep hok, ?_⟩
  induction h with
  | nil => exact fun h => by cases h
  | @snoc history n n' m hcourse hstep ih =>
    intro hok
    rcases step_cases hstep with ⟨hno, hreceiver, houtcome⟩ |
      ⟨i, rest, rfl, hnone, hinbox, rfl⟩ | ⟨-, -, -, rfl⟩
    · rw [momentsIn_quiet hno, List.append_nil, hreceiver]
      exact ih (by rwa [succeeded, ← houtcome])
    · obtain ⟨s, hitem⟩ := read_succeeds hnone hok
      rw [momentsIn_read hinbox]
      cases hdry : opts.dryRun with
      | true =>
        obtain ⟨hdry, hsettled⟩ := hcourse.dry hdry hnone
        have hend := wp_of_ok (x := Receiver.item digest i)
          (Receiver.item_dry digest i n.receiver hdry) hitem
        refine ⟨hend.closing, ?_⟩
        rw [if_pos rfl, settledIn_append, hsettled, Receiver.settledIn_dry hdry.dry hdry.closing]
        rfl
      | false =>
        obtain ⟨before, htracks⟩ := hcourse.tracks hsource hs htop hwet hdry hnone
        obtain ⟨hsame, hclosing, hnil, hlast⟩ := htracks.over hitem
        rw [hnil, List.append_nil, hsame]
        exact ⟨hclosing, by simpa using hlast⟩
    · cases hok

end

/-- In `modes_last`, `b` within `a`, which may not be written, wait for the bytes of a file in `b`,
both having ended. -/
theorem modes_last_late :
    let opts : Opts := ⟨true, false, false, ⟨[], by decide⟩⟩
    let source : Source := .path [0x61] (.dir 0o555 (some ⟨7, 0, by decide⟩)
      (.cons [0x62] (.dir 0o555 none (.cons [0x66] (.file ⟨[1, 2], 2, 0o644, none, none⟩) .nil))
        .nil))
    ∃ history n, Course (fun _ => 1) id (start [source] opts bareDisk (.into (some 0))) history n ∧
      n.receiver.closing = [] ∧ SetLast opts history := by
  intro opts source
  have hrun : (run (fun _ => 1) id (start [source] opts bareDisk (.into (some 0)))
      (List.replicate 8 (.send true 0) ++ .take :: List.replicate 5 .receive ++
        List.replicate 8 (.send true 9) ++ .take :: List.replicate 4 .receive)).map succeeded =
        some true := by
    decide +kernel
  obtain ⟨n, hn, hok⟩ := Option.map_eq_some_iff.mp hrun
  obtain ⟨history, hcourse⟩ := Reachable.course (reachable_of_run hn)
  have hlast := modes_last (by simp [source, Source.Distinct, Node.Distinct, Forest.Distinct,
    Forest.names]) bareDisk_sound (by rintro id ⟨⟩; rfl) (fun _ => rfl) hcourse
  exact ⟨history, n, hcourse, by simpa using hlast.2 hok⟩

end Net

end Koh.Sync
