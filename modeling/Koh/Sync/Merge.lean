import Koh.Sync.Prune
import Mathlib.Data.List.Nodup

/-!
# Pruning and what the copy sent

Every entry sent is there when the copy ends well, if no item takes away what an
earlier one landed, or lands another kind of entry in its place. A directory is
pruned by what was sent into it since it was last opened, so the end of a
directory that two sources fill takes away what the first of them brought.

## Main definitions

- `History`: the entries sent, and those landed
- `Keeping`: an item takes away nothing landed

## Main results

- `sent_stands`: what was sent is there, if each item keeps what landed
- `merged_pruned`: a run that prunes what it sent
-/

namespace Koh.Sync

open Names

/-- The entries sent so far, and those of them that landed, each with its kind. -/
structure History where
  sent : List (Path × Kind)
  landed : List (Path × Kind)

namespace Receiver

/-- Where an entry named `name` lands. -/
def spotPath (r : Receiver) (name : Name) : Path := (r.spot name).1.rel ++ [(r.spot name).2]

/-- The entry an item sends. -/
def sends (r : Receiver) : Item → Option (Path × Kind)
  | .dir name _ _ => some (r.spotPath name, .dir)
  | .contents _ _ => r.named.map fun name => (r.top.rel ++ [name], .dir)
  | .file header => some (r.spotPath header.name, .file)
  | .symlink name _ => some (r.spotPath name, .link)
  | _ => none

/-- The entry an item lands: a file lands once it is all sent, or is the same. -/
def lands (r : Receiver) : Item → Option (Path × Kind)
  | .file _ => none
  | .sent => r.receiving.map fun rc => (rc.file.dir.rel ++ [rc.file.header.name], .file)
  | .same id => (r.pending.find? (·.header.id = id)).map fun p =>
      (p.dir.rel ++ [p.header.name], .file)
  | i => r.sends i

end Receiver

/-- What is known after item `i`. -/
def History.note (g : History) (r : Receiver) (i : Item) : History :=
  ⟨g.sent ++ (r.sends i).toList, g.landed ++ (r.lands i).toList⟩

/-- Item `i` takes away nothing that landed, and lands no other kind of entry in
its place; what it says is the same is a file. -/
structure Keeping (digest : Digest) (g : History) (r : Receiver) (i : Item) : Prop where
  takes : ∀ q, r.Takes digest i q → ∀ e ∈ g.landed, ¬ q <+: e.1
  kinds : ∀ e, r.lands i = some e → ∀ e' ∈ g.landed, e'.1 = e.1 → e'.2 = e.2
  same : ∀ id p fd e, i = .same id → r.pending.find? (·.header.id = id) = some p →
    p.dir.fd = some fd → r.disk.entry fd.id p.header.name = some e → e.kind = .file

/-- There is an entry of kind `k` at `p`. -/
def Disk.Has (disk : Disk) (top : DirId) (p : Path) (k : Kind) : Prop :=
  ∃ q n d e, p = q ++ [n] ∧ disk.reach top q = some d ∧ disk.entry d n = some e ∧ e.kind = k

/-! ### One item -/

section

variable {digest : Digest} {top : DirId} {r r' : Receiver}

/-- Entry `n` of `d` is where item `i` lands its own. -/
inductive Receiver.Lays (r : Receiver) : Item → DirId → Name → Prop
  | sent {rc : Receiving} : r.receiving = some rc → Lays r .sent rc.fd.id rc.file.header.name
  | symlink {name : Name} {target : LinkTarget} {fd : Fd} : (r.spot name).1.fd = some fd →
      Lays r (.symlink name target) fd.id (r.spot name).2
  | dir {name : Name} {mode : Mode} {mtime : Option Time} {fd : Fd} : (r.spot name).1.fd = some fd →
      Lays r (.dir name mode mtime) fd.id (r.spot name).2
  | contents {name : Name} {mode : Mode} {mtime : Option Time} {fd : Fd} : r.named = some name →
      r.top.fd = some fd → Lays r (.contents mode mtime) fd.id name

theorem kind_of_same {e e' : Entry} (h : SameBytes (some e) (some e')) : e'.kind = e.kind := by
  rcases h with heq | ⟨bytes, mode, mtime, mode', mtime', he, he'⟩
  · rw [Option.some_inj.mp heq]
  · cases he
    cases he'
    rfl

/-- What item `i` neither takes away nor lands on stays what it is. -/
def Unchanged (r r' : Receiver) (i : Item) (d : DirId) (n : Name) (e : Entry) : Prop :=
  (∃ e', r'.disk.entry d n = some e' ∧ e'.kind = e.kind) ∨ r.Lays i d n ∧ e.sub = none

/-- Entering a directory leaves other entries. -/
theorem EnteredIn.unchanged {parent : Dir} {name : Name} {dry : Bool} {fd : Option Fd}
    {disk disk' : Disk} (h : EnteredIn parent name dry disk disk' fd) {d : DirId} {n : Name}
    {e : Entry} (he : disk.entry d n = some e) :
    (∃ e', disk'.entry d n = some e' ∧ e'.kind = e.kind) ∨
      (∃ p, parent.fd = some p ∧ d = p.id ∧ n = name) ∧ e.sub = none := by
  have halike : disk.Alike disk' → ∃ e', disk'.entry d n = some e' ∧ e'.kind = e.kind := fun h =>
    ⟨e, by rw [h.entry, he], rfl⟩
  unfold EnteredIn at h
  cases hfd : parent.fd with
  | none =>
    rw [hfd] at h
    exact .inl (halike h.1)
  | some p =>
    rw [hfd] at h
    cases dry with
    | true => exact .inl (halike h.1)
    | false =>
      simp only [Bool.false_eq_true, if_false] at h
      obtain ⟨f, -, hentered⟩ := h
      cases hentered with
      | there _ h => exact .inl (halike h)
      | made hno _ hentry _ =>
        by_cases hm : d = p.id ∧ n = name
        · obtain ⟨rfl, rfl⟩ := hm
          exact .inr ⟨⟨p, rfl, rfl, rfl⟩, NoDir.sub hno e he⟩
        · exact .inl ⟨e, by rw [hentry, setAt_ne _ hm, he], rfl⟩

/-- Laying a link leaves other entries. -/
theorem Linked.unchanged {fd : Fd} {name : Name} {target : LinkTarget} {e : Entry} {d : DirId} {n : Name}
    (h : Linked digest r.disk r'.disk fd.id (r.spot name).2 target)
    (hfd : (r.spot name).1.fd = some fd) (hdry : r.opts.dryRun = false)
    (he : r.disk.entry d n = some e) (hlose : ¬ r.Loses digest (.symlink name target) d n) :
    Unchanged r r' (.symlink name target) d n e := by
  cases h with
  | there _ halike => exact .inl ⟨e, by rw [halike.entry, he], rfl⟩
  | made hnone hsets =>
    refine .inl ⟨e, ?_, rfl⟩
    rw [hsets.entry, setAt_ne, he]
    rintro ⟨rfl, rfl⟩
    rw [hnone] at he
    cases he
  | replaced mid hsome hno hother hwent _ hsets =>
    by_cases hm : d = fd.id ∧ n = (r.spot name).2
    · obtain ⟨rfl, rfl⟩ := hm
      exact .inr ⟨.symlink hfd, hno.sub e he⟩
    · refine .inl ⟨e, ?_, rfl⟩
      rw [hsets.entry, setAt_ne _ hm]
      rcases hwent.entry d n with heq | ⟨hunder, -⟩
      · rw [heq, he]
      · obtain ⟨e', he'⟩ := Option.isSome_iff_exists.mp hsome
        exact absurd (.linked hdry hfd he' (fun hsame => hother (hsame ▸ he')) hunder) hlose

/-- An item leaves what it does not lose. -/
theorem Does.unchanged {i : Item} {h : Heard} (hr : Rooted digest top r) (hdoes : Does digest r r' i h)
    {d : DirId} {n : Name} {e : Entry} (he : r.disk.entry d n = some e)
    (hlose : ¬ r.Loses digest i d n) : Unchanged r r' i d n e := by
  have hsame : r'.disk.entry = r.disk.entry → Unchanged r r' i d n e := fun heq =>
    .inl ⟨e, by rw [heq, he], rfl⟩
  cases hdoes with
  | allDone _ _ _ heq => exact hsame (by rw [heq])
  | @dirEnd dir seen more _ hopened _ hnone hpruned =>
    cases seen with
    | none => exact hsame (hnone rfl).entry
    | some names =>
      have hp := hpruned names rfl
      cases hdry : r.opts.dryRun with
      | true => exact hsame (hp.dry hdry).entry
      | false =>
        rcases hp.entry d n with heq | ⟨-, fd, m, hfd, hprunes, hunder⟩
        · exact .inl ⟨e, by rw [heq, he], rfl⟩
        · exact absurd (.pruned hdry hopened hprunes hfd hunder) hlose
  | skipped _ _ _ hdisk => exact hsame (by rw [hdisk])
  | @data id start p fd old mode mtime _ _ _ _ _ hold hsets =>
    by_cases hm : d = fd.id ∧ n = partName digest p.header.name
    · obtain ⟨rfl, rfl⟩ := hm
      refine .inl ⟨_, by rw [hsets.entry, setAt_self], ?_⟩
      rw [he] at hold
      cases e <;> first | rfl | cases hold
    · exact .inl ⟨e, by rw [hsets.entry, setAt_ne _ hm, he], rfl⟩
  | differs _ _ _ _ hdisk => exact hsame (by rw [hdisk])
  | same _ _ _ _ hbytes _ _ =>
    have h := hbytes d n
    rw [he] at h
    cases he' : r'.disk.entry d n with
    | none => rcases h with heq | ⟨_, _, _, _, _, -, heq⟩ <;> rw [he'] at heq <;> cases heq
    | some e' => exact .inl ⟨e', he', kind_of_same (he' ▸ h)⟩
  | contents _ _ _ _ _ _ hdisk => exact hsame (by rw [hdisk])
  | contentsNamed _ _ hnamed _ _ _ hentered =>
    rcases hentered.unchanged he with h | ⟨⟨p, hp, rfl, rfl⟩, hsub⟩
    · exact .inl h
    · exact .inr ⟨.contents hnamed hp, hsub⟩
  | dir _ _ _ hentered =>
    rcases hentered.unchanged he with h | ⟨⟨p, hp, rfl, rfl⟩, hsub⟩
    · exact .inl h
    · exact .inr ⟨.dir hp, hsub⟩
  | file _ _ _ _ _ _ hdisk _ _ => exact hsame (by rw [hdisk])
  | symlink _ _ hdry hlinked =>
    cases hd : r.opts.dryRun with
    | true => exact hsame (hdry hd).entry
    | false =>
      obtain ⟨fd, hfd, hl⟩ := hlinked hd
      exact hl.unchanged hfd hd he hlose
  | @chunk rc c hrc _ hsets =>
    obtain ⟨bytes, mode, mtime, hold, hset⟩ := hsets _ _ (hr.receiving rc hrc).2
    by_cases hm : d = rc.fd.id ∧ n = partName digest rc.file.header.name
    · obtain ⟨rfl, rfl⟩ := hm
      rw [hold] at he
      cases he
      exact .inl ⟨.file (overwritten rc.offset c.bytes bytes) mode none,
        by rw [hset.entry, setAt_self], rfl⟩
    · exact .inl ⟨e, by rw [hset.entry, setAt_ne _ hm, he], rfl⟩
  | @sent rc hrc _ _ hentry =>
    obtain ⟨e₀, e', -, -, -, hname, hset⟩ := hentry (hr.receiving rc hrc).2
    by_cases hm : d = rc.fd.id ∧ n = rc.file.header.name
    · obtain ⟨rfl, rfl⟩ := hm
      exact .inr ⟨.sent hrc, hname.sub e he⟩
    · refine .inl ⟨e, ?_, rfl⟩
      rw [hset, setAt_ne _ hm, setAt_ne, he]
      rintro ⟨rfl, rfl⟩
      exact hlose (.part hrc fun h => hm ⟨rfl, h⟩)

/-- Where an item lands its own is at the path it says. -/
theorem Rooted.lands_of_lays (hr : Rooted digest top r) {i : Item} {d : DirId} {n : Name} {q : Path}
    (hlays : r.Lays i d n) (hq : r.disk.reach top q = some d) :
    ∃ k, r.lands i = some (q ++ [n], k) := by
  cases hlays with
  | @sent rc hrc =>
    have hheld := hr.held rc.file (by simp [Receiver.underWay, hrc])
    rw [(hheld rc.fd (hr.receiving rc hrc).1).2 q hq]
    exact ⟨.file, by rw [Receiver.lands, hrc]; rfl⟩
  | symlink hfd =>
    rw [hr.sound.once.reach_eq hq (hr.spotLocated _ _ hfd)]
    exact ⟨.link, rfl⟩
  | dir hfd =>
    rw [hr.sound.once.reach_eq hq (hr.spotLocated _ _ hfd)]
    exact ⟨.dir, rfl⟩
  | contents hnamed hfd =>
    rw [hr.sound.once.reach_eq hq (hr.topLocated _ hfd)]
    exact ⟨.dir, by simp [Receiver.lands, Receiver.sends, hnamed]⟩

end

/-! ### A run -/

def History.Reaches (g : History) (dir : Dir) : Prop := dir.rel = [] ∨ (dir.rel, .dir) ∈ g.landed

/-- What holds of a run so far: what landed is there, what was sent landed or is
under way, into directories that landed. -/
structure Kept (digest : Digest) (top : DirId) (g : History) (r : Receiver) : Prop where
  landed : ∀ e ∈ g.landed, r.disk.Has top e.1 e.2
  sent : ∀ e ∈ g.sent, e ∈ g.landed ∨
    ∃ p ∈ r.underWay, e = (p.dir.rel ++ [p.header.name], .file)
  wet : r.opts.dryRun = false
  topFd : r.top.fd.isSome
  opened : ∀ dir ∈ r.opened.map Open.dir, dir.fd.isSome ∧ g.Reaches dir
  underWay : ∀ p ∈ r.underWay, p.dir.fd.isSome ∧ p.dir.Located r.disk top ∧ g.Reaches p.dir
  part : ∀ rc, r.receiving = some rc → ∃ bytes mode mtime,
    r.disk.entry rc.fd.id (partName digest rc.file.header.name) = some (.file bytes mode mtime)

section

variable {digest : Digest} {top : DirId} {g : History} {r r' : Receiver} {i : Item} {h : Heard}

/-- What was reached stays so. -/
theorem History.Reaches.note {dir : Dir} (hdir : g.Reaches dir) : (g.note r i).Reaches dir :=
  hdir.imp_right fun hmem => List.mem_append_left _ hmem

theorem Kept.spot (hk : Kept digest top g r) (hr : Rooted digest top r) (name : Name) :
    (r.spot name).1.fd.isSome ∧ g.Reaches (r.spot name).1 := by
  unfold Receiver.spot
  split
  · next o more hopened => exact hk.opened o.dir (by simp [hopened])
  · exact ⟨hk.topFd, .inl hr.topRel⟩

/-- The way to what landed is as it was. -/
theorem Keeping.reach (hkeep : Keeping digest g r i) (hr : Rooted digest top r)
    (hdoes : Does digest r r' i h) {q rest : Path} {k : Kind} {d : DirId}
    (hmem : (q ++ rest, k) ∈ g.landed) (hd : r.disk.reach top q = some d) :
    r'.disk.reach top q = some d := by
  refine (hdoes.treads hr).1.spared.reach hd fun d' n hon hlose => ?_
  obtain ⟨p, htakes, hpre⟩ := hr.takes_of_loses hlose hon
  exact hkeep.takes p htakes _ hmem (hpre.trans (List.prefix_append q rest))

/-- A directory that landed stays where it was. -/
theorem Keeping.located (hkeep : Keeping digest g r i) (hr : Rooted digest top r)
    (hdoes : Does digest r r' i h) {dir : Dir} (hdir : g.Reaches dir)
    (hloc : dir.Located r.disk top) : dir.Located r'.disk top := by
  intro fd hfd
  rcases hdir with hrel | hmem
  · have hid := hloc fd hfd
    rw [hrel] at hid ⊢
    exact hid
  · have hmem' : (dir.rel ++ [], Kind.dir) ∈ g.landed := by simpa using hmem
    exact hkeep.reach hr hdoes hmem' (hloc fd hfd)

theorem Disk.Has.of_entry {disk : Disk} {q : Path} {n : Name} {d : DirId} {e : Entry}
    (hd : disk.reach top q = some d) (he : disk.entry d n = some e) :
    disk.Has top (q ++ [n]) e.kind :=
  ⟨q, n, d, e, rfl, hd, he, rfl⟩

/-- An opened directory is there. -/
theorem Disk.Has.of_located {disk : Disk} {dir parent : Dir} {name : Name}
    (hloc : dir.Located disk top) (hrel : dir.rel = parent.rel ++ [name]) (hfd : dir.fd.isSome) :
    disk.Has top (parent.rel ++ [name]) .dir := by
  obtain ⟨fd, hfd⟩ := Option.isSome_iff_exists.mp hfd
  have hreach := hloc fd hfd
  rw [hrel] at hreach
  obtain ⟨d, e, hd, he, hsub⟩ := reach_snoc_some.mp hreach
  rw [Entry.sub_eq_some] at hsub
  subst hsub
  exact .of_entry hd he

/-- What a symlink's item leaves is the symlink. -/
theorem Linked.entry {disk disk' : Disk} {d : DirId} {n : Name} {target : LinkTarget}
    (h : Linked digest disk disk' d n target) : disk'.entry d n = some (.link target.bytes) := by
  cases h with
  | there he halike => rw [halike.entry, he]
  | made _ hsets => rw [hsets.entry, setAt_self]
  | replaced _ _ _ _ _ _ hsets => rw [hsets.entry, setAt_self]

/-- What an item lands is there after it. -/
theorem Does.lands (hdoes : Does digest r r' i h) (hr : Rooted digest top r)
    (hk : Kept digest top g r) (hkeep : Keeping digest g r i) {e : Path × Kind}
    (he : r.lands i = some e) : r'.disk.Has top e.1 e.2 := by
  have hdoes' := hdoes
  cases hdoes with
  | allDone | dirEnd | skipped | data | differs | contents | file | chunk =>
    simp_all [Receiver.lands, Receiver.sends]
  | @same id p _ hfind _ _ hbytes _ hwet =>
    rw [Receiver.lands, hfind] at he
    cases he
    obtain ⟨fd, hfd, hsome⟩ := hwet hk.wet
    obtain ⟨e, he⟩ := Option.isSome_iff_exists.mp hsome
    have hkind := hkeep.same id p fd e rfl hfind hfd he
    obtain ⟨-, hloc, hdir⟩ := hk.underWay p (by simp [Receiver.underWay, (mem_of_find hfind).1])
    have hreach := hkeep.located hr hdoes' hdir hloc fd hfd
    have hb := hbytes fd.id p.header.name
    rw [he] at hb
    cases he' : r'.disk.entry fd.id p.header.name with
    | none => rcases hb with heq | ⟨_, _, _, _, _, -, heq⟩ <;> rw [he'] at heq <;> cases heq
    | some e' =>
      have hkind' : e'.kind = .file := (kind_of_same (he' ▸ hb)).trans hkind
      exact hkind' ▸ .of_entry hreach he'
  | @contentsNamed mode mtime name dir _ _ hnamed _ hrel _ hentered =>
    simp only [Receiver.lands, Receiver.sends, hnamed, Option.map_some, Option.some_inj] at he
    subst he
    rw [hk.wet] at hentered
    exact .of_located (hentered.treads hr.sound hr.topLocated hrel).2.2 hrel
      (hentered.isSome hk.topFd)
  | @dir name mode mtime dir _ hrel _ hentered =>
    simp only [Receiver.lands, Receiver.sends, Option.some_inj] at he
    subst he
    rw [hk.wet] at hentered
    exact .of_located (hentered.treads hr.sound (hr.spotLocated name) hrel).2.2 hrel
      (hentered.isSome (hk.spot hr name).1)
  | @symlink name target _ _ _ hlinked =>
    simp only [Receiver.lands, Receiver.sends, Option.some_inj] at he
    subst he
    obtain ⟨fd, hfd, hl⟩ := hlinked hk.wet
    have hreach := hkeep.located hr hdoes' (hk.spot hr name).2 (hr.spotLocated name) fd hfd
    exact .of_entry hreach hl.entry
  | @sent rc hrc _ _ hentry =>
    rw [Receiver.lands, hrc] at he
    cases he
    obtain ⟨hfd, hpart⟩ := hr.receiving rc hrc
    obtain ⟨e, e', he, hsame, -, -, hset⟩ := hentry hpart
    obtain ⟨bytes, mode, mtime, hfile⟩ := hk.part rc hrc
    obtain ⟨-, hloc, hdir⟩ := hk.underWay rc.file (by simp [Receiver.underWay, hrc])
    have hreach := hkeep.located hr hdoes' hdir hloc rc.fd hfd
    rw [hfile] at he
    cases he
    have hkind : e'.kind = .file := kind_of_same hsame
    exact hkind ▸ .of_entry hreach (by rw [hset, setAt_self])

/-- What landed is there after an item that keeps it. -/
theorem Does.landed (hdoes : Does digest r r' i h) (hr : Rooted digest top r)
    (hk : Kept digest top g r) (hkeep : Keeping digest g r i) :
    ∀ e ∈ (g.note r i).landed, r'.disk.Has top e.1 e.2 := by
  intro e he
  rcases List.mem_append.mp he with hold | hnew
  · obtain ⟨q, n, d, e₀, hpath, hd, he₀, hkind⟩ := hk.landed e hold
    have hmem : (q ++ [n], e.2) ∈ g.landed := by
      rw [← hpath]
      exact hold
    have hd' := hkeep.reach hr hdoes hmem hd
    have hno : ¬ r.Loses digest i d n := by
      intro hlose
      obtain ⟨p, htakes, hpre⟩ := hr.takes_of_loses hlose ⟨q, [], rfl, hd⟩
      exact hkeep.takes p htakes _ hmem hpre
    rcases hdoes.unchanged hr he₀ hno with ⟨e', he', hkind'⟩ | ⟨hlays, -⟩
    · exact ⟨q, n, d, e', hpath, hd', he', hkind'.trans hkind⟩
    · obtain ⟨k, hlands⟩ := hr.lands_of_lays hlays hd
      have hsame := hkeep.kinds _ hlands e hold hpath
      rw [hpath, hsame]
      exact hdoes.lands hr hk hkeep hlands
  · exact hdoes.lands hr hk hkeep (Option.mem_toList.mp hnew)

/-- What was under way is after an item, or landed by it. -/
theorem Does.underWay (hdoes : Does digest r r' i h) (hr : Rooted digest top r)
    (hwet : r.opts.dryRun = false) {p : Pending} (hp : p ∈ r.underWay) :
    p ∈ r'.underWay ∨ r.lands i = some (p.dir.rel ++ [p.header.name], .file) := by
  have hstill : r'.pending = r.pending → r'.receiving = r.receiving → p ∈ r'.underWay :=
    fun hpending hreceiving => by rwa [Receiver.underWay, hpending, hreceiving]
  have htaken : ∀ {id : FileId} {p' : Pending}, r.receiving = none →
      r.pending.find? (·.header.id = id) = some p' →
      p ∈ r.pending.filter (·.header.id ≠ id) ∨ p = p' := by
    intro id p' hrc hfind
    obtain ⟨hmem', hid⟩ := mem_of_find hfind
    have hmem : p ∈ r.pending := by simpa [Receiver.underWay, hrc] using hp
    by_cases hsame : p.header.id = id
    · exact .inr (List.inj_on_of_nodup_map hr.ids hmem hmem' (hsame.trans hid.symm))
    · exact .inl (List.mem_filter.mpr ⟨hmem, by simpa using hsame⟩)
  cases hdoes with
  | allDone _ _ _ heq => exact .inl (heq ▸ hp)
  | dirEnd _ _ h _ _ => exact .inl (hstill h.pending h.receiving)
  | skipped _ _ h _ => exact .inl (hstill h.pending h.receiving)
  | data hrc _ hfind _ h _ _ =>
    left
    rw [Receiver.underWay, h.pending, h.receiving]
    rcases htaken hrc hfind with hmem | rfl
    · exact List.mem_append_left _ hmem
    · simp
  | differs _ hdry _ _ _ =>
    rw [hwet] at hdry
    cases hdry
  | same hrc hfind h _ _ _ _ =>
    rcases htaken hrc hfind with hmem | rfl
    · left
      rw [Receiver.underWay, h.pending]
      exact List.mem_append_left _ hmem
    · right
      rw [Receiver.lands, hfind]
      rfl
  | contents _ _ _ _ _ h _ => exact .inl (hstill h.pending h.receiving)
  | contentsNamed _ _ _ _ _ h _ => exact .inl (hstill h.pending h.receiving)
  | dir _ _ h _ =>
    exact .inl (hstill (by simpa using h.pending) (by simpa using h.receiving))
  | file hrc _ _ _ _ h _ _ _ =>
    left
    have hpending := h.pending
    have hmem : p ∈ r.pending := by simpa [Receiver.underWay, hrc] using hp
    rw [Receiver.underWay, hpending]
    exact List.mem_append_left _ (List.mem_append_left _ hmem)
  | symlink _ h _ _ =>
    exact .inl (hstill (by simpa using h.pending) (by simpa using h.receiving))
  | @chunk rc c hrc h _ =>
    left
    rw [Receiver.underWay, h.pending, h.receiving]
    simpa [Receiver.underWay, hrc] using hp
  | @sent rc hrc h _ _ =>
    rw [Receiver.underWay, hrc] at hp
    rcases List.mem_append.mp hp with hmem | hmem
    · left
      rw [Receiver.underWay, h.pending]
      exact List.mem_append_left _ hmem
    · right
      obtain rfl : p = rc.file := by simpa using hmem
      rw [Receiver.lands, hrc]
      rfl

/-- What is under way after an item was, or is what the item's header says. -/
theorem Does.underWay_of (hdoes : Does digest r r' i h) {p : Pending} (hp : p ∈ r'.underWay) :
    p ∈ r.underWay ∨ ∃ header, i = .file header ∧ p.dir = (r.spot header.name).1 ∧
      p.header.name = (r.spot header.name).2 := by
  have hstill : r'.pending = r.pending → r'.receiving = r.receiving → p ∈ r.underWay :=
    fun hpending hreceiving => by rwa [Receiver.underWay, hpending, hreceiving] at hp
  have htaken : ∀ {id : FileId} {receiving : Option Receiving},
      r'.pending = r.pending.filter (·.header.id ≠ id) → r'.receiving = receiving →
      (∀ rc, receiving = some rc → rc.file ∈ r.pending) → p ∈ r.underWay := by
    intro id receiving hpending hreceiving hrc
    refine List.mem_append_left _ ?_
    rw [Receiver.underWay, hpending, hreceiving] at hp
    rcases List.mem_append.mp hp with hmem | hmem
    · exact (List.mem_filter.mp hmem).1
    · obtain ⟨rc, hsome, rfl⟩ : ∃ rc, receiving = some rc ∧ rc.file = p := by simpa using hmem
      exact hrc rc hsome
  cases hdoes with
  | allDone _ _ _ heq => exact .inl (heq ▸ hp)
  | dirEnd _ _ h _ _ => exact .inl (hstill h.pending h.receiving)
  | skipped _ _ h _ => exact .inl (hstill h.pending h.receiving)
  | data hrc _ hfind _ h _ _ =>
    refine .inl (htaken h.pending h.receiving ?_)
    rintro _ ⟨⟩
    exact (mem_of_find hfind).1
  | differs hrc _ _ h _ => exact .inl (htaken h.pending h.receiving (by simp [hrc]))
  | same hrc _ h _ _ _ _ => exact .inl (htaken h.pending h.receiving (by simp [hrc]))
  | contents _ _ _ _ _ h _ => exact .inl (hstill h.pending h.receiving)
  | contentsNamed _ _ _ _ _ h _ => exact .inl (hstill h.pending h.receiving)
  | dir _ _ h _ =>
    exact .inl (hstill (by simpa using h.pending) (by simpa using h.receiving))
  | @file header answer p' hrc _ _ hdir hheader h _ _ _ =>
    have hpending : r'.pending = r.pending ++ [p'] := by simpa using h.pending
    have hreceiving : r'.receiving = none := by simpa [hrc] using h.receiving
    rw [Receiver.underWay, hpending, hreceiving] at hp
    simp only [Option.map_none, Option.toList_none, List.append_nil, List.mem_append,
      List.mem_singleton] at hp
    rcases hp with hmem | rfl
    · exact .inl (List.mem_append_left _ hmem)
    · exact .inr ⟨header, rfl, hdir, by rw [hheader]⟩
  | symlink _ h _ _ =>
    exact .inl (hstill (by simpa using h.pending) (by simpa using h.receiving))
  | chunk hrc h _ =>
    left
    rw [Receiver.underWay, h.pending, h.receiving] at hp
    simpa [Receiver.underWay, hrc] using hp
  | sent hrc h _ _ =>
    left
    rw [Receiver.underWay, h.pending, h.receiving] at hp
    refine List.mem_append_left _ (by simpa using hp)

/-- What is open after an item was, or is the top itself, or landed by it. -/
theorem Does.opened_of (hdoes : Does digest r r' i h) (hwet : r.opts.dryRun = false)
    (htop : r.top.fd.isSome) (hspot : ∀ name, (r.spot name).1.fd.isSome) {dir : Dir}
    (hdir : dir ∈ r'.opened.map Open.dir) :
    dir ∈ r.opened.map Open.dir ∨
      dir.fd.isSome ∧ (dir.rel = [] ∨ r.lands i = some (dir.rel, .dir)) := by
  have hstill : ∀ {opened : List Open}, r'.opened = opened →
      opened.map Open.dir = r.opened.map Open.dir → dir ∈ r.opened.map Open.dir :=
    fun heq hdirs => hdirs ▸ heq ▸ hdir
  cases hdoes with
  | allDone _ _ _ heq => exact .inl (heq ▸ hdir)
  | dirEnd _ hopened h _ _ =>
    left
    rw [h.opened] at hdir
    rw [hopened]
    exact List.mem_cons_of_mem _ hdir
  | skipped _ _ h _ => exact .inl (hstill h.opened (sawIn_dirs _ _))
  | data _ _ _ _ h _ _ => exact .inl (hstill h.opened rfl)
  | differs _ _ _ h _ => exact .inl (hstill h.opened rfl)
  | same _ _ h _ _ _ _ => exact .inl (hstill h.opened rfl)
  | contents _ _ _ hfd hrel h _ =>
    right
    rw [h.opened] at hdir
    obtain rfl : dir = _ := by simpa using hdir
    exact ⟨hfd ▸ htop, .inl hrel⟩
  | contentsNamed _ _ hnamed _ hrel h hentered =>
    right
    rw [h.opened] at hdir
    obtain rfl : dir = _ := by simpa using hdir
    rw [hwet] at hentered
    exact ⟨hentered.isSome htop, .inr (by simp [Receiver.lands, Receiver.sends, hnamed, hrel])⟩
  | dir _ hrel h hentered =>
    rw [h.opened] at hdir
    rcases List.mem_cons.mp hdir with rfl | hmem
    · right
      rw [hwet] at hentered
      exact ⟨hentered.isSome (hspot _),
        .inr (by simp [Receiver.lands, Receiver.sends, Receiver.spotPath, hrel])⟩
    · rw [sawIn_dirs] at hmem
      exact .inl hmem
  | @file header answer p _ _ _ _ _ h _ _ _ =>
    refine .inl (hstill h.opened ?_)
    cases answer <;> simp [sawFor]
  | symlink _ h _ _ => exact .inl (hstill h.opened (sawIn_dirs _ _))
  | chunk _ h _ => exact .inl (hstill h.opened rfl)
  | sent _ h _ _ => exact .inl (hstill h.opened rfl)

/-- What an item sends lands, or is a file under way. -/
theorem Does.sends (hdoes : Does digest r r' i h) {e : Path × Kind} (he : r.sends i = some e) :
    r.lands i = some e ∨ ∃ p ∈ r'.underWay, e = (p.dir.rel ++ [p.header.name], .file) := by
  cases hdoes with
  | @file header answer p _ _ _ hdir hheader h _ _ _ =>
    right
    have hpending : r'.pending = r.pending ++ [p] := by simpa using h.pending
    refine ⟨p, by simp [Receiver.underWay, hpending], ?_⟩
    simp only [Receiver.sends, Option.some_inj] at he
    rw [← he, hdir, hheader]
    rfl
  | allDone | dirEnd | skipped | data | differs | same | contents | contentsNamed | dir | symlink
  | chunk | sent => first | exact .inl he | cases he

/-- A file that is received is a file. -/
theorem Does.part (hdoes : Does digest r r' i h) (hr : Rooted digest top r) :
    ∀ rc, r'.receiving = some rc → ∃ bytes mode mtime,
      r'.disk.entry rc.fd.id (partName digest rc.file.header.name) =
        some (.file bytes mode mtime) := by
  intro rc' hrc'
  cases hdoes with
  | data _ _ _ _ h _ hsets =>
    rw [h.receiving] at hrc'
    cases hrc'
    exact ⟨_, _, _, by rw [hsets.entry, setAt_self]⟩
  | @chunk rc c hrc h hsets =>
    rw [h.receiving] at hrc'
    cases hrc'
    obtain ⟨bytes, mode, mtime, -, hset⟩ := hsets _ _ (hr.receiving rc hrc).2
    exact ⟨_, _, _, by rw [hset.entry, setAt_self]⟩
  | allDone hrc _ _ heq =>
    rw [heq, hrc] at hrc'
    cases hrc'
  | dirEnd hrc _ h _ _ | skipped hrc _ h _ | differs hrc _ _ h _ | same hrc _ h _ _ _ _
  | contents hrc _ _ _ _ h _ | contentsNamed hrc _ _ _ _ h _ =>
    rw [h.receiving] at hrc'
    rw [hrc] at hrc'
    cases hrc'
  | dir hrc _ h _ | file hrc _ _ _ _ h _ _ _ | symlink hrc h _ _ =>
    have hnone := h.receiving
    rw [hrc'] at hnone
    simp [hrc] at hnone
  | sent hrc h _ _ =>
    rw [h.receiving] at hrc'
    cases hrc'

/-- What holds of a run so far holds after an item that keeps what landed. -/
theorem Does.kept (hdoes : Does digest r r' i h) (hr : Rooted digest top r)
    (hk : Kept digest top g r) (hkeep : Keeping digest g r i) :
    Kept digest top (g.note r i) r' where
  landed := hdoes.landed hr hk hkeep
  sent := by
    intro e he
    rcases List.mem_append.mp he with hold | hnew
    · rcases hk.sent e hold with hl | ⟨p, hp, rfl⟩
      · exact .inl (List.mem_append_left _ hl)
      · rcases hdoes.underWay hr hk.wet hp with hp' | hlands
        · exact .inr ⟨p, hp', rfl⟩
        · exact .inl (List.mem_append_right _ (by simp [hlands]))
    · rcases hdoes.sends (Option.mem_toList.mp hnew) with hlands | hunder
      · exact .inl (List.mem_append_right _ (by simp [hlands]))
      · exact .inr hunder
  wet := hdoes.fixed.1 ▸ hk.wet
  topFd := hdoes.fixed.2.1 ▸ hk.topFd
  opened := by
    intro dir hdir
    rcases hdoes.opened_of hk.wet hk.topFd (fun name => (hk.spot hr name).1) hdir with
      hold | ⟨hfd, hrel | hlands⟩
    · exact (hk.opened dir hold).imp_right History.Reaches.note
    · exact ⟨hfd, .inl hrel⟩
    · exact ⟨hfd, .inr (List.mem_append_right _ (by simp [hlands]))⟩
  underWay := by
    intro p hp
    rcases hdoes.underWay_of hp with hold | ⟨header, rfl, hdir, -⟩
    · obtain ⟨hfd, hloc, hreaches⟩ := hk.underWay p hold
      exact ⟨hfd, hkeep.located hr hdoes hreaches hloc, hreaches.note⟩
    · obtain ⟨hfd, hreaches⟩ := hk.spot hr header.name
      rw [hdir]
      exact ⟨hfd, hkeep.located hr hdoes hreaches (hr.spotLocated _), hreaches.note⟩
  part := hdoes.part hr

/-- **What was sent is there** when a run ends well, whatever items came, if each
item takes away nothing that landed and puts no other kind of entry in its place. -/
theorem sent_stands {disk : Disk} {target : Target} {opts : Opts} {items : List Item}
    (hs : disk.Sound top) (htarget : target.dir = some top) (hwet : opts.dryRun = false)
    (hkeep : Along digest History.note (Keeping digest) ⟨[], []⟩ (.start ⟨disk, []⟩ target opts) items)
    (hfeed : Receiver.feed digest items (.start ⟨disk, []⟩ target opts) = .ok h r') :
    ∀ e ∈ (noted digest History.note ⟨[], []⟩ (.start ⟨disk, []⟩ target opts) items).sent,
      r'.disk.Has top e.1 e.2 := by
  have hroot : Rooted digest top (.start ⟨disk, []⟩ target opts) :=
    start_rooted hs fun id hid => by
      rw [htarget] at hid
      exact (Option.some_inj.mp hid).symm
  have hstart : Kept digest top ⟨[], []⟩ (.start ⟨disk, []⟩ target opts) :=
    ⟨by simp, by simp, hwet, by simp [Receiver.start, htarget], by simp [Receiver.start],
      by simp [Receiver.start, Receiver.underWay], by simp [Receiver.start]⟩
  obtain ⟨hk, -, -, hpending, hreceiving⟩ := feed_invariant (Kept digest top)
    (fun g r i h r' hr hk hkeep hdoes => hdoes.kept hr hk hkeep) hroot hstart hkeep hfeed
  intro e he
  rcases hk.sent e he with hl | ⟨p, hp, -⟩
  · exact hk.landed e hl
  · simp [Receiver.underWay, hpending, hreceiving] at hp

end

/-! ### A run that keeps what it sent, and one that does not -/

def bareDisk : Disk := .listed [[]]

theorem bareDisk_sound : bareDisk.Sound 0 :=
  Disk.listed_sound (by decide) (by decide) (by decide) (by decide)

def deleteOpts : Opts := ⟨false, true, false, ⟨[], by decide⟩⟩

def oneItems : List Item :=
  [.contents .dirDefault none, .dir (.letter 0x78) .dirDefault none, .dirEnd, .dirEnd, .allDone]

set_option synthInstance.maxSize 1000 in
/-- What is in one directory is sent: `x` is there at the end. -/
theorem sent_stands_one : ∃ h r', Receiver.feed id oneItems
      (.start ⟨bareDisk, []⟩ (.into (some 0)) deleteOpts) = .ok h r' ∧
    r'.disk.Has 0 [.letter 0x78] .dir := by
  have hends : endsAs id (fun _ => ()) (.start ⟨bareDisk, []⟩ (.into (some 0)) deleteOpts)
      oneItems = some () := by decide +kernel
  obtain ⟨h, r', hfeed, -⟩ := feed_of_endsAs id hends
  let view : History × Receiver × Item → Item × List (Path × Kind) × List (Path × Option (List Name)) :=
    fun x => (x.2.2, x.1.landed, x.2.1.opened.map fun o => (o.dir.rel, o.seen))
  have hview : (passed id History.note ⟨[], []⟩ (.start ⟨bareDisk, []⟩ (.into (some 0)) deleteOpts)
      oneItems).map view =
      [(.contents .dirDefault none, [], []),
        (.dir (.letter 0x78) .dirDefault none, [], [([], some [])]),
        (.dirEnd, [([.letter 0x78], .dir)],
          [([.letter 0x78], some []), ([], some [.letter 0x78])]),
        (.dirEnd, [([.letter 0x78], .dir)], [([], some [.letter 0x78])]),
        (.allDone, [([.letter 0x78], .dir)], [])] := by
    decide +kernel
  have hkeep : Along id History.note (Keeping id) ⟨[], []⟩
      (.start ⟨bareDisk, []⟩ (.into (some 0)) deleteOpts) oneItems := by
    refine along_of_view view hview fun g r i hi => ?_
    simp only [view, List.mem_cons, Prod.mk.injEq, List.not_mem_nil, or_false] at hi
    rcases hi with ⟨rfl, hg, -⟩ | ⟨rfl, hg, -⟩ | ⟨rfl, hg, ho⟩ | ⟨rfl, hg, ho⟩ | ⟨rfl, -⟩
    · exact ⟨by simp [hg], by simp [hg], by rintro id p fd e ⟨⟩⟩
    · exact ⟨by simp [hg], by simp [hg], by rintro id p fd e ⟨⟩⟩
    · refine ⟨?_, by rintro e ⟨⟩, by rintro id p fd e ⟨⟩⟩
      rintro q (⟨-, hdir, -⟩ | _ | _) e he hpre
      rw [hdir, List.map_cons, List.cons.injEq, Prod.mk.injEq] at ho
      rw [hg, List.mem_singleton] at he
      rw [ho.1.1, he] at hpre
      exact absurd hpre.length_le (by simp)
    · refine ⟨?_, by rintro e ⟨⟩, by rintro id p fd e ⟨⟩⟩
      rintro q (⟨-, hdir, hprunes⟩ | _ | _) e he hpre
      rw [hdir, List.map_cons, List.cons.injEq, Prod.mk.injEq, Option.some_inj] at ho
      rw [hg, List.mem_singleton] at he
      rw [ho.1.1, he] at hpre
      have hname := List.cons_prefix_cons.mp hpre
      exact hprunes.2 (by simp [ho.1.2, hname.1])
    · exact ⟨by rintro q ⟨⟩, by rintro e ⟨⟩, by rintro id p fd e ⟨⟩⟩
  have hsent : (noted id History.note ⟨[], []⟩
      (.start ⟨bareDisk, []⟩ (.into (some 0)) deleteOpts) oneItems).sent =
        [([.letter 0x78], .dir)] := by decide +kernel
  exact ⟨h, r', hfeed, sent_stands bareDisk_sound rfl rfl hkeep hfeed ([.letter 0x78], .dir)
    (by rw [hsent]; exact List.mem_singleton_self _)⟩

/-- What is in `a`, the directory `x`, and what is in `b`, nothing, are sent into
one directory: `x` is pruned as `b` ends. -/
theorem merged_pruned : ∃ n, Net.Reachable (fun _ => 1) id (.start
      [.path [0x61, 0x2f, 0x2e] (.dir 0o755 none (.cons [0x78] (.dir 0o755 none .nil) .nil)),
        .path [0x62, 0x2f, 0x2e] (.dir 0o755 none .nil)] deleteOpts bareDisk (.into (some 0))) n ∧
    n.succeeded = true ∧ n.receiver.summary.dirs = 1 ∧
    ¬ ∃ k, n.receiver.disk.Has 0 [.letter 0x78] k := by
  have hrun : ((Net.start
      [.path [0x61, 0x2f, 0x2e] (.dir 0o755 none (.cons [0x78] (.dir 0o755 none .nil) .nil)),
        .path [0x62, 0x2f, 0x2e] (.dir 0o755 none .nil)] deleteOpts bareDisk
      (.into (some 0))).run (fun _ => 1) id (List.replicate 9 (.send false 0) ++ [.take] ++
        List.replicate 7 .receive)).map
      (fun n => (n.succeeded, n.receiver.summary.dirs, n.receiver.disk.entry 0 (.letter 0x78))) =
        some (true, 1, none) := by decide +kernel
  obtain ⟨n, hn, heq⟩ := Option.map_eq_some_iff.mp hrun
  simp only [Prod.mk.injEq] at heq
  obtain ⟨hok, hdirs, hnone⟩ := heq
  refine ⟨n, Net.reachable_of_run hn, hok, hdirs, ?_⟩
  rintro ⟨k, q, name, d, e, hq, hd, he, -⟩
  have hsplit : [] ++ [.letter 0x78] = q ++ [name] := hq
  obtain ⟨rfl, hname⟩ := List.append_inj' hsplit rfl
  cases hname
  cases hd
  cases hnone.symm.trans he

end Koh.Sync
