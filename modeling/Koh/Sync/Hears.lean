import Koh.Sync.Civil
import Koh.Sync.Script
import Koh.Sync.Runs

/-!
# A receiver with an honest sender

What an honest sender writes is in its place wherever the receiver has come to,
and leaves the receiver where the sender was once it was written.

## Main definitions

- `Hears`: a receiver is where a script is
- `Receiver.Wet`: all but a dry run has its directories

## Main results

- `Hears.ready`: the next item of the script is in its place
- `Hears.next`: once it is read, the receiver is where the script is then
-/

namespace Koh.Sync

/-- A file pending is the one whose header went. -/
def Meets (p : Pending) (h : Held) : Prop :=
  p.header = Sender.header h.1.id p.header.name h.1.file

/-- The file whose chunks come is the one whose bytes go. -/
def Receives : Option Receiving → Option (SourceFile × ℕ) → Prop
  | none, none => True
  | some rc, some (file, offset) =>
    rc.file.header = Sender.header rc.file.header.id rc.file.header.name file ∧ rc.offset = offset
  | _, _ => False

/-- The receiver is where the script is: it holds the same files, all answered. -/
structure Hears (r : Receiver) (s : Script) : Prop where
  pending : List.Forall₂ Meets r.pending s.held
  answered : ∀ h ∈ s.held, h.2.isSome
  receiving : Receives r.receiving s.reading
  goes : s.finished = false
  fits : Fits r.named.isSome r.opened.length r.placed s.todo

namespace Receiver

/-- All its directories have their descriptors, but in a dry run. -/
def Wet (r : Receiver) : Prop :=
  r.opts.dryRun = false → r.top.fd.isSome ∧ (∀ dir ∈ r.opened.map Open.dir, dir.fd.isSome) ∧
    ∀ p ∈ r.pending, p.dir.fd.isSome

/-- Every place has its directory. -/
theorem Wet.spot {r : Receiver} (h : r.Wet) (hdry : r.opts.dryRun = false) (name : Name) :
    (r.spot name).1.fd.isSome := by
  obtain ⟨htop, hopened, -⟩ := h hdry
  unfold Receiver.spot
  split
  · next o more ho => exact hopened o.dir (by simp [ho])
  · exact htop

end Receiver

variable {digest : Digest} {dry : Bool} {r r' : Receiver} {s s' : Script} {i : Item} {heard : Heard}

/-- The files that wait are those the script holds. -/
theorem Hears.ids (h : Hears r s) : r.pending.map (·.header.id) = s.held.map (·.1.id) := by
  have hids : ∀ {ps : List Pending} {held : List Held}, List.Forall₂ Meets ps held →
      ps.map (·.header.id) = held.map (·.1.id) := by
    intro ps held hmeets
    induction hmeets with
    | nil => rfl
    | cons hm _ ih =>
      rw [List.map_cons, List.map_cons, ih, hm]
      rfl
  exact hids h.pending

theorem Hears.length (h : Hears r s) : r.pending.length = s.held.length := h.pending.length_eq

/-- Between files none is received. -/
theorem Hears.between (h : Hears r s) (hbetween : s.Between) : r.receiving = none := by
  have hreceives := h.receiving
  rw [hbetween.1] at hreceives
  cases hrc : r.receiving with
  | none => rfl
  | some rc => simp [hrc, Receives] at hreceives

/-- Within a file it is the one that is sent. -/
theorem Hears.within (h : Hears r s) {file : SourceFile} {offset : ℕ}
    (hreading : s.reading = some (file, offset)) : ∃ rc, r.receiving = some rc ∧
      rc.file.header = Sender.header rc.file.header.id rc.file.header.name file ∧
      rc.offset = offset := by
  have hreceives := h.receiving
  rw [hreading] at hreceives
  cases hrc : r.receiving with
  | none => simp [hrc, Receives] at hreceives
  | some rc => exact ⟨rc, rfl, by simpa [hrc, Receives] using hreceives⟩

/-- The first file held is the first pending. -/
theorem Hears.first (h : Hears r s) (hs : s.Sound) {f : Awaiting} {a : Answer} {rest : List Held}
    (hheld : s.held = (f, some a) :: rest) : ∃ p ps, r.pending = p :: ps ∧
      r.pending.find? (·.header.id = f.id) = some p ∧
      r.pending.filter (·.header.id ≠ f.id) = ps ∧ Meets p (f, some a) ∧ List.Forall₂ Meets ps rest := by
  have hpending := h.pending
  have hids := h.ids
  have hnodup := hs.nodup
  rw [hheld] at hpending
  cases hp : r.pending with
  | nil => simp [hp] at hpending
  | cons p ps =>
    rw [hp, List.forall₂_cons] at hpending
    rw [← hids, hp, List.map_cons, List.nodup_cons] at hnodup
    have hid : p.header.id = f.id := by
      rw [hpending.1]
      rfl
    refine ⟨p, ps, rfl, by simp [hid], ?_, hpending⟩
    rw [List.filter_cons_of_neg (by simp [hid]), List.filter_eq_self]
    intro q hq
    rw [← hid, decide_eq_true_eq]
    rintro heq
    exact hnodup.1 (heq ▸ List.mem_map_of_mem hq)

/-- What comes at the top may. -/
theorem tops_of {named : Bool} (htops : Tops named r.opened.length r.placed) (h : r.named.isSome = named) :
    r.opened = [] → r.named.isSome → r.placed = 0 :=
  fun hopened hnamed => htops (by simp [hopened]) (h.symm.trans hnamed)

/-- The next item of the script is in its place. -/
theorem Hears.ready (h : Hears r s) (hs : s.Sound) (hwet : r.Wet) (hdry : r.opts.dryRun = dry)
    (hwrites : s.Writes digest dry i s') : r.Ready i := by
  have hfits := h.fits
  cases hwrites with
  | item hbetween htodo =>
    have hrc := h.between hbetween
    rw [htodo] at hfits
    cases i with
    | dir name mode mtime => exact ⟨hrc, tops_of hfits.1 rfl⟩
    | contents mode mtime =>
      exact ⟨hrc, List.length_eq_zero_iff.mp hfits.1, fun hnamed => hfits.2.1 hfits.1 hnamed⟩
    | dirEnd => exact ⟨hrc, List.ne_nil_of_length_pos hfits.1⟩
    | skipped name => exact ⟨hrc, List.ne_nil_of_length_pos hfits.1⟩
    | _ => exact hfits.elim
  | symlink hbetween htodo =>
    rw [htodo] at hfits
    exact ⟨h.between hbetween, tops_of hfits.1 rfl, fun hno => hwet.spot hno _⟩
  | header hbetween htodo hroom =>
    rw [htodo] at hfits
    refine ⟨h.between hbetween, tops_of hfits.1 rfl, h.length ▸ hroom, ?_⟩
    rw [h.ids]
    exact hs.next_fresh
  | same hbetween hheld hstart =>
    obtain ⟨p, ps, hp, hfind, -⟩ := h.first hs hheld
    exact ⟨h.between hbetween, p, hfind, fun hno => (hwet hno).2.2 p (by simp [hp])⟩
  | differs hbetween hyes hheld hstart =>
    obtain ⟨p, ps, -, hfind, -⟩ := h.first hs hheld
    exact ⟨h.between hbetween, hdry.trans hyes, by simp [hfind]⟩
  | data hbetween hno hheld hstart =>
    obtain ⟨p, ps, hp, hfind, -⟩ := h.first hs hheld
    have hwet' := hdry.trans hno
    exact ⟨h.between hbetween, hwet', p, hfind, (hwet hwet').2.2 p (by simp [hp])⟩
  | chunk hgoes hreading hread =>
    obtain ⟨rc, hrc, -⟩ := h.within hreading
    simp [Receiver.Ready, hrc]
  | sent hgoes hreading hread =>
    obtain ⟨rc, hrc, -⟩ := h.within hreading
    simp [Receiver.Ready, hrc]
  | allDone hbetween htodo hheld =>
    have hpending := h.pending
    rw [htodo] at hfits
    rw [hheld, List.forall₂_nil_right_iff] at hpending
    exact ⟨h.between hbetween, List.length_eq_zero_iff.mp hfits, hpending⟩
  | failed hbetween hkind => exact ⟨h.between hbetween, hkind⟩

/-! ### An item read -/

@[simp] theorem sawIn_length (name : Name) (opened : List Open) :
    (sawIn name opened).length = opened.length := by
  have hdirs := congrArg List.length (sawIn_dirs name opened)
  simpa only [List.length_map] using hdirs

@[simp] theorem sawFor_dirs (digest : Digest) (name : Name) (a : Answer) (opened : List Open) :
    (sawFor digest name a opened).map Open.dir = opened.map Open.dir := by
  cases a <;> simp [sawFor]

@[simp] theorem sawFor_length (digest : Digest) (name : Name) (a : Answer) (opened : List Open) :
    (sawFor digest name a opened).length = opened.length := by
  cases a <;> simp [sawFor]

@[simp] theorem stepped_placed : r.stepped.placed = topped r.opened.length r.placed := by
  unfold Receiver.stepped topped
  by_cases hopened : r.opened = []
  · simp [hopened]
  · simp [hopened]

/-- A receiver keeps its descriptors if what it opens, and what it has pending, has them. -/
theorem Receiver.Wet.of_still {base : Receiver} (h : r.Wet) (hstill : Still base r')
    (hopts : base.opts = r.opts) (htop : base.top = r.top)
    (hopened : r.opts.dryRun = false → ∀ dir ∈ base.opened.map Open.dir,
      dir ∈ r.opened.map Open.dir ∨ dir.fd.isSome)
    (hpending : r.opts.dryRun = false → ∀ p ∈ base.pending, p ∈ r.pending ∨ p.dir.fd.isSome) :
    r'.Wet := by
  intro hdry
  rw [hstill.opts, hopts] at hdry
  obtain ⟨htop', hopened', hpending'⟩ := h hdry
  rw [hstill.top, htop, hstill.opened, hstill.pending]
  exact ⟨htop', fun dir hdir => (hopened hdry dir hdir).elim (hopened' dir) id,
    fun p hp => (hpending hdry p hp).elim (hpending' p) id⟩

/-- An item keeps a receiver's descriptors. -/
theorem Does.wet (hdoes : Does digest r r' i heard) (h : r.Wet) : r'.Wet := by
  have hsame : ∀ {l : List Open}, l.map Open.dir = r.opened.map Open.dir → r.opts.dryRun = false →
      ∀ dir ∈ l.map Open.dir, dir ∈ r.opened.map Open.dir ∨ dir.fd.isSome :=
    fun heq _ dir hdir => .inl (heq ▸ hdir)
  have hall : ∀ {l : List Pending}, (∀ p ∈ l, p ∈ r.pending) → r.opts.dryRun = false →
      ∀ p ∈ l, p ∈ r.pending ∨ p.dir.fd.isSome := fun hsub _ p hp => .inl (hsub p hp)
  have hfilter : ∀ {id : FileId}, ∀ p ∈ r.pending.filter (·.header.id ≠ id), p ∈ r.pending :=
    fun p hp => (List.mem_filter.mp hp).1
  cases hdoes with
  | allDone hrc hopened hpending heq => exact heq ▸ h
  | dirEnd hrc hopened hstill =>
    refine h.of_still hstill rfl rfl (fun _ dir hdir => .inl ?_) (hall fun _ hp => hp)
    rw [hopened]
    exact List.mem_cons_of_mem _ hdir
  | skipped hrc hopened hstill =>
    exact h.of_still hstill rfl rfl (hsame (sawIn_dirs _ _)) (hall fun _ hp => hp)
  | data hrc hdry hfind hfd hstill =>
    exact h.of_still hstill rfl rfl (hsame rfl) (hall hfilter)
  | differs hrc hdry hfind hstill =>
    exact h.of_still hstill rfl rfl (hsame rfl) (hall hfilter)
  | same hrc hfind hstill => exact h.of_still hstill rfl rfl (hsame rfl) (hall hfilter)
  | contents hrc hopened hnamed hfd hrel hstill =>
    refine h.of_still hstill rfl rfl (fun hdry dir hdir => .inr ?_) (hall fun _ hp => hp)
    cases List.mem_singleton.mp hdir
    exact hfd ▸ (h hdry).1
  | contentsNamed hrc hopened hnamed hplaced hrel hstill hentered =>
    refine h.of_still hstill rfl rfl (fun hdry dir hdir => .inr ?_) (hall fun _ hp => hp)
    cases List.mem_singleton.mp hdir
    rw [hdry] at hentered
    exact hentered.isSome (h hdry).1
  | dir hrc hrel hstill hentered =>
    refine h.of_still hstill (by simp) (by simp) (fun hdry dir hdir => ?_) (hall fun _ hp => by simpa using hp)
    rw [List.map_cons, sawIn_dirs, List.mem_cons] at hdir
    rcases hdir with rfl | hdir
    · rw [hdry] at hentered
      exact .inr (hentered.isSome (h.spot hdry _))
    · exact .inl hdir
  | file hrc hlen hnew hdir hheader hstill =>
    refine h.of_still hstill (by simp) (by simp) (hsame ?_) fun hdry p hp => ?_
    · exact sawFor_dirs digest _ _ _
    · rcases List.mem_append.mp hp with hp | hp
      · exact .inl hp
      · rw [List.mem_singleton.mp hp, hdir]
        exact .inr (h.spot hdry _)
  | symlink hrc hstill =>
    exact h.of_still hstill (by simp) (by simp) (hsame (sawIn_dirs _ _)) (hall fun _ hp => by simpa using hp)
  | chunk hrc hstill => exact h.of_still hstill rfl rfl (hsame rfl) (hall fun _ hp => hp)
  | sent hrc hstill => exact h.of_still hstill rfl rfl (hsame rfl) (hall fun _ hp => hp)

/-- Where the receiver is once an item of the script was read. -/
def HearsNext (r' : Receiver) (s' : Script) (i : Item) : Heard → Prop
  | .nothing => Hears r' s'
  | .answer a => ∃ f, asked s'.held = some f ∧ a.id = f.id ∧ Hears r' (s'.answered a)
  | .over _ => i = .allDone ∧ s'.finished = true

/-- The first without an answer is the last of all. -/
theorem asked_last {held : List Held} {f : Awaiting} (h : ∀ x ∈ held, x.2.isSome) :
    asked (held ++ [(f, none)]) = some f := by
  have hnone : held.find? (·.2.isNone) = none := by
    rw [List.find?_eq_none]
    intro x hx
    have hsome := h x hx
    rw [Option.isSome_iff_ne_none] at hsome
    simpa using hsome
  simp [asked, List.find?_append, hnone]

/-- An item that changes no file under way. -/
theorem Hears.keeps (h : Hears r s) {base : Receiver} (hstill : Still base r')
    (hpending : base.pending = r.pending) (hreceiving : base.receiving = r.receiving)
    {todo : List Cmd} (hfits : Fits base.named.isSome base.opened.length base.placed todo) :
    Hears r' { s with todo := todo } where
  pending := by rw [hstill.pending, hpending]; exact h.pending
  answered := h.answered
  receiving := by rw [hstill.receiving, hreceiving]; exact h.receiving
  goes := h.goes
  fits := by rw [hstill.named, hstill.opened, hstill.placed]; exact hfits

/-- The first file held is done with. -/
theorem Hears.drops (h : Hears r s) {base : Receiver} (hstill : Still base r') {x : Held}
    {rest : List Held} (hheld : s.held = x :: rest) (hpending : List.Forall₂ Meets base.pending rest)
    {reading : Option (SourceFile × ℕ)} (hreceiving : Receives base.receiving reading)
    (hnamed : base.named = r.named) (hopened : base.opened = r.opened) (hplaced : base.placed = r.placed) :
    Hears r' { s with held := rest, reading := reading } where
  pending := by rw [hstill.pending]; exact hpending
  answered := fun y hy => h.answered y (hheld ▸ List.mem_cons_of_mem _ hy)
  receiving := by rw [hstill.receiving]; exact hreceiving
  goes := h.goes
  fits := by rw [hstill.named, hstill.opened, hstill.placed, hnamed, hopened, hplaced]; exact h.fits

/-- What chunks come is all that changes. -/
theorem Hears.reads (h : Hears r s) {receiving : Option Receiving} {reading : Option (SourceFile × ℕ)}
    (hstill : Still { r with receiving := receiving } r') (hreceiving : Receives receiving reading) :
    Hears r' { s with reading := reading } where
  pending := by rw [hstill.pending]; exact h.pending
  answered := h.answered
  receiving := by rw [hstill.receiving]; exact hreceiving
  goes := h.goes
  fits := by rw [hstill.named, hstill.opened, hstill.placed]; exact h.fits

/-- Once an item of the script is read, the receiver is where the script is then. -/
theorem Hears.next (h : Hears r s) (hs : s.Sound) (hwrites : s.Writes digest dry i s')
    (hdoes : Does digest r r' i heard) : HearsNext r' s' i heard := by
  have hfits := h.fits
  cases hwrites with
  | item hbetween htodo =>
    rw [htodo] at hfits
    cases hdoes with
    | dirEnd hrc hopened hstill =>
      obtain ⟨hpos, hrest⟩ := hfits
      refine h.keeps hstill rfl rfl ?_
      simpa [hopened] using hrest
    | skipped hrc hopened hstill =>
      refine h.keeps hstill rfl rfl ?_
      simpa using hfits.2
    | contents hrc hopened hnamed hfd hrel hstill =>
      refine h.keeps hstill rfl rfl ?_
      simpa [hnamed] using hfits.2.2
    | contentsNamed hrc hopened hnamed hplaced hrel hstill =>
      refine h.keeps hstill rfl rfl ?_
      simpa [hnamed] using hfits.2.2
    | dir hrc hrel hstill =>
      refine h.keeps hstill (by simp) (by simp) ?_
      simpa using hfits.2
    | _ => exact hfits.elim
  | symlink hbetween htodo =>
    rw [htodo] at hfits
    cases hdoes with
    | symlink hrc hstill =>
      refine h.keeps hstill (by simp) (by simp) ?_
      simpa using hfits.2
  | @header file name path rest hbetween htodo hroom =>
    rw [htodo] at hfits
    cases hdoes with
    | @file _ answer p hrc hlen hnew hdir hheader hstill hdisk hid =>
      have hasked := asked_last (f := ⟨s.next, file, path⟩) h.answered
      refine ⟨_, hasked, hid, ?_⟩
      have hfill : fill answer (s.held ++ [(⟨s.next, file, path⟩, none)]) =
          s.held ++ [(⟨s.next, file, path⟩, some answer)] := fill_split answer h.answered
      refine ⟨?_, ?_, ?_, h.goes, ?_⟩
      · rw [hstill.pending, Script.answered, hfill]
        refine List.rel_append h.pending (.cons ?_ .nil)
        rw [Meets, hheader]
        rfl
      · rw [Script.answered, hfill]
        intro x hx
        rcases List.mem_append.mp hx with hx | hx
        · exact h.answered x hx
        · rw [List.mem_singleton.mp hx]
          rfl
      · rw [hstill.receiving]
        simpa [Script.answered] using h.receiving
      · rw [hstill.named, hstill.opened, hstill.placed]
        simpa [Script.answered] using hfits.2
  | same hbetween hheld hstart =>
    obtain ⟨p, ps, hp, hfind, hfilter, -, hrest⟩ := h.first hs hheld
    cases hdoes with
    | same hrc hfind' hstill =>
      exact h.drops hstill hheld (hfilter ▸ hrest) h.receiving rfl rfl rfl
  | differs hbetween hyes hheld hstart =>
    obtain ⟨p, ps, hp, hfind, hfilter, -, hrest⟩ := h.first hs hheld
    cases hdoes with
    | differs hrc hdry hfind' hstill =>
      exact h.drops hstill hheld (hfilter ▸ hrest) h.receiving rfl rfl rfl
  | data hbetween hno hheld hstart =>
    obtain ⟨p, ps, hp, hfind, hfilter, hmeets, hrest⟩ := h.first hs hheld
    cases hdoes with
    | data hrc hdry hfind' hfd hstill =>
      cases hfind.symm.trans hfind'
      refine h.drops hstill hheld (hfilter ▸ hrest) ⟨?_, rfl⟩ rfl rfl rfl
      have hid : p.header.id = _ := congrArg FileHeader.id hmeets
      exact hid ▸ hmeets
  | chunk hgoes hreading hread =>
    obtain ⟨rc, hrc, hheader, hoffset⟩ := h.within hreading
    cases hdoes with
    | chunk hrc' hstill =>
      cases hrc.symm.trans hrc'
      exact h.reads hstill ⟨hheader, by rw [hoffset]⟩
  | sent hgoes hreading hread =>
    obtain ⟨rc, hrc, -⟩ := h.within hreading
    cases hdoes with
    | sent hrc' hstill => exact h.reads hstill trivial
  | allDone hbetween htodo hheld =>
    cases hdoes with
    | allDone => exact ⟨rfl, rfl⟩
  | failed hbetween hkind => cases hdoes

end Koh.Sync
