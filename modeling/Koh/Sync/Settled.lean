import Koh.Sync.Moments

/-!
# A directory is settled last

Along a run of the receiver that no directory is entered twice in: nothing is done at or below a
directory once it has its mode and time, and none waits on that nothing holds.

## Main definitions

- `Hung`, `Alone`: directories each in another, and of different paths
- `Receiver.Tended`: what a receiver keeps of its directories, along a run of such moments
- `Receiver.InUse`: something holds a directory

## Main results

- `Hung.childless`: a directory that nothing is in has nothing below it
- `Tended.close`: those that nothing holds are settled, the ones below first
- `Tended.step`: an item keeps all that
-/

namespace Koh.Sync

open Koh.Lib

/-! ### Directories in each other -/

/-- Directories each in another of them, or at the top. -/
def Hung (top : Dir) (alive : List Dir) : Prop :=
  ∀ d ∈ alive, ∃ p : Dir, d.parent = some p.tag ∧ p.tag < d.tag ∧
    (p = top ∧ d.rel.length ≤ 1 ∨ p ∈ alive ∧ ∃ n, d.rel = p.rel ++ [n])

/-- No two are of one path, and one at most is at the top. -/
structure Alone (top : Dir) (dirs : List Dir) : Prop where
  rels : ∀ c ∈ dirs, ∀ d ∈ dirs, c.rel = d.rel → c = d
  tops : ∀ c ∈ dirs, ∀ d ∈ dirs, c.parent = some top.tag → d.parent = some top.tag → c = d

theorem Alone.mono {top : Dir} {dirs dirs' : List Dir} (h : Alone top dirs) (hsub : dirs' ⊆ dirs) :
    Alone top dirs' :=
  ⟨fun c hc d hd => h.rels c (hsub hc) d (hsub hd), fun c hc d hd => h.tops c (hsub hc) d (hsub hd)⟩

/-- What is below a directory is below one that is in it. -/
theorem Hung.childless {top d : Dir} {alive : List Dir} (h : Hung top alive)
    (halone : Alone top alive) (hd : d ∈ alive) (hchild : ∀ c ∈ alive, c.parent ≠ some d.tag) :
    ∀ c ∈ alive, c ≠ d → ¬ d.rel <+: c.rel := by
  intro c hc hne hprefix
  -- Upwards from `c`, as long as the path is that of `d` or below it.
  induction hn : c.tag using Nat.strong_induction_on generalizing c with
  | h n ih =>
    obtain ⟨p, hparent, hlt, ⟨rfl, hlen⟩ | ⟨hp, name, hrel⟩⟩ := h c hc
    · have hshort : d.rel.length < c.rel.length := by
        refine lt_of_le_of_ne hprefix.length_le fun heq => hne ?_
        exact halone.rels c hc d hd (List.IsPrefix.eq_of_length hprefix heq).symm
      obtain ⟨q, hqparent, -, ⟨rfl, -⟩ | ⟨-, name, hq⟩⟩ := h d hd
      · exact hne (halone.tops c hc d hd hparent hqparent)
      · rw [hq, List.length_append, List.length_singleton] at hshort
        omega
    · rw [hrel, List.prefix_concat_iff] at hprefix
      rcases hprefix with heq | hprefix
      · exact hne (halone.rels c hc d hd (hrel.trans heq.symm))
      · by_cases hpd : p = d
        · exact hchild c hc (hpd ▸ hparent)
        · exact ih p.tag (hn ▸ hlt) p hp hpd hprefix rfl

/-! ### What a receiver keeps -/

/-- The directories opened in a run. -/
def enteredIn (history : List Moment) : List Dir :=
  history.filterMap fun
    | .entered dir _ _ _ | .target dir => some dir
    | _ => none

theorem enteredIn_append (history moments : List Moment) :
    enteredIn (history ++ moments) = enteredIn history ++ enteredIn moments :=
  List.filterMap_append

theorem settledIn_append (history moments : List Moment) :
    settledIn (history ++ moments) = settledIn history ++ settledIn moments :=
  List.filterMap_append

/-- Whether a directory is opened, or an entry comes. -/
def Moment.comes : Moment → Bool
  | .landed _ _ | .settled _ => false
  | _ => true

/-- Once a directory is settled, nothing is done at its path or below it. -/
def Ordered (history : List Moment) : Prop :=
  history.Pairwise fun m m' => ∀ dir, m = .settled dir → ¬ dir.rel <+: m'.dir.rel

/-- The order of directories makes no difference. -/
theorem Hung.perm {top : Dir} {alive alive' : List Dir} (h : Hung top alive)
    (hperm : alive.Perm alive') : Hung top alive' := by
  intro d hd
  obtain ⟨p, hparent, hlt, hplace⟩ := h d (hperm.mem_iff.mpr hd)
  exact ⟨p, hparent, hlt, hplace.imp_right fun hin => ⟨hperm.mem_iff.mp hin.1, hin.2⟩⟩

/-- Moments after which nothing below a settled directory comes. -/
theorem Ordered.append {history moments : List Moment} (h : Ordered history)
    (hmoments : Ordered moments)
    (hclear : ∀ dir ∈ settledIn history, ∀ m ∈ moments, ¬ dir.rel <+: m.dir.rel) :
    Ordered (history ++ moments) := by
  refine List.pairwise_append.mpr ⟨h, hmoments, ?_⟩
  rintro m hm m' hm' dir rfl
  exact hclear dir (List.mem_filterMap.mpr ⟨_, hm, rfl⟩) m' hm'

namespace Receiver

variable {r r' : Receiver}

/-- The directories open, and those that wait. -/
def alive (r : Receiver) : List Dir := r.dirs ++ r.closing

/-- Something holds directory `d`: a file under way, or a directory in it. -/
def InUse (r : Receiver) (d : Dir) : Prop :=
  (∃ e ∈ r.underWay.map Pending.dir ++ r.dirs, e.tag = d.tag ∨ e.parent = some d.tag) ∨
    ∃ c ∈ r.closing, c.parent = some d.tag

/-- What a receiver keeps, after these moments. -/
structure Tended (r : Receiver) (history : List Moment) : Prop where
  top : r.top.tag = 0 ∧ r.top.rel = []
  tags : 0 < r.tags ∧ ∀ d ∈ enteredIn history, 0 < d.tag ∧ d.tag < r.tags
  nodup : ((enteredIn history).map Dir.tag).Nodup
  /-- Each that was opened is open, waits, or was settled. -/
  all : (enteredIn history).Perm (r.alive ++ settledIn history)
  hung : Hung r.top r.alive
  ids : (r.underWay.map (·.header.id)).Nodup
  files : ∀ p ∈ r.underWay, Moment.came p.dir p.header.name ∈ history ∧
    (p.dir = r.top ∧ enteredIn history = [] ∨ p.dir ∈ r.alive)
  landed : ∀ dir name, .came dir name ∈ history → .landed dir name ∈ history ∨
    ∃ p ∈ r.underWay, p.dir = dir ∧ p.header.name = name
  ordered : Ordered history
  clear : ∀ d ∈ settledIn history, ∀ c ∈ r.alive, ¬ d.rel <+: c.rel

namespace Tended

variable {history : List Moment}

/-- What is alive was entered. -/
theorem entered_of_alive (h : r.Tended history) {d : Dir} (hd : d ∈ r.alive) :
    d ∈ enteredIn history :=
  h.all.mem_iff.mpr (List.mem_append_left _ hd)

/-- So was what settled. -/
theorem entered_of_settled (h : r.Tended history) {d : Dir} (hd : d ∈ settledIn history) :
    d ∈ enteredIn history :=
  h.all.mem_iff.mpr (List.mem_append_right _ hd)

end Tended

/-! ### What is released -/

/-- When a directory is settled, no file is under way in it, and none that is open or waits is in
it. -/
theorem released_free {waiting before after : List Dir} {d : Dir}
    (h : (r.released waiting).1 = before ++ d :: after) :
    (∀ p ∈ r.pending, p.dir.tag ≠ d.tag) ∧ (∀ c ∈ r.dirs, c.tag ≠ d.tag) ∧
      ∀ c ∈ r.dirs ++ (d :: (after ++ (r.released waiting).2)), c.parent ≠ some d.tag := by
  obtain ⟨l, hperm, hfree⟩ := release_free (fun h => swapRemove_perm h) h
  simp only [holds, held, Bool.or_eq_false_iff, List.any_eq_false, List.mem_append, List.mem_map,
    Bool.or_eq_true, decide_eq_true_eq, not_or] at hfree
  obtain ⟨hout, hin⟩ := hfree
  refine ⟨fun p hp => (hout p.dir (.inl ⟨p, hp, rfl⟩)).1, fun c hc => ?_, fun c hc => ?_⟩
  · obtain ⟨o, ho, rfl⟩ := List.mem_map.mp hc
    exact (hout o.dir (.inr ⟨o, ho, rfl⟩)).1
  · rcases List.mem_append.mp hc with hopen | hwait
    · obtain ⟨o, ho, rfl⟩ := List.mem_map.mp hopen
      exact (hout o.dir (.inr ⟨o, ho, rfl⟩)).2
    · exact hin c (hperm.mem_iff.mpr hwait)

/-- Of those that wait some are released. -/
theorem released_perm (r : Receiver) (waiting : List Dir) :
    waiting.Perm ((r.released waiting).1 ++ (r.released waiting).2) :=
  release_perm (fun h => swapRemove_perm h) _

/-- What waits on is held. -/
theorem released_held {waiting : List Dir} (hfiles : r.underWay = r.pending)
    (hclosing : r.closing = (r.released waiting).2) : ∀ d ∈ r.closing, r.InUse d := by
  intro d hd
  have hheld := release_held (fun h => swapRemove_perm h) le_rfl d (hclosing ▸ hd)
  rw [← released, ← hclosing] at hheld
  simp only [holds, held, Bool.or_eq_true, List.any_eq_true, decide_eq_true_eq] at hheld
  rw [InUse, hfiles]
  exact hheld

theorem enteredIn_settlements (history : List Moment) (r : Receiver) (waiting : List Dir) :
    enteredIn (history ++ r.settlements waiting) = enteredIn history := by
  simp [enteredIn, settlements, List.filterMap_append]

/-- What settles is what is released. -/
theorem settledIn_settlements (history : List Moment) (r : Receiver) (waiting : List Dir) :
    settledIn (history ++ r.settlements waiting) =
      settledIn history ++ (r.released waiting).1 := by
  rw [settledIn_append, settlements, settledIn_settled]

/-- A property of each of a list, with those after it. -/
theorem pairwise_of_split {α : Type} {R : α → α → Prop} {l : List α}
    (h : ∀ before a after, l = before ++ a :: after → ∀ b ∈ after, R a b) : l.Pairwise R := by
  suffices hall : ∀ after before, l = before ++ after → after.Pairwise R from hall l [] rfl
  intro after
  induction after with
  | nil => exact fun _ _ => .nil
  | cons a after ih =>
    intro before heq
    exact .cons (h before a after heq) (ih (before ++ [a]) (by simp [heq]))

namespace Tended

variable {history : List Moment} {waiting : List Dir}

/-- No directory is alive twice. -/
theorem nodup_alive (h : r.Tended history) : r.alive.Nodup :=
  ((h.all.nodup_iff.mp (List.Nodup.of_map _ h.nodup)).of_append_left)

/-- Of those that wait, the ones not yet released are each in another, or at the top. -/
theorem hung_left (h : ({ r with closing := waiting }).Tended history) {before after : List Dir}
    (hout : (r.released waiting).1 = before ++ after) :
    Hung r.top (r.dirs ++ (after ++ (r.released waiting).2)) := by
  have hperm := released_perm r waiting
  rw [hout] at hperm
  intro d hd
  have halive : d ∈ r.dirs ++ waiting := by
    simp only [List.mem_append, hperm.mem_iff] at hd ⊢
    tauto
  obtain ⟨p, hparent, hlt, htop | ⟨hp, hrel⟩⟩ := h.hung d halive
  · exact ⟨p, hparent, hlt, .inl htop⟩
  · refine ⟨p, hparent, hlt, .inr ⟨?_, hrel⟩⟩
    rcases List.mem_append.mp hp with hopen | hwait
    · exact List.mem_append_left _ hopen
    · rw [hperm.mem_iff, List.append_assoc, List.mem_append] at hwait
      refine List.mem_append_right _ (hwait.resolve_left fun hbefore => ?_)
      -- When `p` was released, nothing was in it.
      obtain ⟨b, b', rfl⟩ := List.append_of_mem hbefore
      have hsplit : (r.released waiting).1 = b ++ p :: (b' ++ after) := by rw [hout]; simp
      refine (released_free hsplit).2.2 d ?_ hparent
      simp only [List.mem_append, List.mem_cons] at hd ⊢
      tauto

/-- A directory is below none that is released before it, and none that stays is below it. -/
theorem released_above (h : ({ r with closing := waiting }).Tended history)
    (halone : Alone r.top (enteredIn history)) {before after : List Dir} {d : Dir}
    (hout : (r.released waiting).1 = before ++ d :: after) :
    ∀ c ∈ r.dirs ++ (after ++ (r.released waiting).2), ¬ d.rel <+: c.rel := by
  have hperm := released_perm r waiting
  rw [hout] at hperm
  have hsub : r.dirs ++ (d :: after ++ (r.released waiting).2) ⊆ enteredIn history := by
    intro c hc
    refine h.entered_of_alive ?_
    simp only [alive, List.mem_append, hperm.mem_iff] at hc ⊢
    tauto
  have hfree := released_free hout
  intro c hc
  refine (h.hung_left hout).childless (halone.mono hsub) (by simp) hfree.2.2 c ?_ ?_
  · simp only [List.mem_append, List.mem_cons] at hc ⊢
    tauto
  · rintro rfl
    rcases List.mem_append.mp hc with hopen | hrest
    · exact hfree.2.1 c hopen rfl
    · have hnodup : waiting.Nodup := h.nodup_alive.of_append_right
      rw [hperm.nodup_iff, List.append_assoc, List.cons_append] at hnodup
      exact (List.nodup_cons.mp hnodup.of_append_right).1 hrest

/-- Those that nothing holds are settled, the ones below first. -/
theorem close (h : ({ r with closing := waiting }).Tended history)
    (halone : Alone r.top (enteredIn history)) (hrc : r.receiving = none)
    (hclosing : r.closing = (r.released waiting).2) :
    r.Tended (history ++ r.settlements waiting) := by
  have hperm := released_perm r waiting
  have hsub : r.alive ⊆ r.dirs ++ waiting := by
    intro c hc
    simp only [alive, hclosing, List.mem_append, hperm.mem_iff] at hc ⊢
    tauto
  have habove : ∀ before d after, (r.released waiting).1 = before ++ d :: after →
      ∀ c ∈ r.dirs ++ (after ++ (r.released waiting).2), ¬ d.rel <+: c.rel :=
    fun _ _ _ hout => h.released_above halone hout
  refine ⟨h.top, ?_, ?_, ?_, ?_, h.ids, fun p hp => ?_, ?_, ?_, ?_⟩
  · rw [enteredIn_settlements]
    exact h.tags
  · rw [enteredIn_settlements]
    exact h.nodup
  · rw [enteredIn_settlements, settledIn_settlements, alive, hclosing]
    refine h.all.trans ?_
    have hall : (r.dirs ++ waiting ++ settledIn history).Perm
        (r.dirs ++ ((r.released waiting).1 ++ (r.released waiting).2) ++ settledIn history) :=
      (hperm.append_left _).append_right _
    refine hall.trans ?_
    rw [List.append_assoc, List.append_assoc, List.append_assoc]
    refine .append_left _ (List.perm_append_comm.trans ?_)
    rw [List.append_assoc]
  · rw [alive, hclosing]
    have hsplit : (r.released waiting).1 = (r.released waiting).1 ++ [] := by simp
    simpa using h.hung_left hsplit
  · obtain ⟨hcame, htop | halive⟩ := h.files p hp
    · rw [enteredIn_settlements]
      exact ⟨List.mem_append_left _ hcame, .inl htop⟩
    · refine ⟨List.mem_append_left _ hcame, .inr ?_⟩
      rw [alive, hclosing]
      have hcases : p.dir ∈ r.dirs ++ waiting := halive
      rw [List.mem_append, hperm.mem_iff, List.mem_append] at hcases
      rcases hcases with hopen | hout | hrest
      · exact List.mem_append_left _ hopen
      · obtain ⟨before, after, hout⟩ := List.append_of_mem hout
        rw [underWay_between hrc] at hp
        exact absurd rfl ((released_free hout).1 p hp)
      · exact List.mem_append_right _ hrest
  · intro dir name hcame
    rw [List.mem_append] at hcame
    rcases hcame with hcame | hcame
    · exact (h.landed dir name hcame).imp_left (List.mem_append_left _)
    · simp [settlements] at hcame
  · refine h.ordered.append ?_ ?_
    · rw [settlements, Ordered, List.pairwise_map]
      refine pairwise_of_split fun before d after hout c hc dir hdir => ?_
      obtain rfl := Moment.settled.inj hdir
      exact habove before d after hout c (by simp [hc])
    · rintro dir hsettled m hm
      obtain ⟨d, hd, rfl⟩ := List.mem_map.mp hm
      refine h.clear dir hsettled d (List.mem_append_right _ ?_)
      exact hperm.mem_iff.mpr (List.mem_append_left _ hd)
  · intro d hd c hc
    rw [settledIn_settlements, List.mem_append] at hd
    rcases hd with hold | hnew
    · exact h.clear d hold c (hsub hc)
    · obtain ⟨before, after, hout⟩ := List.append_of_mem hnew
      refine habove before d after hout c ?_
      rw [alive, hclosing] at hc
      simp only [List.mem_append] at hc ⊢
      tauto

/-- Nothing settled is at or below the directory that entries land in, nor is it. -/
theorem clear_inner (h : r.Tended history) (hfirst : r.dirs = [] → history = []) {dir : Dir}
    (hdir : dir ∈ settledIn history) : r.inner ∈ r.alive ∧ ¬ dir.rel <+: r.inner.rel := by
  cases hdirs : r.dirs with
  | nil =>
    rw [hfirst hdirs] at hdir
    cases hdir
  | cons o more =>
    have hinner : r.inner ∈ r.alive := by simp [inner, alive, hdirs]
    exact ⟨hinner, h.clear dir hdir _ hinner⟩

/-- Moments that open and settle nothing, each above nothing settled. -/
theorem said (h : r.Tended history) {moments : List Moment} (hentered : enteredIn moments = [])
    (hsettled : settledIn moments = [])
    (hclear : ∀ dir ∈ settledIn history, ∀ m ∈ moments, ¬ dir.rel <+: m.dir.rel)
    (htop : r'.top = r.top) (htags : r'.tags = r.tags) (halive : r'.alive.Perm r.alive)
    (hids : (r'.underWay.map (·.header.id)).Nodup)
    (hfiles : ∀ p ∈ r'.underWay, p ∈ r.underWay ∨ .came p.dir p.header.name ∈ moments ∧
      (p.dir = r.top ∧ enteredIn history = [] ∨ p.dir ∈ r.alive))
    (hleft : ∀ p ∈ r.underWay, p ∈ r'.underWay ∨ .landed p.dir p.header.name ∈ moments)
    (hcame : ∀ dir name, .came dir name ∈ moments → .landed dir name ∈ moments ∨
      ∃ p ∈ r'.underWay, p.dir = dir ∧ p.header.name = name) :
    r'.Tended (history ++ moments) := by
  have hentered' : enteredIn (history ++ moments) = enteredIn history := by
    rw [enteredIn_append, hentered, List.append_nil]
  have hsettled' : settledIn (history ++ moments) = settledIn history := by
    rw [settledIn_append, hsettled, List.append_nil]
  refine ⟨htop ▸ h.top, ?_, hentered' ▸ h.nodup, ?_, ?_, hids, fun p hp => ?_, ?_, ?_, ?_⟩
  · rw [hentered', htags]
    exact h.tags
  · rw [hentered', hsettled']
    exact h.all.trans (halive.symm.append_right _)
  · rw [htop]
    exact h.hung.perm halive.symm
  · rw [hentered', htop, halive.mem_iff]
    rcases hfiles p hp with hold | ⟨hnew, hplace⟩
    · exact ⟨List.mem_append_left _ (h.files p hold).1, (h.files p hold).2⟩
    · exact ⟨List.mem_append_right _ hnew, hplace⟩
  · intro dir name hin
    rcases List.mem_append.mp hin with hold | hnew
    · rcases h.landed dir name hold with hlanded | ⟨p, hp, rfl, rfl⟩
      · exact .inl (List.mem_append_left _ hlanded)
      · rcases hleft p hp with hstill | hlanded
        · exact .inr ⟨p, hstill, rfl, rfl⟩
        · exact .inl (List.mem_append_right _ hlanded)
    · exact (hcame dir name hnew).imp_left (List.mem_append_right _)
  · refine h.ordered.append ?_ hclear
    refine List.pairwise_of_forall_mem_list fun m hm m' _ dir hsettle => ?_
    have hdir : dir ∈ settledIn moments := List.mem_filterMap.mpr ⟨m, hm, by rw [hsettle]⟩
    rw [hsettled] at hdir
    cases hdir
  · intro d hd c hc
    rw [hsettled'] at hd
    exact h.clear d hd c (halive.mem_iff.mp hc)

/-- A directory of its own is opened, in the one that entries land in. -/
theorem opening (h : r.Tended history) {m : Moment} {dir : Dir} (hm : enteredIn [m] = [dir])
    (hfirst : r.dirs = [] → history = []) (htop : r'.top = r.top) (htag : dir.tag = r.tags)
    (hparent : dir.parent = some r.inner.tag)
    (hrel : r.dirs = [] ∧ dir.rel.length ≤ 1 ∨ ∃ n, dir.rel = r.inner.rel ++ [n])
    (hdirs : r'.dirs = dir :: r.dirs) (hfiles : r'.underWay = r.underWay)
    (hwaits : r.Rests (r.tags + 1) r') (halone : Alone r.top (enteredIn (history ++ [m]))) :
    r'.Tended (history ++ [m]) := by
  have hdir : m.dir = dir ∧ settledIn [m] = [] ∧ ∀ dir name, m ≠ .came dir name := by
    cases m <;> simp_all [enteredIn, Moment.dir, settledIn]
  obtain ⟨rfl, hsettled, hcame⟩ := hdir
  have halive : r'.alive = m.dir :: r.alive := by rw [alive, hdirs, hwaits.closing]; rfl
  rw [enteredIn_append, hm] at halone
  -- Below nothing settled, and of no path of those.
  have hclear : ∀ dir ∈ settledIn history, ¬ dir.rel <+: m.dir.rel := by
    intro dir hdir hprefix
    rcases hrel with ⟨hnil, -⟩ | ⟨n, hrel⟩
    · rw [hfirst hnil] at hdir
      cases hdir
    · rw [hrel, List.prefix_concat_iff, ← hrel] at hprefix
      rcases hprefix with heq | hprefix
      · have hentered := h.entered_of_settled hdir
        obtain rfl := halone.rels dir (by simp [hentered]) m.dir (by simp) heq
        exact absurd (h.tags.2 _ hentered).2 (by omega)
      · exact (h.clear_inner hfirst hdir).2 hprefix
  have hentered' : enteredIn (history ++ [m]) = enteredIn history ++ [m.dir] := by
    rw [enteredIn_append, hm]
  have hsettled' : settledIn (history ++ [m]) = settledIn history := by
    rw [settledIn_append, hsettled, List.append_nil]
  refine ⟨htop ▸ h.top, ?_, ?_, ?_, ?_, hfiles ▸ h.ids, fun p hp => ?_, ?_, ?_, ?_⟩
  · rw [hentered', hwaits.tags]
    refine ⟨by omega, fun d hd => ?_⟩
    rcases List.mem_append.mp hd with hold | hnew
    · have htags := h.tags.2 d hold
      omega
    · obtain rfl := List.mem_singleton.mp hnew
      exact ⟨htag ▸ h.tags.1, by omega⟩
  · rw [hentered', List.map_append, List.nodup_append']
    refine ⟨h.nodup, List.nodup_singleton _, fun t hold hnew => ?_⟩
    obtain ⟨d, hd, rfl⟩ := List.mem_map.mp hold
    have heq : d.tag = m.dir.tag := by simpa using hnew
    exact absurd (h.tags.2 d hd).2 (by omega)
  · rw [hentered', hsettled', halive]
    exact List.perm_append_comm.trans (h.all.cons _)
  · rw [halive, htop]
    intro d hd
    rcases List.mem_cons.mp hd with rfl | hold
    · by_cases hnil : r.dirs = []
      · have hinner : r.inner = r.top := by simp [inner, hnil]
        rw [hinner] at hparent hrel
        refine ⟨r.top, hparent, by rw [htag, h.top.1]; exact h.tags.1, .inl ⟨rfl, ?_⟩⟩
        rcases hrel with ⟨-, hlen⟩ | ⟨n, hrel⟩
        · exact hlen
        · rw [hrel, h.top.2]
          simp
      · have hin : r.inner ∈ r.alive := by
          obtain ⟨o, more, hmore⟩ := List.exists_cons_of_ne_nil hnil
          simp [inner, alive, hmore]
        refine ⟨r.inner, hparent, ?_, .inr ⟨List.mem_cons_of_mem _ hin, ?_⟩⟩
        · exact htag ▸ (h.tags.2 _ (h.entered_of_alive hin)).2
        · exact hrel.resolve_left fun hno => hnil hno.1
    · obtain ⟨p, hp, hlt, hplace⟩ := h.hung d hold
      exact ⟨p, hp, hlt, hplace.imp_right fun hin => ⟨List.mem_cons_of_mem _ hin.1, hin.2⟩⟩
  · rw [hfiles] at hp
    obtain ⟨hin, hplace⟩ := h.files p hp
    refine ⟨List.mem_append_left _ hin, .inr ?_⟩
    rw [halive]
    rcases hplace with ⟨-, hnone⟩ | hold
    · -- No file is at the top: then nothing came before the directory.
      by_cases hnil : r.dirs = []
      · rw [hfirst hnil] at hin
        cases hin
      · obtain ⟨o, more, hmore⟩ := List.exists_cons_of_ne_nil hnil
        have hopen : o ∈ enteredIn history := h.entered_of_alive (by simp [alive, hmore])
        rw [hnone] at hopen
        cases hopen
    · exact List.mem_cons_of_mem _ hold
  · intro dir name hin
    rw [hfiles]
    rcases List.mem_append.mp hin with hold | hnew
    · exact (h.landed dir name hold).imp_left (List.mem_append_left _)
    · exact absurd (List.mem_singleton.mp hnew).symm (hcame dir name)
  · refine h.ordered.append (List.pairwise_singleton _ _) fun dir hdir m' hm' => ?_
    rw [List.mem_singleton.mp hm']
    exact hclear dir hdir
  · intro d hd c hc
    rw [hsettled'] at hd
    rw [halive] at hc
    rcases List.mem_cons.mp hc with rfl | hold
    · exact hclear d hd
    · exact h.clear d hd c hold

/-- An item keeps all that: of what comes at the top nothing came before, and no directory opened is
opened again. -/
theorem step {moments : List Moment} (h : r.Tended history) (hmoves : r.Moves r' moments)
    (hfirst : r.dirs = [] → (∃ m ∈ moments, m.comes = true) → history = [])
    (htop : r'.top = r.top) (halone : Alone r.top (enteredIn (history ++ moments))) :
    r'.Tended (history ++ moments) := by
  cases hmoves with
  | still hdirs hfiles hwaits =>
    refine h.said rfl rfl (fun _ _ _ hm => by cases hm) htop hwaits.tags ?_ ?_ ?_ ?_ ?_
    · rw [alive, alive, hdirs, hwaits.closing]
    · exact (hfiles.map _).nodup_iff.mpr h.ids
    · exact fun p hp => .inl (hfiles.mem_iff.mp hp)
    · exact fun p hp => .inl (hfiles.mem_iff.mpr hp)
    · exact fun _ _ hm => by cases hm
  | entered htag hparent hrel _ _ hdirs hfiles hwaits =>
    refine h.opening rfl (fun hnil => hfirst hnil ⟨_, List.mem_singleton_self _, rfl⟩) htop htag
      hparent (.inr hrel) hdirs hfiles hwaits halone
  | target hnil htag hparent hrel hdirs hfiles hwaits =>
    have hinner : r.inner = r.top := by simp [inner, hnil]
    refine h.opening rfl (fun hnil => hfirst hnil ⟨_, List.mem_singleton_self _, rfl⟩) htop htag
      (by rw [hparent, hinner]) (.inl ⟨hnil, by simp [hrel]⟩) (by rw [hdirs, hnil]) hfiles hwaits
      halone
  | @came p hinner hrc hrc' hid hdirs hfiles hwaits =>
    have hstart : r.dirs = [] → history = [] :=
      fun hnil => hfirst hnil ⟨_, List.mem_singleton_self _, rfl⟩
    refine h.said rfl rfl ?_ htop hwaits.tags (by rw [alive, alive, hdirs, hwaits.closing]) ?_ ?_ ?_ ?_
    · intro dir hdir m hm
      rw [List.mem_singleton.mp hm]
      exact hinner ▸ (h.clear_inner hstart hdir).2
    · rw [hfiles, List.map_append, List.map_singleton, List.nodup_append']
      exact ⟨h.ids, List.nodup_singleton _, List.disjoint_singleton.mpr hid⟩
    · intro q hq
      rw [hfiles, List.mem_append, List.mem_singleton] at hq
      refine hq.imp_right ?_
      rintro rfl
      refine ⟨List.mem_singleton_self _, ?_⟩
      rw [hinner]
      cases hopen : r.dirs with
      | nil => exact .inl ⟨by simp [inner, hopen], by rw [hstart hopen]; rfl⟩
      | cons o more => exact .inr (by simp [inner, alive, hopen])
    · exact fun q hq => .inl (by rw [hfiles]; exact List.mem_append_left _ hq)
    · intro dir name hm
      obtain ⟨rfl, rfl⟩ : dir = p.dir ∧ name = p.header.name := by simpa using hm
      exact .inr ⟨p, by simp [hfiles], rfl, rfl⟩
  | @linked name hdirs hfiles hwaits =>
    have hstart : r.dirs = [] → history = [] :=
      fun hnil => hfirst hnil ⟨_, List.mem_cons_self, rfl⟩
    refine h.said rfl rfl ?_ htop hwaits.tags (by rw [alive, alive, hdirs, hwaits.closing])
      (hfiles ▸ h.ids) (fun p hp => .inl (hfiles ▸ hp)) (fun p hp => .inl (hfiles ▸ hp)) ?_
    · intro dir hdir m hm
      have hm : m.dir = r.inner := by
        rcases List.mem_pair.mp hm with rfl | rfl <;> rfl
      exact hm ▸ (h.clear_inner hstart hdir).2
    · intro dir name' hm
      obtain ⟨rfl, rfl⟩ : dir = r.inner ∧ name' = name := by simpa using hm
      exact .inl (by simp)
  | @done p hfiles hrc hdirs hclosed =>
    rw [List.append_cons] at halone ⊢
    rw [enteredIn_settlements] at halone
    refine close (r := r') ?_ (htop ▸ halone) hrc hclosed.closing
    have hids := (hfiles.map (·.header.id)).nodup_iff.mp h.ids
    rw [List.map_cons, List.nodup_cons] at hids
    have hmid : ({ r' with closing := r.closing }).alive = r.alive := by
      rw [alive, alive, ← hdirs]
      rfl
    refine h.said rfl rfl ?_ htop hclosed.tags (by rw [hmid]) hids.2 ?_ ?_ ?_
    · intro dir hdir m hm
      rw [List.mem_singleton.mp hm]
      rcases (h.files p (hfiles.mem_iff.mpr List.mem_cons_self)).2 with ⟨-, hnone⟩ | halive
      · have hentered := h.entered_of_settled hdir
        rw [hnone] at hentered
        cases hentered
      · exact h.clear dir hdir _ halive
    · exact fun q hq => .inl (hfiles.mem_iff.mpr (List.mem_cons_of_mem _ hq))
    · intro q hq
      rcases List.mem_cons.mp (hfiles.mem_iff.mp hq) with rfl | hstill
      · exact .inr (List.mem_singleton_self _)
      · exact .inl hstill
    · exact fun dir name hm => by simp at hm
  | @ended dir hdirs hrc hfiles hclosed =>
    rw [enteredIn_settlements] at halone
    refine close (r := r') ?_ (htop ▸ halone) hrc hclosed.closing
    rw [← List.append_nil history]
    refine h.said rfl rfl (fun _ _ _ hm => by cases hm) htop hclosed.tags ?_ (hfiles ▸ h.ids)
      (fun p hp => .inl (hfiles ▸ hp)) (fun p hp => .inl (hfiles ▸ hp)) (fun _ _ hm => by cases hm)
    rw [alive, alive, hdirs, List.cons_append]
    exact List.perm_append_comm.trans ((List.perm_append_singleton _ _).append_right _ |>.trans
      (List.perm_append_comm.cons _))

end Tended

/-! ### What waits -/

/-- An item leaves none waiting that nothing holds. -/
theorem Moves.inUse {moments : List Moment} (hmoves : r.Moves r' moments)
    (huse : ∀ d ∈ r.closing, r.InUse d) : ∀ d ∈ r'.closing, r'.InUse d := by
  have hmore : r'.closing = r.closing → (∀ p ∈ r.underWay, p ∈ r'.underWay) →
      (∀ d ∈ r.dirs, d ∈ r'.dirs) → ∀ d ∈ r'.closing, r'.InUse d := by
    intro hclosing hfiles hdirs d hd
    refine (huse d (hclosing ▸ hd)).imp ?_ fun hin => hclosing ▸ hin
    rintro ⟨e, he, hholds⟩
    refine ⟨e, ?_, hholds⟩
    simp only [List.mem_append, List.mem_map] at he ⊢
    exact he.imp (fun ⟨p, hp, heq⟩ => ⟨p, hfiles p hp, heq⟩) (hdirs e)
  cases hmoves with
  | still hdirs hfiles hwaits =>
    exact hmore hwaits.closing (fun p hp => hfiles.mem_iff.mpr hp) fun d hd => hdirs ▸ hd
  | entered _ _ _ _ _ hdirs hfiles hwaits =>
    exact hmore hwaits.closing (fun p hp => hfiles ▸ hp) fun d hd => hdirs ▸ List.mem_cons_of_mem _ hd
  | target hnil _ _ _ hdirs hfiles hwaits =>
    exact hmore hwaits.closing (fun p hp => hfiles ▸ hp) fun d hd => by rw [hnil] at hd; cases hd
  | came _ _ _ _ hdirs hfiles hwaits =>
    exact hmore hwaits.closing (fun p hp => hfiles ▸ List.mem_append_left _ hp) fun d hd => hdirs ▸ hd
  | linked hdirs hfiles hwaits =>
    exact hmore hwaits.closing (fun p hp => hfiles ▸ hp) fun d hd => hdirs ▸ hd
  | done _ hrc _ hclosed => exact released_held (underWay_between hrc) hclosed.closing
  | ended _ hrc _ hclosed => exact released_held (underWay_between hrc) hclosed.closing

/-- Once no directory is open and no file under way, none waits: each that does is held by one that
came after it. -/
theorem Tended.none_waits {history : List Moment} (h : r.Tended history)
    (huse : ∀ d ∈ r.closing, r.InUse d) (hdirs : r.dirs = []) (hfiles : r.underWay = []) :
    r.closing = [] := by
  refine List.eq_nil_iff_forall_not_mem.mpr fun d hd => ?_
  -- On the number of directories opened after it.
  induction hn : r.tags - d.tag using Nat.strong_induction_on generalizing d with
  | h n ih =>
    have hwaits : ∀ c ∈ r.closing, c ∈ r.alive := fun c hc => List.mem_append_right _ hc
    rcases huse d hd with ⟨e, he, -⟩ | ⟨c, hc, hparent⟩
    · simp [hdirs, hfiles] at he
    · obtain ⟨p, hp, hlt, -⟩ := h.hung c (hwaits c hc)
      have htag : d.tag = p.tag := Option.some.inj (hparent.symm.trans hp)
      have hlast := (h.tags.2 c (h.entered_of_alive (hwaits c hc))).2
      exact ih (r.tags - c.tag) (by omega) c hc rfl

end Receiver

end Koh.Sync
