import Koh.Sync.Levels
import Koh.Sync.Script

/-!
# The walk of a single source

The walk of one source, the names of whose directories differ, opens no directory twice, and what
comes at the top of it comes first.

## Main definitions

- `Source.Distinct`: the names of a directory differ
- `opensIn`: the directories that commands open

## Main results

- `Sender.source_opens`: no two of them are of one path
- `Sender.noted_first`: what comes at the top comes first
-/

namespace Koh.Sync

open Lib

/-! ### A tree of names -/

def Forest.names : Forest → List Bytes
  | .nil => []
  | .cons name _ rest => name :: rest.names

mutual

/-- In each directory of it, the names differ. -/
def Node.Distinct : Node → Prop
  | .dir _ _ entries => entries.Distinct
  | _ => True

def Forest.Distinct : Forest → Prop
  | .nil => True
  | .cons name node rest => name ∉ rest.names ∧ node.Distinct ∧ rest.Distinct

end

def Source.Distinct : Source → Prop
  | .path _ found | .beneath _ found => found.Distinct

theorem Name.new_bytes {bytes : Bytes} {name : Name} (h : Name.new bytes = some name) :
    name.bytes = bytes := by
  unfold Name.new at h
  split at h
  · cases h
    rfl
  · cases h

/-! ### What a walk opens -/

def opensIn (cmds : List Noted) : List Level :=
  cmds.filterMap fun
    | (.item (.dir ..), l) | (.item (.contents ..), l) => l
    | _ => none

/-- What two walks open. -/
theorem opensIn_append (cmds cmds' : List Noted) :
    opensIn (cmds ++ cmds') = opensIn cmds ++ opensIn cmds' := List.filterMap_append

theorem opensIn_plain (cmds : List Cmd) : opensIn (Sender.plain cmds) = [] := by
  simp only [opensIn, Sender.plain, List.filterMap_map, List.filterMap_eq_nil_iff]
  intro c _
  rw [Function.comp_apply]
  split <;> simp_all

/-- Directories of one tree, at `base` or below it, no two of one path. -/
structure Branches (tree base : Path) (levels : List Level) : Prop where
  within : ∀ l ∈ levels, l.tree = tree ∧ base <+: l.rel
  once : levels.Pairwise fun l l' => l.rel ≠ l'.rel

theorem Branches.nil (tree base : Path) : Branches tree base [] := ⟨by simp, .nil⟩

/-- Those below entries of a directory. -/
def Among (l : Level) (names : List Bytes) (levels : List Level) : Prop :=
  ∀ l' ∈ levels, l'.tree = l.tree ∧ ∃ name : Name, name.bytes ∈ names ∧ l.rel ++ [name] <+: l'.rel

/-- Entries of one directory that are not of one name have nothing below both. -/
theorem Among.apart {l : Level} {names names' : List Bytes} {levels levels' : List Level}
    (h : Among l names levels) (h' : Among l names' levels') (hnames : names.Disjoint names') :
    ∀ a ∈ levels, ∀ b ∈ levels', a.rel ≠ b.rel := by
  intro a ha b hb heq
  obtain ⟨-, name, hname, hpre⟩ := h a ha
  obtain ⟨-, name', hname', hpre'⟩ := h' b hb
  rw [← heq] at hpre'
  have hsame := List.prefix_of_prefix_length_le hpre hpre' (by simp)
  rw [List.prefix_append_right_inj, List.cons_prefix_cons] at hsame
  exact hnames hname (hsame.1 ▸ hname')

namespace Sender

variable (opts : Opts)

/-- A directory opens its level, and what is inside. -/
theorem framed_opens {name : Option Name} {l : Level} {depth mode : ℕ} {mtime : Option Time}
    {inside : List Noted} {names : List Bytes} (hamong : Among l names (opensIn inside))
    (honce : (opensIn inside).Pairwise fun l l' => l.rel ≠ l'.rel) :
    Branches l.tree l.rel (opensIn (framedNoted name l depth mode mtime inside)) := by
  unfold framedNoted
  split
  · rw [opensIn_plain]
    exact .nil _ _
  · have hopens : opensIn ((.item (headItem name mode mtime), some l) ::
        (inside ++ [(.item .dirEnd, some l)])) = l :: opensIn inside := by
      rw [← List.singleton_append, opensIn_append, opensIn_append]
      cases name <;> simp [opensIn, headItem]
    rw [hopens]
    refine ⟨fun l' hl' => ?_, List.pairwise_cons.mpr ⟨fun l' hl' heq => ?_, honce⟩⟩
    · rcases List.mem_cons.mp hl' with rfl | hin
      · exact ⟨rfl, List.prefix_rfl⟩
      · obtain ⟨htree, name, -, hpre⟩ := hamong l' hin
        exact ⟨htree, (List.prefix_append _ _).trans hpre⟩
    · obtain ⟨-, name, -, hpre⟩ := hamong l' hl'
      have hlen := hpre.length_le
      rw [← heq, List.length_append, List.length_singleton] at hlen
      omega

mutual

/-- Below a directory, all is of its tree. -/
theorem entry_opens (tree : Path) (name : Name) (rel : Path) (depth : ℕ) (hdepth : 1 < depth)
    (node : Node) (h : node.Distinct) :
    Branches tree rel (opensIn (entryNoted opts tree name rel depth node)) := by
  cases node with
  | dir mode mtime entries =>
    rw [Node.Distinct] at h
    simp only [entryNoted, if_neg hdepth.ne']
    obtain ⟨hamong, honce⟩ := inside_opens ⟨tree, rel⟩ depth hdepth.le entries h
    exact framed_opens hamong honce
  | _ =>
    simp only [entryNoted, opensIn_plain]
    exact .nil _ _

/-- Different names open different levels. -/
theorem inside_opens (l : Level) (depth : ℕ) (hdepth : 1 ≤ depth) (entries : Forest)
    (h : entries.Distinct) : Among l entries.names (opensIn (insideNoted opts l depth entries)) ∧
      (opensIn (insideNoted opts l depth entries)).Pairwise fun l l' => l.rel ≠ l'.rel := by
  cases entries with
  | nil => exact ⟨by simp [Among, insideNoted, opensIn], .nil⟩
  | cons bytes node rest =>
    rw [Forest.Distinct] at h
    obtain ⟨hfresh, hnode, hdistinct⟩ := h
    obtain ⟨hrest, honce⟩ := inside_opens l depth hdepth rest hdistinct
    simp only [insideNoted]
    split
    · rw [opensIn_plain]
      exact ⟨by simp [Among], .nil⟩
    · next name hname =>
      have hbytes := Name.new_bytes hname
      have hentry := entry_opens l.tree name (l.rel ++ [name]) (depth + 1) (by omega) node hnode
      have hhere : Branches l.tree (l.rel ++ [name]) (opensIn
          (if opts.excludes.excludes name.bytes (l.path name).bytes then []
            else entryNoted opts l.tree name (l.rel ++ [name]) (depth + 1) node)) := by
        split
        · exact .nil _ _
        · exact hentry
      have hone : Among l [bytes] (opensIn
          (if opts.excludes.excludes name.bytes (l.path name).bytes then []
            else entryNoted opts l.tree name (l.rel ++ [name]) (depth + 1) node)) := by
        intro l' hl'
        obtain ⟨htree, hpre⟩ := hhere.within l' hl'
        exact ⟨htree, name, by simp [hbytes], hpre⟩
      rw [opensIn_append, List.pairwise_append]
      refine ⟨fun l' hl' => ?_, hhere.once, honce, hone.apart hrest (by simpa using hfresh)⟩
      rcases List.mem_append.mp hl' with hin | hin
      · obtain ⟨htree, name', hname', hpre⟩ := hone l' hin
        exact ⟨htree, name', by simp_all [Forest.names], hpre⟩
      · obtain ⟨htree, name', hname', hpre⟩ := hrest l' hin
        exact ⟨htree, name', List.mem_cons_of_mem _ hname', hpre⟩

end

/-- A directory of different names opens each level once. -/
theorem dir_opens (name : Option Name) (rel : Path) (mode : ℕ) (mtime : Option Time)
    (entries : Forest) (h : entries.Distinct) :
    Branches rel rel (opensIn (dirNoted opts name rel mode mtime entries)) := by
  obtain ⟨hamong, honce⟩ := inside_opens opts ⟨rel, rel⟩ 1 le_rfl entries h
  exact framed_opens hamong honce

/-- The directories that the walk of a source opens are of one tree, and no two of one path. -/
theorem source_opens (s : Source) (h : s.Distinct) :
    ∃ tree, Branches tree tree (opensIn (sourceNoted opts s)) := by
  have hplain : ∀ cmds, ∃ tree, Branches tree tree (opensIn (plain cmds)) := by
    intro cmds
    rw [opensIn_plain]
    exact ⟨[], .nil _ _⟩
  cases s with
  | path path found =>
    cases found with
    | dir mode mtime entries =>
      rw [Source.Distinct, Node.Distinct] at h
      simp only [sourceNoted]
      split
      · exact hplain _
      · exact ⟨_, dir_opens opts _ _ mode mtime entries h⟩
    | _ => exact hplain _
  | beneath path found =>
    cases hlast : path.getLast? with
    | none =>
      cases found with
      | dir mode mtime entries =>
        rw [Source.Distinct, Node.Distinct] at h
        simp only [sourceNoted, hlast]
        exact ⟨_, dir_opens opts none path mode mtime entries h⟩
      | _ =>
        simp only [sourceNoted, hlast]
        exact hplain _
    | some last =>
      simp only [sourceNoted, hlast]
      cases found with
      | dir mode mtime entries =>
        rw [Source.Distinct, Node.Distinct] at h
        obtain ⟨hamong, honce⟩ := inside_opens opts ⟨path, path⟩ 1 le_rfl entries h
        exact ⟨path, framed_opens hamong honce⟩
      | _ =>
        simp only [entryNoted]
        exact hplain _

end Sender

/-! ### What comes at the top -/

/-- An item that an entry comes with, or a directory. -/
def Item.Comes : Item → Prop
  | .dir _ _ _ | .contents _ _ | .file _ | .symlink _ _ => True
  | _ => False

/-- A named target takes one entry. -/
theorem Fits.first {c : Cmd} {i : Item} {placed : ℕ} {rest : List Cmd}
    (h : Fits true 0 placed (c :: rest)) (hbrings : c.Brings i) (hcomes : i.Comes) :
    placed = 0 := by
  cases hbrings with
  | item =>
    cases i with
    | dir => exact h.1 rfl rfl
    | contents => exact h.2.1 rfl rfl
    | file | symlink => exact h.elim
    | _ => exact hcomes.elim
  | symlink => exact h.1 rfl rfl
  | file => exact h.1 rfl rfl

/-- What was brought whole did not fail. -/
theorem Brought.unfailing {cmds : List Cmd} {items : List Item} (h : Brought cmds items)
    (failure : Failure) : .fail failure ∉ cmds := by
  induction h with
  | nil => simp
  | cmd hbrings _ ih =>
    rw [List.mem_cons, not_or]
    refine ⟨?_, ih⟩
    rintro rfl
    cases hbrings
  | late _ _ ih => exact ih

/-- Of what comes at the top, each is counted. -/
theorem Fits.climbed {levels levels' : List Level} {cmds : List Noted} {rest : List Cmd}
    {placed : ℕ} (hway : Way Climbs levels cmds levels')
    (hfits : Fits true levels.length placed (cmds.map Prod.fst ++ rest))
    (hfail : ∀ failure, .fail failure ∉ cmds.map Prod.fst) :
    ∃ placed', Fits true levels'.length placed' rest ∧ placed ≤ placed' ∧
      (levels = [] → cmds ≠ [] → placed < placed') := by
  induction hway generalizing placed with
  | nil levels => exact ⟨placed, hfits, le_rfl, fun _ hne => absurd rfl hne⟩
  | @cons levels levels₁ levels' x cmds hclimb _ ih =>
    rw [List.map_cons] at hfail hfits
    have hrest : ∀ failure, .fail failure ∉ cmds.map Prod.fst :=
      fun failure hin => hfail failure (List.mem_cons_of_mem _ hin)
    have hmore : ∀ {now : ℕ}, Fits true levels₁.length now (cmds.map Prod.fst ++ rest) →
        placed ≤ now → (levels = [] → placed < now) → ∃ placed',
          Fits true levels'.length placed' rest ∧ placed ≤ placed' ∧
            (levels = [] → x :: cmds ≠ [] → placed < placed') := by
      intro now hnow hle hlt
      obtain ⟨placed', hfits', hle', -⟩ := ih hnow hrest
      exact ⟨placed', hfits', hle.trans hle', fun hnil _ => (hlt hnil).trans_le hle'⟩
    have htopped : ∀ depth, placed ≤ topped depth placed := by
      intro depth
      unfold topped
      split <;> omega
    cases hclimb with
    | top => exact hmore hfits.2 (Nat.le_succ _) fun _ => Nat.lt_succ_self _
    | contents => exact hmore hfits.2.2 (Nat.le_succ _) fun _ => Nat.lt_succ_self _
    | sub => exact hmore hfits.2 (htopped _) fun hnil => by cases hnil
    | ended => exact hmore hfits.2 le_rfl fun hnil => by cases hnil
    | skipped =>
      refine hmore hfits.2 le_rfl ?_
      rintro rfl
      exact absurd hfits.1 (Nat.lt_irrefl 0)
    | symlink =>
      refine hmore hfits.2 (htopped _) ?_
      rintro rfl
      exact Nat.lt_succ_self _
    | file =>
      refine hmore hfits.2 (htopped _) ?_
      rintro rfl
      exact Nat.lt_succ_self _
    | fail => exact absurd List.mem_cons_self (hfail _)

/-- What comes at the top of a single source comes first. -/
theorem Sender.noted_first (opts : Opts) {s : Source} {before after : List Noted} {x : Noted}
    {items : List Item} {i : Item} (hnoted : noted opts [s] = before ++ x :: after)
    (hbrought : Brought (before.map Prod.fst) items) (hway : Way Climbs [] before [])
    (hbrings : x.1.Brings i) (hcomes : i.Comes) : before = [] := by
  have hfits : Fits true 0 0 (walk opts [s]) := walk_fits opts [s] fun _ => by simp
  rw [← noted_walk, hnoted, List.map_append, List.map_cons] at hfits
  obtain ⟨placed, hrest, -, hlt⟩ := Fits.climbed hway hfits hbrought.unfailing
  by_contra hne
  have hzero := Fits.first hrest hbrings hcomes
  have hpos := hlt rfl hne
  omega

end Koh.Sync
