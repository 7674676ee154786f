import Koh.Lib.Way
import Koh.Sync.Follows
import Koh.Sync.Merge

/-!
# The paths that excludes match

Each end matches its excludes against an entry's path from the directory that came at the top. The
two build it from different roots, and take different prefixes from it. They agree: the path that
the sender matches of an entry is the one that the receiver does, when it prunes the entry's
directory.

## Main definitions

- `Level`: a directory of the sender's walk, as it is there
- `noted`: the walk, with the level of each directory
- `Climbs`: what a command does to the directories that are open
- `Brought`: items that commands brought, among others

## Main results

- `noted_walk`: the noted walk is the walk
- `noted_climbs`: in it, directories are opened and ended in pairs, each where it says
- `Receiver.Along.next`: an item leaves the receiver where it leaves the sender
- `reachable_reads`: no item is lost, doubled or overtaken
- `paths_agree`: both ends match the same path of an entry
- `tree_kept`: the directories that the receiver has open are where their paths say
-/

namespace Koh.Sync

open Lib

/-! ### The walk, with its directories -/

/-- A directory of the walk: its path, and that of the directory sent at the top. -/
structure Level where
  tree : Path
  rel : Path

/-- The path that excludes match of an entry of the directory. -/
def Level.path (l : Level) (name : Name) : Path := Path.within l.tree (l.rel ++ [name])

/-- A command, and the directory that it opens or ends. -/
abbrev Noted := Cmd × Option Level

namespace Sender

/-- Commands that open and end nothing. -/
def plain (cmds : List Cmd) : List Noted := cmds.map (·, none)

def framedNoted (name : Option Name) (l : Level) (depth : ℕ) (mode : ℕ) (mtime : Option Time)
    (inside : List Noted) : List Noted :=
  if maxDepth < depth then plain [.fail (.new .tooDeep l.rel.bytes)]
  else (.item (headItem name mode mtime), some l) :: (inside ++ [(.item .dirEnd, some l)])

mutual

def entryNoted (opts : Opts) (tree : Path) (name : Name) (rel : Path) (depth : ℕ) :
    Node → List Noted
  | .failing error => plain (entry opts tree name rel depth (.failing error))
  | .dir mode mtime entries =>
    let l : Level := ⟨if depth = 1 then rel else tree, rel⟩
    framedNoted (some name) l depth mode mtime (insideNoted opts l depth entries)
  | .file file => plain (entry opts tree name rel depth (.file file))
  | .link target => plain (entry opts tree name rel depth (.link target))
  | .other => plain (entry opts tree name rel depth .other)

/-- The entries of a directory: excludes match `l.path` of each. -/
def insideNoted (opts : Opts) (l : Level) (depth : ℕ) : Forest → List Noted
  | .nil => []
  | .cons bytes node rest =>
    match Name.new bytes with
    | none => plain [.fail (.new .nameTooLong (joined l.rel bytes))]
    | some name =>
      let excluded := opts.excludes.excludes name.bytes (l.path name).bytes
      (if excluded then [] else entryNoted opts l.tree name (l.rel ++ [name]) (depth + 1) node)
        ++ insideNoted opts l depth rest

end

def dirNoted (opts : Opts) (name : Option Name) (rel : Path) (mode : ℕ) (mtime : Option Time)
    (entries : Forest) : List Noted :=
  framedNoted name ⟨rel, rel⟩ 1 mode mtime (insideNoted opts ⟨rel, rel⟩ 1 entries)

def sourceNoted (opts : Opts) : Source → List Noted
  | .path path found =>
    let named := (fileName path).bind Name.new
    let name := if bringsContents path then none else named
    match found with
    | .dir mode mtime entries =>
      if bringsContents path = false ∧ named = none then plain [.fail (.new .noName path)]
      else dirNoted opts name name.toList mode mtime entries
    | _ => plain (source opts (.path path found))
  | .beneath path found =>
    match path.getLast?, found with
    | none, .dir mode mtime entries => dirNoted opts none path mode mtime entries
    | none, _ => plain (source opts (.beneath path found))
    | some last, node => entryNoted opts [] last path 1 node

/-- The walk, with the level of each directory. -/
def noted (opts : Opts) (sources : List Source) : List Noted := sources.flatMap (sourceNoted opts)

/-! ### It is the walk -/

@[simp] theorem plain_walk (cmds : List Cmd) : (plain cmds).map Prod.fst = cmds := by
  simp [plain, List.map_map, Function.comp_def]

/-- With its notes off, a framed walk is the walk. -/
theorem framedNoted_walk (name : Option Name) (l : Level) (depth mode : ℕ) (mtime : Option Time)
    (inside : List Noted) : (framedNoted name l depth mode mtime inside).map Prod.fst =
      framed name l.rel depth mode mtime (inside.map Prod.fst) := by
  unfold framedNoted framed
  split
  · exact plain_walk _
  · simp

mutual

/-- So is an entry's. -/
theorem entryNoted_walk (opts : Opts) (tree : Path) (name : Name) (rel : Path) (depth : ℕ)
    (node : Node) : (entryNoted opts tree name rel depth node).map Prod.fst =
      entry opts tree name rel depth node := by
  cases node with
  | failing error => exact plain_walk _
  | dir mode mtime entries =>
    simp only [entryNoted, entry, framedNoted_walk]
    rw [insideNoted_walk opts _ depth entries]
  | file file => exact plain_walk _
  | link target => exact plain_walk _
  | other => exact plain_walk _

/-- And a directory's. -/
theorem insideNoted_walk (opts : Opts) (l : Level) (depth : ℕ) (entries : Forest) :
    (insideNoted opts l depth entries).map Prod.fst = inside opts l.tree l.rel depth entries := by
  cases entries with
  | nil => rfl
  | cons bytes node rest =>
    have hrest := insideNoted_walk opts l depth rest
    cases hname : Name.new bytes with
    | none => simp only [insideNoted, inside, hname, plain_walk]
    | some name =>
      have hentry := entryNoted_walk opts l.tree name (l.rel ++ [name]) (depth + 1) node
      have hpath : Path.within l.tree (l.rel ++ [name]) = l.path name := rfl
      simp only [insideNoted, inside, hname, hpath, List.map_append, hrest]
      split
      · rfl
      · rw [hentry]

end

/-- And a source's. -/
theorem sourceNoted_walk (opts : Opts) (s : Source) :
    (sourceNoted opts s).map Prod.fst = source opts s := by
  have hdir : ∀ name rel mode mtime entries,
      (dirNoted opts name rel mode mtime entries).map Prod.fst =
        dir opts name rel mode mtime entries := by
    intro name rel mode mtime entries
    simp only [dirNoted, dir, framedNoted_walk, insideNoted_walk]
  cases s with
  | path path found =>
    cases found with
    | dir mode mtime entries =>
      simp only [sourceNoted, source]
      split
      · rfl
      · exact hdir _ _ _ _ _
    | _ => exact plain_walk _
  | beneath path found =>
    cases hlast : path.getLast? with
    | none =>
      cases found with
      | dir mode mtime entries => simp only [sourceNoted, source, hlast, hdir]
      | _ => simp only [sourceNoted, hlast, plain_walk]
    | some last =>
      simp only [sourceNoted, source, hlast, entryNoted_walk]
      cases found with
      | failing error => rfl
      | _ => rfl

/-- The noted walk is the walk. -/
theorem noted_walk (opts : Opts) (sources : List Source) :
    (noted opts sources).map Prod.fst = walk opts sources := by
  simp only [noted, walk, List.map_flatMap, sourceNoted_walk]

end Sender

/-! ### Directories in pairs -/

/-- What a command does to the directories that are open, the innermost first. -/
inductive Climbs : List Level → Noted → List Level → Prop
  | top {name : Name} {mode : Mode} {mtime : Option Time} {l : Level} : l.rel = l.tree →
      Climbs [] (.item (.dir name mode mtime), some l) [l]
  | contents {mode : Mode} {mtime : Option Time} {l : Level} : l.rel = l.tree →
      Climbs [] (.item (.contents mode mtime), some l) [l]
  | sub {name : Name} {mode : Mode} {mtime : Option Time} {l up : Level} {more : List Level} :
      l.tree = up.tree → l.rel = up.rel ++ [name] →
      Climbs (up :: more) (.item (.dir name mode mtime), some l) (l :: up :: more)
  | ended {l : Level} {more : List Level} : Climbs (l :: more) (.item .dirEnd, some l) more
  | skipped {name : Name} {levels : List Level} : Climbs levels (.item (.skipped name), none) levels
  | symlink {name : Name} {target : LinkTarget} {levels : List Level} :
      Climbs levels (.symlink name target, none) levels
  | file {file : SourceFile} {name : Name} {path : Bytes} {levels : List Level} :
      Climbs levels (.file file name path, none) levels
  | fail {failure : Failure} {levels : List Level} : Climbs levels (.fail failure, none) levels

namespace Sender

variable (opts : Opts) {levels : List Level}

theorem plain_climbs {c : Cmd} (h : Climbs levels (c, none) levels) :
    Way Climbs levels (plain [c]) levels := .cons h (.nil _)

/-- A directory goes one level down, and comes back. -/
theorem framed_climbs {name : Option Name} {l : Level} {depth mode : ℕ} {mtime : Option Time}
    {inside : List Noted} (hhead : Climbs levels (.item (headItem name mode mtime), some l)
      (l :: levels)) (hinside : Way Climbs (l :: levels) inside (l :: levels)) :
    Way Climbs levels (framedNoted name l depth mode mtime inside) levels := by
  unfold framedNoted
  split
  · exact plain_climbs .fail
  · exact .cons hhead (hinside.snoc .ended)

/-- An entry that is no directory opens and ends nothing. -/
theorem entry_climbs_plain {tree : Path} {name : Name} {rel : Path} {depth : ℕ} {node : Node}
    (hnode : ∀ mode mtime entries, node ≠ .dir mode mtime entries) :
    Way Climbs levels (plain (entry opts tree name rel depth node)) levels := by
  cases node with
  | failing error => exact plain_climbs .fail
  | dir mode mtime entries => exact absurd rfl (hnode mode mtime entries)
  | file file => exact plain_climbs .file
  | link target =>
    simp only [entry]
    split
    · exact plain_climbs .symlink
    · exact plain_climbs .fail
  | other =>
    simp only [entry]
    split
    · exact plain_climbs .fail
    · exact plain_climbs .skipped

mutual

/-- An entry below a directory, which is innermost. -/
theorem entry_climbs (up : Level) (more : List Level) (name : Name) (depth : ℕ) (hdepth : 1 < depth)
    (node : Node) : Way Climbs (up :: more)
      (entryNoted opts up.tree name (up.rel ++ [name]) depth node) (up :: more) := by
  cases node with
  | dir mode mtime entries =>
    simp only [entryNoted, if_neg hdepth.ne']
    exact framed_climbs (.sub rfl rfl) (inside_climbs _ (up :: more) depth hdepth.le entries)
  | failing error => exact entry_climbs_plain opts (by simp)
  | file file => exact entry_climbs_plain opts (by simp)
  | link target => exact entry_climbs_plain opts (by simp)
  | other => exact entry_climbs_plain opts (by simp)

/-- What is inside stays at its level. -/
theorem inside_climbs (l : Level) (more : List Level) (depth : ℕ) (hdepth : 1 ≤ depth)
    (entries : Forest) :
    Way Climbs (l :: more) (insideNoted opts l depth entries) (l :: more) := by
  cases entries with
  | nil => exact .nil _
  | cons bytes node rest =>
    simp only [insideNoted]
    split
    · exact plain_climbs .fail
    · next name _ =>
      refine Way.append ?_ (inside_climbs l more depth hdepth rest)
      split
      · exact .nil _
      · exact entry_climbs l more name (depth + 1) (by omega) node

end

/-- A directory that is sent whole. -/
theorem dir_climbs (name : Option Name) (rel : Path) (mode : ℕ) (mtime : Option Time)
    (entries : Forest) : Way Climbs [] (dirNoted opts name rel mode mtime entries) [] := by
  refine framed_climbs ?_ (inside_climbs opts _ [] 1 le_rfl entries)
  cases name with
  | none => exact .contents rfl
  | some name => exact .top rfl

/-- A source ends where it began. -/
theorem source_climbs (s : Source) : Way Climbs [] (sourceNoted opts s) [] := by
  cases s with
  | path path found =>
    cases found with
    | dir mode mtime entries =>
      simp only [sourceNoted]
      split
      · exact plain_climbs .fail
      · exact dir_climbs opts _ _ _ _ _
    | _ =>
      simp only [sourceNoted, source]
      split
      · exact plain_climbs .fail
      · generalize (if bringsContents path = true then none
          else (fileName path).bind Name.new) = name
        cases name <;> first | exact plain_climbs .fail | exact plain_climbs .file
  | beneath path found =>
    cases hlast : path.getLast? with
    | none =>
      cases found with
      | dir mode mtime entries =>
        simp only [sourceNoted, hlast]
        exact dir_climbs opts none path mode mtime entries
      | _ =>
        simp only [sourceNoted, source, hlast]
        exact plain_climbs .fail
    | some last =>
      simp only [sourceNoted, hlast]
      cases found with
      | dir mode mtime entries =>
        simp only [entryNoted, if_true]
        exact framed_climbs (.top rfl) (inside_climbs opts _ [] 1 le_rfl entries)
      | failing error => exact entry_climbs_plain opts (by simp)
      | file file => exact entry_climbs_plain opts (by simp)
      | link target => exact entry_climbs_plain opts (by simp)
      | other => exact entry_climbs_plain opts (by simp)

/-- In the walk, directories are opened and ended in pairs, each where its level says. -/
theorem noted_climbs (sources : List Source) : Way Climbs [] (noted opts sources) [] := by
  induction sources with
  | nil => exact .nil _
  | cons s sources ih => exact (source_climbs opts s).append ih

end Sender

/-! ### What the receiver opens and ends -/

namespace Receiver

/-- The paths of the directories that are open, the innermost first. -/
def rels (r : Receiver) : List Path := r.opened.map (·.dir.rel)

/-- What an item does to the directories that are open. -/
def Opens (r : Receiver) (i : Item) (r' : Receiver) : Prop :=
  match i with
  | .dirEnd => r'.tree = r.tree ∧ ∃ rel, r.rels = rel :: r'.rels
  | .dir name _ _ => match r.rels with
    | [] => r'.rels = [r'.tree]
    | up :: more => r'.rels = (up ++ [name]) :: up :: more ∧ r'.tree = r.tree
  | .contents _ _ => r.rels = [] ∧ r'.rels = [r'.tree]
  | _ => r'.rels = r.rels ∧ r'.tree = r.tree

section

variable {r r' : Receiver} (digest : Digest)

theorem rels_of_dirs {opened opened' : List Open}
    (h : opened'.map Open.dir = opened.map Open.dir) :
    opened'.map (·.dir.rel) = opened.map (·.dir.rel) := by
  have hrels := congrArg (List.map Dir.rel) h
  rw [List.map_map, List.map_map] at hrels
  exact hrels

/-- The paths are as they were where the directories are. -/
theorem rels_still {s : Receiver} (hstill : Still s r')
    (hdirs : s.opened.map Open.dir = r.opened.map Open.dir) (htree : s.tree = r.tree) :
    r'.rels = r.rels ∧ r'.tree = r.tree :=
  ⟨rels_of_dirs (hstill.opened ▸ hdirs), hstill.tree.trans htree⟩

theorem io_still {α : Type} {x : Fs α} (rel : Path) : Gives (io rel x) (fun _ => Still r) r := by
  rw [Gives, wp_io]
  simp only [wp]
  split
  · exact still_world _
  · trivial

theorem openMade_still (parent : Dir) (name : Name) (rel : Path) (made : Bool) :
    Gives (openMade parent name rel made) (fun _ => Still r) r := by
  rw [Gives, openMade, wp_bind, wp_get]
  dsimp only
  split
  · next dir _ _ =>
    have hmake : Gives (onlyIf (made = true) (io rel (makeDir dir name))) (fun _ => Still r) r := by
      rw [Gives, wp_onlyIf]
      exact ⟨fun _ => io_still rel, fun _ => .refl r⟩
    refine Gives.bind hmake fun _ r₁ h₁ => ?_
    rw [Gives, wp_map]
    exact Gives.mono (io_still rel) fun _ _ h₂ => h₁.trans h₂
  · exact .refl r

/-- A directory that is entered is a level more. -/
theorem enter_opens (parent : Dir) (name : Name) (mode : Mode) (mtime : Option Time) :
    Gives (enter parent name mode mtime) (fun _ r' =>
      r'.rels = (parent.rel ++ [name]) :: r.rels ∧
        r'.tree = if r.opened.isEmpty then parent.rel ++ [name] else r.tree) r := by
  rw [Gives, enter, wp_bind, wp_get, wp_bind, wp_get, wp_bind, wp_onlyIf]
  refine ⟨fun _ => trivial, fun _ => ?_⟩
  refine Gives.bind (saw_gives name) ?_
  rintro _ r₁ ⟨h₁, _⟩
  refine Gives.bind (clearWay_gives parent name _) ?_
  rintro made r₂ ⟨h₂, _⟩
  refine Gives.bind (onlyIf_still fun _ => count_gives _) ?_
  rintro _ r₃ ⟨h₃, _⟩
  refine Gives.bind (onlyIf_still fun _ => count_gives _) ?_
  rintro _ r₄ ⟨h₄, _⟩
  refine Gives.bind (openMade_still parent name _ made) fun fd r₅ h₅ => ?_
  have hstill := (((h₁.trans h₂).trans h₃).trans h₄).trans h₅
  have hopened : r₅.opened = sawIn name r.opened := hstill.opened
  have hempty : r₅.opened.isEmpty = r.opened.isEmpty := by
    rw [hopened, Bool.eq_iff_iff, List.isEmpty_iff, List.isEmpty_iff, sawIn_eq_nil]
  have hrels : r₅.rels = r.rels := rels_of_dirs (hopened ▸ sawIn_dirs name r.opened)
  have htree : r₅.tree = r.tree := hstill.tree
  refine ⟨congrArg (List.cons (parent.rel ++ [name])) hrels, ?_⟩
  simp only [hempty, htree]

/-- A directory comes where entries go. -/
theorem spot_enter_opens (name : Name) (mode : Mode) (mtime : Option Time) :
    Gives (enter (r.spot name).1 (r.spot name).2 mode mtime) (fun _ r' =>
      match r.rels with
      | [] => r'.rels = [r'.tree]
      | up :: more => r'.rels = (up ++ [name]) :: up :: more ∧ r'.tree = r.tree) r.stepped := by
  refine Gives.mono (enter_opens _ _ mode mtime) ?_
  rintro - r' ⟨hrels, htree⟩
  cases hopened : r.opened with
  | nil => simp_all [rels, spot, stepped]
  | cons o more => simp_all [rels, spot, stepped]

/-- The target's contents are the first level. -/
theorem contents_opens (mode : Mode) (mtime : Option Time) (hopened : r.opened = []) :
    Gives (contents mode mtime) (fun _ r' => r'.rels = [r'.tree]) r := by
  rw [Gives, contents, wp_bind, wp_get]
  split
  · next named _ =>
    refine place_bind_gives (f := fun at_ => enter at_.1 at_.2 mode mtime) ?_
    refine Gives.mono (spot_enter_opens named mode mtime) fun _ r' h => ?_
    simpa [rels, hopened] using h
  · simp [open_, rels, hopened]

/-- What every item between files opens. -/
theorem itemBetween_opens (i : Item) :
    Gives (itemBetween digest i) (fun _ r' => r.Opens i r') r := by
  have hthen : ∀ {x : Rx Unit} {r₀ : Receiver}, Gives x (fun _ r' => r.Opens i r') r₀ →
      Gives (do x; return Heard.nothing) (fun _ r' => r.Opens i r') r₀ := by
    intro x r₀ hx
    exact Gives.bind hx fun _ r' h => h
  cases i with
  | allDone =>
    rw [Gives, itemBetween, wp_bind, wp_get, wp_bind, wp_onlyIf]
    exact ⟨fun _ => trivial, fun _ => ⟨rfl, rfl⟩⟩
  | failed failure => trivial
  | dirEnd =>
    refine hthen (Gives.mono leave_gives ?_)
    rintro - r' ⟨dir, seen, more, hopened, hstill, -, -⟩
    exact ⟨hstill.tree, dir.rel, by simp [rels, hopened, hstill.opened]⟩
  | skipped name =>
    rw [Gives, itemBetween, wp_bind, wp_get, wp_bind, wp_onlyIf]
    refine ⟨fun _ => trivial, fun _ => ?_⟩
    refine Gives.bind (saw_gives name) ?_
    rintro _ r₁ ⟨h₁, _⟩
    refine Gives.bind (count_gives _) ?_
    rintro _ r₂ ⟨h₂, _⟩
    exact rels_still (h₁.trans h₂) (sawIn_dirs _ _) rfl
  | data id start =>
    rw [Gives, itemBetween, wp_bind, wp_get, wp_bind, wp_onlyIf]
    refine ⟨fun _ => trivial, fun _ => hthen (Gives.mono (data_gives digest id start) ?_)⟩
    rintro - r' ⟨p, fd, old, mode, mtime, -, -, hstill, -⟩
    exact rels_still (r := r) hstill rfl rfl
  | differs id start =>
    rw [Gives, itemBetween, wp_bind, wp_get, wp_bind, wp_onlyIf]
    refine ⟨fun _ => trivial, fun _ => hthen (Gives.mono (differs_gives id start) ?_)⟩
    rintro - r' ⟨p, -, hstill, -⟩
    exact rels_still (r := r) hstill rfl rfl
  | same id =>
    refine hthen (Gives.mono (same_gives id) ?_)
    rintro - r' ⟨p, -, hstill, -⟩
    exact rels_still (r := r) hstill rfl rfl
  | contents mode mtime =>
    rw [Gives, itemBetween, wp_bind, wp_get, wp_bind, wp_onlyIf]
    refine ⟨fun _ => trivial, fun hno => hthen ?_⟩
    rw [Bool.not_eq_false, List.isEmpty_iff] at hno
    exact Gives.mono (contents_opens mode mtime hno) fun _ _ h => ⟨by simp [rels, hno], h⟩
  | dir name mode mtime =>
    refine place_bind_gives (hthen (x := enter (r.spot name).1 (r.spot name).2 mode mtime) ?_)
    exact spot_enter_opens name mode mtime
  | file header =>
    refine place_bind_gives ?_
    rw [Gives, wp_map]
    refine Gives.mono (file_gives digest _ _) ?_
    rintro answer r' ⟨-, -, p, -, -, hstill, -⟩
    exact rels_still hstill (by simp) (by simp)
  | symlink name target =>
    refine place_bind_gives (hthen (x := symlink digest (r.spot name).1 (r.spot name).2 target) ?_)
    refine Gives.mono (symlink_gives digest _ _ target) ?_
    rintro - r' ⟨hstill, -⟩
    exact rels_still hstill (by simp) (by simp)
  | chunk c => trivial
  | sent => trivial

/-- What an item that ends well did to the directories that are open. -/
theorem item_opens {i : Item} {h : Heard} (hitem : item digest i r = .ok h r') : r.Opens i r' := by
  have hgives : Gives (item digest i) (fun _ r' => r.Opens i r') r := by
    rw [Gives, item, wp_bind, wp_get]
    split
    · next rc _ =>
      cases i with
      | chunk c =>
        refine Gives.bind (chunk_gives rc c.bytes) ?_
        rintro _ r' ⟨hstill, _⟩
        exact rels_still (r := r) hstill rfl rfl
      | sent =>
        refine Gives.bind (finish_gives digest rc) ?_
        rintro _ r' ⟨hstill, _⟩
        exact rels_still (r := r) hstill rfl rfl
      | _ => trivial
    · exact itemBetween_opens digest i
  exact wp_of_ok (x := item digest i) hgives hitem

end

end Receiver

/-! ### Items, and the commands that brought them -/

/-- The item that a command brings. -/
inductive Cmd.Brings : Cmd → Item → Prop
  | item {i : Item} : Brings (.item i) i
  | symlink {name : Name} {target : LinkTarget} :
      Brings (.symlink name target) (.symlink name target)
  | file {id : FileId} {file : SourceFile} {name : Name} {path : Bytes} :
      Brings (.file file name path) (.file (Sender.header id name file))

/-- An item that no command brings: of a file whose header was answered, or the last. -/
def Item.Late : Item → Prop
  | .data _ _ | .chunk _ | .sent | .same _ | .differs _ _ | .allDone | .failed _ => True
  | _ => False

/-- Items that commands brought, in their order, among late ones. -/
inductive Brought : List Cmd → List Item → Prop
  | nil : Brought [] []
  | cmd {c : Cmd} {i : Item} {cmds : List Cmd} {items : List Item} : c.Brings i →
      Brought cmds items → Brought (c :: cmds) (i :: items)
  | late {i : Item} {cmds : List Cmd} {items : List Item} : i.Late →
      Brought cmds items → Brought cmds (i :: items)

namespace Brought

variable {cmds cmds' : List Cmd} {items items' : List Item}

/-- One part of a walk after another. -/
theorem append (h : Brought cmds items) (h' : Brought cmds' items') :
    Brought (cmds ++ cmds') (items ++ items') := by
  induction h with
  | nil => exact h'
  | cmd hbrings _ ih => exact .cmd hbrings ih
  | late hlate _ ih => exact .late hlate ih

/-- What a walk brought is brought by its parts. -/
theorem split (h : Brought cmds (items ++ items')) :
    ∃ first last, cmds = first ++ last ∧ Brought first items ∧ Brought last items' := by
  induction items generalizing cmds with
  | nil => exact ⟨[], cmds, rfl, .nil, h⟩
  | cons i items ih =>
    cases h with
    | cmd hbrings hrest =>
      obtain ⟨first, last, rfl, hfirst, hlast⟩ := ih hrest
      exact ⟨_ :: first, last, rfl, .cmd hbrings hfirst, hlast⟩
    | late hlate hrest =>
      obtain ⟨first, last, rfl, hfirst, hlast⟩ := ih hrest
      exact ⟨first, last, rfl, .late hlate hfirst, hlast⟩

/-- One item. -/
theorem one {i : Item} (h : Brought cmds [i]) :
    (∃ c, cmds = [c] ∧ c.Brings i) ∨ cmds = [] ∧ i.Late := by
  cases h with
  | cmd hbrings hrest =>
    cases hrest
    exact .inl ⟨_, rfl, hbrings⟩
  | late hlate hrest =>
    cases hrest
    exact .inr ⟨rfl, hlate⟩

end Brought

/-! ### The receiver alongside the walk -/

theorem Path.within_append (tree sub : Path) : Path.within tree (tree ++ sub) = sub := by
  have hprefix : tree.isPrefixOf (tree ++ sub) = true := by simp
  rw [Path.within, if_pos hprefix, List.drop_left]

namespace Receiver

/-- The directories open are those of the walk: each is as far below the top as there. -/
def Along (r : Receiver) (levels : List Level) : Prop :=
  List.Forall₂ (fun rel l => ∃ sub, rel = r.tree ++ sub ∧ l.rel = l.tree ++ sub) r.rels levels

variable {r r' : Receiver} {levels levels' : List Level} {i : Item}

/-- The same path is matched of an entry, at both ends. -/
theorem Along.path {l : Level} {more : List Level} {o : Open} {opened : List Open}
    (h : r.Along (l :: more)) (hopened : r.opened = o :: opened) (entry : Name) :
    r.path o.dir entry = l.path entry := by
  simp only [Along, rels, hopened, List.map_cons, List.forall₂_cons] at h
  obtain ⟨⟨sub, hrel, hlevel⟩, -⟩ := h
  rw [Receiver.path, Level.path, hrel, hlevel, List.append_assoc, List.append_assoc, Path.within_append,
    Path.within_append]

/-- Nothing is opened. -/
theorem Along.same (h : r.Along levels) (hsame : r'.rels = r.rels ∧ r'.tree = r.tree) :
    r'.Along levels := by
  rw [Along, hsame.1, hsame.2]
  exact h

/-- What comes late opens nothing. -/
theorem Along.late (h : r.Along levels) (hopens : r.Opens i r') (hlate : i.Late) :
    r'.Along levels := by
  cases i with
  | dir | contents | file | symlink | dirEnd | skipped => exact hlate.elim
  | _ => exact h.same hopens

/-- The one directory open is the one at the top. -/
theorem along_top {l : Level} (hl : l.rel = l.tree) (hrels : r'.rels = [r'.tree]) :
    r'.Along [l] := by
  rw [Along, hrels]
  exact .cons ⟨[], by simp, by simp [hl]⟩ .nil

/-- The receiver climbs with the sender. -/
theorem Along.climb {c : Cmd} {l : Option Level} (h : r.Along levels) (hopens : r.Opens i r')
    (hbrings : c.Brings i) (hclimb : Climbs levels (c, l) levels') : r'.Along levels' := by
  cases hclimb with
  | top hl =>
    cases hbrings
    have hrels : r.rels = [] := List.forall₂_nil_right_iff.mp h
    simp only [Opens, hrels] at hopens
    exact along_top hl hopens
  | contents hl =>
    cases hbrings
    exact along_top hl hopens.2
  | @sub name mode mtime l up more htree hrel =>
    cases hbrings
    unfold Along at h
    obtain ⟨rel, rels, ⟨sub, hsub, hup⟩, hmore, hrels⟩ := List.forall₂_cons_right_iff.mp h
    simp only [Opens, hrels] at hopens
    rw [Along, hopens.1, hopens.2]
    refine .cons ⟨sub ++ [name], ?_, ?_⟩ (.cons ⟨sub, hsub, hup⟩ hmore)
    · rw [hsub, List.append_assoc]
    · rw [hrel, hup, htree, List.append_assoc]
  | ended =>
    cases hbrings
    obtain ⟨htree, rel, hrels⟩ := hopens
    rw [Along, hrels] at h
    cases h with
    | cons _ hmore =>
      rw [Along, htree]
      exact hmore
  | skipped =>
    cases hbrings
    exact h.same hopens
  | symlink =>
    cases hbrings
    exact h.same hopens
  | file =>
    cases hbrings
    exact h.same hopens
  | fail => cases hbrings

/-- Fed what commands brought, the receiver is alongside them. -/
theorem Fed.along {digest : Digest} {r₀ : Receiver} {items : List Item} {cmds : List Noted}
    {levels₀ : List Level} (h : Fed digest r₀ items r) (hr₀ : r₀.Along levels₀)
    (hbrought : Brought (cmds.map Prod.fst) items) (hway : Way Climbs levels₀ cmds levels) :
    r.Along levels := by
  induction h generalizing cmds levels with
  | nil =>
    cases cmds with
    | nil => exact hway.eq_of_nil ▸ hr₀
    | cons c cmds => cases hbrought
  | @snoc items r r' i heard _ hitem _ ih =>
    obtain ⟨first, last, hcmds, hfirst, hlast⟩ := hbrought.split
    obtain ⟨before, after, rfl, rfl, rfl⟩ := List.map_eq_append_iff.mp hcmds
    obtain ⟨levels₁, hbefore, hafter⟩ := hway.split
    have halong := ih hfirst hbefore
    have hopens := item_opens digest hitem
    rcases hlast.one with ⟨c, hc, hbrings⟩ | ⟨hnil, hlate⟩
    · obtain ⟨noted, hnoted, rfl⟩ := List.map_eq_singleton_iff.mp hc
      rw [hnoted] at hafter
      obtain ⟨levels₂, hclimb, hend⟩ := hafter.uncons
      exact hend.eq_of_nil ▸ halong.climb hopens hbrings hclimb
    · rw [List.map_eq_nil_iff] at hnil
      subst hnil
      exact hafter.eq_of_nil ▸ halong.late hopens hlate

end Receiver

/-! ### What the sender writes -/

namespace Sender

variable {size : Item → ℕ} {digest : Bytes → Bytes} {there : Bool} {s s' : Sender} {out out' : Out}

/-- From a sender to it as it is next, what was written, one item at most, was brought by the
commands carried out. -/
def Wrote (s : Sender) (out : Out) (s' : Sender) (out' : Out) : Prop :=
  ∃ cmds items, s.todo = cmds ++ s'.todo ∧ out'.items = out.items ++ items ∧ Brought cmds items ∧
    items.length ≤ 1

/-- Nothing is carried out. -/
theorem Wrote.quiet (htodo : s'.todo = s.todo) (hitems : out'.items = out.items) :
    Wrote s out s' out' := ⟨[], [], htodo.symm, by simp [hitems], .nil, Nat.zero_le 1⟩

/-- Either the item is written, or the stream is gone and nothing is carried out. -/
theorem put_wrote {i : Item} {next : Sender} {x : Sender × Out}
    (h : put size there s out i next = some x)
    (hnext : ∀ out', out'.items = out.items ++ [i] → Wrote s out next out') :
    Wrote s out x.1 x.2 := by
  unfold put at h
  split at h
  · next out₁ hwent =>
    cases h
    exact hnext out₁ (Out.item_went hwent)
  · cases h
  · cases h
    exact .quiet rfl rfl

theorem put_late {i : Item} {next : Sender} {x : Sender × Out} (hlate : i.Late)
    (h : put size there s out i next = some x) (htodo : next.todo = s.todo) :
    Wrote s out x.1 x.2 :=
  put_wrote h fun _ hitems => ⟨[], [i], htodo.symm, hitems, .late hlate .nil, le_rfl⟩

/-- The next item of the walk is written. -/
theorem put_next {c : Cmd} {i : Item} {next : Sender} {x : Sender × Out} (hbrings : c.Brings i)
    (htodo : s.todo = c :: next.todo) (h : put size there s out i next = some x) :
    Wrote s out x.1 x.2 :=
  put_wrote h fun _ hitems => ⟨[c], [i], htodo, hitems, .cmd hbrings .nil, le_rfl⟩

/-- The walk goes on by what is written. -/
theorem walkOn_wrote {x : Sender × Out} (h : walkOn size there s out = some x) :
    Wrote s out x.1 x.2 := by
  unfold walkOn at h
  split at h
  · cases h
    exact .quiet rfl rfl
  · next htodo => exact put_next .item htodo h
  · next htodo => exact put_next .symlink htodo h
  · next htodo => exact put_next .file htodo h
  · cases h
    exact .quiet rfl rfl

/-- An answer writes nothing of the walk. -/
theorem act_wrote {answer : Answer} {x : Sender × Out}
    (h : act size digest there s out answer = some x) : Wrote s out x.1 x.2 := by
  unfold act at h
  split at h
  · cases h
    exact .quiet rfl rfl
  · dsimp only at h
    split at h
    · cases h
      exact .quiet rfl rfl
    -- What is pending is not what is left of the walk.
    · exact (put_late (i := .same _) trivial h rfl : Wrote { s with pending := _ } out x.1 x.2)
    · split at h
      · exact (put_late (i := .differs _ _) trivial h rfl : Wrote { s with pending := _ } _ _ _)
      · exact (put_late (i := .data _ _) trivial h rfl : Wrote { s with pending := _ } _ _ _)

theorem hear_todo (s : Sender) (reply : Reply) : (s.hear reply).todo = s.todo := by
  cases reply <;> rfl

theorem lastItem_late (sent : Except Failure Unit) : (lastItem sent).Late := by
  cases sent <;> trivial

/-- Whatever the sender does next, what it writes was brought by the commands carried out. -/
theorem step_wrote {sees : Bool} {k : ℕ} {replies replies' : List Reply}
    (h : s.step size digest there sees k out replies = some ((s', out'), replies')) :
    Wrote s out s' out' := by
  unfold step at h
  split at h
  · obtain ⟨x, hx, heq⟩ := Option.map_eq_some_iff.mp h
    cases heq
    exact walkOn_wrote hx
  · split at h
    · next hflush =>
      cases h
      exact .quiet rfl (Out.flush_went hflush).1
    · cases h
    · cases h
      exact .quiet rfl rfl
  · split at h
    · cases h
      exact .quiet (hear_todo s _) rfl
    · cases h
  · split at h
    · cases h
      exact .quiet (hear_todo s _) rfl
    · cases h
      exact .quiet rfl rfl
  · obtain ⟨x, hx, heq⟩ := Option.map_eq_some_iff.mp h
    cases heq
    exact act_wrote hx
  · split at h
    · cases h
      exact .quiet rfl rfl
    · obtain ⟨x, hx, heq⟩ := Option.map_eq_some_iff.mp h
      cases heq
      exact put_late (by trivial) hx rfl
    · obtain ⟨x, hx, heq⟩ := Option.map_eq_some_iff.mp h
      cases heq
      exact put_late (by trivial) hx rfl
  · next sent _ =>
    split at h
    · next hwent =>
      cases h
      exact ⟨[], [lastItem sent], rfl, Out.item_went hwent, .late (lastItem_late sent) .nil, le_rfl⟩
    · cases h
    · cases h
      exact .quiet rfl rfl
  · split at h
    · next hflush =>
      cases h
      exact .quiet rfl (Out.flush_went hflush).1
    · cases h
    · cases h
      exact .quiet rfl rfl
  · split at h
    · cases h
      exact .quiet rfl rfl
    · cases h
      exact .quiet rfl rfl
    · cases h
  · cases h

end Sender

/-! ### Both ends -/

namespace Net

variable {size : Item → ℕ} {digest : Digest} {walk : List Cmd} {r₀ : Receiver} {n n' : Net}

/-- Of given items read, and those on their way: the commands carried out brought them. -/
def Carried (walk : List Cmd) (read : List Item) (n : Net) : Prop :=
  ∃ cmds, walk = cmds ++ n.sender.todo ∧ Brought cmds (read ++ (n.inbox ++ n.out.items))

/-- A move loses nothing that is on its way, and lets nothing overtake it: the receiver reads the
first of it, or none, and behind it comes what the sender writes, one item at most. -/
def Passes (n : Net) (m : Move) (n' : Net) : Prop :=
  ∃ cmds written, n.sender.todo = cmds ++ n'.sender.todo ∧ Brought cmds written ∧
    (written = [] ∨ ∃ sees k i, m = .send sees k ∧ written = [i]) ∧
    n.readIn m ++ (n'.inbox ++ n'.out.items) = n.inbox ++ n.out.items ++ written

/-- Nothing is written. -/
theorem Passes.quiet {m : Move} (htodo : n'.sender.todo = n.sender.todo)
    (hway : n.readIn m ++ (n'.inbox ++ n'.out.items) = n.inbox ++ n.out.items) :
    n.Passes m n' :=
  ⟨[], [], htodo.symm, .nil, .inl rfl, by rw [hway, List.append_nil]⟩

/-- What the sender writes comes last. -/
theorem Passes.send {sees : Bool} {k : ℕ} {s : Sender} {out : Out} {replies : List Reply}
    (hwrote : n.sender.Wrote n.out s out) :
    n.Passes (.send sees k) { n with sender := s, out := out, replies := replies } := by
  obtain ⟨cmds, items, htodo, hitems, hbrought, hlength⟩ := hwrote
  refine ⟨cmds, items, htodo, hbrought, ?_, ?_⟩
  · rcases items with _ | ⟨i, _ | ⟨_, _⟩⟩
    · exact .inl rfl
    · exact .inr ⟨sees, k, i, rfl, rfl⟩
    · simp at hlength
  · rw [readIn_quiet (by simp), List.nil_append, hitems, List.append_assoc]

/-- What the receiver reads was the first. -/
theorem Passes.read {i : Item} {rest : List Item} (hinbox : n.inbox = i :: rest) :
    n.Passes .receive (n.read digest i rest) := by
  have hsame : (n.read digest i rest).sender = n.sender ∧ (n.read digest i rest).out = n.out ∧
      (n.read digest i rest).inbox = rest := by
    unfold Net.read
    split <;> exact ⟨rfl, rfl, rfl⟩
  obtain ⟨hsender, hout, hrest⟩ := hsame
  refine .quiet (by rw [hsender]) ?_
  rw [readIn, hinbox, hout, hrest]
  rfl

/-- Every move of the two passes on what is on its way. -/
theorem step_passes {m : Move} (hstep : n.step size digest m = some n') : n.Passes m n' := by
  cases m with
  | send sees k =>
    obtain ⟨x, hx, rfl⟩ := Option.map_eq_some_iff.mp hstep
    exact .send (Sender.step_wrote hx)
  | take =>
    simp only [Net.step] at hstep
    split at hstep
    · next message pipe _ hinbox hpipe =>
      cases hstep
      refine .quiet rfl ?_
      rw [readIn_quiet (by simp)]
      simp [hinbox, Out.items, hpipe]
    · cases hstep
  | receive =>
    rcases step_cases hstep with ⟨hno, -⟩ | ⟨i, rest, -, -, hinbox, rfl⟩ | ⟨-, -, hinbox, rfl⟩
    · exact absurd rfl hno
    · exact .read hinbox
    · exact .quiet rfl (by rw [readIn, hinbox]; rfl)
  | tell =>
    simp only [Net.step] at hstep
    split at hstep
    · split at hstep
      · cases hstep
        exact .quiet rfl (by rw [readIn_quiet (by simp)]; rfl)
      · cases hstep
    · cases hstep

/-- Every step of the two carries the walk. -/
theorem Carried.step {read : List Item} {m : Move} (h : n.Carried walk read)
    (hstep : n.step size digest m = some n') : n'.Carried walk (read ++ n.readIn m) := by
  obtain ⟨cmds, hwalk, hbrought⟩ := h
  obtain ⟨more, written, htodo, hmore, -, hway⟩ := step_passes hstep
  refine ⟨cmds ++ more, by rw [hwalk, htodo, List.append_assoc], ?_⟩
  rw [List.append_assoc, hway, ← List.append_assoc]
  exact hbrought.append hmore

/-- While the receiver goes on, it is as a move found it, or read an item of it. -/
theorem step_goes {m : Move} (hstep : n.step size digest m = some n') (hnone : n'.outcome = none) :
    n.outcome = none ∧ (m ≠ .receive ∧ n'.receiver = n.receiver ∨ ∃ i rest heard, m = .receive ∧
      n.inbox = i :: rest ∧ Receiver.item digest i n.receiver = .ok heard n'.receiver ∧
        ∀ s, heard ≠ .over s) := by
  rcases step_cases hstep with ⟨hno, hreceiver, houtcome⟩ | ⟨i, rest, hm, hbefore, hinbox, rfl⟩ |
    ⟨-, -, -, rfl⟩
  · exact ⟨houtcome ▸ hnone, .inl ⟨hno, hreceiver⟩⟩
  · obtain ⟨heard, hitem, hover⟩ := read_goes hnone
    exact ⟨hbefore, .inr ⟨i, rest, heard, hm, hinbox, hitem, hover⟩⟩
  · cases hnone

/-- In every run, what the receiver read and what is on its way is what the commands carried out
brought, and the receiver is what reading the former makes of it. -/
theorem reachable_carries {sources : List Source} {opts : Opts} {disk : Disk} {target : Target}
    (h : Reachable size digest (start sources opts disk target) n) :
    ∃ read, n.Carried (Sender.walk opts sources) read ∧
      n.Reads digest (.start ⟨disk, []⟩ target opts) read := by
  induction h with
  | refl => exact ⟨[], ⟨[], rfl, .nil⟩, .nil⟩
  | tail _ hstep ih =>
    obtain ⟨m, hm⟩ := hstep
    obtain ⟨read, hcarried, hreads⟩ := ih
    exact ⟨_, hcarried.step hm, hreads.step hm⟩

/-- **No item is lost, doubled or overtaken**: in every run, the sender carried out the first
commands of its walk, and what they brought is what the receiver read, then what is left of the
message that it reads, then what waits in the channel. The receiver is what reading its part makes
of it, however the moves of the two came. And the next move passes all of it on, as it is. -/
theorem reachable_reads {sources : List Source} {opts : Opts} {disk : Disk} {target : Target}
    (h : Reachable size digest (start sources opts disk target) n) :
    ∃ cmds read, Sender.walk opts sources = cmds ++ n.sender.todo ∧
      Brought cmds (read ++ (n.inbox ++ n.out.items)) ∧
      n.Reads digest (.start ⟨disk, []⟩ target opts) read ∧
      ∀ m n', n.step size digest m = some n' → n.Passes m n' := by
  obtain ⟨read, ⟨cmds, hwalk, hbrought⟩, hreads⟩ := reachable_carries h
  exact ⟨cmds, read, hwalk, hbrought, hreads, fun _ _ => step_passes⟩

/-- In `reachable_reads`, the receiver read the first of the three items of a message. -/
theorem reachable_reads_one :
    let opts : Opts := ⟨false, false, false, ⟨[], Nat.zero_le _⟩⟩
    let sources : List Source := [.path [0x61] (.dir 0o755 none .nil)]
    ∃ n, Reachable (fun _ => 1) id (start sources opts bareDisk (.into (some 0))) n ∧
      n.outcome = none ∧ n.inbox = [.dirEnd, .allDone] ∧ n.out.items = [] ∧ n.sender.todo = [] ∧
      ∃ cmds read, Sender.walk opts sources = cmds ++ n.sender.todo ∧
        Brought cmds (read ++ (n.inbox ++ n.out.items)) ∧
        n.Reads id (.start ⟨bareDisk, []⟩ (.into (some 0)) opts) read ∧
        ∀ m n', n.step (fun _ => 1) id m = some n' → n.Passes m n' := by
  intro opts sources
  have hrun : (run (fun _ => 1) id (start sources opts bareDisk (.into (some 0)))
      (List.replicate 5 (.send false 0) ++ [.take, .receive])).map
        (fun n => (n.outcome.isNone, n.inbox, n.out.items, n.sender.todo.isEmpty)) =
      some (true, [.dirEnd, .allDone], [], true) := by
    decide +kernel
  obtain ⟨n, hn, hseen⟩ := Option.map_eq_some_iff.mp hrun
  simp only [Prod.mk.injEq, Option.isNone_iff_eq_none, List.isEmpty_iff] at hseen
  obtain ⟨hnone, hinbox, hitems, htodo⟩ := hseen
  have hreach := reachable_of_run hn
  exact ⟨n, hreach, hnone, hinbox, hitems, htodo, reachable_reads hreach⟩

/-- **Both ends match the same path of an entry**, whatever the sources and the target are, and
whatever order the ends take turns in. The end of a directory that the receiver is to read, and so
prune, is that of a directory of the walk, all that the walk has before it being read; and of every
entry, the path that excludes match is the same in the two. -/
theorem paths_agree {sources : List Source} {opts : Opts} {disk : Disk} {target : Target}
    {rest : List Item} (h : Reachable size digest (start sources opts disk target) n)
    (hnone : n.outcome = none) (hnext : n.inbox = .dirEnd :: rest) :
    ∃ before l after read o opened,
      Sender.noted opts sources = before ++ (.item .dirEnd, some l) :: after ∧
      Receiver.Fed digest (.start ⟨disk, []⟩ target opts) read n.receiver ∧
      Brought (before.map Prod.fst) read ∧ n.receiver.opened = o :: opened ∧
      ∀ entry, n.receiver.path o.dir entry = l.path entry := by
  obtain ⟨read, ⟨cmds, hwalk, hbrought⟩, hreads⟩ := reachable_carries h
  have hfed := hreads.fed hnone
  rw [hnext, List.cons_append] at hbrought
  obtain ⟨first, last, rfl, hfirst, hlast⟩ := hbrought.split
  cases hlast with
  | late hlate => exact hlate.elim
  | @cmd c _ last _ hbrings _ =>
    cases hbrings
    -- The walk is that of the noted one, and so are the commands carried out.
    rw [← Sender.noted_walk, List.append_assoc] at hwalk
    obtain ⟨before, after, hnoted, rfl, hafter⟩ := List.map_eq_append_iff.mp hwalk
    obtain ⟨x, after, rfl, hx, -⟩ := List.map_eq_cons_iff.mp hafter
    have hway := Sender.noted_climbs opts sources
    rw [hnoted] at hway
    obtain ⟨levels, hbefore, hrest⟩ := hway.split
    obtain ⟨levels', hclimb, -⟩ := hrest.uncons
    have halong := hfed.along .nil hfirst hbefore
    obtain ⟨c, label⟩ := x
    cases hx
    cases hclimb with
    | @ended l more =>
      cases hopened : n.receiver.opened with
      | nil =>
        rw [Receiver.Along, Receiver.rels, hopened] at halong
        cases halong
      | cons o opened =>
        exact ⟨before, l, after, read, o, opened, hnoted, hfed, hfirst, rfl, halong.path hopened⟩

/-- In `paths_agree`, the directory `b` within `a` is to be pruned, `a` landing as `c`. -/
theorem paths_agree_renamed :
    let opts : Opts := ⟨false, true, false, ⟨[], by decide⟩⟩
    let sources : List Source := [.path [0x61] (.dir 0o755 none
      (.cons [0x62] (.dir 0o755 none .nil) .nil))]
    let target : Target := .named (some 0) ⟨[0x63], by decide⟩
    ∃ n, Reachable (fun _ => 1) id (start sources opts bareDisk target) n ∧
      n.outcome = none ∧ n.inbox = [.dirEnd, .dirEnd, .allDone] ∧
      ∃ before l after read o opened,
        Sender.noted opts sources = before ++ (.item .dirEnd, some l) :: after ∧
        Receiver.Fed id (.start ⟨bareDisk, []⟩ target opts) read n.receiver ∧
        Brought (before.map Prod.fst) read ∧ n.receiver.opened = o :: opened ∧
        ∀ entry, n.receiver.path o.dir entry = l.path entry := by
  intro opts sources target
  have hrun : (run (fun _ => 1) id (start sources opts bareDisk target)
      (List.replicate 7 (.send true 0) ++ [.take, .receive, .receive])).map
        (fun n => (n.outcome.isNone, n.inbox)) = some (true, [.dirEnd, .dirEnd, .allDone]) := by
    decide +kernel
  obtain ⟨n, hn, hobserved⟩ := Option.map_eq_some_iff.mp hrun
  rw [Prod.mk.injEq, Option.isNone_iff_eq_none] at hobserved
  have hreach := reachable_of_run hn
  exact ⟨n, hreach, hobserved.1, hobserved.2, paths_agree hreach hobserved.1 hobserved.2⟩

/-! ### The tree -/

/-- Until the receiver fails, its directories are where their paths say. -/
theorem step_rooted {top : DirId} {m : Move}
    (h : (∀ failure, n.outcome ≠ some (.error failure)) → Rooted digest top n.receiver)
    (hstep : n.step size digest m = some n')
    (hok : ∀ failure, n'.outcome ≠ some (.error failure)) : Rooted digest top n'.receiver := by
  rcases step_cases hstep with ⟨-, hreceiver, houtcome⟩ | ⟨i, rest, -, hnone, -, rfl⟩ |
    ⟨-, -, -, rfl⟩
  · rw [hreceiver]
    exact h (houtcome ▸ hok)
  · have hrooted := h fun failure hfailed => by cases hnone.symm.trans hfailed
    obtain ⟨heard, hitem⟩ := read_ok hok
    exact (Receiver.item_does hrooted.sound hitem).rooted hrooted
  · exact absurd rfl (hok cut)

/-- In every run, until the receiver fails, what is below the top is a tree, and each directory that
the receiver has open is in it where its path says, the one above it before it. -/
theorem tree_kept {sources : List Source} {opts : Opts} {disk : Disk} {target : Target}
    {top : DirId} (hs : disk.Sound top) (htop : ∀ id, target.dir = some id → id = top)
    (h : Reachable size digest (start sources opts disk target) n)
    (hok : ∀ failure, n.outcome ≠ some (.error failure)) :
    n.receiver.disk.Sound top ∧
      (∀ dir ∈ n.receiver.opened.map Open.dir, dir.Located n.receiver.disk top) ∧
      (n.receiver.opened.map Open.dir).Pairwise fun dir dir' => dir'.rel <+: dir.rel := by
  have hrooted : Rooted digest top n.receiver := by
    induction h with
    | refl => exact start_rooted hs htop
    | tail hreach hstep ih =>
      obtain ⟨m, hm⟩ := hstep
      exact step_rooted ih hm hok
  exact ⟨hrooted.sound, hrooted.opened, hrooted.chain⟩

/-- In `tree_kept`, a directory is open. -/
theorem tree_kept_open :
    let opts : Opts := ⟨false, false, false, ⟨[], by decide⟩⟩
    ∃ n, Reachable (fun _ => 1) id
        (start [.path [0x61] (.dir 0o755 none .nil)] opts bareDisk (.into (some 0))) n ∧
      n.receiver.opened.length = 1 ∧ n.receiver.disk.Sound 0 := by
  intro opts
  have hrun : (run (fun _ => 1) id
      (start [.path [0x61] (.dir 0o755 none .nil)] opts bareDisk (.into (some 0)))
      (List.replicate 5 (.send false 0) ++ [.take, .receive])).map
        (fun n => (n.outcome.isNone, n.receiver.opened.length)) = some (true, 1) := by
    decide +kernel
  obtain ⟨n, hn, hseen⟩ := Option.map_eq_some_iff.mp hrun
  rw [Prod.mk.injEq, Option.isNone_iff_eq_none] at hseen
  have hreach := reachable_of_run hn
  refine ⟨n, hreach, hseen.2, (tree_kept bareDisk_sound ?_ hreach ?_).1⟩
  · intro id hid
    cases hid
    rfl
  · intro failure hfailed
    cases hseen.1.symm.trans hfailed

end Net

end Koh.Sync
