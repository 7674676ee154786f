import Koh.Lib.Names

/-!
# Paths looked up through symlinks

A tree of directories whose entries may be symlinks, and what a path leads to as a system looks
it up: a name after a name, a symlink followed by its target in place of its name.

## Main definitions

- `Entry`, `Tree`: an entry of a directory, and the directories
- `lookup`: what a path leads to, its last symlink followed or not
- `view`: what is seen from a directory through directories alone

## Main results

- `lookup_name`: one name, not followed, is its entry
- `lookup_dir`: what holds of the directories on the way holds of the one that is found
- `same_of_view`: what looks alike from two directories has the same entries, and looks alike from
  those of them that are directories

## Design notes

Directories are of any type `D`, files of any type `F`, and errors of any type `ε`. A directory may
refuse to be searched, with an error of its own. A path is bytes; a target that ends in `/` leads to
a directory, as if a `.` stood after it.
-/

namespace Koh.Namei

abbrev Bytes := List UInt8

inductive Entry (D F : Type) where
  | dir (d : D)
  | file (f : F)
  | link (target : Bytes)
  deriving DecidableEq

structure Tree (D F ε : Type) where
  top : D
  parent : D → D
  /-- An entry of a directory, if it has it; its error if it may not be searched. -/
  entry : D → Bytes → Except ε (Option (Entry D F))
  missing : ε
  notDir : ε
  loop : ε

def maxFollowed : ℕ := 40

def dot : Bytes := [0x2e]

def dotdot : Bytes := [0x2e, 0x2e]

def components (path : Bytes) : List Bytes :=
  ((path.splitOn 0x2f).filter (· ≠ [])) ++ if path.getLast? = some 0x2f then [dot] else []

variable {D F ε : Type}

/-- What names lead to from a directory; a symlink on the way is followed by `next`, the last of
them only if `follows`. -/
def walkWith (t : Tree D F ε) (follows : Bool) (next : D → List Bytes → Except ε (Entry D F)) :
    D → List Bytes → Except ε (Entry D F)
  | d, [] => .ok (.dir d)
  | d, name :: rest =>
    if name = dot then walkWith t follows next d rest
    else if name = dotdot then walkWith t follows next (t.parent d) rest
    else match t.entry d name with
      | .error e => .error e
      | .ok none => .error t.missing
      | .ok (some (.dir sub)) => walkWith t follows next sub rest
      | .ok (some (.file f)) => if rest.isEmpty then .ok (.file f) else .error t.notDir
      | .ok (some (.link target)) =>
        if rest.isEmpty && !follows then .ok (.link target)
        else next (if target.head? = some 0x2f then t.top else d) (components target ++ rest)

/-- As `walkWith`, with at most so many symlinks followed. -/
def walk (t : Tree D F ε) (follows : Bool) : ℕ → D → List Bytes → Except ε (Entry D F)
  | 0 => walkWith t follows fun _ _ => .error t.loop
  | more + 1 => walkWith t follows (walk t follows more)

def lookup (t : Tree D F ε) (follows : Bool) (d : D) (path : Bytes) : Except ε (Entry D F) :=
  if path.isEmpty then .error t.missing
  else walk t follows maxFollowed (if path.head? = some 0x2f then t.top else d) (components path)

/-- A name of an entry: no `.` or `..`, and no path. -/
structure IsName (name : Bytes) : Prop where
  ne_nil : name ≠ []
  ne_dot : name ≠ dot
  ne_dotdot : name ≠ dotdot
  flat : 0x2f ∉ name

/-- A name is one component. -/
theorem IsName.components {name : Bytes} (h : IsName name) : components name = [name] := by
  have hlast : name.getLast? ≠ some 0x2f := fun heq => h.flat (List.mem_of_getLast? heq)
  simp [Namei.components, List.splitOn_eq_singleton h.flat, h.ne_nil, hlast]

/-- One name, not followed, is its entry: nothing else is looked at. -/
theorem lookup_name {name : Bytes} (h : IsName name) (t : Tree D F ε) (d : D) :
    lookup t false d name = match t.entry d name with
      | .error e => .error e
      | .ok none => .error t.missing
      | .ok (some e) => .ok e := by
  have hhead : name.head? ≠ some 0x2f := fun heq => h.flat (List.mem_of_mem_head? heq)
  have hempty : name.isEmpty = false := by simpa using h.ne_nil
  simp only [lookup, hempty, h.components, hhead, maxFollowed, walk, walkWith, h.ne_dot,
    h.ne_dotdot, Bool.false_eq_true, if_false]
  cases t.entry d name with
  | error e => rfl
  | ok e =>
    cases e with
    | none => rfl
    | some e => cases e <;> rfl

/-- Where the last symlink may be left, as much is found. -/
theorem walkWith_unfollowed {t : Tree D F ε} {next next' : D → List Bytes → Except ε (Entry D F)}
    (hnext : ∀ d names, (next d names).isOk = true → (next' d names).isOk = true) (d : D)
    (names : List Bytes) (h : (walkWith t true next d names).isOk = true) :
    (walkWith t false next' d names).isOk = true := by
  induction names generalizing d with
  | nil => rfl
  | cons name rest ih =>
    unfold walkWith at h ⊢
    by_cases hdot : name = dot
    · rw [if_pos hdot] at h ⊢
      exact ih d h
    · rw [if_neg hdot] at h ⊢
      by_cases hup : name = dotdot
      · rw [if_pos hup] at h ⊢
        exact ih _ h
      · rw [if_neg hup] at h ⊢
        cases hentry : t.entry d name with
        | error e => simp [hentry, Except.isOk, Except.toBool] at h
        | ok o =>
          rw [hentry] at h
          rcases o with _ | (sub | f | target)
          · simp [Except.isOk, Except.toBool] at h
          · exact ih sub h
          · exact h
          · simp only [Bool.not_true, Bool.and_false, Bool.false_eq_true, if_false] at h
            cases rest with
            | nil => rfl
            | cons a rest => exact hnext _ _ h

/-- What a path leads to, it leads to where its last symlink is not followed. -/
theorem lookup_unfollowed {t : Tree D F ε} {d : D} {path : Bytes}
    (h : (lookup t true d path).isOk = true) : (lookup t false d path).isOk = true := by
  have hwalk : ∀ (more : ℕ) (d : D) (names : List Bytes),
      (walk t true more d names).isOk = true → (walk t false more d names).isOk = true := by
    intro more
    induction more with
    | zero => exact walkWith_unfollowed fun _ _ h => by simp [Except.isOk, Except.toBool] at h
    | succ more ih => exact walkWith_unfollowed ih
  unfold lookup at h ⊢
  split
  · next hempty => simp [hempty, Except.isOk, Except.toBool] at h
  · next hempty =>
    rw [if_neg hempty] at h
    exact hwalk _ _ _ h

/-- What a path leads to, if it is a directory, has what the top has, the directory that it is
looked up from, and every directory found on the way. -/
theorem lookup_dir {t : Tree D F ε} {P : D → Prop} (htop : P t.top)
    (hparent : ∀ d, P d → P (t.parent d))
    (hsub : ∀ d name sub, P d → t.entry d name = .ok (some (.dir sub)) → P sub) {follows : Bool}
    {d id : D} {path : Bytes} (hd : P d) (h : lookup t follows d path = .ok (.dir id)) : P id := by
  have hwith : ∀ (next : D → List Bytes → Except ε (Entry D F)),
      (∀ d names, P d → next d names = .ok (.dir id) → P id) → ∀ d names, P d →
        walkWith t follows next d names = .ok (.dir id) → P id := by
    intro next hnext d names hd h
    induction names generalizing d with
    | nil =>
      cases h
      exact hd
    | cons name rest ih =>
      unfold walkWith at h
      split at h
      · exact ih d hd h
      · split at h
        · exact ih _ (hparent d hd) h
        · split at h
          · cases h
          · cases h
          · next sub hentry => exact ih sub (hsub d name sub hd hentry) h
          · split at h <;> cases h
          · split at h
            · cases h
            · refine hnext _ _ ?_ h
              split
              · exact htop
              · exact hd
  have hwalk : ∀ (more : ℕ) (d : D) (names : List Bytes), P d →
      walk t follows more d names = .ok (.dir id) → P id := by
    intro more
    induction more with
    | zero => exact hwith _ fun _ _ _ h => by cases h
    | succ more ih => exact hwith _ ih
  unfold lookup at h
  split at h
  · cases h
  · refine hwalk _ _ _ ?_ h
    split
    · exact htop
    · exact hd

/-! ### What is seen through directories alone -/

def Entry.sub : Entry D F → Option D
  | .dir d => some d
  | .file _ => none
  | .link _ => none

/-- The entry, whichever directory it is. -/
def Entry.shape : Entry D F → Entry Unit F
  | .dir _ => .dir ()
  | .file f => .file f
  | .link target => .link target

/-- The directory that names lead to from `d`, through no symlink. -/
def Tree.reach (t : Tree D F ε) (d : D) (p : List Bytes) : Option D :=
  Names.reach Entry.sub (fun d name => (t.entry d name).toOption.join) d p

/-- What is seen at `p` from `d`: what is said `about` the directory there, and its entries. -/
def view {I : Type} (t : Tree D F ε) (about : D → I) (d : D) (p : List Bytes) :
    Option (I × (Bytes → Except ε (Option (Entry Unit F)))) :=
  (t.reach d p).map fun d => (about d, fun name => (t.entry d name).map (Option.map Entry.shape))

/-- Entries that are the same, or directories of which `R` holds. -/
inductive Same {D' : Type} (R : D → D' → Prop) :
    Except ε (Option (Entry D F)) → Except ε (Option (Entry D' F)) → Prop
  | error (e : ε) : Same R (.error e) (.error e)
  | none : Same R (.ok none) (.ok none)
  | dir {d : D} {d' : D'} (h : R d d') : Same R (.ok (some (.dir d))) (.ok (some (.dir d')))
  | file (f : F) : Same R (.ok (some (.file f))) (.ok (some (.file f)))
  | link (target : Bytes) : Same R (.ok (some (.link target))) (.ok (some (.link target)))

section

variable {I D' : Type} {t : Tree D F ε} {t' : Tree D' F ε} {about : D → I} {about' : D' → I}
  {d : D} {d' : D'}

/-- What is seen below a directory is seen below its parent. -/
theorem view_sub {sub : D} {name : Bytes} (h : t.entry d name = .ok (some (.dir sub)))
    (p : List Bytes) : view t about sub p = view t about d (name :: p) := by
  simp [view, Tree.reach, Names.reach_cons, h, Except.toOption, Entry.sub]

/-- What is seen alike is known alike at the top. -/
theorem about_of_view (h : view t about d = view t' about' d') : about d = about' d' := by
  have htop := congrFun h []
  simp only [view, Tree.reach, Names.reach_nil, Option.map_some, Option.some.injEq,
    Prod.mk.injEq] at htop
  exact htop.1

/-- What looks alike has the same entries, and its directories look alike. -/
theorem same_of_view (h : view t about d = view t' about' d') (name : Bytes) :
    Same (fun d d' => view t about d = view t' about' d') (t.entry d name) (t'.entry d' name) := by
  have htop := congrFun h []
  simp only [view, Tree.reach, Names.reach_nil, Option.map_some, Option.some.injEq,
    Prod.mk.injEq] at htop
  have hshape := congrFun htop.2 name
  cases hentry : t.entry d name with
  | error e =>
    cases hentry' : t'.entry d' name with
    | error e' =>
      simp only [hentry, hentry', Except.map, Except.error.injEq] at hshape
      exact hshape ▸ .error e
    | ok _ => simp [hentry, hentry', Except.map] at hshape
  | ok o =>
    cases hentry' : t'.entry d' name with
    | error e' => simp [hentry, hentry', Except.map] at hshape
    | ok o' =>
      simp only [hentry, hentry', Except.map, Except.ok.injEq] at hshape
      rcases o with _ | e <;> rcases o' with _ | e'
      · exact .none
      · cases hshape
      · cases hshape
      · cases e <;> cases e' <;> cases hshape
        · refine .dir (funext fun p => ?_)
          rw [view_sub hentry, view_sub hentry', h]
        · exact .file _
        · exact .link _

end

end Koh.Namei
