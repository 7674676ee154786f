import Mathlib.Data.List.Lemmas
import Mathlib.Data.List.TakeWhile

/-!
# Ordered dictionaries, as lists

A dictionary is the list of its entries, in the order of their keys.

## Main definitions

- `Dict.insert`: an entry takes its place, and that of an older one of its key
- `Dict.update`: what a key has is changed
- `Dict.put`, `Dict.extend`: entries take the place of older ones, in a map without an order

## Main results

- `Dict.mem_insert`, `Dict.mem_update`: where an entry comes from
- `Dict.mem_insert_of_ne`, `Dict.mem_insert_iff`: the entries of other keys stay
- `Dict.length_insert_le`: an entry adds at most one
- `Dict.nodup_insert`: the keys stay distinct
- `Dict.lookup_put`: what a key has after an entry is put
-/

namespace Koh.Lib

variable {κ β : Type} [DecidableEq κ]

/-- The entries of a dictionary, in order of their keys. -/
abbrev Dict (κ β : Type) := List (κ × β)

namespace Dict

def insert (before : κ → κ → Bool) (dict : Dict κ β) (k : κ) (v : β) : Dict κ β :=
  dict.takeWhile (fun e => before e.1 k) ++ (k, v) ::
    (dict.dropWhile fun e => before e.1 k).filter (·.1 ≠ k)

def update (dict : Dict κ β) (k : κ) (f : β → β) : Dict κ β :=
  dict.map fun e => if e.1 = k then (e.1, f e.2) else e

/-- What is there after an insertion. -/
theorem mem_insert {before : κ → κ → Bool} {dict : Dict κ β} {k : κ} {v : β} {e : κ × β}
    (h : e ∈ insert before dict k v) : e = (k, v) ∨ e ∈ dict := by
  rw [insert, List.mem_append, List.mem_cons] at h
  rcases h with hbefore | rfl | hafter
  · exact .inr ((List.takeWhile_prefix _).subset hbefore)
  · exact .inl rfl
  · exact .inr ((List.dropWhile_suffix _).subset (List.mem_filter.mp hafter).1)

theorem mem_insert_self (before : κ → κ → Bool) (dict : Dict κ β) (k : κ) (v : β) :
    (k, v) ∈ insert before dict k v := by
  simp [insert]

/-- Other keys stay. -/
theorem mem_insert_of_ne (before : κ → κ → Bool) {dict : Dict κ β} {k : κ} (v : β) {e : κ × β}
    (h : e ∈ dict) (hne : e.1 ≠ k) : e ∈ insert before dict k v := by
  rw [← List.takeWhile_append_dropWhile (p := fun e => before e.1 k) (l := dict)] at h
  rcases List.mem_append.mp h with hbefore | hafter
  · exact List.mem_append_left _ hbefore
  · refine List.mem_append_right _ (List.mem_cons_of_mem _ ?_)
    exact List.mem_filter.mpr ⟨hafter, by simpa using hne⟩

/-- What is there after an insertion, exactly. -/
theorem mem_insert_iff {before : κ → κ → Bool} (hirrefl : ∀ k, before k k = false)
    {dict : Dict κ β} {k : κ} {v : β} {e : κ × β} :
    e ∈ insert before dict k v ↔ e = (k, v) ∨ e ∈ dict ∧ e.1 ≠ k := by
  constructor
  · intro h
    rw [insert, List.mem_append, List.mem_cons] at h
    rcases h with hbefore | rfl | hafter
    · refine .inr ⟨(List.takeWhile_prefix _).subset hbefore, ?_⟩
      rintro rfl
      simpa [hirrefl] using List.mem_takeWhile_imp hbefore
    · exact .inl rfl
    · obtain ⟨hmem, hne⟩ := List.mem_filter.mp hafter
      exact .inr ⟨(List.dropWhile_suffix _).subset hmem, by simpa using hne⟩
  · rintro (rfl | ⟨hmem, hne⟩)
    · exact mem_insert_self before dict k v
    · exact mem_insert_of_ne before v hmem hne

/-- An insertion adds one at most. -/
theorem length_insert_le (before : κ → κ → Bool) (dict : Dict κ β) (k : κ) (v : β) :
    (insert before dict k v).length ≤ dict.length + 1 := by
  have hsplit : (dict.takeWhile fun e => before e.1 k).length +
      (dict.dropWhile fun e => before e.1 k).length = dict.length := by
    rw [← List.length_append, List.takeWhile_append_dropWhile]
  have hfilter := List.length_filter_le (fun e : κ × β => decide (e.1 ≠ k))
    (dict.dropWhile fun e => before e.1 k)
  simp only [insert, List.length_append, List.length_cons]
  omega

/-- The keys stay distinct. -/
theorem nodup_insert {before : κ → κ → Bool} (hirrefl : ∀ k, before k k = false) {dict : Dict κ β}
    (h : (dict.map Prod.fst).Nodup) (k : κ) (v : β) :
    ((insert before dict k v).map Prod.fst).Nodup := by
  have hsplit : (dict.takeWhile fun e => before e.1 k) ++ (dict.dropWhile fun e => before e.1 k)
      = dict := List.takeWhile_append_dropWhile
  rw [← hsplit, List.map_append, List.nodup_append] at h
  obtain ⟨htake, hdrop, hne⟩ := h
  rw [insert, List.map_append, List.map_cons, List.nodup_append, List.nodup_cons]
  refine ⟨htake, ⟨?_, hdrop.sublist (List.filter_sublist.map _)⟩, ?_⟩
  · simp
  · intro a ha b hb
    rcases List.mem_cons.mp hb with rfl | hb
    · rintro rfl
      obtain ⟨e, he, rfl⟩ := List.mem_map.mp ha
      have := List.mem_takeWhile_imp he
      simp [hirrefl] at this
    · exact hne a ha b ((List.filter_sublist.map _).subset hb)

theorem keys_update (dict : Dict κ β) (k : κ) (f : β → β) :
    (update dict k f).map Prod.fst = dict.map Prod.fst := by
  rw [update, List.map_map]
  refine List.map_congr_left fun e _ => ?_
  by_cases hk : e.1 = k <;> simp [hk]

/-- What is there after an update. -/
theorem mem_update {dict : Dict κ β} {k : κ} {f : β → β} {e : κ × β} (h : e ∈ update dict k f) :
    ∃ v, (e.1, v) ∈ dict ∧ (e.1 = k ∧ e.2 = f v ∨ e.1 ≠ k ∧ e.2 = v) := by
  obtain ⟨⟨k', v⟩, hmem, rfl⟩ := List.mem_map.mp h
  by_cases hk : k' = k
  · exact ⟨v, by simpa [hk] using hmem, .inl ⟨by simp [hk], by simp [hk]⟩⟩
  · exact ⟨v, by simpa [hk] using hmem, .inr ⟨by simp [hk], by simp [hk]⟩⟩

@[simp] theorem length_update (dict : Dict κ β) (k : κ) (f : β → β) :
    (update dict k f).length = dict.length :=
  List.length_map _

section

variable {κ : Type} [BEq κ] [LawfulBEq κ]

theorem lookup_of_mem {dict : Dict κ β} (h : (dict.map Prod.fst).Nodup) {k : κ} {v : β}
    (hmem : (k, v) ∈ dict) : dict.lookup k = some v := by
  obtain ⟨l₁, l₂, rfl⟩ := List.append_of_mem hmem
  refine List.lookup_eq_some_iff.mpr ⟨l₁, l₂, rfl, fun p hp => ?_⟩
  rw [List.map_append, List.nodup_append] at h
  have hne := h.2.2 p.1 (List.mem_map_of_mem hp) k (by simp)
  simpa using fun heq : k = p.1 => hne heq.symm

/-- Where each key is once, it has one value. -/
theorem value_unique {dict : Dict κ β} (h : (dict.map Prod.fst).Nodup) {k : κ} {v v' : β}
    (hv : (k, v) ∈ dict) (hv' : (k, v') ∈ dict) : v = v' := by
  have hlookup := lookup_of_mem h hv
  rw [lookup_of_mem h hv'] at hlookup
  exact (Option.some.inj hlookup).symm

theorem mem_of_lookup {dict : Dict κ β} {k : κ} {v : β} (h : dict.lookup k = some v) :
    (k, v) ∈ dict := by
  obtain ⟨l₁, l₂, heq, -⟩ := List.lookup_eq_some_iff.mp h
  rw [heq]
  simp

end

/-! ### A map without an order -/

/-- An entry, in the place of an older one of its key. -/
def put (dict : Dict κ β) (k : κ) (v : β) : Dict κ β := (k, v) :: dict.filter (·.1 ≠ k)

def extend (dict : Dict κ β) (entries : List (κ × β)) : Dict κ β :=
  entries.foldl (fun dict e => put dict e.1 e.2) dict

theorem lookup_filter_ne {k k' : κ} (h : k' ≠ k) (dict : Dict κ β) :
    (dict.filter (·.1 ≠ k)).lookup k' = dict.lookup k' := by
  induction dict with
  | nil => rfl
  | cons e dict ih =>
    obtain ⟨a, v⟩ := e
    by_cases ha : a = k
    · subst ha
      rw [List.filter_cons_of_neg (by simp), ih, List.lookup_cons, beq_eq_false_iff_ne.mpr h]
    · rw [List.filter_cons_of_pos (by simpa using ha), List.lookup_cons, List.lookup_cons, ih]

/-- What is put is found, and other keys are as they were. -/
theorem lookup_put (dict : Dict κ β) (k k' : κ) (v : β) :
    (put dict k v).lookup k' = if k' = k then some v else dict.lookup k' := by
  by_cases hk : k' = k
  · subst hk
    rw [put, List.lookup_cons_self, if_pos rfl]
  · rw [put, List.lookup_cons, if_neg hk, beq_eq_false_iff_ne.mpr hk]
    exact lookup_filter_ne hk dict

/-- A key that no entry has keeps what it had. -/
theorem lookup_extend_of_notMem {dict : Dict κ β} {entries : List (κ × β)} {k : κ}
    (h : k ∉ entries.map Prod.fst) : (extend dict entries).lookup k = dict.lookup k := by
  induction entries generalizing dict with
  | nil => rfl
  | cons e entries ih =>
    rw [List.map_cons, List.mem_cons, not_or] at h
    rw [extend, List.foldl_cons, ← extend, ih h.2, lookup_put, if_neg h.1]

/-- A key that an entry has gets what one of its entries says. -/
theorem lookup_extend_of_mem {dict : Dict κ β} {entries : List (κ × β)} {k : κ}
    (h : k ∈ entries.map Prod.fst) :
    ∃ v, (k, v) ∈ entries ∧ (extend dict entries).lookup k = some v := by
  induction entries generalizing dict with
  | nil => cases h
  | cons e entries ih =>
    rw [extend, List.foldl_cons, ← extend]
    by_cases hlater : k ∈ entries.map Prod.fst
    · obtain ⟨v, hmem, hlookup⟩ := ih hlater
      exact ⟨v, List.mem_cons_of_mem _ hmem, hlookup⟩
    · have hk : k = e.1 := by
        rw [List.map_cons, List.mem_cons] at h
        exact h.resolve_right hlater
      subst hk
      exact ⟨e.2, List.mem_cons_self, by rw [lookup_extend_of_notMem hlater, lookup_put, if_pos rfl]⟩

end Dict

end Koh.Lib
