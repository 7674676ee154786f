import Koh.Jobs.Log
import Koh.Lib.Lines
import Mathlib.Data.List.Induction

/-!
# The last lines of a job's log

What `Log.tail` says, against the lines of what the log keeps: where the last of them
begin, and how many go before.

## Main results

- `Log.tailFrom_lines`: the last lines begin where it says
- `Log.tail_lines_iff`: how many go before, but for no lines of a log whose last is not
  ended
-/

namespace Koh.Jobs

open Koh.Lib

namespace Log

def newlines (body : Bytes) : List (UInt8 × ℕ) :=
  (body.zipIdx.filter fun b => b.1 = 0x0a).reverse

/-- The newlines of one byte more. -/
theorem newlines_snoc (body : Bytes) (b : UInt8) :
    newlines (body ++ [b]) =
      if b = 0x0a then (b, body.length) :: newlines body else newlines body := by
  simp only [newlines, List.zipIdx_append, List.filter_append, List.reverse_append, Nat.zero_add]
  split
  · next h => simp [h]
  · next h => simp [h]

/-- As many newlines go after the one found as were passed by. -/
theorem newlines_some {body : Bytes} {k : ℕ} {e : UInt8 × ℕ} (h : (newlines body)[k]? = some e) :
    body[e.2]? = some 0x0a ∧ (body.drop (e.2 + 1)).count 0x0a = k := by
  induction body using List.reverseRecOn generalizing k with
  | nil => cases h
  | append_singleton body b ih =>
    -- What is found before `b` is found with `b` after it.
    have hearlier : ∀ {k : ℕ}, (newlines body)[k]? = some e →
        (body ++ [b])[e.2]? = some 0x0a ∧
        ((body ++ [b]).drop (e.2 + 1)).count 0x0a = k + [b].count 0x0a := by
      intro k hk
      obtain ⟨hget, hcount⟩ := ih hk
      have hlt : e.2 < body.length := (List.getElem?_eq_some_iff.mp hget).1
      rw [List.getElem?_append_left hlt, List.drop_append_of_le_length hlt, List.count_append,
        hcount]
      exact ⟨hget, rfl⟩
    rw [newlines_snoc] at h
    by_cases hb : b = 0x0a
    · subst hb
      rw [if_pos rfl] at h
      cases k with
      | zero =>
        obtain rfl := Option.some.inj h
        simp
      | succ k =>
        have hfound := hearlier (k := k) h
        simpa using hfound
    · rw [if_neg hb] at h
      have hfound := hearlier h
      simpa [hb] using hfound

/-- None is found where there are too few. -/
theorem newlines_none {body : Bytes} {k : ℕ} (h : (newlines body)[k]? = none) :
    body.count 0x0a ≤ k := by
  have hlength : (newlines body).length = body.count 0x0a := by
    clear h
    induction body using List.reverseRecOn with
    | nil => rfl
    | append_singleton body b ih =>
      rw [newlines_snoc, List.count_append, ← ih]
      by_cases hb : b = 0x0a
      · simp [hb]
      · simp [hb]
  rw [← hlength]
  exact List.getElem?_eq_none_iff.mp h

/-- Where the last lines begin, if any are asked for: past a newline that so many lines
follow, or at the beginning of what has no more. -/
theorem tailFrom_succ (kept : Bytes) (newer : ℕ) :
    Ended 0x0a (kept.take (tailFrom kept (newer + 1))) ∧
    (lines 0x0a (kept.drop (tailFrom kept (newer + 1)))).length =
      min (newer + 1) (lines 0x0a kept).length := by
  -- The newline at the end of what is kept ends its last line, and begins none.
  obtain ⟨body, hbody, hkept⟩ : ∃ body : Bytes,
      (if kept.getLast? = some 0x0a then kept.dropLast else kept) = body ∧
      (kept = body ++ [0x0a] ∨ kept = body ∧ kept.getLast? ≠ some 0x0a) := by
    by_cases hlast : kept.getLast? = some 0x0a
    · refine ⟨kept.dropLast, if_pos hlast, .inl ?_⟩
      exact (List.dropLast_append_getLast? _ hlast).symm
    · exact ⟨kept, if_neg hlast, .inr ⟨rfl, hlast⟩⟩
  have hfrom : tailFrom kept (newer + 1) = ((newlines body)[newer]?).elim 0 fun b => b.2 + 1 := by
    simp only [tailFrom, hbody, newlines]
  cases hfound : (newlines body)[newer]? with
  | none =>
    have hcount := newlines_none hfound
    rw [hfrom, hfound, Option.elim_none, List.take_zero, List.drop_zero]
    refine ⟨ended_nil, (Nat.min_eq_right ?_).symm⟩
    rw [length_lines]
    rcases hkept with rfl | ⟨rfl, -⟩
    · rw [if_pos ((ended_append (List.cons_ne_nil _ _)).mpr (ended_singleton.mpr rfl)),
        List.count_append, List.count_singleton_self]
      omega
    · split <;> omega
  | some e =>
    obtain ⟨hget, hcount⟩ := newlines_some hfound
    have hlt : e.2 < body.length := (List.getElem?_eq_some_iff.mp hget).1
    rw [hfrom, hfound, Option.elim_some]
    have hended : Ended 0x0a (body.take (e.2 + 1)) := by
      rw [List.take_add_one, hget, Option.toList_some]
      exact (ended_append (List.cons_ne_nil _ _)).mpr (ended_singleton.mpr rfl)
    have hlines : ∀ {rest : Bytes}, (lines 0x0a rest).length = newer + 1 →
        (lines 0x0a rest).length =
          min (newer + 1) (lines 0x0a (body.take (e.2 + 1) ++ rest)).length := by
      intro rest hrest
      rw [lines_append hended, List.length_append]
      omega
    rcases hkept with rfl | ⟨rfl, hlast⟩
    · have hsplit : body ++ [0x0a] = body.take (e.2 + 1) ++ (body.drop (e.2 + 1) ++ [0x0a]) := by
        rw [← List.append_assoc, List.take_append_drop]
      rw [List.take_append_of_le_length hlt, List.drop_append_of_le_length hlt]
      refine ⟨hended, ?_⟩
      rw [hsplit]
      refine hlines ?_
      rw [length_lines, List.count_append, hcount, List.count_singleton_self,
        if_pos ((ended_append (List.cons_ne_nil _ _)).mpr (ended_singleton.mpr rfl))]
    · have hrest : kept.drop (e.2 + 1) ≠ [] := by
        intro hnil
        have hlen : kept.length = e.2 + 1 := by
          have := List.drop_eq_nil_iff.mp hnil
          omega
        rw [List.getLast?_eq_getElem?, hlen] at hlast
        exact hlast hget
      have hopen : ¬ Ended 0x0a (kept.drop (e.2 + 1)) := by
        have hends : Ended 0x0a (kept.take (e.2 + 1) ++ kept.drop (e.2 + 1)) ↔ _ :=
          ended_append hrest
        rw [← hends, List.take_append_drop]
        intro h
        have hne : kept ≠ [] := List.ne_nil_of_length_pos (by omega)
        have hsome := List.getLast?_eq_some_getLast hne
        exact hlast (hsome.trans (congrArg some (h _ hsome)))
      refine ⟨hended, ?_⟩
      have hlength : (lines 0x0a (kept.drop (e.2 + 1))).length = newer + 1 := by
        rw [length_lines, hcount, if_neg hopen]
      have hsplit := hlines hlength
      rwa [List.take_append_drop] at hsplit

/-- The newlines of what goes before are its lines, if the last of them is ended. -/
theorem tail_snd (log : Log) (n : ℕ) :
    (log.tail n).2 + (if Ended 0x0a (log.kept.take (tailFrom log.kept n)) then 0 else 1) =
      (lines 0x0a (log.kept.take (tailFrom log.kept n))).length := by
  have hcount : (log.tail n).2 = (log.kept.take (tailFrom log.kept n)).count 0x0a := by
    rw [tail, List.count_eq_length_filter]
    congr 2
  rw [hcount, length_lines]

/-- **A log's tail is its last lines**, and as many go before them as it says; but if
none are asked for, one more goes before where the last is still being written. -/
theorem tail_lines_iff (log : Log) (n : ℕ) :
    (log.dropped ≤ (log.tail n).1 ∧
      (lines 0x0a (log.kept.drop ((log.tail n).1 - log.dropped))).length =
        min n (lines 0x0a log.kept).length ∧
      (log.tail n).2 = (lines 0x0a log.kept).length - min n (lines 0x0a log.kept).length) ↔
    (n = 0 → Ended 0x0a log.kept) := by
  have hstart : (log.tail n).1 - log.dropped = tailFrom log.kept n := Nat.add_sub_cancel_left _ _
  have hsnd := log.tail_snd n
  rw [hstart]
  cases n with
  | zero =>
    have hfrom : tailFrom log.kept 0 = log.kept.length := rfl
    rw [hfrom, List.take_length] at hsnd
    rw [hfrom, List.drop_length, Nat.zero_min, Nat.sub_zero]
    constructor
    · rintro ⟨-, -, hbefore⟩ -
      by_contra hopen
      rw [hbefore, if_neg hopen] at hsnd
      omega
    · intro hended
      rw [if_pos (hended rfl)] at hsnd
      exact ⟨Nat.le_add_right _ _, rfl, hsnd⟩
  | succ newer =>
    obtain ⟨hended, hlength⟩ := tailFrom_succ log.kept newer
    have hsplit := congrArg List.length
      (lines_append hended (log.kept.drop (tailFrom log.kept (newer + 1))))
    rw [List.take_append_drop, List.length_append] at hsplit
    rw [if_pos hended] at hsnd
    constructor
    · exact fun _ h => absurd h (Nat.succ_ne_zero _)
    · exact fun _ => ⟨Nat.le_add_right _ _, hlength, by omega⟩

/-- A log whose last line is still being written: no lines are asked for, and none is
said to go before. -/
theorem tail_lines_open :
    let log : Log := ⟨[0x61], 1, 10⟩
    ¬ (log.dropped ≤ (log.tail 0).1 ∧
      (lines 0x0a (log.kept.drop ((log.tail 0).1 - log.dropped))).length =
        min 0 (lines 0x0a log.kept).length ∧
      (log.tail 0).2 = (lines 0x0a log.kept).length - min 0 (lines 0x0a log.kept).length) := by
  decide

end Log

end Koh.Jobs
