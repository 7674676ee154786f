import Mathlib.Data.List.Basic

/-!
# A job's log

`Log`, from `server/jobs.rs`: the newest bytes a job wrote, the oldest dropped
once twice the budget is held.

## Main definitions

- `Log`, `Log.append`, `Log.read`, `Log.tail`
- `Log.Keeps`: the log is what is kept of an output

## Main results

- `Log.Keeps.append`: after every append it is, and holds as much as it is to
- `Log.Keeps.read_fst`, `Log.Keeps.read_snd`: what is read is the output

## Design notes

A count of bytes that a `u64` or a `usize` holds is a natural number here: no
output comes near the end of either.
-/

namespace Koh.Jobs

abbrev Bytes := List UInt8

/-- The newest bytes a job wrote. -/
structure Log where
  kept : Bytes
  /-- Bytes written in all, the dropped ones included. -/
  total : ℕ
  budget : ℕ
  deriving DecidableEq

namespace Log

def new (budget : ℕ) : Log := ⟨[], 0, budget⟩

def append (log : Log) (bytes : Bytes) : Log :=
  let kept := log.kept ++ bytes
  { log with
    -- Dropped in one move once twice the budget is held.
    kept := if 2 * log.budget < kept.length then kept.drop (kept.length - log.budget) else kept
    total := log.total + bytes.length }

def dropped (log : Log) : ℕ := log.total - log.kept.length

/-- What is kept from byte `pos` on, at most `most` bytes, and how many before it
were dropped from `pos` on. -/
def read (log : Log) (pos most : ℕ) : ℕ × Bytes :=
  (log.dropped - pos, (log.kept.drop (max pos log.dropped - log.dropped)).take most)

/-- Just past the newline that ends the line before the last `lines` lines. -/
def tailFrom (kept : Bytes) : ℕ → ℕ
  | 0 => kept.length
  | newer + 1 =>
    let body := if kept.getLast? = some 0x0a then kept.dropLast else kept
    let newlines := (body.zipIdx.filter fun b => b.1 = 0x0a).reverse
    (newlines[newer]?).elim 0 fun b => b.2 + 1

/-- Where its last `lines` lines begin, and how many lines of what is kept go
before them. -/
def tail (log : Log) (lines : ℕ) : ℕ × ℕ :=
  let start := tailFrom log.kept lines
  (log.dropped + start, ((log.kept.take start).filter fun b => b = 0x0a).length)

/-! ### What is kept of an output -/

/-- `log` keeps the end of `output`: its budget at least, if there is so much, and
twice that at most. -/
structure Keeps (log : Log) (output : Bytes) : Prop where
  suffix : log.kept <:+ output
  total : log.total = output.length
  least : min output.length log.budget ≤ log.kept.length
  most : log.kept.length ≤ 2 * log.budget

/-- A log of no output. -/
theorem new_keeps (budget : ℕ) : (new budget).Keeps [] := ⟨List.nil_suffix, rfl, by simp, by simp [new]⟩

namespace Keeps

variable {log : Log} {output : Bytes}

theorem length_le (h : log.Keeps output) : log.kept.length ≤ output.length := h.suffix.length_le

/-- What was dropped is what is not kept. -/
theorem dropped (h : log.Keeps output) : log.dropped = output.length - log.kept.length := by
  rw [Log.dropped, h.total]

/-- What is kept is the output from the first byte not dropped on. -/
theorem kept (h : log.Keeps output) : log.kept = output.drop log.dropped := by
  rw [h.dropped]
  exact List.suffix_iff_eq_drop.mp h.suffix

/-- After an append the log keeps the end of what was written, as much as it is to. -/
theorem append (h : log.Keeps output) (bytes : Bytes) :
    (log.append bytes).Keeps (output ++ bytes) := by
  have hsuffix : log.kept ++ bytes <:+ output ++ bytes := by
    obtain ⟨front, hfront⟩ := h.suffix
    exact ⟨front, by rw [← List.append_assoc, hfront]⟩
  have hleast := h.least
  have hlen := h.length_le
  have htotal : (log.append bytes).total = (output ++ bytes).length := by
    simp [Log.append, h.total]
  by_cases hmore : 2 * log.budget < (log.kept ++ bytes).length
  · have hkept : (log.append bytes).kept =
        (log.kept ++ bytes).drop ((log.kept ++ bytes).length - log.budget) := by
      simp only [Log.append, hmore, if_true]
    have hlength : (log.append bytes).kept.length = log.budget := by
      rw [hkept, List.length_drop]
      omega
    refine ⟨?_, htotal, ?_, ?_⟩
    · rw [hkept]
      exact (List.drop_suffix _ _).trans hsuffix
    · rw [hlength]
      exact Nat.min_le_right _ _
    · rw [hlength]
      show log.budget ≤ 2 * log.budget
      omega
  · have hkept : (log.append bytes).kept = log.kept ++ bytes := by
      simp only [Log.append, hmore, if_false]
    refine ⟨hkept ▸ hsuffix, htotal, ?_, ?_⟩
    · rw [hkept]
      simp only [List.length_append]
      show min (output.length + bytes.length) log.budget ≤ _
      omega
    · rw [hkept]
      show _ ≤ 2 * log.budget
      omega

/-- What is no longer kept is not kept again. -/
theorem dropped_le_append (h : log.Keeps output) (bytes : Bytes) :
    log.dropped ≤ (log.append bytes).dropped := by
  have htotal := h.total
  have hlen := h.length_le
  have hkept : (log.append bytes).kept.length ≤ log.kept.length + bytes.length := by
    simp only [Log.append]
    split <;> simp
  have hmore : (log.append bytes).total = log.total + bytes.length := rfl
  simp only [Log.dropped]
  omega

/-- What was dropped from `pos` on ends in the output. -/
theorem read_fst_le (h : log.Keeps output) {pos most : ℕ} (hpos : pos ≤ output.length) :
    pos + (log.read pos most).1 ≤ output.length := by
  have hdropped := h.dropped
  simp only [read]
  omega

/-- What is read is the output from there on. -/
theorem read_snd (h : log.Keeps output) (pos most : ℕ) :
    (log.read pos most).2 = (output.drop (pos + (log.read pos most).1)).take most := by
  have hfrom : log.dropped + (max pos log.dropped - log.dropped) = pos + (log.dropped - pos) := by
    omega
  simp only [read]
  rw [h.kept, List.drop_drop, hfrom]

/-- Where nothing is read, nothing more was written. -/
theorem read_nil (h : log.Keeps output) {pos most : ℕ} (hpos : pos ≤ output.length)
    (hmost : 0 < most) (hnil : (log.read pos most).2 = []) :
    pos + (log.read pos most).1 = output.length := by
  have hread := h.read_snd pos most
  rw [hnil, eq_comm, List.take_eq_nil_iff, List.drop_eq_nil_iff] at hread
  have hle : pos + (log.read pos most).1 ≤ output.length := h.read_fst_le hpos
  omega

/-- Its last lines begin in what is kept. -/
theorem tail_le (h : log.Keeps output) (lines : ℕ) :
    log.dropped ≤ (log.tail lines).1 ∧ (log.tail lines).1 ≤ output.length := by
  have hfrom : tailFrom log.kept lines ≤ log.kept.length := by
    cases lines with
    | zero => exact Nat.le_refl _
    | succ newer =>
      simp only [tailFrom]
      split
      all_goals
        cases hb : (List.reverse _)[newer]? with
        | none => exact Nat.zero_le _
        | some b =>
          have hmem := List.mem_reverse.mp (List.mem_of_getElem? hb)
          have hidx := List.snd_lt_of_mem_zipIdx (List.mem_filter.mp hmem).1
          simp only [List.length_dropLast, Option.elim_some] at hidx ⊢
          omega
  have hdropped := h.dropped
  have hlen := h.length_le
  simp only [tail]
  omega

end Keeps

end Log

end Koh.Jobs
