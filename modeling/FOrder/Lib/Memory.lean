import Mathlib.Tactic.Common

/-!
# `Lib.Memory` — blocks of memory

What `malloc` gives: a row of cells, into which nothing has been written yet. A read of such a cell, and any access
behind the last one, is `none`.
-/

namespace FOrder

/-- The cells of a block; `none` where nothing has been written. -/
abbrev Cells (α : Type) := List (Option α)

namespace Cells

variable {α : Type} {m m' : Cells α} {i j : Nat} {v : α}

/-- `malloc`, of `n` cells. -/
def fresh (n : Nat) : Cells α := List.replicate n none

/-- The value in cell `i`, `none` both where there is no such cell and where nothing has been written to it yet: a
    read of either is a fault of the program, and the two need not be told apart. -/
def read (m : Cells α) (i : Nat) : Option α := m[i]?.join

/-- The memory after the write, or `none` where there is no such cell. Writing never makes a cell, so a run of
    writes keeps the length of the memory. -/
def write (m : Cells α) (i : Nat) (v : α) : Option (Cells α) :=
  if i < m.length then some (m.set i (some v)) else none

/-- `memcpy`: `n` cells of `src` from `j` on, to `i`. -/
def copy (m : Cells α) (i : Nat) (src : Cells α) (j n : Nat) : Option (Cells α) :=
  if i + n ≤ m.length ∧ j + n ≤ src.length then some (m.take i ++ (src.drop j).take n ++ m.drop (i + n)) else none

/-- `memset`: `n` cells from `i` on. -/
def fill (m : Cells α) (i n : Nat) (v : α) : Option (Cells α) :=
  if i + n ≤ m.length then some (m.take i ++ List.replicate n (some v) ++ m.drop (i + n)) else none

@[simp] theorem length_fresh (n : Nat) : (fresh n : Cells α).length = n := List.length_replicate

/-- A successful read is a cell that exists and has been written. -/
theorem read_eq_some : m.read i = some v ↔ m[i]? = some (some v) := Option.join_eq_some_iff

/-- Reading past the end is a fault. -/
theorem read_of_length_le (h : m.length ≤ i) : m.read i = none := by
  unfold read
  rw [List.getElem?_eq_none h]
  rfl

/-- Every write inside the memory succeeds, whatever the cell held before. -/
theorem write_of_lt (h : i < m.length) : m.write i v = some (m.set i (some v)) := if_pos h

/-- Writing past the end is a fault. -/
theorem write_of_length_le (h : m.length ≤ i) : m.write i v = none := if_neg (Nat.not_lt_of_le h)

/-- What was written is read back. -/
@[simp] theorem read_set_self (h : i < m.length) : read (m.set i (some v)) i = some v := by
  rw [read_eq_some, List.getElem?_set_self h]

/-- The frame rule: a write to one cell leaves every other cell as it was. -/
@[simp] theorem read_set_ne (h : i ≠ j) : read (m.set i (some v)) j = m.read j := by
  unfold read
  rw [List.getElem?_set_ne h]

/-- A copy of the whole block. -/
theorem copy_whole {src : Cells α} (h : m.length = src.length) : m.copy 0 src 0 src.length = some src := by
  unfold copy
  rw [Nat.zero_add, if_pos ⟨Nat.le_of_eq h.symm, Nat.le_refl _⟩, List.take_zero, List.nil_append, List.drop_zero,
    List.take_length, ← h, List.drop_length, List.append_nil]

/-- What is read after a copy. -/
theorem read_copy {src : Cells α} {n : Nat} (h : m.copy i src j n = some m') : m'.length = m.length ∧
    ∀ k, m'.read k = if i ≤ k ∧ k < i + n then src.read (j + (k - i)) else m.read k := by
  unfold copy at h
  split at h
  · rename_i hfits
    obtain rfl := Option.some.inj h
    obtain ⟨hdst, hsrc⟩ := hfits
    have hlen : ((src.drop j).take n).length = n := by
      rw [List.length_take, List.length_drop]
      omega
    have hpre : (m.take i).length = i := by
      rw [List.length_take]
      omega
    refine ⟨?_, ?_⟩
    · rw [List.length_append, List.length_append, hpre, hlen, List.length_drop]
      omega
    · intro k
      unfold read
      by_cases hk : k < i
      · rw [if_neg (by omega), List.append_assoc, List.getElem?_append_left (by omega), List.getElem?_take,
          if_pos hk]
      · by_cases hk' : k < i + n
        · rw [if_pos ⟨by omega, hk'⟩, List.getElem?_append_left (by rw [List.length_append]; omega),
            List.getElem?_append_right (by omega), hpre, List.getElem?_take, if_pos (by omega), List.getElem?_drop]
        · rw [if_neg (by omega), List.getElem?_append_right (by rw [List.length_append]; omega), List.length_append,
            hpre, hlen, List.getElem?_drop, show i + n + (k - (i + n)) = k by omega]
  · cases h

end Cells
end FOrder
