import Mathlib.Algebra.Group.Nat.Defs
import Mathlib.Data.Nat.Log
import Mathlib.Tactic.Common

/-!
# `Futurerd.Bitvector` — `utils/bitvector.cpp`

A growing vector of 32-bit blocks. `none` is the null pointer of a vector that has never grown; a copy always
has memory of its own, even for no blocks. `none` as a result is a failed assertion. Indices are 64-bit.
-/

namespace FOrder.Futurerd

abbrev Block := BitVec 32

/-- `bitvector`; `num_blocks` is the length of the data. -/
structure Bitvector where
  data : Option (List Block)
  deriving DecidableEq

/-- `__builtin_clzl` of a 64-bit number that is not `0`. -/
def clzl (x : Nat) : Nat := 63 - Nat.log2 x

/-- `p2`. -/
def p2 (x : Nat) : Nat := 2 ^ (64 - clzl (x - 1)) % 2 ^ 64

/-- `MASK`: the shift is one of a signed 32-bit number, which is then made 64 bits wide. -/
def mask (index : Nat) : BitVec 64 := ((1 : BitVec 32) <<< (index % 32)).signExtend 64

namespace Bitvector

/-- `bitvector()`. -/
def new : Bitvector := ⟨none⟩

def blocks (v : Bitvector) : List Block := v.data.getD []

/-- `num_blocks()`. -/
def numBlocks (v : Bitvector) : Nat := v.blocks.length

/-- `bitvector(const bitvector&)`. -/
def copy (that : Bitvector) : Bitvector := ⟨some that.blocks⟩

/-- `resize`. -/
def resize (v : Bitvector) (newSize : Nat) : Bitvector :=
  if newSize ≤ v.numBlocks then v
  else ⟨some (v.blocks ++ List.replicate (newSize - v.numBlocks) 0)⟩

def newSize (block : Nat) : Nat := if block ≠ 0 then p2 (block + 1) else 1

/-- The first half of `set`: make room for the block. -/
def grow (v : Bitvector) (block : Nat) : Option Bitvector :=
  if v.numBlocks ≤ block then
    if block < newSize block then some (v.resize (newSize block)) else none
  else some v

/-- `set`. -/
def set (v : Bitvector) (y : Nat) : Option Bitvector := do
  let v ← v.grow (y / 32)
  let b ← v.blocks[y / 32]?
  some ⟨some (v.blocks.set (y / 32) (b ||| (mask y).setWidth 32))⟩

/-- `get`. -/
def get (v : Bitvector) (y : Nat) : Bool :=
  match v.blocks[y / 32]? with
  | none => false
  | some b => b.setWidth 64 &&& mask y != 0

end Bitvector

/-! ## Bits -/

/-- The low half of the mask is the bit itself, for the sign bit as well. -/
theorem setWidth_mask (y : Nat) : (mask y).setWidth 32 = BitVec.twoPow 32 (y % 32) := by
  have hsmall : ∀ k, k < 32 → (((1 : BitVec 32) <<< k).signExtend 64).setWidth 32 = BitVec.twoPow 32 k := by
    decide
  exact hsmall (y % 32) (Nat.mod_lt y (by decide))

/-- The mask of `y` has the bit `y % 32`, and no other. -/
theorem getLsbD_mask (y i : Nat) : ((mask y).setWidth 32).getLsbD i = decide (i = y % 32) := by
  rw [setWidth_mask, BitVec.getLsbD_twoPow]
  have hlt : y % 32 < 32 := Nat.mod_lt y (by decide)
  simp [hlt, eq_comm]

/-- Only the low half of the mask meets a block. -/
theorem and_mask (b : Block) (y : Nat) : (b.setWidth 64 &&& mask y != 0) = b.getLsbD (y % 32) := by
  have hlow : ∀ i, (b.setWidth 64 &&& mask y).getLsbD i = (b.getLsbD i && decide (i = y % 32)) := by
    intro i
    rw [BitVec.getLsbD_and, BitVec.getLsbD_setWidth, ← getLsbD_mask, BitVec.getLsbD_setWidth]
    by_cases hi : i < 32
    · have h64 : i < 64 := Nat.lt_trans hi (by decide)
      simp [hi, h64]
    · rw [BitVec.getLsbD_of_ge b i (Nat.le_of_not_lt hi)]
      simp
  cases hbit : b.getLsbD (y % 32) with
  | false =>
      have hzero : b.setWidth 64 &&& mask y = 0 := by
        apply BitVec.eq_of_getLsbD_eq
        intro i _
        rw [hlow]
        by_cases hi : i = y % 32
        · simp [hi, hbit]
        · simp [hi]
      rw [hzero]
      rfl
  | true =>
      rw [bne_iff_ne]
      intro hzero
      have hone := hlow (y % 32)
      rw [hzero, hbit] at hone
      simp at hone

/-! ## The vector as a set -/

namespace Bitvector

variable {v : Bitvector}

/-- A bit of the vector is a bit of its block; there are no bits behind the blocks. -/
theorem get_eq (v : Bitvector) (y : Nat) :
    v.get y = ((v.blocks[y / 32]?).getD 0).getLsbD (y % 32) := by
  unfold get
  cases h : v.blocks[y / 32]? with
  | none => simp
  | some b => exact and_mask b y

@[simp] theorem get_new (y : Nat) : new.get y = false := rfl

@[simp] theorem get_copy (y : Nat) : v.copy.get y = v.get y := rfl

@[simp] theorem blocks_copy : v.copy.blocks = v.blocks := rfl

/-- Growing adds zeros. -/
@[simp] theorem get_resize (newSize y : Nat) : (v.resize newSize).get y = v.get y := by
  rw [get_eq, get_eq]
  unfold resize
  split
  · rfl
  · show (((v.blocks ++ List.replicate _ 0)[y / 32]?).getD 0).getLsbD _ = _
    by_cases hy : y / 32 < v.blocks.length
    · rw [List.getElem?_append_left hy]
    · rw [List.getElem?_append_right (Nat.le_of_not_lt hy), List.getElem?_replicate,
        List.getElem?_eq_none (Nat.le_of_not_lt hy)]
      split
      · rfl
      · rfl

/-- A vector never gets shorter. -/
theorem numBlocks_resize (newSize : Nat) : (v.resize newSize).numBlocks = max v.numBlocks newSize := by
  unfold resize
  split
  · rename_i h
    exact (Nat.max_eq_left h).symm
  · rename_i h
    show (v.blocks ++ List.replicate _ 0).length = _
    rw [List.length_append, List.length_replicate]
    show v.numBlocks + (newSize - v.numBlocks) = _
    omega

/-- The next power of two covers the block. -/
theorem lt_p2 {block : Nat} (h0 : block ≠ 0) (hblock : block < 2 ^ 63) : block < p2 (block + 1) := by
  have hlog : Nat.log2 block < 63 := (Nat.log2_lt h0).mpr hblock
  have hexp : 64 - clzl (block + 1 - 1) = Nat.log2 block + 1 := by
    rw [Nat.add_sub_cancel]
    unfold clzl
    omega
  unfold p2
  rw [hexp, Nat.mod_eq_of_lt (Nat.pow_lt_pow_right (by decide) (by omega))]
  exact Nat.lt_log2_self

/-- The doubled size has room for the block, as long as doubling does not overflow. -/
theorem lt_newSize {block : Nat} (hblock : block < 2 ^ 63) : block < newSize block := by
  unfold newSize
  split
  · rename_i h0
    exact lt_p2 h0 hblock
  · omega

/-- Growing makes room and keeps every bit. -/
theorem grow_spec {block : Nat} (hblock : block < 2 ^ 63) :
    ∃ w, v.grow block = some w ∧ block < w.numBlocks ∧ ∀ z, w.get z = v.get z := by
  unfold grow
  split
  · have hsize := lt_newSize hblock
    refine ⟨v.resize (newSize block), by rw [if_pos hsize], ?_, fun z => get_resize _ z⟩
    rw [numBlocks_resize]
    exact Nat.lt_of_lt_of_le hsize (Nat.le_max_right _ _)
  · rename_i hin
    exact ⟨v, rfl, Nat.lt_of_not_le hin, fun _ => rfl⟩

/-- **`set` adds one number**, and its assertions hold. -/
theorem set_spec {y : Nat} (hy : y < 2 ^ 64) : ∃ v', v.set y = some v' ∧ v'.data ≠ none ∧
    ∀ z, v'.get z = (v.get z || decide (z = y)) := by
  have hblock : y / 32 < 2 ^ 63 := by omega
  obtain ⟨w, hw, hlt, hget⟩ := grow_spec (v := v) hblock
  obtain ⟨b, hb⟩ : ∃ b, w.blocks[y / 32]? = some b := ⟨_, List.getElem?_eq_getElem hlt⟩
  refine ⟨⟨some (w.blocks.set (y / 32) (b ||| (mask y).setWidth 32))⟩, ?_, by simp, ?_⟩
  · unfold set
    rw [hw, Option.bind_eq_bind, Option.bind_some, hb]
    rfl
  · intro z
    rw [← hget, get_eq, get_eq]
    show (((w.blocks.set (y / 32) _)[z / 32]?).getD 0).getLsbD _ = _
    by_cases hz : z / 32 = y / 32
    · rw [hz, List.getElem?_set_self hlt, hb]
      simp only [Option.getD_some, BitVec.getLsbD_or, getLsbD_mask]
      congr 1
      apply decide_eq_decide.mpr
      omega
    · rw [List.getElem?_set_ne (Ne.symm hz)]
      have hne : z ≠ y := fun h => hz (h ▸ rfl)
      simp [hne]

end Bitvector
end FOrder.Futurerd
