import Mathlib.Algebra.Group.Nat.Defs
import Mathlib.Tactic.Common

/-!
# `Shadow.Addr` — addresses, shadow keys and 4-byte grains

The address macros of `mem_access.h` / `mem_access.hpp` (the two files agree on them). A shadow entry
covers a 16-byte block, `addrToKey` names the block and `addrToMemIndex` the 4-byte slot inside it.
-/

namespace FOrder

/-- `addr_t`: a 64-bit address. -/
abbrev Addr := BitVec 64

def logKeySize : Nat := 4
def logTblSize : Nat := 20
def grainSize : Nat := 4
def logGrainSize : Nat := 2
def maxGrainSize : Nat := 1 <<< logKeySize
def numSlots : Nat := maxGrainSize / grainSize

/-- `ADDR_TO_KEY`. -/
def addrToKey (addr : Addr) : Addr := addr >>> logKeySize

/-- `ADDR_TO_MEM_INDEX`: `(addr % 16) / GRAIN_SIZE`. -/
def addrToMemIndex (addr : Addr) : Nat :=
  ((addr &&& BitVec.ofNat 64 (maxGrainSize - 1)) >>> logGrainSize).toNat

/-- `SIZE_TO_NUM_GRAINS`: `size / GRAIN_SIZE`. -/
def sizeToNumGrains (size : Nat) : Nat := size >>> logGrainSize

/-- `ALIGN_BY_PREV_MAX_GRAIN_SIZE`. -/
def alignByPrevMaxGrainSize (addr : Addr) : Addr :=
  addr &&& ~~~(BitVec.ofNat 64 (maxGrainSize - 1))

theorem numSlots_eq : numSlots = 4 := rfl

theorem addrToKey_toNat (addr : Addr) : (addrToKey addr).toNat = addr.toNat / 16 := by
  simp [addrToKey, logKeySize, Nat.shiftRight_eq_div_pow]

theorem addrToMemIndex_eq (addr : Addr) : addrToMemIndex addr = addr.toNat % 16 / 4 := by
  have hmask : (addr &&& BitVec.ofNat 64 (maxGrainSize - 1)).toNat = addr.toNat % 16 := by
    rw [BitVec.toNat_and]
    exact Nat.and_two_pow_sub_one_eq_mod addr.toNat 4
  simp only [addrToMemIndex, BitVec.toNat_ushiftRight, hmask, logGrainSize,
    Nat.shiftRight_eq_div_pow]

theorem sizeToNumGrains_eq (size : Nat) : sizeToNumGrains size = size / 4 := by
  simp [sizeToNumGrains, logGrainSize, Nat.shiftRight_eq_div_pow]

/-! ## Accesses and the grains they touch -/

/-- The grain loops see a naturally aligned access of 4, 8 or 16 bytes. -/
def Aligned (addr : Addr) (size : Nat) : Prop :=
  (size = 4 ∨ size = 8 ∨ size = 16) ∧ addr.toNat % size = 0

/-- Grain `g` (the bytes `4g .. 4g+3`) has a byte in `[addr, addr + size)`. -/
def TouchesGrain (addr : Addr) (size g : Nat) : Prop :=
  ∃ b, addr.toNat ≤ b ∧ b < addr.toNat + size ∧ b / grainSize = g

/-- The grain number of slot `i` of block `key`. -/
def grainOf (key : Addr) (i : Nat) : Nat := key.toNat * numSlots + i

/-- An aligned access stays inside one block: the assertion `start + grains <= NUM_SLOTS` holds. -/
theorem aligned_start_add_grains {addr : Addr} {size : Nat} (h : Aligned addr size) :
    addrToMemIndex addr + sizeToNumGrains size ≤ numSlots := by
  obtain ⟨hs, ha⟩ := h
  rw [addrToMemIndex_eq, sizeToNumGrains_eq, numSlots_eq]
  rcases hs with rfl | rfl | rfl <;> omega

theorem addrToMemIndex_lt (addr : Addr) : addrToMemIndex addr < numSlots := by
  rw [addrToMemIndex_eq, numSlots_eq]
  omega

/-- The grains of an aligned access are the slots `start .. start + grains - 1` of its block. -/
theorem touchesGrain_iff {addr : Addr} {size g : Nat} (h : Aligned addr size) :
    TouchesGrain addr size g ↔ g / numSlots = (addrToKey addr).toNat ∧
      addrToMemIndex addr ≤ g % numSlots ∧
      g % numSlots < addrToMemIndex addr + sizeToNumGrains size := by
  obtain ⟨hs, ha⟩ := h
  rw [addrToMemIndex_eq, sizeToNumGrains_eq, addrToKey_toNat, numSlots_eq]
  unfold TouchesGrain grainSize
  constructor
  · rintro ⟨b, hlo, hhi, hb⟩
    rcases hs with rfl | rfl | rfl <;> refine ⟨?_, ?_, ?_⟩ <;> omega
  · rintro ⟨hk, hlo, hhi⟩
    refine ⟨4 * g, ?_, ?_, ?_⟩
    · rcases hs with rfl | rfl | rfl <;> omega
    · rcases hs with rfl | rfl | rfl <;> omega
    · omega

/-- Every grain a 64-bit address can reach is a slot of a block. -/
theorem exists_slot_of_touches {addr : Addr} {size g : Nat} (h : Aligned addr size)
    (ht : TouchesGrain addr size g) : ∃ key i, i < numSlots ∧ g = grainOf key i := by
  obtain ⟨hk, -⟩ := (touchesGrain_iff h).mp ht
  refine ⟨addrToKey addr, g % numSlots, ?_, ?_⟩
  · rw [numSlots_eq]
    omega
  · rw [grainOf, ← hk, numSlots_eq]
    omega

theorem touchesGrain_grainOf {addr key : Addr} {size i : Nat} (h : Aligned addr size)
    (hi : i < numSlots) : TouchesGrain addr size (grainOf key i) ↔
      key = addrToKey addr ∧ addrToMemIndex addr ≤ i ∧
        i < addrToMemIndex addr + sizeToNumGrains size := by
  rw [touchesGrain_iff h, grainOf, numSlots_eq]
  rw [numSlots_eq] at hi
  have hdiv : (key.toNat * 4 + i) / 4 = key.toNat := by omega
  have hmod : (key.toNat * 4 + i) % 4 = i := by omega
  rw [hdiv, hmod, ← BitVec.toNat_inj]

end FOrder
