import FOrder.Shadow.Addr

/-!
# `Shadow.ShadowMem` — the two-level shadow table

`ShadowMem<T>` (`shadow_mem.h`) and `shadow_mem` (`shadow_mem.cpp`): a directory of tables with
`2^20` entries each. Both levels are total functions with `none` for a null pointer.

The directory of the code is an array of `dirSize` entries, enough for the addresses below `2 ^ 48`, and these are the
ones that a user program has (`dirIndex_lt`). What `find` and `store` say of a key beyond the array is not what the code
does there; who goes over a range of any length, as `clear` does, must look at the bound (`Shadow.Clear`).
-/

namespace FOrder

/-- `shadow_tbl`: the entries of one table. -/
abbrev ShadowTbl (T : Type) := Addr → Option T

structure ShadowMem (T : Type) where
  shadowDir : Addr → Option (ShadowTbl T)

namespace ShadowMem

variable {T : Type}

/-- Every directory entry is null at the start. -/
def empty : ShadowMem T := ⟨fun _ => none⟩

/-- The directory index of `find_slot`. -/
def dirIndex (key : Addr) : Addr := key >>> logTblSize

/-- The table index of `find_slot`. -/
def tblIndex (key : Addr) : Addr := key &&& BitVec.ofNat 64 ((1 <<< logTblSize) - 1)

/-- `shadow_dir` has an entry for each table of a 48-bit address space. -/
def dirSize : Nat := 1 <<< (48 - logTblSize - logKeySize)

theorem dirIndex_toNat (key : Addr) : (dirIndex key).toNat = key.toNat / 2 ^ 20 := by
  simp [dirIndex, logTblSize, Nat.shiftRight_eq_div_pow]

/-- **The bound of `find`, `store` and `erase`**: the keys of the directory are those of a 48-bit address space. -/
theorem dirIndex_lt {addr : Addr} : (dirIndex (addrToKey addr)).toNat < dirSize ↔ addr.toNat < 2 ^ 48 := by
  have hsize : dirSize = 2 ^ 24 := rfl
  rw [dirIndex_toNat, addrToKey_toNat, hsize]
  omega

def find (m : ShadowMem T) (key : Addr) : Option T :=
  match m.shadowDir (dirIndex key) with
  | none => none
  | some tbl => tbl (tblIndex key)

/-- `*find_slot(key, true) = val`: the table is allocated on demand. -/
def store (m : ShadowMem T) (key : Addr) (val : Option T) : ShadowMem T :=
  let tbl := (m.shadowDir (dirIndex key)).getD (fun _ => none)
  ⟨fun d => if d = dirIndex key then
      some (fun k => if k = tblIndex key then val else tbl k) else m.shadowDir d⟩

theorem key_ext {k k' : Addr} (hd : dirIndex k = dirIndex k') (ht : tblIndex k = tblIndex k') :
    k = k' := by
  have hdn : k.toNat / 2 ^ 20 = k'.toNat / 2 ^ 20 := by
    have := congrArg BitVec.toNat hd
    simpa [dirIndex, logTblSize, Nat.shiftRight_eq_div_pow] using this
  have htn : k.toNat % 2 ^ 20 = k'.toNat % 2 ^ 20 := by
    have := congrArg BitVec.toNat ht
    rw [tblIndex, tblIndex, BitVec.toNat_and, BitVec.toNat_and] at this
    rw [← Nat.and_two_pow_sub_one_eq_mod, ← Nat.and_two_pow_sub_one_eq_mod]
    exact this
  apply BitVec.eq_of_toNat_eq
  omega

/-- **The table is a map.** A store is seen at its own key and at no other. -/
theorem find_store (m : ShadowMem T) (key key' : Addr) (val : Option T) :
    (m.store key val).find key' = if key' = key then val else m.find key' := by
  unfold find store
  by_cases hd : dirIndex key' = dirIndex key
  · by_cases ht : tblIndex key' = tblIndex key
    · have hk := key_ext hd ht
      simp [hk]
    · have hk : key' ≠ key := fun h => ht (h ▸ rfl)
      simp only [hd, if_true, ht, if_false, hk]
      cases m.shadowDir (dirIndex key) <;> rfl
  · have hk : key' ≠ key := fun h => hd (h ▸ rfl)
    simp only [hd, if_false, hk]

/-- `ShadowMem<T>::insert` of `shadow_mem.h`: keeps the value that is already there; returns what the
    slot holds afterwards. -/
def insert (m : ShadowMem T) (key : Addr) (val : T) : ShadowMem T × T :=
  match m.find key with
  | none => (m.store key (some val), val)
  | some old => (m.store key (some old), old)

end ShadowMem
end FOrder
