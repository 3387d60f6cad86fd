import FOrder.Shadow.History

/-!
# `Shadow.Clear` — clearing a range of shadow memory

`shadow_mem::clear` of `futurerd` walks over a range in steps of one grain and erases the block it is in. It
stops when it meets the end, which is the start of a block, so it needs a start on a grain boundary; and it
erases the whole first block.

`Clearable` is the condition for what a caller wants, and `clear_exact` says that it is exact: from a clearable
range `clear` returns with the range forgotten and everything else kept, for some number of rounds; from any other
there is no number of rounds for which it does. What goes wrong is one of three things: the loop misses the end, it
leaves the directory, or it forgets an access in front of the range.
-/

namespace FOrder.ShadowMem

/-- `ALIGN_BY_NEXT_MAX_GRAIN_SIZE`. -/
def alignByNextMaxGrainSize (addr : Addr) : Addr :=
  (addr + BitVec.ofNat 64 (maxGrainSize - 1)) &&& ~~~(BitVec.ofNat 64 (maxGrainSize - 1))

section Erase

variable {T : Type}

/-- `erase`; a key that is not in the directory is out of bounds. -/
def erase (m : ShadowMem T) (key : Addr) : Option (ShadowMem T) :=
  if (dirIndex key).toNat < dirSize then
    match m.shadowDir (dirIndex key) with
    | none => some m
    | some _ => some (m.store key none)
  else none

/-- The loop of `clear`. -/
def clearLoop : Nat → ShadowMem T → Addr → Addr → Option (ShadowMem T)
  | 0, _, _, _ => none
  | fuel + 1, m, start, stop =>
      if start ≠ stop then do
        let m ← m.erase (addrToKey start)
        clearLoop fuel m (start + BitVec.ofNat 64 grainSize) stop
      else some m

/-- `clear(start, end)`, with at most `fuel` rounds. -/
def clear (fuel : Nat) (m : ShadowMem T) (start stop : Addr) : Option (ShadowMem T) :=
  if alignByNextMaxGrainSize stop = stop ∧ start ≤ stop then clearLoop fuel m start stop else none

/-- `erase` empties one block. -/
theorem erase_spec {m m' : ShadowMem T} {key : Addr} (h : m.erase key = some m') (key' : Addr) :
    m'.find key' = if key' = key then none else m.find key' := by
  unfold erase at h
  split at h
  · cases hdir : m.shadowDir (dirIndex key) with
    | none =>
        rw [hdir] at h
        cases h
        by_cases hk : key' = key
        · subst hk
          simp [find, hdir]
        · rw [if_neg hk]
    | some tbl =>
        rw [hdir] at h
        cases h
        rw [find_store]
  · cases h

/-- `erase` stays in the directory exactly below `2 ^ 48`. -/
theorem erase_returns {m : ShadowMem T} {addr : Addr} :
    (∃ m', m.erase (addrToKey addr) = some m') ↔ addr.toNat < 2 ^ 48 := by
  rw [← dirIndex_lt]
  unfold erase
  constructor
  · rintro ⟨m', h⟩
    by_contra hlt
    rw [if_neg hlt] at h
    cases h
  · intro hlt
    rw [if_pos hlt]
    cases m.shadowDir (dirIndex (addrToKey addr)) with
    | none => exact ⟨_, rfl⟩
    | some tbl => exact ⟨_, rfl⟩

/-- One round of the loop: the address may wrap around. -/
theorem add_grain_toNat (addr : Addr) :
    (addr + BitVec.ofNat 64 grainSize).toNat = (addr.toNat + 4) % 2 ^ 64 := by
  rw [BitVec.toNat_add]
  rfl

/-! ## When the loop stops

The loop goes on by one grain until it is at the end exactly. The end is the start of a block, so this depends on the
start: from a grain boundary it takes as many rounds as there are grains in between, and from anywhere else it goes
past the end and on until it is out of the directory. -/

/-- **A start off the grain boundaries** never meets the end. -/
theorem clearLoop_mod {fuel : Nat} {m m' : ShadowMem T} {start stop : Addr}
    (h : clearLoop fuel m start stop = some m') : start.toNat % 4 = stop.toNat % 4 := by
  induction fuel generalizing m start with
  | zero => cases h
  | succ fuel ih =>
      unfold clearLoop at h
      split at h
      · obtain ⟨m₁, -, h⟩ := Option.bind_eq_some_iff.mp h
        have hnext := ih h
        rw [add_grain_toNat] at hnext
        omega
      · rename_i heq
        rw [not_not.mp heq]

/-- **What the loop clears**, when it stops: the blocks from that of `start` up to `stop`, all in the directory. -/
theorem clearLoop_spec {fuel : Nat} {m m' : ShadowMem T} {start stop : Addr} (hstart : start.toNat % 4 = 0)
    (hstop : stop.toNat % 16 = 0) (hle : start.toNat ≤ stop.toNat)
    (h : clearLoop fuel m start stop = some m') : (start ≠ stop → stop.toNat ≤ 2 ^ 48) ∧
      ∀ key : Addr, m'.find key =
        if start.toNat / 16 ≤ key.toNat ∧ 16 * key.toNat < stop.toNat then none else m.find key := by
  induction fuel generalizing m start with
  | zero => cases h
  | succ fuel ih =>
      unfold clearLoop at h
      split at h
      · rename_i hne
        obtain ⟨m₁, herase, h⟩ := Option.bind_eq_some_iff.mp h
        have hlt : start.toNat < stop.toNat := by
          rcases Nat.eq_or_lt_of_le hle with heq | hlt
          · exact absurd (BitVec.eq_of_toNat_eq heq) hne
          · exact hlt
        have hdir : start.toNat < 2 ^ 48 := erase_returns.mp ⟨m₁, herase⟩
        have hbound := stop.isLt
        have hnext : (start + BitVec.ofNat 64 grainSize).toNat = start.toNat + 4 := by
          rw [add_grain_toNat]
          omega
        obtain ⟨hend, hfind⟩ := ih (by rw [hnext]; omega) (by rw [hnext]; omega) h
        refine ⟨fun _ => ?_, fun key => ?_⟩
        · by_cases heq : start + BitVec.ofNat 64 grainSize = stop
          · rw [heq] at hnext
            omega
          · exact hend heq
        · rw [hfind, erase_spec herase, hnext]
          have hkey : key = addrToKey start ↔ key.toNat = start.toNat / 16 := by
            rw [← addrToKey_toNat, BitVec.toNat_inj]
          simp only [hkey]
          split_ifs <;> first | rfl | omega
      · rename_i heq
        cases h
        have heq : start = stop := not_not.mp heq
        refine ⟨fun hne => absurd heq hne, fun key => ?_⟩
        rw [heq, if_neg (by omega)]

/-- **The loop stops** when the start is on a grain boundary. -/
theorem clearLoop_returns {n : Nat} {m : ShadowMem T} {start stop : Addr}
    (hn : start.toNat + 4 * n = stop.toNat) (hdir : stop.toNat ≤ 2 ^ 48) :
    ∃ m', clearLoop (n + 1) m start stop = some m' := by
  induction n generalizing m start with
  | zero =>
      have heq : start = stop := BitVec.eq_of_toNat_eq hn
      exact ⟨m, by simp [clearLoop, heq]⟩
  | succ n ih =>
      have hne : start ≠ stop := by
        rintro rfl
        omega
      obtain ⟨m₁, herase⟩ := (erase_returns (m := m)).mpr (show start.toNat < 2 ^ 48 by omega)
      have hnext : (start + BitVec.ofNat 64 grainSize).toNat = start.toNat + 4 := by
        rw [add_grain_toNat]
        omega
      obtain ⟨m', hm'⟩ := @ih m₁ (start + BitVec.ofNat 64 grainSize) (by rw [hnext]; omega)
      refine ⟨m', ?_⟩
      rw [clearLoop, if_pos hne, herase]
      exact hm'

end Erase

/-! ## What is cleared

Each round erases a whole block, not a grain. Within the range this is no matter; in the first block it is one, when
the range starts in its middle. -/

/-- The first assertion of `clear`: the end is the start of a block. -/
theorem mod_of_alignByNext {stop : Addr} (h : alignByNextMaxGrainSize stop = stop) : stop.toNat % 16 = 0 := by
  have hzero : stop &&& BitVec.ofNat 64 (maxGrainSize - 1) = 0 := by
    rw [← h, alignByNextMaxGrainSize, BitVec.and_assoc, BitVec.and_comm (~~~_), BitVec.and_not_self]
    exact BitVec.and_zero
  have hmask : (stop &&& BitVec.ofNat 64 (maxGrainSize - 1)).toNat = stop.toNat % 16 := by
    rw [BitVec.toNat_and]
    exact Nat.and_two_pow_sub_one_eq_mod stop.toNat 4
  rw [← hmask, hzero]
  rfl

section Cleared

variable {R W : Type} (fresh : Cell R W)

/-- What is remembered of the accesses to an address. -/
def recorded (m : ShadowMem (MemAccessList R W)) (a : Addr) : Cell R W :=
  cellAt fresh m (addrToKey a) (addrToMemIndex a)

/-- The range has no block any more, and nothing else is forgotten. -/
structure Cleared (m m' : ShadowMem (MemAccessList R W)) (start stop : Addr) : Prop where
  inside : ∀ a, start ≤ a → a < stop → m'.find (addrToKey a) = none
  outside : ∀ a, ¬(start ≤ a ∧ a < stop) → recorded fresh m' a = recorded fresh m a

/-- The range is empty; or it starts on a grain boundary and stays inside the directory, and nothing is recorded
    for the grains before it in its first block. -/
def Clearable (m : ShadowMem (MemAccessList R W)) (start stop : Addr) : Prop :=
  start = stop ∨ (start.toNat % 4 = 0 ∧ stop.toNat ≤ 2 ^ 48 ∧
    ∀ a, addrToKey a = addrToKey start → a < start → recorded fresh m a = fresh)

/-- Without a block nothing is remembered. -/
theorem recorded_of_find_none {m : ShadowMem (MemAccessList R W)} {a : Addr}
    (h : m.find (addrToKey a) = none) : recorded fresh m a = fresh := by
  simp [recorded, cellAt, h]

/-- What is remembered of an address depends on its block only. -/
theorem recorded_congr {m m' : ShadowMem (MemAccessList R W)} {a : Addr}
    (h : m'.find (addrToKey a) = m.find (addrToKey a)) : recorded fresh m' a = recorded fresh m a := by
  simp only [recorded, cellAt, h]

/-- **`clear`** returns with exactly the range cleared if and only if the range is clearable. -/
theorem clear_exact (m : ShadowMem (MemAccessList R W)) {start stop : Addr}
    (halign : alignByNextMaxGrainSize stop = stop) (hle : start ≤ stop) :
    (∃ fuel m', clear fuel m start stop = some m' ∧ Cleared fresh m m' start stop) ↔
      Clearable fresh m start stop := by
  have hstop := mod_of_alignByNext halign
  have hle' : start.toNat ≤ stop.toNat := hle
  have hrun : ∀ fuel, clear fuel m start stop = clearLoop fuel m start stop :=
    fun fuel => if_pos ⟨halign, hle⟩
  constructor
  · rintro ⟨fuel, m', h, hcleared⟩
    rw [hrun] at h
    by_cases heq : start = stop
    · exact Or.inl heq
    · have hmod : start.toNat % 4 = 0 := by
        rw [clearLoop_mod h]
        omega
      obtain ⟨hdir, hfind⟩ := clearLoop_spec hmod hstop hle' h
      refine Or.inr ⟨hmod, hdir heq, ?_⟩
      intro a hkey hlt
      have hlt' : a.toNat < start.toNat := hlt
      -- the block of `start` is gone, and `a` is outside
      have hgone : m'.find (addrToKey a) = none := by
        rw [hfind, if_pos]
        rw [hkey, addrToKey_toNat]
        have hne : start.toNat ≠ stop.toNat := fun h => heq (BitVec.eq_of_toNat_eq h)
        omega
      rw [← hcleared.outside a (fun h => absurd h.1 (BitVec.not_le.mpr hlt))]
      exact recorded_of_find_none fresh hgone
  · rintro (rfl | ⟨hmod, hdir, hbefore⟩)
    · refine ⟨1, m, by simp [hrun, clearLoop], ?_, fun _ _ => rfl⟩
      intro a hlo hhi
      exact absurd hhi (BitVec.not_lt.mpr hlo)
    · obtain ⟨m', hm'⟩ := clearLoop_returns (show start.toNat + 4 * ((stop.toNat - start.toNat) / 4) = stop.toNat by omega)
        hdir
      obtain ⟨-, hfind⟩ := clearLoop_spec hmod hstop hle' hm'
      refine ⟨_, m', (hrun _).trans hm', ?_, ?_⟩
      · intro a hlo hhi
        have hlo' : start.toNat ≤ a.toNat := hlo
        have hhi' : a.toNat < stop.toNat := hhi
        rw [hfind, if_pos]
        rw [addrToKey_toNat]
        omega
      · intro a hout
        have hout' : ¬(start.toNat ≤ a.toNat ∧ a.toNat < stop.toNat) := hout
        by_cases hin : start.toNat / 16 ≤ (addrToKey a).toNat ∧ 16 * (addrToKey a).toNat < stop.toNat
        · -- an address outside whose block is cleared: before the start, in the same block
          have hgone : m'.find (addrToKey a) = none := by
            rw [hfind, if_pos hin]
          rw [addrToKey_toNat] at hin
          have hkey : addrToKey a = addrToKey start := by
            apply BitVec.eq_of_toNat_eq
            rw [addrToKey_toNat, addrToKey_toNat]
            omega
          rw [recorded_of_find_none fresh hgone, hbefore a hkey (show a.toNat < start.toNat by omega)]
        · exact recorded_congr fresh (by rw [hfind, if_neg hin])

end Cleared

/-- Blocks that remember strands by number. -/
abbrev NumberedBlocks := ShadowMem (MemAccessList (Option Nat) (Option Nat))

abbrev emptyCell : Cell (Option Nat) (Option Nat) := ⟨none, none⟩

/-- A write to the grain at `16`, and one to the grain at `32`. -/
def twoBlocks : NumberedBlocks :=
  (ShadowMem.empty.store 1 (some ⟨0, fun _ => none, fun i => if i = 0 then some 5 else none⟩)).store 2
    (some ⟨0, fun _ => none, fun i => if i = 0 then some 6 else none⟩)

/-- The block from `16` to `32` is cleared, and the one behind it stays. -/
theorem clear_exact_twoBlocks : recorded emptyCell twoBlocks 16 = ⟨none, some 5⟩ ∧
    ∃ fuel m', clear fuel twoBlocks 16 32 = some m' ∧ Cleared emptyCell twoBlocks m' 16 32 ∧
      m'.find (addrToKey 16) = none ∧ recorded emptyCell m' 32 = ⟨none, some 6⟩ := by
  have hclearable : Clearable emptyCell twoBlocks 16 32 := by
    refine Or.inr ⟨rfl, by decide, ?_⟩
    intro a hkey hlt
    -- no address before `16` is in its block
    have hnat := congrArg BitVec.toNat hkey
    have hlt : a.toNat < 16 := hlt
    rw [addrToKey_toNat, addrToKey_toNat, show BitVec.toNat (16 : Addr) = 16 from rfl] at hnat
    omega
  obtain ⟨fuel, m', hrun, hcleared⟩ := (clear_exact emptyCell twoBlocks (by decide) (by decide)).mpr hclearable
  exact ⟨rfl, fuel, m', hrun, hcleared, hcleared.inside 16 (by decide) (by decide), hcleared.outside 32 (by decide)⟩

/-- From address `2` the loop never meets the end of its block, and from address `8` on it forgets a write to
    address `0`. -/
theorem clear_misses :
    (∀ fuel, clear fuel (.empty : NumberedBlocks) 2 16 = none) ∧
    ∃ m m' : NumberedBlocks, clear 3 m 8 16 = some m' ∧ recorded emptyCell m 0 = ⟨none, some 5⟩ ∧
      recorded emptyCell m' 0 = emptyCell := by
  refine ⟨fun fuel => ?_, ?_⟩
  · rw [clear, if_pos (by decide)]
    cases h : clearLoop fuel (.empty : NumberedBlocks) 2 16 with
    | none => rfl
    | some m' => exact absurd (clearLoop_mod h) (by decide)
  · exact ⟨ShadowMem.empty.store 0 (some ⟨0, fun _ => none, fun i => if i = 0 then some 5 else none⟩), _, rfl, rfl,
      rfl⟩

end FOrder.ShadowMem
