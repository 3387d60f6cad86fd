import FOrder.Shadow.CheckMemCorrect

/-!
# `Shadow.Instrument` — instrumented accesses and the cells they reach

The entry points of `rdtool`'s `tsan.cpp`: `__tsan_read1` up to `__tsan_write16` split an access into calls of
`check_access`. The grain loops of each call go over the cells of whole grains, so an access of one or two bytes has
none.

`Parts` is the splitting: calls of whole aligned grains that have the bytes of the access between them. It is what
the rest needs to know, and so an access that goes over the edge of a block is no special case: each of its calls
stays in one block (`tsan16Access_parts`).

`overlapping_accesses_meet` is what a race detector wants of its instrumentation: two accesses of whole grains have
a byte in common only if some cell is visited by both. It is said of each access by itself (`Visits`): the access
fails no assertion, it is recorded in its cells, and it changes no other. Accesses below a grain visit none
(`visits_small`), so they meet nothing, themselves included (`bytes_never_meet`).
-/

namespace FOrder.Rdtool

variable {P E : Type}

/-- `ALIGNED`. -/
def aligned (addr : Addr) (amt : Nat) : Bool := addr &&& BitVec.ofNat 64 (amt - 1) == 0

/-- `PTRADD`. -/
def ptrAdd (addr : Addr) (amt : Nat) : Addr := addr + BitVec.ofNat 64 amt

/-- `tsan_access`: one call of `check_access`. -/
def tsanAccess (a : Access P) (addr : Addr) (memSize : Nat) : Option (List (Access P)) :=
  if memSize ≤ 16 then some [{ a with addr := addr, memSize := memSize }] else none

/-- `tsan16_access`. -/
def tsan16Access (a : Access P) : Option (List (Access P)) :=
  if !aligned a.addr 4 then none
  else if aligned a.addr 16 then tsanAccess a a.addr 16
  else if aligned a.addr 8 then do
    let c₁ ← tsanAccess a a.addr 8
    let c₂ ← tsanAccess a (ptrAdd a.addr 8) 8
    some (c₁ ++ c₂)
  else do
    let c₁ ← tsanAccess a a.addr 4
    let c₂ ← tsanAccess a (ptrAdd a.addr 4) 4
    let c₃ ← tsanAccess a (ptrAdd a.addr 8) 4
    let c₄ ← tsanAccess a (ptrAdd a.addr 12) 4
    some (c₁ ++ c₂ ++ c₃ ++ c₄)

/-- `__tsan_read1`, ..., `__tsan_write16`: there is one for each size the compiler instruments. -/
def tsanEntry (a : Access P) : Option (List (Access P)) :=
  match a.memSize with
  | 1 | 2 | 4 | 8 => tsanAccess a a.addr a.memSize
  | 16 => tsan16Access a
  | _ => none

/-- The cells that the grain loops of `handle_read`, `handle_write` and the constructor of a block go over. -/
def grainCells (addr : Addr) (memSize : Nat) : Option (List (Addr × Nat)) :=
  let start := addrToMemIndex addr
  let grains := sizeToNumGrains memSize
  if start < numSlots ∧ start + grains ≤ numSlots then
    some (grainLoop (fun i u => (u, [(addrToKey addr, i)])) start grains ()).2
  else none

/-- The cells of several calls. -/
def callCells : List (Access P) → Option (List (Addr × Nat))
  | [] => some []
  | a :: as => do
      let cells ← grainCells a.addr a.memSize
      let rest ← callCells as
      some (cells ++ rest)

/-- The cells an instrumented access reads or updates. -/
def accessCells (a : Access P) : Option (List (Addr × Nat)) := (tsanEntry a).bind callCells

/-- What the compiler instruments: naturally aligned accesses, and vector code on 4-byte boundaries. -/
def Delivered (a : Access P) : Prop :=
  ((a.memSize = 1 ∨ a.memSize = 2 ∨ a.memSize = 4 ∨ a.memSize = 8) ∧ a.addr.toNat % a.memSize = 0) ∨
    (a.memSize = 16 ∧ a.addr.toNat % 4 = 0)

/-- The access has the byte `x`. -/
def HasByte (addr : Addr) (size : Nat) (x : Addr) : Prop := ∃ k, k < size ∧ x = ptrAdd addr k

/-- Grain `i` of block `key` has a byte of the access. -/
def MeetsCell (addr : Addr) (size : Nat) (key : Addr) (i : Nat) : Prop :=
  i < numSlots ∧ ∃ x, HasByte addr size x ∧ x.toNat / grainSize = grainOf key i

/-! ## The cells of one call

A call that stays in its block goes over `size / 4` cells from that of its address on. For an aligned call these are
the cells that have a byte of it; an access of one or two bytes has `0` of them, whatever its address. -/

/-- What a grain loop goes over. -/
theorem mem_grainLoop {α : Type} (c : Nat → α) (n i : Nat) (y : α) :
    y ∈ (grainLoop (fun i u => (u, [c i])) i n ()).2 ↔ ∃ j, i ≤ j ∧ j < i + n ∧ y = c j := by
  induction n generalizing i with
  | zero =>
      simp only [grainLoop, List.not_mem_nil, false_iff]
      rintro ⟨j, hlo, hhi, -⟩
      omega
  | succ n ih =>
      simp only [grainLoop, List.mem_append, List.mem_singleton, ih]
      constructor
      · rintro (rfl | ⟨j, hlo, hhi, rfl⟩)
        · exact ⟨i, by omega, by omega, rfl⟩
        · exact ⟨j, by omega, by omega, rfl⟩
      · rintro ⟨j, hlo, hhi, rfl⟩
        rcases Nat.eq_or_lt_of_le hlo with rfl | hlt
        · exact Or.inl rfl
        · exact Or.inr ⟨j, hlt, by omega, rfl⟩

/-- The cells of a call that stays in its block. -/
theorem grainCells_spec {addr : Addr} {size : Nat} (hfit : addrToMemIndex addr + sizeToNumGrains size ≤ numSlots) :
    ∃ cells, grainCells addr size = some cells ∧ ∀ key i, (key, i) ∈ cells ↔
      key = addrToKey addr ∧ addrToMemIndex addr ≤ i ∧ i < addrToMemIndex addr + sizeToNumGrains size := by
  refine ⟨_, if_pos ⟨addrToMemIndex_lt addr, hfit⟩, ?_⟩
  intro key i
  rw [mem_grainLoop]
  constructor
  · rintro ⟨j, hlo, hhi, heq⟩
    cases heq
    exact ⟨rfl, hlo, hhi⟩
  · rintro ⟨rfl, hlo, hhi⟩
    exact ⟨i, hlo, hhi, rfl⟩

/-- `PTRADD` does not wrap inside the address space. -/
theorem ptrAdd_toNat {addr : Addr} {k : Nat} (h : addr.toNat + k < 2 ^ 64) :
    (ptrAdd addr k).toNat = addr.toNat + k := by
  have hk : k < 2 ^ 64 := by omega
  rw [ptrAdd, BitVec.toNat_add, BitVec.toNat_ofNat, Nat.mod_eq_of_lt hk, Nat.mod_eq_of_lt h]


/-- An aligned access ends where the address space does, or before. -/
theorem aligned_end {addr : Addr} {size : Nat} (h : Aligned addr size) : addr.toNat + size ≤ 2 ^ 64 := by
  obtain ⟨hs, ha⟩ := h
  have hlt := addr.isLt
  rcases hs with rfl | rfl | rfl <;> omega

/-- The grains of an access are those of its bytes. -/
theorem touchesGrain_iff_hasByte {addr : Addr} {size : Nat} (h : addr.toNat + size ≤ 2 ^ 64) {g : Nat} :
    TouchesGrain addr size g ↔ ∃ x, HasByte addr size x ∧ x.toNat / grainSize = g := by
  constructor
  · rintro ⟨b, hlo, hhi, hb⟩
    refine ⟨ptrAdd addr (b - addr.toNat), ⟨_, by omega, rfl⟩, ?_⟩
    rw [ptrAdd_toNat (by omega), Nat.add_sub_cancel' hlo]
    exact hb
  · rintro ⟨x, ⟨k, hk, rfl⟩, hx⟩
    rw [ptrAdd_toNat (by omega)] at hx
    exact ⟨addr.toNat + k, by omega, by omega, hx⟩

/-- The cells of an aligned access are those of the grains it touches. -/
theorem meetsCell_iff_touchesGrain {addr : Addr} {size : Nat} (h : Aligned addr size) {key : Addr} {i : Nat} :
    MeetsCell addr size key i ↔ i < numSlots ∧ TouchesGrain addr size (grainOf key i) :=
  and_congr_right fun _ => (touchesGrain_iff_hasByte (aligned_end h)).symm

/-- **An aligned call of whole grains** goes over the cells it has a byte in. -/
theorem grainCells_aligned {addr : Addr} {size : Nat} (h : Aligned addr size) :
    ∃ cells, grainCells addr size = some cells ∧ ∀ key i, (key, i) ∈ cells ↔ MeetsCell addr size key i := by
  obtain ⟨cells, hrun, hcells⟩ := grainCells_spec (aligned_start_add_grains h)
  refine ⟨cells, hrun, fun key i => ?_⟩
  rw [hcells, meetsCell_iff_touchesGrain h]
  constructor
  · rintro ⟨hkey, hlo, hhi⟩
    have hi : i < numSlots := Nat.lt_of_lt_of_le hhi (aligned_start_add_grains h)
    exact ⟨hi, (touchesGrain_grainOf h hi).mpr ⟨hkey, hlo, hhi⟩⟩
  · rintro ⟨hi, ht⟩
    exact (touchesGrain_grainOf h hi).mp ht

/-! ## The calls of one access

Only an access of 16 bytes is split: into halves when its address is a multiple of 8 but not of 16, and into quarters
when it is a multiple of 4 only. `Parts` says what all these cases have in common. -/

/-- `ALIGNED` is divisibility, for powers of two. -/
theorem aligned_iff (addr : Addr) (k : Nat) (hk : k < 64) : aligned addr (2 ^ k) = true ↔ addr.toNat % 2 ^ k = 0 := by
  have hlt : 2 ^ k - 1 < 2 ^ 64 := by
    have hpow : 2 ^ k < 2 ^ 64 := Nat.pow_lt_pow_right (by decide) hk
    omega
  unfold aligned
  rw [beq_iff_eq, ← BitVec.toNat_inj, BitVec.toNat_and, BitVec.toNat_ofNat, Nat.mod_eq_of_lt hlt,
    Nat.and_two_pow_sub_one_eq_mod]
  rfl

theorem ptrAdd_zero (addr : Addr) : ptrAdd addr 0 = addr := BitVec.add_zero addr

/-- Two steps in one. -/
theorem ptrAdd_ptrAdd (addr : Addr) (m k : Nat) : ptrAdd (ptrAdd addr m) k = ptrAdd addr (m + k) := by
  unfold ptrAdd
  rw [BitVec.add_assoc, ← BitVec.ofNat_add]

/-- The bytes of an access that is split. -/
theorem hasByte_add {addr : Addr} {m n : Nat} {x : Addr} :
    HasByte addr (m + n) x ↔ HasByte addr m x ∨ HasByte (ptrAdd addr m) n x := by
  constructor
  · rintro ⟨k, hk, rfl⟩
    rcases Nat.lt_or_ge k m with hlt | hge
    · exact Or.inl ⟨k, hlt, rfl⟩
    · refine Or.inr ⟨k - m, by omega, ?_⟩
      rw [ptrAdd_ptrAdd, Nat.add_sub_cancel' hge]
  · rintro (⟨k, hk, rfl⟩ | ⟨k, hk, rfl⟩)
    · exact ⟨k, by omega, rfl⟩
    · exact ⟨m + k, by omega, ptrAdd_ptrAdd addr m k⟩

/-- The parts of an aligned access are aligned. -/
theorem ptrAdd_mod {addr : Addr} {m size : Nat} (hsize : size = 4 ∨ size = 8) (hm : m < 2 ^ 64)
    (ha : (addr.toNat + m) % size = 0) : (ptrAdd addr m).toNat % size = 0 := by
  rw [ptrAdd, BitVec.toNat_add, BitVec.toNat_ofNat, Nat.mod_eq_of_lt hm]
  rcases hsize with rfl | rfl <;> omega

/-- The calls an access is split into: whole grains, by the same strand, with the bytes of the access. -/
structure Parts (a : Access P) (calls : List (Access P)) : Prop where
  aligned : ∀ c ∈ calls, Aligned c.addr c.memSize
  same : ∀ c ∈ calls, c.isRead = a.isRead ∧ c.current = a.current
  bytes : ∀ x, HasByte a.addr a.memSize x ↔ ∃ c ∈ calls, HasByte c.addr c.memSize x

/-- The grains of an access are those of its calls. -/
theorem Parts.touches {a : Access P} {calls : List (Access P)} (h : Parts a calls)
    (hend : a.addr.toNat + a.memSize ≤ 2 ^ 64) {g : Nat} : a.Touches g ↔ ∃ c ∈ calls, c.Touches g := by
  have hcall : ∀ c ∈ calls, (c.Touches g ↔ ∃ x, HasByte c.addr c.memSize x ∧ x.toNat / grainSize = g) :=
    fun c hc => touchesGrain_iff_hasByte (aligned_end (h.aligned c hc))
  constructor
  · intro ht
    obtain ⟨x, hx, hg⟩ := (touchesGrain_iff_hasByte hend).mp ht
    obtain ⟨c, hc, hx⟩ := (h.bytes x).mp hx
    exact ⟨c, hc, (hcall c hc).mpr ⟨x, hx, hg⟩⟩
  · rintro ⟨c, hc, ht⟩
    obtain ⟨x, hx, hg⟩ := (hcall c hc).mp ht
    exact (touchesGrain_iff_hasByte hend).mpr ⟨x, (h.bytes x).mpr ⟨c, hc, hx⟩, hg⟩

/-- An access that is delivered and has no whole grain. -/
theorem Delivered.small {a : Access P} (h : Delivered a) (hsize : ¬4 ≤ a.memSize) : a.memSize = 1 ∨ a.memSize = 2 := by
  rcases h with ⟨h, -⟩ | ⟨h, -⟩
  · omega
  · omega

/-- An access of 16 bytes is one call, two or four, as its address is aligned. -/
theorem tsan16Access_parts {a : Access P} (hsize : a.memSize = 16) (ha : a.addr.toNat % 4 = 0) :
    ∃ calls, tsan16Access a = some calls ∧ Parts a calls := by
  have h4 : aligned a.addr 4 = true := (aligned_iff a.addr 2 (by decide)).mpr ha
  unfold tsan16Access
  by_cases h16 : aligned a.addr 16 = true
  · refine ⟨[{ a with memSize := 16 }], by simp [h4, h16, tsanAccess], ?_, ?_, ?_⟩
    · rintro c hc
      rw [List.mem_singleton.mp hc]
      exact ⟨Or.inr (Or.inr rfl), (aligned_iff a.addr 4 (by decide)).mp h16⟩
    · rintro c hc
      rw [List.mem_singleton.mp hc]
      exact ⟨rfl, rfl⟩
    · intro x
      rw [hsize]
      simp
  · by_cases h8 : aligned a.addr 8 = true
    · have ha8 : a.addr.toNat % 8 = 0 := (aligned_iff a.addr 3 (by decide)).mp h8
      refine ⟨[{ a with memSize := 8 }, { a with addr := ptrAdd a.addr 8, memSize := 8 }],
        by simp [h4, h16, h8, tsanAccess], ?_, ?_, ?_⟩
      · rintro c hc
        simp only [List.mem_cons, List.not_mem_nil, or_false] at hc
        rcases hc with rfl | rfl
        · exact ⟨Or.inr (Or.inl rfl), ha8⟩
        · exact ⟨Or.inr (Or.inl rfl), ptrAdd_mod (Or.inr rfl) (by decide) (show (_ + 8) % 8 = 0 by omega)⟩
      · rintro c hc
        simp only [List.mem_cons, List.not_mem_nil, or_false] at hc
        rcases hc with rfl | rfl <;> exact ⟨rfl, rfl⟩
      · intro x
        rw [hsize, show (16 : Nat) = 8 + 8 from rfl, hasByte_add]
        simp
    · refine ⟨[{ a with memSize := 4 }, { a with addr := ptrAdd a.addr 4, memSize := 4 },
        { a with addr := ptrAdd a.addr 8, memSize := 4 }, { a with addr := ptrAdd a.addr 12, memSize := 4 }],
        by simp [h4, h16, h8, tsanAccess], ?_, ?_, ?_⟩
      · rintro c hc
        simp only [List.mem_cons, List.not_mem_nil, or_false] at hc
        rcases hc with rfl | rfl | rfl | rfl
        · exact ⟨Or.inl rfl, ha⟩
        · exact ⟨Or.inl rfl, ptrAdd_mod (Or.inl rfl) (by decide) (show (_ + 4) % 4 = 0 by omega)⟩
        · exact ⟨Or.inl rfl, ptrAdd_mod (Or.inl rfl) (by decide) (show (_ + 8) % 4 = 0 by omega)⟩
        · exact ⟨Or.inl rfl, ptrAdd_mod (Or.inl rfl) (by decide) (show (_ + 12) % 4 = 0 by omega)⟩
      · rintro c hc
        simp only [List.mem_cons, List.not_mem_nil, or_false] at hc
        rcases hc with rfl | rfl | rfl | rfl <;> exact ⟨rfl, rfl⟩
      · intro x
        rw [hsize, show (16 : Nat) = 4 + (4 + (4 + 4)) from rfl, hasByte_add, hasByte_add, hasByte_add]
        simp only [ptrAdd_ptrAdd]
        simp

/-- All calls of an access are of its kind. -/
theorem tsanEntry_isRead {a : Access P} {calls : List (Access P)} (h : tsanEntry a = some calls) :
    ∀ c ∈ calls, c.isRead = a.isRead := by
  have hone : ∀ {addr : Addr} {n : Nat} {cs : List (Access P)}, tsanAccess a addr n = some cs →
      ∀ c ∈ cs, c.isRead = a.isRead := by
    intro addr n cs hcs c hc
    unfold tsanAccess at hcs
    split at hcs
    · cases hcs
      rw [List.mem_singleton.mp hc]
    · cases hcs
  unfold tsanEntry at h
  split at h
  all_goals first
    | exact hone h
    | cases h
    | skip
  unfold tsan16Access at h
  split at h
  · cases h
  split at h
  · exact hone h
  split at h
  · obtain ⟨c₁, h₁, h⟩ := Option.bind_eq_some_iff.mp h
    obtain ⟨c₂, h₂, h⟩ := Option.bind_eq_some_iff.mp h
    cases h
    intro c hc
    rcases List.mem_append.mp hc with hc | hc
    · exact hone h₁ c hc
    · exact hone h₂ c hc
  · obtain ⟨c₁, h₁, h⟩ := Option.bind_eq_some_iff.mp h
    obtain ⟨c₂, h₂, h⟩ := Option.bind_eq_some_iff.mp h
    obtain ⟨c₃, h₃, h⟩ := Option.bind_eq_some_iff.mp h
    obtain ⟨c₄, h₄, h⟩ := Option.bind_eq_some_iff.mp h
    cases h
    intro c hc
    simp only [List.mem_append] at hc
    rcases hc with ((hc | hc) | hc) | hc
    · exact hone h₁ c hc
    · exact hone h₂ c hc
    · exact hone h₃ c hc
    · exact hone h₄ c hc

/-- **An access of whole grains** is split into such calls. -/
theorem tsanEntry_parts {a : Access P} (ha : Delivered a) (hsize : 4 ≤ a.memSize) :
    ∃ calls, tsanEntry a = some calls ∧ Parts a calls := by
  have hone : Aligned a.addr a.memSize → tsanEntry a = some [a] →
      ∃ calls, tsanEntry a = some calls ∧ Parts a calls := by
    intro hal hrun
    refine ⟨[a], hrun, ?_, ?_, ?_⟩
    · intro c hc
      rw [List.mem_singleton.mp hc]
      exact hal
    · intro c hc
      rw [List.mem_singleton.mp hc]
      exact ⟨rfl, rfl⟩
    · simp
  rcases ha with ⟨h1 | h2 | h4 | h8, hal⟩ | ⟨h16, hal⟩
  · omega
  · omega
  · refine hone ⟨Or.inl h4, hal⟩ ?_
    simp [tsanEntry, h4, tsanAccess]
    rw [← h4]
  · refine hone ⟨Or.inr (Or.inl h8), hal⟩ ?_
    simp [tsanEntry, h8, tsanAccess]
    rw [← h8]
  · rw [show tsanEntry a = tsan16Access a by simp [tsanEntry, h16]]
    exact tsan16Access_parts h16 hal

/-- An access of one or two bytes is one call, without a grain. -/
theorem tsanEntry_small {a : Access P} (ha : Delivered a) (hsize : a.memSize < 4) :
    tsanEntry a = some [a] ∧ accessCells a = some [] := by
  have hentry : tsanEntry a = some [a] := by
    rcases ha with ⟨h1 | h2 | h4 | h8, -⟩ | ⟨h16, -⟩
    · simp [tsanEntry, h1, tsanAccess]
      rw [← h1]
    · simp [tsanEntry, h2, tsanAccess]
      rw [← h2]
    · omega
    · omega
    · omega
  refine ⟨hentry, ?_⟩
  have hgrains : sizeToNumGrains a.memSize = 0 := by
    rw [sizeToNumGrains_eq]
    omega
  have hcells : grainCells a.addr a.memSize = some [] := by
    simp only [grainCells, hgrains, Nat.add_zero]
    rw [if_pos ⟨addrToMemIndex_lt _, Nat.le_of_lt (addrToMemIndex_lt _)⟩]
    rfl
  simp [accessCells, hentry, callCells, hcells]

/-- The cells of aligned calls. -/
theorem callCells_parts {calls : List (Access P)} (h : ∀ c ∈ calls, Aligned c.addr c.memSize) :
    ∃ cells, callCells calls = some cells ∧
      ∀ key i, (key, i) ∈ cells ↔ ∃ c ∈ calls, MeetsCell c.addr c.memSize key i := by
  induction calls with
  | nil => exact ⟨[], rfl, by simp⟩
  | cons a as ih =>
      obtain ⟨cells, hcells, hmem⟩ := grainCells_aligned (h a (by simp))
      obtain ⟨rest, hrest, hmem'⟩ := ih fun c hc => h c (by simp [hc])
      refine ⟨cells ++ rest, by simp [callCells, hcells, hrest], ?_⟩
      intro key i
      simp [List.mem_append, hmem, hmem']

/-- **The cells of an access of whole grains** are those it has a byte in. -/
theorem accessCells_exact {a : Access P} (ha : Delivered a) (hsize : 4 ≤ a.memSize) :
    ∃ cells, accessCells a = some cells ∧ ∀ key i, (key, i) ∈ cells ↔ MeetsCell a.addr a.memSize key i := by
  obtain ⟨calls, hrun, hparts⟩ := tsanEntry_parts ha hsize
  obtain ⟨cells, hcells, hmem⟩ := callCells_parts hparts.aligned
  refine ⟨cells, by simp [accessCells, hrun, hcells], ?_⟩
  intro key i
  rw [hmem]
  constructor
  · rintro ⟨c, hc, hi, x, hx, hg⟩
    exact ⟨hi, x, (hparts.bytes x).mpr ⟨c, hc, hx⟩, hg⟩
  · rintro ⟨hi, x, hx, hg⟩
    obtain ⟨c, hc, hxc⟩ := (hparts.bytes x).mp hx
    exact ⟨c, hc, hi, x, hxc, hg⟩

/-! ## What happens in the shadow memory

The calls of an access, run one after the other. Each of them reaches its own cells, so what an access leaves in a
cell is what the one call that reaches it leaves there. -/

section Run

variable [DecidableEq P] [DecidableEq E] (english : P → E) (precedes : P → P → Bool)

/-- An instrumented access, with its calls of `check_access`. -/
def runEntry (a : Access P) (mem : ShadowMem (AccessList P)) : Option (ShadowMem (AccessList P) × List Nat) := do
  let calls ← tsanEntry a
  checkAll (checkAccess english precedes) calls mem

/-- The cell knows the access. -/
def Records (a : Access P) (c : AccessCell P) : Prop :=
  if a.isRead then a.current ∈ c.reader else c.writer = some a.current

/-- The access goes over exactly these cells: it fails no assertion, they record it, no other one changes. -/
structure Visits (a : Access P) (cells : List (Addr × Nat)) : Prop where
  visited : accessCells a = some cells
  run : ∀ mem, ∃ mem' rs, runEntry english precedes a mem = some (mem', rs) ∧ ∀ key i,
    if (key, i) ∈ cells then Records a (cellAt ⟨[], none⟩ mem' key i)
    else cellAt ⟨[], none⟩ mem' key i = cellAt ⟨[], none⟩ mem key i

omit [DecidableEq P] [DecidableEq E] in
/-- A call of whole grains touches the cells it has a byte in. -/
theorem touchesCell_iff_meetsCell {a : Access P} (ha : Aligned a.addr a.memSize) {key : Addr} {i : Nat} :
    TouchesCell a key i ↔ MeetsCell a.addr a.memSize key i := by
  rw [meetsCell_iff_touchesGrain ha]
  constructor
  · intro ht
    exact ⟨ht.lt ha, (touchesGrain_grainOf ha (ht.lt ha)).mpr ht⟩
  · rintro ⟨hi, ht⟩
    exact (touchesGrain_grainOf ha hi).mp ht

omit [DecidableEq E] in
/-- The last access of a cell's history is in the cell. -/
theorem records_foldCell {a : Access P} {h : List (Access P)}
    (hsame : ∀ c ∈ h, c.isRead = a.isRead ∧ c.current = a.current) (hne : h ≠ []) (c : AccessCell P) :
    Records a (foldCell cellStep c h) := by
  obtain ⟨init, last, rfl⟩ : ∃ init last, h = init ++ [last] := ⟨_, _, (List.dropLast_concat_getLast hne).symm⟩
  obtain ⟨hread, hcur⟩ := hsame last (by simp)
  rw [foldCell_concat]
  unfold Records cellStep
  rw [hread, hcur]
  cases a.isRead with
  | true =>
      simp only [if_true]
      split
      · assumption
      · exact List.mem_cons_self
  | false => rfl

/-- **An access of whole grains** visits the cells it has a byte in. -/
theorem visits_grains {a : Access P} (ha : Delivered a) (hsize : 4 ≤ a.memSize) :
    ∃ cells, Visits english precedes a cells ∧ ∀ key i, (key, i) ∈ cells ↔ MeetsCell a.addr a.memSize key i := by
  obtain ⟨calls, hrun, hparts⟩ := tsanEntry_parts ha hsize
  obtain ⟨cells, hcells, hmem⟩ := callCells_parts hparts.aligned
  obtain ⟨cells', hcells', hexact⟩ := accessCells_exact ha hsize
  obtain rfl : cells = cells' := by
    rw [accessCells, hrun, Option.bind_some, hcells] at hcells'
    exact Option.some.inj hcells'
  refine ⟨cells, ⟨hcells', fun mem => ?_⟩, hexact⟩
  obtain ⟨mem', rs, hall, hcell⟩ := (checkAccess_grainByGrain english precedes).checkAll_cell calls mem
    fun c hc => fits_of_aligned (hparts.aligned c hc)
  refine ⟨mem', rs, by simp [runEntry, hrun, hall], ?_⟩
  intro key i
  rw [hcell]
  -- a cell is in the list when one of the calls touches it
  have hhist : (key, i) ∈ cells ↔ cellHistory calls key i ≠ [] := by
    rw [hmem]
    constructor
    · rintro ⟨c, hc, hm⟩
      have hin : c ∈ cellHistory calls key i :=
        mem_cellHistory.mpr ⟨hc, (touchesCell_iff_meetsCell (hparts.aligned c hc)).mpr hm⟩
      exact List.ne_nil_of_mem hin
    · intro hne
      obtain ⟨c, hc⟩ := List.exists_mem_of_ne_nil _ hne
      obtain ⟨hin, ht⟩ := mem_cellHistory.mp hc
      exact ⟨c, hin, (touchesCell_iff_meetsCell (hparts.aligned c hin)).mp ht⟩
  split
  · rename_i hin
    exact records_foldCell (fun c hc => hparts.same c (mem_cellHistory.mp hc).1) (hhist.mp hin) _
  · rename_i hout
    have hnil : cellHistory calls key i = [] := by
      by_contra hne
      exact hout (hhist.mpr hne)
    rw [hnil]
    rfl

/-- **An access of one or two bytes** visits no cell: its block is allocated and nothing is stored. -/
theorem visits_small {a : Access P} (ha : Delivered a) (hsize : a.memSize < 4) :
    Visits english precedes a [] := by
  obtain ⟨hentry, hcells⟩ := tsanEntry_small ha hsize
  refine ⟨hcells, fun mem => ?_⟩
  have hgrains : sizeToNumGrains a.memSize = 0 := by
    rw [sizeToNumGrains_eq]
    omega
  have hfit : addrToMemIndex a.addr + sizeToNumGrains a.memSize ≤ numSlots := by
    rw [hgrains]
    exact Nat.le_of_lt (addrToMemIndex_lt _)
  have hnone : ∀ key i, ¬TouchesCell a key i := by
    rintro key i ⟨-, hlo, hhi⟩
    rw [hgrains] at hhi
    omega
  have hcheck : ∃ mem' rs, checkAccess english precedes mem a = some (mem', rs) ∧
      ∀ key i, cellAt ⟨[], none⟩ mem' key i = cellAt ⟨[], none⟩ mem key i := by
    cases hfind : mem.find (addrToKey a.addr) with
    | none =>
        refine ⟨_, [], checkAccess_first english precedes hfit hfind, ?_⟩
        intro key i
        rw [cellAt_store]
        split
        · rename_i hkey
          rw [firstBlock_cell, if_neg (hnone _ i), hkey]
          simp [cellAt, hfind]
        · rfl
    | some slot =>
        obtain ⟨slot', rs, hrun, hcell, -⟩ := handle_spec english precedes slot a hfit
        refine ⟨_, _, checkAccess_again english precedes hfind hrun, ?_⟩
        intro key i
        rw [cellAt_store]
        split
        · rename_i hkey
          rw [hcell, if_neg (hnone _ i), hkey]
          simp [cellAt, hfind]
        · rfl
  obtain ⟨mem', rs, hrun, hsame⟩ := hcheck
  refine ⟨mem', rs ++ [], by simp [runEntry, hentry, checkAll, hrun], ?_⟩
  intro key i
  rw [if_neg (by simp)]
  exact hsame key i

/-- Every byte is in some cell. -/
theorem exists_cell (x : Addr) : ∃ key i, i < numSlots ∧ x.toNat / grainSize = grainOf key i := by
  refine ⟨addrToKey x, addrToMemIndex x, addrToMemIndex_lt x, ?_⟩
  rw [grainOf, addrToKey_toNat, addrToMemIndex_eq, numSlots_eq, grainSize]
  omega

/-- **Overlapping accesses meet** in the shadow memory exactly when both are of whole grains: an access visits
    the cells it has a byte in unless it is smaller than a grain, and then it visits none. -/
theorem overlapping_accesses_meet {a b : Access P} (ha : Delivered a) (hb : Delivered b) :
    ∃ ca cb, Visits english precedes a ca ∧ Visits english precedes b cb ∧
      ((∀ key i, (key, i) ∈ ca ↔ MeetsCell a.addr a.memSize key i) ↔ 4 ≤ a.memSize) ∧
      ∀ x, HasByte a.addr a.memSize x → HasByte b.addr b.memSize x →
        ((∃ cell, cell ∈ ca ∧ cell ∈ cb) ↔ 4 ≤ a.memSize ∧ 4 ≤ b.memSize) := by
  rcases Nat.lt_or_ge a.memSize 4 with hsa | hsa
  · obtain ⟨cb, hvb⟩ : ∃ cb, Visits english precedes b cb := by
      rcases Nat.lt_or_ge b.memSize 4 with hsb | hsb
      · exact ⟨[], visits_small english precedes hb hsb⟩
      · obtain ⟨cb, hvb, -⟩ := visits_grains english precedes hb hsb
        exact ⟨cb, hvb⟩
    refine ⟨[], cb, visits_small english precedes ha hsa, hvb, ?_, ?_⟩
    · refine iff_of_false ?_ (Nat.not_le_of_lt hsa)
      intro hexact
      -- the first byte is in a cell
      obtain ⟨key, i, hi, hg⟩ := exists_cell a.addr
      have hpos : 0 < a.memSize := by
        rcases ha with ⟨h1 | h2 | h4 | h8, -⟩ | ⟨h16, -⟩ <;> omega
      have hmem := (hexact key i).mpr ⟨hi, a.addr, ⟨0, hpos, (ptrAdd_zero _).symm⟩, hg⟩
      simp at hmem
    · intro x _ _
      refine iff_of_false (by simp) ?_
      rintro ⟨h, -⟩
      exact absurd h (Nat.not_le_of_lt hsa)
  · obtain ⟨ca, hva, hca⟩ := visits_grains english precedes ha hsa
    rcases Nat.lt_or_ge b.memSize 4 with hsb | hsb
    · refine ⟨ca, [], hva, visits_small english precedes hb hsb, iff_of_true hca hsa, ?_⟩
      intro x _ _
      refine iff_of_false (by simp) ?_
      rintro ⟨-, h⟩
      exact absurd h (Nat.not_le_of_lt hsb)
    · obtain ⟨cb, hvb, hcb⟩ := visits_grains english precedes hb hsb
      refine ⟨ca, cb, hva, hvb, iff_of_true hca hsa, ?_⟩
      intro x hxa hxb
      refine iff_of_true ?_ ⟨hsa, hsb⟩
      obtain ⟨key, i, hi, hg⟩ := exists_cell x
      exact ⟨(key, i), (hca key i).mpr ⟨hi, x, hxa, hg⟩, (hcb key i).mpr ⟨hi, x, hxb, hg⟩⟩

end Run

/-- An access of four bytes and one of sixteen bytes over a block boundary. -/
theorem overlapping_accesses_meet_split :
    ∃ ca cb, Visits id (fun _ _ => false) (⟨false, 0, 16, 4, 0⟩ : Access Nat) ca ∧
      Visits id (fun _ _ => false) (⟨false, 0, 12, 16, 1⟩ : Access Nat) cb ∧
      ((∀ key i, (key, i) ∈ ca ↔ MeetsCell 16 4 key i) ↔ 4 ≤ 4) ∧
      ∀ x, HasByte 16 4 x → HasByte 12 16 x → ((∃ cell, cell ∈ ca ∧ cell ∈ cb) ↔ 4 ≤ 4 ∧ 4 ≤ 16) :=
  overlapping_accesses_meet id (fun _ _ => false) (a := ⟨false, 0, 16, 4, 0⟩) (b := ⟨false, 0, 12, 16, 1⟩)
    (Or.inl ⟨Or.inr (Or.inr (Or.inl rfl)), by decide⟩) (Or.inr ⟨rfl, by decide⟩)

/-- Two writes of the byte at address `0` share no cell. -/
theorem bytes_never_meet : Delivered (⟨false, 0, 0, 1, 0⟩ : Access Nat) ∧
    Delivered (⟨false, 0, 0, 1, 1⟩ : Access Nat) ∧ HasByte 0 1 0 ∧
    accessCells (⟨false, 0, 0, 1, 0⟩ : Access Nat) = some [] ∧
    accessCells (⟨false, 0, 0, 1, 1⟩ : Access Nat) = some [] :=
  ⟨Or.inl ⟨Or.inl rfl, by decide⟩, Or.inl ⟨Or.inl rfl, by decide⟩, ⟨0, Nat.one_pos, rfl⟩, rfl, rfl⟩

end FOrder.Rdtool
