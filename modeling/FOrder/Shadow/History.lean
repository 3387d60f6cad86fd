import FOrder.Lib.Since
import FOrder.Shadow.AccessList

/-!
# `Shadow.History` — sequences of `check_access` calls, grain by grain

Both tools look up the block of an access, install a fresh block on the first access, and otherwise run
their grain loops on it. When every grain is handled by itself (`GrainByGrain`), the content of a slot after
a run is the fold of the tool's cell step over the accesses that reach the slot, and the reports are those of
the single slots.

A tool instantiates `GrainByGrain` with the step of one cell and the reports of one slot, and proves it of its
`check_access` once. From then on shadow memory does not matter any more: `mem_reportsAt` is about one call after a
run, `mem_checkAll_iff` about all of them, and both speak of lists of accesses and folds only. `cellHistory` keeps
of a sequence the accesses that reach a slot; most lemmas here say how it goes along with `++`.
-/

namespace FOrder

/-- One call of `check_access` by the strand `current`. -/
structure Access (P : Type) where
  isRead : Bool
  rip : Addr
  addr : Addr
  memSize : Nat
  current : P
  deriving DecidableEq

variable {P R W Q : Type}

/-- The access has a byte in grain `g`. -/
def Access.Touches (a : Access P) (g : Nat) : Prop := TouchesGrain a.addr a.memSize g

/-- The access reaches slot `i` of block `key`. -/
def TouchesCell (a : Access P) (key : Addr) (i : Nat) : Prop :=
  key = addrToKey a.addr ∧ addrToMemIndex a.addr ≤ i ∧
    i < addrToMemIndex a.addr + sizeToNumGrains a.memSize

instance (a : Access P) (key : Addr) (i : Nat) : Decidable (TouchesCell a key i) :=
  inferInstanceAs (Decidable (_ ∧ _ ∧ _))

/-- The access stays in its block: `assert((start + grains) <= NUM_SLOTS)` holds of it. -/
def Access.Fits (a : Access P) : Prop := addrToMemIndex a.addr + sizeToNumGrains a.memSize ≤ numSlots

instance (a : Access P) : Decidable a.Fits := inferInstanceAs (Decidable (_ ≤ _))

/-- Naturally aligned accesses of whole grains pass the assertion. -/
theorem fits_of_aligned {a : Access P} (h : Aligned a.addr a.memSize) : a.Fits := aligned_start_add_grains h

/-- An access that stays in its block reaches slots of the block only. -/
theorem TouchesCell.lt_of_fits {a : Access P} {key : Addr} {i : Nat} (ht : TouchesCell a key i) (ha : a.Fits) :
    i < numSlots :=
  Nat.lt_of_lt_of_le ht.2.2 ha

/-- So does an aligned access. -/
theorem TouchesCell.lt {a : Access P} {key : Addr} {i : Nat} (ht : TouchesCell a key i)
    (ha : Aligned a.addr a.memSize) : i < numSlots :=
  ht.lt_of_fits (fits_of_aligned ha)

/-- Whatever its size and alignment, an access has a byte in the grain of every cell that its loops go over. -/
theorem TouchesCell.touches {a : Access P} {key : Addr} {i : Nat} (ht : TouchesCell a key i) (ha : a.Fits) :
    a.Touches (grainOf key i) := by
  have hi := ht.lt_of_fits ha
  obtain ⟨hkey, hlo, hhi⟩ := ht
  have hk : key.toNat = a.addr.toNat / 16 := by rw [hkey, addrToKey_toNat]
  unfold Access.Fits at ha
  rw [addrToMemIndex_eq, sizeToNumGrains_eq] at ha hhi
  rw [addrToMemIndex_eq] at hlo
  rw [numSlots_eq] at ha hi
  -- the byte that is as many grains after the first one as the cell is after the first cell
  refine ⟨a.addr.toNat + 4 * (i - a.addr.toNat % 16 / 4), by omega, by omega, ?_⟩
  rw [grainOf, hk, numSlots_eq, grainSize]
  omega

/-- The slots of its own block that an access reaches. -/
theorem touchesCell_own {a : Access P} {i : Nat} : TouchesCell a (addrToKey a.addr) i ↔
    addrToMemIndex a.addr ≤ i ∧ i < addrToMemIndex a.addr + sizeToNumGrains a.memSize :=
  ⟨fun h => h.2, fun h => ⟨rfl, h⟩⟩

/-- An aligned access reaches the slots of the grains it has a byte in. This fails below the size of a grain, and
    for an access that goes over the end of its block. -/
theorem touches_grainOf {a : Access P} {key : Addr} {i : Nat} (ha : Aligned a.addr a.memSize)
    (hi : i < numSlots) : a.Touches (grainOf key i) ↔ TouchesCell a key i :=
  touchesGrain_grainOf ha hi

/-- The content of slot `i` of block `key`; a block that does not exist yet holds the cell `fresh`. -/
def cellAt (fresh : Cell R W) (mem : ShadowMem (MemAccessList R W)) (key : Addr) (i : Nat) : Cell R W :=
  match mem.find key with
  | none => fresh
  | some slot => slot.cell i

/-- The slots of one block after it has been stored. -/
theorem cellAt_store (fresh : Cell R W) (mem : ShadowMem (MemAccessList R W)) (key key' : Addr)
    (slot : MemAccessList R W) (i : Nat) : cellAt fresh (mem.store key (some slot)) key' i =
      if key' = key then slot.cell i else cellAt fresh mem key' i := by
  unfold cellAt
  rw [ShadowMem.find_store]
  by_cases hk : key' = key <;> simp [hk]

/-- The accesses of `accs` that reach the slot, oldest first. -/
def cellHistory (accs : List (Access P)) (key : Addr) (i : Nat) : List (Access P) :=
  accs.filter (fun a => TouchesCell a key i)

/-- The accesses that reach a slot. -/
theorem mem_cellHistory {accs : List (Access P)} {key : Addr} {i : Nat} {a : Access P} :
    a ∈ cellHistory accs key i ↔ a ∈ accs ∧ TouchesCell a key i := by
  simp [cellHistory]

/-- One access more is one more in the history of each slot that it reaches. -/
theorem cellHistory_concat (accs : List (Access P)) (a : Access P) (key : Addr) (i : Nat) :
    cellHistory (accs ++ [a]) key i =
      if TouchesCell a key i then cellHistory accs key i ++ [a] else cellHistory accs key i := by
  by_cases ht : TouchesCell a key i <;> simp [cellHistory, ht]

/-- An access of the slot's history stands in the whole sequence, after the same history. -/
theorem cellHistory_split {accs p q : List (Access P)} {key : Addr} {i : Nat} {c : Access P}
    (h : cellHistory accs key i = p ++ c :: q) : ∃ p' q', accs = p' ++ c :: q' ∧
      p = cellHistory p' key i ∧ TouchesCell c key i := by
  obtain ⟨l₁, l₂, rfl, hl₁, hl₂⟩ := List.filter_eq_append_iff.mp h
  obtain ⟨m₁, m₂, rfl, hm₁, hct, -⟩ := List.filter_eq_cons_iff.mp hl₂
  refine ⟨l₁ ++ m₁, m₂, by simp, ?_, by simpa using hct⟩
  have hskip : cellHistory m₁ key i = [] := List.filter_eq_nil_iff.mpr hm₁
  rw [← hl₁, cellHistory, List.filter_append, show m₁.filter _ = [] from hskip, List.append_nil]

/-! ## Runs -/

section Runs

variable (check : ShadowMem (MemAccessList R W) → Access P →
  Option (ShadowMem (MemAccessList R W) × List Q))

/-- A sequence of calls of `check_access`; the `report_race` calls of all of them, in order. -/
def checkAll : List (Access P) → ShadowMem (MemAccessList R W) →
    Option (ShadowMem (MemAccessList R W) × List Q)
  | [], mem => some (mem, [])
  | a :: as, mem => do
      let (mem₁, r₁) ← check mem a
      let (mem₂, r₂) ← checkAll as mem₁
      some (mem₂, r₁ ++ r₂)

/-- The `report_race` calls made while `b` is handled, after the calls `pre` from an empty shadow. -/
def reportsAt (pre : List (Access P)) (b : Access P) : Option (List Q) := do
  let (mem, _) ← checkAll check pre .empty
  let (_, races) ← check mem b
  some races

/-- When `check` fails on the accesses that do not fit, a run that returns has none of them. -/
theorem fits_of_checkAll {check : ShadowMem (MemAccessList R W) → Access P → Option (ShadowMem (MemAccessList R W) × List Q)}
    (hfail : ∀ mem a, ¬a.Fits → check mem a = none) {accs : List (Access P)} :
    ∀ {mem out}, checkAll check accs mem = some out → ∀ a ∈ accs, a.Fits := by
  induction accs with
  | nil =>
      intro _ _ _ a ha
      cases ha
  | cons b bs ih =>
      intro mem out h a ha
      obtain ⟨⟨mem₁, r₁⟩, hb, h⟩ := Option.bind_eq_some_iff.mp h
      obtain ⟨⟨mem₂, r₂⟩, hbs, -⟩ := Option.bind_eq_some_iff.mp h
      rcases List.mem_cons.mp ha with rfl | ha
      · by_contra hno
        rw [hfail mem a hno] at hb
        cases hb
      · exact ih hbs a ha

theorem fits_of_reportsAt {check : ShadowMem (MemAccessList R W) → Access P → Option (ShadowMem (MemAccessList R W) × List Q)}
    (hfail : ∀ mem a, ¬a.Fits → check mem a = none) {pre : List (Access P)} {b : Access P} {races : List Q}
    (h : reportsAt check pre b = some races) : ∀ a ∈ pre ++ [b], a.Fits := by
  obtain ⟨⟨mem, r⟩, hpre, h⟩ := Option.bind_eq_some_iff.mp h
  obtain ⟨⟨mem', r'⟩, hb, -⟩ := Option.bind_eq_some_iff.mp h
  intro a ha
  rcases List.mem_append.mp ha with ha | ha
  · exact fits_of_checkAll hfail hpre a ha
  · obtain rfl := List.mem_singleton.mp ha
    by_contra hno
    rw [hfail mem a hno] at hb
    cases hb

/-- **Grain by grain**: on an access that fits `check` fails no assertion, maps every cell the access
    reaches by `step`, leaves the others alone, and makes the `report_race` calls `rep` of those cells. -/
structure GrainByGrain (fresh : Cell R W) (step : Access P → Cell R W → Cell R W)
    (rep : Access P → Addr → Nat → Cell R W → Q → Prop) : Prop where
  run : ∀ mem a, a.Fits → ∃ mem' rs, check mem a = some (mem', rs) ∧
    (∀ key i, cellAt fresh mem' key i =
      if TouchesCell a key i then step a (cellAt fresh mem key i) else cellAt fresh mem key i) ∧
    (∀ r, r ∈ rs ↔ ∃ key i, TouchesCell a key i ∧ rep a key i (cellAt fresh mem key i) r)

variable {check} {fresh : Cell R W} {step : Access P → Cell R W → Cell R W}
  {rep : Access P → Addr → Nat → Cell R W → Q → Prop}

/-- It is enough to look at the block of the access: `check` installs a block on the first access, and
    replaces the block it finds on the others. -/
theorem GrainByGrain.of_block
    (hfirst : ∀ mem a, a.Fits → mem.find (addrToKey a.addr) = none →
      ∃ slot, check mem a = some (mem.store (addrToKey a.addr) (some slot), []) ∧
        ∀ i, slot.cell i = if TouchesCell a (addrToKey a.addr) i then step a fresh else fresh)
    (hfresh : ∀ a key i r, ¬rep a key i fresh r)
    (hagain : ∀ mem a slot, a.Fits → mem.find (addrToKey a.addr) = some slot →
      ∃ slot' rs, check mem a = some (mem.store (addrToKey a.addr) (some slot'), rs) ∧
        (∀ i, slot'.cell i =
          if TouchesCell a (addrToKey a.addr) i then step a (slot.cell i) else slot.cell i) ∧
        (∀ r, r ∈ rs ↔ ∃ i, TouchesCell a (addrToKey a.addr) i ∧
          rep a (addrToKey a.addr) i (slot.cell i) r)) :
    GrainByGrain check fresh step rep := by
  refine ⟨fun mem a ha => ?_⟩
  have hother : ∀ {key : Addr} {i : Nat}, key ≠ addrToKey a.addr → ¬TouchesCell a key i :=
    fun hk ht => hk ht.1
  cases hfind : mem.find (addrToKey a.addr) with
  | none =>
      obtain ⟨slot, hrun, hcell⟩ := hfirst mem a ha hfind
      have hnew : ∀ i, cellAt fresh mem (addrToKey a.addr) i = fresh := by
        intro i
        simp [cellAt, hfind]
      refine ⟨_, [], hrun, ?_, ?_⟩
      · intro key i
        rw [cellAt_store]
        by_cases hk : key = addrToKey a.addr
        · rw [if_pos hk, hk, hcell, hnew]
        · rw [if_neg hk, if_neg (hother hk)]
      · intro r
        simp only [List.not_mem_nil, false_iff]
        rintro ⟨key, i, ht, hr⟩
        rw [ht.1, hnew] at hr
        exact hfresh a _ i r hr
  | some slot =>
      obtain ⟨slot', rs, hrun, hcell, hrep⟩ := hagain mem a slot ha hfind
      have hold : ∀ i, cellAt fresh mem (addrToKey a.addr) i = slot.cell i := by
        intro i
        simp [cellAt, hfind]
      refine ⟨_, rs, hrun, ?_, ?_⟩
      · intro key i
        rw [cellAt_store]
        by_cases hk : key = addrToKey a.addr
        · rw [if_pos hk, hk, hcell, hold]
        · rw [if_neg hk, if_neg (hother hk)]
      · intro r
        rw [hrep]
        constructor
        · rintro ⟨i, ht, hr⟩
          exact ⟨_, i, ht, (hold i).symm ▸ hr⟩
        · rintro ⟨key, i, ht, hr⟩
          obtain rfl := ht.1
          exact ⟨i, ht, hold i ▸ hr⟩

/-- The content of a slot after the accesses `h` that reach it. -/
def foldCell (step : Access P → Cell R W → Cell R W) (c : Cell R W) (h : List (Access P)) : Cell R W :=
  h.foldl (fun c a => step a c) c

/-- One access more is one step more of the cell. -/
theorem foldCell_concat (c : Cell R W) (h : List (Access P)) (a : Access P) :
    foldCell step c (h ++ [a]) = step a (foldCell step c h) := by
  simp [foldCell]

/-- **A run, grain by grain.** When all calls fit, none of them fails an assertion; each slot holds the fold over
    its own accesses. -/
theorem GrainByGrain.checkAll_cell (hg : GrainByGrain check fresh step rep) (accs : List (Access P))
    (mem : ShadowMem (MemAccessList R W)) (ha : ∀ a ∈ accs, a.Fits) :
    ∃ mem' rs, checkAll check accs mem = some (mem', rs) ∧
      ∀ key i, cellAt fresh mem' key i =
        foldCell step (cellAt fresh mem key i) (cellHistory accs key i) := by
  induction accs generalizing mem with
  | nil => exact ⟨mem, [], rfl, fun _ _ => rfl⟩
  | cons a as ih =>
      obtain ⟨mem₁, r₁, hrun₁, hcell₁, -⟩ := hg.run mem a (ha a (by simp))
      obtain ⟨mem₂, r₂, hrun₂, hcell₂⟩ := ih mem₁ (fun b hb => ha b (by simp [hb]))
      refine ⟨mem₂, r₁ ++ r₂, by simp [checkAll, hrun₁, hrun₂], ?_⟩
      intro key i
      rw [hcell₂, hcell₁]
      by_cases ht : TouchesCell a key i <;> simp [cellHistory, foldCell, ht]

/-- The calls of a run are its calls one by one. -/
theorem mem_checkAll {pre : List (Access P)} {b : Access P} {mem mem' : ShadowMem (MemAccessList R W)}
    {rs : List Q} (hrun : checkAll check (pre ++ [b]) mem = some (mem', rs)) :
    ∃ mem₁ r₁ r₂, checkAll check pre mem = some (mem₁, r₁) ∧ check mem₁ b = some (mem', r₂) ∧
      rs = r₁ ++ r₂ := by
  induction pre generalizing mem rs with
  | nil =>
      obtain ⟨⟨m, r⟩, hb, hrest⟩ := Option.bind_eq_some_iff.mp hrun
      simp only [checkAll, Option.bind_eq_bind, Option.bind_some, List.append_nil, Option.some.injEq,
        Prod.mk.injEq] at hrest
      obtain ⟨rfl, rfl⟩ := hrest
      exact ⟨mem, [], r, rfl, hb, rfl⟩
  | cons a as ih =>
      obtain ⟨⟨m, r⟩, ha, hrest⟩ := Option.bind_eq_some_iff.mp hrun
      obtain ⟨⟨m', r'⟩, hrec, hend⟩ := Option.bind_eq_some_iff.mp hrest
      simp only [Option.some.injEq, Prod.mk.injEq] at hend
      obtain ⟨rfl, rfl⟩ := hend
      obtain ⟨mem₁, r₁, r₂, has, hb, rfl⟩ := ih hrec
      exact ⟨mem₁, r ++ r₁, r₂, by simp [checkAll, ha, has], hb, by simp⟩

/-- **One call of a run.** The `report_race` calls are those of the slots that the access reaches, each
    against the fold of the slot's earlier accesses. -/
theorem GrainByGrain.mem_reportsAt (hg : GrainByGrain check fresh step rep) {pre : List (Access P)}
    {b : Access P} (ha : ∀ a ∈ pre ++ [b], a.Fits) :
    ∃ races, reportsAt check pre b = some races ∧ ∀ r, r ∈ races ↔
      ∃ key i, TouchesCell b key i ∧ rep b key i (foldCell step fresh (cellHistory pre key i)) r := by
  obtain ⟨mem, rs, hrun, hcell⟩ := hg.checkAll_cell pre .empty (fun a h => ha a (by simp [h]))
  obtain ⟨mem', rs', hrun', -, hrep⟩ := hg.run mem b (ha b (by simp))
  refine ⟨rs', by simp [reportsAt, hrun, hrun'], ?_⟩
  intro r
  rw [hrep]
  simp only [hcell]
  rfl

/-- **The reports of a run** are those of its calls, one by one. -/
theorem GrainByGrain.mem_checkAll_iff (hg : GrainByGrain check fresh step rep) {accs : List (Access P)}
    (ha : ∀ a ∈ accs, a.Fits) :
    ∃ mem races, checkAll check accs .empty = some (mem, races) ∧ ∀ r, r ∈ races ↔
      ∃ pre b post, accs = pre ++ b :: post ∧ ∃ key i, TouchesCell b key i ∧
        rep b key i (foldCell step fresh (cellHistory pre key i)) r := by
  induction accs using List.reverseRecOn with
  | nil => exact ⟨.empty, [], rfl, by simp⟩
  | append_singleton pre b ih =>
      obtain ⟨mem₁, r₁, hrun₁, hrep₁⟩ := ih (fun a h => ha a (by simp [h]))
      obtain ⟨races, hat, hrep⟩ := hg.mem_reportsAt ha
      obtain ⟨mem, rs, hrun, -⟩ := hg.checkAll_cell (pre ++ [b]) .empty ha
      refine ⟨mem, rs, hrun, ?_⟩
      obtain ⟨mem₁', r₁', r₂, hrun₁', hb, rfl⟩ := mem_checkAll hrun
      obtain ⟨rfl, rfl⟩ : mem₁ = mem₁' ∧ r₁ = r₁' := by simpa [hrun₁] using hrun₁'
      obtain rfl : r₂ = races := by simpa [reportsAt, hrun₁, hb] using hat
      intro r
      rw [List.mem_append, hrep₁, hrep]
      constructor
      · rintro (⟨p, c, q, rfl, hr⟩ | hr)
        · exact ⟨p, c, q ++ [b], by simp, hr⟩
        · exact ⟨pre, b, [], rfl, hr⟩
      · rintro ⟨p, c, q, heq, hr⟩
        rcases concat_eq_append_cons.mp heq with ⟨rfl, rfl, -⟩ | ⟨q', rfl, -⟩
        · exact Or.inr hr
        · exact Or.inl ⟨p, c, q', rfl, hr⟩

end Runs

end FOrder
