import FOrder.Shadow.RaceDetector

/-!
# `Shadow.RaceDetectorRaces` — which races `futurerd`'s access history reports

A grain remembers its last write and its last read, so `report_race` is called exactly when an access is
parallel to the last write before it, or a write to the last read before it (`LastRace`). The writes of a
grain without such a race form a chain and every read is after the writes before it. What this leaves open
is a read that another read replaced before the next write: that one is never checked again.

The plan is that of `Shadow.CheckMemRaces`. The four loops are shown to act on every grain by itself, and the fold
of the cell step is computed: it is the last access of each kind (`entry_foldCell`). `reported_iff_lastRace` then
has no shadow memory in it. What is not found is told by `HiddenReader`, and `reported_of_race_iff` says that this
is the whole difference; `twoReaders_not_reported` shows that it does happen.
-/

namespace FOrder.Futurerd

variable {P : Type}

/-! ## One grain

The effect of an access on a cell, and the reports that are made for it, as functions of the cell alone. -/

/-- The effect of one access on a grain it touches. -/
def cellStep (a : Access P) (c : AccessCell P) : AccessCell P :=
  if a.isRead then { c with reader := some ⟨a.current, a.rip⟩ }
  else { c with writer := some ⟨a.current, a.rip⟩ }

section Reports

variable (precedesNow : P → P → Bool)

/-- The `report_race` calls for one slot. -/
def SlotReport (a : Access P) (key : Addr) (i : Nat) (c : AccessCell P) (r : RaceReport) : Prop :=
  let check := checkLast precedesNow key a.addr a.rip a.current
  if a.isRead then r ∈ check .WR i c.writer
  else r ∈ check .WW i c.writer ∨ r ∈ check .RW i c.reader

/-- A remembered access that the current strand does not come after. -/
def Unordered (a : Access P) (last : Option (MemAccess P)) : Prop :=
  ∃ m, last = some m ∧ precedesNow a.current m.rd = false

/-- There is a report when there is a last access that the current one does not come after. -/
theorem mem_checkLast {key addr rip : Addr} {current : P} {t : RaceType} {i : Nat}
    {last : Option (MemAccess P)} {r : RaceReport} :
    r ∈ checkLast precedesNow key addr rip current t i last ↔
      ∃ m, last = some m ∧ precedesNow current m.rd = false ∧
        r = ⟨grainOf key i, addr, m.rip, rip, t⟩ := by
  unfold checkLast
  cases last with
  | none => simp
  | some m => cases hp : precedesNow current m.rd <;> simp [hp]

/-- Reports name the grain whose slot they are made for. -/
theorem slotReport_grain {a : Access P} {key : Addr} {i : Nat} {c : AccessCell P} {r : RaceReport}
    (h : SlotReport precedesNow a key i c r) : r.grain = grainOf key i := by
  unfold SlotReport at h
  split at h
  · obtain ⟨m, -, -, rfl⟩ := (mem_checkLast precedesNow).mp h
    rfl
  · rcases h with h | h
    · obtain ⟨m, -, -, rfl⟩ := (mem_checkLast precedesNow).mp h
      rfl
    · obtain ⟨m, -, -, rfl⟩ := (mem_checkLast precedesNow).mp h
      rfl

/-- When some call is made for the slot. -/
theorem exists_slotReport {a : Access P} {key : Addr} {i : Nat} {c : AccessCell P} :
    (∃ r, SlotReport precedesNow a key i c r) ↔
      Unordered precedesNow a c.writer ∨ (a.isRead = false ∧ Unordered precedesNow a c.reader) := by
  unfold SlotReport Unordered
  cases ha : a.isRead with
  | true =>
      simp only [if_true, mem_checkLast, Bool.true_eq_false, false_and, or_false]
      constructor
      · rintro ⟨r, m, hm, hp, -⟩
        exact ⟨m, hm, hp⟩
      · rintro ⟨m, hm, hp⟩
        exact ⟨_, m, hm, hp, rfl⟩
  | false =>
      simp only [Bool.false_eq_true, if_false, mem_checkLast, true_and]
      constructor
      · rintro ⟨r, ⟨m, hm, hp, -⟩ | ⟨m, hm, hp, -⟩⟩
        · exact Or.inl ⟨m, hm, hp⟩
        · exact Or.inr ⟨m, hm, hp⟩
      · rintro (⟨m, hm, hp⟩ | ⟨m, hm, hp⟩)
        · exact ⟨_, Or.inl ⟨m, hm, hp, rfl⟩⟩
        · exact ⟨_, Or.inr ⟨m, hm, hp, rfl⟩⟩

/-! ## The loops act on every grain by itself

Four loop bodies, each of which touches one cell of the block. A handler is two of them in a row; together with the
installation of new blocks they make `check_access` grain by grain, which is all that `Shadow.History` wants. -/

variable (key addr rip : Addr) (current : P)

/-- A read asks about the last write. -/
theorem readWriter_cellwise : Cellwise (readWriter precedesNow key addr rip current) id
    (fun i c r => r ∈ checkLast precedesNow key addr rip current .WR i c.writer) where
  cell i l j := by
    by_cases h : j = i <;> simp [readWriter, h]
  report _ _ _ := Iff.rfl

/-- A read takes the place of the last read. -/
theorem readReaders_cellwise : Cellwise (readReaders rip current)
    (fun c => { c with reader := some ⟨current, rip⟩ }) (fun _ _ _ => False) where
  cell i l j := by
    rw [readReaders, MemAccessList.cell_setReader]
    by_cases h : j = i <;> simp [h]
  report _ _ _ := by simp [readReaders]

/-- A write asks about the last write and takes its place. -/
theorem writeWriter_cellwise : Cellwise (writeWriter precedesNow key addr rip current)
    (fun c => { c with writer := some ⟨current, rip⟩ })
    (fun i c r => r ∈ checkLast precedesNow key addr rip current .WW i c.writer) where
  cell i l j := by
    rw [writeWriter, MemAccessList.cell_setWriter]
    by_cases h : j = i <;> simp [h]
  report _ _ _ := Iff.rfl

/-- A write asks about the last read and leaves it. -/
theorem writeReaders_cellwise : Cellwise (writeReaders precedesNow key addr rip current) id
    (fun i c r => r ∈ checkLast precedesNow key addr rip current .RW i c.reader) where
  cell i l j := by
    by_cases h : j = i <;> simp [writeReaders, h]
  report _ _ _ := Iff.rfl

end Reports

section Spec

variable (precedesNow : P → P → Bool)

/-- A read that fits, as its two loops. -/
theorem handleRead_eq (key : Addr) (slot : AccessList P) (a : Access P)
    (ha : a.Fits) :
    handleRead precedesNow key a.addr a.rip a.current slot a.memSize =
      let l₁ := grainLoop (readWriter precedesNow key a.addr a.rip a.current) (addrToMemIndex a.addr)
        (sizeToNumGrains a.memSize) slot
      let l₂ := grainLoop (readReaders a.rip a.current) (addrToMemIndex a.addr)
        (sizeToNumGrains a.memSize) l₁.1
      some (l₂.1, l₁.2 ++ l₂.2) := by
  simp [handleRead, addrToMemIndex_lt, show _ ≤ numSlots from ha]

/-- A write that fits, as its two loops. -/
theorem handleWrite_eq (key : Addr) (slot : AccessList P) (a : Access P)
    (ha : a.Fits) :
    handleWrite precedesNow key a.addr a.rip a.current slot a.memSize =
      let l₁ := grainLoop (writeWriter precedesNow key a.addr a.rip a.current) (addrToMemIndex a.addr)
        (sizeToNumGrains a.memSize) slot
      let l₂ := grainLoop (writeReaders precedesNow key a.addr a.rip a.current)
        (addrToMemIndex a.addr) (sizeToNumGrains a.memSize) l₁.1
      some (l₂.1, l₁.2 ++ l₂.2) := by
  simp [handleWrite, addrToMemIndex_lt, show _ ≤ numSlots from ha]

/-- **`handle_read` and `handle_write` grain by grain.** -/
theorem handle_spec (slot : AccessList P) (a : Access P) (ha : a.Fits) :
    ∃ slot' rs,
      (if a.isRead then handleRead precedesNow (addrToKey a.addr) a.addr a.rip a.current slot a.memSize
        else handleWrite precedesNow (addrToKey a.addr) a.addr a.rip a.current slot a.memSize) =
          some (slot', rs) ∧
      (∀ i, slot'.cell i = if TouchesCell a (addrToKey a.addr) i then cellStep a (slot.cell i)
        else slot.cell i) ∧
      (∀ r, r ∈ rs ↔ ∃ i, TouchesCell a (addrToKey a.addr) i ∧
        SlotReport precedesNow a (addrToKey a.addr) i (slot.cell i) r) := by
  cases hread : a.isRead with
  | true =>
      have h₁ := readWriter_cellwise precedesNow (addrToKey a.addr) a.addr a.rip a.current
      have h₂ := readReaders_cellwise a.rip a.current
      refine ⟨_, _, handleRead_eq precedesNow _ slot a ha, ?_, ?_⟩
      · intro i
        simp only [h₂.loop_cell, h₁.loop_cell, touchesCell_own]
        by_cases hi : addrToMemIndex a.addr ≤ i ∧
            i < addrToMemIndex a.addr + sizeToNumGrains a.memSize <;> simp [hi, cellStep, hread]
      · intro r
        simp only [List.mem_append, h₁.loop_report, h₂.loop_report, and_false, exists_false, or_false,
          SlotReport, hread, if_true, touchesCell_own]
  | false =>
      have h₁ := writeWriter_cellwise precedesNow (addrToKey a.addr) a.addr a.rip a.current
      have h₂ := writeReaders_cellwise precedesNow (addrToKey a.addr) a.addr a.rip a.current
      refine ⟨_, _, handleWrite_eq precedesNow _ slot a ha, ?_, ?_⟩
      · intro i
        simp only [h₂.loop_cell, h₁.loop_cell, touchesCell_own]
        by_cases hi : addrToMemIndex a.addr ≤ i ∧
            i < addrToMemIndex a.addr + sizeToNumGrains a.memSize <;> simp [hi, cellStep, hread]
      · intro r
        simp only [List.mem_append, h₁.loop_report, h₂.loop_report, h₁.loop_cell, SlotReport, hread,
          Bool.false_eq_true, if_false, touchesCell_own]
        -- the second loop sees the readers as they were
        constructor
        · rintro (⟨i, hi, hr⟩ | ⟨i, hi, hr⟩)
          · exact ⟨i, hi, Or.inl hr⟩
          · rw [if_pos hi] at hr
            exact ⟨i, hi, Or.inr hr⟩
        · rintro ⟨i, hi, hr | hr⟩
          · exact Or.inl ⟨i, hi, hr⟩
          · refine Or.inr ⟨i, hi, ?_⟩
            rw [if_pos hi]
            exact hr

/-- The block installed by the first access to it. -/
def firstBlock (a : Access P) : AccessList P where
  startAddr := alignByPrevMaxGrainSize a.addr
  readers := fun i => if a.isRead ∧ addrToMemIndex a.addr ≤ i ∧
    i < addrToMemIndex a.addr + sizeToNumGrains a.memSize then some ⟨a.current, a.rip⟩ else none
  writers := fun i => if ¬a.isRead ∧ addrToMemIndex a.addr ≤ i ∧
    i < addrToMemIndex a.addr + sizeToNumGrains a.memSize then some ⟨a.current, a.rip⟩ else none

/-- A fresh block is an empty one that has seen the access. -/
theorem firstBlock_cell (a : Access P) (i : Nat) :
    (firstBlock a).cell i =
      if TouchesCell a (addrToKey a.addr) i then cellStep a ⟨none, none⟩ else ⟨none, none⟩ := by
  by_cases ht : TouchesCell a (addrToKey a.addr) i
  · have hi := ht.2
    cases hread : a.isRead <;> simp [ht, MemAccessList.cell, firstBlock, cellStep, hread, hi]
  · have hi : ∀ q : Prop, ¬(q ∧ addrToMemIndex a.addr ≤ i ∧
        i < addrToMemIndex a.addr + sizeToNumGrains a.memSize) := fun q h => ht ⟨rfl, h.2⟩
    simp only [MemAccessList.cell, firstBlock, if_neg ht, if_neg (hi _)]

/-- **`check_access` grain by grain.** -/
theorem checkAccess_grainByGrain : GrainByGrain (checkAccess precedesNow) ⟨none, none⟩ cellStep
    (SlotReport precedesNow) := by
  apply GrainByGrain.of_block
  · intro mem a ha hfind
    have hnew : memAccessListNew a.addr a.isRead a.current a.rip a.memSize = some (firstBlock a) := by
      simp only [memAccessListNew, addrToMemIndex_lt, show _ ≤ numSlots from ha, and_self, if_true]
      rfl
    exact ⟨firstBlock a, by simp [checkAccess, hfind, hnew], firstBlock_cell a⟩
  · -- nothing is reported against an empty slot
    intro a key i r hr
    have hex := (exists_slotReport precedesNow).mp ⟨r, hr⟩
    simp [Unordered] at hex
  · intro mem a slot ha hfind
    obtain ⟨slot', rs, hrun, hcell, hrep⟩ := handle_spec precedesNow slot a ha
    refine ⟨slot', rs, ?_, hcell, hrep⟩
    unfold checkAccess
    cases hread : a.isRead <;> simp only [hread, if_true, Bool.false_eq_true, if_false] at hrun <;>
      simp [hfind, hrun]

end Spec

/-! ## What a grain remembers

The last access of each kind. It is said twice: as a fold, which is what a run computes, and by the position of the
access in the sequence, which is what races are about. -/

/-- The last access of a kind. -/
def LastOf (k : Bool) (h : List (Access P)) (a : Access P) : Prop :=
  Since (fun c => c.isRead ≠ k) h a ∧ a.isRead = k

/-- The slot's entry for a kind of access. -/
def entry (k : Bool) (c : AccessCell P) : Option (MemAccess P) := if k then c.reader else c.writer

/-- What one access does to the entry for a kind. -/
theorem entry_cellStep (k : Bool) (a : Access P) (c : AccessCell P) :
    entry k (cellStep a c) = if a.isRead = k then some ⟨a.current, a.rip⟩ else entry k c := by
  unfold entry cellStep
  cases k <;> cases a.isRead <;> simp

/-- **What a grain remembers**: the last access of each kind. -/
theorem entry_foldCell (k : Bool) (h : List (Access P)) (m : MemAccess P) :
    entry k (foldCell cellStep ⟨none, none⟩ h) = some m ↔
      ∃ a, LastOf k h a ∧ m = ⟨a.current, a.rip⟩ := by
  induction h using List.reverseRecOn with
  | nil =>
      have hnone : entry k (foldCell cellStep ⟨none, none⟩ ([] : List (Access P))) = none := by
        cases k <;> rfl
      rw [hnone]
      simp only [reduceCtorEq, false_iff]
      rintro ⟨a, ⟨hs, -⟩, -⟩
      exact not_since_nil a hs
  | append_singleton h x ih =>
      rw [foldCell_concat, entry_cellStep]
      by_cases hx : x.isRead = k
      · rw [if_pos hx, Option.some.injEq]
        constructor
        · rintro rfl
          exact ⟨x, ⟨since_concat_self h x, hx⟩, rfl⟩
        · rintro ⟨a, ⟨hs, ha⟩, rfl⟩
          rcases since_concat_cases hs with rfl | ⟨-, hne⟩
          · rfl
          · exact absurd hx hne
      · rw [if_neg hx, ih]
        constructor
        · rintro ⟨a, ⟨hs, ha⟩, rfl⟩
          exact ⟨a, ⟨hs.concat hx, ha⟩, rfl⟩
        · rintro ⟨a, ⟨hs, ha⟩, rfl⟩
          rcases since_concat_cases hs with rfl | ⟨hs, -⟩
          · exact absurd ha hx
          · exact ⟨a, ⟨hs, ha⟩, rfl⟩

/-- An access is checked against the last accesses it conflicts with, in terms of the whole sequence. -/
theorem exists_slotReport_iff {precedesNow : P → P → Bool} {pre : List (Access P)} {b : Access P}
    {key : Addr} {i : Nat} :
    (∃ r, SlotReport precedesNow b key i (foldCell cellStep ⟨none, none⟩ (cellHistory pre key i)) r) ↔
      ∃ h₁ a h₂, pre = h₁ ++ a :: h₂ ∧ TouchesCell a key i ∧ (a.isRead = false ∨ b.isRead = false) ∧
        precedesNow b.current a.current = false ∧
        ∀ c ∈ h₂, TouchesCell c key i → c.isRead ≠ a.isRead := by
  have hentry : ∀ k, Unordered precedesNow b
      (entry k (foldCell cellStep ⟨none, none⟩ (cellHistory pre key i))) ↔
      ∃ a, LastOf k (cellHistory pre key i) a ∧ precedesNow b.current a.current = false := by
    intro k
    constructor
    · rintro ⟨m, hm, hp⟩
      obtain ⟨a, hlast, rfl⟩ := (entry_foldCell k _ m).mp hm
      exact ⟨a, hlast, hp⟩
    · rintro ⟨a, hlast, hp⟩
      exact ⟨_, (entry_foldCell k _ _).mpr ⟨a, hlast, rfl⟩, hp⟩
  have hw := hentry false
  have hr := hentry true
  simp only [entry, Bool.false_eq_true, if_false, if_true] at hw hr
  rw [exists_slotReport, hw, hr]
  constructor
  · rintro (⟨a, ⟨hs, ha⟩, hp⟩ | ⟨hb, a, ⟨hs, ha⟩, hp⟩)
    · obtain ⟨h₁, h₂, heq, hat, hkeep⟩ := since_filter.mp hs
      refine ⟨h₁, a, h₂, heq, by simpa using hat, Or.inl ha, hp, fun c hc ht => ?_⟩
      rw [ha]
      exact hkeep c hc (by simpa using ht)
    · obtain ⟨h₁, h₂, heq, hat, hkeep⟩ := since_filter.mp hs
      refine ⟨h₁, a, h₂, heq, by simpa using hat, Or.inr hb, hp, fun c hc ht => ?_⟩
      rw [ha]
      exact hkeep c hc (by simpa using ht)
  · rintro ⟨h₁, a, h₂, heq, hat, hwr, hp, hkeep⟩
    have hlast : LastOf a.isRead (cellHistory pre key i) a :=
      ⟨since_filter.mpr ⟨h₁, h₂, heq, by simpa using hat, fun c hc ht => hkeep c hc (by simpa using ht)⟩,
        rfl⟩
    cases ha : a.isRead with
    | false => exact Or.inl ⟨a, ha ▸ hlast, hp⟩
    | true =>
        have hb : b.isRead = false := by simpa [ha] using hwr
        exact Or.inr ⟨hb, a, ha ▸ hlast, hp⟩

/-! ## Races

`HasRace` is what one would like to know and `LastRace` what is checked. The two differ by reads that another read has
replaced. A write is not lost in this way: it stays until the next write, which is checked against it, and whoever
comes after that one comes after both. -/

section Races

variable (reach : P → P → Prop)

/-- Logically parallel strands: no path either way. -/
def Parallel (x y : P) : Prop := ¬reach x y ∧ ¬reach y x

/-- Two accesses to `g` by parallel strands, one of them a write. -/
def HasRace (accs : List (Access P)) (g : Nat) : Prop :=
  ∃ pre a mid b post, accs = pre ++ a :: mid ++ b :: post ∧ a.Touches g ∧ b.Touches g ∧
    (a.isRead = false ∨ b.isRead = false) ∧ Parallel reach a.current b.current

/-- A race in which the earlier access is the last one of its kind to `g` before the later one. -/
def LastRace (accs : List (Access P)) (g : Nat) : Prop :=
  ∃ pre a mid b post, accs = pre ++ a :: mid ++ b :: post ∧ a.Touches g ∧ b.Touches g ∧
    (a.isRead = false ∨ b.isRead = false) ∧ Parallel reach a.current b.current ∧
    ∀ c ∈ mid, c.Touches g → c.isRead ≠ a.isRead

/-- A read of `g` that another read replaces before the next write, and a later write parallel to it. -/
def HiddenReader (accs : List (Access P)) (g : Nat) : Prop :=
  ∃ pre a mid c mid' b post, accs = pre ++ a :: mid ++ c :: mid' ++ b :: post ∧
    a.Touches g ∧ c.Touches g ∧ b.Touches g ∧ a.isRead = true ∧ c.isRead = true ∧ b.isRead = false ∧
    (∀ x ∈ mid, ¬x.Touches g) ∧ Parallel reach a.current b.current

/-- The calls come in serial depth-first order: a later strand has no path to an earlier one. -/
def SerialOrder (accs : List (Access P)) : Prop :=
  accs.Pairwise fun a b => reach b.current a.current → a.current = b.current

/-- `precedes_now` answers whether an earlier strand has a path to, or is, the current strand. -/
def AnswersExactly (precedesNow : P → P → Bool) (accs : List (Access P)) : Prop :=
  accs.Pairwise fun a b => precedesNow b.current a.current = true ↔ reach a.current b.current

/-- `report_race` is called at least once for grain `g`. -/
def Reported (precedesNow : P → P → Bool) (accs : List (Access P)) (g : Nat) : Prop :=
  ∃ mem races, checkAll (checkAccess precedesNow) accs .empty = some (mem, races) ∧
    ∃ r ∈ races, r.grain = g

variable {reach} {precedesNow : P → P → Bool} {accs : List (Access P)} {g : Nat}

/-- What holds of any two accesses, in their order. -/
theorem pairwise_split {q : Access P → Access P → Prop} (hq : accs.Pairwise q)
    {pre mid post : List (Access P)} {a b : Access P} (heq : accs = pre ++ a :: mid ++ b :: post) :
    q a b := by
  rw [heq, List.append_assoc, List.cons_append, List.pairwise_append, List.pairwise_cons] at hq
  exact hq.2.1.1 b (by simp)

/-- In serial order, parallel means that there is no path from the earlier one. -/
theorem parallel_iff (hrefl : ∀ x, reach x x) (hser : SerialOrder reach accs)
    {pre mid post : List (Access P)} {a b : Access P} (heq : accs = pre ++ a :: mid ++ b :: post) :
    Parallel reach a.current b.current ↔ ¬reach a.current b.current := by
  refine ⟨fun h => h.1, fun h => ⟨h, fun hba => h ?_⟩⟩
  rw [pairwise_split hser heq hba]
  exact hrefl _

/-- **Exactly the last races are reported.** -/
theorem reported_iff_lastRace (hrefl : ∀ x, reach x x) (hser : SerialOrder reach accs)
    (hexact : AnswersExactly reach precedesNow accs) (hal : ∀ a ∈ accs, Aligned a.addr a.memSize) :
    Reported precedesNow accs g ↔ LastRace reach accs g := by
  obtain ⟨mem, races, hrun, hrep⟩ := (checkAccess_grainByGrain precedesNow).mem_checkAll_iff
    fun a ha => fits_of_aligned (hal a ha)
  have hpar : ∀ {pre a mid b post}, accs = pre ++ a :: mid ++ b :: post →
      (precedesNow b.current a.current = false ↔ Parallel reach a.current b.current) := by
    intro pre a mid b post heq
    rw [parallel_iff hrefl hser heq, ← pairwise_split hexact heq, Bool.not_eq_true]
  constructor
  · rintro ⟨mem', races', hrun', r, hr, rfl⟩
    obtain ⟨-, rfl⟩ : mem = mem' ∧ races = races' := by simpa [hrun] using hrun'
    obtain ⟨pre, b, post, heq, key, i, hbt, hslot⟩ := (hrep r).mp hr
    obtain ⟨h₁, a, h₂, rfl, hat, hw, hp, hkeep⟩ := exists_slotReport_iff.mp ⟨r, hslot⟩
    have hb : Aligned b.addr b.memSize := hal b (by simp [heq])
    have ha : Aligned a.addr a.memSize := hal a (by simp [heq])
    have hi : i < numSlots := hbt.lt hb
    rw [slotReport_grain precedesNow hslot]
    refine ⟨h₁, a, h₂, b, post, by simpa using heq, (touches_grainOf ha hi).mpr hat,
      (touches_grainOf hb hi).mpr hbt, hw, (hpar (by simpa using heq)).mp hp, ?_⟩
    intro c hc hcg
    exact hkeep c hc ((touches_grainOf (hal c (by simp [heq, hc])) hi).mp hcg)
  · rintro ⟨pre, a, mid, b, post, heq, hag, hbg, hw, hp, hkeep⟩
    have hb : Aligned b.addr b.memSize := hal b (by simp [heq])
    have ha : Aligned a.addr a.memSize := hal a (by simp [heq])
    obtain ⟨key, i, hi, rfl⟩ := exists_slot_of_touches hb hbg
    have hbt : TouchesCell b key i := (touches_grainOf hb hi).mp hbg
    obtain ⟨r, hslot⟩ := exists_slotReport_iff.mpr ⟨pre, a, mid, rfl, (touches_grainOf ha hi).mp hag, hw,
      (hpar heq).mpr hp,
      fun c hc ht => hkeep c hc ((touches_grainOf (hal c (by simp [heq, hc])) hi).mpr ht)⟩
    exact ⟨mem, races, hrun, r, (hrep r).mpr ⟨_, b, post, heq, key, i, hbt, hslot⟩,
      slotReport_grain precedesNow hslot⟩

/-- **Writes form a chain.** Without a last race a write has a path to every later access of the grain. -/
theorem reach_of_write (hrefl : ∀ x, reach x x) (htrans : ∀ x y z, reach x y → reach y z → reach x z)
    (hser : SerialOrder reach accs) (hno : ¬LastRace reach accs g) (t : List (Access P)) :
    ∀ (pre : List (Access P)) (a : Access P) (mid : List (Access P)) (b : Access P)
      (post : List (Access P)), accs = pre ++ a :: mid ++ t ++ b :: post → a.Touches g →
      b.Touches g → a.isRead = false → (∀ c ∈ mid, c.Touches g → c.isRead = true) →
      reach a.current b.current := by
  -- induction on what lies between; `mid` is the part with no write in it
  induction t with
  | nil =>
      intro pre a mid b post heq hag hbg haw hmid
      by_contra hn
      have heq' : accs = pre ++ a :: mid ++ b :: post := by simpa using heq
      apply hno
      refine ⟨pre, a, mid, b, post, heq', hag, hbg, Or.inl haw, ?_, ?_⟩
      · exact (parallel_iff hrefl hser heq').mpr hn
      · intro c hc hcg
        rw [haw, hmid c hc hcg]
        decide
  | cons c t ih =>
      intro pre a mid b post heq hag hbg haw hmid
      by_cases hc : c.Touches g ∧ c.isRead = false
      · obtain ⟨hcg, hcw⟩ := hc
        have heq' : accs = pre ++ a :: mid ++ c :: (t ++ b :: post) := by simp [heq]
        have hac : reach a.current c.current := by
          by_contra hn
          apply hno
          refine ⟨pre, a, mid, c, _, heq', hag, hcg, Or.inl haw, ?_, ?_⟩
          · exact (parallel_iff hrefl hser heq').mpr hn
          · intro d hd hdg
            rw [haw, hmid d hd hdg]
            decide
        have hcb : reach c.current b.current := by
          apply ih (pre ++ a :: mid) c [] b post _ hcg hbg hcw (by simp)
          simp [heq]
        exact htrans _ _ _ hac hcb
      · apply ih pre a (mid ++ [c]) b post (by simp [heq]) hag hbg haw
        intro d hd hdg
        rcases List.mem_append.mp hd with hd | hd
        · exact hmid d hd hdg
        · obtain rfl := List.mem_singleton.mp hd
          by_contra hr
          exact hc ⟨hdg, by simpa using hr⟩

/-- **What is lost.** Without a last race, a read parallel to a later write was replaced by another read
    before the next write. -/
theorem hiddenReader_of_read (hrefl : ∀ x, reach x x)
    (htrans : ∀ x y z, reach x y → reach y z → reach x z) (hser : SerialOrder reach accs)
    (hno : ¬LastRace reach accs g) (t : List (Access P)) :
    ∀ (pre : List (Access P)) (a : Access P) (mid : List (Access P)) (b : Access P)
      (post : List (Access P)), accs = pre ++ a :: mid ++ t ++ b :: post → a.Touches g →
      b.Touches g → a.isRead = true → b.isRead = false → (∀ c ∈ mid, ¬c.Touches g) →
      Parallel reach a.current b.current → HiddenReader reach accs g := by
  induction t with
  | nil =>
      intro pre a mid b post heq hag hbg har hbw hmid hpar
      have heq' : accs = pre ++ a :: mid ++ b :: post := by simpa using heq
      exact absurd ⟨pre, a, mid, b, post, heq', hag, hbg, Or.inr hbw, hpar,
        fun c hc hcg => absurd hcg (hmid c hc)⟩ hno
  | cons c t ih =>
      intro pre a mid b post heq hag hbg har hbw hmid hpar
      by_cases hcg : c.Touches g
      · cases hcr : c.isRead with
        | true => exact ⟨pre, a, mid, c, t, b, post, by simp [heq], hag, hcg, hbg, har, hcr, hbw, hmid, hpar⟩
        | false =>
            -- the write `c` was checked against `a`, and everything after `c` is after it
            exfalso
            have heq' : accs = pre ++ a :: mid ++ c :: (t ++ b :: post) := by simp [heq]
            have hac : reach a.current c.current := by
              by_contra hn
              apply hno
              refine ⟨pre, a, mid, c, _, heq', hag, hcg, Or.inr hcr, ?_, ?_⟩
              · exact (parallel_iff hrefl hser heq').mpr hn
              · intro d hd hdg
                exact absurd hdg (hmid d hd)
            have hcb : reach c.current b.current := by
              apply reach_of_write hrefl htrans hser hno t (pre ++ a :: mid) c [] b post _ hcg hbg hcr
                (by simp)
              simp [heq]
            exact hpar.1 (htrans _ _ _ hac hcb)
      · apply ih pre a (mid ++ [c]) b post (by simp [heq]) hag hbg har hbw _ hpar
        intro d hd
        rcases List.mem_append.mp hd with hd | hd
        · exact hmid d hd
        · rw [List.mem_singleton.mp hd]
          exact hcg

end Races

/-- **When races are found.** A race on a grain is reported exactly unless the grain has a read, replaced
    by another read before the next write, that a later write is parallel to, and no race between an access
    and the last one of its kind before it. -/
theorem reported_of_race_iff (reach : P → P → Prop) (precedesNow : P → P → Bool)
    (hrefl : ∀ x, reach x x) (htrans : ∀ x y z, reach x y → reach y z → reach x z)
    (accs : List (Access P)) (hser : SerialOrder reach accs)
    (hexact : AnswersExactly reach precedesNow accs) (hal : ∀ a ∈ accs, Aligned a.addr a.memSize)
    (g : Nat) :
    (HasRace reach accs g → Reported precedesNow accs g) ↔
      (HiddenReader reach accs g → LastRace reach accs g) := by
  rw [reported_iff_lastRace hrefl hser hexact hal]
  constructor
  · rintro h ⟨pre, a, mid, c, mid', b, post, heq, hag, -, hbg, -, -, hbw, -, hpar⟩
    apply h
    exact ⟨pre, a, mid ++ c :: mid', b, post, by simp [heq], hag, hbg, Or.inr hbw, hpar⟩
  · rintro h ⟨pre, a, mid, b, post, heq, hag, hbg, hw, hpar⟩
    by_contra hno
    have heq' : accs = pre ++ a :: [] ++ mid ++ b :: post := by simp [heq]
    cases har : a.isRead with
    | false => exact hpar.1 (reach_of_write hrefl htrans hser hno mid pre a [] b post heq' hag hbg har (by simp))
    | true =>
        have hbw : b.isRead = false := by simpa [har] using hw
        exact hno (h (hiddenReader_of_read hrefl htrans hser hno mid pre a [] b post heq' hag hbg har hbw
          (by simp) hpar))

/-! ### A race that is not reported

Strand `0` creates a future; strand `1`, the future, and strand `2`, the continuation, both read a word, and
strand `2` then writes it. -/

/-- The strands after one create: the creator is before the future and before the continuation. -/
def createReach (x y : Nat) : Prop := x = y ∨ x = 0

instance (x y : Nat) : Decidable (createReach x y) := inferInstanceAs (Decidable (_ ∨ _))

/-- The read of the future, the read of the continuation and its write. -/
def twoReadersRun : List (Access Nat) :=
  [⟨true, 0, 0, 4, 1⟩, ⟨true, 0, 0, 4, 2⟩, ⟨false, 0, 0, 4, 2⟩]

/-- The read of the future is parallel to the write, but the second read has taken its place. -/
theorem twoReaders_not_reported : HasRace createReach twoReadersRun 0 ∧
    ¬Reported (fun cur u => decide (createReach u cur)) twoReadersRun 0 := by
  constructor
  · refine ⟨[], ⟨true, 0, 0, 4, 1⟩, [⟨true, 0, 0, 4, 2⟩], ⟨false, 0, 0, 4, 2⟩, [], rfl, ?_, ?_, ?_, ?_⟩
    · exact ⟨0, by decide, by decide, by decide⟩
    · exact ⟨0, by decide, by decide, by decide⟩
    · exact Or.inr rfl
    · exact ⟨by decide, by decide⟩
  · rintro ⟨mem, races, hrun, r, hr, -⟩
    have hnone : (checkAll (checkAccess (fun cur u => decide (createReach u cur))) twoReadersRun
        .empty).map Prod.snd = some [] := by decide
    rw [hrun] at hnone
    obtain rfl : races = [] := by simpa using hnone
    cases hr

/-- The general statement on that run: the read by the future is hidden and no last race is there. -/
theorem reported_of_race_iff_twoReaders :
    (HasRace createReach twoReadersRun 0 →
        Reported (fun cur u => decide (createReach u cur)) twoReadersRun 0) ↔
      (HiddenReader createReach twoReadersRun 0 → LastRace createReach twoReadersRun 0) :=
  reported_of_race_iff createReach (fun cur u => decide (createReach u cur)) (fun _ => Or.inl rfl)
    (by unfold createReach; omega) twoReadersRun (by unfold SerialOrder; decide)
    (by unfold AnswersExactly; decide) (by simp [twoReadersRun, Aligned]) 0

end FOrder.Futurerd
