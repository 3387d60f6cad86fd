import FOrder.Shadow.CheckMem

/-!
# `Shadow.CheckMemCorrect` — what `rdtool`'s access history reports

The handlers act on every grain by itself (`checkAccess_grainByGrain`), so the history of one grain is a fold of
`cellStep` over the accesses that touch it. What the fold remembers is read off the access list: the last write, and
the reads after it (`Remembered`). Both directions of the race report follow from that.

Each of the four loops has a lemma `…_cellwise`: what it leaves in a cell, and what it reports there. A handler is
two of them in a row, and the block that is made by the first access to it is an empty one that has seen the access
(`firstBlock_cell`). After that nothing here looks at blocks again: `Shadow.History` takes
`checkAccess_grainByGrain` and turns runs into histories of grains.
-/

namespace FOrder.Rdtool

variable {P E : Type}

/-! ## The accesses a grain remembers

Unlike the history of `futurerd` this one keeps all reads since the last write. -/

/-- Only reads follow `a` in `h`: exactly these accesses are still in the history. -/
abbrev Remembered (h : List (Access P)) (a : Access P) : Prop :=
  Since (fun c => c.isRead = true) h a

/-! ## One grain

The effect of an access on a cell, and the checks it makes. A second read by the same `Current` object is not stored
again, so the chain holds objects and not accesses. -/

variable [DecidableEq P] [DecidableEq E]

/-- The effect of one access on a grain it touches. -/
def cellStep (a : Access P) (c : AccessCell P) : AccessCell P :=
  if a.isRead then { c with reader := if a.current ∈ c.reader then c.reader else a.current :: c.reader }
  else ⟨[], some a.current⟩

/-- When an access to the grain reaches `report_race`. -/
def CellReport (english : P → E) (precedes : P → P → Bool) (a : Access P) (c : AccessCell P) : Prop :=
  if a.isRead then ∃ w, c.writer = some w ∧ precedes w a.current = false
  else (∃ w, c.writer = some w ∧ english w ≠ english a.current ∧ precedes w a.current = false) ∨
    ∃ r ∈ c.reader, precedes r a.current = false

/-- The grain after the accesses `h`, oldest first. -/
abbrev runCell (h : List (Access P)) : AccessCell P := foldCell cellStep ⟨[], none⟩ h

omit [DecidableEq E] in
/-- One access more. -/
theorem runCell_concat (h : List (Access P)) (a : Access P) :
    runCell (h ++ [a]) = cellStep a (runCell h) :=
  foldCell_concat _ h a

/-- **What a grain remembers.** The writer is the last write, the chain holds the reads since then. -/
theorem runCell_spec (h : List (Access P)) :
    (∀ w, (runCell h).writer = some w ↔
      ∃ a, Remembered h a ∧ a.isRead = false ∧ a.current = w) ∧
    (∀ r, r ∈ (runCell h).reader ↔ ∃ a, Remembered h a ∧ a.isRead = true ∧ a.current = r) := by
  induction h using List.reverseRecOn with
  | nil =>
      constructor
      · intro w
        simp only [runCell, foldCell, List.foldl_nil, reduceCtorEq, false_iff]
        rintro ⟨a, hr, -⟩
        exact not_since_nil a hr
      · intro r
        simp only [runCell, foldCell, List.foldl_nil, List.not_mem_nil, false_iff]
        rintro ⟨a, hr, -⟩
        exact not_since_nil a hr
  | append_singleton h x ih =>
      obtain ⟨ihw, ihr⟩ := ih
      rw [runCell_concat]
      cases hx : x.isRead with
      | true =>
          constructor
          · intro w
            simp only [cellStep, hx, if_true]
            rw [ihw]
            constructor
            · rintro ⟨a, hr, ha⟩
              exact ⟨a, hr.concat hx, ha⟩
            · rintro ⟨a, hr, hw, ha⟩
              rcases since_concat_cases hr with rfl | ⟨hr, -⟩
              · rw [hx] at hw
                cases hw
              · exact ⟨a, hr, hw, ha⟩
          · intro r
            have hmem : r ∈ (cellStep x (runCell h)).reader ↔
                r = x.current ∨ r ∈ (runCell h).reader := by
              simp only [cellStep, hx, if_true]
              by_cases hin : x.current ∈ (runCell h).reader
              · rw [if_pos hin]
                exact ⟨Or.inr, fun ho => ho.elim (fun he => he ▸ hin) id⟩
              · rw [if_neg hin, List.mem_cons]
            rw [hmem, ihr]
            constructor
            · rintro (rfl | ⟨a, hr, ha⟩)
              · exact ⟨x, since_concat_self h x, hx, rfl⟩
              · exact ⟨a, hr.concat hx, ha⟩
            · rintro ⟨a, hr, hrd, ha⟩
              rcases since_concat_cases hr with rfl | ⟨hr, -⟩
              · exact Or.inl ha.symm
              · exact Or.inr ⟨a, hr, hrd, ha⟩
      | false =>
          have hlast : ∀ a, Remembered (h ++ [x]) a → a = x := by
            intro a hr
            rcases since_concat_cases hr with rfl | ⟨-, hrd⟩
            · rfl
            · rw [hx] at hrd
              cases hrd
          constructor
          · intro w
            simp only [cellStep, hx, Bool.false_eq_true, if_false, Option.some.injEq]
            constructor
            · intro hw
              exact ⟨x, since_concat_self h x, hx, hw⟩
            · rintro ⟨a, hr, -, ha⟩
              rw [← hlast a hr]
              exact ha
          · intro r
            simp only [cellStep, hx, Bool.false_eq_true, if_false, List.not_mem_nil, false_iff]
            rintro ⟨a, hr, hrd, -⟩
            rw [hlast a hr, hx] at hrd
            cases hrd

/-! ## The loops act on every grain by itself

As in `Shadow.RaceDetectorRaces`, with other loop bodies: the second loop of a write clears the chain that it has
checked. -/

section Handlers

variable (english : P → E) (precedes : P → P → Bool) (current : P)

omit [DecidableEq P] in
/-- A write asks about the last write and takes its place. -/
theorem writeWriter_cellwise : Cellwise (writeWriter english precedes current)
    (fun c => { c with writer := some current })
    (AtGrain fun c =>
      ∃ w, c.writer = some w ∧ english w ≠ english current ∧ precedes w current = false) where
  cell i l j := by
    unfold writeWriter
    cases l.writers i <;> rw [MemAccessList.cell_setWriter] <;> by_cases h : j = i <;> simp [h]
  report i l g := by
    show g ∈ (writeWriter english precedes current i l).2 ↔ g = i ∧ ∃ w, l.writers i = some w ∧ _
    unfold writeWriter
    cases l.writers i with
    | none => simp
    | some w =>
        by_cases he : english w = english current
        · simp [he]
        · simp [he, and_comm]

omit [DecidableEq P] in
/-- It asks about the reads and clears them. -/
theorem writeReaders_cellwise : Cellwise (writeReaders precedes current)
    (fun c => { c with reader := [] })
    (AtGrain fun c => ∃ r ∈ c.reader, precedes r current = false) where
  cell i l j := by
    simp only [writeReaders]
    rw [MemAccessList.cell_setReader]
    by_cases h : j = i <;> simp [h]
  report i l g := by
    simp only [writeReaders, List.mem_filterMap, AtGrain]
    constructor
    · rintro ⟨r, hr, hg⟩
      cases hp : precedes r current with
      | true => simp [hp] at hg
      | false => exact ⟨by simpa [hp] using hg.symm, r, hr, hp⟩
    · rintro ⟨rfl, r, hr, hp⟩
      exact ⟨r, hr, by simp [hp]⟩

omit [DecidableEq P] in
/-- A read asks about the last write. -/
theorem readWriter_cellwise : Cellwise (readWriter precedes current) id
    (AtGrain fun c => ∃ w, c.writer = some w ∧ precedes w current = false) where
  cell i l j := by
    unfold readWriter
    cases l.writers i <;> by_cases h : j = i <;> simp [h]
  report i l g := by
    show g ∈ (readWriter precedes current i l).2 ↔ g = i ∧ ∃ w, l.writers i = some w ∧ _
    unfold readWriter
    cases l.writers i with
    | none => simp
    | some w => cases hp : precedes w current <;> simp [hp]

omit [DecidableEq E] in
/-- It is put with the other reads, once for each strand. -/
theorem readReaders_cellwise : Cellwise (readReaders current)
    (fun c => { c with reader := if current ∈ c.reader then c.reader else current :: c.reader })
    (AtGrain fun _ => False) where
  cell i l j := by
    unfold readReaders
    have hr : (l.cell i).reader = l.readers i := rfl
    cases hl : l.readers i with
    | nil =>
        rw [MemAccessList.cell_setReader]
        by_cases h : j = i <;> simp [h, hr, hl]
    | cons r rs =>
        by_cases hin : current ∈ r :: rs
        · have hcell : { l.cell i with reader := r :: rs } = l.cell i := by rw [← hl]; rfl
          by_cases h : j = i <;> simp [h, hr, hl, hin, hcell]
        · simp only [hin, if_false]
          rw [MemAccessList.cell_setReader]
          by_cases h : j = i <;> simp [h, hr, hl, hin]
  report i l g := by
    unfold readReaders AtGrain
    split
    · simp
    · split <;> simp

end Handlers

section Spec

variable (english : P → E) (precedes : P → P → Bool)

omit [DecidableEq E] in
/-- A read that fits, as its two loops. -/
theorem handleRead_eq (current : P) (slot : AccessList P) {addr : Addr} {size : Nat}
    (hfit : addrToMemIndex addr + sizeToNumGrains size ≤ numSlots) :
    handleRead precedes current slot addr size =
      let l₁ := grainLoop (readWriter precedes current) (addrToMemIndex addr)
        (sizeToNumGrains size) slot
      let l₂ := grainLoop (readReaders current) (addrToMemIndex addr) (sizeToNumGrains size) l₁.1
      some (l₂.1, l₁.2 ++ l₂.2) := by
  simp [handleRead, addrToMemIndex_lt, hfit]

omit [DecidableEq P] in
/-- A write that fits, as its two loops. -/
theorem handleWrite_eq (current : P) (slot : AccessList P) {addr : Addr} {size : Nat}
    (hfit : addrToMemIndex addr + sizeToNumGrains size ≤ numSlots) :
    handleWrite english precedes current slot addr size =
      let l₁ := grainLoop (writeWriter english precedes current) (addrToMemIndex addr)
        (sizeToNumGrains size) slot
      let l₂ := grainLoop (writeReaders precedes current) (addrToMemIndex addr)
        (sizeToNumGrains size) l₁.1
      some (l₂.1, l₁.2 ++ l₂.2) := by
  simp [handleWrite, addrToMemIndex_lt, hfit]

/-- **`handle_read` and `handle_write` grain by grain**, for an access that passes their assertions. -/
theorem handle_spec (slot : AccessList P) (a : Access P)
    (hfit : addrToMemIndex a.addr + sizeToNumGrains a.memSize ≤ numSlots) :
    ∃ slot' rs,
      (if a.isRead then handleRead precedes a.current slot a.addr a.memSize
        else handleWrite english precedes a.current slot a.addr a.memSize) = some (slot', rs) ∧
      (∀ i, slot'.cell i = if TouchesCell a (addrToKey a.addr) i then cellStep a (slot.cell i)
        else slot.cell i) ∧
      (∀ i, i ∈ rs ↔ TouchesCell a (addrToKey a.addr) i ∧
        CellReport english precedes a (slot.cell i)) := by
  cases hread : a.isRead with
  | true =>
      have h₁ := readWriter_cellwise precedes a.current
      have h₂ := readReaders_cellwise a.current
      refine ⟨_, _, handleRead_eq precedes a.current slot hfit, ?_, ?_⟩
      · intro i
        rw [h₂.loop_cell, h₁.loop_cell]
        by_cases hi : TouchesCell a (addrToKey a.addr) i
        · simp [hi.2.1, hi.2.2, hi, cellStep, hread]
        · have hr : ¬(addrToMemIndex a.addr ≤ i ∧
              i < addrToMemIndex a.addr + sizeToNumGrains a.memSize) := fun h => hi ⟨rfl, h⟩
          rw [if_neg hr, if_neg hr, if_neg hi]
      · intro i
        simp only [List.mem_append, h₁.loop_grains, h₂.loop_grains, and_false, or_false,
          CellReport, hread, if_true, TouchesCell, true_and]
  | false =>
      have h₁ := writeWriter_cellwise english precedes a.current
      have h₂ := writeReaders_cellwise precedes a.current
      refine ⟨_, _, handleWrite_eq english precedes a.current slot hfit, ?_, ?_⟩
      · intro i
        rw [h₂.loop_cell, h₁.loop_cell]
        by_cases hi : TouchesCell a (addrToKey a.addr) i
        · simp [hi.2.1, hi.2.2, hi, cellStep, hread]
        · have hr : ¬(addrToMemIndex a.addr ≤ i ∧
              i < addrToMemIndex a.addr + sizeToNumGrains a.memSize) := fun h => hi ⟨rfl, h⟩
          rw [if_neg hr, if_neg hr, if_neg hi]
      · intro i
        simp only [List.mem_append, h₁.loop_grains, h₂.loop_grains, h₁.loop_cell,
          CellReport, hread, Bool.false_eq_true, if_false, TouchesCell, true_and]
        constructor
        · rintro (⟨hr, hw⟩ | ⟨hr, hrd⟩)
          · exact ⟨hr, Or.inl hw⟩
          · rw [if_pos hr] at hrd
            exact ⟨hr, Or.inr hrd⟩
        · rintro ⟨hr, hw | hrd⟩
          · exact Or.inl ⟨hr, hw⟩
          · refine Or.inr ⟨hr, ?_⟩
            rw [if_pos hr]
            exact hrd

/-- The block installed by the first access to it. -/
def firstBlock (a : Access P) : AccessList P where
  startAddr := alignByPrevMaxGrainSize a.addr
  readers := fun i => if a.isRead ∧ addrToMemIndex a.addr ≤ i ∧
    i < addrToMemIndex a.addr + sizeToNumGrains a.memSize then [a.current] else []
  writers := fun i => if ¬a.isRead ∧ addrToMemIndex a.addr ≤ i ∧
    i < addrToMemIndex a.addr + sizeToNumGrains a.memSize then some a.current else none

/-- The first access to a block makes it. -/
theorem checkAccess_first {mem : ShadowMem (AccessList P)} {a : Access P}
    (hfit : addrToMemIndex a.addr + sizeToNumGrains a.memSize ≤ numSlots) (hfind : mem.find (addrToKey a.addr) = none) :
    checkAccess english precedes mem a =
      some (mem.store (addrToKey a.addr) (some (firstBlock a)), []) := by
  have hnew : memAccessListNew a.addr a.isRead a.current a.memSize = some (firstBlock a) := by
    simp only [memAccessListNew, addrToMemIndex_lt, hfit, and_self, if_true]
    rfl
  simp [checkAccess, hfind, hnew, ShadowMem.insert]

/-- Another one finds it. -/
theorem checkAccess_again {mem : ShadowMem (AccessList P)} {a : Access P} {slot slot' : AccessList P}
    {rs : List Nat} (hfind : mem.find (addrToKey a.addr) = some slot)
    (hrun : (if a.isRead then handleRead precedes a.current slot a.addr a.memSize
      else handleWrite english precedes a.current slot a.addr a.memSize) = some (slot', rs)) :
    checkAccess english precedes mem a =
      some (mem.store (addrToKey a.addr) (some slot'), rs.map (grainOf (addrToKey a.addr))) := by
  unfold checkAccess
  cases hread : a.isRead <;> simp only [hread, if_true, Bool.false_eq_true, if_false] at hrun <;>
    simp [hfind, hrun]

omit [DecidableEq E] in
/-- A fresh block is an empty one that has seen the access. -/
theorem firstBlock_cell (a : Access P) (i : Nat) :
    (firstBlock a).cell i =
      if TouchesCell a (addrToKey a.addr) i then cellStep a ⟨[], none⟩ else ⟨[], none⟩ := by
  by_cases ht : TouchesCell a (addrToKey a.addr) i
  · have hi := ht.2
    cases hread : a.isRead <;> simp [ht, MemAccessList.cell, firstBlock, cellStep, hread, hi]
  · have hi : ∀ q : Prop, ¬(q ∧ addrToMemIndex a.addr ≤ i ∧
        i < addrToMemIndex a.addr + sizeToNumGrains a.memSize) := fun q h => ht ⟨rfl, h.2⟩
    simp only [MemAccessList.cell, firstBlock, if_neg ht, if_neg (hi _)]

/-- The calls of `report_race` for one slot; they are named by the grain. -/
def SlotReport (a : Access P) (key : Addr) (i : Nat) (c : AccessCell P) (g : Nat) : Prop :=
  g = grainOf key i ∧ CellReport english precedes a c

/-- **`check_access` grain by grain.** An access that fits never fails an assertion; it maps each touched
    cell by `cellStep`, leaves the others alone and reports exactly the touched cells with `CellReport`. -/
theorem checkAccess_grainByGrain : GrainByGrain (checkAccess english precedes) ⟨[], none⟩ cellStep
    (SlotReport english precedes) := by
  apply GrainByGrain.of_block
  · intro mem a ha hfind
    exact ⟨_, checkAccess_first english precedes ha hfind, firstBlock_cell a⟩
  · -- nothing is reported against an empty slot
    rintro a key i g ⟨-, hr⟩
    unfold CellReport at hr
    split at hr <;> simp at hr
  · intro mem a slot ha hfind
    obtain ⟨slot', rs, hrun, hcell, hrep⟩ := handle_spec english precedes slot a ha
    refine ⟨_, _, checkAccess_again english precedes hfind hrun, hcell, ?_⟩
    intro g
    rw [List.mem_map]
    constructor
    · rintro ⟨i, hi, rfl⟩
      obtain ⟨ht, hc⟩ := (hrep i).mp hi
      exact ⟨i, ht, rfl, hc⟩
    · rintro ⟨i, ht, rfl, hc⟩
      exact ⟨i, (hrep i).mpr ⟨ht, hc⟩, rfl⟩

end Spec

end FOrder.Rdtool
