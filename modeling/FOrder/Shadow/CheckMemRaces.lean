import FOrder.Shadow.CheckMemCorrect

/-!
# `Shadow.CheckMemRaces` — which races `rdtool`'s access history reports

Seen from one grain, a report is missed only when the earlier access was dropped from the history, and an
access is dropped by a write that was itself checked against it: `covered_concat` is the step and
`covered_of_silent` the run. In the other direction a report always names a remembered access, and it is a
false one exactly when the remembered access is the strand's own.

Both theorems are about what one slot remembers after a sequence of calls, which `Shadow.CheckMemCorrect` gives as a
fold. `cellReport_iff` says which checks one access makes against it and `exists_remembered_iff` says in terms of
the sequence what is remembered: the last write, and the reads since. The rest is about accesses and their order
alone.
-/

namespace FOrder.Rdtool

variable {P E : Type} [DecidableEq P] [DecidableEq E]

/-! ## The reports of a run, grain by grain -/

variable (english : P → E) (precedes : P → P → Bool)

/-- `report_race` is reached for grain `g` while `b` is handled. -/
def ReportedAt (pre : List (Access P)) (b : Access P) (g : Nat) : Prop :=
  ∃ races, reportsAt (checkAccess english precedes) pre b = some races ∧ g ∈ races

/-- **One call of a run.** `report_race` is reached for a slot exactly when the access reaches the slot
    and one of its checks fails against what the slot remembers of the earlier accesses. -/
theorem reportedAt_iff {pre : List (Access P)} {b : Access P} {g : Nat}
    (ha : ∀ a ∈ pre ++ [b], a.Fits) :
    ReportedAt english precedes pre b g ↔ ∃ key i, g = grainOf key i ∧ TouchesCell b key i ∧
      CellReport english precedes b (runCell (cellHistory pre key i)) := by
  obtain ⟨races, hrun, hrep⟩ := (checkAccess_grainByGrain english precedes).mem_reportsAt ha
  unfold ReportedAt
  rw [hrun]
  simp only [Option.some.injEq, exists_eq_left', hrep, SlotReport]
  constructor
  · rintro ⟨key, i, ht, hg, hc⟩
    exact ⟨key, i, hg, ht, hc⟩
  · rintro ⟨key, i, hg, ht, hc⟩
    exact ⟨key, i, ht, hg, hc⟩

/-! ## No missed race

The relation `prec` is a transitive relation on strands and `precedes` answers it. -/

/-- `a` is still in the history, or the last write is by the same strand or by a strand after `a`. -/
def Covered (prec : E → E → Prop) (english : P → E) (h : List (Access P)) (a : Access P) : Prop :=
  Remembered h a ∨ ∃ w, Remembered h w ∧ w.isRead = false ∧
    (english a.current = english w.current ∨ prec (english a.current) (english w.current))

/-- No access of `h` reached `report_race`. -/
def Silent (english : P → E) (precedes : P → P → Bool) (h : List (Access P)) : Prop :=
  ∀ pre a post, h = pre ++ a :: post → ¬CellReport english precedes a (runCell pre)

section Complete

variable {english : P → E} {precedes : P → P → Bool} {prec : E → E → Prop}

/-- A write that is remembered is the `writer` of the cell. -/
theorem writer_of_remembered {h : List (Access P)} {w : Access P} (hr : Remembered h w)
    (hw : w.isRead = false) : (runCell h).writer = some w.current :=
  ((runCell_spec h).1 w.current).mpr ⟨w, hr, hw, rfl⟩

/-- A read that is remembered is one of the `reader`s of the cell. -/
theorem reader_of_remembered {h : List (Access P)} {r : Access P} (hr : Remembered h r)
    (hrd : r.isRead = true) : r.current ∈ (runCell h).reader :=
  ((runCell_spec h).2 r.current).mpr ⟨r, hr, hrd, rfl⟩

/-- A write that is not reported is by the same strand as the last write, or after it. -/
theorem write_after_writer (hprec : ∀ x y, precedes x y = true ↔ prec (english x) (english y))
    {h : List (Access P)} {w x : Access P} (hr : Remembered h w) (hw : w.isRead = false)
    (hx : x.isRead = false) (hno : ¬CellReport english precedes x (runCell h)) :
    english w.current = english x.current ∨ prec (english w.current) (english x.current) := by
  by_cases he : english w.current = english x.current
  · exact Or.inl he
  · right
    by_contra hn
    apply hno
    have hp : precedes w.current x.current = false := by
      rw [Bool.eq_false_iff, ne_eq, hprec]
      exact hn
    simp only [CellReport, hx, Bool.false_eq_true, if_false]
    exact Or.inl ⟨w.current, writer_of_remembered hr hw, he, hp⟩

/-- **The step.** An unreported access keeps every earlier access covered: a write that drops an access
    from the history has been checked against it, or against a write that covers it. -/
theorem covered_concat (htrans : ∀ x y z, prec x y → prec y z → prec x z)
    (hprec : ∀ x y, precedes x y = true ↔ prec (english x) (english y))
    {h : List (Access P)} {a x : Access P} (hc : Covered prec english h a)
    (hno : ¬CellReport english precedes x (runCell h)) : Covered prec english (h ++ [x]) a := by
  cases hx : x.isRead with
  | true =>
      -- a read leaves everything in the history
      rcases hc with hr | ⟨w, hr, hw, hrel⟩
      · exact Or.inl (hr.concat hx)
      · exact Or.inr ⟨w, hr.concat hx, hw, hrel⟩
  | false =>
      -- a write is the only access left; it covers what it was checked against
      refine Or.inr ⟨x, since_concat_self h x, hx, ?_⟩
      rcases hc with hr | ⟨w, hr, hw, hrel⟩
      · cases ha : a.isRead with
        | false => exact write_after_writer hprec hr ha hx hno
        | true =>
            right
            by_contra hn
            apply hno
            have hp : precedes a.current x.current = false := by
              rw [Bool.eq_false_iff, ne_eq, hprec]
              exact hn
            simp only [CellReport, hx, Bool.false_eq_true, if_false]
            exact Or.inr ⟨a.current, reader_of_remembered hr ha, hp⟩
      · rcases write_after_writer hprec hr hw hx hno with he | hwx
        · rw [← he]
          exact hrel
        · rcases hrel with he | haw
          · rw [he]
            exact Or.inr hwx
          · exact Or.inr (htrans _ _ _ haw hwx)

/-- **The run.** In a silent history every access stays covered. -/
theorem covered_of_silent (htrans : ∀ x y z, prec x y → prec y z → prec x z)
    (hprec : ∀ x y, precedes x y = true ↔ prec (english x) (english y))
    (h : List (Access P)) (hs : Silent english precedes h) :
    ∀ a ∈ h, Covered prec english h a := by
  induction h using List.reverseRecOn with
  | nil =>
      intro a ha
      cases ha
  | append_singleton h x ih =>
      intro a ha
      have hno : ¬CellReport english precedes x (runCell h) := hs h x [] rfl
      have hs' : Silent english precedes h := by
        intro pre c post heq
        exact hs pre c (post ++ [x]) (by rw [heq]; simp)
      rcases List.mem_append.mp ha with ha | ha
      · exact covered_concat htrans hprec (ih hs' a ha) hno
      · rw [List.mem_singleton.mp ha]
        exact Or.inl (since_concat_self h x)

omit [DecidableEq E] in
/-- A covered access that conflicts with `b` and is not before it makes `b` reach `report_race`. -/
theorem cellReport_of_covered (htrans : ∀ x y z, prec x y → prec y z → prec x z)
    (hprec : ∀ x y, precedes x y = true ↔ prec (english x) (english y))
    {h : List (Access P)} {a b : Access P} (hc : Covered prec english h a)
    (hne : english a.current ≠ english b.current) (hw : a.isRead = false ∨ b.isRead = false)
    (hn : ¬prec (english a.current) (english b.current)) :
    CellReport english precedes b (runCell h) := by
  have hfalse : ∀ {x : P}, ¬prec (english x) (english b.current) → precedes x b.current = false := by
    intro x hx
    rw [Bool.eq_false_iff, ne_eq, hprec]
    exact hx
  -- the remembered write `w` that fails the check, for a read or a write `b`
  have hwriter : ∀ w, Remembered h w → w.isRead = false → english w.current ≠ english b.current →
      ¬prec (english w.current) (english b.current) → CellReport english precedes b (runCell h) := by
    intro w hr hwr he hp
    unfold CellReport
    split
    · exact ⟨w.current, writer_of_remembered hr hwr, hfalse hp⟩
    · exact Or.inl ⟨w.current, writer_of_remembered hr hwr, he, hfalse hp⟩
  rcases hc with hr | ⟨w, hr, hwr, hrel⟩
  · cases ha : a.isRead with
    | false => exact hwriter a hr ha hne hn
    | true =>
        have hb : b.isRead = false := by
          rcases hw with h' | h'
          · rw [ha] at h'
            cases h'
          · exact h'
        simp only [CellReport, hb, Bool.false_eq_true, if_false]
        exact Or.inr ⟨a.current, reader_of_remembered hr ha, hfalse hn⟩
  · rcases hrel with he | haw
    · rw [he] at hne hn
      exact hwriter w hr hwr hne hn
    · refine hwriter w hr hwr ?_ ?_
      · intro he
        exact hn (he ▸ haw)
      · intro hwb
        exact hn (htrans _ _ _ haw hwb)

/-- **No race is missed.** If an earlier access and the access `b` conflict on grain `g`, are by different
    strands and the earlier strand is not before the later one, the calls up to and including `b` reach
    `report_race` for `g`. -/
theorem checkAll_reports_race (english : P → E) (precedes : P → P → Bool) (prec : E → E → Prop)
    (htrans : ∀ x y z, prec x y → prec y z → prec x z)
    (hprec : ∀ x y, precedes x y = true ↔ prec (english x) (english y))
    (pre : List (Access P)) (b : Access P) (hal : ∀ a ∈ pre ++ [b], Aligned a.addr a.memSize)
    (a : Access P) (ha : a ∈ pre) (g : Nat) (hag : a.Touches g) (hbg : b.Touches g)
    (hne : english a.current ≠ english b.current) (hw : a.isRead = false ∨ b.isRead = false)
    (hn : ¬prec (english a.current) (english b.current)) :
    ∃ mem races, checkAll (checkAccess english precedes) (pre ++ [b]) .empty = some (mem, races) ∧
      g ∈ races := by
  obtain ⟨mem, races, hrun, hrep⟩ := (checkAccess_grainByGrain english precedes).mem_checkAll_iff
    fun a ha => fits_of_aligned (hal a ha)
  refine ⟨mem, races, hrun, (hrep g).mpr ?_⟩
  obtain ⟨key, i, hi, rfl⟩ := exists_slot_of_touches (hal b (by simp)) hbg
  have hat : TouchesCell a key i := (touches_grainOf (hal a (by simp [ha])) hi).mp hag
  have hbt : TouchesCell b key i := (touches_grainOf (hal b (by simp)) hi).mp hbg
  by_cases hs : Silent english precedes (cellHistory pre key i)
  · -- nothing was reported before, so `a` is covered and `b` is checked against what covers it
    have hc := covered_of_silent htrans hprec _ hs a (mem_cellHistory.mpr ⟨ha, hat⟩)
    exact ⟨pre, b, [], rfl, key, i, hbt, rfl, cellReport_of_covered htrans hprec hc hne hw hn⟩
  · -- an earlier access was reported for the grain
    unfold Silent at hs
    push Not at hs
    obtain ⟨p, c, q, heq, hrc⟩ := hs
    obtain ⟨p', q', rfl, rfl, hct⟩ := cellHistory_split heq
    exact ⟨p', c, q' ++ [b], by simp, key, i, hct, rfl, hrc⟩

end Complete

/-- Strand `1` writes a grain that strand `0` wrote, with no order between them. -/
theorem checkAll_reports_race_writes :
    ∃ mem races, checkAll (checkAccess (P := Nat) (E := Nat) id (fun _ _ => false))
      ([⟨false, 0, 8, 4, 0⟩] ++ [⟨false, 0, 0, 16, 1⟩]) .empty = some (mem, races) ∧ 2 ∈ races :=
  checkAll_reports_race id (fun _ _ => false) (fun _ _ => False) (fun _ _ _ h _ => h) (fun _ _ => by simp)
    [⟨false, 0, 8, 4, 0⟩] ⟨false, 0, 0, 16, 1⟩
    (by simp [Aligned]) ⟨false, 0, 8, 4, 0⟩ (by simp) 2
    ⟨8, by decide, by decide, by decide⟩ ⟨8, by decide, by decide, by decide⟩ (by decide)
    (Or.inl rfl) (fun h => h)

/-! ## False reports

`Precedes` is the strict order of the tool. Only the writer check of `handle_write` compares the strands
first, so a strand is reported against itself when it reads what it wrote or writes what it read. This is said of
every sequence of calls, of any size and alignment, also of one that runs into an assertion. What an access does
is said with `TouchesCell`, the cells that its loops go over: none for an access of one or two bytes. What it
accesses is said with `Access.Touches`, the grains that it has a byte in; the cells it goes over are among them. -/

/-- Some earlier access to the grain conflicts with `b` and is by a different, unordered strand. -/
def RealRace (prec : E → E → Prop) (english : P → E) (pre : List (Access P)) (b : Access P) (g : Nat) :
    Prop :=
  ∃ a ∈ pre, a.Touches g ∧ english a.current ≠ english b.current ∧
    (a.isRead = false ∨ b.isRead = false) ∧ ¬prec (english a.current) (english b.current)

/-- `b` goes over the cell of the grain, and so has the same strand before with an access of the other kind, with
    only reads going over the cell in between. -/
def SelfAccess (english : P → E) (pre : List (Access P)) (b : Access P) (g : Nat) : Prop :=
  ∃ key i, g = grainOf key i ∧ TouchesCell b key i ∧ ∃ h₁ a h₂, pre = h₁ ++ a :: h₂ ∧ TouchesCell a key i ∧
    (∀ c ∈ h₂, TouchesCell c key i → c.isRead = true) ∧
    english a.current = english b.current ∧ a.isRead ≠ b.isRead

section Sound

variable {english : P → E} {precedes : P → P → Bool} {prec : E → E → Prop}

/-- `b` fails a check against a remembered access `a` of the slot. -/
def FailedCheck (english : P → E) (prec : E → E → Prop) (h : List (Access P)) (a b : Access P) : Prop :=
  Remembered h a ∧ (a.isRead = false ∨ b.isRead = false) ∧
    ¬prec (english a.current) (english b.current) ∧
    (a.isRead = b.isRead → english a.current ≠ english b.current)

omit [DecidableEq E] in
/-- **Which checks are made.** `b` is checked against the remembered accesses it conflicts with, and
    only a write against a write looks at the strands first. -/
theorem cellReport_iff (hprec : ∀ x y, precedes x y = true ↔ prec (english x) (english y))
    (h : List (Access P)) (b : Access P) :
    CellReport english precedes b (runCell h) ↔ ∃ a, FailedCheck english prec h a b := by
  obtain ⟨hwr, hrd⟩ := runCell_spec h
  have hp : ∀ x y, precedes x y = false ↔ ¬prec (english x) (english y) := by
    intro x y
    rw [← hprec, Bool.not_eq_true]
  unfold CellReport FailedCheck
  cases hb : b.isRead with
  | true =>
      simp only [if_true, hwr, hp]
      constructor
      · rintro ⟨w, ⟨a, hr, ha, rfl⟩, hn⟩
        exact ⟨a, hr, Or.inl ha, hn, by simp [ha]⟩
      · rintro ⟨a, hr, ha, hn, -⟩
        exact ⟨a.current, ⟨a, hr, by simpa using ha, rfl⟩, hn⟩
  | false =>
      simp only [Bool.false_eq_true, if_false, hwr, hrd, hp]
      constructor
      · rintro (⟨w, ⟨a, hr, ha, rfl⟩, he, hn⟩ | ⟨r, ⟨a, hr, ha, rfl⟩, hn⟩)
        · exact ⟨a, hr, Or.inl ha, hn, fun _ => he⟩
        · exact ⟨a, hr, Or.inr trivial, hn, by simp [ha]⟩
      · rintro ⟨a, hr, -, hn, he⟩
        cases ha : a.isRead with
        | false => exact Or.inl ⟨a.current, ⟨a, hr, ha, rfl⟩, he ha, hn⟩
        | true => exact Or.inr ⟨a.current, ⟨a, hr, ha, rfl⟩, hn⟩

omit [DecidableEq P] in
/-- The calls that are still remembered in a cell, in terms of the whole sequence of calls. -/
theorem exists_remembered_iff {pre : List (Access P)} {key : Addr} {i : Nat} {q : Access P → Prop} :
    (∃ a, Remembered (cellHistory pre key i) a ∧ q a) ↔
      ∃ h₁ a h₂, pre = h₁ ++ a :: h₂ ∧ TouchesCell a key i ∧
        (∀ c ∈ h₂, TouchesCell c key i → c.isRead = true) ∧ q a := by
  constructor
  · rintro ⟨a, hr, hq⟩
    obtain ⟨h₁, h₂, heq, hat, hreads⟩ := since_filter.mp hr
    exact ⟨h₁, a, h₂, heq, by simpa using hat, fun c hc ht => hreads c hc (by simpa using ht), hq⟩
  · rintro ⟨h₁, a, h₂, heq, hat, hreads, hq⟩
    exact ⟨a, since_filter.mpr ⟨h₁, h₂, heq, by simpa using hat,
      fun c hc ht => hreads c hc (by simpa using ht)⟩, hq⟩

/-- **Every report** is a real race or the strand's own access. The failed check names a remembered call `a`; either
    the strands differ, or only the kinds can. -/
theorem real_or_self_of_reportedAt (hprec : ∀ x y, precedes x y = true ↔ prec (english x) (english y))
    {pre : List (Access P)} {b : Access P} {g : Nat}
    (hfit : ∀ a ∈ pre ++ [b], a.Fits) (hr : ReportedAt english precedes pre b g) :
    RealRace prec english pre b g ∨ SelfAccess english pre b g := by
  obtain ⟨key, i, rfl, hbt, hrep⟩ := (reportedAt_iff english precedes hfit).mp hr
  obtain ⟨h₁, a, h₂, heq, hat, hreads, hw, hn, he⟩ := exists_remembered_iff.mp ((cellReport_iff hprec _ _).mp hrep)
  have ha : a ∈ pre := by simp [heq]
  by_cases hse : english a.current = english b.current
  · exact Or.inr ⟨key, i, rfl, hbt, h₁, a, h₂, heq, hat, hreads, hse, fun hrd => he hrd hse⟩
  · exact Or.inl ⟨a, ha, hat.touches (hfit a (by simp [ha])), hse, hw, hn⟩

/-- A strand's own access of the other kind is always reported, the order being irreflexive. -/
theorem reportedAt_of_self (hirr : ∀ x, ¬prec x x)
    (hprec : ∀ x y, precedes x y = true ↔ prec (english x) (english y))
    {pre : List (Access P)} {b : Access P} {g : Nat}
    (hfit : ∀ a ∈ pre ++ [b], a.Fits) (hs : SelfAccess english pre b g) :
    ReportedAt english precedes pre b g := by
  obtain ⟨key, i, rfl, hbt, h₁, a, h₂, heq, hat, hreads, hse, hne⟩ := hs
  refine (reportedAt_iff english precedes hfit).mpr ⟨key, i, rfl, hbt, ?_⟩
  refine (cellReport_iff hprec _ _).mpr (exists_remembered_iff.mpr ?_)
  refine ⟨h₁, a, h₂, heq, hat, hreads, ?_, ?_, fun hrd => absurd hrd hne⟩
  · -- the two kinds differ, so one is a write
    cases ha : a.isRead with
    | false => exact Or.inl rfl
    | true =>
        right
        rw [ha] at hne
        simpa using hne.symm
  · rw [hse]
    exact hirr _

/-- An access that does not stay in its block fails an assertion, in the constructor of the block or in the handler. -/
theorem checkAccess_not_fits (mem : ShadowMem (AccessList P)) {a : Access P}
    (h : ¬a.Fits) : checkAccess english precedes mem a = none := by
  have hno : ¬(addrToMemIndex a.addr < numSlots ∧
      addrToMemIndex a.addr + sizeToNumGrains a.memSize ≤ numSlots) := fun hc => h hc.2
  cases hfind : mem.find (addrToKey a.addr) with
  | none => simp [checkAccess, hfind, memAccessListNew, hno]
  | some slot => cases hread : a.isRead <;> simp [checkAccess, hfind, hread, handleRead, handleWrite, hno]

/-- **When the reports are real.** What is reported while `b` is handled is a real race exactly unless
    the access is the strand's own of the other kind, in a run that no assertion has stopped. Without a real race
    the call returns and reports nothing exactly when all calls stay in their blocks and the access is not of that
    kind on any grain. -/
theorem reported_real_iff (english : P → E) (precedes : P → P → Bool) (prec : E → E → Prop)
    (hirr : ∀ x, ¬prec x x)
    (hprec : ∀ x y, precedes x y = true ↔ prec (english x) (english y))
    (pre : List (Access P)) (b : Access P) :
    (∀ g, (ReportedAt english precedes pre b g → RealRace prec english pre b g) ↔
      ((∀ a ∈ pre ++ [b], a.Fits) → SelfAccess english pre b g → RealRace prec english pre b g)) ∧
    ((∀ g, ¬RealRace prec english pre b g) →
      (reportsAt (checkAccess english precedes) pre b = some [] ↔
        (∀ a ∈ pre ++ [b], a.Fits) ∧ ∀ g, ¬SelfAccess english pre b g)) := by
  have hfits : ∀ {races}, reportsAt (checkAccess english precedes) pre b = some races → ∀ a ∈ pre ++ [b], a.Fits :=
    fun h => fits_of_reportsAt (fun mem a hno => checkAccess_not_fits mem hno) h
  constructor
  · intro g
    constructor
    · intro h hfit hs
      exact h (reportedAt_of_self hirr hprec hfit hs)
    · rintro h ⟨races, hrun, hg⟩
      exact (real_or_self_of_reportedAt hprec (hfits hrun) ⟨races, hrun, hg⟩).elim id (h (hfits hrun))
  · intro hreal
    constructor
    · intro hnil
      refine ⟨hfits hnil, ?_⟩
      intro g hs
      obtain ⟨races, hrun, hg⟩ := reportedAt_of_self hirr hprec (hfits hnil) hs
      rw [hnil, Option.some.injEq] at hrun
      rw [← hrun] at hg
      cases hg
    · rintro ⟨hfit, hself⟩
      obtain ⟨races, hrun, -⟩ := (checkAccess_grainByGrain english precedes).mem_reportsAt hfit
      rw [hrun, Option.some.injEq, List.eq_nil_iff_forall_not_mem]
      intro g hg
      rcases real_or_self_of_reportedAt hprec hfit ⟨races, hrun, hg⟩ with hrace | hs
      · exact hreal g hrace
      · exact hself g hs

end Sound

/-- One strand writes a word and reads it back: `report_race` is reached, with no other strand around. -/
theorem own_write_then_read_reported :
    ReportedAt (P := Nat) (E := Nat) id (fun x y => decide (x < y)) [⟨false, 0, 0, 4, 7⟩]
      ⟨true, 0, 0, 4, 7⟩ 0 ∧
    ¬RealRace (P := Nat) (E := Nat) (· < ·) id [⟨false, 0, 0, 4, 7⟩] ⟨true, 0, 0, 4, 7⟩ 0 := by
  refine ⟨⟨[0], by decide, by decide⟩, ?_⟩
  rintro ⟨a, ha, -, hne, -⟩
  rw [List.mem_singleton] at ha
  subst ha
  exact hne rfl

/-- Here it is the read of the strand's own write alone that keeps the call from being silent; the two accesses of
    one byte before are not of that kind, having no cell. -/
theorem reported_real_iff_own_write :
    (∀ g, (ReportedAt (P := Nat) (E := Nat) id (fun x y => decide (x < y))
        [⟨false, 0, 1, 1, 7⟩, ⟨true, 0, 1, 1, 7⟩, ⟨false, 0, 0, 4, 7⟩] ⟨true, 0, 0, 4, 7⟩ g →
        RealRace (· < ·) id [⟨false, 0, 1, 1, 7⟩, ⟨true, 0, 1, 1, 7⟩, ⟨false, 0, 0, 4, 7⟩] ⟨true, 0, 0, 4, 7⟩ g) ↔
      ((∀ a ∈ [⟨false, 0, 1, 1, 7⟩, ⟨true, 0, 1, 1, 7⟩, ⟨false, 0, 0, 4, 7⟩] ++ [(⟨true, 0, 0, 4, 7⟩ : Access Nat)],
          a.Fits) →
        SelfAccess id [⟨false, 0, 1, 1, 7⟩, ⟨true, 0, 1, 1, 7⟩, ⟨false, 0, 0, 4, 7⟩] ⟨true, 0, 0, 4, 7⟩ g →
        RealRace (· < ·) id [⟨false, 0, 1, 1, 7⟩, ⟨true, 0, 1, 1, 7⟩, ⟨false, 0, 0, 4, 7⟩] ⟨true, 0, 0, 4, 7⟩ g)) ∧
    ((∀ g, ¬RealRace (· < ·) id [⟨false, 0, 1, 1, 7⟩, ⟨true, 0, 1, 1, 7⟩, ⟨false, 0, 0, 4, 7⟩]
        (⟨true, 0, 0, 4, 7⟩ : Access Nat) g) →
      (reportsAt (checkAccess (P := Nat) (E := Nat) id (fun x y => decide (x < y)))
        [⟨false, 0, 1, 1, 7⟩, ⟨true, 0, 1, 1, 7⟩, ⟨false, 0, 0, 4, 7⟩] ⟨true, 0, 0, 4, 7⟩ = some [] ↔
          (∀ a ∈ [⟨false, 0, 1, 1, 7⟩, ⟨true, 0, 1, 1, 7⟩, ⟨false, 0, 0, 4, 7⟩] ++
            [(⟨true, 0, 0, 4, 7⟩ : Access Nat)], a.Fits) ∧
          ∀ g, ¬SelfAccess id [⟨false, 0, 1, 1, 7⟩, ⟨true, 0, 1, 1, 7⟩, ⟨false, 0, 0, 4, 7⟩]
            (⟨true, 0, 0, 4, 7⟩ : Access Nat) g)) :=
  reported_real_iff id (fun x y => decide (x < y)) (· < ·) (fun x => Nat.lt_irrefl x) (fun _ _ => by simp)
    [⟨false, 0, 1, 1, 7⟩, ⟨true, 0, 1, 1, 7⟩, ⟨false, 0, 0, 4, 7⟩] ⟨true, 0, 0, 4, 7⟩

end FOrder.Rdtool
