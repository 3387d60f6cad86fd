import FOrder.Shadow.ShadowMem

/-!
# `Shadow.AccessList` — the slots of one 16-byte block and the grain loop

`MemAccessList_t` keeps, for each of the `NUM_SLOTS` grains of a block, what is remembered of its
readers and its writer. The two tools differ in the type of the entries only (a chain of readers in
`rdtool`, one reader in `futurerd`), so both are type parameters here; `Cell` is the content of one slot
and the loops over the grains of an access act on each cell by itself.
-/

namespace FOrder

/-- `MemAccessList_t`. -/
structure MemAccessList (R W : Type) where
  startAddr : Addr
  readers : Nat → R
  writers : Nat → W

/-- What a block remembers of one grain. -/
structure Cell (R W : Type) where
  reader : R
  writer : W
  deriving DecidableEq

namespace MemAccessList

variable {R W : Type}

def setReader (l : MemAccessList R W) (i : Nat) (r : R) : MemAccessList R W :=
  { l with readers := fun j => if j = i then r else l.readers j }

def setWriter (l : MemAccessList R W) (i : Nat) (w : W) : MemAccessList R W :=
  { l with writers := fun j => if j = i then w else l.writers j }

def cell (l : MemAccessList R W) (i : Nat) : Cell R W := ⟨l.readers i, l.writers i⟩

theorem cell_setReader (l : MemAccessList R W) (i j : Nat) (r : R) :
    (l.setReader i r).cell j = if j = i then { l.cell j with reader := r } else l.cell j := by
  by_cases h : j = i <;> simp [cell, setReader, h]

theorem cell_setWriter (l : MemAccessList R W) (i j : Nat) (w : W) :
    (l.setWriter i w).cell j = if j = i then { l.cell j with writer := w } else l.cell j := by
  by_cases h : j = i <;> simp [cell, setWriter, h]

end MemAccessList

/-! ## The grain loop -/

/-- `for (int i = start; i < start + grains; ++i) body(i)`. The second component collects the calls
    of `report_race`. -/
def grainLoop {S Q : Type} (body : Nat → S → S × List Q) : Nat → Nat → S → S × List Q
  | _, 0, s => (s, [])
  | i, n + 1, s =>
      let (s₁, r₁) := body i s
      let (s₂, r₂) := grainLoop body (i + 1) n s₁
      (s₂, r₁ ++ r₂)

/-- A loop body is **cellwise** when iteration `i` only touches cell `i`: it maps the cell by `f` and
    makes the `report_race` calls that `p` relates to the cell. -/
structure Cellwise {R W Q : Type}
    (body : Nat → MemAccessList R W → MemAccessList R W × List Q)
    (f : Cell R W → Cell R W) (p : Nat → Cell R W → Q → Prop) : Prop where
  cell : ∀ i l j, (body i l).1.cell j = if j = i then f (l.cell i) else l.cell j
  report : ∀ i l r, r ∈ (body i l).2 ↔ p i (l.cell i) r

variable {R W Q : Type} {body : Nat → MemAccessList R W → MemAccessList R W × List Q}
  {f : Cell R W → Cell R W} {p : Nat → Cell R W → Q → Prop}

theorem Cellwise.loop_cell (h : Cellwise body f p) :
    ∀ (n i : Nat) (l : MemAccessList R W) (j : Nat),
      (grainLoop body i n l).1.cell j = if i ≤ j ∧ j < i + n then f (l.cell j) else l.cell j := by
  intro n
  induction n with
  | zero =>
      intro i l j
      rw [if_neg (by omega)]
      rfl
  | succ n ih =>
      intro i l j
      show (grainLoop body (i + 1) n (body i l).1).1.cell j = _
      rw [ih (i + 1), h.cell]
      by_cases hji : j = i
      · subst hji
        have h1 : ¬(j + 1 ≤ j ∧ j < j + 1 + n) := by omega
        have h2 : j ≤ j ∧ j < j + (n + 1) := by omega
        rw [if_neg h1, if_pos h2, if_pos rfl]
      · simp only [if_neg hji]
        by_cases hr : i + 1 ≤ j ∧ j < i + 1 + n
        · have hr' : i ≤ j ∧ j < i + (n + 1) := by omega
          rw [if_pos hr, if_pos hr']
        · have hr' : ¬(i ≤ j ∧ j < i + (n + 1)) := by omega
          rw [if_neg hr, if_neg hr']

theorem Cellwise.loop_report (h : Cellwise body f p) :
    ∀ (n i : Nat) (l : MemAccessList R W) (r : Q),
      r ∈ (grainLoop body i n l).2 ↔ ∃ g, (i ≤ g ∧ g < i + n) ∧ p g (l.cell g) r := by
  intro n
  induction n with
  | zero =>
      intro i l r
      simp only [grainLoop, List.not_mem_nil, false_iff]
      rintro ⟨g, hg, -⟩
      omega
  | succ n ih =>
      intro i l r
      show r ∈ (body i l).2 ++ (grainLoop body (i + 1) n (body i l).1).2 ↔ _
      rw [List.mem_append, ih (i + 1), h.report]
      constructor
      · rintro (hp | ⟨g, hr, hp⟩)
        · exact ⟨i, by omega, hp⟩
        · have hne : g ≠ i := by omega
          rw [h.cell, if_neg hne] at hp
          exact ⟨g, by omega, hp⟩
      · rintro ⟨g, hr, hp⟩
        by_cases hgi : g = i
        · exact Or.inl (hgi ▸ hp)
        · refine Or.inr ⟨g, by omega, ?_⟩
          rw [h.cell, if_neg hgi]
          exact hp

/-- The calls made for grains that satisfy `p`, named by the grain alone. -/
def AtGrain (p : Cell R W → Prop) (i : Nat) (c : Cell R W) (g : Nat) : Prop := g = i ∧ p c

theorem Cellwise.loop_grains {body : Nat → MemAccessList R W → MemAccessList R W × List Nat}
    {p : Cell R W → Prop} (h : Cellwise body f (AtGrain p)) (n i : Nat) (l : MemAccessList R W)
    (g : Nat) : g ∈ (grainLoop body i n l).2 ↔ (i ≤ g ∧ g < i + n) ∧ p (l.cell g) := by
  rw [h.loop_report]
  constructor
  · rintro ⟨g', hr, rfl, hp⟩
    exact ⟨hr, hp⟩
  · rintro ⟨hr, hp⟩
    exact ⟨g, hr, rfl, hp⟩

end FOrder
