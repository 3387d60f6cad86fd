import Mathlib.Tactic.Common

/-!
# `Lib.Reads` — computations made of separate reads

A reader of a shared memory takes one location at a time, and which one comes next depends on what it has read. In
a memory that does not change it computes `run`; `Path` says how far it has come.
-/

namespace FOrder

variable {Loc Val R S : Type}

/-- A computation that reads one location after the other. -/
inductive Reads (Loc Val R : Type) where
  | ret (r : R)
  | read (l : Loc) (next : Val → Reads Loc Val R)

namespace Reads

/-- The result in the memory `m`. -/
def run (m : Loc → Val) : Reads Loc Val R → R
  | ret r => r
  | read l next => run m (next (m l))

/-- One computation after another. -/
def andThen : Reads Loc Val R → (R → Reads Loc Val S) → Reads Loc Val S
  | ret r, f => f r
  | read l next, f => read l fun v => (next v).andThen f

/-- Every location it may read, whatever the memory holds, has the property. -/
def Within (p : Loc → Prop) : Reads Loc Val R → Prop
  | ret _ => True
  | read l next => p l ∧ ∀ v, (next v).Within p

/-- The result of a read and what is done with it, in one memory. -/
@[simp] theorem run_andThen (m : Loc → Val) (c : Reads Loc Val R) (f : R → Reads Loc Val S) :
    (c.andThen f).run m = (f (c.run m)).run m := by
  induction c with
  | ret r => rfl
  | read l next ih => exact ih (m l)

/-- Both parts read only where they may. -/
theorem Within.andThen {p : Loc → Prop} {c : Reads Loc Val R} {f : R → Reads Loc Val S} (hc : c.Within p)
    (hf : ∀ r, (f r).Within p) : (c.andThen f).Within p := by
  induction c with
  | ret r => exact hf r
  | read l next ih => exact ⟨hc.1, fun v => ih v (hc.2 v)⟩

/-- In the memory `m`, `rest` is what is left of `c` after some of its reads. -/
inductive Path (m : Loc → Val) (c : Reads Loc Val R) : Reads Loc Val R → Prop where
  | refl : Path m c c
  | read {l : Loc} {next : Val → Reads Loc Val R} : Path m c (.read l next) → Path m c (next (m l))

/-- The rest of a read has the result of the whole, as long as memory stays as it is. -/
theorem Path.run {m : Loc → Val} {c rest : Reads Loc Val R} (h : Path m c rest) : rest.run m = c.run m := by
  induction h with
  | refl => rfl
  | read _ ih => exact ih

/-- The rest of a read reads only where the whole may. -/
theorem Path.within {m : Loc → Val} {c rest : Reads Loc Val R} {p : Loc → Prop} (h : Path m c rest)
    (hc : c.Within p) : rest.Within p := by
  induction h with
  | refl => exact hc
  | read _ ih => exact ih.2 _

/-- **Frame rule**: a change elsewhere is not noticed. -/
theorem Path.frame {m m' : Loc → Val} {c rest : Reads Loc Val R} {p : Loc → Prop} (h : Path m c rest)
    (hc : c.Within p) (hsame : ∀ l, p l → m' l = m l) : Path m' c rest := by
  induction h with
  | refl => exact .refl
  | read hpath ih =>
      rw [← hsame _ (hpath.within hc).1]
      exact .read ih

end Reads

end FOrder
