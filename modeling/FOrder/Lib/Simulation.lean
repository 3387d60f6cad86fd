import Mathlib.Tactic.Common

/-!
# `Lib.Simulation` — machines with visible and silent steps, and forward simulation

A machine is a partial step function whose steps may show a label. A forward simulation matches every step of the
one machine by a run of the other that shows the same; then every trace of the first is one of the second.
-/

namespace FOrder

variable {σ τ α β ℓ : Type}

/-- A step function; a step without a label is silent. -/
abbrev Machine (σ α ℓ : Type) := σ → α → Option (σ × Option ℓ)

namespace Machine

/-- `Trace step s tr t`: some run from `s` to `t` shows the labels `tr`. -/
inductive Trace (step : Machine σ α ℓ) (s : σ) : List ℓ → σ → Prop where
  | refl : Trace step s [] s
  | tail {tr t a o u} (h : Trace step s tr t) (ha : step t a = some (u, o)) :
      Trace step s (tr ++ o.toList) u

variable {step : Machine σ α ℓ} {s t u : σ}

/-- The trace of one step is its label, if it has one. -/
theorem Trace.single {a : α} {o : Option ℓ} (h : step s a = some (t, o)) : Trace step s o.toList t := by
  simpa using Trace.refl.tail h

/-- One run after another: the traces are put together. -/
theorem Trace.trans {tr tr' : List ℓ} (h : Trace step s tr t) (h' : Trace step t tr' u) :
    Trace step s (tr ++ tr') u := by
  induction h' with
  | refl => simpa using h
  | tail _ ha ih =>
      rw [← List.append_assoc]
      exact ih.tail ha

/-- Run a list of actions; the labels in order. -/
def run (step : Machine σ α ℓ) : σ → List α → Option (σ × List ℓ)
  | s, [] => some (s, [])
  | s, a :: as => do
      let (t, o) ← step s a
      let (u, tr) ← run step t as
      some (u, o.toList ++ tr)

/-- A schedule that can be run is a trace. -/
theorem Trace.of_run {as : List α} {tr : List ℓ} (h : run step s as = some (t, tr)) : Trace step s tr t := by
  induction as generalizing s tr with
  | nil =>
      cases h
      exact Trace.refl
  | cons a as ih =>
      obtain ⟨⟨u, o⟩, ha, h⟩ := Option.bind_eq_some_iff.mp h
      obtain ⟨⟨v, tr'⟩, has, h⟩ := Option.bind_eq_some_iff.mp h
      cases h
      exact (Trace.single ha).trans (ih has)

/-- So a trace to a state with some property can be found by evaluation. -/
theorem Trace.of_schedule (as : List α) (q : List ℓ → σ → Prop) [∀ tr t, Decidable (q tr t)]
    (h : ((run step s as).any fun r => decide (q r.2 r.1)) = true) : ∃ tr t, Trace step s tr t ∧ q tr t := by
  cases hrun : run step s as with
  | none =>
      rw [hrun] at h
      cases h
  | some r =>
      rw [hrun] at h
      exact ⟨r.2, r.1, Trace.of_run hrun, of_decide_eq_true h⟩

/-- **The invariant rule.** -/
theorem Trace.invariant (inv : σ → Prop) {tr : List ℓ} (h : Trace step s tr t) (h0 : inv s)
    (hstep : ∀ s a s' o, inv s → step s a = some (s', o) → inv s') : inv t := by
  induction h with
  | refl => exact h0
  | tail _ ha ih => exact hstep _ _ _ _ ih ha

/-- A property of the trace so far and the state it leads to. -/
theorem Trace.history (inv : List ℓ → σ → Prop) {tr : List ℓ} (h : Trace step s tr t) (h0 : inv [] s)
    (hstep : ∀ tr s a s' o, inv tr s → step s a = some (s', o) → inv (tr ++ o.toList) s') : inv tr t := by
  induction h with
  | refl => exact h0
  | tail _ ha ih => exact hstep _ _ _ _ _ ih ha

/-- The runs all of whose states have a property. -/
def within (P : σ → Prop) [DecidablePred P] (step : Machine σ α ℓ) : Machine σ α ℓ := fun s a =>
  (step s a).filter fun r => P r.1

/-- A step within `P` is a step that ends in `P`. -/
theorem within_eq_some {P : σ → Prop} [DecidablePred P] {a : α} {o : Option ℓ} :
    within P step s a = some (t, o) ↔ step s a = some (t, o) ∧ P t := by
  simp [within, Option.filter_eq_some_iff]

/-- A relation that each step of `step` keeps, against some run of `spec` that shows the same. -/
structure Simulates (step : Machine σ α ℓ) (spec : Machine τ β ℓ) (rel : σ → τ → Prop) : Prop where
  sim : ∀ s a s' o t, rel s t → step s a = some (s', o) → ∃ t', Trace spec t o.toList t' ∧ rel s' t'

/-- **Forward simulation**: what the machine shows, its specification can show. -/
theorem Simulates.trace {spec : Machine τ β ℓ} {rel : σ → τ → Prop} (hsim : Simulates step spec rel) {t : τ}
    (hrel : rel s t) {tr : List ℓ} {s' : σ} (h : Trace step s tr s') : ∃ t', Trace spec t tr t' ∧ rel s' t' := by
  induction h with
  | refl => exact ⟨t, Trace.refl, hrel⟩
  | tail _ ha ih =>
      obtain ⟨t₁, htr, hrel₁⟩ := ih
      obtain ⟨t₂, htr₂, hrel₂⟩ := hsim.sim _ _ _ _ _ hrel₁ ha
      exact ⟨t₂, htr.trans htr₂, hrel₂⟩

end Machine
end FOrder
