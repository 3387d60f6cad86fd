import Mathlib.Logic.Relation
import Mathlib.Tactic.Common

/-!
# `Lib.Run` — runs of a step function

A system is a partial step function: `none` is a step that cannot be taken. `ok` restricts the steps, so that a
property can be stated of the runs that keep to it.
-/

namespace FOrder

variable {σ α : Type}

/-- Some allowed action leads from the one state to the other. -/
def StepOk (step : σ → α → Option σ) (ok : σ → α → Prop) (s s' : σ) : Prop :=
  ∃ a, ok s a ∧ step s a = some s'

/-- `s'` is reached from `s` by allowed actions. -/
def Reaches (step : σ → α → Option σ) (ok : σ → α → Prop) : σ → σ → Prop :=
  Relation.ReflTransGen (StepOk step ok)

variable {step : σ → α → Option σ} {ok : σ → α → Prop} {s s' s'' : σ}

/-- No step. -/
theorem Reaches.refl : Reaches step ok s s := Relation.ReflTransGen.refl

/-- One run after another. -/
theorem Reaches.trans (h : Reaches step ok s s') (h' : Reaches step ok s' s'') : Reaches step ok s s'' :=
  Relation.ReflTransGen.trans h h'

/-- One step. -/
theorem Reaches.of_step {a : α} (hok : ok s a) (hstep : step s a = some s') : Reaches step ok s s' :=
  Relation.ReflTransGen.single ⟨a, hok, hstep⟩

/-- What fewer actions reach. -/
theorem Reaches.mono {ok' : σ → α → Prop} (hle : ∀ s a, ok s a → ok' s a) (h : Reaches step ok s s') :
    Reaches step ok' s s' := by
  refine Relation.ReflTransGen.mono ?_ s s' h
  rintro s t ⟨a, hok, hstep⟩
  exact ⟨a, hle s a hok, hstep⟩

/-- **The invariant rule.** -/
theorem Reaches.invariant (inv : σ → Prop) (hr : Reaches step ok s s') (h0 : inv s)
    (hstep : ∀ s a s', inv s → ok s a → step s a = some s' → inv s') : inv s' := by
  induction hr with
  | refl => exact h0
  | tail _ hlast ih =>
      obtain ⟨a, hok, ha⟩ := hlast
      exact hstep _ a _ ih hok ha

/-- A list of allowed actions that can be taken one after the other is a run. -/
theorem Reaches.of_foldlM [∀ s a, Decidable (ok s a)] {as : List α}
    (h : as.foldlM (fun s a => if ok s a then step s a else none) s = some s') : Reaches step ok s s' := by
  induction as generalizing s with
  | nil =>
      obtain rfl : s = s' := Option.some.inj h
      exact Reaches.refl
  | cons a as ih =>
      rw [List.foldlM_cons] at h
      obtain ⟨s₁, h₁, h₂⟩ := Option.bind_eq_some_iff.mp h
      split at h₁
      · rename_i hok
        exact (Reaches.of_step hok h₁).trans (ih h₂)
      · cases h₁

end FOrder
