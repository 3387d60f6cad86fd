import Mathlib.Logic.Relation
import Mathlib.Tactic.Common

/-!
# `Lib.Sink` — a graph that grows by edges into sinks

The graph is the list of its edges. An edge `a → b` into a node that nothing leaves adds to the paths exactly
those that end with it, so a table of what reaches each node is kept by one update of one row.
-/

namespace FOrder

variable {α : Type}

/-- A path of any length along the edges in the list. -/
def PathIn (edges : List (α × α)) : α → α → Prop := Relation.ReflTransGen fun x y => (x, y) ∈ edges

/-- Nothing but a loop leaves `b`. -/
def IsSink (edges : List (α × α)) (b : α) : Prop := ∀ z, (b, z) ∈ edges → z = b

variable {edges : List (α × α)} {a b x y : α}

theorem PathIn.refl (x : α) : PathIn edges x x := Relation.ReflTransGen.refl

theorem PathIn.trans {z : α} (h : PathIn edges x y) (h' : PathIn edges y z) : PathIn edges x z :=
  Relation.ReflTransGen.trans h h'

/-- More edges, more paths. -/
theorem PathIn.mono {edges' : List (α × α)} (hsub : ∀ e ∈ edges, e ∈ edges') (h : PathIn edges x y) :
    PathIn edges' x y := Relation.ReflTransGen.mono (fun _ _ he => hsub _ he) x y h

theorem PathIn.of_mem (h : (x, y) ∈ edges) : PathIn edges x y := Relation.ReflTransGen.single h

/-- **An edge into a sink** adds the paths that end with it. -/
theorem pathIn_snoc (hb : IsSink edges b) :
    PathIn (edges ++ [(a, b)]) x y ↔ PathIn edges x y ∨ (y = b ∧ PathIn edges x a) := by
  constructor
  · intro h
    induction h with
    | refl => exact Or.inl (PathIn.refl x)
    | @tail u v _ huv ih =>
        rcases List.mem_append.mp huv with hold | hnew
        · rcases ih with ih | ⟨rfl, ih⟩
          · exact Or.inl (ih.trans (PathIn.of_mem hold))
          · exact Or.inr ⟨hb v hold, ih⟩
        · obtain ⟨rfl, rfl⟩ : u = a ∧ v = b := by simpa using hnew
          rcases ih with ih | ⟨-, ih⟩
          · exact Or.inr ⟨rfl, ih⟩
          · exact Or.inr ⟨rfl, ih⟩
  · rintro (h | ⟨rfl, h⟩)
    · exact h.mono fun e he => List.mem_append_left _ he
    · refine (h.mono fun e he => List.mem_append_left _ he).trans (PathIn.of_mem ?_)
      simp

end FOrder
