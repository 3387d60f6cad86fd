import Mathlib.Logic.Relation
import Mathlib.Tactic.Common

/-!
# `Lib.Dag` — dags that grow at the end

Nodes are numbered in the order in which they are added, each with its in-edges; an edge carries a kind, and
a path is asked for within a set of kinds. Adding a node changes no path between the nodes already there,
and its own predecessors are the predecessors of its in-edges.
-/

namespace FOrder

/-- An in-edge of a node: where it comes from, and its kind. -/
structure InEdge (K : Type) where
  src : Nat
  kind : K
  deriving DecidableEq

/-- The in-edges of each node. -/
abbrev Dag (K : Type) := List (List (InEdge K))

namespace Dag

variable {K : Type}

/-- An edge of a kind in `p`. -/
def Edge (d : Dag K) (p : K → Prop) (x y : Nat) : Prop :=
  ∃ es : List (InEdge K), d[y]? = some es ∧ ∃ e ∈ es, e.src = x ∧ p e.kind

/-- A path, possibly empty, along edges of a kind in `p`. -/
def Reach (d : Dag K) (p : K → Prop) : Nat → Nat → Prop := Relation.ReflTransGen (d.Edge p)

/-- A path of at least one edge. -/
def Path (d : Dag K) (p : K → Prop) : Nat → Nat → Prop := Relation.TransGen (d.Edge p)

/-- Neither node is before the other. -/
def Parallel (d : Dag K) (p : K → Prop) (x y : Nat) : Prop := x ≠ y ∧ ¬d.Path p x y ∧ ¬d.Path p y x

/-- Edges come from earlier nodes. -/
def WF (d : Dag K) : Prop := ∀ (y : Nat) (es : List (InEdge K)), d[y]? = some es → ∀ e ∈ es, e.src < y

variable {d : Dag K} {p : K → Prop}

/-- The empty dag is well formed. -/
theorem wf_nil : WF ([] : Dag K) := by
  intro y es h
  simp at h

/-- A node may be added when its in-edges start at nodes that are there. -/
theorem WF.concat (hd : d.WF) {es : List (InEdge K)} (hes : ∀ e ∈ es, e.src < d.length) :
    WF (d ++ [es]) := by
  intro y fs hy e he
  by_cases hlt : y < d.length
  · rw [List.getElem?_append_left hlt] at hy
    exact hd y fs hy e he
  · obtain ⟨hyl, rfl⟩ : y = d.length ∧ es = fs := by
      rw [List.getElem?_append_right (Nat.le_of_not_lt hlt)] at hy
      have := List.getElem?_eq_some_iff.mp hy
      obtain ⟨hb, heq⟩ := this
      rw [List.length_singleton] at hb
      exact ⟨by omega, by simpa using heq⟩
    rw [hyl]
    exact hes e he

/-- Edges go from lower to higher numbers. This is what every induction over paths uses. -/
theorem Edge.lt (hd : d.WF) {x y : Nat} (h : d.Edge p x y) : x < y := by
  obtain ⟨es, hes, e, he, rfl, -⟩ := h
  exact hd y es hes e he

theorem Edge.lt_length {x y : Nat} (h : d.Edge p x y) : y < d.length := by
  obtain ⟨es, hes, -⟩ := h
  exact (List.getElem?_eq_some_iff.mp hes).1

theorem Reach.refl (x : Nat) : d.Reach p x x := Relation.ReflTransGen.refl

theorem Reach.trans {x y z : Nat} (h : d.Reach p x y) (h' : d.Reach p y z) : d.Reach p x z :=
  Relation.ReflTransGen.trans h h'

theorem Reach.of_edge {x y : Nat} (h : d.Edge p x y) : d.Reach p x y := Relation.ReflTransGen.single h

/-- Reachability goes along the numbering, so a dag has no cycle. -/
theorem Reach.le (hd : d.WF) {x y : Nat} (h : d.Reach p x y) : x ≤ y := by
  induction h with
  | refl => exact Nat.le_refl x
  | tail _ he ih => exact Nat.le_trans ih (Nat.le_of_lt (he.lt hd))

/-- More kinds, more paths. -/
theorem Reach.mono {q : K → Prop} (hpq : ∀ k, p k → q k) {x y : Nat} (h : d.Reach p x y) :
    d.Reach q x y := by
  induction h with
  | refl => exact Reach.refl x
  | tail _ he ih =>
      obtain ⟨es, hes, e, hmem, hsrc, hk⟩ := he
      exact ih.trans (Reach.of_edge ⟨es, hes, e, hmem, hsrc, hpq _ hk⟩)

/-- A path of at least one edge is reachability between two different nodes: a node cannot come back to itself. -/
theorem path_iff (hd : d.WF) {x y : Nat} : d.Path p x y ↔ d.Reach p x y ∧ x ≠ y := by
  constructor
  · intro h
    obtain ⟨z, hxz, hzy⟩ := Relation.TransGen.tail'_iff.mp h
    exact ⟨hxz.tail hzy, Nat.ne_of_lt (Nat.lt_of_le_of_lt (Reach.le hd hxz) (hzy.lt hd))⟩
  · rintro ⟨h, hne⟩
    exact (Relation.reflTransGen_iff_eq_or_transGen.mp h).resolve_left (Ne.symm hne)

/-- A path to `y` ends there, or goes on along an edge from a node it reaches. -/
theorem reach_iff_edge {x y : Nat} : d.Reach p x y ↔ x = y ∨ ∃ z, d.Reach p x z ∧ d.Edge p z y := by
  constructor
  · intro h
    cases h with
    | refl => exact Or.inl rfl
    | tail hxz hzy => exact Or.inr ⟨_, hxz, hzy⟩
  · rintro (rfl | ⟨z, hxz, hzy⟩)
    · exact Reach.refl x
    · exact hxz.trans (Reach.of_edge hzy)

/-! ## Adding a node -/

/-- The edges after a new node: those of before and the in-edges of the new one. -/
theorem edge_concat {es : List (InEdge K)} {x y : Nat} : (d ++ [es]).Edge p x y ↔
    d.Edge p x y ∨ (y = d.length ∧ ∃ e ∈ es, e.src = x ∧ p e.kind) := by
  unfold Edge
  rcases Nat.lt_trichotomy y d.length with hy | hy | hy
  · rw [List.getElem?_append_left hy]
    simp [Nat.ne_of_lt hy]
  · subst hy
    simp
  · have hout : (d ++ [es])[y]? = none := by
      apply List.getElem?_eq_none
      rw [List.length_append, List.length_singleton]
      omega
    rw [hout, List.getElem?_eq_none (Nat.le_of_lt hy)]
    simp [Nat.ne_of_gt hy]

/-- A new node takes no path away. -/
theorem Reach.concat {x y : Nat} (h : d.Reach p x y) (es : List (InEdge K)) : (d ++ [es]).Reach p x y := by
  induction h with
  | refl => exact Reach.refl x
  | tail _ hbc ih => exact ih.trans (Reach.of_edge (edge_concat.mpr (Or.inl hbc)))

/-- Paths between nodes that are already there stay the same. -/
theorem reach_concat_old (hd : d.WF) {es : List (InEdge K)} {x y : Nat} (hy : y < d.length) :
    (d ++ [es]).Reach p x y ↔ d.Reach p x y := by
  constructor
  · intro h
    induction h with
    | refl => exact Reach.refl x
    | @tail b c _ hbc ih =>
        rcases edge_concat.mp hbc with hbc | ⟨rfl, -⟩
        · exact (ih (Nat.lt_trans (hbc.lt hd) hy)).trans (Reach.of_edge hbc)
        · exact absurd hy (Nat.lt_irrefl _)
  · intro h
    exact h.concat es

/-- The new node is reached from itself and from what reaches its in-edges. -/
theorem reach_concat_new (hd : d.WF) {es : List (InEdge K)} (hes : ∀ e ∈ es, e.src < d.length)
    {x : Nat} : (d ++ [es]).Reach p x d.length ↔
      x = d.length ∨ ∃ e ∈ es, p e.kind ∧ d.Reach p x e.src := by
  rw [reach_iff_edge]
  constructor
  · rintro (rfl | ⟨z, hxz, hz⟩)
    · exact Or.inl rfl
    · rcases edge_concat.mp hz with hz | ⟨-, e, he, rfl, hk⟩
      · exact absurd hz.lt_length (Nat.lt_irrefl _)
      · exact Or.inr ⟨e, he, hk, (reach_concat_old hd (hes e he)).mp hxz⟩
  · rintro (rfl | ⟨e, he, hk, hr⟩)
    · exact Or.inl rfl
    · refine Or.inr ⟨e.src, (reach_concat_old hd (hes e he)).mpr hr, ?_⟩
      exact edge_concat.mpr (Or.inr ⟨rfl, e, he, rfl, hk⟩)

/-- The new node comes after the sources of its in-edges. -/
theorem reach_new_of_edge {es : List (InEdge K)} {e : InEdge K} (he : e ∈ es) (hk : p e.kind) :
    (d ++ [es]).Reach p e.src d.length :=
  Reach.of_edge (edge_concat.mpr (Or.inr ⟨rfl, e, he, rfl, hk⟩))

/-- Nothing starts at the new node but the empty path. -/
theorem reach_from_new (hd : d.WF) {es : List (InEdge K)} (hes : ∀ e ∈ es, e.src < d.length)
    {y : Nat} (h : (d ++ [es]).Reach p d.length y) (hy : y ≤ d.length) : y = d.length :=
  Nat.le_antisymm hy (h.le (hd.concat hes))

end Dag
end FOrder
