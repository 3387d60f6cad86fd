import Mathlib.Tactic.Common

/-!
# `Lib.LinkChain` — a linked list in memory

Nodes of type `α` are reached through links of type `ℓ`; `next` is what the memory holds in each node. A chain
is the list of the nodes that are met on the way from a link to the one where the list ends.
-/

namespace FOrder

variable {α ℓ : Type}

/-- Following `next` from `t` meets exactly these nodes and then stands at `stop`. -/
def LinkChain (node : α → ℓ) (stop : ℓ) (next : α → Option ℓ) : ℓ → List α → Prop
  | t, [] => t = stop
  | t, a :: as => t = node a ∧ ∃ u, next a = some u ∧ LinkChain node stop next u as

variable {node : α → ℓ} {stop t u : ℓ} {next next' : α → Option ℓ} {a : α} {as : List α}

theorem linkChain_nil : LinkChain node stop next stop [] := rfl

/-- Pushing a node whose link holds the old start. -/
theorem LinkChain.push (h : LinkChain node stop next t as) (ha : next a = some t) :
    LinkChain node stop next (node a) (a :: as) := ⟨rfl, t, ha, h⟩

/-- Only the links of the chain's own nodes matter. -/
theorem LinkChain.congr (h : LinkChain node stop next t as) (hsame : ∀ a ∈ as, next' a = next a) :
    LinkChain node stop next' t as := by
  induction as generalizing t with
  | nil => exact h
  | cons a as ih =>
      obtain ⟨rfl, u, hu, hrest⟩ := h
      refine ⟨rfl, u, ?_, ih hrest fun b hb => hsame b (List.mem_cons_of_mem a hb)⟩
      rw [hsame a List.mem_cons_self, hu]

end FOrder
