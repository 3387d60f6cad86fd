import FOrder.Futurerd.NonblockClosure

/-!
# `Futurerd.NonblockRows` — what a yes of `R` is worth

A set answers for its own strands, and an attached set for those of the unattached sets that have it as successor.
`Sound d m σ` says that an entry of the matrix `m` is true of all of them: every strand the first node answers for
has a path to the strand at the root of the second one. It is about entries, not about paths of `R`, so it does not
mind that edges are added behind which there are others.

Each change of the state has a lemma: the dag grows (`Sound.grow`), an edge is added (`Sound.addEdge`), sets are
merged or get successors (`Sound.sets`), a node gets an id (`Sound.giveId`). An entry that `add_edge` makes comes
from an entry of its source or from the edge itself, so what has to be shown of an edge is only that its source
stands before its target.
-/

namespace FOrder.Futurerd

open Serial (EdgeKind isDep)

namespace Nonblock

variable {σ σ' : State} {m m' : General} {d d' : Dag EdgeKind}

/-! ## The answering set -/

/-- An attached set answers itself. -/
theorem answering_of_attached {u : Nat} (h : σ.attached u = true) : answering σ u = some (σ.find u) := if_pos h

/-- An unattached one has its successor answer, if it has one. -/
theorem answering_of_not {u : Nat} (h : σ.attached u = false) : answering σ u = (σ.setOf u).attSucc :=
  if_neg (by rw [h]; decide)

/-- An attached root answers for itself. -/
theorem answering_self (hok : NodesOk σ) {x : Nat} (hx : 0 < (σ.node x).id) : answering σ x = some x := by
  rw [answering_of_attached (hok.attached_of_id hx), hok.root x hx]

/-- `u` is in the set of `x`, or this set answers for it. -/
def Stands (σ : State) (u x : Nat) : Prop := σ.find u = x ∨ answering σ u = some x

/-! ## Sound entries -/

/-- Every entry is true of the strands its first node answers for. -/
structure Sound (d : Dag EdgeKind) (m : General) (σ : State) : Prop where
  bound : ∀ i j, m.Has i j → i < m.data.length
  id_lt : ∀ x, (σ.node x).id < m.data.length
  unique : ∀ x y, 0 < (σ.node x).id → (σ.node x).id = (σ.node y).id → x = y
  succ : ∀ x y, (σ.node x).id = 0 → (σ.node x).attSucc = some y → 0 < (σ.node y).id
  entries : ∀ x y, 0 < (σ.node x).id → 0 < (σ.node y).id → x ≠ y → m.Has (σ.node x).id (σ.node y).id →
    ∀ u, answering σ u = some x → d.Reach isDep u y

/-- `R` has at least the fake node. -/
theorem Sound.length_pos (h : Sound d m σ) : 0 < m.data.length := Nat.lt_of_le_of_lt (Nat.zero_le _) (h.id_lt 0)

/-- Only attached sets answer. -/
theorem Sound.answering_id (h : Sound d m σ) {u x : Nat} (hu : answering σ u = some x) : 0 < (σ.node x).id := by
  cases hatt : σ.attached u with
  | true =>
      rw [answering_of_attached hatt] at hu
      obtain rfl := Option.some.inj hu
      exact State.attached_iff.mp hatt
  | false =>
      rw [answering_of_not hatt] at hu
      exact h.succ _ x (State.not_attached.mp hatt) hu

/-- The dag has grown. -/
theorem Sound.grow (h : Sound d m σ) (hd : ∀ u y, d.Reach isDep u y → d'.Reach isDep u y) : Sound d' m σ :=
  ⟨h.bound, h.id_lt, h.unique, h.succ, fun x y hx hy hne hhas u hu => hd u y (h.entries x y hx hy hne hhas u hu)⟩

/-- **An edge** is sound when all that its source answers for has a path to the root of its target. The row of the
    target becomes the union of its own and the source's, and the source itself: an entry before the source is
    before the target by the path from the source's root. -/
theorem Sound.addEdge (h : Sound d m σ) (hok : NodesOk σ) (hsize : m.data.length ≤ 2 ^ 64) {x y : Nat}
    (hx : 0 < (σ.node x).id) (hrun : m.addEdge (σ.node x).id (σ.node y).id = some m')
    (hxy : ∀ u, answering σ u = some x → d.Reach isDep u y) : Sound d m' σ := by
  have hlen := General.length_addEdge hrun
  have hhas := General.has_addEdge hrun hsize
  refine ⟨?_, ?_, h.unique, h.succ, ?_⟩
  · intro i j hij
    rw [hlen]
    rcases (hhas i j).mp hij with hold | ⟨-, -, rfl | hsrc⟩
    · exact h.bound i j hold
    · exact h.id_lt x
    · exact h.bound i _ hsrc
  · intro z
    rw [hlen]
    exact h.id_lt z
  · intro a b ha hb hab hentry u hu
    rcases (hhas _ _).mp hentry with hold | ⟨hby, -, hsrc⟩
    · exact h.entries a b ha hb hab hold u hu
    · obtain rfl : b = y := h.unique b y hb hby
      by_cases hax : a = x
      · subst hax
        exact hxy u hu
      · -- the entries of the source are passed on
        have hin : m.Has (σ.node a).id (σ.node x).id := by
          rcases hsrc with heq | hin
          · exact absurd (h.unique a x ha heq) hax
          · exact hin
        exact (h.entries a x ha hx hax hin u hu).trans (hxy x (answering_self hok hx))

/-- The sets may change when what is new of an answer is true of the entries. -/
theorem Sound.sets (h : Sound d m σ) (hid : ∀ x, (σ'.node x).id = (σ.node x).id)
    (hsucc : ∀ x y, (σ.node x).id = 0 → (σ'.node x).attSucc = some y →
      (σ.node x).attSucc = some y ∨ 0 < (σ.node y).id)
    (hans : ∀ u x, answering σ' u = some x → answering σ u = some x ∨
      ∀ y, 0 < (σ.node y).id → x ≠ y → m.Has (σ.node x).id (σ.node y).id → d.Reach isDep u y) :
    Sound d m σ' where
  bound := h.bound
  id_lt x := by
    rw [hid]
    exact h.id_lt x
  unique x y hx heq := by
    rw [hid] at hx
    rw [hid, hid] at heq
    exact h.unique x y hx heq
  succ x y hx hy := by
    rw [hid] at hx ⊢
    rcases hsucc x y hx hy with hold | hnew
    · exact h.succ x y hx hold
    · exact hnew
  entries x y hx hy hne hhas u hu := by
    rw [hid] at hx hy
    rw [hid, hid] at hhas
    rcases hans u x hu with hold | hnew
    · exact h.entries x y hx hy hne hhas u hold
    · exact hnew y hy hne hhas

/-- A node gets the id that `add_node` has made. -/
theorem Sound.giveId (h : Sound d m σ) {x : Nat} (hid : ∀ z, z ≠ x → (σ'.node z).id = (σ.node z).id)
    (hx : (σ'.node x).id = m.data.length) (hold : (σ.node x).id = 0)
    (hsucc : ∀ z, z ≠ x → (σ'.node z).attSucc = (σ.node z).attSucc)
    (hans : ∀ u z, answering σ' u = some z → z ≠ x → answering σ u = some z) : Sound d m.addNode.1 σ' := by
  have hlen : m.addNode.1.data.length = m.data.length + 1 := General.length_addNode
  have hpos : ∀ z, 0 < (σ.node z).id → 0 < (σ'.node z).id := by
    intro z hz
    by_cases hzx : z = x
    · subst hzx
      omega
    · rw [hid z hzx]
      exact hz
  refine ⟨?_, ?_, ?_, ?_, ?_⟩
  · intro i j hij
    have hlt := h.bound i j (General.has_addNode.mp hij)
    omega
  · intro z
    by_cases hzx : z = x
    · rw [hzx, hx, hlen]
      exact Nat.lt_succ_self _
    · rw [hid z hzx, hlen]
      exact Nat.lt_succ_of_lt (h.id_lt z)
  · intro a b ha heq
    have hne : ∀ z, z ≠ x → (σ'.node z).id ≠ (σ'.node x).id := by
      intro z hz
      have hlt := h.id_lt z
      rw [hid z hz, hx]
      exact Nat.ne_of_lt hlt
    by_cases hax : a = x
    · by_cases hbx : b = x
      · rw [hax, hbx]
      · rw [hax] at heq
        exact absurd heq.symm (hne b hbx)
    · by_cases hbx : b = x
      · rw [hbx] at heq
        exact absurd heq (hne a hax)
      · rw [hid a hax] at ha
        rw [hid a hax, hid b hbx] at heq
        exact h.unique a b ha heq
  · intro a b ha hb
    have hax : a ≠ x := by
      rintro rfl
      have hb := h.id_lt a
      omega
    rw [hid a hax] at ha
    rw [hsucc a hax] at hb
    exact hpos b (h.succ a b ha hb)
  · intro a b ha hb hab hhas u hu
    have hentry := General.has_addNode.mp hhas
    -- no entry is about the new id
    have hax : a ≠ x := by
      rintro rfl
      have hlt := h.bound _ _ hentry
      omega
    have hbx : b ≠ x := by
      rintro rfl
      have hlt := hentry.lt
      omega
    rw [hid a hax] at ha
    rw [hid b hbx] at hb
    rw [hid a hax, hid b hbx] at hentry
    exact h.entries a b ha hb hab hentry u (hans u a hu hax)

/-- Nothing has an entry after a strand that nothing comes after. -/
theorem Sound.no_entry (h : Sound d m σ) (hok : NodesOk σ) {e : Nat} (hatt : σ.attached e = true)
    (hsink : ∀ y, d.Reach isDep e y → y = e) {y : Nat} (hy : 0 < (σ.node y).id) (hne : σ.find e ≠ y) :
    ¬m.Has (σ.node (σ.find e)).id (σ.node y).id := by
  intro hhas
  have hreach := h.entries _ y (State.attached_iff.mp hatt) hy hne hhas e (answering_of_attached hatt)
  have hye := hsink y hreach
  apply hne
  rw [← hye, hok.root y hy]

end Nonblock
end FOrder.Futurerd
