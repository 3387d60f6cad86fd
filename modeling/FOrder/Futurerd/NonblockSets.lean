import FOrder.Futurerd.Nonblock
import Mathlib.Data.List.Count

/-!
# `Futurerd.NonblockSets` — what the sets of MultiBags+ look like between two events

Nodes are numbered in serial order, so the strands that belong together lie side by side: a **segment** runs from
the first node after a fork to the node its frame has come to. No set leaves its segment. The segments of the frames
that are still open, and of the spawned children that have come back since the last sync, cover all nodes; `Items`
lists what separates them.

This module has what does not depend on segments: the nodes by themselves. `NodesOk` is their invariant: the forest
is well formed, only roots have ids, every id is a node of `R`, an attached predecessor is attached, and there are
not more ids than nodes. The last clause is why nothing overflows, as every node of `R` belongs to a strand in
memory (`NodesOk.data_le`).

`Did` says which calls on `R` lie between two states. The invariants of the later modules do not look at the matrix
at all; they look at these calls, and what the matrix is after them is proved separately (`NonblockClosure`,
`NonblockRows`).

`attachify` is the one operation that all events share, so it is specified here (`attachify_spec`): it returns when
the set has an attached predecessor and, while it is unattached, no successor; the assertions in it are exactly
these.
-/

namespace FOrder.Futurerd.Nonblock

namespace State

variable {σ σ' : State}

/-! ## Reading an updated state -/

/-- One node is changed. -/
theorem node_modify {x : Nat} (hx : x < σ.nodes.length) (g : Node → Node) (z : Nat) :
    (σ.modify x g).node z = if z = x then g (σ.node x) else σ.node z := by
  unfold node modify
  simp only [List.getD_eq_getElem?_getD, List.getElem?_modify]
  by_cases hz : z = x
  · subst hz
    simp [hx]
  · simp [hz, Ne.symm hz]

/-- A node is appended; it has no sets before or behind it. -/
theorem node_newNode (id z : Nat) : (σ.newNode id).1.node z =
    if z = σ.nodes.length then ⟨none, none, id, none⟩ else σ.node z := by
  unfold node newNode
  simp only [List.getD_eq_getElem?_getD]
  rcases Nat.lt_trichotomy z σ.nodes.length with hz | rfl | hz
  · simp [List.getElem?_append_left hz, Nat.ne_of_lt hz]
  · simp
  · rw [List.getElem?_eq_none (by simp; omega), List.getElem?_eq_none (Nat.le_of_lt hz)]
    simp [Nat.ne_of_gt hz]

/-- Nodes that are not there read as the default, which has no id. -/
theorem node_of_length_le {z : Nat} (hz : σ.nodes.length ≤ z) : σ.node z = default := by
  unfold node
  rw [List.getD_eq_getElem?_getD, List.getElem?_eq_none hz]
  rfl

/-- A node with an id is there. -/
theorem lt_of_id {z : Nat} (hz : 0 < (σ.node z).id) : z < σ.nodes.length := by
  by_contra hlt
  rw [node_of_length_le (Nat.le_of_not_lt hlt)] at hz
  exact absurd hz (Nat.lt_irrefl 0)

/-- A set is attached when its root has an id. -/
theorem attached_iff {x : Nat} : σ.attached x = true ↔ 0 < (σ.node (σ.find x)).id := by
  unfold attached setOf
  exact decide_eq_true_iff

/-- And otherwise the root has none. -/
theorem not_attached {x : Nat} : σ.attached x = false ↔ (σ.node (σ.find x)).id = 0 := by
  rw [← Bool.not_eq_true, attached_iff]
  omega

end State

/-! ## The nodes -/

/-- What holds of the nodes at any time: an id belongs to a root and is one of `R`, the attached predecessor of a
    set is attached. -/
structure NodesOk (σ : State) : Prop where
  forest : UF.WF σ.parent
  size : σ.parent.length = σ.nodes.length
  root : ∀ x, 0 < (σ.node x).id → σ.find x = x
  id_lt : ∀ x, (σ.node x).id < σ.mR.data.length
  pred : ∀ x p, (σ.node x).attPred = some p → 0 < (σ.node p).id
  ids : σ.mR.data.length ≤ σ.nodes.countP (fun n => 0 < n.id) + 1

namespace NodesOk

variable {σ : State}

/-- The root of a root is itself. -/
theorem find_find (h : NodesOk σ) (x : Nat) : σ.find (σ.find x) = σ.find x := h.forest.rep_rep x

/-- Roots are nodes. -/
theorem find_lt (h : NodesOk σ) {x : Nat} (hx : x < σ.nodes.length) : σ.find x < σ.nodes.length := by
  rw [← h.size] at hx ⊢
  exact h.forest.rep_lt hx

/-- `R` has at most one node for each strand, and the fake one. -/
theorem data_le (h : NodesOk σ) : σ.mR.data.length ≤ σ.nodes.length + 1 := by
  have hcount := List.countP_le_length (p := fun n : Node => decide (0 < n.id)) (l := σ.nodes)
  have hids := h.ids
  omega

/-- A node with an id is attached, as it is a root. -/
theorem attached_of_id (h : NodesOk σ) {x : Nat} (hx : 0 < (σ.node x).id) : σ.attached x = true := by
  rw [State.attached_iff, h.root x hx]
  exact hx

end NodesOk

/-- The same sets with the same data: a call on `R`, or on the bags. -/
structure SameNodes (σ σ' : State) : Prop where
  nodes : σ'.nodes = σ.nodes
  parent : σ'.parent = σ.parent

namespace SameNodes

variable {σ σ' : State}

/-- Every node is as it was. -/
theorem node (h : SameNodes σ σ') (z : Nat) : σ'.node z = σ.node z := by
  unfold State.node
  rw [h.nodes]

/-- So is every root. -/
theorem find (h : SameNodes σ σ') (z : Nat) : σ'.find z = σ.find z := by
  unfold State.find
  rw [h.parent]

/-- And the data at the roots. -/
theorem setOf (h : SameNodes σ σ') (z : Nat) : σ'.setOf z = σ.setOf z := by
  unfold State.setOf
  rw [h.find, h.node]

/-- And what is attached. -/
theorem attached (h : SameNodes σ σ') (z : Nat) : σ'.attached z = σ.attached z := by
  unfold State.attached
  rw [h.setOf]

/-- Calls on `R` that make no node keep the invariant. -/
theorem nodesOk (h : SameNodes σ σ') (hok : NodesOk σ) (hdata : σ'.mR.data.length = σ.mR.data.length) :
    NodesOk σ' where
  forest := by
    rw [h.parent]
    exact hok.forest
  size := by
    rw [h.parent, h.nodes]
    exact hok.size
  root x hx := by
    rw [h.node] at hx
    rw [h.find]
    exact hok.root x hx
  id_lt x := by
    rw [h.node, hdata]
    exact hok.id_lt x
  pred x p hp := by
    rw [h.node] at hp ⊢
    exact hok.pred x p hp
  ids := by
    rw [hdata, h.nodes]
    exact hok.ids

end SameNodes

/-! ## Calls on `R` -/

/-- `add_edge` between two nodes returns. -/
theorem addEdge_returns {m : General} {src dst : Nat} (hsrc : src < m.data.length) (hdst : dst < m.data.length)
    (hsize : m.data.length ≤ 2 ^ 64) :
    ∃ m', m.addEdge src dst = some m' ∧ m'.data.length = m.data.length := by
  unfold General.addEdge
  by_cases hsame : src = dst
  · exact ⟨m, by rw [if_pos hsame], rfl⟩
  · rw [if_neg hsame, List.getElem?_eq_getElem hsrc, List.getElem?_eq_getElem hdst]
    obtain ⟨row, hset, -, -⟩ := Bitvector.set_spec (v := General.joinRow m.data[src] m.data[dst])
      (Nat.lt_of_lt_of_le hsrc hsize)
    refine ⟨⟨m.data.set dst row⟩, ?_, List.length_set⟩
    simp only [Option.bind_eq_bind, Option.bind_some, hset]

/-- Between the two states `R` has seen these calls. -/
structure Did (σ σ' : State) (ops : List General.Op) : Prop where
  calls : σ'.calls = σ.calls ++ ops
  run : ops.foldlM General.step σ.mR = some σ'.mR

/-- No calls. -/
theorem Did.refl (σ : State) : Did σ σ [] := ⟨by simp, rfl⟩

/-- Calls, and then other calls. -/
theorem Did.trans {σ σ' σ'' : State} {ops ops' : List General.Op} (h : Did σ σ' ops) (h' : Did σ' σ'' ops') :
    Did σ σ'' (ops ++ ops') where
  calls := by rw [h'.calls, h.calls, List.append_assoc]
  run := by
    rw [List.foldlM_append, h.run]
    exact h'.run

/-- What `add_edge` does to the state. -/
structure EdgeAdded (σ σ' : State) (src dst : Nat) : Prop where
  same : SameNodes σ σ'
  tCurrent : σ'.tCurrent = σ.tCurrent
  mSp : σ'.mSp = σ.mSp
  data : σ'.mR.data.length = σ.mR.data.length
  did : Did σ σ' [.addEdge src dst]

/-- `add_edge` returns and changes the matrix only. -/
theorem addEdge_spec {σ : State} (hok : NodesOk σ) (hroom : σ.nodes.length < 2 ^ 64) {src dst : Nat}
    (hsrc : src < σ.mR.data.length) (hdst : dst < σ.mR.data.length) :
    ∃ σ', σ.addEdge src dst = some σ' ∧ NodesOk σ' ∧ EdgeAdded σ σ' src dst := by
  have hsize : σ.mR.data.length ≤ 2 ^ 64 := Nat.le_trans hok.data_le hroom
  obtain ⟨m', hm, hlen⟩ := addEdge_returns hsrc hdst hsize
  have hsame : SameNodes σ { σ with mR := m', calls := σ.calls ++ [.addEdge src dst] } := ⟨rfl, rfl⟩
  refine ⟨_, ?_, hsame.nodesOk hok hlen, hsame, rfl, rfl, hlen, rfl, ?_⟩
  · simp [State.addEdge, hm]
  · simp [General.step, hm]

/-- The bags are nothing to the nodes. -/
theorem NodesOk.bags {σ : State} (hok : NodesOk σ) (sp : Bags) : NodesOk { σ with mSp := sp } :=
  ⟨hok.forest, hok.size, hok.root, hok.id_lt, hok.pred, hok.ids⟩

/-- The bags are nothing to the calls. -/
theorem Did.bags {σ σ' : State} {sp : Bags} {ops : List General.Op} (h : Did { σ with mSp := sp } σ' ops) :
    Did σ σ' ops := ⟨h.calls, h.run⟩

/-! ## `attachify` -/

/-- What `attachify(n)` does to the nodes: the root of `n` gets an id and is its own successor. -/
structure Attachified (σ σ' : State) (n : Nat) : Prop where
  parent : σ'.parent = σ.parent
  length : σ'.nodes.length = σ.nodes.length
  tCurrent : σ'.tCurrent = σ.tCurrent
  mSp : σ'.mSp = σ.mSp
  node : ∀ z, z ≠ σ.find n → σ'.node z = σ.node z
  attPred : ∀ z, (σ'.node z).attPred = (σ.node z).attPred
  sbag : ∀ z, (σ'.node z).sbag = (σ.node z).sbag
  id : 0 < (σ'.node (σ.find n)).id
  newId : σ.attached n = false → (σ'.node (σ.find n)).id = σ.mR.data.length
  old : σ.attached n = true → σ' = σ

namespace Attachified

variable {σ σ' : State} {n : Nat}

/-- No set is merged. -/
theorem find (h : Attachified σ σ' n) (z : Nat) : σ'.find z = σ.find z := by
  unfold State.find
  rw [h.parent]

/-- Afterwards the set is attached. -/
theorem attached_self (h : Attachified σ σ' n) : σ'.attached n = true := by
  rw [State.attached_iff, h.find]
  exact h.id

/-- Nothing attached changes. -/
theorem node_of_id (h : Attachified σ σ' n) {z : Nat} (hz : 0 < (σ.node z).id) : σ'.node z = σ.node z := by
  by_cases hzn : z = σ.find n
  · subst hzn
    rw [h.old (State.attached_iff.mpr hz)]
  · exact h.node z hzn

/-- What was attached is attached. -/
theorem attached (h : Attachified σ σ' n) {z : Nat} (hz : σ.attached z = true) : σ'.attached z = true := by
  rw [State.attached_iff] at hz ⊢
  rw [h.find, h.node_of_id hz]
  exact hz

/-- No attached predecessor changes. -/
theorem setOf_attPred (h : Attachified σ σ' n) (z : Nat) : (σ'.setOf z).attPred = (σ.setOf z).attPred := by
  unfold State.setOf
  rw [h.find, h.attPred]

end Attachified

/-- An entry that comes to satisfy a predicate. -/
theorem countP_modify {p : Node → Bool} {l : List Node} {i : Nat} {n : Node} (hi : l[i]? = some n)
    (g : Node → Node) (hold : p n = false) (hnew : p (g n) = true) :
    (l.modify i g).countP p = l.countP p + 1 := by
  induction l generalizing i with
  | nil => simp at hi
  | cons m l ih =>
      cases i with
      | zero =>
          obtain rfl : m = n := by simpa using hi
          simp [hold, hnew]
      | succ i =>
          rw [List.modify_succ_cons, List.countP_cons, List.countP_cons, ih (by simpa using hi)]
          omega

/-- An entry that satisfies the predicate as before. -/
theorem countP_modify_same {p : Node → Bool} {l : List Node} {i : Nat} {g : Node → Node}
    (hsame : ∀ n, p (g n) = p n) : (l.modify i g).countP p = l.countP p := by
  induction l generalizing i with
  | nil => simp
  | cons m l ih =>
      cases i with
      | zero => simp [hsame, List.countP_cons]
      | succ i => rw [List.modify_succ_cons, List.countP_cons, List.countP_cons, ih]

/-- Fields other than the id may change at will, as long as an attached predecessor is attached. -/
theorem NodesOk.modify {σ : State} (hok : NodesOk σ) {x : Nat} (hx : x < σ.nodes.length) {g : Node → Node}
    (hid : ∀ n, (g n).id = n.id)
    (hpred : ∀ p, (g (σ.node x)).attPred = some p → 0 < (σ.node p).id) : NodesOk (σ.modify x g) := by
  have hnode := State.node_modify hx g
  have hids : ∀ z, ((σ.modify x g).node z).id = (σ.node z).id := by
    intro z
    rw [hnode]
    split
    · rename_i hz
      rw [hid, hz]
    · rfl
  refine ⟨hok.forest, ?_, ?_, ?_, ?_, ?_⟩
  · simp [State.modify, hok.size]
  · intro z hz
    rw [hids] at hz
    exact hok.root z hz
  · intro z
    rw [hids]
    exact hok.id_lt z
  · intro z p hp
    rw [hids]
    rw [hnode] at hp
    split at hp
    · exact hpred p hp
    · exact hok.pred z p hp
  · have hcount : (σ.modify x g).nodes.countP (fun n => 0 < n.id) = σ.nodes.countP (fun n => 0 < n.id) :=
      countP_modify_same (fun n => by rw [hid])
    rw [hcount]
    exact hok.ids

/-- The bag of a node is nothing to the sets. -/
theorem NodesOk.setCurrent {σ : State} (hok : NodesOk σ) {x : Nat} (hx : x < σ.nodes.length)
    (bag : Option Nat) : NodesOk (σ.setCurrent x bag) := by
  have h := hok.modify hx (g := fun n => { n with sbag := bag }) (fun _ => rfl) (hok.pred x)
  exact ⟨h.forest, h.size, h.root, h.id_lt, h.pred, h.ids⟩

/-- A new node, with no id or with the next one. -/
theorem NodesOk.push {σ σ' : State} (hok : NodesOk σ) (id : Nat)
    (hnodes : σ'.nodes = σ.nodes ++ [⟨none, none, id, none⟩]) (hparent : σ'.parent = UF.add σ.parent)
    (hid : id < σ'.mR.data.length) (hle : σ.mR.data.length ≤ σ'.mR.data.length)
    (hids : σ'.mR.data.length ≤ σ.mR.data.length + if 0 < id then 1 else 0) : NodesOk σ' := by
  obtain ⟨hwf, hlen, hrep, hself⟩ := UF.add_spec hok.forest
  have hfind : ∀ z, σ'.find z = σ.find z := by
    intro z
    unfold State.find
    rw [hparent]
    exact hrep z
  have hnode : ∀ z, σ'.node z = if z = σ.nodes.length then ⟨none, none, id, none⟩ else σ.node z := by
    intro z
    rw [← State.node_newNode]
    unfold State.node
    rw [hnodes]
    rfl
  refine ⟨?_, ?_, ?_, ?_, ?_, ?_⟩
  · rw [hparent]
    exact hwf
  · rw [hparent, hnodes, hlen, hok.size]
    simp
  · intro z hz
    rw [hfind]
    rw [hnode] at hz
    split at hz
    · rename_i hzn
      rw [hzn, ← hok.size]
      exact UF.rep_of_isRoot (UF.parentOf_of_length_le (Nat.le_refl _))
    · exact hok.root z hz
  · intro z
    rw [hnode]
    split
    · exact hid
    · exact Nat.lt_of_lt_of_le (hok.id_lt z) hle
  · intro z p hp
    rw [hnode] at hp
    split at hp
    · cases hp
    · have hpid := hok.pred z p hp
      rw [hnode, if_neg (Nat.ne_of_lt (State.lt_of_id hpid))]
      exact hpid
  · have hold := hok.ids
    rw [hnodes, List.countP_append, List.countP_singleton]
    simp only [decide_eq_true_eq]
    omega

/-- A root without an id gets a new one. -/
theorem NodesOk.giveId {σ : State} (hok : NodesOk σ) {x : Nat} (hx : x < σ.nodes.length)
    (hroot : σ.find x = x) (hid : (σ.node x).id = 0) :
    NodesOk (σ.addNode.1.modify x fun n => { n with id := σ.addNode.2 }) := by
  have hnode := State.node_modify (σ := σ.addNode.1) hx fun n => { n with id := σ.addNode.2 }
  have hpos : 0 < σ.addNode.2 := Nat.lt_of_le_of_lt (Nat.zero_le _) (hok.id_lt x)
  have hdata : (σ.addNode.1.modify x fun n => { n with id := σ.addNode.2 }).mR.data.length =
      σ.mR.data.length + 1 := by
    simp [State.modify, State.addNode, General.addNode]
  have hget : σ.nodes[x]? = some (σ.node x) := by
    unfold State.node
    rw [List.getD_eq_getElem?_getD, List.getElem?_eq_getElem hx]
    rfl
  refine ⟨hok.forest, ?_, ?_, ?_, ?_, ?_⟩
  · simp [State.modify, State.addNode, hok.size]
  · intro z hz
    rw [hnode] at hz
    split at hz
    · rename_i hzx
      rw [hzx]
      exact hroot
    · exact hok.root z hz
  · intro z
    rw [hnode, hdata]
    split
    · exact Nat.lt_succ_self _
    · exact Nat.lt_succ_of_lt (hok.id_lt z)
  · intro z p hp
    have hold : 0 < (σ.node p).id := by
      rw [hnode] at hp
      split at hp
      · exact hok.pred x p hp
      · exact hok.pred z p hp
    rw [hnode]
    split
    · exact hpos
    · exact hold
  · have hcount : (σ.addNode.1.modify x fun n => { n with id := σ.addNode.2 }).nodes.countP
        (fun n => 0 < n.id) = σ.nodes.countP (fun n => 0 < n.id) + 1 :=
      countP_modify hget _ (by simp [hid]) (by simp [hpos])
    rw [hcount, hdata]
    exact Nat.succ_le_succ hok.ids

/-- The calls that `attachify(n)` makes, when `p` is the attached predecessor of the set. -/
def attachOps (σ : State) (n p : Nat) : List General.Op :=
  if σ.attached n then [] else [.addNode, .addEdge (σ.setOf p).id σ.mR.data.length]

/-- **`attachify` returns** when the set has an attached predecessor and no successor yet. An attached set stays as
    it is. For the others, the new id is the number of a new node of `R`, the edge from the predecessor goes to this
    node, and the assertion that the predecessor has a smaller id holds since all ids are below the new one. -/
theorem attachify_spec {σ : State} (hok : NodesOk σ) (hroom : σ.nodes.length < 2 ^ 64) {n : Nat}
    (hn : n < σ.nodes.length) {p : Nat} (hp : (σ.setOf n).attPred = some p)
    (hfree : σ.attached n = false → (σ.setOf n).attSucc = none) :
    ∃ σ', attachify σ n = some σ' ∧ NodesOk σ' ∧ Attachified σ σ' n ∧
      Did σ σ' (attachOps σ n p) := by
  unfold attachify
  by_cases hatt : σ.attached n = true
  · refine ⟨σ, by simp [hatt], hok, ⟨rfl, rfl, rfl, rfl, fun _ _ => rfl, fun _ => rfl, fun _ => rfl, ?_,
      fun h => absurd hatt (by simp [h]), fun _ => rfl⟩, ?_⟩
    · exact State.attached_iff.mp hatt
    · rw [attachOps, if_pos hatt]
      exact Did.refl σ
  · have hatt : σ.attached n = false := by simpa using hatt
    have hid : (σ.node (σ.find n)).id = 0 := State.not_attached.mp hatt
    have hsu : σ.find n < σ.nodes.length := hok.find_lt hn
    -- the root gets an id
    have hok₁ := hok.giveId hsu (hok.find_find n) hid
    have hnode₁ := State.node_modify (σ := σ.addNode.1) hsu fun m => { m with id := σ.addNode.2 }
    generalize hσ₁ : (σ.addNode.1.modify (σ.find n) fun m => { m with id := σ.addNode.2 }) = σ₁ at hok₁ hnode₁
    have hlen₁ : σ₁.nodes.length = σ.nodes.length := by
      rw [← hσ₁]
      simp [State.modify, State.addNode]
    have hdata₁ : σ₁.mR.data.length = σ.mR.data.length + 1 := by
      rw [← hσ₁]
      simp [State.modify, State.addNode, General.addNode]
    have hpred : (σ₁.node (σ.find n)).attPred = some p := by
      rw [hnode₁, if_pos rfl]
      exact hp
    have hpid : 0 < (σ.node p).id := hok.pred _ p hp
    have hproot : σ.find p = p := hok.root p hpid
    have hpne : p ≠ σ.find n := by
      rintro rfl
      omega
    have hset₁ : (σ₁.setOf p) = σ.setOf p := by
      have hfind₁ : σ₁.find p = σ.find p := by
        rw [← hσ₁]
        rfl
      unfold State.setOf
      rw [hfind₁, hproot, hnode₁, if_neg hpne]
      rfl
    have hplt : (σ.setOf p).id < σ.mR.data.length := hok.id_lt _
    -- the edge from the predecessor
    obtain ⟨σ₂, hrun₂, hok₂, hedge⟩ := addEdge_spec hok₁ (by rw [hlen₁]; exact hroom)
      (show (σ.setOf p).id < _ by rw [hdata₁]; exact Nat.lt_succ_of_lt hplt)
      (show σ.addNode.2 < _ by rw [hdata₁]; exact Nat.lt_succ_self _)
    have hnode₂ : ∀ z, σ₂.node z = if z = σ.find n then { σ.node (σ.find n) with id := σ.addNode.2 }
        else σ.node z := by
      intro z
      rw [hedge.same.node, hnode₁]
      rfl
    have hsucc : (σ₂.node (σ.find n)).attSucc = none := by
      rw [hnode₂, if_pos rfl]
      exact hfree hatt
    have hsu₂ : σ.find n < σ₂.nodes.length := by
      rw [hedge.same.nodes, hlen₁]
      exact hsu
    have hnode₃ := State.node_modify hsu₂ fun m => { m with attSucc := some (σ.find n) }
    have hok₃ := hok₂.modify hsu₂ (g := fun m => { m with attSucc := some (σ.find n) }) (fun _ => rfl)
      (hok₂.pred _)
    refine ⟨_, ?_, hok₃, ⟨?_, ?_, ?_, ?_, ?_, ?_, ?_, ?_, ?_, ?_⟩, ?_⟩
    · have hle : (σ.setOf p).id ≤ σ.addNode.2 := Nat.le_of_lt hplt
      simp [hatt, hid, hσ₁, hpred, hset₁, hle, hrun₂, hsucc, guard]
    · show σ₂.parent = _
      rw [hedge.same.parent, ← hσ₁]
      rfl
    · show (σ₂.nodes.modify _ _).length = _
      rw [List.length_modify, hedge.same.nodes, hlen₁]
    · show σ₂.tCurrent = _
      rw [hedge.tCurrent, ← hσ₁]
      rfl
    · show σ₂.mSp = _
      rw [hedge.mSp, ← hσ₁]
      rfl
    · intro z hz
      rw [hnode₃, if_neg hz, hnode₂, if_neg hz]
    · intro z
      rw [hnode₃, hnode₂, hnode₂]
      split
      · rename_i hz
        rw [hz, if_pos rfl]
      · rfl
    · intro z
      rw [hnode₃, hnode₂, hnode₂]
      split
      · rename_i hz
        rw [hz, if_pos rfl]
      · rfl
    · rw [hnode₃, if_pos rfl, hnode₂, if_pos rfl]
      exact Nat.lt_of_le_of_lt (Nat.zero_le _) hplt
    · intro _
      rw [hnode₃, if_pos rfl, hnode₂, if_pos rfl]
      rfl
    · intro h
      rw [hatt] at h
      cases h
    · have hdid₁ : Did σ σ₁ [.addNode] := by
        rw [← hσ₁]
        exact ⟨rfl, rfl⟩
      have hdid := hdid₁.trans hedge.did
      rw [attachOps, if_neg (by simp [hatt])]
      exact ⟨hdid.calls, hdid.run⟩

end FOrder.Futurerd.Nonblock
