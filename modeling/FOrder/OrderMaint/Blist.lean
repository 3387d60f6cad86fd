import FOrder.Lib.Order
import Mathlib.Algebra.Group.Nat.Defs

/-!
# `OrderMaint.Blist` — the lower lists of the order maintenance structure

`blist.c` and `blist_split.c`: a doubly linked list of nodes with 64-bit labels. A new node gets the label in the
middle between its base and the next node, or none when there is no room; `split` cuts a list into sublists of at
most 64 nodes and spaces their labels evenly. Memory never runs out, one thread inserts at a time, and `none` is a
failed assertion.

Two facts about labels carry the rest of the development. The middle leaves half of the room on either side
(`middle_spec`), so from a gap of `2 ^ 58` it takes many inserts behind one node to close it; and it is refused
exactly when the gap is closed (`getNewLabel_full`, `getNewLabel_room`). And sublists of 64 nodes with the distance
`nodeInterval = 2 ^ 58` just fit into 64 bits: the label of the last one is `63 * 2 ^ 58`, and the loop's next
label, which is not used, wraps around to `0` (`place_eq`).

`insertAt_spec` is the specification of an insert, over the abstract `insertAfter`, and `sublists_spec` that of
`split`.
-/

namespace FOrder.OrderMaint

/-- The address of a node. -/
abbrev Name := Nat

/-- The address of a node of the tree. -/
abbrev TlName := Nat

def maxLabel : Nat := 2 ^ 64 - 1
def nodeInterval : Nat := 2 ^ 58
def sublistSize : Nat := 64

/-- `bl_node`; its neighbours are those in the list. -/
structure BlNode where
  name : Name
  label : Nat
  deriving DecidableEq

/-- `blist`, from `head` to `tail`; `above` is the leaf it hangs from. -/
structure Blist where
  above : TlName
  heavy : Bool
  nodes : List BlNode
  deriving DecidableEq

/-- `bl_create`. -/
def Blist.create (above : TlName) : Blist := ⟨above, false, []⟩

def Blist.names (self : Blist) : List Name := self.nodes.map BlNode.name

/-- The average of two labels, with the correction for two odd ones. -/
def average (base next : Nat) : Nat :=
  if base % 2 = 1 ∧ next % 2 = 1 then base / 2 + next / 2 + 1 else base / 2 + next / 2

/-- The label in the middle; at the end of the list it is corrected once more. -/
def middle (base : Nat) : Option Nat → Nat
  | some next => average base next
  | none => (average base maxLabel + 1) % 2 ^ 64

/-- `get_new_label`: `0` when there is no room. -/
def getNewLabel (base : Nat) (next : Option Nat) : Option Nat :=
  if next.all fun label => base < label then
    let lab := if base = middle base next then 0 else middle base next
    if lab = 0 ∨ base < lab then some lab else none
  else none

/-- `bl_insert` and `insert_internal`; the result is `some none` when the insert is refused. -/
def insertAt (base n : Name) : List BlNode → Option (Option (List BlNode))
  | [] => none
  | b :: rest =>
      if b.name = base then do
        let lab ← getNewLabel b.label (rest.head?.map BlNode.label)
        if 0 < lab then
          if b.label < lab then some (some (b :: ⟨n, lab⟩ :: rest)) else none
        else some none
      else (insertAt base n rest).map fun r => r.map fun nodes => b :: nodes

def Blist.insert (self : Blist) (base n : Name) : Option (Option Blist) :=
  (insertAt base n self.nodes).map fun r => r.map fun nodes => { self with nodes := nodes }

/-- `bl_insert_initial`. -/
def Blist.insertInitial (self : Blist) (n : Name) : Option Blist :=
  if self.nodes = [] then some { self with nodes := [⟨n, 0⟩] } else none

/-- The inner loop of `split`; `prev` is the label of the node that was put in last. -/
def place (prev : Option Nat) (label : Nat) : List BlNode → Option (List BlNode)
  | [] => some []
  | b :: bs =>
      if prev.all fun l => l < label then do
        let rest ← place (some label) ((label + nodeInterval) % 2 ^ 64) bs
        some (⟨b.name, label⟩ :: rest)
      else none

/-- The outer loop of `split`: the nodes of each sublist. -/
def sublists : Nat → List BlNode → Option (List (List BlNode))
  | 0, _ => some []
  | fuel + 1, nodes =>
      if nodes = [] then some []
      else do
        let first ← place none 0 (nodes.take sublistSize)
        let rest ← sublists fuel (nodes.drop sublistSize)
        some (first :: rest)

/-! ## Labels -/

/-- Labels increase and have 64 bits. -/
structure Labelled (nodes : List BlNode) : Prop where
  increasing : nodes.Pairwise fun a b => a.label < b.label
  bounded : ∀ b ∈ nodes, b.label < 2 ^ 64

/-- The label that ends the room of a node. -/
def bound (next : Option Nat) : Nat := next.getD (2 ^ 64)

theorem average_eq (base next : Nat) : average base next = (base + next) / 2 := by
  unfold average
  split
  · omega
  · omega

/-- **The middle** is the base when the next label follows at once (and `0` at the very end); otherwise it leaves
half of the room on either side. -/
theorem middle_spec {base : Nat} {next : Option Nat} (hlt : base < bound next) (hbound : bound next ≤ 2 ^ 64) :
    (bound next = base + 1 → middle base next = base ∨ middle base next = 0) ∧
      (base + 2 ≤ bound next → base < middle base next ∧ middle base next < bound next ∧
        bound next - base ≤ 2 * (middle base next - base) + 1 ∧
        bound next - base ≤ 2 * (bound next - middle base next) + 1) := by
  cases next with
  | none =>
      have hlt : base < 2 ^ 64 := hlt
      have hmiddle : middle base none = (base + 2 ^ 64 + 1) / 2 % 2 ^ 64 := by
        show (average base (2 ^ 64 - 1) + 1) % 2 ^ 64 = _
        rw [average_eq]
        omega
      rw [hmiddle, show bound none = 2 ^ 64 from rfl]
      omega
  | some next =>
      have hlt : base < next := hlt
      rw [show middle base (some next) = average base next from rfl, average_eq,
        show bound (some next) = next from rfl]
      omega

/-- The assertion at the start of `get_new_label`. -/
theorem all_of_lt_bound {base : Nat} {next : Option Nat} (hlt : base < bound next) :
    (next.all fun label => base < label) = true := by
  cases next with
  | none => rfl
  | some next => exact decide_eq_true hlt

/-- **Refused** exactly when there is no label between. -/
theorem getNewLabel_full {base : Nat} {next : Option Nat} (hfull : bound next = base + 1)
    (hbound : bound next ≤ 2 ^ 64) : getNewLabel base next = some 0 := by
  have hlt : base < bound next := by omega
  unfold getNewLabel
  rw [if_pos (all_of_lt_bound hlt)]
  have hzero : (if base = middle base next then 0 else middle base next) = 0 := by
    rcases (middle_spec hlt hbound).1 hfull with hmid | hmid
    · rw [if_pos hmid.symm]
    · rw [hmid]
      exact ite_self 0
  rw [hzero, if_pos (Or.inl rfl)]

/-- With room the new label is the middle. -/
theorem getNewLabel_room {base : Nat} {next : Option Nat} (hroom : base + 2 ≤ bound next)
    (hbound : bound next ≤ 2 ^ 64) : getNewLabel base next = some (middle base next) := by
  have hlt : base < bound next := by omega
  obtain ⟨hmid, -⟩ := (middle_spec hlt hbound).2 hroom
  unfold getNewLabel
  rw [if_pos (all_of_lt_bound hlt), if_neg (Nat.ne_of_lt hmid), if_pos (Or.inr hmid)]

/-! ## Inserting -/

/-- The rest of a list. -/
theorem Labelled.tail {b : BlNode} {nodes : List BlNode} (h : Labelled (b :: nodes)) : Labelled nodes :=
  ⟨(List.pairwise_cons.mp h.increasing).2, fun c hc => h.bounded c (List.mem_cons_of_mem b hc)⟩

/-- A node in front of larger labels. -/
theorem labelled_cons {b : BlNode} {nodes : List BlNode} (hb : b.label < 2 ^ 64)
    (hlt : ∀ c ∈ nodes, b.label < c.label) (h : Labelled nodes) : Labelled (b :: nodes) :=
  ⟨List.pairwise_cons.mpr ⟨hlt, h.increasing⟩, List.forall_mem_cons.mpr ⟨hb, h.bounded⟩⟩

/-- The room of a node ends at the next label, which is at most `2 ^ 64`. -/
theorem Labelled.bound_head {b : BlNode} {nodes : List BlNode} (h : Labelled (b :: nodes)) :
    b.label < bound (nodes.head?.map BlNode.label) ∧ bound (nodes.head?.map BlNode.label) ≤ 2 ^ 64 := by
  cases nodes with
  | nil => exact ⟨h.bounded b List.mem_cons_self, Nat.le_refl _⟩
  | cons c rest =>
      exact ⟨(List.pairwise_cons.mp h.increasing).1 c List.mem_cons_self,
        Nat.le_of_lt (h.bounded c (List.mem_cons_of_mem b List.mem_cons_self))⟩

/-- A label below the bound is below all that follow. -/
theorem Labelled.lt_of_lt_bound {nodes : List BlNode} (h : Labelled nodes) {lab : Nat}
    (hlab : lab < bound (nodes.head?.map BlNode.label)) : ∀ c ∈ nodes, lab < c.label := by
  cases nodes with
  | nil =>
      intro c hc
      cases hc
  | cons b rest =>
      have hlab : lab < b.label := hlab
      intro c hc
      rcases List.mem_cons.mp hc with rfl | hc
      · exact hlab
      · exact Nat.lt_trans hlab ((List.pairwise_cons.mp h.increasing).1 c hc)

/-- A new node right after the first, in the middle of its room. -/
theorem insertAt_here {base n : Name} {b : BlNode} {rest : List BlNode} (h : Labelled (b :: rest))
    (hb : b.name = base) (hroom : b.label + 2 ≤ bound (rest.head?.map BlNode.label)) :
    insertAt base n (b :: rest) =
      some (some (b :: ⟨n, middle b.label (rest.head?.map BlNode.label)⟩ :: rest)) := by
  obtain ⟨hlt, hbound⟩ := h.bound_head
  obtain ⟨hmid, -⟩ := (middle_spec hlt hbound).2 hroom
  unfold insertAt
  rw [if_pos hb, getNewLabel_room hroom hbound]
  simp only [Option.bind_eq_bind, Option.bind_some]
  rw [if_pos (Nat.zero_lt_of_lt hmid), if_pos hmid]

/-- A base with no room behind it refuses. -/
theorem insertAt_full {base n : Name} {b : BlNode} {rest : List BlNode} (h : Labelled (b :: rest))
    (hb : b.name = base) (hfull : bound (rest.head?.map BlNode.label) = b.label + 1) :
    insertAt base n (b :: rest) = some none := by
  unfold insertAt
  rw [if_pos hb, getNewLabel_full hfull h.bound_head.2]
  rfl

/-- The base is further on. -/
theorem insertAt_there {base n : Name} {b : BlNode} {rest : List BlNode} (hb : b.name ≠ base) :
    insertAt base n (b :: rest) = (insertAt base n rest).map fun r => r.map fun nodes => b :: nodes := by
  conv_lhs => unfold insertAt
  rw [if_neg hb]

/-- **An insert is refused or puts the node right after its base**, and labels keep increasing. By induction on the
    list; the last clause, that no label falls below what the old ones were above, carries the induction. -/
theorem insertAt_spec {base : Name} (n : Name) {nodes : List BlNode} (h : Labelled nodes)
    (hb : base ∈ nodes.map BlNode.name) :
    insertAt base n nodes = some none ∨ ∃ nodes', insertAt base n nodes = some (some nodes') ∧
      nodes'.map BlNode.name = insertAfter base n (nodes.map BlNode.name) ∧ Labelled nodes' ∧
      ∀ lo, (∀ c ∈ nodes, lo < c.label) → ∀ c ∈ nodes', lo < c.label := by
  induction nodes with
  | nil => cases hb
  | cons b rest ih =>
      by_cases hname : b.name = base
      · obtain ⟨hlt, hbound⟩ := h.bound_head
        by_cases hfull : bound (rest.head?.map BlNode.label) = b.label + 1
        · exact Or.inl (insertAt_full h hname hfull)
        · have hroom : b.label + 2 ≤ bound (rest.head?.map BlNode.label) := by omega
          obtain ⟨hmid, hmid', -⟩ := (middle_spec hlt hbound).2 hroom
          refine Or.inr ⟨_, insertAt_here h hname hroom, ?_, ?_, ?_⟩
          · simp [insertAfter, hname]
          · apply labelled_cons (h.bounded b List.mem_cons_self)
            · intro c hc
              rcases List.mem_cons.mp hc with rfl | hc
              · exact hmid
              · exact (List.pairwise_cons.mp h.increasing).1 c hc
            · exact labelled_cons (Nat.lt_of_lt_of_le hmid' hbound) (h.tail.lt_of_lt_bound hmid') h.tail
          · intro lo hlo c hc
            have hlob := hlo b List.mem_cons_self
            rcases List.mem_cons.mp hc with rfl | hc
            · exact hlob
            · rcases List.mem_cons.mp hc with rfl | hc
              · exact Nat.lt_trans hlob hmid
              · exact hlo c (List.mem_cons_of_mem b hc)
      · have hb' : base ∈ rest.map BlNode.name := by
          rcases List.mem_cons.mp hb with heq | hb'
          · exact absurd heq.symm hname
          · exact hb'
        rw [insertAt_there hname]
        rcases ih h.tail hb' with hrefused | ⟨nodes', hnodes', hnames, hlabelled, hlow⟩
        · rw [hrefused]
          exact Or.inl rfl
        · rw [hnodes']
          refine Or.inr ⟨b :: nodes', rfl, ?_, ?_, ?_⟩
          · rw [List.map_cons, hnames, List.map_cons, insertAfter, if_neg hname]
          · apply labelled_cons (h.bounded b List.mem_cons_self)
            · exact hlow b.label (List.pairwise_cons.mp h.increasing).1
            · exact hlabelled
          · intro lo hlo c hc
            rcases List.mem_cons.mp hc with rfl | hc
            · exact hlo c List.mem_cons_self
            · exact hlow lo (fun e he => hlo e (List.mem_cons_of_mem b he)) c hc

/-! ## Splitting -/

/-- Nodes whose labels are evenly spaced, from the `i`th on. -/
def spaced (i : Nat) : List BlNode → List BlNode
  | [] => []
  | b :: bs => ⟨b.name, i * nodeInterval⟩ :: spaced (i + 1) bs

/-- Spacing keeps the nodes. -/
@[simp] theorem spaced_names (i : Nat) (nodes : List BlNode) :
    (spaced i nodes).map BlNode.name = nodes.map BlNode.name := by
  induction nodes generalizing i with
  | nil => rfl
  | cons b bs ih => simp [spaced, ih]

/-- And their number. -/
@[simp] theorem length_spaced (i : Nat) (nodes : List BlNode) : (spaced i nodes).length = nodes.length := by
  induction nodes generalizing i with
  | nil => rfl
  | cons b bs ih => simp [spaced, ih]

/-- Within a sublist the next label does not wrap around. -/
theorem wrap_label {i : Nat} (hi : i + 2 ≤ sublistSize) :
    (i * nodeInterval + nodeInterval) % 2 ^ 64 = (i + 1) * nodeInterval := by
  unfold sublistSize at hi
  unfold nodeInterval
  omega

/-- The inner loop computes the spaced labels, and its assertions hold. By induction on the nodes; the last label
    computed is not used, so it does not matter that it may wrap around. -/
theorem place_eq {prev : Option Nat} {nodes : List BlNode} {i : Nat} (hlen : i + nodes.length ≤ sublistSize)
    (hprev : ∀ l, prev = some l → l < i * nodeInterval) :
    place prev (i * nodeInterval) nodes = some (spaced i nodes) := by
  induction nodes generalizing prev i with
  | nil => rfl
  | cons b bs ih =>
      have hall : (prev.all fun l => l < i * nodeInterval) = true := by
        cases prev with
        | none => rfl
        | some l =>
            rw [Option.all_some]
            exact decide_eq_true (hprev l rfl)
      unfold place
      rw [if_pos hall]
      cases bs with
      | nil => simp [place, spaced]
      | cons c cs =>
          rw [List.length_cons] at hlen
          have hlen' : i + 1 + (c :: cs).length ≤ sublistSize := by omega
          have hi : i + 2 ≤ sublistSize := by
            rw [List.length_cons] at hlen'
            omega
          rw [wrap_label hi, ih hlen']
          · simp [spaced]
          · intro l hl
            rw [← Option.some.inj hl]
            exact Nat.mul_lt_mul_of_pos_right (Nat.lt_succ_self i) (by decide)

/-- Labels of a spaced list lie between the first one and the end of the last interval. -/
theorem mem_spaced {i : Nat} {nodes : List BlNode} {c : BlNode} (hc : c ∈ spaced i nodes) :
    i * nodeInterval ≤ c.label ∧ c.label < (i + nodes.length) * nodeInterval := by
  induction nodes generalizing i with
  | nil => cases hc
  | cons b bs ih =>
      have hpos : 0 < nodeInterval := by decide
      rcases List.mem_cons.mp hc with rfl | hc
      · exact ⟨Nat.le_refl _, Nat.mul_lt_mul_of_pos_right (by simp) hpos⟩
      · obtain ⟨hlow, hhigh⟩ := ih hc
        rw [List.length_cons]
        constructor
        · exact Nat.le_trans (Nat.mul_le_mul_right _ (Nat.le_succ i)) hlow
        · rwa [Nat.add_comm bs.length, ← Nat.add_assoc]

/-- They increase and have 64 bits. -/
theorem labelled_spaced {i : Nat} {nodes : List BlNode} (hlen : i + nodes.length ≤ sublistSize) :
    Labelled (spaced i nodes) := by
  induction nodes generalizing i with
  | nil => exact ⟨List.Pairwise.nil, fun _ hc => nomatch hc⟩
  | cons b bs ih =>
      rw [List.length_cons] at hlen
      apply labelled_cons
      · show i * nodeInterval < 2 ^ 64
        have hi : i < 64 := Nat.lt_of_lt_of_le (by omega) hlen
        unfold nodeInterval
        omega
      · intro c hc
        have hlow := (mem_spaced hc).1
        show i * nodeInterval < c.label
        unfold nodeInterval at hlow ⊢
        omega
      · exact ih (by omega)

/-- **Split** cuts the list into evenly spaced sublists of at most 64 nodes. -/
theorem sublists_spec {fuel : Nat} {nodes : List BlNode} (hfuel : nodes.length ≤ fuel) :
    ∃ subs, sublists fuel nodes = some subs ∧ (subs.flatten).map BlNode.name = nodes.map BlNode.name ∧
      (∀ sub ∈ subs, ∃ part : List BlNode, sub = spaced 0 part ∧ part ≠ [] ∧ part.length ≤ sublistSize) ∧
      subs.length = (nodes.length + 63) / 64 := by
  induction fuel generalizing nodes with
  | zero =>
      obtain rfl : nodes = [] := List.length_eq_zero_iff.mp (Nat.le_zero.mp hfuel)
      exact ⟨[], rfl, rfl, fun _ h => (List.not_mem_nil h).elim, rfl⟩
  | succ fuel ih =>
      unfold sublists
      by_cases hnil : nodes = []
      · subst hnil
        exact ⟨[], rfl, rfl, fun _ h => (List.not_mem_nil h).elim, rfl⟩
      · have hpos : 0 < nodes.length := List.length_pos_iff.mpr hnil
        have hdrop : (nodes.drop sublistSize).length ≤ fuel := by
          rw [List.length_drop]
          unfold sublistSize
          omega
        obtain ⟨subs, hsubs, hnames, hparts, hcount⟩ := ih hdrop
        have htake : (nodes.take sublistSize).length ≤ sublistSize := by
          rw [List.length_take]
          exact Nat.min_le_left _ _
        have hplace : place none 0 (nodes.take sublistSize) = some (spaced 0 (nodes.take sublistSize)) := by
          have hstart : 0 + (nodes.take sublistSize).length ≤ sublistSize := by
            rw [Nat.zero_add]
            exact htake
          have hnone : ∀ l, none = some l → l < 0 * nodeInterval := fun l hl => nomatch hl
          rw [← place_eq hstart hnone, Nat.zero_mul]
        refine ⟨spaced 0 (nodes.take sublistSize) :: subs, ?_, ?_, ?_, ?_⟩
        · rw [if_neg hnil, hplace, hsubs]
          rfl
        · rw [List.flatten_cons, List.map_append, spaced_names, hnames, ← List.map_append, List.take_append_drop]
        · have hne : nodes.take sublistSize ≠ [] := by
            intro hempty
            have hlen := congrArg List.length hempty
            rw [List.length_take, List.length_nil] at hlen
            unfold sublistSize at hlen
            omega
          exact List.forall_mem_cons.mpr ⟨⟨_, rfl, hne, htake⟩, hparts⟩
        · rw [List.length_cons, hcount, List.length_drop]
          unfold sublistSize
          omega

end FOrder.OrderMaint
