import FOrder.OrderMaint.Tree

/-!
# `OrderMaint.Shape` — trees whose nodes halve the labels

A node at depth `d` stands for a range of `2 ^ (64 - d)` labels: the whole for the root, one half of its parent's
for every other node. An internal node's label is the right end of its range, a leaf's the left end. `Shaped` also
holds between the two halves of a relabel, when some leaves have been split and their nodes up to the root are
marked; `Fits` bounds what the recorded height has to be for.

The code does not store ranges. It finds the left end of a range from the label of a node and its level, with a mask
(`range_left`), and `rangeLeft_eq` proves that this is right for labels of 64 bits: the mask clears the bits below
the node's level. Everything else about labels is then arithmetic on `lo` and `2 ^ k`.

`Shaped p lo k t` is by recursion on the tree, and says for every node what its fields have to be: parent, label,
level, count of leaves, and mark. The invariant of an `om` between its operations (`WellFormed`, in `Relabel`) is
`Shaped` for the whole range, with no mark at the root.
-/

namespace FOrder.OrderMaint

/-! ## Ranges -/

/-- The mask of `range_left` clears the bits of the labels below the node. It is all ones, shifted to the left and
    then arithmetically to the right again, so the bits from `64 - level` on are set. -/
theorem getLsbD_mask {level i : Nat} (hlevel : 1 ≤ level) (hmax : level ≤ 64) (hi : i < 64) :
    ((BitVec.allOnes 64 <<< (maxLevel - 1)).sshiftRight (level - 1)).getLsbD i = decide (64 - level ≤ i) := by
  have hbits : (BitVec.allOnes 64 <<< (maxLevel - 1)).getLsbD = fun j => decide (j = 63) := by
    funext j
    rw [BitVec.getLsbD_shiftLeft, BitVec.getLsbD_allOnes]
    unfold maxLevel
    by_cases hj : j = 63
    · simp [hj]
    · simp only [hj, decide_false]
      by_cases hlt : j < 63
      · simp [hlt]
      · have : ¬ j < 64 := by omega
        simp [this]
  have hmsb : (BitVec.allOnes 64 <<< (maxLevel - 1)).msb = true := by
    decide
  rw [BitVec.getLsbD_sshiftRight, hmsb, hbits]
  by_cases hlow : level - 1 + i < 64
  · rw [if_pos hlow]
    simp only [Nat.not_le.mpr hi, decide_false, Bool.not_false, Bool.true_and]
    apply decide_eq_decide.mpr
    omega
  · rw [if_neg hlow]
    have : 64 - level ≤ i := by omega
    simp [hi, this]

/-- Clearing the low bits of a number, bit by bit. -/
theorem testBit_clear (x j i : Nat) : (x / 2 ^ j * 2 ^ j).testBit i = (decide (j ≤ i) && x.testBit i) := by
  rw [Nat.testBit_mul_two_pow, Nat.testBit_div_two_pow]
  by_cases hij : j ≤ i
  · simp [hij]
  · simp [hij]

/-- **The left end** of the range of a node is found from its label. -/
theorem rangeLeft_eq {n : TlNode} (hparent : n.parent ≠ none) (hlevel : 1 ≤ n.level) (hmax : n.level ≤ 64)
    (hlabel : n.label < 2 ^ 64) :
    rangeLeft n = n.label / 2 ^ (64 - n.level) * 2 ^ (64 - n.level) := by
  unfold rangeLeft
  rw [if_neg hparent]
  have hle : n.label / 2 ^ (64 - n.level) * 2 ^ (64 - n.level) < 2 ^ 64 :=
    Nat.lt_of_le_of_lt (Nat.div_mul_le_self _ _) hlabel
  rw [← Nat.mod_eq_of_lt hle, ← BitVec.toNat_ofNat]
  congr 1
  apply BitVec.eq_of_getLsbD_eq
  intro i hi
  rw [BitVec.getLsbD_and, getLsbD_mask hlevel hmax hi, BitVec.getLsbD_ofNat, BitVec.getLsbD_ofNat, testBit_clear]
  simp [hi]

/-- For a node whose label is the right end of an aligned range. -/
theorem rangeLeft_of_right {n : TlNode} {lo k : Nat} (hparent : n.parent ≠ none) (hlevel : n.level + k = 64)
    (hpos : 1 ≤ n.level) (hlabel : n.label = lo + 2 ^ k - 1) (halign : 2 ^ k ∣ lo) (hroom : lo + 2 ^ k ≤ 2 ^ 64) :
    rangeLeft n = lo := by
  have hpow : 0 < 2 ^ k := Nat.two_pow_pos k
  rw [rangeLeft_eq hparent hpos (by omega) (by omega), show 64 - n.level = k by omega]
  obtain ⟨c, rfl⟩ := halign
  have hdiv : n.label / 2 ^ k = c := by
    rw [hlabel, Nat.add_sub_assoc hpow, Nat.mul_add_div hpow, Nat.div_eq_of_lt (by omega), Nat.add_zero]
  rw [hdiv, Nat.mul_comm]

/-! ## Shapes -/

/-- A leaf whose list has not been split, at the left end of its range. -/
structure ListLeaf (p : Option TlName) (lo : Nat) (n : TlNode) (b : Blist) : Prop where
  parent : n.parent = p
  label : n.label = lo
  level : n.level = maxLevel
  numLeaves : n.numLeaves = 1
  flag : n.needsRebalance = false
  above : b.above = n.name

/-- A leaf that has been split into several and waits to be rebuilt. -/
structure SplitLeaf (p : Option TlName) (n : TlNode) (ns : List Leaf) : Prop where
  parent : n.parent = p
  level : n.level = maxLevel
  numLeaves : n.numLeaves = ns.length
  several : 2 ≤ ns.length
  flag : n.needsRebalance = true
  above : ∀ s ∈ ns, s.list.above = s.node.name

/-- An internal node; its range has `2 ^ k` labels. -/
structure Inner (p : Option TlName) (lo k : Nat) (n : TlNode) (l r : Tree) : Prop where
  parent : n.parent = p
  label : n.label = lo + 2 ^ k - 1
  level : n.level + k = maxLevel
  numLeaves : n.numLeaves = l.root.numLeaves + r.root.numLeaves
  flag : n.needsRebalance = (l.root.needsRebalance || r.root.needsRebalance)

/-- The subtree stands for the `2 ^ k` labels from `lo` on, and hangs from the node `p`. -/
def Shaped (p : Option TlName) (lo k : Nat) (t : Tree) : Prop :=
  match t with
  | .leaf n (.list b) => ListLeaf p lo n b
  | .leaf n (.splitNodes ns) => SplitLeaf p n ns
  | .node n l r =>
      ∃ j, k = j + 1 ∧ Inner p lo k n l r ∧ Shaped (some n.name) lo j l ∧ Shaped (some n.name) (lo + 2 ^ j) j r

/-- Were the leaves of every split put in a balanced subtree, no leaf would be deeper than `m`. -/
def Fits (m : Nat) (t : Tree) : Prop :=
  match t with
  | .leaf n _ => n.numLeaves ≤ 2 ^ m
  | .node _ l r => ∃ j, m = j + 1 ∧ Fits j l ∧ Fits j r

variable {p : Option TlName} {lo k m : Nat} {n : TlNode} {t l r : Tree}

/-- The root of a subtree hangs where the subtree does. -/
theorem Shaped.parent (h : Shaped p lo k t) : t.root.parent = p := by
  match t with
  | .leaf n (.list b) => exact ListLeaf.parent h
  | .leaf n (.splitNodes ns) => exact SplitLeaf.parent h
  | .node n l r =>
      obtain ⟨j, rfl, hinner, -⟩ := h
      exact hinner.parent

/-- More room. -/
theorem Fits.mono {m' : Nat} (h : Fits m t) (hm : m ≤ m') : Fits m' t := by
  induction t generalizing m m' with
  | leaf n below =>
      have hle : n.numLeaves ≤ 2 ^ m := h
      exact Nat.le_trans hle (Nat.pow_le_pow_right (by decide) hm)
  | node n l r ihl ihr =>
      obtain ⟨j, rfl, hl, hr⟩ := h
      obtain ⟨j', rfl⟩ : ∃ j', m' = j' + 1 := ⟨m' - 1, by omega⟩
      exact ⟨j', rfl, ihl hl (by omega), ihr hr (by omega)⟩

/-- **`num_leaves` counts the leaves.** -/
theorem Shaped.numLeaves (h : Shaped p lo k t) : t.root.numLeaves = t.leaves.length := by
  induction t generalizing p lo k with
  | leaf n below =>
      cases below with
      | list b => exact ListLeaf.numLeaves h
      | splitNodes ns => exact SplitLeaf.numLeaves h
  | node n l r ihl ihr =>
      obtain ⟨j, rfl, hinner, hl, hr⟩ := h
      show n.numLeaves = (l.leaves ++ r.leaves).length
      rw [hinner.numLeaves, ihl hl, ihr hr, List.length_append]

/-- Every subtree has a leaf. -/
theorem Shaped.numLeaves_pos (h : Shaped p lo k t) : 0 < t.root.numLeaves := by
  induction t generalizing p lo k with
  | leaf n below =>
      cases below with
      | list b =>
          show 0 < n.numLeaves
          rw [ListLeaf.numLeaves h]
          exact Nat.one_pos
      | splitNodes ns =>
          show 0 < n.numLeaves
          rw [SplitLeaf.numLeaves h]
          exact Nat.lt_of_lt_of_le Nat.two_pos (SplitLeaf.several h)
  | node n l r ihl ihr =>
      obtain ⟨j, rfl, hinner, hl, -⟩ := h
      show 0 < n.numLeaves
      rw [hinner.numLeaves]
      exact Nat.add_pos_left (ihl hl) _

/-- A marked node stands for several leaves. -/
theorem Shaped.several (h : Shaped p lo k t) (hflag : t.root.needsRebalance = true) : 2 ≤ t.root.numLeaves := by
  match t with
  | .leaf n (.list b) =>
      have hnot : n.needsRebalance = false := ListLeaf.flag h
      have hflag : n.needsRebalance = true := hflag
      rw [hnot] at hflag
      cases hflag
  | .leaf n (.splitNodes ns) =>
      show 2 ≤ n.numLeaves
      rw [SplitLeaf.numLeaves h]
      exact SplitLeaf.several h
  | .node n l r =>
      obtain ⟨j, rfl, hinner, hl, hr⟩ := h
      show 2 ≤ n.numLeaves
      rw [hinner.numLeaves]
      have hl := hl.numLeaves_pos
      have hr := hr.numLeaves_pos
      omega

/-- The split leaves of a subtree have room for each other below a balanced subtree. -/
theorem Shaped.numLeaves_le (h : Shaped p lo k t) (hfits : Fits m t) : t.root.numLeaves ≤ 2 ^ m := by
  induction t generalizing p lo k m with
  | leaf n below => exact hfits
  | node n l r ihl ihr =>
      obtain ⟨j, rfl, hinner, hl, hr⟩ := h
      obtain ⟨m, rfl, hfl, hfr⟩ := hfits
      show n.numLeaves ≤ _
      rw [hinner.numLeaves, Nat.pow_succ]
      have hl := ihl hl hfl
      have hr := ihr hr hfr
      omega

/-- Every list knows its leaf. -/
theorem Shaped.above (h : Shaped p lo k t) : ∀ s ∈ t.leaves, s.list.above = s.node.name := by
  induction t generalizing p lo k with
  | leaf n below =>
      cases below with
      | list b =>
          intro s hs
          obtain rfl : s = ⟨n, b⟩ := List.mem_singleton.mp hs
          exact ListLeaf.above h
      | splitNodes ns => exact SplitLeaf.above h
  | node n l r ihl ihr =>
      obtain ⟨j, rfl, -, hl, hr⟩ := h
      intro s hs
      rcases List.mem_append.mp hs with hs | hs
      · exact ihl hl s hs
      · exact ihr hr s hs

/-- **The array of leaves**: the assertions on its indices hold. `build_array` writes the leaves of a subtree into
    an array of `num_leaves` entries, and as the count is right (`Shaped.numLeaves`) it fills it exactly. -/
theorem buildArray_eq (h : Shaped p lo k t) : buildArray t t.root.numLeaves = some t.leaves := by
  induction t generalizing p lo k with
  | leaf n below =>
      cases below with
      | list b =>
          have hone : n.numLeaves = 1 := ListLeaf.numLeaves h
          show buildArray _ n.numLeaves = _
          simp [buildArray, hone, Tree.leaves]
      | splitNodes ns =>
          have hnum : n.numLeaves = ns.length := SplitLeaf.numLeaves h
          have htwo : 2 ≤ ns.length := SplitLeaf.several h
          have hne : ns.length ≠ 1 := by omega
          show buildArray _ n.numLeaves = _
          simp [buildArray, hnum, hne, Tree.leaves]
  | node n l r ihl ihr =>
      obtain ⟨j, rfl, hinner, hl, hr⟩ := h
      show buildArray _ n.numLeaves = _
      rw [hinner.numLeaves]
      unfold buildArray
      rw [ihl hl, Nat.add_sub_cancel_left, ihr hr]
      rfl

end FOrder.OrderMaint
