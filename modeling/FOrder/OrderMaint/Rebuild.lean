import FOrder.OrderMaint.Shape

/-!
# `OrderMaint.Rebuild` — rebuilding a subtree

`rebuild` takes the leaves of a subtree and builds a balanced one in the same range. There is a place for every leaf
as long as the range has as many labels as there are leaves; the lists stay in order, and nothing is marked
afterwards.

There are three things to keep track of, each with a structure of its own.

- The shape: `Rebuilt` says that the new subtree has its place, with the right labels, levels and counts, and
  `Halves` says it of the two halves before the node over them is made.
- The room: halving a range halves its labels, and halving the array of leaves rounds up, so `half_le` carries the
  bound from a node to its halves. At the end of the recursion one leaf has one label.
- The addresses: leaves keep theirs, internal nodes get new ones from a counter. `NamesOk` says that the addresses
  of the result are old ones or new ones between two counts, and that none comes twice; it composes along the order
  in which the code allocates.

`rebuild_recursive` is by recursion on fuel in the model, as the array gets shorter with every turn; the
specification needs as much fuel as there are leaves, and `rebuild` has that. `Place` says where a subtree hangs, so
that the code finds its range again by `range_left` of the node above.
-/

namespace FOrder.OrderMaint

/-! ## Addresses -/

/-- The addresses of all nodes of the tree, those of new leaves that are not in place yet as well. -/
def Tree.tlNames : Tree → List TlName
  | .leaf n (.list _) => [n.name]
  | .leaf n (.splitNodes ns) => n.name :: ns.map fun s => s.node.name
  | .node n l r => n.name :: (l.tlNames ++ r.tlNames)

/-- Addresses that are in use afterwards: old ones, and new ones between the two counts. -/
structure NamesOk (fresh fresh' : TlName) (old new : List TlName) : Prop where
  le : fresh ≤ fresh'
  nodup : new.Nodup
  mem : ∀ x ∈ new, x ∈ old ∨ (fresh ≤ x ∧ x < fresh')

variable {fresh fresh₁ fresh' : TlName} {old old' new new' : List TlName}

/-- Nothing new is allocated. -/
theorem NamesOk.refl (h : old.Nodup) : NamesOk fresh fresh old old :=
  ⟨Nat.le_refl fresh, h, fun _ hx => Or.inl hx⟩

/-- All addresses are below the new count. -/
theorem NamesOk.lt (h : NamesOk fresh fresh' old new) (hold : ∀ x ∈ old, x < fresh) : ∀ x ∈ new, x < fresh' := by
  intro x hx
  rcases h.mem x hx with hx | hx
  · exact Nat.lt_of_lt_of_le (hold x hx) h.le
  · exact hx.2

/-- Fewer old addresses. -/
theorem NamesOk.mono (h : NamesOk fresh fresh' old new) (hsub : ∀ x ∈ old, x ∈ old') :
    NamesOk fresh fresh' old' new :=
  ⟨h.le, h.nodup, fun x hx => (h.mem x hx).imp_left (hsub x)⟩

/-- Names are given out on the left and then on the right. -/
theorem NamesOk.append (h : NamesOk fresh fresh₁ old new) (h' : NamesOk fresh₁ fresh' old' new')
    (hdisjoint : (old ++ old').Nodup) (hold : ∀ x ∈ old ++ old', x < fresh) :
    NamesOk fresh fresh' (old ++ old') (new ++ new') where
  le := Nat.le_trans h.le h'.le
  nodup := by
    refine List.Nodup.append h.nodup h'.nodup ?_
    intro x hx hx'
    have hlt := h.lt (fun y hy => hold y (List.mem_append_left _ hy)) x hx
    rcases h'.mem x hx' with hx' | hx'
    · have hlt' := hold x (List.mem_append_right _ hx')
      rcases h.mem x hx with hx | hx
      · exact (List.disjoint_of_nodup_append hdisjoint) hx hx'
      · exact absurd hx.1 (Nat.not_le.mpr hlt')
    · exact absurd hx'.1 (Nat.not_le.mpr hlt)
  mem := by
    intro x hx
    rcases List.mem_append.mp hx with hx | hx
    · rcases h.mem x hx with hx | hx
      · exact Or.inl (List.mem_append_left _ hx)
      · exact Or.inr ⟨hx.1, Nat.lt_of_lt_of_le hx.2 h'.le⟩
    · rcases h'.mem x hx with hx | hx
      · exact Or.inl (List.mem_append_right _ hx)
      · exact Or.inr ⟨Nat.le_trans h.le hx.1, hx.2⟩

/-- A node with a name of its own in front. -/
theorem NamesOk.cons {a : TlName} (h : NamesOk fresh fresh' old new) (ha : a ∉ old) (hlt : a < fresh) :
    NamesOk fresh fresh' (a :: old) (a :: new) where
  le := h.le
  nodup := by
    refine List.nodup_cons.mpr ⟨?_, h.nodup⟩
    intro hmem
    rcases h.mem a hmem with hmem | hmem
    · exact ha hmem
    · exact absurd hlt (Nat.not_lt.mpr hmem.1)
  mem := by
    intro x hx
    rcases List.mem_cons.mp hx with rfl | hx
    · exact Or.inl List.mem_cons_self
    · exact (h.mem x hx).imp_left (List.mem_cons_of_mem a)

/-- A node with a new name in front. -/
theorem NamesOk.alloc (h : NamesOk (fresh + 1) fresh' old new) (hold : ∀ x ∈ old, x < fresh) :
    NamesOk fresh fresh' old (fresh :: new) where
  le := Nat.le_of_succ_le h.le
  nodup := by
    refine List.nodup_cons.mpr ⟨?_, h.nodup⟩
    intro hmem
    rcases h.mem fresh hmem with hmem | hmem
    · exact absurd (hold fresh hmem) (Nat.lt_irrefl fresh)
    · exact absurd hmem.1 (Nat.not_succ_le_self fresh)
  mem := by
    intro x hx
    rcases List.mem_cons.mp hx with rfl | hx
    · exact Or.inr ⟨Nat.le_refl x, h.le⟩
    · exact (h.mem x hx).imp_right fun hx => ⟨Nat.le_of_succ_le hx.1, hx.2⟩

/-! ## Building a subtree

The recursion that halves the array and the range. It is given an array of leaves that has come from the old subtree,
so the lists are in order in it and the leaves have names of their own. -/

/-- What a rebuilt subtree is: it has its place, nothing is marked, the lists are those of the array, it is
balanced, and its nodes have names of their own. -/
structure Rebuilt (p : Option TlName) (lo k : Nat) (fresh fresh' : TlName) (array : List Leaf) (t : Tree) :
    Prop where
  shaped : Shaped p lo k t
  flag : t.root.needsRebalance = false
  numLeaves : t.root.numLeaves = array.length
  lists : t.lists = array.map Leaf.list
  fits : ∀ m, array.length ≤ 2 ^ m → Fits m t
  names : NamesOk fresh fresh' (array.map fun a => a.node.name) t.tlNames

/-- Halving the array halves the room it needs. -/
theorem half_le {size j : Nat} (h : size ≤ 2 ^ (j + 1)) : size - size / 2 ≤ 2 ^ j ∧ size / 2 ≤ 2 ^ j := by
  rw [Nat.pow_succ] at h
  omega

/-- The end of the left half of a range. -/
theorem mid_label (lo j : Nat) :
    lo + ((lo + 2 ^ (j + 1) - 1 - lo) / 2 + 1) - 1 = lo + 2 ^ j - 1 := by
  have hpos := Nat.two_pow_pos j
  rw [Nat.pow_succ]
  omega

/-- The array of a subtree: the leaves know their lists, and have different names. -/
structure ArrayOk (fresh : TlName) (array : List Leaf) : Prop where
  above : ∀ a ∈ array, a.list.above = a.node.name
  nodup : (array.map fun a => a.node.name).Nodup
  lt : ∀ x ∈ array.map fun a => a.node.name, x < fresh

/-- A part of the array. -/
theorem ArrayOk.sublist {array array' : List Leaf} (h : ArrayOk fresh array) (hsub : array'.Sublist array)
    (hle : fresh ≤ fresh') : ArrayOk fresh' array' where
  above := fun a ha => h.above a (hsub.subset ha)
  nodup := h.nodup.sublist (hsub.map _)
  lt := fun x hx => Nat.lt_of_lt_of_le (h.lt x ((hsub.map _).subset hx)) hle

/-- Two halves that make a subtree below the node `n`. -/
structure Halves (n : TlNode) (lo j : Nat) (fresh fresh' : TlName) (array : List Leaf) (l r : Tree) : Prop where
  left : Shaped (some n.name) lo j l
  right : Shaped (some n.name) (lo + 2 ^ j) j r
  flags : l.root.needsRebalance = false ∧ r.root.needsRebalance = false
  numLeaves : array.length = l.root.numLeaves + r.root.numLeaves
  lists : l.lists ++ r.lists = array.map Leaf.list
  fits : ∀ m, array.length ≤ 2 ^ m → ∃ i, m = i + 1 ∧ Fits i l ∧ Fits i r
  names : NamesOk fresh fresh' (array.map fun a => a.node.name) (l.tlNames ++ r.tlNames)

/-- `build` is right for every array that has room in half of the range. -/
def BuildsHalf (build : List Leaf → Nat → Nat → TlName → Option (Tree × TlName)) (n : TlNode) (size j : Nat) : Prop :=
  ∀ (array : List Leaf) (lo : Nat) (fresh : TlName), array ≠ [] → array.length ≤ 2 ^ j → array.length < size →
    2 ^ j ∣ lo → ArrayOk fresh array →
    ∃ t fresh', build array lo (lo + 2 ^ j - 1) fresh = some (t, fresh') ∧
      Rebuilt (some n.name) lo j fresh fresh' array t

/-- **Halving.** The array is cut in the middle, and each half gets one half of the range, from the left. -/
theorem rebuildHalves_spec {build : List Leaf → Nat → Nat → TlName → Option (Tree × TlName)} {n : TlNode}
    {array : List Leaf} {lo j : Nat} (fresh : TlName) (hbuild : BuildsHalf build n array.length j)
    (htwo : 2 ≤ array.length) (hroom : array.length ≤ 2 ^ (j + 1)) (halign : 2 ^ (j + 1) ∣ lo)
    (hok : ArrayOk fresh array) :
    ∃ l r fresh', rebuildHalves build array lo (lo + 2 ^ (j + 1) - 1) fresh = some (l, r, fresh') ∧
      Halves n lo j fresh fresh' array l r := by
  have hsplit := List.take_append_drop (array.length - array.length / 2) array
  have htake : (array.take (array.length - array.length / 2)).length = array.length - array.length / 2 := by
    rw [List.length_take]
    omega
  have hdrop : (array.drop (array.length - array.length / 2)).length = array.length / 2 := by
    rw [List.length_drop]
    omega
  obtain ⟨hleft, hright⟩ := half_le hroom
  have halignl : 2 ^ j ∣ lo := Nat.dvd_trans (Nat.pow_dvd_pow 2 (Nat.le_succ j)) halign
  have halignr : 2 ^ j ∣ lo + 2 ^ j := Nat.dvd_add halignl (Nat.dvd_refl _)
  obtain ⟨l, fresh₁, hbl, hl⟩ := hbuild (array.take (array.length - array.length / 2)) lo fresh
    (List.ne_nil_of_length_pos (by omega)) (by omega) (by omega) halignl
    (hok.sublist (List.take_sublist _ _) (Nat.le_refl _))
  obtain ⟨r, fresh', hbr, hr⟩ := hbuild (array.drop (array.length - array.length / 2)) (lo + 2 ^ j) fresh₁
    (List.ne_nil_of_length_pos (by omega)) (by omega) (by omega) halignr
    (hok.sublist (List.drop_sublist _ _) hl.names.le)
  refine ⟨l, r, fresh', ?_, hl.shaped, hr.shaped, ⟨hl.flag, hr.flag⟩, ?_, ?_, ?_, ?_⟩
  · have hpos := Nat.two_pow_pos j
    have hmid : lo + 2 ^ j - 1 + 1 = lo + 2 ^ j := by omega
    have hend : lo + 2 ^ j + 2 ^ j - 1 = lo + 2 ^ (j + 1) - 1 := by
      rw [Nat.pow_succ]
      omega
    rw [hend] at hbr
    unfold rebuildHalves
    simp only [mid_label, hmid, hbl, hbr, Option.bind_eq_bind, Option.bind_some]
  · rw [hl.numLeaves, hr.numLeaves, ← List.length_append, hsplit]
  · rw [hl.lists, hr.lists, ← List.map_append, hsplit]
  · intro m hm
    have hm0 : m ≠ 0 := by
      rintro rfl
      have : array.length ≤ 1 := hm
      omega
    obtain ⟨i, rfl⟩ := Nat.exists_eq_succ_of_ne_zero hm0
    obtain ⟨hleft, hright⟩ := half_le hm
    exact ⟨i, rfl, hl.fits i (by omega), hr.fits i (by omega)⟩
  · have hnames : (array.take (array.length - array.length / 2)).map (fun a => a.node.name) ++
        (array.drop (array.length - array.length / 2)).map (fun a => a.node.name) =
        array.map fun a => a.node.name := by
      rw [← List.map_append, hsplit]
    rw [← hnames]
    apply hl.names.append hr.names
    · rw [hnames]
      exact hok.nodup
    · rw [hnames]
      exact hok.lt

/-- The node over two halves. -/
theorem Halves.shaped {n : TlNode} {p : Option TlName} {lo j : Nat} {array : List Leaf} {l r : Tree}
    (h : Halves n lo j fresh fresh' array l r) (hparent : n.parent = p) (hlabel : n.label = lo + 2 ^ (j + 1) - 1)
    (hlevel : n.level + (j + 1) = maxLevel) (hnum : n.numLeaves = array.length) (hflag : n.needsRebalance = false) :
    Shaped p lo (j + 1) (.node n l r) := by
  refine ⟨j, rfl, ⟨hparent, hlabel, hlevel, ?_, ?_⟩, h.left, h.right⟩
  · rw [hnum, h.numLeaves]
  · rw [hflag, h.flags.1, h.flags.2]
    rfl

/-- The lists of the halves are those of the array. -/
theorem Halves.lists_node {n : TlNode} {lo j : Nat} {array : List Leaf} {l r : Tree}
    (h : Halves n lo j fresh fresh' array l r) : (Tree.node n l r).lists = array.map Leaf.list := by
  rw [← h.lists]
  exact List.map_append

/-- The right end of an aligned range of more than one label is odd. -/
theorem right_odd {lo j : Nat} (halign : 2 ^ (j + 1) ∣ lo) : (lo + 2 ^ (j + 1) - 1) % 2 = 1 := by
  obtain ⟨c, rfl⟩ := halign
  have hpos := Nat.two_pow_pos j
  rw [Nat.pow_succ, Nat.mul_right_comm, Nat.mul_comm _ 2, Nat.mul_comm _ 2]
  omega

/-- **`rebuild_recursive`** builds the subtree when the range has a label for every leaf. By induction on the fuel:
    a single leaf takes the left end of the range, and two leaves or more are cut in half, in a range of two labels
    or more. -/
theorem rebuildRecursive_spec {fuel : Nat} {parent : TlNode} {array : List Leaf} {lo k : Nat} {fresh : TlName}
    (hfuel : array.length ≤ fuel) (hne : array ≠ []) (hroom : array.length ≤ 2 ^ k)
    (hlevel : parent.level + 1 + k = maxLevel) (halign : 2 ^ k ∣ lo) (hok : ArrayOk fresh array) :
    ∃ t fresh', rebuildRecursive fuel parent array lo (lo + 2 ^ k - 1) fresh = some (t, fresh') ∧
      Rebuilt (some parent.name) lo k fresh fresh' array t := by
  induction fuel generalizing parent array lo k fresh with
  | zero => exact absurd (List.length_eq_zero_iff.mp (Nat.le_zero.mp hfuel)) hne
  | succ fuel ih =>
      have hpos := Nat.two_pow_pos k
      have hle : lo ≤ lo + 2 ^ k - 1 := by omega
      match array, hne with
      | [a], _ =>
          refine ⟨.leaf ⟨a.node.name, some parent.name, lo, maxLevel, 1, false⟩ (.list a.list), fresh, ?_, ?_⟩
          · unfold rebuildRecursive
            rw [if_pos hle]
          · exact ⟨⟨rfl, rfl, rfl, rfl, rfl, hok.above a List.mem_cons_self⟩, rfl, rfl, rfl, fun m hm => hm,
              NamesOk.refl hok.nodup⟩
      | a :: b :: rest, _ =>
          have htwo : 2 ≤ (a :: b :: rest).length := by simp
          have hk0 : k ≠ 0 := by
            rintro rfl
            have : (a :: b :: rest).length ≤ 1 := hroom
            omega
          obtain ⟨j, rfl⟩ := Nat.exists_eq_succ_of_ne_zero hk0
          let n : TlNode := ⟨fresh, some parent.name, lo + 2 ^ (j + 1) - 1, parent.level + 1,
            (a :: b :: rest).length, false⟩
          have hbuild : BuildsHalf (rebuildRecursive fuel n) n (a :: b :: rest).length j := by
            intro array' lo' fresh₁ hne' hroom' hlt' halign' hok'
            refine ih (by omega) hne' hroom' ?_ halign' hok'
            show parent.level + 1 + 1 + j = maxLevel
            omega
          obtain ⟨l, r, fresh', hhalves, h⟩ := rebuildHalves_spec (fresh + 1) hbuild htwo hroom halign
            (hok.sublist (List.Sublist.refl _) (Nat.le_succ fresh))
          refine ⟨.node n l r, fresh', ?_, ?_⟩
          · unfold rebuildRecursive
            rw [if_pos hle]
            show (rebuildHalves (rebuildRecursive fuel n) (a :: b :: rest) lo (lo + 2 ^ (j + 1) - 1)
              (fresh + 1)).bind _ = _
            rw [hhalves, Option.bind_some]
            exact if_pos (right_odd halign)
          · refine ⟨h.shaped rfl rfl hlevel rfl rfl, rfl, rfl, h.lists_node, h.fits, ?_⟩
            exact h.names.alloc hok.lt

/-! ## Rebuilding a subtree in its place

`rebuild` keeps the root of the subtree and gives it new halves. The range of the root is not stored: `range_left`
finds its left end again, from the label and the level. A leaf that has been split first gets the label and the level
of its place, from the node above. -/

/-- Where a subtree hangs: it is the whole tree, or one half of the range of the node above. -/
def Place (up : Option (TlNode × Bool)) (lo k : Nat) : Prop :=
  match up with
  | none => lo = 0 ∧ k = maxLevel
  | some (p, isRight) =>
      ∃ plo, lo = (if isRight then plo + 2 ^ k else plo) ∧ p.label = plo + 2 ^ (k + 1) - 1 ∧
        p.level + (k + 1) = maxLevel ∧ rangeLeft p = plo

/-- The name of the node above. -/
abbrev upName (up : Option (TlNode × Bool)) : Option TlName := up.map fun p => p.1.name

/-- The range is one the tree can come to by halving. -/
structure Aligned (lo k : Nat) : Prop where
  dvd : 2 ^ k ∣ lo
  le : lo + 2 ^ k ≤ 2 ^ 64

/-- The left half of an aligned range. -/
theorem Aligned.left {lo j : Nat} (h : Aligned lo (j + 1)) : Aligned lo j where
  dvd := Nat.dvd_trans (Nat.pow_dvd_pow 2 (Nat.le_succ j)) h.dvd
  le := by
    have hle := h.le
    rw [Nat.pow_succ] at hle
    omega

/-- The right half. -/
theorem Aligned.right {lo j : Nat} (h : Aligned lo (j + 1)) : Aligned (lo + 2 ^ j) j where
  dvd := Nat.dvd_add h.left.dvd (Nat.dvd_refl _)
  le := by
    have hle := h.le
    rw [Nat.pow_succ] at hle
    omega

/-- The left end of an internal node's range is found again. -/
theorem rangeLeft_place {up : Option (TlNode × Bool)} {lo k : Nat} {n : TlNode} (hplace : Place up lo k)
    (halign : Aligned lo k) (hparent : n.parent = upName up) (hlabel : n.label = lo + 2 ^ k - 1)
    (hlevel : n.level + k = maxLevel) : rangeLeft n = lo := by
  match up with
  | none =>
      have hnone : n.parent = none := hparent
      unfold rangeLeft
      rw [if_pos hnone]
      exact hplace.1.symm
  | some (p, isRight) =>
      obtain ⟨plo, -, -, hplevel, -⟩ := hplace
      have hsome : n.parent ≠ none := by
        rw [hparent]
        simp
      have hpos : 1 ≤ n.level := by omega
      exact rangeLeft_of_right hsome hlevel hpos hlabel halign.dvd halign.le

/-- A leaf that becomes an internal node gets the label and the level of its place. -/
theorem internalNode_place {up : Option (TlNode × Bool)} {lo k : Nat} (n : TlNode) (hplace : Place up lo k) :
    (internalNode up n).label = lo + 2 ^ k - 1 ∧ (internalNode up n).level + k = maxLevel := by
  match up with
  | none =>
      obtain ⟨rfl, rfl⟩ := hplace
      exact ⟨rfl, rfl⟩
  | some (p, isRight) =>
      obtain ⟨plo, hlo, hlabel, hlevel, hleft⟩ := hplace
      have hpos := Nat.two_pow_pos k
      rw [Nat.pow_succ] at hlabel
      refine ⟨?_, ?_⟩
      · show (if isRight then p.label else (p.label - rangeLeft p) / 2 + rangeLeft p) = _
        cases isRight with
        | true =>
            have hlo : lo = plo + 2 ^ k := hlo
            rw [if_pos rfl, hlabel, hlo]
            omega
        | false =>
            have hlo : lo = plo := hlo
            rw [if_neg (by simp), hleft, hlabel, hlo]
            omega
      · show p.level + 1 + k = maxLevel
        omega

/-- The rest of the node stays. -/
theorem internalNode_fields (up : Option (TlNode × Bool)) (n : TlNode) :
    (internalNode up n).name = n.name ∧ (internalNode up n).parent = n.parent ∧
      (internalNode up n).numLeaves = n.numLeaves ∧
      (internalNode up n).needsRebalance = n.needsRebalance := by
  match up with
  | none => exact ⟨rfl, rfl, rfl, rfl⟩
  | some (p, isRight) => exact ⟨rfl, rfl, rfl, rfl⟩

/-- The tree with the mark of its root removed. -/
def Tree.clear : Tree → Tree
  | .leaf n below => .leaf { n with needsRebalance := false } below
  | .node n l r => .node { n with needsRebalance := false } l r

/-- The root that `rebuild` starts from has the label and the level of its place, whether it is a leaf or an
    internal node. -/
theorem Shaped.rootNode {up : Option (TlNode × Bool)} {lo k : Nat} {t : Tree} (h : Shaped (upName up) lo k t)
    (hplace : Place up lo k) :
    (t.clear.rootNode up).parent = upName up ∧ (t.clear.rootNode up).label = lo + 2 ^ k - 1 ∧
      (t.clear.rootNode up).level + k = maxLevel ∧ (t.clear.rootNode up).numLeaves = t.leaves.length ∧
      (t.clear.rootNode up).needsRebalance = false ∧ (t.clear.rootNode up).name = t.root.name := by
  have hparent := h.parent
  have hnum := h.numLeaves
  match t with
  | .leaf n below =>
      obtain ⟨hname, hparent', hnum', hflag⟩ := internalNode_fields up { n with needsRebalance := false }
      obtain ⟨hlabel, hlevel⟩ := internalNode_place { n with needsRebalance := false } hplace
      exact ⟨hparent'.trans hparent, hlabel, hlevel, hnum'.trans hnum, hflag, hname⟩
  | .node n l r =>
      obtain ⟨j, rfl, hinner, -⟩ := h
      exact ⟨hparent, hinner.label, hinner.level, hnum, rfl, rfl⟩

/-- The array of the leaves does not look at the mark of the root. -/
theorem buildArray_clear (h : Shaped p lo k t) (hflag : t.root.needsRebalance = true) :
    buildArray t.clear t.clear.root.numLeaves = some t.leaves := by
  have hbuild := buildArray_eq h
  match t with
  | .leaf n (.list b) =>
      have hnot : n.needsRebalance = false := ListLeaf.flag h
      have hflag : n.needsRebalance = true := hflag
      rw [hnot] at hflag
      cases hflag
  | .leaf n (.splitNodes ns) => exact hbuild
  | .node n l r => exact hbuild

/-- The leaves are among the nodes; under a marked root they are other nodes. -/
theorem Shaped.leaf_names (h : Shaped p lo k t) :
    (t.leaves.map fun a => a.node.name).Sublist t.tlNames ∧ (t.root.needsRebalance = true →
      ∃ rest, t.tlNames = t.root.name :: rest ∧ (t.leaves.map fun a => a.node.name).Sublist rest) := by
  induction t generalizing p lo k with
  | leaf n below =>
      cases below with
      | list b =>
          refine ⟨List.Sublist.refl _, ?_⟩
          intro hflag
          have hnot : n.needsRebalance = false := ListLeaf.flag h
          have hflag : n.needsRebalance = true := hflag
          rw [hnot] at hflag
          cases hflag
      | splitNodes ns => exact ⟨List.sublist_cons_self _ _, fun _ => ⟨_, rfl, List.Sublist.refl _⟩⟩
  | node n l r ihl ihr =>
      obtain ⟨j, rfl, -, hl, hr⟩ := h
      have hsub : ((Tree.node n l r).leaves.map fun a => a.node.name).Sublist (l.tlNames ++ r.tlNames) := by
        show ((l.leaves ++ r.leaves).map _).Sublist _
        rw [List.map_append]
        exact (ihl hl).1.append (ihr hr).1
      exact ⟨hsub.trans (List.sublist_cons_self _ _), fun _ => ⟨_, rfl, hsub⟩⟩

/-- What a subtree is after the relabel has been through it. -/
structure Settled (up : Option (TlNode × Bool)) (lo k m : Nat) (fresh fresh' : TlName) (t t' : Tree) : Prop where
  shaped : Shaped (upName up) lo k t'
  flag : t'.root.needsRebalance = false
  name : t'.root.name = t.root.name
  numLeaves : t'.root.numLeaves = t.root.numLeaves
  lists : t'.lists = t.lists
  fits : Fits m t'
  names : NamesOk fresh fresh' t.tlNames t'.tlNames

/-- The nodes of a subtree have names of their own. -/
structure NamedBelow (fresh : TlName) (t : Tree) : Prop where
  nodup : t.tlNames.Nodup
  lt : ∀ x ∈ t.tlNames, x < fresh

/-- The left half has names of its own. -/
theorem NamedBelow.left {n : TlNode} {l r : Tree} {fresh : TlName} (h : NamedBelow fresh (.node n l r)) :
    NamedBelow fresh l where
  nodup := (List.nodup_append.mp (List.nodup_cons.mp h.nodup).2).1
  lt := fun x hx => h.lt x (List.mem_cons_of_mem _ (List.mem_append_left _ hx))

/-- So has the right half, also when some have been given out meanwhile. -/
theorem NamedBelow.right {n : TlNode} {l r : Tree} {fresh fresh' : TlName} (h : NamedBelow fresh (.node n l r))
    (hle : fresh ≤ fresh') : NamedBelow fresh' r where
  nodup := (List.nodup_append.mp (List.nodup_cons.mp h.nodup).2).2.1
  lt := fun x hx => Nat.lt_of_lt_of_le (h.lt x (List.mem_cons_of_mem _ (List.mem_append_right _ hx))) hle

/-- **`rebuild`** puts a marked subtree in order when its range has a label for every leaf. A marked subtree has two
    leaves or more (`Shaped.several`), so it is cut into halves at once, and its root stays the node that it was. -/
theorem rebuild_spec {up : Option (TlNode × Bool)} {lo k m : Nat} {t : Tree} {fresh : TlName}
    (h : Shaped (upName up) lo k t) (hplace : Place up lo k) (halign : Aligned lo k)
    (hflag : t.root.needsRebalance = true) (hroom : t.root.numLeaves ≤ 2 ^ k) (hfits : Fits m t)
    (hnamed : NamedBelow fresh t) :
    ∃ t' fresh', rebuild up t.clear fresh = some (t', fresh') ∧ Settled up lo k m fresh fresh' t t' := by
  obtain ⟨hparent, hlabel, hlevel, hnum, hcleared, hname⟩ := h.rootNode hplace
  obtain ⟨rest, hrest, hsub⟩ := h.leaf_names.2 hflag
  have htwo := h.several hflag
  rw [h.numLeaves] at htwo hroom
  have hk0 : k ≠ 0 := by
    rintro rfl
    have : t.leaves.length ≤ 1 := hroom
    omega
  obtain ⟨j, rfl⟩ := Nat.exists_eq_succ_of_ne_zero hk0
  have hnodup := List.nodup_cons.mp (hrest ▸ hnamed.nodup)
  have hltRest : ∀ x ∈ rest, x < fresh := fun x hx => hnamed.lt x (hrest ▸ List.mem_cons_of_mem _ hx)
  have hok : ArrayOk fresh t.leaves :=
    ⟨h.above, hnodup.2.sublist hsub, fun x hx => hltRest x (hsub.subset hx)⟩
  have hbuild : BuildsHalf (rebuildRecursive t.leaves.length (t.clear.rootNode up)) (t.clear.rootNode up)
      t.leaves.length j := by
    intro array' lo' fresh₁ hne' hroom' hlt' halign' hok'
    exact rebuildRecursive_spec (Nat.le_of_lt hlt') hne' hroom' (by omega) halign' hok'
  obtain ⟨l, r, fresh', hhalves, hh⟩ := rebuildHalves_spec fresh hbuild htwo hroom halign.dvd hok
  refine ⟨.node (t.clear.rootNode up) l r, fresh', ?_, ?_⟩
  · have hroot : t.clear.root.parent = upName up := by
      have hp := h.parent
      cases t with
      | leaf n below => exact hp
      | node n l r => exact hp
    unfold rebuild
    rw [if_pos hroot, buildArray_clear h hflag, Option.bind_eq_bind, Option.bind_some]
    simp only []
    rw [hlabel, if_pos (right_odd halign.dvd), rangeLeft_place hplace halign hparent hlabel hlevel, hhalves]
    rfl
  · refine ⟨hh.shaped hparent hlabel hlevel hnum hcleared, hcleared, hname, ?_, hh.lists_node, ?_, ?_⟩
    · show (t.clear.rootNode up).numLeaves = _
      rw [hnum, h.numLeaves]
    · exact hh.fits m (h.numLeaves ▸ h.numLeaves_le hfits)
    · show NamesOk fresh fresh' t.tlNames ((t.clear.rootNode up).name :: (l.tlNames ++ r.tlNames))
      rw [hname, hrest]
      have hnames := hh.names.mono fun x hx => hsub.subset hx
      exact hnames.cons hnodup.1 (hnamed.lt _ (hrest ▸ List.mem_cons_self))

end FOrder.OrderMaint
