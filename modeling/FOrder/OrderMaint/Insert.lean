import FOrder.OrderMaint.Relabel

/-!
# `OrderMaint.Insert` — `om_insert` and the abstract list

An insert changes one list and nothing else of the tree. In the abstract list, which is that of all nodes from left
to right, it puts the new node right after its base, or it is refused.

The result comes in two steps. `insertIn_spec` goes down the tree by induction and finds the list of the base;
around it nothing changes (`SameTree`), so the tree stays `Shaped`. `insertAt_spec`, from `Blist`, says what happens
in the list. Both together are `insert_spec`, and `insert_lists` is the form that keeps the lists apart, for the
modules that have to know which list has changed.

The second part is the order. Each node has two labels, that of its leaf and its own, and along the abstract list
the pairs increase (`entries_sorted`): the leaves by `Shaped.labels`, and the nodes in each list by `Labelled`.
`om_precedes` compares the pairs, so it follows the abstract list (`precedes_spec`).
-/

namespace FOrder.OrderMaint

variable {p : Option TlName} {lo k : Nat} {t t' : Tree} {base n : Name}

/-! ## One list changes

Down to the leaf with the list of the base, and nothing else. -/

/-- The trees differ in nothing but the nodes of the lists. -/
structure SameTree (p : Option TlName) (lo k : Nat) (t t' : Tree) : Prop where
  root : t'.root = t.root
  shaped : Shaped p lo k t'
  tlNames : t'.tlNames = t.tlNames
  leafNames : t'.leafNames = t.leafNames
  fits : ∀ m, Fits m t → Fits m t'

/-- The list of the base, and what the insert does there. -/
structure InsertIn (p : Option TlName) (lo k : Nat) (base n : Name) (t : Tree) (pre : List Blist) (b : Blist)
    (post : List Blist) : Prop where
  lists : t.lists = pre ++ b :: post
  mem : base ∈ b.names
  first : ∀ c ∈ pre, base ∉ c.names
  refused : insertAt base n b.nodes = some none → t.insert base n = some none
  accepted : ∀ nodes, insertAt base n b.nodes = some (some nodes) →
    ∃ t', t.insert base n = some (some t') ∧ t'.lists = pre ++ { b with nodes := nodes } :: post ∧
      SameTree p lo k t t'

/-- The lists of a tree, from left to right. -/
theorem lists_node (n : TlNode) (l r : Tree) : (Tree.node n l r).lists = l.lists ++ r.lists := by
  show (l.leaves ++ r.leaves).map Leaf.list = _
  rw [List.map_append]
  rfl

/-- The nodes of a tree, from left to right. -/
theorem names_node (n : TlNode) (l r : Tree) : (Tree.node n l r).names = l.names ++ r.names := by
  show (Tree.node n l r).lists.flatMap _ = _
  rw [lists_node, List.flatMap_append]
  rfl

/-- A node is in one of the lists. -/
theorem mem_names {x : Name} : x ∈ t.names ↔ ∃ b ∈ t.lists, x ∈ b.names := List.mem_flatMap

/-- Nothing has changed. -/
theorem SameTree.refl (h : Shaped p lo k t) : SameTree p lo k t t where
  root := rfl
  shaped := h
  tlNames := rfl
  leafNames := rfl
  fits := fun _ hfits => hfits

/-- The halves are replaced by ones with the same roots. -/
theorem SameTree.node {m : TlNode} {j : Nat} {l l' r r' : Tree} (hinner : Inner p lo (j + 1) m l r)
    (hl : SameTree (some m.name) lo j l l') (hr : SameTree (some m.name) (lo + 2 ^ j) j r r') :
    SameTree p lo (j + 1) (.node m l r) (.node m l' r') where
  root := rfl
  shaped := by
    refine ⟨j, rfl, ⟨hinner.parent, hinner.label, hinner.level, ?_, ?_⟩, hl.shaped, hr.shaped⟩
    · rw [hl.root, hr.root]
      exact hinner.numLeaves
    · rw [hl.root, hr.root]
      exact hinner.flag
  tlNames := by
    show m.name :: (l'.tlNames ++ r'.tlNames) = _
    rw [hl.tlNames, hr.tlNames]
    rfl
  leafNames := by
    show l'.leafNames ++ r'.leafNames = _
    rw [hl.leafNames, hr.leafNames]
    rfl
  fits := by
    rintro i ⟨i', rfl, hfl, hfr⟩
    exact ⟨i', rfl, hl.fits i' hfl, hr.fits i' hfr⟩

/-- **An insert goes to the list of its base.** By induction on the tree; in an internal node the base is in the
    left half, or in the right half and not in the left one, as `insert` looks in the left half first. -/
theorem insertIn_spec (n : Name) (h : Shaped p lo k t) (hflag : t.root.needsRebalance = false)
    (hbase : base ∈ t.names) : ∃ pre b post, InsertIn p lo k base n t pre b post := by
  induction t generalizing p lo k with
  | leaf m below =>
      cases below with
      | splitNodes ns =>
          have hmarked : m.needsRebalance = true := SplitLeaf.flag h
          have hflag : m.needsRebalance = false := hflag
          rw [hmarked] at hflag
          cases hflag
      | list b =>
          have hleaf : ListLeaf p lo m b := h
          have hmem : base ∈ b.names := by
            obtain ⟨c, hc, hbc⟩ := mem_names.mp hbase
            rwa [List.mem_singleton.mp hc] at hbc
          have hassert : m.level = maxLevel ∧ b.above = m.name := ⟨hleaf.level, hleaf.above⟩
          refine ⟨[], b, [], rfl, hmem, fun c hc => (List.not_mem_nil hc).elim, ?_, ?_⟩
          · intro hrefused
            simp [Tree.insert, hassert, Blist.insert, hrefused]
          · intro nodes haccepted
            refine ⟨.leaf m (.list { b with nodes := nodes }), ?_, rfl, ⟨rfl, ?_, rfl, rfl, fun _ hf => hf⟩⟩
            · simp [Tree.insert, hassert, Blist.insert, haccepted]
            · exact ⟨hleaf.parent, hleaf.label, hleaf.level, hleaf.numLeaves, hleaf.flag, hleaf.above⟩
  | node m l r ihl ihr =>
      obtain ⟨j, rfl, hinner, hl, hr⟩ := h
      have hflags : (l.root.needsRebalance || r.root.needsRebalance) = false := hinner.flag ▸ hflag
      obtain ⟨hfl, hfr⟩ := Bool.or_eq_false_iff.mp hflags
      by_cases hleft : base ∈ l.names
      · obtain ⟨pre, b, post, hin⟩ := ihl hl hfl hleft
        refine ⟨pre, b, post ++ r.lists, ?_, hin.mem, hin.first, ?_, ?_⟩
        · rw [lists_node, hin.lists, List.append_assoc, List.cons_append]
        · intro hrefused
          simp [Tree.insert, hleft, hin.refused hrefused]
        · intro nodes haccepted
          obtain ⟨l', hinsert, hlists, hsame⟩ := hin.accepted nodes haccepted
          refine ⟨.node m l' r, ?_, ?_, .node hinner hsame (.refl hr)⟩
          · simp [Tree.insert, hleft, hinsert]
          · rw [lists_node, hlists, List.append_assoc, List.cons_append]
      · have hright : base ∈ r.names := by
          rw [names_node] at hbase
          exact (List.mem_append.mp hbase).resolve_left hleft
        obtain ⟨pre, b, post, hin⟩ := ihr hr hfr hright
        refine ⟨l.lists ++ pre, b, post, ?_, hin.mem, ?_, ?_, ?_⟩
        · rw [lists_node, hin.lists, List.append_assoc]
        · intro c hc
          rcases List.mem_append.mp hc with hc | hc
          · exact fun hbc => hleft (mem_names.mpr ⟨c, hc, hbc⟩)
          · exact hin.first c hc
        · intro hrefused
          simp [Tree.insert, hleft, hin.refused hrefused]
        · intro nodes haccepted
          obtain ⟨r', hinsert, hlists, hsame⟩ := hin.accepted nodes haccepted
          refine ⟨.node m l r', ?_, ?_, .node hinner (.refl hl) hsame⟩
          · simp [Tree.insert, hleft, hinsert]
          · rw [lists_node, hlists, List.append_assoc]

/-! ## The abstract list

The names of all lists, from left to right. Each name is in one list, so an insert right after the base in that list
is one right after the base in all of them. -/

variable {om om' : Om}

/-- A structure stays well formed when nothing but its lists changes. -/
theorem WellFormed.same (h : WellFormed om) (hsame : SameTree none 0 maxLevel om.root t')
    (hlabelled : ∀ b ∈ t'.lists, Labelled b.nodes) (hdistinct : t'.names.Nodup) :
    WellFormed { om with root := t' } where
  shaped := hsame.shaped
  fits := hsame.fits _ h.fits
  named := ⟨hsame.tlNames ▸ h.named.nodup, hsame.tlNames ▸ h.named.lt⟩
  unmarked := by
    show t'.root.needsRebalance = false
    rw [hsame.root]
    exact h.unmarked
  labelled := hlabelled
  distinct := hdistinct

/-- What an insert does is what it does to the list of its base. -/
theorem insert_lists (h : WellFormed om) (hbase : base ∈ om.root.names) (hnew : n ∉ om.root.names) :
    ∃ pre b post, om.root.lists = pre ++ b :: post ∧ base ∈ b.names ∧
      ((insertAt base n b.nodes = some none ∧ insert om base n = some none) ∨
        ∃ nodes om', insertAt base n b.nodes = some (some nodes) ∧ insert om base n = some (some om') ∧
          om'.root.lists = pre ++ { b with nodes := nodes } :: post ∧ WellFormed om' ∧
          om'.root.names = insertAfter base n om.root.names) := by
  obtain ⟨pre, b, post, hin⟩ := insertIn_spec n h.shaped h.unmarked hbase
  have hb : b ∈ om.root.lists := hin.lists ▸ List.mem_append_right _ List.mem_cons_self
  refine ⟨pre, b, post, hin.lists, hin.mem, ?_⟩
  rcases insertAt_spec n (h.labelled b hb) hin.mem with hrefused | ⟨nodes, haccepted, hnames, hlabelled, -⟩
  · refine Or.inl ⟨hrefused, ?_⟩
    unfold insert
    rw [hin.refused hrefused]
    rfl
  · right
    obtain ⟨t', hinsert, hlists, hsame⟩ := hin.accepted nodes haccepted
    have hnames' : t'.names = insertAfter base n om.root.names := by
      show t'.lists.flatMap _ = insertAfter base n (om.root.lists.flatMap _)
      have hpre : base ∉ pre.flatMap Blist.names := by
        intro hmem
        obtain ⟨c, hc, hbc⟩ := List.mem_flatMap.mp hmem
        exact hin.first c hc hbc
      rw [hlists, hin.lists, List.flatMap_append, List.flatMap_append, List.flatMap_cons, List.flatMap_cons,
        insertAfter_append_right hpre, insertAfter_append_left hin.mem]
      show _ ++ (nodes.map BlNode.name ++ _) = _
      rw [hnames]
      rfl
    refine ⟨nodes, { om with root := t' }, haccepted, ?_, hlists, ?_, hnames'⟩
    · unfold insert
      rw [hinsert]
      rfl
    · apply h.same hsame
      · intro c hc
        rw [hlists] at hc
        rcases List.mem_append.mp hc with hc | hc
        · exact h.labelled c (hin.lists ▸ List.mem_append_left _ hc)
        · rcases List.mem_cons.mp hc with rfl | hc
          · exact hlabelled
          · exact h.labelled c (hin.lists ▸ List.mem_append_right _ (List.mem_cons_of_mem _ hc))
      · rw [hnames']
        exact nodup_insertAfter h.distinct hbase hnew

/-- **`om_insert`** is refused, or puts the new node right after its base; it keeps the structure well formed. In
    particular no assertion fails. -/
theorem insert_spec (h : WellFormed om) (hbase : base ∈ om.root.names) (hnew : n ∉ om.root.names) :
    insert om base n = some none ∨ ∃ om', insert om base n = some (some om') ∧ WellFormed om' ∧
      om'.root.names = insertAfter base n om.root.names := by
  obtain ⟨pre, b, post, -, -, ⟨-, hrefused⟩ | ⟨nodes, om', -, haccepted, -, hwf, hnames⟩⟩ := insert_lists h hbase hnew
  · exact Or.inl hrefused
  · exact Or.inr ⟨om', haccepted, hwf, hnames⟩

/-! ## The order

`om_precedes` compares two labels of leaves, and when they are the same two labels in the list. Both steps together
are a comparison of pairs, and the pairs increase along the abstract list. -/

/-- What `om_precedes` looks at: the label of the leaf, the label in the list. -/
structure Entry where
  leafLabel : Nat
  label : Nat
  name : Name

/-- The order of the labels: first those of the leaves. -/
def Entry.lt (e f : Entry) : Prop := e.leafLabel < f.leafLabel ∨ (e.leafLabel = f.leafLabel ∧ e.label < f.label)

def Leaf.entries (a : Leaf) : List Entry := a.list.nodes.map fun b => ⟨a.node.label, b.label, b.name⟩

def Tree.entries (t : Tree) : List Entry := t.leaves.flatMap Leaf.entries

/-- The entries are those of the nodes. -/
theorem entries_names (t : Tree) : t.entries.map Entry.name = t.names := by
  show (t.leaves.flatMap Leaf.entries).map Entry.name = (t.leaves.map Leaf.list).flatMap Blist.names
  rw [List.map_flatMap, List.flatMap_map]
  apply List.flatMap_congr
  intro a _
  show (a.list.nodes.map _).map _ = _
  rw [List.map_map]
  rfl

/-- The labels increase along the abstract list. Entries of one leaf have one leaf label and increasing labels of
    their own; entries of different leaves differ in the label of the leaf. -/
theorem entries_sorted {leaves : List Leaf} (hincreasing : (leaves.map fun a => a.node.label).Pairwise (· < ·))
    (hlabelled : ∀ a ∈ leaves, Labelled a.list.nodes) : (leaves.flatMap Leaf.entries).Pairwise Entry.lt := by
  induction leaves with
  | nil => exact List.Pairwise.nil
  | cons a leaves ih =>
      obtain ⟨hfirst, hrest⟩ := List.pairwise_cons.mp hincreasing
      rw [List.flatMap_cons]
      apply List.pairwise_append.mpr
      refine ⟨?_, ih hrest fun c hc => hlabelled c (List.mem_cons_of_mem a hc), ?_⟩
      · apply List.pairwise_map.mpr
        refine (hlabelled a List.mem_cons_self).increasing.imp ?_
        intro b c hbc
        exact Or.inr ⟨rfl, hbc⟩
      · intro e he f hf
        obtain ⟨b, -, rfl⟩ := List.mem_map.mp he
        obtain ⟨c, hc, hf⟩ := List.mem_flatMap.mp hf
        obtain ⟨d, -, rfl⟩ := List.mem_map.mp hf
        exact Or.inl (hfirst c.node.label (List.mem_map_of_mem hc))

/-- An existing node is found in its leaf. -/
theorem locate_spec {x : Name} (hx : x ∈ om.root.names) :
    ∃ a b, locate om x = some (a, b) ∧ a ∈ om.root.leaves ∧ b ∈ a.list.nodes ∧ b.name = x := by
  cases hlocate : locate om x with
  | none =>
      obtain ⟨c, hc, hxc⟩ := mem_names.mp hx
      obtain ⟨a, ha, rfl⟩ := List.mem_map.mp hc
      obtain ⟨b, hb, rfl⟩ := List.mem_map.mp hxc
      have hnone := List.findSome?_eq_none_iff.mp hlocate a ha
      have hfind := List.find?_eq_none.mp (Option.map_eq_none_iff.mp hnone) b hb
      exact absurd (decide_eq_true rfl) hfind
  | some found =>
      obtain ⟨a, ha, hfind⟩ := List.exists_of_findSome?_eq_some hlocate
      obtain ⟨b, hb, rfl⟩ := Option.map_eq_some_iff.mp hfind
      refine ⟨a, b, rfl, ha, List.mem_of_find?_eq_some hb, ?_⟩
      have hname := List.find?_some hb
      exact of_decide_eq_true hname

/-- Leaves with one address are one leaf. -/
theorem leaf_unique (h : WellFormed om) {a c : Leaf} (ha : a ∈ om.root.leaves) (hc : c ∈ om.root.leaves)
    (hname : a.node.name = c.node.name) : a = c := by
  have hnodup : (om.root.leaves.map fun a => a.node.name).Nodup :=
    h.named.nodup.sublist h.shaped.leaf_names.1
  exact List.inj_on_of_nodup_map hnodup ha hc hname

/-- **`om_precedes` follows the abstract list.** With equal leaf labels the nodes are in one list, since leaves with
    one label are one leaf; so the code's comparison of two labels is `Entry.lt`, and the entries are sorted by it.
    -/
theorem precedes_spec (h : WellFormed om) {x y : Name} (hx : x ∈ om.root.names) (hy : y ∈ om.root.names) :
    ∃ answer, precedes om (some x) (some y) = some answer ∧ (answer = true ↔ Before om.root.names x y) := by
  obtain ⟨a, b, hlocx, ha, hb, rfl⟩ := locate_spec hx
  obtain ⟨c, d, hlocy, hc, hd, rfl⟩ := locate_spec hy
  obtain ⟨-, hincreasing⟩ := h.shaped.labels h.unmarked
  have hsorted : om.root.entries.Pairwise Entry.lt :=
    entries_sorted hincreasing fun a ha => h.labelled _ (List.mem_map_of_mem ha)
  have hmem : ∀ {a : Leaf} {b : BlNode}, a ∈ om.root.leaves → b ∈ a.list.nodes →
      (⟨a.node.label, b.label, b.name⟩ : Entry) ∈ om.root.entries :=
    fun ha hb => List.mem_flatMap.mpr ⟨_, ha, List.mem_map_of_mem hb⟩
  have hbefore : Before om.root.names b.name d.name ↔
      Entry.lt ⟨a.node.label, b.label, b.name⟩ ⟨c.node.label, d.label, d.name⟩ := by
    rw [← entries_names]
    have hirrefl : ∀ e, ¬Entry.lt e e := by
      rintro e (hlt | ⟨-, hlt⟩)
      · exact Nat.lt_irrefl _ hlt
      · exact Nat.lt_irrefl _ hlt
    have hasymm : ∀ e f, Entry.lt e f → ¬Entry.lt f e := by
      rintro e f (hlt | ⟨heq, hlt⟩) (hlt' | ⟨heq', hlt'⟩)
      all_goals omega
    apply before_map_iff hirrefl hasymm Entry.name hsorted _ (hmem ha hb) (hmem hc hd)
    rw [entries_names]
    exact h.distinct
  simp only [precedes, hlocx, hlocy, Option.bind_eq_bind, Option.bind_some]
  rw [hbefore]
  have habove := h.shaped.above
  by_cases hsame : a.list.above = c.list.above
  · -- both in one list
    obtain rfl : a = c := by
      apply leaf_unique h ha hc
      rw [← habove a ha, hsame, habove c hc]
    rw [if_pos rfl]
    refine ⟨_, rfl, ?_⟩
    rw [decide_eq_true_eq]
    show b.label < d.label ↔ a.node.label < a.node.label ∨ (a.node.label = a.node.label ∧ b.label < d.label)
    omega
  · rw [if_neg hsame]
    refine ⟨_, rfl, ?_⟩
    rw [decide_eq_true_eq]
    have hne : a.node.label ≠ c.node.label := by
      intro heq
      have hinj := List.inj_on_of_nodup_map hincreasing.nodup ha hc heq
      exact hsame (hinj ▸ rfl)
    show a.node.label < c.node.label ↔ a.node.label < c.node.label ∨ (a.node.label = c.node.label ∧ _)
    simp [hne]

end FOrder.OrderMaint
