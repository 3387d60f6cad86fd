import FOrder.OrderMaint.Rebalance
import FOrder.OrderMaint.Split

/-!
# `OrderMaint.Relabel` — `om_relabel` keeps the tree well formed

The two halves of a relabel put together: the loop over the heavy leaves, and `rebalance` on what it leaves behind.
No assertion fails while there are fewer than `2 ^ 31` leaves.

`Counted` holds before, between and after the two halves: the tree is `Shaped`, low enough for the recorded height,
and its nodes have names of their own. The loop keeps it (`splitHeavy_spec`, by induction in `splitHeavies_spec`)
and leaves marks on the way to the leaves that it has split; `rebalance_spec` removes the marks. Neither half
changes the order of the nodes: the loop replaces a list by its pieces in place (`SplitInto`), and rebalancing keeps
the lists as they are.

`WellFormed` is what holds between the operations: `Counted`, no mark, labels that increase in every list, and every
node in one list only. The last section says what that means for a reader of the tree: depth, counts, marks, and the
labels of the leaves.
-/

namespace FOrder.OrderMaint

/-! ## The loop

The heavy leaves one after the other. A leaf that is still to be split has not been touched by the turns before, as
these change the leaves of their own lists and counts and marks above them. -/

/-- What holds of the tree before, between and after the two halves. -/
structure Counted (om : Om) : Prop where
  shaped : Shaped none 0 maxLevel om.root
  fits : Fits om.height om.root
  named : NamedBelow om.fresh om.root

/-- The leaves can be split: they are different unsplit leaves, with lists that are not empty. -/
structure CanSplit (om : Om) (heavy : List TlName) : Prop where
  nodup : heavy.Nodup
  leaf : ∀ x ∈ heavy, x ∈ om.root.leafNames
  nonempty : ∀ b ∈ om.root.lists, b.above ∈ heavy → b.nodes ≠ []

/-- The lists after the leaves in `heavy` have been split. -/
structure SplitInto (heavy : List TlName) (om om' : Om) : Prop where
  contents : om'.root.lists.map Blist.content = om.root.lists.flatMap (splitContent heavy)
  kept : ∀ b ∈ om.root.lists, b.above ∉ heavy → b ∈ om'.root.lists
  height : om.height ≤ om'.height

variable {om om' : Om} {heavy : List TlName} {name : TlName}

/-- One turn of the loop. -/
theorem splitHeavy_spec (h : Counted om) (hcan : CanSplit om (name :: heavy)) :
    ∃ om', splitHeavy om name = some om' ∧ Counted om' ∧ CanSplit om' heavy ∧ om.height ≤ om'.height ∧
      om.root.root.numLeaves ≤ om'.root.root.numLeaves ∧
      (∃ pieces, om'.root.lists = om.root.lists.flatMap (fun b => if b.above = name then pieces else [b]) ∧
        ∀ b ∈ om.root.lists, b.above = name → Pieces name om.fresh b pieces) := by
  obtain ⟨hnotin, hnodup⟩ := List.nodup_cons.mp hcan.nodup
  have hne : ∀ b ∈ om.root.lists, b.above = name → b.nodes ≠ [] := by
    intro b hb hab
    exact hcan.nonempty b hb (hab ▸ List.mem_cons_self)
  obtain ⟨t', k, height, fresh', hsplit, hoff⟩ :=
    splitAt_spec h.shaped (hcan.leaf name List.mem_cons_self) hne h.named
  obtain ⟨pieces, hlists, hpieces⟩ := hoff.lists
  refine ⟨⟨t', if 1 < k ∧ om.height < height then height else om.height, fresh'⟩, ?_, ?_, ?_, ?_, ?_, ?_⟩
  · unfold splitHeavy
    rw [hsplit]
    rfl
  · refine ⟨hoff.shaped, ?_, ⟨hoff.names.nodup, hoff.names.lt h.named.lt⟩⟩
    apply hoff.fits om.height _ h.fits
    · show om.height ≤ if _ then _ else _
      split
      · omega
      · omega
    · intro hk
      show height ≤ if _ then _ else _
      split
      · omega
      · omega
  · refine ⟨hnodup, ?_, ?_⟩
    · intro x hx
      apply hoff.leafNames x (hcan.leaf x (List.mem_cons_of_mem _ hx))
      rintro rfl
      exact hnotin hx
    · intro c hc hcheavy
      have hc : c ∈ t'.lists := hc
      rw [hlists] at hc
      obtain ⟨b, hb, hcb⟩ := List.mem_flatMap.mp hc
      by_cases hab : b.above = name
      · -- no piece hangs from a leaf that is still to be split
        rw [if_pos hab] at hcb
        rcases (hpieces b hb hab).above c hcb with hcname | hcfresh
        · exact absurd (hcname ▸ hcheavy) hnotin
        · have hlt := h.named.lt _ (leafNames_subset _ _ (hcan.leaf _ (List.mem_cons_of_mem _ hcheavy)))
          exact absurd hcfresh (Nat.not_le.mpr hlt)
      · rw [if_neg hab] at hcb
        obtain rfl := List.mem_singleton.mp hcb
        exact hcan.nonempty c hb (List.mem_cons_of_mem _ hcheavy)
  · show om.height ≤ if _ then _ else _
    split
    · omega
    · omega
  · show _ ≤ t'.root.numLeaves
    rw [hoff.numLeaves]
    exact Nat.le_add_right _ _
  · exact ⟨pieces, hlists, hpieces⟩

/-- **The loop** splits all heavy leaves; the induction is over them. What the first turn makes of the other lists
    is nothing, so what the later turns make of them can be said of the lists at the start. -/
theorem splitHeavies_spec (h : Counted om) (hcan : CanSplit om heavy) :
    ∃ om', heavy.foldlM splitHeavy om = some om' ∧ Counted om' ∧
      om.root.root.numLeaves ≤ om'.root.root.numLeaves ∧ SplitInto heavy om om' := by
  induction heavy generalizing om with
  | nil =>
      refine ⟨om, rfl, h, Nat.le_refl _, ?_, fun b hb _ => hb, Nat.le_refl _⟩
      have hsame : ∀ bs : List Blist, bs.map Blist.content = bs.flatMap (splitContent []) := by
        intro bs
        induction bs with
        | nil => rfl
        | cons b bs ih =>
            rw [List.map_cons, List.flatMap_cons, ih]
            unfold splitContent
            rw [if_neg List.not_mem_nil]
            rfl
      exact hsame _
  | cons name heavy ih =>
      obtain ⟨om₁, hstep, h₁, hcan₁, hheight₁, hnum₁, pieces, hlists, hpieces⟩ := splitHeavy_spec h hcan
      obtain ⟨om', hrest, h', hnum', hinto⟩ := ih h₁ hcan₁
      obtain ⟨hnotin, hnodup⟩ := List.nodup_cons.mp hcan.nodup
      refine ⟨om', ?_, h', Nat.le_trans hnum₁ hnum', ?_, ?_, Nat.le_trans hheight₁ hinto.height⟩
      · rw [List.foldlM_cons, hstep]
        exact hrest
      · rw [hinto.contents, hlists, List.flatMap_assoc]
        apply List.flatMap_congr
        intro b hb
        by_cases hab : b.above = name
        · rw [if_pos hab]
          have hp := hpieces b hb hab
          have hwhole : pieces.flatMap (splitContent heavy) = pieces.map Blist.content := by
            rw [List.map_eq_flatMap]
            apply List.flatMap_congr
            intro c hc
            unfold splitContent
            rw [if_neg]
            intro hcheavy
            rcases hp.above c hc with hcname | hcfresh
            · exact hnotin (hcname ▸ hcheavy)
            · have hlt := h.named.lt _ (leafNames_subset _ _ (hcan.leaf _ (List.mem_cons_of_mem _ hcheavy)))
              exact absurd hcfresh (Nat.not_le.mpr hlt)
          rw [hwhole, hp.content]
          unfold splitContent
          rw [if_pos (hab ▸ List.mem_cons_self)]
        · rw [if_neg hab, List.flatMap_singleton]
          unfold splitContent
          by_cases hheavy : b.above ∈ heavy
          · rw [if_pos hheavy, if_pos (List.mem_cons_of_mem _ hheavy)]
          · rw [if_neg hheavy, if_neg]
            intro hcons
            rcases List.mem_cons.mp hcons with hcons | hcons
            · exact hab hcons
            · exact hheavy hcons
      · intro b hb hnot
        have hab : b.above ≠ name := fun hab => hnot (hab ▸ List.mem_cons_self)
        apply hinto.kept b _ fun hheavy => hnot (List.mem_cons_of_mem _ hheavy)
        rw [hlists]
        refine List.mem_flatMap.mpr ⟨b, hb, ?_⟩
        rw [if_neg hab]
        exact List.mem_singleton_self b

/-! ## Well-formed structures

The invariant between operations, and that a relabel keeps it. The heights are what makes the second half go through:
the recorded height is enough for the new leaves, so the root has room whenever something is marked. -/

/-- What holds of an `om` between its operations. -/
structure WellFormed (om : Om) : Prop extends Counted om where
  unmarked : om.root.root.needsRebalance = false
  labelled : ∀ b ∈ om.root.lists, Labelled b.nodes
  distinct : om.root.names.Nodup

/-- The number of leaves after a relabel. -/
def leavesAfter (om : Om) (heavy : List TlName) : Nat := (om.root.lists.flatMap (splitContent heavy)).length

/-- Splitting keeps the nodes and their order. -/
theorem SplitInto.names (h : SplitInto heavy om om') : om'.root.names = om.root.names := by
  have hcontent : ∀ bs : List Blist, bs.flatMap Blist.names =
      (bs.map Blist.content).flatMap fun c => c.2.map BlNode.name := by
    intro bs
    rw [List.flatMap_map]
    rfl
  show om'.root.lists.flatMap Blist.names = om.root.lists.flatMap Blist.names
  rw [hcontent, h.contents, List.flatMap_assoc]
  apply List.flatMap_congr
  intro b _
  unfold splitContent
  split
  · rw [List.flatMap_map]
    show _ = b.nodes.map BlNode.name
    rw [← (parts_spec b.nodes).1, List.map_flatten, List.flatMap_def]
  · rw [List.flatMap_singleton]
    rfl

/-- Where a list comes from: it is a sublist of one that has been split, spaced anew, or an old one. -/
theorem SplitInto.origin (h : SplitInto heavy om om') {c : Blist} (hc : c ∈ om'.root.lists) :
    ∃ b ∈ om.root.lists,
      (b.above ∈ heavy ∧ c.heavy = false ∧
        ∃ part : List BlNode, c.nodes = spaced 0 part ∧ part ≠ [] ∧ part.length ≤ sublistSize) ∨
      (b.above ∉ heavy ∧ c.heavy = b.heavy ∧ c.nodes = b.nodes) := by
  have hmem : c.content ∈ om.root.lists.flatMap (splitContent heavy) := h.contents ▸ List.mem_map_of_mem hc
  obtain ⟨b, hb, hcb⟩ := List.mem_flatMap.mp hmem
  refine ⟨b, hb, ?_⟩
  unfold splitContent at hcb
  split at hcb
  · rename_i hheavy
    obtain ⟨nodes, hnodes, heq⟩ := List.mem_map.mp hcb
    obtain ⟨part, rfl, hne, hlen⟩ := (parts_spec b.nodes).2.1 nodes hnodes
    exact Or.inl ⟨hheavy, (congrArg Prod.fst heq).symm, part, (congrArg Prod.snd heq).symm, hne, hlen⟩
  · rename_i hheavy
    have heq := List.mem_singleton.mp hcb
    exact Or.inr ⟨hheavy, congrArg Prod.fst heq, congrArg Prod.snd heq⟩

/-- Labels increase in all lists, the new ones by their spacing. -/
theorem SplitInto.labelled (h : SplitInto heavy om om') (hold : ∀ b ∈ om.root.lists, Labelled b.nodes) :
    ∀ b ∈ om'.root.lists, Labelled b.nodes := by
  intro c hc
  obtain ⟨b, hb, ⟨-, -, part, hnodes, -, hlen⟩ | ⟨-, -, hnodes⟩⟩ := h.origin hc
  · rw [hnodes]
    exact labelled_spaced (by rwa [Nat.zero_add])
  · rw [hnodes]
    exact hold b hb

/-- **`om_relabel`** runs through, splits the given leaves and nothing else, and leaves a well-formed structure. If
    the root is marked after the loop, the root has room for all leaves, and `rebalance` starts there; if not,
    nothing has been split into several. -/
theorem relabel_spec (shl : Nat → Nat) (h : WellFormed om) (hcan : CanSplit om heavy)
    (htotal : leavesAfter om heavy < 2 ^ 31) :
    ∃ om', relabel shl om heavy = some om' ∧ WellFormed om' ∧ SplitInto heavy om om' := by
  obtain ⟨om₁, hloop, h₁, hnum, hinto⟩ := splitHeavies_spec h.toCounted hcan
  have hcount : om₁.root.root.numLeaves = leavesAfter om heavy := by
    rw [h₁.shaped.numLeaves]
    unfold leavesAfter
    rw [← hinto.contents, List.length_map]
    unfold Tree.lists
    rw [List.length_map]
  have hplace : Place none 0 maxLevel := ⟨rfl, rfl⟩
  have halign : Aligned 0 maxLevel := ⟨Nat.dvd_zero _, Nat.le_refl _⟩
  obtain ⟨t', fresh', hrebalance, hsettled⟩ := rebalance_spec (d := 0) shl none om₁.fresh h₁.shaped hplace halign
    h₁.fits (Nat.zero_add _) (Nat.zero_add _) (hcount ▸ htotal) (roomy_root h₁.shaped (hcount ▸ htotal))
    h₁.named
  have hinto' : SplitInto heavy om ⟨t', om₁.height, fresh'⟩ := by
    refine ⟨?_, ?_, hinto.height⟩
    · show t'.lists.map _ = _
      rw [hsettled.lists, hinto.contents]
    · intro b hb hnot
      show b ∈ t'.lists
      rw [hsettled.lists]
      exact hinto.kept b hb hnot
  refine ⟨⟨t', om₁.height, fresh'⟩, ?_, ?_, hinto'⟩
  · unfold relabel
    rw [hloop]
    simp only [Option.bind_eq_bind, Option.bind_some]
    rw [if_neg (Nat.not_lt.mpr hnum), hrebalance, Option.bind_some]
  · refine ⟨⟨hsettled.shaped, hsettled.fits, ⟨hsettled.names.nodup, hsettled.names.lt h₁.named.lt⟩⟩, hsettled.flag,
      hinto'.labelled h.labelled, ?_⟩
    rw [hinto'.names]
    exact h.distinct

/-! ## What a well-formed structure is

What the fields of the nodes say to someone who walks down the tree, read off the shape. -/

/-- All subtrees, the tree itself included. -/
def Tree.subtrees : Tree → List Tree
  | .leaf n below => [.leaf n below]
  | .node n l r => .node n l r :: (l.subtrees ++ r.subtrees)

/-- The number of edges above the deepest leaf. -/
def Tree.depth : Tree → Nat
  | .leaf _ _ => 0
  | .node _ l r => max l.depth r.depth + 1

variable {p : Option TlName} {lo k m : Nat} {t : Tree}

/-- A tree that fits is not too deep. -/
theorem Fits.depth_le (h : Fits m t) : t.depth ≤ m := by
  induction t generalizing m with
  | leaf n below => exact Nat.zero_le m
  | node n l r ihl ihr =>
      obtain ⟨j, rfl, hl, hr⟩ := h
      exact Nat.succ_le_succ (Nat.max_le.mpr ⟨ihl hl, ihr hr⟩)

/-- Below an unmarked node nothing is marked. -/
theorem Shaped.unmarked (h : Shaped p lo k t) (hflag : t.root.needsRebalance = false) :
    ∀ s ∈ t.subtrees, s.root.needsRebalance = false := by
  induction t generalizing p lo k with
  | leaf n below =>
      intro s hs
      rw [List.mem_singleton.mp hs]
      exact hflag
  | node n l r ihl ihr =>
      obtain ⟨j, rfl, hinner, hl, hr⟩ := h
      have hflags : (l.root.needsRebalance || r.root.needsRebalance) = false := hinner.flag ▸ hflag
      obtain ⟨hfl, hfr⟩ := Bool.or_eq_false_iff.mp hflags
      intro s hs
      rcases List.mem_cons.mp hs with rfl | hs
      · exact hflag
      · rcases List.mem_append.mp hs with hs | hs
        · exact ihl hl hfl s hs
        · exact ihr hr hfr s hs

/-- The leaves of an unmarked tree have not been split. -/
theorem Shaped.unsplit (h : Shaped p lo k t) (hflag : t.root.needsRebalance = false) :
    (t.leafNames = t.leaves.map fun a => a.node.name) ∧ ∀ a ∈ t.leaves, a.node.level = maxLevel := by
  induction t generalizing p lo k with
  | leaf n below =>
      cases below with
      | splitNodes ns =>
          have hmarked : n.needsRebalance = true := SplitLeaf.flag h
          cases hmarked.symm.trans hflag
      | list b =>
          refine ⟨rfl, ?_⟩
          intro a ha
          rw [List.mem_singleton.mp ha]
          exact ListLeaf.level h
  | node n l r ihl ihr =>
      obtain ⟨j, rfl, hinner, hl, hr⟩ := h
      have hflags : (l.root.needsRebalance || r.root.needsRebalance) = false := hinner.flag ▸ hflag
      obtain ⟨hfl, hfr⟩ := Bool.or_eq_false_iff.mp hflags
      obtain ⟨hnamesl, hlevell⟩ := ihl hl hfl
      obtain ⟨hnamesr, hlevelr⟩ := ihr hr hfr
      constructor
      · show l.leafNames ++ r.leafNames = (l.leaves ++ r.leaves).map _
        rw [hnamesl, hnamesr, List.map_append]
      · intro a ha
        rcases List.mem_append.mp ha with ha | ha
        · exact hlevell a ha
        · exact hlevelr a ha

/-- The counts are right everywhere. -/
theorem Shaped.counts (h : Shaped p lo k t) : ∀ s ∈ t.subtrees, s.root.numLeaves = s.leaves.length := by
  induction t generalizing p lo k with
  | leaf n below =>
      intro s hs
      rw [List.mem_singleton.mp hs]
      exact h.numLeaves
  | node n l r ihl ihr =>
      have hnum := h.numLeaves
      obtain ⟨j, rfl, -, hl, hr⟩ := h
      intro s hs
      rcases List.mem_cons.mp hs with rfl | hs
      · exact hnum
      · rcases List.mem_append.mp hs with hs | hs
        · exact ihl hl s hs
        · exact ihr hr s hs

/-- The labels of the leaves lie in the range of the subtree and increase. By induction: the left half has the
    labels below the middle. -/
theorem Shaped.labels (h : Shaped p lo k t) (hflag : t.root.needsRebalance = false) :
    (∀ a ∈ t.leaves, lo ≤ a.node.label ∧ a.node.label < lo + 2 ^ k) ∧
      (t.leaves.map fun a => a.node.label).Pairwise (· < ·) := by
  induction t generalizing p lo k with
  | leaf n below =>
      cases below with
      | list b =>
          have hlabel : n.label = lo := ListLeaf.label h
          refine ⟨?_, List.pairwise_singleton _ _⟩
          intro a ha
          rw [List.mem_singleton.mp ha]
          have hpos := Nat.two_pow_pos k
          show lo ≤ n.label ∧ n.label < lo + 2 ^ k
          omega
      | splitNodes ns =>
          have hmarked : n.needsRebalance = true := SplitLeaf.flag h
          have hflag : n.needsRebalance = false := hflag
          rw [hmarked] at hflag
          cases hflag
  | node n l r ihl ihr =>
      obtain ⟨j, rfl, hinner, hl, hr⟩ := h
      have hflags : (l.root.needsRebalance || r.root.needsRebalance) = false := hinner.flag ▸ hflag
      obtain ⟨hfl, hfr⟩ := Bool.or_eq_false_iff.mp hflags
      obtain ⟨hrangel, hincl⟩ := ihl hl hfl
      obtain ⟨hranger, hincr⟩ := ihr hr hfr
      refine ⟨?_, ?_⟩
      · intro a ha
        rw [Nat.pow_succ]
        rcases List.mem_append.mp ha with ha | ha
        · have := hrangel a ha
          omega
        · have := hranger a ha
          omega
      · show ((l.leaves ++ r.leaves).map _).Pairwise _
        rw [List.map_append]
        apply List.pairwise_append.mpr
        refine ⟨hincl, hincr, ?_⟩
        intro x hx y hy
        obtain ⟨a, ha, rfl⟩ := List.mem_map.mp hx
        obtain ⟨b, hb, rfl⟩ := List.mem_map.mp hy
        exact Nat.lt_of_lt_of_le (hrangel a ha).2 (hranger b hb).1

end FOrder.OrderMaint
