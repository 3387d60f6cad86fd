import FOrder.Lib.SeriesParallel
import FOrder.Rdtool.SearchExact

/-!
# `Rdtool.GroupMerge` — combined groups can be searched again

`group_merge` keeps one of two `desc` fields by a comparison that only looks one way, and `merge_group_single` moves
a `desc` when it is before the new node in the hebrew order. In the orders of a series-parallel dag both keep what
the binary search relies on: a strand on the left of an entry and before a later one is before the `desc`.

`Good` is this property of a group, and `DescAfter` what a merge needs besides: each `desc` is after its entry in
both orders, or the entry itself. The argument is about the shape of the dag. When the `desc` that is kept did not
serve a strand that the other one served, the strand, the common entry and the two `desc`s would lie in the shape of
an `N` (`precedes_pickNode`), and a series-parallel dag has none (`Lib.SeriesParallel`). Without `DescAfter` it can
go wrong (`merge_keeps_right_desc`).

The last section reads the answers of a search off the groups that were combined: `Combined` is what the code can
make of the strands of a dag, and `search_combined` says that a search in such a group asks for a path.
-/

namespace FOrder

/-- `om_precedes` in the two orders of the dag. -/
def SpDag.precE (d : SpDag Nat) (x y : Nat) : Bool := decide (Before d.english x y)

def SpDag.precH (d : SpDag Nat) (x y : Nat) : Bool := decide (Before d.hebrew x y)

/-- `x` is before `y` in both orders. -/
def SpDag.Precedes (d : SpDag Nat) (x y : Nat) : Prop := Both d.english d.hebrew x y

/-- `x` is parallel to `y`, on its left. -/
def SpDag.LeftOf (d : SpDag Nat) (x y : Nat) : Prop := Before d.english x y ∧ Before d.hebrew y x

instance (d : SpDag Nat) (x y : Nat) : Decidable (d.Precedes x y) := inferInstanceAs (Decidable (Both _ _ x y))

instance (d : SpDag Nat) (x y : Nat) : Decidable (d.LeftOf x y) := inferInstanceAs (Decidable (_ ∧ _))

end FOrder

namespace FOrder.Rdtool

/-- A group of strands of the dag: sorted in the english order, each `desc` names an entry at its own place or
behind it, and a strand on the left of an entry `m` and before an entry that `m` is before is before `m.desc`. -/
structure Good (d : SpDag OmNode) (group : List Node) : Prop where
  mem : ∀ m ∈ group, m.cnode ∈ d.english
  sorted : group.Pairwise fun m n => Before d.english m.cnode n.cnode
  desc : ∀ m ∈ group, ∃ n ∈ group, m.desc = n.cnode ∧ (n.cnode = m.cnode ∨ Before d.english m.cnode n.cnode)
  cover : ∀ m ∈ group, ∀ n ∈ group, d.Precedes m.cnode n.cnode → ∀ q ∈ d.english, d.Precedes q n.cnode →
    d.LeftOf q m.cnode → d.Precedes q m.desc

/-- Each `desc` is the entry's own node or after it in both orders. -/
def DescAfter (d : SpDag OmNode) (group : List Node) : Prop :=
  ∀ m ∈ group, m.desc = m.cnode ∨ d.Precedes m.cnode m.desc

/-- The nodes of a group. -/
def cnodes (group : List Node) : List OmNode := group.map Node.cnode

/-- An entry of `g₁` that is before an entry of `g₂` occurs in `g₂` too. -/
def SharedBefore (d : SpDag OmNode) (g₁ g₂ : List Node) : Prop :=
  ∀ m ∈ g₁, ∀ n ∈ g₂, d.Precedes m.cnode n.cnode → m.cnode ∈ cnodes g₂

instance (d : SpDag OmNode) (g₁ g₂ : List Node) : Decidable (SharedBefore d g₁ g₂) :=
  inferInstanceAs (Decidable (∀ m ∈ g₁, ∀ n ∈ g₂, _ → _))

instance (d : SpDag OmNode) (group : List Node) : Decidable (DescAfter d group) :=
  inferInstanceAs (Decidable (∀ m ∈ group, _))

variable {d : SpDag OmNode} {group g₁ g₂ : List Node} {m n n₁ n₂ : Node} {q c : OmNode}

/-- Being before is transitive. -/
theorem precedes_trans (hd : d.Proper) {a b : OmNode} (hab : d.Precedes a b) (hbc : d.Precedes b c) :
    d.Precedes a c := ⟨hab.1.trans hd hbc.1, hab.2.trans hd.hebrew hbc.2⟩

/-- Parallel strands are not before each other. -/
theorem not_precedes_of_leftOf (hd : d.Proper) (h : d.LeftOf q c) : ¬d.Precedes q c ∧ ¬d.Precedes c q :=
  ⟨fun hp => hp.2.asymm hd.hebrew h.2, fun hp => hp.1.asymm hd h.1⟩

/-- Of two different strands, one is before the other in each order. -/
theorem before_total {a b : OmNode} (ha : a ∈ d.english) (hb : b ∈ d.english) (hne : a ≠ b) :
    (Before d.english a b ∨ Before d.english b a) ∧ (Before d.hebrew a b ∨ Before d.hebrew b a) :=
  ⟨(before_or ha hb).resolve_left hne,
    (before_or (SpDag.mem_hebrew.mpr ha) (SpDag.mem_hebrew.mpr hb)).resolve_left hne⟩

/-- It is what the code asks of both orders. -/
theorem precedes_iff {a b : OmNode} : d.Precedes a b ↔ d.precE a b = true ∧ d.precH a b = true := by
  unfold SpDag.precE SpDag.precH
  rw [decide_eq_true_iff, decide_eq_true_iff]
  exact Iff.rfl

/-- In a sorted group an entry that is before another comes first. -/
theorem Good.index (hd : d.Proper) (hsorted : group.Pairwise fun m n => Before d.english m.cnode n.cnode) {i j : Nat}
    (hi : i < group.length) (hj : j < group.length) (h : Before d.english group[i].cnode group[j].cnode) : i < j := by
  rcases Nat.lt_trichotomy i j with hij | rfl | hij
  · exact hij
  · exact absurd h (not_before_self hd)
  · exact absurd (List.pairwise_iff_getElem.mp hsorted j i hj hi hij) (h.asymm hd)

/-- **A group is good for the search** when its `desc` fields are also after their entries in both orders. -/
theorem searchable_iff_good (hd : d.Proper) :
    NodeList.Searchable (fun x => x ∈ d.english) d.precE d.precH group ↔ Good d group ∧ DescAfter d group := by
  have hE : ∀ {a b}, d.precE a b = true ↔ Before d.english a b := decide_eq_true_iff
  have hH : ∀ {a b}, d.precH a b = true ↔ Before d.hebrew a b := decide_eq_true_iff
  constructor
  · rintro ⟨hmem, hsorted, hdesc, hcover⟩
    have hsorted : group.Pairwise fun m n => Before d.english m.cnode n.cnode := hsorted.imp hE.mp
    refine ⟨⟨hmem, hsorted, ?_, ?_⟩, ?_⟩
    · intro m hm
      obtain ⟨n, hn, heq, hor⟩ := hdesc m hm
      exact ⟨n, hn, heq, hor.imp id fun h => hE.mp h.1⟩
    · intro m hm n hn hmn q hq hqn hqm
      obtain ⟨i, hi, rfl⟩ := List.getElem_of_mem hm
      obtain ⟨j, hj, rfl⟩ := List.getElem_of_mem hn
      have hij := Good.index hd hsorted hi hj hmn.1
      have hqH : d.precH q group[i].cnode = false := by
        unfold SpDag.precH
        rw [decide_eq_false_iff_not]
        exact fun h => h.asymm hd.hebrew hqm.2
      obtain ⟨hdE, hdH⟩ := List.pairwise_iff_getElem.mp hcover i j hi hj hij (hE.mpr hmn.1) (hH.mpr hmn.2) q hq
        (hE.mpr hqn.1) (hH.mpr hqn.2) (hE.mpr hqm.1) hqH
      exact ⟨hE.mp hdE, hH.mp hdH⟩
    · intro m hm
      obtain ⟨n, hn, heq, hor⟩ := hdesc m hm
      rw [heq]
      exact hor.imp id fun h => ⟨hE.mp h.1, hH.mp h.2⟩
  · rintro ⟨⟨hmem, hsorted, hdesc, hcover⟩, hafter⟩
    refine ⟨hmem, hsorted.imp hE.mpr, ?_, ?_⟩
    · intro m hm
      obtain ⟨n, hn, heq, -⟩ := hdesc m hm
      refine ⟨n, hn, heq, ?_⟩
      rw [← heq]
      exact (hafter m hm).imp id fun h => ⟨hE.mpr h.1, hH.mpr h.2⟩
    · refine List.pairwise_iff_getElem.mpr ?_
      intro i j hi hj hij hmE hmH q hq hqE hqH hqmE hqmH
      have hne : q ≠ group[i].cnode := (hE.mp hqmE).ne hd
      have hqm : Before d.hebrew group[i].cnode q := by
        refine (before_total hq (hmem _ (List.getElem_mem hi)) hne).2.resolve_left ?_
        intro h
        rw [hH.mpr h] at hqmH
        cases hqmH
      have hp := hcover _ (List.getElem_mem hi) _ (List.getElem_mem hj) ⟨hE.mp hmE, hH.mp hmH⟩ q hq
        ⟨hE.mp hqE, hH.mp hqH⟩ ⟨hE.mp hqmE, hqm⟩
      exact ⟨hE.mpr hp.1, hH.mpr hp.2⟩

/-! ## `group_merge`

Two groups of one future, merged by the english order of their strands. A strand of both groups has two entries, and
one of the two `desc` fields is kept. Everything but this choice is a merge of sorted lists. -/

/-- The merge compares strands by the english order. -/
theorem cmpCnode_lt : NodeList.cmpCnode d.precE n₁ n₂ = .lt ↔ Before d.english n₁.cnode n₂.cnode := by
  unfold NodeList.cmpCnode SpDag.precE
  by_cases h : Before d.english n₁.cnode n₂.cnode
  · simp [h]
  · simp only [h, decide_false, Bool.false_eq_true, if_false, iff_false]
    split
    · decide
    · decide

/-- Whichever entry is kept, it is one of the common strand. -/
theorem pickNode_cnode (heq : n₁.cnode = n₂.cnode) :
    (NodeList.pickNode d.precE d.precH n₁ n₂).cnode = n₁.cnode := by
  unfold NodeList.pickNode
  split
  · exact heq.symm
  · rfl

section Merge

variable (hd : d.Proper)

include hd

/-- Entries are joined when their strands are the same. -/
theorem cmpCnode_eq : NodeList.cmpCnode d.precE n₁ n₂ = .eq ↔ n₁.cnode = n₂.cnode := by
  unfold NodeList.cmpCnode SpDag.precE
  by_cases h : Before d.english n₁.cnode n₂.cnode
  · simp [h, h.ne hd]
  · simp only [h, decide_false, Bool.false_eq_true, if_false]
    split
    · rename_i heq
      exact ⟨fun _ => heq, fun _ => rfl⟩
    · rename_i hne
      exact ⟨(fun h => nomatch h), fun h => absurd h hne⟩

/-- The merge compares by the english order of the `cnode`s. -/
theorem keyOrder_cmpCnode : KeyOrder (fun n : Node => n.cnode ∈ d.english) (NodeList.cmpCnode d.precE)
    (NodeList.pickNode d.precE d.precH) where
  irrefl _ h := not_before_self hd (cmpCnode_lt.mp h)
  trans _ _ _ hxy hyz := cmpCnode_lt.mpr ((cmpCnode_lt.mp hxy).trans hd (cmpCnode_lt.mp hyz))
  swap {x y} hx hy hgt := by
    have hne : x.cnode ≠ y.cnode := by
      intro heq
      rw [(cmpCnode_eq hd).mpr heq] at hgt
      cases hgt
    refine cmpCnode_lt.mpr ((before_total hx hy hne).1.resolve_left ?_)
    intro hlt
    rw [cmpCnode_lt.mpr hlt] at hgt
    cases hgt
  left _ _ _ heq := by rw [cmpCnode_lt, cmpCnode_lt, (cmpCnode_eq hd).mp heq]
  right _ _ _ heq := by rw [cmpCnode_lt, cmpCnode_lt, (cmpCnode_eq hd).mp heq]
  member hx _ heq := by
    rw [pickNode_cnode ((cmpCnode_eq hd).mp heq)]
    exact hx
  joinLeft _ _ _ heq := by rw [cmpCnode_lt, cmpCnode_lt, pickNode_cnode ((cmpCnode_eq hd).mp heq)]
  joinRight _ _ _ heq := by rw [cmpCnode_lt, cmpCnode_lt, pickNode_cnode ((cmpCnode_eq hd).mp heq)]

omit hd in
/-- A good group is sorted, for the merge. -/
theorem Good.sortedBy (hg : Good d group) :
    SortedBy (fun n : Node => n.cnode ∈ d.english) (NodeList.cmpCnode d.precE) group :=
  ⟨hg.mem, hg.sorted.imp cmpCnode_lt.mpr⟩

/-- What a merged group has: the entries of one group only, and for a node of both one of its two entries. -/
theorem mem_groupMerge (h₁ : Good d g₁) (h₂ : Good d g₂) : m ∈ NodeList.groupMerge d.precE d.precH g₁ g₂ ↔
    (m ∈ g₁ ∧ m.cnode ∉ cnodes g₂) ∨ (m ∈ g₂ ∧ m.cnode ∉ cnodes g₁) ∨
      ∃ n₁ ∈ g₁, ∃ n₂ ∈ g₂, n₁.cnode = n₂.cnode ∧ m = NodeList.pickNode d.precE d.precH n₁ n₂ := by
  unfold NodeList.groupMerge
  rw [mem_mergeBy (keyOrder_cmpCnode hd) (h₁.sortedBy) (h₂.sortedBy)]
  have hout₂ : (∀ n ∈ g₂, NodeList.cmpCnode d.precE m n ≠ .eq) ↔ m.cnode ∉ cnodes g₂ := by
    unfold cnodes
    rw [List.mem_map]
    constructor
    · rintro h ⟨n, hn, heq⟩
      exact h n hn ((cmpCnode_eq hd).mpr heq.symm)
    · intro h n hn heq
      exact h ⟨n, hn, ((cmpCnode_eq hd).mp heq).symm⟩
  have hout₁ : (∀ n ∈ g₁, NodeList.cmpCnode d.precE n m ≠ .eq) ↔ m.cnode ∉ cnodes g₁ := by
    unfold cnodes
    rw [List.mem_map]
    constructor
    · rintro h ⟨n, hn, heq⟩
      exact h n hn ((cmpCnode_eq hd).mpr heq)
    · intro h n hn heq
      exact h ⟨n, hn, (cmpCnode_eq hd).mp heq⟩
  rw [hout₁, hout₂]
  simp only [cmpCnode_eq hd]

/-- **The nodes of a merged group** are those of both. -/
theorem cnodes_groupMerge (h₁ : Good d g₁) (h₂ : Good d g₂) :
    c ∈ cnodes (NodeList.groupMerge d.precE d.precH g₁ g₂) ↔ c ∈ cnodes g₁ ∨ c ∈ cnodes g₂ := by
  have hmem := fun m => @mem_groupMerge d g₁ g₂ m hd h₁ h₂
  constructor
  · intro h
    obtain ⟨m, hm, rfl⟩ := List.mem_map.mp h
    rcases (hmem m).mp hm with ⟨hm, -⟩ | ⟨hm, -⟩ | ⟨n₁, hn₁, n₂, -, heq, rfl⟩
    · exact Or.inl (List.mem_map_of_mem hm)
    · exact Or.inr (List.mem_map_of_mem hm)
    · rw [pickNode_cnode heq]
      exact Or.inl (List.mem_map_of_mem hn₁)
  · have hboth : ∀ n₁ ∈ g₁, ∀ n₂ ∈ g₂, n₁.cnode = n₂.cnode →
        n₁.cnode ∈ cnodes (NodeList.groupMerge d.precE d.precH g₁ g₂) := by
      intro n₁ hn₁ n₂ hn₂ heq
      rw [← pickNode_cnode heq]
      exact List.mem_map_of_mem ((hmem _).mpr (Or.inr (Or.inr ⟨n₁, hn₁, n₂, hn₂, heq, rfl⟩)))
    rintro (h | h)
    · obtain ⟨m, hm, rfl⟩ := List.mem_map.mp h
      by_cases hin : m.cnode ∈ cnodes g₂
      · obtain ⟨n, hn, heq⟩ := List.mem_map.mp hin
        exact hboth m hm n hn heq.symm
      · exact List.mem_map_of_mem ((hmem m).mpr (Or.inl ⟨hm, hin⟩))
    · obtain ⟨m, hm, rfl⟩ := List.mem_map.mp h
      by_cases hin : m.cnode ∈ cnodes g₁
      · obtain ⟨n, hn, heq⟩ := List.mem_map.mp hin
        rw [← heq]
        exact hboth n hn m hm heq
      · exact List.mem_map_of_mem ((hmem m).mpr (Or.inr (Or.inl ⟨hm, hin⟩)))

/-- **The `desc` that is kept serves both groups.** A strand `q` on the left of the common node that is before one of
the two is before the one that is kept; otherwise `q`, the node and the two would be an `N`. -/
theorem precedes_pickNode (heq : n₁.cnode = n₂.cnode)
    (h₁ : n₁.desc = n₁.cnode ∨ d.Precedes n₁.cnode n₁.desc) (h₂ : n₂.desc = n₂.cnode ∨ d.Precedes n₂.cnode n₂.desc)
    (hleft : d.LeftOf q n₁.cnode) (hq : d.Precedes q n₁.desc ∨ d.Precedes q n₂.desc) :
    d.Precedes q (NodeList.pickNode d.precE d.precH n₁ n₂).desc := by
  obtain ⟨hqc, hcq⟩ := not_precedes_of_leftOf hd hleft
  unfold NodeList.pickNode
  split
  · rename_i hpick
    rw [Bool.and_eq_true, ← precedes_iff] at hpick
    exact hq.elim (fun h => precedes_trans hd h hpick) id
  · rename_i hpick
    rw [Bool.and_eq_true, ← precedes_iff] at hpick
    rcases hq with hq | hq
    · exact hq
    · have hc₂ : d.Precedes n₁.cnode n₂.desc := by
        rw [heq]
        refine h₂.resolve_left fun h => hqc ?_
        rw [heq, ← h]
        exact hq
      have hc₁ : d.Precedes n₁.cnode n₁.desc := by
        refine h₁.resolve_left fun h => hpick ?_
        rw [h]
        exact hc₂
      have hprec : ∀ {x y}, d.Precedes x y ↔ d.Prec x y := SpDag.both_iff_prec hd
      rcases SpDag.nFree hd (hprec.mp hq) (hprec.mp hc₂) (hprec.mp hc₁) with h | h | h | h | h
      · exact hprec.mpr h
      · exact absurd (hprec.mpr h) hqc
      · exact absurd (hprec.mpr h) hcq
      · exact precedes_trans hd hq (hprec.mpr h)
      · exact absurd (hprec.mpr h) hpick

/-- **Merged groups are good.** -/
theorem good_groupMerge (h₁ : Good d g₁) (h₂ : Good d g₂) (ha₁ : DescAfter d g₁) (ha₂ : DescAfter d g₂)
    (hs₁ : SharedBefore d g₁ g₂) (hs₂ : SharedBefore d g₂ g₁) :
    Good d (NodeList.groupMerge d.precE d.precH g₁ g₂) ∧ DescAfter d (NodeList.groupMerge d.precE d.precH g₁ g₂) := by
  have hmem := fun m => @mem_groupMerge d g₁ g₂ m hd h₁ h₂
  have hsorted := SortedBy.mergeBy (keyOrder_cmpCnode hd) (h₁.sortedBy) (h₂.sortedBy)
  -- every entry has the node and the `desc` of an entry of one of the groups
  have hfrom : ∀ m ∈ NodeList.groupMerge d.precE d.precH g₁ g₂,
      (∃ n ∈ g₁, n.cnode = m.cnode ∧ n.desc = m.desc) ∨ ∃ n ∈ g₂, n.cnode = m.cnode ∧ n.desc = m.desc := by
    intro m hm
    rcases (hmem m).mp hm with ⟨hm, -⟩ | ⟨hm, -⟩ | ⟨n₁, hn₁, n₂, hn₂, heq, rfl⟩
    · exact Or.inl ⟨m, hm, rfl, rfl⟩
    · exact Or.inr ⟨m, hm, rfl, rfl⟩
    · unfold NodeList.pickNode
      split
      · exact Or.inr ⟨n₂, hn₂, rfl, rfl⟩
      · exact Or.inl ⟨n₁, hn₁, rfl, rfl⟩
  have hin : ∀ {n}, n ∈ g₁ ∨ n ∈ g₂ → ∃ m ∈ NodeList.groupMerge d.precE d.precH g₁ g₂, m.cnode = n.cnode := by
    intro n hn
    exact List.mem_map.mp ((cnodes_groupMerge hd h₁ h₂).mpr
      (hn.imp (fun h => List.mem_map_of_mem h) fun h => List.mem_map_of_mem h))
  refine ⟨⟨hsorted.mem, hsorted.sorted.imp cmpCnode_lt.mp, ?_, ?_⟩, ?_⟩
  · intro m hm
    rcases hfrom m hm with ⟨n, hn, hc, hdesc⟩ | ⟨n, hn, hc, hdesc⟩
    · obtain ⟨k, hk, heq, hor⟩ := h₁.desc n hn
      obtain ⟨k', hk', hkc⟩ := hin (Or.inl hk)
      rw [← hc, ← hdesc]
      exact ⟨k', hk', heq.trans hkc.symm, hkc ▸ hor⟩
    · obtain ⟨k, hk, heq, hor⟩ := h₂.desc n hn
      obtain ⟨k', hk', hkc⟩ := hin (Or.inr hk)
      rw [← hc, ← hdesc]
      exact ⟨k', hk', heq.trans hkc.symm, hkc ▸ hor⟩
  · intro m hm n hn hmn q hq hqn hleft
    -- the later entry is in one of the groups, and so is the earlier one, by the sharing
    have hn' : (∃ k ∈ g₁, k.cnode = n.cnode) ∨ ∃ k ∈ g₂, k.cnode = n.cnode :=
      (hfrom n hn).imp (fun ⟨k, hk, hc, _⟩ => ⟨k, hk, hc⟩) fun ⟨k, hk, hc, _⟩ => ⟨k, hk, hc⟩
    rcases (hmem m).mp hm with ⟨hm, hout⟩ | ⟨hm, hout⟩ | ⟨n₁, hn₁, n₂, hn₂, heq, rfl⟩
    · rcases hn' with ⟨k, hk, hc⟩ | ⟨k, hk, hc⟩
      · rw [← hc] at hmn hqn
        exact h₁.cover m hm k hk hmn q hq hqn hleft
      · rw [← hc] at hmn
        exact absurd (hs₁ m hm k hk hmn) hout
    · rcases hn' with ⟨k, hk, hc⟩ | ⟨k, hk, hc⟩
      · rw [← hc] at hmn
        exact absurd (hs₂ m hm k hk hmn) hout
      · rw [← hc] at hmn hqn
        exact h₂.cover m hm k hk hmn q hq hqn hleft
    · rw [pickNode_cnode heq] at hmn hleft
      refine precedes_pickNode hd heq (ha₁ n₁ hn₁) (ha₂ n₂ hn₂) hleft ?_
      rcases hn' with ⟨k, hk, hc⟩ | ⟨k, hk, hc⟩
      · rw [← hc] at hmn hqn
        exact Or.inl (h₁.cover n₁ hn₁ k hk hmn q hq hqn hleft)
      · rw [← hc] at hmn hqn
        rw [heq] at hmn hleft
        exact Or.inr (h₂.cover n₂ hn₂ k hk hmn q hq hqn hleft)
  · intro m hm
    rcases hfrom m hm with ⟨n, hn, hc, hdesc⟩ | ⟨n, hn, hc, hdesc⟩
    · rw [← hc, ← hdesc]
      exact ha₁ n hn
    · rw [← hc, ← hdesc]
      exact ha₂ n hn

end Merge

/-! ## `merge_group_single`

One strand more, which has no path to any strand of the group. The entries before it in the english order may have it
as their new `desc`; this is decided by the hebrew order alone, since the source has a comma between the two tests. -/

/-- What becomes of an entry when the strand `c` comes in. -/
def extend (d : SpDag OmNode) (c : OmNode) (m : Node) : Node :=
  if Before d.english m.cnode c ∧ Before d.hebrew m.desc c then { m with desc := c } else m

/-- Its strand stays. -/
theorem extend_cnode : (extend d c m).cnode = m.cnode := by
  unfold extend
  split
  · rfl
  · rfl

section Single

variable (hd : d.Proper)

include hd

/-- Behind an entry that is not before `c` nothing changes. -/
theorem extend_behind {group : List Node} (hmem : ∀ m ∈ group, m.cnode ∈ d.english)
    (hsorted : group.Pairwise fun m n => Before d.english m.cnode n.cnode) (hc : c ∈ d.english)
    (hnew : c ∉ cnodes group) (hfirst : ∀ m, group.head? = some m → ¬Before d.english m.cnode c) :
    ∀ m ∈ group, Before d.english c m.cnode ∧ extend d c m = m := by
  intro m hm
  have hlt : Before d.english c m.cnode := by
    cases group with
    | nil => cases hm
    | cons n group =>
        have hn : Before d.english c n.cnode :=
          (before_total (hmem n List.mem_cons_self) hc
            fun h => hnew (h ▸ List.mem_map_of_mem List.mem_cons_self)).1.resolve_left (hfirst n rfl)
        rcases List.mem_cons.mp hm with rfl | hm
        · exact hn
        · exact hn.trans hd ((List.pairwise_cons.mp hsorted).1 m hm)
  refine ⟨hlt, ?_⟩
  unfold extend
  exact if_neg fun h => h.1.asymm hd hlt

/-- **The group with a strand more**: the entries as they are extended, the strand at its place. -/
theorem mergeGroupSingle_spec {group : List Node} (hmem : ∀ m ∈ group, m.cnode ∈ d.english)
    (hsorted : group.Pairwise fun m n => Before d.english m.cnode n.cnode) (hc : c ∈ d.english)
    (hnew : c ∉ cnodes group) :
    (∀ m, m ∈ NodeList.mergeGroupSingle d.precE d.precH ⟨c, c⟩ group ↔
      m = ⟨c, c⟩ ∨ ∃ n ∈ group, m = extend d c n) ∧
    (NodeList.mergeGroupSingle d.precE d.precH ⟨c, c⟩ group).Pairwise fun m n =>
      Before d.english m.cnode n.cnode := by
  induction group with
  | nil =>
      refine ⟨?_, List.pairwise_singleton _ _⟩
      intro m
      show m ∈ [(⟨c, c⟩ : Node)] ↔ _
      simp
  | cons nl group ih =>
      have hmem' := fun m hm => hmem m (List.mem_cons_of_mem nl hm)
      obtain ⟨hhead, htail⟩ := List.pairwise_cons.mp hsorted
      have hnew' : c ∉ cnodes group := fun h => hnew (List.mem_cons_of_mem _ h)
      by_cases hlt : Before d.english nl.cnode c
      · -- the loop goes on behind the entry
        obtain ⟨ihm, ihs⟩ := ih hmem' htail hnew'
        have hstep : NodeList.mergeGroupSingle d.precE d.precH ⟨c, c⟩ (nl :: group) =
            extend d c nl :: NodeList.mergeGroupSingle d.precE d.precH ⟨c, c⟩ group := by
          have hE : d.precE nl.cnode (⟨c, c⟩ : Node).cnode = true := decide_eq_true hlt
          rw [NodeList.mergeGroupSingle, if_pos hE]
          unfold extend SpDag.precH
          simp only [decide_eq_true_iff, hlt, true_and]
        rw [hstep]
        constructor
        · intro m
          rw [List.mem_cons, ihm]
          constructor
          · rintro (h | h | ⟨n, hn, h⟩)
            · exact Or.inr ⟨nl, List.mem_cons_self, h⟩
            · exact Or.inl h
            · exact Or.inr ⟨n, List.mem_cons_of_mem nl hn, h⟩
          · rintro (h | ⟨n, hn, h⟩)
            · exact Or.inr (Or.inl h)
            · rcases List.mem_cons.mp hn with rfl | hn
              · exact Or.inl h
              · exact Or.inr (Or.inr ⟨n, hn, h⟩)
        · refine List.pairwise_cons.mpr ⟨?_, ihs⟩
          intro m hm
          rw [extend_cnode]
          rcases (ihm m).mp hm with rfl | ⟨n, hn, rfl⟩
          · exact hlt
          · rw [extend_cnode]
            exact hhead n hn
      · have hbehind := extend_behind hd hmem hsorted hc hnew fun m hm => by
          obtain rfl := Option.some.inj hm
          exact hlt
        have hstep : NodeList.mergeGroupSingle d.precE d.precH ⟨c, c⟩ (nl :: group) = ⟨c, c⟩ :: nl :: group := by
          have hE : ¬d.precE nl.cnode (⟨c, c⟩ : Node).cnode = true := fun h => hlt (of_decide_eq_true h)
          rw [NodeList.mergeGroupSingle, if_neg hE]
        rw [hstep]
        constructor
        · intro m
          rw [List.mem_cons]
          refine or_congr Iff.rfl ?_
          constructor
          · intro hm
            exact ⟨m, hm, (hbehind m hm).2.symm⟩
          · rintro ⟨n, hn, rfl⟩
            rw [(hbehind n hn).2]
            exact hn
        · exact List.pairwise_cons.mpr ⟨fun m hm => (hbehind m hm).1, hsorted⟩

/-- The group has one strand more. -/
theorem cnodes_mergeGroupSingle (hg : Good d group) (hc : c ∈ d.english) (hnew : c ∉ cnodes group) {x : OmNode} :
    x ∈ cnodes (NodeList.mergeGroupSingle d.precE d.precH ⟨c, c⟩ group) ↔ x = c ∨ x ∈ cnodes group := by
  obtain ⟨hmem, -⟩ := mergeGroupSingle_spec hd hg.mem hg.sorted hc hnew
  unfold cnodes
  rw [List.mem_map, List.mem_map]
  constructor
  · rintro ⟨m, hm, rfl⟩
    rcases (hmem m).mp hm with rfl | ⟨n, hn, rfl⟩
    · exact Or.inl rfl
    · exact Or.inr ⟨n, hn, extend_cnode.symm⟩
  · rintro (rfl | ⟨n, hn, rfl⟩)
    · exact ⟨⟨x, x⟩, (hmem _).mpr (Or.inl rfl), rfl⟩
    · exact ⟨extend d c n, (hmem _).mpr (Or.inr ⟨n, hn, rfl⟩), extend_cnode⟩

/-- A `desc` that is not moved is behind the strand in the hebrew order, and serves whatever the strand would. -/
theorem precedes_extend (hg : Good d group) (hc : c ∈ d.english) (hnew : c ∉ cnodes group) (hm : m ∈ group)
    (hlt : Before d.english m.cnode c) (hleft : d.LeftOf q m.cnode)
    (hq : d.Precedes q m.desc ∨ d.Precedes q c) : d.Precedes q (extend d c m).desc := by
  obtain ⟨n, hn, heq, hor⟩ := hg.desc m hm
  unfold extend
  split
  · rename_i hmove
    refine ⟨hleft.1.trans hd hlt, ?_⟩
    exact hq.elim (fun h => h.2.trans hd.hebrew hmove.2) fun h => h.2
  · rename_i hstay
    rcases hq with hq | hq
    · exact hq
    · have hdc : Before d.hebrew c m.desc := by
        have hne : m.desc ≠ c := fun h => hnew (h ▸ heq ▸ List.mem_map_of_mem hn)
        have hmem : m.desc ∈ d.english := heq ▸ hg.mem n hn
        exact (before_total hmem hc hne).2.resolve_left fun h => hstay ⟨hlt, h⟩
      refine ⟨?_, hq.2.trans hd.hebrew hdc⟩
      rw [heq]
      exact hor.elim (fun h => h ▸ hleft.1) fun h => hleft.1.trans hd h

/-- **A good group with a strand more is good**, when the strand is before none of its entries. -/
theorem good_mergeGroupSingle (hg : Good d group) (hc : c ∈ d.english) (hnew : c ∉ cnodes group)
    (hlast : ∀ m ∈ group, ¬d.Precedes c m.cnode) :
    Good d (NodeList.mergeGroupSingle d.precE d.precH ⟨c, c⟩ group) := by
  obtain ⟨hmem, hsorted⟩ := mergeGroupSingle_spec hd hg.mem hg.sorted hc hnew
  have hin : ∀ n ∈ group, ∃ k ∈ NodeList.mergeGroupSingle d.precE d.precH ⟨c, c⟩ group, k.cnode = n.cnode :=
    fun n hn => ⟨_, (hmem _).mpr (Or.inr ⟨n, hn, rfl⟩), extend_cnode⟩
  refine ⟨?_, hsorted, ?_, ?_⟩
  · intro m hm
    rcases (hmem m).mp hm with rfl | ⟨n, hn, rfl⟩
    · exact hc
    · rw [extend_cnode]
      exact hg.mem n hn
  · intro m hm
    rcases (hmem m).mp hm with rfl | ⟨n, hn, rfl⟩
    · exact ⟨⟨c, c⟩, hm, rfl, Or.inl rfl⟩
    · rw [extend_cnode]
      unfold extend
      split
      · rename_i hmove
        exact ⟨⟨c, c⟩, (hmem _).mpr (Or.inl rfl), rfl, Or.inr hmove.1⟩
      · obtain ⟨k, hk, heq, hor⟩ := hg.desc n hn
        obtain ⟨k', hk', hkc⟩ := hin k hk
        exact ⟨k', hk', heq.trans hkc.symm, hkc ▸ hor⟩
  · intro m hm n hn hmn q hq hqn hleft
    rcases (hmem m).mp hm with rfl | ⟨m₀, hm₀, rfl⟩
    · rcases (hmem n).mp hn with rfl | ⟨n₀, hn₀, rfl⟩
      · exact absurd hmn.1 (not_before_self hd)
      · rw [extend_cnode] at hmn
        exact absurd hmn (hlast n₀ hn₀)
    · rw [extend_cnode] at hmn hleft
      rcases (hmem n).mp hn with rfl | ⟨n₀, hn₀, rfl⟩
      · exact precedes_extend hd hg hc hnew hm₀ hmn.1 hleft (Or.inr hqn)
      · rw [extend_cnode] at hmn hqn
        have hq := hg.cover m₀ hm₀ n₀ hn₀ hmn q hq hqn hleft
        by_cases hlt : Before d.english m₀.cnode c
        · exact precedes_extend hd hg hc hnew hm₀ hlt hleft (Or.inl hq)
        · unfold extend
          rw [if_neg fun h => hlt h.1]
          exact hq

/-- And each `desc` is at or after its entry again: one that is moved is moved to a strand after the entry. -/
theorem descAfter_mergeGroupSingle (hg : Good d group) (ha : DescAfter d group) (hc : c ∈ d.english)
    (hnew : c ∉ cnodes group) : DescAfter d (NodeList.mergeGroupSingle d.precE d.precH ⟨c, c⟩ group) := by
  obtain ⟨hmem, -⟩ := mergeGroupSingle_spec hd hg.mem hg.sorted hc hnew
  intro m hm
  rcases (hmem m).mp hm with rfl | ⟨n, hn, rfl⟩
  · exact Or.inl rfl
  · rw [extend_cnode]
    unfold extend
    split
    · rename_i hmove
      refine Or.inr ⟨hmove.1, ?_⟩
      exact (ha n hn).elim (fun h => h ▸ hmove.2) fun h => h.2.trans hd.hebrew hmove.2
    · exact ha n hn

end Single

/-- **Combining groups keeps them searchable**, with the nodes of what was combined. Groups that are merged have each
`desc` at or after its entry in both orders; a group that gets one strand more need not. -/
theorem combine_good (d : SpDag OmNode) (hd : d.Proper) :
    (∀ g₁ g₂, Good d g₁ → Good d g₂ → DescAfter d g₁ → DescAfter d g₂ → SharedBefore d g₁ g₂ →
      SharedBefore d g₂ g₁ →
      Good d (NodeList.groupMerge d.precE d.precH g₁ g₂) ∧
        DescAfter d (NodeList.groupMerge d.precE d.precH g₁ g₂) ∧
        ∀ c, c ∈ cnodes (NodeList.groupMerge d.precE d.precH g₁ g₂) ↔ c ∈ cnodes g₁ ∨ c ∈ cnodes g₂) ∧
    (∀ g c, Good d g → c ∈ d.english → c ∉ cnodes g → (∀ m ∈ g, ¬d.Precedes c m.cnode) →
      Good d (NodeList.mergeGroupSingle d.precE d.precH ⟨c, c⟩ g) ∧
        (DescAfter d g → DescAfter d (NodeList.mergeGroupSingle d.precE d.precH ⟨c, c⟩ g)) ∧
        ∀ x, x ∈ cnodes (NodeList.mergeGroupSingle d.precE d.precH ⟨c, c⟩ g) ↔ x = c ∨ x ∈ cnodes g) := by
  constructor
  · intro g₁ g₂ h₁ h₂ ha₁ ha₂ hs₁ hs₂
    obtain ⟨hgood, hafter⟩ := good_groupMerge hd h₁ h₂ ha₁ ha₂ hs₁ hs₂
    exact ⟨hgood, hafter, fun c => cnodes_groupMerge hd h₁ h₂⟩
  · intro g c hg hc hnew hlast
    exact ⟨good_mergeGroupSingle hd hg hc hnew hlast,
      fun ha => descAfter_mergeGroupSingle hd hg ha hc hnew, fun x => cnodes_mergeGroupSingle hd hg hc hnew⟩

/-- Strand `1` with `0` on its left and `2` on its right; `3` comes after `0` and `1`. -/
def nearN : SpDag OmNode := .parallel (.series (.parallel (.strand 0) (.strand 1)) (.strand 3)) (.strand 2)

/-- For a fixed dag, `Good` can be decided. -/
theorem good_of_decide {g : List Node} (h : (∀ m ∈ g, m.cnode ∈ d.english) ∧
    (g.Pairwise fun m n => Before d.english m.cnode n.cnode) ∧
    (∀ m ∈ g, ∃ n ∈ g, m.desc = n.cnode ∧ (n.cnode = m.cnode ∨ Before d.english m.cnode n.cnode)) ∧
    ∀ m ∈ g, ∀ n ∈ g, d.Precedes m.cnode n.cnode → ∀ q ∈ d.english, d.Precedes q n.cnode →
      d.LeftOf q m.cnode → d.Precedes q m.desc) : Good d g := ⟨h.1, h.2.1, h.2.2.1, h.2.2.2⟩

/-- **A `desc` that is only right of its entry hides the other**: `1` keeps the desc `2`, and `0` is before the later
entry `3` but not before `2`. -/
theorem merge_keeps_right_desc : nearN.Proper ∧ Good nearN [⟨1, 2⟩, ⟨2, 2⟩] ∧ Good nearN [⟨1, 3⟩, ⟨3, 3⟩] ∧
    SharedBefore nearN [⟨1, 2⟩, ⟨2, 2⟩] [⟨1, 3⟩, ⟨3, 3⟩] ∧ SharedBefore nearN [⟨1, 3⟩, ⟨3, 3⟩] [⟨1, 2⟩, ⟨2, 2⟩] ∧
    ¬Good nearN (NodeList.groupMerge nearN.precE nearN.precH [⟨1, 2⟩, ⟨2, 2⟩] [⟨1, 3⟩, ⟨3, 3⟩]) := by
  refine ⟨by decide, good_of_decide (by decide), good_of_decide (by decide), by decide, by decide, ?_⟩
  intro hg
  have h := hg.cover ⟨1, 2⟩ (by decide) ⟨3, 3⟩ (by decide) (by decide) 0 (by decide) (by decide) (by decide)
  exact absurd h (by decide)

/-- With the desc of `1` at `1` the groups merge, and `2` can be put in. -/
theorem combine_good_nearN :
    Good nearN (NodeList.groupMerge nearN.precE nearN.precH [⟨1, 1⟩] [⟨1, 3⟩, ⟨3, 3⟩]) ∧
      Good nearN (NodeList.mergeGroupSingle nearN.precE nearN.precH ⟨2, 2⟩ [⟨1, 3⟩, ⟨3, 3⟩]) := by
  obtain ⟨hmerge, hsingle⟩ := combine_good nearN (by decide)
  have hg : Good nearN [⟨1, 3⟩, ⟨3, 3⟩] := good_of_decide (by decide)
  constructor
  · exact (hmerge [⟨1, 1⟩] _ (good_of_decide (by decide)) hg (by decide) (by decide) (by decide) (by decide)).1
  · exact (hsingle _ 2 hg (by decide) (by decide) (by decide)).1

/-! ## Searches in combined groups

What `combine_good` keeps is what the search relies on, and the two orders together are the paths of the dag. So the
answers of a search can be read off the groups that were combined.
-/

section Search

variable {l : NodeList} {futureId : Nat}

/-- An order without repetition compares its own strands. -/
theorem strictWeakOn_before {L : List OmNode} (h : L.Nodup) (hmem : ∀ x, x ∈ d.english → x ∈ L) :
    StrictWeakOn (fun x => x ∈ d.english) fun x y => decide (Before L x y) where
  irrefl x _ := decide_eq_false (not_before_self h)
  trans _ _ _ hxy hyz := decide_eq_true ((of_decide_eq_true hxy).trans h (of_decide_eq_true hyz))
  between {x y z} hx hy hz hxz := by
    have hxz := of_decide_eq_true hxz
    rw [decide_eq_true_iff, decide_eq_true_iff]
    rcases before_or (hmem x hx) (hmem y hy) with rfl | hxy | hyx
    · exact Or.inr hxz
    · exact Or.inl hxy
    · exact Or.inr (hyx.trans h hxz)

/-- A search in a good group asks for a path from the query to one of the group's strands. -/
theorem search_good (hd : d.Proper) (hg : Good d group) (ha : DescAfter d group) (hstored : l.Stored futureId group)
    (hq : q ∈ d.english) : l.search d.precE d.precH q futureId = true ↔ ∃ c ∈ cnodes group, d.Path q c := by
  have hE := strictWeakOn_before (d := d) hd fun _ => id
  have hH := strictWeakOn_before (d := d) hd.hebrew fun _ => SpDag.mem_hebrew.mpr
  have hpath : ∀ c, d.Path q c ↔ d.precE q c = true ∧ d.precH q c = true := by
    intro c
    rw [SpDag.path_iff_prec hd, ← SpDag.both_iff_prec hd]
    exact precedes_iff
  have hs := NodeList.search_spec hE hH hstored ((searchable_iff_good hd).mpr ⟨hg, ha⟩) hq
  rw [cnodes]
  constructor
  · intro h
    obtain ⟨n, hn, hafter⟩ := hs.mp h
    exact ⟨n.cnode, List.mem_map_of_mem hn, (hpath _).mpr hafter⟩
  · rintro ⟨c, hc, hp⟩
    obtain ⟨n, hn, rfl⟩ := List.mem_map.mp hc
    exact hs.mpr ⟨n, hn, (hpath _).mp hp⟩

/-- The groups that the code makes of the strands of a dag, with the strands in them: one strand, two groups merged,
or a strand put into a group. -/
inductive Combined (d : SpDag OmNode) : List Node → (OmNode → Prop) → Prop where
  | single {c : OmNode} (hc : c ∈ d.english) : Combined d [⟨c, c⟩] (· = c)
  | merge {g₁ g₂ : List Node} {s₁ s₂ : OmNode → Prop} (h₁ : Combined d g₁ s₁) (h₂ : Combined d g₂ s₂) (hs₁ : SharedBefore d g₁ g₂)
      (hs₂ : SharedBefore d g₂ g₁) : Combined d (NodeList.groupMerge d.precE d.precH g₁ g₂) fun x => s₁ x ∨ s₂ x
  | insert {g : List Node} {s : OmNode → Prop} {c : OmNode} (h : Combined d g s) (hc : c ∈ d.english) (hnew : ¬s c) (hlast : ∀ x, s x → ¬d.Path c x) :
      Combined d (NodeList.mergeGroupSingle d.precE d.precH ⟨c, c⟩ g) fun x => x = c ∨ s x

/-- A strand alone is its own `desc`. -/
theorem good_single (hd : d.Proper) (hc : c ∈ d.english) : Good d [⟨c, c⟩] ∧ DescAfter d [⟨c, c⟩] := by
  have hone : ∀ {m}, m ∈ [(⟨c, c⟩ : Node)] → m = ⟨c, c⟩ := List.mem_singleton.mp
  refine ⟨⟨fun m hm => hone hm ▸ hc, List.pairwise_singleton _ _, ?_, ?_⟩, fun m hm => Or.inl (hone hm ▸ rfl)⟩
  · intro m hm
    exact ⟨m, hm, hone hm ▸ rfl, Or.inl rfl⟩
  · intro m hm n hn hmn
    rw [hone hm, hone hn] at hmn
    exact absurd hmn.1 (not_before_self hd)

/-- By induction on how the group was made; each way of combining keeps both invariants and adds up the strands. -/
theorem Combined.good (hd : d.Proper) {s : OmNode → Prop} (h : Combined d group s) :
    (Good d group ∧ DescAfter d group) ∧ ∀ x, x ∈ cnodes group ↔ s x := by
  induction h with
  | single hc => exact ⟨good_single hd hc, fun x => List.mem_singleton⟩
  | merge _ _ hs₁ hs₂ ih₁ ih₂ =>
      obtain ⟨⟨hg₁, ha₁⟩, hmem₁⟩ := ih₁
      obtain ⟨⟨hg₂, ha₂⟩, hmem₂⟩ := ih₂
      refine ⟨good_groupMerge hd hg₁ hg₂ ha₁ ha₂ hs₁ hs₂, fun x => ?_⟩
      rw [cnodes_groupMerge hd hg₁ hg₂, hmem₁, hmem₂]
  | @insert g s c _ hc hnew hlast ih =>
      obtain ⟨⟨hg, ha⟩, hmem⟩ := ih
      have hnew : c ∉ cnodes g := fun h => hnew ((hmem c).mp h)
      have hlast : ∀ m ∈ g, ¬d.Precedes c m.cnode := by
        intro m hm hp
        refine hlast m.cnode ((hmem _).mp (List.mem_map_of_mem hm)) ?_
        exact (SpDag.path_iff_prec hd).mpr ((SpDag.both_iff_prec hd).mp hp)
      refine ⟨⟨good_mergeGroupSingle hd hg hc hnew hlast, descAfter_mergeGroupSingle hd hg ha hc hnew⟩, fun x => ?_⟩
      rw [cnodes_mergeGroupSingle hd hg hc hnew, hmem]

/-- **Searches are exact in every group that the code makes**, wherever it is stored: `search` says yes exactly when
the dag has a path from the query to a strand that was put into the group. -/
theorem search_combined (d : SpDag OmNode) (hd : d.Proper) {s : OmNode → Prop} (h : Combined d group s)
    (hstored : l.Stored futureId group) (hq : q ∈ d.english) :
    l.search d.precE d.precH q futureId = true ↔ ∃ c, s c ∧ d.Path q c := by
  obtain ⟨⟨hg, ha⟩, hmem⟩ := h.good hd
  rw [search_good hd hg ha hstored hq]
  exact exists_congr fun c => and_congr_left fun _ => hmem c

/-- In `nearN`, `{1}` merged with `{1}` into which `3` was put, and `2` put into the result, in the slot of future `5`
of a table of two: `0` has a path to `3`. -/
theorem search_combined_nearN :
    let g := NodeList.mergeGroupSingle nearN.precE nearN.precH ⟨2, 2⟩ (NodeList.groupMerge nearN.precE nearN.precH
      [⟨1, 1⟩] (NodeList.mergeGroupSingle nearN.precE nearN.precH ⟨3, 3⟩ [⟨1, 1⟩]))
    (⟨[none, some ⟨5, g⟩], [], [], 1⟩ : NodeList).search nearN.precE nearN.precH 0 5 = true ↔
      ∃ c, (c = 2 ∨ c = 1 ∨ c = 3 ∨ c = 1) ∧ nearN.Path 0 c := by
  have hp : ∀ {x y}, nearN.Path x y → nearN.Precedes x y := fun h =>
    (SpDag.both_iff_prec (by decide)).mpr ((SpDag.path_iff_prec (by decide)).mp h)
  have hone : Combined nearN [⟨1, 1⟩] (· = 1) := .single (by decide)
  have hthree : Combined nearN _ fun x => x = 3 ∨ x = 1 := hone.insert (by decide) (by decide) fun x hx h => by
    subst hx
    exact absurd (hp h) (by decide)
  refine search_combined nearN (by decide) ((hone.merge hthree (by decide) (by decide)).insert (by decide) (by decide)
    fun x hx h => ?_) ⟨by decide, Or.inl rfl⟩ (by decide)
  rcases hx with rfl | rfl | rfl <;> exact absurd (hp h) (by decide)

end Search

end FOrder.Rdtool
