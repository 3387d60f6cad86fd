import FOrder.Rdtool.HashMerge

/-!
# `Rdtool.HashExact` — what the lists that are made have

The merged chain of two well-formed lists is sorted and has each id of one of them, the chain with a node put in is
a merge with a chain of one element. The lists that are made of them are well formed, so that the lookup finds each
group.

`mergeBy` of `Lib.SortedList` is what both have in common: elements are compared by their future ids, and where the
ids are the same the groups are joined (`keyOrder_futureId`). So `mem_mergeBy` says what is in the chain, and
`formed_of_did` of `HashMerge` that the list is well formed. What the joined groups are does not matter here.
-/

namespace FOrder.Rdtool

variable {precE precH : OmNode → OmNode → Bool} {h h₁ h₂ : Hash} {w w₁ w₂ : List (Nat × HashElement)}
  {b : Building} {chain c₁ c₂ : List HashElement} {n : Node} {futureId k : Nat} {g : List Node}

/-! ## Chains

Sorted lists of elements, without memory. Both constructors merge two of them: the one with a node put in merges with
a chain of a single element, so one lemma about merges covers both. -/

/-- Chains are merged by the future ids, whatever becomes of the groups: it is an order, and joining keeps the id.
    -/
theorem keyOrder_futureId {join : HashElement → HashElement → HashElement}
    (hjoin : ∀ p q, (join p q).futureId = p.futureId) :
    KeyOrder (fun _ => True) NodeList.cmpFutureId join := by
  have hlt : ∀ {x y : HashElement}, NodeList.cmpFutureId x y = .lt ↔ x.futureId < y.futureId := Nat.compare_eq_lt
  have heq : ∀ {x y : HashElement}, NodeList.cmpFutureId x y = .eq ↔ x.futureId = y.futureId := Nat.compare_eq_eq
  have hgt : ∀ {x y : HashElement}, NodeList.cmpFutureId x y = .gt ↔ y.futureId < x.futureId := Nat.compare_eq_gt
  refine ⟨?_, ?_, ?_, ?_, ?_, fun _ _ _ => trivial, ?_, ?_⟩
  · intro x _ hx
    exact absurd (hlt.mp hx) (Nat.lt_irrefl _)
  · intro x y z _ _ _ hxy hyz
    exact hlt.mpr (Nat.lt_trans (hlt.mp hxy) (hlt.mp hyz))
  · intro x y _ _ hxy
    exact hlt.mpr (hgt.mp hxy)
  · intro x y z _ _ _ hxy
    rw [hlt, hlt, heq.mp hxy]
  · intro x y z _ _ _ hxy
    rw [hlt, hlt, heq.mp hxy]
  · intro x y z _ _ _ _
    rw [hlt, hlt, hjoin]
  · intro x y z _ _ _ _
    rw [hlt, hlt, hjoin]

/-- For chains, to be sorted is to have growing ids. -/
theorem sortedBy_iff : SortedBy (fun _ => True) NodeList.cmpFutureId chain ↔
    chain.Pairwise fun e e' => e.futureId < e'.futureId := by
  have hlt : ∀ {x y : HashElement}, NodeList.cmpFutureId x y = .lt ↔ x.futureId < y.futureId := Nat.compare_eq_lt
  constructor
  · exact fun hs => hs.sorted.imp hlt.mp
  · exact fun hs => ⟨fun _ _ => trivial, hs.imp hlt.mpr⟩

/-- The element of the id, when a node is put into its group. -/
def insertGroup (precE precH : OmNode → OmNode → Bool) (n : Node) (p _q : HashElement) : HashElement :=
  ⟨p.futureId, NodeList.mergeGroupSingle precE precH n p.group⟩

/-- Behind the place of the id nothing changes. -/
theorem insertChain_behind (hgt : ∀ p ∈ chain, futureId < p.futureId) :
    NodeList.insertChain precE precH n futureId true chain = chain := by
  induction chain with
  | nil => rfl
  | cons p chain ih =>
      have hp := hgt p List.mem_cons_self
      rw [NodeList.insertChain, if_neg (by omega), if_neg (by omega), if_pos rfl,
        ih fun q hq => hgt q (List.mem_cons_of_mem p hq)]

/-- **Putting a node in** is a merge with a chain of one element: before its place the elements are kept, at its
    place the node goes into a group or becomes one, and behind it nothing changes. -/
theorem insertChain_eq (hs : chain.Pairwise fun e e' => e.futureId < e'.futureId) :
    NodeList.insertChain precE precH n futureId false chain =
      mergeBy NodeList.cmpFutureId (insertGroup precE precH n) chain [⟨futureId, [n]⟩] := by
  induction chain with
  | nil => rfl
  | cons p chain ih =>
      obtain ⟨hp, hs⟩ := List.pairwise_cons.mp hs
      rw [NodeList.insertChain, mergeBy_cons_cons]
      rcases Nat.lt_trichotomy p.futureId futureId with hlt | heq | hgt
      · have hcmp : NodeList.cmpFutureId p ⟨futureId, [n]⟩ = .lt := Nat.compare_eq_lt.mpr hlt
        rw [if_pos hlt, hcmp, ih hs]
      · have hcmp : NodeList.cmpFutureId p ⟨futureId, [n]⟩ = .eq := Nat.compare_eq_eq.mpr heq
        rw [if_neg (by omega), if_pos heq, hcmp, insertChain_behind fun q hq => heq ▸ hp q hq]
        dsimp only
        rw [mergeBy_nil_right]
        rfl
      · have hcmp : NodeList.cmpFutureId p ⟨futureId, [n]⟩ = .gt := Nat.compare_eq_gt.mpr hgt
        rw [if_neg (by omega), if_neg (by omega), if_neg Bool.false_ne_true, hcmp,
          insertChain_behind fun q hq => Nat.lt_trans hgt (hp q hq)]
        dsimp only
        rw [mergeBy_nil_right]

/-! ## Lists

From chains back to memory: the walks of the old lists are their chains, the loops store the merged one, and the
lookup in the new list finds what is in its chain. -/

/-- The elements of a list that is being made, once it is done: the list is well formed, and its walk meets just
    these. -/
theorem formed_of_did {base tableLength m : Nat} {memory : PrivateMemory}
    (hdid : (⟨Table.empty base tableLength, memory, []⟩ : Building).Did b chain m)
    (hs : chain.Pairwise fun e e' => e.futureId < e'.futureId) (hpos : 0 < tableLength ∨ chain = []) :
    ∃ w, b.finish.table.hash.WellFormedBy w ∧ w.map Prod.snd = chain := by
  have htable : b.finish.table = (Table.empty base tableLength).linkAll chain := hdid.table
  rcases hpos with hpos | rfl
  · obtain ⟨w, hw, hmap⟩ := (@Table.ok_empty base tableLength hpos).linkAll hs
    rw [htable]
    exact ⟨w, hw.formed, hmap⟩
  · rw [htable]
    exact ⟨[], Table.formed_empty, rfl⟩

/-- The list that is made of two lists. -/
structure Hash.IsUnion (precE precH : OmNode → OmNode → Bool) (h₁ h₂ h : Hash) : Prop where
  formed : h.WellFormed
  ids : ∀ k, (∃ g, h.Has k g) ↔ (∃ g, h₁.Has k g) ∨ ∃ g, h₂.Has k g
  left : ∀ k g, h₁.Has k g → (∀ g', ¬h₂.Has k g') → h.Has k g
  right : ∀ k g, h₂.Has k g → (∀ g', ¬h₁.Has k g') → h.Has k g
  both : ∀ k g₁ g₂, h₁.Has k g₁ → h₂.Has k g₂ → h.Has k (NodeList.groupMerge precE precH g₁ g₂)

/-- The list that is made of a list and a node. -/
structure Hash.IsInsert (precE precH : OmNode → OmNode → Bool) (h : Hash) (n : Node) (futureId : Nat) (h' : Hash) :
    Prop where
  formed : h'.WellFormed
  ids : ∀ k, (∃ g, h'.Has k g) ↔ (∃ g, h.Has k g) ∨ k = futureId
  keep : ∀ k g, h.Has k g → k ≠ futureId → h'.Has k g
  merged : ∀ g, h.Has futureId g → h'.Has futureId (NodeList.mergeGroupSingle precE precH n g)
  new : (∀ g, ¬h.Has futureId g) → h'.Has futureId [n]

/-- What the list that is made has. -/
theorem has_iff_chain (hf : h.WellFormedBy w) (hw : w.map Prod.snd = chain) : h.Has k g ↔ ⟨k, g⟩ ∈ chain := by
  rw [hf.has_iff, hw]

/-- The ids along a walk grow. -/
theorem increasing_values (hf : h.WellFormedBy w) :
    (w.map Prod.snd).Pairwise fun e e' => e.futureId < e'.futureId := List.pairwise_map.mpr hf.increasing

/-- A list that counts no elements has none. -/
theorem head_of_total (hf : h.WellFormedBy w) (htotal : h.total = 0) : h.head = none ∧ w = [] := by
  have hnil : w = [] := List.length_eq_zero_iff.mp (hf.total.symm.trans htotal)
  subst hnil
  exact ⟨hf.walk, rfl⟩

/-- **`List(l1, l2)` and `Merge`** make a well-formed list with the ids of both. An id of one list keeps its group,
    and the groups of an id of both are merged. When both lists are empty there is no table, and nothing is stored.
    -/
theorem union_isUnion {memory : PrivateMemory} {fuel : Nat} (h₁f : h₁.WellFormed) (h₂f : h₂.WellFormed)
    (hfuel : h₁.total + h₂.total ≤ fuel) (hmem : memory.current < memory.size)
    (hmemH : memory.currentH < memory.sizeH) :
    ∃ b, Hash.union precE precH fuel memory h₁ h₂ = some b ∧ Hash.IsUnion precE precH h₁ h₂ b.table.hash := by
  obtain ⟨w₁, hf₁⟩ := h₁f
  obtain ⟨w₂, hf₂⟩ := h₂f
  obtain ⟨c₁, hc₁⟩ : ∃ c₁, c₁ = w₁.map Prod.snd := ⟨_, rfl⟩
  obtain ⟨c₂, hc₂⟩ : ∃ c₂, c₂ = w₂.map Prod.snd := ⟨_, rfl⟩
  have hempty : (h₁.total + h₂.total) * 2 = 0 → (h₁.head = none ∧ h₂.head = none) ∧ w₁ = [] ∧ w₂ = [] := by
    intro htotal
    obtain ⟨hh₁, hw₁⟩ := head_of_total hf₁ (by omega)
    obtain ⟨hh₂, hw₂⟩ := head_of_total hf₂ (by omega)
    exact ⟨⟨hh₁, hh₂⟩, hw₁, hw₂⟩
  have hpos : (h₁.total + h₂.total) * 2 ≠ 0 ∨ (h₁.head = none ∧ h₂.head = none) := by
    by_cases htotal : (h₁.total + h₂.total) * 2 = 0
    · exact Or.inr (hempty htotal).1
    · exact Or.inl htotal
  obtain ⟨b, hrun, hdid⟩ := @union_spec h₁ h₂ w₁ w₂ fuel precE precH memory hf₁.walk hf₂.walk
    (by rw [← hf₁.total, ← hf₂.total]; exact hfuel) hmem hmemH hpos
  rw [← hc₁, ← hc₂] at hdid
  have ho := @keyOrder_futureId (NodeList.joinGroups precE precH) fun _ _ => rfl
  have hs₁ := sortedBy_iff.mpr (hc₁ ▸ increasing_values hf₁)
  have hs₂ := sortedBy_iff.mpr (hc₂ ▸ increasing_values hf₂)
  have hchain : 0 < (h₁.total + h₂.total) * 2 ∨ NodeList.mergeChains precE precH c₁ c₂ = [] := by
    by_cases htotal : (h₁.total + h₂.total) * 2 = 0
    · obtain ⟨-, rfl, rfl⟩ := hempty htotal
      rw [hc₁, hc₂]
      exact Or.inr rfl
    · exact Or.inl (Nat.pos_of_ne_zero htotal)
  obtain ⟨w, hf, hw⟩ := formed_of_did hdid (sortedBy_iff.mp (hs₁.mergeBy ho hs₂)) hchain
  have hhas : ∀ {k g}, b.finish.table.hash.Has k g ↔ _ := fun {k g} =>
    (has_iff_chain (k := k) (g := g) hf hw).trans (mem_mergeBy ho hs₁ hs₂)
  have hhas₁ : ∀ {k g}, h₁.Has k g ↔ ⟨k, g⟩ ∈ c₁ := has_iff_chain hf₁ hc₁.symm
  have hhas₂ : ∀ {k g}, h₂.Has k g ↔ ⟨k, g⟩ ∈ c₂ := has_iff_chain hf₂ hc₂.symm
  have heq : ∀ {x y : HashElement}, NodeList.cmpFutureId x y = .eq ↔ x.futureId = y.futureId := Nat.compare_eq_eq
  have hboth : ∀ k g₁ g₂, h₁.Has k g₁ → h₂.Has k g₂ →
      b.finish.table.hash.Has k (NodeList.groupMerge precE precH g₁ g₂) := by
    intro k g₁ g₂ hg₁ hg₂
    exact hhas.mpr (Or.inr (Or.inr ⟨_, hhas₁.mp hg₁, _, hhas₂.mp hg₂, heq.mpr rfl, rfl⟩))
  have hleft : ∀ k g, h₁.Has k g → (∀ g', ¬h₂.Has k g') → b.finish.table.hash.Has k g := by
    intro k g hg hno
    refine hhas.mpr (Or.inl ⟨hhas₁.mp hg, ?_⟩)
    rintro ⟨k', g'⟩ hg' hcmp
    obtain rfl : k = k' := heq.mp hcmp
    exact hno g' (hhas₂.mpr hg')
  have hright : ∀ k g, h₂.Has k g → (∀ g', ¬h₁.Has k g') → b.finish.table.hash.Has k g := by
    intro k g hg hno
    refine hhas.mpr (Or.inr (Or.inl ⟨hhas₂.mp hg, ?_⟩))
    rintro ⟨k', g'⟩ hg' hcmp
    obtain rfl : k' = k := heq.mp hcmp
    exact hno g' (hhas₁.mpr hg')
  refine ⟨b.finish, hrun, ⟨w, hf⟩, ?_, hleft, hright, hboth⟩
  intro k
  constructor
  · rintro ⟨g, hg⟩
    rcases hhas.mp hg with ⟨hg, -⟩ | ⟨hg, -⟩ | ⟨⟨k₁, g₁⟩, hg₁, ⟨k₂, g₂⟩, hg₂, hcmp, hj⟩
    · exact Or.inl ⟨g, hhas₁.mpr hg⟩
    · exact Or.inr ⟨g, hhas₂.mpr hg⟩
    · obtain rfl : k = k₁ := congrArg HashElement.futureId hj
      exact Or.inl ⟨g₁, hhas₁.mpr hg₁⟩
  · by_cases h₁k : ∃ g, h₁.Has k g
    · obtain ⟨g₁, hg₁⟩ := h₁k
      intro _
      by_cases h₂k : ∃ g, h₂.Has k g
      · obtain ⟨g₂, hg₂⟩ := h₂k
        exact ⟨_, hboth k g₁ g₂ hg₁ hg₂⟩
      · exact ⟨g₁, hleft k g₁ hg₁ fun g hg => h₂k ⟨g, hg⟩⟩
    · rintro (h₁k' | ⟨g₂, hg₂⟩)
      · exact absurd h₁k' h₁k
      · exact ⟨g₂, hright k g₂ hg₂ fun g hg => h₁k ⟨g, hg⟩⟩

/-- **`List(l, n, future_id)`** makes a well-formed list with one id more, or with the node in its group. The other
    groups are those of the old list, and are not copied. -/
theorem insert_isInsert {memory : PrivateMemory} {fuel : Nat} (hformed : h.WellFormed)
    (hfuel : h.total + 1 ≤ fuel) (hmemH : memory.currentH < memory.sizeH) :
    ∃ b, Hash.insert precE precH fuel memory h n futureId = some b ∧
      Hash.IsInsert precE precH h n futureId b.table.hash := by
  obtain ⟨w₁, hf₁⟩ := hformed
  obtain ⟨c₁, hc₁⟩ : ∃ c₁, c₁ = w₁.map Prod.snd := ⟨_, rfl⟩
  obtain ⟨b, hrun, hdid⟩ := @insert_spec h w₁ fuel precE precH memory n futureId hf₁.walk
    (by rw [← hf₁.total]; exact hfuel) hmemH
  have hs := hc₁ ▸ increasing_values hf₁
  rw [← hc₁, insertChain_eq hs] at hdid
  have ho : KeyOrder (fun _ => True) NodeList.cmpFutureId (insertGroup precE precH n) :=
    keyOrder_futureId fun _ _ => rfl
  have hs₁ := sortedBy_iff.mpr hs
  have hs₂ : SortedBy (fun _ => True) NodeList.cmpFutureId [⟨futureId, [n]⟩] :=
    sortedBy_iff.mpr (List.pairwise_singleton _ _)
  obtain ⟨w, hf, hw⟩ := formed_of_did hdid (sortedBy_iff.mp (hs₁.mergeBy ho hs₂)) (Or.inl (by omega))
  have hhas : ∀ {k g}, b.finish.table.hash.Has k g ↔ _ := fun {k g} =>
    (has_iff_chain (k := k) (g := g) hf hw).trans (mem_mergeBy ho hs₁ hs₂)
  have hhas₁ : ∀ {k g}, h.Has k g ↔ ⟨k, g⟩ ∈ c₁ := has_iff_chain hf₁ hc₁.symm
  have heq : ∀ {x y : HashElement}, NodeList.cmpFutureId x y = .eq ↔ x.futureId = y.futureId := Nat.compare_eq_eq
  have hkeep : ∀ k g, h.Has k g → k ≠ futureId → b.finish.table.hash.Has k g := by
    intro k g hg hk
    refine hhas.mpr (Or.inl ⟨hhas₁.mp hg, ?_⟩)
    intro y hy hcmp
    rw [List.mem_singleton.mp hy] at hcmp
    exact hk (heq.mp hcmp)
  have hmerged : ∀ g, h.Has futureId g →
      b.finish.table.hash.Has futureId (NodeList.mergeGroupSingle precE precH n g) := by
    intro g hg
    exact hhas.mpr (Or.inr (Or.inr ⟨_, hhas₁.mp hg, _, List.mem_singleton_self _, heq.mpr rfl, rfl⟩))
  have hnew : (∀ g, ¬h.Has futureId g) → b.finish.table.hash.Has futureId [n] := by
    intro hno
    refine hhas.mpr (Or.inr (Or.inl ⟨List.mem_singleton_self _, ?_⟩))
    rintro ⟨k, g⟩ hg hcmp
    obtain rfl : k = futureId := heq.mp hcmp
    exact hno g (hhas₁.mpr hg)
  refine ⟨b.finish, hrun, ⟨w, hf⟩, ?_, hkeep, hmerged, hnew⟩
  intro k
  constructor
  · rintro ⟨g, hg⟩
    rcases hhas.mp hg with ⟨hg, -⟩ | ⟨hg, -⟩ | ⟨⟨k₁, g₁⟩, hg₁, y, hy, hcmp, hj⟩
    · exact Or.inl ⟨g, hhas₁.mpr hg⟩
    · exact Or.inr (congrArg HashElement.futureId (List.mem_singleton.mp hg))
    · obtain rfl : k = k₁ := congrArg HashElement.futureId hj
      exact Or.inl ⟨g₁, hhas₁.mpr hg₁⟩
  · intro hk
    by_cases heqk : k = futureId
    · subst heqk
      by_cases hex : ∃ g, h.Has k g
      · obtain ⟨g, hg⟩ := hex
        exact ⟨_, hmerged g hg⟩
      · exact ⟨[n], hnew fun g hg => hex ⟨g, hg⟩⟩
    · obtain ⟨g, hg⟩ := hk.resolve_right heqk
      exact ⟨g, hkeep k g hg heqk⟩

/-- **The list hash stays well formed and finds every group.** -/
theorem hash_exact (precE precH : OmNode → OmNode → Bool) :
    (∀ (h₁ h₂ : Hash) (memory : PrivateMemory) (fuel : Nat), h₁.WellFormed → h₂.WellFormed →
      memory.current < memory.size → memory.currentH < memory.sizeH → h₁.total + h₂.total ≤ fuel →
      ∃ b, Hash.union precE precH fuel memory h₁ h₂ = some b ∧ Hash.IsUnion precE precH h₁ h₂ b.table.hash) ∧
    (∀ (h : Hash) (n : Node) (futureId : Nat) (memory : PrivateMemory) (fuel : Nat), h.WellFormed →
      memory.currentH < memory.sizeH → h.total + 1 ≤ fuel →
      ∃ b, Hash.insert precE precH fuel memory h n futureId = some b ∧
        Hash.IsInsert precE precH h n futureId b.table.hash) ∧
    ∀ h : Hash, h.WellFormed → ∀ futureId group, h.findGroup futureId = some group ↔ h.Has futureId group := by
  refine ⟨?_, ?_, ?_⟩
  · intro h₁ h₂ memory fuel hf₁ hf₂ hmem hmemH hfuel
    exact union_isUnion hf₁ hf₂ hfuel hmem hmemH
  · intro h n futureId memory fuel hf hmemH hfuel
    exact insert_isInsert hf hfuel hmemH
  · intro h hf futureId group
    exact hf.findGroup_iff

/-- A new list is well formed. -/
theorem formed_new : Hash.new.WellFormed := by
  have hat : ∀ i, Hash.new.at? i = none := fun _ => rfl
  refine ⟨[], rfl, List.Pairwise.nil, ?_, rfl, rfl, ?_, ?_, ?_, List.Pairwise.nil⟩
  · intro i
    simp [hat]
  · intro i hi hlt
    exact absurd hlt (Nat.not_lt.mpr hi)
  · intro i c hc
    cases hc
  · intro i c hc
    cases hc

/-- No node is before another. -/
def unordered : OmNode → OmNode → Bool := fun _ _ => false

/-- A list with one node more. -/
def listAnd (h : Hash) (n : Node) (futureId : Nat) : Option Building :=
  Hash.insert unordered unordered (h.total + 1) ⟨0, 10, 0, 100⟩ h n futureId

/-- The union of two lists. -/
def twoLists (h₁ h₂ : Hash) : Option Building := Hash.union unordered unordered (h₁.total + h₂.total) ⟨2, 10, 20, 100⟩ h₁ h₂

/-- The lists have the ids `2` and `5`, and `5` and `13`: the union merges the groups of `5`, and puts `13` behind the table
of eight slots. -/
theorem hash_exact_collision : ∃ a b u : Building,
    ((listAnd .new ⟨7, 7⟩ 5).bind fun a => listAnd a.table.hash ⟨8, 8⟩ 2) = some a ∧
      ((listAnd .new ⟨9, 9⟩ 5).bind fun b => listAnd b.table.hash ⟨6, 6⟩ 13) = some b ∧
      twoLists a.table.hash b.table.hash = some u ∧ u.table.hash.bufferLength = 1 ∧
      u.table.hash.findGroup 13 = some [⟨6, 6⟩] ∧ u.table.hash.findGroup 2 = some [⟨8, 8⟩] ∧
      u.table.hash.findGroup 5 = some (NodeList.groupMerge unordered unordered [⟨7, 7⟩] [⟨9, 9⟩]) := by
  obtain ⟨hunion, hinsert, hfind⟩ := hash_exact unordered unordered
  have hno : ∀ k g, ¬Hash.new.Has k g := by
    rintro k g ⟨i, c, hc, -⟩
    cases hc
  -- two inserts make each list
  have hlist : ∀ n n' id id', id ≠ id' → ∃ a₁ a : Building, listAnd .new n id = some a₁ ∧ listAnd a₁.table.hash n' id' = some a ∧
      a.table.hash.WellFormed ∧ a.table.hash.Has id [n] ∧ a.table.hash.Has id' [n'] ∧
      ∀ k g, a.table.hash.Has k g → k = id ∨ k = id' := by
    intro n n' id id' hne
    obtain ⟨a₁, hrun₁, ha₁⟩ := hinsert .new n id ⟨0, 10, 0, 100⟩ _ formed_new (by decide) (Nat.le_refl _)
    obtain ⟨a, hrun, ha⟩ := hinsert a₁.table.hash n' id' ⟨0, 10, 0, 100⟩ _ ha₁.formed (by decide) (Nat.le_refl _)
    have hids : ∀ k g, a₁.table.hash.Has k g → k = id := by
      intro k g hg
      exact ((ha₁.ids k).mp ⟨g, hg⟩).resolve_left fun ⟨g', hg'⟩ => hno k g' hg'
    refine ⟨a₁, a, hrun₁, hrun, ha.formed, ha.keep id _ (ha₁.new (hno id)) hne, ha.new ?_, ?_⟩
    · intro g hg
      exact hne (hids id' g hg).symm
    · intro k g hg
      rcases (ha.ids k).mp ⟨g, hg⟩ with ⟨g', hg'⟩ | hk
      · exact Or.inl (hids k g' hg')
      · exact Or.inr hk
  obtain ⟨a₁, a, hruna₁, hruna, hfa, ha5, ha2, haids⟩ := hlist ⟨7, 7⟩ ⟨8, 8⟩ 5 2 (by decide)
  obtain ⟨b₁, b, hrunb₁, hrunb, hfb, hb5, hb13, hbids⟩ := hlist ⟨9, 9⟩ ⟨6, 6⟩ 5 13 (by decide)
  obtain ⟨u, hrun, hu⟩ := hunion a.table.hash b.table.hash ⟨2, 10, 20, 100⟩ _ hfa hfb (by decide) (by decide) (Nat.le_refl _)
  have hrun : twoLists a.table.hash b.table.hash = some u := hrun
  have hbuffer : ((listAnd .new ⟨7, 7⟩ 5).bind fun a => (listAnd a.table.hash ⟨8, 8⟩ 2).bind fun a =>
      (listAnd .new ⟨9, 9⟩ 5).bind fun b => (listAnd b.table.hash ⟨6, 6⟩ 13).bind fun b =>
        (twoLists a.table.hash b.table.hash).map fun u => u.table.hash.bufferLength) = some 1 := by
    decide +kernel
  simp only [hruna₁, hruna, hrunb₁, hrunb, hrun, Option.bind_some, Option.map_some, Option.some.injEq] at hbuffer
  refine ⟨a, b, u, by rw [hruna₁]; exact hruna, by rw [hrunb₁]; exact hrunb, hrun, hbuffer, ?_, ?_, ?_⟩
  · refine (hfind _ hu.formed 13 _).mpr (hu.right 13 _ hb13 fun g hg => ?_)
    exact absurd (haids 13 g hg) (by decide)
  · refine (hfind _ hu.formed 2 _).mpr (hu.left 2 _ ha2 fun g hg => ?_)
    exact absurd (hbids 2 g hg) (by decide)
  · exact (hfind _ hu.formed 5 _).mpr (hu.both 5 _ _ ha5 hb5)

end FOrder.Rdtool
