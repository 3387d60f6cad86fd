import FOrder.Lib.SortedList

/-!
# `Rdtool.NodeList` — the predecessor lists

`list.cpp`: a list keeps, for each future it knows, a group of om nodes, in a hash table that is also a linked
list in the order of the future ids. The english and the hebrew node of a strand are made together, so one
`OmNode` names both; `precE` and `precH` are `om_precedes` in the two orders.

Elements and groups are never written again once their list is made, so they are values here. The uninitialised
`hash.head` of a one-entry list is read as null: a walk along it meets nothing.

How the elements lie in the arena and in the table is left to `Rdtool.Hash` and `Rdtool.HashExact`, where the same
constructors are taken with their pointers. Here a list is what its walks and its lookups meet. The two can differ,
since an entry behind the table is found by a binary search, which misses entries when the ids do not grow; so
`Knows` speaks of both, and soundness needs no more than that nothing is met that was not put in.
-/

namespace FOrder.Rdtool

abbrev OmNode := Nat

structure Node where
  cnode : OmNode
  desc : OmNode
  deriving DecidableEq

structure HashElement where
  futureId : Nat
  group : List Node
  deriving DecidableEq

/-- A `List` object. `table` holds the first `table_length` elements, `none` where `group` is null, `buffer`
    the ones behind them; `chain` is what a walk from `hash.head` along `next` meets. -/
structure NodeList where
  table : List (Option HashElement)
  buffer : List HashElement
  chain : List HashElement
  total : Nat
  deriving DecidableEq

namespace NodeList

/-- `List::List()`. -/
def new : NodeList := ⟨[], [], [], 0⟩

/-- `List::List(node, future_id)`. -/
def single (node : Node) (futureId : Nat) : NodeList := ⟨[some ⟨futureId, [node]⟩], [], [], 1⟩

/-- `List::Empty`. -/
def isEmpty (l : NodeList) : Bool := l.total == 0

/-- A table of null groups. -/
def emptyTable (tableLength : Nat) : NodeList := ⟨List.replicate tableLength none, [], [], 0⟩

/-- Store an element in its slot, or behind the table if the slot is taken, and link it to the last one. -/
def put (l : NodeList) (e : HashElement) : NodeList :=
  match l.table[e.futureId % l.table.length]? with
  | some none =>
      { l with
        table := l.table.set (e.futureId % l.table.length) (some e)
        chain := l.chain ++ [e]
        total := l.total + 1 }
  | _ => { l with buffer := l.buffer ++ [e], chain := l.chain ++ [e], total := l.total + 1 }

/-- The hash made from the elements in the order in which they are met. -/
def ofChain (tableLength : Nat) (chain : List HashElement) : NodeList :=
  chain.foldl put (emptyTable tableLength)

section Prec

variable (precE precH : OmNode → OmNode → Bool)

/-- Groups are kept in the english order of their `cnode`s. -/
def cmpCnode (n₁ n₂ : Node) : Ordering :=
  if precE n₁.cnode n₂.cnode then .lt else if n₁.cnode = n₂.cnode then .eq else .gt

/-- Two nodes with one `cnode`: the one whose `desc` is not before the other's. -/
def pickNode (n₁ n₂ : Node) : Node :=
  if precE n₁.desc n₂.desc && precH n₁.desc n₂.desc then n₂ else n₁

/-- `group_merge`. -/
def groupMerge : List Node → List Node → List Node := mergeBy (cmpCnode precE) (pickNode precE precH)

def cmpFutureId (p₁ p₂ : HashElement) : Ordering := compare p₁.futureId p₂.futureId

def joinGroups (p₁ p₂ : HashElement) : HashElement :=
  ⟨p₁.futureId, groupMerge precE precH p₁.group p₂.group⟩

/-- The walk along two lists that `List(l1, l2)` and `Merge` share. -/
def mergeChains : List HashElement → List HashElement → List HashElement :=
  mergeBy cmpFutureId (joinGroups precE precH)

/-- `List::List(l1, l2)`. -/
def union (l₁ l₂ : NodeList) : NodeList :=
  ofChain ((l₁.total + l₂.total) * 2) (mergeChains precE precH l₁.chain l₂.chain)

/-- `this->Merge(ori)`; a list that meets no element keeps its head, which is null then. -/
def merge (this ori : NodeList) : NodeList :=
  ofChain ((this.total + ori.total) * 2) (mergeChains precE precH this.chain ori.chain)

/-- `merge_group_single`. The comma in the source drops the english half of the test of `desc`. -/
def mergeGroupSingle (n : Node) : List Node → List Node
  | [] => [n]
  | nl :: group =>
      if precE nl.cnode n.cnode then
        (if precH nl.desc n.cnode then { nl with desc := n.cnode } else nl) :: mergeGroupSingle n group
      else n :: nl :: group

/-- The walk of `List(l, n, future_id)`. -/
def insertChain (n : Node) (futureId : Nat) : Bool → List HashElement → List HashElement
  | inserted, [] => if inserted then [] else [⟨futureId, [n]⟩]
  | inserted, p :: chain =>
      if p.futureId < futureId then p :: insertChain n futureId inserted chain
      else if p.futureId = futureId then
        ⟨p.futureId, mergeGroupSingle precE precH n p.group⟩ :: insertChain n futureId true chain
      else if inserted then p :: insertChain n futureId true chain
      else ⟨futureId, [n]⟩ :: p :: insertChain n futureId true chain

/-- `List::List(l, n, future_id)`. -/
def insert (l : NodeList) (n : Node) (futureId : Nat) : NodeList :=
  ofChain ((l.total + 1) * 2) (insertChain precE precH n futureId false l.chain)

/-- The group of a future: its slot, or a binary search behind the table. -/
def findGroup (l : NodeList) (futureId : Nat) : Option (List Node) :=
  match l.table[futureId % l.table.length]? with
  | some (some e) =>
      if e.futureId = futureId then some e.group
      else (binSearch (fun e => compare e.futureId futureId) l.buffer (l.buffer.length + 1) 0
        l.buffer.length).map HashElement.group
  | _ => none

/-- One step of the search in a group: is `node` before the entry's `cnode`, or its `desc`? -/
def testNode (node : OmNode) (n : Node) : Ordering :=
  if precE node n.cnode && precH node n.cnode then .eq
  else if !precE node n.cnode then .lt
  else if precE node n.desc && precH node n.desc then .eq
  else .gt

/-- `List::Search`. -/
def search (l : NodeList) (node : OmNode) (futureId : Nat) : Bool :=
  if l.isEmpty then false
  else
    match l.findGroup futureId with
    | none => false
    | some group =>
        (binSearch (testNode precE precH node) group (group.length + 1) 0 group.length).isSome

end Prec

/-! ## What a list records

The facts that soundness needs, and no more: a search that says yes has met a strand that was put into the list, and
no constructor puts in a strand of its own. Nothing has to be sorted for that. -/

/-- The list records `node` for a future: some entry has it as `cnode` or `desc`. -/
def Records (chain : List HashElement) (futureId : Nat) (node : OmNode) : Prop :=
  ∃ e ∈ chain, e.futureId = futureId ∧ ∃ n ∈ e.group, n.cnode = node ∨ n.desc = node

/-- The elements a lookup can find. -/
def elements (l : NodeList) : List HashElement := l.table.filterMap id ++ l.buffer

variable {precE precH : OmNode → OmNode → Bool}

/-- What two chains record. -/
theorem Records.append {c₁ c₂ : List HashElement} {futureId : Nat} {node : OmNode} :
    Records (c₁ ++ c₂) futureId node ↔ Records c₁ futureId node ∨ Records c₂ futureId node := by
  unfold Records
  simp only [List.mem_append, or_and_right, exists_or]

/-- Everything put in was already there, or is the new element; and the same for the walk. -/
theorem mem_put {l : NodeList} {e x : HashElement} :
    x ∈ (l.put e).elements → x ∈ l.elements ∨ x = e := by
  unfold put elements
  intro h
  split at h
  · rcases List.mem_append.mp h with h | h
    · rw [List.mem_filterMap] at h
      obtain ⟨o, ho, hx⟩ := h
      rcases List.mem_or_eq_of_mem_set ho with ho | rfl
      · exact Or.inl (List.mem_append_left _ (List.mem_filterMap.mpr ⟨o, ho, hx⟩))
      · exact Or.inr (Option.some.inj hx).symm
    · exact Or.inl (List.mem_append_right _ h)
  · rcases List.mem_append.mp h with h | h
    · exact Or.inl (List.mem_append_left _ h)
    · rcases List.mem_append.mp h with h | h
      · exact Or.inl (List.mem_append_right _ h)
      · exact Or.inr (List.mem_singleton.mp h)

/-- Storing a chain makes no element up. -/
theorem mem_foldl_put {chain : List HashElement} {x : HashElement} :
    ∀ {l : NodeList}, x ∈ (chain.foldl put l).elements → x ∈ l.elements ∨ x ∈ chain := by
  induction chain with
  | nil => exact fun h => Or.inl h
  | cons e chain ih =>
      intro l h
      rcases ih h with h | h
      · rcases mem_put h with h | rfl
        · exact Or.inl h
        · exact Or.inr List.mem_cons_self
      · exact Or.inr (List.mem_cons_of_mem _ h)

/-- Nor does a hash that is made of a chain. -/
theorem mem_ofChain {tableLength : Nat} {chain : List HashElement} {x : HashElement}
    (h : x ∈ (ofChain tableLength chain).elements) : x ∈ chain := by
  rcases mem_foldl_put h with h | h
  · have hnone : (List.replicate tableLength (none : Option HashElement)).filterMap id = [] := by
      rw [List.filterMap_eq_nil_iff]
      intro o ho
      exact List.eq_of_mem_replicate ho
    rw [elements, emptyTable, hnone] at h
    cases h
  · exact h

/-- The walk goes on along what is stored. -/
theorem chain_foldl_put {chain : List HashElement} :
    ∀ {l : NodeList}, (chain.foldl put l).chain = l.chain ++ chain := by
  induction chain with
  | nil => simp
  | cons e chain ih =>
      intro l
      have hput : (l.put e).chain = l.chain ++ [e] := by
        unfold put
        split <;> rfl
      rw [List.foldl_cons, ih, hput, List.append_assoc]
      rfl

/-- A hash that is made of a chain is walked along that chain. -/
@[simp] theorem chain_ofChain {tableLength : Nat} {chain : List HashElement} :
    (ofChain tableLength chain).chain = chain := by
  rw [ofChain, chain_foldl_put]
  rfl

/-- A group that is found is the group of an element. -/
theorem findGroup_some {l : NodeList} {futureId : Nat} {group : List Node}
    (h : l.findGroup futureId = some group) :
    ∃ e ∈ l.elements, e.futureId = futureId ∧ e.group = group := by
  unfold findGroup at h
  split at h
  · rename_i e he
    split at h
    · rename_i hid
      refine ⟨e, List.mem_append_left _ ?_, hid, Option.some.inj h⟩
      exact List.mem_filterMap.mpr ⟨some e, List.mem_of_getElem? he, rfl⟩
    · obtain ⟨e', he', hg⟩ := Option.map_eq_some_iff.mp h
      obtain ⟨hmem, hcmp⟩ := binSearch_some he'
      exact ⟨e', List.mem_append_right _ hmem, Nat.compare_eq_eq.mp hcmp, hg⟩
  · cases h

/-- The search stops at an entry whose node or `desc` is after the query in both orders. -/
theorem testNode_eq {node : OmNode} {n : Node} (h : testNode precE precH node n = .eq) :
    (precE node n.cnode = true ∧ precH node n.cnode = true) ∨
      (precE node n.desc = true ∧ precH node n.desc = true) := by
  unfold testNode at h
  split at h
  · rename_i hc
    exact Or.inl ((Bool.and_eq_true _ _).mp hc)
  · split at h
    · cases h
    · split at h
      · rename_i hd
        exact Or.inr ((Bool.and_eq_true _ _).mp hd)
      · cases h

/-- **A search that says yes** has found a recorded node that comes after the query. -/
theorem search_sound {l : NodeList} {node : OmNode} {futureId : Nat}
    (h : l.search precE precH node futureId = true) :
    ∃ n, Records l.elements futureId n ∧ precE node n = true ∧ precH node n = true := by
  unfold search at h
  split at h
  · cases h
  · split at h
    · cases h
    · rename_i group hgroup
      obtain ⟨e, he, hid, rfl⟩ := findGroup_some hgroup
      obtain ⟨n, hn⟩ := Option.isSome_iff_exists.mp h
      obtain ⟨hmem, htest⟩ := binSearch_some hn
      rcases testNode_eq htest with ⟨hE, hH⟩ | ⟨hE, hH⟩
      · exact ⟨n.cnode, ⟨e, he, hid, n, hmem, Or.inl rfl⟩, hE, hH⟩
      · exact ⟨n.desc, ⟨e, he, hid, n, hmem, Or.inr rfl⟩, hE, hH⟩

/-- A merged group has entries of the two groups only: where two have one `cnode`, one of them is taken as it is. -/
theorem mem_groupMerge {g₁ g₂ : List Node} {n : Node} (h : n ∈ groupMerge precE precH g₁ g₂) :
    n ∈ g₁ ∨ n ∈ g₂ := by
  rcases mergeBy_from h with h | h | ⟨n₁, h₁, n₂, h₂, -, rfl⟩
  · exact Or.inl h
  · exact Or.inr h
  · unfold pickNode
    split
    · exact Or.inr h₂
    · exact Or.inl h₁

/-- Merging walks records nothing new. -/
theorem records_mergeChains {c₁ c₂ : List HashElement} {futureId : Nat} {node : OmNode}
    (h : Records (mergeChains precE precH c₁ c₂) futureId node) :
    Records c₁ futureId node ∨ Records c₂ futureId node := by
  obtain ⟨e, he, hid, n, hn, hnode⟩ := h
  rcases mergeBy_from he with he | he | ⟨p₁, h₁, p₂, h₂, hcmp, rfl⟩
  · exact Or.inl ⟨e, he, hid, n, hn, hnode⟩
  · exact Or.inr ⟨e, he, hid, n, hn, hnode⟩
  · have hsame : p₁.futureId = p₂.futureId := Nat.compare_eq_eq.mp hcmp
    rcases mem_groupMerge hn with hn | hn
    · exact Or.inl ⟨p₁, h₁, hid, n, hn, hnode⟩
    · exact Or.inr ⟨p₂, h₂, hsame.symm.trans hid, n, hn, hnode⟩

/-- A node that is put into a group is an entry of its own, and it may become the `desc` of others. -/
theorem mem_mergeGroupSingle {n m : Node} {group : List Node}
    (h : m ∈ mergeGroupSingle precE precH n group) :
    m = n ∨ ∃ m' ∈ group, m.cnode = m'.cnode ∧ (m.desc = m'.desc ∨ m.desc = n.cnode) := by
  induction group with
  | nil => exact Or.inl (List.mem_singleton.mp h)
  | cons nl group ih =>
      unfold mergeGroupSingle at h
      split at h
      · rcases List.mem_cons.mp h with rfl | h
        · refine Or.inr ⟨nl, List.mem_cons_self, ?_⟩
          split
          · exact ⟨rfl, Or.inr rfl⟩
          · exact ⟨rfl, Or.inl rfl⟩
        · rcases ih h with h | ⟨m', hm', h⟩
          · exact Or.inl h
          · exact Or.inr ⟨m', List.mem_cons_of_mem _ hm', h⟩
      · rcases List.mem_cons.mp h with h | h
        · exact Or.inl h
        · exact Or.inr ⟨m, h, rfl, Or.inl rfl⟩

/-- Inserting a node records that node and nothing else. -/
theorem records_insertChain {chain : List HashElement} {n : Node} {futureId futureId' : Nat} {node : OmNode}
    {inserted : Bool} (hn : n.desc = n.cnode)
    (h : Records (insertChain precE precH n futureId inserted chain) futureId' node) :
    Records chain futureId' node ∨ (futureId' = futureId ∧ node = n.cnode) := by
  induction chain generalizing inserted with
  | nil =>
      obtain ⟨e, he, hid, m, hm, hnode⟩ := h
      unfold insertChain at he
      split at he
      · cases he
      · obtain rfl := List.mem_singleton.mp he
        obtain rfl := List.mem_singleton.mp hm
        rw [hn, or_self] at hnode
        exact Or.inr ⟨hid.symm, hnode.symm⟩
  | cons p chain ih =>
      have htail : ∀ {ins : Bool}, Records (insertChain precE precH n futureId ins chain) futureId' node →
          Records (p :: chain) futureId' node ∨ (futureId' = futureId ∧ node = n.cnode) := by
        intro ins hr
        rcases ih hr with ⟨e, he, hr⟩ | hr
        · exact Or.inl ⟨e, List.mem_cons_of_mem _ he, hr⟩
        · exact Or.inr hr
      obtain ⟨e, he, hid, m, hm, hnode⟩ := h
      unfold insertChain at he
      split at he
      · rcases List.mem_cons.mp he with rfl | he
        · exact Or.inl ⟨e, List.mem_cons_self, hid, m, hm, hnode⟩
        · exact htail ⟨e, he, hid, m, hm, hnode⟩
      · split at he
        · rename_i hp
          rcases List.mem_cons.mp he with rfl | he
          · rcases mem_mergeGroupSingle hm with rfl | ⟨m', hm', hc, hd⟩
            · rw [hn, or_self] at hnode
              exact Or.inr ⟨hid.symm.trans hp, hnode.symm⟩
            · rcases hnode with hnode | hnode
              · exact Or.inl ⟨p, List.mem_cons_self, hid, m', hm', Or.inl (hc.symm.trans hnode)⟩
              · rcases hd with hd | hd
                · exact Or.inl ⟨p, List.mem_cons_self, hid, m', hm', Or.inr (hd.symm.trans hnode)⟩
                · exact Or.inr ⟨hid.symm.trans hp, hnode.symm.trans hd⟩
          · exact htail ⟨e, he, hid, m, hm, hnode⟩
        · split at he
          · rcases List.mem_cons.mp he with rfl | he
            · exact Or.inl ⟨e, List.mem_cons_self, hid, m, hm, hnode⟩
            · exact htail ⟨e, he, hid, m, hm, hnode⟩
          · rcases List.mem_cons.mp he with rfl | he
            · obtain rfl := List.mem_singleton.mp hm
              rw [hn, or_self] at hnode
              exact Or.inr ⟨hid.symm, hnode.symm⟩
            · rcases List.mem_cons.mp he with rfl | he
              · exact Or.inl ⟨e, List.mem_cons_self, hid, m, hm, hnode⟩
              · exact htail ⟨e, he, hid, m, hm, hnode⟩

/-! ## What the operations record -/

/-- What a search or a walk can meet. -/
def Knows (l : NodeList) (futureId : Nat) (node : OmNode) : Prop := Records (l.elements ++ l.chain) futureId node

/-- A hash that is made of a chain knows what the chain records. -/
theorem knows_ofChain {tableLength futureId : Nat} {chain : List HashElement} {node : OmNode}
    (h : (ofChain tableLength chain).Knows futureId node) : Records chain futureId node := by
  unfold Knows at h
  rw [Records.append, chain_ofChain] at h
  rcases h with ⟨e, he, hr⟩ | h
  · exact ⟨e, mem_ofChain he, hr⟩
  · exact h

/-- What the walk records is known. -/
theorem Knows.of_chain {l : NodeList} {futureId : Nat} {node : OmNode} (h : Records l.chain futureId node) :
    l.Knows futureId node := Records.append.mpr (Or.inr h)

/-- What a lookup can find is known. -/
theorem Knows.of_elements {l : NodeList} {futureId : Nat} {node : OmNode}
    (h : Records l.elements futureId node) : l.Knows futureId node := Records.append.mpr (Or.inl h)

/-- A new list knows nothing. -/
theorem not_knows_new {futureId : Nat} {node : OmNode} : ¬new.Knows futureId node := by
  rintro ⟨e, he, -⟩
  cases he

/-- A list of one node knows that node. -/
theorem knows_single {n : Node} {futureId futureId' : Nat} {node : OmNode} (hn : n.desc = n.cnode)
    (h : (single n futureId).Knows futureId' node) : futureId' = futureId ∧ node = n.cnode := by
  obtain ⟨e, he, hid, m, hm, hnode⟩ := h
  obtain rfl := List.mem_singleton.mp he
  obtain rfl := List.mem_singleton.mp hm
  rw [hn, or_self] at hnode
  exact ⟨hid.symm, hnode.symm⟩

/-- `Merge` makes nothing up. -/
theorem knows_merge {l l' : NodeList} {futureId : Nat} {node : OmNode}
    (h : (l.merge precE precH l').Knows futureId node) : l.Knows futureId node ∨ l'.Knows futureId node :=
  (records_mergeChains (knows_ofChain h)).imp Knows.of_chain Knows.of_chain

/-- Neither does the union of two lists. -/
theorem knows_union {l l' : NodeList} {futureId : Nat} {node : OmNode}
    (h : (l.union precE precH l').Knows futureId node) : l.Knows futureId node ∨ l'.Knows futureId node :=
  (records_mergeChains (knows_ofChain h)).imp Knows.of_chain Knows.of_chain

/-- A list with a node put in knows, besides the old ones, that node. -/
theorem knows_insert {l : NodeList} {n : Node} {futureId futureId' : Nat} {node : OmNode}
    (hn : n.desc = n.cnode) (h : (l.insert precE precH n futureId).Knows futureId' node) :
    l.Knows futureId' node ∨ (futureId' = futureId ∧ node = n.cnode) :=
  (records_insertChain hn (knows_ofChain h)).imp_left Knows.of_chain

end NodeList
end FOrder.Rdtool
