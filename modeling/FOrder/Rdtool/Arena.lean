import FOrder.Rdtool.HashExact
import Mathlib.Data.Finset.Card
import Mathlib.Data.Finset.Dedup

/-!
# `Rdtool.Arena` — how much of a worker's memory a list takes

`Memory::init` gives each worker a part of one array of nodes and one of elements, right behind the part of the
worker before. The constructors assert that the first free index is inside the part, not that there is room: they
stay inside exactly when the groups that are written and the table with its overflow fit behind it.

The room is said of the chains that are given, before anything is made of them. For the nodes it is the length of
the groups that are written anew; for the elements it is the slots of the table, and the elements whose slot is
taken, of which there are as many as there are more elements than slots in use (`overflow`). `Filled` counts the
latter while the elements are stored, and it does not matter in which order that happens: `overflow_congr`.

Nothing is asked of the lists but that their walks end (`Hash.Chain`), so the equivalence is about every call that
passes its assertions.
-/

namespace FOrder.Rdtool

variable {precE precH : OmNode → OmNode → Bool} {h h₁ h₂ : Hash} {w : List (Nat × HashElement)} {b : Building}
  {chain c₁ c₂ : List HashElement} {n : Node} {futureId : Nat} {memory : PrivateMemory}

/-- `List::List(node, future_id)`; the head is not written and read as null. -/
def Hash.single (memory : PrivateMemory) (node : Node) (futureId : Nat) : Option Building := do
  require (memory.current < memory.size)
  require (memory.currentH < memory.sizeH)
  some {
    table := ⟨memory.currentH, ⟨1, 0, 1, [some ⟨⟨futureId, [node]⟩, none⟩], none⟩, none, [memory.currentH]⟩
    memory := { memory with current := memory.current + 1, currentH := memory.currentH + 1 }
    written := [memory.current] }

/-- Every index that was written is inside the worker's part, and what is used afterwards is too. -/
structure InBounds (memory : PrivateMemory) (b : Building) : Prop where
  nodes : ∀ i ∈ b.written, i < memory.size
  elements : ∀ i ∈ b.table.written, i < memory.sizeH
  current : b.memory.current ≤ b.memory.size
  currentH : b.memory.currentH ≤ b.memory.sizeH

/-! ## The room that is needed

How much a call will write, as a function of the two chains and nothing else: the nodes of the groups that both lists
have, the slots of the table, and the elements behind it. -/

/-- The length of two merged groups: a `cnode` of both is there once. -/
def mergedLength (precE : OmNode → OmNode → Bool) (g₁ g₂ : List Node) : Nat :=
  g₁.length + g₂.length - (matched (NodeList.cmpCnode precE) g₁ g₂).length

/-- The groups of the ids that both lists have are written anew. -/
def sharedNodes (precE : OmNode → OmNode → Bool) (c₁ c₂ : List HashElement) : Nat :=
  ((matched NodeList.cmpFutureId c₁ c₂).map fun p => mergedLength precE p.1.group p.2.group).sum

/-- Of `count` elements with these ids, the ones whose slot is taken. -/
def overflow (tableLength count : Nat) (ids : List Nat) : Nat :=
  count - (ids.map (· % tableLength)).toFinset.card

/-- There is room for the nodes and the elements of the list made of two. -/
def UnionFits (precE : OmNode → OmNode → Bool) (memory : PrivateMemory) (tableLength : Nat)
    (c₁ c₂ : List HashElement) : Prop :=
  memory.current + sharedNodes precE c₁ c₂ ≤ memory.size ∧
    memory.currentH + tableLength + overflow tableLength
      (c₁.length + c₂.length - (matched NodeList.cmpFutureId c₁ c₂).length)
      (c₁.map HashElement.futureId ++ c₂.map HashElement.futureId) ≤ memory.sizeH

/-- The id is new when it is not met before a greater one. -/
def isNew (futureId : Nat) (chain : List HashElement) : Bool :=
  (chain.takeWhile fun p => decide (p.futureId ≤ futureId)).all fun p => decide (p.futureId ≠ futureId)

/-- There is room for the nodes and the elements of the list with a node more. -/
def InsertFits (memory : PrivateMemory) (tableLength futureId : Nat) (chain : List HashElement) : Prop :=
  memory.current + ((chain.filter fun p => p.futureId = futureId).map fun p => p.group.length + 1).sum +
      (isNew futureId chain).toNat ≤ memory.size ∧
    memory.currentH + tableLength + overflow tableLength (chain.length + (isNew futureId chain).toNat)
      (futureId :: chain.map HashElement.futureId) ≤ memory.sizeH

/-! ## What was written

The log of a call, counted. A slot is written once, when it is free, and each of the other elements takes the next
place behind the table; so the indices that were written are an interval and some slots, and it is enough to look at
the last. -/

/-- The groups that are written anew are as long as `sharedNodes` says, though `group_merge` decides which of two
    nodes is kept. -/
theorem mergedNodes_eq (c₁ c₂ : List HashElement) : mergedNodes precE precH c₁ c₂ = sharedNodes precE c₁ c₂ := by
  have hlen : ∀ p : HashElement × HashElement,
      (NodeList.joinGroups precE precH p.1 p.2).group.length = mergedLength precE p.1.group p.2.group := by
    intro p
    have hlen := @length_mergeBy _ (NodeList.cmpCnode precE) (NodeList.pickNode precE precH) p.1.group p.2.group
    unfold mergedLength
    rw [← hlen, Nat.add_sub_cancel]
    rfl
  unfold mergedNodes sharedNodes
  simp only [hlen]

/-- How many elements are behind a table of `k` slots at index `a`, and which slots are taken. -/
structure Filled (t : Table) (a k : Nat) (es : List HashElement) : Prop where
  base : t.base = a
  slots : t.hash.tableLength = k
  length : t.hash.cells.length = t.hash.tableLength + t.hash.bufferLength
  taken : ∀ r, r < k → ((t.hash.at? r).isSome ↔ r ∈ es.map fun e => e.futureId % k)
  buffer : t.hash.bufferLength + (es.map fun e => e.futureId % k).toFinset.card = es.length
  written : ∀ i ∈ t.written, i < a + k + t.hash.bufferLength

variable {t : Table} {a k : Nat} {es : List HashElement}

/-- A table before the first element. -/
theorem filled_empty (a k : Nat) : Filled (Table.empty a k) a k [] := by
  refine ⟨rfl, rfl, List.length_replicate, ?_, rfl, ?_⟩
  · intro r hr
    have hat : (Table.empty a k).hash.at? r = none := by
      show ((List.replicate k (none : Option HashCell))[r]?).join = none
      rw [List.getElem?_replicate, if_pos hr]
      rfl
    rw [hat]
    simp
  · intro i hi
    exact (List.mem_range'_1.mp hi).2

/-- One element more: its slot is free and is taken now, or it goes behind the others. -/
theorem Filled.link (hf : Filled t a k es) (hpos : 0 < k) (e : HashElement) :
    Filled (t.link e) a k (es ++ [e]) := by
  have hmod := Nat.mod_lt e.futureId hpos
  have hslots := hf.slots
  obtain ⟨hT, hB, hcells, -⟩ := @Hash.linkTo_fields (t.hash.store e) (t.hash.addr e.futureId) t.pre
  obtain ⟨hT', -, hB', hcells'⟩ := @Hash.store_fields t.hash e
  have hbuf : (t.link e).hash.bufferLength = t.hash.bufferLength + (if t.hash.taken e.futureId then 1 else 0) :=
    hB.trans hB'
  have htaken : t.hash.taken e.futureId = true ↔ e.futureId % k ∈ es.map fun e => e.futureId % k := by
    rw [← hf.taken _ hmod, Hash.taken, hslots]
  refine ⟨hf.base, (hT.trans hT').trans hslots, ?_, ?_, ?_, ?_⟩
  · have hlen := hf.length
    have hT₁ : (t.link e).hash.tableLength = t.hash.tableLength := hT.trans hT'
    have hcells₁ : (t.link e).hash.cells.length = t.hash.cells.length + (if t.hash.taken e.futureId then 1 else 0) :=
      hcells.trans hcells'
    rw [hcells₁, hT₁, hbuf]
    omega
  · intro r hr
    have hsome : ((t.link e).hash.at? r).isSome = ((t.hash.store e).at? r).isSome := by
      show (((t.hash.store e).linkTo t.pre (t.hash.addr e.futureId)).at? r).isSome = _
      rw [Hash.at?_linkTo]
      split
      · exact Option.isSome_map
      · rfl
    rw [hsome, Hash.at?_store (by omega) hf.length, List.map_append, List.mem_append, ← hf.taken r hr]
    unfold Hash.addr
    by_cases hfree : t.hash.taken e.futureId = true
    · -- the element goes behind the table
      rw [if_pos hfree, if_neg (by omega)]
      constructor
      · exact Or.inl
      · rintro (h | h)
        · exact h
        · rw [List.mem_singleton.mp h, hf.taken _ hmod]
          exact htaken.mp hfree
    · rw [if_neg hfree, hslots]
      by_cases hrr : r = e.futureId % k
      · rw [if_pos hrr]
        exact ⟨fun _ => Or.inr (List.mem_singleton.mpr hrr), fun _ => rfl⟩
      · rw [if_neg hrr]
        exact ⟨Or.inl, fun h => h.resolve_right fun h => hrr (List.mem_singleton.mp h)⟩
  · have hfin : ((es ++ [e]).map fun e => e.futureId % k).toFinset =
        insert (e.futureId % k) (es.map fun e => e.futureId % k).toFinset := by
      rw [List.map_append, List.toFinset_append, Finset.union_comm]
      rfl
    have hcount := hf.buffer
    rw [hbuf, hfin, List.length_append, List.length_singleton]
    by_cases hfree : t.hash.taken e.futureId = true
    · rw [if_pos hfree, Finset.insert_eq_of_mem (List.mem_toFinset.mpr (htaken.mp hfree))]
      omega
    · rw [if_neg hfree, Finset.card_insert_of_notMem fun h => hfree (htaken.mpr (List.mem_toFinset.mp h))]
      omega
  · intro i hi
    rw [hbuf]
    rcases List.mem_append.mp hi with hi | hi
    · have hlt := hf.written i hi
      omega
    · rw [List.mem_singleton.mp hi, hf.base, Hash.addr]
      by_cases hfree : t.hash.taken e.futureId = true
      · rw [if_pos hfree, if_pos hfree]
        omega
      · rw [if_neg hfree, if_neg hfree, hslots]
        omega

/-- **What a constructor wrote**, whatever the elements are. -/
theorem Filled.linkAll (hf : Filled t a k chain) (hpos : 0 < k ∨ es = []) :
    Filled (t.linkAll es) a k (chain ++ es) := by
  induction es generalizing t chain with
  | nil =>
      rw [List.append_nil]
      exact hf
  | cons e es ih =>
      have hpos := hpos.resolve_right (List.cons_ne_nil e es)
      rw [List.append_cons]
      exact ih (hf.link hpos e) (Or.inl hpos)

/-- The elements and the nodes are inside exactly when the last index is. -/
theorem inBounds_iff {es : List HashElement} {m : Nat}
    (hdid : (⟨Table.empty memory.currentH k, memory, []⟩ : Building).Did b es m) (hpos : 0 < k ∨ es = []) :
    InBounds memory b.finish ↔ memory.current + m ≤ memory.size ∧
      memory.currentH + k + overflow k es.length (es.map HashElement.futureId) ≤ memory.sizeH := by
  have hf : Filled b.table memory.currentH k es := by
    rw [hdid.table]
    exact (filled_empty memory.currentH k).linkAll hpos
  have hover : b.table.hash.bufferLength = overflow k es.length (es.map HashElement.futureId) := by
    have hcount := hf.buffer
    unfold overflow
    rw [List.map_map]
    show _ = es.length - (es.map fun e => e.futureId % k).toFinset.card
    omega
  have hmemory : b.memory = { memory with current := memory.current + m } := hdid.memory
  have hcurrent : b.finish.memory.current = memory.current + m := by
    show b.memory.current = _
    rw [hmemory]
  have hsize : b.finish.memory.size = memory.size := by
    show b.memory.size = _
    rw [hmemory]
  have hsizeH : b.finish.memory.sizeH = memory.sizeH := by
    show b.memory.sizeH = _
    rw [hmemory]
  have hcurrentH : b.finish.memory.currentH = memory.currentH + k + b.table.hash.bufferLength := by
    show b.memory.currentH + b.table.hash.tableLength + b.table.hash.bufferLength = _
    rw [hmemory, hf.slots]
  rw [← hover]
  constructor
  · intro hin
    have hc := hin.current
    have hcH := hin.currentH
    rw [hcurrent, hsize] at hc
    rw [hcurrentH, hsizeH] at hcH
    exact ⟨hc, hcH⟩
  · rintro ⟨hc, hcH⟩
    refine ⟨?_, ?_, by omega, by omega⟩
    · intro i hi
      have hwritten : b.written = List.range' memory.current m := hdid.written
      have hi : i ∈ b.written := hi
      rw [hwritten] at hi
      exact Nat.lt_of_lt_of_le (List.mem_range'_1.mp hi).2 hc
    · intro i hi
      exact Nat.lt_of_lt_of_le (hf.written i hi) hcH

/-! ## The ids that are stored

Which ids the new list has. How many of them find their slot taken does not depend on the order in which they come. -/

/-- The same ids need the same slots. -/
theorem overflow_congr {ids ids' : List Nat} (h : ∀ id, id ∈ ids ↔ id ∈ ids') (m : Nat) :
    overflow k m ids = overflow k m ids' := by
  have hfin : (ids.map (· % k)).toFinset = (ids'.map (· % k)).toFinset := by
    ext r
    simp only [List.mem_toFinset, List.mem_map, h]
  unfold overflow
  rw [hfin]

/-- The merged chain has the ids of both. -/
theorem mem_ids_mergeChains (id : Nat) :
    id ∈ (NodeList.mergeChains precE precH c₁ c₂).map HashElement.futureId ↔
      id ∈ c₁.map HashElement.futureId ++ c₂.map HashElement.futureId := by
  have heq : ∀ {x y : HashElement}, NodeList.cmpFutureId x y = .eq ↔ x.futureId = y.futureId := Nat.compare_eq_eq
  obtain ⟨hcov₁, hcov₂⟩ := @mergeBy_covers _ NodeList.cmpFutureId (NodeList.joinGroups precE precH) c₁ c₂
  rw [List.mem_append]
  constructor
  · intro h
    obtain ⟨e, he, rfl⟩ := List.mem_map.mp h
    rcases mergeBy_from he with he | he | ⟨x, hx, y, -, -, rfl⟩
    · exact Or.inl (List.mem_map_of_mem he)
    · exact Or.inr (List.mem_map_of_mem he)
    · exact Or.inl (List.mem_map.mpr ⟨x, hx, rfl⟩)
  · rintro (h | h)
    · obtain ⟨e, he, rfl⟩ := List.mem_map.mp h
      rcases hcov₁ e he with hm | ⟨y, -, hm⟩
      · exact List.mem_map_of_mem hm
      · exact List.mem_map.mpr ⟨_, hm, rfl⟩
    · obtain ⟨e, he, rfl⟩ := List.mem_map.mp h
      rcases hcov₂ e he with hm | ⟨x, hcmp, hm⟩
      · exact List.mem_map_of_mem hm
      · exact List.mem_map.mpr ⟨_, hm, heq.mp hcmp⟩

/-- Once the id is in, the ids stay. -/
theorem ids_insertChain_behind :
    (NodeList.insertChain precE precH n futureId true chain).map HashElement.futureId =
      chain.map HashElement.futureId := by
  induction chain with
  | nil => rfl
  | cons p chain ih =>
      rw [NodeList.insertChain]
      split_ifs with hlt heq htrue
      · rw [List.map_cons, ih, List.map_cons]
      · rw [List.map_cons, ih, List.map_cons]
      · rw [List.map_cons, ih, List.map_cons]
      · exact absurd rfl htrue

/-- The id is looked for up to the first greater one, as in the loop. -/
theorem isNew_cons (p : HashElement) : isNew futureId (p :: chain) =
    if p.futureId < futureId then isNew futureId chain else decide (p.futureId ≠ futureId) := by
  unfold isNew
  rcases Nat.lt_trichotomy p.futureId futureId with hlt | heq | hgt
  · rw [if_pos hlt, List.takeWhile_cons_of_pos (by simpa using Nat.le_of_lt hlt), List.all_cons]
    simp [Nat.ne_of_lt hlt]
  · rw [if_neg (by omega), List.takeWhile_cons_of_pos (by simpa using Nat.le_of_eq heq), List.all_cons]
    simp [heq]
  · rw [if_neg (by omega), List.takeWhile_cons_of_neg (by simpa using hgt)]
    simp [Nat.ne_of_gt hgt]

/-- A chain with a node put in has one element more when the id is new. -/
theorem length_insertChain : (NodeList.insertChain precE precH n futureId false chain).length =
    chain.length + (isNew futureId chain).toNat := by
  have hbehind : ∀ chain, (NodeList.insertChain precE precH n futureId true chain).length = chain.length := by
    intro chain
    have hids := congrArg List.length (@ids_insertChain_behind precE precH chain n futureId)
    rwa [List.length_map, List.length_map] at hids
  induction chain with
  | nil => rfl
  | cons p chain ih =>
      rw [NodeList.insertChain, isNew_cons]
      split_ifs with hlt heq hfalse
      · rw [List.length_cons, ih, List.length_cons]
        omega
      · rw [List.length_cons, hbehind, List.length_cons]
        simp [heq]
      · cases hfalse
      · rw [List.length_cons, List.length_cons, hbehind, List.length_cons]
        simp [heq]

/-- Its ids are those of the chain and the one that was put in. -/
theorem mem_ids_insertChain (id : Nat) :
    id ∈ (NodeList.insertChain precE precH n futureId false chain).map HashElement.futureId ↔
      id ∈ futureId :: chain.map HashElement.futureId := by
  induction chain with
  | nil => exact Iff.rfl
  | cons p chain ih =>
      rw [NodeList.insertChain]
      split_ifs with hlt heq hfalse
      · rw [List.map_cons, List.mem_cons, ih]
        simp only [List.map_cons, List.mem_cons]
        tauto
      · rw [List.map_cons, ids_insertChain_behind]
        simp only [List.map_cons, List.mem_cons, heq]
        tauto
      · cases hfalse
      · rw [List.map_cons, List.map_cons, ids_insertChain_behind, List.map_cons]

/-- The nodes that the loop writes: a group for each element of the id, and one node when the id is new. -/
theorem insertedNodes_eq : insertedNodes futureId false chain =
    ((chain.filter fun p => p.futureId = futureId).map fun p => p.group.length + 1).sum +
      (isNew futureId chain).toNat := by
  have hbehind : ∀ chain, insertedNodes futureId true chain =
      ((chain.filter fun p => p.futureId = futureId).map fun p => p.group.length + 1).sum := by
    intro chain
    induction chain with
    | nil => rfl
    | cons p chain ih =>
        rw [insertedNodes, List.filter_cons]
        rcases Nat.lt_trichotomy p.futureId futureId with hlt | heq | hgt
        · rw [if_pos hlt, ih, if_neg (by simpa using Nat.ne_of_lt hlt)]
        · rw [if_neg (by omega), if_pos heq, ih, if_pos (by simpa using heq), List.map_cons, List.sum_cons]
        · rw [if_neg (by omega), if_neg (by omega), if_pos rfl, ih, if_neg (by simpa using Nat.ne_of_gt hgt)]
  induction chain with
  | nil => rfl
  | cons p chain ih =>
      rw [insertedNodes, List.filter_cons, isNew_cons]
      rcases Nat.lt_trichotomy p.futureId futureId with hlt | heq | hgt
      · rw [if_pos hlt, ih, if_neg (by simpa using Nat.ne_of_lt hlt), if_pos hlt]
      · rw [if_neg (by omega), if_pos heq, hbehind, if_pos (by simpa using heq), List.map_cons, List.sum_cons,
          if_neg (by omega)]
        simp [heq]
      · rw [if_neg (by omega), if_neg (by omega), if_neg Bool.false_ne_true, hbehind,
          if_neg (by simpa using Nat.ne_of_gt hgt), if_neg (by omega), decide_eq_true (Nat.ne_of_gt hgt)]
        exact Nat.add_comm _ _

/-! ## Every constructor

The four ways to make a list, each with its own assertions. An assertion looks at the place where the worker's part
begins to be free before the call, so it does not see what the call is going to write. -/

/-- The walk from the head of the list meets the elements `c`. -/
def Hash.Chain (h : Hash) (c : List HashElement) : Prop := ∃ w, Walk h h.head w ∧ w.map Prod.snd = c

/-- A walk from nowhere meets nothing. -/
theorem Walk.nil_of_none {p : Option Nat} (hw : Walk h p w) (hp : p = none) : w = [] := by
  cases w with
  | nil => rfl
  | cons x w => exact absurd (hw.1.symm.trans hp) (Option.some_ne_none _)

/-- An assertion that has passed. -/
theorem require_bind {α : Type} {c : Prop} [Decidable c] {f : Unit → Option α} {x : α}
    (h : (require c >>= f) = some x) : c ∧ f () = some x := by
  unfold require at h
  split at h
  · rename_i hc
    exact ⟨hc, h⟩
  · cases h

/-- **The lists stay inside the worker's memory exactly when there is room for what they write.** -/
theorem arena_exact (precE precH : OmNode → OmNode → Bool) (memory : PrivateMemory) (b : Building) (fuel : Nat) :
    (∀ h₁ h₂ c₁ c₂, h₁.Chain c₁ → h₂.Chain c₂ → c₁.length + c₂.length ≤ fuel →
      Hash.union precE precH fuel memory h₁ h₂ = some b →
      (InBounds memory b ↔ UnionFits precE memory ((h₁.total + h₂.total) * 2) c₁ c₂)) ∧
    (∀ h c n futureId, h.Chain c → c.length + 1 ≤ fuel →
      Hash.insert precE precH fuel memory h n futureId = some b →
      (InBounds memory b ↔ InsertFits memory ((h.total + 1) * 2) futureId c)) ∧
    ∀ node futureId, Hash.single memory node futureId = some b → InBounds memory b := by
  refine ⟨?_, ?_, ?_⟩
  · rintro h₁ h₂ c₁ c₂ ⟨w₁, hw₁, rfl⟩ ⟨w₂, hw₂, rfl⟩ hfuel hrun
    obtain ⟨hmem, hrun₁⟩ := require_bind hrun
    obtain ⟨hmemH, hrun₂⟩ := require_bind hrun₁
    obtain ⟨hpos, -⟩ := require_bind hrun₂
    simp only [List.length_map] at hfuel
    obtain ⟨b', hrun', hdid⟩ := @union_spec h₁ h₂ w₁ w₂ fuel precE precH memory hw₁ hw₂ hfuel hmem hmemH hpos
    obtain rfl : b'.finish = b := Option.some.inj (hrun'.symm.trans hrun)
    have hchain : 0 < (h₁.total + h₂.total) * 2 ∨
        NodeList.mergeChains precE precH (w₁.map Prod.snd) (w₂.map Prod.snd) = [] := by
      rcases hpos with hpos | ⟨hh₁, hh₂⟩
      · exact Or.inl (Nat.pos_of_ne_zero hpos)
      · right
        rw [hw₁.nil_of_none hh₁, hw₂.nil_of_none hh₂]
        exact mergeBy_nil_right []
    have hlen := @length_mergeBy _ NodeList.cmpFutureId (NodeList.joinGroups precE precH) (w₁.map Prod.snd)
      (w₂.map Prod.snd)
    rw [inBounds_iff hdid hchain, mergedNodes_eq, overflow_congr mem_ids_mergeChains, UnionFits, ← hlen,
      Nat.add_sub_cancel]
    exact Iff.rfl
  · rintro h c n futureId ⟨w, hw, rfl⟩ hfuel hrun
    obtain ⟨hmemH, -⟩ := require_bind hrun
    rw [List.length_map] at hfuel
    obtain ⟨b', hrun', hdid⟩ := @insert_spec h w fuel precE precH memory n futureId hw hfuel hmemH
    obtain rfl : b'.finish = b := Option.some.inj (hrun'.symm.trans hrun)
    rw [inBounds_iff hdid (Or.inl (by omega)), insertedNodes_eq, overflow_congr mem_ids_insertChain,
      length_insertChain, InsertFits, Nat.add_assoc memory.current]
  · intro node futureId hrun
    obtain ⟨hmem, hrun₁⟩ := require_bind hrun
    obtain ⟨hmemH, hrun₂⟩ := require_bind hrun₁
    obtain rfl := Option.some.inj hrun₂
    refine ⟨?_, ?_, hmem, hmemH⟩
    · intro i hi
      rw [List.mem_singleton.mp hi]
      exact hmem
    · intro i hi
      rw [List.mem_singleton.mp hi]
      exact hmemH

/-- A list with one future, as `List(l, n, future_id)` makes it: its table has two slots. -/
def oneFuture (futureId : Nat) (n : Node) : Hash where
  tableLength := 2
  bufferLength := 0
  total := 1
  cells := [none, none].set (futureId % 2) (some ⟨⟨futureId, [n]⟩, none⟩)
  head := some (futureId % 2)

/-- It has one element. -/
theorem oneFuture_chain (futureId : Nat) (n : Node) : (oneFuture futureId n).Chain [⟨futureId, [n]⟩] := by
  refine ⟨[(futureId % 2, ⟨futureId, [n]⟩)], ⟨rfl, ⟨⟨futureId, [n]⟩, none⟩, ?_, rfl, rfl⟩, rfl⟩
  show (([none, none].set (futureId % 2) (some (⟨⟨futureId, [n]⟩, none⟩ : HashCell)))[futureId % 2]?).join = _
  have hlt : futureId % 2 < [(none : Option HashCell), none].length := Nat.mod_lt futureId Nat.two_pos
  rw [List.getElem?_set_self hlt]
  rfl

/-- **One element is left, the assertions pass, and four are written**: three of them belong to the next worker. -/
theorem union_writes_behind : ∃ b,
    Hash.union (fun _ _ => false) (fun _ _ => false) 2 ⟨0, 8, 15, 16⟩ (oneFuture 0 ⟨7, 7⟩) (oneFuture 1 ⟨8, 8⟩) =
      some b ∧ 18 ∈ b.table.written ∧ ¬InBounds ⟨0, 8, 15, 16⟩ b := by
  refine ⟨_, rfl, by decide, ?_⟩
  intro hin
  exact absurd (hin.elements 18 (by decide)) (by decide)

/-- With sixteen elements left the same lists fit, and a node more fits too. -/
theorem arena_exact_fits : ∃ b₁ b₂,
    Hash.union (fun _ _ => false) (fun _ _ => false) 2 ⟨0, 8, 0, 16⟩ (oneFuture 0 ⟨7, 7⟩) (oneFuture 1 ⟨8, 8⟩) =
        some b₁ ∧ InBounds ⟨0, 8, 0, 16⟩ b₁ ∧
      Hash.insert (fun _ _ => false) (fun _ _ => false) 2 ⟨0, 8, 4, 16⟩ (oneFuture 0 ⟨7, 7⟩) ⟨9, 9⟩ 0 = some b₂ ∧
        InBounds ⟨0, 8, 4, 16⟩ b₂ := by
  refine ⟨_, _, rfl, ?_, rfl, ?_⟩
  · obtain ⟨hunion, -⟩ := arena_exact (fun _ _ => false) (fun _ _ => false) ⟨0, 8, 0, 16⟩ _ 2
    refine (hunion _ _ _ _ (oneFuture_chain 0 ⟨7, 7⟩) (oneFuture_chain 1 ⟨8, 8⟩) (by decide) rfl).mpr ⟨?_, ?_⟩
    · decide
    · decide
  · obtain ⟨-, hinsert, -⟩ := arena_exact (fun _ _ => false) (fun _ _ => false) ⟨0, 8, 4, 16⟩ _ 2
    refine (hinsert _ _ ⟨9, 9⟩ 0 (oneFuture_chain 0 ⟨7, 7⟩) (by decide) rfl).mpr ⟨?_, ?_⟩
    · decide
    · decide

end FOrder.Rdtool
