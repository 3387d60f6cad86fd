import FOrder.OrderMaint.Split
import FOrder.OrderMaint.SplitPointers

/-!
# `OrderMaint.SplitFaithful` — splitting a list in memory

The nodes are linked again while the old links are still being followed. What makes this work is that the loop only
ever writes to the node it is at and to the one before it: the rest of the old list is still linked, and a list that
is complete is not touched again. The lists that come out are those of `sublists`.

## The invariants

`Linked s l prev bs next` says that the nodes `bs` are in memory, linked to each other, with `prev` before and
`next` behind them. During the inner loop two such pieces are in memory at once: the new list, complete so far, and
what is left of the old one, whose first node still has its old predecessor in `prev`. The code uses that
predecessor as the base for `insert_internal`, and it is right because the loop moves along: the predecessor in the
old list is the last node of the new one (`place_spec`). At the start of a sublist the code clears `prev`, so the
node becomes the first.

`Frame` and `Extends` say what is not written, `Frame` for the inner loop, and `Extends` for the outer one, which
also allocates. `Chained` is the doubly linked chain of new leaves, each with its list.

## The steps

1. `setNode_spec` and `setList_spec`: one field is written.
2. `insertFirst_spec`, `insertLast_spec`: the two cases of `insert_internal` that the loop needs.
3. `place_spec`, and by induction on the number of nodes `fill_spec`: the inner loop.
4. `splitOne_spec`, and by induction on what is left of the list `splitLoop_spec`: the outer loop, with the lists
   that `sublists` computes.
5. `split_faithful`: everything that `Partitioned` says of the memory afterwards, and `bl_verify` on each new list
   (`verify_spec`).
-/

namespace FOrder.OrderMaint.Pointers

variable {s s' : Store NodeCell} {m m' m'' : Memory} {l self : ListName} {n : Name} {prev next : Option Name}
  {as bs : List BlNode} {b c : BlNode}

/-! ## Linked nodes

Facts about `Linked` that have nothing to do with the split: pieces put together and taken apart, and what a write
elsewhere leaves alone. A doubly linked piece determines its nodes, so no node is in it twice. -/

/-- The address of the first node. -/
@[simp] theorem headName_cons (b : BlNode) (bs : List BlNode) : headName (b :: bs) = some b.name := rfl

/-- The address of the last node. -/
@[simp] theorem lastName_concat (bs : List BlNode) (b : BlNode) : lastName (bs ++ [b]) = some b.name := by
  simp [lastName]

/-- The first node of two pieces is that of the first one, unless it is empty. -/
theorem headName_append (as bs : List BlNode) : headName (as ++ bs) = (headName as).or (headName bs) := by
  cases as with
  | nil => rfl
  | cons a as => rfl

/-- The last node of a list that is not empty. -/
theorem lastName_cons (b : BlNode) (bs : List BlNode) : lastName (b :: bs) = (lastName bs).or (some b.name) := by
  rw [lastName, lastName, List.getLast?_cons]
  cases bs.getLast? with
  | none => rfl
  | some c => rfl

/-- Two pieces one behind the other: the first piece ends at the head of the second, and the second begins behind
    the last node of the first. -/
theorem linked_append : Linked s l prev (as ++ bs) next ↔
    Linked s l prev as ((headName bs).or next) ∧ Linked s l ((lastName as).or prev) bs next := by
  induction as generalizing prev with
  | nil =>
      show Linked s l prev bs next ↔ True ∧ Linked s l prev bs next
      rw [true_and]
  | cons a as ih =>
      rw [List.cons_append, Linked, Linked, ih, headName_append, Option.or_assoc, lastName_cons, Option.or_assoc,
        Option.some_or, and_assoc]

/-- The links of other nodes do not matter. -/
theorem Linked.congr (h : Linked s l prev bs next) (heq : ∀ b ∈ bs, s'.get b.name = s.get b.name) :
    Linked s' l prev bs next := by
  induction bs generalizing prev with
  | nil => exact trivial
  | cons b bs ih =>
      obtain ⟨⟨x, hx, hrest⟩, hlinked⟩ := h
      refine ⟨⟨x, (heq b List.mem_cons_self).trans hx, hrest⟩, ?_⟩
      exact ih hlinked fun c hc => heq c (List.mem_cons_of_mem b hc)

/-- The predecessor of a node in the middle. -/
theorem Linked.prev_at (h : Linked s l prev bs next) {i : Nat} (hi : bs[i]? = some b) :
    ∃ x, s.get b.name = some x ∧ x.prev = if i = 0 then prev else (bs[i - 1]?).map BlNode.name := by
  induction bs generalizing prev i with
  | nil => cases hi
  | cons c bs ih =>
      obtain ⟨⟨x, hx, -, hprev, -⟩, hlinked⟩ := h
      cases i with
      | zero =>
          obtain rfl : c = b := Option.some.inj hi
          exact ⟨x, hx, hprev⟩
      | succ i =>
          obtain ⟨y, hy, hyprev⟩ := ih hlinked hi
          refine ⟨y, hy, hyprev.trans ?_⟩
          rw [if_neg (Nat.succ_ne_zero i)]
          cases i with
          | zero => rfl
          | succ i => rfl

/-- The nodes of a list are distinct: a node that came twice would have two predecessors, or one and none. So linked
    lists have no cycle, and the loops over them end. -/
theorem Linked.nodup (h : Linked s l none bs next) : (bs.map BlNode.name).Nodup := by
  have hne : ∀ (i j : Nat) (b c : BlNode), i < j → bs[i]? = some b → bs[j]? = some c → b.name ≠ c.name := by
    intro i
    induction i with
    | zero =>
        intro j b c hj hb hc heq
        obtain ⟨x, hx, hxprev⟩ := h.prev_at hb
        obtain ⟨y, hy, hyprev⟩ := h.prev_at hc
        rw [heq, hy] at hx
        obtain rfl := Option.some.inj hx
        rw [if_pos rfl] at hxprev
        obtain ⟨d, hd⟩ : ∃ d, bs[j - 1]? = some d := by
          have hlt := (List.getElem?_eq_some_iff.mp hc).1
          exact ⟨_, List.getElem?_eq_getElem (show j - 1 < bs.length by omega)⟩
        rw [if_neg (by omega), hd, hxprev] at hyprev
        cases hyprev
    | succ i ih =>
        intro j b c hj hb hc heq
        obtain ⟨x, hx, hxprev⟩ := h.prev_at hb
        obtain ⟨y, hy, hyprev⟩ := h.prev_at hc
        rw [heq, hy] at hx
        obtain rfl := Option.some.inj hx
        have hblt := (List.getElem?_eq_some_iff.mp hb).1
        have hclt := (List.getElem?_eq_some_iff.mp hc).1
        obtain ⟨d, hd⟩ : ∃ d, bs[i]? = some d := ⟨_, List.getElem?_eq_getElem (show i < bs.length by omega)⟩
        obtain ⟨e, he⟩ : ∃ e, bs[j - 1]? = some e :=
          ⟨_, List.getElem?_eq_getElem (show j - 1 < bs.length by omega)⟩
        rw [if_neg (by omega), Nat.add_sub_cancel, hd] at hxprev
        rw [if_neg (by omega), he, hxprev] at hyprev
        exact ih (j - 1) d e (by omega) hd he (Option.some.inj hyprev)
  rw [List.Nodup, List.pairwise_map, List.pairwise_iff_getElem]
  intro i j hi hj hij
  exact hne i j _ _ hij (List.getElem?_eq_getElem hi) (List.getElem?_eq_getElem hj)

/-! ## Writing

One store, and what it does not touch. The memory is a partial function, so a store to a dangling pointer would be
`none`; each of the lemmas has the node as a hypothesis and gives the new memory. -/

/-- What only debugging looks at. -/
def NodeCell.marks (x : NodeCell) : Int × Int × Int := (x.inUse, x.activeInsert, x.lastInsertId)

/-- The fields for debugging do not change. -/
theorem quiet_of_marks {x y : NodeCell} (h : x.marks = y.marks) (hy : y.quiet) : x.quiet := by
  simp only [NodeCell.marks, Prod.mk.injEq] at h
  unfold NodeCell.quiet
  rw [h.1, h.2.1, h.2.2]
  exact hy

/-- Only the nodes `ns` and the list `l` are written to. -/
structure Frame (ns : List Name) (l : ListName) (m m' : Memory) : Prop where
  nodes : ∀ n, n ∉ ns → m'.nodes.get n = m.nodes.get n
  marks : ∀ n x', m'.nodes.get n = some x' → ∃ x, m.nodes.get n = some x ∧ x'.marks = x.marks
  lists : ∀ k, k ≠ l → m'.lists.get k = m.lists.get k
  next : m'.lists.next = m.lists.next
  leaves : m'.leaves = m.leaves

/-- One write after the other. -/
theorem Frame.trans {ns ns' : List Name} (h : Frame ns l m m') (h' : Frame ns' l m' m'') :
    Frame (ns ++ ns') l m m'' where
  nodes := by
    intro n hn
    rw [List.mem_append, not_or] at hn
    rw [h'.nodes n hn.2, h.nodes n hn.1]
  marks := by
    intro n x'' hx''
    obtain ⟨x', hx', hmarks'⟩ := h'.marks n x'' hx''
    obtain ⟨x, hx, hmarks⟩ := h.marks n x' hx'
    exact ⟨x, hx, hmarks'.trans hmarks⟩
  lists := fun k hk => (h'.lists k hk).trans (h.lists k hk)
  next := h'.next.trans h.next
  leaves := h'.leaves.trans h.leaves

/-- More nodes may be written to. -/
theorem Frame.mono {ns ns' : List Name} (h : Frame ns l m m') (hsub : ∀ n ∈ ns, n ∈ ns') : Frame ns' l m m' :=
  ⟨fun n hn => h.nodes n fun hmem => hn (hsub n hmem), h.marks, h.lists, h.next, h.leaves⟩

/-- A field of a node is written, and nothing else. -/
theorem setNode_spec {x : NodeCell} (h : m.nodes.get n = some x) {f : NodeCell → NodeCell}
    (hf : (f x).marks = x.marks) (l : ListName) :
    ∃ m', m.setNode n f = some m' ∧ m'.nodes.get n = some (f x) ∧ m'.lists = m.lists ∧ Frame [n] l m m' := by
  obtain ⟨nodes, hput, hself, hother, -⟩ := Store.put_spec h (f x)
  refine ⟨{ m with nodes := nodes }, ?_, hself, rfl, ⟨?_, ?_, fun _ _ => rfl, rfl, rfl⟩⟩
  · rw [Memory.setNode, h, Option.bind_eq_bind, Option.bind_some, hput]
    rfl
  · intro k hk
    exact hother k fun heq => hk (List.mem_singleton.mpr heq)
  · intro k x' hx'
    by_cases hk : k = n
    · subst hk
      obtain rfl : f x = x' := Option.some.inj (hself.symm.trans hx')
      exact ⟨x, h, hf⟩
    · exact ⟨x', (hother k hk).symm.trans hx', rfl⟩

/-- A field of a list is written, and nothing else. -/
theorem setList_spec {x : BlistCell} (h : m.lists.get l = some x) (f : BlistCell → BlistCell) :
    ∃ m', m.setList l f = some m' ∧ m'.lists.get l = some (f x) ∧ m'.nodes = m.nodes ∧ Frame [] l m m' := by
  obtain ⟨lists, hput, hself, hother, hnext⟩ := Store.put_spec h (f x)
  refine ⟨{ m with lists := lists }, ?_, hself, rfl, ⟨fun _ _ => rfl, ?_, hother, hnext, rfl⟩⟩
  · rw [Memory.setList, h, Option.bind_eq_bind, Option.bind_some, hput]
    rfl
  · intro k x' hx'
    exact ⟨x', hx', rfl⟩

/-! ## One node

`insert_internal` at the end of a list. The general case, with a next node to be linked back, does not occur in a
split, since each sublist is filled from left to right. -/

variable {x y : NodeCell} {r : BlistCell} {base : Name}

/-- Into an empty list: head and tail are the new node, which has no neighbours and the label `0`. -/
theorem insertFirst_spec (hn : m.nodes.get n = some x) (hl : m.lists.get l = some r) :
    ∃ m', insertInternal m l none n = some m' ∧
      m'.nodes.get n = some { x with label := 0, next := none, prev := none, list := some l } ∧
      m'.lists.get l = some { r with head := some n, tail := some n } ∧ Frame [n] l m m' := by
  obtain ⟨m₁, hrun₁, hlist₁, hnodes₁, hframe₁⟩ :=
    setList_spec hl fun l => { l with head := some n, tail := some n }
  have hn₁ : m₁.nodes.get n = some x := by
    rw [hnodes₁, hn]
  obtain ⟨m₂, hrun₂, hn₂, hlists₂, hframe₂⟩ :=
    @setNode_spec m₁ n x hn₁ (fun x => { x with next := none, prev := none, label := 0 }) rfl l
  obtain ⟨m₃, hrun₃, hn₃, hlists₃, hframe₃⟩ := @setNode_spec m₂ n _ hn₂ (fun x => { x with list := some l }) rfl l
  refine ⟨m₃, ?_, hn₃, ?_, ?_⟩
  · simp only [insertInternal, insertFirst, Option.bind_eq_bind]
    rw [hrun₁, Option.bind_some, hrun₂, Option.bind_some, hrun₃]
  · rw [hlists₃, hlists₂, hlist₁]
  · refine ((hframe₁.trans hframe₂).trans hframe₃).mono ?_
    simp

/-- Behind the last node: `base` and the new node are written to, and the tail of the list. The label of the new
    node is above that of `base`, as the assertion wants it. -/
theorem insertLast_spec (hn : m.nodes.get n = some x) (hbase : m.nodes.get base = some y) (hne : base ≠ n)
    (hlt : y.label < x.label) (hl : m.lists.get l = some r) (htail : r.tail = some base) :
    ∃ m', insertInternal m l (some base) n = some m' ∧
      m'.nodes.get n = some { x with next := none, prev := some base, list := some l } ∧
      m'.nodes.get base = some { y with next := some n } ∧
      m'.lists.get l = some { r with tail := some n } ∧ Frame [n, base] l m m' := by
  obtain ⟨m₁, hrun₁, hlist₁, hnodes₁, hframe₁⟩ := setList_spec hl fun l => { l with tail := some n }
  have hn₁ : m₁.nodes.get n = some x := by
    rw [hnodes₁, hn]
  obtain ⟨m₂, hrun₂, hn₂, hlists₂, hframe₂⟩ := @setNode_spec m₁ n x hn₁ (fun x => { x with next := none }) rfl l
  have hbase₂ : m₂.nodes.get base = some y := by
    rw [hframe₂.nodes base fun h => hne (List.mem_singleton.mp h), hnodes₁, hbase]
  obtain ⟨m₃, hrun₃, hbase₃, hlists₃, hframe₃⟩ :=
    @setNode_spec m₂ base y hbase₂ (fun x => { x with next := some n }) rfl l
  have hn₃ : m₃.nodes.get n = some { x with next := none } := by
    rw [hframe₃.nodes n fun h => hne (List.mem_singleton.mp h).symm, hn₂]
  obtain ⟨m₄, hrun₄, hn₄, hlists₄, hframe₄⟩ :=
    @setNode_spec m₃ n _ hn₃ (fun x => { x with prev := some base }) rfl l
  obtain ⟨m₅, hrun₅, hn₅, hlists₅, hframe₅⟩ := @setNode_spec m₄ n _ hn₄ (fun x => { x with list := some l }) rfl l
  refine ⟨m₅, ?_, hn₅, ?_, ?_, ?_⟩
  · simp only [insertInternal, insertAfter, check, Option.bind_eq_bind]
    rw [hn, Option.bind_some, hbase, Option.bind_some, if_pos hlt, Option.bind_some, hl, Option.bind_some,
      if_pos htail, hrun₁, Option.bind_some, hrun₂, Option.bind_some, hrun₃, Option.bind_some, hrun₄,
      Option.bind_some, hrun₅]
  · rw [hframe₅.nodes base fun h => hne (List.mem_singleton.mp h),
      hframe₄.nodes base fun h => hne (List.mem_singleton.mp h), hbase₃]
  · rw [hlists₅, hlists₄, hlists₃, hlists₂, hlist₁]
  · refine ((((hframe₁.trans hframe₂).trans hframe₃).trans hframe₄).trans hframe₅).mono ?_
    simp

/-- **One round of the inner loop** puts the node behind the nodes that are in the list already. It gets its label
    first; then it is inserted behind its predecessor, which is the last node of the new list, or as the first one.
    -/
theorem place_spec {label : Nat} (hlist : m.lists.get l = some ⟨headName as, lastName as, r.above, r.heavy⟩)
    (has : Linked m.nodes l none as none) (hlabels : ∀ a, as.getLast? = some a → a.label < label)
    (hzero : as = [] → label = 0) (hn : m.nodes.get n = some x) (hprev : x.prev = lastName as)
    (hnew : n ∉ as.map BlNode.name) :
    ∃ m₁ x₁ m', m.setNode n (fun x => { x with label := label }) = some m₁ ∧ m₁.nodes.get n = some x₁ ∧
      insertInternal m₁ l x₁.prev n = some m' ∧
      m'.lists.get l = some ⟨headName (as ++ [⟨n, label⟩]), some n, r.above, r.heavy⟩ ∧
      Linked m'.nodes l none (as ++ [⟨n, label⟩]) none ∧ Frame (as.map BlNode.name ++ [n]) l m m' := by
  obtain ⟨m₁, hrun₁, hn₁, hlists₁, hframe₁⟩ := @setNode_spec m n x hn (fun x => { x with label := label }) rfl l
  have hlist₁ : m₁.lists.get l = some ⟨headName as, lastName as, r.above, r.heavy⟩ := by
    rw [hlists₁, hlist]
  rcases List.eq_nil_or_concat as with rfl | ⟨as, a, rfl⟩
  · -- the list is empty
    obtain rfl := hzero rfl
    obtain ⟨m', hrun, hn', hlist', hframe⟩ := insertFirst_spec hn₁ hlist₁
    refine ⟨m₁, _, m', hrun₁, hn₁, ?_, ?_, ?_, ?_⟩
    · rw [show ({ x with label := 0 } : NodeCell).prev = none from hprev]
      exact hrun
    · rw [hlist']
      rfl
    · exact ⟨⟨_, hn', rfl, rfl, rfl, rfl⟩, trivial⟩
    · exact (hframe₁.trans hframe).mono (by simp)
  · rw [List.concat_eq_append] at *
    -- the node goes behind `a`
    obtain ⟨hfront, ⟨y, hy, hylabel, hyprev, -, hylist⟩, -⟩ := linked_append.mp has
    rw [List.map_append, List.mem_append, not_or] at hnew
    have hne : a.name ≠ n := fun h => hnew.2 (List.mem_singleton.mpr h.symm)
    have hy₁ : m₁.nodes.get a.name = some y := by
      rw [hframe₁.nodes a.name fun h => hne (List.mem_singleton.mp h), hy]
    have hlt : y.label < label := by
      rw [hylabel]
      exact hlabels a List.getLast?_concat
    rw [lastName_concat] at hlist₁ hprev
    obtain ⟨m', hrun, hn', ha', hlist', hframe⟩ := insertLast_spec hn₁ hy₁ hne hlt hlist₁ rfl
    refine ⟨m₁, _, m', hrun₁, hn₁, ?_, ?_, ?_, ?_⟩
    · rw [show ({ x with label := label } : NodeCell).prev = some a.name from hprev]
      exact hrun
    · rw [hlist', headName_append (as ++ [a]), headName_append]
      simp [headName]
    · have hnodup := has.nodup
      rw [List.map_append, List.nodup_append] at hnodup
      have hkeep : ∀ b ∈ as, m'.nodes.get b.name = m.nodes.get b.name := by
        intro b hb
        have hba : b.name ≠ a.name := hnodup.2.2 _ (List.mem_map_of_mem hb) _ List.mem_cons_self
        have hbn : b.name ≠ n := by
          rintro rfl
          exact hnew.1 (List.mem_map_of_mem hb)
        rw [hframe.nodes b.name (by simp [hba, hbn]), hframe₁.nodes b.name (by simp [hbn])]
      refine linked_append.mpr ⟨linked_append.mpr ⟨hfront.congr hkeep, ?_⟩, ?_⟩
      · exact ⟨⟨_, ha', hylabel, hyprev, rfl, hylist⟩, trivial⟩
      · rw [lastName_concat]
        exact ⟨⟨_, hn', rfl, rfl, rfl, rfl⟩, trivial⟩
    · refine (hframe₁.trans hframe).mono ?_
      simp

/-! ## The inner loop

It runs until the sublist has `sublistSize` nodes or the old list is at its end. The two pieces, the one being built
and the one being used up, share no node, and each round moves one node from the front of the one to the end of the
other. -/

/-- **The inner loop** puts the next `k` nodes into the list and stops at the node behind them. By induction on `k`;
    each round reads the link to the next node before it writes, so it still finds the old list. -/
theorem fill_spec {k : Nat} (hlist : m.lists.get l = some ⟨headName as, lastName as, r.above, r.heavy⟩)
    (has : Linked m.nodes l none as none) (hbs : Linked m.nodes self (lastName as) bs none)
    (hnodup : ((as ++ bs).map BlNode.name).Nodup)
    (hlabels : ∀ a, as.getLast? = some a → a.label < as.length * nodeInterval) (hk : as.length + k = sublistSize) :
    ∃ m', fill m l k (headName bs) ((as.length * nodeInterval) % 2 ^ 64) = some (m', headName (bs.drop k)) ∧
      m'.lists.get l = some ⟨headName (as ++ spaced as.length (bs.take k)),
        lastName (as ++ spaced as.length (bs.take k)), r.above, r.heavy⟩ ∧
      Linked m'.nodes l none (as ++ spaced as.length (bs.take k)) none ∧
      Frame ((as ++ bs.take k).map BlNode.name) l m m' := by
  induction k generalizing m as bs with
  | zero =>
      refine ⟨m, ?_, ?_, ?_, ⟨fun _ _ => rfl, fun n x h => ⟨x, h, rfl⟩, fun _ _ => rfl, rfl, rfl⟩⟩
      · cases bs with
        | nil => rfl
        | cons c cs => rfl
      · rw [List.take_zero, spaced, List.append_nil]
        exact hlist
      · rw [List.take_zero, spaced, List.append_nil]
        exact has
  | succ k ih =>
      cases bs with
      | nil =>
          refine ⟨m, rfl, ?_, ?_, ⟨fun _ _ => rfl, fun n x h => ⟨x, h, rfl⟩, fun _ _ => rfl, rfl, rfl⟩⟩
          · rw [List.take_nil, spaced, List.append_nil]
            exact hlist
          · rw [List.take_nil, spaced, List.append_nil]
            exact has
      | cons c cs =>
          obtain ⟨⟨x, hx, -, hprev, hnext, -⟩, hcs⟩ := hbs
          have hlen : as.length < 64 := by
            unfold sublistSize at hk
            omega
          have hlabel : (as.length * nodeInterval) % 2 ^ 64 = as.length * nodeInterval := by
            refine Nat.mod_eq_of_lt ?_
            unfold nodeInterval
            omega
          have hzero : as = [] → as.length * nodeInterval = 0 := by
            rintro rfl
            exact Nat.zero_mul _
          rw [List.map_append, List.map_cons, List.nodup_append, List.nodup_cons] at hnodup
          obtain ⟨hnodupas, ⟨hccs, hnodupcs⟩, hdisjoint⟩ := hnodup
          have hnew : c.name ∉ as.map BlNode.name := fun hmem => hdisjoint _ hmem _ List.mem_cons_self rfl
          obtain ⟨m₁, x₁, m₂, hrun₁, hx₁, hrun₂, hlist₂, has₂, hframe₂⟩ :=
            place_spec hlist has hlabels hzero hx hprev hnew
          -- the nodes behind are as before
          have hcs₂ : Linked m₂.nodes self (some c.name) cs none := by
            refine hcs.congr ?_
            intro b hb
            refine hframe₂.nodes b.name ?_
            rw [List.mem_append, not_or]
            constructor
            · intro hmem
              exact hdisjoint _ hmem _ (List.mem_cons_of_mem _ (List.mem_map_of_mem hb)) rfl
            · rw [List.mem_singleton]
              intro heq
              exact hccs (heq ▸ List.mem_map_of_mem hb)
          obtain ⟨c', hc'⟩ : ∃ c' : BlNode, c' = ⟨c.name, as.length * nodeInterval⟩ := ⟨_, rfl⟩
          rw [← hc'] at hlist₂ has₂
          have hlast : lastName (as ++ [c']) = some c.name := by
            rw [lastName_concat, hc']
          have hlength : (as ++ [c']).length = as.length + 1 := List.length_append
          have hlabels' : ∀ a, (as ++ [c']).getLast? = some a → a.label < (as ++ [c']).length * nodeInterval := by
            intro a ha
            rw [List.getLast?_concat] at ha
            rw [← Option.some.inj ha, hlength, hc']
            exact Nat.mul_lt_mul_of_pos_right (Nat.lt_succ_self _) (by decide)
          have hnodup' : ((as ++ [c'] ++ cs).map BlNode.name).Nodup := by
            rw [List.append_assoc, List.map_append, List.nodup_append]
            refine ⟨hnodupas, ?_, ?_⟩
            · rw [hc']
              exact List.nodup_cons.mpr ⟨hccs, hnodupcs⟩
            · rw [hc']
              exact hdisjoint
          rw [← hlast] at hlist₂ hcs₂
          obtain ⟨m', hrun, hlist', has', hframe⟩ :=
            ih hlist₂ has₂ hcs₂ hnodup' hlabels' (by rw [hlength]; omega)
          have hspaced : as ++ spaced as.length ((c :: cs).take (k + 1)) =
              as ++ [c'] ++ spaced (as ++ [c']).length (cs.take k) := by
            rw [List.take_succ_cons, spaced, hlength, hc', List.append_assoc]
            rfl
          rw [hspaced]
          refine ⟨m', ?_, hlist', has', ?_⟩
          · rw [headName_cons, fill]
            simp only [Option.bind_eq_bind]
            rw [hx, Option.bind_some, hlabel, hrun₁, Option.bind_some, hx₁, Option.bind_some, hrun₂,
              Option.bind_some, hnext, Option.or_none, ← Nat.succ_mul, ← Nat.add_one, ← hlength]
            exact hrun
          · refine (hframe₂.trans hframe).mono ?_
            intro n hn
            rw [List.take_succ_cons]
            simp only [hc', List.mem_append, List.map_append, List.map_cons, List.map_nil, List.mem_cons,
              List.not_mem_nil, or_false] at hn ⊢
            tauto

/-! ## The outer loop

A new list and a new leaf for each sublist. New records have addresses that were free, so nothing that is in memory
already can be hit by them. -/

/-- A field of a leaf is written, and nothing else. -/
theorem setLeaf_spec {a : TlName} {t : LeafCell} (h : m.leaves.get a = some t) (f : LeafCell → LeafCell) :
    ∃ m', m.setLeaf a f = some m' ∧ m'.leaves.get a = some (f t) ∧
      (∀ b, b ≠ a → m'.leaves.get b = m.leaves.get b) ∧ m'.leaves.next = m.leaves.next ∧
      m'.nodes = m.nodes ∧ m'.lists = m.lists := by
  obtain ⟨leaves, hput, hself, hother, hnext⟩ := Store.put_spec h (f t)
  refine ⟨{ m with leaves := leaves }, ?_, hself, hother, hnext, rfl, rfl⟩
  rw [Memory.setLeaf, h, Option.bind_eq_bind, Option.bind_some, hput]
  rfl

/-- The leaf before the new leaf `n`, or the leaf of the old list, with `n` behind it. -/
def tie (prevLeaf : Option TlName) (n : TlName) (t : LeafCell) : LeafCell :=
  match prevLeaf with
  | some _ => { t with next := some n }
  | none => { t with under := .splitNodes n }

/-- Only the nodes `ns`, the leaf `pred` and new records are written to. -/
structure Extends (ns : List Name) (pred : TlName) (m m' : Memory) : Prop where
  nodes : ∀ n, n ∉ ns → m'.nodes.get n = m.nodes.get n
  marks : ∀ n x', m'.nodes.get n = some x' → ∃ x, m.nodes.get n = some x ∧ x'.marks = x.marks
  lists : ∀ k, k < m.lists.next → m'.lists.get k = m.lists.get k
  leaves : ∀ a, a < m.leaves.next → a ≠ pred → m'.leaves.get a = m.leaves.get a

variable {above : TlName} {prevLeaf : Option TlName} {t : LeafCell}

/-- **One round of the outer loop** makes one leaf with one list. The leaf is linked behind the one made before, or
    is the first and takes the place of the list under the old leaf; then at most `sublistSize` nodes move over. -/
theorem splitOne_spec (hpred : m.leaves.get (prevLeaf.getD above) = some t)
    (hbs : Linked m.nodes self prev (b :: bs) none) (hnodup : ((b :: bs).map BlNode.name).Nodup) :
    ∃ m', splitOne m above b.name prevLeaf =
        some (m', m.leaves.next, headName ((b :: bs).drop sublistSize)) ∧
      IsBlist m' m.lists.next ⟨m.leaves.next, false, spaced 0 ((b :: bs).take sublistSize)⟩ ∧
      m'.leaves.get m.leaves.next = some ⟨maxLevel, 1, prevLeaf, none, .below m.lists.next⟩ ∧
      m'.leaves.get (prevLeaf.getD above) = some (tie prevLeaf m.leaves.next t) ∧
      m'.leaves.next = m.leaves.next + 1 ∧ m'.lists.next = m.lists.next + 1 ∧
      Extends (((b :: bs).take sublistSize).map BlNode.name) (prevLeaf.getD above) m m' := by
  have hlt := Store.lt_next hpred
  -- the new leaf
  obtain ⟨m₁, hm₁⟩ : ∃ m₁ : Memory, m₁ =
      ⟨m.nodes, m.lists, m.leaves.alloc ⟨maxLevel, 1, prevLeaf, none, .below m.lists.next⟩⟩ := ⟨_, rfl⟩
  have hpred₁ : m₁.leaves.get (prevLeaf.getD above) = some t := by
    rw [hm₁]
    exact Store.get_alloc_of_some hpred
  obtain ⟨m₂, hrun₂, hpred₂, hleaves₂, hnext₂, hnodes₂, hlists₂⟩ :=
    setLeaf_spec hpred₁ (tie prevLeaf m.leaves.next)
  -- the new list
  obtain ⟨m₃, hm₃⟩ : ∃ m₃ : Memory, m₃ =
      ⟨m₂.nodes, m₂.lists.alloc ⟨none, none, some m.leaves.next, false⟩, m₂.leaves⟩ := ⟨_, rfl⟩
  have hlists₁ : m₂.lists = m.lists := by
    rw [hlists₂, hm₁]
  have hnodes₃ : m₃.nodes = m.nodes := by
    rw [hm₃, hm₁] at *
    exact hnodes₂
  have hlist₃ : m₃.lists.get m.lists.next = some ⟨none, none, some m.leaves.next, false⟩ := by
    rw [hm₃, ← hlists₁]
    exact Store.get_alloc_self
  obtain ⟨⟨x, hx, hlabel, -, hnext, hlist⟩, hrest⟩ := hbs
  have hx₃ : m₃.nodes.get b.name = some x := by
    rw [hnodes₃, hx]
  -- the first node is cut off
  obtain ⟨m₄, hrun₄, hx₄, hlists₄, hframe₄⟩ :=
    @setNode_spec m₃ b.name x hx₃ (fun x => { x with prev := none }) rfl m.lists.next
  have hbs₄ : Linked m₄.nodes self (lastName []) (b :: bs) none := by
    refine ⟨⟨_, hx₄, hlabel, rfl, hnext, hlist⟩, hrest.congr ?_⟩
    intro c hc
    have hne : c.name ≠ b.name := by
      intro heq
      exact (List.nodup_cons.mp hnodup).1 (heq ▸ List.mem_map_of_mem hc)
    rw [hframe₄.nodes c.name fun h => hne (List.mem_singleton.mp h), hnodes₃]
  have hlist₄ : m₄.lists.get m.lists.next = some ⟨headName [], lastName [], some m.leaves.next, false⟩ := by
    rw [hlists₄, hlist₃]
    rfl
  obtain ⟨m', hrun', hlist', hlinked', hframe'⟩ := @fill_spec m₄ m.lists.next self []
    (b :: bs) ⟨none, none, some m.leaves.next, false⟩ sublistSize hlist₄ trivial hbs₄ hnodup
    (fun _ h => nomatch h) (Nat.zero_add _)
  have hframe := hframe₄.trans hframe'
  have hleaves' : m'.leaves = m₂.leaves := by
    rw [hframe.leaves, hm₃]
  have hlists' : ∀ k, k < m.lists.next → m'.lists.get k = m.lists.get k := by
    intro k hk
    rw [hframe.lists k (Nat.ne_of_lt hk), hm₃, hlists₁]
    exact Store.get_alloc_ne (Nat.ne_of_lt hk)
  refine ⟨m', ?_, ⟨hlist', hlinked'⟩, ?_, ?_, ?_, ?_, ⟨?_, ?_, hlists', ?_⟩⟩
  · have hfill : fill m₄ m.lists.next sublistSize (some b.name) 0 =
        some (m', headName ((b :: bs).drop sublistSize)) := hrun'
    cases prevLeaf with
    | none =>
        have hrun₂ : m₁.setLeaf above (fun x => { x with under := .splitNodes m.leaves.next }) = some m₂ := hrun₂
        simp only [splitOne, Option.bind_eq_bind]
        rw [← hm₁, hrun₂, Option.bind_some, hlists₁, ← hlists₁, ← hm₃, hrun₄, Option.bind_some, hlists₁, hfill,
          Option.bind_some]
    | some p =>
        have hrun₂ : m₁.setLeaf p (fun x => { x with next := some m.leaves.next }) = some m₂ := hrun₂
        simp only [splitOne, Option.bind_eq_bind]
        rw [← hm₁, hrun₂, Option.bind_some, hlists₁, ← hlists₁, ← hm₃, hrun₄, Option.bind_some, hlists₁, hfill,
          Option.bind_some]
  · rw [hleaves', hleaves₂ _ (Nat.ne_of_gt hlt), hm₁]
    exact Store.get_alloc_self
  · rw [hleaves', hpred₂]
  · rw [hleaves', hnext₂, hm₁]
    exact Store.next_alloc
  · rw [hframe.next, hm₃, hlists₁]
    exact Store.next_alloc
  · intro n hn
    rw [hframe.nodes, hnodes₃]
    rw [List.nil_append]
    intro hmem
    rcases List.mem_append.mp hmem with hmem | hmem
    · refine hn ?_
      rw [List.mem_singleton.mp hmem]
      exact List.mem_cons_self
    · exact hn hmem
  · intro n x' hx'
    rw [← hnodes₃]
    exact hframe.marks n x' hx'
  · intro a ha hne
    rw [hleaves', hleaves₂ a hne, hm₁]
    exact Store.get_alloc_ne (Nat.ne_of_lt ha)

/-- A new leaf with its list. -/
structure Piece where
  leaf : TlName
  list : ListName
  nodes : List BlNode

/-- The leaves are linked to each other behind `prev`, and each has its list. -/
def Chained (m : Memory) : Option TlName → List Piece → Prop
  | _, [] => True
  | prev, p :: ps =>
      m.leaves.get p.leaf = some ⟨maxLevel, 1, prev, ps.head?.map Piece.leaf, .below p.list⟩ ∧
        IsBlist m p.list ⟨p.leaf, false, p.nodes⟩ ∧ Chained m (some p.leaf) ps

/-- **The outer loop** makes the lists that `sublists` says. By induction on the fuel: each round takes at least one
    node, so as much fuel as nodes is enough. The pieces that are there are not touched again, but for the leaf of
    the last one, which gets its link to the next. -/
theorem splitLoop_spec {fuel numLists : Nat} (hfuel : bs.length ≤ fuel)
    (hpred : m.leaves.get (prevLeaf.getD above) = some t) (hbs : Linked m.nodes self prev bs none)
    (hnodup : (bs.map BlNode.name).Nodup) :
    ∃ m' pieces, splitLoop above fuel m (headName bs) prevLeaf numLists = some (m', numLists + pieces.length) ∧
      sublists fuel bs = some (pieces.map Piece.nodes) ∧ Chained m' prevLeaf pieces ∧
      pieces.map Piece.leaf = List.range' m.leaves.next pieces.length ∧
      pieces.map Piece.list = List.range' m.lists.next pieces.length ∧
      m'.leaves.get (prevLeaf.getD above) = some ((pieces.head?.elim t fun p => tie prevLeaf p.leaf t)) ∧
      Extends (bs.map BlNode.name) (prevLeaf.getD above) m m' := by
  induction fuel generalizing m prevLeaf prev bs t numLists with
  | zero =>
      obtain rfl : bs = [] := List.length_eq_zero_iff.mp (Nat.le_zero.mp hfuel)
      exact ⟨m, [], rfl, rfl, trivial, rfl, rfl, hpred, fun _ _ => rfl, fun n x h => ⟨x, h, rfl⟩, fun _ _ => rfl,
        fun _ _ _ => rfl⟩
  | succ fuel ih =>
      cases bs with
      | nil =>
          exact ⟨m, [], rfl, rfl, trivial, rfl, rfl, hpred, fun _ _ => rfl, fun n x h => ⟨x, h, rfl⟩,
            fun _ _ => rfl, fun _ _ _ => rfl⟩
      | cons b bs =>
          obtain ⟨m₁, hrun₁, hblist₁, hleaf₁, hpred₁, hnext₁, hlists₁, hext₁⟩ := splitOne_spec hpred hbs hnodup
          have hlt := Store.lt_next hpred
          obtain ⟨front, hfront⟩ : ∃ front, front = (b :: bs).take sublistSize := ⟨_, rfl⟩
          obtain ⟨back, hback⟩ : ∃ back, back = (b :: bs).drop sublistSize := ⟨_, rfl⟩
          have hsplit : b :: bs = front ++ back := by
            rw [hfront, hback, List.take_append_drop]
          rw [← hfront] at hblist₁ hext₁
          rw [hsplit] at hbs
          rw [hsplit, List.map_append, List.nodup_append] at hnodup
          obtain ⟨-, hnodup₁, hdisjoint⟩ := hnodup
          -- the nodes that are left are linked as before
          have hbs₁ : Linked m₁.nodes self ((lastName front).or prev) back none := by
            refine (linked_append.mp hbs).2.congr ?_
            intro c hc
            exact hext₁.nodes c.name fun hmem => hdisjoint _ hmem _ (List.mem_map_of_mem hc) rfl
          have hfuel₁ : back.length ≤ fuel := by
            rw [List.length_cons] at hfuel
            rw [hback, List.length_drop, List.length_cons]
            unfold sublistSize
            omega
          obtain ⟨m', pieces, hrun, hsub, hchained, hleaves, hlists, hlast, hext⟩ :=
            @ih m₁ ((lastName front).or prev) back (some m.leaves.next) _ (numLists + 1) hfuel₁ hleaf₁ hbs₁ hnodup₁
          refine ⟨m', ⟨m.leaves.next, m.lists.next, spaced 0 front⟩ :: pieces, ?_, ?_, ⟨?_, ⟨?_, ?_⟩, hchained⟩, ?_, ?_, ?_,
            ?_, ?_, ?_, ?_⟩
          · rw [headName_cons, splitLoop]
            simp only [Option.bind_eq_bind]
            rw [hrun₁, Option.bind_some, ← hback]
            dsimp only
            rw [hrun, List.length_cons, Nat.add_assoc, Nat.add_comm 1]
          · have hplace : place none (0 * nodeInterval) front = some (spaced 0 front) := by
              refine place_eq ?_ ?_
              · rw [hfront, Nat.zero_add]
                exact List.length_take_le ..
              · intro l hl
                cases hl
            rw [Nat.zero_mul] at hplace
            unfold sublists
            rw [if_neg (List.cons_ne_nil b bs), ← hfront, ← hback, hplace, hsub]
            rfl
          · refine hlast.trans ?_
            cases pieces with
            | nil => rfl
            | cons q pieces => rfl
          · have hold : m.lists.next < m₁.lists.next := by omega
            rw [hext.lists _ hold]
            exact hblist₁.list
          · refine hblist₁.linked.congr ?_
            intro c hc
            refine hext.nodes c.name ?_
            have hmem : c.name ∈ front.map BlNode.name := by
              rw [← spaced_names 0 front]
              exact List.mem_map_of_mem hc
            exact fun hmem' => hdisjoint _ hmem _ hmem' rfl
          · rw [List.map_cons, hleaves, hnext₁, List.length_cons, List.range'_succ]
          · rw [List.map_cons, hlists, hlists₁, List.length_cons, List.range'_succ]
          · rw [hext.leaves _ (by omega) (Nat.ne_of_lt hlt), hpred₁]
            rfl
          · intro n hn
            rw [hsplit, List.map_append, List.mem_append, not_or] at hn
            rw [hext.nodes n hn.2, hext₁.nodes n hn.1]
          · intro n x'' hx''
            obtain ⟨x', hx', hmarks'⟩ := hext.marks n x'' hx''
            obtain ⟨x, hx, hmarks⟩ := hext₁.marks n x' hx'
            exact ⟨x, hx, hmarks'.trans hmarks⟩
          · intro k hk
            rw [hext.lists k (by omega), hext₁.lists k hk]
          · intro a ha hne
            rw [hext.leaves a (by omega) (Nat.ne_of_lt ha), hext₁.leaves a ha hne]

/-! ## `bl_verify`

The check that `om_verify` makes of the list of each leaf: a loop over the links, with one comparison for each node. -/

/-- The loop of `bl_verify` walks along the links and compares each node with the next one. Labels that increase
    pass; so do the fields for debugging, if they passed before the split. -/
theorem verifyLoop_spec {fuel : Nat} (h : Linked m.nodes l prev (b :: bs) none)
    (hlabels : (b :: bs).Pairwise fun a c => a.label < c.label)
    (hquiet : ∀ c ∈ b :: bs, ∀ x, m.nodes.get c.name = some x → x.quiet) (hfuel : (b :: bs).length ≤ fuel) :
    verifyLoop m l (lastName (b :: bs)) fuel b.name = some () := by
  induction bs generalizing b prev fuel with
  | nil =>
      obtain ⟨fuel, rfl⟩ : ∃ k, fuel = k + 1 := ⟨fuel - 1, by rw [List.length_singleton] at hfuel; omega⟩
      obtain ⟨⟨x, hx, -, -, hnext, hlist⟩, -⟩ := h
      have hnext : x.next = none := hnext
      rw [verifyLoop]
      simp only [Option.bind_eq_bind, check]
      rw [hx, Option.bind_some, if_pos (hquiet b List.mem_cons_self x hx), Option.bind_some, hnext]
      dsimp only
      rw [if_pos hlist, Option.bind_some]
      exact if_pos rfl
  | cons c bs ih =>
      obtain ⟨fuel, rfl⟩ : ∃ k, fuel = k + 1 := ⟨fuel - 1, by rw [List.length_cons] at hfuel; omega⟩
      obtain ⟨⟨x, hx, hlabel, -, hnext, hlist⟩, hrest⟩ := h
      obtain ⟨⟨y, hy, hylabel, hyprev, -, -⟩, -⟩ := id hrest
      have hnext : x.next = some c.name := hnext
      obtain ⟨hlt, hlabels⟩ := List.pairwise_cons.mp hlabels
      have hlt : x.label < y.label := by
        rw [hlabel, hylabel]
        exact hlt c List.mem_cons_self
      have hne : c.name ≠ b.name := by
        intro heq
        rw [heq, hx] at hy
        rw [Option.some.inj hy] at hlt
        exact absurd hlt (Nat.lt_irrefl _)
      have hloop := ih hrest hlabels
        (fun d hd => hquiet d (List.mem_cons_of_mem b hd)) (Nat.le_of_succ_le_succ hfuel)
      rw [verifyLoop]
      simp only [Option.bind_eq_bind, check]
      rw [hx, Option.bind_some, if_pos (hquiet b List.mem_cons_self x hx), Option.bind_some, hnext]
      dsimp only
      rw [if_pos hne, Option.bind_some, hy, Option.bind_some, if_pos hlt, Option.bind_some, if_pos hlist,
        Option.bind_some, if_pos hyprev, Option.bind_some]
      rw [lastName_cons b, lastName_cons c] at *
      rw [Option.or_assoc, Option.some_or]
      exact hloop

/-- A list whose labels increase passes `bl_verify`. -/
theorem verify_spec {fuel : Nat} {d : Blist} (h : IsBlist m l d) (hne : d.nodes ≠ [])
    (hlabels : d.nodes.Pairwise fun a c => a.label < c.label)
    (hquiet : ∀ c ∈ d.nodes, ∀ x, m.nodes.get c.name = some x → x.quiet) (hfuel : d.nodes.length ≤ fuel) :
    verify fuel m l = some () := by
  obtain ⟨b, bs, hbs⟩ := List.exists_cons_of_ne_nil hne
  obtain ⟨hlist, hlinked⟩ := h
  rw [hbs] at hlist hlinked hlabels hquiet hfuel
  obtain ⟨x, hx, -, hprev, -⟩ := hlinked.1
  rw [verify]
  simp only [Option.bind_eq_bind, check]
  rw [hlist, Option.bind_some]
  dsimp only [headName_cons]
  rw [hx, Option.bind_some, if_pos hprev, Option.bind_some]
  exact verifyLoop_spec hlinked hlabels hquiet hfuel

/-! ## `split`

The whole function, from a list below its leaf to the chain of new leaves. `Partitioned` has one field for each thing
that is asked of a partition: the nodes and their order, the labels, the links, the leaves, and what was not touched. -/

/-- Every sublist but the last is full: the loop goes on with the same list until it has taken `sublistSize` nodes,
    or none is left. -/
theorem sublists_full {fuel : Nat} {subs : List (List BlNode)} (h : sublists fuel bs = some subs) {i : Nat}
    {sub : List BlNode} (hsub : subs[i]? = some sub) (hi : i + 1 < subs.length) : sub.length = sublistSize := by
  induction fuel generalizing bs subs i with
  | zero =>
      obtain rfl : [] = subs := Option.some.inj h
      cases hsub
  | succ fuel ih =>
      unfold sublists at h
      split at h
      · obtain rfl : [] = subs := Option.some.inj h
        cases hsub
      · simp only [Option.bind_eq_bind] at h
        obtain ⟨first, hfirst, h⟩ := Option.bind_eq_some_iff.mp h
        obtain ⟨rest, hrest, h⟩ := Option.bind_eq_some_iff.mp h
        obtain rfl : first :: rest = subs := Option.some.inj h
        cases i with
        | succ i => exact ih hrest hsub (Nat.lt_of_succ_lt_succ hi)
        | zero =>
            obtain rfl : first = sub := Option.some.inj hsub
            -- another sublist follows, so that there are nodes left
            have hmore : bs.drop sublistSize ≠ [] := by
              intro hnil
              rw [hnil] at hrest
              cases fuel with
              | zero =>
                  obtain rfl : [] = rest := Option.some.inj hrest
                  exact absurd hi (Nat.lt_irrefl 1)
              | succ fuel =>
                  obtain rfl : [] = rest := Option.some.inj hrest
                  exact absurd hi (Nat.lt_irrefl 1)
            have hlen : sublistSize ≤ bs.length := by
              by_contra hlt
              exact hmore (List.drop_eq_nil_iff.mpr (by omega))
            have htake : (bs.take sublistSize).length = sublistSize := List.length_take_of_le hlen
            have hplace : place none (0 * nodeInterval) (bs.take sublistSize) =
                some (spaced 0 (bs.take sublistSize)) := by
              refine place_eq (by omega) ?_
              intro l hl
              cases hl
            rw [Nat.zero_mul, hfirst] at hplace
            rw [Option.some.inj hplace, length_spaced, htake]

/-- The memory `m'` after the list `b` at `self` was cut into `pieces`; `t` was the leaf of the list. -/
structure Partitioned (m m' : Memory) (self : ListName) (b : Blist) (t : LeafCell) (pieces : List Piece) : Prop where
  /-- The old nodes in the old order. -/
  names : (pieces.map Piece.nodes).flatten.map BlNode.name = b.names
  full : ∀ (i : Nat) p, pieces[i]? = some p → i + 1 < pieces.length → p.nodes.length = sublistSize
  size : ∀ p ∈ pieces, 1 ≤ p.nodes.length ∧ p.nodes.length ≤ sublistSize
  /-- The labels are `0`, `nodeInterval`, … and have 64 bits. -/
  labels : ∀ p ∈ pieces, ∀ (j : Nat) c, p.nodes[j]? = some c → c.label = j * nodeInterval ∧ c.label < 2 ^ 64
  increasing : ∀ p ∈ pieces, p.nodes.Pairwise fun a c => a.label < c.label
  /-- The doubly linked leaves, each with its doubly linked list. -/
  chained : Chained m' none pieces
  first : m'.leaves.get b.above = some { t with under := .splitNodes ((pieces.head?.elim 0 Piece.leaf)) }
  newLeaves : pieces.map Piece.leaf = List.range' m.leaves.next pieces.length
  newLists : pieces.map Piece.list = List.range' m.lists.next pieces.length
  verified : (∀ c ∈ b.nodes, ∀ x, m.nodes.get c.name = some x → x.quiet) →
    ∀ p ∈ pieces, ∀ fuel, p.nodes.length ≤ fuel → verify fuel m' p.list = some ()
  freed : m'.lists.get self = none
  /-- Nothing else has changed. -/
  otherNodes : ∀ n, n ∉ b.names → m'.nodes.get n = m.nodes.get n
  otherLists : ∀ k, k < m.lists.next → k ≠ self → m'.lists.get k = m.lists.get k
  otherLeaves : ∀ a, a < m.leaves.next → a ≠ b.above → m'.leaves.get a = m.leaves.get a

theorem Chained.mem {pieces : List Piece} {p : Piece} {q : Option TlName} (h : Chained m q pieces) (hp : p ∈ pieces) :
    IsBlist m p.list ⟨p.leaf, false, p.nodes⟩ := by
  induction pieces generalizing q with
  | nil => cases hp
  | cons a ps ih =>
      rcases List.mem_cons.mp hp with rfl | hp
      · exact h.2.1
      · exact ih h.2.2 hp

/-- Other lists may come and go. -/
theorem Chained.congr {pieces : List Piece} {q : Option TlName} (h : Chained m q pieces)
    (hnodes : m'.nodes = m.nodes) (hleaves : m'.leaves = m.leaves)
    (hlists : ∀ p ∈ pieces, m'.lists.get p.list = m.lists.get p.list) : Chained m' q pieces := by
  induction pieces generalizing q with
  | nil => exact trivial
  | cons p ps ih =>
      obtain ⟨hleaf, ⟨hlist, hlinked⟩, hrest⟩ := h
      refine ⟨?_, ⟨?_, ?_⟩, ih hrest fun p hp => hlists p (List.mem_cons_of_mem _ hp)⟩
      · rw [hleaves, hleaf]
      · rw [hlists p List.mem_cons_self, hlist]
      · rw [hnodes]
        exact hlinked

/-- The labels of a spaced list. -/
theorem label_spaced {i j : Nat} {c : BlNode} (h : (spaced i bs)[j]? = some c) :
    c.label = (i + j) * nodeInterval := by
  induction bs generalizing i j with
  | nil => cases h
  | cons b bs ih =>
      cases j with
      | zero =>
          obtain rfl : ⟨b.name, i * nodeInterval⟩ = c := Option.some.inj h
          rfl
      | succ j =>
          rw [ih h]
          congr 1
          omega

/-- **Splitting is a faithful partition.** The assertions at the start hold for a list that hangs from its leaf and
    is not empty, the loop is `splitLoop_spec`, and the old list is freed at the end. -/
theorem split_faithful {d : Blist} (hd : IsBlist m self d) (hne : d.nodes ≠ [])
    (habove : m.leaves.get d.above = some t) (hunder : t.under = .below self) {fuel : Nat}
    (hfuel : d.nodes.length ≤ fuel) :
    ∃ m' pieces, split fuel m self = some (m', pieces.length) ∧
      pieces.length = (d.nodes.length + (sublistSize - 1)) / sublistSize ∧ Partitioned m m' self d t pieces := by
  have hself := Store.lt_next hd.list
  obtain ⟨m₁, pieces, hrun, hsub, hchained, hleaves, hlists, hfirst, hext⟩ :=
    @splitLoop_spec m self none d.nodes d.above none t fuel 0 hfuel habove hd.linked hd.linked.nodup
  obtain ⟨subs, hsubs, hnames, hparts, hcount⟩ := sublists_spec hfuel
  obtain rfl : pieces.map Piece.nodes = subs := Option.some.inj (hsub.symm.trans hsubs)
  have hmem : ∀ p ∈ pieces, p.nodes ∈ pieces.map Piece.nodes := fun p hp => List.mem_map_of_mem hp
  have hlist : ∀ p ∈ pieces, m.lists.next ≤ p.list := by
    intro p hp
    have hin : p.list ∈ List.range' m.lists.next pieces.length := hlists ▸ List.mem_map_of_mem hp
    exact (List.mem_range'_1.mp hin).1
  have hlabelled : ∀ p ∈ pieces, Labelled p.nodes := by
    intro p hp
    obtain ⟨part, hpart, -, hlen⟩ := hparts p.nodes (hmem p hp)
    rw [hpart]
    exact labelled_spaced (by omega)
  -- the old list is freed
  have hold : m₁.lists.get self = some ⟨headName d.nodes, lastName d.nodes, some d.above, d.heavy⟩ := by
    rw [hext.lists self hself, hd.list]
  obtain ⟨m₂, hrun₂, hlist₂, hnodes₂, hframe₂⟩ := setList_spec hold fun l => { l with head := none, tail := none }
  obtain ⟨lists, hfree, hgone, hother, -⟩ := Store.free_spec hlist₂
  obtain ⟨m', hm'⟩ : ∃ m' : Memory, m' = ⟨m₂.nodes, lists, m₂.leaves⟩ := ⟨_, rfl⟩
  have hlists' : ∀ k, k ≠ self → m'.lists.get k = m₁.lists.get k := by
    intro k hk
    rw [hm', ← hframe₂.lists k hk]
    exact hother k hk
  have hnodes' : m'.nodes = m₁.nodes := by
    rw [hm']
    exact hnodes₂
  have hleaves' : m'.leaves = m₁.leaves := by
    rw [hm']
    exact hframe₂.leaves
  have hchained' : Chained m' none pieces := by
    refine hchained.congr hnodes' hleaves' ?_
    intro p hp
    exact hlists' p.list (Nat.ne_of_gt (Nat.lt_of_lt_of_le hself (hlist p hp)))
  have hpne : pieces ≠ [] := by
    rintro rfl
    have hpos := List.length_pos_iff.mpr hne
    rw [List.map_nil, List.length_nil] at hcount
    omega
  refine ⟨m', pieces, ?_, ?_, hnames, ?_, ?_, ?_, ?_, hchained', ?_, hleaves, hlists, ?_, ?_, ?_, ?_, ?_⟩
  · have hhead : headName d.nodes ≠ none := by
      obtain ⟨b, bs, hbs⟩ := List.exists_cons_of_ne_nil hne
      rw [hbs]
      exact Option.some_ne_none _
    rw [Nat.zero_add] at hrun
    simp only [split, check, Option.bind_eq_bind]
    rw [hd.list, Option.bind_some, Option.bind_some, habove, Option.bind_some, if_pos hunder, Option.bind_some,
      if_pos hhead, Option.bind_some, hrun, Option.bind_some]
    dsimp only
    rw [hrun₂, Option.bind_some, hfree, Option.bind_some, hm']
  · rw [List.length_map] at hcount
    exact hcount
  · intro i p hp hi
    refine @sublists_full d.nodes fuel _ hsubs i p.nodes ?_ ?_
    · rw [List.getElem?_map, hp]
      rfl
    · rwa [List.length_map]
  · intro p hp
    obtain ⟨part, hpart, hpne, hlen⟩ := hparts p.nodes (hmem p hp)
    rw [hpart, length_spaced]
    exact ⟨List.length_pos_iff.mpr hpne, hlen⟩
  · intro p hp j c hc
    obtain ⟨part, hpart, -, -⟩ := hparts p.nodes (hmem p hp)
    refine ⟨?_, (hlabelled p hp).bounded c (List.mem_of_getElem? hc)⟩
    rw [hpart] at hc
    rw [label_spaced hc, Nat.zero_add]
  · exact fun p hp => (hlabelled p hp).increasing
  · rw [hleaves']
    refine hfirst.trans ?_
    obtain ⟨p, ps, rfl⟩ := List.exists_cons_of_ne_nil hpne
    rfl
  · intro hquiet p hp fuel' hfuel'
    obtain ⟨part, hpart, hpne, -⟩ := hparts p.nodes (hmem p hp)
    have hnil : p.nodes ≠ [] := by
      intro hnil
      rw [hnil] at hpart
      have hlen := congrArg List.length hpart
      rw [length_spaced] at hlen
      exact hpne (List.length_eq_zero_iff.mp hlen.symm)
    refine verify_spec (hchained'.mem hp) hnil (hlabelled p hp).increasing ?_ hfuel'
    intro c hc x' hx'
    rw [hnodes'] at hx'
    obtain ⟨x, hx, hmarks⟩ := hext.marks c.name x' hx'
    -- the node is one of the old list
    have hc : c.name ∈ d.nodes.map BlNode.name := by
      rw [← hnames]
      exact List.mem_map_of_mem (List.mem_flatten_of_mem (hmem p hp) hc)
    obtain ⟨e, he, hename⟩ := List.mem_map.mp hc
    exact quiet_of_marks hmarks (hquiet e he x (hename ▸ hx))
  · rw [hm']
    exact hgone
  · intro n hn
    rw [hnodes', hext.nodes n hn]
  · intro k hk hne
    rw [hlists' k hne, hext.lists k hk]
  · intro a ha hne
    rw [hleaves', hext.leaves a ha hne]

/-- Whether a list is linked can be computed. -/
instance decidableLinked (s : Store NodeCell) (l : ListName) :
    (prev : Option Name) → (bs : List BlNode) → (next : Option Name) → Decidable (Linked s l prev bs next)
  | _, [], _ => .isTrue trivial
  | prev, b :: bs, next =>
      have := decidableLinked s l (some b.name) bs next
      decidable_of_iff (((s.get b.name).any fun x => decide (x.label = b.label ∧ x.prev = prev ∧
        x.next = (headName bs).or next ∧ x.list = some l)) = true ∧ Linked s l (some b.name) bs next)
        (by simp [Linked, Option.any_eq_true])

/-- A marked list of seventy nodes below the leaf `0`. -/
def seventyNodes : List BlNode := (List.range 70).map fun i => ⟨i, 3 * i⟩

/-- The same, as it is in memory. -/
def seventyInMemory : Memory where
  nodes := ⟨(List.range 70).map fun i =>
    some ⟨3 * i, if i < 69 then some (i + 1) else none, if i = 0 then none else some (i - 1), some 0, 42, 0, -1⟩⟩
  lists := ⟨[some ⟨some 0, some 69, some 0, true⟩]⟩
  leaves := ⟨[some ⟨maxLevel, 1, none, none, .below 0⟩]⟩

/-- It splits into a piece of 64 nodes and one of 6. -/
theorem split_faithful_seventy : ∃ m' pieces, split 70 seventyInMemory 0 = some (m', pieces.length) ∧
    pieces.length = 2 ∧ Partitioned seventyInMemory m' 0 ⟨0, true, seventyNodes⟩ ⟨maxLevel, 1, none, none, .below 0⟩ pieces := by
  have hlist : IsBlist seventyInMemory 0 ⟨0, true, seventyNodes⟩ := ⟨rfl, by decide +kernel⟩
  have hne : seventyNodes ≠ [] := by decide
  have hlen : seventyNodes.length = 70 := by decide
  obtain ⟨m', pieces, hsplit, hcount, hpieces⟩ := split_faithful hlist hne rfl rfl (Nat.le_of_eq hlen)
  rw [hlen] at hcount
  exact ⟨m', pieces, hsplit, hcount, hpieces⟩

end FOrder.OrderMaint.Pointers
