import FOrder.OrderMaint.Rebuild

/-!
# `OrderMaint.Split` — splitting the heavy leaves

The loop of `om_relabel` splits the list of one leaf after the other, adds to the counts up the tree, marks the way
to the root and raises the recorded height. What it leaves behind is a `Shaped` tree again, in which the split
leaves wait for `rebalance`.

`SplitOff` is the specification of one turn: the shape, how many leaves have come, the mark, the addresses, and the
lists, in which the pieces stand where the list was. It is proved of the leaf itself (`splitLeaf_spec`), and carried
over an internal node from either half (`SplitOff.left`, `SplitOff.right`), so `splitAt_spec` is one induction on
the tree.

The height is the subtle part. A leaf with `k` lists needs a subtree of `⌈log₂ k⌉` levels, and the code counts the
nodes above it on the way up; the recorded height becomes the larger of the old one and this. The clause `fits` of
`SplitOff` says that it is enough: whatever bound was good before is still good if it is at least the counted
height.
-/

namespace FOrder.OrderMaint

/-! ## The pieces of a list

`split` on one list: the pieces have its nodes in its order, and are as many as the number of nodes divided by
`sublistSize`, rounded up. -/

/-- The sublists `split` makes. -/
def parts (nodes : List BlNode) : List (List BlNode) := (sublists nodes.length nodes).getD []

/-- `split` has fuel enough for its list. -/
theorem sublists_eq_parts (nodes : List BlNode) : sublists nodes.length nodes = some (parts nodes) := by
  obtain ⟨subs, hsubs, -⟩ := sublists_spec (Nat.le_refl nodes.length)
  unfold parts
  rw [hsubs, Option.getD_some]

/-- The pieces are the old nodes in order, spaced anew, and there are as many as there have to be. -/
theorem parts_spec (nodes : List BlNode) :
    (parts nodes).flatten.map BlNode.name = nodes.map BlNode.name ∧
      (∀ sub ∈ parts nodes, ∃ part : List BlNode, sub = spaced 0 part ∧ part ≠ [] ∧ part.length ≤ sublistSize) ∧
      (parts nodes).length = (nodes.length + 63) / 64 := by
  obtain ⟨subs, hsubs, hnames, hparts, hlen⟩ := sublists_spec (Nat.le_refl nodes.length)
  rw [sublists_eq_parts] at hsubs
  obtain rfl := Option.some.inj hsubs
  exact ⟨hnames, hparts, hlen⟩

/-- A list that is not empty has a piece. -/
theorem parts_pos {nodes : List BlNode} (h : nodes ≠ []) : 1 ≤ (parts nodes).length := by
  rw [(parts_spec nodes).2.2]
  have := List.length_pos_iff.mpr h
  omega

/-- The mark and the nodes of a list. -/
def Blist.content (b : Blist) : Bool × List BlNode := (b.heavy, b.nodes)

/-- What becomes of a list when the leaves in `heavy` are split. -/
def splitContent (heavy : List TlName) (b : Blist) : List (Bool × List BlNode) :=
  if b.above ∈ heavy then (parts b.nodes).map fun nodes => (false, nodes) else [b.content]

/-- The lists a list is split into hang from its own leaf or from new ones. -/
structure Pieces (name fresh : TlName) (b : Blist) (pieces : List Blist) : Prop where
  content : pieces.map Blist.content = (parts b.nodes).map fun nodes => (false, nodes)
  above : ∀ c ∈ pieces, c.above = name ∨ fresh ≤ c.above

/-! ## Heights

The logarithm that the code takes of the number of pieces, which is the number of levels that they need. -/

/-- `fast_log2_ceil` is the logarithm, rounded up. -/
theorem le_two_pow_fastLog2Ceil {x : Nat} (hx : x ≠ 0) : x ≤ 2 ^ fastLog2Ceil x := by
  have hlow : 2 ^ fastLog2 x ≤ x := Nat.log2_self_le hx
  have hhigh : x < 2 ^ (fastLog2 x + 1) := Nat.lt_log2_self
  unfold fastLog2Ceil
  split
  · exact Nat.le_of_lt hhigh
  · omega

/-- It is positive from two on. -/
theorem fastLog2Ceil_pos {x : Nat} (hx : 1 < x) : 1 ≤ fastLog2Ceil x := by
  have hle := le_two_pow_fastLog2Ceil (x := x) (by omega)
  by_contra hzero
  have hzero : fastLog2Ceil x = 0 := by omega
  rw [hzero] at hle
  omega

/-! ## One leaf

The leaf becomes the array of its pieces in place. For the rest of the tree it is still one node, with a count that
has grown. -/

variable {p : Option TlName} {lo e : Nat} {name fresh fresh' : TlName} {t t' : Tree}

/-- What splitting the leaf `name` into `k` does to a tree; `height` is what was counted on the way up. -/
structure SplitOff (name : TlName) (p : Option TlName) (lo e k height : Nat) (fresh fresh' : TlName) (t t' : Tree) :
    Prop where
  shaped : Shaped p lo e t'
  rootName : t'.root.name = t.root.name
  numLeaves : t'.root.numLeaves = t.root.numLeaves + (k - 1)
  flag : t'.root.needsRebalance = (t.root.needsRebalance || decide (1 < k))
  names : NamesOk fresh fresh' t.tlNames t'.tlNames
  leafNames : ∀ x ∈ t.leafNames, x ≠ name → x ∈ t'.leafNames
  fits : ∀ m m', Fits m t → m ≤ m' → (1 < k → height ≤ m') → Fits m' t'
  lists : ∃ pieces, t'.lists = t.lists.flatMap (fun b => if b.above = name then pieces else [b]) ∧
    ∀ b ∈ t.lists, b.above = name → Pieces name fresh b pieces

/-- The new leaves have addresses in a row, each with its piece. -/
theorem splitNodes_spec (fresh : TlName) (subs : List (List BlNode)) :
    (splitNodes fresh subs).length = subs.length ∧
      (∀ s ∈ splitNodes fresh subs, s.list.above = s.node.name) ∧
      (splitNodes fresh subs).map (fun s => s.node.name) = List.range' fresh subs.length ∧
      ((splitNodes fresh subs).map Leaf.list).map Blist.content = subs.map fun nodes => (false, nodes) := by
  induction subs generalizing fresh with
  | nil => exact ⟨rfl, fun _ h => (List.not_mem_nil h).elim, rfl, rfl⟩
  | cons nodes rest ih =>
      obtain ⟨hlen, habove, hnames, hcontent⟩ := ih (fresh + 1)
      refine ⟨?_, ?_, ?_, ?_⟩
      · simp [splitNodes, hlen]
      · exact List.forall_mem_cons.mpr ⟨rfl, habove⟩
      · simp [splitNodes, hnames, List.range'_succ]
      · simp only [splitNodes, List.map_cons, hcontent]
        rfl

/-- **`split`** at the leaf itself. With one piece the leaf keeps its place and gets no mark, with the list spaced
    anew below it; with several it becomes a leaf that waits to be rebuilt. -/
theorem splitLeaf_spec {n : TlNode} {b : Blist} (h : ListLeaf p lo n b) (hne : b.nodes ≠ []) (hlt : n.name < fresh) :
    ∃ t' fresh', splitLeaf n b fresh = some (t', (parts b.nodes).length, fresh') ∧
      SplitOff n.name p lo e (parts b.nodes).length (fastLog2Ceil (parts b.nodes).length - 1 + 1) fresh fresh'
        (.leaf n (.list b)) t' := by
  have hlevel : n.level = maxLevel ∧ b.above = n.name ∧ b.nodes ≠ [] := ⟨h.level, h.above, hne⟩
  have hone : n.numLeaves = 1 := h.numLeaves
  have hk := parts_pos hne
  unfold splitLeaf
  rw [if_pos hlevel, sublists_eq_parts, Option.bind_eq_bind, Option.bind_some]
  by_cases hseveral : 1 < (parts b.nodes).length
  · -- the leaf becomes the place of several new ones
    obtain ⟨hlen, habove, hnames, hcontent⟩ := splitNodes_spec fresh (parts b.nodes)
    simp only [hseveral, if_true]
    refine ⟨_, _, rfl, ?_⟩
    refine ⟨⟨h.parent, h.level, ?_, ?_, rfl, habove⟩, rfl, rfl, ?_, ?_, ?_, ?_, ?_⟩
    · show n.numLeaves + ((parts b.nodes).length - 1) = _
      rw [hlen, hone]
      omega
    · rw [hlen]
      exact hseveral
    · show true = (n.needsRebalance || _)
      rw [decide_eq_true hseveral, Bool.or_true]
    · show NamesOk fresh _ [n.name] (n.name :: (splitNodes fresh (parts b.nodes)).map fun s => s.node.name)
      apply NamesOk.cons _ List.not_mem_nil hlt
      rw [hnames]
      refine ⟨Nat.le_add_right _ _, List.nodup_range', ?_⟩
      intro x hx
      exact Or.inr (List.mem_range'_1.mp hx)
    · intro x hx hxne
      exact absurd (List.mem_singleton.mp hx) hxne
    · intro m m' _ _ hheight
      show n.numLeaves + ((parts b.nodes).length - 1) ≤ 2 ^ m'
      have hceil := le_two_pow_fastLog2Ceil (x := (parts b.nodes).length) (by omega)
      have hpos := fastLog2Ceil_pos hseveral
      have hpow : 2 ^ fastLog2Ceil (parts b.nodes).length ≤ 2 ^ m' :=
        Nat.pow_le_pow_right (by decide) (by have := hheight hseveral; omega)
      omega
    · refine ⟨(splitNodes fresh (parts b.nodes)).map Leaf.list, ?_, ?_⟩
      · show _ = [b].flatMap _
        rw [List.flatMap_singleton, if_pos h.above]
        rfl
      · intro c hc _
        obtain rfl : c = b := List.mem_singleton.mp hc
        refine ⟨hcontent, ?_⟩
        intro d hd
        obtain ⟨s, hs, rfl⟩ := List.mem_map.mp hd
        have hname : s.node.name ∈ List.range' fresh (parts c.nodes).length := hnames ▸ List.mem_map_of_mem hs
        rw [habove s hs]
        exact Or.inr (List.mem_range'_1.mp hname).1
  · -- one sublist only: the leaf stays
    obtain ⟨nodes, hnodes⟩ : ∃ nodes, parts b.nodes = [nodes] := List.length_eq_one_iff.mp (by omega)
    simp only [hnodes]
    refine ⟨_, _, rfl, ?_⟩
    refine ⟨⟨h.parent, h.label, h.level, hone, rfl, rfl⟩, rfl, rfl, ?_, ?_, ?_, ?_, ?_⟩
    · show false = (n.needsRebalance || _)
      rw [h.flag]
      rfl
    · show NamesOk fresh _ [n.name] [n.name]
      refine ⟨Nat.le_add_right _ _, List.nodup_singleton _, fun x hx => Or.inl hx⟩
    · exact fun x hx _ => hx
    · intro m m' hfits hle _
      exact Fits.mono (t := .leaf n (.list b)) hfits hle
    · refine ⟨[⟨n.name, false, nodes⟩], ?_, ?_⟩
      · show _ = [b].flatMap _
        rw [List.flatMap_singleton, if_pos h.above]
        rfl
      · intro c hc _
        obtain rfl : c = b := List.mem_singleton.mp hc
        refine ⟨by rw [hnodes]; rfl, ?_⟩
        intro d hd
        rw [List.mem_singleton.mp hd]
        exact Or.inl rfl

/-! ## The way to the root

The code follows parent pointers upwards. In the model it is a recursion downwards, and the update of a node is made
when the recursion comes back to it, so the nodes are the same and in the same order. -/

/-- The lists of a subtree hang from its own leaves. -/
theorem Shaped.above_mem (h : Shaped p lo e t) {b : Blist} (hb : b ∈ t.lists) : b.above ∈ t.tlNames := by
  obtain ⟨s, hs, rfl⟩ := List.mem_map.mp hb
  rw [h.above s hs]
  exact h.leaf_names.1.subset (List.mem_map_of_mem hs)

/-- A leaf is a node. -/
theorem leafNames_subset (t : Tree) : ∀ x ∈ t.leafNames, x ∈ t.tlNames := by
  induction t with
  | leaf n below =>
      cases below with
      | list b => exact fun x hx => hx
      | splitNodes ns => exact fun x hx => (List.not_mem_nil hx).elim
  | node n l r ihl ihr =>
      intro x hx
      apply List.mem_cons_of_mem
      rcases List.mem_append.mp hx with hx | hx
      · exact List.mem_append_left _ (ihl x hx)
      · exact List.mem_append_right _ (ihr x hx)

/-- Lists that hang from elsewhere stay. -/
theorem flatMap_other {bs : List Blist} {pieces : List Blist} (h : ∀ b ∈ bs, b.above ≠ name) :
    bs.flatMap (fun b => if b.above = name then pieces else [b]) = bs := by
  induction bs with
  | nil => rfl
  | cons b bs ih =>
      rw [List.flatMap_cons, if_neg (h b List.mem_cons_self), ih fun c hc => h c (List.mem_cons_of_mem b hc)]
      rfl

/-- The node above: its count grows, and it is marked when the leaf has been split into several. -/
theorem bump_fields (k : Nat) (n : TlNode) :
    (bump k n).name = n.name ∧ (bump k n).parent = n.parent ∧ (bump k n).label = n.label ∧
      (bump k n).level = n.level ∧ (bump k n).numLeaves = n.numLeaves + (k - 1) ∧
      (bump k n).needsRebalance = (n.needsRebalance || decide (1 < k)) := by
  unfold bump
  split
  · rename_i hk
    exact ⟨rfl, rfl, rfl, rfl, rfl, by rw [decide_eq_true hk, Bool.or_true]⟩
  · rename_i hk
    refine ⟨rfl, rfl, rfl, rfl, by omega, by rw [decide_eq_false hk, Bool.or_false]⟩

/-- Splitting in the left half. The lists of the right half hang from other leaves, so they stay (`flatMap_other`).
    -/
theorem SplitOff.left {n : TlNode} {j k height : Nat} {l l' r : Tree} (hinner : Inner p lo (j + 1) n l r)
    (hr : Shaped (some n.name) (lo + 2 ^ j) j r) (hl : SplitOff name (some n.name) lo j k height fresh fresh' l l')
    (hnamed : NamedBelow fresh (.node n l r)) (hname : name ∈ l.tlNames) :
    SplitOff name p lo (j + 1) k (height + 1) fresh fresh' (.node n l r) (.node (bump k n) l' r) := by
  obtain ⟨hbname, hbparent, hblabel, hblevel, hbnum, hbflag⟩ := bump_fields k n
  obtain ⟨hfresh, hnodup⟩ := List.nodup_cons.mp hnamed.nodup
  have hother : name ∉ r.tlNames := fun hmem => (List.disjoint_of_nodup_append hnodup) hname hmem
  have hltBelow : ∀ x ∈ l.tlNames ++ r.tlNames, x < fresh := fun x hx => hnamed.lt x (List.mem_cons_of_mem _ hx)
  refine ⟨⟨j, rfl, ⟨?_, ?_, ?_, ?_, ?_⟩, ?_, ?_⟩, hbname, hbnum, hbflag, ?_, ?_, ?_, ?_⟩
  · rw [hbparent, hinner.parent]
  · rw [hblabel, hinner.label]
  · rw [hblevel, hinner.level]
  · rw [hbnum, hinner.numLeaves, hl.numLeaves]
    omega
  · rw [hbflag, hinner.flag, hl.flag, Bool.or_assoc, Bool.or_comm r.root.needsRebalance, ← Bool.or_assoc]
  · rw [hbname]
    exact hl.shaped
  · rw [hbname]
    exact hr
  · show NamesOk fresh fresh' (n.name :: (l.tlNames ++ r.tlNames)) ((bump k n).name :: (l'.tlNames ++ r.tlNames))
    rw [hbname]
    apply NamesOk.cons _ hfresh (hnamed.lt _ List.mem_cons_self)
    have hright : NamesOk fresh' fresh' r.tlNames r.tlNames :=
      NamesOk.refl (List.nodup_append.mp hnodup).2.1
    exact hl.names.append hright hnodup hltBelow
  · intro x hx hne
    rcases List.mem_append.mp hx with hx | hx
    · exact List.mem_append_left _ (hl.leafNames x hx hne)
    · exact List.mem_append_right _ hx
  · rintro m m' ⟨i, rfl, hfl, hfr⟩ hle hheight
    obtain ⟨i', rfl⟩ : ∃ i', m' = i' + 1 := ⟨m' - 1, by omega⟩
    refine ⟨i', rfl, hl.fits i i' hfl (by omega) ?_, hfr.mono (by omega)⟩
    intro hk
    have := hheight hk
    omega
  · obtain ⟨pieces, hlists, hpieces⟩ := hl.lists
    have hrest : ∀ b ∈ r.lists, b.above ≠ name := by
      rintro b hb rfl
      exact hother (hr.above_mem hb)
    refine ⟨pieces, ?_, ?_⟩
    · show (l'.leaves ++ r.leaves).map Leaf.list = ((l.leaves ++ r.leaves).map Leaf.list).flatMap _
      rw [List.map_append, List.map_append, List.flatMap_append]
      show l'.lists ++ r.lists = l.lists.flatMap _ ++ r.lists.flatMap _
      rw [hlists, flatMap_other hrest]
    · intro b hb hab
      have hb : b ∈ (l.leaves ++ r.leaves).map Leaf.list := hb
      rw [List.map_append] at hb
      rcases List.mem_append.mp hb with hb | hb
      · exact hpieces b hb hab
      · exact absurd hab (hrest b hb)

/-- Splitting in the right half, the same way. -/
theorem SplitOff.right {n : TlNode} {j k height : Nat} {l r r' : Tree} (hinner : Inner p lo (j + 1) n l r)
    (hl : Shaped (some n.name) lo j l) (hr : SplitOff name (some n.name) (lo + 2 ^ j) j k height fresh fresh' r r')
    (hnamed : NamedBelow fresh (.node n l r)) (hname : name ∈ r.tlNames) :
    SplitOff name p lo (j + 1) k (height + 1) fresh fresh' (.node n l r) (.node (bump k n) l r') := by
  obtain ⟨hbname, hbparent, hblabel, hblevel, hbnum, hbflag⟩ := bump_fields k n
  obtain ⟨hfresh, hnodup⟩ := List.nodup_cons.mp hnamed.nodup
  have hother : name ∉ l.tlNames := fun hmem => (List.disjoint_of_nodup_append hnodup) hmem hname
  have hltBelow : ∀ x ∈ l.tlNames ++ r.tlNames, x < fresh := fun x hx => hnamed.lt x (List.mem_cons_of_mem _ hx)
  refine ⟨⟨j, rfl, ⟨?_, ?_, ?_, ?_, ?_⟩, ?_, ?_⟩, hbname, hbnum, hbflag, ?_, ?_, ?_, ?_⟩
  · rw [hbparent, hinner.parent]
  · rw [hblabel, hinner.label]
  · rw [hblevel, hinner.level]
  · rw [hbnum, hinner.numLeaves, hr.numLeaves]
    omega
  · rw [hbflag, hinner.flag, hr.flag, Bool.or_assoc]
  · rw [hbname]
    exact hl
  · rw [hbname]
    exact hr.shaped
  · show NamesOk fresh fresh' (n.name :: (l.tlNames ++ r.tlNames)) ((bump k n).name :: (l.tlNames ++ r'.tlNames))
    rw [hbname]
    apply NamesOk.cons _ hfresh (hnamed.lt _ List.mem_cons_self)
    have hleft : NamesOk fresh fresh l.tlNames l.tlNames :=
      NamesOk.refl (List.nodup_append.mp hnodup).1
    exact hleft.append hr.names hnodup hltBelow
  · intro x hx hne
    rcases List.mem_append.mp hx with hx | hx
    · exact List.mem_append_left _ hx
    · exact List.mem_append_right _ (hr.leafNames x hx hne)
  · rintro m m' ⟨i, rfl, hfl, hfr⟩ hle hheight
    obtain ⟨i', rfl⟩ : ∃ i', m' = i' + 1 := ⟨m' - 1, by omega⟩
    refine ⟨i', rfl, hfl.mono (by omega), hr.fits i i' hfr (by omega) ?_⟩
    intro hk
    have := hheight hk
    omega
  · obtain ⟨pieces, hlists, hpieces⟩ := hr.lists
    have hrest : ∀ b ∈ l.lists, b.above ≠ name := by
      rintro b hb rfl
      exact hother (hl.above_mem hb)
    refine ⟨pieces, ?_, ?_⟩
    · show (l.leaves ++ r'.leaves).map Leaf.list = ((l.leaves ++ r.leaves).map Leaf.list).flatMap _
      rw [List.map_append, List.map_append, List.flatMap_append]
      show l.lists ++ r'.lists = l.lists.flatMap _ ++ r.lists.flatMap _
      rw [hlists, flatMap_other hrest]
    · intro b hb hab
      have hb : b ∈ (l.leaves ++ r.leaves).map Leaf.list := hb
      rw [List.map_append] at hb
      rcases List.mem_append.mp hb with hb | hb
      · exact absurd hab (hrest b hb)
      · exact hpieces b hb hab

/-- **The body of the loop** splits the leaf and brings the nodes above it up to date. By induction on the tree, to
    the half that has the leaf. -/
theorem splitAt_spec (h : Shaped p lo e t) (hname : name ∈ t.leafNames)
    (hne : ∀ b ∈ t.lists, b.above = name → b.nodes ≠ []) (hnamed : NamedBelow fresh t) :
    ∃ t' k height fresh', splitAt name t fresh = some (t', k, height, fresh') ∧
      SplitOff name p lo e k height fresh fresh' t t' := by
  induction t generalizing p lo e with
  | leaf n below =>
      cases below with
      | list b =>
          obtain rfl : name = n.name := List.mem_singleton.mp hname
          have hb : b.nodes ≠ [] := hne b List.mem_cons_self (ListLeaf.above h)
          obtain ⟨t', fresh', hsplit, hoff⟩ := splitLeaf_spec (e := e) h hb (hnamed.lt _ List.mem_cons_self)
          refine ⟨t', _, _, fresh', ?_, hoff⟩
          unfold splitAt
          rw [if_pos rfl, hsplit]
          rfl
      | splitNodes ns => exact (List.not_mem_nil hname).elim
  | node n l r ihl ihr =>
      obtain ⟨j, rfl, hinner, hl, hr⟩ := h
      have hneLists : ∀ b ∈ l.lists ++ r.lists, b.above = name → b.nodes ≠ [] := by
        intro b hb
        apply hne b
        show b ∈ (l.leaves ++ r.leaves).map Leaf.list
        rw [List.map_append]
        exact hb
      unfold splitAt
      by_cases hleft : name ∈ l.leafNames
      · obtain ⟨l', k, height, fresh', hsplit, hoff⟩ := ihl hl hleft
          (fun b hb => hneLists b (List.mem_append_left _ hb)) hnamed.left
        refine ⟨_, k, height + 1, fresh', ?_, hoff.left hinner hr hnamed (leafNames_subset l name hleft)⟩
        rw [if_pos hleft, hsplit]
        simp only [Option.bind_eq_bind, Option.bind_some]
        rw [if_pos hl.parent]
      · have hright : name ∈ r.leafNames := (List.mem_append.mp hname).resolve_left hleft
        obtain ⟨r', k, height, fresh', hsplit, hoff⟩ := ihr hr hright
          (fun b hb => hneLists b (List.mem_append_right _ hb)) (hnamed.right (Nat.le_refl fresh))
        refine ⟨_, k, height + 1, fresh', ?_, hoff.right hinner hl hnamed (leafNames_subset r name hright)⟩
        rw [if_neg hleft, hsplit]
        simp only [Option.bind_eq_bind, Option.bind_some]
        rw [if_pos hr.parent]

end FOrder.OrderMaint
