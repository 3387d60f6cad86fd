import FOrder.OrderMaint.Runs
import Mathlib.Data.List.Pairwise
import Mathlib.Logic.Function.Basic

/-!
# `OrderMaint.Omrd` — inserts that cannot be refused

`omrd.cpp` with one worker: an insert that is refused puts the list of its base on the stack of heavy lists, has
both structures relabelled, and tries again. A list on which little room is left is put there in advance. `none` is
a failed assertion, or a loop of the slow path that has not come to its end.

## What holds between the operations

`Omrd.Ok` says that the tree is well formed, that no list is empty, and that the stack is in step with the marks
(`Omrd.InStep`): the leaf of every marked list is on the stack, once, and nothing else is. It is an invariant of
runs (`OmrdRun.ok`), with one specification for each operation: `Omrd.mark_spec`, `Omrd.tryInsert_spec`,
`Omrd.relabel_spec`, `Omrd.finish_spec`.

## Why one turn of the slow path is enough

The list of the base is marked, so it is on the stack (`Omrd.mark_spec`), so the relabel splits it into evenly
spaced pieces of at most `sublistSize` nodes (`Omrd.relabel_spec`). In such a piece there are `2 ^ 58` labels for
every node (`spaced_wide`), so the second try gets one, with at least `2 ^ 56` behind it (`insertAt_spaced`); and a
node with that much behind it is not heavy (`not_isHeavy`), as the assertion at the end of the slow path wants.

## The machine bound

`om_relabel` counts leaves in `int`s and shifts by logarithms of these counts, so its result is only defined while
fewer than `2 ^ 31` leaves are made. `LeavesFit` is this condition, at the one place of an insert where a relabel
happens.
-/

namespace FOrder.OrderMaint

/-- There are two structures. -/
inductive Order where
  | english
  | hebrew
  deriving DecidableEq

/-! ## The model

`omrd.cpp`, function by function. The stack of heavy lists holds leaves, and the mark is a field of the list below a
leaf. -/

/-- An `omrd_t`: `m_ds` and `m_heavy_nodes`. -/
structure Omrd where
  ds : Om
  heavyNodes : List TlName

/-- `g_english` and `g_hebrew`. -/
abbrev Orders := Order → Omrd

def heavyThreshold : Nat := 32

/-- The label of a node and that of the next one. -/
def follow (n : Name) : List BlNode → Option (Nat × Option Nat)
  | [] => none
  | b :: rest => if b.name = n then some (b.label, rest.head?.map BlNode.label) else follow n rest

/-- `is_heavy`. -/
def isHeavy (om : Om) (n : Name) : Option Bool := do
  let (l, _) ← locate om n
  let (label, next) ← follow n l.list.nodes
  some (decide ((next.getD maxLabel + 2 ^ 64 - label) % 2 ^ 64 < 2 ^ (64 - heavyThreshold)))

/-- The list gets the mark when it hangs from the leaf `t`. -/
def Blist.setHeavy (t : TlName) (b : Blist) : Blist := { b with heavy := b.heavy || b.above = t }

def Tree.setHeavy (t : TlName) : Tree → Tree
  | .leaf n (.list b) => .leaf n (.list (b.setHeavy t))
  | .leaf n (.splitNodes ns) => .leaf n (.splitNodes ns)
  | .node n l r => .node n (l.setHeavy t) (r.setHeavy t)

/-- `CAS(&base->list->heavy, 0, 1)`, and `add_heavy` when it succeeds. -/
def Omrd.mark (self : Omrd) (base : Name) : Option Omrd := do
  let (l, _) ← locate self.ds base
  if l.list.heavy then some self
  else if l.node.level = maxLevel then
    some ⟨{ self.ds with root := self.ds.root.setHeavy l.list.above }, self.heavyNodes ++ [l.list.above]⟩
  else none

/-- `try_insert` with a base. -/
def Omrd.tryInsert (self : Omrd) (base n : Name) : Option (Option Omrd) :=
  (insert self.ds base n).map fun r => r.map fun ds => { self with ds := ds }

/-- The constructor. -/
def Omrd.new (base : Name) : Option Omrd := (insertInitial create base).map fun ds => ⟨ds, []⟩

/-- The end of `omrd_t::insert`. -/
def Omrd.finish (self : Omrd) (base n : Name) : Option Omrd := do
  let (ln, _) ← locate self.ds n
  let (lb, _) ← locate self.ds base
  if ln.list.above = lb.list.above then do
    let heavy ← isHeavy self.ds n
    if !ln.list.heavy && heavy then self.mark base else some self
  else none

section

variable (shl : Nat → Nat)

/-- `relabel`. -/
def Omrd.relabel (self : Omrd) : Option Omrd :=
  if self.heavyNodes = [] then some self
  else (OrderMaint.relabel shl self.ds self.heavyNodes).map fun ds => ⟨ds, []⟩

/-- `batch_relabel`. -/
def batchRelabel (s : Orders) : Option Orders := do
  let english ← (s .english).relabel shl
  let hebrew ← (s .hebrew).relabel shl
  some fun
    | .english => english
    | .hebrew => hebrew

/-- The loop of `slow_path`. -/
def slowPath (o : Order) (base n : Name) : Nat → Orders → Option Orders
  | 0, _ => none
  | fuel + 1, s => do
      let marked ← (s o).mark base
      let s ← batchRelabel shl (Function.update s o marked)
      match ← (s o).tryInsert base n with
      | some omrd => some (Function.update s o omrd)
      | none => slowPath o base n fuel s

/-- `omrd_t::insert`. -/
def Orders.insert (s : Orders) (fuel : Nat) (o : Order) (base n : Name) : Option Orders := do
  match ← (s o).tryInsert base n with
  | some omrd => do
      let omrd ← omrd.finish base n
      some (Function.update s o omrd)
  | none => do
      let s ← slowPath shl o base n fuel s
      if ← isHeavy (s o).ds n then none
      else do
        let omrd ← (s o).finish base n
        some (Function.update s o omrd)

end

/-! ## Marking

A list is marked once, by the `CAS`, and its leaf is then put on the stack, so that a leaf is on the stack exactly as
long as its list is marked. Leaves and lists name each other, and each node is in one list; so whatever is said of the
stack can be said of lists. -/

variable {om : Om} {omrd omrd' : Omrd} {base n : Name}

/-- Marking a list changes nothing of the tree but the mark. By induction on the tree. -/
theorem setHeavy_spec {p : Option TlName} {lo k : Nat} {t : Tree} (x : TlName) (h : Shaped p lo k t)
    (hflag : t.root.needsRebalance = false) :
    SameTree p lo k t (t.setHeavy x) ∧ (t.setHeavy x).lists = t.lists.map (Blist.setHeavy x) := by
  induction t generalizing p lo k with
  | leaf m below =>
      cases below with
      | splitNodes ns =>
          have hmarked : m.needsRebalance = true := SplitLeaf.flag h
          cases hmarked.symm.trans hflag
      | list b =>
          have hleaf : ListLeaf p lo m b := h
          refine ⟨⟨rfl, ?_, rfl, rfl, fun _ hfits => hfits⟩, rfl⟩
          exact ⟨hleaf.parent, hleaf.label, hleaf.level, hleaf.numLeaves, hleaf.flag, hleaf.above⟩
  | node m l r ihl ihr =>
      obtain ⟨j, rfl, hinner, hl, hr⟩ := h
      have hflags : (l.root.needsRebalance || r.root.needsRebalance) = false := hinner.flag ▸ hflag
      obtain ⟨hfl, hfr⟩ := Bool.or_eq_false_iff.mp hflags
      obtain ⟨hsamel, hlistsl⟩ := ihl hl hfl
      obtain ⟨hsamer, hlistsr⟩ := ihr hr hfr
      refine ⟨.node hinner hsamel hsamer, ?_⟩
      show (Tree.node m (l.setHeavy x) (r.setHeavy x)).lists = _
      rw [lists_node, lists_node, hlistsl, hlistsr, List.map_append]

/-- Every node is in one list only. -/
theorem list_unique (h : WellFormed om) {b c : Blist} {x : Name} (hb : b ∈ om.root.lists) (hc : c ∈ om.root.lists)
    (hxb : x ∈ b.names) (hxc : x ∈ c.names) : b = c := by
  have hdisjoint := (List.nodup_flatMap.mp h.distinct).2
  by_contra hne
  have hsymm : Std.Symm (Function.onFun List.Disjoint Blist.names) := ⟨fun _ _ hdisj _ hx hy => hdisj hy hx⟩
  exact hdisjoint.forall hb hc hne hxb hxc

/-- Lists that hang from one leaf are one list. -/
theorem list_above_unique (h : WellFormed om) {b c : Blist} (hb : b ∈ om.root.lists) (hc : c ∈ om.root.lists)
    (habove : b.above = c.above) : b = c := by
  obtain ⟨a, ha, rfl⟩ := List.mem_map.mp hb
  obtain ⟨d, hd, rfl⟩ := List.mem_map.mp hc
  rw [h.shaped.above a ha, h.shaped.above d hd] at habove
  rw [leaf_unique h ha hd habove]

/-- `locate` finds the list of a node. -/
theorem locate_list (h : WellFormed om) {b : Blist} {x : Name} (hb : b ∈ om.root.lists) (hx : x ∈ b.names) :
    ∃ a node, locate om x = some (a, node) ∧ a ∈ om.root.leaves ∧ a.list = b := by
  obtain ⟨a, node, hlocate, ha, hnode, rfl⟩ := locate_spec (mem_names.mpr ⟨b, hb, hx⟩)
  refine ⟨a, node, hlocate, ha, ?_⟩
  exact list_unique h (List.mem_map_of_mem ha) hb (List.mem_map_of_mem hnode) hx

/-- The stack holds the leaves whose list is marked, each once. -/
structure Omrd.InStep (o : Omrd) : Prop where
  nodup : o.heavyNodes.Nodup
  heavy : ∀ t, t ∈ o.heavyNodes ↔ ∃ a ∈ o.ds.root.leaves, a.node.name = t ∧ a.list.heavy = true

/-- What holds of a structure between the operations on it. -/
structure Omrd.Ok (o : Omrd) : Prop extends Omrd.InStep o where
  wellFormed : WellFormed o.ds
  nonempty : ∀ b ∈ o.ds.root.lists, b.nodes ≠ []

/-- The stack, said of the lists. A list hangs from the leaf that `above` names, so leaves and lists can be
    exchanged. -/
theorem Omrd.Ok.mem_heavy (h : omrd.Ok) (t : TlName) :
    t ∈ omrd.heavyNodes ↔ ∃ b ∈ omrd.ds.root.lists, b.above = t ∧ b.heavy = true := by
  rw [h.heavy]
  constructor
  · rintro ⟨a, ha, rfl, hheavy⟩
    exact ⟨a.list, List.mem_map_of_mem ha, h.wellFormed.shaped.above a ha, hheavy⟩
  · rintro ⟨b, hb, rfl, hheavy⟩
    obtain ⟨a, ha, rfl⟩ := List.mem_map.mp hb
    exact ⟨a, ha, (h.wellFormed.shaped.above a ha).symm, hheavy⟩

/-- The other way round: what is to be shown of a structure after an operation. -/
theorem Omrd.Ok.of_lists (hwf : WellFormed omrd.ds) (hnonempty : ∀ b ∈ omrd.ds.root.lists, b.nodes ≠ [])
    (hnodup : omrd.heavyNodes.Nodup)
    (hheavy : ∀ t, t ∈ omrd.heavyNodes ↔ ∃ b ∈ omrd.ds.root.lists, b.above = t ∧ b.heavy = true) : omrd.Ok := by
  refine ⟨⟨hnodup, ?_⟩, hwf, hnonempty⟩
  intro t
  rw [hheavy]
  constructor
  · rintro ⟨b, hb, rfl, hb'⟩
    obtain ⟨a, ha, rfl⟩ := List.mem_map.mp hb
    exact ⟨a, ha, (hwf.shaped.above a ha).symm, hb'⟩
  · rintro ⟨a, ha, rfl, ha'⟩
    exact ⟨a.list, List.mem_map_of_mem ha, hwf.shaped.above a ha, ha'⟩

/-- **Marking** puts the list of the base on the stack. If the list was marked, it is there already; otherwise the
    `CAS` succeeds, and its leaf, which was not on the stack, is put at its end. The level of the leaf is
    `MAX_LEVEL`, so the assertion of `add_heavy` holds. -/
theorem Omrd.mark_spec (h : omrd.Ok) (hbase : base ∈ omrd.ds.root.names) :
    ∃ omrd', omrd.mark base = some omrd' ∧ omrd'.Ok ∧ omrd'.ds.root.names = omrd.ds.root.names ∧
      ∃ b ∈ omrd'.ds.root.lists, base ∈ b.names ∧ b.heavy = true := by
  obtain ⟨b, hb, hmem⟩ := mem_names.mp hbase
  obtain ⟨a, node, hlocate, ha, rfl⟩ := locate_list h.wellFormed hb hmem
  cases hheavy : a.list.heavy with
  | true =>
      refine ⟨omrd, ?_, h, rfl, a.list, hb, hmem, hheavy⟩
      simp [Omrd.mark, hlocate, hheavy]
  | false =>
      have hlevel := (h.wellFormed.shaped.unsplit h.wellFormed.unmarked).2 a ha
      obtain ⟨hsame, hlists⟩ := setHeavy_spec a.list.above h.wellFormed.shaped h.wellFormed.unmarked
      have hnames : (omrd.ds.root.setHeavy a.list.above).names = omrd.ds.root.names := by
        show List.flatMap _ _ = List.flatMap _ _
        rw [hlists, List.flatMap_map]
        rfl
      have hnot : a.list.above ∉ omrd.heavyNodes := by
        intro hmem
        obtain ⟨c, hc, habove, hc'⟩ := (h.mem_heavy _).mp hmem
        rw [list_above_unique h.wellFormed hc hb habove] at hc'
        cases hheavy.symm.trans hc'
      refine ⟨⟨{ omrd.ds with root := omrd.ds.root.setHeavy a.list.above }, omrd.heavyNodes ++ [a.list.above]⟩, ?_,
        .of_lists ?_ ?_ ?_ ?_, hnames, a.list.setHeavy a.list.above, ?_, hmem, ?_⟩
      · simp [Omrd.mark, hlocate, hheavy, hlevel]
      · apply h.wellFormed.same hsame
        · intro c hc
          obtain ⟨d, hd, rfl⟩ := List.mem_map.mp (hlists ▸ hc)
          exact h.wellFormed.labelled d hd
        · rw [hnames]
          exact h.wellFormed.distinct
      · intro c hc
        obtain ⟨d, hd, rfl⟩ := List.mem_map.mp (hlists ▸ (show c ∈ (omrd.ds.root.setHeavy _).lists from hc))
        exact h.nonempty d hd
      · exact List.nodup_append.mpr ⟨h.nodup, List.nodup_singleton _, by
          rintro x hx y hy rfl
          exact hnot (List.mem_singleton.mp hy ▸ hx)⟩
      · intro t
        show t ∈ omrd.heavyNodes ++ [a.list.above] ↔ ∃ c ∈ (omrd.ds.root.setHeavy a.list.above).lists, _
        rw [List.mem_append, List.mem_singleton, h.mem_heavy, hlists]
        constructor
        · rintro (⟨c, hc, rfl, hc'⟩ | rfl)
          · exact ⟨_, List.mem_map_of_mem hc, rfl, by simp [Blist.setHeavy, hc']⟩
          · exact ⟨_, List.mem_map_of_mem hb, rfl, by simp [Blist.setHeavy]⟩
        · rintro ⟨c, hc, rfl, hc'⟩
          obtain ⟨d, hd, rfl⟩ := List.mem_map.mp hc
          rcases Bool.or_eq_true_iff.mp hc' with hd' | hd'
          · exact Or.inl ⟨d, hd, rfl, hd'⟩
          · exact Or.inr (of_decide_eq_true hd')
      · exact hlists ▸ List.mem_map_of_mem hb
      · simp [Blist.setHeavy]

/-! ## Trying

The first half of `insert` and each turn of the slow path. It never touches the stack. -/

/-- **A try** is refused, or adds the node to the list of its base; the marks stay. Which of the two happens depends
    on the list alone, by `insert_lists`. -/
theorem Omrd.tryInsert_spec (h : omrd.Ok) {b : Blist} (hb : b ∈ omrd.ds.root.lists) (hmem : base ∈ b.names)
    (hnew : n ∉ omrd.ds.root.names) :
    (insertAt base n b.nodes = some none ∧ omrd.tryInsert base n = some none) ∨
      ∃ nodes omrd', insertAt base n b.nodes = some (some nodes) ∧ omrd.tryInsert base n = some (some omrd') ∧
        omrd'.Ok ∧ omrd'.ds.root.names = insertAfter base n omrd.ds.root.names ∧
        { b with nodes := nodes } ∈ omrd'.ds.root.lists ∧
        nodes.map BlNode.name = insertAfter base n (b.nodes.map BlNode.name) := by
  obtain ⟨pre, c, post, hlists, hmemc, hcase⟩ :=
    insert_lists h.wellFormed (mem_names.mpr ⟨b, hb, hmem⟩) hnew
  have hc : c ∈ omrd.ds.root.lists := hlists ▸ List.mem_append_right _ List.mem_cons_self
  obtain rfl : b = c := list_unique h.wellFormed hb hc hmem hmemc
  rcases hcase with ⟨hat, hinsert⟩ | ⟨nodes, ds, hat, hinsert, hlists', hwf, hnames⟩
  · refine Or.inl ⟨hat, ?_⟩
    simp [Omrd.tryInsert, hinsert]
  · have hnodes : nodes.map BlNode.name = insertAfter base n (b.nodes.map BlNode.name) := by
      rcases insertAt_spec n (h.wellFormed.labelled b hb) hmem with hrefused | ⟨nodes', hat', hnodes, -⟩
      · rw [hrefused] at hat
        cases hat
      · rw [hat'] at hat
        cases hat
        exact hnodes
    have hcons : nodes ≠ [] := by
      rintro rfl
      have hin : n ∈ insertAfter base n (b.nodes.map BlNode.name) := (mem_insertAfter hmem).mpr (Or.inl rfl)
      rw [← hnodes] at hin
      cases hin
    refine Or.inr ⟨nodes, { omrd with ds := ds }, hat, ?_, .of_lists hwf ?_ h.nodup ?_, hnames, ?_, hnodes⟩
    · simp [Omrd.tryInsert, hinsert]
    · intro c hc
      have hc : c ∈ ds.root.lists := hc
      rw [hlists'] at hc
      rcases List.mem_append.mp hc with hc | hc
      · exact h.nonempty c (hlists ▸ List.mem_append_left _ hc)
      · rcases List.mem_cons.mp hc with rfl | hc
        · exact hcons
        · exact h.nonempty c (hlists ▸ List.mem_append_right _ (List.mem_cons_of_mem _ hc))
    · intro t
      show t ∈ omrd.heavyNodes ↔ ∃ c ∈ ds.root.lists, _
      rw [h.mem_heavy, hlists, hlists']
      simp only [List.mem_append, List.mem_cons, or_and_right, exists_or, exists_eq_left]
    · show _ ∈ ds.root.lists
      rw [hlists']
      exact List.mem_append_right _ List.mem_cons_self

/-! ## Relabelling

The stack is handed to `om_relabel` as an array of leaves, and is empty afterwards. What `om_relabel` asks of the
array is what `Omrd.InStep` says of the stack. -/

/-- There are not more leaves than nodes. -/
theorem leavesAfter_le (heavy : List TlName) (hnonempty : ∀ b ∈ om.root.lists, b.nodes ≠ []) :
    leavesAfter om heavy ≤ om.root.names.length := by
  have hlists : ∀ bs : List Blist, (∀ b ∈ bs, b.nodes ≠ []) →
      (bs.flatMap (splitContent heavy)).length ≤ (bs.flatMap Blist.names).length := by
    intro bs hbs
    induction bs with
    | nil => exact Nat.le_refl 0
    | cons b bs ih =>
        have hpos := List.length_pos_iff.mpr (hbs b List.mem_cons_self)
        have hhead : (splitContent heavy b).length ≤ b.names.length := by
          have hlen : b.names.length = b.nodes.length := List.length_map _
          unfold splitContent
          split
          · rw [List.length_map, (parts_spec b.nodes).2.2]
            omega
          · rw [List.length_singleton]
            omega
        rw [List.flatMap_cons, List.flatMap_cons, List.length_append, List.length_append]
        exact Nat.add_le_add hhead (ih fun c hc => hbs c (List.mem_cons_of_mem b hc))
  exact hlists om.root.lists hnonempty

/-- **`relabel`** empties the stack, and the lists that were marked have been spaced anew. The leaves on the stack
    are what `om_relabel` wants: different, unsplit, with lists that are not empty; the new lists have no mark, and
    the others had none. -/
theorem Omrd.relabel_spec (shl : Nat → Nat) (h : omrd.Ok) (htotal : leavesAfter omrd.ds omrd.heavyNodes < 2 ^ 31) :
    ∃ omrd', omrd.relabel shl = some omrd' ∧ omrd'.Ok ∧ omrd'.ds.root.names = omrd.ds.root.names ∧
      omrd'.heavyNodes = [] ∧ ∀ b ∈ omrd.ds.root.lists, b.heavy = true → ∀ base ∈ b.names,
        ∃ c ∈ omrd'.ds.root.lists, base ∈ c.names ∧ ∃ part : List BlNode, c.nodes = spaced 0 part ∧
          part.length ≤ sublistSize := by
  by_cases hempty : omrd.heavyNodes = []
  · refine ⟨omrd, if_pos hempty, h, rfl, hempty, ?_⟩
    intro b hb hheavy
    have hmem := (h.mem_heavy b.above).mpr ⟨b, hb, rfl, hheavy⟩
    rw [hempty] at hmem
    cases hmem
  · have hcan : CanSplit omrd.ds omrd.heavyNodes := by
      refine ⟨h.nodup, ?_, fun b hb _ => h.nonempty b hb⟩
      intro x hx
      obtain ⟨a, ha, rfl, -⟩ := (h.heavy x).mp hx
      rw [(h.wellFormed.shaped.unsplit h.wellFormed.unmarked).1]
      exact List.mem_map_of_mem ha
    obtain ⟨ds, hrelabel, hwf, hinto⟩ := OrderMaint.relabel_spec shl h.wellFormed hcan htotal
    have hclear : ∀ c ∈ ds.root.lists, c.heavy = false := by
      intro c hc
      obtain ⟨b, hb, ⟨-, hfalse, -⟩ | ⟨hnot, hsame, -⟩⟩ := hinto.origin hc
      · exact hfalse
      · rw [hsame]
        by_contra hheavy
        exact hnot ((h.mem_heavy _).mpr ⟨b, hb, rfl, by simpa using hheavy⟩)
    refine ⟨⟨ds, []⟩, ?_, .of_lists hwf ?_ List.nodup_nil ?_, hinto.names, rfl, ?_⟩
    · unfold Omrd.relabel
      rw [if_neg hempty, hrelabel]
      rfl
    · intro c hc
      obtain ⟨b, hb, ⟨-, -, part, hnodes, hne, -⟩ | ⟨-, -, hnodes⟩⟩ := hinto.origin hc
      · rw [hnodes]
        intro hnil
        have hlen := congrArg List.length hnil
        rw [length_spaced] at hlen
        exact hne (List.length_eq_zero_iff.mp hlen)
      · rw [hnodes]
        exact h.nonempty b hb
    · intro t
      constructor
      · intro hcontra
        cases hcontra
      · rintro ⟨c, hc, -, hheavy⟩
        cases (hclear c hc).symm.trans hheavy
    · intro b hb hheavy base hbase
      have hin : base ∈ ds.root.names := hinto.names ▸ mem_names.mpr ⟨b, hb, hbase⟩
      obtain ⟨c, hc, hbc⟩ := mem_names.mp hin
      refine ⟨c, hc, hbc, ?_⟩
      obtain ⟨d, hd, ⟨-, -, part, hnodes, -, hlen⟩ | ⟨hnot, -, hnodes⟩⟩ := hinto.origin hc
      · exact ⟨part, hnodes, hlen⟩
      · -- the list of the base was marked, and cannot have been left as it was
        have hbd : base ∈ d.names := by
          show base ∈ d.nodes.map BlNode.name
          rw [← hnodes]
          exact hbc
        obtain rfl := list_unique h.wellFormed hb hd hbase hbd
        exact absurd ((h.mem_heavy _).mpr ⟨b, hb, rfl, hheavy⟩) hnot

/-! ## The second try

After the relabel the base is in a list with the distance `nodeInterval` between its labels. One insert behind the
base halves one gap, so it is accepted, and what is left behind the new node is far above the threshold of `is_heavy`.
-/

/-- A node of the list has a label. -/
theorem follow_mem {nodes : List BlNode} (h : n ∈ nodes.map BlNode.name) :
    ∃ label next, follow n nodes = some (label, next) := by
  induction nodes with
  | nil => cases h
  | cons b rest ih =>
      by_cases hb : b.name = n
      · exact ⟨_, _, if_pos hb⟩
      · obtain ⟨label, next, hfollow⟩ := ih ((List.mem_cons.mp h).resolve_left fun heq => hb heq.symm)
        exact ⟨label, next, (if_neg hb).trans hfollow⟩

/-- `is_heavy` computes with the list that the node is in. -/
theorem isHeavy_eq (h : WellFormed om) {b : Blist} (hb : b ∈ om.root.lists) (hn : n ∈ b.names) {label : Nat}
    {next : Option Nat} (hfollow : follow n b.nodes = some (label, next)) :
    isHeavy om n = some (decide ((next.getD maxLabel + 2 ^ 64 - label) % 2 ^ 64 < 2 ^ (64 - heavyThreshold))) := by
  obtain ⟨a, node, hlocate, -, rfl⟩ := locate_list h hb hn
  unfold isHeavy
  rw [hlocate]
  simp only [Option.bind_eq_bind, Option.bind_some, hfollow]

/-- A label that is followed is below the next one, and that has 64 bits. -/
theorem follow_lt {nodes : List BlNode} (h : Labelled nodes) {label next : Nat}
    (hfollow : follow n nodes = some (label, some next)) : label < next ∧ next < 2 ^ 64 := by
  induction nodes with
  | nil => cases hfollow
  | cons b rest ih =>
      unfold follow at hfollow
      split at hfollow
      · cases rest with
        | nil => cases hfollow
        | cons c cs =>
            cases hfollow
            exact ⟨(List.pairwise_cons.mp h.increasing).1 c List.mem_cons_self,
              h.bounded c (List.mem_cons_of_mem b List.mem_cons_self)⟩
      · exact ih h.tail hfollow

/-- A node with room behind it is not heavy. The code subtracts modulo `2 ^ 64`; as the next label is behind this
    one, nothing wraps around. -/
theorem not_isHeavy (h : WellFormed om) {b : Blist} (hb : b ∈ om.root.lists) (hn : n ∈ b.names) {label : Nat}
    {next : Option Nat} (hfollow : follow n b.nodes = some (label, next)) (hroom : label + 2 ^ 56 ≤ bound next) :
    isHeavy om n = some false := by
  rw [isHeavy_eq h hb hn hfollow, Option.some.injEq, decide_eq_false_iff_not]
  unfold heavyThreshold
  cases next with
  | none =>
      have hroom : label + 2 ^ 56 ≤ 2 ^ 64 := hroom
      rw [Option.getD_none]
      unfold maxLabel
      omega
  | some next =>
      have hroom : label + 2 ^ 56 ≤ next := hroom
      obtain ⟨-, hlt⟩ := follow_lt (h.labelled b hb) hfollow
      rw [Option.getD_some]
      omega

/-- The next label of an evenly spaced list is one interval away, as is the end of the last one. -/
theorem spaced_wide {i : Nat} {rest : List BlNode} (hlen : i + 1 + rest.length ≤ sublistSize) :
    i * nodeInterval + nodeInterval ≤ bound ((spaced (i + 1) rest).head?.map BlNode.label) := by
  cases rest with
  | nil =>
      have hnone : (spaced (i + 1) []).head?.map BlNode.label = none := rfl
      unfold sublistSize at hlen
      rw [hnone, show bound none = 2 ^ 64 from rfl]
      unfold nodeInterval
      omega
  | cons c cs =>
      have hsome : bound ((spaced (i + 1) (c :: cs)).head?.map BlNode.label) = (i + 1) * nodeInterval := rfl
      rw [hsome]
      exact Nat.le_of_eq (Nat.add_one_mul i nodeInterval).symm

/-- **In a list spaced anew there is room**, and room is left after the new node. By induction on the list: the base
    is its first node, which has the whole interval behind it, or it is further on. -/
theorem insertAt_spaced {part : List BlNode} {i : Nat} (hlen : i + part.length ≤ sublistSize)
    (hbase : base ∈ part.map BlNode.name) (hnew : n ∉ part.map BlNode.name) :
    ∃ nodes label next, insertAt base n (spaced i part) = some (some nodes) ∧
      follow n nodes = some (label, next) ∧ label + 2 ^ 56 ≤ bound next := by
  induction part generalizing i with
  | nil => cases hbase
  | cons b rest ih =>
      have hlabelled : Labelled (spaced i (b :: rest)) := labelled_spaced hlen
      have hbn : b.name ≠ n := fun heq => hnew (heq ▸ List.mem_cons_self)
      have hlen' : i + 1 + rest.length ≤ sublistSize := by
        rw [List.length_cons] at hlen
        omega
      by_cases hb : b.name = base
      · have hwide := spaced_wide hlen'
        have hroom : i * nodeInterval + 2 ≤ bound ((spaced (i + 1) rest).head?.map BlNode.label) :=
          Nat.le_trans (Nat.add_le_add_left (by decide) _) hwide
        obtain ⟨hlt, hbound⟩ := hlabelled.bound_head
        obtain ⟨-, hmid, -, hafter⟩ := (middle_spec hlt hbound).2 hroom
        refine ⟨_, middle (i * nodeInterval) ((spaced (i + 1) rest).head?.map BlNode.label),
          (spaced (i + 1) rest).head?.map BlNode.label, insertAt_here hlabelled hb hroom, ?_, ?_⟩
        · unfold follow
          rw [if_neg hbn]
          exact if_pos rfl
        · have hwide : i * nodeInterval + 2 ^ 58 ≤ bound ((spaced (i + 1) rest).head?.map BlNode.label) := hwide
          have hafter : bound ((spaced (i + 1) rest).head?.map BlNode.label) - i * nodeInterval ≤
              2 * (bound ((spaced (i + 1) rest).head?.map BlNode.label) -
                middle (i * nodeInterval) ((spaced (i + 1) rest).head?.map BlNode.label)) + 1 := hafter
          have hmid : middle (i * nodeInterval) ((spaced (i + 1) rest).head?.map BlNode.label) <
              bound ((spaced (i + 1) rest).head?.map BlNode.label) := hmid
          omega
      · have hbase' : base ∈ rest.map BlNode.name := (List.mem_cons.mp hbase).resolve_left fun heq => hb heq.symm
        obtain ⟨nodes, label, next, hinsert, hfollow, hroom⟩ :=
          ih hlen' hbase' fun hmem => hnew (List.mem_cons_of_mem _ hmem)
        refine ⟨⟨b.name, i * nodeInterval⟩ :: nodes, label, next, ?_, ?_, hroom⟩
        · show insertAt base n (⟨b.name, i * nodeInterval⟩ :: spaced (i + 1) rest) = _
          rw [insertAt_there (b := ⟨b.name, i * nodeInterval⟩) hb, hinsert]
          rfl
        · exact (if_neg hbn).trans hfollow

/-! ## `omrd_t::insert`

The parts put together. The other structure is relabelled on the way, too; its stack may hold lists that were put
there in advance. -/

variable {shl : Nat → Nat} {s s' : Orders} {L : Order → List Name} {o : Order}

/-- The end of an insert marks the list when it has become heavy. Base and new node are in one list, so both find
    the same leaf; the new node may be on the list of another leaf only after a relabel, and none has come since. -/
theorem Omrd.finish_spec (h : omrd.Ok) {b : Blist} (hb : b ∈ omrd.ds.root.lists) (hbase : base ∈ b.names)
    (hn : n ∈ b.names) :
    ∃ omrd', omrd.finish base n = some omrd' ∧ omrd'.Ok ∧ omrd'.ds.root.names = omrd.ds.root.names := by
  obtain ⟨ln, node, hlocaten, -, hln⟩ := locate_list h.wellFormed hb hn
  obtain ⟨lb, node', hlocateb, -, hlb⟩ := locate_list h.wellFormed hb hbase
  obtain ⟨label, next, hfollow⟩ := follow_mem hn
  have hheavy := isHeavy_eq h.wellFormed hb hn hfollow
  unfold Omrd.finish
  rw [hlocaten, hlocateb, hheavy]
  simp only [Option.bind_eq_bind, Option.bind_some, hln, hlb, if_true]
  split
  · obtain ⟨omrd', hmark, hok, hnames, -⟩ := mark_spec h (mem_names.mpr ⟨b, hb, hbase⟩)
    exact ⟨omrd', hmark, hok, hnames⟩
  · exact ⟨omrd, rfl, h, rfl⟩

/-- Both structures are relabelled, each by itself. -/
theorem batchRelabel_spec (shl : Nat → Nat) (h : ∀ o, (s o).Ok)
    (htotal : ∀ o, leavesAfter (s o).ds (s o).heavyNodes < 2 ^ 31) :
    ∃ s', batchRelabel shl s = some s' ∧ ∀ o, (s o).relabel shl = some (s' o) := by
  obtain ⟨english, henglish, -⟩ := Omrd.relabel_spec shl (h .english) (htotal .english)
  obtain ⟨hebrew, hhebrew, -⟩ := Omrd.relabel_spec shl (h .hebrew) (htotal .hebrew)
  refine ⟨fun | .english => english | .hebrew => hebrew, ?_, ?_⟩
  · unfold batchRelabel
    rw [henglish, hhebrew]
    rfl
  · intro o
    cases o with
    | english => exact henglish
    | hebrew => exact hhebrew

/-- One turn of the slow path: the list of the base is put on the stack, the batch empties both stacks, and the
second try adds a node that is not heavy. -/
structure OneTurn (shl : Nat → Nat) (s : Orders) (o : Order) (base n : Name) (marked : Omrd) (s₁ : Orders)
    (omrd : Omrd) : Prop where
  mark : (s o).mark base = some marked
  inStep : marked.InStep
  stacked : ∃ a ∈ marked.ds.root.leaves, base ∈ a.list.names ∧ a.node.name ∈ marked.heavyNodes
  batch : batchRelabel shl (Function.update s o marked) = some s₁
  relabelled : ∀ o', (s₁ o').InStep ∧ (s₁ o').heavyNodes = []
  retry : (s₁ o).tryInsert base n = some (some omrd)
  retried : omrd.InStep
  light : isHeavy omrd.ds n = some false

/-- What the structures are after a try that has been accepted. -/
structure Added (base n : Name) (names : List Name) (omrd : Omrd) : Prop where
  ok : omrd.Ok
  names : omrd.ds.root.names = insertAfter base n names
  together : ∃ b ∈ omrd.ds.root.lists, base ∈ b.names ∧ n ∈ b.names

/-- What `Omrd.tryInsert_spec` gives for an accepted try. -/
theorem Added.of_tryInsert {b : Blist} {nodes : List BlNode} {names : List Name} (hok : omrd.Ok)
    (hnames : omrd.ds.root.names = insertAfter base n names) (hmem : base ∈ b.names)
    (hin : { b with nodes := nodes } ∈ omrd.ds.root.lists)
    (hnodes : nodes.map BlNode.name = insertAfter base n (b.nodes.map BlNode.name)) : Added base n names omrd := by
  refine ⟨hok, hnames, _, hin, ?_, ?_⟩
  · show base ∈ nodes.map BlNode.name
    rw [hnodes]
    exact (mem_insertAfter hmem).mpr (Or.inr hmem)
  · show n ∈ nodes.map BlNode.name
    rw [hnodes]
    exact (mem_insertAfter hmem).mpr (Or.inl rfl)

/-- When the insert is refused, a relabel would leave fewer than 2^31 leaves in each structure: beyond that the `int`s
and the shifts of `om_relabel` are not defined. -/
def LeavesFit (s : Orders) (o : Order) (base n : Name) : Prop :=
  (s o).tryInsert base n = some none → ∀ marked, (s o).mark base = some marked →
    ∀ o', leavesAfter (Function.update s o marked o').ds (Function.update s o marked o').heavyNodes < 2 ^ 31

/-- The mark changes one structure, and none of the orders. -/
theorem marked_ok (h : ∀ o, (s o).Ok) {marked : Omrd} (hmarked : marked.Ok)
    (hnames : marked.ds.root.names = (s o).ds.root.names) (o' : Order) :
    (Function.update s o marked o').Ok ∧ (Function.update s o marked o').ds.root.names = (s o').ds.root.names := by
  by_cases ho : o' = o
  · subst ho
    rw [Function.update_self]
    exact ⟨hmarked, hnames⟩
  · rw [Function.update_of_ne ho]
    exact ⟨h o', rfl⟩

/-- Structures of fewer than 2^31 nodes never have too many leaves. -/
theorem LeavesFit.of_length (h : ∀ o, (s o).Ok) (hlen : ∀ o, (s o).ds.root.names.length < 2 ^ 31)
    (hbase : base ∈ (s o).ds.root.names) : LeavesFit s o base n := by
  intro _ marked hmark o'
  obtain ⟨marked', hmark', hmarked, hnames, -⟩ := Omrd.mark_spec (h o) hbase
  obtain rfl : marked' = marked := Option.some.inj (hmark'.symm.trans hmark)
  obtain ⟨hok, hsame⟩ := marked_ok h hmarked hnames o'
  refine Nat.lt_of_le_of_lt (leavesAfter_le _ hok.nonempty) ?_
  rw [hsame]
  exact hlen o'

/-- **One turn is enough.** Mark, relabel and try again, as explained at the top; the second try cannot be refused.
    -/
theorem oneTurn_spec (shl : Nat → Nat) (h : ∀ o, (s o).Ok) (hfit : LeavesFit s o base n)
    (hrefused : (s o).tryInsert base n = some none) (hbase : base ∈ (s o).ds.root.names)
    (hnew : n ∉ (s o).ds.root.names) :
    ∃ marked s₁ omrd, OneTurn shl s o base n marked s₁ omrd ∧
      (∀ o', (s₁ o').Ok ∧ (s₁ o').ds.root.names = (s o').ds.root.names) ∧
      Added base n (s o).ds.root.names omrd := by
  obtain ⟨marked, hmark, hmarked, hnamesm, b, hb, hmem, hheavy⟩ := Omrd.mark_spec (h o) hbase
  -- the structures between the mark and the batch
  have hok := marked_ok h hmarked hnamesm
  have htotal := hfit hrefused marked hmark
  obtain ⟨s₁, hbatch, heach⟩ := batchRelabel_spec shl (fun o' => (hok o').1) htotal
  have hafter : ∀ o', (s₁ o').Ok ∧ (s₁ o').ds.root.names = (s o').ds.root.names ∧ (s₁ o').heavyNodes = [] := by
    intro o'
    obtain ⟨omrd', hrelabel, hok', hnames', hempty, -⟩ := Omrd.relabel_spec shl (hok o').1 (htotal o')
    obtain rfl := Option.some.inj ((heach o').symm.trans hrelabel)
    exact ⟨hok', hnames'.trans (hok o').2, hempty⟩
  -- the list of the base has been spaced anew
  have hspaced : ∃ c ∈ (s₁ o).ds.root.lists, base ∈ c.names ∧ ∃ part : List BlNode, c.nodes = spaced 0 part ∧
      part.length ≤ sublistSize := by
    have hself : Function.update s o marked o = marked := Function.update_self o marked s
    obtain ⟨omrd', hrelabel, -, -, -, hlists⟩ := Omrd.relabel_spec shl (hok o).1 (htotal o)
    obtain rfl := Option.some.inj ((heach o).symm.trans hrelabel)
    rw [hself] at hlists
    exact hlists b hb hheavy base hmem
  obtain ⟨c, hc, hbc, part, hpart, hlen⟩ := hspaced
  have hnew₁ : n ∉ (s₁ o).ds.root.names := (hafter o).2.1 ▸ hnew
  have hnewpart : n ∉ part.map BlNode.name := by
    intro hcontra
    apply hnew₁
    refine mem_names.mpr ⟨c, hc, ?_⟩
    show n ∈ c.nodes.map BlNode.name
    rw [hpart, spaced_names]
    exact hcontra
  have hbasepart : base ∈ part.map BlNode.name := by
    rw [← spaced_names 0, ← hpart]
    exact hbc
  obtain ⟨nodes, label, next, hat, hfollow, hwide⟩ :=
    insertAt_spaced (i := 0) (by rwa [Nat.zero_add]) hbasepart hnewpart
  rw [← hpart] at hat
  rcases Omrd.tryInsert_spec (hafter o).1 hc hbc hnew₁ with ⟨hrefused, -⟩ | ⟨nodes', omrd, hat', htry, hok', hnames, hin, hnodes⟩
  · rw [hat] at hrefused
    cases hrefused
  · obtain rfl : nodes = nodes' := by
      rw [hat] at hat'
      cases hat'
      rfl
    have hadded := Added.of_tryInsert hok' hnames hbc hin hnodes
    rw [(hafter o).2.1] at hadded
    obtain ⟨a, ha, rfl⟩ := List.mem_map.mp hb
    refine ⟨marked, s₁, omrd, ⟨hmark, hmarked.toInStep, ⟨a, ha, hmem, ?_⟩, hbatch, ?_, htry, hok'.toInStep, ?_⟩, ?_, hadded⟩
    · exact (hmarked.heavy _).mpr ⟨a, ha, rfl, hheavy⟩
    · intro o'
      exact ⟨(hafter o').1.toInStep, (hafter o').2.2⟩
    · have hn : n ∈ nodes.map BlNode.name := hnodes ▸ (mem_insertAfter hbc).mpr (Or.inl rfl)
      exact not_isHeavy hok'.wellFormed hin hn hfollow hwide
    · intro o'
      exact ⟨(hafter o').1, (hafter o').2.1⟩

/-- The other structure has nothing to do with an insert. -/
theorem update_ok (h : ∀ o, (s o).Ok) (hok : omrd.Ok) (o' : Order) : (Function.update s o omrd o').Ok := by
  by_cases ho : o' = o
  · subst ho
    rw [Function.update_self]
    exact hok
  · rw [Function.update_of_ne ho]
    exact h o'

/-- The first try is accepted, or one turn of the slow path follows. -/
theorem insert_step (shl : Nat → Nat) (h : ∀ o, (s o).Ok) (hfit : LeavesFit s o base n) (hbase : base ∈ (s o).ds.root.names) (hnew : n ∉ (s o).ds.root.names) (fuel : Nat) :
    ∃ s', s.insert shl (fuel + 1) o base n = some s' ∧ (∀ o', (s' o').Ok) ∧
      (s' o).ds.root.names = insertAfter base n (s o).ds.root.names ∧
      (∀ o', o' ≠ o → (s' o').ds.root.names = (s o').ds.root.names) ∧
      ((s o).tryInsert base n = some none → ∃ marked s₁ omrd, OneTurn shl s o base n marked s₁ omrd) := by
  obtain ⟨b, hb, hmem⟩ := mem_names.mp hbase
  rcases Omrd.tryInsert_spec (h o) hb hmem hnew with ⟨-, htry⟩ | ⟨nodes, omrd, -, htry, hok, hnames, hin, hnodes⟩
  · obtain ⟨marked, s₁, omrd, hturn, hafter, hadded⟩ := oneTurn_spec shl h hfit htry hbase hnew
    obtain ⟨c, hc, hbc, hnc⟩ := hadded.together
    obtain ⟨omrd', hfinish, hok', hnames'⟩ := Omrd.finish_spec hadded.ok hc hbc hnc
    have hslow : slowPath shl o base n (fuel + 1) s = some (Function.update s₁ o omrd) := by
      unfold slowPath
      rw [hturn.mark]
      simp only [Option.bind_eq_bind, Option.bind_some, hturn.batch, hturn.retry]
    refine ⟨Function.update s₁ o omrd', ?_, update_ok (fun o' => (hafter o').1) hok', ?_, ?_,
      fun _ => ⟨marked, s₁, omrd, hturn⟩⟩
    · unfold Orders.insert
      rw [htry]
      simp only [Option.bind_eq_bind, Option.bind_some, hslow, Function.update_self, hturn.light, hfinish,
        Bool.false_eq_true, if_false, Function.update_idem]
    · rw [Function.update_self, hnames', hadded.names]
    · intro o' ho
      rw [Function.update_of_ne ho]
      exact (hafter o').2
  · have hadded := Added.of_tryInsert hok hnames hmem hin hnodes
    obtain ⟨c, hc, hbc, hnc⟩ := hadded.together
    obtain ⟨omrd', hfinish, hok', hnames'⟩ := Omrd.finish_spec hadded.ok hc hbc hnc
    refine ⟨Function.update s o omrd', ?_, update_ok h hok', ?_, ?_, ?_⟩
    · unfold Orders.insert
      rw [htry]
      simp only [Option.bind_eq_bind, Option.bind_some, hfinish]
    · rw [Function.update_self, hnames', hadded.names]
    · intro o' ho
      rw [Function.update_of_ne ho]
    · intro hrefused
      rw [htry] at hrefused
      cases hrefused

/-! ## Runs

By induction over the inserts, each after a node that is there. Fuel is for the loop of the slow path, which takes one
turn, so any fuel but none gives the result. -/

/-- The two structures after any inserts on existing nodes, and their abstract lists; every relabel on the way has left
fewer than 2^31 leaves. -/
inductive OmrdRun (shl : Nat → Nat) : Orders → (Order → List Name) → Prop where
  | new {bases : Order → Name} {s : Orders} : (∀ o, Omrd.new (bases o) = some (s o)) →
      OmrdRun shl s fun o => [bases o]
  | insert {s s' : Orders} {L : Order → List Name} {fuel : Nat} {o : Order} {base n : Name} : OmrdRun shl s L →
      base ∈ L o → n ∉ L o → LeavesFit s o base n → s.insert shl fuel o base n = some s' →
      OmrdRun shl s' (Function.update L o (insertAfter base n (L o)))

/-- More turns change nothing, as the loop ends with the first accepted try. -/
theorem slowPath_mono {fuel : Nat} (hslow : slowPath shl o base n fuel s = some s') :
    slowPath shl o base n (fuel + 1) s = some s' := by
  induction fuel generalizing s with
  | zero => cases hslow
  | succ fuel ih =>
      unfold slowPath at hslow
      obtain ⟨marked, hmark, hslow⟩ := Option.bind_eq_some_iff.mp hslow
      obtain ⟨s₁, hbatch, hslow⟩ := Option.bind_eq_some_iff.mp hslow
      obtain ⟨tried, htry, hslow⟩ := Option.bind_eq_some_iff.mp hslow
      unfold slowPath
      simp only [Option.bind_eq_bind, hmark, Option.bind_some, hbatch, htry]
      cases tried with
      | some omrd => exact hslow
      | none => exact ih hslow

/-- Nor does more fuel change a whole insert. -/
theorem insert_mono {fuel : Nat} (hinsert : s.insert shl fuel o base n = some s') :
    s.insert shl (fuel + 1) o base n = some s' := by
  unfold Orders.insert at hinsert
  obtain ⟨tried, htry, hinsert⟩ := Option.bind_eq_some_iff.mp hinsert
  unfold Orders.insert
  simp only [Option.bind_eq_bind, htry, Option.bind_some]
  cases tried with
  | some omrd => exact hinsert
  | none =>
      obtain ⟨s₁, hslow, hinsert⟩ := Option.bind_eq_some_iff.mp hinsert
      rw [slowPath_mono hslow]
      exact hinsert

/-- A new structure has one node and an empty stack. -/
theorem new_ok {b : Name} (h : Omrd.new b = some omrd) : omrd.Ok ∧ omrd.ds.root.names = [b] := by
  obtain ⟨ds, hinsert, rfl⟩ := Option.map_eq_some_iff.mp h
  obtain ⟨hwf, hnames⟩ := insertInitial_spec wellFormed_create hinsert
  obtain rfl : oneLeaf 0 1 [⟨b, 0⟩] = ds := Option.some.inj hinsert
  refine ⟨.of_lists hwf ?_ List.nodup_nil ?_, hnames⟩
  · intro c hc
    rw [List.mem_singleton.mp hc]
    exact List.cons_ne_nil _ _
  · intro t
    constructor
    · intro hcontra
      cases hcontra
    · rintro ⟨c, hc, -, hheavy⟩
      rw [List.mem_singleton.mp hc] at hheavy
      cases hheavy

/-- **Runs keep the stacks in step.** By induction on the run, with `insert_step` for every insert; the fuel that a
    run happens to have is enough, since one turn is. -/
theorem OmrdRun.ok (h : OmrdRun shl s L) : ∀ o, (s o).Ok ∧ (s o).ds.root.names = L o := by
  induction h with
  | new hnew => exact fun o => new_ok (hnew o)
  | @insert s s' L fuel o base n _ hbase hnew hfit hinsert ih =>
      obtain ⟨s₁, hinsert₁, hok, hself, hother, -⟩ := insert_step shl (fun o' => (ih o').1) hfit ((ih o).2 ▸ hbase)
        ((ih o).2 ▸ hnew) fuel
      obtain rfl := Option.some.inj ((insert_mono hinsert).symm.trans hinsert₁)
      intro o'
      refine ⟨hok o', ?_⟩
      by_cases ho : o' = o
      · subst ho
        rw [Function.update_self, hself, (ih o').2]
      · rw [Function.update_of_ne ho, hother o' ho, (ih o').2]

/-- **`insert` succeeds after at most one relabel**, right after the base, and the stacks are in step before, in
    between and after. `OneTurn` lists what happens in between when the first try is refused. -/
theorem insert_once (h : OmrdRun shl s L) (hbase : base ∈ L o) (hnew : n ∉ L o) (hfit : LeavesFit s o base n)
    (fuel : Nat) :
    (∀ o', (s o').InStep) ∧ ∃ s', s.insert shl (fuel + 1) o base n = some s' ∧ (∀ o', (s' o').InStep) ∧
      (∀ o', (s' o').ds.root.names = Function.update L o (insertAfter base n (L o)) o') ∧
      ((s o).tryInsert base n = some none → ∃ marked s₁ omrd, OneTurn shl s o base n marked s₁ omrd) := by
  have hold := h.ok
  obtain ⟨s', hinsert, hok, hself, hother, hslow⟩ := insert_step shl (fun o' => (hold o').1) hfit ((hold o).2 ▸ hbase)
    ((hold o).2 ▸ hnew) fuel
  refine ⟨fun o' => (hold o').1.toInStep, s', hinsert, fun o' => (hok o').toInStep, ?_, hslow⟩
  intro o'
  by_cases ho : o' = o
  · subst ho
    rw [Function.update_self, hself, (hold o').2]
  · rw [Function.update_of_ne ho, hother o' ho, (hold o').2]

/-- The first nodes of the two structures of the examples. -/
def firstNames : Order → Name
  | .english => 7
  | .hebrew => 17

def firstOrders (o : Order) : Omrd := ⟨oneLeaf 0 1 [⟨firstNames o, 0⟩], []⟩

/-- Inserts into the english order, each after `base`. -/
def insertsAfter (base : Name) : List Name → Orders → Option Orders
  | [], s => some s
  | n :: ns, s => (s.insert (fun h => 2 ^ h) 1 .english base n).bind (insertsAfter base ns)

/-- A sequence of inserts after one node is a run, as long as the structures stay small. -/
theorem OmrdRun.insertsAfter {ns : List Name} (h : OmrdRun (fun h => 2 ^ h) s L) (hbase : base ∈ L .english)
    (hdistinct : ns.Nodup) (hnew : ∀ n ∈ ns, n ∉ L .english) (hroom : ∀ o, (L o).length + ns.length < 2 ^ 31)
    (hrun : insertsAfter base ns s = some s') : ∃ L', OmrdRun (fun h => 2 ^ h) s' L' ∧ base ∈ L' .english ∧
      (∀ n, n ∈ L' .english → n ∈ L .english ∨ n ∈ ns) ∧ ∀ o, (L' o).length < 2 ^ 31 := by
  induction ns generalizing s L with
  | nil =>
      cases hrun
      exact ⟨L, h, hbase, fun _ hn => Or.inl hn, hroom⟩
  | cons n ns ih =>
      obtain ⟨s₁, hinsert, hrun⟩ := Option.bind_eq_some_iff.mp hrun
      obtain ⟨hnotin, hdistinct⟩ := List.nodup_cons.mp hdistinct
      have hold := h.ok
      have hlen : ∀ o, (s o).ds.root.names.length < 2 ^ 31 := by
        intro o
        rw [(hold o).2]
        exact Nat.lt_of_le_of_lt (Nat.le_add_right _ _) (hroom o)
      have hfit : LeavesFit s .english base n :=
        .of_length (fun o => (hold o).1) hlen ((hold .english).2 ▸ hbase)
      have hadded : ∀ x, x ∈ Function.update L .english (insertAfter base n (L .english)) .english ↔
          x = n ∨ x ∈ L .english := by
        intro x
        rw [Function.update_self]
        exact mem_insertAfter hbase
      have hnew' : ∀ x ∈ ns, x ∉ Function.update L .english (insertAfter base n (L .english)) .english := by
        intro x hx hcontra
        rcases (hadded x).mp hcontra with rfl | hin
        · exact hnotin hx
        · exact hnew x (List.mem_cons_of_mem n hx) hin
      have hroom' : ∀ o, (Function.update L .english (insertAfter base n (L .english)) o).length + ns.length < 2 ^ 31 := by
        intro o
        have hroom := hroom o
        rw [List.length_cons] at hroom
        by_cases ho : o = .english
        · subst ho
          rw [Function.update_self, length_insertAfter hbase]
          omega
        · rw [Function.update_of_ne ho]
          omega
      obtain ⟨L', hrun', hbase', hnames, hlast⟩ := ih (h.insert hbase (hnew n List.mem_cons_self) hfit hinsert)
        ((hadded base).mpr (Or.inr hbase)) hdistinct hnew' hroom' hrun
      refine ⟨L', hrun', hbase', ?_, hlast⟩
      intro x hx
      rcases hnames x hx with hx | hx
      · rcases (hadded x).mp hx with rfl | hx
        · exact Or.inr List.mem_cons_self
        · exact Or.inl hx
      · exact Or.inr (List.mem_cons_of_mem n hx)

/-- Sixty-four inserts after the first node halve the gap behind it until nothing is left of it. -/
theorem insert_once_refused : ∃ s L s', OmrdRun (fun h => 2 ^ h) s L ∧ (s .english).tryInsert 7 72 = some none ∧
    s.insert (fun h => 2 ^ h) 1 .english 7 72 = some s' ∧
    (∀ o, (s' o).InStep ∧ (s' o).ds.root.names = Function.update L .english (insertAfter 7 72 (L .english)) o) ∧
    ∃ marked s₁ omrd, OneTurn (fun h => 2 ^ h) s .english 7 72 marked s₁ omrd := by
  have htry : (insertsAfter 7 ((List.range 64).map (· + 8)) firstOrders).map
      (fun s => ((s .english).tryInsert 7 72).map Option.isNone) = some (some true) := by
    decide +kernel
  obtain ⟨s, hs, htry⟩ := Option.map_eq_some_iff.mp htry
  obtain ⟨tried, htry, hnone⟩ := Option.map_eq_some_iff.mp htry
  have hrefused : (s .english).tryInsert 7 72 = some none := by
    rw [htry, Option.isNone_iff_eq_none.mp hnone]
  have hfirst : OmrdRun (fun h => 2 ^ h) firstOrders fun o => [firstNames o] := .new fun _ => rfl
  obtain ⟨L, hrun, hbase, hnames, hroom⟩ := hfirst.insertsAfter (by decide) (by decide) (by decide)
    (fun o => Nat.lt_of_lt_of_le (by decide : 1 + 64 < 66) (by decide)) hs
  have hnew : 72 ∉ L .english := by
    intro hmem
    rcases hnames 72 hmem with h | h
    · exact absurd h (by decide)
    · exact absurd h (by decide)
  have hold := hrun.ok
  have hfit : LeavesFit s .english 7 72 :=
    .of_length (fun o => (hold o).1) (fun o => (hold o).2 ▸ hroom o) ((hold .english).2 ▸ hbase)
  obtain ⟨-, s', hinsert, hstep, hlists, hslow⟩ := insert_once hrun hbase hnew hfit 0
  exact ⟨s, L, s', hrun, hrefused, hinsert, fun o => ⟨hstep o, hlists o⟩, hslow hrefused⟩

end FOrder.OrderMaint
