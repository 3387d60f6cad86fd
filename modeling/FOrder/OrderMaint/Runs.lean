import FOrder.Lib.InsertAll
import FOrder.OrderMaint.Insert

/-!
# `OrderMaint.Runs` — any sequence of inserts and relabels

A run of the structure goes along with a run of the abstract list, in which an accepted insert puts the new node
right after its base and nothing else changes anything.

`Run` lists the operations: create, the first insert, an insert that is accepted or refused, and a relabel of any
leaves that can be split. Each of them keeps `WellFormed` and has the abstract list as its list of nodes
(`Run.wellFormed`), and what is claimed of all runs is read off these two: the order (`precedes_iff_before`), and
the tree (`relabel_treeOk`).

The last part compares two runs. The final list depends on the requests that were performed, and for each base on
their order, but not on anything else: not on the order of requests on different bases, and not on refusals or
relabels in between (`precedes_schedule`, with `insertAll` of `Lib.InsertAll`).
-/

namespace FOrder.OrderMaint

variable {shl : Nat → Nat}

/-! ## Runs

The operations in any order and number. The bound on the leaves is asked of each relabel, for beyond it the counts of
the code are not defined. -/

/-- A structure that has been built from nothing, and its abstract list. A relabel stays below `2 ^ 31` leaves. -/
inductive Run (shl : Nat → Nat) : Om → List Name → Prop where
  | create : Run shl create []
  | initial {om om' n} : Run shl om [] → insertInitial om n = some om' → Run shl om' [n]
  | accepted {om om' L base n} : Run shl om L → base ∈ L → n ∉ L → insert om base n = some (some om') →
      Run shl om' (insertAfter base n L)
  | refused {om L base n} : Run shl om L → base ∈ L → n ∉ L → insert om base n = some none → Run shl om L
  | relabelled {om om' L heavy} : Run shl om L → CanSplit om heavy → leavesAfter om heavy < 2 ^ 31 →
      relabel shl om heavy = some om' → Run shl om' L

/-- A structure with one leaf. -/
def oneLeaf (t fresh : TlName) (nodes : List BlNode) : Om :=
  ⟨.leaf ⟨t, none, 0, maxLevel, 1, false⟩ (.list ⟨t, false, nodes⟩), 0, fresh⟩

/-- One leaf, with a list whose labels increase. -/
theorem wellFormed_oneLeaf {t fresh : TlName} {nodes : List BlNode} (ht : t < fresh) (hlabelled : Labelled nodes)
    (hnodup : (nodes.map BlNode.name).Nodup) : WellFormed (oneLeaf t fresh nodes) where
  shaped := ⟨rfl, rfl, rfl, rfl, rfl, rfl⟩
  fits := Nat.le_refl 1
  named := by
    refine ⟨List.nodup_singleton _, ?_⟩
    intro x hx
    rw [List.mem_singleton.mp hx]
    exact ht
  unmarked := rfl
  labelled := by
    intro b hb
    rw [List.mem_singleton.mp hb]
    exact hlabelled
  distinct := by
    show (nodes.map BlNode.name ++ []).Nodup
    rw [List.append_nil]
    exact hnodup

/-- A new structure is well formed; its list is empty. -/
theorem wellFormed_create : WellFormed create :=
  wellFormed_oneLeaf Nat.one_pos ⟨List.Pairwise.nil, fun _ hc => (List.not_mem_nil hc).elim⟩ List.nodup_nil

/-- The first insert puts its node into the empty list. -/
theorem insertInitial_spec {om om' : Om} {n : Name} (h : WellFormed om) (hinsert : insertInitial om n = some om') :
    WellFormed om' ∧ om'.root.names = [n] := by
  match hroot : om.root with
  | .leaf m (.splitNodes ns) => simp [insertInitial, hroot] at hinsert
  | .node m l r => simp [insertInitial, hroot] at hinsert
  | .leaf m (.list b) =>
      have hleaf : ListLeaf none 0 m b := by
        have hshaped := h.shaped
        rw [hroot] at hshaped
        exact hshaped
      have hfits := h.fits
      have hnamed := h.named
      rw [hroot] at hfits hnamed
      have hempty : b.nodes = [] := by
        by_contra hne
        simp [insertInitial, hroot, hleaf.numLeaves, Blist.insertInitial, hne] at hinsert
      obtain rfl : { om with root := .leaf m (.list { b with nodes := [⟨n, 0⟩] }) } = om' := by
        simpa [insertInitial, hroot, hleaf.numLeaves, Blist.insertInitial, hempty, hleaf.above] using hinsert
      refine ⟨⟨⟨?_, hfits, ⟨hnamed.nodup, hnamed.lt⟩⟩, hleaf.flag, ?_, List.nodup_singleton n⟩, rfl⟩
      · exact ⟨hleaf.parent, hleaf.label, hleaf.level, hleaf.numLeaves, hleaf.flag, hleaf.above⟩
      · intro c hc
        rw [List.mem_singleton.mp hc]
        refine ⟨List.pairwise_singleton _ _, ?_⟩
        intro d hd
        rw [List.mem_singleton.mp hd]
        exact Nat.two_pow_pos 64

/-- **Runs keep the structure well formed**, and the abstract list is that of its nodes. -/
theorem Run.wellFormed {om : Om} {L : List Name} (h : Run shl om L) : WellFormed om ∧ om.root.names = L := by
  induction h with
  | create => exact ⟨wellFormed_create, rfl⟩
  | initial _ hinsert ih => exact insertInitial_spec ih.1 hinsert
  | accepted _ hbase hnew hinsert ih =>
      obtain ⟨hwf, rfl⟩ := ih
      rcases insert_spec hwf hbase hnew with hrefused | ⟨om₁, haccepted, hwf₁, hnames⟩
      · rw [hrefused] at hinsert
        cases hinsert
      · rw [haccepted] at hinsert
        cases hinsert
        exact ⟨hwf₁, hnames⟩
  | refused _ _ _ _ ih => exact ih
  | relabelled _ hcan htotal hrelabel ih =>
      obtain ⟨hwf, rfl⟩ := ih
      obtain ⟨om₁, hrelabel₁, hwf₁, hinto⟩ := relabel_spec _ hwf hcan htotal
      rw [hrelabel₁] at hrelabel
      cases hrelabel
      exact ⟨hwf₁, hinto.names⟩

/-- **The structure refines the abstract list**: `om_precedes` is its order, and inserts on existing nodes and
relabels always have a result. -/
theorem precedes_iff_before {om : Om} {L : List Name} (h : Run shl om L) :
    (∀ x ∈ L, ∀ y ∈ L, ∃ answer, precedes om (some x) (some y) = some answer ∧ (answer = true ↔ Before L x y)) ∧
      (∀ base ∈ L, ∀ n, n ∉ L → insert om base n ≠ none) ∧
      (∀ heavy, CanSplit om heavy → leavesAfter om heavy < 2 ^ 31 → relabel shl om heavy ≠ none) := by
  obtain ⟨hwf, rfl⟩ := h.wellFormed
  refine ⟨?_, ?_, ?_⟩
  · intro x hx y hy
    exact precedes_spec hwf hx hy
  · intro base hbase n hn
    rcases insert_spec hwf hbase hn with hrefused | ⟨om', haccepted, -⟩
    · rw [hrefused]
      simp
    · rw [haccepted]
      simp
  · intro heavy hcan htotal
    obtain ⟨om', hrelabel, -⟩ := relabel_spec shl hwf hcan htotal
    rw [hrelabel]
    simp

/-- Two inserts after the first node, of `8` and then of `9`. -/
theorem run_oneLeaf : Run (fun h => 2 ^ h) (oneLeaf 0 1 [⟨7, 0⟩, ⟨9, 2 ^ 62⟩, ⟨8, 2 ^ 63⟩]) [7, 9, 8] := by
  have h : Run (fun h => 2 ^ h) (oneLeaf 0 1 [⟨7, 0⟩]) [7] := .initial .create (by decide)
  have h' : Run (fun h => 2 ^ h) (oneLeaf 0 1 [⟨7, 0⟩, ⟨8, 2 ^ 63⟩]) (insertAfter 7 8 [7]) :=
    .accepted h (by decide) (by decide) (by decide +kernel)
  have h'' : Run (fun h => 2 ^ h) (oneLeaf 0 1 [⟨7, 0⟩, ⟨9, 2 ^ 62⟩, ⟨8, 2 ^ 63⟩])
      (insertAfter 7 9 (insertAfter 7 8 [7])) :=
    .accepted h' (by decide) (by decide) (by decide +kernel)
  exact h''

/-- The query of the two new nodes: the later one is before the earlier one. -/
theorem precedes_iff_before_oneLeaf :
    ∃ answer, precedes (oneLeaf 0 1 [⟨7, 0⟩, ⟨9, 2 ^ 62⟩, ⟨8, 2 ^ 63⟩]) (some 9) (some 8) = some answer ∧
      (answer = true ↔ Before [7, 9, 8] 9 8) :=
  (precedes_iff_before run_oneLeaf).1 9 (by decide) 8 (by decide)

/-! ## Relabels

What a relabel of any set of leaves does in any state of a run. It may be asked for leaves that are not heavy at all. -/

/-- What a structure should look like between its operations. -/
structure TreeOk (om : Om) : Prop where
  shaped : Shaped none 0 maxLevel om.root
  counts : ∀ s ∈ om.root.subtrees, s.root.numLeaves = s.leaves.length
  above : ∀ a ∈ om.root.leaves, a.list.above = a.node.name
  addresses : om.root.tlNames.Nodup
  increasing : (om.root.leaves.map fun a => a.node.label).Pairwise (· < ·)
  depth : om.root.depth ≤ om.height
  unmarked : ∀ s ∈ om.root.subtrees, s.root.needsRebalance = false

/-- A well-formed structure looks as it should. -/
theorem WellFormed.treeOk {om : Om} (h : WellFormed om) : TreeOk om where
  shaped := h.shaped
  counts := h.shaped.counts
  above := h.shaped.above
  addresses := h.named.nodup
  increasing := (h.shaped.labels h.unmarked).2
  depth := h.fits.depth_le
  unmarked := h.shaped.unmarked h.unmarked

/-- **`om_relabel` keeps the tree well formed**, whatever the undefined shifts yield: no assertion fails, each given
leaf is replaced by its sublists in order, and the tree is as it should be. -/
theorem relabel_treeOk {om : Om} {L : List Name} {heavy : List TlName} (h : Run shl om L)
    (hcan : CanSplit om heavy) (htotal : leavesAfter om heavy < 2 ^ 31) :
    ∃ om', relabel shl om heavy = some om' ∧ SplitInto heavy om om' ∧ TreeOk om' := by
  obtain ⟨om', hrelabel, hwf, hinto⟩ := relabel_spec shl h.wellFormed.1 hcan htotal
  exact ⟨om', hrelabel, hinto, hwf.treeOk⟩

/-- Inserts that are accepted, each of a new node on one that is there. -/
def insertEach : List (Request Name) → Om → Option Om
  | [], om => some om
  | r :: rs, om =>
      if r.base ∈ om.root.names ∧ r.new ∉ om.root.names then (insert om r.base r.new).join.bind (insertEach rs) else none

/-- A sequence of accepted inserts is a run. -/
theorem Run.insertEach {om om' : Om} {L : List Name} {rs : List (Request Name)} (h : Run shl om L)
    (hrun : insertEach rs om = some om') : ∃ L', Run shl om' L' := by
  induction rs generalizing om L with
  | nil =>
      cases hrun
      exact ⟨L, h⟩
  | cons r rs ih =>
      unfold OrderMaint.insertEach at hrun
      split at hrun
      · rename_i hfresh
        obtain ⟨om₁, hinsert, hrun⟩ := Option.bind_eq_some_iff.mp hrun
        rw [h.wellFormed.2] at hfresh
        exact ih (.accepted h hfresh.1 hfresh.2 (Option.join_eq_some_iff.mp hinsert)) hrun
      · cases hrun

/-- A list of 130 nodes: each but the first has been put after one of about half its number. -/
def longList : Option Om := insertEach ((List.range 129).map fun i => ⟨i + 1, i / 2⟩) (oneLeaf 0 1 [⟨0, 0⟩])

/-- The one leaf splits into three, and the tree gets levels. -/
theorem relabel_treeOk_longList : ∃ om om' : Om, longList = some om ∧ relabel (fun h => 2 ^ h) om [0] = some om' ∧
    SplitInto [0] om om' ∧ TreeOk om' ∧ om.root.lists.length = 1 ∧ om'.root.lists.length = 3 := by
  have hcheck : (longList.any fun om => decide (om.root.leafNames = [0] ∧ (∀ b ∈ om.root.lists, b.nodes ≠ []) ∧
      leavesAfter om [0] < 2 ^ 31 ∧ om.root.lists.length = 1 ∧
      (relabel (fun h => 2 ^ h) om [0]).map (fun om' => om'.root.lists.length) = some 3)) = true := by
    decide +kernel
  obtain ⟨om, hom, hcheck⟩ := (Option.any_eq_true _ _).mp hcheck
  obtain ⟨hleaf, hnonempty, htotal, hone, hthree⟩ := of_decide_eq_true hcheck
  have hfirst : Run (fun h => 2 ^ h) (oneLeaf 0 1 [⟨0, 0⟩]) [0] := .initial .create (by decide)
  obtain ⟨L, hrun⟩ := hfirst.insertEach hom
  have hcan : CanSplit om [0] := by
    refine ⟨List.nodup_singleton 0, ?_, fun b hb _ => hnonempty b hb⟩
    intro x hx
    rwa [hleaf]
  obtain ⟨om', hrelabel, hinto, hok⟩ := relabel_treeOk hrun hcan htotal
  rw [hrelabel] at hthree
  exact ⟨om, om', hom, hrelabel, hinto, hok, hone, Option.some.inj hthree⟩

/-! ## Schedules

Two runs that perform the same requests, compared at their ends. The abstract list is all that matters for the order,
so nothing of the trees has to be compared. -/

/-- The requests are performed in this order; in between there may be relabels, and refused tries. -/
inductive Performs (shl : Nat → Nat) : Om → List (Request Name) → Om → Prop where
  | refl {om} : Performs shl om [] om
  | accepted {om om' om'' rs r} : Performs shl om rs om' → r.base ∈ om'.root.names → r.new ∉ om'.root.names →
      insert om' r.base r.new = some (some om'') → Performs shl om (rs ++ [r]) om''
  | refused {om om' rs base n} : Performs shl om rs om' → base ∈ om'.root.names → n ∉ om'.root.names →
      insert om' base n = some none → Performs shl om rs om'
  | relabelled {om om' om'' rs heavy} : Performs shl om rs om' → CanSplit om' heavy →
      leavesAfter om' heavy < 2 ^ 31 → relabel shl om' heavy = some om'' → Performs shl om rs om''

/-- What a schedule does to the list is to perform its requests one after the other. -/
theorem Performs.names {om om' : Om} {rs : List (Request Name)} (h : Performs shl om rs om') (hwf : WellFormed om) :
    WellFormed om' ∧ om'.root.names = insertAll om.root.names rs ∧ Performable om.root.names rs := by
  induction h with
  | refl => exact ⟨hwf, rfl, trivial⟩
  | accepted _ hbase hnew hinsert ih =>
      obtain ⟨hwf', hnames, hperf⟩ := ih
      rcases insert_spec hwf' hbase hnew with hrefused | ⟨om₁, haccepted, hwf₁, hnames₁⟩
      · rw [hrefused] at hinsert
        cases hinsert
      · rw [haccepted] at hinsert
        cases hinsert
        rw [hnames] at hbase hnew hnames₁
        refine ⟨hwf₁, ?_, hperf.snoc hbase hnew⟩
        rw [hnames₁, insertAll_snoc]
  | refused _ _ _ _ ih => exact ih
  | relabelled _ hcan htotal hrelabel ih =>
      obtain ⟨hwf', hnames, hperf⟩ := ih
      obtain ⟨om₁, hrelabel₁, hwf₁, hinto⟩ := relabel_spec _ hwf' hcan htotal
      rw [hrelabel₁] at hrelabel
      cases hrelabel
      exact ⟨hwf₁, hinto.names.trans hnames, hperf⟩

/-- **The order does not depend on the schedule.** Two runs from one state that perform the same requests, those on
one base in the same order, agree on every pair of nodes. -/
theorem precedes_schedule {om om₁ om₂ : Om} {L : List Name} {rs rs' : List (Request Name)} (h : Run shl om L) (h₁ : Performs shl om rs om₁)
    (h₂ : Performs shl om rs' om₂) (hperm : rs.Perm rs')
    (hsame : ∀ b, rs.filter (fun r => r.base = b) = rs'.filter fun r => r.base = b) :
    om₁.root.names = om₂.root.names ∧ ∀ x ∈ om₁.root.names, ∀ y ∈ om₁.root.names,
      ∃ answer, precedes om₁ (some x) (some y) = some answer ∧ precedes om₂ (some x) (some y) = some answer := by
  obtain ⟨hwf₁, hnames₁, hperf₁⟩ := h₁.names h.wellFormed.1
  obtain ⟨hwf₂, hnames₂, hperf₂⟩ := h₂.names h.wellFormed.1
  have heq : om₁.root.names = om₂.root.names := by
    rw [hnames₁, hnames₂]
    exact insertAll_eq hperf₁ hperf₂ hperm hsame
  refine ⟨heq, ?_⟩
  intro x hx y hy
  obtain ⟨answer, hanswer, hiff⟩ := precedes_spec hwf₁ hx hy
  obtain ⟨answer', hanswer', hiff'⟩ := precedes_spec hwf₂ (heq ▸ hx) (heq ▸ hy)
  refine ⟨answer, hanswer, ?_⟩
  rw [hanswer', Option.some.injEq, Bool.eq_iff_iff, hiff', hiff, heq]

/-- Two requests on different bases, in both orders. -/
theorem precedes_schedule_oneLeaf :
    let om₁ := oneLeaf 0 1 [⟨7, 0⟩, ⟨1, 2 ^ 61⟩, ⟨9, 2 ^ 62⟩, ⟨2, 2 ^ 62 + 2 ^ 61⟩, ⟨8, 2 ^ 63⟩]
    let om₂ := oneLeaf 0 2 [⟨7, 0⟩, ⟨1, 2 ^ 57⟩, ⟨9, 2 ^ 58⟩, ⟨2, 2 ^ 59⟩, ⟨8, 2 ^ 59 + 2 ^ 58⟩]
    om₁.root.names = om₂.root.names ∧ ∀ x ∈ om₁.root.names, ∀ y ∈ om₁.root.names,
      ∃ answer, precedes om₁ (some x) (some y) = some answer ∧ precedes om₂ (some x) (some y) = some answer := by
  have h₁ : Performs (fun h => 2 ^ h) (oneLeaf 0 1 [⟨7, 0⟩, ⟨9, 2 ^ 62⟩, ⟨8, 2 ^ 63⟩]) [⟨1, 7⟩]
      (oneLeaf 0 1 [⟨7, 0⟩, ⟨1, 2 ^ 61⟩, ⟨9, 2 ^ 62⟩, ⟨8, 2 ^ 63⟩]) :=
    .accepted .refl (by decide) (by decide) (by decide +kernel)
  have h₁' : Performs (fun h => 2 ^ h) (oneLeaf 0 1 [⟨7, 0⟩, ⟨9, 2 ^ 62⟩, ⟨8, 2 ^ 63⟩]) [⟨1, 7⟩, ⟨2, 9⟩]
      (oneLeaf 0 1 [⟨7, 0⟩, ⟨1, 2 ^ 61⟩, ⟨9, 2 ^ 62⟩, ⟨2, 2 ^ 62 + 2 ^ 61⟩, ⟨8, 2 ^ 63⟩]) :=
    .accepted h₁ (by decide) (by decide) (by decide +kernel)
  -- the other schedule begins with the second request and relabels before the first
  have h₂ : Performs (fun h => 2 ^ h) (oneLeaf 0 1 [⟨7, 0⟩, ⟨9, 2 ^ 62⟩, ⟨8, 2 ^ 63⟩]) [⟨2, 9⟩]
      (oneLeaf 0 1 [⟨7, 0⟩, ⟨9, 2 ^ 62⟩, ⟨2, 2 ^ 62 + 2 ^ 61⟩, ⟨8, 2 ^ 63⟩]) :=
    .accepted .refl (by decide) (by decide) (by decide +kernel)
  have hcan : CanSplit (oneLeaf 0 1 [⟨7, 0⟩, ⟨9, 2 ^ 62⟩, ⟨2, 2 ^ 62 + 2 ^ 61⟩, ⟨8, 2 ^ 63⟩]) [0] :=
    ⟨by decide, by decide, by decide⟩
  have h₂' : Performs (fun h => 2 ^ h) (oneLeaf 0 1 [⟨7, 0⟩, ⟨9, 2 ^ 62⟩, ⟨8, 2 ^ 63⟩]) [⟨2, 9⟩]
      (oneLeaf 0 2 [⟨7, 0⟩, ⟨9, 2 ^ 58⟩, ⟨2, 2 ^ 59⟩, ⟨8, 2 ^ 59 + 2 ^ 58⟩]) :=
    .relabelled h₂ hcan (by decide +kernel) (by decide +kernel)
  have h₂'' : Performs (fun h => 2 ^ h) (oneLeaf 0 1 [⟨7, 0⟩, ⟨9, 2 ^ 62⟩, ⟨8, 2 ^ 63⟩]) [⟨2, 9⟩, ⟨1, 7⟩]
      (oneLeaf 0 2 [⟨7, 0⟩, ⟨1, 2 ^ 57⟩, ⟨9, 2 ^ 58⟩, ⟨2, 2 ^ 59⟩, ⟨8, 2 ^ 59 + 2 ^ 58⟩]) :=
    .accepted h₂' (by decide) (by decide) (by decide +kernel)
  refine precedes_schedule run_oneLeaf h₁' h₂'' (.swap _ _ _) ?_
  intro b
  by_cases h7 : 7 = b
  · subst h7
    rfl
  · by_cases h9 : 9 = b
    · subst h9
      rfl
    · simp [h7, h9]

end FOrder.OrderMaint
