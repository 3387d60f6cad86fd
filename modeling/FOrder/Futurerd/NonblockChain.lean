import FOrder.Futurerd.NonblockSets

/-!
# `Futurerd.NonblockChain` — the segments of the open frames

`Live σ items w` says where the sets stand when the running strand is `w`: its segment either is one unattached set,
or its first node is attached and so is `w`. What lies below is described item by item, and stays as it is while
only newer nodes change.

## The picture

With `items = [i₁, …, iₖ]`, innermost first, the nodes `0, …, w` are cut into segments: the top one from
`start items` to `w`, and below it, for each item, the segment of the frame in which the fork lies, up to the fork;
a child that has come back (`Item.join`) has a segment of its own between the fork and the top one.

- `Span`: the sets of a segment stay inside it and have attached predecessors.
- `Seg`: the alternative above, for a segment that may be continued.
- `FromFork`: an unattached branch has the attached predecessor of its fork. At the join the code asserts that both
  branches and the fork have the same one.
- `Starts`: how the first node of a segment relates to the fork before it. A future starts an attached set, a child
  one that is `FromFork`.

## How it is kept

Every event writes to nodes of the top segment or to new nodes. `Agree n σ σ'` says that all nodes below `n` are as
they were, and the `congr` lemmas carry each of the predicates over. So an event has to show what it makes of the
top segment only: `Live.child`, `Live.joined`, `Live.future` for the events that push an item, `Live.attachify` for
those that attach the running strand.
-/

namespace FOrder.Futurerd.Nonblock

/-- What separates two segments: a spawned child that has come back, the fork of the child that runs, the fork of
    the future that runs. The first node after `fork` or `ljp` is the next one. -/
inductive Item where
  | join (fork ljp : Nat)
  | child (fork : Nat)
  | future (fork : Nat)
  deriving DecidableEq

def Item.fork : Item → Nat
  | .join fork _ => fork
  | .child fork => fork
  | .future fork => fork

/-- The first node of the segment above the items. -/
def start : List Item → Nat
  | [] => 0
  | .join _ ljp :: _ => ljp + 1
  | .child fork :: _ => fork + 1
  | .future fork :: _ => fork + 1

/-- The sets of the nodes from `a` to `w` are among these nodes, and have an attached predecessor. -/
structure Span (σ : State) (a w : Nat) : Prop where
  le : a ≤ w
  within : ∀ z, a ≤ z → z ≤ w → a ≤ σ.find z ∧ σ.find z ≤ w
  pred : ∀ z, a ≤ z → z ≤ w → (σ.setOf z).attPred ≠ none

/-- A segment whose frame goes on at `w`. -/
structure Seg (σ : State) (a w : Nat) : Prop extends Span σ a w where
  free : σ.attached a = false → σ.find w = σ.find a ∧ (σ.setOf a).attSucc = none
  held : σ.attached a = true → σ.attached w = true ∧ (σ.setOf w).attPred = some (σ.find w)

/-- While the child `c` of a fork is unattached, the two have one attached predecessor. -/
def FromFork (σ : State) (c fork : Nat) : Prop :=
  σ.attached c = false → (σ.setOf c).attPred = (σ.setOf fork).attPred

/-- How the top segment begins. -/
def Starts (σ : State) : List Item → Prop
  | [] => σ.attached 0 = true
  | .join fork ljp :: _ => FromFork σ (ljp + 1) fork
  | .child fork :: _ => FromFork σ (fork + 1) fork
  | .future fork :: _ => σ.attached (fork + 1) = true

/-- The segments below the top one. The creator of a running future is attached. -/
def Below (σ : State) : List Item → Prop
  | [] => True
  | .join fork ljp :: rest =>
      Seg σ (fork + 1) ljp ∧ FromFork σ (fork + 1) fork ∧ Starts σ rest ∧ Seg σ (start rest) fork ∧ Below σ rest
  | .child fork :: rest => Starts σ rest ∧ Seg σ (start rest) fork ∧ Below σ rest
  | .future fork :: rest => σ.attached (start rest) = true ∧ Span σ (start rest) fork ∧ Below σ rest

/-- The sets, while the strand `w` runs. -/
structure Live (σ : State) (items : List Item) (w : Nat) : Prop where
  starts : Starts σ items
  seg : Seg σ (start items) w
  below : Below σ items

/-- The nodes below `n` are as they were. -/
structure Agree (n : Nat) (σ σ' : State) : Prop where
  find : ∀ z, z < n → σ'.find z = σ.find z
  node : ∀ z, z < n → σ'.node z = σ.node z

/-- Fewer nodes. -/
theorem Agree.mono {n m : Nat} {σ σ' : State} (h : Agree n σ σ') (hm : m ≤ n) : Agree m σ σ' :=
  ⟨fun z hz => h.find z (Nat.lt_of_lt_of_le hz hm), fun z hz => h.node z (Nat.lt_of_lt_of_le hz hm)⟩

/-- Two changes further up. -/
theorem Agree.trans {n : Nat} {σ σ' σ'' : State} (h : Agree n σ σ') (h' : Agree n σ' σ'') : Agree n σ σ'' :=
  ⟨fun z hz => (h'.find z hz).trans (h.find z hz), fun z hz => (h'.node z hz).trans (h.node z hz)⟩

/-- No change at all. -/
theorem SameNodes.agree {σ σ' : State} (h : SameNodes σ σ') (n : Nat) : Agree n σ σ' :=
  ⟨fun z _ => h.find z, fun z _ => h.node z⟩

section Congr

variable {σ σ' : State} {n : Nat}

/-- The data of a set whose root is below `n` too. -/
theorem Agree.setOf (h : Agree n σ σ') {z : Nat} (hz : z < n) (hf : σ.find z < n) : σ'.setOf z = σ.setOf z := by
  unfold State.setOf
  rw [h.find z hz, h.node _ hf]

/-- So is whether it is attached. -/
theorem Agree.attached (h : Agree n σ σ') {z : Nat} (hz : z < n) (hf : σ.find z < n) :
    σ'.attached z = σ.attached z := by
  unfold State.attached
  rw [h.setOf hz hf]

/-- Roots of a span are in it. -/
theorem Span.find_lt {a w z : Nat} (hs : Span σ a w) (hw : w < n) (hza : a ≤ z) (hzw : z ≤ w) :
    σ.find z < n := Nat.lt_of_le_of_lt (hs.within z hza hzw).2 hw

/-- A span stays one. -/
theorem Span.congr {a w : Nat} (h : Agree n σ σ') (hw : w < n) (hs : Span σ a w) : Span σ' a w where
  le := hs.le
  within z hza hzw := by
    rw [h.find z (Nat.lt_of_le_of_lt hzw hw)]
    exact hs.within z hza hzw
  pred z hza hzw := by
    rw [h.setOf (Nat.lt_of_le_of_lt hzw hw) (hs.find_lt hw hza hzw)]
    exact hs.pred z hza hzw

/-- A segment stays one. -/
theorem Seg.congr {a w : Nat} (h : Agree n σ σ') (hw : w < n) (hs : Seg σ a w) : Seg σ' a w := by
  have ha : a < n := Nat.lt_of_le_of_lt hs.le hw
  have hfa := hs.find_lt hw (Nat.le_refl a) hs.le
  have hfw := hs.find_lt hw hs.le (Nat.le_refl w)
  refine ⟨hs.toSpan.congr h hw, ?_, ?_⟩
  · intro hatt
    rw [h.attached ha hfa] at hatt
    rw [h.find w hw, h.find a ha, h.setOf ha hfa]
    exact hs.free hatt
  · intro hatt
    rw [h.attached ha hfa] at hatt
    rw [h.attached hw hfw, h.setOf hw hfw, h.find w hw]
    exact hs.held hatt

/-- An unattached branch keeps the predecessor of its fork. -/
theorem FromFork.congr {c fork : Nat} (h : Agree n σ σ') (hc : c < n) (hfc : σ.find c < n) (hk : fork < n)
    (hfk : σ.find fork < n) (hf : FromFork σ c fork) : FromFork σ' c fork := by
  intro hatt
  rw [h.attached hc hfc] at hatt
  rw [h.setOf hc hfc, h.setOf hk hfk]
  exact hf hatt

/-- Two neighbours are one span. -/
theorem Span.append {a m w : Nat} (h : Span σ a m) (h' : Span σ (m + 1) w) : Span σ a w where
  le := by
    have hle := h.le
    have hle' := h'.le
    omega
  within z hza hzw := by
    have hle := h.le
    have hle' := h'.le
    rcases Nat.lt_or_ge m z with hz | hz
    · have hin := h'.within z hz hzw
      omega
    · have hin := h.within z hza hz
      omega
  pred z hza hzw := by
    rcases Nat.lt_or_ge m z with hz | hz
    · exact h'.pred z hz hzw
    · exact h.pred z hza hz

/-- The segment right below the top one ends where its frame has come to. -/
theorem Below.span {item : Item} {rest : List Item} (hb : Below σ (item :: rest)) :
    Span σ (start rest) item.fork := by
  cases item with
  | join fork ljp => exact hb.2.2.2.1.toSpan
  | child fork => exact hb.2.1.toSpan
  | future fork => exact hb.2.1

/-- The sets of the nodes below a segment are below it. -/
theorem Below.find_lt {items : List Item} (hb : Below σ items) : ∀ z, z < start items → σ.find z < start items := by
  induction items with
  | nil =>
      intro z hz
      exact absurd hz (Nat.not_lt_zero z)
  | cons item rest ih =>
      intro z hz
      have hspan := hb.span
      have hrest : Below σ rest := by
        cases item with
        | join fork ljp => exact hb.2.2.2.2
        | child fork => exact hb.2.2
        | future fork => exact hb.2.2
      -- in the next segment, or further down
      have hfork : ∀ z, z ≤ item.fork → σ.find z ≤ item.fork := by
        intro z hz
        rcases Nat.lt_or_ge z (start rest) with hlt | hge
        · exact Nat.le_of_lt (Nat.lt_of_lt_of_le (ih hrest z hlt) hspan.le)
        · exact (hspan.within z hge hz).2
      cases item with
      | join fork ljp =>
          have hleft := hb.1
          have hz' : z ≤ ljp := Nat.le_of_lt_succ hz
          rcases Nat.lt_or_ge fork z with hlt | hge
          · exact Nat.lt_succ_of_le (hleft.within z hlt hz').2
          · have hf := hfork z hge
            have hle := hleft.le
            show σ.find z < ljp + 1
            have hfork' : Item.fork (.join fork ljp) = fork := rfl
            omega
      | child fork => exact Nat.lt_succ_of_le (hfork z (Nat.le_of_lt_succ hz))
      | future fork => exact Nat.lt_succ_of_le (hfork z (Nat.le_of_lt_succ hz))

/-- A segment starts as it did while its own set and the ones below stay. -/
theorem Starts.congr {items : List Item} {w : Nat} (h : Agree n σ σ') (hw : w < n) (hs : Span σ (start items) w)
    (hb : Below σ items) (hst : Starts σ items) : Starts σ' items := by
  have ha : start items < n := Nat.lt_of_le_of_lt hs.le hw
  have hfa := hs.find_lt hw (Nat.le_refl _) hs.le
  cases items with
  | nil =>
      exact (h.attached ha hfa).trans hst
  | cons item rest =>
      have hspan := hb.span
      cases item with
      | join fork ljp =>
          have hk : fork < n := by
            have hle := hb.1.le
            have hlt : ljp + 1 < n := ha
            omega
          exact FromFork.congr h ha hfa hk (hspan.find_lt hk hspan.le (Nat.le_refl _)) hst
      | child fork =>
          have hk : fork < n := Nat.lt_of_succ_lt ha
          exact FromFork.congr h ha hfa hk (hspan.find_lt hk hspan.le (Nat.le_refl _)) hst
      | future fork =>
          exact (h.attached ha hfa).trans hst

/-- **What lies below stays**, while only nodes of the top segment change. -/
theorem Below.congr {items : List Item} (h : Agree (start items) σ σ') (hb : Below σ items) :
    Below σ' items := by
  induction items with
  | nil => trivial
  | cons item rest ih =>
      cases item with
      | join fork ljp =>
          obtain ⟨hleft, hfrom, hst, hseg, hrest⟩ := hb
          have h : Agree (ljp + 1) σ σ' := h
          have hlt : fork + 1 < ljp + 1 := Nat.lt_succ_of_le hleft.le
          have hk : fork < ljp + 1 := Nat.lt_of_succ_lt hlt
          refine ⟨hleft.congr h (Nat.lt_succ_self _), ?_, ?_, hseg.congr h hk, ?_⟩
          · exact hfrom.congr h hlt (hleft.find_lt (Nat.lt_succ_self _) (Nat.le_refl _) hleft.le) hk
              (hseg.find_lt hk hseg.le (Nat.le_refl _))
          · exact hst.congr h hk hseg.toSpan hrest
          · exact ih (h.mono (Nat.le_trans hseg.le (Nat.le_of_lt hk))) hrest
      | child fork =>
          obtain ⟨hst, hseg, hrest⟩ := hb
          have h : Agree (fork + 1) σ σ' := h
          have hk : fork < fork + 1 := Nat.lt_succ_self _
          exact ⟨hst.congr h hk hseg.toSpan hrest, hseg.congr h hk,
            ih (h.mono (Nat.le_succ_of_le hseg.le)) hrest⟩
      | future fork =>
          obtain ⟨hatt, hspan, hrest⟩ := hb
          have h : Agree (fork + 1) σ σ' := h
          have hk : fork < fork + 1 := Nat.lt_succ_self _
          refine ⟨?_, hspan.congr h hk, ih (h.mono (Nat.le_succ_of_le hspan.le)) hrest⟩
          rw [h.attached (Nat.lt_of_le_of_lt hspan.le hk) (hspan.find_lt hk (Nat.le_refl _) hspan.le)]
          exact hatt

/-- The whole picture stays while nothing changes in it. -/
theorem Live.congr {items : List Item} {w : Nat} (h : Agree n σ σ') (hw : w < n) (hl : Live σ items w) :
    Live σ' items w :=
  ⟨hl.starts.congr h hw hl.seg.toSpan hl.below, hl.seg.congr h hw,
    hl.below.congr (h.mono (Nat.le_trans hl.seg.le (Nat.le_of_lt hw)))⟩

end Congr

/-- An attached segment starts well, whatever it comes after. -/
theorem Starts.of_attached {σ : State} {items : List Item} (h : σ.attached (start items) = true) :
    Starts σ items := by
  have hfrom : ∀ {c fork : Nat}, σ.attached c = true → FromFork σ c fork := by
    intro c fork hc hfalse
    rw [hc] at hfalse
    cases hfalse
  cases items with
  | nil => exact h
  | cons item rest =>
      cases item with
      | join fork ljp => exact hfrom h
      | child fork => exact hfrom h
      | future fork => exact h

/-! ## A new node -/

/-- The next node is made, `n` is what it ends up with. -/
structure NewNode (σ σ' : State) (n : Node) : Prop where
  length : σ'.nodes.length = σ.nodes.length + 1
  find : ∀ z, σ'.find z = σ.find z
  old : ∀ z, z < σ.nodes.length → σ'.node z = σ.node z
  new : σ'.node σ.nodes.length = n

namespace NewNode

variable {σ σ' : State} {n : Node}

/-- The old nodes are as they were. -/
theorem agree (h : NewNode σ σ' n) : Agree σ.nodes.length σ σ' := ⟨fun z _ => h.find z, h.old⟩

/-- The new node is alone in its set. -/
theorem find_new (hok : NodesOk σ) : σ.find σ.nodes.length = σ.nodes.length := by
  rw [← hok.size]
  exact UF.rep_of_isRoot (UF.parentOf_of_length_le (Nat.le_refl _))

/-- And has its own data. -/
theorem setOf_new (hok : NodesOk σ) (h : NewNode σ σ' n) : σ'.setOf σ.nodes.length = n := by
  unfold State.setOf
  rw [h.find, find_new hok, h.new]

/-- The new node is a segment of its own. -/
theorem seg_new (hok : NodesOk σ) (h : NewNode σ σ' n) (hpred : n.attPred ≠ none)
    (hfree : n.id = 0 → n.attSucc = none) (hheld : 0 < n.id → n.attPred = some σ.nodes.length) :
    Seg σ' σ.nodes.length σ.nodes.length := by
  have hfind : σ'.find σ.nodes.length = σ.nodes.length := by rw [h.find, find_new hok]
  have hset := h.setOf_new hok
  refine ⟨⟨Nat.le_refl _, ?_, ?_⟩, ?_, ?_⟩
  · intro z hza hzw
    obtain rfl := Nat.le_antisymm hza hzw
    rw [hfind]
    exact ⟨Nat.le_refl _, Nat.le_refl _⟩
  · intro z hza hzw
    obtain rfl := Nat.le_antisymm hza hzw
    rw [hset]
    exact hpred
  · intro hatt
    rw [State.not_attached, hfind, h.new] at hatt
    rw [hset]
    exact ⟨rfl, hfree hatt⟩
  · intro hatt
    refine ⟨hatt, ?_⟩
    rw [State.attached_iff, hfind, h.new] at hatt
    rw [hset, hfind]
    exact hheld hatt

end NewNode

/-- A child starts at the fork `σ.tCurrent`. -/
theorem Live.child {σ σ' : State} {items : List Item} (hok : NodesOk σ) (hl : Live σ items σ.tCurrent)
    (hcur : σ.tCurrent + 1 = σ.nodes.length) (bag : Option Nat)
    (hnew : NewNode σ σ' ⟨(σ.setOf σ.tCurrent).attPred, none, 0, bag⟩) :
    Live σ' (.child σ.tCurrent :: items) σ.nodes.length := by
  have hlt : σ.tCurrent < σ.nodes.length := hcur ▸ Nat.lt_succ_self _
  have hold := hl.congr hnew.agree hlt
  have hpred := hl.seg.pred _ hl.seg.le (Nat.le_refl _)
  refine ⟨?_, ?_, hold.starts, hold.seg, hold.below⟩
  · intro _
    rw [hcur, hnew.setOf_new hok, hnew.agree.setOf hlt (hl.seg.find_lt hlt hl.seg.le (Nat.le_refl _))]
  · rw [show start (.child σ.tCurrent :: items) = σ.nodes.length from hcur]
    exact hnew.seg_new hok hpred (fun _ => rfl) (fun h => absurd h (Nat.lt_irrefl 0))

/-- A child comes back, and its parent goes on after the fork. -/
theorem Live.joined {σ σ' : State} {fork : Nat} {items : List Item} (hok : NodesOk σ)
    (hl : Live σ (.child fork :: items) σ.tCurrent) (hcur : σ.tCurrent + 1 = σ.nodes.length) (bag : Option Nat)
    (hnew : NewNode σ σ' ⟨(σ.setOf fork).attPred, none, 0, bag⟩) :
    Live σ' (.join fork σ.tCurrent :: items) σ.nodes.length := by
  have hlt : σ.tCurrent < σ.nodes.length := hcur ▸ Nat.lt_succ_self _
  have hold := hl.congr hnew.agree hlt
  obtain ⟨-, hseg, -⟩ := hl.below
  have hle : fork + 1 ≤ σ.tCurrent := hl.seg.le
  have hk : fork < σ.nodes.length := by omega
  have hpred := hseg.pred _ hseg.le (Nat.le_refl _)
  refine ⟨?_, ?_, hold.seg, hold.starts, hold.below⟩
  · intro _
    rw [hcur, hnew.setOf_new hok, hnew.agree.setOf hk (hseg.find_lt hk hseg.le (Nat.le_refl _))]
  · rw [show start (.join fork σ.tCurrent :: items) = σ.nodes.length from hcur]
    exact hnew.seg_new hok hpred (fun _ => rfl) (fun h => absurd h (Nat.lt_irrefl 0))

/-- A future starts at the attached fork `σ.tCurrent`. -/
theorem Live.future {σ σ' : State} {items : List Item} (hok : NodesOk σ)
    (hspan : Span σ (start items) σ.tCurrent) (hbelow : Below σ items)
    (hcur : σ.tCurrent + 1 = σ.nodes.length) (hatt : σ.attached (start items) = true) {id : Nat}
    {bag : Option Nat} (hid : 0 < id)
    (hnew : NewNode σ σ' ⟨some σ.nodes.length, some σ.nodes.length, id, bag⟩) :
    Live σ' (.future σ.tCurrent :: items) σ.nodes.length := by
  have hlt : σ.tCurrent < σ.nodes.length := hcur ▸ Nat.lt_succ_self _
  have hstart : start items < σ.nodes.length := Nat.lt_of_le_of_lt hspan.le hlt
  refine ⟨?_, ?_, ?_, hspan.congr hnew.agree hlt, hbelow.congr (hnew.agree.mono (Nat.le_of_lt hstart))⟩
  · show σ'.attached (σ.tCurrent + 1) = true
    rw [hcur, State.attached_iff, hnew.find, NewNode.find_new hok, hnew.new]
    exact hid
  · rw [show start (.future σ.tCurrent :: items) = σ.nodes.length from hcur]
    exact hnew.seg_new hok (by simp) (fun h => absurd h (Nat.ne_of_gt hid)) (fun _ => rfl)
  · rw [hnew.agree.attached hstart (hspan.find_lt hlt (Nat.le_refl _) hspan.le)]
    exact hatt

/-- A strand of its own attached set, in a segment that is attached. -/
theorem Live.onward {σ σ' : State} {items : List Item} (hok : NodesOk σ)
    (hspan : Span σ (start items) σ.tCurrent) (hbelow : Below σ items)
    (hcur : σ.tCurrent + 1 = σ.nodes.length) (hatt : σ.attached (start items) = true) {id : Nat}
    {bag : Option Nat} (hid : 0 < id)
    (hnew : NewNode σ σ' ⟨some σ.nodes.length, some σ.nodes.length, id, bag⟩) :
    Live σ' items σ.nodes.length := by
  have hlt : σ.tCurrent < σ.nodes.length := hcur ▸ Nat.lt_succ_self _
  have hstart : start items < σ.nodes.length := Nat.lt_of_le_of_lt hspan.le hlt
  have hold := hspan.congr hnew.agree hlt
  have hatt' : σ'.attached (start items) = true := by
    rw [hnew.agree.attached hstart (hspan.find_lt hlt (Nat.le_refl _) hspan.le)]
    exact hatt
  have hself := hnew.seg_new hok (by simp) (fun h => absurd h (Nat.ne_of_gt hid)) (fun _ => rfl)
  refine ⟨Starts.of_attached hatt', ⟨⟨Nat.le_of_lt hstart, ?_, ?_⟩, ?_, ?_⟩,
    hbelow.congr (hnew.agree.mono (Nat.le_of_lt hstart))⟩
  · intro z hza hzw
    rcases Nat.lt_or_ge z σ.nodes.length with hz | hz
    · have hin := hold.within z hza (by omega)
      omega
    · have hin := hself.within z hz hzw
      omega
  · intro z hza hzw
    rcases Nat.lt_or_ge z σ.nodes.length with hz | hz
    · exact hold.pred z hza (by omega)
    · exact hself.pred z hz hzw
  · intro h
    rw [hatt'] at h
    cases h
  · intro _
    apply hself.held
    rw [State.attached_iff, hnew.find, NewNode.find_new hok, hnew.new]
    exact hid

/-- The segment of a future is put back behind its creator's. -/
theorem Below.creator {σ : State} {fork w : Nat} {items : List Item} (hl : Live σ (.future fork :: items) w) :
    Span σ (start items) w ∧ σ.attached (start items) = true ∧ Below σ items := by
  obtain ⟨hatt, hspan, hrest⟩ := hl.below
  exact ⟨hspan.append hl.seg.toSpan, hatt, hrest⟩

/-- `attachify` of the running strand attaches the start of its segment. -/
theorem Live.attachify {σ σ' : State} {items : List Item} (hl : Live σ items σ.tCurrent)
    (hatt : Attachified σ σ' σ.tCurrent) :
    σ'.attached (start items) = true ∧ Span σ' (start items) σ.tCurrent ∧ Below σ' items := by
  have hseg := hl.seg
  have hin := hseg.within _ hseg.le (Nat.le_refl _)
  refine ⟨?_, ⟨hseg.le, ?_, ?_⟩, ?_⟩
  · cases ha : σ.attached (start items) with
    | true => exact hatt.attached ha
    | false =>
        have hfind := (hseg.free ha).1
        have hself := hatt.attached_self
        rw [State.attached_iff, hatt.find] at hself ⊢
        rw [← hfind]
        exact hself
  · intro z hza hzw
    rw [hatt.find]
    exact hseg.within z hza hzw
  · intro z hza hzw
    rw [hatt.setOf_attPred]
    exact hseg.pred z hza hzw
  · refine hl.below.congr ⟨fun z _ => hatt.find z, ?_⟩
    intro z hz
    exact hatt.node z (by omega)

end FOrder.Futurerd.Nonblock
