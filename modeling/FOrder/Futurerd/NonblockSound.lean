import FOrder.Futurerd.NonblockRows

/-!
# `Futurerd.NonblockSound` — what the sets of the open segments stand for

Whatever stands for the end of a segment comes before it: that is what makes an answer about the running strand
right, and what makes the edges sound that leave the end later. `Ahead` says it of one segment, with what it takes
to keep it, and `Told` of all of them; the events that end no block keep it.

## What has to be known of a segment

A query compares the set of an old strand with the set of the running one. The set of the running strand may have
strands from anywhere in its segment, and unattached sets from elsewhere that have it as successor; so for a yes to
be right, all of these have to come before the running strand (`Ahead.before`). To keep this when the segment goes
on, the first node of the segment has to come before the root of its set (`Rooted.start`), an unattached segment has
to be one set (`Rooted.whole`), and what its attached predecessor answers for has to come before it (`Rooted.pred`),
as this is what `attachify` makes an edge from. The last strands of finished futures are in sets of their own
(`apart`), which no segment goes on in, so an edge from such a set to a get stays right.

## How the events keep it

Segments below the top one do not change, but strands may come to stand for other sets. `Beyond n σ σ'` says that
nothing below `n` changes and that every new answer is about a set from `n` on; then all segments below `n` stay
`Ahead` (`Ahead.congr`). What is new is a segment that consists of a new node (`Ahead.new`), or an attached segment
that goes on in one (`Ahead.onward`). Each event is one of these two, after an `attachify` (`Told.attachify`) if it
attaches the running strand, and adds edges to the new node (`NewNode.sound_edge`).
-/

namespace FOrder.Futurerd.Nonblock

open Serial (EdgeKind isDep isDep_of_isSp)

variable {σ σ' σ₁ : State} {m m' m₁ : General} {d d' : Dag EdgeKind} {items : List Item} {done done' : Nat → Prop}

/-! ## Segments

What has to hold of one segment (`Ahead`), of where the segments hang in the dag (`Forked`), and of all together
(`Told`). The first clause of `Told` is about the entries of the matrix, and about all strands: what a set answers for
comes before the root of every set in whose row it is (`Sound`). -/

/-- The segments below the top one: the first node of each, and the node it has come to. -/
def lower : List Item → List (Nat × Nat)
  | [] => []
  | .join fork ljp :: rest => (fork + 1, ljp) :: (start rest, fork) :: lower rest
  | .child fork :: rest => (start rest, fork) :: lower rest
  | .future fork :: rest => (start rest, fork) :: lower rest

/-- The segments below are spans, and they lie before the top one. -/
theorem Below.lower_span (hb : Below σ items) : ∀ s ∈ lower items, Span σ s.1 s.2 ∧ s.2 < start items := by
  induction items with
  | nil => exact fun s hs => nomatch hs
  | cons item rest ih =>
      -- what is below the next segment is below the top one
      have hdown : ∀ {n : Nat} {s : Nat × Nat}, Below σ rest → start rest ≤ n → s ∈ lower rest →
          Span σ s.1 s.2 ∧ s.2 < n + 1 := by
        intro n s hrest hle hs
        obtain ⟨hspan, hlt⟩ := ih hrest s hs
        exact ⟨hspan, by omega⟩
      intro s hs
      cases item with
      | join fork ljp =>
          obtain ⟨hleft, -, -, hseg, hrest⟩ := hb
          have hle : fork + 1 ≤ ljp := hleft.le
          rcases List.mem_cons.mp hs with rfl | hs
          · exact ⟨hleft.toSpan, Nat.lt_succ_self _⟩
          · rcases List.mem_cons.mp hs with rfl | hs
            · exact ⟨hseg.toSpan, show fork < ljp + 1 by omega⟩
            · have hle' := hseg.le
              exact hdown hrest (by omega) hs
      | child fork =>
          obtain ⟨-, hseg, hrest⟩ := hb
          rcases List.mem_cons.mp hs with rfl | hs
          · exact ⟨hseg.toSpan, Nat.lt_succ_self _⟩
          · exact hdown hrest hseg.le hs
      | future fork =>
          obtain ⟨-, hspan, hrest⟩ := hb
          rcases List.mem_cons.mp hs with rfl | hs
          · exact ⟨hspan, Nat.lt_succ_self _⟩
          · exact hdown hrest hspan.le hs

/-- Where the segments hang in the dag: both branches come after their fork, and nothing comes after a child that
    has come back. -/
def Forked (d : Dag EdgeKind) : List Item → Prop
  | [] => True
  | .join fork ljp :: rest => d.Reach isDep fork (fork + 1) ∧ d.Reach isDep fork (ljp + 1) ∧
      (∀ y, d.Reach isDep ljp y → y = ljp) ∧ Forked d rest
  | .child fork :: rest => d.Reach isDep fork (fork + 1) ∧ Forked d rest
  | .future _ :: rest => Forked d rest

/-- The set of the first node of a segment. While it is unattached it is the whole segment, and its attached
    predecessor answers for what comes before. -/
structure Rooted (d : Dag EdgeKind) (σ : State) (a e : Nat) : Prop where
  start : d.Reach isDep a (σ.find a)
  pred : σ.attached a = false → ∀ p, (σ.setOf a).attPred = some p → ∀ u, answering σ u = some p → d.Reach isDep u a
  whole : σ.attached a = false → ∀ z, a ≤ z → z ≤ e → σ.find z = σ.find a

/-- A segment from `a` that has come to `e`; `done` are the last strands of the finished futures. -/
structure Ahead (d : Dag EdgeKind) (done : Nat → Prop) (σ : State) (a e : Nat) : Prop extends Rooted d σ a e where
  before : ∀ u, Stands σ u (σ.find e) → d.Reach isDep u e
  apart : ∀ x, done x → σ.find x ≠ σ.find a ∧ σ.find x ≠ σ.find e

/-- The sets before the running strand `w`, and the entries of `m`. -/
structure Told (d : Dag EdgeKind) (done : Nat → Prop) (m : General) (σ : State) (items : List Item) (w : Nat) :
    Prop where
  sound : Sound d m σ
  top : Ahead d done σ (start items) w
  lower : ∀ s ∈ lower items, Ahead d done σ s.1 s.2
  forked : Forked d items
  creators : ∀ fork, Item.future fork ∈ items → σ.attached fork = true
  done : ∀ x, done x → σ.attached x = true ∧ ∀ u, answering σ u = some (σ.find x) → d.Reach isDep u x

/-- Of an attached segment only the start has to be known. -/
theorem Rooted.of_attached {a e : Nat} (hatt : σ.attached a = true) (hstart : d.Reach isDep a (σ.find a)) :
    Rooted d σ a e := by
  refine ⟨hstart, fun hfree => ?_, fun hfree => ?_⟩
  · rw [hatt] at hfree
    cases hfree
  · rw [hatt] at hfree
    cases hfree

/-- Strands of the set that a segment goes on in come before its end. -/
theorem Ahead.reach {a e : Nat} (h : Ahead d done σ a e) {u : Nat} (hu : σ.find u = σ.find e) : d.Reach isDep u e :=
  h.before u (Or.inl hu)

/-- The attached predecessor of a segment that is not attached: what it answers for comes before the end. -/
theorem Ahead.pred_end {a e : Nat} (h : Ahead d done σ a e) (hseg : Seg σ a e) {p : Nat}
    (hp : (σ.setOf e).attPred = some p) {u : Nat} (hu : answering σ u = some p) : d.Reach isDep u e := by
  cases hatt : σ.attached a with
  | true =>
      obtain ⟨-, hself⟩ := hseg.held hatt
      obtain rfl : σ.find e = p := Option.some.inj (hself.symm.trans hp)
      exact h.before u (Or.inr hu)
  | false =>
      have hfind := (hseg.free hatt).1
      have hpa : (σ.setOf a).attPred = some p := by
        unfold State.setOf at hp ⊢
        rw [← hfind]
        exact hp
      exact (h.pred hatt p hpa u hu).trans (h.reach hfind.symm)

/-! ## Changes further up

An event works at the top of the stack. This section is why that leaves the segments below alone: what they say is
about nodes below their end, and about which strands stand for their sets, and neither changes if the event is
`Beyond` their end. -/

/-- Nothing below `n` changes, and no strand comes to stand for a set below `n`. -/
structure Beyond (n : Nat) (σ σ' : State) : Prop extends Agree n σ σ' where
  moved : ∀ u, σ'.find u = σ.find u ∨ n ≤ σ'.find u
  answers : ∀ u x, answering σ' u = some x → answering σ u = some x ∨ n ≤ x

/-- Fewer nodes are left alone. -/
theorem Beyond.mono {n k : Nat} (h : Beyond n σ σ') (hk : k ≤ n) : Beyond k σ σ' where
  toAgree := h.toAgree.mono hk
  moved u := (h.moved u).imp_right (Nat.le_trans hk)
  answers u x hu := (h.answers u x hu).imp_right (Nat.le_trans hk)

/-- The set of the first node stays as it was. -/
theorem Rooted.congr {n a e : Nat} (h : Rooted d σ a e) (hb : Beyond n σ σ') (hok : NodesOk σ) (hwf : d.WF)
    (hlow : ∀ z, z < n → σ.find z < n) (hae : a ≤ e) (he : e < n)
    (hd : ∀ u y, d.Reach isDep u y → d'.Reach isDep u y) : Rooted d' σ' a e := by
  have ha : a < n := Nat.lt_of_le_of_lt hae he
  have hfa := hlow a ha
  have hatt : σ'.attached a = σ.attached a := hb.attached ha hfa
  refine ⟨?_, ?_, ?_⟩
  · rw [hb.find a ha]
    exact hd _ _ h.start
  · intro hfree p hp u hu
    rw [hatt] at hfree
    rw [hb.setOf ha hfa] at hp
    -- the predecessor itself comes before the segment
    have hpa : p ≤ a := (h.pred hfree p hp p (answering_self hok (hok.pred _ p hp))).le hwf
    rcases hb.answers u p hu with hold | hnew
    · exact hd _ _ (h.pred hfree p hp u hold)
    · omega
  · intro hfree z hza hze
    rw [hatt] at hfree
    rw [hb.find z (by omega), hb.find a ha]
    exact h.whole hfree z hza hze

/-- **A segment below stays ahead.** -/
theorem Ahead.congr {n a e : Nat} (h : Ahead d done σ a e) (hb : Beyond n σ σ') (hok : NodesOk σ) (hwf : d.WF)
    (hlow : ∀ z, z < n → σ.find z < n) (hae : a ≤ e) (he : e < n)
    (hd : ∀ u y, d.Reach isDep u y → d'.Reach isDep u y) (hdone : ∀ x, done' x → done x ∨ n ≤ σ'.find x) :
    Ahead d' done' σ' a e := by
  have ha : a < n := Nat.lt_of_le_of_lt hae he
  have hfa := hlow a ha
  have hfe := hlow e he
  refine ⟨h.toRooted.congr hb hok hwf hlow hae he hd, ?_, ?_⟩
  · intro u hu
    rw [hb.find e he] at hu
    refine hd u e (h.before u ?_)
    rcases hu with hu | hu
    · rcases hb.moved u with hold | hnew
      · exact Or.inl (hold.symm.trans hu)
      · omega
    · rcases hb.answers u _ hu with hold | hnew
      · exact Or.inr hold
      · omega
  · intro x hx
    rw [hb.find a ha, hb.find e he]
    rcases hdone x hx with hold | hnew
    · obtain ⟨h₁, h₂⟩ := h.apart x hold
      rcases hb.moved x with hsame | hnew
      · rw [hsame]
        exact ⟨h₁, h₂⟩
      · omega
    · omega

/-- All segments below stay ahead. -/
theorem Told.lower_congr {n w : Nat} (h : Told d done m σ items w) (hb : Beyond n σ σ') (hok : NodesOk σ) (hwf : d.WF)
    (hbelow : Below σ items) (hn : n = start items)
    (hd : ∀ u y, d.Reach isDep u y → d'.Reach isDep u y) (hdone : ∀ x, done' x → done x ∨ n ≤ σ'.find x) :
    ∀ s ∈ Nonblock.lower items, Ahead d' done' σ' s.1 s.2 := by
  intro s hs
  obtain ⟨hspan, hlt⟩ := hbelow.lower_span s hs
  subst hn
  exact (h.lower s hs).congr hb hok hwf hbelow.find_lt hspan.le hlt hd hdone

/-! ## The dag

Facts about the program's dag as it grows. A new strand is the last one, so nothing comes after it, and nothing that
was there gets a path it did not have. A child that has come back stays without successors until its parent syncs. -/

/-- Nothing comes after the last strand. -/
theorem sink_last (hwf : d.WF) {x : Nat} (hx : x + 1 = d.length) (y : Nat) (h : d.Reach isDep x y) : y = x := by
  have hge := h.le hwf
  rcases Relation.ReflTransGen.cases_tail h with rfl | ⟨z, -, hz⟩
  · rfl
  · have hlt := hz.lt_length
    omega

/-- Nothing comes after a strand that the new one does not come after. -/
theorem sink_concat {es : List (InEdge EdgeKind)} {x : Nat} (hsink : ∀ y, d.Reach isDep x y → y = x)
    (hnot : ∀ e ∈ es, isDep e.kind → e.src ≠ x) {y : Nat} (h : Dag.Reach (d ++ [es]) isDep x y) : y = x := by
  induction h with
  | refl => rfl
  | @tail b c hxb hbc ih =>
      subst ih
      rcases Dag.edge_concat.mp hbc with hold | ⟨-, e, he, hsrc, hk⟩
      · exact hsink c (Dag.Reach.of_edge hold)
      · exact absurd hsrc (hnot e he hk)

/-- A child that has come back has a segment. -/
theorem join_mem_lower {fork ljp : Nat} (h : Item.join fork ljp ∈ items) : (fork + 1, ljp) ∈ lower items := by
  induction items with
  | nil => cases h
  | cons item rest ih =>
      rcases List.mem_cons.mp h with rfl | hrest
      · exact List.mem_cons_self
      · cases item with
        | join fork' ljp' => exact List.mem_cons_of_mem _ (List.mem_cons_of_mem _ (ih hrest))
        | child fork' => exact List.mem_cons_of_mem _ (ih hrest)
        | future fork' => exact List.mem_cons_of_mem _ (ih hrest)

/-- So has the creator of a running future. -/
theorem creator_mem_lower {fork : Nat} (h : Item.future fork ∈ items) : ∃ a, (a, fork) ∈ lower items := by
  induction items with
  | nil => cases h
  | cons item rest ih =>
      rcases List.mem_cons.mp h with rfl | hrest
      · exact ⟨start rest, List.mem_cons_self⟩
      · obtain ⟨a, ha⟩ := ih hrest
        refine ⟨a, ?_⟩
        cases item with
        | join fork' ljp' => exact List.mem_cons_of_mem _ (List.mem_cons_of_mem _ ha)
        | child fork' => exact List.mem_cons_of_mem _ ha
        | future fork' => exact List.mem_cons_of_mem _ ha

/-- A new strand that comes after no child that has come back. -/
theorem Forked.concat (hf : Forked d items) {es : List (InEdge EdgeKind)}
    (hnot : ∀ fork ljp, Item.join fork ljp ∈ items → ∀ e ∈ es, isDep e.kind → e.src ≠ ljp) :
    Forked (d ++ [es]) items := by
  induction items with
  | nil => trivial
  | cons item rest ih =>
      have hrest : ∀ fork ljp, Item.join fork ljp ∈ rest → ∀ e ∈ es, isDep e.kind → e.src ≠ ljp :=
        fun fork ljp hmem => hnot fork ljp (List.mem_cons_of_mem _ hmem)
      cases item with
      | join fork ljp =>
          obtain ⟨hleft, hright, hsink, hf⟩ := hf
          exact ⟨hleft.concat es, hright.concat es,
            fun y hy => sink_concat hsink (hnot fork ljp List.mem_cons_self) hy, ih hf hrest⟩
      | child fork => exact ⟨hf.1.concat es, ih hf.2 hrest⟩
      | future fork => exact ih hf hrest

/-- The children that have come back ended before the top segment. -/
theorem Below.join_lt (hb : Below σ items) {fork ljp : Nat} (h : Item.join fork ljp ∈ items) : ljp < start items :=
  (hb.lower_span _ (join_mem_lower h)).2

/-- The creators of the running futures wait before it. -/
theorem Below.creator_lt (hb : Below σ items) {fork : Nat} (h : Item.future fork ∈ items) : fork < start items := by
  obtain ⟨a, ha⟩ := creator_mem_lower h
  exact (hb.lower_span _ ha).2

/-! ## New nodes

A strand that starts has a node of its own, in no set but its own. It stands for nothing older, so nothing that has
been said of older strands can become wrong; what has to be shown is about the new strand alone. -/

section NewNode

variable {n : Node}

/-- Nodes that are not there yet read as before. -/
theorem NewNode.node_gt (h : NewNode σ σ' n) {z : Nat} (hz : σ.nodes.length < z) : σ'.node z = σ.node z := by
  rw [State.node_of_length_le (by rw [h.length]; exact hz), State.node_of_length_le (Nat.le_of_lt hz)]

/-- All other nodes are as they were. -/
theorem NewNode.node_ne (h : NewNode σ σ' n) {z : Nat} (hz : z ≠ σ.nodes.length) : σ'.node z = σ.node z := by
  rcases Nat.lt_or_gt_of_ne hz with hlt | hgt
  · exact h.old z hlt
  · exact h.node_gt hgt

/-- Only the new node is in its set. -/
theorem NewNode.find_ne (hok : NodesOk σ) {z : Nat} (hz : z ≠ σ.nodes.length) : σ.find z ≠ σ.nodes.length := by
  rcases Nat.lt_or_gt_of_ne hz with hlt | hgt
  · exact Nat.ne_of_lt (hok.find_lt hlt)
  · have hout : σ.find z = z := by
      apply UF.rep_of_isRoot
      apply UF.parentOf_of_length_le
      rw [hok.size]
      exact Nat.le_of_lt hgt
    rw [hout]
    exact hz

/-- So is the data of their sets. -/
theorem NewNode.setOf_ne (h : NewNode σ σ' n) (hok : NodesOk σ) {z : Nat} (hz : z ≠ σ.nodes.length) :
    σ'.setOf z = σ.setOf z := by
  unfold State.setOf
  rw [h.find, h.node_ne (find_ne hok hz)]

/-- And what answers for them. -/
theorem NewNode.answering_ne (h : NewNode σ σ' n) (hok : NodesOk σ) {z : Nat} (hz : z ≠ σ.nodes.length) :
    answering σ' z = answering σ z := by
  unfold answering State.attached
  rw [h.setOf_ne hok hz, h.find]

/-- The new node answers for itself, or has nothing behind it yet. -/
theorem NewNode.answering_new (h : NewNode σ σ' n) (hok : NodesOk σ) (hsucc : n.id = 0 → n.attSucc = none) {x : Nat}
    (hx : answering σ' σ.nodes.length = some x) : x = σ.nodes.length ∧ 0 < n.id := by
  have hset := h.setOf_new hok
  cases hatt : σ'.attached σ.nodes.length with
  | true =>
      rw [answering_of_attached hatt, h.find, find_new hok] at hx
      unfold State.attached at hatt
      rw [hset] at hatt
      exact ⟨(Option.some.inj hx).symm, of_decide_eq_true hatt⟩
  | false =>
      rw [answering_of_not hatt, hset] at hx
      unfold State.attached at hatt
      rw [hset] at hatt
      have hid := of_decide_eq_false hatt
      rw [hsucc (by omega)] at hx
      cases hx

/-- A new node changes nothing below it. -/
theorem NewNode.beyond (h : NewNode σ σ' n) (hok : NodesOk σ) (hsucc : n.id = 0 → n.attSucc = none) :
    Beyond σ.nodes.length σ σ' where
  toAgree := h.agree
  moved u := Or.inl (h.find u)
  answers u x hu := by
    by_cases hn : u = σ.nodes.length
    · subst hn
      exact Or.inr (Nat.le_of_eq (h.answering_new hok hsucc hu).1.symm)
    · rw [h.answering_ne hok hn] at hu
      exact Or.inl hu

/-- What the new node stands for. -/
theorem NewNode.stands (h : NewNode σ σ' n) (hok : NodesOk σ) (hs : Sound d m σ) {u : Nat} (hu : Stands σ' u (σ'.find σ.nodes.length)) :
    u = σ.nodes.length := by
  rw [h.find, find_new hok] at hu
  by_contra hne
  rcases hu with hu | hu
  · rw [h.find] at hu
    exact find_ne hok hne hu
  · -- nothing had it as successor
    rw [h.answering_ne hok hne] at hu
    exact absurd (State.lt_of_id (hs.answering_id hu)) (Nat.lt_irrefl _)

/-- A node without an id is nothing to the entries. -/
theorem NewNode.sound (h : NewNode σ σ' n) (hok : NodesOk σ) (hs : Sound d m σ) (hid : n.id = 0)
    (hsucc : n.attSucc = none) : Sound d m σ' := by
  have hdefault : (σ.node σ.nodes.length).id = 0 := by
    rw [State.node_of_length_le (Nat.le_refl _)]
    rfl
  refine hs.sets ?_ ?_ ?_
  · intro x
    by_cases hx : x = σ.nodes.length
    · rw [hx, h.new, hid, hdefault]
    · rw [h.node_ne hx]
  · intro x y _ hy
    by_cases hx : x = σ.nodes.length
    · rw [hx, h.new, hsucc] at hy
      cases hy
    · rw [h.node_ne hx] at hy
      exact Or.inl hy
  · intro u x hu
    by_cases hn : u = σ.nodes.length
    · subst hn
      have hpos := (h.answering_new hok (fun _ => hsucc) hu).2
      omega
    · rw [h.answering_ne hok hn] at hu
      exact Or.inl hu

/-- A node with the next id. -/
theorem NewNode.sound_id (h : NewNode σ σ' n) (hok : NodesOk σ) (hs : Sound d m σ) (hid : n.id = m.data.length) :
    Sound d m.addNode.1 σ' := by
  have hdefault : (σ.node σ.nodes.length).id = 0 := by
    rw [State.node_of_length_le (Nat.le_refl _)]
    rfl
  have hpos : 0 < n.id := by
    have hlt := hs.id_lt 0
    omega
  refine hs.giveId (x := σ.nodes.length) ?_ ?_ hdefault ?_ ?_
  · intro z hz
    rw [h.node_ne hz]
  · rw [h.new, hid]
  · intro z hz
    rw [h.node_ne hz]
  · intro u z hu hz
    by_cases hn : u = σ.nodes.length
    · subst hn
      exact absurd (h.answering_new hok (fun h0 => absurd h0 (Nat.ne_of_gt hpos)) hu).1 hz
    · rw [h.answering_ne hok hn] at hu
      exact hu

/-- The new node is a segment of its own. -/
theorem Ahead.new (h : NewNode σ σ' n) (hok : NodesOk σ) (hs : Sound d m σ) (hsucc : n.id = 0 → n.attSucc = none)
    (hpred : n.id = 0 → ∀ p, n.attPred = some p → ∀ u, answering σ u = some p →
      d'.Reach isDep u σ.nodes.length)
    (hdone : ∀ x, done x → x ≠ σ.nodes.length) : Ahead d' done σ' σ.nodes.length σ.nodes.length := by
  have hroot : σ'.find σ.nodes.length = σ.nodes.length := by rw [h.find, NewNode.find_new hok]
  refine ⟨⟨?_, ?_, ?_⟩, ?_, ?_⟩
  · rw [hroot]
    exact Dag.Reach.refl _
  · intro hatt p hp u hu
    rw [State.not_attached, hroot, h.new] at hatt
    rw [h.setOf_new hok] at hp
    by_cases hn : u = σ.nodes.length
    · subst hn
      have hpos := (h.answering_new hok hsucc hu).2
      omega
    · rw [h.answering_ne hok hn] at hu
      exact hpred hatt p hp u hu
  · intro _ z hza hzw
    rw [Nat.le_antisymm hzw hza]
  · intro u hu
    rw [h.stands hok hs hu]
    exact Dag.Reach.refl _
  · intro x hx
    rw [hroot, h.find]
    exact ⟨NewNode.find_ne hok (hdone x hx), NewNode.find_ne hok (hdone x hx)⟩

/-- An attached segment goes on in a node with an id. -/
theorem Ahead.onward (h : NewNode σ σ' n) (hok : NodesOk σ) (hs : Sound d m σ) {a : Nat}
    (ha : a < σ.nodes.length) (hatt : σ.attached a = true) (hstart : d.Reach isDep a (σ.find a))
    (hd : ∀ u y, d.Reach isDep u y → d'.Reach isDep u y)
    (hapart : ∀ x, done x → σ.find x ≠ σ.find a ∧ x ≠ σ.nodes.length) :
    Ahead d' done σ' a σ.nodes.length := by
  have hroot : σ'.find σ.nodes.length = σ.nodes.length := by rw [h.find, NewNode.find_new hok]
  have hatt' : σ'.attached a = true := by
    rw [h.agree.attached ha (hok.find_lt ha)]
    exact hatt
  refine ⟨Rooted.of_attached hatt' ?_, ?_, ?_⟩
  · rw [h.find]
    exact hd _ _ hstart
  · intro u hu
    rw [h.stands hok hs hu]
    exact Dag.Reach.refl _
  · intro x hx
    obtain ⟨h₁, h₂⟩ := hapart x hx
    rw [hroot, h.find, h.find]
    exact ⟨h₁, NewNode.find_ne hok h₂⟩

end NewNode

/-! ## `attachify`

An unattached set gets an id, and with it an empty row; the edge from its attached predecessor then fills it. From now
on the set answers for itself, where nobody did before. The edge is true because the predecessor answers for strands
before the set only, which `Rooted.pred` says. -/

section Attachify

variable {n p : Nat}

/-- The set of `n` answers for itself now. -/
theorem Attachified.answering (h : Attachified σ σ₁ n) {u x : Nat} (hu : Nonblock.answering σ₁ u = some x) :
    Nonblock.answering σ u = some x ∨ (σ.find u = σ.find n ∧ x = σ.find n) := by
  by_cases hun : σ.find u = σ.find n
  · have hatt : σ₁.attached u = true := by
      rw [← h.attached_self]
      exact State.attached_congr (by rw [h.find, h.find, hun])
    rw [answering_of_attached hatt, h.find, hun] at hu
    exact Or.inr ⟨hun, (Option.some.inj hu).symm⟩
  · have hset : σ₁.setOf u = σ.setOf u := by
      unfold State.setOf
      rw [h.find, h.node _ hun]
    refine Or.inl ?_
    unfold Nonblock.answering State.attached at hu ⊢
    rw [hset, h.find] at hu
    exact hu

/-- What stands for a set after it has been attached did so before. -/
theorem Attachified.stands (h : Attachified σ σ₁ n) {u x : Nat} (hu : Stands σ₁ u x) : Stands σ u x := by
  rcases hu with hu | hu
  · rw [h.find] at hu
    exact Or.inl hu
  · rcases h.answering hu with hold | ⟨hun, rfl⟩
    · exact Or.inr hold
    · exact Or.inl hun

/-- **`attachify` is sound** when the attached predecessor answers only for what comes before the set. -/
theorem Sound.attachify (hs : Sound d m σ) (hok : NodesOk σ) (hok₁ : NodesOk σ₁) (hsize : m₁.data.length ≤ 2 ^ 64)
    (hm : m.data.length = σ.mR.data.length) (h : Attachified σ σ₁ n) (hp : (σ.setOf n).attPred = some p)
    (hrun : (attachOps σ n p).foldlM General.step m = some m₁)
    (hpred : σ.attached n = false → ∀ u, answering σ u = some p → d.Reach isDep u (σ.find n)) :
    Sound d m₁ σ₁ := by
  cases hatt : σ.attached n with
  | true =>
      rw [attachOps, if_pos hatt] at hrun
      obtain rfl : m = m₁ := Option.some.inj hrun
      rw [h.old hatt]
      exact hs
  | false =>
      have hid : (σ.node (σ.find n)).id = 0 := State.not_attached.mp hatt
      have hpid : 0 < (σ.node p).id := hok.pred _ p hp
      have hpn : p ≠ σ.find n := by
        rintro rfl
        omega
      rw [attachOps, if_neg (by simp [hatt]), List.foldlM_cons] at hrun
      obtain ⟨m₂, hadd, hrun⟩ := Option.bind_eq_some_iff.mp hrun
      obtain rfl : m.addNode.1 = m₂ := Option.some.inj hadd
      rw [List.foldlM_cons] at hrun
      obtain ⟨m₃, hedge, hrun⟩ := Option.bind_eq_some_iff.mp hrun
      obtain rfl : m₃ = m₁ := Option.some.inj hrun
      have hnew : (σ₁.node (σ.find n)).id = m.data.length := by rw [h.newId hatt, hm]
      have hs₁ : Sound d m.addNode.1 σ₁ := by
        -- the successor it gets is of no matter, the set answers for itself
        refine hs.giveId ?_ hnew hid ?_ ?_
        · intro z hz
          rw [h.node z hz]
        · intro z hz
          rw [h.node z hz]
        · intro u z hu hz
          rcases h.answering hu with hold | ⟨-, rfl⟩
          · exact hold
          · exact absurd rfl hz
      have hset : (σ.setOf p).id = (σ₁.node p).id := by
        rw [h.node p hpn]
        unfold State.setOf
        rw [hok.root p hpid]
      refine hs₁.addEdge hok₁ (General.length_addEdge hedge ▸ hsize) (x := p) (y := σ.find n) ?_ ?_ ?_
      · rw [h.node p hpn]
        exact hpid
      · rw [← hset, h.newId hatt]
        exact hedge
      · intro u hu
        rcases h.answering hu with hold | ⟨-, rfl⟩
        · exact hpred hatt u hold
        · exact absurd rfl hpn

/-- The segment whose end has been attached. -/
theorem Ahead.attachify {a e : Nat} (ha : Ahead d done σ a e) (h : Attachified σ σ₁ e)
    (hatt : σ₁.attached a = true) : Ahead d done σ₁ a e := by
  refine ⟨Rooted.of_attached hatt ?_, ?_, ?_⟩
  · rw [h.find]
    exact ha.start
  · intro u hu
    rw [h.find] at hu
    exact ha.before u (h.stands hu)
  · intro x hx
    rw [h.find, h.find, h.find]
    exact ha.apart x hx

/-- Attaching a set changes answers about this set only. -/
theorem Attachified.beyond {a : Nat} (h : Attachified σ σ₁ n) (ha : a ≤ σ.find n) : Beyond a σ σ₁ where
  find z _ := h.find z
  node z hz := h.node z (by omega)
  moved u := Or.inl (h.find u)
  answers u x hu := by
    rcases h.answering hu with hold | ⟨-, rfl⟩
    · exact Or.inl hold
    · exact Or.inr ha

/-- **The running strand is attached.** -/
theorem Told.attachify (ht : Told d done m σ items σ.tCurrent) (hwf : d.WF) (hok : NodesOk σ) (hok₁ : NodesOk σ₁)
    (hsize : m₁.data.length ≤ 2 ^ 64) (hm : m.data.length = σ.mR.data.length) (hl : Live σ items σ.tCurrent)
    (h : Attachified σ σ₁ σ.tCurrent) (hp : (σ.setOf σ.tCurrent).attPred = some p)
    (hrun : (attachOps σ σ.tCurrent p).foldlM General.step m = some m₁) :
    Told d done m₁ σ₁ items σ.tCurrent := by
  have hseg := hl.seg
  obtain ⟨hstart, -, -⟩ := hl.attachify h
  have hin := hseg.within _ hseg.le (Nat.le_refl _)
  refine ⟨?_, ht.top.attachify h hstart, ?_, ht.forked, fun fork hmem => h.attached (ht.creators fork hmem), ?_⟩
  · refine ht.sound.attachify hok hok₁ hsize hm h hp hrun ?_
    intro hatt u hu
    have ha : σ.attached (start items) = false := by
      cases ha : σ.attached (start items) with
      | false => rfl
      | true =>
          rw [(hseg.held ha).1] at hatt
          cases hatt
    have hfind := (hseg.free ha).1
    have hpa : (σ.setOf (start items)).attPred = some p := by
      unfold State.setOf at hp ⊢
      rw [← hfind]
      exact hp
    rw [hfind]
    exact (ht.top.pred ha p hpa u hu).trans ht.top.start
  · exact ht.lower_congr (h.beyond hin.1) hok hwf hl.below rfl (fun _ _ h => h) (fun x hx => Or.inl hx)
  · intro x hx
    obtain ⟨hatt, hbefore⟩ := ht.done x hx
    refine ⟨h.attached hatt, ?_⟩
    intro u hu
    rw [h.find] at hu
    rcases h.answering hu with hold | ⟨-, hxn⟩
    · exact hbefore u hold
    · exact absurd hxn (ht.top.apart x hx).2

end Attachify

/-! ## Events that end no block

Each event in turn, for the sets and the dag. The dag gets one strand with the edges that the event says, so `Told` is
claimed for `d.concat` with these edges; the frames and futures of the program come in only in `NonblockSoundRuns`. -/

section Events

variable {n : Node} {w : Nat}

/-- What answers with an old set did so before. -/
theorem NewNode.answering_old (h : NewNode σ σ' n) (hok : NodesOk σ) (hsucc : n.id = 0 → n.attSucc = none) {u x : Nat}
    (hx : x ≠ σ.nodes.length) (hu : answering σ' u = some x) : answering σ u = some x := by
  by_cases hn : u = σ.nodes.length
  · subst hn
    exact absurd (h.answering_new hok hsucc hu).1 hx
  · rw [h.answering_ne hok hn] at hu
    exact hu

/-- **An edge to the new node** from an attached set that answers only for what comes before it. -/
theorem NewNode.sound_edge (h : NewNode σ σ' n) (hok : NodesOk σ) (hok' : NodesOk σ') (hs : Sound d m σ')
    (hsize : m.data.length ≤ 2 ^ 64) (hid : 0 < n.id) {e : Nat} (he : e < σ.nodes.length)
    (hatt : σ.attached e = true) (hrun : m.addEdge (σ.setOf e).id n.id = some m')
    (hbefore : ∀ u, answering σ u = some (σ.find e) → d.Reach isDep u σ.nodes.length) : Sound d m' σ' := by
  have hfe := hok.find_lt he
  have hnode : σ'.node (σ.find e) = σ.setOf e := h.old _ hfe
  refine hs.addEdge hok' hsize (x := σ.find e) (y := σ.nodes.length) ?_ ?_ ?_
  · rw [hnode]
    exact State.attached_iff.mp hatt
  · rw [hnode, h.new]
    exact hrun
  · intro u hu
    exact hbefore u (h.answering_old hok (fun h0 => absurd h0 (Nat.ne_of_gt hid)) (Nat.ne_of_lt hfe) hu)

/-- All open segments are further down now. -/
theorem Told.lower_new (ht : Told d done m σ items w) (h : NewNode σ σ' n) (hok : NodesOk σ) (hwf : d.WF)
    (hsucc : n.id = 0 → n.attSucc = none) (hle : start items ≤ w) (hbelow : Below σ items) (hw : w < σ.nodes.length)
    (hd : ∀ u y, d.Reach isDep u y → d'.Reach isDep u y)
    (hdone : ∀ x, done' x → done x ∨ σ.nodes.length ≤ σ'.find x) :
    ∀ s ∈ (start items, w) :: Nonblock.lower items, Ahead d' done' σ' s.1 s.2 := by
  have hb := h.beyond hok hsucc
  intro s hs
  rcases List.mem_cons.mp hs with rfl | hs
  · exact ht.top.congr hb hok hwf (fun z hz => hok.find_lt hz) hle hw hd hdone
  · obtain ⟨hspan, hlt⟩ := hbelow.lower_span s hs
    exact (ht.lower s hs).congr hb hok hwf (fun z hz => hok.find_lt hz) hspan.le (by omega) hd hdone

/-- What is attached stays attached. -/
theorem NewNode.attached_kept (h : NewNode σ σ' n) {x : Nat} (hatt : σ.attached x = true) : σ'.attached x = true := by
  have hroot : σ.find x < σ.nodes.length := State.lt_of_id (State.attached_iff.mp hatt)
  rw [State.attached_iff, h.find, h.old _ hroot]
  exact State.attached_iff.mp hatt

/-- A finished future is as it was. -/
theorem NewNode.done_kept (h : NewNode σ σ' n) (hok : NodesOk σ) (hsucc : n.id = 0 → n.attSucc = none) {x : Nat}
    (hatt : σ.attached x = true) (hx : ∀ u, answering σ u = some (σ.find x) → d.Reach isDep u x) :
    σ'.attached x = true ∧ ∀ u, answering σ' u = some (σ'.find x) → d.Reach isDep u x := by
  have hroot : σ.find x < σ.nodes.length := State.lt_of_id (State.attached_iff.mp hatt)
  refine ⟨h.attached_kept hatt, ?_⟩
  intro u hu
  rw [h.find] at hu
  exact hx u (h.answering_old hok hsucc (Nat.ne_of_lt hroot) hu)

/-- An attached node is there. -/
theorem NodesOk.lt_of_attached (hok : NodesOk σ) {x : Nat} (hx : σ.attached x = true) : x < σ.nodes.length := by
  by_contra hge
  have hout : σ.find x = x := by
    apply UF.rep_of_isRoot
    apply UF.parentOf_of_length_le
    rw [hok.size]
    exact Nat.le_of_not_lt hge
  rw [State.attached_iff, hout] at hx
  exact hge (State.lt_of_id hx)

/-- What only comes after `w` comes after no child that came back before. -/
theorem Below.not_join (hb : Below σ items) (hw : start items ≤ w) : ∀ fork ljp, Item.join fork ljp ∈ items →
    ∀ e ∈ [(⟨w, .sp⟩ : InEdge EdgeKind)], isDep e.kind → e.src ≠ ljp := by
  intro fork ljp hmem e he _
  have hlt := hb.join_lt hmem
  rw [List.mem_singleton.mp he]
  exact Nat.ne_of_gt (Nat.lt_of_lt_of_le hlt hw)

/-- **A spawn.** The child is a new segment, whose attached predecessor is that of the fork; what it answers for
    comes before the fork, and so before the child. -/
theorem Told.spawn {bag : Option Nat} (ht : Told d done m σ items σ.tCurrent) (hwf : d.WF) (hok : NodesOk σ)
    (hl : Live σ items σ.tCurrent) (hcur : σ.tCurrent + 1 = σ.nodes.length) (hlen : d.length = σ.nodes.length)
    (h : NewNode σ σ' ⟨(σ.setOf σ.tCurrent).attPred, none, 0, bag⟩) :
    Told (d ++ [[⟨σ.tCurrent, .sp⟩]]) done m σ' (.child σ.tCurrent :: items) σ.nodes.length := by
  have hlt : σ.tCurrent < σ.nodes.length := hcur ▸ Nat.lt_succ_self _
  have hedge : Dag.Reach (d ++ [[⟨σ.tCurrent, .sp⟩]]) isDep σ.tCurrent σ.nodes.length := by
    rw [← hlen]
    exact Dag.reach_new_of_edge (List.mem_singleton.mpr rfl) (isDep_of_isSp _ rfl)
  have hgrow : ∀ u y, d.Reach isDep u y → Dag.Reach (d ++ [[⟨σ.tCurrent, .sp⟩]]) isDep u y := fun _ _ h => h.concat _
  have hstart : start (.child σ.tCurrent :: items) = σ.nodes.length := hcur
  have hsound : Sound (d ++ [[⟨σ.tCurrent, .sp⟩]]) m σ := ht.sound.grow hgrow
  refine ⟨h.sound hok hsound rfl rfl, ?_, ?_, ⟨?_, ht.forked.concat ?_⟩, ?_, ?_⟩
  · rw [hstart]
    refine Ahead.new h hok hsound (fun _ => rfl) ?_ ?_
    · intro _ p hp u hu
      exact (hgrow _ _ (ht.top.pred_end hl.seg hp hu)).trans hedge
    · intro x hx
      exact Nat.ne_of_lt (hok.lt_of_attached (ht.done x hx).1)
  · exact ht.lower_new h hok hwf (fun _ => rfl) hl.seg.le hl.below hlt hgrow (fun x hx => Or.inl hx)
  · rw [hcur]
    exact hedge
  · exact hl.below.not_join hl.seg.le
  · intro fork hmem
    exact h.attached_kept (ht.creators fork ((List.mem_cons.mp hmem).resolve_left (fun h => nomatch h)))
  · intro x hx
    obtain ⟨hatt, hbefore⟩ := ht.done x hx
    exact h.done_kept hok (fun _ => rfl) hatt (fun u hu => hgrow u x (hbefore u hu))

/-- **A child comes back.** The continuation is a new segment, behind the same fork. The segment of the child has
    ended: nothing comes after it until the sync. -/
theorem Told.joined {fork : Nat} {bag : Option Nat} (ht : Told d done m σ (.child fork :: items) σ.tCurrent)
    (hwf : d.WF) (hok : NodesOk σ) (hl : Live σ (.child fork :: items) σ.tCurrent)
    (hcur : σ.tCurrent + 1 = σ.nodes.length) (hlen : d.length = σ.nodes.length)
    (h : NewNode σ σ' ⟨(σ.setOf fork).attPred, none, 0, bag⟩) :
    Told (d ++ [[⟨fork, .sp⟩]]) done m σ' (.join fork σ.tCurrent :: items) σ.nodes.length := by
  have hlt : σ.tCurrent < σ.nodes.length := hcur ▸ Nat.lt_succ_self _
  obtain ⟨-, hseg, hbelow⟩ := hl.below
  have hle : fork + 1 ≤ σ.tCurrent := hl.seg.le
  have hle' : start items ≤ fork := hseg.le
  have hedge : Dag.Reach (d ++ [[⟨fork, .sp⟩]]) isDep fork σ.nodes.length := by
    rw [← hlen]
    exact Dag.reach_new_of_edge (List.mem_singleton.mpr rfl) (isDep_of_isSp _ rfl)
  have hgrow : ∀ u y, d.Reach isDep u y → Dag.Reach (d ++ [[⟨fork, .sp⟩]]) isDep u y := fun _ _ h => h.concat _
  have hstart : start (.join fork σ.tCurrent :: items) = σ.nodes.length := hcur
  have hsound : Sound (d ++ [[⟨fork, .sp⟩]]) m σ := ht.sound.grow hgrow
  have hlower := ht.lower_new h hok hwf (fun _ => rfl) hl.seg.le hl.below hlt hgrow (fun x hx => Or.inl hx)
  refine ⟨h.sound hok hsound rfl rfl, ?_, hlower, ⟨ht.forked.1.concat _, ?_, ?_, ht.forked.2.concat ?_⟩, ?_, ?_⟩
  · rw [hstart]
    refine Ahead.new h hok hsound (fun _ => rfl) ?_ ?_
    · intro _ p hp u hu
      have hfork := ht.lower (start items, fork) List.mem_cons_self
      exact (hgrow _ _ (hfork.pred_end hseg hp hu)).trans hedge
    · intro x hx
      exact Nat.ne_of_lt (hok.lt_of_attached (ht.done x hx).1)
  · rw [hcur]
    exact hedge
  · -- the child was the running strand, nothing came after it
    intro y hy
    refine sink_concat (sink_last hwf (by omega)) (fun e he _ => ?_) hy
    rw [List.mem_singleton.mp he]
    exact Nat.ne_of_lt hle
  · exact hbelow.not_join hle'
  · intro fork' hmem
    have hrest := (List.mem_cons.mp hmem).resolve_left (fun h => nomatch h)
    exact h.attached_kept (ht.creators fork' (List.mem_cons_of_mem _ hrest))
  · intro x hx
    obtain ⟨hatt, hbefore⟩ := ht.done x hx
    exact h.done_kept hok (fun _ => rfl) hatt (fun u hu => hgrow u x (hbefore u hu))

/-- **A create**, after the running strand has been attached. -/
theorem Told.create {id : Nat} {bag : Option Nat} (ht : Told d done m σ items σ.tCurrent) (hwf : d.WF)
    (hok : NodesOk σ) (hok' : NodesOk σ') (hsize : m.data.length < 2 ^ 64) (hspan : Span σ (start items) σ.tCurrent)
    (hbelow : Below σ items) (hatt : σ.attached σ.tCurrent = true) (hcur : σ.tCurrent + 1 = σ.nodes.length)
    (hlen : d.length = σ.nodes.length) (hid : id = m.data.length)
    (h : NewNode σ σ' ⟨some σ.nodes.length, some σ.nodes.length, id, bag⟩)
    (hrun : m.addNode.1.addEdge (σ.setOf σ.tCurrent).id id = some m') :
    Told (d ++ [[⟨σ.tCurrent, .sp⟩]]) done m' σ' (.future σ.tCurrent :: items) σ.nodes.length := by
  have hlt : σ.tCurrent < σ.nodes.length := hcur ▸ Nat.lt_succ_self _
  have hpos : 0 < id := hid ▸ ht.sound.length_pos
  have hsucc : id = 0 → some σ.nodes.length = none := fun h0 => absurd h0 (Nat.ne_of_gt hpos)
  have hsize' : m.addNode.1.data.length ≤ 2 ^ 64 := General.length_addNode ▸ hsize
  have hedge : Dag.Reach (d ++ [[⟨σ.tCurrent, .sp⟩]]) isDep σ.tCurrent σ.nodes.length := by
    rw [← hlen]
    exact Dag.reach_new_of_edge (List.mem_singleton.mpr rfl) (isDep_of_isSp _ rfl)
  have hgrow : ∀ u y, d.Reach isDep u y → Dag.Reach (d ++ [[⟨σ.tCurrent, .sp⟩]]) isDep u y := fun _ _ h => h.concat _
  have hsound : Sound (d ++ [[⟨σ.tCurrent, .sp⟩]]) m σ := ht.sound.grow hgrow
  refine ⟨?_, ?_, ?_, ht.forked.concat (hbelow.not_join hspan.le), ?_, ?_⟩
  · refine h.sound_edge hok hok' (h.sound_id hok hsound hid) hsize' hpos hlt hatt hrun ?_
    intro u hu
    exact (hgrow _ _ (ht.top.before u (Or.inr hu))).trans hedge
  · rw [show start (.future σ.tCurrent :: items) = σ.nodes.length from hcur]
    refine Ahead.new h hok hsound hsucc (fun h0 => absurd h0 (Nat.ne_of_gt hpos)) ?_
    intro x hx
    exact Nat.ne_of_lt (hok.lt_of_attached (ht.done x hx).1)
  · exact ht.lower_new h hok hwf hsucc hspan.le hbelow hlt hgrow (fun x hx => Or.inl hx)
  · intro fork hmem
    rcases List.mem_cons.mp hmem with heq | hmem
    · obtain rfl : fork = σ.tCurrent := Item.future.inj heq
      exact h.attached_kept hatt
    · exact h.attached_kept (ht.creators fork hmem)
  · intro x hx
    obtain ⟨hxatt, hbefore⟩ := ht.done x hx
    exact h.done_kept hok hsucc hxatt (fun u hu => hgrow u x (hbefore u hu))

/-- **A finish**: the continuation comes after the fork, the future that ends is one more. -/
theorem Told.finish {fork id : Nat} {bag : Option Nat} (ht : Told d done m σ (.future fork :: items) σ.tCurrent)
    (hwf : d.WF) (hok : NodesOk σ) (hok' : NodesOk σ') (hsize : m.data.length < 2 ^ 64)
    (hl : Live σ (.future fork :: items) σ.tCurrent) (hcur : σ.tCurrent + 1 = σ.nodes.length)
    (hlen : d.length = σ.nodes.length) (hid : id = m.data.length)
    (h : NewNode σ σ' ⟨some σ.nodes.length, some σ.nodes.length, id, bag⟩)
    (hrun : m.addNode.1.addEdge (σ.setOf fork).id id = some m')
    (hdone : ∀ x, done' x → done x ∨ x = σ.tCurrent) :
    Told (d ++ [[⟨fork, .sp⟩]]) done' m' σ' items σ.nodes.length := by
  have hlt : σ.tCurrent < σ.nodes.length := hcur ▸ Nat.lt_succ_self _
  obtain ⟨hstart, hspan, hbelow⟩ := hl.below
  have hle : fork + 1 ≤ σ.tCurrent := hl.seg.le
  have hle' : start items ≤ fork := hspan.le
  have hcuratt : σ.attached σ.tCurrent = true := (hl.seg.held hl.starts).1
  have hcurfind : fork + 1 ≤ σ.find σ.tCurrent := (hl.seg.within _ hl.seg.le (Nat.le_refl _)).1
  have hstartfind : σ.find (start items) ≤ fork := (hspan.within _ (Nat.le_refl _) hle').2
  have hforkatt := ht.creators fork List.mem_cons_self
  have hfork := ht.lower (start items, fork) List.mem_cons_self
  have hpos : 0 < id := hid ▸ ht.sound.length_pos
  have hsucc : id = 0 → some σ.nodes.length = none := fun h0 => absurd h0 (Nat.ne_of_gt hpos)
  have hsize' : m.addNode.1.data.length ≤ 2 ^ 64 := General.length_addNode ▸ hsize
  have hedge : Dag.Reach (d ++ [[⟨fork, .sp⟩]]) isDep fork σ.nodes.length := by
    rw [← hlen]
    exact Dag.reach_new_of_edge (List.mem_singleton.mpr rfl) (isDep_of_isSp _ rfl)
  have hgrow : ∀ u y, d.Reach isDep u y → Dag.Reach (d ++ [[⟨fork, .sp⟩]]) isDep u y := fun _ _ h => h.concat _
  have hsound : Sound (d ++ [[⟨fork, .sp⟩]]) m σ := ht.sound.grow hgrow
  have hforked : Forked d items := ht.forked
  refine ⟨?_, ?_, ?_, hforked.concat (hbelow.not_join hle'), ?_, ?_⟩
  · refine h.sound_edge hok hok' (h.sound_id hok hsound hid) hsize' hpos (show fork < _ by omega) hforkatt hrun ?_
    intro u hu
    exact (hgrow _ _ (hfork.before u (Or.inr hu))).trans hedge
  · refine Ahead.onward h hok hsound (by omega) hstart (hgrow _ _ hfork.start) (fun _ _ h => h) ?_
    intro x hx
    rcases hdone x hx with hx | rfl
    · exact ⟨(hfork.apart x hx).1, Nat.ne_of_lt (hok.lt_of_attached (ht.done x hx).1)⟩
    · exact ⟨by omega, Nat.ne_of_lt hlt⟩
  · intro s hs
    have hb := (h.beyond hok hsucc).mono (show fork + 1 ≤ σ.nodes.length by omega)
    refine ht.lower_congr hb hok hwf hl.below rfl hgrow ?_ s (List.mem_cons_of_mem _ hs)
    intro x hx
    rcases hdone x hx with hx | rfl
    · exact Or.inl hx
    · rw [h.find]
      exact Or.inr hcurfind
  · intro fork' hmem
    exact h.attached_kept (ht.creators fork' (List.mem_cons_of_mem _ hmem))
  · intro x hx
    rcases hdone x hx with hx | rfl
    · obtain ⟨hxatt, hbefore⟩ := ht.done x hx
      exact h.done_kept hok hsucc hxatt (fun u hu => hgrow u x (hbefore u hu))
    · exact h.done_kept hok hsucc hcuratt (fun u hu => hgrow u _ (ht.top.before u (Or.inr hu)))

/-- **A get**, after the running strand has been attached. -/
theorem Told.get {last id : Nat} {bag : Option Nat} {m₂ : General} (ht : Told d done m σ items σ.tCurrent)
    (hwf : d.WF) (hok : NodesOk σ) (hok' : NodesOk σ') (hsize : m.data.length < 2 ^ 64)
    (hspan : Span σ (start items) σ.tCurrent) (hbelow : Below σ items) (hstart : σ.attached (start items) = true)
    (hatt : σ.attached σ.tCurrent = true) (hcur : σ.tCurrent + 1 = σ.nodes.length) (hlen : d.length = σ.nodes.length)
    (hid : id = m.data.length) (hlast : done last)
    (h : NewNode σ σ' ⟨some σ.nodes.length, some σ.nodes.length, id, bag⟩)
    (hrun : m.addNode.1.addEdge (σ.setOf σ.tCurrent).id id = some m₂) (hrun₂ : m₂.addEdge (σ.setOf last).id id = some m') :
    Told (d ++ [[⟨σ.tCurrent, .sp⟩, ⟨last, .get⟩]]) done m' σ' items σ.nodes.length := by
  have hlt : σ.tCurrent < σ.nodes.length := hcur ▸ Nat.lt_succ_self _
  obtain ⟨hlastatt, hlastbefore⟩ := ht.done last hlast
  have hpos : 0 < id := hid ▸ ht.sound.length_pos
  have hsucc : id = 0 → some σ.nodes.length = none := fun h0 => absurd h0 (Nat.ne_of_gt hpos)
  have hsize' : m.addNode.1.data.length ≤ 2 ^ 64 := General.length_addNode ▸ hsize
  have hedge : Dag.Reach (d ++ [[⟨σ.tCurrent, .sp⟩, ⟨last, .get⟩]]) isDep σ.tCurrent σ.nodes.length := by
    rw [← hlen]
    exact Dag.reach_new_of_edge List.mem_cons_self (isDep_of_isSp _ rfl)
  have hget : Dag.Reach (d ++ [[⟨σ.tCurrent, .sp⟩, ⟨last, .get⟩]]) isDep last σ.nodes.length := by
    rw [← hlen]
    exact Dag.reach_new_of_edge (e := ⟨last, .get⟩) (by simp) (by simp [isDep])
  have hgrow : ∀ u y, d.Reach isDep u y → Dag.Reach (d ++ [[⟨σ.tCurrent, .sp⟩, ⟨last, .get⟩]]) isDep u y :=
    fun _ _ h => h.concat _
  have hsound : Sound (d ++ [[⟨σ.tCurrent, .sp⟩, ⟨last, .get⟩]]) m σ := ht.sound.grow hgrow
  have hfirst : Sound (d ++ [[⟨σ.tCurrent, .sp⟩, ⟨last, .get⟩]]) m₂ σ' := by
    refine h.sound_edge hok hok' (h.sound_id hok hsound hid) hsize' hpos hlt hatt hrun ?_
    intro u hu
    exact (hgrow _ _ (ht.top.before u (Or.inr hu))).trans hedge
  refine ⟨?_, ?_, ?_, ht.forked.concat ?_, ?_, ?_⟩
  · refine h.sound_edge hok hok' hfirst ?_ hpos (hok.lt_of_attached hlastatt) hlastatt hrun₂ ?_
    · rw [General.length_addEdge hrun]
      exact hsize'
    · intro u hu
      exact (hgrow _ _ (hlastbefore u hu)).trans hget
  · refine Ahead.onward h hok hsound (Nat.lt_of_le_of_lt hspan.le hlt) hstart (hgrow _ _ ht.top.start)
      (fun _ _ h => h) ?_
    intro x hx
    exact ⟨(ht.top.apart x hx).1, Nat.ne_of_lt (hok.lt_of_attached (ht.done x hx).1)⟩
  · intro s hs
    exact ht.lower_new h hok hwf hsucc hspan.le hbelow hlt hgrow (fun x hx => Or.inl hx) s (List.mem_cons_of_mem _ hs)
  · intro fork ljp hmem e he hk
    have hjoin := hbelow.join_lt hmem
    have hle := hspan.le
    simp only [List.mem_cons, List.not_mem_nil, or_false] at he
    rcases he with rfl | rfl
    · exact Nat.ne_of_gt (show ljp < σ.tCurrent by omega)
    · -- a finished future is no child that has come back
      rintro rfl
      exact (ht.lower _ (join_mem_lower hmem)).apart last hlast |>.2 rfl
  · intro fork hmem
    exact h.attached_kept (ht.creators fork hmem)
  · intro x hx
    obtain ⟨hxatt, hbefore⟩ := ht.done x hx
    exact h.done_kept hok hsucc hxatt (fun u hu => hgrow u x (hbefore u hu))

end Events

end FOrder.Futurerd.Nonblock
