import FOrder.Lib.TwoOrders
import FOrder.Rdtool.ShadowStack

/-!
# `Rdtool.OrderOk` — what the two orders say, and how an insert keeps it

Some nodes have been current at some strand, the others are **pending**: the continuations and syncs that the frames
on the stack have ready, in the order of the stack. `OrderOk` says that the two orders agree with a relation `reach`
on the strands so far, and where the pending nodes lie. Its lemmas are the four things that happen to the orders: a
spawn group is opened, a strand forks, the next pending node is run, and a strand starts at the node of the one
before it.

Nothing here knows frames or a dag. A pending node is told by which strands are before it (`pre`) and by whether it
is a sync; a sync comes after all that is above it on the stack, a continuation is parallel to it (`Above`). With
that, running the next pending node needs no change of the orders at all: its place was right when it was inserted,
and what has to be seen is that it still is, after everything that has been inserted since. All inserts are next to
the current node, and by `Lib.TwoOrders` such an insert moves no others.
-/

namespace FOrder.Rdtool

open Serial (Strand)

/-- `n` is before `m` in both orders. -/
def Orders.both (o : Orders) : OmNode → OmNode → Prop := Both o.english o.hebrew

/-- The orders have the same nodes, once each: those below `fresh`. -/
structure Orders.WF (o : Orders) : Prop where
  twin : Twin o.english o.hebrew
  mem : ∀ n, n ∈ o.english ↔ n < o.fresh

/-- A node that is placed but not run yet; `pre` are the strands before it. -/
structure Pending where
  node : OmNode
  sync : Bool
  pre : Strand → Prop

/-- A pending node `q` lower on the stack: a sync comes after `p`, a continuation is parallel to it. -/
def Above (o : Orders) (p : OmNode) (q : Pending) : Prop :=
  p ≠ q.node ∧ (o.both p q.node ↔ q.sync = true) ∧ ¬o.both q.node p

/-- `nodes` are the nodes of the strands, `c` the current one. -/
structure OrderOk (o : Orders) (nodes : List OmNode) (reach : Strand → Strand → Prop) (c : OmNode)
    (pending : List Pending) : Prop where
  wf : o.WF
  lt : ∀ {x n : Nat}, nodes[x]? = some n → n < o.fresh
  exec : ∀ {x y n m : Nat}, nodes[x]? = some n → nodes[y]? = some m → (o.both n m ↔ reach x y ∧ n ≠ m)
  same : ∀ {x y n : Nat}, nodes[x]? = some n → nodes[y]? = some n → x ≤ y → reach x y
  pendingLt : ∀ q ∈ pending, q.node < o.fresh
  before : ∀ q ∈ pending, ∀ {x n : Nat}, nodes[x]? = some n →
    n ≠ q.node ∧ (o.both n q.node ↔ q.pre x) ∧ ¬o.both q.node n
  current : ∀ q ∈ pending, Above o c q
  order : pending.Pairwise fun p q => Above o p.node q

/-- A pending node after the strand `z` has started: a sync will come after it. -/
structure Grown (z : Strand) (q q' : Pending) : Prop where
  node : q'.node = q.node
  sync : q'.sync = q.sync
  pre : ∀ x, x < z → (q'.pre x ↔ q.pre x)
  preNew : q'.pre z ↔ q.sync = true

/-- The strand `z` starts after the strands in `pre`; nothing else changes. -/
structure StartedAt (reach reach' : Strand → Strand → Prop) (z : Strand) (pre : Strand → Prop) : Prop where
  old : ∀ x y, x < z → y < z → (reach' x y ↔ reach x y)
  into : ∀ x, x < z → (reach' x z ↔ pre x)
  self : reach' z z
  outOf : ∀ y, y < z → ¬reach' z y

/-- The nodes after one more. -/
theorem getElem?_snoc {nodes : List OmNode} {n m : OmNode} {x : Nat} :
    (nodes ++ [n])[x]? = some m ↔ nodes[x]? = some m ∨ (x = nodes.length ∧ m = n) := by
  rcases Nat.lt_trichotomy x nodes.length with hx | rfl | hx
  · rw [List.getElem?_append_left hx]
    simp [Nat.ne_of_lt hx]
  · simp [eq_comm]
  · rw [List.getElem?_eq_none (by simp; omega), List.getElem?_eq_none (Nat.le_of_lt hx)]
    simp [Nat.ne_of_gt hx]

theorem lt_length_of_getElem? {nodes : List OmNode} {n : OmNode} {x : Nat} (h : nodes[x]? = some n) :
    x < nodes.length := (List.getElem?_eq_some_iff.mp h).1

/-- Grown pending nodes are the old ones at their places. -/
theorem exists_of_grown {z : Strand} {ps ps' : List Pending} (h : List.Forall₂ (Grown z) ps ps')
    {q' : Pending} (hq : q' ∈ ps') : ∃ q ∈ ps, Grown z q q' := by
  induction h with
  | nil => cases hq
  | cons hg _ ih =>
      rcases List.mem_cons.mp hq with rfl | hq
      · exact ⟨_, List.mem_cons_self, hg⟩
      · obtain ⟨q, hmem, hg'⟩ := ih hq
        exact ⟨q, List.mem_cons_of_mem _ hmem, hg'⟩

/-- A relation between pending nodes that survives growing. -/
theorem pairwise_of_grown {z : Strand} {ps ps' : List Pending} (h : List.Forall₂ (Grown z) ps ps')
    {r r' : Pending → Pending → Prop} (hr : ps.Pairwise r)
    (himp : ∀ {p p' q q'}, p ∈ ps → q ∈ ps → Grown z p p' → Grown z q q' → r p q → r' p' q') :
    ps'.Pairwise r' := by
  induction h with
  | nil => exact List.Pairwise.nil
  | @cons p p' ps ps' hg hrest ih =>
      obtain ⟨hhead, htail⟩ := List.pairwise_cons.mp hr
      refine List.pairwise_cons.mpr ⟨?_, ?_⟩
      · intro q' hq'
        obtain ⟨q, hq, hgq⟩ := exists_of_grown hrest hq'
        exact himp List.mem_cons_self (List.mem_cons_of_mem _ hq) hg hgq (hhead q hq)
      · exact ih htail (fun hp hq => himp (List.mem_cons_of_mem _ hp) (List.mem_cons_of_mem _ hq))

/-- What is above a pending node stays so. -/
theorem Above.grown {o : Orders} {p : OmNode} {z : Strand} {q q' : Pending} (hg : Grown z q q')
    (h : Above o p q) : Above o p q' := by
  unfold Above
  rw [hg.node, hg.sync]
  exact h

/-! ## Inserts in both orders

A new node goes right behind the current one in each of the two lists. In the same direction it is after the current
node in both, and before all that is after it in both; in opposite directions the two new nodes of a fork are
parallel. -/

section Orders

variable {o : Orders} (hwf : o.WF)

include hwf

/-- The next node is new. -/
theorem Orders.WF.fresh_notMem : o.fresh ∉ o.english := fun h => Nat.lt_irrefl _ ((hwf.mem _).mp h)

theorem Orders.WF.succ_notMem : o.fresh + 1 ∉ o.english :=
  fun h => absurd ((hwf.mem _).mp h) (Nat.not_lt_of_le (Nat.le_succ _))

/-- The orders with the new node `o.fresh` after `c` in both. -/
theorem wf_series {c : OmNode} (hc : c < o.fresh) :
    Orders.WF ⟨insertAfter c o.fresh o.english, insertAfter c o.fresh o.hebrew⟩ := by
  have hmem := (hwf.mem c).mpr hc
  refine ⟨hwf.twin.series hmem hwf.fresh_notMem, ?_⟩
  intro n
  show n ∈ insertAfter c o.fresh o.english ↔ n < (insertAfter c o.fresh o.english).length
  rw [mem_insertAfter hmem, length_insertAfter hmem, hwf.mem]
  show n = o.fresh ∨ n < o.fresh ↔ n < o.fresh + 1
  rw [Nat.lt_succ_iff_lt_or_eq, or_comm]

omit hwf in
/-- And different from those that are there. -/
theorem ne_fresh {n : OmNode} (hn : n < o.fresh) : n ≠ o.fresh ∧ n ≠ o.fresh + 1 :=
  ⟨Nat.ne_of_lt hn, Nat.ne_of_lt (Nat.lt_succ_of_lt hn)⟩

/-- The orders with a child and a continuation more. -/
theorem wf_fork {c : OmNode} (hc : c < o.fresh) :
    (Tool.insertFork o c o.fresh (o.fresh + 1)).WF ∧
      (Tool.insertFork o c o.fresh (o.fresh + 1)).fresh = o.fresh + 2 := by
  have hmem := (hwf.mem c).mpr hc
  have hne : o.fresh ≠ o.fresh + 1 := Nat.ne_of_lt (Nat.lt_succ_self _)
  have hmem' := (parallel_mem (a := o.fresh) (b := o.fresh + 1) hwf.twin hmem).1
  have hlen : (Tool.insertFork o c o.fresh (o.fresh + 1)).fresh = o.fresh + 2 := by
    show (insertAfter _ _ (insertAfter _ _ o.english)).length = _
    rw [length_insertAfter hmem', length_insertAfter hmem]
    rfl
  refine ⟨⟨hwf.twin.parallel hmem hwf.fresh_notMem hwf.succ_notMem hne, ?_⟩, hlen⟩
  intro n
  rw [hlen]
  show n ∈ insertAfter _ _ (insertAfter _ _ o.english) ↔ _
  rw [mem_insertAfter hmem', mem_insertAfter hmem, hwf.mem]
  show n = o.fresh + 1 ∨ n = o.fresh ∨ n < o.fresh ↔ n < o.fresh + 2
  rw [Nat.lt_succ_iff_lt_or_eq, Nat.lt_succ_iff_lt_or_eq]
  tauto

end Orders

/-! ## The four steps

Each of them takes `OrderOk` to `OrderOk`. The first two insert nodes and leave the strands alone; the other two start
a strand and leave the orders alone, and have to compare the strands before the new one with those before its node. -/

section Steps

variable {o : Orders} {nodes : List OmNode} {reach reach' : Strand → Strand → Prop} {c : OmNode}
  {pending pending' : List Pending} {cur : Strand}

/-- The next node is that of no strand. -/
theorem OrderOk.fresh_notMem (h : OrderOk o nodes reach c pending) : o.fresh ∉ nodes := by
  intro hmem
  obtain ⟨x, hx⟩ := List.mem_iff_getElem?.mp hmem
  exact Nat.lt_irrefl _ (h.lt hx)

/-- Nor is a pending one. -/
theorem OrderOk.pending_notMem (h : OrderOk o nodes reach c pending) {q : Pending} (hq : q ∈ pending) :
    q.node ∉ nodes := by
  intro hmem
  obtain ⟨x, hx⟩ := List.mem_iff_getElem?.mp hmem
  exact (h.before q hq hx).1 rfl

/-- **A spawn group is opened**: its sync node goes right after the current node. -/
theorem OrderOk.openGroup (h : OrderOk o nodes reach c pending) (hcur : nodes[cur]? = some c)
    (hlast : ∀ y, y < nodes.length → reach cur y → y = cur) {pre : Strand → Prop}
    (hpre : ∀ x, x < nodes.length → (pre x ↔ reach x cur)) :
    OrderOk ⟨insertAfter c o.fresh o.english, insertAfter c o.fresh o.hebrew⟩ nodes reach c
      (⟨o.fresh, true, pre⟩ :: pending) := by
  have hc := h.lt hcur
  have hmem := (h.wf.mem c).mpr hc
  have hfresh := h.wf.fresh_notMem
  have htwin := h.wf.twin
  have hlen : Orders.fresh ⟨insertAfter c o.fresh o.english, insertAfter c o.fresh o.hebrew⟩ = o.fresh + 1 := by
    show (insertAfter c o.fresh o.english).length = _
    rw [length_insertAfter hmem]
    rfl
  -- nothing changes between the nodes that were there
  have hold : ∀ {n m : OmNode}, n < o.fresh → m < o.fresh →
      (Orders.both ⟨insertAfter c o.fresh o.english, insertAfter c o.fresh o.hebrew⟩ n m ↔ o.both n m) :=
    fun hn hm => both_series_old htwin hmem (Nat.ne_of_lt hn) (Nat.ne_of_lt hm)
  have hto : ∀ {n : OmNode}, n < o.fresh →
      (Orders.both ⟨insertAfter c o.fresh o.english, insertAfter c o.fresh o.hebrew⟩ n o.fresh ↔
        n = c ∨ o.both n c) :=
    fun hn => both_series_to htwin hmem hfresh (Nat.ne_of_lt hn)
  have hfrom : ∀ {m : OmNode},
      (Orders.both ⟨insertAfter c o.fresh o.english, insertAfter c o.fresh o.hebrew⟩ o.fresh m ↔
        o.both c m) := both_series_from htwin hmem hfresh
  refine ⟨wf_series h.wf hc, ?_, ?_, h.same, ?_, ?_, ?_, ?_⟩
  · intro x n hx
    rw [hlen]
    exact Nat.lt_succ_of_lt (h.lt hx)
  · intro x y n m hx hy
    rw [hold (h.lt hx) (h.lt hy)]
    exact h.exec hx hy
  · intro q hq
    rw [hlen]
    rcases List.mem_cons.mp hq with rfl | hq
    · exact Nat.lt_succ_self _
    · exact Nat.lt_succ_of_lt (h.pendingLt q hq)
  · intro q hq x n hx
    have hn := h.lt hx
    rcases List.mem_cons.mp hq with rfl | hq
    · refine ⟨Nat.ne_of_lt hn, ?_, ?_⟩
      · show _ ↔ pre x
        rw [hto hn, hpre x (lt_length_of_getElem? hx), h.exec hx hcur]
        constructor
        · rintro (rfl | hr)
          · rcases Nat.le_total x cur with hle | hle
            · exact h.same hx hcur hle
            · -- the current strand is the last one with its node
              rw [hlast x (lt_length_of_getElem? hx) (h.same hcur hx hle)]
              exact h.same hcur hcur (Nat.le_refl _)
          · exact hr.1
        · intro hr
          by_cases hnc : n = c
          · exact Or.inl hnc
          · exact Or.inr ⟨hr, hnc⟩
      · rw [hfrom, h.exec hcur hx]
        rintro ⟨hr, hne⟩
        rw [hlast x (lt_length_of_getElem? hx) hr, hcur] at hx
        exact hne (Option.some.inj hx)
    · rw [hold hn (h.pendingLt q hq), hold (h.pendingLt q hq) hn]
      exact h.before q hq hx
  · intro q hq
    rcases List.mem_cons.mp hq with rfl | hq
    · refine ⟨Nat.ne_of_lt hc, ?_, ?_⟩
      · rw [hto hc]
        simp
      · rw [hfrom]
        exact not_both_self htwin
    · unfold Above
      rw [hold hc (h.pendingLt q hq), hold (h.pendingLt q hq) hc]
      exact h.current q hq
  · refine List.pairwise_cons.mpr ⟨?_, ?_⟩
    · intro q hq
      have hqlt := h.pendingLt q hq
      obtain ⟨hne, hsync, hnot⟩ := h.current q hq
      refine ⟨Nat.ne_of_gt hqlt, ?_, ?_⟩
      · rw [hfrom]
        exact hsync
      · rw [hto hqlt]
        exact fun hor => hor.elim (fun he => hne he.symm) hnot
    · refine h.order.imp_of_mem ?_
      intro p q hp hq hab
      unfold Above
      rw [hold (h.pendingLt p hp) (h.pendingLt q hq), hold (h.pendingLt q hq) (h.pendingLt p hp)]
      exact hab

/-- **The current strand forks**: the child starts, the continuation is pending. -/
theorem OrderOk.fork (h : OrderOk o nodes reach c pending) (hcur : nodes[cur]? = some c)
    (hlast : ∀ y, y < nodes.length → reach cur y → y = cur)
    (hstart : StartedAt reach reach' nodes.length (fun x => reach x cur))
    (hgrown : List.Forall₂ (Grown nodes.length) pending pending') {pre : Strand → Prop}
    (hpre : ∀ x, x < nodes.length → (pre x ↔ reach x cur)) (hpreNew : ¬pre nodes.length) :
    OrderOk (Tool.insertFork o c o.fresh (o.fresh + 1)) (nodes ++ [o.fresh]) reach' o.fresh
      (⟨o.fresh + 1, false, pre⟩ :: pending') := by
  have hc := h.lt hcur
  have hmem := (h.wf.mem c).mpr hc
  have hfresh := h.wf.fresh_notMem
  have hsucc := h.wf.succ_notMem
  have htwin := h.wf.twin
  have hne' : o.fresh ≠ o.fresh + 1 := Nat.ne_of_lt (Nat.lt_succ_self _)
  obtain ⟨hwf, hlen⟩ := wf_fork h.wf hc
  have hold : ∀ {n m : OmNode}, n < o.fresh → m < o.fresh →
      ((Tool.insertFork o c o.fresh (o.fresh + 1)).both n m ↔ o.both n m) :=
    fun hn hm => both_parallel_old htwin hmem (ne_fresh hn).1 (ne_fresh hn).2 (ne_fresh hm).1 (ne_fresh hm).2
  have htoChild : ∀ {n : OmNode}, n < o.fresh →
      ((Tool.insertFork o c o.fresh (o.fresh + 1)).both n o.fresh ↔ n = c ∨ o.both n c) :=
    fun hn => both_parallel_to_left htwin hmem hfresh hsucc hne' (ne_fresh hn).1 (ne_fresh hn).2
  have htoCont : ∀ {n : OmNode}, n < o.fresh →
      ((Tool.insertFork o c o.fresh (o.fresh + 1)).both n (o.fresh + 1) ↔ n = c ∨ o.both n c) :=
    fun hn => both_parallel_to_right htwin hmem hfresh hsucc hne' (ne_fresh hn).1 (ne_fresh hn).2
  have hfromChild : ∀ {m : OmNode}, m < o.fresh →
      ((Tool.insertFork o c o.fresh (o.fresh + 1)).both o.fresh m ↔ o.both c m) :=
    fun hm => both_parallel_from_left htwin hmem hfresh hsucc hne' (ne_fresh hm).2
  have hfromCont : ∀ {m : OmNode}, m < o.fresh →
      ((Tool.insertFork o c o.fresh (o.fresh + 1)).both (o.fresh + 1) m ↔ o.both c m) :=
    fun hm => both_parallel_from_right htwin hmem hfresh hsucc hne' (ne_fresh hm).1
  obtain ⟨hnotCont, hnotChild⟩ := not_both_parallel htwin hmem hfresh hsucc hne'
  -- what comes before the current node, or is it, reaches the current strand
  have hto : ∀ {x n : Nat}, nodes[x]? = some n → (n = c ∨ o.both n c ↔ reach x cur) := by
    intro x n hx
    rw [h.exec hx hcur]
    constructor
    · rintro (rfl | hr)
      · rcases Nat.le_total x cur with hle | hle
        · exact h.same hx hcur hle
        · rw [hlast x (lt_length_of_getElem? hx) (h.same hcur hx hle)]
          exact h.same hcur hcur (Nat.le_refl _)
      · exact hr.1
    · intro hr
      by_cases hnc : n = c
      · exact Or.inl hnc
      · exact Or.inr ⟨hr, hnc⟩
  have hfrom : ∀ {x n : Nat}, nodes[x]? = some n → ¬o.both c n := by
    intro x n hx
    rw [h.exec hcur hx]
    rintro ⟨hr, hne⟩
    rw [hlast x (lt_length_of_getElem? hx) hr, hcur] at hx
    exact hne (Option.some.inj hx)
  refine ⟨hwf, ?_, ?_, ?_, ?_, ?_, ?_, ?_⟩
  · intro x n hx
    rw [hlen]
    rcases getElem?_snoc.mp hx with hx | ⟨-, rfl⟩
    · exact Nat.lt_add_right 2 (h.lt hx)
    · exact Nat.lt_add_of_pos_right (by decide)
  · intro x y n m hx hy
    rcases getElem?_snoc.mp hx with hx | ⟨rfl, rfl⟩
    · have hn := h.lt hx
      have hxlt := lt_length_of_getElem? hx
      rcases getElem?_snoc.mp hy with hy | ⟨rfl, rfl⟩
      · rw [hold hn (h.lt hy), hstart.old x y hxlt (lt_length_of_getElem? hy)]
        exact h.exec hx hy
      · rw [htoChild hn, hstart.into x hxlt, hto hx]
        exact ⟨fun hr => ⟨hr, Nat.ne_of_lt hn⟩, fun hr => hr.1⟩
    · rcases getElem?_snoc.mp hy with hy | ⟨rfl, rfl⟩
      · rw [hfromChild (h.lt hy)]
        exact ⟨fun hb => absurd hb (hfrom hy),
          fun hr => absurd hr.1 (hstart.outOf y (lt_length_of_getElem? hy))⟩
      · exact ⟨fun hb => absurd hb (not_both_self hwf.twin), fun hr => absurd rfl hr.2⟩
  · intro x y n hx hy hle
    rcases getElem?_snoc.mp hx with hx | ⟨rfl, rfl⟩
    · have hn := h.lt hx
      rcases getElem?_snoc.mp hy with hy | ⟨-, rfl⟩
      · rw [hstart.old x y (lt_length_of_getElem? hx) (lt_length_of_getElem? hy)]
        exact h.same hx hy hle
      · exact absurd hn (Nat.lt_irrefl _)
    · rcases getElem?_snoc.mp hy with hy | ⟨rfl, -⟩
      · exact absurd (h.lt hy) (Nat.lt_irrefl _)
      · exact hstart.self
  · intro q' hq'
    rw [hlen]
    rcases List.mem_cons.mp hq' with rfl | hq'
    · exact Nat.lt_succ_self _
    · obtain ⟨q, hq, hg⟩ := exists_of_grown hgrown hq'
      rw [hg.node]
      exact Nat.lt_add_right 2 (h.pendingLt q hq)
  · intro q' hq' x n hx
    rcases List.mem_cons.mp hq' with rfl | hq'
    · rcases getElem?_snoc.mp hx with hx | ⟨rfl, rfl⟩
      · have hn := h.lt hx
        refine ⟨(ne_fresh hn).2, ?_, ?_⟩
        · show _ ↔ pre x
          rw [htoCont hn, hto hx, hpre x (lt_length_of_getElem? hx)]
        · rw [hfromCont hn]
          exact hfrom hx
      · exact ⟨hne', ⟨fun hb => absurd hb hnotCont, fun hp => absurd hp hpreNew⟩, hnotChild⟩
    · obtain ⟨q, hq, hg⟩ := exists_of_grown hgrown hq'
      have hqlt := h.pendingLt q hq
      rw [hg.node]
      rcases getElem?_snoc.mp hx with hx | ⟨rfl, rfl⟩
      · rw [hold (h.lt hx) hqlt, hold hqlt (h.lt hx), hg.pre x (lt_length_of_getElem? hx)]
        exact h.before q hq hx
      · obtain ⟨hne, hsync, hnot⟩ := h.current q hq
        refine ⟨Nat.ne_of_gt hqlt, ?_, ?_⟩
        · rw [hfromChild hqlt, hg.preNew]
          exact hsync
        · rw [htoChild hqlt]
          exact fun hor => hor.elim (fun he => hne he.symm) hnot
  · intro q' hq'
    rcases List.mem_cons.mp hq' with rfl | hq'
    · exact ⟨hne', ⟨fun hb => absurd hb hnotCont, fun hs => by cases hs⟩, hnotChild⟩
    · obtain ⟨q, hq, hg⟩ := exists_of_grown hgrown hq'
      have hqlt := h.pendingLt q hq
      obtain ⟨hne, hsync, hnot⟩ := h.current q hq
      refine Above.grown hg ⟨Nat.ne_of_gt hqlt, ?_, ?_⟩
      · rw [hfromChild hqlt]
        exact hsync
      · rw [htoChild hqlt]
        exact fun hor => hor.elim (fun he => hne he.symm) hnot
  · refine List.pairwise_cons.mpr ⟨?_, ?_⟩
    · intro q' hq'
      obtain ⟨q, hq, hg⟩ := exists_of_grown hgrown hq'
      have hqlt := h.pendingLt q hq
      obtain ⟨hne, hsync, hnot⟩ := h.current q hq
      refine Above.grown hg ⟨(ne_fresh hqlt).2.symm, ?_, ?_⟩
      · rw [hfromCont hqlt]
        exact hsync
      · rw [htoCont hqlt]
        exact fun hor => hor.elim (fun he => hne he.symm) hnot
    · refine pairwise_of_grown hgrown h.order ?_
      intro p p' q q' hp hq hgp hgq hab
      have hplt := h.pendingLt p hp
      have hqlt := h.pendingLt q hq
      refine Above.grown hgq ?_
      rw [hgp.node]
      unfold Above
      rw [hold hplt hqlt, hold hqlt hplt]
      exact hab

/-- **The next pending node is run.** The orders stay as they are: the strands before it are those that the new
    strand has a path from. -/
theorem OrderOk.next {q : Pending} (h : OrderOk o nodes reach c (q :: pending))
    (hstart : StartedAt reach reach' nodes.length q.pre)
    (hgrown : List.Forall₂ (Grown nodes.length) pending pending') :
    OrderOk o (nodes ++ [q.node]) reach' q.node pending' := by
  have hbefore := fun {x n : Nat} => h.before q List.mem_cons_self (x := x) (n := n)
  obtain ⟨hhead, htail⟩ := List.pairwise_cons.mp h.order
  refine ⟨h.wf, ?_, ?_, ?_, ?_, ?_, ?_, ?_⟩
  · intro x n hx
    rcases getElem?_snoc.mp hx with hx | ⟨-, rfl⟩
    · exact h.lt hx
    · exact h.pendingLt q List.mem_cons_self
  · intro x y n m hx hy
    rcases getElem?_snoc.mp hx with hx | ⟨rfl, rfl⟩
    · have hxlt := lt_length_of_getElem? hx
      rcases getElem?_snoc.mp hy with hy | ⟨rfl, rfl⟩
      · rw [hstart.old x y hxlt (lt_length_of_getElem? hy)]
        exact h.exec hx hy
      · obtain ⟨hne, hpre, -⟩ := hbefore hx
        rw [hpre, hstart.into x hxlt]
        exact ⟨fun hp => ⟨hp, hne⟩, fun hp => hp.1⟩
    · rcases getElem?_snoc.mp hy with hy | ⟨rfl, rfl⟩
      · exact ⟨fun hb => absurd hb (hbefore hy).2.2,
          fun hr => absurd hr.1 (hstart.outOf y (lt_length_of_getElem? hy))⟩
      · exact ⟨fun hb => absurd hb (not_both_self h.wf.twin), fun hr => absurd rfl hr.2⟩
  · intro x y n hx hy hle
    rcases getElem?_snoc.mp hx with hx | ⟨rfl, rfl⟩
    · rcases getElem?_snoc.mp hy with hy | ⟨-, rfl⟩
      · rw [hstart.old x y (lt_length_of_getElem? hx) (lt_length_of_getElem? hy)]
        exact h.same hx hy hle
      · exact absurd rfl (hbefore hx).1
    · rcases getElem?_snoc.mp hy with hy | ⟨rfl, -⟩
      · exact absurd rfl (hbefore hy).1
      · exact hstart.self
  · intro p' hp'
    obtain ⟨p, hp, hg⟩ := exists_of_grown hgrown hp'
    rw [hg.node]
    exact h.pendingLt p (List.mem_cons_of_mem _ hp)
  · intro p' hp' x n hx
    obtain ⟨p, hp, hg⟩ := exists_of_grown hgrown hp'
    rw [hg.node]
    rcases getElem?_snoc.mp hx with hx | ⟨rfl, rfl⟩
    · rw [hg.pre x (lt_length_of_getElem? hx)]
      exact h.before p (List.mem_cons_of_mem _ hp) hx
    · rw [hg.preNew]
      exact hhead p hp
  · intro p' hp'
    obtain ⟨p, hp, hg⟩ := exists_of_grown hgrown hp'
    exact (hhead p hp).grown hg
  · refine pairwise_of_grown hgrown htail ?_
    intro p p' r r' _ _ hgp hgr hab
    rw [hgp.node]
    exact hab.grown hgr

/-- **A strand starts at the node of the one before it.** -/
theorem OrderOk.again (h : OrderOk o nodes reach c pending) (hcur : nodes[cur]? = some c)
    (hlast : ∀ y, y < nodes.length → reach cur y → y = cur)
    (hstart : StartedAt reach reach' nodes.length (fun x => reach x cur))
    (hgrown : List.Forall₂ (Grown nodes.length) pending pending') :
    OrderOk o (nodes ++ [c]) reach' c pending' := by
  refine ⟨h.wf, ?_, ?_, ?_, ?_, ?_, ?_, ?_⟩
  · intro x n hx
    rcases getElem?_snoc.mp hx with hx | ⟨-, rfl⟩
    · exact h.lt hx
    · exact h.lt hcur
  · intro x y n m hx hy
    rcases getElem?_snoc.mp hx with hxo | ⟨rfl, rfl⟩
    · have hxlt := lt_length_of_getElem? hxo
      rcases getElem?_snoc.mp hy with hy | ⟨rfl, rfl⟩
      · rw [hstart.old x y hxlt (lt_length_of_getElem? hy)]
        exact h.exec hxo hy
      · rw [hstart.into x hxlt]
        exact h.exec hxo hcur
    · rcases getElem?_snoc.mp hy with hy | ⟨rfl, rfl⟩
      · have hylt := lt_length_of_getElem? hy
        rw [h.exec hcur hy]
        constructor
        · rintro ⟨hr, hne⟩
          rw [hlast y hylt hr, hcur] at hy
          exact absurd (Option.some.inj hy) hne
        · rintro ⟨hr, -⟩
          exact absurd hr (hstart.outOf y hylt)
      · exact ⟨fun hb => absurd hb (not_both_self h.wf.twin), fun hr => absurd rfl hr.2⟩
  · intro x y n hx hy hle
    rcases getElem?_snoc.mp hx with hxo | ⟨rfl, rfl⟩
    · have hxlt := lt_length_of_getElem? hxo
      rcases getElem?_snoc.mp hy with hy | ⟨rfl, rfl⟩
      · rw [hstart.old x y hxlt (lt_length_of_getElem? hy)]
        exact h.same hxo hy hle
      · rw [hstart.into x hxlt]
        rcases Nat.le_total x cur with hxc | hxc
        · exact h.same hxo hcur hxc
        · rw [hlast x hxlt (h.same hcur hxo hxc)]
          exact h.same hcur hcur (Nat.le_refl _)
    · rcases getElem?_snoc.mp hy with hy | ⟨rfl, -⟩
      · exact absurd (lt_length_of_getElem? hy) (Nat.not_lt_of_le hle)
      · exact hstart.self
  · intro p' hp'
    obtain ⟨p, hp, hg⟩ := exists_of_grown hgrown hp'
    rw [hg.node]
    exact h.pendingLt p hp
  · intro p' hp' x n hx
    obtain ⟨p, hp, hg⟩ := exists_of_grown hgrown hp'
    rw [hg.node]
    rcases getElem?_snoc.mp hx with hx | ⟨rfl, rfl⟩
    · rw [hg.pre x (lt_length_of_getElem? hx)]
      exact h.before p hp hx
    · rw [hg.preNew]
      exact h.current p hp
  · intro p' hp'
    obtain ⟨p, hp, hg⟩ := exists_of_grown hgrown hp'
    exact (h.current p hp).grown hg
  · refine pairwise_of_grown hgrown h.order ?_
    intro p p' r r' _ _ hgp hgr hab
    rw [hgp.node]
    exact hab.grown hgr

end Steps

end FOrder.Rdtool
