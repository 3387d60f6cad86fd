import FOrder.Rdtool.ListsSound

/-!
# `Rdtool.PrecedesSound` — `Precedes` never orders parallel strands

`Precedes` says yes for a strand of the same future that is before the current one in both orders, or for a
strand that is before one of its own future that the list records. Either way there is a path.
-/

namespace FOrder.Rdtool

open Serial (State Event FutId Strand Step EdgeKind isForkJoin isDep)

/-- All that holds of the tool beside the program. -/
structure TraceOk (x : Exec) (nodes : List OmNode) (futs : List Nat) : Prop where
  exec : ExecOk x nodes
  own : OwnFuture x.prog futs
  lists : ListsOk x.prog x.tool.lists x.tool.stack x.tool.handles nodes futs
  past : ∀ q ∈ x.past, ∃ G, futs[q.1]? = some G ∧ q.2.futureId = G % 2 ^ 32

/-- The current future id, and that the current list is there. -/
theorem current_eq {s : State} {t : Tool} (hl : Linked s t) (hne : s.frames ≠ []) :
    t.current.futureId = futureOf s.frames % 2 ^ 32 ∧ t.current.list < t.lists.length := by
  obtain ⟨f, rest, hf⟩ := List.exists_cons_of_ne_nil hne
  obtain ⟨g, grest, hg, htop, -, -, hlist, hid⟩ := hl.top hf
  rw [← hid, ← hlist, htop.futureId, hf]
  exact ⟨rfl, htop.currentList_lt⟩

/-- The start of a run: one strand, one node in each order, one future. -/
theorem traceOk_init : TraceOk .init [0] [0] where
  exec := execOk_init
  own := ownFuture_init
  lists := listsOk_init
  past := by
    intro q hq
    rw [List.mem_singleton.mp hq]
    exact ⟨0, rfl, rfl⟩

/-- The step lemma. The detector answers every event that fits the program, and `TraceOk` holds of what it makes.
    Nodes are added at the end only, so a strand keeps the node it has. -/
theorem traceOk_step {x : Exec} {s' : State} {e : Event} {nodes : List OmNode} {futs : List Nat}
    (h : TraceOk x nodes futs) (hs : Serial.step rules x.prog e = some s') :
    ∃ x' nodes' futs', x.step e = some x' ∧ x'.prog = s' ∧ TraceOk x' nodes' futs' ∧ NodesGrow e nodes nodes' := by
  have hstep := Step.of_step hs
  have hsp := h.exec.sp
  obtain ⟨t', nodes', ht, hsp', hgrow⟩ := spOk_step hsp hstep
  have hpre := hgrow.isPrefix
  obtain ⟨futs', hfuts, hown'⟩ := ownFuture_step h.own hsp.ok hsp.cur hstep
  have hlists' := listsOk_step h.lists hsp h.own hpre hfuts hstep ht
  refine ⟨⟨s', t', x.past ++ [(s'.cur, t'.current)]⟩, nodes', futs', ?_, rfl, ⟨⟨hsp', ?_⟩, hown', hlists', ?_⟩, hgrow⟩
  · simp [Exec.step, hs, ht]
  · intro q hq
    rcases List.mem_append.mp hq with hq | hq
    · exact getElem?_of_prefix hpre (h.exec.past q hq)
    · rw [List.mem_singleton.mp hq]
      exact hsp'.node
  · intro q hq
    rcases List.mem_append.mp hq with hq | hq
    · obtain ⟨G, hG, hid⟩ := h.past q hq
      exact ⟨G, getElem?_of_prefix hfuts hG, hid⟩
    · rw [List.mem_singleton.mp hq]
      exact ⟨_, hown'.cur, (current_eq hsp'.linked hsp'.stack.nonempty).1⟩

/-- Below `2 ^ 32` futures the ids are as good as the futures. -/
theorem futureId_inj {s : State} {futs : List Nat} (h : OwnFuture s futs) (hfut : s.futures.length < 2 ^ 32)
    {x y G G' : Nat} (hx : futs[x]? = some G) (hy : futs[y]? = some G') (heq : G % 2 ^ 32 = G' % 2 ^ 32) :
    G = G' := by
  have hG := Nat.lt_of_le_of_lt (h.le G (List.mem_of_getElem? hx)) hfut
  have hG' := Nat.lt_of_le_of_lt (h.le G' (List.mem_of_getElem? hy)) hfut
  rwa [Nat.mod_eq_of_lt hG, Nat.mod_eq_of_lt hG'] at heq

/-- A strand of the same future that is before another in both orders has a path to it. -/
theorem TraceOk.reach {x : Exec} {nodes : List OmNode} {futs : List Nat} (h : TraceOk x nodes futs)
    (hfut : x.prog.futures.length < 2 ^ 32) {u v n m G G' : Nat} (hu : nodes[u]? = some n)
    (hv : nodes[v]? = some m) (hGu : futs[u]? = some G) (hGv : futs[v]? = some G')
    (heq : G % 2 ^ 32 = G' % 2 ^ 32) (hE : x.tool.precE n m = true) (hH : x.tool.precH n m = true) :
    x.prog.dag.Reach isDep u v := by
  obtain rfl := futureId_inj h.own hfut hGu hGv heq
  have hboth : x.tool.orders.both n m := ⟨of_decide_eq_true hE, of_decide_eq_true hH⟩
  exact h.own.real u v G hGu hGv ((h.exec.sp.order.exec hu hv).mp hboth).1

end FOrder.Rdtool
