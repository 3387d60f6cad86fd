import FOrder.Rdtool.Detector

/-!
# `Rdtool.DetectorChecks` — what one check finds

A yes of `Precedes` is a path, and never between two strands at the same node; without futures a path is a yes. A grain
notes its last write and the reads since then, so a `check_access` asks about just these.

The first half is about strands: `OneByOne` says how strands can share a node, `Plain` what a program without
futures looks like, and both are kept by every event (`OneByOne.step`, `Plain.step`). With them the answers of
`Precedes` are read as paths, one way in general (`TraceOk.answer`) and both ways for plain programs
(`TraceOk.precedes_of_path`).

The second half is about the log of the calls. `Noted` says of a call that its grain still has it, by its place in
the log alone, and `cellReport_noted` says that a check fails exactly against calls that are noted. The two halves
meet in `Rdtool.DetectorRuns`.
-/

namespace FOrder.Rdtool

open Serial (State Event FutId Strand Step step_dag isForkJoin isDep)

/-! ## Strands at one node

A get starts a strand and no node, so `Precedes`, which compares nodes, cannot tell the strands before and after it
apart. This does no harm to a check: these strands come one after the other, with nothing in between. -/

/-- Strands at one node come one after the other. -/
def OneByOne (d : Dag Serial.EdgeKind) (nodes : List OmNode) : Prop :=
  ∀ x y n, nodes[x]? = some n → nodes[y]? = some n → x ≤ y → d.Reach isDep x y

/-- There is one strand at first. -/
theorem oneByOne_init : OneByOne Serial.init.dag [0] := by
  intro x y n hx hy hle
  have hy0 : y = 0 := Nat.lt_one_iff.mp (List.getElem?_eq_some_iff.mp hy).1
  obtain rfl : x = y := by omega
  exact Dag.Reach.refl x

/-- A get leaves the node where it is. -/
theorem current_node_get {t t' : Tool} {fut : FutId} (h : t.step (.get fut) = some t') :
    t'.current.node = t.current.node := by
  simp only [Tool.step] at h
  split at h
  · unfold Tool.futureGet at h
    split at h
    · obtain ⟨l, -, h⟩ := Option.bind_eq_some_iff.mp h
      obtain ⟨l', -, h⟩ := Option.bind_eq_some_iff.mp h
      cases h
      rfl
    · cases h
  · cases h

/-- A get comes after the strand before it. -/
theorem reach_get {s s' : State} {fut : FutId} (h : Step rules s (.get fut) s') :
    s'.dag.Reach isDep s.cur s.dag.length := by
  cases h with
  | get _ => exact Dag.reach_new_of_edge (e := ⟨s.cur, .sp⟩) List.mem_cons_self (by simp [isDep])

section Trace

variable {x x' : Exec} {e : Event} {nodes nodes' : List OmNode} {futs futs' : List Nat}

/-- No strand is after the current one. -/
theorem SpOk.le_cur {s : State} {t : Tool} (h : SpOk s t nodes) {y : Strand} (hy : y < nodes.length) : y ≤ s.cur := by
  refine Nat.le_of_lt_succ ?_
  rw [Nat.succ_eq_add_one, h.cur, ← h.length]
  exact hy

/-- Only a get starts a strand at an old node, and that is the node of the strand before it. -/
theorem OneByOne.step (hone : OneByOne x.prog.dag nodes) (h : TraceOk x nodes futs) (h' : TraceOk x' nodes' futs')
    (hs : Step rules x.prog e x'.prog) (ht : x.tool.step e = some x'.tool) (hgrow : NodesGrow e nodes nodes') :
    OneByOne x'.prog.dag nodes' := by
  have hsp := h.exec.sp
  have hsp' := h'.exec.sp
  have hlen := hsp.length
  have hlen' := hsp'.length
  rcases hgrow with rfl | ⟨n, rfl, hn⟩
  · rcases step_dag hs with ⟨hdag, -, -⟩ | ⟨es, hdag, -⟩
    · rw [hdag]
      exact hone
    · rw [hdag, List.length_append, hlen] at hlen'
      simp at hlen'
  · rcases step_dag hs with ⟨hdag, -, -⟩ | ⟨es, hdag, hc⟩
    · rw [hdag, List.length_append, hlen] at hlen'
      simp at hlen'
    · intro a b m ha hb hle
      rw [hdag]
      rcases getElem?_snoc.mp hb with hb | ⟨rfl, rfl⟩
      · rcases getElem?_snoc.mp ha with ha | ⟨rfl, -⟩
        · exact (hone a b m ha hb hle).concat es
        · exact absurd (Nat.lt_of_le_of_lt hle (lt_length_of_getElem? hb)) (Nat.lt_irrefl _)
      · rcases getElem?_snoc.mp ha with ha | ⟨rfl, -⟩
        · rcases hn with hn | ⟨fut, rfl⟩
          · exact absurd (List.mem_of_getElem? ha) hn
          · -- a get: the new strand is at the node of the current one
            have hnode := hsp'.node
            rw [hc, ← hlen, List.getElem?_concat_length, current_node_get ht] at hnode
            cases hnode
            have hle : a ≤ x.prog.cur := hsp.le_cur (lt_length_of_getElem? ha)
            have hedge := reach_get hs
            rw [hdag] at hedge
            rw [hlen]
            exact ((hone a _ _ ha hsp.node hle).concat es).trans hedge
        · exact Dag.Reach.refl _

/-! ## The answers

A yes is a path by `Rdtool.PrecedesSound`. The other direction is proved for programs without futures only, where all
strands belong to one future and the orders alone decide. -/

/-- **A yes of `Precedes`** is a path from another node. -/
theorem TraceOk.answer (h : TraceOk x nodes futs) (hfut : x.prog.futures.length < 2 ^ 32) {q : Strand × Current}
    (hq : q ∈ x.past) : ∃ answer, x.tool.precedes q.2 x.tool.current = some answer ∧
      (answer = true → x.prog.dag.Reach isDep q.1 x.prog.cur ∧ q.2.node ≠ x.tool.current.node) := by
  have hsp := h.exec.sp
  obtain ⟨hid, hlist⟩ := current_eq hsp.linked hsp.stack.nonempty
  have hnode := h.exec.past q hq
  obtain ⟨G, hG, hGid⟩ := h.past q hq
  have htwin := hsp.order.wf.twin
  have hne : ∀ {n m : OmNode}, x.tool.precE n m = true → n ≠ m := by
    rintro n m hE rfl
    exact not_before_self htwin.nodupE (of_decide_eq_true hE)
  unfold Tool.precedes
  split
  · rename_i hc
    obtain ⟨hsame, hE, hH⟩ := hc
    rw [hGid, hid] at hsame
    exact ⟨true, rfl, fun _ => ⟨h.reach hfut hnode hsp.node hG h.own.cur hsame hE hH, hne hE⟩⟩
  · rw [Tool.getD_of_lt hlist]
    refine ⟨_, rfl, ?_⟩
    intro hyes
    obtain ⟨n, hn, hE, hH⟩ := NodeList.search_sound hyes
    have hknown : Known x.prog.dag nodes futs (x.tool.lists.getD x.tool.current.list .new) [x.prog.cur] := by
      obtain ⟨f, rest, hf⟩ := List.exists_cons_of_ne_nil hsp.stack.nonempty
      obtain ⟨g, grest, hg, -, -, -, hcur, -⟩ := hsp.linked.top hf
      have hframes := h.lists.frames
      rw [hf, hg] at hframes
      rw [← hcur]
      exact hframes.1
    obtain ⟨y, G', hy, hG', hGid', w, hw, hr⟩ := hknown q.2.futureId n (NodeList.Knows.of_elements hn)
    obtain rfl := List.mem_singleton.mp hw
    have hreach := h.reach hfut hnode hy hG hG' (hGid.symm.trans hGid') hE hH
    refine ⟨hreach.trans hr, ?_⟩
    intro heq
    -- the record would be before and after the current strand
    have hboth : x.tool.orders.both x.tool.current.node n := by
      rw [← heq]
      exact ⟨of_decide_eq_true hE, of_decide_eq_true hH⟩
    obtain ⟨hback, hne'⟩ := (hsp.order.exec hsp.node hy).mp hboth
    have hyc : y = x.prog.cur := Nat.le_antisymm (hr.le hsp.ok.wf) (hback.le hsp.ok.wf)
    rw [hyc, hsp.node] at hy
    exact hne' (Option.some.inj hy)

/-- Two moments at the node of the current strand. -/
theorem TraceOk.reach_of_node (h : TraceOk x nodes futs) (hone : OneByOne x.prog.dag nodes) {q : Strand × Current}
    (hq : q ∈ x.past) (heq : q.2.node = x.tool.current.node) : x.prog.dag.Reach isDep q.1 x.prog.cur := by
  have hsp := h.exec.sp
  have hnode := h.exec.past q hq
  rw [heq] at hnode
  exact hone _ _ _ hnode hsp.node (hsp.le_cur (lt_length_of_getElem? hnode))

/-- Nothing has forked but spawns, and every strand has its own node. -/
structure Plain (s : State) (nodes : List OmNode) : Prop where
  noFutures : NoFutures s
  futures : s.futures = []
  nodup : nodes.Nodup

/-- Nothing has forked at first. -/
theorem plain_init : Plain Serial.init [0] := ⟨noFutures_init, rfl, List.nodup_singleton 0⟩

/-- Events that have nothing to do with futures keep it so. -/
theorem Plain.step {s s' : State} (h : Plain s nodes) (he : isForkJoinEvent e) (hs : Step rules s e s')
    (hgrow : NodesGrow e nodes nodes') : Plain s' nodes' := by
  refine ⟨noFutures_step h.noFutures he hs, ?_, hgrow.nodup ?_ h.nodup⟩
  · have hnone := h.futures
    cases hs with
    | create | finish => exact he.elim
    | _ => exact hnone
  · rintro fut rfl
    exact he.elim

/-- **Without futures** a path is a yes. -/
theorem TraceOk.precedes_of_path (h : TraceOk x nodes futs) (hp : Plain x.prog nodes) {q : Strand × Current}
    (hq : q ∈ x.past) (hr : x.prog.dag.Reach isDep q.1 x.prog.cur) (hne : q.1 ≠ x.prog.cur) :
    x.tool.precedes q.2 x.tool.current = some true := by
  have hsp := h.exec.sp
  obtain ⟨hid, -⟩ := current_eq hsp.linked hsp.stack.nonempty
  have hnode := h.exec.past q hq
  obtain ⟨G, hG, hGid⟩ := h.past q hq
  have hzero : ∀ F ∈ futs, F = 0 := by
    intro F hF
    have hle := h.own.le F hF
    rw [hp.futures] at hle
    exact Nat.le_zero.mp hle
  have hsame : q.2.futureId = x.tool.current.futureId := by
    rw [hGid, hid, hzero G (List.mem_of_getElem? hG), hzero _ (List.mem_of_getElem? h.own.cur)]
  have hreach : x.prog.dag.Reach isForkJoin q.1 x.prog.cur := by
    have hedges : x.prog.dag.Edge isForkJoin = x.prog.dag.Edge isDep := by
      funext u v
      exact propext hp.noFutures.edges
    unfold Dag.Reach
    rw [hedges]
    exact hr
  have hnodes : q.2.node ≠ x.tool.current.node := by
    intro heq
    rw [heq] at hnode
    exact hne ((List.getElem?_inj (lt_length_of_getElem? hnode) hp.nodup).mp (hnode.trans hsp.node.symm))
  obtain ⟨hE, hH⟩ := (hsp.order.exec hnode hsp.node).mpr ⟨hreach, hnodes⟩
  unfold Tool.precedes
  exact if_pos ⟨hsame, decide_eq_true hE, decide_eq_true hH⟩

end Trace

/-! ## What a grain notes

The cell of a grain, read as a list of calls: the last write and all reads since. The chain of the code has one entry
for each `Current` object, so what is noted is found there up to the object. -/

section Noted

variable {P E S : Type} [DecidableEq P] [DecidableEq E] {log : List (S × Access P)} {key : Addr} {i : Nat}

/-- A call that the grain still has: the last write, or a read since then. -/
structure Noted (log : List (S × Access P)) (key : Addr) (i : Nat) (b : S × Access P) : Prop where
  since : Since (fun c => TouchesCell c.2 key i → c.2.isRead = true) log b
  touches : TouchesCell b.2 key i

omit [DecidableEq P] in
/-- What is remembered of the calls is what is noted in the log of the calls and their strands. -/
theorem exists_noted_iff {q : Access P → Prop} :
    (∃ a, Remembered (cellHistory (log.map Prod.snd) key i) a ∧ q a) ↔ ∃ b, Noted log key i b ∧ q b.2 := by
  constructor
  · rintro ⟨a, hr, hq⟩
    obtain ⟨h₁, h₂, heq, hat, hreads⟩ := since_filter.mp hr
    obtain ⟨l₁, l, rfl, rfl, hl⟩ := List.map_eq_append_iff.mp heq
    obtain ⟨b, l₂, rfl, rfl, rfl⟩ := List.map_eq_cons_iff.mp hl
    refine ⟨b, ⟨⟨l₁, l₂, rfl, ?_⟩, by simpa using hat⟩, hq⟩
    intro c hc ht
    exact hreads c.2 (List.mem_map_of_mem hc) (by simpa using ht)
  · rintro ⟨b, ⟨⟨l₁, l₂, rfl, hreads⟩, hbt⟩, hq⟩
    refine ⟨b.2, since_filter.mpr ⟨l₁.map Prod.snd, l₂.map Prod.snd, by simp, by simpa using hbt, ?_⟩, hq⟩
    intro c hc ht
    obtain ⟨d, hd, rfl⟩ := List.mem_map.mp hc
    exact hreads d hd (by simpa using ht)

/-- A check of `a` against `b` that fails. -/
def Fails (english : P → E) (precedes : P → P → Bool) (a b : Access P) : Prop :=
  (b.isRead = false ∨ a.isRead = false) ∧ precedes b.current a.current = false ∧
    (b.isRead = a.isRead → english b.current ≠ english a.current)

omit [DecidableEq E] in
/-- **Which checks are made**: against the calls that the grain notes. -/
theorem cellReport_noted {english : P → E} {precedes : P → P → Bool} {a : Access P} :
    CellReport english precedes a (runCell (cellHistory (log.map Prod.snd) key i)) ↔
      ∃ b, Noted log key i b ∧ Fails english precedes a b.2 := by
  obtain ⟨hwr, hrd⟩ := runCell_spec (cellHistory (log.map Prod.snd) key i)
  rw [← exists_noted_iff]
  unfold CellReport Fails
  cases ha : a.isRead with
  | true =>
      simp only [if_true, hwr]
      constructor
      · rintro ⟨w, ⟨b, hr, hb, rfl⟩, hn⟩
        exact ⟨b, hr, Or.inl hb, hn, by simp [hb]⟩
      · rintro ⟨b, hr, hb, hn, -⟩
        exact ⟨b.current, ⟨b, hr, by simpa using hb, rfl⟩, hn⟩
  | false =>
      simp only [Bool.false_eq_true, if_false, hwr, hrd]
      constructor
      · rintro (⟨w, ⟨b, hr, hb, rfl⟩, he, hn⟩ | ⟨r, ⟨b, hr, hb, rfl⟩, hn⟩)
        · exact ⟨b, hr, Or.inl hb, hn, fun _ => he⟩
        · exact ⟨b, hr, Or.inr trivial, hn, by simp [hb]⟩
      · rintro ⟨b, hr, -, hn, he⟩
        cases hb : b.isRead with
        | false => exact Or.inl ⟨b.current, ⟨b, hr, hb, rfl⟩, he hb, hn⟩
        | true => exact Or.inr ⟨b.current, ⟨b, hr, hb, rfl⟩, hn⟩

end Noted

end FOrder.Rdtool
