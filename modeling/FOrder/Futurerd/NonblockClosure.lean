import FOrder.Futurerd.NonblockRuns

/-!
# `Futurerd.NonblockClosure` — when the edges of MultiBags+ keep to the assumption of `add_edge`

`add_edge` assumes that nothing leaves the node it adds an edge to. A create, a get and a finish only add edges to
the node they have just made, and so does a join. The edges that `handle_binary_fork_at_sync` adds when both
branches are attached go to sets that have been there for long.

So the assumption holds in a run exactly as far as no sync finds both branches of a fork attached. `neverBoth` is
that condition, read off the fork stack and the sets before the sync; `JoinsApart` says it of all syncs of a run.

The proof counts instead of looking at the matrix. `IntoNewest n ops` says that, with `n` nodes at the beginning,
each edge of `ops` goes to the newest node, or is a loop; this is a property of the list of calls, and holds of the
calls of every event (`Acts.newest`) and so of a whole run (`newestCalls_of_progRun`). An edge into the newest node
finds nothing behind it, as edges go from older to newer nodes (`intoSinks_of_newest`), and calls into sinks keep
the matrix closed (`closed_foldlM`). The second part, on a sync that joins both branches attached, is a run in which
the matrix misses a path (`bothAttached_edge`).
-/

namespace FOrder.Futurerd

namespace General

/-- The edge that a call adds; a loop is none. -/
def Op.edge : Op → List (Nat × Nat)
  | .addNode => []
  | .addEdge src dst => if src = dst then [] else [(src, dst)]

/-- The edges that have been added. -/
def edgesOf (ops : List Op) : List (Nat × Nat) := ops.flatMap Op.edge

/-- Each call finds a node that nothing leaves yet; `edges` are there before. -/
def IntoSinks : List (Nat × Nat) → List Op → Prop
  | _, [] => True
  | edges, op :: ops => (∀ e ∈ op.edge, IsSink edges e.2) ∧ IntoSinks (edges ++ op.edge) ops

/-- Edges go to the newest of `n` nodes; loops may be anywhere. -/
def IntoNewest : Nat → List Op → Prop
  | _, [] => True
  | n, .addNode :: ops => IntoNewest (n + 1) ops
  | n, .addEdge src dst :: ops => (src = dst ∨ (src < dst ∧ dst + 1 = n)) ∧ IntoNewest n ops

/-- The nodes that calls make. -/
def made (ops : List Op) : Nat := ops.count .addNode

variable {m m' : General} {edges : List (Nat × Nat)} {ops ops' : List Op} {n : Nat}

/-- Calls, and then others, with the nodes that have been made meanwhile. -/
theorem intoNewest_append : IntoNewest n (ops ++ ops') ↔ IntoNewest n ops ∧ IntoNewest (n + made ops) ops' := by
  induction ops generalizing n with
  | nil => simp [IntoNewest, made]
  | cons op ops ih =>
      cases op with
      | addNode =>
          show IntoNewest (n + 1) (ops ++ ops') ↔ IntoNewest (n + 1) ops ∧ _
          have hmade : made (.addNode :: ops) = made ops + 1 := List.count_cons_self
          rw [ih, hmade, Nat.add_assoc n 1, Nat.add_comm 1]
      | addEdge src dst =>
          show _ ∧ IntoNewest n (ops ++ ops') ↔ (_ ∧ IntoNewest n ops) ∧ _
          have hmade : made (.addEdge src dst :: ops) = made ops := List.count_cons_of_ne (by simp)
          rw [ih, hmade, and_assoc]

/-- Edges from older to newer nodes leave the newest one free. -/
theorem intoSinks_of_newest (hnew : IntoNewest n ops) (hedges : ∀ e ∈ edges, e.1 < e.2 ∧ e.2 < n) :
    IntoSinks edges ops := by
  induction ops generalizing n edges with
  | nil => trivial
  | cons op ops ih =>
      cases op with
      | addNode =>
          refine ⟨(fun e he => nomatch he), ih hnew ?_⟩
          intro e he
          rw [show edges ++ Op.edge .addNode = edges from List.append_nil _] at he
          exact ⟨(hedges e he).1, Nat.lt_succ_of_lt (hedges e he).2⟩
      | addEdge src dst =>
          obtain ⟨hplace, hnew⟩ := hnew
          have hedge : ∀ e ∈ Op.edge (.addEdge src dst), e = (src, dst) ∧ src < dst ∧ dst + 1 = n := by
            intro e he
            by_cases hsame : src = dst
            · rw [show Op.edge (.addEdge src dst) = [] from if_pos hsame] at he
              cases he
            · rw [show Op.edge (.addEdge src dst) = [(src, dst)] from if_neg hsame] at he
              exact ⟨List.mem_singleton.mp he, hplace.resolve_left hsame⟩
          refine ⟨?_, ih hnew ?_⟩
          · intro e he z hz
            obtain ⟨rfl, hlt, hlast⟩ := hedge e he
            have hbound := hedges _ hz
            have hbound : dst < z ∧ z < n := hbound
            omega
          · intro e he
            rcases List.mem_append.mp he with he | he
            · exact hedges e he
            · obtain ⟨rfl, hlt, hlast⟩ := hedge e he
              exact ⟨hlt, by omega⟩

/-- One call makes a node or none. -/
theorem length_step {op : Op} (h : step m op = some m') : m'.data.length = m.data.length + made [op] := by
  cases op with
  | addNode =>
      obtain rfl := Option.some.inj h
      show (m.data ++ [_]).length = _
      rw [List.length_append]
      rfl
  | addEdge src dst =>
      have hlen : m'.data.length = m.data.length := length_addEdge h
      rw [hlen]
      rfl

/-- The nodes of `R` are those that have been made. -/
theorem length_foldlM (h : ops.foldlM step m = some m') : m'.data.length = m.data.length + made ops := by
  induction ops generalizing m with
  | nil =>
      obtain rfl : m = m' := Option.some.inj h
      rfl
  | cons op ops ih =>
      rw [List.foldlM_cons] at h
      obtain ⟨m₁, hstep, h⟩ := Option.bind_eq_some_iff.mp h
      have hcount : made (op :: ops) = made [op] + made ops := by
        unfold made
        rw [← List.count_append, List.singleton_append]
      rw [ih h, length_step hstep, hcount, Nat.add_assoc]

/-- One of the calls. -/
theorem IntoSinks.call {op : Op} (h : IntoSinks edges (ops ++ op :: ops')) :
    ∀ e ∈ op.edge, IsSink (edges ++ edgesOf ops) e.2 := by
  induction ops generalizing edges with
  | nil =>
      rw [show edgesOf [] = [] from rfl, List.append_nil]
      exact h.1
  | cons o ops ih =>
      have hrest := ih h.2
      rw [List.append_assoc] at hrest
      exact hrest

/-- A call into a node that nothing leaves keeps the closure. -/
theorem closed_step {op : Op} (h : Closed m edges) (hop : ∀ e ∈ op.edge, IsSink edges e.2)
    (hstep : step m op = some m') (hsize : m.data.length ≤ 2 ^ 64) : Closed m' (edges ++ op.edge) := by
  cases op with
  | addNode =>
      obtain rfl := Option.some.inj hstep
      rw [show edges ++ Op.edge .addNode = edges from List.append_nil _]
      exact closed_addNode h
  | addEdge src dst =>
      have hstep : m.addEdge src dst = some m' := hstep
      by_cases hsame : src = dst
      · -- a loop changes nothing
        rw [addEdge, if_pos hsame] at hstep
        obtain rfl := Option.some.inj hstep
        rw [show Op.edge (.addEdge src dst) = [] from if_pos hsame, List.append_nil]
        exact h
      · have hedge : Op.edge (.addEdge src dst) = [(src, dst)] := if_neg hsame
        have hin : src < m.data.length ∧ dst < m.data.length := by
          rw [addEdge, if_neg hsame] at hstep
          obtain ⟨fromRow, hfrom, hstep⟩ := Option.bind_eq_some_iff.mp hstep
          obtain ⟨toRow, hto, -⟩ := Option.bind_eq_some_iff.mp hstep
          exact ⟨(List.getElem?_eq_some_iff.mp hfrom).1, (List.getElem?_eq_some_iff.mp hto).1⟩
        have hsink : IsSink edges dst := hop (src, dst) (by rw [hedge]; exact List.mem_singleton.mpr rfl)
        obtain ⟨m₁, hrun, -, hclosed⟩ := closed_addEdge h hsize hin.1 hin.2 hsink
        obtain rfl := Option.some.inj (hrun.symm.trans hstep)
        rw [hedge]
        exact hclosed

/-- **Calls into sinks keep the closure.** -/
theorem closed_foldlM (h : Closed m edges) (hops : IntoSinks edges ops) (hrun : ops.foldlM step m = some m')
    (hsize : m'.data.length ≤ 2 ^ 64) : Closed m' (edges ++ edgesOf ops) := by
  induction ops generalizing m edges with
  | nil =>
      obtain rfl : m = m' := Option.some.inj hrun
      rw [show edgesOf [] = [] from rfl, List.append_nil]
      exact h
  | cons op ops ih =>
      have hlen := length_foldlM hrun
      rw [List.foldlM_cons] at hrun
      obtain ⟨m₁, hstep, hrun⟩ := Option.bind_eq_some_iff.mp hrun
      have hclosed := ih (closed_step h hops.1 hstep (by omega)) hops.2 hrun
      rw [List.append_assoc] at hclosed
      exact hclosed

end General

namespace Nonblock

open General (IntoNewest IntoSinks edgesOf made)
open Serial (Event)

/-! ## Syncs whose branches are not both attached

The condition is on the state before the sync, and it is about the forks alone: going back over them, the left branch
and what is behind it are never attached both (`neverBoth`). Then the first loop merges sets and adds no edge, so that
all edges of the sync go to the join node. -/

/-- Going back over the forks of a block from the last one, no left branch is attached while something behind it
    is; `right` says whether something is. -/
def neverBoth (σ : State) : Bool → List ForkNodeData → Bool
  | _, [] => true
  | right, d :: ds =>
      !(d.ljp.any σ.attached && right) && neverBoth σ (right || d.ljp.any σ.attached || d.fork.any σ.attached) ds

/-- The block of the top frame may be joined. -/
def joinsApart (d : DriverState State SframeData SfutData) : Bool :=
  match d.sstack with
  | g :: _ => neverBoth d.reach (d.reach.attached d.reach.tCurrent) g.data.forkStack
  | [] => true

variable {σ σ' : State} {ops : List General.Op}

/-- The forks and join parents of a block lie before the last segment. -/
theorem below_forks {items : List Item} {forks : List (Nat × Nat)} (hb : Below σ (forks.map joinItem ++ items)) :
    ∀ x ∈ forks, x.1 < x.2 ∧ x.2 < start (forks.map joinItem ++ items) := by
  induction forks with
  | nil =>
      intro x hx
      cases hx
  | cons y forks ih =>
      obtain ⟨hleft, -, -, hseg, hrest⟩ := hb
      have hle : y.1 + 1 ≤ y.2 := hleft.le
      have hle' : start (forks.map joinItem ++ items) ≤ y.1 := hseg.le
      have hstart : start ((y :: forks).map joinItem ++ items) = y.2 + 1 := rfl
      intro x hx
      rw [hstart]
      rcases List.mem_cons.mp hx with rfl | hx
      · exact ⟨hle, Nat.lt_succ_self _⟩
      · obtain ⟨h₁, h₂⟩ := ih hrest x hx
        exact ⟨h₁, by omega⟩

section Join

variable {c fork ljp fake num : Nat} {items : List Item} {ps : List Nat}

/-- A fork with an unattached branch changes nothing below its segment, and calls nothing. -/
theorem Handled.apart (hh : Handled σ fork ljp fake σ' ops)
    (hj : Joining σ c (.join fork ljp :: items) fake num ps)
    (hapart : σ.attached ljp = true → σ.attached fake = false) : ops = [] ∧ Agree (start items) σ σ' ∧
      (σ'.attached fork = true → σ.attached fork = true ∨ σ.attached ljp = true ∨ σ.attached fake = true) := by
  obtain ⟨h₁, h₂, h₃, h₄, h₅⟩ := hj.bounds
  obtain ⟨-, hrl, hrr, hlow⟩ := hj.roots
  cases hh with
  | none hl hr =>
      have hlin := hrl ljp (by omega) (Nat.le_refl _)
      have hrin := hrr fake (by omega) h₄
      have hfind := hj.find_both
      have hagree : Agree (start items) σ ((σ.merge fork ljp).merge fork fake) := by
        refine ⟨?_, fun _ _ => rfl⟩
        intro z hz
        have hzlow := hlow z (by omega)
        rw [hfind, if_neg (by omega)]
      refine ⟨rfl, hagree, fun hatt => Or.inl ?_⟩
      have hforklow := hlow fork (Nat.le_refl _)
      rw [State.attached_iff, hfind, if_neg (by omega)] at hatt
      exact State.attached_iff.mpr hatt
  | left hl hr =>
      obtain ⟨hf, -⟩ := absorb_spec hj (Nat.lt_succ_self fork) (by omega) (by rw [hj.left.1, hl])
      exact ⟨rfl, hf.agree, fun _ => Or.inr (Or.inl hl)⟩
  | right hl hr =>
      obtain ⟨hf, -⟩ := absorb_spec hj (show fork < ljp + 1 by omega) (by omega) (by rw [hj.right.1, hr])
      exact ⟨rfl, hf.agree, fun _ => Or.inr (Or.inr hr)⟩
  | both hl hr =>
      rw [hapart hl] at hr
      cases hr

/-- The forks that are left see the same sets. -/
theorem neverBoth_congr {forks : List (Nat × Nat)}
    (hatt : ∀ x ∈ forks, σ'.attached x.1 = σ.attached x.1 ∧ σ'.attached x.2 = σ.attached x.2) (right : Bool) :
    neverBoth σ' right (forks.map entry) = neverBoth σ right (forks.map entry) := by
  induction forks generalizing right with
  | nil => rfl
  | cons x forks ih =>
      obtain ⟨h₁, h₂⟩ := hatt x List.mem_cons_self
      rw [List.map_cons, neverBoth, neverBoth, ih fun y hy => hatt y (List.mem_cons_of_mem x hy)]
      simp only [entry, Option.any_some, h₁, h₂]

/-- **A join that never has both branches attached** makes no calls in its first loop. -/
theorem JoinRun.apart {forks : List (Nat × Nat)} {fake' num' : Nat} {ps' : List Nat}
    (h : JoinRun c items σ forks fake num ps σ' fake' num' ps' ops) :
    ∀ right : Bool, (σ.attached fake = true → right = true) → neverBoth σ right (forks.map entry) = true →
      ops = [] := by
  induction h with
  | nil =>
      intro right _ _
      rfl
  | @step σ σ₁ σ' fork ljp forks fake fake' num num' ps ps' ops ops' hj hh hk hj' hrest ih =>
      intro right hright hnever
      rw [List.map_cons, neverBoth, Bool.and_eq_true] at hnever
      obtain ⟨hhead, hnever⟩ := hnever
      simp only [entry, Option.any_some] at hhead hnever
      obtain ⟨rfl, hagree, hfork⟩ := hh.apart hj (by
        intro hl
        cases hr : σ.attached fake with
        | false => rfl
        | true =>
            rw [hl, hright hr] at hhead
            cases hhead)
      -- the sets of the other forks are as they were
      have hlow : ∀ z, z < start (forks.map joinItem ++ items) → σ₁.attached z = σ.attached z := by
        intro z hz
        exact hagree.attached hz (hj.below.2.2.2.2.find_lt z hz)
      have hforks := below_forks hj.below.2.2.2.2
      have hsame : ∀ x ∈ forks, σ₁.attached x.1 = σ.attached x.1 ∧ σ₁.attached x.2 = σ.attached x.2 := by
        intro x hx
        obtain ⟨h₁, h₂⟩ := hforks x hx
        exact ⟨hlow _ (Nat.lt_trans h₁ h₂), hlow _ h₂⟩
      refine ih (right || σ.attached ljp || σ.attached fork) ?_ ?_
      · intro hatt
        rcases hfork hatt with h | h | h
        · simp [h]
        · simp [h]
        · simp [hright h]
      · rw [neverBoth_congr hsame]
        exact hnever

end Join

/-! ## The calls of an event

The closure is kept by calls that go into sinks, and the newest node is one. An event makes a node of `R` before it
adds edges to it, and other edges, if any, are loops, which `add_edge` leaves out; this section goes through the
events and reads the order of the calls off `Acts`. -/

/-- `attachify` makes a node and adds an edge to it, or does nothing. -/
theorem attachOps_newest (hok : NodesOk σ) (n p : Nat) :
    IntoNewest σ.mR.data.length (attachOps σ n p) ∧
      made (attachOps σ n p) = if σ.attached n = true then 0 else 1 := by
  unfold attachOps
  split
  · exact ⟨trivial, rfl⟩
  · exact ⟨⟨Or.inr ⟨hok.id_lt _, rfl⟩, trivial⟩, rfl⟩

/-- So does a new attached set. -/
theorem newOps_newest (hok : NodesOk σ) (u : Nat) : IntoNewest σ.mR.data.length (newOps σ u) ∧ made (newOps σ u) = 1 :=
  ⟨⟨Or.inr ⟨hok.id_lt _, rfl⟩, trivial⟩, rfl⟩

/-- After `attachify` there are as many ids as its calls have made, when the next id is known to be free. -/
theorem Attachified.length_data {σ₁ : State} {n p : Nat} (hatt : Attachified σ σ₁ n) (hok : NodesOk σ) (hok₁ : NodesOk σ₁)
    (hfree : σ₁.mR.data.length < σ.mR.data.length + made (attachOps σ n p) + 1) :
    σ₁.mR.data.length = σ.mR.data.length + made (attachOps σ n p) := by
  rw [(attachOps_newest hok n p).2] at hfree ⊢
  cases ha : σ.attached n with
  | true =>
      rw [hatt.old ha]
      simp
  | false =>
      have hid := hok₁.id_lt (σ.find n)
      rw [hatt.newId ha] at hid
      rw [ha] at hfree
      simp only [Bool.false_eq_true, if_false] at hfree ⊢
      omega

/-- `attachify` and then a new attached set behind it. -/
theorem attach_new_newest {σ₁ : State} {u p : Nat} {n : Node} {sp : Bags} {bag : Option Nat} {more : List General.Op}
    (hok : NodesOk σ) (hok₁ : NodesOk σ₁) (hatt : Attachified σ σ₁ u)
    (hid : n.id = σ₁.mR.data.length) (hnew : NewNode σ₁ σ' n) (hmade : made more = 0)
    (hmore : IntoNewest (σ₁.mR.data.length + 1) more)
    (hadv : Advanced σ σ' sp bag (attachOps σ u p ++ (newOps σ₁ u ++ more))) :
    IntoNewest σ.mR.data.length (attachOps σ u p ++ (newOps σ₁ u ++ more)) := by
  obtain ⟨hfirst, hone⟩ := newOps_newest hok₁ u
  have hlen := General.length_foldlM hadv.did.run
  have hcount : made (attachOps σ u p ++ (newOps σ₁ u ++ more)) = made (attachOps σ u p) + 1 := by
    have happ : ∀ l l' : List General.Op, made (l ++ l') = made l + made l' := fun l l' => List.count_append
    rw [happ, happ, hone, hmade]
  -- the id of the new node is one of `R`
  have hfree : σ₁.mR.data.length < σ'.mR.data.length := by
    have hlt := hadv.ok.id_lt σ₁.nodes.length
    rw [hnew.new, hid] at hlt
    exact hlt
  have hdata := hatt.length_data (p := p) hok hok₁ (by omega)
  refine General.intoNewest_append.mpr ⟨(attachOps_newest hok u p).1, ?_⟩
  rw [← hdata]
  refine General.intoNewest_append.mpr ⟨hfirst, ?_⟩
  rw [hone]
  exact hmore

/-- The third loop adds edges to the join node, which is the newest one or has an id of its own set. -/
theorem linkOps_newest {j n : Nat} {ps : List Nat} (h : ∀ p ∈ ps, σ.attached p = true →
    (σ.setOf p).id = (σ.setOf j).id ∨ ((σ.setOf p).id < (σ.setOf j).id ∧ (σ.setOf j).id + 1 = n)) :
    IntoNewest n (linkOps σ j ps) := by
  unfold linkOps
  induction ps with
  | nil => trivial
  | cons p ps ih =>
      have ih := ih fun q hq => h q (List.mem_cons_of_mem p hq)
      cases ha : σ.attached p with
      | true =>
          rw [List.filter_cons_of_pos ha]
          exact ⟨h p List.mem_cons_self ha, ih⟩
      | false =>
          rw [List.filter_cons_of_neg (by simp [ha])]
          exact ih

/-- The second and the third loop add edges to the join node only. -/
theorem Finished.newest {items : List Item} {c fake num : Nat} {ps : List Nat} (h : Finished σ c num ps σ' ops)
    (hj : Joining σ c items fake num ps) : IntoNewest σ.mR.data.length ops := by
  cases h with
  | none => trivial
  | @one _ σ₁ _ r hid hself hps hex h₁ hr h' =>
      refine linkOps_newest fun p hp ha => Or.inl ?_
      have hne : p ≠ c + 1 := by
        have hin := hj.parents p hp
        omega
      rw [h₁.attached hne] at ha
      unfold State.setOf
      rw [h₁.find p hne, hps p hp ha, hr]
  | @many _ _ σ₁ _ hnum h₁ hok h' =>
      have hlen := hj.length
      have hjn : c + 1 < σ.addNode.1.nodes.length := by
        show c + 1 < σ.nodes.length
        omega
      have hdata : σ₁.mR.data.length = σ.mR.data.length + 1 := by
        rw [h₁]
        simp [State.setSelf, State.modify, State.addNode, General.addNode]
      have hjoin : (σ₁.setOf (c + 1)).id = σ.mR.data.length := by
        have hfind : σ₁.find (c + 1) = c + 1 := by
          rw [h₁]
          exact hj.joinRoot
        have hlt : c + 1 < (σ.addNode.1.modify (c + 1) fun n => { n with id := σ.addNode.2 }).nodes.length := by
          simp only [State.modify, List.length_modify]
          exact hjn
        unfold State.setOf
        rw [hfind, h₁, State.setSelf, State.node_modify hlt, if_pos rfl, State.node_modify hjn, if_pos rfl]
        rfl
      refine linkOps_newest fun p _ _ => ?_
      have hlt : (σ₁.setOf p).id < σ₁.mR.data.length := hok.id_lt _
      omega

/-- The first loop keeps what a join keeps. -/
theorem JoinRun.kept {items : List Item} {c fake fake' num num' : Nat} {forks : List (Nat × Nat)} {ps ps' : List Nat}
    (h : JoinRun c items σ forks fake num ps σ' fake' num' ps' ops) : Kept σ σ' ops := by
  induction h with
  | nil => exact Kept.refl _
  | step _ _ hk _ _ ih => exact hk.trans ih

/-- A sync that joins its branches apart. -/
theorem Synced.newest {items : List Item} {forks : List (Nat × Nat)} (h : Synced σ items forks σ' ops) (hok : NodesOk σ)
    (hcur : σ.tCurrent < σ.nodes.length) (hforks : ∀ x ∈ forks, x.1 < σ.nodes.length ∧ x.2 < σ.nodes.length)
    (hnever : neverBoth σ (σ.attached σ.tCurrent) (forks.map entry) = true) :
    IntoNewest σ.mR.data.length ops := by
  cases h with
  | @mk σ₁ _ fake num ps ops₁ ops' h₁ hj h' =>
      have hnew := newNode_new hok.forest 0
      have hatt : ∀ z, z < σ.nodes.length → (σ.newNode 0).1.attached z = σ.attached z :=
        fun z hz => hnew.agree.attached hz (hok.find_lt hz)
      obtain rfl := h₁.apart (σ.attached σ.tCurrent) (fun ha => (hatt _ hcur).symm.trans ha)
        ((neverBoth_congr (fun x hx => ⟨hatt _ (hforks x hx).1, hatt _ (hforks x hx).2⟩) _).trans hnever)
      have hdata : σ₁.mR = σ.mR := (Option.some.inj h₁.kept.did.run).symm
      have hnewest := h'.newest hj
      rw [hdata] at hnewest
      exact hnewest

/-- **The calls of one event**, when a sync joins its branches apart. -/
theorem Acts.newest {s : Serial.State} {e : Event} (h : Acts s σ e σ') (hok : NodesOk σ)
    (hl : Live σ (items s.frames) σ.tCurrent) (hcur : σ.tCurrent + 1 = σ.nodes.length)
    (hnever : e = .sync → ∀ f rest, s.frames = f :: rest →
      neverBoth σ (σ.attached σ.tCurrent) ((forksOf f).map entry) = true) :
    ∃ ops, Did σ σ' ops ∧ IntoNewest σ.mR.data.length ops := by
  cases h with
  | idle => exact ⟨[], Did.refl σ, trivial⟩
  | spawn hnew hadv => exact ⟨[], hadv.did, trivial⟩
  | spawnRet hf hk hnew hadv => exact ⟨[], hadv.did, trivial⟩
  | @sync σ₁ _ sp bag ops f rest hf hu hsync hσ' hadv =>
      have hsame := (@neverBoth_congr σ { σ with mSp := sp } (forksOf f) (fun _ _ => ⟨rfl, rfl⟩)
        (σ.attached σ.tCurrent)).trans (hnever rfl f rest hf)
      refine ⟨ops, hadv.did, hsync.newest (hok.bags sp) (hcur ▸ Nat.lt_succ_self _) ?_ hsame⟩
      intro x hx
      have hbelow : Below σ ((forksOf f).map joinItem ++ (kindItems f.kind ++ items rest)) := by
        have hbelow := hl.below
        rw [hf] at hbelow
        exact hbelow
      obtain ⟨h₁, h₂⟩ := below_forks hbelow x hx
      have hle := hl.seg.le
      rw [hf] at hle
      have hle : start ((forksOf f).map joinItem ++ (kindItems f.kind ++ items rest)) ≤ σ.tCurrent := hle
      show x.1 < σ.nodes.length ∧ x.2 < σ.nodes.length
      omega
  | @create σ₁ _ sp bag p hp hok₁ hatt hnew hadv =>
      refine ⟨_, hadv.did, ?_⟩
      have hadv' : Advanced { σ with mSp := sp } σ' sp bag
          (attachOps { σ with mSp := sp } σ.tCurrent p ++ (newOps σ₁ σ.tCurrent ++ [])) := by
        rw [List.append_nil]
        exact ⟨hadv.ok, hadv.length, hadv.tCurrent, hadv.mSp, hadv.attached, hadv.sbag, hadv.newBag,
          ⟨hadv.did.calls, hadv.did.run⟩⟩
      have hnone : IntoNewest (σ₁.mR.data.length + 1) [] := trivial
      have hnewest := attach_new_newest (hok.bags sp) hok₁ hatt rfl hnew rfl hnone hadv'
      rw [List.append_nil] at hnewest
      exact hnewest
  | finish hf hk hnew hadv => exact ⟨_, hadv.did, (newOps_newest hok _).1⟩
  | @get σ₁ _ bag p fut fin hfin hlast hp hok₁ hatt hnew hadv =>
      refine ⟨_, hadv.did, attach_new_newest hok hok₁ hatt rfl hnew rfl ?_ hadv⟩
      exact ⟨Or.inr ⟨hok₁.id_lt _, rfl⟩, trivial⟩

/-! ## Every run

By induction on the run: `NewestCalls` is about all calls so far, and each event appends its own. The log of calls is
a ghost field of the state, so the conclusion can name the edges; the rows it speaks of are those of the real matrix. -/

/-- The calls so far, on the matrix they have made. -/
structure NewestCalls (σ : State) : Prop where
  newest : IntoNewest 1 σ.calls
  run : σ.calls.foldlM General.step .new = some σ.mR

/-- More calls that keep to it. -/
theorem NewestCalls.did (h : NewestCalls σ) (hdid : Did σ σ' ops) (hops : IntoNewest σ.mR.data.length ops) :
    NewestCalls σ' where
  newest := by
    have hlen : σ.mR.data.length = 1 + made σ.calls := General.length_foldlM h.run
    rw [hdid.calls]
    refine General.intoNewest_append.mpr ⟨h.newest, ?_⟩
    rw [← hlen]
    exact hops
  run := by
    rw [hdid.calls, List.foldlM_append, h.run]
    exact hdid.run

/-- So the matrix is the closure of the edges. -/
theorem NewestCalls.closed (h : NewestCalls σ) (hsize : σ.mR.data.length ≤ 2 ^ 64) :
    IntoSinks [] σ.calls ∧ General.Closed σ.mR (edgesOf σ.calls) := by
  have hsinks : IntoSinks [] σ.calls := General.intoSinks_of_newest h.newest fun e he => nomatch he
  exact ⟨hsinks, General.closed_foldlM General.closed_new hsinks h.run hsize⟩

/-- Whenever the run syncs, it joins its branches apart. -/
def JoinsApart (as : List Action) : Prop :=
  ∀ as₁ as₂ x, as = as₁ ++ .event .sync :: as₂ → Exec.run ds rules as₁ = some x → joinsApart x.tool = true

/-- A shorter run. -/
theorem JoinsApart.init {as : List Action} {a : Action} (h : JoinsApart (as ++ [a])) : JoinsApart as := by
  intro as₁ as₂ x has
  refine h as₁ (as₂ ++ [a]) x ?_
  rw [has, List.append_assoc, List.cons_append]

/-- Without a sync there is nothing to join. -/
theorem joinsApart_nil : JoinsApart [] := by
  intro as₁ as₂ x has
  exact absurd has (List.append_ne_nil_of_right_ne_nil as₁ (List.cons_ne_nil _ as₂)).symm

/-- One more action. -/
theorem JoinsApart.concat {as : List Action} {a : Action} (h : JoinsApart as)
    (ha : a = .event .sync → ∀ x, Exec.run ds rules as = some x → joinsApart x.tool = true) :
    JoinsApart (as ++ [a]) := by
  intro as₁ as₂ x has hrun
  rcases List.eq_nil_or_concat as₂ with rfl | ⟨as₃, a', rfl⟩
  · obtain ⟨rfl, hlast⟩ := List.append_inj' has rfl
    exact ha (List.cons.inj hlast).1 x hrun
  · rw [List.concat_eq_append, ← List.cons_append, ← List.append_assoc] at has
    exact h as₁ as₃ x (List.append_inj' has rfl).1 hrun

/-- The fork stack of a frame that may sync has its finished children only. -/
theorem Inv.neverBoth {x : Exec State SframeData SfutData Nat}
    {b : DriverState Bags Structured.SframeData Structured.SfutData} {h : Owner} {locs : List Serial.Loc}
    {sbags : List Nat} (hx : Inv x b h locs sbags) (happart : joinsApart x.tool = true) {s' : Serial.State}
    (hs : Serial.step rules x.prog .sync = some s') {f : Serial.Frame} {rest : List Serial.Frame}
    (hf : x.prog.frames = f :: rest) : neverBoth x.tool.reach (x.tool.reach.attached x.tool.reach.tCurrent)
      ((forksOf f).map entry) = true := by
  obtain ⟨g, grest, hg, hfg, -⟩ := hx.top hf
  have hspawn : rules.canSpawn f.kind = true := by
    cases Serial.Step.of_step hs with
    | sync hf' hspawn _ =>
        rw [hf] at hf'
        cases hf'
        exact hspawn
    | synced hf' hspawn _ =>
        rw [hf] at hf'
        cases hf'
        exact hspawn
  have hhelper : helperEntry f.kind = [] := by
    cases hkind : f.kind with
    | spawned fork =>
        rw [hkind] at hspawn
        cases hspawn
    | function => rfl
    | future fut fork => rfl
  unfold joinsApart at happart
  rw [hg] at happart
  have hnever : Nonblock.neverBoth _ _ g.data.forkStack = true := happart
  rw [hfg.forkStack, hhelper, List.append_nil] at hnever
  exact hnever

/-- **In every run** whose syncs join their branches apart, all calls so far go to the newest node. By induction on
    the run. -/
theorem newestCalls_of_progRun {as : List Action} {s : Serial.State} (h : ProgRun rules as s)
    (hroom : s.dag.length + 1 < 2 ^ 64) (hapart : JoinsApart as) : ∃ x b h locs sbags,
    Exec.run ds rules as = some x ∧ x.prog = s ∧ Inv x b h locs sbags ∧ NewestCalls x.tool.reach := by
  induction h with
  | nil =>
      obtain ⟨x, b, h, locs, sbags, hinit, hs, hreach, hinv⟩ := inv_init
      refine ⟨x, b, h, locs, sbags, by simp [Exec.run, hinit, Exec.runFrom], hs, hinv, ?_⟩
      rw [hreach]
      exact ⟨⟨Or.inl rfl, trivial⟩, rfl⟩
  | @event as _ _ e _ hs ih =>
      have hle := dag_length_le (Serial.Step.of_step hs)
      obtain ⟨x, b, h, locs, sbags, hrun, rfl, hinv, hcalls⟩ := ih (by omega) hapart.init
      obtain ⟨x', b', h', locs', sbags', hstep, hs', hinv', hacts⟩ := inv_step hinv (by omega) hs
      obtain ⟨ops, hdid, hops⟩ := hacts.newest hinv.nodes hinv.live hinv.curLt (by
        rintro rfl f rest hf
        exact hinv.neverBoth (hapart as [] x rfl hrun) hs hf)
      exact ⟨x', b', h', locs', sbags', by rw [Exec.run_concat, hrun]; exact hstep, hs', hinv', hcalls.did hdid hops⟩
  | query _ hi ih =>
      obtain ⟨x, b, h, locs, sbags, hrun, rfl, hinv, hcalls⟩ := ih hroom hapart.init
      obtain ⟨x', answer, b', hq, hs', hinv', hR, hc⟩ := inv_query hinv hi
      refine ⟨x', b', h, locs, sbags, by rw [Exec.run_concat, hrun]; simp [Exec.act, hq], hs', hinv', ?_, ?_⟩
      · rw [hc]
        exact hcalls.newest
      · rw [hc, hR]
        exact hcalls.run

/-- **MultiBags+ keeps to the assumption of `add_edge`**, and its matrix is the closure of the edges, in every run
whose syncs join their branches apart. -/
theorem nonblock_closed {as : List Action} {s : Serial.State} (h : ProgRun rules as s)
    (hroom : s.dag.length + 1 < 2 ^ 64) (hapart : JoinsApart as) : ∃ x, Exec.run ds rules as = some x ∧ x.prog = s ∧
      IntoSinks [] x.tool.reach.calls ∧ General.Closed x.tool.reach.mR (edgesOf x.tool.reach.calls) := by
  obtain ⟨x, b, h, locs, sbags, hrun, rfl, hinv, hcalls⟩ := newestCalls_of_progRun h hroom hapart
  have hdata := hinv.nodes.data_le
  rw [hinv.length] at hdata
  obtain ⟨hsinks, hclosed⟩ := hcalls.closed (by omega)
  exact ⟨x, hrun, rfl, hsinks, hclosed⟩

/-- A spawned function whose two branches, a spawned one and its continuation, both create a future. -/
def bothAttached : List Event := [.spawn, .call, .spawn, .create, .finish 0, .spawnRet, .create, .finish 1, .sync]

/-- **An edge is added behind which there are others**: the sync puts the fork, node `8`, before the nodes `2` and `5`,
which reach others by then. `8` reaches `3` along the edges, and the matrix does not know it. -/
theorem bothAttached_edge : ∃ x, Exec.run ds rules (bothAttached.map .event) = some x ∧
    ¬IntoSinks [] x.tool.reach.calls ∧ PathIn (edgesOf x.tool.reach.calls) 8 3 ∧
      x.tool.reach.mR.precedes 8 3 = some false := by
  obtain ⟨x, hrun, hcalls, hprec⟩ : ∃ x, Exec.run ds rules (bothAttached.map .event) = some x ∧
      x.tool.reach.calls = [.addNode, .addEdge 1 1, .addNode, .addEdge 1 2, .addNode, .addEdge 2 3, .addNode,
        .addEdge 2 4, .addNode, .addEdge 1 5, .addNode, .addEdge 5 6, .addNode, .addEdge 5 7, .addNode,
        .addEdge 1 8] ++ .addEdge 8 2 :: [.addEdge 8 5, .addNode, .addEdge 7 9, .addEdge 4 9] ∧
      x.tool.reach.mR.precedes 8 3 = some false := ⟨_, rfl, by decide, by decide⟩
  refine ⟨x, hrun, ?_, ?_, hprec⟩
  · intro hsinks
    rw [hcalls] at hsinks
    have hsink := hsinks.call (8, 2) (by decide)
    exact absurd (hsink 3 (by decide)) (by decide)
  · rw [hcalls]
    refine Relation.ReflTransGen.head (b := 2) ?_ (PathIn.of_mem ?_)
    · decide
    · decide

/-- Only one branch creates a future. -/
theorem nonblock_closed_oneBranch : ∃ x, Exec.run ds rules ([.spawn, .create, .finish 0, .spawnRet, .sync].map .event) =
    some x ∧ x.prog.cur = 5 ∧ General.Closed x.tool.reach.mR (edgesOf x.tool.reach.calls) := by
  have hrun : ProgRun rules ([.spawn, .create, .finish 0, .spawnRet, .sync].map .event) _ :=
    ((((ProgRun.nil.event rfl).event rfl).event rfl).event rfl).event rfl
  have hapart : JoinsApart ([.spawn, .create, .finish 0, .spawnRet, .sync].map .event) := by
    have h₁ : JoinsApart [.event .spawn] := joinsApart_nil.concat (fun h => nomatch h)
    have h₂ : JoinsApart [.event .spawn, .event .create] := h₁.concat (fun h => nomatch h)
    have h₃ : JoinsApart [.event .spawn, .event .create, .event (.finish 0)] := h₂.concat (fun h => nomatch h)
    have h₄ : JoinsApart [.event .spawn, .event .create, .event (.finish 0), .event .spawnRet] :=
      h₃.concat (fun h => nomatch h)
    refine h₄.concat fun _ x hx => ?_
    obtain rfl := Option.some.inj hx
    decide
  obtain ⟨x, hx, hs, -, hclosed⟩ := nonblock_closed hrun (by decide) hapart
  exact ⟨x, hx, by rw [hs]; rfl, hclosed⟩

end Nonblock
end FOrder.Futurerd
